import TableAssembler.Object.Assembler
import TableAssembler.Proofs.Statement.Grammar
import TableAssembler.Proofs.Table.Batch

/-!
# Programs as a whole

What statements stand for when they are looked at all together, without any state.

* `Expands`, `Yields`          the data of a statement, and of several;
* `Resolves`                   the record type that some types stand for;
* `lead`, `sections`           the statements before the first record type, and after each;
* `Section.Fills`              the batch of a record type;
* `definitions`                the atoms that are defined;
* `Acceptable`                 the programs that make an object.
-/

namespace TableAssembler

/-! ## data -/

/-- whether a statement packs data -/
def Node.isData : Node → Bool
  | .value .. | .atomRef .. | .binary .. | .string .. => true
  | _ => false

/-- the data that a statement stands for -/
inductive Expands : Node → List Node → Prop
  | value {number : Number} {kind : ValueKind} {t : Option Nat} :
      Expands (.value number kind t) [.value number kind t]
  | atomRef {name : String} {t : Option Nat} : Expands (.atomRef name t) [.atomRef name t]
  | folded {lhs rhs n : Node} {op : Operator} {t : Option Nat} (other : op ≠ .replicate)
      (datum : (Node.binary lhs op rhs t).fold = .ok n) : Expands (.binary lhs op rhs t) [n]
  | repeated {lhs rhs n : Node} {t : Option Nat} {c : Int}
      (count : rhs.evaluate = .ok (.integer c)) (low : 0 ≤ c) (high : c ≤ 65536)
      (datum : lhs.fold = .ok n) :
      Expands (.binary lhs .replicate rhs t) (List.replicate c.toNat n)
  | string {text : String} {t : Option Nat} :
      Expands (.string text t) (text.toList.map fun c => .value (.integer c.toNat) .uint t)

theorem Expands.isData {n : Node} {ds : List Node} (h : Expands n ds) : n.isData = true := by
  cases h <;> rfl

theorem repeatCount_eq_ok_iff {count : Number} {t : Option Nat} {k : Nat} :
    repeatCount count t = .ok k
      ↔ ∃ c : Int, count = .integer c ∧ 0 ≤ c ∧ c ≤ 65536 ∧ k = c.toNat := by
  have hlimit : ((repeatLimit : Nat) : Int) = 65536 := rfl
  cases count with
  | real x =>
    constructor
    · intro h
      cases h
    · rintro ⟨c, h, _⟩
      cases h
  | integer c =>
    simp only [repeatCount, hlimit]
    constructor
    · intro h
      split at h
      · cases h
      · split at h
        · cases h
        · cases h
          exact ⟨c, rfl, by omega, by omega, rfl⟩
    · rintro ⟨_, h, low, high, rfl⟩
      cases h
      rw [if_neg (by omega), if_neg (by omega)]

theorem bind_eq_ok_iff {ε α β : Type} {x : Except ε α} {f : α → Except ε β} {r : β} :
    (x >>= f) = .ok r ↔ ∃ a, x = .ok a ∧ f a = .ok r := by
  cases x with
  | error e =>
    constructor
    · intro h
      cases h
    · rintro ⟨a, h, _⟩
      cases h
  | ok a =>
    constructor
    · exact fun h => ⟨a, rfl, h⟩
    · rintro ⟨_, h, hf⟩
      cases h
      exact hf

theorem bind_eq_error_iff {ε α β : Type} {x : Except ε α} {f : α → Except ε β} {e : ε} :
    (x >>= f) = .error e ↔ x = .error e ∨ ∃ a, x = .ok a ∧ f a = .error e := by
  cases x with
  | error e' =>
    constructor
    · intro h
      cases h
      exact .inl rfl
    · rintro (h | ⟨a, h, _⟩)
      · cases h
        rfl
      · cases h
  | ok a =>
    constructor
    · exact fun h => .inr ⟨a, rfl, h⟩
    · rintro (h | ⟨_, h, hf⟩)
      · cases h
      · cases h
        exact hf

theorem expand_binary {lhs rhs : Node} {op : Operator} {t : Option Nat} (h : op ≠ .replicate) :
    (Node.binary lhs op rhs t).expand
      = (Node.binary lhs op rhs t).fold >>= fun n => .ok [n] := by
  cases op <;> first | rfl | exact absurd rfl h

theorem expand_replicate (lhs rhs : Node) (t : Option Nat) :
    (Node.binary lhs .replicate rhs t).expand
      = rhs.evaluate >>= fun count => repeatCount count t >>= fun k =>
          lhs.fold >>= fun n => .ok (List.replicate k n) := rfl

theorem expand_eq_ok_iff {n : Node} (hn : n.isData = true) {ds : List Node} :
    n.expand = .ok ds ↔ Expands n ds := by
  constructor
  · intro h
    cases n with
    | value number kind t => cases h; exact .value
    | atomRef name t => cases h; exact .atomRef
    | string text t => cases h; exact .string
    | binary lhs op rhs t =>
      by_cases hop : op = .replicate
      · rw [hop, expand_replicate] at h
        obtain ⟨count, hcount, h⟩ := bind_eq_ok_iff.mp h
        obtain ⟨k, hk, h⟩ := bind_eq_ok_iff.mp h
        obtain ⟨n, hn, h⟩ := bind_eq_ok_iff.mp h
        obtain ⟨c, rfl, low, high, rfl⟩ := repeatCount_eq_ok_iff.mp hk
        cases h
        rw [hop]
        exact .repeated hcount low high hn
      · rw [expand_binary hop] at h
        obtain ⟨n, hn, h⟩ := bind_eq_ok_iff.mp h
        cases h
        exact .folded hop hn
    | _ => cases hn
  · intro h
    cases h with
    | value => rfl
    | atomRef => rfl
    | string => rfl
    | folded other datum => rw [expand_binary other, datum]; rfl
    | @repeated lhs rhs n t c count low high datum =>
      have hcount : repeatCount (.integer c) t = .ok c.toNat :=
        repeatCount_eq_ok_iff.mpr ⟨c, rfl, low, high, rfl⟩
      rw [expand_replicate, count]
      show (repeatCount (.integer c) t >>= _) = _
      rw [hcount, datum]
      rfl

/-- a statement stands for no other data -/
theorem Expands.unique {n : Node} {ds es : List Node} (h : Expands n ds) (h' : Expands n es) :
    ds = es :=
  have hds := (expand_eq_ok_iff h.isData).mpr h
  Except.ok.inj (hds.symm.trans ((expand_eq_ok_iff h.isData).mpr h'))

/-- the data of several statements, in order -/
inductive Yields : List Node → List Node → Prop
  | nil : Yields [] []
  | other {n : Node} {ns ds : List Node} (other : n.isData = false) (more : Yields ns ds) :
      Yields (n :: ns) ds
  | data {n : Node} {ns es ds : List Node} (first : Expands n es) (more : Yields ns ds) :
      Yields (n :: ns) (es ++ ds)

theorem yields_other_iff {n : Node} {ns ds : List Node} (hn : n.isData = false) :
    Yields (n :: ns) ds ↔ Yields ns ds := by
  constructor
  · intro h
    cases h with
    | other _ more => exact more
    | data first more => rw [first.isData] at hn; cases hn
  · exact .other hn

theorem yields_data_iff {n : Node} {ns ds : List Node} (hn : n.isData = true) :
    Yields (n :: ns) ds ↔ ∃ es fs, Expands n es ∧ Yields ns fs ∧ ds = es ++ fs := by
  constructor
  · intro h
    cases h with
    | other hother more => rw [hn] at hother; cases hother
    | data first more => exact ⟨_, _, first, more, rfl⟩
  · rintro ⟨es, fs, first, more, rfl⟩
    exact .data first more

theorem Yields.unique {ns ds es : List Node} (h : Yields ns ds) (h' : Yields ns es) : ds = es := by
  induction h generalizing es with
  | nil => cases h'; rfl
  | other hother _ ih => exact ih ((yields_other_iff hother).mp h')
  | data first _ ih =>
    obtain ⟨es, fs, first', more', rfl⟩ := (yields_data_iff first.isData).mp h'
    rw [first.unique first', ih more']

/-- what holds of the data of each statement holds of the data of all -/
theorem Yields.forall_mem {P : Node → Prop} {ns ds : List Node} (h : Yields ns ds)
    (hP : ∀ n ∈ ns, ∀ es, Expands n es → ∀ d ∈ es, P d) : ∀ d ∈ ds, P d := by
  induction h with
  | nil => exact fun d hd => (nomatch hd)
  | other _ _ ih => exact ih fun n hn => hP n (List.mem_cons_of_mem _ hn)
  | data first _ ih =>
    exact List.forall_mem_append.mpr ⟨hP _ List.mem_cons_self _ first,
      ih fun n hn => hP n (List.mem_cons_of_mem _ hn)⟩

/-- statements have data if each of them has -/
theorem exists_yields_iff {ns : List Node} :
    (∃ ds, Yields ns ds) ↔ ∀ n ∈ ns, n.isData = true → ∃ ds, Expands n ds := by
  induction ns with
  | nil => exact ⟨fun _ n hn => (nomatch hn), fun _ => ⟨[], .nil⟩⟩
  | cons n ns ih =>
    rw [List.forall_mem_cons, ← ih]
    cases hn : n.isData with
    | false =>
      simp only [yields_other_iff hn]
      exact ⟨fun h => ⟨fun hd => (nomatch hd), h⟩, fun h => h.2⟩
    | true =>
      simp only [yields_data_iff hn]
      constructor
      · rintro ⟨_, es, fs, first, more, rfl⟩
        exact ⟨fun _ => ⟨es, first⟩, fs, more⟩
      · rintro ⟨first, fs, more⟩
        obtain ⟨es, first⟩ := first trivial
        exact ⟨_, es, fs, first, more, rfl⟩

/-! ## record types -/

/-- the field that a type stands for among some record types -/
inductive TypeField (structs : Structs) : Node → Field → Prop
  | primitive {name : String} {width : Int} {t : Option Nat} :
      TypeField structs (.primitive name width t) (.primitive ⟨name, width⟩)
  | nested {name : String} {t : Option Nat} {d : Definition Struct}
      (known : structs.find? name = some d) :
      TypeField structs (.structName name t) (d.symbol.nested name)

/-- the record type that some types stand for -/
structure Resolves (structs : Structs) (types : List Node) (record : Struct) : Prop where
  name : record.name = none
  fields : List.Forall₂ (TypeField structs) types record.fields

theorem field_resolve_eq_ok_iff {structs : Structs} {n : Node} {f : Field} :
    Field.resolve structs n = .ok f ↔ TypeField structs n f := by
  constructor
  · intro h
    cases n with
    | primitive name width t => cases h; exact .primitive
    | structName name t =>
      rw [Field.resolve_structName] at h
      cases hfind : structs.find? name with
      | none => rw [hfind] at h; cases h
      | some d => rw [hfind] at h; cases h; exact .nested hfind
    | _ => cases h
  · intro h
    cases h with
    | primitive => rfl
    | nested known => rw [Field.resolve_structName, known]

theorem extend_eq_ok_iff {structs : Structs} {s r : Struct} {types : List Node} :
    s.extend structs types = .ok r
      ↔ ∃ fs, List.Forall₂ (TypeField structs) types fs ∧ r = ⟨s.name, s.fields ++ fs⟩ := by
  induction types generalizing s with
  | nil =>
    constructor
    · intro h
      cases h
      exact ⟨[], .nil, by rw [List.append_nil]⟩
    · rintro ⟨_, h, rfl⟩
      cases h
      rw [List.append_nil]
      rfl
  | cons n ns ih =>
    rw [Struct.extend]
    cases hfield : Field.resolve structs n with
    | error e =>
      constructor
      · intro h
        cases h
      · rintro ⟨_, h, _⟩
        cases h with
        | cons first _ => rw [field_resolve_eq_ok_iff.mpr first] at hfield; cases hfield
    | ok f =>
      dsimp only
      rw [ih]
      constructor
      · rintro ⟨fs, hfs, rfl⟩
        refine ⟨f :: fs, .cons (field_resolve_eq_ok_iff.mp hfield) hfs, ?_⟩
        rw [Struct.addField, List.append_assoc]
        rfl
      · rintro ⟨_, h, rfl⟩
        cases h with
        | @cons _ f' _ fs first more =>
          rw [field_resolve_eq_ok_iff.mpr first] at hfield
          cases hfield
          refine ⟨fs, more, ?_⟩
          rw [Struct.addField, List.append_assoc]
          rfl

theorem resolve_eq_ok_iff {structs : Structs} {types : List Node} {r : Struct} :
    Struct.resolve structs none types = .ok r ↔ Resolves structs types r := by
  rw [Struct.resolve, extend_eq_ok_iff]
  constructor
  · rintro ⟨fs, hfs, rfl⟩
    exact ⟨rfl, hfs⟩
  · rintro ⟨hname, hfields⟩
    obtain ⟨name, fields⟩ := r
    rw [show name = none from hname]
    exact ⟨fields, hfields, rfl⟩

theorem Resolves.unique {structs : Structs} {types : List Node} {r r' : Struct}
    (h : Resolves structs types r) (h' : Resolves structs types r') : r = r' :=
  Except.ok.inj ((resolve_eq_ok_iff.mpr h).symm.trans (resolve_eq_ok_iff.mpr h'))

def Node.isType : Node → Bool
  | .primitive .. | .structName .. => true
  | _ => false

theorem exists_forall₂_iff {α β : Type} {R : α → β → Prop} {as : List α} :
    (∃ bs, List.Forall₂ R as bs) ↔ ∀ a ∈ as, ∃ b, R a b := by
  induction as with
  | nil => exact ⟨fun _ a ha => (nomatch ha), fun _ => ⟨[], .nil⟩⟩
  | cons a as ih =>
    rw [List.forall_mem_cons, ← ih]
    constructor
    · rintro ⟨_, h⟩
      cases h with
      | cons first more => exact ⟨⟨_, first⟩, _, more⟩
    · rintro ⟨⟨b, first⟩, bs, more⟩
      exact ⟨b :: bs, .cons first more⟩

/-- types stand for a record type if all the names among them are known -/
theorem exists_resolves_iff {structs : Structs} {types : List Node}
    (htypes : ∀ n ∈ types, n.isType = true) :
    (∃ r, Resolves structs types r)
      ↔ ∀ name t, .structName name t ∈ types → structs.contains name = true := by
  have hfields : (∃ r, Resolves structs types r)
      ↔ ∃ fs, List.Forall₂ (TypeField structs) types fs :=
    ⟨fun ⟨r, h⟩ => ⟨r.fields, h.fields⟩, fun ⟨fs, h⟩ => ⟨⟨none, fs⟩, rfl, h⟩⟩
  rw [hfields, exists_forall₂_iff]
  constructor
  · intro h name t hmem
    obtain ⟨f, hf⟩ := h _ hmem
    cases hf with
    | nested known => rw [Layer.contains, known]; rfl
  · intro h n hn
    have htype := htypes n hn
    cases n with
    | primitive name width t => exact ⟨_, .primitive⟩
    | structName name t =>
      obtain ⟨d, hd⟩ := Option.isSome_iff_exists.mp (h name t hn)
      exact ⟨_, .nested hd⟩
    | _ => cases htype

/-! ## the parts of a program -/

/-- the nodes that are statements -/
inductive Node.IsStatement : Node → Prop
  | atomDef (name : String) (t : Option Nat) : IsStatement (.atomDef name t)
  | macroRef (name : String) (t : Option Nat) : IsStatement (.macroRef name t)
  | record {types : List Node} (types_only : ∀ n ∈ types, n.isType = true) :
      IsStatement (.record types)
  | data {n : Node} (data : n.isData = true) : IsStatement n

/-- the statements before the first record type -/
def lead (nodes : List Node) : List Node := nodes.takeWhile fun n => !n.isRecord

/-- the types of a record type, and the statements from there to the next one -/
structure Section where
  types : List Node
  body : List Node

/-- the record types of a program -/
def sections : List Node → List Section
  | [] => []
  | .record types :: nodes => ⟨types, lead nodes⟩ :: sections nodes
  | _ :: nodes => sections nodes

/-- the batch of a record type, whose data fill whole rows -/
structure Section.Fills (structs : Structs) (s : Section) (b : Batch) : Prop where
  record : Resolves structs s.types b.record
  data : Yields s.body b.data
  whole : b.record.cols ∣ b.data.length

/-- the atom that a statement defines -/
def Node.definition? : Node → Option (Definition Atom)
  | .atomDef name t => some ⟨name, t.map .spot, ⟨name, t⟩⟩
  | _ => none

/-- the atoms that are defined, in order -/
def definitions (nodes : List Node) : List (Definition Atom) := nodes.filterMap Node.definition?

/-- whether a node is the use of a macro -/
def Node.isMacro : Node → Bool
  | .macroRef .. => true
  | _ => false

/-- The programs that make an object.  Atoms are defined once, no macro is used, all record types
are known and all data defined; there are no data before the first record type, and after each
record type the data fill whole rows. -/
structure Acceptable (structs : Structs) (nodes : List Node) : Prop where
  distinct : ((definitions nodes).map Definition.name).Nodup
  noMacro : ∀ n ∈ nodes, n.isMacro = false
  known : ∀ types, .record types ∈ nodes → ∀ name t, .structName name t ∈ types →
    structs.contains name = true
  defined : ∀ n ∈ nodes, n.isData = true → ∃ ds, Expands n ds
  empty : ∀ ds, Yields (lead nodes) ds → ds = []
  whole : ∀ s ∈ sections nodes, ∀ record ds, Resolves structs s.types record → Yields s.body ds →
    record.cols ∣ ds.length

theorem Node.IsStatement.types {types : List Node} (h : (Node.record types).IsStatement) :
    ∀ n ∈ types, n.isType = true := by
  cases h with
  | record types_only => exact types_only
  | data hdata => cases hdata

theorem Node.isRecord_of_isData {n : Node} (h : n.isData = true) : n.isRecord = false := by
  cases n <;> first | rfl | cases h

theorem Node.definition?_of_isData {n : Node} (h : n.isData = true) : n.definition? = none := by
  cases n <;> first | rfl | cases h

theorem Node.isMacro_of_isData {n : Node} (h : n.isData = true) : n.isMacro = false := by
  cases n <;> first | rfl | cases h

theorem lead_record (types nodes : List Node) : lead (.record types :: nodes) = [] := rfl

theorem lead_cons {n : Node} (hn : n.isRecord = false) (nodes : List Node) :
    lead (n :: nodes) = n :: lead nodes := by
  rw [lead, List.takeWhile_cons_of_pos (by rw [hn]; rfl)]
  rfl

theorem sections_cons {n : Node} (hn : n.isRecord = false) (nodes : List Node) :
    sections (n :: nodes) = sections nodes := by
  cases n <;> first | rfl | cases hn

/-- a statement that is no record type stands in one of the parts -/
theorem mem_parts {n : Node} {nodes : List Node} (hn : n.isRecord = false) :
    n ∈ nodes ↔ n ∈ lead nodes ∨ ∃ s ∈ sections nodes, n ∈ s.body := by
  induction nodes with
  | nil => exact ⟨fun h => (nomatch h), fun h => by rcases h with h | ⟨s, h, _⟩ <;> cases h⟩
  | cons m nodes ih =>
    cases hm : m.isRecord with
    | false =>
      rw [lead_cons hm, sections_cons hm, List.mem_cons, List.mem_cons, ih, or_assoc]
    | true =>
      obtain ⟨types, rfl⟩ := Node.exists_of_isRecord hm
      have hne : n ≠ .record types := by
        rintro rfl
        cases hn
      rw [lead_record, List.mem_cons, ih]
      simp only [hne, false_or, List.not_mem_nil, sections, List.mem_cons, exists_eq_or_imp]

theorem record_mem_iff {types : List Node} {nodes : List Node} :
    .record types ∈ nodes ↔ ∃ s ∈ sections nodes, s.types = types := by
  induction nodes with
  | nil => exact ⟨fun h => (nomatch h), fun ⟨s, h, _⟩ => (nomatch h)⟩
  | cons m nodes ih =>
    cases hm : m.isRecord with
    | false =>
      have hne : .record types ≠ m := by
        rintro rfl
        cases hm
      rw [sections_cons hm, List.mem_cons, ih, or_iff_right hne]
    | true =>
      obtain ⟨types', rfl⟩ := Node.exists_of_isRecord hm
      simp only [List.mem_cons, ih, sections, exists_eq_or_imp, Node.record.injEq,
        eq_comm (a := types)]

/-- there are as many parts as record types -/
theorem length_sections (nodes : List Node) :
    (sections nodes).length = nodes.countP Node.isRecord := by
  induction nodes with
  | nil => rfl
  | cons n nodes ih =>
    cases hn : n.isRecord with
    | false =>
      rw [sections_cons hn, ih, List.countP_cons_of_neg (by rw [hn]; exact Bool.false_ne_true)]
    | true =>
      obtain ⟨types, rfl⟩ := Node.exists_of_isRecord hn
      rw [sections, List.length_cons, ih, List.countP_cons_of_pos hn]

/-- a program is acceptable if each of its record types has a batch -/
theorem acceptable_iff {structs : Structs} {nodes : List Node}
    (hnodes : ∀ n ∈ nodes, n.IsStatement) :
    Acceptable structs nodes ↔ ((definitions nodes).map Definition.name).Nodup ∧
      (∀ n ∈ nodes, n.isMacro = false) ∧ Yields (lead nodes) [] ∧
      ∃ batches, List.Forall₂ (Section.Fills structs) (sections nodes) batches := by
  rw [exists_forall₂_iff]
  constructor
  · rintro ⟨hdistinct, hfree, hknown, hdefined, hempty, hwhole⟩
    refine ⟨hdistinct, hfree, ?_, fun s hs => ?_⟩
    · obtain ⟨ds, hds⟩ := exists_yields_iff.mpr fun n hn hdata =>
        hdefined n ((mem_parts (Node.isRecord_of_isData hdata)).mpr (.inl hn)) hdata
      rwa [hempty ds hds] at hds
    · have hrecord : .record s.types ∈ nodes := record_mem_iff.mpr ⟨s, hs, rfl⟩
      obtain ⟨r, hr⟩ :=
        (exists_resolves_iff (hnodes _ hrecord).types).mpr (hknown s.types hrecord)
      obtain ⟨ds, hds⟩ := exists_yields_iff.mpr fun n hn hdata =>
        hdefined n ((mem_parts (Node.isRecord_of_isData hdata)).mpr (.inr ⟨s, hs, hn⟩)) hdata
      exact ⟨⟨r, ds⟩, hr, hds, hwhole s hs r ds hr hds⟩
  · rintro ⟨hdistinct, hfree, hlead, hbatches⟩
    refine ⟨hdistinct, hfree, fun types hrecord name t hname => ?_, fun n hn hdata => ?_,
      fun ds hds => hds.unique hlead, fun s hs r ds hr hds => ?_⟩
    · obtain ⟨s, hs, rfl⟩ := record_mem_iff.mp hrecord
      obtain ⟨b, hb⟩ := hbatches s hs
      exact (exists_resolves_iff (hnodes _ hrecord).types).mp ⟨b.record, hb.record⟩ name t hname
    · rcases (mem_parts (Node.isRecord_of_isData hdata)).mp hn with hn | ⟨s, hs, hn⟩
      · exact exists_yields_iff.mp ⟨[], hlead⟩ n hn hdata
      · obtain ⟨b, hb⟩ := hbatches s hs
        exact exists_yields_iff.mp ⟨b.data, hb.data⟩ n hn hdata
    · obtain ⟨b, hb⟩ := hbatches s hs
      rw [hr.unique hb.record, hds.unique hb.data]
      exact hb.whole

end TableAssembler
