import Mathlib.Data.List.Forall2
import TableAssembler.Text.Utf8

/-!
# Bytes and characters

Decoding gives back the characters whose bytes it is given, and fails for all other bytes.

* `ranges_eq_some_iff`     the bytes that may follow a leading byte;
* `Encodes`                the bytes of one character, as they are read;
* `encodes_iff`            they are those that the character is written with;
* `decodeFrom_eq_ok_iff`   reading one character;
* `decode_eq_ok_iff`       the bytes that are decoded, and to what.
-/

namespace TableAssembler.Text.Utf8

variable {b : UInt8} {bs bytes tail : List UInt8} {c : Char} {cs : List Char} {position : Nat}
  {rs : List (Nat × Nat)}

/-! ## leading bytes -/

/-- a byte in a range -/
def Within (b : UInt8) (range : Nat × Nat) : Prop := range.1 ≤ b.toNat ∧ b.toNat ≤ range.2

/-- the range of the byte after a leading byte -/
def secondRange (b : Nat) : Nat × Nat :=
  if b = 0xe0 then (0xa0, 0xbf)
  else if b = 0xed then (0x80, 0x9f)
  else if b = 0xf0 then (0x90, 0xbf)
  else if b = 0xf4 then (0x80, 0x8f)
  else anyTail

theorem ranges_of_lt {b : Nat} (h : b < 0x80) : ranges b = some [] := by
  simp only [ranges, h, if_true]

theorem secondRange_of_ne {b : Nat} (he0 : b ≠ 0xe0) (hed : b ≠ 0xed) (hf0 : b ≠ 0xf0)
    (hf4 : b ≠ 0xf4) : secondRange b = anyTail := by
  rw [secondRange, if_neg he0, if_neg hed, if_neg hf0, if_neg hf4]

theorem ranges_two {b : Nat} (h : 0xc2 ≤ b) (h' : b < 0xe0) : ranges b = some [secondRange b] := by
  rw [secondRange_of_ne (by omega) (by omega) (by omega) (by omega), ranges, if_neg (by omega),
    if_neg (by omega), if_pos h']

theorem ranges_three {b : Nat} (h : 0xe0 ≤ b) (h' : b < 0xf0) :
    ranges b = some [secondRange b, anyTail] := by
  by_cases he0 : b = 0xe0
  · subst he0
    rfl
  by_cases hed : b = 0xed
  · subst hed
    rfl
  · rw [secondRange_of_ne he0 hed (by omega) (by omega), ranges, if_neg (by omega),
      if_neg (by omega), if_neg (by omega), if_neg he0, if_neg hed, if_pos h']

theorem ranges_four {b : Nat} (h : 0xf0 ≤ b) (h' : b < 0xf5) :
    ranges b = some [secondRange b, anyTail, anyTail] := by
  by_cases hf0 : b = 0xf0
  · subst hf0
    rfl
  by_cases hf4 : b = 0xf4
  · subst hf4
    rfl
  · rw [secondRange_of_ne (by omega) (by omega) hf0 hf4, ranges, if_neg (by omega),
      if_neg (by omega), if_neg (by omega), if_neg (by omega), if_neg (by omega), if_neg (by omega),
      if_neg hf0, if_pos (by omega)]

theorem bounds_of_ranges {b : Nat} (h : ranges b = some rs) : b < 0x80 ∨ 0xc2 ≤ b ∧ b < 0xf5 := by
  by_contra hn
  have hnone : ranges b = none := by
    by_cases hlow : b < 0xc2
    · rw [ranges, if_neg (by omega), if_pos hlow]
    · rw [ranges, if_neg (by omega), if_neg hlow, if_neg (by omega), if_neg (by omega),
        if_neg (by omega), if_neg (by omega), if_neg (by omega), if_neg (by omega),
        if_neg (by omega)]
  cases h.symm.trans hnone

theorem ranges_eq_some_iff {b : Nat} : ranges b = some rs ↔
    b < 0x80 ∧ rs = [] ∨ (0xc2 ≤ b ∧ b < 0xe0) ∧ rs = [secondRange b] ∨
      (0xe0 ≤ b ∧ b < 0xf0) ∧ rs = [secondRange b, anyTail] ∨
      (0xf0 ≤ b ∧ b < 0xf5) ∧ rs = [secondRange b, anyTail, anyTail] := by
  constructor
  · intro h
    have hb := bounds_of_ranges h
    obtain h1 | h2 | h3 | h4 : b < 0x80 ∨ (0xc2 ≤ b ∧ b < 0xe0) ∨ (0xe0 ≤ b ∧ b < 0xf0) ∨
        (0xf0 ≤ b ∧ b < 0xf5) := by omega
    · exact .inl ⟨h1, Option.some.inj (h.symm.trans (ranges_of_lt h1))⟩
    · exact .inr (.inl ⟨h2, Option.some.inj (h.symm.trans (ranges_two h2.1 h2.2))⟩)
    · exact .inr (.inr (.inl ⟨h3, Option.some.inj (h.symm.trans (ranges_three h3.1 h3.2))⟩))
    · exact .inr (.inr (.inr ⟨h4, Option.some.inj (h.symm.trans (ranges_four h4.1 h4.2))⟩))
  · rintro (⟨h, rfl⟩ | ⟨⟨h, h'⟩, rfl⟩ | ⟨⟨h, h'⟩, rfl⟩ | ⟨⟨h, h'⟩, rfl⟩)
    · exact ranges_of_lt h
    · exact ranges_two h h'
    · exact ranges_three h h'
    · exact ranges_four h h'

theorem within_anyTail_iff : Within b anyTail ↔ 0x80 ≤ b.toNat ∧ b.toNat ≤ 0xbf := Iff.rfl

theorem within_secondRange_iff {first : Nat} : Within b (secondRange first) ↔
    (0x80 ≤ b.toNat ∧ b.toNat ≤ 0xbf) ∧ (first = 0xe0 → 0xa0 ≤ b.toNat) ∧
      (first = 0xed → b.toNat ≤ 0x9f) ∧ (first = 0xf0 → 0x90 ≤ b.toNat) ∧
      (first = 0xf4 → b.toNat ≤ 0x8f) := by
  unfold Within secondRange
  split_ifs <;> simp [anyTail] <;> omega

/-! ## one character -/

/-- a character's bits with those of one more byte -/
def appendBits (bits : Nat) (b : UInt8) : Nat := bits * 64 + b.toNat % 64

/-- the bytes of a character: a leading one and some in the ranges that it sets -/
inductive Encodes : Char → List UInt8 → Prop
  | intro {b : UInt8} {tail : List UInt8} {rs : List (Nat × Nat)}
      (leading : ranges b.toNat = some rs) (more : List.Forall₂ Within tail rs) :
      Encodes (Char.ofNat (tail.foldl appendBits (leadingBits b.toNat rs.length))) (b :: tail)

theorem Encodes.ne_nil (h : Encodes c bs) : bs ≠ [] := by
  cases h
  simp

theorem toNat_val_ofNat {n : Nat} (h : n.isValidChar) : (Char.ofNat n).val.toNat = n := by
  rw [Char.ofNat, dif_pos h]
  rfl

theorem eq_ofNat_iff {n : Nat} : b = UInt8.ofNat n ↔ b.toNat = n % 256 := by
  rw [← UInt8.toNat_inj, UInt8.toNat_ofNat']

/-- what is read as a character is what it is written with -/
theorem Encodes.eq (h : Encodes c bs) : bs = String.utf8EncodeChar c := by
  obtain @⟨b, tail, rs, leading, more⟩ := h
  -- the narrow ranges are what excludes a longer form and a number of no character
  obtain ⟨h, rfl⟩ | ⟨h, rfl⟩ | ⟨h, rfl⟩ | ⟨h, rfl⟩ := ranges_eq_some_iff.1 leading
  · obtain rfl := List.forall₂_nil_right_iff.1 more
    simp only [List.foldl_nil, List.length_nil, leadingBits]
    rw [String.utf8EncodeChar, toNat_val_ofNat (by unfold Nat.isValidChar; omega),
      if_pos (by omega)]
    simp
  · simp only [List.forall₂_cons_right_iff, List.forall₂_nil_right_iff] at more
    obtain ⟨x, -, hx, rfl, rfl⟩ := more
    rw [within_secondRange_iff] at hx
    simp only [List.foldl, List.length, leadingBits, appendBits]
    rw [String.utf8EncodeChar, toNat_val_ofNat (by unfold Nat.isValidChar; omega),
      if_neg (by omega), if_pos (by omega)]
    simp only [List.cons.injEq, eq_ofNat_iff, and_true]
    omega
  · simp only [List.forall₂_cons_right_iff, List.forall₂_nil_right_iff] at more
    obtain ⟨x, -, hx, ⟨y, -, hy, rfl, rfl⟩, rfl⟩ := more
    rw [within_secondRange_iff] at hx
    rw [within_anyTail_iff] at hy
    simp only [List.foldl, List.length, leadingBits, appendBits]
    rw [String.utf8EncodeChar, toNat_val_ofNat (by unfold Nat.isValidChar; omega),
      if_neg (by omega), if_neg (by omega), if_pos (by omega)]
    simp only [List.cons.injEq, eq_ofNat_iff, and_true]
    omega
  · simp only [List.forall₂_cons_right_iff, List.forall₂_nil_right_iff] at more
    obtain ⟨x, -, hx, ⟨y, -, hy, ⟨z, -, hz, rfl, rfl⟩, rfl⟩, rfl⟩ := more
    rw [within_secondRange_iff] at hx
    rw [within_anyTail_iff] at hy hz
    simp only [List.foldl, List.length, leadingBits, appendBits]
    rw [String.utf8EncodeChar, toNat_val_ofNat (by unfold Nat.isValidChar; omega),
      if_neg (by omega), if_neg (by omega), if_neg (by omega)]
    simp only [List.cons.injEq, eq_ofNat_iff, and_true]
    omega

theorem encodes_of_toNat (leading : ranges b.toNat = some rs) (more : List.Forall₂ Within tail rs)
    (hc : tail.foldl appendBits (leadingBits b.toNat rs.length) = c.toNat) :
    Encodes c (b :: tail) := by
  have := Encodes.intro leading more
  rwa [hc, Char.ofNat_toNat] at this

/-- what a character is written with is read as it -/
theorem encodes_utf8EncodeChar (c : Char) : Encodes c (String.utf8EncodeChar c) := by
  have hsize : UInt8.size = 256 := rfl
  have hv : c.toNat.isValidChar := c.valid
  unfold Nat.isValidChar at hv
  rw [String.utf8EncodeChar]
  simp only [Char.toNat_val]
  split_ifs with h1 h2 h3
  · have hb := UInt8.toNat_ofNat_of_lt' (n := c.toNat) (by omega)
    exact encodes_of_toNat (ranges_of_lt (by omega)) .nil hb
  · have hb := UInt8.toNat_ofNat_of_lt' (n := c.toNat / 64 % 32 + 192) (by omega)
    have hx := UInt8.toNat_ofNat_of_lt' (n := c.toNat % 64 + 128) (by omega)
    refine encodes_of_toNat (ranges_two (by omega) (by omega)) (.cons ?_ .nil) ?_
    · rw [within_secondRange_iff]
      omega
    · simp only [List.foldl, List.length, leadingBits, appendBits]
      omega
  · have hb := UInt8.toNat_ofNat_of_lt' (n := c.toNat / 4096 % 16 + 224) (by omega)
    have hx := UInt8.toNat_ofNat_of_lt' (n := c.toNat / 64 % 64 + 128) (by omega)
    have hy := UInt8.toNat_ofNat_of_lt' (n := c.toNat % 64 + 128) (by omega)
    refine encodes_of_toNat (ranges_three (by omega) (by omega)) (.cons ?_ (.cons ?_ .nil)) ?_
    · rw [within_secondRange_iff]
      omega
    · rw [within_anyTail_iff]
      omega
    · simp only [List.foldl, List.length, leadingBits, appendBits]
      omega
  · have hb := UInt8.toNat_ofNat_of_lt' (n := c.toNat / 262144 % 8 + 240) (by omega)
    have hx := UInt8.toNat_ofNat_of_lt' (n := c.toNat / 4096 % 64 + 128) (by omega)
    have hy := UInt8.toNat_ofNat_of_lt' (n := c.toNat / 64 % 64 + 128) (by omega)
    have hz := UInt8.toNat_ofNat_of_lt' (n := c.toNat % 64 + 128) (by omega)
    refine encodes_of_toNat (ranges_four (by omega) (by omega))
      (.cons ?_ (.cons ?_ (.cons ?_ .nil))) ?_
    · rw [within_secondRange_iff]
      omega
    · rw [within_anyTail_iff]
      omega
    · rw [within_anyTail_iff]
      omega
    · simp only [List.foldl, List.length, leadingBits, appendBits]
      omega

theorem encodes_iff : Encodes c bs ↔ bs = String.utf8EncodeChar c := by
  constructor
  · exact Encodes.eq
  · rintro rfl
    exact encodes_utf8EncodeChar c

/-! ## decoding -/

theorem map_cons_eq_ok_iff {α ε : Type} {x : Except ε (List α)} {a : α} {as : List α} :
    (a :: ·) <$> x = .ok as ↔ ∃ as', x = .ok as' ∧ as = a :: as' := by
  cases x <;> simp [Functor.map, Except.map, eq_comm]

/-- `Follows tail rest rs bytes`: the bytes are a tail in the ranges `rs` and the rest -/
def Follows (tail rest : List UInt8) (rs : List (Nat × Nat)) (bytes : List UInt8) : Prop :=
  bytes = tail ++ rest ∧ List.Forall₂ Within tail rs

theorem follows_nil_iff {rest : List UInt8} :
    Follows tail rest [] bytes ↔ tail = [] ∧ bytes = rest := by
  simp only [Follows, List.forall₂_nil_right_iff]
  constructor
  · rintro ⟨h, rfl⟩
    exact ⟨rfl, h⟩
  · rintro ⟨rfl, h⟩
    exact ⟨h, rfl⟩

theorem not_follows_nil {rest : List UInt8} {range : Nat × Nat} :
    ¬ Follows tail rest (range :: rs) [] := by
  rintro ⟨h, more⟩
  obtain ⟨rfl, -⟩ := List.nil_eq_append_iff.1 h
  cases more

theorem follows_cons_iff {rest : List UInt8} {range : Nat × Nat} :
    Follows tail rest (range :: rs) (b :: bytes) ↔
      Within b range ∧ ∃ tail', tail = b :: tail' ∧ Follows tail' rest rs bytes := by
  constructor
  · rintro ⟨h, more⟩
    obtain ⟨x, tail', hx, hs, rfl⟩ := List.forall₂_cons_right_iff.1 more
    obtain ⟨rfl, rfl⟩ := List.cons.inj h
    exact ⟨hx, tail', rfl, rfl, hs⟩
  · rintro ⟨hb, tail', rfl, rfl, more⟩
    exact ⟨rfl, .cons hb more⟩

theorem add_length_cons (position : Nat) (b : UInt8) (tail : List UInt8) :
    position + (b :: tail).length = position + 1 + tail.length := by
  rw [List.length_cons, Nat.add_comm tail.length, Nat.add_assoc]

/-- what completes a character that is begun -/
theorem decodeFrom_some_eq_ok_iff {p : Partial} :
    decodeFrom position (some p) bytes = .ok cs ↔
      ∃ tail rest cs', Follows tail rest (p.range :: p.more) bytes ∧
        decodeFrom (position + tail.length) none rest = .ok cs' ∧
        cs = Char.ofNat (tail.foldl appendBits p.bits) :: cs' := by
  induction bytes generalizing position p with
  | nil => simp only [decodeFrom, reduceCtorEq, not_follows_nil, false_and, exists_false]
  | cons b bytes ih =>
    obtain ⟨first, start, bits, range, more⟩ := p
    simp only [decodeFrom, follows_cons_iff]
    by_cases hb : Within b range
    · rw [if_pos ⟨hb.1, hb.2⟩]
      cases more with
      | nil =>
        simp only [map_cons_eq_ok_iff, follows_nil_iff]
        constructor
        · rintro ⟨cs', h, rfl⟩
          exact ⟨[b], bytes, cs', ⟨hb, [], rfl, rfl, rfl⟩, h, rfl⟩
        · rintro ⟨_, _, cs', ⟨-, _, rfl, rfl, rfl⟩, h, rfl⟩
          exact ⟨cs', h, rfl⟩
      | cons range more =>
        rw [ih]
        constructor
        · rintro ⟨tail, rest, cs', hf, h, rfl⟩
          refine ⟨b :: tail, rest, cs', ⟨hb, tail, rfl, hf⟩, ?_, rfl⟩
          rwa [add_length_cons]
        · rintro ⟨_, rest, cs', ⟨-, tail, rfl, hf⟩, h, rfl⟩
          rw [add_length_cons] at h
          exact ⟨tail, rest, cs', hf, h, rfl⟩
    · rw [if_neg fun h => hb ⟨h.1, h.2⟩]
      simp only [reduceCtorEq, hb, false_and, exists_false]

theorem decodeFrom_cons_eq_ok_iff : decodeFrom position none (b :: bytes) = .ok cs ↔
    ∃ rs tail rest cs', ranges b.toNat = some rs ∧ Follows tail rest rs bytes ∧
      decodeFrom (position + 1 + tail.length) none rest = .ok cs' ∧
      cs = Char.ofNat (tail.foldl appendBits (leadingBits b.toNat rs.length)) :: cs' := by
  cases hr : ranges b.toNat with
  | none => simp only [decodeFrom, hr, reduceCtorEq, false_and, exists_false]
  | some rs =>
    simp only [Option.some.injEq, exists_and_left, exists_eq_left']
    cases rs with
    | nil =>
      simp only [decodeFrom, hr, map_cons_eq_ok_iff, follows_nil_iff]
      constructor
      · rintro ⟨cs', h, rfl⟩
        exact ⟨[], bytes, ⟨rfl, rfl⟩, cs', h, rfl⟩
      · rintro ⟨_, _, ⟨rfl, rfl⟩, cs', h, rfl⟩
        exact ⟨cs', h, rfl⟩
    | cons range more =>
      simp only [decodeFrom, hr, decodeFrom_some_eq_ok_iff, exists_and_left, List.length_cons]

/-- reading one character and the rest -/
theorem decodeFrom_eq_ok_iff : decodeFrom position none bytes = .ok cs ↔
    bytes = [] ∧ cs = [] ∨ ∃ c bs rest cs', bytes = bs ++ rest ∧ Encodes c bs ∧
      decodeFrom (position + bs.length) none rest = .ok cs' ∧ cs = c :: cs' := by
  cases bytes with
  | nil =>
    rw [decodeFrom, Except.ok.injEq]
    constructor
    · rintro rfl
      exact .inl ⟨rfl, rfl⟩
    · rintro (⟨-, rfl⟩ | ⟨c, bs, rest, cs', h, he, -⟩)
      · rfl
      · exact absurd (List.nil_eq_append_iff.1 h).1 he.ne_nil
  | cons b bytes =>
    rw [decodeFrom_cons_eq_ok_iff]
    constructor
    · rintro ⟨rs, tail, rest, cs', hr, ⟨rfl, more⟩, h, rfl⟩
      refine .inr ⟨_, b :: tail, rest, cs', rfl, .intro hr more, ?_, rfl⟩
      rwa [add_length_cons]
    · rintro (⟨h, -⟩ | ⟨_, _, rest, cs', h, @⟨b, tail, rs, hr, more⟩, hd, rfl⟩)
      · cases h
      · obtain ⟨rfl, rfl⟩ := List.cons.inj h
        rw [add_length_cons] at hd
        exact ⟨rs, tail, rest, cs', hr, ⟨rfl, more⟩, hd, rfl⟩

theorem decodeFrom_eq_ok_iff_flatMap :
    decodeFrom position none bytes = .ok cs ↔ bytes = cs.flatMap String.utf8EncodeChar := by
  induction cs generalizing position bytes with
  | nil =>
    rw [decodeFrom_eq_ok_iff]
    simp
  | cons c cs ih =>
    rw [decodeFrom_eq_ok_iff]
    simp [ih, encodes_iff]

/-- Only the bytes of some characters are decoded, and to these. -/
theorem decode_eq_ok_iff : decode bytes = .ok cs ↔ bytes = cs.flatMap String.utf8EncodeChar :=
  decodeFrom_eq_ok_iff_flatMap

end TableAssembler.Text.Utf8
