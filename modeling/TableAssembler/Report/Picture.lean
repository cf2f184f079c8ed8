import TableAssembler.Source

/-!
# Pictures

A picture explains one issue: what is wrong, where in which source, and what else there is to say.

* `Note`      something to point at, with a caption;
* `Panel`     notes on one source, below its name;
* `Picture`   an introduction, panels and a footer, with `Picture.text`.
-/

namespace TableAssembler

/-- Something to point at, with a caption. -/
structure Note where
  extent : Extent
  caption : String
deriving Inhabited

/-- Notes on one source. -/
structure Panel where
  source : Source
  notes : List Note
deriving Inhabited

/-- An introduction, what to point at, and more lines at the end. -/
structure Picture where
  intro : String
  panels : List Panel := []
  footer : List String := []
deriving Inhabited

/-- A note as it is shown.  One that points outside of its source is its caption alone. -/
def Note.text (source : Source) (n : Note) : String :=
  match source.illustrate n.extent n.caption with
  | .ok text => text
  | .error _ => n.caption

def Panel.lines (p : Panel) : List String := p.source.name :: p.notes.map (Note.text p.source)

def Picture.lines (p : Picture) : List String :=
  p.intro :: "" :: p.panels.flatMap Panel.lines ++ p.footer

def Picture.text (p : Picture) : String := String.intercalate "\n" p.lines

/-- The first index in a picture that points outside of its source. -/
def Picture.outOfRange? (p : Picture) : Option OutOfRange :=
  p.panels.findSome? fun panel => panel.notes.findSome? fun n =>
    match panel.source.span n.extent with
    | .ok _ => none
    | .error e => some e

end TableAssembler
