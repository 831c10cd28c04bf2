/-!
# Places in a text

* `Place`: a position between two characters, as byte offset, line and column.
* `Place.next`, `Place.after`: the place behind a character, behind several.
* `Extent`: the bytes a piece of text takes up, with the line and column of its start.
-/

namespace FormulaLang.Text

/-- A position in a text. Lines and columns start at one, and columns count characters. -/
structure Place where
  offset : Nat
  line : Nat
  column : Nat
  deriving DecidableEq, Repr

namespace Place

/-- The start of a text. -/
def origin : Place := ⟨0, 1, 1⟩

/-- The place behind a character. -/
def next (p : Place) (c : Char) : Place :=
  if c = '\n' then ⟨p.offset + c.utf8Size, p.line + 1, 1⟩
  else ⟨p.offset + c.utf8Size, p.line, p.column + 1⟩

/-- The place behind a run of characters. -/
def after (p : Place) (cs : List Char) : Place := cs.foldl next p

@[simp] theorem after_nil (p : Place) : p.after [] = p := rfl

@[simp] theorem after_cons (p : Place) (c : Char) (cs : List Char) :
    p.after (c :: cs) = (p.next c).after cs := rfl

theorem after_append (p : Place) (cs ds : List Char) :
    p.after (cs ++ ds) = (p.after cs).after ds := List.foldl_append ..

end Place

/-- The bytes from `start` up to `stop`, and where they start. -/
structure Extent where
  start : Nat
  stop : Nat
  line : Nat
  column : Nat
  deriving DecidableEq, Repr

/-- What `cs` takes up when it starts at `p`. -/
def Place.extent (p : Place) (cs : List Char) : Extent :=
  ⟨p.offset, (p.after cs).offset, p.line, p.column⟩

end FormulaLang.Text
