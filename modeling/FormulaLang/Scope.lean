import Std.Data.HashMap

/-!
# Scoped tables

A scoped table binds names at levels. A binding hides the older ones of its name, and dropping a
level brings them back.

* `Entry`, `ScopedTable`: the bindings in the order they were made, and where the visible one of
  each name stands.
* `ScopedTable.get?`, `ScopedTable.entry?`, `ScopedTable.visible`: looking up.
* `ScopedTable.add`, `ScopedTable.modify`, `ScopedTable.dropLevel`: changing.
-/

namespace FormulaLang

/-- A binding, with the place of the binding it hides. -/
structure Entry (α : Type) where
  name : String
  level : Nat
  value : α
  hidden : Option Nat

/-- Bindings in the order they were made; `index` tells where the visible one of a name stands. -/
structure ScopedTable (α : Type) where
  entries : Array (Entry α)
  index : Std.HashMap String Nat

namespace ScopedTable

variable {α : Type}

def empty : ScopedTable α := ⟨#[], ∅⟩

/-- The visible binding of a name. -/
def entry? (t : ScopedTable α) (name : String) : Option (Entry α) :=
  match t.index[name]? with
  | some i => t.entries[i]?
  | none => none

/-- The value a name is bound to. -/
def get? (t : ScopedTable α) (name : String) : Option α := (t.entry? name).map (·.value)

def contains (t : ScopedTable α) (name : String) : Bool := t.index.contains name

def size (t : ScopedTable α) : Nat := t.entries.size

/-- The visible bindings, oldest first. -/
def visible (t : ScopedTable α) : List (String × α) :=
  t.entries.toList.zipIdx.filterMap fun (e, i) =>
    if t.index[e.name]? = some i then some (e.name, e.value) else none

/-- Changes the value that a name is bound to. -/
def modify (t : ScopedTable α) (name : String) (f : α → α) : ScopedTable α :=
  match t.index[name]? with
  | some i => { t with entries := t.entries.modify i fun e => { e with value := f e.value } }
  | none => t

/-- Puts a new binding on top. -/
def push (t : ScopedTable α) (name : String) (value : α) (level : Nat) : ScopedTable α :=
  ⟨t.entries.push ⟨name, level, value, t.index[name]?⟩, t.index.insert name t.entries.size⟩

/-- Binds a name at a level. The visible binding gives way if it was made at the same level. -/
def add (t : ScopedTable α) (name : String) (value : α) (level : Nat) : ScopedTable α :=
  match t.entry? name with
  | some e => if e.level = level then t.modify name fun _ => value else t.push name value level
  | none => t.push name value level

/-- Takes off the last binding, which makes the one it hides visible. -/
def pop (t : ScopedTable α) (last : Entry α) : ScopedTable α :=
  match last.hidden with
  | some i => ⟨t.entries.pop, t.index.insert last.name i⟩
  | none => ⟨t.entries.pop, t.index.erase last.name⟩

/-- Takes off at most `n` bindings, from the last, as long as they are at the level or above. -/
def dropUpTo : Nat → Nat → ScopedTable α → ScopedTable α
  | 0, _, t => t
  | n + 1, level, t =>
    match t.entries.back? with
    | some last => if level ≤ last.level then dropUpTo n level (t.pop last) else t
    | none => t

/-- Drops the last bindings as long as they are at the level or above. -/
def dropLevel (t : ScopedTable α) (level : Nat) : ScopedTable α :=
  dropUpTo t.entries.size level t

end ScopedTable

end FormulaLang
