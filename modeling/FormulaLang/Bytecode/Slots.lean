import FormulaLang.Expr

/-!
# Slots

While a formula is compiled, its names stand for numbered heap slots. No slot is used twice, so the
number of slots is the size of the heap.

* `Inline`: a function that the formula itself defines.
* `Slots`: the names in scope, the temporaries and the functions.
* `Slots.push`, `Slots.pop`, `Slots.fresh`, `Slots.temporary`, `Slots.lookup?`: names and slots.
* `Slots.define`, `Slots.function?`, `Slots.beginCall?`, `Slots.endCall`: functions.
-/

namespace FormulaLang.Bytecode

/-- A function whose calls are replaced by its body. -/
structure Inline where
  params : List String
  body : Expr

/-- The names of a formula under compilation, innermost and latest first. -/
structure Slots where
  scope : List (String × Nat) := []
  temporaries : List (String × Nat) := []
  size : Nat := 0
  functions : List (String × Inline) := []
  /-- The functions whose bodies are being put in. -/
  active : List String := []

/-- What a name is bound to in a list of bindings, of which the first counts. -/
def bound? {α : Type} (name : String) (bindings : List (String × α)) : Option α :=
  (bindings.find? fun b => b.1 == name).map Prod.snd

namespace Slots

/-- A slot without a name. -/
def fresh (s : Slots) : Nat × Slots := (s.size, { s with size := s.size + 1 })

/-- Binds a name to a slot of its own. -/
def push (s : Slots) (name : String) : Nat × Slots :=
  (s.size, { s with scope := (name, s.size) :: s.scope, size := s.size + 1 })

/-- Unbinds the innermost name. -/
def pop (s : Slots) : Slots := { s with scope := s.scope.tail }

/-- The slot of a name that is assigned but bound nowhere. It keeps the slot to the end. -/
def temporary (s : Slots) (name : String) : Nat × Slots :=
  match bound? name s.temporaries with
  | some slot => (slot, s)
  | none =>
    (s.size, { s with temporaries := (name, s.size) :: s.temporaries, size := s.size + 1 })

/-- The slot of a name: names in scope come before temporaries. -/
def lookup? (s : Slots) (name : String) : Option Nat :=
  match bound? name s.scope with
  | some slot => some slot
  | none => bound? name s.temporaries

/-- Defines a function, which replaces an earlier one of its name. -/
def define (s : Slots) (name : String) (f : Inline) : Slots :=
  { s with functions := (name, f) :: s.functions }

def function? (s : Slots) (name : String) : Option Inline := bound? name s.functions

/-- Begins a call, unless a call of the function is going on. -/
def beginCall? (s : Slots) (name : String) : Option Slots :=
  if name ∈ s.active then none else some { s with active := name :: s.active }

/-- Ends the call begun last. -/
def endCall (s : Slots) : Slots := { s with active := s.active.tail }

end Slots

end FormulaLang.Bytecode
