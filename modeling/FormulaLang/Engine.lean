import FormulaLang.Environment
import FormulaLang.Settings

/-!
# Engines

* `Engine`: an environment, the faults recorded so far and the settings.
* `Eval`: a computation on an engine, with `report`, `fail`, `check` and the accesses to the
  environment.
-/

namespace FormulaLang

/-- The state of evaluation. Faults are recorded in the order in which they are found. -/
structure Engine where
  env : Environment
  log : Array Located
  settings : Settings

namespace Engine

/-- Records a fault with its place. -/
def note (st : Engine) (e : Located) : Engine := { st with log := st.log.push e }

/-- Records a fault. -/
def report (st : Engine) (f : Fault) : Engine := st.note f.unlocated

end Engine

/-- A computation on an engine. -/
abbrev Eval (α : Type) := StateM Engine α

namespace Eval

/-- Records a fault. -/
def report (f : Fault) : Eval Unit := modify (·.report f)

/-- Records a fault and gives the invalid value. -/
def fail (f : Fault) : Eval Value := do
  report f
  return .invalid

/-- The value, or the invalid value after recording the fault. -/
def check : Except Fault Value → Eval Value
  | .ok v => return v
  | .error f => fail f

/-- The value that a name has. -/
def value? (name : String) : Eval (Option Value) := do return (← get).env.value? name

/-- The function of a name. -/
def function? (name : String) : Eval (Option Function) := do return (← get).env.function? name

/-- Changes the environment. -/
def change (f : Environment → Environment) : Eval Unit :=
  modify fun ⟨env, log, settings⟩ => ⟨f env, log, settings⟩

/-- Assigns a variable and gives its new value, or records why that failed. -/
def assign (name : String) (v : Value) : Eval Value := fun ⟨env, log, settings⟩ =>
  match env.setVariable name v with
  | (env, none) => (v, ⟨env, log, settings⟩)
  | (env, some f) => (.invalid, ⟨env, log.push f.unlocated, settings⟩)

/-- Runs a computation in a block of its own. -/
def inBlock {α : Type} (body : Eval α) : Eval α := do
  change .enter
  let result ← body
  change .leave
  return result

end Eval

end FormulaLang
