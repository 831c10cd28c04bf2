import FormulaLang.Bytecode.Compile
import FormulaLang.Bytecode.Machine
import FormulaLang.Catalog
import FormulaLang.Expr.Parser

/-!
# Formulas on an engine

* `Engine.read`: parses a text and records its faults.
* `Engine.formula`: the value of a text.
* `Engine.compile`, `Engine.runProgram`: compiled formulas.
* `evaluateText`: the value of a text on a new engine, or the first fault.
-/

namespace FormulaLang

open Bytecode (Program)

namespace Engine

/-- Parses a text and records its faults. -/
def read (source : String) : Eval Expr := fun st =>
  let (e, faults) := Parser.parse st.settings.parseDepth source
  (e, { st with log := st.log ++ faults })

/-- The value of a text. A text with faults is not evaluated. -/
def formula (source : String) : Eval Value := do
  let before := (← get).log.size
  let e ← read source
  if before < (← get).log.size then return .invalid else evaluate e

/-- Compiles a tree, or records why that is not possible. -/
def compile (e : Expr) : Eval (Except Fault Program) := fun st =>
  match Bytecode.compile st.env e with
  | .ok p => (.ok p, st)
  | .error f => (.error f, st.report f)

/-- Runs a compiled formula. Its number is a NaN if a fault stops it, which is recorded. -/
def runProgram (p : Program) : Eval Float := fun st =>
  match p.run st.settings st with
  | (.ok x, st) => (x, st)
  | (.error f, st) => (Number.nan, st.report f)

end Engine

/-- The value of a text on a new engine with the catalog, or the first fault recorded. -/
def evaluateText (source : String) : Except Located Value :=
  let (v, st) := Engine.formula source (.create {})
  match st.log[0]? with
  | some e => .error e
  | none => .ok v

end FormulaLang
