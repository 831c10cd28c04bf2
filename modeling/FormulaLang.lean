import FormulaLang.Main
import FormulaLang.Proofs.Bytecode.Bounds
import FormulaLang.Proofs.Bytecode.Recursion
import FormulaLang.Proofs.Bytecode.Height
import FormulaLang.Proofs.Bytecode.Lockstep
import FormulaLang.Proofs.Bytecode.Missing
import FormulaLang.Proofs.Bytecode.Script
import FormulaLang.Proofs.Bytecode.Sums
import FormulaLang.Proofs.Bytecode.Visible
import FormulaLang.Proofs.Engine.Hygiene
import FormulaLang.Proofs.Expr.Height
import FormulaLang.Proofs.Expr.RoundTrip
import FormulaLang.Proofs.Environment.Refinement
import FormulaLang.Proofs.Engine.Absorb
import FormulaLang.Proofs.Environment.Intact
import FormulaLang.Proofs.Engine.Accounted
import FormulaLang.Proofs.Engine.Complete
import FormulaLang.Proofs.Engine.Termination
import FormulaLang.Proofs.Engine.Sharing
import FormulaLang.Proofs.Engine.Repeats
import FormulaLang.Proofs.Engine.Pure
import FormulaLang.Proofs.Expr.Literals
import FormulaLang.Proofs.Value.Shaped
import FormulaLang.Proofs.Environment.Holds
import FormulaLang.Proofs.Engine.Shaped
import FormulaLang.Proofs.Token.Append
import FormulaLang.Proofs.Token.Tiling
import FormulaLang.Proofs.Engine.Statements
import FormulaLang.Proofs.Engine.Assignments
import FormulaLang.Proofs.Expr.Faults
import FormulaLang.Proofs.Expr.Formed
import FormulaLang.Proofs.Token.Slice
import FormulaLang.Proofs.Range.Within
import FormulaLang.Proofs.Expr.Precedence
import FormulaLang.Proofs.Engine.RangeVectors
import FormulaLang.Proofs.Value.Elementwise
import FormulaLang.Proofs.Value.Batches
import FormulaLang.Proofs.Value.Flattening
import FormulaLang.Proofs.Value.Gathering
import FormulaLang.Proofs.Engine.LoopForms
import FormulaLang.Proofs.Engine.Reductions
import FormulaLang.Proofs.Engine.Printed
import FormulaLang.Proofs.Number.Words
import FormulaLang.Proofs.Scope.Histories
import FormulaLang.Proofs.Settings
