import FormulaLang.Engine.Session
import FormulaLang.Proofs.Engine.Silent
import FormulaLang.Proofs.Expr.Split

/-!
# Formulas split at semicolons

Evaluation carries nothing but the engine from one statement to the next, so a formula may be split
wherever a semicolon stands between statements.

* `eval_sequenceOf`, `eval_sequence_append`: the statements of a text, one after the other.
* `formula_of_parse`: a text without faults is evaluated.
* **`formula_append`**: two texts with a semicolon between them.
-/

namespace FormulaLang

variable {st : Engine} {a b source : String}

/-! ## Statements -/

section Statements

variable (deeper : Deeper) (es fs : List Expr) (st : Engine)

theorem eval_sequence_nil : eval deeper (.sequence []) st = (.void, st) := by
  rw [eval, evalSequence]
  rfl

theorem eval_sequenceOf : eval deeper (Parser.sequenceOf es) st = eval deeper (.sequence es) st := by
  match es with
  | [] => rfl
  | [e] => exact (eval_sequence_single deeper e st).symm
  | e :: e' :: es => rfl

/-- Only the engine is handed from the statements of one list to those of the next one. -/
theorem eval_sequence_append (hne : fs ≠ []) :
    eval deeper (.sequence (es ++ fs)) st =
      eval deeper (.sequence fs) (eval deeper (.sequence es) st).2 := by
  induction es generalizing st with
  | nil => rw [List.nil_append, eval_sequence_nil]
  | cons e es ih =>
    obtain ⟨f, gs, hgs⟩ := List.exists_cons_of_ne_nil (List.append_ne_nil_of_right_ne_nil es hne)
    rw [List.cons_append, hgs, eval_sequence_cons, ← hgs, ih]
    cases es with
    | nil => rw [eval_sequence_single, eval_sequence_nil]
    | cons e' es => rw [← eval_sequence_cons]

end Statements

/-! ## Texts -/

theorem faults_parse {limit : Nat} :
    (Parser.parse limit source).2 = [] ↔ (Parser.parseText limit source).2.faults = #[] :=
  Array.toList_eq_nil_iff

/-- A text without faults is evaluated, and nothing is recorded before. -/
theorem formula_of_parse (h : (Parser.parse st.settings.parseDepth source).2 = []) :
    Engine.formula source st =
      Engine.evaluate (Parser.parse st.settings.parseDepth source).1 st := by
  have hread : Engine.read source st = ((Parser.parse st.settings.parseDepth source).1, st) := by
    unfold Engine.read
    simp [h]
  rw [formula_eq, hread, if_neg (Nat.lt_irrefl _)]

/-- **Formulas may be split at semicolons.** Let two texts be parsed without faults, the first one not
ending in an open block comment and the second one with a statement. Evaluating them as one text with
a semicolon between them gives the value of the second text after the first one, and the same engine,
with all its variables, functions and recorded faults. -/
theorem formula_append (ha : (Parser.parse st.settings.parseDepth a).2 = [])
    (hb : (Parser.parse st.settings.parseDepth b).2 = []) (hgap : ¬ Lexer.EndsInComment a)
    (hne : (Parser.parseText st.settings.parseDepth b).1 ≠ []) :
    Engine.formula (a ++ "\n;" ++ b) st = Engine.formula b (Engine.formula a st).2 := by
  have hsettings : (Engine.formula a st).2.settings = st.settings :=
    moves_formula (R := KeepsSettings) a st
  obtain ⟨hstatements, hfaults⟩ :=
    Parser.parseText_append (faults_parse.1 ha) (faults_parse.1 hb) hgap
  have hsecond : (Parser.parse (Engine.formula a st).2.settings.parseDepth b).2 = [] := by
    rw [hsettings]
    exact hb
  rw [formula_of_parse (faults_parse.2 hfaults), formula_of_parse hsecond, evaluate_eq, evaluate_eq,
    hsettings, formula_of_parse ha, evaluate_eq]
  dsimp only [Parser.parse]
  rw [hstatements, eval_sequenceOf, eval_sequenceOf, eval_sequenceOf, eval_sequence_append _ _ _ _ hne]

theorem formula_append_rows :
    Engine.formula ("x = 1; [1, 2; 3, 4] // a matrix" ++ "\n;" ++ "y = x + 1; y") (.create {}) =
      Engine.formula "y = x + 1; y" (Engine.formula "x = 1; [1, 2; 3, 4] // a matrix" (.create {})).2 :=
  formula_append (by decide +kernel) (by decide +kernel) (by decide +kernel) (by decide +kernel)

end FormulaLang
