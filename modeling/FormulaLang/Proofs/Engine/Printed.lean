import FormulaLang.Proofs.Engine.Operands
import FormulaLang.Proofs.Engine.Statements
import FormulaLang.Proofs.Expr.RoundTrip
import FormulaLang.Proofs.Number.Sign
import FormulaLang.Proofs.Value.Text

/-!
# Printed numbers

The text of a vector or matrix of numbers is a literal, whose value is that vector or matrix.

* `Number.Displayed`: the text of a finite number is a plain decimal that is read as it.
* `numberTree`, `literalTokens`: how the text of a number is read.
* `Spells`, **`spells_numberTree`**: the text of a number, its tree and the value of the tree.
* `parse_rows`, `evaluateText_literal`: the texts of literals and their values.
* **`evaluateText_numbers`**: vectors and matrices.
-/

namespace FormulaLang

open FormulaLang.Lexer FormulaLang.Parser

/-! ## The texts of numbers -/

/-- The text of the number is a plain decimal, maybe behind a minus sign, and is read as it. -/
structure Number.Displayed (x : Float) : Prop where
  plain : ∃ ds, IsDecimal ds ∧ ((Number.text x).toList = ds ∨ (Number.text x).toList = '-' :: ds)
  back : Number.ofText? (Number.text x) = some x

/-- How the text of a number is parsed. -/
def numberTree (x : Float) : Expr :=
  if (Number.text x).toList.head? = some '-' then .unary .neg (.constant (.number (-x)))
  else .constant (.number x)

/-- The tokens of a number and of a number behind a minus sign. -/
def literalTokens : Expr → List Token
  | .constant (.number x) => [.number x]
  | .unary .neg (.constant (.number x)) => [.mark .minus, .number x]
  | _ => []

/-- The text of the number is read as the tree, which has the number as its value. -/
structure Spells (x : Float) (e : Expr) : Prop where
  written : Written (Number.text x) (literalTokens e)
  whole : AsWhole (literalTokens e) e
  height : e.height ≤ 1
  value : ∀ deeper st, eval deeper e st = (.number x, st)

section Numbers

variable {x y : Float} {ds : List Char}

theorem spells_constant (h : Written (Number.text x) [.number x]) :
    Spells x (.constant (.number x)) where
  written := h
  whole := (operand_constant rfl rfl takes_number).whole
  height := by rw [Expr.height]; exact Nat.zero_le _
  value deeper st := by rw [eval]; rfl

theorem spells_negative (h : Written (Number.text x) [.mark .minus, .number (-x)]) :
    Spells x (.unary .neg (.constant (.number (-x)))) where
  written := h
  whole := (operand_constant rfl rfl takes_number).unary .neg
  height := by rw [Expr.height, Expr.height]
  value deeper st := by
    have hneg : Value.unary .neg (.number (-x)) = .ok (.number (- -x)) := rfl
    have hoperand : eval deeper (.constant (.number (-x))) st = (.number (-x), st) := by
      rw [eval]
      rfl
    rw [eval, bind_of_run hoperand, hneg, Number.neg_neg]
    rfl

/-- A decimal with or without a minus sign is read by its digits. -/
theorem ofText?_decimal {s : String} (h : IsDecimal ds) :
    (s.toList = ds → Number.ofText? s = Number.ofDecimal? ds) ∧
      (s.toList = '-' :: ds → Number.ofText? s = (Number.ofDecimal? ds).map fun x => -x) := by
  obtain ⟨c, cs, rfl, hc⟩ := h.exists_cons
  have hne : ∀ {d rest}, d.isDigit = false → c :: cs ≠ d :: rest := by
    rintro d rest hd ⟨⟩
    rw [hd] at hc
    cases hc
  constructor <;> intro hs <;> rw [Number.ofText?, hs]
  · split
    · next heq => exact absurd heq (hne rfl)
    · next heq => exact absurd heq (hne rfl)
    · -- No decimal is the name of a constant.
      beta_reduce
      split
      · next heq => exact absurd heq (hne rfl)
      · next heq => exact absurd heq (hne rfl)
      · rfl
  · refine congrArg (Option.map fun x => -x) ?_
    beta_reduce
    split
    · next heq => exact absurd heq (hne rfl)
    · next heq => exact absurd heq (hne rfl)
    · rfl

/-- **The text of a number is read as its tree**, whose value is the number. -/
theorem spells_numberTree (h : x.isFinite → Number.Displayed x) : Spells x (numberTree x) := by
  -- Only minus signs begin with a minus sign.
  have hconstant : (Number.text x).toList.head? ≠ some '-' → Written (Number.text x) [.number x] →
      Spells x (numberTree x) := fun hhead hw => by
    rw [numberTree, if_neg hhead]
    exact spells_constant hw
  have hnegative : ∀ {s}, Number.text x = "-" ++ s → Written s [.number (-x)] →
      Spells x (numberTree x) := fun {s} htext hw => by
    have hhead : (Number.text x).toList.head? = some '-' := by
      rw [htext, String.toList_append]
      rfl
    rw [numberTree, if_pos hhead]
    exact spells_negative (htext ▸ (delimited_prefixText .neg).append_written hw)
  by_cases hfinite : x.isFinite
  · obtain ⟨⟨ds, hdecimal, htext | htext⟩, hback⟩ := h hfinite
    · rw [(ofText?_decimal hdecimal).1 htext] at hback
      refine hconstant ?_ fun rest hrest => htext ▸ reads_decimal hdecimal hback hrest
      obtain ⟨c, cs, rfl, hc⟩ := hdecimal.exists_cons
      rw [htext]
      rintro ⟨⟩
      cases hc
    · rw [(ofText?_decimal hdecimal).2 htext, Option.map_eq_some_iff] at hback
      obtain ⟨y, hy, hneg⟩ := hback
      have hsplit : Number.text x = "-" ++ String.ofList ds := by
        rw [← String.toList_inj, htext, String.toList_append]
        exact congrArg ('-' :: ·) String.toList_ofList.symm
      refine hnegative hsplit fun rest hrest => ?_
      rw [String.toList_ofList, ← hneg, Number.neg_neg]
      exact reads_decimal hdecimal hy hrest
  · by_cases hnan : x = Number.nan
    · subst hnan
      have htext : Number.text Number.nan = numberLiteral Number.nan := by decide +kernel
      exact hconstant (by decide +kernel) (htext ▸ written_nan)
    rcases Number.eq_infinity_or_neg hnan (by simpa using hfinite) with rfl | rfl
    · have htext : Number.text Number.infinity = numberLiteral Number.infinity := by decide +kernel
      exact hconstant (by decide +kernel) (htext ▸ written_infinity)
    · have htext : Number.text (-Number.infinity) = "-" ++ numberLiteral Number.infinity := by
        decide +kernel
      refine hnegative htext ?_
      rw [Number.neg_neg]
      exact written_infinity

end Numbers

/-! ## Literals -/

section Literals

variable {v : List Float} {rows : List (List Float)} {columns : Nat}

/-- The trees of the elements of a literal. -/
def rowTrees (rows : List (List Float)) : List (List Expr) := rows.map (·.map numberTree)

theorem written_rows (h : ∀ row ∈ rows, ∀ x ∈ row, Spells x (numberTree x)) :
    Written ("[" ++ "; ".intercalate (rows.map fun row => ", ".intercalate (row.map Number.text)) ++
        "]")
      ([Token.mark .leftBracket] ++ between .semicolon
        ((rowTrees rows).map fun row => between .comma (row.map literalTokens)) ++
          [Token.mark .rightBracket]) := by
  refine written_brackets ?_
  rw [rowTrees, List.map_map]
  refine written_intercalate delimited_semicolon breaking_semicolon fun row hrow => ?_
  rw [Function.comp_apply, List.map_map]
  exact written_intercalate delimited_comma breaking_comma fun x hx => (h row hrow x hx).written

theorem evalAll_numbers (h : ∀ x ∈ v, Spells x (numberTree x)) (deeper : Deeper) (st : Engine) :
    evalAll deeper (v.map numberTree) st = (v.map .number, st) := by
  induction v with
  | nil => exact evalAll_nil
  | cons x v ih =>
    obtain ⟨hx, hv⟩ := List.forall_mem_cons.1 h
    rw [List.map_cons, evalAll_cons, hx.value, ih hv, List.map_cons]

theorem evalRows_numbers (h : ∀ row ∈ rows, ∀ x ∈ row, Spells x (numberTree x)) (deeper : Deeper)
    (st : Engine) : evalRows deeper (rowTrees rows) st = (rows.map (·.map .number), st) := by
  induction rows with
  | nil =>
    rw [rowTrees, List.map_nil, evalRows]
    rfl
  | cons row rows ih =>
    obtain ⟨hrow, hrows⟩ := List.forall_mem_cons.1 h
    have hcons : rowTrees (row :: rows) = row.map numberTree :: rowTrees rows := rfl
    rw [hcons, evalRows, bind_of_run (evalAll_numbers hrow deeper st), bind_of_run (ih hrows)]
    rfl

theorem mem_rowTrees {es : List Expr} (hes : es ∈ rowTrees rows) :
    ∃ row ∈ rows, es = row.map numberTree := by
  obtain ⟨row, hrow, rfl⟩ := List.mem_map.1 hes
  exact ⟨row, hrow, rfl⟩

theorem spells_of_mem (h : ∀ row ∈ rows, ∀ x ∈ row, Spells x (numberTree x)) {es : List Expr}
    (hes : es ∈ rowTrees rows) {e : Expr} (he : e ∈ es) : ∃ x, Spells x e := by
  obtain ⟨row, hrow, rfl⟩ := mem_rowTrees hes
  obtain ⟨x, hx, rfl⟩ := List.mem_map.1 he
  exact ⟨x, h row hrow x hx⟩

/-- **The text of a literal of numbers** is parsed to its tree. -/
theorem parse_rows {e : Expr} {n : Nat} (hne : ∀ row ∈ rows, row ≠ [])
    (h : ∀ row ∈ rows, ∀ x ∈ row, Spells x (numberTree x))
    (he : literalOf (rowTrees rows) = .ok e) (hn : 4 ≤ n) :
    parse (n + 1) ("[" ++ "; ".intercalate
      (rows.map fun row => ", ".intercalate (row.map Number.text)) ++ "]") = (e, []) := by
  have hheight : e.height ≤ 2 := by
    refine height_literalOf (fun es hes e he => ?_) he
    obtain ⟨x, hx⟩ := spells_of_mem h hes he
    exact hx.height
  have hwhole := AsWhole.literalOf (f := literalTokens)
    (fun es hes => by
      obtain ⟨row, hrow, rfl⟩ := mem_rowTrees hes
      exact fun hnil => hne row hrow (List.map_eq_nil_iff.1 hnil))
    (fun es hes e he => by
      obtain ⟨x, hx⟩ := spells_of_mem h hes he
      exact hx.whole) he
  exact parse_of_whole (written_rows h) hwhole.whole (by omega)

/-- A text without faults has the value of its tree. -/
theorem evaluateText_of_parse {source : String} {e : Expr} {u : Value}
    (h : parse 1000 source = (e, [])) (hu : ∀ deeper st, eval deeper e st = (u, st)) :
    evaluateText source = .ok u := by
  have hfaults : (parse (Engine.create {}).settings.parseDepth source).2 = [] :=
    congrArg Prod.snd h
  have htree : (parse (Engine.create {}).settings.parseDepth source).1 = e := congrArg Prod.fst h
  have hlog : (Engine.create {}).log = #[] := rfl
  rw [evaluateText, formula_of_parse hfaults, htree, evaluate_eq, hu]
  simp [hlog]

/-- The text of a literal has the value of its tree. -/
theorem evaluateText_literal {e : Expr} {u : Value} (hne : ∀ row ∈ rows, row ≠ [])
    (h : ∀ row ∈ rows, ∀ x ∈ row, Spells x (numberTree x))
    (he : literalOf (rowTrees rows) = .ok e) (hu : ∀ deeper st, eval deeper e st = (u, st)) :
    evaluateText ("[" ++ "; ".intercalate
      (rows.map fun row => ", ".intercalate (row.map Number.text)) ++ "]") = .ok u :=
  evaluateText_of_parse (parse_rows (n := 999) hne h he (by decide)) hu

/-- **A vector of numbers** prints as a literal of one row, or of none. -/
theorem evaluateText_vector (h : ∀ x ∈ v, Spells x (numberTree x)) :
    evaluateText (Value.numberVector v).text = .ok (.numberVector v) := by
  have hu : ∀ deeper st, eval deeper (.vector (v.map numberTree)) st = (.numberVector v, st) := by
    intro deeper st
    rw [eval, bind_of_run (evalAll_numbers h deeper st), Value.concat_numbers]
    rfl
  rw [Value.text, separated_vector]
  cases v with
  | nil =>
    have he : literalOf (rowTrees []) = .ok (.vector ([].map numberTree)) := rfl
    have hliteral := evaluateText_literal (List.forall_mem_nil _) (List.forall_mem_nil _) he hu
    rwa [List.map_nil, String.intercalate_nil] at hliteral ⊢
  | cons x v =>
    have he : literalOf (rowTrees [x :: v]) = .ok (.vector ((x :: v).map numberTree)) := rfl
    have hliteral := evaluateText_literal
      (List.forall_mem_singleton.2 (List.cons_ne_nil x v)) (List.forall_mem_singleton.2 h) he hu
    rwa [List.map_singleton, String.intercalate_singleton] at hliteral

/-- Several equally long rows are the literal of a matrix. -/
theorem literalOf_matrix {ess : List (List Expr)} (hlength : 2 ≤ ess.length)
    (hess : ∀ es ∈ ess, es.length = columns) : literalOf ess = .ok (.matrix ess) := by
  match ess, hlength with
  | first :: second :: rest, _ =>
    obtain ⟨hfirst, hrest⟩ := List.forall_mem_cons.1 hess
    have hfind :
        ((second :: rest).zipIdx.find? fun row => row.1.length != first.length) = none := by
      rw [List.find?_eq_none]
      intro row hrow
      have hmem := List.fst_mem_of_mem_zipIdx hrow
      simp [hrest _ hmem, hfirst]
    rw [literalOf, hfind]
    exact nofun

/-- **A matrix of numbers** prints as a literal of its rows. -/
theorem evaluateText_matrix (hlength : 2 ≤ rows.length) (hcolumns : columns ≠ 0)
    (hrows : ∀ row ∈ rows, row.length = columns)
    (h : ∀ row ∈ rows, ∀ x ∈ row, Spells x (numberTree x)) :
    evaluateText (Value.numberMatrix rows.flatten columns).text =
      .ok (.numberMatrix rows.flatten columns) := by
  have hne : ∀ row ∈ rows, row ≠ [] := fun row hrow hnil => by
    have := hrows row hrow
    rw [hnil] at this
    exact hcolumns this.symm
  have hu : ∀ deeper st, eval deeper (.matrix (rowTrees rows)) st =
      (.numberMatrix rows.flatten columns, st) := by
    intro deeper st
    rw [eval, bind_of_run (evalRows_numbers h deeper st), Value.ofRows_numbers _ hrows]
    · rfl
    · rintro rfl
      cases hlength
  have he : literalOf (rowTrees rows) = .ok (.matrix (rowTrees rows)) := by
    have hlengths : ∀ es ∈ rowTrees rows, es.length = columns := fun es hes => by
      obtain ⟨row, hrow, rfl⟩ := mem_rowTrees hes
      rw [List.length_map, hrows row hrow]
    exact literalOf_matrix (by rwa [rowTrees, List.length_map]) hlengths
  have hliteral := evaluateText_literal hne h he hu
  rw [Value.text, List.map_flatten, separated_rows hcolumns, List.map_map]
  · exact hliteral
  · intro texts htexts
    obtain ⟨row, hrow, rfl⟩ := List.mem_map.1 htexts
    rw [List.length_map, hrows row hrow]

end Literals

/-- **Vectors and matrices of numbers print as formulas for themselves**, without a fault and with
every sign of a zero or an infinity, where finite numbers print as plain decimals that read back. -/
theorem evaluateText_numbers (v : List Float)
    (h : ∀ x ∈ v, x.isFinite → Number.Displayed x) :
    evaluateText (Value.numberVector v).text = .ok (.numberVector v) ∧
    ∀ rows columns, 2 ≤ rows → 1 ≤ columns → v.length = rows * columns →
      evaluateText (Value.numberMatrix v columns).text = .ok (.numberMatrix v columns) := by
  have hspells : ∀ x ∈ v, Spells x (numberTree x) := fun x hx => spells_numberTree (h x hx)
  refine ⟨evaluateText_vector hspells, fun n columns hn hcolumns hlength => ?_⟩
  have hsum : (List.replicate n columns).sum = v.length := by
    rw [List.sum_replicate, hlength, smul_eq_mul]
  have hflatten := List.flatten_splitLengths v (List.replicate n columns) hsum.ge
  have hlengths := List.map_splitLengths_length v (List.replicate n columns) hsum.le
  have hrows : ∀ row ∈ (List.replicate n columns).splitLengths v, row.length = columns :=
    fun row hrow => List.eq_of_mem_replicate (hlengths ▸ List.mem_map_of_mem hrow)
  rw [← hflatten]
  refine evaluateText_matrix ?_ (Nat.ne_of_gt hcolumns) hrows fun row hrow x hx => hspells x ?_
  · rwa [List.length_splitLengths, List.length_replicate]
  · rw [← hflatten]
    exact List.mem_flatten.2 ⟨row, hrow, hx⟩

/-- Numbers of every kind, with and without a sign. -/
def mixedNumbers : List Float :=
  [2.0, -0.5, -0.0, Number.infinity, -Number.infinity, Number.nan]

theorem displayed_mixedNumbers : ∀ x ∈ mixedNumbers, x.isFinite → Number.Displayed x := by
  have htwo : Number.Displayed 2.0 :=
    ⟨⟨['2'], ⟨['2'], List.cons_ne_nil _ _, List.all_eq_true.1 rfl, .inl rfl⟩,
      .inl (by decide +kernel)⟩, by decide +kernel⟩
  have hhalf : Number.Displayed (-0.5) :=
    ⟨⟨['0', '.', '5'], ⟨['0'], List.cons_ne_nil _ _, List.all_eq_true.1 rfl,
      .inr ⟨['5'], List.all_eq_true.1 rfl, rfl⟩⟩, .inr (by decide +kernel)⟩, by decide +kernel⟩
  have hzero : Number.Displayed (-0.0) :=
    ⟨⟨['0'], ⟨['0'], List.cons_ne_nil _ _, List.all_eq_true.1 rfl, .inl rfl⟩,
      .inr (by decide +kernel)⟩, by decide +kernel⟩
  intro x hx hfinite
  simp only [mixedNumbers, List.mem_cons, List.not_mem_nil, or_false] at hx
  rcases hx with rfl | rfl | rfl | rfl | rfl | rfl
  · exact htwo
  · exact hhalf
  · exact hzero
  · cases hfinite
  · cases hfinite
  · cases hfinite

theorem evaluateText_mixedNumbers :
    (∀ x ∈ mixedNumbers, x.isFinite → Number.Displayed x) ∧
    evaluateText (Value.numberVector mixedNumbers).text = .ok (.numberVector mixedNumbers) ∧
    evaluateText (Value.numberMatrix mixedNumbers 3).text = .ok (.numberMatrix mixedNumbers 3) := by
  obtain ⟨hvector, hmatrix⟩ := evaluateText_numbers mixedNumbers displayed_mixedNumbers
  exact ⟨displayed_mixedNumbers, hvector, hmatrix 2 3 (by decide) (by decide) rfl⟩

end FormulaLang
