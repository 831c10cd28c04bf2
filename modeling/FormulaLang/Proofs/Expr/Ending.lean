import FormulaLang.Proofs.Expr.Runs

/-!
# Parsing ends

Every phrase has a derivation at every cursor: the levels are limited, and what goes on behind a
separator takes a lexeme. So the rules lead through every text, however malformed, to its end.

* `Phrase.Ends`: a phrase that can be parsed wherever it stands, with `ends_items` for items.
* **`ends_nested`**, `exists_statements`: everything can be parsed.
* **`parse_of_statements`**: what has a derivation is what is parsed.
* **`parse_ends`**: parsing ends, behind all lexemes, with at most one statement for each segment
  that has a token.
-/

namespace FormulaLang.Parser

open Text (Extent)

variable {α : Type} {limit n : Nat}

/-- A phrase that can be parsed wherever it stands. -/
def Phrase.Ends (limit n : Nat) (p : Phrase α) : Prop := ∀ c, ∃ a c', Parses limit n p c a c'

/-! ## One level -/

section Level

variable (hd : ∀ k < n, ∀ g, (Phrase.goal g).Ends limit k)

theorem ends_signed {f : Factor} (hf : (Phrase.operand f).Ends limit n) :
    (Phrase.signed f).Ends limit n := by
  intro c
  by_cases hminus : c.current = .mark .minus
  · obtain ⟨e, c', h⟩ := hf c.advance
    exact ⟨_, _, .minus hminus h⟩
  by_cases hplus : c.current = .mark .plus
  · obtain ⟨e, c', h⟩ := hf c.advance
    exact ⟨_, _, .plus hplus h⟩
  · obtain ⟨e, c', h⟩ := hf c
    exact ⟨_, _, .noSign hminus hplus h⟩

include hd

theorem ends_nested (g : Goal) : (Phrase.nested g).Ends limit n := by
  intro c
  cases n with
  | zero => exact ⟨_, _, .tooDeep⟩
  | succ n =>
    obtain ⟨e, c', h⟩ := hd n (Nat.lt_succ_self n) g c
    exact ⟨_, _, .nested h⟩

theorem ends_items (close : Mark) (what : String) (c : Cursor) :
    ∃ items c', Parses limit n (.items close what) c items c' := by
  obtain ⟨e, c₁, he⟩ := ends_nested hd .expression c
  by_cases hcomma : c₁.current = .mark .comma
  · have hlt := Cursor.length_ahead_advance_lt (Cursor.ne_finish_of_mark hcomma)
    have hle := he.reaches.ahead_suffix.length_le
    obtain ⟨items, c', h⟩ := ends_items close what c₁.advance
    exact ⟨_, _, .item he hcomma h⟩
  · rcases hclose : expect close what c₁ with ⟨closed, c'⟩
    exact ⟨_, _, .lastItem he hcomma hclose⟩
termination_by c.ahead.length

theorem ends_rows (c : Cursor) : ∃ rows c', Parses limit n .rows c rows c' := by
  obtain ⟨e, c₁, he⟩ := ends_nested hd .expression c
  have hle := he.reaches.ahead_suffix.length_le
  by_cases hcomma : c₁.current = .mark .comma
  · have hlt := Cursor.length_ahead_advance_lt (Cursor.ne_finish_of_mark hcomma)
    obtain ⟨rows, c', h⟩ := ends_rows c₁.advance
    exact ⟨_, _, .column he hcomma h⟩
  by_cases hsemicolon : c₁.current = .mark .semicolon
  · have hlt := Cursor.length_ahead_advance_lt (Cursor.ne_finish_of_mark hsemicolon)
    obtain ⟨rows, c', h⟩ := ends_rows c₁.advance
    exact ⟨_, _, .row he hsemicolon h⟩
  · rcases hclose : expect .rightBracket "',', ';' or ']'" c₁ with ⟨closed, c'⟩
    exact ⟨_, _, .lastRow he hcomma hsemicolon hclose⟩
termination_by c.ahead.length

theorem ends_list (close : Mark) (what : String) : (Phrase.list close what).Ends limit n := by
  intro c
  by_cases hc : c.current = .mark close
  · exact ⟨_, _, .noItems hc⟩
  · obtain ⟨items, c', h⟩ := ends_items hd close what c
    exact ⟨_, _, .items hc h⟩

theorem ends_matrix : Phrase.matrix.Ends limit n := by
  intro c
  by_cases hc : c.current = .mark .rightBracket
  · exact ⟨_, _, .noRows hc⟩
  · obtain ⟨rows, c', h⟩ := ends_rows hd c
    exact ⟨_, _, .rows hc h⟩

theorem ends_called (name : String) (x : Extent) (args : List Expr) :
    (Phrase.called name x args).Ends limit n := by
  intro c
  by_cases hc : c.current = .mark .assign
  · obtain ⟨body, c₁, hb⟩ := ends_nested hd .expression c.advance
    rcases he : orFail x (defineForm name args body) c₁ with ⟨e, c'⟩
    exact ⟨_, _, .define hc hb he⟩
  · rcases he : orFail x (callForm name args) c with ⟨e, c'⟩
    exact ⟨_, _, .form hc he⟩

theorem ends_named (name : String) (x : Extent) : (Phrase.named name x).Ends limit n := by
  intro c
  by_cases hassign : c.current = .mark .assign
  · obtain ⟨e, c', h⟩ := ends_nested hd .expression c.advance
    exact ⟨_, _, .assign hassign h⟩
  by_cases hbracket : c.current = .mark .leftBracket
  · obtain ⟨i, c₁, hi⟩ := ends_nested hd .expression c.advance
    rcases hclose : expect .rightBracket "']'" c₁ with ⟨_ | _, c₂⟩
    · exact ⟨_, _, .openElement hbracket hi hclose⟩
    by_cases hc : c₂.current = .mark .assign
    · obtain ⟨e, c', h⟩ := ends_nested hd .expression c₂.advance
      exact ⟨_, _, .assignElement hbracket hi hclose hc h⟩
    · exact ⟨_, _, .element hbracket hi hclose hc⟩
  by_cases hparen : c.current = .mark .leftParen
  · obtain ⟨args, c₁, ha⟩ := ends_list hd .rightParen "',' or ')'" c.advance
    cases args with
    | none => exact ⟨_, _, .openCall hparen ha⟩
    | some args =>
      obtain ⟨e, c', h⟩ := ends_called hd name x args c₁
      exact ⟨_, _, .call hparen ha h⟩
  · refine ⟨_, _, .var ?_⟩
    unfold apart
    split <;> first | rfl | contradiction

theorem ends_primary : (Phrase.operand .primary).Ends limit n := by
  intro c
  rcases operand_cases c.current with h | ⟨v, h⟩ | h | h | h | ⟨name, h⟩
  · exact ⟨_, _, .noOperand h⟩
  · exact ⟨_, _, .literal h⟩
  · obtain ⟨e, c₁, he⟩ := ends_nested hd .expression c.advance
    rcases hclose : expect .rightParen "')'" c₁ with ⟨closed, c'⟩
    exact ⟨_, _, .group h he hclose⟩
  · obtain ⟨rows, c₁, hr⟩ := ends_matrix hd c.advance
    cases rows with
    | none => exact ⟨_, _, .openVector h hr⟩
    | some rows =>
      rcases he : orFail c.extent (literalOf rows) c₁ with ⟨e, c'⟩
      exact ⟨_, _, .vector h hr he⟩
  · obtain ⟨items, c', hi⟩ := ends_list hd .rightBrace "',' or '\x7d'" c.advance
    exact ⟨_, _, .list h hi⟩
  · obtain ⟨e, c', he⟩ := ends_named hd name c.extent c.advance
    exact ⟨_, _, .name h he⟩

theorem ends_links (base : Expr) : (Phrase.links base).Ends limit n := by
  intro c
  cases hlink : isLink c.current with
  | true =>
    obtain ⟨e, c', h⟩ := ends_nested hd (.link base) c
    exact ⟨_, _, .links hlink h⟩
  | false => exact ⟨_, _, .noLink hlink⟩

theorem ends_linked : (Phrase.operand .linked).Ends limit n := by
  intro c
  obtain ⟨base, c₁, hb⟩ := ends_primary hd c
  obtain ⟨e, c', h⟩ := ends_links hd base c₁
  exact ⟨_, _, .linked hb h⟩

theorem ends_range (negated : Bool) : (Phrase.range negated).Ends limit n := by
  intro c
  have hsigned := ends_signed (ends_linked hd)
  obtain ⟨a, c₁, ha⟩ := ends_linked hd c
  by_cases hcolon : c₁.current = .mark .colon
  · obtain ⟨d, c₂, hd⟩ := hsigned c₁.advance
    by_cases hcolon' : c₂.current = .mark .colon
    · obtain ⟨b, c', hb⟩ := hsigned c₂.advance
      exact ⟨_, _, .triple ha hcolon hd hcolon' hb⟩
    · exact ⟨_, _, .pair ha hcolon hd hcolon'⟩
  · exact ⟨_, _, .single ha hcolon⟩

theorem ends_prefixed : Phrase.prefixed.Ends limit n := by
  intro c
  cases hop : prefixOp? c.current with
  | none =>
    obtain ⟨e, c', h⟩ := ends_range hd false c
    exact ⟨_, _, .noPrefix hop h⟩
  | some op =>
  by_cases hone : op = some .neg ∧ prefixOp? c.advance.current = none
  · obtain ⟨rfl, hone⟩ := hone
    obtain ⟨e, c', h⟩ := ends_range hd true c.advance
    exact ⟨_, _, .negated hop hone h⟩
  cases n with
  | zero => exact ⟨_, _, .prefixTooDeep hop hone⟩
  | succ n =>
    obtain ⟨e, c', h⟩ := hd n (Nat.lt_succ_self n) .prefixed c.advance
    exact ⟨_, _, .unary hop hone h⟩

theorem ends_joins (rank : Nat) (left : Expr) : (Phrase.joins rank left).Ends limit n := by
  intro c
  by_cases h : ∃ op, joinerAt c.current = some op ∧ op.rank = rank
  · obtain ⟨op, hop, rfl⟩ := h
    obtain ⟨e, c', h⟩ := ends_nested hd (.joined op left) c
    exact ⟨_, _, .joins hop h⟩
  · exact ⟨_, _, .noJoiner fun op hop hrank => h ⟨op, hop, hrank⟩⟩

theorem ends_ranked (rank : Nat) : (Phrase.ranked rank).Ends limit n := by
  induction rank with
  | zero =>
    intro c
    obtain ⟨e, c', h⟩ := ends_prefixed hd c
    exact ⟨_, _, .loose h⟩
  | succ rank ih =>
    intro c
    obtain ⟨left, c₁, hl⟩ := ih c
    obtain ⟨e, c', h⟩ := ends_joins hd (rank + 1) left c₁
    exact ⟨_, _, .ranked hl h⟩

theorem ends_goal_of_lt (g : Goal) : (Phrase.goal g).Ends limit n := by
  intro c
  cases g with
  | expression =>
    obtain ⟨e, c', h⟩ := ends_ranked hd 5 c
    exact ⟨_, _, .expression h⟩
  | prefixed =>
    obtain ⟨e, c', h⟩ := ends_prefixed hd c
    exact ⟨_, _, .prefixed h⟩
  | joined op left =>
    obtain ⟨right, c₁, hr⟩ := ends_ranked hd (op.rank - 1) c.advance
    obtain ⟨e, c', h⟩ := ends_joins hd op.rank (op.build left right) c₁
    exact ⟨_, _, .joined hr h⟩
  | link base =>
  by_cases hcaret : c.current = .mark .caret
  · obtain ⟨x, c₁, hx⟩ := ends_signed (ends_primary hd) c.advance
    obtain ⟨e, c', h⟩ := ends_links hd (.binary .pow base x) c₁
    exact ⟨_, _, .power hcaret hx h⟩
  by_cases hbracket : c.current = .mark .leftBracket
  · obtain ⟨i, c₁, hi⟩ := ends_nested hd .expression c.advance
    rcases hclose : expect .rightBracket "']'" c₁ with ⟨_ | _, c₂⟩
    · exact ⟨_, _, .openIndex hbracket hi hclose⟩
    · obtain ⟨e, c', h⟩ := ends_links hd (.index base i) c₂
      exact ⟨_, _, .index hbracket hi hclose h⟩
  by_cases hname : ∃ name, c.advance.current = .name name
  · obtain ⟨name, hname⟩ := hname
    obtain ⟨e, c', h⟩ := ends_links hd (.member base name) c.advance.advance
    exact ⟨_, _, .member hcaret hbracket hname h⟩
  · exact ⟨_, _, .noMember hcaret hbracket fun name h => hname ⟨name, h⟩⟩

end Level

/-- **Every goal can be parsed**, whatever stands at the cursor. -/
theorem ends_goal (limit n : Nat) (g : Goal) : (Phrase.goal g).Ends limit n := by
  induction n using Nat.strong_induction_on generalizing g with
  | h n ih => exact ends_goal_of_lt ih g

/-! ## Whole texts -/

section Statements

variable {c c' c₁ c₂ : Cursor} {es : List Expr}

theorem exists_skips (c : Cursor) : ∃ c', Skips c c' := by
  by_cases hfinish : c.current = .finish
  · exact ⟨_, .finish hfinish⟩
  by_cases hsemicolon : c.current = .mark .semicolon
  · exact ⟨_, .semicolon hsemicolon⟩
  · have hlt := Cursor.length_ahead_advance_lt hfinish
    obtain ⟨c', h⟩ := exists_skips c.advance
    exact ⟨_, .token hfinish hsemicolon h⟩
termination_by c.ahead.length

theorem Skips.reaches (h : Skips c c') : c.Reaches c' := by
  induction h with
  | finish | semicolon => exact .refl
  | token _ _ _ ih => exact .head .advance ih

theorem Skips.current (h : Skips c c') :
    c'.current = .finish ∨ c'.current = .mark .semicolon := by
  induction h with
  | finish h => exact .inl h
  | semicolon h => exact .inr h
  | token _ _ _ ih => exact ih

/-- A broken statement and what is skipped behind it. -/
theorem reaches_broken {e : Expr} (he : Parses limit n (.nested .expression) c e c₁)
    (hk : Skips c₁.unexpected c₂) : c.Reaches c₂ :=
  (he.reaches.trans Cursor.moves_unexpected.to_reflTransGen).trans hk.reaches

/-- **Every text has its statements.** -/
theorem exists_statements (limit : Nat) (c : Cursor) : ∃ es c', Statements limit c es c' := by
  -- each statement ends in front of a semicolon, which is taken then, or at the end of the text
  have hnext : ∀ d : Cursor, d.current = .mark .semicolon → d.ahead.length ≤ c.ahead.length →
      ∃ es c', Statements limit d.listen.advance es c' := by
    intro d hd hle
    have hlt : d.listen.advance.ahead.length < d.ahead.length :=
      Cursor.length_ahead_advance_lt (c := d.listen) (Cursor.ne_finish_of_mark hd)
    exact exists_statements limit d.listen.advance
  by_cases hfinish : c.current = .finish
  · exact ⟨_, _, .finish hfinish⟩
  by_cases hsemicolon : c.current = .mark .semicolon
  · obtain ⟨es, c', hs⟩ := hnext c hsemicolon (Nat.le_refl _)
    exact ⟨_, _, .empty hsemicolon hs⟩
  obtain ⟨e, c₁, he⟩ := ends_nested (fun k _ => ends_goal limit k) .expression c.listen
  by_cases hfinish₁ : c₁.current = .finish
  · exact ⟨_, _, .last hfinish hsemicolon he hfinish₁⟩
  by_cases hsemicolon₁ : c₁.current = .mark .semicolon
  · obtain ⟨es, c', hs⟩ := hnext c₁ hsemicolon₁ he.reaches.ahead_suffix.length_le
    exact ⟨_, _, .cons hfinish hsemicolon he hsemicolon₁ hs⟩
  obtain ⟨c₂, hk⟩ := exists_skips c₁.unexpected
  rcases hk.current with h | h
  · exact ⟨_, _, .broken hfinish hsemicolon he hfinish₁ hsemicolon₁ hk (.finish h)⟩
  · obtain ⟨es, c', hs⟩ := hnext c₂ h (reaches_broken he hk).ahead_suffix.length_le
    exact ⟨_, _, .broken hfinish hsemicolon he hfinish₁ hsemicolon₁ hk (.empty h hs)⟩
termination_by c.ahead.length

/-- The rules lead to the end of the text. -/
theorem Statements.finishes (h : Statements limit c es c') : c'.current = .finish := by
  induction h with
  | finish h => exact h
  | last _ _ _ h => exact h
  | empty _ _ ih | cons _ _ _ _ _ ih | broken _ _ _ _ _ _ _ ih => exact ih

theorem Cursor.Tidy.listen (h : c.Tidy) : c.listen.Tidy := ⟨h.rest_eq_nil, h.ne_finish⟩

theorem Statements.tidy (h : Statements limit c es c') (hc : c.Tidy) : c'.Tidy := by
  induction h with
  | finish => exact hc.listen
  | empty _ _ ih => exact ih (Cursor.Reaches.tidy (.single .advance) hc.listen)
  | last _ _ he => exact he.reaches.tidy hc.listen
  | cons _ _ he _ _ ih =>
    exact ih (Cursor.Reaches.tidy (.single .advance) (he.reaches.tidy hc.listen).listen)
  | broken _ _ he _ _ hk _ ih => exact ih ((reaches_broken he hk).tidy hc.listen)

/-! ## The parser of whole texts -/

theorem skipStatement_of_skips (h : Skips c c') {m : Nat} (hm : c.ahead.length ≤ m) :
    c.skipStatement m = c' := by
  induction h generalizing m with
  | finish h => cases m <;> simp [Cursor.skipStatement, h]
  | semicolon h => cases m <;> simp [Cursor.skipStatement, h]
  | token hfinish hsemicolon _ ih =>
    have hlt := Cursor.length_ahead_advance_lt hfinish
    cases m with
    | zero => omega
    | succ m =>
      simp only [Cursor.skipStatement]
      exact ih (by omega)

/-- There are enough steps for the statements ahead. -/
def Cursor.Within (m : Nat) (c : Cursor) : Prop := c.rest.length < m ∨ c.ahead = []

theorem Cursor.Within.reaches {m : Nat} (h : c.Within m) (hr : c.Reaches c') : c'.Within m := by
  rcases h with hlt | hnil
  · exact .inl (Nat.lt_of_le_of_lt hr.length_rest_le hlt)
  · exact .inr (List.suffix_nil.1 (hnil ▸ hr.ahead_suffix))

theorem Cursor.Within.exists_succ {m : Nat} (h : c.Within m) (hne : c.current ≠ .finish) :
    ∃ k, m = k + 1 ∧ c.rest.length ≤ k := by
  have hlt : c.rest.length < m := h.resolve_right (by rw [ahead_of_ne hne]; nofun)
  exact ⟨m - 1, by omega, by omega⟩

theorem Cursor.within_advance {m : Nat} (h : c.rest.length ≤ m) : c.advance.Within m := by
  have hadvance := c.length_rest_advance
  by_cases hrest : c.rest = []
  · exact .inr (List.suffix_nil.1 (hrest ▸ ahead_moveTo_suffix c.rest c))
  · have := List.length_pos_iff.2 hrest
    exact .inl (by omega)

/-- What is skipped takes a token. -/
theorem Skips.within {m : Nat} (h : Skips c.unexpected c') (hfinish : c.current ≠ .finish)
    (hsemicolon : c.current ≠ .mark .semicolon) (hle : c.rest.length ≤ m) : c'.Within m := by
  rw [← c.unexpected_current] at hfinish hsemicolon
  rw [← c.unexpected_rest] at hle
  cases h with
  | finish h => exact absurd h hfinish
  | semicolon h => exact absurd h hsemicolon
  | token _ _ h => exact (Cursor.within_advance hle).reaches h.reaches

theorem expression_of_parses {e : Expr} (he : Parses limit limit (.nested .expression) c e c') :
    expression limit c = (e, c') := by
  have hrun : descend limit (below limit limit) .expression c = (e, c') :=
    parser_of_parses he _ c.bounded_self
  rw [← hrun]
  cases limit <;> rfl

theorem behind_of_skips {m : Nat} {e : Expr} (hfinish : c.current ≠ .finish)
    (hsemicolon : c.current ≠ .mark .semicolon) (hk : Skips c.unexpected c') :
    behind limit m e c = (.invalid :: (statements limit m c').1, (statements limit m c').2) := by
  simp only [behind, skipStatement_of_skips hk (Cursor.length_ahead_le _)]

/-- **The statements of a text are those that the parser gives**, if it may take enough steps. -/
theorem statements_of_derivation (h : Statements limit c es c') {m : Nat} (hm : c.Within m) :
    (statements limit m c).1 = es ∧ (statements limit m c).2.listen = c'.listen := by
  induction h generalizing m with
  | finish h =>
    cases m with
    | zero => exact ⟨rfl, rfl⟩
    | succ m =>
      rw [statements_of_finish h]
      exact ⟨rfl, rfl⟩
  | empty h _ ih =>
    obtain ⟨m, rfl, hle⟩ := hm.exists_succ (Cursor.ne_finish_of_mark h)
    rw [statements_of_semicolon h]
    exact ih (Cursor.within_advance hle)
  | last hfinish hsemicolon he h =>
    obtain ⟨m, rfl, -⟩ := hm.exists_succ hfinish
    rw [statements_of_run hfinish hsemicolon (expression_of_parses he), behind_of_finish h]
    exact ⟨rfl, rfl⟩
  | cons hfinish hsemicolon he h _ ih =>
    obtain ⟨m, rfl, hle⟩ := hm.exists_succ hfinish
    rw [statements_of_run hfinish hsemicolon (expression_of_parses he), behind_of_semicolon h]
    obtain ⟨hes, hc⟩ := ih (Cursor.within_advance (Nat.le_trans he.reaches.length_rest_le hle))
    exact ⟨congrArg _ hes, hc⟩
  | broken hfinish hsemicolon he hfinish₁ hsemicolon₁ hk _ ih =>
    obtain ⟨m, rfl, hle⟩ := hm.exists_succ hfinish
    have hwithin := hk.within hfinish₁ hsemicolon₁ (Nat.le_trans he.reaches.length_rest_le hle)
    rw [statements_of_run hfinish hsemicolon (expression_of_parses he),
      behind_of_skips hfinish₁ hsemicolon₁ hk]
    obtain ⟨hes, hc⟩ := ih hwithin
    exact ⟨congrArg _ hes, hc⟩

section Parse

variable {source : String} (h : Statements limit (Cursor.start (Lexer.lex source)) es c)

include h

theorem parseText_of_statements :
    (parseText limit source).1 = es ∧ (parseText limit source).2.listen = c.listen :=
  statements_of_derivation h (.inl (Nat.lt_succ_self _))

/-- **What has a derivation is what is parsed.** -/
theorem parse_of_statements : parse limit source = (sequenceOf es, c.faults.toList) := by
  have hparse : parse limit source = (sequenceOf (parseText limit source).1,
      (parseText limit source).2.listen.faults.toList) := rfl
  obtain ⟨hes, hc⟩ := parseText_of_statements h
  rw [hparse, hes, hc]
  rfl

end Parse

/-! ## Segments -/

/-- Segments that have a token weigh one. -/
abbrev tokenWeight : List Lexeme → Nat := segmentWeight 0 hasToken

theorem tokenWeight_moveTo_le (ls : List Lexeme) (c : Cursor) :
    (Cursor.moveTo ls c).weight tokenWeight ≤ ((segments ls).map tokenWeight).sum := by
  obtain ⟨first, more, hs⟩ := exists_segments ls
  rw [sum_segments hs, tokenWeight, segmentWeight, Nat.zero_add]
  exact Cursor.weight_moveTo_le hs c

/-- **Each statement begins in a segment of its own** that has a token. -/
theorem Statements.length_le (h : Statements limit c es c') :
    es.length ≤ c.weight tokenWeight := by
  induction h with
  | finish => exact Nat.zero_le _
  | @empty c es c' h _ ih =>
    rw [Cursor.weight_of_semicolon h]
    exact Nat.le_trans ih (tokenWeight_moveTo_le c.rest c.listen)
  | last hfinish hsemicolon he h =>
    exact Nat.succ_le_of_lt (Nat.zero_lt_of_lt (he.reaches.weight_lt hfinish hsemicolon (.inl h)))
  | @cons c e c₁ es c' hfinish hsemicolon he h _ ih =>
    have hlt := he.reaches.weight_lt (w := tokenWeight) hfinish hsemicolon (.inr h)
    have hle := tokenWeight_moveTo_le c₁.rest c₁.listen
    rw [Cursor.weight_of_semicolon h] at hlt
    exact Nat.succ_le_of_lt (Nat.lt_of_le_of_lt (Nat.le_trans ih hle) hlt)
  | broken hfinish hsemicolon he _ _ hk _ ih =>
    exact Nat.succ_le_of_lt (Nat.lt_of_le_of_lt ih
      ((reaches_broken he hk).weight_lt hfinish hsemicolon hk.current))

end Statements

/-- **Parsing ends**: the rules lead through every text and give what is parsed, and the parser
leaves its cursor at the end of the text, behind all lexemes. There is at most one statement for
each segment between semicolons that has a token. -/
theorem parse_ends (limit : Nat) (source : String) :
    ∃ es c, Statements limit (Cursor.start (Lexer.lex source)) es c ∧
      parse limit source = (sequenceOf es, c.faults.toList) ∧
      (parseText limit source).2.current = .finish ∧ (parseText limit source).2.rest = [] ∧
      es.length ≤ (segments (Lexer.lex source).lexemes).countP hasToken := by
  obtain ⟨es, c, h⟩ := exists_statements limit (Cursor.start (Lexer.lex source))
  have htidy : c.Tidy := h.tidy (Cursor.tidy_moveTo (fun _ => Lexer.ne_finish_of_mem_lexFrom) _)
  have hcursor := (parseText_of_statements h).2
  have hcurrent := congrArg Cursor.current hcursor
  have hrest := congrArg Cursor.rest hcursor
  refine ⟨es, c, h, parse_of_statements h, hcurrent.trans h.finishes,
    hrest.trans (htidy.rest_eq_nil h.finishes), ?_⟩
  have hle := Nat.le_trans h.length_le (tokenWeight_moveTo_le _ _)
  rwa [sum_segmentWeight, Nat.zero_mul, Nat.zero_add] at hle

end FormulaLang.Parser
