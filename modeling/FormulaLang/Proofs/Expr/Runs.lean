import FormulaLang.Proofs.Expr.Rules

/-!
# The parser follows the rules

The parser bounds its items by the lexemes ahead, and this bound is never felt: every item takes a
lexeme, unless the cursor is silent, and then a bound that is used up changes nothing.

* `Cursor.Bounded`: as many items as there may be ahead of a cursor.
* `listLiteral_eq`, `vectorLiteral_eq`, `callLike_eq`: what is behind an opening bracket.
* **`parser_of_parses`**: what has a derivation is what the parser gives.
-/

namespace FormulaLang.Parser

open Text (Extent)

variable {α β : Type} {limit n : Nat} {c c' c₁ : Cursor}

/-! ## Bounds -/

/-- As many items as there may be ahead of the cursor. -/
def Cursor.Bounded (bound : Nat) (c : Cursor) : Prop := c.rest.length < bound ∨ c.Over

theorem Cursor.bounded_self (c : Cursor) : c.Bounded (c.rest.length + 1) :=
  .inl (Nat.lt_succ_self _)

theorem forall_bounded {Q : Prop} : (∀ bound, c.Bounded bound → Q) ↔ Q :=
  ⟨fun h => h _ c.bounded_self, fun h _ _ => h⟩

/-- Behind an item and a separator one item fewer may be ahead: where the item has taken nothing,
the cursor is silent, and does not change at the end of the text. -/
theorem Cursor.Bounded.advance {bound : Nat} (h : c.Bounded bound) (hm : c.Moves c₁)
    (hne : c₁.current ≠ .finish) : ∃ k, bound = k + 1 ∧ c₁.advance.Bounded k := by
  have hreaches : c.Reaches c₁ := hm.to_reflTransGen
  rcases h with hlt | hover
  · have hle := hreaches.length_rest_le
    have hadvance := c₁.length_rest_advance
    refine ⟨bound - 1, by omega, ?_⟩
    rcases hm.silent_or_advance with hs | hr
    · by_cases hrest : c₁.rest = []
      · exact .inr (over_advance hrest hs)
      · have := List.length_pos_iff.2 hrest
        exact .inl (by omega)
    · have hahead := (hr.ahead_suffix.trans (ahead_moveTo_suffix c.rest c)).length_le
      rw [ahead_of_ne hne, List.length_cons] at hahead
      exact .inl (by omega)
  · exact absurd (hover.current_of_reaches hreaches) hne

/-- Nothing closes items that are parsed from the end of the text on, by a silent cursor. -/
theorem Cursor.Over.expect {m : Mark} {what : String} {closed : Bool} (h : c.Over)
    (hr : c.Reaches c₁) (hclose : expect m what c₁ = (closed, c')) : closed = false ∧ c' = c := by
  obtain rfl := h.eq_of_reaches hr
  rw [expect_of_ne (by rw [h.current]; nofun)] at hclose
  cases hclose
  exact ⟨rfl, note_of_silent h.silent _⟩

theorem Cursor.Bounded.over (h : c.Bounded 0) : c.Over := h.resolve_left (Nat.not_lt_zero _)

/-! ## Steps of the parser -/

theorem run_get (c : Cursor) : (get : Parse Cursor) c = (c, c) := rfl

theorem run_advance (c : Cursor) : advance c = ((), c.advance) := rfl

theorem run_pure (a : α) (c : Cursor) : (pure a : Parse α) c = (a, c) := rfl

theorem run_modify (f : Cursor → Cursor) (c : Cursor) : (modify f : Parse Unit) c = ((), f c) := rfl

theorem run_itemBound (c : Cursor) : itemBound c = (c.rest.length + 1, c) := rfl

theorem below_succ (limit n : Nat) : below limit (n + 1) = some (parseAt limit n) := rfl

theorem joins_eq (limit : Nat) (deeper : Deeper) (rank : Nat) (left : Expr) (c : Cursor) :
    joins limit deeper rank left c = match joinerAt c.current with
      | some op => (if op.rank = rank then descend limit deeper (.joined op left)
          else return left : Parse Expr) c
      | none => (left, c) := by
  simp only [joins, run_bind, run_get]
  cases hc : c.current with
  | mark m =>
    simp only [joinerAt]
    cases joiner? m <;> rfl
  | _ => rfl

theorem primary_of_literal {deeper : Deeper} {v : Value} (h : literal? c.current = some v) :
    primary limit deeper c = (.constant v, c.advance) := by
  simp only [primary, run_bind, run_get]
  unfold literal? at h
  split at h <;> cases h
  all_goals
    next hc =>
      simp only [hc]
      rfl

theorem primary_of_not_begins {deeper : Deeper} (h : beginsOperand c.current = false) :
    primary limit deeper c = (.invalid, c.unexpected) := by
  simp only [primary, run_bind, run_get]
  cases hc : c.current with
  | mark m => cases m <;> first | rfl | (rw [hc] at h; cases h)
  | finish => rfl
  | _ =>
    rw [hc] at h
    cases h

theorem nameLike_of_apart {deeper : Deeper} {name : String} {x : Extent}
    (h : apart c.current = true) : nameLike limit deeper name x c = (.var name, c) := by
  simp only [nameLike, run_bind, run_get]
  cases hc : c.current with
  | mark m => cases m <;> first | rfl | (rw [hc] at h; cases h)
  | _ => rfl

theorem listLiteral_eq (limit n bound : Nat) (c : Cursor) :
    listLiteral limit (below limit n) c = (do
      let items ← (Phrase.list .rightBrace "',' or '\x7d'").parser limit n bound
      return items.elim .invalid .list : Parse Expr) c := by
  simp only [listLiteral, Phrase.parser, run_bind]
  by_cases hc : c.current = .mark .rightBrace
  · simp only [at?_of_eq hc, ↓reduceIte]
    rfl
  · simp only [at?_of_ne hc, Bool.false_eq_true, ↓reduceIte, run_bind]
    generalize itemsUntil _ _ _ _ _ = r
    obtain ⟨items, c'⟩ := r
    cases items <;> rfl

/-- What is behind the rows of a literal that has the extent `x`. -/
def afterRows (x : Extent) : Option (List (List Expr)) → Parse Expr
  | some rows => orFail x (literalOf rows)
  | none => return .invalid

theorem vectorLiteral_eq (limit n bound : Nat) (x : Extent) (c : Cursor) :
    vectorLiteral limit (below limit n) x c = (do
      let rows ← Phrase.matrix.parser limit n bound
      afterRows x rows : Parse Expr) c := by
  simp only [vectorLiteral, Phrase.parser, run_bind]
  by_cases hc : c.current = .mark .rightBracket
  · simp only [at?_of_eq hc, ↓reduceIte]
    rfl
  · simp only [at?_of_ne hc, Bool.false_eq_true, ↓reduceIte, run_bind]
    rfl

theorem callLike_eq (limit n bound : Nat) (name : String) (x : Extent) (c : Cursor) :
    callLike limit (below limit n) name x c = (do
      let args ← (Phrase.list .rightParen "',' or ')'").parser limit n bound
      afterArguments limit (below limit n) name x args : Parse Expr) c := by
  simp only [callLike, Phrase.parser, run_bind]
  by_cases hc : c.current = .mark .rightParen
  · simp only [at?_of_eq hc, ↓reduceIte]
    rfl
  · simp only [at?_of_ne hc, Bool.false_eq_true, ↓reduceIte, run_bind]
    rfl

section Items

variable {item : Parse Expr} {e : Expr} {m : Nat} (he : item c = (e, c₁))

include he

theorem itemsUntil_of_comma {close : Mark} {what : String} {items : Option (List Expr)}
    (hcomma : c₁.current = .mark .comma)
    (h : itemsUntil item close what m c₁.advance = (items, c')) :
    itemsUntil item close what (m + 1) c = (items.map (e :: ·), c') := by
  simp only [itemsUntil, run_bind, he, at?_of_eq hcomma, ↓reduceIte, run_advance, h, run_pure]

theorem itemsUntil_of_ne {close : Mark} {what : String} {closed : Bool}
    (hcomma : c₁.current ≠ .mark .comma) (hclose : expect close what c₁ = (closed, c')) :
    itemsUntil item close what (m + 1) c = (if closed then some [e] else none, c') := by
  simp only [itemsUntil, run_bind, he, at?_of_ne hcomma, Bool.false_eq_true, ↓reduceIte, hclose]
  split <;> rfl

theorem rowsUntil_of_comma {rows : Option (List (List Expr))} (hcomma : c₁.current = .mark .comma)
    (h : rowsUntil item m c₁.advance = (rows, c')) :
    rowsUntil item (m + 1) c = (rows.map (addToRow e), c') := by
  simp only [rowsUntil, run_bind, he, at?_of_eq hcomma, ↓reduceIte, run_advance, h, run_pure]

theorem rowsUntil_of_semicolon {rows : Option (List (List Expr))}
    (hsemicolon : c₁.current = .mark .semicolon) (h : rowsUntil item m c₁.advance = (rows, c')) :
    rowsUntil item (m + 1) c = (rows.map ([e] :: ·), c') := by
  have hcomma : c₁.current ≠ .mark .comma := by
    rw [hsemicolon]
    nofun
  simp only [rowsUntil, run_bind, he, at?_of_ne hcomma, Bool.false_eq_true, at?_of_eq hsemicolon,
    ↓reduceIte, run_advance, h, run_pure]

theorem rowsUntil_of_ne {closed : Bool} (hcomma : c₁.current ≠ .mark .comma)
    (hsemicolon : c₁.current ≠ .mark .semicolon)
    (hclose : expect .rightBracket "',', ';' or ']'" c₁ = (closed, c')) :
    rowsUntil item (m + 1) c = (if closed then some [[e]] else none, c') := by
  simp only [rowsUntil, run_bind, he, at?_of_ne hcomma, at?_of_ne hsemicolon, Bool.false_eq_true,
    ↓reduceIte, hclose]
  split <;> rfl

end Items

/-! ## Derivations -/

/-- **What has a derivation is what the parser gives**, if it may take enough items. -/
theorem parser_of_parses {p : Phrase α} {a : α} (h : Parses limit n p c a c') :
    ∀ bound, c.Bounded bound → p.parser limit n bound c = (a, c') := by
  -- a rule is one path through the parser of its phrase; only items and rows count the bound down,
  -- and where one is parsed anew, its bound is what the cursor has ahead
  induction h with
  | tooDeep => exact fun _ _ => rfl
  | nested _ ih =>
    simp only [Phrase.parser, forall_bounded, below_succ, descend, parseAt_eq] at ih ⊢
    exact ih
  | expression _ ih | prefixed _ ih | loose _ ih => exact ih
  | joined _ _ ihr ih =>
    simp only [Phrase.parser, forall_bounded] at ihr ih ⊢
    simp only [goal, run_bind, run_advance, ihr, ih]
  | power hc _ _ ihx ih =>
    simp only [Phrase.parser, Factor.parser, forall_bounded] at ihx ih ⊢
    simp only [goal, link, run_bind, run_get, hc, run_advance, ihx, ih]
  | index hc _ hclose _ ihi ih =>
    simp only [Phrase.parser, forall_bounded] at ihi ih ⊢
    simp only [goal, link, run_bind, run_get, hc, run_advance, ihi, hclose, ↓reduceIte, ih]
  | openIndex hc _ hclose ihi =>
    simp only [Phrase.parser, forall_bounded] at ihi ⊢
    simp only [goal, link, run_bind, run_get, hc, run_advance, ihi, hclose, Bool.false_eq_true,
      ↓reduceIte, run_pure]
  | member hcaret hbracket hname _ ih =>
    simp only [Phrase.parser, forall_bounded] at ih ⊢
    simp only [goal, link, run_bind, run_get, run_advance, hname, ih]
  | noMember hcaret hbracket hname =>
    simp only [Phrase.parser, forall_bounded]
    simp only [goal, link, run_bind, run_get, run_advance, run_modify, run_pure]
  | ranked _ _ ihl ih =>
    simp only [Phrase.parser, forall_bounded] at ihl ih ⊢
    simp only [Parser.ranked, run_bind, ihl, ih]
  | joins hop _ ih =>
    simp only [Phrase.parser, forall_bounded] at ih ⊢
    simp only [joins_eq, hop, ↓reduceIte, ih]
  | noJoiner h =>
    simp only [Phrase.parser, forall_bounded]
    rw [joins_eq]
    split
    · next op hop => rw [if_neg (h op hop), run_pure]
    · rfl
  | noPrefix hop _ ih =>
    simp only [Phrase.parser, forall_bounded] at ih ⊢
    simp only [Parser.prefixed, run_bind, run_get, hop, ih]
  | negated hop hone _ ih =>
    simp only [Phrase.parser, forall_bounded] at ih ⊢
    simp only [Parser.prefixed, run_bind, run_get, hop, run_advance, hone, and_self, ↓reduceIte, ih]
  | prefixTooDeep hop hmore =>
    simp only [Phrase.parser, forall_bounded]
    simp only [Parser.prefixed, run_bind, run_get, hop, run_advance, hmore, ↓reduceIte]
    rfl
  | unary hop hmore _ ih =>
    simp only [Phrase.parser, forall_bounded] at ih ⊢
    simp only [Parser.prefixed, run_bind, run_get, hop, run_advance, hmore, ↓reduceIte, below_succ,
      parseAt_eq, ih]
    split <;> rfl
  | single _ hcolon ih =>
    simp only [Phrase.parser, Factor.parser, forall_bounded] at ih ⊢
    simp only [rangeLike, run_bind, ih, at?_of_ne hcolon, Bool.false_eq_true, ↓reduceIte, run_pure]
  | pair _ hcolon _ hend iha ihb =>
    simp only [Phrase.parser, Factor.parser, forall_bounded] at iha ihb ⊢
    simp only [rangeLike, run_bind, iha, at?_of_eq hcolon, ↓reduceIte, run_advance, ihb,
      at?_of_ne hend, Bool.false_eq_true, run_pure]
  | triple _ hcolon _ hcolon' _ iha ihd ihb =>
    simp only [Phrase.parser, Factor.parser, forall_bounded] at iha ihd ihb ⊢
    simp only [rangeLike, run_bind, iha, at?_of_eq hcolon, ↓reduceIte, run_advance, ihd,
      at?_of_eq hcolon', ihb, run_pure]
  | linked _ _ ihb ih =>
    simp only [Phrase.parser, Factor.parser, forall_bounded] at ihb ih ⊢
    simp only [Parser.linked, run_bind, ihb, ih]
  | links hlink _ ih =>
    simp only [Phrase.parser, forall_bounded] at ih ⊢
    simp only [Parser.links, run_bind, run_get, hlink, ↓reduceIte, ih]
  | noLink hlink =>
    simp only [Phrase.parser, forall_bounded]
    simp only [Parser.links, run_bind, run_get, hlink, Bool.false_eq_true, ↓reduceIte, run_pure]
  | minus hc _ ih =>
    simp only [Phrase.parser, forall_bounded] at ih ⊢
    simp only [Parser.signed, run_bind, run_get, hc, run_advance, ih, run_pure]
  | plus hc _ ih =>
    simp only [Phrase.parser, forall_bounded] at ih ⊢
    simp only [Parser.signed, run_bind, run_get, hc, run_advance, ih]
  | noSign hminus hplus _ ih =>
    simp only [Phrase.parser, forall_bounded] at ih ⊢
    simp only [Parser.signed, run_bind, run_get, ih]
  | literal hv => exact fun _ _ => primary_of_literal hv
  | group hc _ hclose ih =>
    simp only [Phrase.parser, Factor.parser, forall_bounded] at ih ⊢
    simp only [Parser.primary, run_bind, run_get, hc, run_advance, ih, hclose]
    split <;> rfl
  | vector hc _ he ihr =>
    have ihr := ihr _ (Cursor.bounded_self _)
    simp only [Phrase.parser, Factor.parser, forall_bounded, Parser.primary, run_bind, run_get, hc,
      run_advance]
    rw [vectorLiteral_eq, run_bind, ihr]
    exact he
  | openVector hc _ ihr =>
    have ihr := ihr _ (Cursor.bounded_self _)
    simp only [Phrase.parser, Factor.parser, forall_bounded, Parser.primary, run_bind, run_get, hc,
      run_advance]
    rw [vectorLiteral_eq, run_bind, ihr]
    rfl
  | list hc _ ihi =>
    have ihi := ihi _ (Cursor.bounded_self _)
    simp only [Phrase.parser, Factor.parser, forall_bounded, Parser.primary, run_bind, run_get, hc,
      run_advance]
    rw [listLiteral_eq, run_bind, ihi]
    rfl
  | name hc _ ih =>
    simp only [Phrase.parser, Factor.parser, forall_bounded] at ih ⊢
    simp only [Parser.primary, run_bind, run_get, hc, run_advance, ih]
  | noOperand hc => exact fun _ _ => primary_of_not_begins hc
  | assign hc _ ih =>
    simp only [Phrase.parser, forall_bounded] at ih ⊢
    simp only [nameLike, run_bind, run_get, hc, run_advance, ih, run_pure]
  | element hc _ hclose hend ihi =>
    simp only [Phrase.parser, forall_bounded] at ihi ⊢
    simp only [nameLike, run_bind, run_get, hc, run_advance, ihi, hclose, ↓reduceIte,
      at?_of_ne hend, Bool.false_eq_true, run_pure]
  | assignElement hc _ hclose hassign _ ihi ih =>
    simp only [Phrase.parser, forall_bounded] at ihi ih ⊢
    simp only [nameLike, run_bind, run_get, hc, run_advance, ihi, hclose, ↓reduceIte,
      at?_of_eq hassign, ih, run_pure]
  | openElement hc _ hclose ihi =>
    simp only [Phrase.parser, forall_bounded] at ihi ⊢
    simp only [nameLike, run_bind, run_get, hc, run_advance, ihi, hclose, Bool.false_eq_true,
      ↓reduceIte, run_pure]
  | call hc _ _ iha ih =>
    have iha := iha _ (Cursor.bounded_self _)
    have ih := ih _ (Cursor.bounded_self _)
    simp only [Phrase.parser, forall_bounded, nameLike, run_bind, run_get, hc, run_advance]
    rw [callLike_eq, run_bind, iha]
    exact ih
  | openCall hc _ iha =>
    have iha := iha _ (Cursor.bounded_self _)
    simp only [Phrase.parser, forall_bounded, nameLike, run_bind, run_get, hc, run_advance]
    rw [callLike_eq, run_bind, iha]
    rfl
  | var hc => exact fun _ _ => nameLike_of_apart hc
  | define hc _ he ihb =>
    simp only [Phrase.parser, forall_bounded] at ihb ⊢
    simp only [afterArguments, run_bind, at?_of_eq hc, ↓reduceIte, run_advance, ihb, he]
  | form hc he =>
    simp only [Phrase.parser, forall_bounded]
    simp only [afterArguments, run_bind, at?_of_ne hc, Bool.false_eq_true, ↓reduceIte, he]
  | noItems hc =>
    simp only [Phrase.parser, forall_bounded]
    simp only [run_bind, at?_of_eq hc, ↓reduceIte, run_advance, run_pure]
  | items hc _ ih =>
    have ih := ih _ (Cursor.bounded_self _)
    simp only [Phrase.parser, forall_bounded] at ih ⊢
    simp only [run_bind, at?_of_ne hc, Bool.false_eq_true, ↓reduceIte, run_itemBound, ih]
  | item he hcomma _ ihe ih =>
    intro bound hb
    obtain ⟨bound, rfl, hmore⟩ := hb.advance (moves_of_parses he) (Cursor.ne_finish_of_mark hcomma)
    have ihe := ihe _ (Cursor.bounded_self _)
    exact itemsUntil_of_comma ihe hcomma (ih bound hmore)
  | lastItem he hcomma hclose ihe =>
    intro bound hb
    have ihe := ihe _ (Cursor.bounded_self _)
    cases bound with
    | zero =>
      obtain ⟨rfl, rfl⟩ := hb.over.expect he.reaches hclose
      exact congrArg (none, ·) (Cursor.note_of_silent hb.over.silent _)
    | succ bound => exact itemsUntil_of_ne ihe hcomma hclose
  | noRows hc =>
    simp only [Phrase.parser, forall_bounded]
    simp only [run_bind, at?_of_eq hc, ↓reduceIte, run_advance, run_pure]
  | rows hc _ ih =>
    have ih := ih _ (Cursor.bounded_self _)
    simp only [Phrase.parser, forall_bounded] at ih ⊢
    simp only [run_bind, at?_of_ne hc, Bool.false_eq_true, ↓reduceIte, run_itemBound, ih]
  | column he hcomma _ ihe ih =>
    intro bound hb
    obtain ⟨bound, rfl, hmore⟩ := hb.advance (moves_of_parses he) (Cursor.ne_finish_of_mark hcomma)
    have ihe := ihe _ (Cursor.bounded_self _)
    exact rowsUntil_of_comma ihe hcomma (ih bound hmore)
  | row he hsemicolon _ ihe ih =>
    intro bound hb
    obtain ⟨bound, rfl, hmore⟩ := hb.advance (moves_of_parses he)
      (Cursor.ne_finish_of_mark hsemicolon)
    have ihe := ihe _ (Cursor.bounded_self _)
    exact rowsUntil_of_semicolon ihe hsemicolon (ih bound hmore)
  | lastRow he hcomma hsemicolon hclose ihe =>
    intro bound hb
    have ihe := ihe _ (Cursor.bounded_self _)
    cases bound with
    | zero =>
      obtain ⟨rfl, rfl⟩ := hb.over.expect he.reaches hclose
      exact congrArg (none, ·) (Cursor.note_of_silent hb.over.silent _)
    | succ bound => exact rowsUntil_of_ne ihe hcomma hsemicolon hclose

end FormulaLang.Parser
