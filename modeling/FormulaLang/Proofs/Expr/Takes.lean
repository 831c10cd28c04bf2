import FormulaLang.Proofs.Expr.Height
import FormulaLang.Proofs.Token.Reads

/-!
# Parsing tokens that are known

A step of parsing takes some of the tokens ahead and leaves the others, without a fault. An operand
is taken as a whole expression where what follows it neither links to it nor joins it.

* `Cursor.Shows`: the tokens ahead of a cursor that has met no fault.
* `Takes`: a step of parsing gives something and leaves some tokens.
* `closes`, `apart`: what may stand behind an expression, and behind an operand.
* `below`: the parser of the levels below a level.
* **`takes_ranked`**, **`takes_expression`**: from an operand to an expression.
* `takes_itemsUntil`, `takes_rowsUntil`: items between separators.
-/

namespace FormulaLang.Parser

open Lexer (between between_singleton between_cons_cons)

variable {α β : Type}

/-! ## The tokens ahead -/

/-- The first of some tokens, or the end of the text. -/
def front (ts : List Token) : Token := ts.headD .finish

@[simp] theorem front_nil : front [] = .finish := rfl

@[simp] theorem front_cons (t : Token) (ts : List Token) : front (t :: ts) = t := rfl

/-- The tokens ahead of a cursor that has met no fault. -/
structure Cursor.Shows (ts : List Token) (c : Cursor) : Prop where
  current : c.current = front ts
  rest : c.rest.map (·.content) = ts.tail.map .ok
  faults : c.faults = #[]
  listens : c.silent = false

section Shows

variable {ts : List Token} {c : Cursor} {ls : List Lexeme}

theorem Cursor.shows_moveTo (hls : ls.map (·.content) = ts.map .ok) (hf : c.faults = #[])
    (hs : c.silent = false) : (Cursor.moveTo ls c).Shows ts := by
  cases ts with
  | nil =>
    rw [List.map_nil, List.map_eq_nil_iff] at hls
    subst hls
    exact ⟨rfl, rfl, hf, hs⟩
  | cons t ts =>
    obtain ⟨⟨content, x⟩, more, rfl, rfl, hmore⟩ := List.map_eq_cons_iff.1 hls
    exact ⟨rfl, hmore, hf, hs⟩

theorem Cursor.Shows.advance (h : c.Shows ts) : c.advance.Shows ts.tail :=
  shows_moveTo h.rest h.faults h.listens

theorem Cursor.Shows.listen (h : c.Shows ts) : c.listen.Shows ts :=
  ⟨h.current, h.rest, h.faults, rfl⟩

theorem Cursor.Shows.length_rest (h : c.Shows ts) : c.rest.length = ts.tail.length := by
  have := congrArg List.length h.rest
  simpa using this

theorem Cursor.shows_start (text : Lexer.Lexed)
    (h : text.lexemes.map (·.content) = ts.map .ok) : (Cursor.start text).Shows ts :=
  shows_moveTo h rfl rfl

end Shows

/-! ## Taking tokens -/

/-- In front of some tokens a step of parsing gives `a` and leaves other tokens, without a fault. -/
def Takes (x : Parse α) (ts : List Token) (a : α) (us : List Token) : Prop :=
  ∀ c, c.Shows ts → (x c).1 = a ∧ (x c).2.Shows us

section Takes

variable {x : Parse α} {f : α → Parse β} {ts us vs : List Token} {a : α} {b : β} {t : Token}
  {m : Mark}

theorem Takes.bind (hx : Takes x ts a vs) (hf : Takes (f a) vs b us) : Takes (x >>= f) ts b us := by
  intro c hc
  obtain ⟨ha, hvs⟩ := hx c hc
  obtain ⟨hb, hus⟩ := hf _ hvs
  subst ha
  exact ⟨hb, hus⟩

theorem takes_pure : Takes (pure a) ts a ts := fun _ hc => ⟨rfl, hc⟩

/-- What a step does next may depend on the cursor. -/
theorem takes_get {f : Cursor → Parse β} (h : ∀ c, c.Shows ts → Takes (f c) ts b us) :
    Takes (get >>= f) ts b us := fun c hc => h c hc c hc

theorem takes_advance : Takes advance (t :: ts) () ts := fun _ hc => ⟨rfl, hc.advance⟩

theorem takes_at? : Takes (at? m) ts ((front ts).isMark m) ts :=
  takes_get fun _ hc => hc.current ▸ takes_pure

theorem takes_expect {what : String} : Takes (expect m what) (.mark m :: ts) true ts := by
  refine takes_at?.bind ?_
  rw [front_cons, Token.isMark_mark, beq_self_eq_true]
  exact takes_advance.bind takes_pure

theorem takes_itemBound : Takes itemBound ts (ts.tail.length + 1) ts :=
  takes_get fun _ hc => hc.length_rest ▸ takes_pure

end Takes

/-! ## What follows -/

/-- The end of the text and the marks that end an expression. -/
def closes : Token → Bool
  | .finish | .mark .comma | .mark .semicolon | .mark .rightParen | .mark .rightBracket |
    .mark .rightBrace => true
  | _ => false

/-- What may stand behind an operand: a name in front of it is neither assigned nor called nor
indexed. -/
def apart : Token → Bool
  | .mark .assign | .mark .leftBracket | .mark .leftParen => false
  | _ => true

/-- What neither links to an operand nor makes it a range, and joins nothing of the rank `k` or
tighter. -/
structure Loose (k : Nat) (t : Token) : Prop where
  link : isLink t = false
  colon : t.isMark .colon = false
  joiner : ∀ m op, t = .mark m → joiner? m = some op → k < op.rank

section Follow

variable {t : Token} {k : Nat} {ts us : List Token}

theorem Loose.mono {j : Nat} (h : Loose k t) (hjk : j ≤ k) : Loose j t :=
  ⟨h.link, h.colon, fun m op hm hop => Nat.lt_of_le_of_lt hjk (h.joiner m op hm hop)⟩

theorem closes_cases (h : closes t) : t = .finish ∨ t = .mark .comma ∨ t = .mark .semicolon ∨
    t = .mark .rightParen ∨ t = .mark .rightBracket ∨ t = .mark .rightBrace := by
  unfold closes at h
  split at h <;> simp at h ⊢

theorem apart_of_closes (h : closes t) : apart t := by
  rcases closes_cases h with rfl | rfl | rfl | rfl | rfl | rfl <;> rfl

theorem loose_of_closes (h : closes t) : Loose k t := by
  have hjoiner : ∀ m, t = .mark m → joiner? m = none := by
    rintro m rfl
    rcases closes_cases h with h | h | h | h | h | h <;> cases h <;> rfl
  refine ⟨?_, ?_, fun m op hm hop => ?_⟩
  · rcases closes_cases h with rfl | rfl | rfl | rfl | rfl | rfl <;> rfl
  · rcases closes_cases h with rfl | rfl | rfl | rfl | rfl | rfl <;> rfl
  · rw [hjoiner m hm] at hop
    cases hop

theorem isMark_of_apart (h : apart t) : t.isMark .assign = false := by
  cases t with
  | mark m =>
    rw [Token.isMark_mark, beq_eq_false_iff_ne]
    rintro rfl
    cases h
  | _ => rfl

/-- What does not begin with a closing mark is not empty. -/
theorem front_append (h : closes (front ts) = false) : front (ts ++ us) = front ts := by
  cases ts with
  | nil => cases h
  | cons t ts => rfl

theorem isMark_front (h : closes t = false) {m : Mark} (hm : closes (.mark m)) :
    t.isMark m = false := by
  cases t with
  | mark m' =>
    rw [Token.isMark_mark, beq_eq_false_iff_ne]
    rintro rfl
    rw [hm] at h
    cases h
  | _ => rfl

end Follow

/-! ## From an operand to an expression -/

section Climb

variable {limit k : Nat} {deeper : Deeper} {e : Expr} {ts us : List Token}

theorem takes_links (h : isLink (front us) = false) :
    Takes (links limit deeper e) us e us := by
  refine takes_get fun c hc => ?_
  rw [hc.current, h]
  exact takes_pure

theorem takes_linked (h : Takes (primary limit deeper) ts e us) (hlink : isLink (front us) = false) :
    Takes (linked limit deeper) ts e us := h.bind (takes_links hlink)

theorem takes_rangeLike {negated : Bool} (h : Takes (linked limit deeper) ts e us)
    (hcolon : (front us).isMark .colon = false) :
    Takes (rangeLike limit deeper negated) ts (if negated then .unary .neg e else e) us := by
  refine h.bind (takes_at?.bind ?_)
  rw [hcolon]
  exact takes_pure

theorem takes_prefixed (h : Takes (rangeLike limit deeper false) ts e us)
    (hfront : prefixOp? (front ts) = none) : Takes (prefixed limit deeper) ts e us := by
  refine takes_get fun c hc => ?_
  rw [hc.current, hfront]
  exact h

theorem takes_joins {rank : Nat}
    (h : ∀ m op, front us = .mark m → joiner? m = some op → rank < op.rank) :
    Takes (joins limit deeper rank e) us e us := by
  refine takes_get fun c hc => ?_
  rw [hc.current]
  split
  · next m hm =>
    split
    · next op hop =>
      rw [if_neg (Nat.ne_of_gt (h m op hm hop))]
      exact takes_pure
    · exact takes_pure
  · exact takes_pure

/-- **From a rank to a looser one.** -/
theorem takes_ranked {j : Nat} (h : Takes (ranked limit deeper j) ts e us) (hjk : j ≤ k)
    (hjoiner : ∀ m op, front us = .mark m → joiner? m = some op → k < op.rank) :
    Takes (ranked limit deeper k) ts e us := by
  induction k, hjk using Nat.le_induction with
  | base => exact h
  | succ k _ ih =>
    exact (ih fun m op hm hop => Nat.lt_of_succ_lt (hjoiner m op hm hop)).bind (takes_joins hjoiner)

/-- **From an operand with its links to a rank.** -/
theorem takes_ranked_of_linked (h : Takes (linked limit deeper) ts e us)
    (hfront : prefixOp? (front ts) = none) (hloose : Loose k (front us)) :
    Takes (ranked limit deeper k) ts e us :=
  takes_ranked (j := 0) (takes_prefixed (takes_rangeLike h hloose.colon) hfront) (Nat.zero_le k)
    hloose.joiner

/-- An operand that has no sign. -/
theorem takes_signed {operand : Parse Expr} (h : Takes operand ts e us)
    (hfront : prefixOp? (front ts) = none) : Takes (signed operand) ts e us := by
  refine takes_get fun c hc => ?_
  rw [hc.current]
  split
  · next hminus =>
    rw [hminus] at hfront
    cases hfront
  · next hplus =>
    rw [hplus] at hfront
    cases hfront
  · exact h

end Climb

/-! ## Levels -/

/-- The parsers of the `n` levels below a level. -/
def below (limit : Nat) : Nat → Deeper
  | 0 => none
  | n + 1 => some (parseAt limit n)

section Levels

variable {limit n : Nat} {e : Expr} {g : Goal} {ts us : List Token}

theorem parseAt_eq (limit n : Nat) (g : Goal) : parseAt limit n g = goal limit (below limit n) g := by
  cases n <;> rfl

theorem takes_descend (h : Takes (parseAt limit n g) ts e us) :
    Takes (descend limit (below limit (n + 1)) g) ts e us := h

/-- **From a rank to an expression.** -/
theorem takes_expression {j : Nat} (h : Takes (ranked limit (below limit n) j) ts e us) (hj : j ≤ 5)
    (hclose : closes (front us)) : Takes (parseAt limit n .expression) ts e us := by
  rw [parseAt_eq]
  exact takes_ranked h hj (loose_of_closes hclose).joiner

/-- **From an operand with its links to an expression.** -/
theorem takes_expression_of_linked (h : Takes (linked limit (below limit n)) ts e us)
    (hfront : prefixOp? (front ts) = none) (hclose : closes (front us)) :
    Takes (parseAt limit n .expression) ts e us :=
  takes_expression (takes_ranked_of_linked (k := 0) h hfront (loose_of_closes hclose))
    (Nat.zero_le 5) hclose

/-- An expression in parentheses. -/
theorem takes_parens
    (h : Takes (parseAt limit n .expression) ts e (.mark .rightParen :: us)) :
    Takes (primary limit (below limit (n + 1))) (.mark .leftParen :: ts) e us := by
  refine takes_get fun c hc => ?_
  rw [hc.current]
  exact takes_advance.bind ((takes_descend h).bind (takes_expect.bind takes_pure))

end Levels

/-! ## Items between separators -/

section Items

variable {item : Parse Expr} {f : Expr → List Token} {es : List Expr} {us : List Token}

/-- Pieces begin like the first one. -/
theorem closes_between {m : Mark} {ts : List Token} (h : closes (front ts) = false)
    (tss : List (List Token)) : closes (front (between m (ts :: tss))) = false := by
  cases tss with
  | nil => rwa [between_singleton]
  | cons us tss => rwa [between_cons_cons, front_append h]

theorem length_le_between (m : Mark) (tss : List (List Token)) :
    tss.length ≤ (between m tss).length + 1 := by
  induction tss with
  | nil => exact Nat.zero_le _
  | cons ts tss ih =>
    cases tss with
    | nil => simp
    | cons us tss =>
      simp only [between_cons_cons, List.length_append, List.length_cons] at ih ⊢
      omega

/-- Pieces that are not empty are not more than their tokens. -/
theorem length_le_between_of_ne_nil (m : Mark) (tss : List (List Token))
    (h : ∀ ts ∈ tss, ts ≠ []) : tss.length ≤ (between m tss).length := by
  induction tss with
  | nil => exact Nat.zero_le _
  | cons ts tss ih =>
    have hts := List.length_pos_iff.2 (h ts List.mem_cons_self)
    have hle := ih fun us hus => h us (List.mem_cons_of_mem _ hus)
    cases tss with
    | nil =>
      rw [between_singleton]
      exact hts
    | cons us tss =>
      simp only [between_cons_cons, List.length_append, List.length_cons] at hle ⊢
      omega

/-- **Items between commas.** -/
theorem takes_itemsUntil (hes : es ≠ [])
    (hitem : ∀ e ∈ es, ∀ us, closes (front us) → Takes item (f e ++ us) e us) {close : Mark}
    (hclose : closes (.mark close)) (hcomma : close ≠ .comma) (what : String) {n : Nat}
    (hn : es.length ≤ n) :
    Takes (itemsUntil item close what n) (between .comma (es.map f) ++ .mark close :: us)
      (some es) us := by
  induction es generalizing n with
  | nil => exact absurd rfl hes
  | cons e es ih =>
    obtain ⟨n, rfl⟩ := Nat.exists_eq_add_one_of_ne_zero (Nat.ne_of_gt (Nat.lt_of_lt_of_le
      (Nat.succ_pos _) hn))
    have hfirst := hitem e List.mem_cons_self
    cases es with
    | nil =>
      rw [List.map_singleton, between_singleton]
      refine (hfirst (.mark close :: us) hclose).bind (takes_at?.bind ?_)
      rw [front_cons, Token.isMark_mark, beq_eq_false_iff_ne.2 hcomma]
      exact takes_expect.bind takes_pure
    | cons e' es =>
      rw [List.map_cons, List.map_cons, between_cons_cons, List.append_assoc]
      refine (hfirst _ rfl).bind (takes_at?.bind (takes_advance.bind ?_))
      exact (ih (List.cons_ne_nil _ _) (fun e he => hitem e (List.mem_cons_of_mem _ he))
        (Nat.le_of_succ_le_succ hn)).bind takes_pure

variable {row : List Expr} {rows : List (List Expr)} {vs : List Token} {k : Nat}

/-- A row, if its last item is taken with what follows the row. -/
theorem takes_row (hrow : row ≠ [])
    (hitem : ∀ e ∈ row, ∀ us, closes (front us) → Takes item (f e ++ us) e us)
    (hlast : ∀ e ∈ row, ∀ n, k < n →
      Takes (rowsUntil item n) (f e ++ vs) (some ([e] :: rows)) us) {n : Nat}
    (hn : row.length + k ≤ n) :
    Takes (rowsUntil item n) (between .comma (row.map f) ++ vs) (some (row :: rows)) us := by
  induction row generalizing n with
  | nil => exact absurd rfl hrow
  | cons e row ih =>
    cases row with
    | nil =>
      rw [List.map_singleton, between_singleton]
      exact hlast e List.mem_cons_self n (Nat.lt_of_lt_of_le (Nat.lt_add_of_pos_left Nat.one_pos) hn)
    | cons e' row =>
      obtain ⟨n, rfl⟩ := Nat.exists_eq_add_one_of_ne_zero (Nat.ne_of_gt (Nat.lt_of_lt_of_le
        (Nat.add_pos_left (Nat.succ_pos _) _) hn))
      rw [List.map_cons, List.map_cons, between_cons_cons, List.append_assoc]
      refine (hitem e List.mem_cons_self _ rfl).bind (takes_at?.bind (takes_advance.bind ?_))
      refine (ih (List.cons_ne_nil _ _) (fun e he => hitem e (List.mem_cons_of_mem _ he))
        (fun e he => hlast e (List.mem_cons_of_mem _ he)) ?_).bind takes_pure
      simp only [List.length_cons] at hn ⊢
      omega

/-- **Rows of items**, up to the closing bracket. -/
theorem takes_rowsUntil (hrows : rows ≠ []) (hrow : ∀ row ∈ rows, row ≠ [])
    (hitem : ∀ row ∈ rows, ∀ e ∈ row, ∀ us, closes (front us) → Takes item (f e ++ us) e us)
    {n : Nat} (hn : rows.flatten.length ≤ n) :
    Takes (rowsUntil item n) (between .semicolon (rows.map fun row => between .comma (row.map f)) ++
      .mark .rightBracket :: us) (some rows) us := by
  induction rows generalizing n with
  | nil => exact absurd rfl hrows
  | cons row rows ih =>
    have hfirst := hitem row List.mem_cons_self
    have hne := hrow row List.mem_cons_self
    rw [List.flatten_cons, List.length_append] at hn
    cases rows with
    | nil =>
      rw [List.map_singleton, between_singleton]
      refine takes_row hne hfirst (fun e he n hn => ?_) hn
      obtain ⟨n, rfl⟩ := Nat.exists_eq_add_one_of_ne_zero (Nat.ne_of_gt (Nat.zero_lt_of_lt hn))
      exact (hfirst e he _ rfl).bind (takes_at?.bind (takes_at?.bind (takes_expect.bind takes_pure)))
    | cons row' rows =>
      rw [List.map_cons, List.map_cons, between_cons_cons, List.append_assoc]
      refine takes_row hne hfirst (fun e he n hn => ?_) hn
      obtain ⟨n, rfl⟩ := Nat.exists_eq_add_one_of_ne_zero (Nat.ne_of_gt (Nat.zero_lt_of_lt hn))
      refine (hfirst e he _ rfl).bind (takes_at?.bind (takes_at?.bind (takes_advance.bind ?_)))
      exact (ih (List.cons_ne_nil _ _) (fun row hr => hrow row (List.mem_cons_of_mem _ hr))
        (fun row hr => hitem row (List.mem_cons_of_mem _ hr)) (Nat.le_of_lt_succ hn)).bind takes_pure

end Items

end FormulaLang.Parser
