import FormulaLang.Expr.Printer
import FormulaLang.Proofs.Expr.Takes
import FormulaLang.Proofs.Token.Legal

/-!
# Trees that read back

The text of a tree reads back to it if the texts of its parts do, for every form that a parser gives.
As an operand the tree stands in parentheses unless it is an atom, so its text is read in two ways.

* `AsWhole`, `AsOperand`: tokens that are a whole expression, or an operand.
* `Readable`: a tree that reads back from its text and as an operand.
* `Readable.of_operand`, `Readable.of_whole`: one way of reading a tree gives the other.
* `Readable.number`, `Readable.string`, `Readable.bool`: literals.
* **`AsOperand.unary`**, **`Readable.unary`**, **`Readable.build`**, **`Readable.range`**: operators
  and ranges.
* `Readable.index`, `Readable.member`: links.
-/

namespace FormulaLang.Parser

open Lexer FormulaLang.Expr

/-! ## Marks of operators -/

/-- The mark of an operator between operands. -/
def Joiner.mark : Joiner → Mark
  | .binary .add => .plus
  | .binary .sub => .minus
  | .binary .mul => .star
  | .binary .div => .slash
  | .binary .mod => .percent
  | .binary .pow => .caret
  | .binary .bitAnd => .ampersand
  | .binary .bitOr => .bar
  | .compare .eq => .equal
  | .compare .ne => .notEqual
  | .compare .lt => .less
  | .compare .le => .lessEqual
  | .compare .gt => .greater
  | .compare .ge => .greaterEqual
  | .logical .and => .and
  | .logical .or => .or
  | .logical .xor => .xor
  | .logical .nor => .nor
  | .logical .nand => .nand

theorem text_build (op : Joiner) (a b : Expr) : (op.build a b).text =
    enclose a a.text ++ (" " ++ op.mark.text ++ " ") ++ enclose b b.text := by
  have hsymbol : ∀ s t u v : String, s ++ t ++ u ++ t ++ v = s ++ (t ++ u ++ t) ++ v := by
    simp [String.append_assoc]
  cases op with
  | binary op =>
    rw [Joiner.build, text, hsymbol]
    cases op <;> rfl
  | compare op =>
    rw [Joiner.build, text, hsymbol]
    cases op <;> rfl
  | logical op =>
    rw [Joiner.build, text, hsymbol]
    cases op <;> rfl

theorem height_build (op : Joiner) (a b : Expr) :
    (op.build a b).height = max a.height b.height + 1 := by
  cases op <;> rw [Joiner.build, height]

theorem isAtom_build (op : Joiner) (a b : Expr) : (op.build a b).isAtom = false := by
  cases op <;> rfl

/-- The mark of every operator but the power joins. -/
theorem joiner?_mark {op : Joiner} (h : op ≠ .binary .pow) : joiner? op.mark = some op := by
  cases op with
  | binary op => cases op <;> first | rfl | exact absurd rfl h
  | compare op => cases op <;> rfl
  | logical op => cases op <;> rfl

theorem rank_pos {op : Joiner} (h : op ≠ .binary .pow) : 0 < op.rank ∧ op.rank ≤ 5 := by
  cases op with
  | binary op => cases op <;> first | decide | exact absurd rfl h
  | compare op => cases op <;> decide
  | logical op => cases op <;> decide

theorem ne_pow_of_rank {op : Joiner} {k : Nat} (h : k < op.rank) : op ≠ .binary .pow := by
  rintro rfl
  exact Nat.not_lt_zero _ h

theorem eq_pow_of_rank {op : Joiner} (h : op.rank ≤ 0) : op = .binary .pow :=
  not_not.1 fun hne => Nat.not_lt.2 h (rank_pos hne).1

theorem apart_mark (op : Joiner) : apart (.mark op.mark) := by
  cases op with
  | binary op => cases op <;> rfl
  | compare op => cases op <;> rfl
  | logical op => cases op <;> rfl

/-- An operator is loose to the ranks below its own. -/
theorem loose_mark {op : Joiner} (h : op ≠ .binary .pow) {k : Nat} (hk : k < op.rank) :
    Loose k (.mark op.mark) := by
  have hjoiner : ∀ m op', Token.mark op.mark = .mark m → joiner? m = some op' → k < op'.rank := by
    intro m op' hm hop
    cases hm
    rw [joiner?_mark h, Option.some.injEq] at hop
    exact hop ▸ hk
  refine ⟨?_, ?_, hjoiner⟩
  · cases op with
    | binary op => cases op <;> first | rfl | exact absurd rfl h
    | compare op => cases op <;> rfl
    | logical op => cases op <;> rfl
  · cases op with
    | binary op => cases op <;> rfl
    | compare op => cases op <;> rfl
    | logical op => cases op <;> rfl

/-! ## Reading a tree back -/

/-- Tokens that are parsed as a whole expression where there are twice as many levels as the tree is
high. -/
structure AsWhole (ts : List Token) (e : Expr) : Prop where
  begins : closes (front ts) = false
  takes : ∀ {limit n us}, 2 * e.height ≤ n → closes (front us) →
    Takes (parseAt limit n .expression) (ts ++ us) e us

/-- Tokens that are parsed as an operand at a level that has `k` levels below it. -/
structure AsOperand (k : Nat) (ts : List Token) (e : Expr) : Prop where
  begins : closes (front ts) = false
  unsigned : prefixOp? (front ts) = none
  takes : ∀ {limit n us}, k ≤ n → apart (front us) →
    Takes (primary limit (below limit n)) (ts ++ us) e us

/-- A tree that reads back from its text, and from its text as an operand. -/
structure Readable (e : Expr) : Prop where
  whole : ∃ ts, Written e.text ts ∧ AsWhole ts e
  operand : ∃ ts, Written (enclose e e.text) ts ∧ AsOperand (2 * e.height + 1) ts e

theorem delimited_leftParen : Delimited "(" [.mark .leftParen] :=
  delimited_single (c := '(') rfl ⟨rfl, by decide⟩ rfl

theorem delimited_rightParen : Delimited ")" [.mark .rightParen] :=
  delimited_single (c := ')') rfl ⟨rfl, by decide⟩ rfl

theorem delimited_leftBracket : Delimited "[" [.mark .leftBracket] :=
  delimited_single (c := '[') rfl ⟨rfl, by decide⟩ rfl

theorem delimited_rightBracket : Delimited "]" [.mark .rightBracket] :=
  delimited_single (c := ']') rfl ⟨rfl, by decide⟩ rfl

theorem delimited_colon : Delimited ":" [.mark .colon] :=
  delimited_single (c := ':') rfl ⟨rfl, by decide⟩ rfl

theorem breaking_rightParen : Breaking ")" := ⟨')', [], rfl, rfl⟩

theorem breaking_leftParen : Breaking "(" := ⟨'(', [], rfl, rfl⟩

theorem breaking_rightBracket : Breaking "]" := ⟨']', [], rfl, rfl⟩

theorem breaking_leftBracket : Breaking "[" := ⟨'[', [], rfl, rfl⟩

theorem breaking_spaced (m : Mark) : Breaking (" " ++ m.text ++ " ") :=
  (Breaking.append (a := " ") ⟨' ', [], rfl, rfl⟩ _).append _

theorem breaking_colon : Breaking ":" := ⟨':', [], rfl, rfl⟩

section Readable

variable {e : Expr} {ts us : List Token} {k n limit : Nat}

theorem AsWhole.ne_nil (h : AsWhole ts e) : ts ≠ [] := by
  rintro rfl
  cases h.begins

theorem AsOperand.prefixOp?_append (h : AsOperand k ts e) (us : List Token) :
    prefixOp? (front (ts ++ us)) = none := by rw [front_append h.begins, h.unsigned]

/-- An operand in front of what links to nothing. -/
theorem AsOperand.unlinked (h : AsOperand k ts e) (hn : k ≤ n) (hapart : apart (front us))
    (hlink : isLink (front us) = false) : Takes (linked limit (below limit n)) (ts ++ us) e us :=
  takes_linked (h.takes hn hapart) hlink

theorem AsOperand.whole (h : AsOperand (2 * e.height) ts e) : AsWhole ts e where
  begins := h.begins
  takes hn hclose := takes_expression_of_linked
    (h.unlinked hn (apart_of_closes hclose) (loose_of_closes (k := 0) hclose).link)
    (h.prefixOp?_append _) hclose

theorem AsWhole.parens (h : AsWhole ts e) :
    AsOperand (2 * e.height + 1) ([Token.mark .leftParen] ++ ts ++ [Token.mark .rightParen]) e where
  begins := rfl
  unsigned := rfl
  takes {limit n us} hn _ := by
    obtain ⟨n, rfl⟩ := Nat.exists_eq_add_one_of_ne_zero (Nat.ne_of_gt (Nat.zero_lt_of_lt hn))
    rw [List.append_assoc, List.append_assoc]
    exact takes_parens (h.takes (Nat.le_of_succ_le_succ hn) rfl)

theorem written_parens {text : String} (h : Written text ts) :
    Written ("(" ++ text ++ ")") ([Token.mark .leftParen] ++ ts ++ [Token.mark .rightParen]) :=
  (delimited_leftParen.append_written h).append delimited_rightParen.written breaking_rightParen

/-- A tree that stands in parentheses as an operand. -/
theorem Readable.of_whole (ts : List Token) (ha : e.isAtom = false) (hw : Written e.text ts)
    (h : AsWhole ts e) : Readable e where
  whole := ⟨ts, hw, h⟩
  operand := by
    have htext : enclose e e.text = "(" ++ e.text ++ ")" := by
      rw [enclose, ha]
      rfl
    exact ⟨_, htext ▸ written_parens hw, h.parens⟩

/-- A tree that could do without parentheses. -/
theorem Readable.of_operand (ts : List Token) (hw : Written e.text ts)
    (h : AsOperand (2 * e.height) ts e) : Readable e := by
  by_cases ha : e.isAtom
  · have htext : enclose e e.text = e.text := if_pos ha
    exact ⟨⟨ts, hw, h.whole⟩, ts, htext.symm ▸ hw, h.begins, h.unsigned, fun hn =>
      h.takes (Nat.le_of_succ_le hn)⟩
  · exact .of_whole ts (Bool.eq_false_iff.2 ha) hw h.whole

/-- A tree that takes all that follows its beginning. -/
theorem Readable.of_primary (ts : List Token) (ha : e.isAtom = false) (hw : Written e.text ts)
    (hbegins : closes (front ts) = false) (hunsigned : prefixOp? (front ts) = none)
    (h : ∀ {limit n us}, 2 * e.height ≤ n → closes (front us) →
      Takes (primary limit (below limit n)) (ts ++ us) e us) : Readable e := by
  refine .of_whole ts ha hw ⟨hbegins, fun hn hclose => ?_⟩
  refine takes_expression_of_linked (takes_linked (h hn hclose) ?_) ?_ hclose
  · exact (loose_of_closes (k := 0) hclose).link
  · rw [front_append hbegins, hunsigned]

end Readable

/-! ## Leaves -/

section Leaves

/-- A token that is a literal. -/
theorem operand_constant {t : Token} {v : Value} {k : Nat} (hclose : closes t = false)
    (hunsigned : prefixOp? t = none)
    (ht : ∀ {limit deeper us}, Takes (primary limit deeper) (t :: us) (.constant v) us) :
    AsOperand k [t] (.constant v) := ⟨hclose, hunsigned, fun _ _ => ht⟩

theorem takes_number {limit : Nat} {deeper : Deeper} {x : Float} {us : List Token} :
    Takes (primary limit deeper) (.number x :: us) (.constant (.number x)) us := by
  refine takes_get fun c hc => ?_
  rw [hc.current]
  exact takes_advance.bind takes_pure

theorem Readable.number {x : Float} (hx : Written (numberLiteral x) [.number x]) :
    Readable (.constant (.number x)) :=
  .of_operand _ (by rwa [text, constantText]) (operand_constant rfl rfl takes_number)

theorem Readable.string (s : String) : Readable (.constant (.string s)) := by
  have hw : Written (stringLiteral s) [.string s] := fun rest hrest =>
    reads_string s fun more hmore => hrest.head_ne (by decide) more hmore
  refine .of_operand _ (by rwa [text, constantText]) (operand_constant rfl rfl ?_)
  refine takes_get fun c hc => ?_
  rw [hc.current]
  exact takes_advance.bind takes_pure

theorem Readable.bool (b : Bool) : Readable (.constant (.bool b)) := by
  cases b with
  | false =>
    refine .of_operand [.mark .false] (fun rest hrest => reads_mark .false hrest)
      (operand_constant rfl rfl ?_)
    refine takes_get fun c hc => ?_
    rw [hc.current]
    exact takes_advance.bind takes_pure
  | true =>
    refine .of_operand [.mark .true] (fun rest hrest => reads_mark .true hrest)
      (operand_constant rfl rfl ?_)
    refine takes_get fun c hc => ?_
    rw [hc.current]
    exact takes_advance.bind takes_pure

end Leaves

/-! ## Operators -/

section Operators

variable {a b e i : Expr} {ts us vs : List Token} {limit n : Nat}

/-- The mark of a prefix operator. -/
def prefixMark : UnaryOp → Mark
  | .neg => .minus
  | .not => .not
  | .bitNot => .tilde

theorem delimited_prefixText (op : UnaryOp) : Delimited (prefixText op) [.mark (prefixMark op)] := by
  cases op with
  | neg => exact delimited_single (c := '-') rfl ⟨rfl, by decide⟩ rfl
  | not => exact delimited_word .not
  | bitNot => exact delimited_single (c := '~') rfl ⟨rfl, by decide⟩ rfl

theorem prefixOp?_mark (op : UnaryOp) : prefixOp? (.mark (prefixMark op)) = some (some op) := by
  cases op <;> rfl

/-- A prefix operator in front of an operand. -/
theorem takes_unary (op : UnaryOp) {k : Nat} (he : AsOperand k ts e) (hn : k < n)
    (hclose : closes (front us)) :
    Takes (prefixed limit (below limit n)) (.mark (prefixMark op) :: (ts ++ us)) (.unary op e) us := by
  have hloose : Loose 0 (front us) := loose_of_closes hclose
  have hapart := apart_of_closes hclose
  refine takes_get fun c hc => ?_
  rw [hc.current, front_cons, prefixOp?_mark]
  refine takes_advance.bind (takes_get fun c hc => ?_)
  rw [hc.current, he.prefixOp?_append]
  by_cases hneg : op = .neg
  · subst hneg
    exact takes_rangeLike (he.unlinked (Nat.le_of_lt hn) hapart hloose.link) hloose.colon
  · rw [if_neg (by simpa using hneg)]
    obtain ⟨n, rfl⟩ := Nat.exists_eq_add_one_of_ne_zero (Nat.ne_of_gt (Nat.zero_lt_of_lt hn))
    have hoperand : Takes (parseAt limit n .prefixed) (ts ++ us) e us := by
      rw [parseAt_eq]
      exact takes_prefixed (takes_rangeLike (he.unlinked (Nat.le_of_lt_succ hn) hapart hloose.link)
        hloose.colon) (he.prefixOp?_append us)
    exact hoperand.bind takes_pure

theorem AsOperand.unary (op : UnaryOp) (he : AsOperand (2 * e.height + 1) ts e) :
    AsWhole ([Token.mark (prefixMark op)] ++ ts) (.unary op e) where
  begins := by cases op <;> rfl
  takes hn hclose := by
    rw [height] at hn
    exact takes_expression (j := 0) (takes_unary op he (by omega) hclose) (Nat.zero_le 5) hclose

/-- **A prefix operator.** -/
theorem Readable.unary (op : UnaryOp) (he : Readable e) : Readable (.unary op e) := by
  obtain ⟨ts, hw, ho⟩ := he.operand
  refine .of_whole ([Token.mark (prefixMark op)] ++ ts) rfl ?_ (ho.unary op)
  rw [text]
  exact (delimited_prefixText op).append_written hw

/-- A joiner behind an operand, the tighter operand behind it, and the joiners behind both. -/
theorem takes_joins_of_mark {op : Joiner} (h : op ≠ .binary .pow) {k : Nat} (hk : op.rank = k + 1)
    (hb : Takes (ranked limit (below limit n) k) ts b vs)
    (hmore : Takes (joins limit (below limit n) (k + 1) (op.build a b)) vs e us) :
    Takes (joins limit (below limit (n + 1)) (k + 1) a) (.mark op.mark :: ts) e us := by
  have hdeeper : Takes (parseAt limit n (.joined op a)) (.mark op.mark :: ts) e us := by
    rw [parseAt_eq]
    refine takes_advance.bind ?_
    rw [hk]
    exact hb.bind hmore
  refine takes_get fun c hc => ?_
  rw [hc.current]
  simp only [front_cons, joiner?_mark h, hk, if_true]
  exact takes_descend hdeeper

/-- An operator between an operand and what binds tighter. -/
theorem takes_joined {op : Joiner} (h : op ≠ .binary .pow) {k : Nat} (hk : op.rank = k + 1)
    (ha : Takes (ranked limit (below limit (n + 1)) k) ts a (.mark op.mark :: vs))
    (hb : Takes (ranked limit (below limit n) k) vs b us) (hclose : closes (front us)) :
    Takes (ranked limit (below limit (n + 1)) (k + 1)) ts (op.build a b) us :=
  ha.bind (takes_joins_of_mark h hk hb (takes_joins (loose_of_closes hclose).joiner))

/-- A power behind an operand, its exponent, and the links behind both. -/
theorem takes_links_of_caret (hb : Takes (primary limit (below limit n)) ts b vs)
    (hunsigned : prefixOp? (front ts) = none)
    (hmore : Takes (links limit (below limit n) (.binary .pow a b)) vs e us) :
    Takes (links limit (below limit (n + 1)) a) (.mark .caret :: ts) e us := by
  have hdeeper : Takes (parseAt limit n (.link a)) (.mark .caret :: ts) e us := by
    rw [parseAt_eq]
    refine takes_get fun c hc => ?_
    rw [hc.current]
    exact takes_advance.bind ((takes_signed hb hunsigned).bind hmore)
  refine takes_get fun c hc => ?_
  rw [hc.current]
  exact takes_descend hdeeper

/-- A power of an operand. -/
theorem takes_pow (ha : Takes (primary limit (below limit (n + 1))) ts a (.mark .caret :: vs))
    (hb : Takes (primary limit (below limit n)) vs b us) (hunsigned : prefixOp? (front vs) = none)
    (hlink : isLink (front us) = false) :
    Takes (linked limit (below limit (n + 1))) ts (.binary .pow a b) us :=
  ha.bind (takes_links_of_caret hb hunsigned (takes_links hlink))

/-- **An operator between operands.** -/
theorem Readable.build (op : Joiner) (ha : Readable a) (hb : Readable b) :
    Readable (op.build a b) := by
  obtain ⟨ts, hwa, hoa⟩ := ha.operand
  obtain ⟨us, hwb, hob⟩ := hb.operand
  refine .of_whole (ts ++ [Token.mark op.mark] ++ us) (isAtom_build op a b) ?_
    ⟨?_, fun {limit n vs} hn hclose => ?_⟩
  · rw [text_build]
    exact (hwa.append_delimited (delimited_spaced _) (breaking_spaced _)).append_written hwb
  · rw [List.append_assoc, front_append hoa.begins]
    exact hoa.begins
  rw [height_build] at hn
  obtain ⟨n, rfl⟩ := Nat.exists_eq_add_one_of_ne_zero (Nat.ne_of_gt (Nat.lt_of_lt_of_le
    (Nat.mul_pos Nat.two_pos (Nat.succ_pos _)) hn))
  rw [List.append_assoc, List.append_assoc, List.singleton_append]
  have hapart := apart_of_closes hclose
  by_cases hpow : op = .binary .pow
  · subst hpow
    refine takes_expression_of_linked (takes_pow (hoa.takes (by omega) rfl)
      (hob.takes (by omega) hapart) (hob.prefixOp?_append vs) ?_) (hoa.prefixOp?_append _) hclose
    exact (loose_of_closes (k := 0) hclose).link
  · obtain ⟨hpos, hle⟩ := rank_pos hpow
    obtain ⟨k, hk⟩ := Nat.exists_eq_add_one_of_ne_zero (Nat.ne_of_gt hpos)
    have hloose : Loose k (.mark op.mark) := loose_mark hpow (hk ▸ Nat.lt_succ_self k)
    have hfirst : Takes (ranked limit (below limit (n + 1)) k)
        (ts ++ .mark op.mark :: (us ++ vs)) a (.mark op.mark :: (us ++ vs)) :=
      takes_ranked_of_linked (hoa.unlinked (by omega) (apart_mark op) hloose.link)
        (hoa.prefixOp?_append _) hloose
    have hsecond : Takes (ranked limit (below limit n) k) (us ++ vs) b vs :=
      takes_ranked_of_linked (hob.unlinked (by omega) hapart (loose_of_closes (k := 0) hclose).link)
        (hob.prefixOp?_append _) (loose_of_closes hclose)
    exact takes_expression (takes_joined hpow hk hfirst hsecond hclose) (hk ▸ hle) hclose

end Operators

/-! ## Ranges and links -/

section Links

variable {a b e i : Expr} {d : Option Expr} {name : String} {n limit : Nat} {ts us vs ws : List Token}

/-- An operand of a range, in front of a colon. -/
theorem AsOperand.before_colon {k : Nat} (h : AsOperand k ts e) (hn : k ≤ n) :
    Takes (linked limit (below limit n)) (ts ++ .mark .colon :: us) e (.mark .colon :: us) :=
  h.unlinked hn rfl rfl

/-- **A range.** -/
theorem Readable.range (ha : Readable a) (hd : ∀ e ∈ d, Readable e) (hb : Readable b) :
    Readable (.range a d b) := by
  obtain ⟨ts, hwa, hoa⟩ := ha.operand
  obtain ⟨us, hwb, hob⟩ := hb.operand
  have hfirst := hwa.append_delimited delimited_colon breaking_colon
  cases d with
  | none =>
    refine .of_whole (ts ++ [Token.mark .colon] ++ us) rfl ?_
      ⟨?_, fun {limit n vs} hn hclose => ?_⟩
    · rw [text]
      exact hfirst.append_written hwb
    · rw [List.append_assoc, front_append hoa.begins]
      exact hoa.begins
    rw [height, heightOption] at hn
    rw [List.append_assoc, List.append_assoc, List.singleton_append]
    have hloose : Loose 0 (front vs) := loose_of_closes hclose
    refine takes_expression (j := 0) (takes_prefixed ?_ (hoa.prefixOp?_append _)) (Nat.zero_le 5)
      hclose
    refine (hoa.before_colon (by omega)).bind (takes_at?.bind (takes_advance.bind ?_))
    refine (takes_signed (hob.unlinked (by omega) (apart_of_closes hclose) hloose.link)
      (hob.prefixOp?_append _)).bind (takes_at?.bind ?_)
    rw [hloose.colon]
    exact takes_pure
  | some d =>
    obtain ⟨vs, hwd, hod⟩ := (hd d rfl).operand
    refine .of_whole (ts ++ [Token.mark .colon] ++ vs ++ [Token.mark .colon] ++ us) rfl ?_
      ⟨?_, fun {limit n ws} hn hclose => ?_⟩
    · rw [text]
      exact ((hfirst.append_written hwd).append_delimited delimited_colon
        breaking_colon).append_written hwb
    · simp only [List.append_assoc]
      rw [front_append hoa.begins]
      exact hoa.begins
    rw [height, heightOption] at hn
    simp only [List.append_assoc, List.singleton_append]
    refine takes_expression (j := 0) (takes_prefixed ?_ (hoa.prefixOp?_append _)) (Nat.zero_le 5)
      hclose
    refine (hoa.before_colon (by omega)).bind (takes_at?.bind (takes_advance.bind ?_))
    refine (takes_signed (hod.before_colon (by omega)) (hod.prefixOp?_append _)).bind
      (takes_at?.bind (takes_advance.bind ?_))
    exact (takes_signed (hob.unlinked (by omega) (apart_of_closes hclose)
      (loose_of_closes (k := 0) hclose).link) (hob.prefixOp?_append _)).bind takes_pure

/-- An expression in parentheses and a link behind it. -/
theorem takes_link {t : Token} (he : AsWhole ts e) (hn : 2 * e.height ≤ n) (ht : isLink t)
    (hlink : Takes (link limit (below limit n) e) (t :: vs) i us) :
    Takes (linked limit (below limit (n + 1)))
      (.mark .leftParen :: (ts ++ .mark .rightParen :: t :: vs)) i us := by
  have hdeeper : Takes (parseAt limit n (.link e)) (t :: vs) i us := by
    rw [parseAt_eq]
    exact hlink
  refine (takes_parens (he.takes hn rfl)).bind (takes_get fun c hc => ?_)
  rw [hc.current, front_cons, ht]
  exact takes_descend hdeeper

/-- **An index behind parentheses.** -/
theorem Readable.index (he : Readable e) (hi : Readable i) : Readable (.index e i) := by
  obtain ⟨ts, hwe, hpe⟩ := he.whole
  obtain ⟨us, hwi, hpi⟩ := hi.whole
  refine .of_whole ([Token.mark .leftParen] ++ ts ++ ([Token.mark .rightParen] ++
    [Token.mark .leftBracket]) ++ us ++ [Token.mark .rightBracket]) rfl ?_
    ⟨rfl, fun {limit n vs} hn hclose => ?_⟩
  · rw [text]
    exact (((delimited_leftParen.append_written hwe).append_delimited
      (delimited_rightParen.append delimited_leftBracket)
      (breaking_rightParen.append _)).append_written hwi).append delimited_rightBracket.written
      breaking_rightBracket
  rw [height] at hn
  obtain ⟨n, rfl⟩ := Nat.exists_eq_add_of_le (m := 2) (n := n) (by omega)
  rw [Nat.add_comm]
  simp only [List.append_assoc, List.cons_append]
  refine takes_expression_of_linked (takes_link hpe (by omega) rfl ?_) rfl hclose
  refine takes_get fun c hc => ?_
  rw [hc.current]
  refine takes_advance.bind ((takes_descend (hpi.takes (by omega) rfl)).bind (takes_expect.bind ?_))
  exact takes_links (loose_of_closes (k := 0) hclose).link

theorem written_dot_name (hn : IsName name) :
    Written (")." ++ name) ([Token.mark .rightParen] ++ [Token.mark .dot] ++ [Token.name name]) := by
  intro rest hrest
  obtain ⟨c, cs, hname, hc, -⟩ := hn.chars
  have hchars : (")." ++ name).toList ++ rest = ')' :: '.' :: (name.toList ++ rest) := by simp
  have hdot : Reads ('.' :: (name.toList ++ rest)) [.mark .dot] (name.toList ++ rest) := by
    rw [hname, List.cons_append]
    exact reads_dot (isDigit_of_isWordStart hc)
  rw [hchars]
  exact ((reads_single (c := ')') ⟨rfl, by decide⟩ rfl).append hdot).append (written_name hn rest hrest)

/-- **A member behind parentheses.** -/
theorem Readable.member (he : Readable e) (hn : IsName name) : Readable (.member e name) := by
  obtain ⟨ts, hwe, hpe⟩ := he.whole
  refine .of_whole ([Token.mark .leftParen] ++ ts ++ ([Token.mark .rightParen] ++
    [Token.mark .dot] ++ [Token.name name])) rfl ?_ ⟨rfl, fun {limit n vs} hn hclose => ?_⟩
  · rw [text, String.append_assoc]
    exact (delimited_leftParen.append_written hwe).append (written_dot_name hn)
      (Breaking.append (a := ").") ⟨')', ['.'], rfl, rfl⟩ _)
  rw [height] at hn
  obtain ⟨n, rfl⟩ := Nat.exists_eq_add_of_le (m := 2) (n := n) (by omega)
  rw [Nat.add_comm]
  simp only [List.append_assoc, List.cons_append]
  refine takes_expression_of_linked (takes_link hpe (by omega) rfl ?_) rfl hclose
  refine takes_get fun c hc => ?_
  rw [hc.current]
  refine takes_advance.bind (takes_get fun c hc => ?_)
  rw [hc.current]
  exact takes_advance.bind (takes_links (loose_of_closes (k := 0) hclose).link)

end Links

end FormulaLang.Parser
