import FormulaLang.Proofs.Expr.RoundTrip
import FormulaLang.Proofs.Token.Append

/-!
# Texts split at semicolons

Parsing carries nothing from one statement to the next, and where a statement ends without a fault,
it ends in front of a semicolon as well as at the end of the text.

* `Cursor.At`: a cursor that has met no fault, in front of some contents.
* `Agrees`: two parsers that do the same, the second one in front of more than the first one.
* `agrees_get`, `agrees_ifAt`, `agrees_expect`: the steps of parsers.
* `agrees_goal`, `agrees_parseAt`: one level of a tree, and all levels.
* `StatementsAgree.behind`, `StatementsAgree.succ`, **`statementsAgree`**: one statement, and all of
  them.
* **`parseText_append`**: two texts with a semicolon between them.
-/

namespace FormulaLang.Parser

open Lexer

variable {α β : Type}

/-! ## Cursors -/

/-- A cursor that has met no fault, at the first of some contents of lexemes. -/
structure Cursor.At (ms : List (Except Fault Token)) (c : Cursor) : Prop where
  current : ms.headD (.ok .finish) = .ok c.current
  rest : c.rest.map (·.content) = ms.tail
  faults : c.faults = #[]
  listens : c.silent = false

/-- The first of some contents, if there is any, is a token. -/
def FirstIsToken (ms : List (Except Fault Token)) : Prop := ∀ r ∈ ms.head?, ∃ t, r = .ok t

section Cursor

variable {c d : Cursor} {ms more : List (Except Fault Token)} {ls : List Lexeme}

theorem Cursor.at_moveTo (hls : ls.map (·.content) = ms) (hf : c.faults = #[])
    (hs : c.silent = false) (h : FirstIsToken ms) : (Cursor.moveTo ls c).At ms := by
  subst hls
  cases ls with
  | nil => exact ⟨rfl, rfl, hf, hs⟩
  | cons l ls =>
    obtain ⟨content, x⟩ := l
    obtain ⟨t, ht⟩ := h content rfl
    cases ht
    exact ⟨rfl, rfl, hf, hs⟩

/-- Moving on to a lexeme that is none meets a fault. -/
theorem Cursor.firstIsToken_of_moveTo (hs : c.silent = false)
    (h : (Cursor.moveTo ls c).faults = #[]) :
    FirstIsToken (ls.map (·.content)) := by
  cases ls with
  | nil => nofun
  | cons l ls =>
    obtain ⟨content, x⟩ := l
    cases content with
    | ok t =>
      rintro _ ⟨⟩
      exact ⟨t, rfl⟩
    | error f => exact absurd h (moveTo_keeps ls (c.note_faults (fun _ => hs) _))

theorem Cursor.At.listen (h : c.At ms) : c.listen.At ms := ⟨h.current, h.rest, h.faults, rfl⟩

theorem Cursor.At.current_of_nil (h : c.At []) : c.current = .finish :=
  (Except.ok.inj h.current).symm

/-- At the end of the text any mark is missing. -/
theorem Cursor.At.ne_mark (h : c.At []) (m : Mark) : c.current ≠ .mark m := by
  rw [h.current_of_nil]
  nofun

theorem Cursor.At.current_of_cons {r : Except Fault Token} (h : c.At (r :: ms)) : r = .ok c.current :=
  h.current

theorem Cursor.At.advance (h : c.At ms) (hok : FirstIsToken ms.tail) :
    c.advance.At ms.tail :=
  at_moveTo h.rest h.faults h.listens hok

/-- Moving on without a fault leads to the next lexeme, which is a token. -/
theorem Cursor.At.firstIsToken_of_advance (h : c.At ms) (hf : c.advance.faults = #[]) :
    FirstIsToken ms.tail :=
  h.rest ▸ firstIsToken_of_moveTo h.listens hf

theorem Cursor.At.length_rest (h : c.At ms) : c.rest.length = ms.length - 1 := by
  rw [← List.length_tail, ← h.rest, List.length_map]

end Cursor

/-- Nothing, or a semicolon with anything behind it. -/
def Follows (more : List (Except Fault Token)) : Prop :=
  more = [] ∨ ∃ ns, more = .ok (.mark .semicolon) :: ns

/-! ## Parsers that agree -/

section Agrees

variable {more : List (Except Fault Token)}

/-- Where the first parser meets no fault, the second one gives the same in front of the same tokens
with more behind them, and both stop at the same place. If `inside`, there are tokens left. -/
def Agrees (more : List (Except Fault Token)) (inside : Bool) (x y : Parse α) : Prop :=
  ∀ c d : Cursor, (c.faults ≠ #[] → (x c).2.faults ≠ #[]) ∧
    ∀ ms, (inside → ms ≠ []) → c.At ms → d.At (ms ++ more) → (x c).2.faults = #[] →
      ∃ (ts : List Token) (us : List (Except Fault Token)), ms = ts.map .ok ++ us ∧
        (x c).2.At us ∧ (y d).2.At (us ++ more) ∧ (y d).1 = (x c).1

variable {inside : Bool} {x x' y y' : Parse α} {f g : α → Parse β}

theorem Agrees.of_any (h : Agrees more false x y) : Agrees more true x y :=
  fun c d => ⟨(h c d).1, fun ms _ => (h c d).2 ms (by simp)⟩

theorem Agrees.bind (hx : Agrees more inside x y) (hf : ∀ a, Agrees more false (f a) (g a)) :
    Agrees more inside (x >>= f) (y >>= g) := by
  intro c d
  obtain ⟨hkeeps, hagrees⟩ := hx c d
  refine ⟨fun h => ((hf (x c).1 (x c).2) (y d).2).1 (hkeeps h), fun ms hms hc hd hfaults => ?_⟩
  have hfirst : (x c).2.faults = #[] :=
    not_not.1 fun hne => ((hf (x c).1 (x c).2) (y d).2).1 hne hfaults
  obtain ⟨ts, us, rfl, hc', hd', hsame⟩ := hagrees ms hms hc hd hfirst
  obtain ⟨ts', us', rfl, hc'', hd'', hsame'⟩ :=
    ((hf (x c).1 (x c).2) (y d).2).2 us (by simp) hc' hd' hfaults
  refine ⟨ts ++ ts', us', by rw [List.map_append, List.append_assoc], hc'', ?_, ?_⟩
  · show (g (y d).1 (y d).2).2.At _
    rw [hsame]
    exact hd''
  · show (g (y d).1 (y d).2).1 = _
    rw [hsame]
    exact hsame'

theorem agrees_pure (a : α) : Agrees more inside (pure a : Parse α) (pure a) :=
  fun _ _ => ⟨id, fun ms _ hc hd _ => ⟨[], ms, rfl, hc, hd, rfl⟩⟩

/-- What follows a fault does not matter. -/
theorem agrees_of_note (h : ∀ c : Cursor, ∃ e, (x c).2 = c.note e) : Agrees more inside x y := by
  intro c d
  obtain ⟨e, he⟩ := h c
  rw [he]
  exact ⟨fun h => c.note_keeps h e, fun _ _ hc _ h =>
    absurd h (c.note_faults (fun _ => hc.listens) e)⟩

theorem agrees_failAt {x : Text.Extent} {f : Fault} {y : Parse Expr} :
    Agrees more inside (failAt x f) y :=
  agrees_of_note fun _ => ⟨_, rfl⟩

theorem agrees_failHere {f : Fault} {y : Parse Expr} : Agrees more inside (failHere f) y :=
  agrees_of_note fun _ => ⟨_, rfl⟩

theorem agrees_orFail {x x' : Text.Extent} (r : Except Fault Expr) :
    Agrees more inside (orFail x r) (orFail x' r) := by
  cases r with
  | ok e => exact agrees_pure e
  | error f => exact agrees_failAt

/-- A parser that meets a fault at the end of the text needs to agree in front of tokens only. -/
theorem agrees_of_inside (h : Agrees more true x y)
    (hend : ∀ c : Cursor, c.At [] → (x c).2.faults ≠ #[]) : Agrees more inside x y := by
  refine fun c d => ⟨(h c d).1, fun ms _ hc hd hf => ?_⟩
  cases ms with
  | nil => exact absurd hf (hend c hc)
  | cons m ms => exact (h c d).2 (m :: ms) (by simp) hc hd hf

/-- What is done next depends on the cursor. In front of tokens both are at the same one. -/
theorem agrees_look {f g : Cursor → Parse β} (h : ∀ c d : Cursor, d.current = c.current →
      c.rest.length ≤ d.rest.length → Agrees more true (f c) (g d)) :
    Agrees more true (get >>= f) (get >>= g) := by
  intro c d
  refine ⟨((h c c rfl (Nat.le_refl _)) c d).1, fun ms hms hc hd hf => ?_⟩
  obtain ⟨m, ms, rfl⟩ := List.exists_cons_of_ne_nil (hms rfl)
  have hcurrent : d.current = c.current :=
    Except.ok.inj (hd.current_of_cons.symm.trans hc.current_of_cons)
  have hlength : c.rest.length ≤ d.rest.length := by
    rw [hc.length_rest, hd.length_rest, List.length_append]
    omega
  exact ((h c d hcurrent hlength) c d).2 (m :: ms) hms hc hd hf

section Follows

variable {c d : Cursor} (hmore : Follows more)

include hmore

theorem Follows.firstIsToken {us : List (Except Fault Token)} (h : FirstIsToken us) :
    FirstIsToken (us ++ more) := by
  cases us with
  | nil =>
    rcases hmore with rfl | ⟨ns, rfl⟩
    · nofun
    · rintro _ ⟨⟩
      exact ⟨_, rfl⟩
  | cons u us => exact h

theorem Follows.current (h : d.At more) : d.current = .finish ∨ d.current = .mark .semicolon := by
  rcases hmore with rfl | ⟨ns, rfl⟩
  · exact .inl h.current_of_nil
  · exact .inr (Except.ok.inj h.current_of_cons).symm

/-- At the end of the text the second parser may also be in front of a semicolon. -/
theorem agrees_get {f g : Cursor → Parse β} (h : ∀ c d : Cursor, d.current = c.current →
      c.rest.length ≤ d.rest.length → Agrees more true (f c) (g d))
    (hend : ∀ c d : Cursor, c.current = .finish →
      (d.current = .finish ∨ d.current = .mark .semicolon) → Agrees more false (f c) (g d)) :
    Agrees more inside (get >>= f) (get >>= g) := by
  intro c d
  refine ⟨((h c c rfl (Nat.le_refl _)) c d).1, fun ms _ hc hd hf => ?_⟩
  cases ms with
  | nil =>
    exact ((hend c d hc.current_of_nil (hmore.current hd)) c d).2 [] (by simp) hc hd hf
  | cons m ms => exact ((agrees_look h) c d).2 (m :: ms) (by simp) hc hd hf

/-- The same for what does not move on. -/
theorem agrees_anywhere {f g : Cursor → Parse β} (h : ∀ c d : Cursor,
      d.current = c.current ∨ c.current = .finish ∧ d.current = .mark .semicolon →
        Agrees more false (f c) (g d)) :
    Agrees more inside (get >>= f) (get >>= g) := by
  refine agrees_get hmore (fun c d hcurrent _ => (h c d (.inl hcurrent)).of_any)
    fun c d hc hfinish => h c d ?_
  rw [hc]
  exact hfinish.imp_right fun h => ⟨rfl, h⟩

/-- Both move on as long as there are tokens left. -/
theorem agrees_advance : Agrees more true advance advance := by
  intro c d
  refine ⟨c.advance_keeps, fun ms hms hc hd hf => ?_⟩
  obtain ⟨m, us, rfl⟩ := List.exists_cons_of_ne_nil (hms rfl)
  have hok := hc.firstIsToken_of_advance hf
  exact ⟨[c.current], us, by rw [hc.current_of_cons]; rfl, hc.advance hok,
    hd.advance (hmore.firstIsToken hok), rfl⟩

omit hmore in
/-- In front of tokens both see the same mark. -/
theorem agrees_lookAt {m : Mark} (hyes : Agrees more true x x') (hno : Agrees more true y y') :
    Agrees more true (at? m >>= fun b => if b then x else y)
      (at? m >>= fun b => if b then x' else y') := by
  refine agrees_look fun c d hcurrent _ => ?_
  rw [hcurrent]
  split
  · exact hyes
  · exact hno

/-- Any mark but a semicolon tells them apart from the end of the text. -/
theorem agrees_ifAt {m : Mark} (hm : m ≠ .semicolon) (hyes : Agrees more true x x')
    (hno : Agrees more false y y') :
    Agrees more inside (at? m >>= fun b => if b then x else y)
      (at? m >>= fun b => if b then x' else y') := by
  refine agrees_get hmore (fun c d hcurrent _ => ?_) fun c d hc hd => ?_
  · rw [hcurrent]
    split
    · exact hyes
    · exact hno.of_any
  · have hcm : c.current.isMark m = false := by rw [hc]; rfl
    have hdm : d.current.isMark m = false := by
      rcases hd with hd | hd
      · rw [hd]
        rfl
      · rw [hd, Token.isMark_mark, beq_eq_false_iff_ne]
        exact hm.symm
    change Agrees more false (if c.current.isMark m then _ else _)
      (if d.current.isMark m then _ else _)
    rw [hcm, hdm]
    exact hno

/-- At the end of the text any mark is missing. -/
theorem agrees_expect {m : Mark} {what : String} :
    Agrees more inside (expect m what) (expect m what) := by
  refine agrees_of_inside ?_ fun c hc => ?_
  · exact agrees_lookAt ((agrees_advance hmore).bind fun _ => agrees_pure true)
      (agrees_of_note fun _ => ⟨_, rfl⟩)
  · rw [expect_of_ne (hc.ne_mark _)]
    exact c.note_faults (fun _ => hc.listens) _

omit hmore in
/-- There is room for as many items in front of more lexemes. -/
theorem agrees_itemBound {f g : Nat → Parse β} (h : ∀ n m, n ≤ m → Agrees more inside (f n) (g m)) :
    Agrees more inside (itemBound >>= f) (itemBound >>= g) := by
  intro c d
  refine ⟨(h _ _ (Nat.le_refl (c.rest.length + 1)) c d).1, fun ms hms hc hd hf => ?_⟩
  have hlength : c.rest.length ≤ d.rest.length := by
    rw [hc.length_rest, hd.length_rest, List.length_append]
    omega
  exact ((h _ _ (Nat.succ_le_succ hlength)) c d).2 ms hms hc hd hf

/-! ## Items -/

variable {item : Parse Expr} (hi : Agrees more false item item)

include hi

theorem agrees_itemsUntil (close : Mark) (what : String) {n m : Nat} (hn : n ≤ m) :
    Agrees more false (itemsUntil item close what n) (itemsUntil item close what m) := by
  induction n generalizing m with
  | zero => exact agrees_of_note fun _ => ⟨_, rfl⟩
  | succ n ih =>
    obtain ⟨m, rfl⟩ := Nat.exists_eq_add_one_of_ne_zero (Nat.ne_of_gt (Nat.lt_of_lt_of_le
      (Nat.succ_pos _) hn))
    unfold itemsUntil
    refine hi.bind fun e => agrees_ifAt hmore (by decide) ?_ ?_
    · exact (agrees_advance hmore).bind fun _ => (ih (Nat.le_of_succ_le_succ hn)).bind fun r =>
        agrees_pure _
    · refine (agrees_expect hmore).bind fun closed => ?_
      split <;> exact agrees_pure _

theorem agrees_rowsUntil {n m : Nat} (hn : n ≤ m) :
    Agrees more false (rowsUntil item n) (rowsUntil item m) := by
  induction n generalizing m with
  | zero => exact agrees_of_note fun _ => ⟨_, rfl⟩
  | succ n ih =>
    obtain ⟨m, rfl⟩ := Nat.exists_eq_add_one_of_ne_zero (Nat.ne_of_gt (Nat.lt_of_lt_of_le
      (Nat.succ_pos _) hn))
    have hnext : ∀ f : Option (List (List Expr)) → Option (List (List Expr)), Agrees more true
        (do advance; return f (← rowsUntil item n)) (do advance; return f (← rowsUntil item m)) :=
      fun f => (agrees_advance hmore).bind fun _ => (ih (Nat.le_of_succ_le_succ hn)).bind fun r =>
        agrees_pure _
    have hclose : ∀ e : Expr, Agrees more true
        (do if ← expect .rightBracket "',', ';' or ']'" then return some [[e]] else return none)
        (do if ← expect .rightBracket "',', ';' or ']'" then return some [[e]] else return none) := by
      intro e
      refine (agrees_expect hmore).bind fun closed => ?_
      split <;> exact agrees_pure _
    unfold rowsUntil
    refine hi.bind fun e => agrees_ifAt hmore (by decide) (hnext _) ?_
    refine agrees_of_inside (agrees_lookAt (hnext _) (hclose e)) fun c hc => ?_
    rw [run_bind, at?_of_ne (hc.ne_mark _), if_neg Bool.false_ne_true, run_bind,
      expect_of_ne (hc.ne_mark _)]
    exact c.note_faults (fun _ => hc.listens) _

end Follows

/-! ## One level -/

/-- What goes on with a tree is parsed in front of the tokens that it goes on with. -/
def Goal.isInside : Goal → Bool
  | .expression | .prefixed => false
  | .joined .. | .link _ => true

variable {limit : Nat} {deeper : Deeper} (hmore : Follows more)
  (hd : ∀ parse ∈ deeper, ∀ g : Goal, Agrees more g.isInside (parse g) (parse g))

include hmore hd

omit hmore in
theorem agrees_descend (g : Goal) :
    Agrees more g.isInside (descend limit deeper g) (descend limit deeper g) := by
  cases deeper with
  | none => exact agrees_failHere
  | some parse => exact hd parse rfl g

omit hmore in
theorem agrees_nested :
    Agrees more false (descend limit deeper .expression) (descend limit deeper .expression) :=
  agrees_descend hd .expression

theorem agrees_listLiteral :
    Agrees more false (listLiteral limit deeper) (listLiteral limit deeper) := by
  unfold listLiteral
  refine agrees_ifAt hmore (by decide) ?_ ?_
  · exact (agrees_advance hmore).bind fun _ => agrees_pure _
  · refine agrees_itemBound fun n m hn =>
      (agrees_itemsUntil hmore (agrees_nested hd) _ _ hn).bind fun r => ?_
    split <;> exact agrees_pure _

theorem agrees_vectorLiteral (x x' : Text.Extent) :
    Agrees more false (vectorLiteral limit deeper x) (vectorLiteral limit deeper x') := by
  unfold vectorLiteral
  refine agrees_ifAt hmore (by decide) ?_ ?_
  · exact (agrees_advance hmore).bind fun _ => agrees_pure _
  · refine agrees_itemBound fun n m hn =>
      (agrees_rowsUntil hmore (agrees_nested hd) hn).bind fun r => ?_
    split
    · exact agrees_orFail _
    · exact agrees_pure _

theorem agrees_afterArguments (name : String) (x x' : Text.Extent) (args : Option (List Expr)) :
    Agrees more false (afterArguments limit deeper name x args)
      (afterArguments limit deeper name x' args) := by
  cases args with
  | none => exact agrees_pure _
  | some args =>
    refine agrees_ifAt hmore (by decide) ?_ (agrees_orFail _)
    exact (agrees_advance hmore).bind fun _ => (agrees_nested hd).bind fun body => agrees_orFail _

theorem agrees_callLike (name : String) (x x' : Text.Extent) :
    Agrees more false (callLike limit deeper name x) (callLike limit deeper name x') := by
  unfold callLike
  refine agrees_ifAt hmore (by decide) ?_ ?_
  · exact (agrees_advance hmore).bind fun _ => agrees_afterArguments hmore hd name x x' (some [])
  · exact agrees_itemBound fun n m hn =>
      (agrees_itemsUntil hmore (agrees_nested hd) _ _ hn).bind
        (agrees_afterArguments hmore hd name x x')

theorem agrees_nameLike (name : String) (x x' : Text.Extent) :
    Agrees more false (nameLike limit deeper name x) (nameLike limit deeper name x') := by
  unfold nameLike
  refine agrees_get hmore (fun c d hcurrent _ => ?_) fun c d hc hd => ?_
  · rw [hcurrent]
    split
    · exact (agrees_advance hmore).bind fun _ => (agrees_nested hd).bind fun e => agrees_pure _
    · refine (agrees_advance hmore).bind fun _ => (agrees_nested hd).bind fun i =>
        (agrees_expect hmore).bind fun closed => ?_
      split
      · refine agrees_ifAt hmore (by decide) ?_ (agrees_pure _)
        exact (agrees_advance hmore).bind fun _ => (agrees_nested hd).bind fun e => agrees_pure _
      · exact agrees_pure _
    · exact (agrees_advance hmore).bind fun _ => agrees_callLike hmore hd name x x'
    · exact agrees_pure _
  · rw [hc]
    rcases hd with hd | hd <;> rw [hd] <;> exact agrees_pure _

theorem agrees_primary : Agrees more false (primary limit deeper) (primary limit deeper) := by
  unfold primary
  refine agrees_get hmore (fun c d hcurrent _ => ?_) fun c d hc hd => ?_
  · rw [hcurrent]
    split
    · exact (agrees_advance hmore).bind fun _ => agrees_pure _
    · exact (agrees_advance hmore).bind fun _ => agrees_pure _
    · exact (agrees_advance hmore).bind fun _ => agrees_pure _
    · exact (agrees_advance hmore).bind fun _ => agrees_pure _
    · refine (agrees_advance hmore).bind fun _ => (agrees_nested hd).bind fun e =>
        (agrees_expect hmore).bind fun closed => ?_
      split <;> exact agrees_pure _
    · exact (agrees_advance hmore).bind fun _ => agrees_vectorLiteral hmore hd _ _
    · exact (agrees_advance hmore).bind fun _ => agrees_listLiteral hmore hd
    · exact (agrees_advance hmore).bind fun _ => agrees_nameLike hmore hd _ _ _
    · exact agrees_of_note Cursor.unexpected_eq
  · rw [hc]
    exact agrees_of_note Cursor.unexpected_eq

omit hd in
theorem agrees_signed {operand : Parse Expr} (ho : Agrees more false operand operand) :
    Agrees more false (signed operand) (signed operand) := by
  unfold signed
  refine agrees_get hmore (fun c d hcurrent _ => ?_) fun c d hc hd => ?_
  · rw [hcurrent]
    split
    · exact (agrees_advance hmore).bind fun _ => ho.bind fun e => agrees_pure _
    · exact (agrees_advance hmore).bind fun _ => ho
    · exact ho.of_any
  · rw [hc]
    rcases hd with hd | hd <;> rw [hd] <;> exact ho

theorem agrees_links (base : Expr) :
    Agrees more false (links limit deeper base) (links limit deeper base) := by
  unfold links
  refine agrees_get hmore (fun c d hcurrent _ => ?_) fun c d hc hd => ?_
  · rw [hcurrent]
    split
    · exact agrees_descend hd (.link base)
    · exact agrees_pure _
  · rw [hc]
    rcases hd with hd | hd <;> rw [hd] <;> exact agrees_pure _

theorem agrees_link (base : Expr) :
    Agrees more true (link limit deeper base) (link limit deeper base) := by
  unfold link
  refine agrees_look fun c d hcurrent _ => ?_
  rw [hcurrent]
  split
  · exact (agrees_advance hmore).bind fun _ =>
      (agrees_signed hmore (agrees_primary hmore hd)).bind fun e => agrees_links hmore hd _
  · refine (agrees_advance hmore).bind fun _ => (agrees_nested hd).bind fun i =>
      (agrees_expect hmore).bind fun closed => ?_
    split
    · exact agrees_links hmore hd _
    · exact agrees_pure _
  · refine (agrees_advance hmore).bind fun _ =>
      agrees_get hmore (fun c d hcurrent _ => ?_) fun c d hc hd => ?_
    · rw [hcurrent]
      split
      · exact (agrees_advance hmore).bind fun _ => agrees_links hmore hd _
      · exact agrees_of_note fun _ => ⟨_, rfl⟩
    · rw [hc]
      exact agrees_of_note fun _ => ⟨_, rfl⟩

theorem agrees_linked : Agrees more false (linked limit deeper) (linked limit deeper) :=
  (agrees_primary hmore hd).bind fun base => agrees_links hmore hd base

theorem agrees_rangeLike (negated : Bool) :
    Agrees more false (rangeLike limit deeper negated) (rangeLike limit deeper negated) := by
  unfold rangeLike
  refine (agrees_linked hmore hd).bind fun first => agrees_ifAt hmore (by decide) ?_ (agrees_pure _)
  refine (agrees_advance hmore).bind fun _ =>
    (agrees_signed hmore (agrees_linked hmore hd)).bind fun second =>
      agrees_ifAt hmore (by decide) ?_ (agrees_pure _)
  exact (agrees_advance hmore).bind fun _ =>
    (agrees_signed hmore (agrees_linked hmore hd)).bind fun stop => agrees_pure _

theorem agrees_prefixed : Agrees more false (prefixed limit deeper) (prefixed limit deeper) := by
  unfold prefixed
  refine agrees_get hmore (fun c d hcurrent _ => ?_) fun c d hc hfinish => ?_
  · rw [hcurrent]
    split
    · exact (agrees_rangeLike hmore hd false).of_any
    · refine (agrees_advance hmore).bind fun _ => agrees_anywhere hmore fun c d hcd => ?_
      have hsame : prefixOp? d.current = prefixOp? c.current := by
        rcases hcd with h | ⟨h, h'⟩
        · rw [h]
        · rw [h, h']
          rfl
      rw [hsame]
      split
      · exact agrees_rangeLike hmore hd true
      split
      · exact agrees_failHere
      · next parse =>
        refine (hd parse rfl .prefixed).bind fun operand => ?_
        split <;> exact agrees_pure _
  · rw [hc]
    rcases hfinish with h | h <;> rw [h] <;> exact agrees_rangeLike hmore hd false

theorem agrees_joins (rank : Nat) (left : Expr) :
    Agrees more false (joins limit deeper rank left) (joins limit deeper rank left) := by
  unfold joins
  refine agrees_get hmore (fun c d hcurrent _ => ?_) fun c d hc hfinish => ?_
  · rw [hcurrent]
    split
    · split
      · split
        · exact agrees_descend hd (.joined _ left)
        · exact agrees_pure _
      · exact agrees_pure _
    · exact agrees_pure _
  · rw [hc]
    rcases hfinish with h | h <;> rw [h] <;> exact agrees_pure _

theorem agrees_ranked (rank : Nat) :
    Agrees more false (ranked limit deeper rank) (ranked limit deeper rank) := by
  induction rank with
  | zero => exact agrees_prefixed hmore hd
  | succ rank ih => exact ih.bind fun left => agrees_joins hmore hd (rank + 1) left

/-- **What is parsed at one level** is parsed in front of more tokens, if what is parsed one level
deeper is. -/
theorem agrees_goal (g : Goal) :
    Agrees more g.isInside (goal limit deeper g) (goal limit deeper g) := by
  cases g with
  | expression => exact agrees_ranked hmore hd 5
  | prefixed => exact agrees_prefixed hmore hd
  | joined op left =>
    exact (agrees_advance hmore).bind fun _ => (agrees_ranked hmore hd _).bind fun right =>
      agrees_joins hmore hd op.rank _
  | link base => exact agrees_link hmore hd base

omit hd in
theorem agrees_parseAt (limit n : Nat) (g : Goal) :
    Agrees more g.isInside (parseAt limit n g) (parseAt limit n g) := by
  induction n generalizing g with
  | zero => exact agrees_goal hmore (fun _ hp => by cases hp) g
  | succ n ih =>
    refine agrees_goal hmore (fun parse hp g => ?_) g
    cases hp
    exact ih g

omit hd in
theorem agrees_expression (limit : Nat) :
    Agrees more false (expression limit) (expression limit) := by
  cases limit with
  | zero => exact agrees_failHere
  | succ n => exact agrees_parseAt hmore (n + 1) n .expression

end Agrees

/-! ## Statements -/

section Statements

variable {limit n m : Nat} {c c' d : Cursor} {e : Expr} {ms more : List (Except Fault Token)}

theorem statements_of_finish (h : c.current = .finish) :
    statements limit (n + 1) c = ([], c.listen) := by
  have hlisten : c.listen.current = .finish := h
  unfold statements
  simp only [hlisten]

theorem statements_of_semicolon (h : c.current = .mark .semicolon) :
    statements limit (n + 1) c = statements limit n c.listen.advance := by
  have hlisten : c.listen.current = .mark .semicolon := h
  rw [statements]
  simp only [hlisten]

/-- What is behind a statement. -/
def behind (limit n : Nat) (e : Expr) (c : Cursor) : List Expr × Cursor :=
  match c.current with
  | .finish => ([e], c)
  | .mark .semicolon => (e :: (statements limit n c.listen.advance).1,
      (statements limit n c.listen.advance).2)
  | _ => (.invalid :: (statements limit n
        (c.unexpected.skipStatement (c.unexpected.rest.length + 1))).1,
      (statements limit n (c.unexpected.skipStatement (c.unexpected.rest.length + 1))).2)

theorem statements_of_run (hfinish : c.current ≠ .finish) (hsemicolon : c.current ≠ .mark .semicolon)
    (he : expression limit c.listen = (e, c')) :
    statements limit (n + 1) c = behind limit n e c' := by
  have hrun : (expression limit).run c.listen = (e, c') := he
  rw [statements]
  dsimp only
  split
  · next h => exact absurd h hfinish
  · next h => exact absurd h hsemicolon
  · rw [hrun]
    rfl

theorem behind_of_finish (h : c.current = .finish) : behind limit n e c = ([e], c) := by
  unfold behind
  rw [h]

theorem behind_of_semicolon (h : c.current = .mark .semicolon) : behind limit n e c =
    (e :: (statements limit n c.listen.advance).1, (statements limit n c.listen.advance).2) := by
  unfold behind
  rw [h]

/-- Nothing but a semicolon or the end of the text stands behind a statement without a fault. -/
theorem current_of_behind (hlistens : c.faults = #[] → c.silent = false)
    (hf : (behind limit n e c).2.faults = #[]) :
    c.current = .finish ∨ c.current = .mark .semicolon := by
  unfold behind at hf
  split at hf
  · next h => exact .inl h
  · next h => exact .inr h
  · obtain ⟨f, hnote⟩ := Cursor.unexpected_eq c
    rw [hnote] at hf
    exact absurd hf (statements_keeps limit n
      (Cursor.skipStatement_keeps _ (c.note_faults hlistens f)))

theorem behind_keeps (h : c.faults ≠ #[]) : (behind limit n e c).2.faults ≠ #[] := by
  unfold behind
  split
  · exact h
  · exact statements_keeps limit n (Cursor.advance_keeps h)
  · obtain ⟨f, hnote⟩ := Cursor.unexpected_eq c
    rw [hnote]
    exact statements_keeps limit n (Cursor.skipStatement_keeps _ (Cursor.note_keeps h f))

theorem Cursor.At.listen_eq (h : c.At ms) : c.listen = c := by
  obtain ⟨current, x, rest, ending, faults, silent⟩ := c
  cases h.listens
  rfl

/-- The second parser gives what the first one gives, and then what is parsed in front of the other
tokens. -/
def GoesOn (more : List (Except Fault Token)) (limit : Nat) (r r' : List Expr × Cursor) : Prop :=
  ∃ k d, d.At more ∧ more.length ≤ k ∧
    r' = (r.1 ++ (statements limit k d).1, (statements limit k d).2)

/-- Some contents are tokens, and behind the statements in them the others are parsed. -/
def StatementsAgree (more : List (Except Fault Token)) (limit n : Nat) : Prop :=
  ∀ ⦃ms : List (Except Fault Token)⦄ ⦃m : Nat⦄ ⦃c d : Cursor⦄, ms.length ≤ n →
    (ms ++ more).length ≤ m → (∀ r ∈ ms, r ≠ .ok .finish) → c.At ms → d.At (ms ++ more) →
    (statements limit n c).2.faults = #[] →
    (∃ ts : List Token, ms = ts.map .ok) ∧
      GoesOn more limit (statements limit n c) (statements limit m d)

theorem GoesOn.cons {r r' : List Expr × Cursor} (h : GoesOn more limit r r') (e : Expr) :
    GoesOn more limit (e :: r.1, r.2) (e :: r'.1, r'.2) := by
  obtain ⟨k, d, hd, hk, rfl⟩ := h
  exact ⟨k, d, hd, hk, rfl⟩

/-- Where the text ends behind a statement, the second parser is in front of the other tokens. -/
theorem goesOn_behind_of_finish (hmore : Follows more) (hm : more.length ≤ m + 1)
    (hc : c.current = .finish) (hd : d.At more) :
    GoesOn more limit (behind limit n e c) (behind limit m e d) := by
  refine ⟨m + 1, d, hd, hm, ?_⟩
  rw [behind_of_finish hc]
  rcases hmore.current hd with hcurrent | hcurrent
  · rw [behind_of_finish hcurrent, statements_of_finish hcurrent, hd.listen_eq]
    rfl
  · rw [behind_of_semicolon hcurrent, statements_of_semicolon hcurrent]
    rfl

/-- Behind a semicolon both go on with the next statement. -/
theorem StatementsAgree.advance (h : StatementsAgree more limit n) (hmore : Follows more)
    (hn : ms.length ≤ n) (hm : (ms ++ more).length ≤ m)
    (hfinish : ∀ r ∈ Except.ok (Token.mark .semicolon) :: ms, r ≠ .ok .finish)
    (hc : c.At (.ok (.mark .semicolon) :: ms)) (hd : d.At (.ok (.mark .semicolon) :: ms ++ more))
    (hf : (statements limit n c.listen.advance).2.faults = #[]) :
    (∃ ts : List Token, ms = ts.map .ok) ∧
      GoesOn more limit (statements limit n c.listen.advance)
        (statements limit m d.listen.advance) := by
  rw [hc.listen_eq] at hf ⊢
  rw [hd.listen_eq]
  have hok := hc.firstIsToken_of_advance (not_not.1 fun hne => statements_keeps limit n hne hf)
  exact h hn hm (List.forall_mem_cons.1 hfinish).2 (hc.advance hok)
    (hd.advance (hmore.firstIsToken hok)) hf

/-- Behind a statement both stop, or go on with the next one. -/
theorem StatementsAgree.behind (h : StatementsAgree more limit n) (hmore : Follows more)
    (hn : ms.length ≤ n + 1) (hm : (ms ++ more).length ≤ m + 1)
    (hfinish : ∀ r ∈ ms, r ≠ .ok .finish) (hc : c.At ms) (hd : d.At (ms ++ more))
    (hf : (behind limit n e c).2.faults = #[]) :
    (∃ ts : List Token, ms = ts.map .ok) ∧
      GoesOn more limit (behind limit n e c) (behind limit m e d) := by
  cases ms with
  | nil => exact ⟨⟨[], rfl⟩, goesOn_behind_of_finish hmore hm hc.current_of_nil hd⟩
  | cons r ms =>
    have hr := hc.current_of_cons
    rcases current_of_behind (fun _ => hc.listens) hf with hcurrent | hcurrent
    · exact absurd (hr.trans (congrArg _ hcurrent)) (hfinish r (.head _))
    · rw [hcurrent] at hr
      subst hr
      rw [behind_of_semicolon hcurrent] at hf ⊢
      rw [behind_of_semicolon (Except.ok.inj hd.current_of_cons).symm]
      obtain ⟨⟨ts, rfl⟩, hrest⟩ := h.advance hmore (Nat.le_of_succ_le_succ hn)
        (Nat.le_of_succ_le_succ hm) hfinish hc hd hf
      exact ⟨⟨.mark .semicolon :: ts, rfl⟩, hrest.cons e⟩

/-- **A statement in front of more tokens.** -/
theorem StatementsAgree.succ (h : StatementsAgree more limit n) (hmore : Follows more) :
    StatementsAgree more limit (n + 1) := by
  intro ms m c d hn hm hfinish hc hd hf
  cases ms with
  | nil =>
    refine ⟨⟨[], rfl⟩, m, d, hd, hm, ?_⟩
    rw [statements_of_finish hc.current_of_nil]
    rfl
  | cons r ms =>
    have hr := hc.current_of_cons
    have hsame : d.current = c.current := Except.ok.inj (hd.current_of_cons.symm.trans hr)
    have hne : c.current ≠ .finish := fun h => hfinish r (.head _) (hr.trans (congrArg _ h))
    obtain ⟨m, rfl⟩ := Nat.exists_eq_add_one_of_ne_zero (Nat.ne_of_gt (Nat.lt_of_lt_of_le
      (Nat.succ_pos _) hm))
    by_cases hsemicolon : c.current = .mark .semicolon
    · rw [hsemicolon] at hr
      subst hr
      rw [statements_of_semicolon hsemicolon] at hf ⊢
      rw [statements_of_semicolon (hsame.trans hsemicolon)]
      obtain ⟨⟨ts, rfl⟩, hrest⟩ := h.advance hmore (Nat.le_of_succ_le_succ hn)
        (Nat.le_of_succ_le_succ hm) hfinish hc hd hf
      exact ⟨⟨.mark .semicolon :: ts, rfl⟩, hrest⟩
    -- Both parse the same statement, and stand at the same place behind it.
    rcases he : expression limit c.listen with ⟨e, c'⟩
    rcases hed : expression limit d.listen with ⟨e', d'⟩
    have hagrees := agrees_expression hmore limit c.listen d.listen
    rw [he, hed] at hagrees
    rw [statements_of_run hne hsemicolon he] at hf ⊢
    rw [statements_of_run (hsame ▸ hne) (hsame ▸ hsemicolon) hed]
    have hf' : c'.faults = #[] := not_not.1 fun hne => behind_keeps hne hf
    obtain ⟨ts, us, hms, hc', hd', hresult⟩ := hagrees.2 _ (by simp) hc.listen hd.listen hf'
    cases hresult
    rw [hms, List.length_append] at hn
    rw [hms, List.append_assoc, List.length_append] at hm
    obtain ⟨⟨us, rfl⟩, hrest⟩ := h.behind hmore (Nat.le_of_add_left_le hn) (Nat.le_of_add_left_le hm)
      (fun r hr => hfinish r (hms ▸ List.mem_append_right _ hr)) hc' hd' hf
    exact ⟨⟨ts ++ us, by rw [hms, List.map_append]⟩, hrest⟩

/-- **Statements in front of more tokens.** A text without faults holds nothing but tokens, and behind
its statements the others are parsed. -/
theorem statementsAgree (hmore : Follows more) (limit n : Nat) : StatementsAgree more limit n := by
  induction n with
  | zero =>
    intro ms m c d hn hm hfinish hc hd hf
    obtain rfl := List.eq_nil_of_length_eq_zero (Nat.le_zero.1 hn)
    exact ⟨⟨[], rfl⟩, m, d, hd, hm, rfl⟩
  | succ n ih => exact ih.succ hmore

end Statements

/-! ## Texts -/

section Texts

variable {limit : Nat} {a b : String}

theorem at_start {source : String} (h : (parseText limit source).2.faults = #[]) :
    (Cursor.start (lex source)).At (contents source.toList) := by
  have hstart : (Cursor.start (lex source)).faults = #[] :=
    not_not.1 fun hne => statements_keeps limit _ hne h
  exact Cursor.at_moveTo rfl rfl rfl (Cursor.firstIsToken_of_moveTo rfl hstart)

theorem Cursor.At.length_le {c : Cursor} {ms : List (Except Fault Token)} (h : c.At ms) :
    ms.length ≤ c.rest.length + 1 := by
  rw [h.length_rest]
  omega

/-- A text without faults holds nothing but tokens. -/
theorem exists_of_mem_contents {source : String} (h : (parseText limit source).2.faults = #[]) :
    ∀ r ∈ contents source.toList, ∃ t, r = .ok t := by
  have hc := at_start h
  have hsame : (Cursor.start (lex source)).At (contents source.toList ++ []) := by
    rwa [List.append_nil]
  have hagree := statementsAgree (.inl rfl) limit ((Cursor.start (lex source)).rest.length + 1)
  obtain ⟨ts, hts⟩ :=
    (hagree hc.length_le (Nat.le_refl _) ne_finish_of_mem_contents hc hsame h).1
  rw [hts]
  intro r hr
  obtain ⟨t, -, rfl⟩ := List.mem_map.1 hr
  exact ⟨t, rfl⟩

/-- At a text without faults any parser with enough steps gives its statements. -/
theorem statements_of_at {source : String} (h : (parseText limit source).2.faults = #[]) {n : Nat}
    {d : Cursor} (hd : d.At (contents source.toList)) (hn : (contents source.toList).length ≤ n) :
    (statements limit n d).1 = (parseText limit source).1 ∧ (statements limit n d).2.faults = #[] := by
  have hc := at_start h
  have hagree := statementsAgree (.inl rfl) limit ((Cursor.start (lex source)).rest.length + 1)
  rw [← List.append_nil (contents source.toList)] at hd hn
  obtain ⟨-, k, d', hd', -, hstatements⟩ :=
    hagree hc.length_le hn ne_finish_of_mem_contents hc hd h
  have hend : statements limit k d' = ([], d') := by
    cases k with
    | zero => rfl
    | succ k => rw [statements_of_finish hd'.current_of_nil, hd'.listen_eq]
  rw [hstatements, hend]
  exact ⟨List.append_nil _, hd'.faults⟩

/-- **Texts split at a semicolon.** The statements of two texts with a semicolon between them are
those of the first and those of the second text. -/
theorem parseText_append (ha : (parseText limit a).2.faults = #[])
    (hb : (parseText limit b).2.faults = #[]) (hgap : ¬ EndsInComment a) :
    (parseText limit (a ++ "\n;" ++ b)).1 = (parseText limit a).1 ++ (parseText limit b).1 ∧
      (parseText limit (a ++ "\n;" ++ b)).2.faults = #[] := by
  have hok := exists_of_mem_contents ha
  have hmore : Follows (.ok (.mark .semicolon) :: contents b.toList) := .inr ⟨_, rfl⟩
  have hcontents : contents (a ++ "\n;" ++ b).toList =
      contents a.toList ++ .ok (.mark .semicolon) :: contents b.toList := by
    have htext : (a ++ "\n;" ++ b).toList = a.toList ++ '\n' :: ';' :: b.toList := by simp
    rw [htext]
    exact contents_append (Nat.lt_succ_self _) hgap hok b.toList
  have hstart : (Cursor.start (lex (a ++ "\n;" ++ b))).At
      (contents a.toList ++ .ok (.mark .semicolon) :: contents b.toList) :=
    Cursor.at_moveTo hcontents rfl rfl <|
      hmore.firstIsToken fun r hr => hok r (List.mem_of_mem_head? hr)
  -- Behind the statements of the first text stands the semicolon, and behind it the second text.
  obtain ⟨-, k, d, hd, hk, hfirst⟩ := statementsAgree hmore limit _ (at_start ha).length_le
    hstart.length_le ne_finish_of_mem_contents (at_start ha) hstart ha
  obtain ⟨k, rfl⟩ := Nat.exists_eq_add_one_of_ne_zero (Nat.ne_of_gt (Nat.lt_of_lt_of_le
    (Nat.succ_pos _) hk))
  have hsecond := hd.advance fun r hr => exists_of_mem_contents hb r (List.mem_of_mem_head? hr)
  obtain ⟨hes, hfaults⟩ := statements_of_at hb hsecond (Nat.le_of_succ_le_succ hk)
  rw [statements_of_semicolon (Except.ok.inj hd.current_of_cons).symm, hd.listen_eq] at hfirst
  rw [parseText, hfirst, hes]
  exact ⟨rfl, hfaults⟩

end Texts

end FormulaLang.Parser
