import FormulaLang.Proofs.Expr.Cursor
import FormulaLang.Proofs.Expr.Forms

/-!
# Printing and parsing again

A text without faults is parsed to a tree whose text is parsed to the same tree, whatever forms the
text mixes and however it was written.

* `Cursor.Clean`: a cursor that has met no fault, in front of tokens that can be written again.
* `Builds`: a step of parsing gives something with a property unless it meets a fault.
* `builds_goal`, **`builds_parseAt`**: every parser builds trees that read back.
* `readable_of_mem_parseText`: so do the statements of a text.
* `statements_of_shows`: reading statements back.
* `parse_of_written`, `parse_of_whole`: texts by their tokens.
* **`parse_text`**: the text of a parsed tree is parsed to it.
-/

namespace FormulaLang.Parser

open Lexer FormulaLang.Expr

variable {α β : Type}

/-! ## Parsing without faults -/

/-- A cursor that has met no fault, in front of tokens that can be written again. -/
structure Cursor.Clean (c : Cursor) : Prop where
  faults : c.faults = #[]
  listens : c.silent = false
  current : Legal c.current
  rest : ∀ l ∈ c.rest, ∀ t, l.content = .ok t → Legal t

section Cursor

variable {c : Cursor} {ls : List Lexeme}

theorem Cursor.note_faults (h : c.faults = #[] → c.silent = false) (e : Located) :
    (c.note e).faults ≠ #[] := by
  unfold Cursor.note
  split
  · next hs => exact fun hf => absurd hs (Bool.eq_false_iff.1 (h hf))
  · simp

theorem Cursor.note_keeps (h : c.faults ≠ #[]) (e : Located) : (c.note e).faults ≠ #[] :=
  c.note_faults (fun hf => absurd hf h) e

theorem Cursor.moveTo_keeps (ls : List Lexeme) (h : c.faults ≠ #[]) :
    (Cursor.moveTo ls c).faults ≠ #[] := by
  induction ls generalizing c with
  | nil => exact h
  | cons l ls ih =>
    obtain ⟨content, x⟩ := l
    cases content with
    | ok t => exact h
    | error f => exact ih (c.note_keeps h _)

/-- Moving without a fault leads to one of the tokens. -/
theorem Cursor.clean_moveTo (hf : c.faults = #[]) (hs : c.silent = false)
    (hls : ∀ l ∈ ls, ∀ t, l.content = .ok t → Legal t) (h : (Cursor.moveTo ls c).faults = #[]) :
    (Cursor.moveTo ls c).Clean := by
  cases ls with
  | nil => exact ⟨hf, hs, trivial, nofun⟩
  | cons l ls =>
    obtain ⟨content, x⟩ := l
    cases content with
    | ok t =>
      exact ⟨hf, hs, hls _ List.mem_cons_self t rfl, fun l hl => hls l (List.mem_cons_of_mem _ hl)⟩
    | error f => exact absurd h (moveTo_keeps ls (c.note_faults (fun _ => hs) _))

theorem Cursor.advance_keeps (h : c.faults ≠ #[]) : c.advance.faults ≠ #[] := moveTo_keeps _ h

theorem Cursor.Clean.advance (h : c.Clean) (hf : c.advance.faults = #[]) : c.advance.Clean :=
  clean_moveTo h.faults h.listens h.rest hf

theorem Cursor.Clean.listen (h : c.Clean) : c.listen.Clean := ⟨h.faults, rfl, h.current, h.rest⟩

theorem Cursor.skipStatement_keeps (n : Nat) (h : c.faults ≠ #[]) :
    (c.skipStatement n).faults ≠ #[] := by
  induction n generalizing c with
  | zero => exact h
  | succ n ih =>
    unfold Cursor.skipStatement
    split
    · exact h
    · exact h
    · exact ih (advance_keeps h)

end Cursor

/-- Under a condition a step of parsing gives something with a property, unless it meets a fault.
Faults stay in any case. -/
def Builds (H : Prop) (P : α → Prop) (x : Parse α) : Prop :=
  ∀ c : Cursor, (c.faults ≠ #[] → (x c).2.faults ≠ #[]) ∧
    (H → c.Clean → (x c).2.faults = #[] → (x c).2.Clean ∧ P (x c).1)

section Builds

variable {H : Prop} {P Q : α → Prop} {R : β → Prop} {x : Parse α} {f : α → Parse β}

/-- What a step gives is known to the next one. -/
theorem Builds.bind (hx : Builds H P x) (hf : ∀ a, Builds (H ∧ P a) R (f a)) :
    Builds H R (x >>= f) := by
  intro c
  obtain ⟨hkeeps, hbuilds⟩ := hx c
  obtain ⟨hkeeps', hbuilds'⟩ := hf (x c).1 (x c).2
  refine ⟨fun h => hkeeps' (hkeeps h), fun h hc hfaults => ?_⟩
  obtain ⟨hclean, ha⟩ := hbuilds h hc (not_not.1 fun hne => hkeeps' hne hfaults)
  exact hbuilds' ⟨h, ha⟩ hclean hfaults

theorem builds_pure {a : α} (h : H → P a) : Builds H P (pure a : Parse α) :=
  fun _ => ⟨id, fun hH hc _ => ⟨hc, h hH⟩⟩

/-- What follows a fault does not matter. -/
theorem builds_fault {m : Cursor → Cursor} (hm : ∀ c : Cursor, ∃ e, m c = c.note e) {a : α} :
    Builds H P (do modify m; return a) := by
  intro c
  obtain ⟨e, he⟩ := hm c
  show (c.faults ≠ #[] → (m c).faults ≠ #[]) ∧
    (H → c.Clean → (m c).faults = #[] → (m c).Clean ∧ P a)
  rw [he]
  exact ⟨fun h => c.note_keeps h e, fun _ hc h =>
    absurd h (c.note_faults (fun _ => hc.listens) e)⟩

theorem builds_advance : Builds H (fun _ => True) advance := fun c =>
  ⟨c.advance_keeps, fun _ hc h => ⟨hc.advance h, trivial⟩⟩

/-- The current token can be written again. -/
theorem builds_get : Builds H (fun c => Legal c.current) (get : Parse Cursor) :=
  fun _ => ⟨id, fun _ hc _ => ⟨hc, hc.current⟩⟩

theorem builds_at? {m : Mark} : Builds H (fun _ => True) (at? m) :=
  builds_get.bind fun _ => builds_pure fun _ => trivial

theorem builds_itemBound : Builds H (fun _ => True) itemBound :=
  builds_get.bind fun _ => builds_pure fun _ => trivial

theorem builds_expect {m : Mark} {what : String} : Builds H (fun b => b = true) (expect m what) := by
  unfold expect
  refine builds_at?.bind fun b => ?_
  split
  · exact builds_advance.bind fun _ => builds_pure fun _ => rfl
  · exact builds_fault fun c => ⟨_, rfl⟩

theorem builds_failHere {P : Expr → Prop} {f : Fault} : Builds H P (failHere f) :=
  builds_get.bind fun _ => builds_fault fun _ => ⟨_, rfl⟩

theorem builds_orFail {P : Expr → Prop} {x : Text.Extent} {r : Except Fault Expr}
    (h : H → ∀ e, r = .ok e → P e) : Builds H P (orFail x r) := by
  cases r with
  | ok e => exact builds_pure fun hH => h hH e rfl
  | error f => exact builds_fault fun _ => ⟨_, rfl⟩

end Builds

/-! ## Trees that read back -/

section Level

variable {H : Prop} {item : Parse Expr}

/-- Items between commas. -/
theorem builds_itemsUntil (hi : ∀ {H}, Builds H Readable item) (close : Mark) (what : String)
    (n : Nat) : Builds H (fun r => ∃ es, r = some es ∧ ∀ e ∈ es, Readable e)
      (itemsUntil item close what n) := by
  induction n generalizing H with
  | zero => exact builds_fault fun _ => ⟨_, rfl⟩
  | succ n ih =>
    unfold itemsUntil
    refine hi.bind fun e => builds_at?.bind fun comma => ?_
    split
    · refine builds_advance.bind fun _ => ih.bind fun r => builds_pure ?_
      rintro ⟨⟨⟨⟨-, he⟩, -⟩, -⟩, es, rfl, hes⟩
      exact ⟨e :: es, rfl, List.forall_mem_cons.2 ⟨he, hes⟩⟩
    · refine builds_expect.bind fun closed => ?_
      split
      · refine builds_pure ?_
        rintro ⟨⟨⟨-, he⟩, -⟩, -⟩
        exact ⟨[e], rfl, List.forall_mem_singleton.2 he⟩
      · exact builds_pure fun h => absurd h.2 ‹_›

/-- Rows with items. -/
structure ReadableRows (rows : List (List Expr)) : Prop where
  nonempty : rows ≠ []
  nonempty_row : ∀ row ∈ rows, row ≠ []
  readable : ∀ row ∈ rows, ∀ e ∈ row, Readable e

theorem readableRows_singleton {e : Expr} (he : Readable e) : ReadableRows [[e]] :=
  ⟨List.cons_ne_nil _ _, List.forall_mem_singleton.2 (List.cons_ne_nil _ _),
    List.forall_mem_singleton.2 (List.forall_mem_singleton.2 he)⟩

variable {rows : List (List Expr)} {e : Expr}

theorem ReadableRows.cons (h : ReadableRows rows) (he : Readable e) : ReadableRows ([e] :: rows) :=
  ⟨List.cons_ne_nil _ _, List.forall_mem_cons.2 ⟨List.cons_ne_nil _ _, h.nonempty_row⟩,
    List.forall_mem_cons.2 ⟨List.forall_mem_singleton.2 he, h.readable⟩⟩

theorem ReadableRows.addToRow (h : ReadableRows rows) (he : Readable e) :
    ReadableRows (addToRow e rows) := by
  obtain ⟨hne, hrows, hitems⟩ := h
  match rows, hne with
  | row :: rows, _ =>
    rw [List.forall_mem_cons] at hrows hitems
    exact ⟨List.cons_ne_nil _ _, List.forall_mem_cons.2 ⟨List.cons_ne_nil _ _, hrows.2⟩,
      List.forall_mem_cons.2 ⟨List.forall_mem_cons.2 ⟨he, hitems.1⟩, hitems.2⟩⟩

/-- Items between commas and semicolons. -/
theorem builds_rowsUntil (hi : ∀ {H}, Builds H Readable item) (n : Nat) :
    Builds H (fun r => ∃ rows, r = some rows ∧ ReadableRows rows) (rowsUntil item n) := by
  induction n generalizing H with
  | zero => exact builds_fault fun _ => ⟨_, rfl⟩
  | succ n ih =>
    unfold rowsUntil
    refine hi.bind fun e => builds_at?.bind fun comma => ?_
    split
    · refine builds_advance.bind fun _ => ih.bind fun r => builds_pure ?_
      rintro ⟨⟨⟨⟨-, he⟩, -⟩, -⟩, rows, rfl, hrows⟩
      exact ⟨_, rfl, hrows.addToRow he⟩
    refine builds_at?.bind fun semicolon => ?_
    split
    · refine builds_advance.bind fun _ => ih.bind fun r => builds_pure ?_
      rintro ⟨⟨⟨⟨⟨-, he⟩, -⟩, -⟩, -⟩, rows, rfl, hrows⟩
      exact ⟨_, rfl, hrows.cons he⟩
    · refine builds_expect.bind fun closed => ?_
      split
      · refine builds_pure ?_
        rintro ⟨⟨⟨⟨-, he⟩, -⟩, -⟩, -⟩
        exact ⟨_, rfl, readableRows_singleton he⟩
      · exact builds_pure fun h => absurd h.2 ‹_›

/-- What is parsed behind a tree goes on with a tree that reads back. -/
def Goal.Readable : Goal → Prop
  | .expression | .prefixed => True
  | .joined _ left => Parser.Readable left
  | .link base => Parser.Readable base

/-- What is parsed one level deeper reads back. -/
def BuildsBelow (deeper : Deeper) : Prop :=
  ∀ parse ∈ deeper, ∀ {H : Prop} (g : Goal), (H → g.Readable) → Builds H Readable (parse g)

variable {limit : Nat} {deeper : Deeper} {name : String} (hd : BuildsBelow deeper)

include hd

theorem builds_descend (g : Goal) (hg : H → g.Readable) :
    Builds H Readable (descend limit deeper g) := by
  unfold descend
  split
  · next parse => exact hd parse rfl g hg
  · exact builds_failHere

theorem builds_expression : Builds H Readable (descend limit deeper .expression) :=
  builds_descend hd .expression fun _ => trivial

theorem builds_listLiteral : Builds H Readable (listLiteral limit deeper) := by
  unfold listLiteral
  refine builds_at?.bind fun closed => ?_
  split
  · exact builds_advance.bind fun _ => builds_pure fun _ => .list nofun
  · refine builds_itemBound.bind fun bound =>
      (builds_itemsUntil (builds_expression hd) _ _ _).bind fun r => ?_
    split
    · refine builds_pure ?_
      rintro ⟨-, es, ⟨⟩, hes⟩
      exact .list hes
    · refine builds_pure ?_
      rintro ⟨-, es, ⟨⟩, -⟩

theorem builds_vectorLiteral (x : Text.Extent) :
    Builds H Readable (vectorLiteral limit deeper x) := by
  unfold vectorLiteral
  refine builds_at?.bind fun closed => ?_
  split
  · have hempty : literalOf [] = .ok (.vector []) := rfl
    exact builds_advance.bind fun _ => builds_pure fun _ =>
      .literalOf (by nofun) (by nofun) hempty
  · refine builds_itemBound.bind fun bound =>
      (builds_rowsUntil (builds_expression hd) _).bind fun r => ?_
    split
    · refine builds_orFail ?_
      rintro ⟨-, rows, ⟨⟩, hrows⟩ e he
      exact .literalOf hrows.nonempty_row hrows.readable he
    · refine builds_pure ?_
      rintro ⟨-, rows, ⟨⟩, -⟩

theorem builds_afterArguments (x : Text.Extent) (args : Option (List Expr))
    (hargs : H → IsName name ∧ ∃ es, args = some es ∧ ∀ e ∈ es, Readable e) :
    Builds H Readable (afterArguments limit deeper name x args) := by
  cases args with
  | none =>
    refine builds_pure fun h => ?_
    obtain ⟨-, es, ⟨⟩, -⟩ := hargs h
  | some args =>
    refine builds_at?.bind fun assigned => ?_
    split
    · refine builds_advance.bind fun _ => (builds_expression hd).bind fun body =>
        builds_orFail ?_
      rintro ⟨⟨⟨h, -⟩, -⟩, hbody⟩ e he
      obtain ⟨hname, es, ⟨⟩, hes⟩ := hargs h
      exact .defineForm hname hes hbody he
    · refine builds_orFail ?_
      rintro ⟨h, -⟩ e he
      obtain ⟨hname, es, ⟨⟩, hes⟩ := hargs h
      exact .callForm hname hes he

theorem builds_callLike (hn : H → IsName name) (x : Text.Extent) :
    Builds H Readable (callLike limit deeper name x) := by
  unfold callLike
  refine builds_at?.bind fun closed => ?_
  dsimp only
  split
  · exact builds_advance.bind fun _ => builds_afterArguments hd x (some []) fun h =>
      ⟨hn h.1.1, [], rfl, List.forall_mem_nil _⟩
  · exact builds_itemBound.bind fun bound =>
      (builds_itemsUntil (builds_expression hd) _ _ _).bind fun args =>
        builds_afterArguments hd x args fun h => ⟨hn h.1.1.1, h.2⟩

theorem builds_nameLike (hn : H → IsName name) (x : Text.Extent) :
    Builds H Readable (nameLike limit deeper name x) := by
  unfold nameLike
  refine builds_get.bind fun c => ?_
  split
  · refine builds_advance.bind fun _ => (builds_expression hd).bind fun e => builds_pure ?_
    rintro ⟨⟨⟨h, -⟩, -⟩, he⟩
    exact .assign (hn h) he
  · refine builds_advance.bind fun _ => (builds_expression hd).bind fun i =>
      builds_expect.bind fun closed => ?_
    split
    · refine builds_at?.bind fun assigned => ?_
      split
      · refine builds_advance.bind fun _ => (builds_expression hd).bind fun e => builds_pure ?_
        rintro ⟨⟨⟨⟨⟨⟨⟨h, -⟩, -⟩, hi⟩, -⟩, -⟩, -⟩, he⟩
        exact .assignElement (hn h) hi he
      · refine builds_pure ?_
        rintro ⟨⟨⟨⟨⟨h, -⟩, -⟩, hi⟩, -⟩, -⟩
        exact .element (hn h) hi
    · exact builds_pure fun h => absurd h.2 ‹_›
  · exact builds_advance.bind fun _ => builds_callLike hd (fun h => hn h.1.1) x
  · exact builds_pure fun h => .var (hn h.1)

/-- **Operands read back.** -/
theorem builds_primary : Builds H Readable (primary limit deeper) := by
  unfold primary
  refine builds_get.bind fun c => ?_
  split
  · next x hx =>
    refine builds_advance.bind fun _ => builds_pure ?_
    rintro ⟨⟨-, hlegal⟩, -⟩
    rw [hx] at hlegal
    exact .number hlegal
  · exact builds_advance.bind fun _ => builds_pure fun _ => .string _
  · exact builds_advance.bind fun _ => builds_pure fun _ => .bool true
  · exact builds_advance.bind fun _ => builds_pure fun _ => .bool false
  · refine builds_advance.bind fun _ => (builds_expression hd).bind fun e =>
      builds_expect.bind fun closed => ?_
    split
    · exact builds_pure fun h => h.1.2
    · exact builds_pure fun h => absurd h.2 ‹_›
  · exact builds_advance.bind fun _ => builds_vectorLiteral hd _
  · exact builds_advance.bind fun _ => builds_listLiteral hd
  · next name hname =>
    refine builds_advance.bind fun _ => builds_nameLike hd ?_ _
    rintro ⟨⟨-, hlegal⟩, -⟩
    rw [hname] at hlegal
    exact hlegal
  · exact builds_fault Cursor.unexpected_eq

omit hd in
theorem builds_signed {operand : Parse Expr} (ho : ∀ {H}, Builds H Readable operand) :
    Builds H Readable (signed operand) := by
  unfold signed
  refine builds_get.bind fun c => ?_
  split
  · exact builds_advance.bind fun _ => ho.bind fun e => builds_pure fun h => .unary .neg h.2
  · exact builds_advance.bind fun _ => ho
  · exact ho

theorem builds_links (hb : H → Readable e) : Builds H Readable (links limit deeper e) := by
  unfold links
  refine builds_get.bind fun c => ?_
  split
  · exact builds_descend hd (.link e) fun h => hb h.1
  · exact builds_pure fun h => hb h.1

/-- **Powers, indices and members read back.** -/
theorem builds_link (hb : H → Readable e) : Builds H Readable (link limit deeper e) := by
  unfold link
  refine builds_get.bind fun c => ?_
  split
  · refine builds_advance.bind fun _ => (builds_signed (builds_primary hd)).bind fun exponent =>
      builds_links hd ?_
    rintro ⟨⟨⟨h, -⟩, -⟩, he⟩
    exact .build (.binary .pow) (hb h) he
  · refine builds_advance.bind fun _ => (builds_expression hd).bind fun i =>
      builds_expect.bind fun closed => ?_
    split
    · refine builds_links hd ?_
      rintro ⟨⟨⟨⟨h, -⟩, -⟩, hi⟩, -⟩
      exact .index (hb h) hi
    · exact builds_pure fun h => absurd h.2 ‹_›
  · refine builds_advance.bind fun _ => builds_get.bind fun c => ?_
    split
    · next name hname =>
      refine builds_advance.bind fun _ => builds_links hd ?_
      rintro ⟨⟨⟨⟨h, -⟩, -⟩, hlegal⟩, -⟩
      rw [hname] at hlegal
      exact .member (hb h) hlegal
    · exact builds_fault fun _ => ⟨_, rfl⟩

theorem builds_linked : Builds H Readable (linked limit deeper) :=
  (builds_primary hd).bind fun _ => builds_links hd fun h => h.2

theorem builds_rangeLike (negated : Bool) : Builds H Readable (rangeLike limit deeper negated) := by
  have hstart : ∀ first : Expr, Readable first →
      Readable (if negated then Expr.unary .neg first else first) := by
    intro first hfirst
    split
    · exact .unary .neg hfirst
    · exact hfirst
  unfold rangeLike
  refine (builds_linked hd).bind fun first => builds_at?.bind fun colon => ?_
  split
  · refine builds_advance.bind fun _ => (builds_signed (builds_linked hd)).bind fun second =>
      builds_at?.bind fun colon => ?_
    split
    · refine builds_advance.bind fun _ => (builds_signed (builds_linked hd)).bind fun stop =>
        builds_pure ?_
      rintro ⟨⟨⟨⟨⟨⟨⟨-, hfirst⟩, -⟩, -⟩, hsecond⟩, -⟩, -⟩, hstop⟩
      exact .range (hstart first hfirst) (fun e he => Option.some.inj he ▸ hsecond) hstop
    · refine builds_pure ?_
      rintro ⟨⟨⟨⟨⟨-, hfirst⟩, -⟩, -⟩, hsecond⟩, -⟩
      exact .range (hstart first hfirst) nofun hsecond
  · exact builds_pure fun h => hstart first h.1.2

/-- **Prefix operators read back.** -/
theorem builds_prefixed : Builds H Readable (prefixed limit deeper) := by
  unfold prefixed
  refine builds_get.bind fun c => ?_
  split
  · exact builds_rangeLike hd false
  · next op _ =>
    refine builds_advance.bind fun _ => builds_get.bind fun c => ?_
    split
    · exact builds_rangeLike hd true
    split
    · exact builds_failHere
    · next parse =>
      refine (hd parse rfl .prefixed fun _ => trivial).bind fun operand => ?_
      split
      · exact builds_pure fun h => .unary _ h.2
      · exact builds_pure fun h => h.2

theorem builds_joins (rank : Nat) (hl : H → Readable e) :
    Builds H Readable (joins limit deeper rank e) := by
  have hsame : ∀ {H' : Prop}, Builds (H ∧ H') Readable (pure e) := builds_pure fun h => hl h.1
  unfold joins
  refine builds_get.bind fun c => ?_
  split
  · split
    · next op _ =>
      split
      · exact builds_descend hd (.joined op e) fun h => hl h.1
      · exact hsame
    · exact hsame
  · exact hsame

theorem builds_ranked (rank : Nat) : Builds H Readable (ranked limit deeper rank) := by
  induction rank generalizing H with
  | zero => exact builds_prefixed hd
  | succ rank ih => exact ih.bind fun left => builds_joins hd _ fun h => h.2

/-- **What is parsed at one level reads back**, if what is parsed one level deeper does. -/
theorem builds_goal (g : Goal) (hg : H → g.Readable) : Builds H Readable (goal limit deeper g) := by
  cases g with
  | expression => exact builds_ranked hd 5
  | prefixed => exact builds_prefixed hd
  | joined op left =>
    exact builds_advance.bind fun _ => (builds_ranked hd _).bind fun right =>
      builds_joins hd _ fun h => .build op (hg h.1.1) h.2
  | link base => exact builds_link hd hg

end Level

/-- **What is parsed at a depth reads back.** -/
theorem builds_parseAt {H : Prop} (limit n : Nat) (g : Goal) (hg : H → g.Readable) :
    Builds H Readable (parseAt limit n g) := by
  induction n generalizing H g with
  | zero => exact builds_goal (fun parse hp => by cases hp) g hg
  | succ n ih =>
    refine builds_goal (fun parse hp H g hg => ?_) g hg
    obtain rfl := Option.some.inj hp
    exact ih g hg

/-! ## Statements -/

section Statements

variable {c : Cursor}

theorem builds_outermost (limit : Nat) : Builds True Readable (expression limit) := by
  cases limit with
  | zero => exact builds_failHere
  | succ n => exact builds_parseAt (n + 1) n .expression fun _ => trivial

theorem statements_keeps (limit n : Nat) (h : c.faults ≠ #[]) :
    (statements limit n c).2.faults ≠ #[] := by
  induction n generalizing c with
  | zero => exact h
  | succ n ih =>
    have hkeeps := (builds_outermost limit c.listen).1 h
    unfold statements
    dsimp only
    split
    · exact h
    · exact ih (Cursor.advance_keeps h)
    · rcases he : (expression limit).run c.listen with ⟨e, c'⟩
      replace hkeeps : c'.faults ≠ #[] := congrArg (·.2.faults) he ▸ hkeeps
      dsimp only
      split
      · exact hkeeps
      · exact ih (Cursor.advance_keeps hkeeps)
      · obtain ⟨f, hf⟩ := Cursor.unexpected_eq c'
        rw [hf]
        exact ih (Cursor.skipStatement_keeps _ (Cursor.note_keeps hkeeps f))

/-- The statements of a text without faults read back. -/
theorem readable_statements (limit n : Nat) (hc : c.listen.Clean)
    (h : (statements limit n c).2.faults = #[]) : ∀ e ∈ (statements limit n c).1, Readable e := by
  induction n generalizing c with
  | zero => exact nofun
  | succ n ih =>
    have hbuilds := (builds_outermost limit c.listen).2 trivial hc
    have hnext : ∀ c : Cursor, c.Clean → (statements limit n c.advance).2.faults = #[] →
        ∀ e ∈ (statements limit n c.advance).1, Readable e := by
      intro c hc h
      have hadvance : c.advance.faults = #[] :=
        not_not.1 fun hne => statements_keeps limit n hne h
      exact ih (hc.advance hadvance).listen h
    revert h
    unfold statements
    dsimp only
    split
    · exact fun _ => nofun
    · exact hnext _ hc
    · rcases he : (expression limit).run c.listen with ⟨e, c'⟩
      replace hbuilds : c'.faults = #[] → c'.Clean ∧ Readable e := by
        have hrun : expression limit c.listen = (e, c') := he
        rwa [hrun] at hbuilds
      dsimp only
      split
      · exact fun h => List.forall_mem_singleton.2 (hbuilds h).2
      · intro h
        have hfaults : c'.faults = #[] :=
          not_not.1 fun hne => statements_keeps limit n (Cursor.advance_keeps (c := c'.listen) hne) h
        obtain ⟨hclean, hreadable⟩ := hbuilds hfaults
        exact List.forall_mem_cons.2 ⟨hreadable, hnext _ hclean.listen h⟩
      · intro h
        obtain ⟨f, hf⟩ := Cursor.unexpected_eq c'
        rw [hf] at h
        refine absurd h (statements_keeps limit n (Cursor.skipStatement_keeps _ ?_))
        by_cases hfaults : c'.faults = #[]
        · exact c'.note_faults (fun h => (hbuilds h).1.listens) f
        · exact Cursor.note_keeps hfaults f

/-- **The statements of a text without faults read back.** -/
theorem readable_of_mem_parseText {limit : Nat} {source : String}
    (hback : NumbersReadBack source) (h : (parseText limit source).2.faults = #[]) :
    ∀ e ∈ (parseText limit source).1, Readable e := by
  have hstart : (Cursor.start (lex source)).faults = #[] :=
    not_not.1 fun hne => statements_keeps limit _ hne h
  have hclean := Cursor.clean_moveTo rfl rfl
    (fun l hl t ht => legal_of_mem_lex hback hl ht) hstart
  exact readable_statements limit _ hclean.listen h

end Statements

/-! ## Reading statements back -/

section Back

variable {es : List Expr} {f : Expr → List Token} {n : Nat}

/-- **Statements between semicolons.** -/
theorem statements_of_shows (hf : ∀ e ∈ es, AsWhole (f e) e) (hn : ∀ e ∈ es, 2 * e.height ≤ n)
    {c : Cursor} (hc : c.Shows (between .semicolon (es.map f))) {m : Nat} (hm : es.length ≤ m) :
    (statements (n + 1) m c).1 = es ∧ (statements (n + 1) m c).2.faults = #[] := by
  induction es generalizing c m with
  | nil =>
    have hfinish : c.listen.current = .finish := hc.current
    cases m with
    | zero => exact ⟨rfl, hc.faults⟩
    | succ m =>
      unfold statements
      simp only [hfinish]
      exact ⟨trivial, hc.faults⟩
  | cons e es ih =>
    obtain ⟨m, rfl⟩ := Nat.exists_eq_add_one_of_ne_zero (Nat.ne_of_gt (Nat.lt_of_lt_of_le
      (Nat.succ_pos _) hm))
    have hwhole := hf e List.mem_cons_self
    have hbegins : closes c.listen.current = false :=
      (congrArg closes hc.current).trans (closes_between hwhole.begins _)
    have hexpr : ∀ us, c.Shows (f e ++ us) → closes (front us) →
        ∃ c' : Cursor, (expression (n + 1)).run c.listen = (e, c') ∧ c'.Shows us := by
      intro us hshows hus
      have htakes : Takes (expression (n + 1)) (f e ++ us) e us :=
        hwhole.takes (hn e List.mem_cons_self) hus
      obtain ⟨he, hshows⟩ := htakes c.listen hshows.listen
      exact ⟨_, Prod.ext he rfl, hshows⟩
    unfold statements
    dsimp only
    split
    · next hfinish => rw [hfinish] at hbegins; cases hbegins
    · next hsemicolon => rw [hsemicolon] at hbegins; cases hbegins
    cases es with
    | nil =>
      rw [List.map_singleton, between_singleton] at hc
      obtain ⟨c', hrun, hshows⟩ := hexpr [] (by rwa [List.append_nil]) rfl
      simp only [hrun, hshows.current, front_nil]
      exact ⟨trivial, hshows.faults⟩
    | cons e' es =>
      rw [List.map_cons, List.map_cons, between_cons_cons] at hc
      obtain ⟨c', hrun, hshows⟩ := hexpr _ hc rfl
      simp only [hrun, hshows.current, front_cons]
      obtain ⟨hes, hfaults⟩ := ih (fun e he => hf e (List.mem_cons_of_mem _ he))
        (fun e he => hn e (List.mem_cons_of_mem _ he)) hshows.listen.advance
        (Nat.le_of_succ_le_succ hm)
      exact ⟨congrArg (e :: ·) hes, hfaults⟩

theorem text_sequenceOf (es : List Expr) :
    (sequenceOf es).text = "; ".intercalate (es.map Expr.text) := by
  unfold sequenceOf
  split
  · rw [List.map_singleton, String.intercalate_singleton]
  · rw [Expr.text, texts_eq_map]

/-- A text that is read as statements between semicolons is parsed to them. -/
theorem parse_of_written {source : String} (hw : Written source (between .semicolon (es.map f)))
    (hf : ∀ e ∈ es, AsWhole (f e) e) (hn : ∀ e ∈ es, 2 * e.height ≤ n) :
    parse (n + 1) source = (sequenceOf es, []) := by
  have hreads := hw [] broken_nil
  rw [List.append_nil] at hreads
  have hshows := Cursor.shows_start (lex source)
    (lexFrom_of_reads hreads (Nat.lt_succ_self _) .origin)
  have hlength : es.length ≤ (Cursor.start (lex source)).rest.length + 1 := by
    have hle := length_le_between_of_ne_nil .semicolon (es.map f) fun ts hts => by
      obtain ⟨e, he, rfl⟩ := List.mem_map.1 hts
      exact (hf e he).ne_nil
    rw [List.length_map] at hle
    rw [hshows.length_rest, List.length_tail]
    omega
  obtain ⟨htrees, hfaults⟩ := statements_of_shows hf hn hshows hlength
  unfold parse parseText
  dsimp only
  rw [htrees, hfaults]

/-- A text that is read as an expression is parsed to it. -/
theorem parse_of_whole {source : String} {e : Expr} {ts : List Token} (hw : Written source ts)
    (h : AsWhole ts e) (hn : 2 * e.height ≤ n) : parse (n + 1) source = (e, []) := by
  have hwhole : ∀ e' ∈ [e], AsWhole ((fun _ => ts) e') e' := List.forall_mem_singleton.2 h
  refine parse_of_written ?_ hwhole (List.forall_mem_singleton.2 hn)
  rwa [List.map_singleton, between_singleton]

/-- **The text of readable statements is parsed to them**, where there are twice as many levels as
they are high. -/
theorem parse_text_sequenceOf (hes : ∀ e ∈ es, Readable e) (hn : ∀ e ∈ es, 2 * e.height ≤ n) :
    parse (n + 1) (sequenceOf es).text = (sequenceOf es, []) := by
  obtain ⟨f, hf⟩ := exists_tokens hes
  have hw := written_intercalate delimited_semicolon breaking_semicolon fun e he => (hf e he).1
  rw [← text_sequenceOf] at hw
  exact parse_of_written hw (fun e he => (hf e he).2) hn

/-- **The text of a parsed tree is parsed to it**, under the limit that its height asks for. -/
theorem parse_text {limit : Nat} {source : String} (hback : NumbersReadBack source)
    (h : (parse limit source).2 = []) :
    ∃ limit', parse limit' (parse limit source).1.text = ((parse limit source).1, []) := by
  have hfaults : (parseText limit source).2.faults = #[] := Array.toList_eq_nil_iff.1 h
  have hreadable := readable_of_mem_parseText hback hfaults
  exact ⟨_, parse_text_sequenceOf (n := 2 * heightBelow (parseText limit source).1) hreadable
    fun e he => Nat.mul_le_mul_left 2 (Nat.le_of_lt (height_lt_heightBelow he))⟩

end Back

/-- Statements of many forms, with numbers in a range, a power and an index. -/
def mixedForms : String :=
  "f(x) = -2:x ^ 0.5; if(a and !(b == inf), sum(i, v, i * (a)[2]), \"q\\n\"); v[i] = m.k - -x"

theorem readsBack_two : ReadsBack 2.0 :=
  ⟨⟨['2'], List.cons_ne_nil _ _, List.all_eq_true.1 rfl, .inl (by decide +kernel)⟩,
    by decide +kernel⟩

theorem readsBack_half : ReadsBack 0.5 :=
  ⟨⟨['0'], List.cons_ne_nil _ _, List.all_eq_true.1 rfl,
    .inr ⟨['5'], List.all_eq_true.1 rfl, by decide +kernel⟩⟩, by decide +kernel⟩

/-- The number of a lexeme that is one. -/
def numberOf? (l : Lexeme) : Option Float :=
  match l.content with
  | .ok (.number x) => some x
  | _ => none

theorem numbersReadBack_mixedForms : NumbersReadBack mixedForms := by
  have hnumbers : (lex mixedForms).lexemes.filterMap numberOf? =
      [2.0, 0.5, Number.infinity, 2.0] := by decide +kernel
  intro l hl x hx hfinite _
  have hmem : x ∈ [2.0, 0.5, Number.infinity, 2.0] := by
    rw [← hnumbers]
    exact List.mem_filterMap.2 ⟨l, hl, by rw [numberOf?, hx]⟩
  simp only [List.mem_cons, List.not_mem_nil, or_false] at hmem
  rcases hmem with rfl | rfl | rfl | rfl
  · exact readsBack_two
  · exact readsBack_half
  · cases hfinite
  · exact readsBack_two

theorem parse_text_mixedForms : NumbersReadBack mixedForms ∧ (parse 20 mixedForms).2 = [] ∧
    ∃ limit, parse limit (parse 20 mixedForms).1.text = ((parse 20 mixedForms).1, []) := by
  have hfaults : (parse 20 mixedForms).2 = [] := by decide +kernel
  exact ⟨numbersReadBack_mixedForms, hfaults, parse_text numbersReadBack_mixedForms hfaults⟩

end FormulaLang.Parser
