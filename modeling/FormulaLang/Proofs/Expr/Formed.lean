import FormulaLang.Proofs.Expr.Calls
import FormulaLang.Proofs.Expr.Ending

/-!
# Trees of texts without faults

A step of parsing that gives up has recorded a fault, or the cursor was silent because an earlier
one had. So where the cursor still listens in the end, no step on the way has given up, and the
forms that are built check the number and the shape of their arguments.

* `Expr.Formed`: what holds of every tree in a parsed text, with `Expr.WellFormed` for all trees in
  a tree.
* `wellFormed_literalOf`, `wellFormed_callForm`: the forms over their arguments.
* **`formed_of_parses`**: what is parsed while the cursor listens.
* **`formed_of_within_parse`**: the trees in a text without faults.
-/

namespace FormulaLang

namespace Expr

/-- A tree is not invalid, a matrix has two rows or more that are equally long, `cases` have a
branch, and a loop has a default where its form takes one. -/
def Formed : Expr → Prop
  | invalid => False
  | matrix rows => 2 ≤ rows.length ∧ ∀ row ∈ rows, ∀ row' ∈ rows, row.length = row'.length
  | cases branches _ => branches ≠ []
  | loop kind _ _ _ default => default.isSome ↔ kind = .defaultCollect
  | _ => True

/-- All trees in a tree are formed. -/
def WellFormed (t : Expr) : Prop := ∀ e : Expr, e.Within t → e.Formed

variable {t e a b : Expr}

theorem wellFormed_of_parts (ht : t.Formed) (hp : ∀ p ∈ t.parts, p.WellFormed) : t.WellFormed := by
  intro e he
  cases he with
  | self => exact ht
  | part hmem he => exact hp _ hmem e he

theorem wellFormed_leaf (ht : t.Formed) (hp : t.parts = []) : t.WellFormed :=
  wellFormed_of_parts ht (by simp [hp])

theorem wellFormed_above (ht : t.Formed) (hp : t.parts = [e]) (he : e.WellFormed) :
    t.WellFormed :=
  wellFormed_of_parts ht (hp ▸ List.forall_mem_singleton.2 he)

theorem wellFormed_between (ht : t.Formed) (hp : t.parts = [a, b]) (ha : a.WellFormed)
    (hb : b.WellFormed) : t.WellFormed :=
  wellFormed_of_parts ht (hp ▸ List.forall_mem_cons.2 ⟨ha, List.forall_mem_singleton.2 hb⟩)

end Expr

namespace Parser

open FormulaLang.Expr

/-! ## Forms over their arguments -/

section Forms

variable {args : List Expr} {e : Expr}

theorem wellFormed_build (op : Joiner) {a b : Expr} (ha : a.WellFormed) (hb : b.WellFormed) :
    (op.build a b).WellFormed := by
  cases op <;> exact wellFormed_between trivial rfl ha hb

theorem wellFormed_negated (negated : Bool) (he : e.WellFormed) :
    (if negated then Expr.unary .neg e else e).WellFormed := by
  cases negated with
  | true => exact wellFormed_above trivial rfl he
  | false => exact he

theorem wellFormed_literalOf {rows : List (List Expr)}
    (hrows : ∀ row ∈ rows, ∀ e ∈ row, e.WellFormed) (h : literalOf rows = .ok e) :
    e.WellFormed := by
  unfold literalOf at h
  split at h
  · cases h
    exact wellFormed_leaf trivial rfl
  · cases h
    exact wellFormed_of_parts trivial (hrows _ List.mem_cons_self)
  · next first rest hrest =>
    dsimp only at h
    split at h
    · cases h
    · next hfind =>
      cases h
      have hcolumns : ∀ row ∈ first :: rest, row.length = first.length := by
        refine List.forall_mem_cons.2 ⟨rfl, fun row hrow => ?_⟩
        obtain ⟨i, hi⟩ := List.getElem?_of_mem hrow
        simpa using List.find?_eq_none.1 hfind (row, i) (List.mem_zipIdx_iff_getElem?.2 hi)
      have hlength : 2 ≤ (first :: rest).length :=
        Nat.succ_le_succ (List.length_pos_iff.2 hrest)
      refine wellFormed_of_parts ⟨hlength, fun row hrow row' hrow' => ?_⟩ fun p hp => ?_
      · rw [hcolumns row hrow, hcolumns row' hrow']
      · obtain ⟨row, hrow, hp⟩ := List.mem_flatten.1 hp
        exact hrows row hrow p hp

theorem wellFormed_addToRow {rows : List (List Expr)} (he : e.WellFormed)
    (hrows : ∀ row ∈ rows, ∀ a ∈ row, a.WellFormed) :
    ∀ row ∈ addToRow e rows, ∀ a ∈ row, a.WellFormed := by
  cases rows with
  | nil => exact List.forall_mem_singleton.2 (List.forall_mem_singleton.2 he)
  | cons row rows =>
    rw [List.forall_mem_cons] at hrows
    exact List.forall_mem_cons.2 ⟨List.forall_mem_cons.2 ⟨he, hrows.1⟩, hrows.2⟩

theorem wellFormed_loop {kind : LoopKind} {name : String} {source : LoopSource Expr} {body : Expr}
    {default : Option Expr} (hsource : ∀ p ∈ source.parts, p.WellFormed) (hbody : body.WellFormed)
    (hdefault : ∀ a ∈ default, a.WellFormed) (hkind : default.isSome ↔ kind = .defaultCollect) :
    (Expr.loop kind name source body default).WellFormed := by
  refine wellFormed_of_parts hkind fun p hp => ?_
  rcases List.mem_append.1 hp with hp | hp
  · exact hsource p hp
  rcases List.mem_cons.1 hp with rfl | hp
  · exact hbody
  · exact hdefault p (Option.mem_toList.1 hp)

theorem wellFormed_loopOf {kind : LoopKind} {default : Option Expr}
    (hargs : ∀ a ∈ args, a.WellFormed) (hdefault : ∀ a ∈ default, a.WellFormed)
    (hkind : default.isSome ↔ kind = .defaultCollect) (h : loopOf kind args default = .ok e) :
    e.WellFormed := by
  unfold loopOf at h
  split at h
  · cases h
    simp only [List.mem_cons, forall_eq_or_imp] at hargs
    obtain ⟨-, hitems, hbody, -⟩ := hargs
    exact wellFormed_loop (List.forall_mem_singleton.2 hitems) hbody hdefault hkind
  · cases h
    simp only [List.mem_cons, forall_eq_or_imp] at hargs
    obtain ⟨-, ha, hb, hbody, -⟩ := hargs
    exact wellFormed_loop (List.forall_mem_cons.2 ⟨ha, List.forall_mem_singleton.2 hb⟩) hbody
      hdefault hkind
  · cases h
    simp only [List.mem_cons, forall_eq_or_imp] at hargs
    obtain ⟨-, ha, hd, hb, hbody, -⟩ := hargs
    exact wellFormed_loop (List.forall_mem_cons.2 ⟨ha, List.forall_mem_cons.2 ⟨hd,
      List.forall_mem_singleton.2 hb⟩⟩) hbody hdefault hkind
  · cases h

theorem wellFormed_call (hargs : ∀ a ∈ args, a.WellFormed) (name : String) :
    (Expr.call name args).WellFormed := wellFormed_of_parts trivial hargs

theorem wellFormed_loopForm {kind : LoopKind} (hargs : ∀ a ∈ args, a.WellFormed)
    (h : loopForm kind args = .ok e) : e.WellFormed := by
  unfold loopForm at h
  dsimp only at h
  by_cases hcalled : kind.isReduction ∧ args.length < 3
  · rw [if_pos hcalled] at h
    cases h
    exact wellFormed_call hargs _
  rw [if_neg hcalled] at h
  by_cases harity : args.length < 3 + (if kind.takesDefault then 1 else 0) ∨
      5 + (if kind.takesDefault then 1 else 0) < args.length
  · rw [if_pos harity] at h
    cases h
  rw [if_neg harity] at h
  split at h
  · next htakes =>
    refine wellFormed_loopOf (fun a ha => hargs a (List.dropLast_subset _ ha))
      (fun a ha => hargs a (List.mem_of_getLast? ha)) ?_ h
    have hne : args ≠ [] := by
      rintro rfl
      simp at harity
    have hkind : kind = .defaultCollect := by simpa [LoopKind.takesDefault] using htakes
    simp [hkind, hne]
  · next htakes =>
    refine wellFormed_loopOf hargs (fun a ha => by cases ha) ?_ h
    simpa [LoopKind.takesDefault] using htakes

/-- Two arguments or more make a branch. -/
theorem pairUp_ne_nil (h : 2 ≤ args.length) : (pairUp args).1 ≠ [] := by
  match args, h with
  | c :: v :: rest, _ =>
    rw [pairUp]
    exact List.cons_ne_nil _ _

theorem wellFormed_cases {branches : List (Expr × Expr)} {otherwise : Option Expr}
    (hne : branches ≠ []) (hb : ∀ b ∈ branches, b.1.WellFormed ∧ b.2.WellFormed)
    (ho : ∀ a ∈ otherwise, a.WellFormed) : (Expr.cases branches otherwise).WellFormed := by
  refine wellFormed_of_parts hne fun p hp => ?_
  rcases List.mem_append.1 hp with hp | hp
  · obtain ⟨b, hmem, hp⟩ := List.mem_flatMap.1 hp
    simp only [List.mem_cons, List.not_mem_nil, or_false] at hp
    rcases hp with rfl | rfl
    · exact (hb b hmem).1
    · exact (hb b hmem).2
  · exact ho p (Option.mem_toList.1 hp)

theorem wellFormed_callForm {name : String} (hargs : ∀ a ∈ args, a.WellFormed)
    (h : callForm name args = .ok e) : e.WellFormed := by
  unfold callForm at h
  split at h
  · split at h
    · cases h
      simp only [List.mem_cons, forall_eq_or_imp] at hargs
      obtain ⟨hc, ha, hb, -⟩ := hargs
      refine wellFormed_cases (List.cons_ne_nil _ _) (List.forall_mem_singleton.2 ⟨hc, ha⟩) ?_
      rintro _ ⟨⟩
      exact hb
    · cases h
  split at h
  · split at h
    · cases h
    · next hlength =>
      have hne := pairUp_ne_nil (Nat.le_of_not_lt hlength)
      rcases hp : pairUp args with ⟨branches, otherwise⟩
      rw [hp] at h hne
      cases h
      obtain ⟨hpairs, hlast⟩ := mem_of_pairUp hp
      exact wellFormed_cases hne (fun b hb => ⟨hargs _ (hpairs b hb).1, hargs _ (hpairs b hb).2⟩)
        fun a ha => hargs a (hlast a ha)
  split at h
  · exact wellFormed_loopForm hargs h
  · cases h
    exact wellFormed_call hargs _

theorem wellFormed_defineForm {name : String} {body : Expr} (hb : body.WellFormed)
    (h : defineForm name args body = .ok e) : e.WellFormed := by
  unfold defineForm at h
  split at h
  · cases h
    exact wellFormed_above trivial rfl hb
  · cases h

end Forms

/-! ## Phrases -/

/-- What a goal goes on with is well formed. -/
def Goal.Formed : Goal → Prop
  | .expression | .prefixed => True
  | .joined _ left => left.WellFormed
  | .link base => base.WellFormed

namespace Phrase

/-- What a phrase goes on with is well formed. -/
def Given : {α : Type} → Phrase α → Prop
  | _, nested g | _, goal g => g.Formed
  | _, joins _ left | _, links left => left.WellFormed
  | _, called _ _ args => ∀ a ∈ args, a.WellFormed
  | _, _ => True

/-- A phrase is parsed to something well formed, and to all items or rows. -/
def Formed : {α : Type} → Phrase α → α → Prop
  | _, list .., r | _, items .., r => ∃ es, r = some es ∧ ∀ e ∈ es, Expr.WellFormed e
  | _, matrix, r | _, rows, r =>
    ∃ rows, r = some rows ∧ ∀ row ∈ rows, ∀ e ∈ row, Expr.WellFormed e
  | _, nested _, e | _, goal _, e | _, ranked _, e | _, joins .., e | _, prefixed, e
  | _, range _, e | _, operand _, e | _, links _, e | _, signed _, e
  | _, named .., e | _, called .., e => Expr.WellFormed e

end Phrase

section Phrases

variable {α : Type} {limit n : Nat} {p : Phrase α} {c c' : Cursor} {a : α} {e : Expr}

/-- A mark that is expected has been taken where the cursor still listens. -/
theorem eq_true_of_expect {m : Mark} {what : String} {closed : Bool}
    (h : expect m what c = (closed, c')) (hs : c'.silent = false) : closed = true := by
  by_cases hc : c.current = .mark m
  · rw [expect_of_eq hc] at h
    cases h
    rfl
  · rw [expect_of_ne hc] at h
    cases h
    exact (Cursor.not_listens_note hs).elim

/-- A form has been built where the cursor still listens. -/
theorem eq_ok_of_orFail {x : Text.Extent} {r : Except Fault Expr} (h : orFail x r c = (e, c'))
    (hs : c'.silent = false) : r = .ok e := by
  cases r with
  | ok t =>
    cases h
    rfl
  | error f =>
    cases h
    exact (Cursor.not_listens_note hs).elim

/-- **What is parsed while the cursor listens is well formed.** -/
theorem formed_of_parses (h : Parses limit n p c a c') (hs : c'.silent = false) (hp : p.Given) :
    p.Formed a := by
  induction h with
  | tooDeep => exact (Cursor.not_listens_note hs).elim
  | nested _ ih => exact ih hs hp
  | expression _ ih | prefixed _ ih | loose _ ih => exact ih hs trivial
  | joined _ h ihr ih =>
    exact ih hs (wellFormed_build _ hp (ihr (h.reaches.listens hs) trivial))
  | power _ _ h ihx ih =>
    exact ih hs (wellFormed_between trivial rfl hp (ihx (h.reaches.listens hs) trivial))
  | index _ _ hclose h ihi ih =>
    have hs₁ := (moves_expect hclose).listens (h.reaches.listens hs)
    exact ih hs (wellFormed_between trivial rfl hp (ihi hs₁ trivial))
  | openIndex _ _ hclose => cases eq_true_of_expect hclose hs
  | member _ _ _ _ ih => exact ih hs (wellFormed_above trivial rfl hp)
  | noMember => exact (Cursor.not_listens_note hs).elim
  | ranked _ h ihl ih => exact ih hs (ihl (h.reaches.listens hs) trivial)
  | joins _ _ ih => exact ih hs hp
  | noJoiner => exact hp
  | noPrefix _ _ ih | negated _ _ _ ih => exact ih hs trivial
  | prefixTooDeep => exact (Cursor.not_listens_note hs).elim
  | @unary _ _ op _ _ _ _ _ ih =>
    cases op with
    | none => exact ih hs trivial
    | some op => exact wellFormed_above trivial rfl (ih hs trivial)
  | single _ _ ih => exact wellFormed_negated _ (ih hs trivial)
  | pair _ _ hb _ iha ihb =>
    have hs₁ := Cursor.moves_advance.listens (hb.reaches.listens hs)
    exact wellFormed_between trivial rfl (wellFormed_negated _ (iha hs₁ trivial)) (ihb hs trivial)
  | triple _ _ hd _ hb iha ihd ihb =>
    have hs₂ := Cursor.moves_advance.listens (hb.reaches.listens hs)
    have hs₁ := Cursor.moves_advance.listens (hd.reaches.listens hs₂)
    exact wellFormed_of_parts trivial (List.forall_mem_cons.2
      ⟨wellFormed_negated _ (iha hs₁ trivial), List.forall_mem_cons.2
        ⟨ihd hs₂ trivial, List.forall_mem_singleton.2 (ihb hs trivial)⟩⟩)
  | linked _ h ihb ih => exact ih hs (ihb (h.reaches.listens hs) trivial)
  | links _ _ ih => exact ih hs hp
  | noLink => exact hp
  | minus _ _ ih => exact wellFormed_above trivial rfl (ih hs trivial)
  | plus _ _ ih | noSign _ _ _ ih => exact ih hs trivial
  | literal | var => exact wellFormed_leaf trivial rfl
  | group _ _ hclose ih =>
    cases eq_true_of_expect hclose hs
    exact ih ((moves_expect hclose).listens hs) trivial
  | vector _ _ he ihr =>
    obtain ⟨_, ⟨⟩, hrows⟩ := ihr ((reaches_orFail he).listens hs) trivial
    exact wellFormed_literalOf hrows (eq_ok_of_orFail he hs)
  | openVector _ _ ihr => obtain ⟨_, ⟨⟩, -⟩ := ihr hs trivial
  | list _ _ ihi =>
    obtain ⟨es, rfl, hes⟩ := ihi hs trivial
    exact wellFormed_of_parts trivial hes
  | name _ _ ih => exact ih hs trivial
  | noOperand => exact absurd (Cursor.silent_unexpected _) (by rw [hs]; nofun)
  | assign _ _ ih => exact wellFormed_above trivial rfl (ih hs trivial)
  | element _ _ hclose _ ihi =>
    exact wellFormed_above trivial rfl (ihi ((moves_expect hclose).listens hs) trivial)
  | assignElement _ _ hclose _ h ihi ih =>
    have hs₁ := (moves_expect hclose).listens (Cursor.moves_advance.listens (h.reaches.listens hs))
    exact wellFormed_between trivial rfl (ihi hs₁ trivial) (ih hs trivial)
  | openElement _ _ hclose => cases eq_true_of_expect hclose hs
  | call _ _ h iha ih =>
    obtain ⟨_, ⟨⟩, hargs⟩ := iha (h.reaches.listens hs) trivial
    exact ih hs hargs
  | openCall _ _ iha => obtain ⟨_, ⟨⟩, -⟩ := iha hs trivial
  | define _ _ he ihb =>
    exact wellFormed_defineForm (ihb ((reaches_orFail he).listens hs) trivial)
      (eq_ok_of_orFail he hs)
  | form _ he => exact wellFormed_callForm hp (eq_ok_of_orFail he hs)
  | noItems | noRows => exact ⟨_, rfl, nofun⟩
  | items _ _ ih | rows _ _ ih => exact ih hs trivial
  | item _ _ h ihe ih =>
    obtain ⟨es, rfl, hes⟩ := ih hs trivial
    have hs₁ := Cursor.moves_advance.listens (h.reaches.listens hs)
    exact ⟨_, rfl, List.forall_mem_cons.2 ⟨ihe hs₁ trivial, hes⟩⟩
  | lastItem _ _ hclose ihe =>
    cases eq_true_of_expect hclose hs
    exact ⟨_, rfl, List.forall_mem_singleton.2 (ihe ((moves_expect hclose).listens hs) trivial)⟩
  | column _ _ h ihe ih =>
    obtain ⟨rows, rfl, hrows⟩ := ih hs trivial
    have hs₁ := Cursor.moves_advance.listens (h.reaches.listens hs)
    exact ⟨_, rfl, wellFormed_addToRow (ihe hs₁ trivial) hrows⟩
  | row _ _ h ihe ih =>
    obtain ⟨rows, rfl, hrows⟩ := ih hs trivial
    have hs₁ := Cursor.moves_advance.listens (h.reaches.listens hs)
    exact ⟨_, rfl, List.forall_mem_cons.2 ⟨List.forall_mem_singleton.2 (ihe hs₁ trivial), hrows⟩⟩
  | lastRow _ _ _ hclose ihe =>
    cases eq_true_of_expect hclose hs
    have he := ihe ((moves_expect hclose).listens hs) trivial
    exact ⟨_, rfl, List.forall_mem_singleton.2 (List.forall_mem_singleton.2 he)⟩

end Phrases

/-! ## Whole texts -/

section Statements

variable {limit : Nat} {c c' : Cursor} {es : List Expr}

theorem Cursor.le_size_next (c : Cursor) : c.faults.size ≤ c.listen.advance.faults.size :=
  Reaches.le_size (c := c.listen) (.single .advance)

theorem Statements.le_size (h : Statements limit c es c') : c.faults.size ≤ c'.faults.size := by
  induction h with
  | finish => exact Nat.le_refl _
  | empty _ _ ih => exact Nat.le_trans (Cursor.le_size_next _) ih
  | last _ _ he => exact he.reaches.le_size
  | cons _ _ he _ _ ih =>
    exact Nat.le_trans he.reaches.le_size (Nat.le_trans (Cursor.le_size_next _) ih)
  | broken _ _ he _ _ hk _ ih => exact Nat.le_trans (reaches_broken he hk).le_size ih

/-- **The statements of a text without faults are well formed.** -/
theorem wellFormed_of_statements (h : Statements limit c es c') (hf : c'.faults.size = 0) :
    ∀ e ∈ es, e.WellFormed := by
  have hone : ∀ {c e c₁}, Parses limit limit (.nested .expression) (Cursor.listen c) e c₁ →
      c₁.faults.size = 0 → e.WellFormed := by
    intro c e c₁ he hf
    exact formed_of_parses he (he.reaches.listens_of_size rfl (hf ▸ Nat.zero_le _)) trivial
  induction h with
  | finish => exact nofun
  | empty _ _ ih => exact ih hf
  | last _ _ he => exact List.forall_mem_singleton.2 (hone he hf)
  | @cons c e c₁ es c' _ _ he _ hs ih =>
    have hle : c₁.faults.size ≤ c'.faults.size :=
      Nat.le_trans c₁.le_size_next hs.le_size
    exact List.forall_mem_cons.2 ⟨hone he (by omega), ih hf⟩
  | @broken c e c₁ c₂ es c' _ _ he _ _ hk hs =>
    -- the token behind the statement is recorded as a fault
    have hle := Nat.le_trans hk.reaches.le_size hs.le_size
    have hreaches := he.reaches.trans Cursor.moves_unexpected.to_reflTransGen
    have hlistens := Cursor.Reaches.listens_of_size hreaches rfl (by omega)
    exact absurd c₁.silent_unexpected (by rw [hlistens]; nofun)

theorem wellFormed_sequenceOf (h : ∀ e ∈ es, e.WellFormed) : (sequenceOf es).WellFormed := by
  unfold sequenceOf
  split
  · exact h _ List.mem_cons_self
  · exact wellFormed_of_parts trivial h

end Statements

/-- **A text without faults has no tree that is not formed**: none is invalid, the rows of a matrix
are two or more and equally long, `cases` have a branch, and the loops that have a default are those
whose form takes one. -/
theorem formed_of_within_parse {limit : Nat} {source : String} (h : (parse limit source).2 = []) :
    ∀ e : Expr, e.Within (parse limit source).1 → e.Formed := by
  obtain ⟨es, c, hs⟩ := exists_statements limit (Cursor.start (Lexer.lex source))
  rw [parse_of_statements hs] at h ⊢
  exact wellFormed_sequenceOf (wellFormed_of_statements hs (by simpa using h))

/-- A matrix, and a loop with a default over branches. -/
def shapedForms : String := "m = [1, 2; 3, 4]; defaultfor(i, m, cases(i > 2, i, 0), 7)"

theorem formed_of_within_shapedForms : (parse defaultLimit shapedForms).2 = [] ∧
    ∀ e : Expr, e.Within (parse defaultLimit shapedForms).1 → e.Formed := by
  have h : (parse defaultLimit shapedForms).2 = [] := by decide +kernel
  exact ⟨h, formed_of_within_parse h⟩

end Parser

end FormulaLang
