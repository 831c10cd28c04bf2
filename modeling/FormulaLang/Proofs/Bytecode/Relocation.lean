import FormulaLang.Proofs.Bytecode.Lowering
import FormulaLang.Proofs.Environment.Anchored

/-!
# The cell of a name in code

Compiling looks a variable up once and puts its cell into the code. In an environment where the
variable is in another cell, the same tree therefore has the same code with this other cell in the
instructions that belong to the variable, and only in these.

* `Environment.relocate`: the environment with a variable in another cell of the host.
* `Matches`: two computations of code that fail alike or give related results with the same slots.
* `Relocated`: instructions that are the same, apart from the cell of the variable.
* **`relocated_compile`**: the code of a tree in both environments.
* `BelongsTo`, **`BelongsTo.uses_cell`**: the instructions that belong to a variable use its cell.
-/

namespace FormulaLang

/-- The variable of a name is in another number cell of the host. -/
def Environment.relocate (env : Environment) (name : String) (cell : Nat) : Environment :=
  { env with vars := env.vars.modify name fun _ => .host (.number cell) }

namespace Bytecode

/-! ## Computations beside each other -/

/-- Results that are related, with the same slots, or the same fault. -/
inductive SameResult {α β : Type} (R : α → β → Prop) :
    Except Fault (α × Slots) → Except Fault (β × Slots) → Prop where
  | ok {a : α} {b : β} (s : Slots) (h : R a b) : SameResult R (.ok (a, s)) (.ok (b, s))
  | error (f : Fault) : SameResult R (.error f) (.error f)

/-- From the same slots two computations have related results or the same fault. -/
def Matches {α β : Type} (R : α → β → Prop) (x : Lower α) (y : Lower β) : Prop :=
  ∀ s, SameResult R (x.run s) (y.run s)

section Matches

variable {α β γ δ : Type} {R : α → β → Prop} {S : γ → δ → Prop}

theorem matches_pure {a : α} {b : β} (h : R a b) : Matches R (pure a) (pure b) := fun s => .ok s h

theorem matches_throw (f : Fault) : Matches R (throw f) (throw f) := fun _ => .error f

theorem matches_refl (x : Lower α) : Matches Eq x x := by
  intro s
  rcases x.run s with f | ⟨a, s'⟩
  · exact .error f
  · exact .ok s' rfl

theorem Matches.bind {x : Lower α} {y : Lower β} {f : α → Lower γ} {g : β → Lower δ}
    (h : Matches R x y) (hf : ∀ a b, R a b → Matches S (f a) (g b)) :
    Matches S (x >>= f) (y >>= g) := by
  intro s
  rw [StateT.run_bind, StateT.run_bind]
  have hs := h s
  generalize x.run s = r, y.run s = r' at hs
  cases hs with
  | ok s' hab => exact hf _ _ hab s'
  | error e => exact .error e

/-- The same computation first. -/
theorem Matches.bind_same (x : Lower α) {f : α → Lower γ} {g : α → Lower δ}
    (hf : ∀ a, Matches S (f a) (g a)) : Matches S (x >>= f) (x >>= g) :=
  (matches_refl x).bind fun a _ h => h ▸ hf a

end Matches

/-! ## Code beside each other -/

/-- Instructions that are the same, apart from a cell that is another one. -/
inductive Relocated (cell other : Nat) : Instruction → Instruction → Prop where
  | same (i : Instruction) : Relocated cell other i i
  | read : Relocated cell other (.readCell cell) (.readCell other)
  | write : Relocated cell other (.writeCell cell) (.writeCell other)

/-- Pieces of code in which some cells are others. -/
abbrev RelocatedCode (cell other : Nat) : Code → Code → Prop := List.Forall₂ (Relocated cell other)

section Code

variable {cell other : Nat} {c c' d d' r r' : Code}

theorem relocatedCode_refl (code : Code) : RelocatedCode cell other code code :=
  List.forall₂_same.2 fun i _ => .same i

theorem RelocatedCode.append (h : RelocatedCode cell other c c') (h' : RelocatedCode cell other d d') :
    RelocatedCode cell other (c ++ d) (c' ++ d') := List.rel_append h h'

theorem RelocatedCode.cons (i : Instruction) (h : RelocatedCode cell other c c') :
    RelocatedCode cell other (i :: c) (i :: c') := List.Forall₂.cons (.same i) h

theorem RelocatedCode.concat (h : RelocatedCode cell other c c') (i : Instruction) :
    RelocatedCode cell other (c ++ [i]) (c' ++ [i]) := h.append (relocatedCode_refl _)

/-- Jumps over code of the same length are the same. -/
theorem RelocatedCode.branch (hc : RelocatedCode cell other c c')
    (hd : RelocatedCode cell other d d') (hr : RelocatedCode cell other r r') :
    RelocatedCode cell other (branchCode c d r) (branchCode c' d' r') := by
  unfold branchCode
  rw [hd.length_eq, hr.length_eq]
  exact (((hc.append (relocatedCode_refl _)).append hd).append (relocatedCode_refl _)).append hr

theorem RelocatedCode.loop (l : LoopSlots) (op : BinaryOp) (h : RelocatedCode cell other c c') :
    RelocatedCode cell other (loopCode l op c) (loopCode l op c') := by
  unfold loopCode
  have hround := h.append (relocatedCode_refl (.arithmetic op :: loopAdvance l))
  simp only [hround.length_eq]
  exact ((relocatedCode_refl _).append (hround.cons _)).append (relocatedCode_refl _)

end Code

/-! ## Looking up names -/

section Names

variable {env : Environment} {held : List Nat} {name other : String} {cell k : Nat}

theorem globalCell_of_hosts (h : env.Hosts name cell) : globalCell env name = .ok cell := by
  obtain ⟨e, he, hl, hv⟩ := h
  simp [globalCell, he, hl, hv, Variable.numberCell?]

theorem hosts_relocate (hs : env.Sound held) (h : env.Hosts name cell) (k : Nat) :
    (env.relocate name k).Hosts name k := by
  obtain ⟨e, he, hl, -⟩ := h
  obtain ⟨i, hi, hei⟩ := hs.vars.entry?_eq_some.1 he
  have hindex := (hs.vars.index name i).2 hi
  refine ⟨{ e with value := .host (.number k) }, hs.vars.modify.entry?_eq_some.2 ⟨i, ?_, ?_⟩, hl, rfl⟩
  · rwa [ScopedTable.frame_modify]
  · rw [ScopedTable.getElem?_modify, if_pos hindex, hei]
    rfl

theorem globalCell_relocate (hs : env.Sound held) (hne : other ≠ name) :
    globalCell (env.relocate name k) other = globalCell env other := by
  have hentry : (env.relocate name k).vars.entry? other = env.vars.entry? other := by
    show ScopedTable.entry? (env.vars.modify name _) other = _
    unfold ScopedTable.entry?
    rw [ScopedTable.index_modify]
    cases hi : env.vars.index[other]? with
    | none => rfl
    | some i =>
      refine (ScopedTable.getElem?_modify i).trans (if_neg fun hindex => hne ?_)
      obtain ⟨⟨_, h⟩, -⟩ := (hs.vars.index other i).1 hi
      obtain ⟨⟨_, h'⟩, -⟩ := (hs.vars.index name i).1 hindex
      rw [h] at h'
      cases h'
      rfl
  unfold globalCell
  rw [hentry]

theorem hasVariable_relocate : (env.relocate name k).hasVariable other = env.hasVariable other := by
  show (env.vars.modify name _).contains other = _
  unfold ScopedTable.contains
  rw [ScopedTable.index_modify]
  rfl

theorem matches_readName (hs : env.Sound held) (h : env.Hosts name cell) (k : Nat) (other : String) :
    Matches (RelocatedCode cell k) (readName env other) (readName (env.relocate name k) other) := by
  refine .bind_same _ fun s => ?_
  cases s.lookup? other with
  | some slot => exact matches_pure (relocatedCode_refl _)
  | none =>
    dsimp only
    by_cases hn : other = name
    · subst hn
      rw [globalCell_of_hosts h, globalCell_of_hosts (hosts_relocate hs h k)]
      exact matches_pure (List.Forall₂.cons .read .nil)
    · rw [globalCell_relocate hs hn]
      exact .bind_same _ fun c => matches_pure (relocatedCode_refl _)

theorem matches_writeName (hs : env.Sound held) (h : env.Hosts name cell) (k : Nat)
    (other : String) :
    Matches (RelocatedCode cell k) (writeName env other) (writeName (env.relocate name k) other) := by
  refine .bind_same _ fun s => ?_
  cases s.lookup? other with
  | some slot => exact matches_pure (relocatedCode_refl _)
  | none =>
    dsimp only
    rw [hasVariable_relocate]
    split
    · by_cases hn : other = name
      · subst hn
        rw [globalCell_of_hosts h, globalCell_of_hosts (hosts_relocate hs h k)]
        exact matches_pure (List.Forall₂.cons .write .nil)
      · rw [globalCell_relocate hs hn]
        exact .bind_same _ fun c => matches_pure (relocatedCode_refl _)
    · exact .bind_same _ fun slot => matches_pure (relocatedCode_refl _)

end Names

/-! ## Trees -/

section Trees

variable {env : Environment} {held : List Nat} {name : String} {cell k : Nat}
  {deeper deeper' : BodyLowering}

/-- Both lower bodies, or neither does. -/
inductive MatchingDeeper (cell k : Nat) : BodyLowering → BodyLowering → Prop where
  | none : MatchingDeeper cell k none none
  | some {body body' : Expr → Lower Code}
      (h : ∀ e, Matches (RelocatedCode cell k) (body e) (body' e)) :
      MatchingDeeper cell k (some body) (some body')

theorem matches_inlineCall (hd : MatchingDeeper cell k deeper deeper') (other : String) (f : Inline)
    {args args' : Lower Code} (ha : Matches (RelocatedCode cell k) args args') (count : Nat) :
    Matches (RelocatedCode cell k) (inlineCall deeper other f args count)
      (inlineCall deeper' other f args' count) := by
  refine .bind_same _ fun s => ?_
  cases hd with
  | none =>
    cases s.beginCall? other <;> exact matches_throw _
  | some hbody =>
    cases s.beginCall? other with
    | none => exact matches_throw _
    | some s' =>
      exact .bind_same _ fun _ => .bind_same _ fun _ => ha.bind fun code code' hc =>
        .bind_same _ fun slots => (hbody f.body).bind fun body body' hb =>
          .bind_same _ fun _ => .bind_same _ fun _ =>
            matches_pure ((hc.append (relocatedCode_refl _)).append hb)

theorem matches_environmentCall (other : String) {args args' : Lower Code}
    (ha : Matches (RelocatedCode cell k) args args') (count : Nat) :
    Matches (RelocatedCode cell k) (environmentCall env other args count)
      (environmentCall (env.relocate name k) other args' count) := by
  unfold environmentCall
  rw [show (env.relocate name k).function? other = env.function? other from rfl]
  cases env.function? other with
  | none => exact matches_throw _
  | some f =>
    exact .bind_same _ fun _ => ha.bind fun code code' hc => matches_pure (hc.concat _)

theorem matches_lowerLoop (op : BinaryOp) (seed : Float) (position : String)
    {start start' step step' stop stop' body body' : Lower Code}
    (ha : Matches (RelocatedCode cell k) start start') (hd : Matches (RelocatedCode cell k) step step')
    (hb : Matches (RelocatedCode cell k) stop stop')
    (hbody : Matches (RelocatedCode cell k) body body') :
    Matches (RelocatedCode cell k) (lowerLoop op seed position start step stop body)
      (lowerLoop op seed position start' step' stop' body') := by
  refine .bind_same _ fun stopSlot => hb.bind fun b b' hb => .bind_same _ fun stepSlot =>
    hd.bind fun d d' hd => ha.bind fun a a' ha => .bind_same _ fun positionSlot =>
      .bind_same _ fun previous => hbody.bind fun c c' hc => .bind_same _ fun _ => matches_pure ?_
  exact (((hb.cons _).append (hd.cons _)).append (ha.cons _)).append
    ((((hc.loop _ op).cons _).cons _).cons _)

set_option linter.unusedSectionVars false

variable (hs : env.Sound held) (hosts : env.Hosts name cell)
  (hd : MatchingDeeper cell k deeper deeper')

include hs hosts hd

mutual

/-- **Lowering a tree** in both environments. -/
theorem matches_lower : ∀ e : Expr, Matches (RelocatedCode cell k) (lower env deeper e)
    (lower (env.relocate name k) deeper' e)
  | .constant v => by
    cases v with
    | number x | bool b => exact matches_pure (relocatedCode_refl _)
    | _ => exact matches_throw _
  | .var other => matches_readName hs hosts k other
  | .unary op e => by
    rw [lower, lower]
    exact (matches_lower e).bind fun c c' hc => matches_pure (hc.concat _)
  | .binary op a b | .compare op a b | .logical op a b => by
    rw [lower, lower]
    exact (matches_lower a).bind fun c c' hc => (matches_lower b).bind fun d d' hd' =>
      matches_pure ((hc.append hd').concat _)
  | .assign other e => by
    rw [lower, lower]
    exact (matches_lower e).bind fun c c' hc => (matches_writeName hs hosts k other).bind
      fun w w' hw => matches_pure (hc.append (hw.cons _))
  | .cases bs o => by
    rw [lower, lower]
    exact matches_lowerBranches bs (matches_lowerOr noValue o)
  | .loop kind other source body default => by
    cases source with
    | items e =>
      cases kind <;> exact matches_throw _
    | range a d b =>
      cases kind with
      | sum | prod =>
        exact matches_lowerLoop _ _ other (matches_lower a) (matches_lowerOr _ d) (matches_lower b)
          (matches_lower body)
      | _ => exact matches_throw _
  | .sequence [] => matches_pure (relocatedCode_refl _)
  | .sequence (e :: es) => by
    rw [lower, lower]
    exact (matches_lower e).bind fun c c' hc => (matches_lowerRest es).bind fun d d' hd' =>
      matches_pure (hc.append hd')
  | .define other params body => .bind_same _ fun _ => matches_pure (relocatedCode_refl _)
  | .call other args => by
    rw [lower, lower]
    refine .bind_same _ fun s => ?_
    cases s.function? other with
    | some f => exact matches_inlineCall hd other f (matches_lowerArgs args) _
    | none => exact matches_environmentCall other (matches_lowerArgs args) _
  | .assignElement .. | .element .. | .index .. | .member .. | .range .. | .vector _ | .matrix _
  | .list _ | .invalid => matches_throw _

theorem matches_lowerArgs : ∀ es : List Expr, Matches (RelocatedCode cell k)
    (lowerArgs env deeper es) (lowerArgs (env.relocate name k) deeper' es)
  | [] => matches_pure (relocatedCode_refl _)
  | e :: es => by
    rw [lowerArgs, lowerArgs]
    exact (matches_lower e).bind fun c c' hc => (matches_lowerArgs es).bind fun d d' hd' =>
      matches_pure (hc.append hd')

theorem matches_lowerRest : ∀ es : List Expr, Matches (RelocatedCode cell k)
    (lowerRest env deeper es) (lowerRest (env.relocate name k) deeper' es)
  | [] => matches_pure (relocatedCode_refl _)
  | e :: es => by
    rw [lowerRest, lowerRest]
    exact (matches_lower e).bind fun c c' hc => (matches_lowerRest es).bind fun d d' hd' =>
      matches_pure ((hc.cons _).append hd')

theorem matches_lowerOr (missing : Code) : ∀ e : Option Expr, Matches (RelocatedCode cell k)
    (lowerOr env deeper missing e) (lowerOr (env.relocate name k) deeper' missing e)
  | none => matches_pure (relocatedCode_refl _)
  | some e => matches_lower e

theorem matches_lowerBranches : ∀ (bs : List (Expr × Expr)) {otherwise otherwise' : Lower Code},
    Matches (RelocatedCode cell k) otherwise otherwise' → Matches (RelocatedCode cell k)
      (lowerBranches env deeper bs otherwise)
      (lowerBranches (env.relocate name k) deeper' bs otherwise')
  | [], _, _, ho => ho
  | (c, e) :: bs, _, _, ho => by
    rw [lowerBranches, lowerBranches]
    exact (matches_lower c).bind fun c₁ c₁' h₁ => (matches_lower e).bind fun c₂ c₂' h₂ =>
      (matches_lowerBranches bs ho).bind fun c₃ c₃' h₃ => matches_pure (h₁.branch h₂ h₃)

end

end Trees

/-! ## Programs -/

section Programs

variable {env : Environment} {held : List Nat} {name : String} {cell k i : Nat} {e : Expr}
  {p : Program}

theorem matches_lowerAt (hs : env.Sound held) (hosts : env.Hosts name cell) (n : Nat) (e : Expr) :
    Matches (RelocatedCode cell k) (lowerAt env n e) (lowerAt (env.relocate name k) n e) := by
  induction n generalizing e with
  | zero => exact matches_lower hs hosts .none e
  | succ n ih => exact matches_lower hs hosts (.some ih) e

/-- **Compiling a tree** in both environments: the programs are the same, apart from the cell of the
variable. -/
theorem relocated_compile (hs : env.Sound held) (hosts : env.Hosts name cell)
    (h : compile env e = .ok p) (k : Nat) : ∃ q, compile (env.relocate name k) e = .ok q ∧
      RelocatedCode cell k p.code.toList q.code.toList := by
  have hm := matches_lowerAt (k := k) hs hosts (definitions e) e {}
  unfold compile at h ⊢
  generalize (lowerAt env (definitions e) e).run {} = r,
    (lowerAt (env.relocate name k) (definitions e) e).run {} = r' at hm h
  cases hm with
  | ok s hc =>
    cases h
    exact ⟨_, rfl, hc⟩
  | error f => cases h

/-- The instruction of a program at an address belongs to a variable: with the variable in some
other cell it would be another one. -/
def BelongsTo (env : Environment) (e : Expr) (p : Program) (name : String) (i : Nat) : Prop :=
  ∃ k q, compile (env.relocate name k) e = .ok q ∧ q.code[i]? ≠ p.code[i]?

/-- **The instructions that belong to a variable** use its cell. -/
theorem BelongsTo.uses_cell (hs : env.Sound held) (hosts : env.Hosts name cell)
    (h : compile env e = .ok p) (hi : BelongsTo env e p name i) :
    p.code[i]? = some (.readCell cell) ∨ p.code[i]? = some (.writeCell cell) := by
  obtain ⟨k, q, hq, hne⟩ := hi
  obtain ⟨q', hq', hcode⟩ := relocated_compile hs hosts h k
  obtain rfl : q' = q := Except.ok.inj (hq'.symm.trans hq)
  rw [← Array.getElem?_toList, ← Array.getElem?_toList] at hne
  rw [← Array.getElem?_toList]
  rcases Nat.lt_or_ge i p.code.toList.length with hlt | hge
  · have hlt' : i < q'.code.toList.length := hcode.length_eq ▸ hlt
    have hrel := List.Forall₂.get hcode hlt hlt'
    rw [List.getElem?_eq_getElem hlt, List.getElem?_eq_getElem hlt'] at hne
    rw [List.getElem?_eq_getElem hlt]
    simp only [List.get_eq_getElem] at hrel
    generalize p.code.toList[i] = a, q'.code.toList[i] = b at hrel hne
    cases hrel with
    | same => exact absurd rfl hne
    | read => exact .inl rfl
    | write => exact .inr rfl
  · rw [List.getElem?_eq_none hge, List.getElem?_eq_none (hcode.length_eq ▸ hge)] at hne
    exact absurd rfl hne

theorem compile_var (h : globalCell env name = .ok cell) :
    compile env (.var name) = .ok ⟨#[.readCell cell], 0⟩ := by
  have hrun : (lowerAt env 0 (.var name)).run {} = .ok ([.readCell cell], {}) := by
    simp only [lowerAt, lower, readName, run_bind_eq_ok, run_get_eq_ok]
    refine ⟨{}, {}, ⟨rfl, rfl⟩, ?_⟩
    show (do return [.readCell (← globalCell env name)] : Lower Code).run {} = _
    rw [h]
    rfl
  unfold compile
  rw [definitions, hrun]
  rfl

/-- The code of a name reads its cell in an instruction that belongs to it. -/
theorem belongsTo_var (hs : env.Sound held) (hosts : env.Hosts name cell) :
    BelongsTo env (.var name) ⟨#[.readCell cell], 0⟩ name 0 :=
  ⟨cell + 1, _, compile_var (globalCell_of_hosts (hosts_relocate hs hosts _)), by simp⟩

end Programs

end Bytecode

end FormulaLang
