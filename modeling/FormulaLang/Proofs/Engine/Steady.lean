import FormulaLang.Proofs.Bytecode.Operands

/-!
# Formulas that assign nothing

Evaluating a formula of the numeric fragment without assignments changes nothing that can be read
afterwards: products bind their positions in blocks of their own.

* `Environment.Same`: the same bindings with the same values.
* `Idle`, **`idle_eval`**: evaluation without assignments.
-/

namespace FormulaLang

open Environment (Sound)
open Engine (Records)
open Eval (Moves)

/-! ## The same bindings -/

/-- The same bindings at the same level with the same values, in possibly more cells. -/
structure Environment.Same (env env' : Environment) : Prop extends Environment.KeepsCells env env' where
  level : env'.level = env.level
  functions : env'.functions = env.functions
  frame : env'.vars.frame = env.vars.frame
  value : ∀ i, env'.vars.value? i = env.vars.value? i

/-- What is bound below the current block is the same. -/
structure Environment.SameBelow (base env : Environment) : Prop extends
    Environment.KeepsCells base env, Environment.Extends base env where
  level : env.level = base.level + 1
  value : ∀ i < base.vars.entries.size, env.vars.value? i = base.vars.value? i

namespace Environment

variable {env env' base : Environment} {held : List Nat}

theorem Same.refl (env : Environment) : env.Same env := ⟨.refl env, rfl, rfl, rfl, fun _ => rfl⟩

theorem Same.trans (h : base.Same env) (h' : env.Same env') : base.Same env' :=
  ⟨h.toKeepsCells.trans h'.toKeepsCells, h'.level.trans h.level, h'.functions.trans h.functions,
    h'.frame.trans h.frame, fun i => (h'.value i).trans (h.value i)⟩

theorem Same.extends (h : env.Same env') : env.Extends env' :=
  ⟨h.functions, [], by rw [h.frame, List.append_nil], fun _ h => (by cases h)⟩

namespace SameBelow

theorem enter (env : Environment) : env.SameBelow env.enter :=
  ⟨⟨Nat.le_refl _, fun _ _ => rfl⟩, .enter env, rfl, fun _ _ => rfl⟩

theorem of_same (h : base.SameBelow env) (h' : env.Same env') : base.SameBelow env' :=
  ⟨h.toKeepsCells.trans h'.toKeepsCells, h.toExtends.trans h'.extends h'.level,
    h'.level.trans h.level, fun i hi => (h'.value i).trans (h.value i hi)⟩

theorem addVariable (h : base.SameBelow env) (hb : base.Sound held) (hs : env.Sound held)
    (name : String) (v : Value) : base.SameBelow (env.addVariable name v) := by
  have hl := env.level_addVariable name v
  refine ⟨h.toKeepsCells.trans (env.keepsCells_addVariable name v),
    h.toExtends.trans (hs.extends_addVariable name v) hl, hl.trans h.level, fun i hi => ?_⟩
  obtain ⟨w, hw⟩ := env.vars_addVariable name v
  obtain ⟨k, hk, hframe⟩ := hs.vars.add_spec name w env.level
  -- The binding that changes lies at the level of the block, above those of the base.
  obtain ⟨above, hf, -⟩ := h.frame
  have hne : i ≠ k := by
    rintro rfl
    rcases hframe with ⟨-, -, hi'⟩ | ⟨-, hi'⟩
    · rw [hf, List.getElem?_append_left (by rwa [ScopedTable.length_frame])] at hi'
      have := hb.varsLevel.le _ (List.mem_of_getElem? hi')
      rw [h.level] at this
      exact absurd this (Nat.not_succ_le_self _)
    · rw [hf, List.length_append, ScopedTable.length_frame] at hi'
      omega
  rw [hw, hk, if_neg hne, h.value i hi]

theorem leave (h : base.SameBelow env) (hb : base.Sound held) (hs : env.Sound held) :
    base.Same env.leave := by
  obtain ⟨hl, hf, hframe, hv⟩ := h.toExtends.leave hb hs h.level
  have hstore := env.store_leave
  refine ⟨⟨hstore ▸ h.size_le, fun cell hc => hstore ▸ h.number cell hc⟩, hl, hf, hframe,
    fun i => ?_⟩
  rcases Nat.lt_or_ge i base.vars.entries.size with hi | hi
  · rw [hv i hi, h.value i hi]
  · have hsize : env.leave.vars.entries.size = base.vars.entries.size := by
      rw [← ScopedTable.length_frame, hframe, ScopedTable.length_frame]
    rw [ScopedTable.value?, ScopedTable.value?, Array.getElem?_eq_none hi,
      Array.getElem?_eq_none (hsize ▸ hi)]

end SameBelow

end Environment

/-! ## Evaluation without assignments -/

/-- The functions are entries of the catalog. -/
def Environment.Catalogued (env : Environment) : Prop :=
  ∀ name f, env.function? name = some f → (name, f) ∈ Catalog.functions

/-- Nothing changes but the cells that no variable uses. -/
def Idle (held : List Nat) (st st' : Engine) : Prop :=
  st.env.Sound held → st.env.Catalogued → st'.env.Sound held ∧ st.env.Same st'.env

/-- A block is kept in which the base is as it was. -/
def KeepsBelow (held : List Nat) (base : Environment) (st st' : Engine) : Prop :=
  st.env.Sound held ∧ base.SameBelow st.env → st'.env.Sound held ∧ base.SameBelow st'.env

section Idle

variable {held : List Nat}

theorem Environment.Catalogued.of_functions {env env' : Environment} (h : env.Catalogued)
    (hf : env'.functions = env.functions) : env'.Catalogued := by
  intro name f hn
  unfold Environment.function? at hn
  rw [hf] at hn
  exact h name f hn

instance : Records (Idle held) where
  refl _ h _ := ⟨h, .refl _⟩
  trans h h' hs hc := by
    obtain ⟨hs₁, hsame⟩ := h hs hc
    obtain ⟨hs₂, hsame'⟩ := h' hs₁ (hc.of_functions hsame.functions)
    exact ⟨hs₂, hsame.trans hsame'⟩
  note _ _ h _ := ⟨h, .refl _⟩

instance (base : Environment) : Records (KeepsBelow held base) where
  refl _ h := h
  trans h h' hs := h' (h hs)
  note _ _ h := h

theorem idle_reduce {name : String} {body : Eval Value} {op : BinaryOp} {empty : Float}
    (hb : Moves (Idle held) body) (items : Items) :
    Moves (Idle held) (Eval.inBlock (reduce name body op empty items)) := by
  intro st hs hc
  have hitem : ∀ item, Moves (KeepsBelow held st.env) (withItem name body item) := by
    intro item
    refine moves_bind (fun st₁ h => ?_) fun _ st₁ h => ?_
    · exact ⟨h.1.addVariable name item, h.2.addVariable hs h.1 name item⟩
    · obtain ⟨hs₁, hsame⟩ := hb st₁ h.1 (hc.of_functions h.2.functions)
      exact ⟨hs₁, h.2.of_same hsame⟩
  have hreduce : Moves (KeepsBelow held st.env) (reduce name body op empty items) := by
    refine moves_overItems (fun acc item => ?_) _ _ _
    refine moves_bind (hitem item) fun v => moves_bind (moves_check _) fun next => ?_
    split <;> exact moves_pure _
  obtain ⟨hs', hbelow⟩ := hreduce (st.onEnv .enter) ⟨hs.enter, .enter st.env⟩
  exact ⟨hs'.leave, hbelow.leave hs hs'⟩

/-- A function with a fast path asks for nothing but to record a fault. -/
theorem moves_invoke_plain {R : Engine → Engine → Prop} [Records R] {name : String}
    (hn : Catalog.hasPlain name) {deeper : Deeper} {f : Function}
    (hf : (name, f) ∈ Catalog.functions) (vs : List Value) :
    Moves R (invoke deeper name f vs) := by
  unfold invoke
  split
  · exact moves_pure _
  split
  · exact moves_fail _
  cases deeper with
  | none => exact moves_bind moves_get fun _ => moves_fail _
  | some task =>
    have hr : ∀ r : Except Fault Value, Moves R ((Request.ofResult r).perform task) := by
      intro r
      cases r with
      | ok v => exact moves_pure v
      | error e => exact moves_bind (moves_report e) fun _ => moves_pure _
    rcases Catalog.plain_cases hf (Catalog.plain_of_hasPlain hf hn) with ⟨g, hg⟩ | ⟨g, hg⟩
    · obtain rfl : f = (Catalog.unaryMath name g).2 := congrArg Prod.snd hg
      simp only [descend, Catalog.unaryMath]
      split
      · split
        · exact moves_pure _
        · exact hr (.error _)
      · exact moves_pure _
    · obtain rfl : f = (Catalog.binaryMath name g).2 := congrArg Prod.snd hg
      simp only [descend, Catalog.binaryMath]
      split
      · exact hr _
      · exact moves_pure _

theorem idle_call {name : String} (hn : Catalog.hasPlain name) {deeper : Deeper}
    {args : Eval (List Value)} (ha : Moves (Idle held) args) {f : Function}
    (hf : (name, f) ∈ Catalog.functions) :
    Moves (Idle held) (args >>= fun vs => invoke deeper name f vs) :=
  moves_bind ha fun vs => moves_invoke_plain hn hf vs

section Trees

variable {deeper : Deeper}

mutual

/-- **Evaluating a formula that assigns nothing** changes nothing that can be read. -/
theorem idle_eval : ∀ e : Expr, e.numeric (fun _ => false) → Moves (Idle held) (eval deeper e)
  | .constant v, _ => moves_pure v
  | .var name, _ => by
    rw [eval]
    refine moves_bind (moves_value? name) fun v => ?_
    split
    · exact moves_pure _
    · exact moves_fail _
  | .unary op e, h => by
    rw [eval]
    exact moves_bind (idle_eval e (by simpa [Expr.numeric] using h)) fun v => moves_check _
  | .binary op a b, h | .compare op a b, h | .logical op a b, h => by
    simp only [Expr.numeric, Bool.and_eq_true] at h
    rw [eval]
    exact moves_bind (idle_eval a h.1) fun x => moves_bind (idle_eval b h.2) fun y => moves_check _
  | .sequence es, h => by
    simp only [Expr.numeric, Bool.and_eq_true] at h
    rw [eval]
    exact idle_evalSequence es h.2 .void
  | .cases bs (some e), h => by
    simp only [Expr.numeric, Bool.and_eq_true] at h
    rw [eval]
    exact idle_evalBranches bs h.1 _ (idle_eval e h.2)
  | .call name args, h => by
    simp only [Expr.numeric, Bool.and_eq_true] at h
    intro st hs hc
    cases hf : st.env.function? name with
    | none =>
      have heval : eval deeper (.call name args) st =
          Eval.fail (.undefinedFunction name) st := by
        rw [eval]
        change (match st.env.function? name with
          | none => Eval.fail (.undefinedFunction name)
          | some f => _) st = _
        rw [hf]
      rw [heval]
      exact moves_fail (R := Idle held) _ st hs hc
    | some f =>
      have hm := hc name f hf
      rw [Catalog.eval_call hm h.1 hf]
      exact idle_call h.1 (idle_evalAll args h.2) hm st hs hc
  | .loop .prod name (.range a d b) body none, h => by
    simp only [Expr.numeric, Bool.and_eq_true] at h
    obtain ⟨⟨⟨ha, hd⟩, hb⟩, hbody⟩ := h
    rw [eval, evalSource]
    refine moves_bind (moves_bind (idle_eval a ha) fun x => moves_bind (idle_evalOr _ d hd) fun y =>
      moves_bind (idle_eval b hb) fun z => moves_bind (moves_checkRange x y z) fun r =>
        moves_pure _) fun items => ?_
    split
    · exact moves_pure _
    · split
      · exact moves_pure _
      · exact idle_reduce (idle_eval body (by simpa using hbody)) _

theorem idle_evalAll : ∀ es : List Expr, Expr.numericAll (fun _ => false) es →
    Moves (Idle held) (evalAll deeper es)
  | [], _ => moves_pure _
  | e :: es, h => by
    simp only [Expr.numericAll, Bool.and_eq_true] at h
    rw [evalAll]
    exact moves_bind (idle_eval e h.1) fun v => moves_bind (idle_evalAll es h.2) fun vs =>
      moves_pure _

theorem idle_evalOr (missing : Value) : ∀ e : Option Expr,
    Expr.numericOption (fun _ => false) e → Moves (Idle held) (evalOr deeper missing e)
  | none, _ => moves_pure _
  | some e, h => idle_eval e h

theorem idle_evalBranches : ∀ bs : List (Expr × Expr), Expr.numericBranches (fun _ => false) bs →
    ∀ otherwise, Moves (Idle held) otherwise → Moves (Idle held) (evalBranches deeper bs otherwise)
  | [], _, otherwise, ho => ho
  | (c, e) :: rest, h, otherwise, ho => by
    simp only [Expr.numericBranches, Bool.and_eq_true] at h
    rw [evalBranches]
    refine moves_bind (idle_eval c h.1.1) fun v => ?_
    split
    · exact idle_eval e h.1.2
    · exact idle_evalBranches rest h.2 otherwise ho
    · split
      · exact moves_pure _
      · exact moves_fail _

theorem idle_evalSequence : ∀ es : List Expr, Expr.numericAll (fun _ => false) es →
    ∀ last, Moves (Idle held) (evalSequence deeper es last)
  | [], _, last => moves_pure _
  | e :: es, h, last => by
    simp only [Expr.numericAll, Bool.and_eq_true] at h
    rw [evalSequence]
    exact moves_bind (idle_eval e h.1) fun v => idle_evalSequence es h.2 v

end

end Trees

end Idle

end FormulaLang
