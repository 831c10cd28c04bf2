import FormulaLang.Proofs.Engine.Silent

/-!
# Evaluation in blocks

A computation that assigns nothing leaves the variables as they are, and the functions that are
bound further out than the current block. What it binds in a block of its own is gone with the
block.

* `ScopedTable.bindings`, `ScopedTable.below`: the bindings of a table, and those further out.
* `Environment.Calm`: the same variables, and the same functions further out.
* `Environment.Inside`: a block on top of an environment.
* **`Environment.Inside.leave`**: behind the block everything is as it was.
-/

namespace FormulaLang

open Eval (Moves Silent)

/-! ## Bindings -/

namespace ScopedTable

variable {α : Type} {t t' : ScopedTable α} {name : String} {level l i : Nat} {v : α}

/-- The names with their levels and values, oldest first. -/
def bindings (t : ScopedTable α) : List (String × Nat × α) :=
  t.entries.toList.map fun e => (e.name, e.level, e.value)

/-- The bindings further out than a level. -/
def below (t : ScopedTable α) (level : Nat) : List (String × Nat × α) :=
  t.bindings.filter (·.2.1 < level)

theorem map_bindings (t : ScopedTable α) : t.bindings.map (fun b => (b.1, b.2.1)) = t.frame := by
  rw [bindings, List.map_map]
  rfl

theorem getElem?_bindings :
    t.bindings[i]? = t.entries[i]?.map fun e => (e.name, e.level, e.value) := by
  rw [bindings, List.getElem?_map, Array.getElem?_toList]

/-- Names mean the same in tables with the same bindings. -/
theorem Coherent.get?_congr (h : t.Coherent) (h' : t'.Coherent) (hb : t'.bindings = t.bindings)
    (name : String) : t'.get? name = t.get? name := by
  have hframe : t'.frame = t.frame := by rw [← map_bindings, hb, map_bindings]
  have hindex : t'.index[name]? = t.index[name]? :=
    Option.ext fun i => by rw [h'.index, h.index, hframe]
  have hvalue : ∀ i, t'.value? i = t.value? i := by
    intro i
    have hi := congrArg (fun bs => (bs[i]?).map fun b => b.2.2) hb
    rw [getElem?_bindings, getElem?_bindings, Option.map_map, Option.map_map] at hi
    exact hi
  rw [get?_eq, get?_eq, hindex, funext hvalue]

theorem below_push (hl : l ≤ level) : (t.push name v level).below l = t.below l := by
  simp [below, bindings, push, List.filter_append, hl]

/-- A binding at a level is not seen further out. -/
theorem below_add (hl : l ≤ level) : (t.add name v level).below l = t.below l := by
  rcases t.add_cases name v level with ⟨e, he, hel, ha⟩ | ⟨-, ha⟩
  · unfold entry? at he
    rw [ha, modify]
    cases hi : t.index[name]? with
    | none => rfl
    | some k =>
      simp only [hi] at he
      obtain ⟨hk, rfl⟩ := Array.getElem?_eq_some_iff.1 he
      -- Only one entry changes, and neither what it was nor what it is counts.
      have hsplit := List.take_append_drop k t.entries.toList
      have hk' : k < t.entries.toList.length := by simpa using hk
      rw [List.drop_eq_getElem_cons hk'] at hsplit
      have hmodify : (t.entries.modify k fun e => { e with value := v }).toList =
          t.entries.toList.take k ++ { t.entries[k] with value := v } ::
            t.entries.toList.drop (k + 1) := by
        rw [Array.toList_modify, List.modify_eq_take_cons_drop hk']
        simp
      simp only [below, bindings, hmodify]
      conv_rhs => rw [← hsplit]
      have hge : ¬ t.entries[k].level < l := by omega
      simp [hge]
  · rw [ha, below_push hl]

theorem below_of_leveled (h : t.Leveled level) : t.below (level + 1) = t.bindings := by
  refine List.filter_eq_self.2 fun b hb => ?_
  have hmem : (b.1, b.2.1) ∈ t.frame := by
    rw [← map_bindings]
    exact List.mem_map_of_mem hb
  have := h.le _ hmem
  simp
  omega

/-- Dropping a level leaves what is further out. -/
theorem bindings_dropLevel (h : t.Leveled i) : (t.dropLevel level).bindings = t.below level := by
  rw [bindings, toList_dropLevel h, below, bindings, List.filter_map]
  rfl

end ScopedTable

namespace Environment

open ScopedTable

/-! ## Calm changes -/

/-- What variables are read as does not change, apart from cells that do not exist yet. -/
structure Retains (env env' : Environment) : Prop where
  size_le : env.store.numbers.size ≤ env'.store.numbers.size
  read : ∀ w, (∀ cell, w.numberCell? = some cell → cell < env.store.numbers.size) →
    env'.read w = env.read w

/-- The same variables at the same level, and the same functions further out. -/
structure Calm (env env' : Environment) : Prop extends Retains env env' where
  level : env'.level = env.level
  vars : env'.vars.bindings = env.vars.bindings
  functions : env'.functions.below env.level = env.functions.below env.level

/-- A block on top of an environment, which stays as it is. -/
structure Inside (base env : Environment) : Prop extends Retains base env where
  level : env.level = base.level + 1
  vars : env.vars.below (base.level + 1) = base.vars.bindings
  functions : env.functions.below (base.level + 1) = base.functions.bindings

variable {base env env' env'' : Environment} {held : List Nat} {name : String} {v : Value}

theorem Retains.refl (env : Environment) : env.Retains env := ⟨Nat.le_refl _, fun _ _ => rfl⟩

theorem Retains.trans (h : env.Retains env') (h' : env'.Retains env'') : env.Retains env'' :=
  ⟨Nat.le_trans h.size_le h'.size_le, fun w hw =>
    (h'.read w fun cell hc => Nat.lt_of_lt_of_le (hw cell hc) h.size_le).trans (h.read w hw)⟩

theorem Retains.of_store (h : env'.store = env.store) : env.Retains env' :=
  ⟨Nat.le_of_eq (by rw [h]), fun w _ => by unfold Environment.read; rw [h]⟩

theorem retains_addVariable (env : Environment) (name : String) (v : Value) :
    env.Retains (env.addVariable name v) := by
  unfold addVariable
  split
  · refine ⟨by simp [Store.pushNumber], fun w hw => ?_⟩
    unfold Environment.read
    split
    · exact congrArg Value.number (number_pushNumber _ _ (hw _ rfl))
    · exact congrArg Value.number (number_pushNumber _ _ (hw _ rfl))
    all_goals rfl
  · exact .of_store rfl

namespace Calm

theorem refl (env : Environment) : env.Calm env := ⟨.refl env, rfl, rfl, rfl⟩

theorem trans (h : env.Calm env') (h' : env'.Calm env'') : env.Calm env'' := by
  refine ⟨h.toRetains.trans h'.toRetains, h'.level.trans h.level, h'.vars.trans h.vars, ?_⟩
  have := h'.functions
  rw [h.level] at this
  exact this.trans h.functions

/-- Names have the values that they had. -/
theorem value? (h : env.Calm env') (hs : env.Sound held) (hs' : env'.Sound held) (name : String) :
    env'.value? name = env.value? name := by
  have hget := hs.vars.get?_congr hs'.vars h.vars name
  unfold Environment.value?
  rw [hget]
  cases hv : env.vars.get? name with
  | none => rfl
  | some w =>
    obtain ⟨e, he, rfl⟩ := Option.map_eq_some_iff.1 hv
    obtain ⟨i, -, hi⟩ := hs.vars.entry?_eq_some.1 he
    have hw : env.vars.value? i = some e.value := by rw [ScopedTable.value?, hi]; rfl
    exact congrArg some (h.read _ fun cell hc => hs.cells.lt_of_numberCell? hw hc)

theorem addFunction (env : Environment) (name : String) (f : Function) :
    env.Calm (env.addFunction name f) :=
  ⟨.of_store rfl, rfl, rfl, below_add (Nat.le_refl _)⟩

end Calm

namespace Inside

theorem enter (h : env.Sound held) : env.Inside env.enter :=
  ⟨.of_store rfl, rfl, below_of_leveled h.varsLevel, below_of_leveled h.functionsLevel⟩

theorem addVariable (h : base.Inside env) (name : String) (v : Value) :
    base.Inside (env.addVariable name v) := by
  obtain ⟨w, hw⟩ := env.vars_addVariable name v
  refine ⟨h.toRetains.trans (env.retains_addVariable name v),
    (env.level_addVariable name v).trans h.level, ?_, ?_⟩
  · rw [hw, below_add (Nat.le_of_eq h.level.symm), h.vars]
  · rw [functions_addVariable, h.functions]

theorem calm (h : base.Inside env) (hc : env.Calm env') : base.Inside env' := by
  refine ⟨h.toRetains.trans hc.toRetains, hc.level.trans h.level, ?_, ?_⟩
  · rw [below, hc.vars, ← below, h.vars]
  · have hf := hc.functions
    rw [h.level] at hf
    exact hf.trans h.functions

/-- **Behind a block everything is as it was**: the variables and the functions. -/
theorem leave (h : base.Inside env) (hs : env.Sound held) :
    base.Calm env.leave ∧ env.leave.functions.bindings = base.functions.bindings := by
  have hleave : env.leave = { env with
      vars := env.vars.dropLevel (base.level + 1)
      functions := env.functions.dropLevel (base.level + 1)
      level := base.level } := by
    unfold Environment.leave
    rw [h.level]
  have hf : env.leave.functions.bindings = base.functions.bindings := by
    rw [hleave]
    exact (bindings_dropLevel hs.functionsLevel).trans h.functions
  refine ⟨⟨h.toRetains.trans (.of_store env.store_leave), ?_, ?_, ?_⟩, hf⟩
  · rw [hleave]
  · rw [hleave]
    exact (bindings_dropLevel hs.varsLevel).trans h.vars
  · rw [below, hf, ← below]

end Inside

/-- Behind a block names have the functions that they had. -/
theorem Inside.function?_leave (h : base.Inside env) (hb : base.Sound held) (hs : env.Sound held)
    (name : String) : env.leave.function? name = base.function? name :=
  hb.functions.get?_congr hs.leave.functions (h.leave hs).2 name

/-! ## Bound names -/

/-- Binds names one after the other. -/
def addVariables (env : Environment) (pairs : List (String × Value)) : Environment :=
  pairs.foldl (fun env p => env.addVariable p.1 p.2) env

theorem Inside.addVariables (h : base.Inside env) (pairs : List (String × Value)) :
    base.Inside (env.addVariables pairs) := by
  induction pairs generalizing env with
  | nil => exact h
  | cons p pairs ih => exact ih (h.addVariable p.1 p.2)

theorem Sound.addVariables (h : env.Sound held) (pairs : List (String × Value)) :
    (env.addVariables pairs).Sound held := by
  induction pairs generalizing env with
  | nil => exact h
  | cons p pairs ih => exact ih (h.addVariable p.1 p.2)

theorem functions_addVariables (env : Environment) (pairs : List (String × Value)) :
    (env.addVariables pairs).functions = env.functions := by
  induction pairs generalizing env with
  | nil => rfl
  | cons p pairs ih => exact (ih _).trans (env.functions_addVariable p.1 p.2)

namespace Sound

/-- The value of a name after another one was bound. -/
theorem value?_addVariable (h : env.Sound held) (name : String) (v : Value) (other : String) :
    (env.addVariable name v).value? other = if other = name then some v else env.value? other := by
  obtain ⟨w, store, ha, -, -, -, hread⟩ := env.exists_storage v
  have hretains := env.retains_addVariable name v
  rw [ha] at hretains ⊢
  unfold Environment.value?
  dsimp only
  rw [h.vars.get?_add]
  by_cases hn : other = name
  · rw [if_pos hn, if_pos hn]
    exact congrArg some (hread _)
  · rw [if_neg hn, if_neg hn]
    cases hv : env.vars.get? other with
    | none => rfl
    | some u =>
      obtain ⟨e, he, rfl⟩ := Option.map_eq_some_iff.1 hv
      obtain ⟨i, -, hi⟩ := h.vars.entry?_eq_some.1 he
      have hw : env.vars.value? i = some e.value := by rw [ScopedTable.value?, hi]; rfl
      exact congrArg some (hretains.read _ fun cell hc => h.cells.lt_of_numberCell? hw hc)

/-- The function of a name after another one was bound. -/
theorem function?_addFunction (h : env.Sound held) (name : String) (f : Function) (other : String) :
    (env.addFunction name f).function? other =
      if other = name then some f else env.function? other :=
  h.functions.get?_add other

end Sound

end Environment

/-! ## Calls -/

section Calls

variable {st st' : Engine} {name : String} {args : List Expr} {v : Value} {deeper : Deeper}

/-- What is called without a fault is a function. -/
theorem exists_function_of_silent (h : Silent (eval deeper (.call name args)) st v st') :
    ∃ f, st.env.function? name = some f := by
  unfold Silent at h
  rw [eval_call] at h
  cases hf : st.env.function? name with
  | none =>
    rw [hf] at h
    exact absurd h not_silent_fail
  | some f => exact ⟨f, rfl⟩

/-- **A call of a function of a formula** evaluates its body one level deeper: with parameters, in a
block in which they are bound. -/
theorem silent_invoke_user {n : Nat} {params : List String} {body : Expr} {vs : List Value}
    (h : Silent (invoke (deeperAt n) name (.user params body) vs) st v st') :
    vs.any Value.isInvalid = true ∧ st' = st ∧ v = .invalid ∨
      vs.length = params.length ∧ ∃ k, n = k + 1 ∧
        (params = [] ∧ Silent (eval (deeperAt k) body) st v st' ∨
          params ≠ [] ∧ ∃ st₁, Silent (eval (deeperAt k) body)
            (st.onEnv fun env => env.enter.addVariables (params.zip vs)) v st₁ ∧
            st'.env = st₁.env.leave) := by
  unfold invoke at h
  split at h
  · next hi =>
    obtain ⟨rfl, rfl⟩ := silent_pure h
    exact .inl ⟨hi, rfl, rfl⟩
  · by_cases hlen : vs.length = params.length
    · refine .inr ⟨hlen, ?_⟩
      have harity : (Function.user params body).arity.filter (· ≠ vs.length) = none := by
        simp [Function.user, Option.filter, hlen]
      rw [harity] at h
      cases n with
      | zero => exact absurd (show Silent (Eval.fail _) st v st' from h) not_silent_fail
      | succ k =>
        refine ⟨k, rfl, ?_⟩
        change Silent (callUser (performAt k) params body vs) st v st' at h
        unfold callUser at h
        rw [performAt_evaluate] at h
        cases params with
        | nil => exact .inl ⟨rfl, h⟩
        | cons param params => exact .inr ⟨List.cons_ne_nil _ _, silent_inBlock h⟩
    · have harity : (Function.user params body).arity.filter (· ≠ vs.length) =
          some params.length := by
        simp [Function.user, Option.filter, Ne.symm hlen]
      rw [harity] at h
      exact absurd h not_silent_fail

/-- A call of a function of one parameter with a value: its body in a block with the parameter. -/
theorem eval_call_single {n : Nat} {param : String} {body : Expr} {v : Value} {st : Engine}
    (hf : st.env.function? name = some (.user [param] body)) (hv : v.isInvalid = false) :
    eval (deeperAt (n + 1)) (.call name [.constant v]) st =
      let r := eval (deeperAt n) body (st.onEnv fun env => env.enter.addVariable param v)
      (r.1, r.2.onEnv (·.leave)) := by
  rw [eval_call, hf, ← performAt_evaluate]
  change invoke (deeperAt (n + 1)) name (.user [param] body) [v] st = _
  unfold invoke
  rw [List.any_cons, hv]
  rfl

/-- A call of a function of one parameter with a number. -/
theorem eval_call_unary {n : Nat} {param : String} {body : Expr} {x : Float} {st : Engine}
    (hf : st.env.function? name = some (.user [param] body)) :
    eval (deeperAt (n + 1)) (.call name [.constant (.number x)]) st =
      let r := eval (deeperAt n) body
        (st.onEnv fun env => env.enter.addVariable param (.number x))
      (r.1, r.2.onEnv (·.leave)) :=
  eval_call_single hf rfl

end Calls

end FormulaLang
