import FormulaLang.Proofs.Engine.Calm
import Mathlib.Logic.Function.Iterate

/-!
# Names that stay bound

An assignment to a bound name gives it another value in place, and what is bound in a block hides
other bindings only until the block is left. So a name that has a value keeps having one.

* `Environment.Bound`: a name has a value other than invalid.
* `Environment.Kept`: the same bindings, with other values.
* `Environment.Grows`: bound names stay bound, also behind the blocks around.
* `Environment.Grows.leave`: blocks.
* **`Environment.grows_addVariable`**, **`Environment.grows_setVariable`**: binding and assigning.
-/

namespace FormulaLang

namespace Environment

open ScopedTable

variable {env env' env'' : Environment} {held : List Nat} {name other : String} {v : Value}

/-- A variable holds a value other than invalid. -/
def Valid (env : Environment) (w : Variable) : Prop := (env.read w).isInvalid = false

/-- A name has a value other than invalid. -/
def Bound (env : Environment) (name : String) : Prop :=
  ∃ v, env.value? name = some v ∧ v.isInvalid = false

/-- Only what cells of the host for any value hold may be invalid. -/
theorem Valid.mono {w : Variable} (h : env.Valid w) (hvalues : ∀ cell,
    (env.store.value cell).isInvalid = false → (env'.store.value cell).isInvalid = false) :
    env'.Valid w := by
  cases w with
  | number cell => rfl
  | value v => exact h
  | host cell =>
    cases cell with
    | number cell | bool cell => rfl
    | value cell => exact hvalues cell h

theorem valid_leave {w : Variable} : env.leave.Valid w ↔ env.Valid w := by
  unfold Valid Environment.read
  rw [store_leave]

theorem Sound.bound_iff (h : env.Sound held) : env.Bound name ↔
    ∃ i w, LastAt env.vars.frame name i ∧ env.vars.value? i = some w ∧ env.Valid w := by
  unfold Bound Environment.value?
  rw [get?_eq]
  constructor
  · rintro ⟨v, hv, hvalid⟩
    cases hi : env.vars.index[name]? with
    | none => simp [hi] at hv
    | some i =>
      cases hw : env.vars.value? i with
      | none => simp [hi, hw] at hv
      | some w =>
        simp only [hi, hw, Option.bind_some, Option.some.injEq] at hv
        exact ⟨i, w, (h.vars.index name i).1 hi, hw, by rw [Valid, hv, hvalid]⟩
  · rintro ⟨i, w, hi, hw, hvalid⟩
    rw [(h.vars.index name i).2 hi]
    exact ⟨env.read w, by simp [hw], hvalid⟩

/-! ## The same bindings with other values -/

/-- The same names are bound at the same levels, and to something valid wherever they were. -/
structure Kept (env env' : Environment) : Prop where
  level : env'.level = env.level
  frame : env'.vars.frame = env.vars.frame
  valid : ∀ i w, env.vars.value? i = some w → env.Valid w →
    ∃ w', env'.vars.value? i = some w' ∧ env'.Valid w'

namespace Kept

theorem bound (h : env.Kept env') (hs : env.Sound held) (hs' : env'.Sound held)
    (hb : env.Bound name) : env'.Bound name := by
  obtain ⟨i, w, hi, hw, hvalid⟩ := hs.bound_iff.1 hb
  obtain ⟨w', hw', hvalid'⟩ := h.valid i w hw hvalid
  exact hs'.bound_iff.2 ⟨i, w', h.frame ▸ hi, hw', hvalid'⟩

/-- The bindings further out are the same, too. -/
theorem leave (h : env.Kept env') (hs : env.Sound held) (hs' : env'.Sound held) :
    env.leave.Kept env'.leave := by
  unfold Environment.leave
  rw [h.level]
  split
  · exact h
  · next level hl =>
    have hframe : (env'.vars.dropLevel (level + 1)).frame =
        (env.vars.dropLevel (level + 1)).frame := by
      rw [frame_dropLevel hs.varsLevel, frame_dropLevel hs'.varsLevel, h.frame]
    refine ⟨rfl, hframe, fun i w hw hvalid => ?_⟩
    obtain ⟨w', hw', hvalid'⟩ := h.valid i w (value?_dropLevel hw) hvalid
    -- What is bound at the place is still bound there.
    have hlt : i < (env'.vars.dropLevel (level + 1)).entries.size := by
      rw [← length_frame, hframe, length_frame]
      obtain ⟨e, he, -⟩ := Option.map_eq_some_iff.1 hw
      exact (Array.getElem?_eq_some_iff.1 he).1
    obtain ⟨w'', hw''⟩ : ∃ w'', (env'.vars.dropLevel (level + 1)).value? i = some w'' :=
      ⟨_, by rw [ScopedTable.value?, Array.getElem?_eq_getElem hlt]; rfl⟩
    obtain rfl := Option.some.inj ((value?_dropLevel hw'').symm.trans hw')
    exact ⟨w'', hw'', hvalid'⟩

/-- Other values in cells. -/
theorem of_store {store : Store} (h : ∀ w, env.Valid w → Valid { env with store } w) :
    env.Kept { env with store } :=
  ⟨rfl, rfl, fun _ w hw hvalid => ⟨w, hw, h w hvalid⟩⟩

end Kept

/-! ## Bound names stay bound -/

/-- Bound names stay bound, here and behind every number of blocks. -/
structure Grows (env env' : Environment) : Prop where
  level : env'.level = env.level
  bound : ∀ k name, (Environment.leave^[k] env).Bound name → (Environment.leave^[k] env').Bound name

namespace Grows

theorem refl (env : Environment) : env.Grows env := ⟨rfl, fun _ _ => id⟩

theorem trans (h : env.Grows env') (h' : env'.Grows env'') : env.Grows env'' :=
  ⟨h'.level.trans h.level, fun k name hb => h'.bound k name (h.bound k name hb)⟩

theorem here (h : env.Grows env') (hb : env.Bound name) : env'.Bound name := h.bound 0 name hb

theorem of_kept (h : env.Kept env') (hs : env.Sound held) (hs' : env'.Sound held) :
    env.Grows env' := by
  refine ⟨h.level, fun k name => ?_⟩
  induction k generalizing env env' with
  | zero => exact h.bound hs hs'
  | succ k ih => exact ih (h.leave hs hs') hs.leave hs'.leave

/-- **A block** in which bound names stay bound. -/
theorem leave (h : env.enter.Grows env') (hs : env.Sound held) : env.Grows env'.leave := by
  refine ⟨?_, fun k name hb => ?_⟩
  · unfold Environment.leave
    rw [h.level]
    rfl
  · rw [← Function.iterate_succ_apply]
    refine h.bound (k + 1) name ?_
    rwa [Function.iterate_succ_apply, hs.leave_enter]

end Grows

theorem Sound.bound_addVariable (h : env.Sound held) (hv : v.isInvalid = false)
    (hb : other = name ∨ env.Bound other) : (env.addVariable name v).Bound other := by
  unfold Bound
  rw [h.value?_addVariable]
  split
  · exact ⟨v, rfl, hv⟩
  · next hne => exact hb.resolve_left hne

/-- What is bound in the current block is not seen behind it. -/
theorem kept_leave_addVariable (h : env.Sound held) (hl : env.level ≠ 0) (name : String)
    (v : Value) : env.leave.Kept (env.addVariable name v).leave := by
  obtain ⟨level, hlevel⟩ := Nat.exists_eq_succ_of_ne_zero hl
  have hs' := h.addVariable name v
  obtain ⟨w, hw⟩ := env.vars_addVariable name v
  have hleave : ∀ env : Environment, env.level = level + 1 →
      env.leave.level = level ∧ env.leave.vars = env.vars.dropLevel (level + 1) := by
    intro env hl
    unfold Environment.leave
    rw [hl]
    exact ⟨rfl, rfl⟩
  obtain ⟨hl₁, hv₁⟩ := hleave env hlevel
  obtain ⟨hl₂, hv₂⟩ := hleave _ ((env.level_addVariable name v).trans hlevel)
  have hbindings : (env.addVariable name v).leave.vars.bindings = env.leave.vars.bindings := by
    rw [hv₁, hv₂, bindings_dropLevel h.varsLevel, bindings_dropLevel hs'.varsLevel, hw,
      below_add (Nat.le_of_eq hlevel.symm)]
  have hframe : (env.addVariable name v).leave.vars.frame = env.leave.vars.frame := by
    rw [← map_bindings, hbindings, map_bindings]
  refine ⟨hl₂.trans hl₁.symm, hframe, fun i u hu hvalid => ⟨u, ?_, ?_⟩⟩
  · have := congrArg (fun bs => (bs[i]?).map fun b => b.2.2) hbindings
    simp only [getElem?_bindings, Option.map_map] at this
    exact this.trans hu
  · -- New cells do not change what was bound before.
    have hread := (env.retains_addVariable name v).read u fun cell hc =>
      h.cells.lt_of_numberCell? (value?_dropLevel (hv₁ ▸ hu)) hc
    rw [valid_leave] at hvalid ⊢
    rw [Valid, hread]
    exact hvalid

/-- **Binding a name to a valid value.** -/
theorem grows_addVariable (h : env.Sound held) (name : String) (hv : v.isInvalid = false) :
    env.Grows (env.addVariable name v) := by
  refine ⟨env.level_addVariable name v, fun k other hb => ?_⟩
  by_cases hl : env.level = 0
  · have hfix : ∀ env : Environment, env.level = 0 → env.leave = env := by
      intro env hl
      unfold Environment.leave
      rw [hl]
    rw [Function.iterate_fixed (hfix _ ((env.level_addVariable name v).trans hl))]
    rw [Function.iterate_fixed (hfix _ hl)] at hb
    exact h.bound_addVariable hv (.inr hb)
  · cases k with
    | zero => exact h.bound_addVariable hv (.inr hb)
    | succ k =>
      have hkept := kept_leave_addVariable h hl name v
      exact (Grows.of_kept hkept h.leave (h.addVariable name v).leave).bound k other hb

/-- Rebinding a name changes one binding, to a valid value. -/
theorem kept_rebind (h : env.Sound held) {i : Nat} (hi : env.vars.index[name]? = some i)
    (hv : v.isInvalid = false) : env.Kept (env.rebind name v) := by
  have hat := fun w => h.vars.value?_modify_const (v := w) ((h.vars.index name i).1 hi)
  have hkept : ∀ (w : Variable) (store : Store), (∀ cell, store.value cell = env.store.value cell) →
      Valid { env with vars := env.vars.modify name fun _ => w, store } w →
      env.Kept { env with vars := env.vars.modify name fun _ => w, store } := by
    intro w store hstore hw
    refine ⟨rfl, frame_modify, fun j u hu hvalid => ?_⟩
    by_cases hj : j = i
    · exact ⟨w, (hat w j).trans (if_pos hj), hw⟩
    · exact ⟨u, ((hat w j).trans (if_neg hj)).trans hu,
        hvalid.mono fun cell hc => (hstore cell).symm ▸ hc⟩
  unfold rebind
  split
  · exact hkept _ _ (fun _ => rfl) rfl
  · exact hkept _ _ (fun _ => rfl) hv

theorem kept_writeHost {cell : HostCell} (hv : v.isInvalid = false) :
    env.Kept (env.writeHost name cell v).1 := by
  unfold writeHost
  split
  · exact .of_store fun w hw => hw.mono fun _ => id
  · exact .of_store fun w hw => hw.mono fun _ => id
  · next cell v =>
    refine .of_store fun w hw => hw.mono fun other hc => ?_
    unfold Store.value Store.setValue at *
    dsimp only
    rw [Array.getD_eq_getD_getElem?, Array.getElem?_setIfInBounds]
    rw [Array.getD_eq_getD_getElem?] at hc
    split
    · split
      · exact hv
      · rfl
    · exact hc
  · exact .of_store fun w hw => hw
  · exact .of_store fun w hw => hw

/-- A name is bound to what it is rebound to. -/
theorem bound_rebind (h : env.Sound held) {i : Nat} (hi : env.vars.index[name]? = some i)
    (hv : v.isInvalid = false) : (env.rebind name v).Bound name := by
  have hat := (h.vars.index name i).1 hi
  obtain ⟨w, store, -, hr, -, -, hread⟩ := env.exists_storage v
  have hs' := h.rebind hi v
  rw [hr] at hs' ⊢
  refine hs'.bound_iff.2 ⟨i, w, ?_, ?_, by rw [Valid, hread, hv]⟩
  · rw [show ScopedTable.frame _ = _ from frame_modify]
    exact hat
  · exact (h.vars.value?_modify_const hat i).trans (if_pos rfl)

/-- A cell of the host never holds an invalid value behind writing a valid one. -/
theorem valid_writeHost {cell : HostCell} (hv : v.isInvalid = false) :
    (env.writeHost name cell v).1.Valid (.host cell) := by
  cases cell with
  | number cell | bool cell => rfl
  | value cell =>
    change ((env.store.setValue cell v).value cell).isInvalid = false
    unfold Store.value Store.setValue
    rw [Array.getD_eq_getD_getElem?, Array.getElem?_setIfInBounds, if_pos rfl]
    split
    · exact hv
    · rfl

theorem vars_writeHost {cell : HostCell} : (env.writeHost name cell v).1.vars = env.vars := by
  unfold writeHost
  split <;> rfl

/-- **A name is bound behind assigning a valid value to it**, whether its cell takes the value or
not. -/
theorem bound_setVariable (h : env.Sound held) (hv : v.isInvalid = false) :
    (env.setVariable name v).1.Bound name := by
  unfold setVariable
  cases hw : env.vars.get? name with
  | none => exact h.bound_addVariable hv (.inl rfl)
  | some w =>
    have hbound : ∀ env' : Environment, env'.vars = env.vars → env'.Valid w → env'.Bound name := by
      intro env' hvars hvalid
      refine ⟨env'.read w, ?_, hvalid⟩
      rw [Environment.value?, hvars, hw]
    obtain ⟨e, he, rfl⟩ := Option.map_eq_some_iff.1 hw
    obtain ⟨i, hi, -⟩ := h.vars.entry?_eq_some.1 he
    have hi := (h.vars.index name i).2 hi
    cases hval : e.value with
    | host cell =>
      rw [hval] at hbound
      exact hbound _ vars_writeHost (valid_writeHost hv)
    | value u => exact bound_rebind h hi hv
    | number cell =>
      rw [hval] at hbound
      dsimp only
      split
      · exact hbound _ rfl rfl
      · exact bound_rebind h hi hv

theorem functions_setVariable : (env.setVariable name v).1.functions = env.functions := by
  unfold setVariable
  split
  · exact env.functions_addVariable name v
  · unfold writeHost
    split <;> rfl
  · split
    · rfl
    · unfold rebind
      split <;> rfl
  · unfold rebind
    split <;> rfl

theorem level_setVariable : (env.setVariable name v).1.level = env.level := by
  unfold setVariable
  split
  · exact env.level_addVariable name v
  · unfold writeHost
    split <;> rfl
  · split
    · rfl
    · unfold rebind
      split <;> rfl
  · unfold rebind
    split <;> rfl

/-- Defining a function leaves names bound. -/
theorem grows_addFunction (h : env.Sound held) (name : String) (f : Function) :
    env.Grows (env.addFunction name f) :=
  .of_kept ⟨rfl, rfl, fun _ w hw hv => ⟨w, hw, hv⟩⟩ h (h.addFunction name f)

/-- **Assigning a valid value** leaves bound names bound. -/
theorem grows_setVariable (h : env.Sound held) (name : String) (hv : v.isInvalid = false) :
    env.Grows (env.setVariable name v).1 := by
  have hs' := h.setVariable name v
  unfold setVariable at hs' ⊢
  cases hw : env.vars.get? name with
  | none => exact grows_addVariable h name hv
  | some w =>
    rw [hw] at hs'
    refine Grows.of_kept ?_ h hs'
    obtain ⟨e, he, rfl⟩ := Option.map_eq_some_iff.1 hw
    obtain ⟨i, hi, -⟩ := h.vars.entry?_eq_some.1 he
    have hi := (h.vars.index name i).2 hi
    cases e.value with
    | host cell => exact kept_writeHost hv
    | value u => exact kept_rebind h hi hv
    | number cell =>
      dsimp only
      split
      · exact .of_store fun w hw => hw.mono fun _ => id
      · exact kept_rebind h hi hv

end Environment

end FormulaLang
