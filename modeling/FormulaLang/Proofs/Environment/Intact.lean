import FormulaLang.Proofs.Engine.Bound
import FormulaLang.Proofs.Engine.Quiet
import FormulaLang.Proofs.Value.Whole

/-!
# Intact environments

An environment is intact if no variable holds anything invalid and the functions that can be called
are of a kind. Only what is seen can be called: a function that another one hides may be of any
kind, as long as it stays hidden while the blocks further out are not left.

* `Environment.Whole`: variables hold whole values, hidden or not.
* `ScopedTable.seen`: what a name is bound to as seen from a level.
* `Environment.Intact`: both, for the functions seen from a level or further in.
* `Intact.addVariable`, `Intact.setVariable`, `Intact.addFunction`, `Intact.enter`,
  **`Intact.leave`**: one lemma for each change.
-/

namespace FormulaLang

/-! ## Bindings seen from a level -/

namespace ScopedTable

variable {α : Type} {t : ScopedTable α} {name other : String} {level k l : Nat} {v w : α}

/-- The value of a name once the blocks further in than a level are left. -/
def seen (t : ScopedTable α) (level : Nat) (name : String) : Option α :=
  (t.dropLevel (level + 1)).get? name

theorem Leveled.seen_eq_get? (h : t.Leveled level) (hk : level ≤ k) :
    t.seen k name = t.get? name := by
  rw [seen, dropLevel_of_leveled (h.mono hk)]

/-- A binding at a level is seen from there and further in. -/
theorem seen_add (h : t.Coherent) (hl : t.Leveled level) (k : Nat) (other : String) :
    (t.add name v level).seen k other =
      if level ≤ k ∧ other = name then some v else t.seen k other := by
  by_cases hk : level ≤ k
  · rw [(hl.add).seen_eq_get? hk, hl.seen_eq_get? hk, h.get?_add]
    simp [hk]
  · rw [if_neg fun h => hk h.1]
    refine h.dropLevel.get?_congr (h.add).dropLevel ?_ other
    rw [bindings_dropLevel hl.add, bindings_dropLevel hl, below_add (by omega)]

/-- Leaving a block does not change what is seen from further out. -/
theorem seen_dropLevel (h : t.Coherent) (hl : t.Leveled (level + 1)) (k : Nat) :
    (t.dropLevel (level + 1)).seen k name = t.seen (min k level) name := by
  refine h.dropLevel.get?_congr h.dropLevel.dropLevel ?_ name
  rw [bindings_dropLevel hl.dropLevel, bindings_dropLevel hl, below, bindings_dropLevel hl, below,
    below, List.filter_filter]
  refine List.filter_congr fun b _ => ?_
  rw [← Bool.decide_and]
  exact decide_eq_decide.2 (by omega)

theorem mem_bindings_of_modify (h : (other, l, w) ∈ (t.modify name fun _ => v).bindings) :
    (other, l, w) ∈ t.bindings ∨ w = v := by
  obtain ⟨i, hframe, hvalue⟩ := mem_bindings.1 h
  rw [frame_modify] at hframe
  rw [value?_modify] at hvalue
  split at hvalue
  · obtain ⟨u, -, rfl⟩ := Option.map_eq_some_iff.1 hvalue
    exact .inr rfl
  · exact .inl (mem_bindings.2 ⟨i, hframe, hvalue⟩)

end ScopedTable

namespace Environment

open ScopedTable

variable {env env' : Environment} {held : List Nat} {base level : Nat} {name : String} {v : Value}
  {f : Function} {P : String → Function → Prop}

/-! ## Whole variables -/

/-- Variables hold whole values, be they visible or hidden. -/
def Whole (env : Environment) : Prop := ∀ b ∈ env.vars.bindings, (env.read b.2.2).whole

/-- Numbers and bools are whole, so that only the other cells of the host matter. -/
theorem whole_read_congr (h : env'.store.values = env.store.values) (w : Variable) :
    (env'.read w).whole = (env.read w).whole := by
  cases w with
  | host cell =>
    cases cell with
    | value k => simp only [Environment.read, Store.value, h]
    | _ => rfl
  | _ => rfl

namespace Whole

/-- Other bindings of whole values, and the same values in cells of the host. -/
theorem of_bindings (h : env.Whole) (hs : env'.store.values = env.store.values)
    (hb : ∀ b ∈ env'.vars.bindings, b ∈ env.vars.bindings ∨ (env'.read b.2.2).whole) :
    env'.Whole := by
  intro b hmem
  rcases hb b hmem with hold | hnew
  · rw [whole_read_congr hs]
    exact h b hold
  · exact hnew

theorem value? (h : env.Whole) (hs : env.Sound held) (hv : env.value? name = some v) : v.whole := by
  unfold Environment.value? at hv
  cases hw : env.vars.get? name with
  | none =>
    rw [hw] at hv
    cases hv
  | some w =>
    rw [hw] at hv
    cases hv
    obtain ⟨l, hl⟩ := hs.vars.mem_bindings_of_get? hw
    exact h _ hl

theorem addVariable (h : env.Whole) (hs : env.Sound held) (hv : v.whole) (name : String) :
    (env.addVariable name v).Whole := by
  obtain ⟨w, store, hadd, -, -, -, hread⟩ := env.exists_storage v
  have hvalues : (env.addVariable name v).store.values = env.store.values := by
    unfold Environment.addVariable
    split <;> rfl
  refine h.of_bindings hvalues ?_
  rw [hadd]
  rintro ⟨other, l, u⟩ hb
  rcases hs.vars.mem_bindings_of_add hb with hb | ⟨-, rfl⟩
  · exact .inl hb
  · exact .inr (by rw [hread]; exact hv)

theorem addFunction (h : env.Whole) (name : String) (f : Function) :
    (env.addFunction name f).Whole := h

theorem rebind (h : env.Whole) (hv : v.whole) (name : String) : (env.rebind name v).Whole := by
  obtain ⟨w, store, -, hrebind, -, -, hread⟩ := env.exists_storage v
  have hvalues : (env.rebind name v).store.values = env.store.values := by
    unfold Environment.rebind
    split <;> rfl
  refine h.of_bindings hvalues ?_
  rw [hrebind]
  rintro ⟨other, l, u⟩ hb
  rcases mem_bindings_of_modify hb with hb | rfl
  · exact .inl hb
  · exact .inr (by rw [hread]; exact hv)

/-- A cell of the host takes a whole value, which is read from it afterwards. -/
theorem setValue (h : env.Whole) (hv : v.whole) (cell : Nat) :
    Whole { env with store := env.store.setValue cell v } := by
  intro b hb
  have hold := h b hb
  cases hw : b.2.2 with
  | host hcell =>
    cases hcell with
    | value k =>
      rw [hw] at hold
      simp only [Environment.read, Store.value, Store.setValue, Array.getD_eq_getD_getElem?,
        Array.getElem?_setIfInBounds] at hold ⊢
      split
      · split
        · exact hv
        · rfl
      · exact hold
    | _ => rfl
  | value u =>
    rw [hw] at hold
    exact hold
  | number k => rfl

theorem writeHost (h : env.Whole) (hv : v.whole) (name : String) (cell : HostCell) :
    (env.writeHost name cell v).1.Whole := by
  unfold Environment.writeHost
  split
  · exact h.of_bindings rfl fun _ => .inl
  · exact h.of_bindings rfl fun _ => .inl
  · exact h.setValue hv _
  · exact h
  · exact h

/-- **Assigning a whole value** leaves variables whole. -/
theorem setVariable (h : env.Whole) (hs : env.Sound held) (hv : v.whole) (name : String) :
    (env.setVariable name v).1.Whole := by
  unfold Environment.setVariable
  split
  · exact h.addVariable hs hv name
  · exact h.writeHost hv name _
  · split
    · exact h.of_bindings rfl fun _ => .inl
    · exact h.rebind hv name
  · exact h.rebind hv name

end Whole

/-! ## Intact environments -/

/-- A sound environment at a level, whose variables hold whole values and whose functions are of a
kind, as far as they are seen from a level further out or from the blocks in it. -/
structure Intact (held : List Nat) (P : String → Function → Prop) (base level : Nat)
    (env : Environment) : Prop where
  sound : env.Sound held
  whole : env.Whole
  level_eq : env.level = level
  base_le : base ≤ level
  functions : ∀ k, base ≤ k → ∀ name f, env.functions.seen k name = some f → P name f

namespace Intact

theorem value? (h : env.Intact held P base level) (hv : env.value? name = some v) : v.whole :=
  h.whole.value? h.sound hv

theorem function? (h : env.Intact held P base level) (hf : env.function? name = some f) :
    P name f := by
  refine h.functions level h.base_le name f ?_
  rwa [h.sound.functionsLevel.seen_eq_get? (Nat.le_of_eq h.level_eq)]

theorem addVariable (h : env.Intact held P base level) (hv : v.whole) (name : String) :
    (env.addVariable name v).Intact held P base level where
  sound := h.sound.addVariable name v
  whole := h.whole.addVariable h.sound hv name
  level_eq := (env.level_addVariable name v).trans h.level_eq
  base_le := h.base_le
  functions := by
    rw [functions_addVariable]
    exact h.functions

theorem setVariable (h : env.Intact held P base level) (hv : v.whole) (name : String) :
    (env.setVariable name v).1.Intact held P base level where
  sound := h.sound.setVariable name v
  whole := h.whole.setVariable h.sound hv name
  level_eq := level_setVariable.trans h.level_eq
  base_le := h.base_le
  functions := by
    rw [functions_setVariable]
    exact h.functions

theorem addFunction (h : env.Intact held P base level) (hf : P name f) :
    (env.addFunction name f).Intact held P base level where
  sound := h.sound.addFunction name f
  whole := h.whole.addFunction name f
  level_eq := h.level_eq
  base_le := h.base_le
  functions k hk other g hg := by
    have hadd : (env.addFunction name f).functions.seen k other = _ :=
      seen_add h.sound.functions h.sound.functionsLevel k other
    rw [hadd] at hg
    split at hg
    · next hname =>
      cases hg
      rw [hname.2]
      exact hf
    · exact h.functions k hk other g hg

theorem enter (h : env.Intact held P base level) : env.enter.Intact held P base (level + 1) where
  sound := h.sound.enter
  whole := h.whole
  level_eq := congrArg (· + 1) h.level_eq
  base_le := Nat.le_succ_of_le h.base_le
  functions := h.functions

/-- **Leaving a block** shows functions that were seen from further out all the time. -/
theorem leave (h : env.Intact held P base (level + 1)) (hb : base ≤ level) :
    env.leave.Intact held P base level := by
  have hleave : env.leave = { env with
      vars := env.vars.dropLevel (level + 1)
      functions := env.functions.dropLevel (level + 1)
      level := level } := by
    unfold Environment.leave
    rw [h.level_eq]
  have hs := h.sound.leave
  rw [hleave] at hs ⊢
  refine ⟨hs, h.whole.of_bindings rfl fun b hb => .inl ?_, rfl, hb, fun k hk name f hf => ?_⟩
  · rw [bindings_dropLevel h.sound.varsLevel] at hb
    exact (List.mem_filter.1 hb).1
  · rw [seen_dropLevel h.sound.functions (h.level_eq ▸ h.sound.functionsLevel)] at hf
    exact h.functions _ (by omega) name f hf

end Intact

/-- The functions that are seen are of the kind if the visible ones are. -/
theorem intact_of_visible (hs : env.Sound held) (hw : env.Whole)
    (hf : ∀ name f, env.function? name = some f → P name f) :
    env.Intact held P env.level env.level :=
  ⟨hs, hw, rfl, Nat.le_refl _, fun k hk name f hseen => hf name f <| by
    rwa [hs.functionsLevel.seen_eq_get? hk] at hseen⟩

end Environment

end FormulaLang
