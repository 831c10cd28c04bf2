import FormulaLang.Environment
import FormulaLang.Proofs.Scope

/-!
# Sound environments

A variable that owns a number cell shares it with no other variable and not with the host. That
and the order of the bindings hold for every environment that bindings, assignments and blocks
lead to.

* `Cells`: who uses which number cell.
* `Environment.Sound`: tables that are stacks, and cells in order.
* **`Environment.Sound.setVariable`**, `Environment.Sound.addVariable`, `Environment.Sound.leave`
  and the like: every change of an environment keeps it sound.
-/

namespace FormulaLang

theorem Variable.numberCell?_eq_some {v : Variable} {cell : Nat} :
    v.numberCell? = some cell ↔ v = .number cell ∨ v = .host (.number cell) := by
  constructor
  · intro h
    unfold numberCell? at h
    split at h
    · cases h
      exact .inl rfl
    · cases h
      exact .inr rfl
    · cases h
  · rintro (rfl | rfl) <;> rfl

/-! ## Cells -/

/-- The number cells of the variables at the places of a table, of which there are `size`. Those
held by the host are shared, every other one has one owner. -/
structure Cells (held : List Nat) (size : Nat) (at? : Nat → Option Variable) : Prop where
  held_lt : ∀ cell ∈ held, cell < size
  host : ∀ i cell, at? i = some (.host (.number cell)) → cell ∈ held
  own_lt : ∀ i cell, at? i = some (.number cell) → cell < size
  own : ∀ i cell, at? i = some (.number cell) → cell ∉ held
  unique : ∀ i j cell, at? i = some (.number cell) → at? j = some (.number cell) → i = j

namespace Cells

variable {held : List Nat} {size size' k cell : Nat} {at? at' : Nat → Option Variable}
  {v : Variable}

theorem lt_of_numberCell? (h : Cells held size at?) (hk : at? k = some v)
    (hc : v.numberCell? = some cell) : cell < size := by
  rcases Variable.numberCell?_eq_some.1 hc with rfl | rfl
  · exact h.own_lt k cell hk
  · exact h.held_lt cell (h.host k cell hk)

theorem mono (h : Cells held size at?) (hs : size ≤ size')
    (hat : ∀ i v, at' i = some v → at? i = some v) : Cells held size' at' where
  held_lt cell hc := Nat.lt_of_lt_of_le (h.held_lt cell hc) hs
  host i cell hi := h.host i cell (hat i _ hi)
  own_lt i cell hi := Nat.lt_of_lt_of_le (h.own_lt i cell (hat i _ hi)) hs
  own i cell hi := h.own i cell (hat i _ hi)
  unique i j cell hi hj := h.unique i j cell (hat i _ hi) (hat j _ hj)

/-- The order of the held cells does not matter. -/
theorem of_held {held' : List Nat} (h : Cells held size at?) (hm : ∀ cell, cell ∈ held' ↔ cell ∈ held) :
    Cells held' size at? where
  held_lt cell hc := h.held_lt cell ((hm cell).1 hc)
  host i cell hi := (hm cell).2 (h.host i cell hi)
  own_lt := h.own_lt
  own i cell hi hc := h.own i cell hi ((hm cell).1 hc)
  unique := h.unique

/-- A variable without a cell of its own, or with one of the host. -/
theorem update (h : Cells held size at?) (hv : ∀ cell, v ≠ .number cell)
    (hh : ∀ cell, v = .host (.number cell) → cell ∈ held)
    (hat : ∀ i, at' i = if i = k then some v else at? i) : Cells held size at' := by
  have hown : ∀ i cell, at' i = some (.number cell) → at? i = some (.number cell) := by
    intro i cell hi
    rw [hat] at hi
    split at hi
    · cases hi
      exact absurd rfl (hv cell)
    · exact hi
  refine ⟨h.held_lt, fun i cell hi => ?_, fun i cell hi => h.own_lt i cell (hown i cell hi),
    fun i cell hi => h.own i cell (hown i cell hi),
    fun i j cell hi hj => h.unique i j cell (hown i cell hi) (hown j cell hj)⟩
  rw [hat] at hi
  split at hi
  · cases hi
    exact hh cell rfl
  · exact h.host i cell hi

/-- A variable with a new cell of its own. -/
theorem update_new (h : Cells held size at?)
    (hat : ∀ i, at' i = if i = k then some (.number size) else at? i) :
    Cells held (size + 1) at' := by
  have hown : ∀ i cell, at' i = some (.number cell) →
      i = k ∧ cell = size ∨ i ≠ k ∧ at? i = some (.number cell) := by
    intro i cell hi
    rw [hat] at hi
    split at hi
    · next hk =>
      cases hi
      exact .inl ⟨hk, rfl⟩
    · next hk => exact .inr ⟨hk, hi⟩
  refine ⟨fun cell hc => Nat.lt_succ_of_lt (h.held_lt cell hc), fun i cell hi => ?_,
    fun i cell hi => ?_, fun i cell hi hc => ?_, fun i j cell hi hj => ?_⟩
  · rw [hat] at hi
    split at hi
    · cases hi
    · exact h.host i cell hi
  · rcases hown i cell hi with ⟨_, rfl⟩ | ⟨_, hi⟩
    · exact Nat.lt_succ_self _
    · exact Nat.lt_succ_of_lt (h.own_lt i cell hi)
  · rcases hown i cell hi with ⟨_, rfl⟩ | ⟨_, hi⟩
    · exact absurd (h.held_lt _ hc) (Nat.lt_irrefl _)
    · exact h.own i cell hi hc
  · rcases hown i cell hi with ⟨rfl, rfl⟩ | ⟨_, hi⟩
    · rcases hown j _ hj with ⟨rfl, _⟩ | ⟨_, hj⟩
      · rfl
      · exact absurd (h.own_lt j _ hj) (Nat.lt_irrefl _)
    · rcases hown j cell hj with ⟨rfl, rfl⟩ | ⟨_, hj⟩
      · exact absurd (h.own_lt i _ hi) (Nat.lt_irrefl _)
      · exact h.unique i j cell hi hj

/-- The host gets a new cell. -/
theorem cons (h : Cells held size at?) : Cells (size :: held) (size + 1) at? where
  held_lt cell hc := by
    rcases List.mem_cons.1 hc with rfl | hc
    · exact Nat.lt_succ_self _
    · exact Nat.lt_succ_of_lt (h.held_lt cell hc)
  host i cell hi := List.mem_cons_of_mem _ (h.host i cell hi)
  own_lt i cell hi := Nat.lt_succ_of_lt (h.own_lt i cell hi)
  own i cell hi hc := by
    have := h.own_lt i cell hi
    rcases List.mem_cons.1 hc with rfl | hc
    · exact absurd this (Nat.lt_irrefl _)
    · exact h.own i cell hi hc
  unique := h.unique

end Cells

namespace Store

theorem getD_push {γ : Type} (xs : Array γ) (x d : γ) {c : Nat} (hc : c < xs.size) :
    (xs.push x).getD c d = xs.getD c d := by
  rw [Array.getD_eq_getD_getElem?, Array.getD_eq_getD_getElem?, Array.getElem?_push_lt hc,
    Array.getElem?_eq_getElem hc]

theorem getD_setIfInBounds {γ : Type} (xs : Array γ) (x d : γ) {c : Nat} (hc : c < xs.size)
    (k : Nat) : (xs.setIfInBounds c x).getD k d = if k = c then x else xs.getD k d := by
  rw [Array.getD_eq_getD_getElem?, Array.getD_eq_getD_getElem?, Array.getElem?_setIfInBounds]
  by_cases h : k = c
  · subst h
    simp [hc]
  · rw [if_neg h, if_neg (Ne.symm h)]

end Store

/-- The number cells among the cells of the host. -/
def HostCell.numberCells (cells : List HostCell) : List Nat :=
  cells.filterMap fun
    | .number cell => some cell
    | _ => none

/-! ## Environments -/

namespace Environment

open ScopedTable

/-- The tables are stacks with levels up to the current one, and the cells are in order. -/
structure Sound (held : List Nat) (env : Environment) : Prop where
  vars : env.vars.Coherent
  functions : env.functions.Coherent
  varsLevel : env.vars.Leveled env.level
  functionsLevel : env.functions.Leveled env.level
  cells : Cells held env.store.numbers.size env.vars.value?

variable {held : List Nat} {env : Environment} {name : String}

theorem sound_empty : Sound [] empty :=
  ⟨coherent_empty, coherent_empty, leveled_empty, leveled_empty,
    ⟨fun _ h => (by cases h), fun _ _ h => (by cases h), fun _ _ h => (by cases h),
      fun _ _ h => (by cases h), fun _ _ _ h => (by cases h)⟩⟩

namespace Sound

theorem of_held {held' : List Nat} (h : env.Sound held) (hm : ∀ cell, cell ∈ held' ↔ cell ∈ held) :
    env.Sound held' :=
  ⟨h.vars, h.functions, h.varsLevel, h.functionsLevel, h.cells.of_held hm⟩

/-- Only the numbers of cells, and the cells of other kinds, are different. -/
theorem of_store (h : env.Sound held) {store : Store}
    (hs : store.numbers.size = env.store.numbers.size) : { env with store }.Sound held :=
  ⟨h.vars, h.functions, h.varsLevel, h.functionsLevel, hs ▸ h.cells⟩

theorem setNumber (h : env.Sound held) (cell : Nat) (x : Float) :
    { env with store := env.store.setNumber cell x }.Sound held :=
  h.of_store (by simp [Store.setNumber])

theorem addVariable (h : env.Sound held) (name : String) (v : Value) :
    (env.addVariable name v).Sound held := by
  unfold Environment.addVariable
  split
  · next x =>
    obtain ⟨k, hk⟩ := exists_value?_add env.vars name (.number env.store.numbers.size) env.level
    refine ⟨h.vars.add, h.functions, h.varsLevel.add, h.functionsLevel, ?_⟩
    have hsize : (env.store.pushNumber x).numbers.size = env.store.numbers.size + 1 := by
      simp [Store.pushNumber]
    exact hsize ▸ h.cells.update_new hk
  · obtain ⟨k, hk⟩ := exists_value?_add env.vars name (.value v) env.level
    exact ⟨h.vars.add, h.functions, h.varsLevel.add, h.functionsLevel,
      h.cells.update (by simp) (by simp) hk⟩

theorem rebind (h : env.Sound held) {k : Nat} (hk : env.vars.index[name]? = some k) (v : Value) :
    (env.rebind name v).Sound held := by
  have hat := fun v => h.vars.value?_modify_const (v := v) ((h.vars.index name k).1 hk)
  have hvars : ∀ v, (env.vars.modify name fun _ => v).Coherent := fun v => h.vars.modify
  have hlevel : ∀ v, (env.vars.modify name fun _ => v).Leveled env.level :=
    fun v => h.varsLevel.modify
  unfold Environment.rebind
  split
  · next x =>
    refine ⟨hvars _, h.functions, hlevel _, h.functionsLevel, ?_⟩
    have hsize : (env.store.pushNumber x).numbers.size = env.store.numbers.size + 1 := by
      simp [Store.pushNumber]
    exact hsize ▸ h.cells.update_new (hat _)
  · exact ⟨hvars _, h.functions, hlevel _, h.functionsLevel,
      h.cells.update (by simp) (by simp) (hat _)⟩

theorem writeHost (h : env.Sound held) (cell : HostCell) (v : Value) :
    (env.writeHost name cell v).1.Sound held := by
  unfold Environment.writeHost
  split
  · exact h.setNumber _ _
  · exact h.of_store rfl
  · exact h.of_store rfl
  · exact h
  · exact h

/-- **Assigning keeps an environment sound.** -/
theorem setVariable (h : env.Sound held) (name : String) (v : Value) :
    (env.setVariable name v).1.Sound held := by
  unfold Environment.setVariable
  cases hv : env.vars.get? name with
  | none => exact h.addVariable name v
  | some w =>
    obtain ⟨e, he, rfl⟩ := Option.map_eq_some_iff.1 hv
    obtain ⟨k, hk, -⟩ := h.vars.entry?_eq_some.1 he
    have hk := (h.vars.index name k).2 hk
    cases e.value with
    | host cell => exact h.writeHost cell v
    | value w => exact h.rebind hk v
    | number cell =>
      dsimp only
      split
      · exact h.setNumber cell _
      · exact h.rebind hk _

theorem addFunction (h : env.Sound held) (name : String) (f : Function) :
    (env.addFunction name f).Sound held :=
  ⟨h.vars, h.functions.add, h.varsLevel, h.functionsLevel.add, h.cells⟩

/-- Binding a name to a cell that the host holds. -/
theorem addHost (h : env.Sound held) {cell : HostCell} (hc : ∀ c, cell = .number c → c ∈ held) :
    (env.addHost name cell).Sound held := by
  obtain ⟨k, hk⟩ := exists_value?_add env.vars name (.host cell) env.level
  refine ⟨h.vars.add, h.functions, h.varsLevel.add, h.functionsLevel,
    h.cells.update (by simp) (fun c hc' => hc c ?_) hk⟩
  cases hc'
  rfl

theorem newHostCell {cells : List HostCell} (h : env.Sound (HostCell.numberCells cells)) (v : Value)
    (boxed : Bool) : (env.newHostCell v boxed).2.Sound
      (HostCell.numberCells ((env.newHostCell v boxed).1 :: cells)) := by
  unfold Environment.newHostCell
  split
  · next x =>
    refine ⟨h.vars, h.functions, h.varsLevel, h.functionsLevel, ?_⟩
    have hsize : (env.store.pushNumber x).numbers.size = env.store.numbers.size + 1 := by
      simp [Store.pushNumber]
    exact hsize ▸ h.cells.cons
  · exact h.of_store rfl
  · exact h.of_store rfl

theorem enter (h : env.Sound held) : env.enter.Sound held :=
  ⟨h.vars, h.functions, h.varsLevel.mono (Nat.le_succ _), h.functionsLevel.mono (Nat.le_succ _),
    h.cells⟩

/-- **Leaving a block keeps an environment sound.** -/
theorem leave (h : env.Sound held) : env.leave.Sound held := by
  unfold Environment.leave
  split
  · exact h
  · next level hl =>
    exact ⟨h.vars.dropLevel, h.functions.dropLevel, h.varsLevel.dropLevel,
      h.functionsLevel.dropLevel, h.cells.mono (Nat.le_refl _) fun _ _ => value?_dropLevel⟩

theorem clear (h : env.Sound held) : env.clear.Sound held :=
  ⟨coherent_empty, coherent_empty, leveled_empty, leveled_empty,
    h.cells.mono (Nat.le_refl _) fun _ _ hi => by cases hi⟩

end Sound

/-- A block in which nothing was bound leaves the environment as it was. -/
theorem Sound.leave_enter (h : env.Sound held) : env.enter.leave = env := by
  obtain ⟨vars, functions, level, store⟩ := env
  simp only [Environment.enter, Environment.leave]
  rw [dropLevel_of_leveled h.varsLevel, dropLevel_of_leveled h.functionsLevel]

theorem store_leave (env : Environment) : env.leave.store = env.store := by
  unfold leave
  split <;> rfl

/-! ## Growing environments -/

/-- Bindings were only added on top, at the current level. -/
structure Extends (base env : Environment) : Prop where
  functions : env.functions = base.functions
  frame : ∃ above, env.vars.frame = base.vars.frame ++ above ∧ ∀ p ∈ above, p.2 = env.level

variable {base env' : Environment} {cell : Nat} {v : Value}

namespace Extends

theorem refl (env : Environment) : env.Extends env :=
  ⟨rfl, [], (List.append_nil _).symm, fun _ h => (by cases h)⟩

theorem trans (h : base.Extends env) (h' : env.Extends env') (hl : env'.level = env.level) :
    base.Extends env' := by
  obtain ⟨above, hf, ha⟩ := h.frame
  obtain ⟨above', hf', ha'⟩ := h'.frame
  refine ⟨h'.functions.trans h.functions, above ++ above', ?_, fun p hp => ?_⟩
  · rw [hf', hf, List.append_assoc]
  · rcases List.mem_append.1 hp with hp | hp
    · rw [hl]
      exact ha p hp
    · exact ha' p hp

theorem enter (env : Environment) : env.Extends env.enter :=
  ⟨rfl, [], (List.append_nil _).symm, fun _ h => (by cases h)⟩

/-- Leaving the block drops what was added in it. -/
theorem leave (h : base.Extends env) (hb : base.Sound held) (hs : env.Sound held)
    (hl : env.level = base.level + 1) :
    env.leave.level = base.level ∧ env.leave.functions = base.functions ∧
      env.leave.vars.frame = base.vars.frame ∧
      ∀ i < base.vars.entries.size, env.leave.vars.value? i = env.vars.value? i := by
  obtain ⟨hframe, hvalue⟩ := ScopedTable.Grown.dropLevel
    (by obtain ⟨above, hf, ha⟩ := h.frame; exact ⟨above, hf, fun p hp => (ha p hp).trans hl⟩)
    hb.varsLevel (hl ▸ hs.varsLevel)
  have hleave : env.leave = { env with
      vars := env.vars.dropLevel (base.level + 1)
      functions := env.functions.dropLevel (base.level + 1)
      level := base.level } := by
    unfold Environment.leave
    rw [hl]
  rw [hleave]
  refine ⟨rfl, ?_, hframe, hvalue⟩
  dsimp only
  rw [h.functions, dropLevel_of_leveled hb.functionsLevel]

end Extends

theorem vars_addVariable (env : Environment) (name : String) (v : Value) : ∃ w,
    (env.addVariable name v).vars = env.vars.add name w env.level := by
  unfold addVariable
  split
  · exact ⟨_, rfl⟩
  · exact ⟨_, rfl⟩

theorem level_addVariable (env : Environment) (name : String) (v : Value) :
    (env.addVariable name v).level = env.level := by
  unfold addVariable
  split <;> rfl

theorem functions_addVariable (env : Environment) (name : String) (v : Value) :
    (env.addVariable name v).functions = env.functions := by
  unfold addVariable
  split <;> rfl

/-- A name that is not bound at the current level gets a new binding. -/
theorem frame_addVariable (hnew : ∀ e, env.vars.entry? name = some e → e.level ≠ env.level)
    (v : Value) :
    (env.addVariable name v).vars.frame = env.vars.frame ++ [(name, env.level)] := by
  obtain ⟨w, hw⟩ := env.vars_addVariable name v
  rw [hw]
  rcases env.vars.add_cases name w env.level with ⟨e, he, hl, -⟩ | ⟨-, hadd⟩
  · exact absurd hl (hnew e he)
  · rw [hadd, frame_push]

theorem Sound.extends_addVariable (h : env.Sound held) (name : String) (v : Value) :
    env.Extends (env.addVariable name v) := by
  obtain ⟨w, hw⟩ := env.vars_addVariable name v
  obtain ⟨k, -, hk⟩ := h.vars.add_spec name w env.level
  refine ⟨env.functions_addVariable name v, ?_⟩
  rw [hw, level_addVariable]
  rcases hk with ⟨hf, -⟩ | ⟨hf, -⟩
  · exact ⟨[], by rw [hf, List.append_nil], fun _ h => (by cases h)⟩
  · refine ⟨_, hf, fun p hp => ?_⟩
    rw [List.mem_singleton] at hp
    rw [hp]

/-- The cells that there were hold what they held. -/
structure KeepsCells (env env' : Environment) : Prop where
  size_le : env.store.numbers.size ≤ env'.store.numbers.size
  number : ∀ cell < env.store.numbers.size, env'.store.number cell = env.store.number cell

namespace KeepsCells

theorem refl (env : Environment) : env.KeepsCells env := ⟨Nat.le_refl _, fun _ _ => rfl⟩

theorem trans (h : base.KeepsCells env) (h' : env.KeepsCells env') : base.KeepsCells env' :=
  ⟨Nat.le_trans h.size_le h'.size_le, fun cell hc =>
    (h'.number cell (Nat.lt_of_lt_of_le hc h.size_le)).trans (h.number cell hc)⟩

end KeepsCells

theorem number_pushNumber (s : Store) (x : Float) (hc : cell < s.numbers.size) :
    (s.pushNumber x).number cell = s.number cell := Store.getD_push _ _ _ hc

theorem number_pushNumber_self (s : Store) (x : Float) :
    (s.pushNumber x).number s.numbers.size = x := by
  simp [Store.number, Store.pushNumber]

theorem number_setNumber (s : Store) (x : Float) (hc : cell < s.numbers.size) (other : Nat) :
    (s.setNumber cell x).number other = if other = cell then x else s.number other :=
  Store.getD_setIfInBounds _ _ _ hc other

theorem keepsCells_addVariable (env : Environment) (name : String) (v : Value) :
    env.KeepsCells (env.addVariable name v) := by
  unfold addVariable
  split
  · refine ⟨?_, fun cell hc => number_pushNumber _ _ hc⟩
    simp [Store.pushNumber]
  · exact ⟨Nat.le_refl _, fun _ _ => rfl⟩

/-! ## Reading what was written -/

/-- Writing a number cell is seen by the variables with this cell. -/
theorem read_setNumber (env : Environment) (x : Float) (hc : cell < env.store.numbers.size)
    (w : Variable) : Environment.read { env with store := env.store.setNumber cell x } w =
      if w.numberCell? = some cell then .number x else env.read w := by
  have hnumber : ∀ k, Value.number ((env.store.setNumber cell x).number k) =
      if some k = some cell then .number x else .number (env.store.number k) := by
    intro k
    rw [number_setNumber env.store x hc]
    by_cases hk : k = cell
    · rw [if_pos hk, if_pos (congrArg some hk)]
    · rw [if_neg hk, if_neg fun h => hk (Option.some.inj h)]
  cases w with
  | number k => exact hnumber k
  | value u => rfl
  | host hcell =>
    cases hcell with
    | number k => exact hnumber k
    | bool k => rfl
    | value k => rfl

/-- A value that is bound gets new storage, of which no other variable knows. -/
theorem exists_storage (env : Environment) (v : Value) : ∃ w store,
    (∀ name, env.addVariable name v =
      { env with vars := env.vars.add name w env.level, store }) ∧
    (∀ name, env.rebind name v =
      { env with vars := env.vars.modify name fun _ => w, store }) ∧
    (∀ vars, env.KeepsCells { env with vars, store }) ∧ (∀ cell, w ≠ .host cell) ∧
    ∀ vars, Environment.read { env with vars, store } w = v := by
  cases v with
  | number x =>
    refine ⟨.number env.store.numbers.size, env.store.pushNumber x, fun _ => rfl, fun _ => rfl,
      fun vars => ⟨?_, fun cell hc => number_pushNumber _ _ hc⟩, by simp, fun vars => ?_⟩
    · simp [Store.pushNumber]
    · exact congrArg Value.number (number_pushNumber_self _ _)
  | _ =>
    exact ⟨.value _, env.store, fun _ => rfl, fun _ => rfl,
      fun vars => ⟨Nat.le_refl _, fun _ _ => rfl⟩, by simp, fun vars => rfl⟩

end Environment

end FormulaLang
