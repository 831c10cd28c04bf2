import FormulaLang.Catalog
import FormulaLang.Proofs.Scope
import FormulaLang.Proofs.Value.Deep

/-!
# What an environment holds

A property of values and one of functions hold of an environment if they hold of all that is stored
in it: of what variables are bound to, be they visible or hidden, of the values in the cells of the
host, and of the functions. Nothing else needs to be known of the environment.

* `ScopedTable.All`: a property of all that is bound in a table.
* `Environment.Holds`: the properties hold of all that is stored.
* `Holds.value?`, `Holds.function?`: looking up.
* `Holds.addVariable`, `Holds.addFunction`, **`Holds.setVariable`**, `Holds.enter`, `Holds.leave`:
  one lemma for each change.
* `holds_create`: new engines.
-/

namespace FormulaLang

/-! ## Tables -/

namespace ScopedTable

variable {α : Type} {P : α → Prop} {t : ScopedTable α} {name : String} {level : Nat} {v : α}

/-- A property of all that is bound, be it visible or hidden. -/
def All (P : α → Prop) (t : ScopedTable α) : Prop := ∀ i v, t.value? i = some v → P v

theorem all_empty : All P (empty : ScopedTable α) := fun _ _ h => by cases h

namespace All

theorem get? (h : t.All P) (hv : t.get? name = some v) : P v := by
  rw [get?_eq] at hv
  obtain ⟨i, -, hi⟩ := Option.bind_eq_some_iff.1 hv
  exact h i v hi

theorem modify (h : t.All P) (hv : P v) (name : String) : (t.modify name fun _ => v).All P := by
  intro i w hw
  rw [value?_modify] at hw
  split at hw
  · obtain ⟨u, -, rfl⟩ := Option.map_eq_some_iff.1 hw
    exact hv
  · exact h i w hw

theorem add (h : t.All P) (hv : P v) (name : String) (level : Nat) :
    (t.add name v level).All P := by
  obtain ⟨k, hk⟩ := t.exists_value?_add name v level
  intro i w hw
  rw [hk] at hw
  split at hw
  · cases hw
    exact hv
  · exact h i w hw

theorem dropLevel (h : t.All P) (level : Nat) : (t.dropLevel level).All P :=
  fun i v hv => h i v (value?_dropLevel hv)

end All

end ScopedTable

/-! ## Environments -/

/-- A property of the value that a variable is bound to, unless it is in a cell. -/
def Variable.Holds (Q : Value → Prop) : Variable → Prop
  | value v => Q v
  | _ => True

theorem Variable.holds_number {Q : Value → Prop} (cell : Nat) : (number cell).Holds Q := trivial

theorem Variable.holds_value {Q : Value → Prop} {v : Value} (hv : Q v) : (value v).Holds Q := hv

namespace Environment

open ScopedTable

variable {Q : Value → Prop} {P : Function → Prop} {env : Environment} {name : String} {v : Value}
  {f : Function}

/-- A property of all stored values and one of all stored functions. -/
structure Holds (Q : Value → Prop) (P : Function → Prop) (env : Environment) : Prop where
  vars : env.vars.All (·.Holds Q)
  cells : ∀ v ∈ env.store.values, Q v
  functions : env.functions.All P

theorem holds_empty : empty.Holds Q P where
  vars := all_empty
  cells := by simp [empty]
  functions := all_empty

namespace Holds

theorem function? (h : env.Holds Q P) (hf : env.function? name = some f) : P f :=
  h.functions.get? hf

/-- The properties say nothing of the cells for numbers and bools. -/
theorem of_store (h : env.Holds Q P) {store : Store} (hs : store.values = env.store.values) :
    Holds Q P { env with store } where
  vars := h.vars
  cells := by
    rw [hs]
    exact h.cells
  functions := h.functions

/-- A value is stored as a number in a cell or as it is. -/
theorem addVariable (h : env.Holds Q P) (hv : Q v) (name : String) :
    (env.addVariable name v).Holds Q P := by
  unfold Environment.addVariable
  split
  · exact ⟨h.vars.add (Variable.holds_number _) name _, h.cells, h.functions⟩
  · exact ⟨h.vars.add (Variable.holds_value hv) name _, h.cells, h.functions⟩

theorem rebind (h : env.Holds Q P) (hv : Q v) (name : String) : (env.rebind name v).Holds Q P := by
  unfold Environment.rebind
  split
  · exact ⟨h.vars.modify (Variable.holds_number _) name, h.cells, h.functions⟩
  · exact ⟨h.vars.modify (Variable.holds_value hv) name, h.cells, h.functions⟩

theorem writeHost (h : env.Holds Q P) (hv : Q v) (name : String) (cell : HostCell) :
    (env.writeHost name cell v).1.Holds Q P := by
  unfold Environment.writeHost
  split
  · exact h.of_store rfl
  · exact h.of_store rfl
  · refine ⟨h.vars, fun w hw => ?_, h.functions⟩
    rcases Array.mem_or_eq_of_mem_setIfInBounds hw with hw | rfl
    · exact h.cells w hw
    · exact hv
  · exact h
  · exact h

/-- **Assigning a value** of the kind. -/
theorem setVariable (h : env.Holds Q P) (hv : Q v) (name : String) :
    (env.setVariable name v).1.Holds Q P := by
  unfold Environment.setVariable
  split
  · exact h.addVariable hv name
  · exact h.writeHost hv name _
  · split
    · exact h.of_store rfl
    · exact h.rebind hv name
  · exact h.rebind hv name

theorem addFunction (h : env.Holds Q P) (hf : P f) (name : String) :
    (env.addFunction name f).Holds Q P :=
  ⟨h.vars, h.cells, h.functions.add hf name _⟩

theorem enter (h : env.Holds Q P) : env.enter.Holds Q P := ⟨h.vars, h.cells, h.functions⟩

theorem leave (h : env.Holds Q P) : env.leave.Holds Q P := by
  unfold Environment.leave
  split
  · exact h
  · exact ⟨h.vars.dropLevel _, h.cells, h.functions.dropLevel _⟩

variable (hQ : Value.Deep Q)

include hQ

theorem read (h : env.Holds Q P) {w : Variable} (hw : w.Holds Q) : Q (env.read w) := by
  cases w with
  | value v => exact hw
  | number cell => exact hQ.plain rfl
  | host cell =>
    cases cell with
    | value cell =>
      simp only [Environment.read, Store.value, Array.getD_eq_getD_getElem?]
      cases hv : env.store.values[cell]? with
      | none => exact hQ.plain rfl
      | some v => exact h.cells v (Array.mem_of_getElem? hv)
    | _ => exact hQ.plain rfl

/-- **What a name stands for.** -/
theorem value? (h : env.Holds Q P) (hv : env.value? name = some v) : Q v := by
  unfold Environment.value? at hv
  cases hw : env.vars.get? name with
  | none =>
    rw [hw] at hv
    cases hv
  | some w =>
    rw [hw] at hv
    cases hv
    exact h.read hQ (h.vars.get? hw)

/-- The constants of the catalog are numbers. -/
theorem addTo (h : env.Holds Q P) (hf : ∀ f ∈ Catalog.functions, P f.2) :
    (Catalog.addTo env).Holds Q P := by
  have hfunctions : ∀ (fs : List (String × Function)) (env : Environment), (∀ f ∈ fs, P f.2) →
      env.Holds Q P → (fs.foldl (fun env f => env.addFunction f.1 f.2) env).Holds Q P := by
    intro fs
    induction fs with
    | nil => exact fun env _ h => h
    | cons f fs ih =>
      intro env hfs h
      obtain ⟨hf, hfs⟩ := List.forall_mem_cons.1 hfs
      exact ih _ hfs (h.addFunction hf f.1)
  have hconstants : ∀ (cs : List (String × Float)) (env : Environment), env.Holds Q P →
      (cs.foldl (fun env c => env.addVariable c.1 (.number c.2)) env).Holds Q P := by
    intro cs
    induction cs with
    | nil => exact fun env h => h
    | cons c cs ih => exact fun env h => ih _ (h.addVariable (hQ.plain rfl) c.1)
  exact hconstants _ _ (hfunctions _ _ hf h)

end Holds

/-- A new engine holds the catalog and numbers, or nothing at all. -/
theorem holds_create (hQ : Value.Deep Q) (hf : ∀ f ∈ Catalog.functions, P f.2)
    (settings : Settings) : (Engine.create settings).env.Holds Q P := by
  unfold Engine.create Engine.registerCatalog
  split
  · exact holds_empty.addTo hQ hf
  · exact holds_empty

end Environment

end FormulaLang
