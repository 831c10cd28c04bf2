import FormulaLang.Proofs.Engine.Moves
import FormulaLang.Proofs.Environment

/-!
# Reachable engines

An engine is used by evaluating and calling, by running programs, and by a host that binds names
and shares cells. Whatever is done with a new engine, its environment stays sound, and faults are
only recorded, unless the host forgets them.

* `Engine.Reachable`: what the uses of a new engine lead to.
* `KeepsSound`, `KeepsFaults`, `KeepsSettings`: evaluation keeps environments sound, forgets no
  fault and leaves the settings.
* **`Engine.Reachable.sound`**: the environments of reachable engines are sound.
* `Engine.HasCatalog`: the functions of an engine are those of a new one.
-/

namespace FormulaLang

open Bytecode (Program)
open Environment (Sound)

/-! ## Evaluation -/

/-- Assigning either succeeds or records a fault. -/
theorem assign_cases (st : Engine) (name : String) (v : Value) :
    Eval.assign name v st = (v, st.onEnv fun env => (env.setVariable name v).1) ∧
      (st.env.setVariable name v).2 = none ∨
    ∃ f, Eval.assign name v st =
      (.invalid, (st.onEnv fun env => (env.setVariable name v).1).report f) := by
  obtain ⟨env, log, settings⟩ := st
  unfold Eval.assign
  rcases he : env.setVariable name v with ⟨env', f⟩
  cases f with
  | none => exact .inl ⟨by simp [Engine.onEnv, he], rfl⟩
  | some f => exact .inr ⟨f, by simp [Engine.onEnv, Engine.report, Engine.note, he]⟩

theorem assign_of_none {st : Engine} {name : String} {v : Value}
    (h : (st.env.setVariable name v).2 = none) :
    Eval.assign name v st = (v, st.onEnv fun env => (env.setVariable name v).1) := by
  obtain ⟨env, log, settings⟩ := st
  unfold Eval.assign
  rcases he : env.setVariable name v with ⟨env', f⟩
  obtain rfl : f = none := by rw [← h, he]
  simp [Engine.onEnv, he]

/-- The environment stays sound. -/
def KeepsSound (held : List Nat) (st st' : Engine) : Prop :=
  st.env.Sound held → st'.env.Sound held

instance (held : List Nat) : Engine.Steps (KeepsSound held) where
  refl _ h := h
  trans h h' hs := h' (h hs)
  note _ _ h := h
  addVariable _ name v h := h.addVariable name v
  assign st name v h := by
    rcases assign_cases st name v with ⟨ha, _⟩ | ⟨f, ha⟩
    · rw [ha]
      exact h.setVariable name v
    · rw [ha]
      exact h.setVariable name v
  addFunction _ name f h := h.addFunction name f
  setNumber _ cell x h := h.setNumber cell x
  block h hs := (h hs.enter).leave

/-- No fault is forgotten. -/
def KeepsFaults (st st' : Engine) : Prop := st.log.size ≤ st'.log.size

theorem keepsFaults_note (st : Engine) (e : Located) : KeepsFaults st (st.note e) := by
  rw [KeepsFaults, Engine.note, Array.size_push]
  exact Nat.le_succ _

instance : Engine.Steps KeepsFaults where
  refl _ := Nat.le_refl _
  trans := Nat.le_trans
  note := keepsFaults_note
  addVariable _ _ _ := Nat.le_refl _
  assign st name v := by
    rcases assign_cases st name v with ⟨ha, _⟩ | ⟨f, ha⟩
    · rw [ha]
      exact Nat.le_refl _
    · rw [ha]
      exact keepsFaults_note (st.onEnv _) f.unlocated
  addFunction _ _ _ := Nat.le_refl _
  setNumber _ _ _ := Nat.le_refl _
  block h := h

/-- The settings are the same. -/
def KeepsSettings (st st' : Engine) : Prop := st'.settings = st.settings

instance : Engine.Steps KeepsSettings where
  refl _ := rfl
  trans h h' := h'.trans h
  note _ _ := rfl
  addVariable _ _ _ := rfl
  assign st name v := by
    rcases assign_cases st name v with ⟨ha, _⟩ | ⟨f, ha⟩ <;> rw [ha] <;> rfl
  addFunction _ _ _ := rfl
  setNumber _ _ _ := rfl
  block h := h

/-! ## The catalog -/

namespace Catalog

theorem sound_addTo {held : List Nat} {env : Environment} (h : env.Sound held) :
    (addTo env).Sound held := by
  have hf : ∀ (fs : List (String × Function)) (env : Environment), env.Sound held →
      (fs.foldl (fun env f => env.addFunction f.1 f.2) env).Sound held := by
    intro fs
    induction fs with
    | nil => exact fun env h => h
    | cons f fs ih => exact fun env h => ih _ (h.addFunction f.1 f.2)
  have hc : ∀ (cs : List (String × Float)) (env : Environment), env.Sound held →
      (cs.foldl (fun env c => env.addVariable c.1 (.number c.2)) env).Sound held := by
    intro cs
    induction cs with
    | nil => exact fun env h => h
    | cons c cs ih => exact fun env h => ih _ (h.addVariable c.1 (.number c.2))
  exact hc _ _ (hf _ _ h)

/-- The functions of the catalog have different names. -/
theorem nodup_names : (functions.map Prod.fst).Nodup := by decide

theorem functions_addConstants (cs : List (String × Float)) (env : Environment) :
    (cs.foldl (fun env c => env.addVariable c.1 (.number c.2)) env).functions = env.functions := by
  induction cs generalizing env with
  | nil => rfl
  | cons c cs ih => exact (ih _).trans (env.functions_addVariable _ _)

/-- A function that the catalog binds is one of its entries. -/
theorem mem_functions {name : String} {f : Function}
    (h : (addTo .empty).function? name = some f) : (name, f) ∈ functions := by
  have hf : ∀ (fs : List (String × Function)) (env : Environment), env.Sound [] →
      (fs.foldl (fun env f => env.addFunction f.1 f.2) env).function? name = some f →
      (name, f) ∈ fs ∨ env.function? name = some f := by
    intro fs
    induction fs with
    | nil => exact fun env _ h => .inr h
    | cons g fs ih =>
      intro env hs h
      rcases ih _ (hs.addFunction g.1 g.2) h with h | h
      · exact .inl (List.mem_cons_of_mem _ h)
      · have hadd : (env.addFunction g.1 g.2).function? name =
            if name = g.1 then some g.2 else env.function? name := hs.functions.get?_add name
        rw [hadd] at h
        split at h
        · next hn =>
          cases h
          exact .inl (hn ▸ List.mem_cons_self)
        · exact .inr h
  unfold addTo Environment.function? at h
  rw [functions_addConstants] at h
  rcases hf functions .empty Environment.sound_empty h with h | h
  · exact h
  · rw [Environment.function?, ScopedTable.get?_eq] at h
    simp [Environment.empty, ScopedTable.empty] at h

/-- An entry of the catalog is bound to its name, which no other entry has. -/
theorem function?_addTo {name : String} {f : Function} (h : (name, f) ∈ functions) :
    (addTo .empty).function? name = some f := by
  have hf : ∀ (fs : List (String × Function)) (env : Environment), env.Sound [] →
      (fs.map Prod.fst).Nodup →
      (name, f) ∈ fs ∨ name ∉ fs.map Prod.fst ∧ env.function? name = some f →
      (fs.foldl (fun env f => env.addFunction f.1 f.2) env).function? name = some f := by
    intro fs
    induction fs with
    | nil => exact fun env _ _ h => h.elim (fun h => by cases h) (·.2)
    | cons g fs ih =>
      intro env hs hnodup h
      obtain ⟨hg, hnodup⟩ := List.nodup_cons.1 hnodup
      refine ih _ (hs.addFunction g.1 g.2) hnodup ?_
      have hadd : (env.addFunction g.1 g.2).function? name =
          if name = g.1 then some g.2 else env.function? name := hs.functions.get?_add name
      rcases h with h | ⟨hn, h⟩
      · rcases List.mem_cons.1 h with rfl | h
        · exact .inr ⟨hg, hadd.trans (if_pos rfl)⟩
        · exact .inl h
      · obtain ⟨hne, hn⟩ := not_or.1 (mt List.mem_cons.2 hn)
        exact .inr ⟨hn, (hadd.trans (if_neg hne)).trans h⟩
  unfold addTo Environment.function?
  rw [functions_addConstants]
  exact hf functions .empty Environment.sound_empty nodup_names (.inl h)

end Catalog

/-! ## Uses of an engine -/

namespace Engine

/-- What the uses of a new engine lead to, with the cells that the host has made so far. -/
inductive Reachable : List HostCell → Engine → Prop where
  | create (settings : Settings) : Reachable [] (create settings)
  | read {cells st} (h : Reachable cells st) (source : String) : Reachable cells (read source st).2
  | formula {cells st} (h : Reachable cells st) (source : String) :
      Reachable cells (formula source st).2
  | evaluate {cells st} (h : Reachable cells st) (e : Expr) : Reachable cells (evaluate e st).2
  | call {cells st} (h : Reachable cells st) (name : String) (args : List Value) :
      Reachable cells (call name args st).2
  | compile {cells st} (h : Reachable cells st) (e : Expr) : Reachable cells (compile e st).2
  | run {cells st} (h : Reachable cells st) (n : Nat) (p : Program) (settings : Settings) :
      Reachable cells (p.runSteps n settings st).2
  | note {cells st} (h : Reachable cells st) (e : Located) : Reachable cells (st.note e)
  | forget {cells st} (h : Reachable cells st) : Reachable cells { st with log := #[] }
  | addVariable {cells st} (h : Reachable cells st) (name : String) (v : Value) :
      Reachable cells (st.onEnv (·.addVariable name v))
  | setVariable {cells st} (h : Reachable cells st) (name : String) (v : Value) :
      Reachable cells (st.onEnv fun env => (env.setVariable name v).1)
  | addFunction {cells st} (h : Reachable cells st) (name : String) (f : Function) :
      Reachable cells (st.onEnv (·.addFunction name f))
  | newCell {cells st} (h : Reachable cells st) (v : Value) (boxed : Bool) :
      Reachable ((st.env.newHostCell v boxed).1 :: cells)
        (st.onEnv fun env => (env.newHostCell v boxed).2)
  | addHost {cells st cell} (h : Reachable cells st) (name : String) (hc : cell ∈ cells) :
      Reachable cells (st.onEnv (·.addHost name cell))
  | setNumber {cells st cell} (h : Reachable cells st) (hc : .number cell ∈ cells) (x : Float) :
      Reachable cells (st.onEnv fun env => { env with store := env.store.setNumber cell x })
  | setBool {cells st cell} (h : Reachable cells st) (hc : .bool cell ∈ cells) (b : Bool) :
      Reachable cells (st.onEnv fun env => { env with store := env.store.setBool cell b })
  | setValue {cells st cell} (h : Reachable cells st) (hc : .value cell ∈ cells) (v : Value) :
      Reachable cells (st.onEnv fun env => { env with store := env.store.setValue cell v })
  | enter {cells st} (h : Reachable cells st) : Reachable cells (st.onEnv .enter)
  | leave {cells st} (h : Reachable cells st) : Reachable cells (st.onEnv .leave)
  | clear {cells st} (h : Reachable cells st) : Reachable cells st.clear

theorem sound_registerCatalog {held : List Nat} {st : Engine} (h : st.env.Sound held) :
    st.registerCatalog.env.Sound held := by
  unfold registerCatalog
  split
  · exact Catalog.sound_addTo h
  · exact h

/-- **Reachable engines are sound**: bindings and cells are in order. -/
theorem Reachable.sound {cells : List HostCell} {st : Engine} (h : Reachable cells st) :
    st.env.Sound (HostCell.numberCells cells) := by
  induction h with
  | create settings => exact sound_registerCatalog Environment.sound_empty
  | @read cells st h source ih => exact moves_read (R := KeepsSound _) source st ih
  | @formula cells st h source ih => exact moves_formula (R := KeepsSound _) source st ih
  | @evaluate cells st h e ih => exact moves_evaluate (R := KeepsSound _) e st ih
  | @call cells st h name args ih => exact moves_call (R := KeepsSound _) name args st ih
  | @compile cells st h e ih => exact moves_compile (R := KeepsSound _) e st ih
  | @run cells st h n p settings ih => exact moves_runSteps (R := KeepsSound _) n p settings st ih
  | note h e ih => exact ih
  | forget h ih => exact ih
  | addVariable h name v ih => exact ih.addVariable name v
  | setVariable h name v ih => exact ih.setVariable name v
  | addFunction h name f ih => exact ih.addFunction name f
  | newCell h v boxed ih => exact ih.newHostCell v boxed
  | addHost h name hc ih =>
    refine ih.addHost fun c hn => ?_
    subst hn
    exact List.mem_filterMap.2 ⟨_, hc, rfl⟩
  | setNumber h hc x ih => exact ih.setNumber _ x
  | setBool h hc b ih => exact ih.of_store rfl
  | setValue h hc v ih => exact ih.of_store rfl
  | enter h ih => exact ih.enter
  | leave h ih => exact ih.leave
  | clear h ih => exact sound_registerCatalog ih.clear

/-- The functions are those of a new engine. -/
def HasCatalog (st : Engine) : Prop :=
  ∀ name, st.env.function? name = (create {}).env.function? name

theorem HasCatalog.mem_functions {st : Engine} {name : String} {f : Function} (h : st.HasCatalog)
    (hf : st.env.function? name = some f) : (name, f) ∈ Catalog.functions :=
  Catalog.mem_functions ((h name).symm.trans hf)

/-! ## Names in a new engine -/

theorem vars_create : (create {}).env.vars =
    (ScopedTable.empty.add "pi" (.number 0) 0).add "e" (.number 1) 0 := rfl

/-- The variables of a new engine are the constants of the catalog. -/
theorem hasVariable_create {name : String} (hpi : name ≠ "pi") (he : name ≠ "e") :
    (create {}).env.hasVariable name = false := by
  rw [Environment.hasVariable, vars_create]
  simp [ScopedTable.contains, ScopedTable.add, ScopedTable.entry?, ScopedTable.push,
    ScopedTable.empty, hpi.symm, he.symm]

theorem value?_create {name : String} (hpi : name ≠ "pi") (he : name ≠ "e") :
    (create {}).env.value? name = none := by
  have hget : (create {}).env.vars.get? name = none := by
    rw [vars_create]
    simp [ScopedTable.add, ScopedTable.get?, ScopedTable.entry?, ScopedTable.push,
      ScopedTable.empty, hpi.symm, he.symm]
  unfold Environment.value?
  rw [hget]

end Engine

end FormulaLang
