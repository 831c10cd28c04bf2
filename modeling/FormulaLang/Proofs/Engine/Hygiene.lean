import FormulaLang.Proofs.Engine.Blame
import FormulaLang.Proofs.Engine.Bound

/-!
# Scope hygiene

Evaluation adds bindings at the current level and takes none away, and what it binds in a block of
its own is gone behind the block. An outer variable of a name that a block binds is hidden there, so
the block leaves it as it was.

* `Variable.cell?`, `Environment.Made`: where the value of a variable is stored.
* `Environment.Hides`, `Environment.Seals`, `Environment.Shields`: names that are bound again further
  up, the cells that only variables of these names use, and what happens to both.
* `Environment.Tidy`: what evaluation does to an environment, with one lemma for each change.
* `Environment.Within`, `Environment.Restored`: a block that binds some names, inside and behind it.
* `Engine.Hygienic`, `Engine.Restored`: the same for engines, with their settings and faults.
* **`hygienic_eval`**: evaluation at every depth, its loops and its calls.
-/

namespace FormulaLang

open Eval (Moves)

/-! ## Cells -/

/-- The cell in which the value of a variable is stored, whether it is the host's or not. -/
def Variable.cell? : Variable → Option HostCell
  | .number cell => some (.number cell)
  | .value _ => none
  | .host cell => some cell

namespace Environment

open ScopedTable

variable {base env env' env'' : Environment} {held : List Nat} {names : List String}
  {name : String} {k n : Nat}

/-- A number cell is one of those that there are; evaluation makes no cell of another kind. -/
def Made (env : Environment) : HostCell → Prop
  | .number cell => cell < env.store.numbers.size
  | _ => True

theorem Made.mono {cell : HostCell} (h : env.Made cell)
    (hs : env.store.numbers.size ≤ env'.store.numbers.size) : env'.Made cell := by
  cases cell with
  | number cell => exact Nat.lt_of_lt_of_le h hs
  | bool cell | value cell => trivial

/-- Values of variables are in cells that there are. -/
theorem Sound.made (h : env.Sound held) {i : Nat} {w : Variable} {cell : HostCell}
    (hw : env.vars.value? i = some w) (hc : w.cell? = some cell) : env.Made cell := by
  cases w with
  | number c =>
    cases hc
    exact h.cells.own_lt i c hw
  | value v => cases hc
  | host c =>
    cases hc
    cases cell with
    | number c => exact h.cells.held_lt c (h.cells.host i c hw)
    | bool c | value c => trivial

theorem read_congr {w : Variable}
    (h : ∀ cell, w.cell? = some cell → env'.read (.host cell) = env.read (.host cell)) :
    env'.read w = env.read w := by
  cases w with
  | number cell => exact h _ rfl
  | value v => rfl
  | host cell => exact h cell rfl

/-- A value that is bound gets new storage, if it is stored in a cell at all. -/
theorem exists_fresh (env : Environment) (v : Value) : ∃ w store,
    (∀ name, env.addVariable name v =
      { env with vars := env.vars.add name w env.level, store }) ∧
    (∀ name, env.rebind name v =
      { env with vars := env.vars.modify name fun _ => w, store }) ∧
    (∀ cell, w.cell? = some cell → ¬ env.Made cell) ∧
    env.store.numbers.size ≤ store.numbers.size ∧
    ∀ vars cell, env.Made cell →
      Environment.read { env with vars, store } (.host cell) = env.read (.host cell) := by
  cases v with
  | number x =>
    refine ⟨.number env.store.numbers.size, env.store.pushNumber x, fun _ => rfl, fun _ => rfl,
      fun cell hc => ?_, by simp [Store.pushNumber], fun vars cell hc => ?_⟩
    · cases hc
      exact Nat.lt_irrefl _
    · cases cell with
      | number c => exact congrArg Value.number (number_pushNumber _ _ hc)
      | bool c | value c => rfl
  | _ =>
    exact ⟨.value _, env.store, fun _ => rfl, fun _ => rfl, fun cell hc => (by cases hc),
      Nat.le_refl _, fun _ _ _ => rfl⟩

/-! ## Hidden variables -/

/-- The variable at a place has a name. -/
def NamedAt (env : Environment) (i : Nat) (name : String) : Prop :=
  ∃ level, env.vars.frame[i]? = some (name, level)

/-- Names are bound at a place or further up, so that the variables of these names below it are
hidden. -/
def Hides (env : Environment) (k : Nat) (names : List String) : Prop :=
  ∀ name ∈ names, ∃ i, k ≤ i ∧ LastAt env.vars.frame name i

/-- A cell is used below a place only, by variables of some names only. -/
def Seals (env : Environment) (k : Nat) (names : List String) (cell : HostCell) : Prop :=
  ∀ i w, env.vars.value? i = some w → w.cell? = some cell →
    i < k ∧ ∃ name ∈ names, env.NamedAt i name

/-- The variables of some names below a place are as they were, and so are the cells that only they
use. -/
structure Shields (k : Nat) (names : List String) (env env' : Environment) : Prop where
  binding : ∀ i < k, ∀ name ∈ names, env.NamedAt i name → env'.vars.value? i = env.vars.value? i
  seals : ∀ cell, env.Made cell → env.Seals k names cell → env'.Seals k names cell
  read : ∀ cell, env.Made cell → env.Seals k names cell →
    env'.read (.host cell) = env.read (.host cell)

theorem NamedAt.grown {i level : Nat} (h : env.NamedAt i name)
    (hg : env.vars.Grown level env'.vars) : env'.NamedAt i name := by
  obtain ⟨l, hl⟩ := h
  exact ⟨l, hg.getElem?_frame hl⟩

theorem NamedAt.eq_of_lastAt {i : Nat} {other : String} (h : env.NamedAt i other)
    (hl : LastAt env.vars.frame name i) : other = name := by
  obtain ⟨l, hl'⟩ := h
  obtain ⟨⟨l', hi⟩, -⟩ := hl
  rw [hl'] at hi
  cases hi
  rfl

theorem Hides.grown {level : Nat} (h : env.Hides k names) (hg : env.vars.Grown level env'.vars) :
    env'.Hides k names := by
  intro name hn
  obtain ⟨i, hi, hl⟩ := h name hn
  obtain ⟨j, hj, hl'⟩ := hg.exists_lastAt hl
  exact ⟨j, Nat.le_trans hi hj, hl'⟩

/-- Where a hidden name is bound last is not below the place. -/
theorem Hides.not_lt {i : Nat} {other : String} (h : env.Hides k names) (ho : other ∈ names)
    (hi : env.NamedAt i other) (hl : LastAt env.vars.frame name i) : ¬ i < k := by
  obtain rfl := hi.eq_of_lastAt hl
  obtain ⟨j, hj, hl'⟩ := h other ho
  rw [hl.unique hl']
  exact Nat.not_lt.2 hj

namespace Shields

theorem refl (env : Environment) : Shields k names env env :=
  ⟨fun _ _ _ _ _ => rfl, fun _ _ h => h, fun _ _ _ => rfl⟩

theorem trans {level : Nat} (h : Shields k names env env') (h' : Shields k names env' env'')
    (hg : env.vars.Grown level env'.vars)
    (hsize : env.store.numbers.size ≤ env'.store.numbers.size) : Shields k names env env'' := by
  refine ⟨fun i hi name hn hname => ?_, fun cell hc hseal => ?_, fun cell hc hseal => ?_⟩
  · exact (h'.binding i hi name hn (hname.grown hg)).trans (h.binding i hi name hn hname)
  · exact h'.seals cell (hc.mono hsize) (h.seals cell hc hseal)
  · exact (h'.read cell (hc.mono hsize) (h.seals cell hc hseal)).trans (h.read cell hc hseal)

/-- New storage for a variable that has another name or stands further up. -/
theorem of_update {w : Variable} {j level : Nat}
    (hat : ∀ i, env'.vars.value? i = if i = j then some w else env.vars.value? i)
    (hg : env.vars.Grown level env'.vars) (hw : ∀ cell, w.cell? = some cell → ¬ env.Made cell)
    (hread : ∀ cell, env.Made cell → env'.read (.host cell) = env.read (.host cell))
    (hj : j < k → ∀ name ∈ names, ¬ env.NamedAt j name) : Shields k names env env' where
  binding i hi other ho hother := by
    rw [hat, if_neg]
    rintro rfl
    exact hj hi other ho hother
  seals cell hc hseal i u hu hcell := by
    rw [hat] at hu
    split at hu
    · cases hu
      exact absurd hc (hw cell hcell)
    · obtain ⟨hi, other, ho, hother⟩ := hseal i u hu hcell
      exact ⟨hi, other, ho, hother.grown hg⟩
  read cell hc _ := hread cell hc

end Shields

/-! ## Tidy changes -/

/-- What evaluation does to an environment: bindings are only added, at the current level; those of
the host below a place stay; and hidden variables stay as they are. -/
structure Tidy (held : List Nat) (n : Nat) (env env' : Environment) : Prop where
  sound : env'.Sound held
  level : env'.level = env.level
  vars : env.vars.Grown env.level env'.vars
  functions : env.functions.Grown env.level env'.functions
  size_le : env.store.numbers.size ≤ env'.store.numbers.size
  host : ∀ i < n, ∀ cell, env.vars.value? i = some (.host cell) →
    env'.vars.value? i = some (.host cell)
  shields : ∀ k names, env.Hides k names → Shields k names env env'

namespace Tidy

theorem refl (h : env.Sound held) : Tidy held n env env :=
  ⟨h, rfl, .of_frame rfl, .of_frame rfl, Nat.le_refl _, fun _ _ _ h => h, fun _ _ _ => .refl env⟩

theorem trans (h : Tidy held n env env') (h' : Tidy held n env' env'') :
    Tidy held n env env'' where
  sound := h'.sound
  level := h'.level.trans h.level
  vars := h.vars.trans (h.level ▸ h'.vars)
  functions := h.functions.trans (h.level ▸ h'.functions)
  size_le := Nat.le_trans h.size_le h'.size_le
  host i hi cell hc := h'.host i hi cell (h.host i hi cell hc)
  shields k names hk :=
    (h.shields k names hk).trans (h'.shields k names (hk.grown h.vars)) h.vars h.size_le

/-- **A variable with new storage**, which is the last one of its name. -/
theorem of_update {w : Variable} {j : Nat} (hs' : env'.Sound held) (hl : env'.level = env.level)
    (hvars : env.vars.Grown env.level env'.vars) (hf : env'.functions = env.functions)
    (hat : ∀ i, env'.vars.value? i = if i = j then some w else env.vars.value? i)
    (hj : LastAt env'.vars.frame name j) (hw : ∀ cell, w.cell? = some cell → ¬ env.Made cell)
    (hsize : env.store.numbers.size ≤ env'.store.numbers.size)
    (hread : ∀ cell, env.Made cell → env'.read (.host cell) = env.read (.host cell))
    (hhost : j < n → ∀ cell, env.vars.value? j ≠ some (.host cell)) : Tidy held n env env' where
  sound := hs'
  level := hl
  vars := hvars
  functions := .of_frame (by rw [hf])
  size_le := hsize
  host i hi cell hc := by
    rw [hat, if_neg, hc]
    rintro rfl
    exact hhost hi cell hc
  shields k names hk := .of_update hat hvars hw hread fun hlt other ho hother =>
    -- The place of the update is that of a visible name.
    (hk.grown hvars).not_lt ho (hother.grown hvars) hj hlt

/-- **A write to the cell of a visible variable.** -/
theorem of_write {store : Store} {j : Nat} {w : Variable} (hs' : { env with store }.Sound held)
    (hj : LastAt env.vars.frame name j) (hw : env.vars.value? j = some w)
    (hsize : env.store.numbers.size ≤ store.numbers.size)
    (hread : ∀ cell, w.cell? ≠ some cell →
      Environment.read { env with store } (.host cell) = env.read (.host cell)) :
    Tidy held n env { env with store } where
  sound := hs'
  level := rfl
  vars := .of_frame rfl
  functions := .of_frame rfl
  size_le := hsize
  host _ _ _ hc := hc
  shields k names hk := by
    refine ⟨fun _ _ _ _ _ => rfl, fun _ _ h => h, fun cell _ hseal => hread cell fun hcell => ?_⟩
    obtain ⟨hlt, other, ho, hother⟩ := hseal j w hw hcell
    exact hk.not_lt ho hother hj hlt

theorem addFunction (h : env.Sound held) (name : String) (f : Function) :
    Tidy held n env (env.addFunction name f) :=
  ⟨h.addFunction name f, rfl, .of_frame rfl, env.functions.grown_add name f env.level,
    Nat.le_refl _, fun _ _ _ h => h, fun _ _ _ =>
      ⟨fun _ _ _ _ _ => rfl, fun _ _ h => h, fun _ _ _ => rfl⟩⟩

/-- Binding a name is tidy, unless it takes the place of a binding of the host. -/
theorem exists_addVariable (h : env.Sound held) (name : String) (v : Value) :
    ∃ j, LastAt (env.addVariable name v).vars.frame name j ∧
      (env.vars.frame[j]? = some (name, env.level) ∨ j = env.vars.entries.size) ∧
      (∀ k names, k ≤ j → Shields k names env (env.addVariable name v)) ∧
      ∀ n, (j < n → ∀ cell, env.vars.value? j ≠ some (.host cell)) →
        Tidy held n env (env.addVariable name v) := by
  have hs' := h.addVariable name v
  obtain ⟨w, store, hadd, -, hw, hsize, hread⟩ := env.exists_fresh v
  obtain ⟨j, hat, hj⟩ := h.vars.add_spec name w env.level
  have hg := env.vars.grown_add name w env.level
  have hlast : LastAt (env.vars.add name w env.level).frame name j := by
    rcases hj with ⟨hframe, hj, -⟩ | ⟨hframe, hj⟩
    · rwa [hframe]
    · rw [hframe, lastAt_concat, if_pos rfl, hj]
  rw [hadd] at hs' ⊢
  refine ⟨j, hlast, ?_, fun k names hk => ?_, fun n hhost => ?_⟩
  · rcases hj with ⟨-, -, hj⟩ | ⟨-, hj⟩
    · exact .inl hj
    · exact .inr (hj.trans length_frame)
  · exact .of_update hat hg hw (hread _) fun hlt => absurd hlt (Nat.not_lt.2 hk)
  · exact of_update hs' rfl hg rfl hat hlast hw hsize (hread _) hhost

theorem rebind (h : env.Sound held) {j : Nat} (hj : env.vars.index[name]? = some j)
    (hhost : ∀ cell, env.vars.value? j ≠ some (.host cell)) (v : Value) :
    Tidy held n env (env.rebind name v) := by
  have hs' := h.rebind hj v
  obtain ⟨w, store, -, hrebind, hw, hsize, hread⟩ := env.exists_fresh v
  have hlast := (h.vars.index name j).1 hj
  rw [hrebind] at hs' ⊢
  exact of_update hs' rfl (.of_frame frame_modify) rfl (h.vars.value?_modify_const hlast)
    (by rwa [show ScopedTable.frame _ = _ from frame_modify]) hw hsize
    (fun cell hc => hread _ cell hc) fun _ => hhost

theorem setNumber (h : env.Sound held) {j cell : Nat} {w : Variable}
    (hj : LastAt env.vars.frame name j) (hw : env.vars.value? j = some w)
    (hc : w.cell? = some (.number cell)) (x : Float) :
    Tidy held n env { env with store := env.store.setNumber cell x } := by
  refine of_write (h.setNumber cell x) hj hw (by simp [Store.setNumber]) fun other ho => ?_
  rw [env.read_setNumber x (h.made hw hc), if_neg]
  intro hother
  rcases Variable.numberCell?_eq_some.1 hother with hother | hother
  · cases hother
  · cases hother
    exact ho hc

theorem writeHost (h : env.Sound held) {j : Nat} {cell : HostCell}
    (hj : LastAt env.vars.frame name j) (hw : env.vars.value? j = some (.host cell)) (v : Value) :
    Tidy held n env (env.writeHost name cell v).1 := by
  have hs' : (env.writeHost name cell v).1.Sound held := h.writeHost cell v
  unfold Environment.writeHost at hs' ⊢
  split
  · exact setNumber h hj hw rfl _
  · next c b =>
    refine of_write hs' hj hw (Nat.le_refl _) fun other ho => ?_
    cases other with
    | number d | value d => rfl
    | bool d =>
      have hne : c ≠ d := fun hcd => ho (by rw [hcd]; rfl)
      simp [Environment.read, Store.bool, Store.setBool, hne]
  · next u c =>
    refine of_write hs' hj hw (Nat.le_refl _) fun other ho => ?_
    cases other with
    | number d | bool d => rfl
    | value d =>
      have hne : c ≠ d := fun hcd => ho (by rw [hcd]; rfl)
      simp [Environment.read, Store.value, Store.setValue, hne]
  · exact .refl h
  · exact .refl h

/-- **Assigning is tidy**: a binding gives way only to one in its place, and never a host's. -/
theorem setVariable (h : env.Sound held) (name : String) (v : Value) :
    Tidy held n env (env.setVariable name v).1 := by
  unfold Environment.setVariable
  cases hv : env.vars.get? name with
  | none =>
    obtain ⟨j, -, hj, -, htidy⟩ := exists_addVariable h name v
    refine htidy n fun _ cell hcell => ?_
    -- A name without a value has no binding that could give way.
    rcases hj with hj | rfl
    · have hnone : env.vars.entry? name = none := Option.map_eq_none_iff.1 hv
      exact h.vars.entry?_eq_none.1 hnone _ (List.mem_of_getElem? hj)
    · simp [ScopedTable.value?] at hcell
  | some w =>
    obtain ⟨e, he, rfl⟩ := Option.map_eq_some_iff.1 hv
    obtain ⟨j, hj, hej⟩ := h.vars.entry?_eq_some.1 he
    have hvalue : env.vars.value? j = some e.value := by rw [ScopedTable.value?, hej]; rfl
    have hindex := (h.vars.index name j).2 hj
    have hrebind : (∀ cell, e.value ≠ .host cell) → ∀ v, Tidy held n env (env.rebind name v) :=
      fun hne v => rebind h hindex (fun cell hc => hne cell (Option.some.inj (hvalue.symm.trans hc))) v
    cases hval : e.value with
    | host cell => exact writeHost h hj (hval ▸ hvalue) v
    | value u => exact hrebind (by simp [hval]) v
    | number cell =>
      dsimp only
      split
      · exact setNumber h hj hvalue (by rw [hval]; rfl) _
      · exact hrebind (by simp [hval]) _

end Tidy

/-! ## Blocks -/

/-- Behind a block the bindings that it added are gone. -/
structure Left (base env : Environment) : Prop where
  level : env.leave.level = base.level
  vars : env.leave.vars.frame = base.vars.frame
  functions : env.leave.functions.frame = base.functions.frame
  value : ∀ i < base.vars.entries.size, env.leave.vars.value? i = env.vars.value? i

theorem Tidy.left (h : Tidy held n base.enter env) (hb : base.Sound held) : base.Left env := by
  have hl : env.level = base.level + 1 := h.level
  obtain ⟨hvars, hvalue⟩ := ScopedTable.Grown.dropLevel h.vars hb.varsLevel
    (hl ▸ h.sound.varsLevel)
  obtain ⟨hfunctions, -⟩ := ScopedTable.Grown.dropLevel h.functions hb.functionsLevel
    (hl ▸ h.sound.functionsLevel)
  have hleave : env.leave = { env with
      vars := env.vars.dropLevel (base.level + 1)
      functions := env.functions.dropLevel (base.level + 1)
      level := base.level } := by
    unfold Environment.leave
    rw [hl]
  constructor <;> rw [hleave]
  · exact hvars
  · exact hfunctions
  · exact hvalue

theorem NamedAt.lt {i : Nat} (h : env.NamedAt i name) : i < env.vars.entries.size := by
  obtain ⟨l, hl⟩ := h
  rw [← length_frame]
  exact (List.getElem?_eq_some_iff.1 hl).1

theorem exists_namedAt {i : Nat} {w : Variable} (hw : env.vars.value? i = some w) :
    ∃ name, env.NamedAt i name := by
  obtain ⟨e, he, -⟩ := Option.map_eq_some_iff.1 hw
  exact ⟨e.name, e.level, by rw [getElem?_frame, he]; rfl⟩

/-- What is shielded in a block is so behind it. -/
theorem Shields.leave (h : Shields k names base.enter env) (hl : base.Left env)
    (hg : base.vars.Grown (base.level + 1) env.vars) : Shields k names base env.leave where
  binding i hi name hn hname := (hl.value i hname.lt).trans (h.binding i hi name hn hname)
  seals cell hc hseal i w hw hcell := by
    -- A variable behind the block is one in front of it, with the value from the block.
    obtain ⟨name, level, hname⟩ := exists_namedAt hw
    have hbase : base.NamedAt i name := ⟨level, hl.vars ▸ hname⟩
    obtain ⟨hi, other, ho, hother⟩ :=
      h.seals cell hc hseal i w ((hl.value i hbase.lt).symm.trans hw) hcell
    refine ⟨hi, name, ?_, level, hname⟩
    obtain ⟨l, hl'⟩ := hother
    obtain ⟨l', hbase⟩ := hbase
    rw [hg.getElem?_frame hbase] at hl'
    cases hl'
    exact ho
  read cell hc hseal := by
    have hread := h.read cell hc hseal
    unfold Environment.read at hread ⊢
    rwa [store_leave]

/-- **A block is tidy** if what happens in it is. -/
theorem Tidy.leave (h : Tidy held base.vars.entries.size base.enter env) (hb : base.Sound held) :
    Tidy held n base env.leave where
  sound := h.sound.leave
  level := (h.left hb).level
  vars := .of_frame (h.left hb).vars
  functions := .of_frame (h.left hb).functions
  size_le := by
    rw [store_leave]
    exact h.size_le
  host i _ cell hc := by
    obtain ⟨name, hname⟩ := exists_namedAt hc
    rw [(h.left hb).value i hname.lt]
    exact h.host i hname.lt cell hc
  shields k names hk := (h.shields k names hk).leave (h.left hb) h.vars

/-- In a block on top of an environment, binding a name is tidy as far as that goes, and hides what
the name is bound to there. -/
theorem Tidy.addVariable (h : Tidy held base.vars.entries.size base.enter env)
    (hb : base.Sound held) (name : String) (v : Value) :
    Tidy held base.vars.entries.size env (env.addVariable name v) ∧
      (env.addVariable name v).Hides base.vars.entries.size [name] ∧
      ∀ names, Shields base.vars.entries.size names env (env.addVariable name v) := by
  obtain ⟨j, hlast, hj, hshields, htidy⟩ := exists_addVariable h.sound name v
  -- The new binding stands above those of the base, whose levels are lower.
  have hge : base.vars.entries.size ≤ j := by
    rcases hj with hj | rfl
    · by_contra hlt
      have hlt' : j < base.vars.frame.length := by
        rw [length_frame]
        exact Nat.lt_of_not_le hlt
      have hframe := h.vars.getElem?_frame (List.getElem?_eq_getElem hlt')
      rw [hj] at hframe
      have hle := hb.varsLevel.le _ (List.getElem_mem hlt')
      rw [← Option.some.inj hframe, h.level] at hle
      exact absurd hle (Nat.not_succ_le_self _)
    · exact h.vars.size_le
  refine ⟨htidy _ fun hlt => absurd hlt (Nat.not_lt.2 hge), fun other ho => ?_,
    fun names => hshields _ names hge⟩
  obtain rfl := List.mem_singleton.1 ho
  exact ⟨j, hge, hlast⟩

/-! ## Blocks that bind names -/

/-- In a block on top of an environment some names are bound, so that their variables in the
environment are as they were. -/
structure Within (held : List Nat) (names : List String) (base env : Environment) : Prop where
  tidy : Tidy held base.vars.entries.size base.enter env
  shields : Shields base.vars.entries.size names base.enter env

/-- Behind a block that bound some names, bindings are where they were, and variables of these
names are what they were; those that share a cell of the host with a variable of another name keep
their cell. -/
structure Restored (names : List String) (env env' : Environment) : Prop where
  level : env'.level = env.level
  vars : env'.vars.frame = env.vars.frame
  functions : env'.functions.frame = env.functions.frame
  host : ∀ i cell, env.vars.value? i = some (.host cell) → env'.vars.value? i = some (.host cell)
  binding : ∀ i, ∀ name ∈ names, env.NamedAt i name → env'.vars.value? i = env.vars.value? i
  read : ∀ i w, ∀ name ∈ names, env.NamedAt i name → env.vars.value? i = some w →
    (∀ cell, w = .host cell → ∀ j, env.vars.value? j = some (.host cell) →
      ∃ other ∈ names, env.NamedAt j other) → env'.read w = env.read w

namespace Within

theorem enter (h : base.Sound held) (names : List String) : Within held names base base.enter :=
  ⟨.refl h.enter, .refl _⟩

theorem addVariable (h : Within held names base env) (hb : base.Sound held) (name : String)
    (v : Value) : Within held names base (env.addVariable name v) ∧
      (env.addVariable name v).Hides base.vars.entries.size [name] := by
  obtain ⟨htidy, hhides, hshields⟩ := h.tidy.addVariable hb name v
  exact ⟨⟨h.tidy.trans htidy, h.shields.trans (hshields names) h.tidy.vars h.tidy.size_le⟩, hhides⟩

/-- As long as the names are hidden, tidy changes are fine. -/
theorem step (h : Within held names base env) (hh : env.Hides base.vars.entries.size names)
    (ht : Tidy held base.vars.entries.size env env') : Within held names base env' :=
  ⟨h.tidy.trans ht, h.shields.trans (ht.shields _ _ hh) h.tidy.vars h.tidy.size_le⟩

/-- Binding several names hides them all. -/
theorem addVariables (h : Within held names base env) (hb : base.Sound held)
    (pairs : List (String × Value)) (hidden : List String)
    (hh : env.Hides base.vars.entries.size hidden) : Within held names base (env.addVariables pairs) ∧
      (env.addVariables pairs).Hides base.vars.entries.size (hidden ++ pairs.map Prod.fst) := by
  induction pairs generalizing env hidden with
  | nil => exact ⟨h, by rw [List.map_nil, List.append_nil]; exact hh⟩
  | cons p pairs ih =>
    obtain ⟨h', hhides⟩ := h.addVariable hb p.1 p.2
    obtain ⟨htidy, -, -⟩ := h.tidy.addVariable hb p.1 p.2
    have hboth : (env.addVariable p.1 p.2).Hides base.vars.entries.size (hidden ++ [p.1]) := by
      intro name hn
      exact (List.mem_append.1 hn).elim (hh.grown htidy.vars name) (hhides name)
    have := ih h' _ hboth
    rwa [List.append_assoc] at this

/-- **Behind the block** everything is restored. -/
theorem leave (h : Within held names base env) (hb : base.Sound held) :
    base.Restored names env.leave := by
  have hleft := h.tidy.left hb
  have htidy := h.tidy.leave (n := base.vars.entries.size) hb
  have hshields := h.shields.leave hleft h.tidy.vars
  refine ⟨hleft.level, hleft.vars, hleft.functions, fun i cell hc => ?_,
    fun i name hn hname => hshields.binding i hname.lt name hn hname,
    fun i w name hn hname hw hshared => read_congr fun cell hcell =>
      hshields.read cell (hb.made hw hcell) fun j u hu hcell' => ?_⟩
  · obtain ⟨name, hname⟩ := exists_namedAt hc
    exact htidy.host i hname.lt cell hc
  · obtain ⟨other, hother⟩ := exists_namedAt hu
    refine ⟨hother.lt, ?_⟩
    -- A cell that is not the host's has one variable.
    cases w with
    | value v => cases hcell
    | number c =>
      cases hcell
      cases u with
      | value v => cases hcell'
      | number c' =>
        cases hcell'
        obtain rfl := hb.cells.unique i j c hw hu
        exact ⟨name, hn, hname⟩
      | host c' =>
        cases hcell'
        exact absurd (hb.cells.host j c hu) (hb.cells.own i c hw)
    | host c =>
      cases hcell
      cases u with
      | value v => cases hcell'
      | number c' =>
        cases hcell'
        exact absurd (hb.cells.host i c' hw) (hb.cells.own j c' hu)
      | host c' =>
        cases hcell'
        exact hshared cell rfl j hu

end Within

theorem Restored.refl (env : Environment) : env.Restored names env :=
  ⟨rfl, rfl, rfl, fun _ _ h => h, fun _ _ _ _ => rfl, fun _ _ _ _ _ _ _ => rfl⟩

end Environment

/-! ## Engines -/

open Environment (Tidy Within)
open Engine (InBlock Records Scoped)

/-- Changes of sound environments are tidy. -/
def KeepsTidy (held : List Nat) (st st' : Engine) : Prop :=
  st.env.Sound held → ∀ n, Tidy held n st.env st'.env

/-- In a block on top of an environment some names are bound. -/
def KeepsWithin (held : List Nat) (names : List String) (base : Environment)
    (st st' : Engine) : Prop :=
  Within held names base st.env → Within held names base st'.env

section Engine

variable {held : List Nat} {names : List String} {base : Environment} {cells : List HostCell}
  {st st' : Engine}

/-- What happens in a block is tidy as far as the bindings go that there were. -/
theorem Engine.InBlock.tidy (h : InBlock (KeepsTidy held) (st.onEnv .enter) st')
    (hs : st.env.Sound held) : Tidy held st.env.vars.entries.size st.env.enter st'.env := by
  induction h with
  | refl => exact .refl hs.enter
  | move _ hr ih => exact ih.trans (hr ih.sound _)
  | bind name v _ ih => exact ih.trans (ih.addVariable hs name v).1

instance (held : List Nat) : Scoped (KeepsTidy held) where
  refl _ hs _ := .refl hs
  trans h h' hs n := (h hs n).trans (h' (h hs n).sound n)
  note _ _ hs _ := .refl hs
  assign st name v hs n := by
    rcases assign_cases st name v with ⟨ha, _⟩ | ⟨f, ha⟩
    · rw [ha]
      exact .setVariable hs name v
    · rw [ha]
      exact .setVariable hs name v
  addFunction _ name f hs _ := .addFunction hs name f
  block h hs _ := (h.tidy hs).leave hs

instance (held : List Nat) (names : List String) (base : Environment) :
    Records (KeepsWithin held names base) where
  refl _ h := h
  trans h h' hw := h' (h hw)
  note _ _ h := h

/-- Evaluation restores the level, leaves bindings where they are with their names and levels, adds
some at the current level only, leaves variables of the host with their cells, and only records
faults. Calls nest as deep as before, since the settings are the same. -/
structure Engine.Hygienic (st st' : Engine) : Prop where
  level : st'.env.level = st.env.level
  vars : st.env.vars.Grown st.env.level st'.env.vars
  functions : st.env.functions.Grown st.env.level st'.env.functions
  host : ∀ i cell, st.env.vars.value? i = some (.host cell) →
    st'.env.vars.value? i = some (.host cell)
  settings : KeepsSettings st st'
  log : KeepsLog st st'

/-- Nothing is left of a block that bound some names but the faults that were recorded and the
values that variables of other names were assigned. -/
structure Engine.Restored (names : List String) (st st' : Engine) : Prop where
  env : st.env.Restored names st'.env
  settings : KeepsSettings st st'
  log : KeepsLog st st'

theorem Engine.Restored.inBlock {x : Eval Value} (hs : st.env.Sound held)
    (hx : Moves (KeepsWithin held names st.env) x) (hsettings : Moves (InBlock KeepsSettings) x)
    (hlog : Moves (InBlock KeepsLog) x) : st.Restored names (Eval.inBlock x st).2 where
  env := (hx (st.onEnv .enter) (.enter hs names)).leave hs
  settings := moves_inBlock hsettings st
  log := moves_inBlock hlog st

/-- A loop restores what its variable hides. -/
theorem restored_runLoop (hs : st.env.Sound held) {body : Eval Value}
    (hb : ∀ {R} [Scoped R], Moves R body) (name : String) (items : Items) (kind : LoopKind) :
    st.Restored [name] (Eval.inBlock (runLoop name body items kind) st).2 := by
  refine .inBlock hs (moves_rounds (fun item => ?_) items kind) (moves_runLoop hb items kind)
    (moves_runLoop hb items kind)
  intro st₁ hw
  obtain ⟨hw', hhides⟩ := hw.addVariable hs name item
  exact hw'.step hhides
    (hb (R := KeepsTidy held) (st₁.onEnv (·.addVariable name item)) hw'.tidy.sound _)

/-- A call restores what the parameters of the function hide. -/
theorem restored_invoke (hs : st.env.Sound held) (n : Nat) (name : String) {params : List String}
    (hp : params ≠ []) (body : Expr) (args : List Value) :
    st.Restored params (invoke (deeperAt n) name (.user params body) args st).2 := by
  have hfail : ∀ f : Fault, st.Restored params (Eval.fail f st).2 := fun f =>
    ⟨.refl _, rfl, keepsLog_note st f.unlocated⟩
  unfold invoke
  split
  · exact ⟨.refl _, rfl, Records.refl (R := KeepsLog) st⟩
  · cases harity : (Function.user params body).arity.filter (· ≠ args.length) with
    | some expected => exact hfail _
    | none =>
      have hlen : params.length = args.length := by
        simpa [Function.user, Option.filter] using harity
      cases n with
      | zero => exact hfail _
      | succ n =>
        change st.Restored params (callUser (performAt n) params body args st).2
        have hbody : ∀ {R} [Scoped R], Moves R (performAt n (.evaluate body)) := moves_performAt n _
        unfold callUser
        rw [if_neg (by simpa using hp)]
        have hrest : ∀ {R} [Scoped R], Moves (InBlock R) (bindAll params args >>= fun _ =>
            performAt n (.evaluate body)) := moves_bind (moves_bindAll _ _) fun _ => hbody.inside
        refine .inBlock hs (fun st₁ hw => ?_) hrest hrest
        obtain ⟨hw', hhides⟩ := hw.addVariables hs (params.zip args) []
          fun _ h => (by cases h)
        rw [List.nil_append, List.map_fst_zip (Nat.le_of_eq hlen)] at hhides
        exact hw'.step hhides (hbody (R := KeepsTidy held)
          (st₁.onEnv (·.addVariables (params.zip args))) hw'.tidy.sound _)

/-- **Evaluation is hygienic** in every engine that can be reached, at the outermost level as with
every number of nested calls left: whether it succeeds, fails or nests too deep. Its loops and its
calls of functions with parameters leave no binding behind, and the variables that they hide as
they were. -/
theorem hygienic_eval (h : Engine.Reachable cells st) (n : Nat) :
    (∀ e, st.Hygienic (Engine.evaluate e st).2) ∧
    (∀ e, st.Hygienic (eval (deeperAt n) e st).2) ∧
    (∀ name body items kind, st.Restored [name]
      (Eval.inBlock (runLoop name (eval (deeperAt n) body) items kind) st).2) ∧
    ∀ name params body args, params ≠ [] →
      st.Restored params (invoke (deeperAt n) name (.user params body) args st).2 := by
  have hs := h.sound
  have heval : ∀ (n : Nat) (e : Expr) {R} [Scoped R], Moves R (eval (deeperAt n) e) :=
    fun n e => moves_eval (moves_deeperAt n) e
  have hygienic : ∀ n e, st.Hygienic (eval (deeperAt n) e st).2 := by
    intro n e
    have htidy : KeepsTidy (HostCell.numberCells cells) st _ := heval n e st
    refine ⟨(htidy hs 0).level, (htidy hs 0).vars, (htidy hs 0).functions, fun i cell hc => ?_,
      heval n e st, heval n e st⟩
    exact (htidy hs (i + 1)).host i (Nat.lt_succ_self i) cell hc
  refine ⟨fun e => ?_, hygienic n, fun name body items kind => ?_, fun name params body args hp => ?_⟩
  · rw [evaluate_eq]
    exact hygienic _ e
  · exact restored_runLoop hs (heval n body) name items kind
  · exact restored_invoke hs n name hp body args

/-- A variable that a loop and a parameter hide, with a fault and a new variable next to them. -/
theorem hygienic_hiddenVariable :
    let st := (Engine.create {}).onEnv (·.addVariable "x" (.number 5.0))
    Engine.Reachable [] st ∧
    st.Hygienic (Engine.evaluate (.sequence [.assign "y" (.var "x"), .var "z"]) st).2 ∧
    st.Restored ["x"] (Eval.inBlock (runLoop "x" (eval (deeperAt 1) (.assign "x" (.var "x")))
      (.values [.number 1.0, .number 2.0]) .sum) st).2 ∧
    ["x"] ≠ [] ∧ st.Restored ["x"]
      (invoke (deeperAt 1) "f" (.user ["x"] (.assign "x" (.var "x"))) [.number 3.0] st).2 := by
  have h := (Engine.Reachable.create {}).addVariable "x" (.number 5.0)
  obtain ⟨hevaluate, -, hloop, hcall⟩ := hygienic_eval h 1
  have hx : ["x"] ≠ [] := by decide
  exact ⟨h, hevaluate _, hloop "x" _ _ .sum, hx, hcall "f" ["x"] _ _ hx⟩

end Engine

end FormulaLang
