import FormulaLang.Proofs.Environment
import FormulaLang.Proofs.Environment.Scopes

/-!
# Environments are stacks of finite maps

An environment keeps its bindings in one array, with an index and with numbers in cells. Seen from
outside it is a stack of finite maps for the variables, one for the functions, and the cells that
the host holds.

* `SharedCell`, `Binding`, `Bindings`: the stacks, what they bind and the cells of the host.
* `Operation`, `Bindings.run`, `Hosted.run`: operations on the stacks and on an environment.
* `Hosted.Agrees`: the environment and the stacks say the same.
* **`Hosted.Agrees.apply`**: every operation keeps them in agreement.
* **`answers_run`**: after any operations, whatever is looked up in the environment is what the
  stacks have, and an assignment that fails changes nothing.
-/

namespace FormulaLang

/-! ## Stacks of finite maps -/

/-- A cell that the host holds: one for numbers, one for bools, or one for values of any kind. -/
inductive SharedCell where
  | number (x : Float)
  | bool (b : Bool)
  | value (v : Value)

namespace SharedCell

def read : SharedCell → Value
  | number x => .number x
  | bool b => .bool b
  | value v => v

/-- A new cell for a value. -/
def ofValue : Value → Bool → SharedCell
  | .number x, false => number x
  | .bool b, false => bool b
  | v, _ => value v

/-- Writing a cell. A cell for numbers or bools refuses values of another kind than its own. -/
def write : SharedCell → Value → Except Kind SharedCell
  | number _, .number x => .ok (number x)
  | bool _, .bool b => .ok (bool b)
  | value _, v => .ok (value v)
  | number _, _ => .error .number
  | bool _, _ => .error .bool

end SharedCell

/-- What a variable is bound to: a value of its own, or the cell of the host with a number. -/
inductive Binding where
  | own (v : Value)
  | host (i : Nat)

/-- Stacks of scopes, and the cells of the host in the order they were made. -/
structure Bindings where
  vars : Scopes Binding
  functions : Scopes Function
  cells : List SharedCell

namespace Bindings

def empty : Bindings := ⟨.empty, .empty, []⟩

def read (b : Bindings) : Binding → Value
  | .own v => v
  | .host i => (b.cells[i]?.map SharedCell.read).getD .void

/-- The value of the innermost variable of a name. -/
def value? (b : Bindings) (name : String) : Option Value :=
  (b.vars.find? name).map fun p => b.read p.1

/-- The values of all variables that are bound, by name. -/
def values (b : Bindings) : List (String × Value) :=
  (b.vars.names.sort (· ≤ ·)).filterMap fun name => (b.value? name).map (name, ·)

def function? (b : Bindings) (name : String) : Option Function :=
  (b.functions.find? name).map Prod.fst

/-- Assigns to the innermost variable of a name, or binds the name in the top map. -/
def setVariable (b : Bindings) (name : String) (v : Value) : Bindings × Option Fault :=
  match b.vars.find? name with
  | none => ({ b with vars := b.vars.bind name (.own v) }, none)
  | some (.own _, _) => ({ b with vars := b.vars.assign name (.own v) }, none)
  | some (.host i, _) =>
    match b.cells[i]?.map (SharedCell.write · v) with
    | some (.ok cell) => ({ b with cells := b.cells.set i cell }, none)
    | some (.error kind) => (b, some (.hostKind name kind v.kind))
    | none => (b, none)

end Bindings

/-! ## Operations -/

/-- What the host does with an environment. It names its cells by their numbers. -/
inductive Operation where
  | enter
  | leave
  | clear
  | addVariable (name : String) (v : Value)
  | setVariable (name : String) (v : Value)
  | addFunction (name : String) (f : Function)
  | newCell (v : Value) (boxed : Bool)
  | addHost (name : String) (i : Nat)

def Bindings.apply (b : Bindings) : Operation → Bindings
  | .enter => { b with vars := b.vars.enter, functions := b.functions.enter }
  | .leave => { b with vars := b.vars.leave, functions := b.functions.leave }
  | .clear => { b with vars := .empty, functions := .empty }
  | .addVariable name v => { b with vars := b.vars.bind name (.own v) }
  | .setVariable name v => (b.setVariable name v).1
  | .addFunction name f => { b with functions := b.functions.bind name f }
  | .newCell v boxed => { b with cells := b.cells ++ [.ofValue v boxed] }
  | .addHost name i => if i < b.cells.length then { b with vars := b.vars.bind name (.host i) } else b

def Bindings.run (ops : List Operation) : Bindings := ops.foldl apply empty

/-- An environment, and the cells of its host in the order they were made. -/
structure Hosted where
  env : Environment
  cells : List HostCell

namespace Hosted

def empty : Hosted := ⟨.empty, []⟩

def apply (h : Hosted) : Operation → Hosted
  | .enter => { h with env := h.env.enter }
  | .leave => { h with env := h.env.leave }
  | .clear => { h with env := h.env.clear }
  | .addVariable name v => { h with env := h.env.addVariable name v }
  | .setVariable name v => { h with env := (h.env.setVariable name v).1 }
  | .addFunction name f => { h with env := h.env.addFunction name f }
  | .newCell v boxed =>
    { env := (h.env.newHostCell v boxed).2, cells := h.cells ++ [(h.env.newHostCell v boxed).1] }
  | .addHost name i =>
    match h.cells[i]? with
    | some cell => { h with env := h.env.addHost name cell }
    | none => h

def run (ops : List Operation) : Hosted := ops.foldl apply empty

end Hosted

/-! ## Cells -/

namespace Store

variable {s : Store} {cell other : HostCell}

/-- What a cell holds. -/
def shared (s : Store) : HostCell → SharedCell
  | .number c => .number (s.number c)
  | .bool c => .bool (s.bool c)
  | .value c => .value (s.value c)

/-- There is such a cell. -/
def Has (s : Store) : HostCell → Prop
  | .number c => c < s.numbers.size
  | .bool c => c < s.bools.size
  | .value c => c < s.values.size

/-- Cells were added, and those that there were hold what they held. -/
structure Grows (s s' : Store) : Prop where
  has : ∀ cell, s.Has cell → s'.Has cell
  shared : ∀ cell, s.Has cell → s'.shared cell = s.shared cell

theorem grows_pushNumber (s : Store) (x : Float) : s.Grows (s.pushNumber x) where
  has
    | .number _, hc => Nat.lt_of_lt_of_eq (Nat.lt_succ_of_lt hc) (Array.size_push ..).symm
    | .bool _, hc | .value _, hc => hc
  shared
    | .number _, hc => congrArg SharedCell.number (getD_push _ _ _ hc)
    | .bool _, _ | .value _, _ => rfl

theorem grows_pushBool (s : Store) (b : Bool) : s.Grows (s.pushBool b) where
  has
    | .bool _, hc => Nat.lt_of_lt_of_eq (Nat.lt_succ_of_lt hc) (Array.size_push ..).symm
    | .number _, hc | .value _, hc => hc
  shared
    | .bool _, hc => congrArg SharedCell.bool (getD_push _ _ _ hc)
    | .number _, _ | .value _, _ => rfl

theorem grows_pushValue (s : Store) (v : Value) : s.Grows (s.pushValue v) where
  has
    | .value _, hc => Nat.lt_of_lt_of_eq (Nat.lt_succ_of_lt hc) (Array.size_push ..).symm
    | .number _, hc | .bool _, hc => hc
  shared
    | .value _, hc => congrArg SharedCell.value (getD_push _ _ _ hc)
    | .number _, _ | .bool _, _ => rfl

/-- One cell is written, and the others stay as they are. -/
structure Writes (s : Store) (cell : HostCell) (c : SharedCell) (s' : Store) : Prop where
  size : s'.numbers.size = s.numbers.size
  has : ∀ other, s.Has other → s'.Has other
  shared : ∀ other, s'.shared other = if other = cell then c else s.shared other

theorem writes_setNumber {c : Nat} (hc : c < s.numbers.size) (x : Float) :
    s.Writes (.number c) (.number x) (s.setNumber c x) := by
  refine ⟨Array.size_setIfInBounds, fun other ho => ?_, fun other => ?_⟩
  · cases other with
    | number k => exact Nat.lt_of_lt_of_eq ho Array.size_setIfInBounds.symm
    | bool k | value k => exact ho
  · cases other with
    | number k =>
      rw [shared, number, setNumber, getD_setIfInBounds _ _ _ hc]
      simp only [HostCell.number.injEq]
      split <;> rfl
    | bool k | value k => rfl

theorem writes_setBool {c : Nat} (hc : c < s.bools.size) (b : Bool) :
    s.Writes (.bool c) (.bool b) (s.setBool c b) := by
  refine ⟨rfl, fun other ho => ?_, fun other => ?_⟩
  · cases other with
    | bool k => exact Nat.lt_of_lt_of_eq ho Array.size_setIfInBounds.symm
    | number k | value k => exact ho
  · cases other with
    | bool k =>
      rw [shared, bool, setBool, getD_setIfInBounds _ _ _ hc]
      simp only [HostCell.bool.injEq]
      split <;> rfl
    | number k | value k => rfl

theorem writes_setValue {c : Nat} (hc : c < s.values.size) (v : Value) :
    s.Writes (.value c) (.value v) (s.setValue c v) := by
  refine ⟨rfl, fun other ho => ?_, fun other => ?_⟩
  · cases other with
    | value k => exact Nat.lt_of_lt_of_eq ho Array.size_setIfInBounds.symm
    | number k | bool k => exact ho
  · cases other with
    | value k =>
      rw [shared, value, setValue, getD_setIfInBounds _ _ _ hc]
      simp only [HostCell.value.injEq]
      split <;> rfl
    | number k | bool k => rfl

end Store

/-! ## Listing the variables -/

/-- Two lists with the names in order are equal if they have the same members. -/
theorem eq_of_ordered {γ : Type} {xs ys : List (String × γ)} (hxs : xs.Pairwise (·.1 < ·.1))
    (hys : ys.Pairwise (·.1 < ·.1)) (hm : ∀ p, p ∈ xs ↔ p ∈ ys) : xs = ys := by
  have hnodup : ∀ {zs : List (String × γ)}, zs.Pairwise (·.1 < ·.1) → zs.Nodup := by
    intro zs hzs
    refine List.Pairwise.imp (S := (· ≠ ·)) ?_ hzs
    rintro p q hlt rfl
    exact lt_irrefl _ hlt
  have hperm := (List.perm_ext_iff_of_nodup (hnodup hxs) (hnodup hys)).2 hm
  exact hperm.eq_of_pairwise (fun p q _ _ hpq hqp => absurd hpq (lt_asymm hqp)) hxs hys

namespace Environment

variable {env : Environment} {name : String} {v : Value}

theorem mem_values (hc : env.vars.Coherent) : (name, v) ∈ env.values ↔
    env.value? name = some v := by
  rw [values, List.mem_mergeSort, List.mem_map, value?]
  constructor
  · rintro ⟨⟨name', w⟩, hm, hp⟩
    cases hp
    rw [hc.mem_visible.1 hm]
  · intro hv
    cases hw : env.vars.get? name with
    | none =>
      rw [hw] at hv
      cases hv
    | some w =>
      rw [hw] at hv
      cases hv
      exact ⟨(name, w), hc.mem_visible.2 hw, rfl⟩

theorem ordered_values (env : Environment) : env.values.Pairwise (·.1 < ·.1) := by
  have hsorted : env.values.Pairwise fun p q => ¬ q.1 < p.1 := by
    refine (List.pairwise_mergeSort (fun p q r hpq hqr => ?_) (fun p q => ?_) _).imp
      fun hpq => by simpa using hpq
    · simp only [Bool.not_eq_true', decide_eq_false_iff_not, not_lt] at hpq hqr ⊢
      exact le_trans hpq hqr
    · simp only [Bool.or_eq_true, Bool.not_eq_true', decide_eq_false_iff_not, not_lt]
      exact le_total p.1 q.1
  have hnodup : (env.values.map Prod.fst).Nodup := by
    rw [values, ((List.mergeSort_perm _ _).map Prod.fst).nodup_iff, List.map_map]
    exact env.vars.nodup_visible
  exact hsorted.imp₂ (fun p q hle hne => lt_of_le_of_ne (not_lt.1 hle) hne)
    (List.pairwise_map.1 hnodup)

end Environment

namespace Bindings

variable {b : Bindings} {name : String} {v : Value}

theorem mem_values : (name, v) ∈ b.values ↔ b.value? name = some v := by
  rw [values, List.mem_filterMap]
  constructor
  · rintro ⟨other, -, hp⟩
    obtain ⟨u, hu, hp⟩ := Option.map_eq_some_iff.1 hp
    cases hp
    exact hu
  · intro hv
    refine ⟨name, (Finset.mem_sort _).2 (Scopes.mem_names.2 ?_), by rw [hv]; rfl⟩
    obtain ⟨p, hp, -⟩ := Option.map_eq_some_iff.1 hv
    rw [hp]
    rfl

theorem ordered_values (b : Bindings) : b.values.Pairwise (·.1 < ·.1) := by
  refine List.Pairwise.filterMap _ (fun name other hlt p hp q hq => ?_)
    (Finset.sortedLT_sort b.vars.names).pairwise
  obtain ⟨u, -, rfl⟩ := Option.map_eq_some_iff.1 hp
  obtain ⟨w, -, rfl⟩ := Option.map_eq_some_iff.1 hq
  exact hlt

end Bindings

/-! ## Agreement -/

/-- What a variable is bound to, for the host. -/
def Store.binding (s : Store) (cells : List HostCell) : Variable → Binding
  | .number c => .own (s.shared (.number c)).read
  | .value v => .own v
  | .host cell => .host (cells.idxOf cell)

/-- An environment and stacks of finite maps say the same. -/
structure Hosted.Agrees (h : Hosted) (b : Bindings) : Prop where
  sound : h.env.Sound (HostCell.numberCells h.cells)
  levels : b.vars.level = h.env.level ∧ b.functions.level = h.env.level
  vars : h.env.vars.Shows (h.env.store.binding h.cells) b.vars
  functions : h.env.functions.Shows id b.functions
  nodup : h.cells.Nodup
  has : ∀ cell ∈ h.cells, h.env.store.Has cell
  host : ∀ i cell, h.env.vars.value? i = some (.host cell) → cell ∈ h.cells
  cells : h.cells.map h.env.store.shared = b.cells

namespace Hosted

variable {h : Hosted} {b : Bindings}

theorem agrees_empty : empty.Agrees .empty where
  sound := Environment.sound_empty
  levels := ⟨rfl, rfl⟩
  vars := ScopedTable.shows_empty
  functions := ScopedTable.shows_empty
  nodup := .nil
  has _ hc := absurd hc List.not_mem_nil
  host _ _ hi := by cases hi
  cells := rfl

namespace Agrees

open ScopedTable

theorem enter (ha : h.Agrees b) : (h.apply .enter).Agrees (b.apply .enter) where
  sound := ha.sound.enter
  levels := ⟨congrArg (· + 1) ha.levels.1, congrArg (· + 1) ha.levels.2⟩
  vars := ha.vars.enter
  functions := ha.functions.enter
  nodup := ha.nodup
  has := ha.has
  host := ha.host
  cells := ha.cells

theorem clear (ha : h.Agrees b) : (h.apply .clear).Agrees (b.apply .clear) where
  sound := ha.sound.clear
  levels := ⟨rfl, rfl⟩
  vars := shows_empty
  functions := shows_empty
  nodup := ha.nodup
  has := ha.has
  host _ _ hi := by cases hi
  cells := ha.cells

theorem leave (ha : h.Agrees b) : (h.apply .leave).Agrees (b.apply .leave) := by
  have hsound := ha.sound.leave
  obtain ⟨env, cells⟩ := h
  obtain ⟨vars, functions, level, store⟩ := env
  obtain ⟨hv, hf⟩ := ha.levels
  cases level with
  | zero =>
    have hstay : ∀ {β : Type} {s : Scopes β}, s.level = 0 → s.leave = s := by
      intro β s hs
      cases s with
      | outermost m => rfl
      | block m outer => cases hs
    have hb : b.apply .leave = b := by
      rw [Bindings.apply, hstay hv, hstay hf]
    rw [hb]
    exact ha
  | succ n =>
    exact {
      sound := hsound
      levels := ⟨by rw [Bindings.apply, Scopes.level_leave, hv]; rfl,
        by rw [Bindings.apply, Scopes.level_leave, hf]; rfl⟩
      vars := ha.vars.dropLevel hv
      functions := ha.functions.dropLevel hf
      nodup := ha.nodup
      has := ha.has
      host := fun i cell hi => ha.host i cell (value?_dropLevel hi)
      cells := ha.cells }

/-! ### Binding -/

variable {name : String} {v : Value} {w : Variable} {store : Store} {t : ScopedTable Variable}
  {k : Nat}

/-- What was bound stays what it is when cells are added. -/
theorem binding_of_grows (ha : h.Agrees b) (hg : h.env.store.Grows store) (i : Nat) (w : Variable)
    (hw : h.env.vars.value? i = some w) :
    store.binding h.cells w = h.env.store.binding h.cells w := by
  cases w with
  | number c =>
    exact congrArg (Binding.own ·.read) (hg.shared (.number c) (ha.sound.cells.own_lt i c hw))
  | value u | host cell => rfl

theorem map_shared_of_grows (ha : h.Agrees b) (hg : h.env.store.Grows store) :
    h.cells.map store.shared = b.cells :=
  (List.map_congr_left fun cell hc => hg.shared cell (ha.has cell hc)).trans ha.cells

theorem host_of_update (ha : h.Agrees b)
    (ht : ∀ i, t.value? i = if i = k then some w else h.env.vars.value? i)
    (hw : ∀ cell, w = .host cell → cell ∈ h.cells) (i : Nat) (cell : HostCell)
    (hi : t.value? i = some (.host cell)) : cell ∈ h.cells := by
  rw [ht] at hi
  split at hi
  · exact hw cell (Option.some.inj hi)
  · exact ha.host i cell hi

/-- A name is bound to a variable in the top map. -/
theorem bind (ha : h.Agrees b) (hg : h.env.store.Grows store)
    (hw : ∀ cell, w = .host cell → cell ∈ h.cells)
    (hs : ({ h.env with vars := h.env.vars.add name w h.env.level, store } : Environment).Sound
      (HostCell.numberCells h.cells)) :
    Agrees { h with env := { h.env with vars := h.env.vars.add name w h.env.level, store } }
      { b with vars := b.vars.bind name (store.binding h.cells w) } := by
  obtain ⟨k, hk⟩ := exists_value?_add h.env.vars name w h.env.level
  have hvars := ha.vars.add name w (ha.binding_of_grows hg)
  rw [ha.levels.1] at hvars
  exact {
    sound := hs
    levels := ⟨Scopes.level_bind.trans ha.levels.1, ha.levels.2⟩
    vars := hvars
    functions := ha.functions
    nodup := ha.nodup
    has := fun cell hc => hg.has cell (ha.has cell hc)
    host := ha.host_of_update hk hw
    cells := ha.map_shared_of_grows hg }

/-- The innermost variable of a name gives way to another one. -/
theorem rebind (ha : h.Agrees b) (hg : h.env.store.Grows store) (hw : ∀ cell, w ≠ .host cell)
    (hk : LastAt h.env.vars.frame name k)
    (hs : ({ h.env with vars := h.env.vars.modify name fun _ => w, store } : Environment).Sound
      (HostCell.numberCells h.cells)) :
    Agrees { h with env := { h.env with vars := h.env.vars.modify name fun _ => w, store } }
      { b with vars := b.vars.assign name (store.binding h.cells w) } := by
  have hat : ∀ i, (h.env.vars.modify name fun _ => w).value? i =
      if i = k then some w else h.env.vars.value? i := ha.sound.vars.value?_modify_const hk
  have hvars : (h.env.vars.modify name fun _ => w).Shows (store.binding h.cells)
      (b.vars.assign name (store.binding h.cells w)) := by
    refine ha.vars.assign ha.sound.vars.modify frame_modify hk fun i => ?_
    rw [image, hat]
    split
    · rfl
    · exact image_congr (ha.binding_of_grows hg i)
  exact {
    sound := hs
    levels := ⟨Scopes.level_assign.trans ha.levels.1, ha.levels.2⟩
    vars := hvars
    functions := ha.functions
    nodup := ha.nodup
    has := fun cell hc => hg.has cell (ha.has cell hc)
    host := ha.host_of_update hat fun cell hc => absurd hc (hw cell)
    cells := ha.map_shared_of_grows hg }

/-- A value that is bound gets new storage. -/
theorem exists_own (env : Environment) (v : Value) (cells : List HostCell) : ∃ w store,
    (∀ name, env.addVariable name v =
      { env with vars := env.vars.add name w env.level, store }) ∧
    (∀ name, env.rebind name v =
      { env with vars := env.vars.modify name fun _ => w, store }) ∧
    env.store.Grows store ∧ (∀ cell, w ≠ .host cell) ∧ store.binding cells w = .own v := by
  cases v with
  | number x =>
    refine ⟨.number env.store.numbers.size, env.store.pushNumber x, fun _ => rfl, fun _ => rfl,
      Store.grows_pushNumber _ x, fun _ hc => (by cases hc), ?_⟩
    exact congrArg (Binding.own <| .number ·) (Environment.number_pushNumber_self _ x)
  | _ =>
    exact ⟨.value _, env.store, fun _ => rfl, fun _ => rfl, ⟨fun _ hc => hc, fun _ _ => rfl⟩,
      fun _ hc => (by cases hc), rfl⟩

theorem addVariable (ha : h.Agrees b) (name : String) (v : Value) :
    (h.apply (.addVariable name v)).Agrees (b.apply (.addVariable name v)) := by
  obtain ⟨w, store, hadd, -, hg, hw, hread⟩ := exists_own h.env v h.cells
  have hs := ha.sound.addVariable name v
  rw [hadd] at hs
  have hbind := ha.bind hg (fun cell hc => absurd hc (hw cell)) hs
  rw [Hosted.apply, Bindings.apply, hadd]
  rwa [hread] at hbind

theorem addFunction (ha : h.Agrees b) (name : String) (f : Function) :
    (h.apply (.addFunction name f)).Agrees (b.apply (.addFunction name f)) := by
  have hfunctions : (h.env.functions.add name f b.functions.level).Shows id
      (b.functions.bind name f) := ha.functions.add name f fun _ _ _ => rfl
  rw [ha.levels.2] at hfunctions
  exact {
    sound := ha.sound.addFunction name f
    levels := ⟨ha.levels.1, Scopes.level_bind.trans ha.levels.2⟩
    vars := ha.vars
    functions := hfunctions
    nodup := ha.nodup
    has := ha.has
    host := ha.host
    cells := ha.cells }

/-! ### Assigning -/

/-- The visible variable of a name, and its innermost binding. -/
theorem exists_lastAt (ha : h.Agrees b) (hw : h.env.vars.get? name = some w) :
    ∃ k l, LastAt h.env.vars.frame name k ∧ h.env.vars.value? k = some w ∧
      b.vars.find? name = some (h.env.store.binding h.cells w, l) := by
  obtain ⟨e, he, rfl⟩ := Option.map_eq_some_iff.1 hw
  obtain ⟨k, hk, hi⟩ := ha.vars.coherent.entry?_eq_some.1 he
  refine ⟨k, e.level, hk, by rw [value?, hi]; rfl, ?_⟩
  rw [← ha.vars.find?, he]
  rfl

theorem mem_numberCells {cells : List HostCell} {c : Nat} :
    c ∈ HostCell.numberCells cells ↔ .number c ∈ cells := by
  rw [HostCell.numberCells, List.mem_filterMap]
  constructor
  · rintro ⟨cell, hm, hc⟩
    cases cell with
    | number c' =>
      cases hc
      exact hm
    | bool c' | value c' => cases hc
  · exact fun hm => ⟨_, hm, rfl⟩

/-- A number is written into the cell that the innermost variable of a name owns. -/
theorem setNumber (ha : h.Agrees b) {c : Nat} (hk : LastAt h.env.vars.frame name k)
    (hc : h.env.vars.value? k = some (.number c)) (x : Float) :
    Agrees { h with env := { h.env with store := h.env.store.setNumber c x } }
      { b with vars := b.vars.assign name (.own (.number x)) } := by
  have hwrite := Store.writes_setNumber (ha.sound.cells.own_lt k c hc) x
  have himage : ∀ i, h.env.vars.image ((h.env.store.setNumber c x).binding h.cells) i =
      if i = k then some (.own (.number x))
      else h.env.vars.image (h.env.store.binding h.cells) i := by
    intro i
    split
    · next hi =>
      rw [hi, image, hc, Option.map_some, Store.binding, hwrite.shared, if_pos rfl]
      rfl
    · next hi =>
      refine image_congr fun w hw => ?_
      cases w with
      | number c' =>
        have hne : (.number c' : HostCell) ≠ .number c := by
          rintro h'
          cases h'
          exact hi (ha.sound.cells.unique i k c hw hc)
        rw [Store.binding, Store.binding, hwrite.shared, if_neg hne]
      | value u | host cell => rfl
  have hcells : h.cells.map (h.env.store.setNumber c x).shared = b.cells := by
    refine (List.map_congr_left fun cell hm => ?_).trans ha.cells
    rw [hwrite.shared, if_neg]
    rintro rfl
    exact ha.sound.cells.own k c hc (mem_numberCells.2 hm)
  exact {
    sound := ha.sound.setNumber c x
    levels := ⟨Scopes.level_assign.trans ha.levels.1, ha.levels.2⟩
    vars := ha.vars.assign ha.sound.vars rfl hk himage
    functions := ha.functions
    nodup := ha.nodup
    has := fun cell hm => hwrite.has cell (ha.has cell hm)
    host := ha.host
    cells := hcells }

/-- Writing a cell of the host is refused, or it writes this cell only. -/
theorem writeHost_cases (env : Environment) (name : String) {cell : HostCell}
    (hcell : env.store.Has cell) (v : Value) :
    (∃ kind, (env.store.shared cell).write v = .error kind ∧
      env.writeHost name cell v = (env, some (.hostKind name kind v.kind))) ∨
    ∃ c store, (env.store.shared cell).write v = .ok c ∧
      env.writeHost name cell v = ({ env with store }, none) ∧ env.store.Writes cell c store := by
  cases cell with
  | number c =>
    cases v with
    | number x => exact .inr ⟨_, _, rfl, rfl, Store.writes_setNumber hcell x⟩
    | _ => exact .inl ⟨_, rfl, rfl⟩
  | bool c =>
    cases v with
    | bool x => exact .inr ⟨_, _, rfl, rfl, Store.writes_setBool hcell x⟩
    | _ => exact .inl ⟨_, rfl, rfl⟩
  | value c => exact .inr ⟨_, _, rfl, rfl, Store.writes_setValue hcell v⟩

/-- A cell of the host is written. -/
theorem writes (ha : h.Agrees b) {cell : HostCell} (hm : cell ∈ h.cells) {c : SharedCell}
    (hw : h.env.store.Writes cell c store) : Agrees { h with env := { h.env with store } }
      { b with cells := b.cells.set (h.cells.idxOf cell) c } := by
  have hbinding : ∀ i w, h.env.vars.value? i = some w →
      store.binding h.cells w = h.env.store.binding h.cells w := by
    intro i w hi
    cases w with
    | number c' =>
      have hne : (.number c' : HostCell) ≠ cell := by
        rintro rfl
        exact ha.sound.cells.own i c' hi (mem_numberCells.2 hm)
      rw [Store.binding, Store.binding, hw.shared, if_neg hne]
    | value u | host cell' => rfl
  have hcells : h.cells.map store.shared = b.cells.set (h.cells.idxOf cell) c := by
    rw [← ha.cells]
    refine List.ext_getElem? fun j => ?_
    rw [List.getElem?_map, List.getElem?_set, List.getElem?_map, List.length_map,
      if_pos (List.idxOf_lt_length_iff.2 hm)]
    split
    · next hj =>
      rw [← hj, List.getElem?_idxOf hm, Option.map_some, hw.shared, if_pos rfl]
    · next hj =>
      cases hcell : h.cells[j]? with
      | none => rfl
      | some cell' =>
        obtain ⟨hlt, rfl⟩ := List.getElem?_eq_some_iff.1 hcell
        rw [Option.map_some, Option.map_some, hw.shared, if_neg]
        rintro rfl
        exact hj (ha.nodup.idxOf_getElem j hlt)
  exact {
    sound := ha.sound.of_store hw.size
    levels := ha.levels
    vars := ha.vars.congr hbinding
    functions := ha.functions
    nodup := ha.nodup
    has := fun cell hm => hw.has cell (ha.has cell hm)
    host := ha.host
    cells := hcells }

theorem getElem?_cells (ha : h.Agrees b) {cell : HostCell} (hm : cell ∈ h.cells) :
    b.cells[h.cells.idxOf cell]? = some (h.env.store.shared cell) := by
  rw [← ha.cells, List.getElem?_map, List.getElem?_idxOf hm]
  rfl

/-- **Assigning a variable** does what the stacks do, and fails as they do. -/
theorem setVariable (ha : h.Agrees b) (name : String) (v : Value) :
    (h.apply (.setVariable name v)).Agrees (b.apply (.setVariable name v)) ∧
      (h.env.setVariable name v).2 = (b.setVariable name v).2 ∧
      (∀ fault, (h.env.setVariable name v).2 = some fault →
        (h.env.setVariable name v).1 = h.env) := by
  rw [Hosted.apply, Bindings.apply, Environment.setVariable, Bindings.setVariable]
  cases hw : h.env.vars.get? name with
  | none =>
    have hfind : b.vars.find? name = none := by
      have := ha.vars.get? name
      rw [hw] at this
      exact Option.map_eq_none_iff.1 this.symm
    rw [hfind]
    exact ⟨ha.addVariable name v, rfl, fun _ hf => by cases hf⟩
  | some w =>
    obtain ⟨k, l, hk, hwk, hfind⟩ := ha.exists_lastAt hw
    have hindex := (ha.vars.coherent.index name k).2 hk
    have hrebind : Agrees { h with env := h.env.rebind name v }
        { b with vars := b.vars.assign name (.own v) } := by
      obtain ⟨u, store, -, hrebind, hg, hu, hread⟩ := exists_own h.env v h.cells
      have hs := ha.sound.rebind hindex v
      rw [hrebind] at hs
      have := ha.rebind hg hu hk hs
      rw [hrebind]
      rwa [hread] at this
    rw [hfind]
    cases w with
    | value u => exact ⟨hrebind, rfl, fun _ hf => by cases hf⟩
    | number c =>
      cases v with
      | number x => exact ⟨ha.setNumber hk hwk x, rfl, fun _ hf => by cases hf⟩
      | _ => exact ⟨hrebind, rfl, fun _ hf => by cases hf⟩
    | host cell =>
      have hm := ha.host k cell hwk
      dsimp only [Store.binding]
      rw [ha.getElem?_cells hm, Option.map_some]
      rcases writeHost_cases h.env name (ha.has cell hm) v with
        ⟨kind, hwrite, he⟩ | ⟨c, store, hwrite, he, hws⟩
      · rw [he, hwrite]
        exact ⟨ha, rfl, fun _ _ => rfl⟩
      · rw [he, hwrite]
        exact ⟨ha.writes hm hws, rfl, fun _ hf => by cases hf⟩

/-! ### Cells of the host -/

/-- A new cell of the host is behind those there are. -/
theorem newHostCell_spec (env : Environment) (v : Value) (boxed : Bool) : ∃ cell store,
    env.newHostCell v boxed = (cell, { env with store }) ∧ env.store.Grows store ∧
      ¬ env.store.Has cell ∧ store.Has cell ∧ store.shared cell = .ofValue v boxed := by
  have hlast : ∀ {γ : Type} (xs : Array γ) (x d : γ), (xs.push x).getD xs.size d = x := by
    intro γ xs x d
    rw [Array.getD_eq_getD_getElem?, Array.getElem?_push_size]
    rfl
  have hvalue : env.store.Grows (env.store.pushValue v) ∧
      ¬ env.store.Has (.value env.store.values.size) ∧
      (env.store.pushValue v).Has (.value env.store.values.size) ∧
      (env.store.pushValue v).shared (.value env.store.values.size) = .value v :=
    ⟨Store.grows_pushValue _ v, Nat.lt_irrefl env.store.values.size,
      Nat.lt_of_lt_of_eq (Nat.lt_succ_self _) (Array.size_push ..).symm,
      congrArg SharedCell.value (hlast _ _ _)⟩
  cases boxed with
  | true => cases v <;> exact ⟨_, _, rfl, hvalue⟩
  | false =>
    cases v with
    | number x =>
      exact ⟨_, _, rfl, Store.grows_pushNumber _ x, Nat.lt_irrefl env.store.numbers.size,
        Nat.lt_of_lt_of_eq (Nat.lt_succ_self _) (Array.size_push ..).symm,
        congrArg SharedCell.number (hlast _ _ _)⟩
    | bool x =>
      exact ⟨_, _, rfl, Store.grows_pushBool _ x, Nat.lt_irrefl env.store.bools.size,
        Nat.lt_of_lt_of_eq (Nat.lt_succ_self _) (Array.size_push ..).symm,
        congrArg SharedCell.bool (hlast _ _ _)⟩
    | _ => exact ⟨_, _, rfl, hvalue⟩

theorem newCell (ha : h.Agrees b) (v : Value) (boxed : Bool) :
    (h.apply (.newCell v boxed)).Agrees (b.apply (.newCell v boxed)) := by
  obtain ⟨cell, store, he, hg, hnew, hhas, hshared⟩ := newHostCell_spec h.env v boxed
  have hs := ha.sound.newHostCell v boxed
  rw [Hosted.apply, Bindings.apply]
  rw [he] at hs ⊢
  have hheld : ∀ c, c ∈ HostCell.numberCells (h.cells ++ [cell]) ↔
      c ∈ HostCell.numberCells (cell :: h.cells) := fun c => by
    rw [mem_numberCells, mem_numberCells, List.mem_append, List.mem_singleton, List.mem_cons,
      or_comm]
  have hnodup : (h.cells ++ [cell]).Nodup :=
    ha.nodup.append (List.nodup_singleton _) <| List.disjoint_singleton.2 fun hm =>
      hnew (ha.has cell hm)
  have hstore : ∀ other ∈ h.cells ++ [cell], store.Has other := by
    intro other hm
    rcases List.mem_append.1 hm with hm | hm
    · exact hg.has other (ha.has other hm)
    · rwa [List.mem_singleton.1 hm]
  have hbinding : ∀ i w, h.env.vars.value? i = some w →
      store.binding (h.cells ++ [cell]) w = h.env.store.binding h.cells w := by
    intro i w hi
    rw [← ha.binding_of_grows hg i w hi]
    cases w with
    | number c | value u => rfl
    | host other =>
      rw [Store.binding, Store.binding, List.idxOf_append_of_mem (ha.host i other hi)]
  exact {
    sound := hs.of_held hheld
    levels := ha.levels
    vars := ha.vars.congr hbinding
    functions := ha.functions
    nodup := hnodup
    has := hstore
    host := fun i other hi => List.mem_append_left _ (ha.host i other hi)
    cells := by
      rw [List.map_append, ha.map_shared_of_grows hg, List.map_singleton, hshared] }

theorem addHost (ha : h.Agrees b) (name : String) (i : Nat) :
    (h.apply (.addHost name i)).Agrees (b.apply (.addHost name i)) := by
  have hlength : h.cells.length = b.cells.length := by rw [← ha.cells, List.length_map]
  rw [Hosted.apply, Bindings.apply]
  cases hi : h.cells[i]? with
  | none =>
    rw [if_neg (Nat.not_lt.2 (hlength ▸ List.getElem?_eq_none_iff.1 hi))]
    exact ha
  | some cell =>
    obtain ⟨hlt, rfl⟩ := List.getElem?_eq_some_iff.1 hi
    have hm := List.getElem_mem hlt
    have hs : (h.env.addHost name h.cells[i]).Sound (HostCell.numberCells h.cells) :=
      ha.sound.addHost fun c hc => mem_numberCells.2 (hc ▸ hm)
    have hsame : h.env.store.Grows h.env.store := ⟨fun _ hc => hc, fun _ _ => rfl⟩
    have hbind := ha.bind hsame (fun cell hc => by cases hc; exact hm) hs
    rw [Store.binding, ha.nodup.idxOf_getElem] at hbind
    rw [if_pos (hlength ▸ hlt)]
    exact hbind

/-- **Every operation** keeps the environment and the stacks in agreement. -/
theorem apply (ha : h.Agrees b) (op : Operation) : (h.apply op).Agrees (b.apply op) := by
  cases op with
  | enter => exact ha.enter
  | leave => exact ha.leave
  | clear => exact ha.clear
  | addVariable name v => exact ha.addVariable name v
  | setVariable name v => exact (ha.setVariable name v).1
  | addFunction name f => exact ha.addFunction name f
  | newCell v boxed => exact ha.newCell v boxed
  | addHost name i => exact ha.addHost name i

/-! ### Looking up -/

theorem read_binding (ha : h.Agrees b) (hw : h.env.vars.value? k = some w) :
    b.read (h.env.store.binding h.cells w) = h.env.read w := by
  cases w with
  | number c | value u => rfl
  | host cell =>
    rw [Store.binding, Bindings.read, ha.getElem?_cells (ha.host k cell hw)]
    cases cell <;> rfl

theorem value? (ha : h.Agrees b) (name : String) : h.env.value? name = b.value? name := by
  rw [Environment.value?, Bindings.value?]
  cases hw : h.env.vars.get? name with
  | none =>
    have := ha.vars.get? name
    rw [hw] at this
    rw [Option.map_eq_none_iff.1 this.symm]
    rfl
  | some w =>
    obtain ⟨k, l, -, hwk, hfind⟩ := ha.exists_lastAt hw
    rw [hfind, Option.map_some, ha.read_binding hwk]

/-- **The values of all variables**, each name once and in order. -/
theorem values (ha : h.Agrees b) : h.env.values = b.values := by
  refine eq_of_ordered (Environment.ordered_values h.env) b.ordered_values ?_
  rintro ⟨name, v⟩
  rw [Environment.mem_values ha.sound.vars, Bindings.mem_values, ha.value?]

end Agrees

/-- **Any operations** lead to agreement. -/
theorem agrees_run (ops : List Operation) : (run ops).Agrees (.run ops) := by
  induction ops using List.reverseRecOn with
  | nil => exact agrees_empty
  | append_singleton ops op ih =>
    rw [run, Bindings.run, List.foldl_append, List.foldl_append]
    exact ih.apply op

/-- What an environment answers, as stacks of finite maps do. -/
structure Answers (h : Hosted) (b : Bindings) : Prop where
  level : h.env.level = b.vars.level
  entry? : ∀ name, (h.env.vars.entry? name).map
    (fun e => (h.env.store.binding h.cells e.value, e.level)) = b.vars.find? name
  value? : ∀ name, h.env.value? name = b.value? name
  values : h.env.values = b.values
  hasVariable : ∀ name, h.env.hasVariable name = (b.vars.find? name).isSome
  function? : ∀ name, h.env.function? name = b.function? name
  hasFunction : ∀ name, h.env.hasFunction name = (b.functions.find? name).isSome
  cells : h.cells.map h.env.store.shared = b.cells
  fault : ∀ name v, (h.env.setVariable name v).2 = (b.setVariable name v).2
  unchanged : ∀ name v fault, (h.env.setVariable name v).2 = some fault →
    (h.env.setVariable name v).1 = h.env

end Hosted

/-- **Environments are stacks of finite maps**: after any operations, all answers are those of the
stacks, and an assignment that fails changes nothing. -/
theorem answers_run (ops : List Operation) : (Hosted.run ops).Answers (.run ops) := by
  have ha := Hosted.agrees_run ops
  exact {
    level := ha.levels.1.symm
    entry? := ha.vars.find?
    value? := ha.value?
    values := ha.values
    hasVariable := ha.vars.contains
    function? := fun name => by
      have := ha.functions.get? name
      rwa [Option.map_id] at this
    hasFunction := ha.functions.contains
    cells := ha.cells
    fault := fun name v => (ha.setVariable name v).2.1
    unchanged := fun name v => (ha.setVariable name v).2.2 }

end FormulaLang
