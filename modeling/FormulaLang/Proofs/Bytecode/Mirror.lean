import FormulaLang.Proofs.Engine.Steady
import Mathlib.Logic.Function.Basic

/-!
# Variables and the places of their numbers

While a compiled formula runs, every number variable has a place: a cell of the environment, or a
slot of the heap. The environment of the evaluation is mirrored when every variable counts as the
number at its place, and a name leads to the same place as in the code.

* `Place`, `Frozen.resolve`: the places, and those that the code uses for names.
* `Frozen.Layout`: which binding has which place.
* `Frozen.Mirrors`: the variables count as the numbers at their places.
* **`Frozen.Mirrors.assign`**: assigning a variable and writing its place.
* `Frozen.Mirrors.push`, `Frozen.Mirrors.leave`: bindings and blocks.
-/

namespace FormulaLang.Bytecode

open Environment (KeepsCells Extends Sound)

/-- Where a number lies during a run. -/
inductive Place where
  | cell (cell : Nat)
  | slot (slot : Nat)
  deriving DecidableEq

namespace Place

/-- The instruction that reads a place. -/
def read : Place → Instruction
  | cell k => .readCell k
  | slot k => .readSlot k

/-- The instruction that writes a place. -/
def write : Place → Instruction
  | cell k => .writeCell k
  | slot k => .writeSlot k

end Place

/-- The number at a place. -/
def contents (heap : Array Float) (store : Store) : Place → Float
  | .cell cell => store.number cell
  | .slot slot => getSlot heap slot

/-- What stays as it is during a run: the environment at its beginning, the number cells of the
host, and the slots behind all of the code. -/
structure Frozen where
  env : Environment
  held : List Nat
  slots : Slots

namespace Frozen

/-- The environment is sound, and the temporaries are in order. -/
structure Valid (K : Frozen) : Prop where
  sound : K.env.Sound K.held
  tidy : K.slots.Tidy K.env

variable (K : Frozen)

/-- The slot of a name that is assigned but bound nowhere. -/
def temporary? (name : String) : Option Nat := bound? name K.slots.temporaries

/-- The place that the code uses for a name: what is in scope comes first. -/
def resolve (scope : List (String × Nat)) (name : String) : Option Place :=
  match bound? name scope with
  | some slot => some (.slot slot)
  | none =>
    match K.temporary? name with
    | some slot => some (.slot slot)
    | none => ((K.env.vars.get? name).bind (·.numberCell?)).map .cell

/-- A slot that belongs to no name. -/
def Free (scope : List (String × Nat)) (slot : Nat) : Prop :=
  slot ∉ scope.map Prod.snd ∧ ∀ name, K.temporary? name ≠ some slot

/-- A name that is bound at the beginning has no temporary. -/
theorem Valid.temporary?_eq_none {K : Frozen} (hK : K.Valid) {name : String} {v : Variable}
    (hv : K.env.vars.get? name = some v) : K.temporary? name = none := by
  by_contra ht
  obtain ⟨slot, ht⟩ := Option.ne_none_iff_exists'.1 ht
  obtain ⟨e, he, -⟩ := Option.map_eq_some_iff.1 hv
  obtain ⟨i, ⟨⟨level, hi⟩, -⟩, -⟩ := hK.sound.vars.entry?_eq_some.1 he
  have hbound := hK.sound.vars.contains_iff.2 ⟨level, List.mem_of_getElem? hi⟩
  have hunbound := hK.tidy.unbound name slot ht
  rw [Environment.hasVariable, hbound] at hunbound
  cases hunbound

/-- The places of bindings with the names and levels of a frame. Names lead where the code finds
them, and only cells of the host are shared. -/
structure Layout (scope : List (String × Nat)) (places : List (Option Place))
    (frame : List (String × Nat)) : Prop where
  length : places.length = frame.length
  names : ∀ name i, LastAt frame name i → places[i]? = some (K.resolve scope name)
  apart : ∀ (i j : Nat) (p : Place), places[i]? = some (some p) → places[j]? = some (some p) →
    i = j ∨ ∃ cell ∈ K.held, p = .cell cell
  origin : ∀ (i slot : Nat) name level, places[i]? = some (some (.slot slot)) →
    frame[i]? = some (name, level) → slot ∈ scope.map Prod.snd ∨ K.temporary? name = some slot
  base : K.env.vars.frame <+: frame

/-- A variable counts as the number at a place. It belongs to the host if its place does. -/
structure Shows (env : Environment) (c : Place → Float) (p : Place) (v : Variable) : Prop where
  number : (env.read v).asNumber? = some (c p)
  host : ∀ cell, v = .host cell → ∃ k, cell = .number k ∧ p = .cell k
  held : ∀ k ∈ K.held, p = .cell k → v = .host (.number k)

/-- **The variables count as the numbers at their places.** -/
structure Mirrors (scope : List (String × Nat)) (places : List (Option Place)) (env : Environment)
    (c : Place → Float) : Prop where
  sound : env.Sound K.held
  functions : env.functions = K.env.functions
  layout : K.Layout scope places env.vars.frame
  shows : ∀ i p v, places[i]? = some (some p) → env.vars.value? i = some v → K.Shows env c p v

variable {K} {scope scope' : List (String × Nat)} {places : List (Option Place)}
  {env env' : Environment} {c c' : Place → Float} {p q : Place} {v : Variable} {name : String}

namespace Shows

theorem congr (h : K.Shows env c p v) (hc : c' p = c p) : K.Shows env c' p v :=
  ⟨hc ▸ h.number, h.host, h.held⟩

/-- What a variable shows does not depend on other cells. -/
theorem of_read (h : K.Shows env c p v) (hr : env'.read v = env.read v) : K.Shows env' c p v :=
  ⟨hr ▸ h.number, h.host, h.held⟩

theorem of_keepsCells (h : K.Shows env c p v) (hk : env.KeepsCells env')
    (hlt : ∀ cell, v.numberCell? = some cell → cell < env.store.numbers.size) :
    K.Shows env' c p v := by
  refine h.of_read ?_
  cases v with
  | number cell => exact congrArg Value.number (hk.number cell (hlt cell rfl))
  | value w => rfl
  | host cell =>
    obtain ⟨k, rfl, -⟩ := h.host cell rfl
    exact congrArg Value.number (hk.number k (hlt k rfl))

/-- The same in the other direction. -/
theorem of_keepsCells' (h : K.Shows env' c p v) (hk : env.KeepsCells env')
    (hlt : ∀ cell, v.numberCell? = some cell → cell < env.store.numbers.size) :
    K.Shows env c p v := by
  refine h.of_read ?_
  cases v with
  | number cell => exact congrArg Value.number (hk.number cell (hlt cell rfl)).symm
  | value w => rfl
  | host cell =>
    obtain ⟨k, rfl, -⟩ := h.host cell rfl
    exact congrArg Value.number (hk.number k (hlt k rfl)).symm

end Shows

namespace Mirrors

theorem congr (h : K.Mirrors scope places env c) (hc : ∀ p, some p ∈ places → c' p = c p) :
    K.Mirrors scope places env c' :=
  ⟨h.sound, h.functions, h.layout, fun i p v hp hv =>
    (h.shows i p v hp hv).congr (hc p (List.mem_of_getElem? hp))⟩

theorem lt_size (hs : env.Sound K.held) {i : Nat} (hv : env.vars.value? i = some v) :
    ∀ cell, v.numberCell? = some cell → cell < env.store.numbers.size :=
  fun _ hc => hs.cells.lt_of_numberCell? hv hc

theorem of_same (h : K.Mirrors scope places env c) (hs : env'.Sound K.held)
    (hsame : env.Same env') : K.Mirrors scope places env' c := by
  refine ⟨hs, hsame.functions.trans h.functions, hsame.frame ▸ h.layout, fun i p v hp hv => ?_⟩
  rw [hsame.value] at hv
  exact (h.shows i p v hp hv).of_keepsCells hsame.toKeepsCells (lt_size h.sound hv)

theorem of_same' (h : K.Mirrors scope places env' c) (hs : env.Sound K.held)
    (hsame : env.Same env') : K.Mirrors scope places env c := by
  refine ⟨hs, hsame.functions.symm.trans h.functions, hsame.frame ▸ h.layout,
    fun i p v hp hv => ?_⟩
  have hv' : env'.vars.value? i = some v := (hsame.value i).trans hv
  exact (h.shows i p v hp hv').of_keepsCells' hsame.toKeepsCells (lt_size hs hv)

/-! ## Looking up -/

/-- The visible binding of a name. -/
theorem exists_of_get? (h : K.Mirrors scope places env c) (hv : env.vars.get? name = some v) :
    ∃ i, LastAt env.vars.frame name i ∧ env.vars.value? i = some v ∧
      places[i]? = some (K.resolve scope name) := by
  obtain ⟨e, he, rfl⟩ := Option.map_eq_some_iff.1 hv
  obtain ⟨i, hi, he⟩ := h.sound.vars.entry?_eq_some.1 he
  refine ⟨i, hi, ?_, h.layout.names name i hi⟩
  rw [ScopedTable.value?, he]
  rfl

/-- A variable that is read counts as the number that the code reads. -/
theorem value?_eq (h : K.Mirrors scope places env c) (hp : K.resolve scope name = some p)
    {w : Value} (hw : env.value? name = some w) : w.asNumber? = some (c p) := by
  unfold Environment.value? at hw
  split at hw
  · next v hv =>
    cases hw
    obtain ⟨i, -, hi, hplace⟩ := h.exists_of_get? hv
    exact (h.shows i p v (hplace.trans (congrArg some hp)) hi).number
  · cases hw

/-- What is bound at the beginning stays bound. -/
theorem get?_ne_none (h : K.Mirrors scope places env c) (hK : K.Valid)
    (hv : K.env.vars.get? name = some v) : env.vars.get? name ≠ none := by
  intro hn
  have he := h.sound.vars.entry?_eq_none.1 (Option.map_eq_none_iff.1 hn)
  obtain ⟨e, hb, -⟩ := Option.map_eq_some_iff.1 hv
  obtain ⟨i, ⟨⟨level, hi⟩, -⟩, -⟩ := hK.sound.vars.entry?_eq_some.1 hb
  exact he level (h.layout.base.subset (List.mem_of_getElem? hi))

/-! ## Assigning -/

/-- No other variable has the place of a variable that is not the host's. -/
theorem ne_place (h : K.Mirrors scope places env c) {i j : Nat} {w : Variable}
    (hi : places[i]? = some (some p)) (hw : env.vars.value? i = some w)
    (hh : ∀ cell, w ≠ .host cell) (hj : places[j]? = some (some q)) (hne : j ≠ i) : q ≠ p := by
  rintro rfl
  rcases h.layout.apart i j q hi hj with hij | ⟨k, hk, rfl⟩
  · exact hne hij.symm
  · exact hh _ ((h.shows i _ w hi hw).held k hk rfl)

/-- A variable gets a new value in new storage. -/
theorem replace (h : K.Mirrors scope places env c) {i : Nat} {w w' : Variable} {x : Float}
    (hi : places[i]? = some (some p)) (hw : env.vars.value? i = some w)
    (hh : ∀ cell, w ≠ .host cell) (hs : env'.Sound K.held) (hf : env'.functions = env.functions)
    (hframe : env'.vars.frame = env.vars.frame) (hk : env.KeepsCells env')
    (hat : ∀ j, env'.vars.value? j = if j = i then some w' else env.vars.value? j)
    (hh' : ∀ cell, w' ≠ .host cell) (hx : (env'.read w').asNumber? = some x) :
    K.Mirrors scope places env' (Function.update c p x) := by
  refine ⟨hs, hf.trans h.functions, hframe ▸ h.layout, fun j q v hq hv => ?_⟩
  rw [hat] at hv
  by_cases hj : j = i
  · subst hj
    rw [if_pos rfl] at hv
    cases hv
    obtain rfl : p = q := Option.some.inj (Option.some.inj (hi.symm.trans hq))
    refine ⟨by rw [Function.update_self, hx], fun cell hc => absurd hc (hh' cell),
      fun k hk hc => absurd ((h.shows j _ w hi hw).held k hk hc) (hh _)⟩
  · rw [if_neg hj] at hv
    refine ((h.shows j q v hq hv).of_keepsCells hk (lt_size h.sound hv)).congr ?_
    rw [Function.update_of_ne (h.ne_place hi hw hh hq hj)]

/-- Variables with the same number cell have the same place. -/
theorem numberCell?_iff (h : K.Mirrors scope places env c) {i j cell : Nat} {w : Variable}
    (hi : places[i]? = some (some p)) (hw : env.vars.value? i = some w)
    (hc : w.numberCell? = some cell) (hj : places[j]? = some (some q))
    (hv : env.vars.value? j = some v) : v.numberCell? = some cell ↔ q = p := by
  have hshow := h.shows j q v hj hv
  have hshow' := h.shows i p w hi hw
  rcases Variable.numberCell?_eq_some.1 hc with rfl | rfl
  · constructor
    · intro hv'
      rcases Variable.numberCell?_eq_some.1 hv' with rfl | rfl
      · obtain rfl := h.sound.cells.unique i j cell hw hv
        exact Option.some.inj (Option.some.inj (hj.symm.trans hi))
      · exact absurd (h.sound.cells.host j cell hv) (h.sound.cells.own i cell hw)
    · intro hq
      have hij : j = i := by
        by_contra hne
        exact h.ne_place hi hw (by simp) hj hne hq
      subst hij
      rw [hw] at hv
      cases hv
      exact hc
  · obtain ⟨k, hk, rfl⟩ := hshow'.host _ rfl
    cases hk
    have hheld := h.sound.cells.host i cell hw
    constructor
    · intro hv'
      rcases Variable.numberCell?_eq_some.1 hv' with rfl | rfl
      · exact absurd hheld (h.sound.cells.own j cell hv)
      · obtain ⟨k, hk, hq⟩ := hshow.host _ rfl
        cases hk
        exact hq
    · intro hq
      rw [hshow.held cell hheld hq]
      rfl

/-- The cell of a variable gets a new number. -/
theorem setNumber (h : K.Mirrors scope places env c) {i cell : Nat} {w : Variable}
    (hi : places[i]? = some (some p)) (hw : env.vars.value? i = some w)
    (hc : w.numberCell? = some cell) (x : Float) :
    K.Mirrors scope places { env with store := env.store.setNumber cell x }
      (Function.update c p x) := by
  refine ⟨h.sound.setNumber cell x, h.functions, h.layout, fun j q v hq hv => ?_⟩
  have hshow := h.shows j q v hq hv
  have hsame := h.numberCell?_iff hi hw hc hq hv
  have hread := env.read_setNumber x (lt_size h.sound hw cell hc) v
  by_cases hq' : q = p
  · refine ⟨?_, hshow.host, hshow.held⟩
    rw [hread, if_pos (hsame.2 hq'), hq', Function.update_self]
    rfl
  · rw [if_neg fun hv' => hq' (hsame.1 hv')] at hread
    exact (hshow.of_read hread).congr (Function.update_of_ne hq' _ _)

/-- A variable that is not the host's gets a new value. -/
theorem rebind (h : K.Mirrors scope places env c) {i : Nat} {w : Variable} {u : Value} {x : Float}
    (hl : LastAt env.vars.frame name i) (hi : places[i]? = some (some p))
    (hw : env.vars.value? i = some w) (hh : ∀ cell, w ≠ .host cell) (hx : u.asNumber? = some x) :
    K.Mirrors scope places (env.rebind name u) (Function.update c p x) := by
  obtain ⟨w', store, -, hb, hk, hh', hr⟩ := env.exists_storage u
  have hs := h.sound.rebind ((h.sound.vars.index name i).2 hl) u
  rw [hb] at hs ⊢
  exact h.replace hi hw hh hs rfl ScopedTable.frame_modify (hk _)
    (h.sound.vars.value?_modify_const hl) hh' ((congrArg Value.asNumber? (hr _)).trans hx)

/-- A name is bound at a level at which it is not bound yet. Its place is a slot that no other
variable has. -/
theorem push (h : K.Mirrors scope places env c) {slot : Nat} {u : Value} {x : Float}
    (hnew : ∀ e, env.vars.entry? name = some e → e.level ≠ env.level)
    (hslot : some (.slot slot) ∉ places)
    (hscope : ∀ k ∈ scope.map Prod.snd, k ∈ scope'.map Prod.snd)
    (hown : slot ∈ scope'.map Prod.snd ∨ K.temporary? name = some slot)
    (hres : ∀ n, K.resolve scope' n = if n = name then some (.slot slot) else K.resolve scope n)
    (hx : u.asNumber? = some x) :
    K.Mirrors scope' (places ++ [some (.slot slot)]) (env.addVariable name u)
      (Function.update c (.slot slot) x) := by
  obtain ⟨w, store, ha, -, hk, hh, hr⟩ := env.exists_storage u
  have hadd : env.vars.add name w env.level = env.vars.push name w env.level := by
    rcases env.vars.add_cases name w env.level with ⟨e, he, hl, -⟩ | ⟨-, hadd⟩
    · exact absurd hl (hnew e he)
    · exact hadd
  have hs := h.sound.addVariable name u
  rw [ha, hadd] at hs ⊢
  have hlen := h.layout.length
  have hsize : places.length = env.vars.entries.size := hlen.trans ScopedTable.length_frame
  have hplaces : ∀ i q, (places ++ [some (.slot slot)])[i]? = some (some q) →
      i < places.length ∧ places[i]? = some (some q) ∨ i = places.length ∧ q = .slot slot := by
    intro i q hi
    rcases Nat.lt_trichotomy i places.length with hlt | rfl | hgt
    · rw [List.getElem?_append_left hlt] at hi
      exact .inl ⟨hlt, hi⟩
    · rw [List.getElem?_concat_length] at hi
      cases hi
      exact .inr ⟨rfl, rfl⟩
    · rw [List.getElem?_eq_none (by simpa using hgt)] at hi
      cases hi
  refine ⟨hs, h.functions, ⟨?_, fun n i hi => ?_, fun i j q hi hj => ?_,
    fun i k n level hi hf => ?_, ?_⟩, fun i q v hi hv => ?_⟩
  · dsimp only
    rw [ScopedTable.frame_push, List.length_append, List.length_append, hlen]
    rfl
  · dsimp only at hi
    rw [ScopedTable.frame_push, lastAt_concat] at hi
    rw [hres]
    split at hi
    · next hn =>
      subst hi
      rw [if_pos hn, ← hlen, List.getElem?_concat_length]
    · next hn =>
      rw [if_neg hn, List.getElem?_append_left (hlen ▸ hi.lt)]
      exact h.layout.names n i hi
  · rcases hplaces i q hi with ⟨-, hi⟩ | ⟨rfl, rfl⟩
    · rcases hplaces j q hj with ⟨-, hj⟩ | ⟨rfl, rfl⟩
      · exact h.layout.apart i j q hi hj
      · exact absurd (List.mem_of_getElem? hi) hslot
    · rcases hplaces j _ hj with ⟨-, hj⟩ | ⟨rfl, -⟩
      · exact absurd (List.mem_of_getElem? hj) hslot
      · exact .inl rfl
  · dsimp only at hf
    rw [ScopedTable.frame_push] at hf
    rcases hplaces i _ hi with ⟨hlt, hi⟩ | ⟨rfl, hq⟩
    · rw [List.getElem?_append_left (hlen ▸ hlt)] at hf
      exact (h.layout.origin i k n level hi hf).imp_left (hscope k)
    · rw [hlen, List.getElem?_concat_length] at hf
      cases hf
      cases hq
      exact hown
  · dsimp only
    rw [ScopedTable.frame_push]
    exact h.layout.base.trans (List.prefix_append _ _)
  · dsimp only at hv
    rw [ScopedTable.value?_push] at hv
    rcases hplaces i q hi with ⟨hlt, hi⟩ | ⟨rfl, rfl⟩
    · rw [if_neg (by omega)] at hv
      refine ((h.shows i q v hi hv).of_keepsCells (hk _) (lt_size h.sound hv)).congr ?_
      refine Function.update_of_ne ?_ _ _
      rintro rfl
      exact hslot (List.mem_of_getElem? hi)
    · rw [if_pos hsize] at hv
      cases hv
      refine ⟨?_, fun cell hc => absurd hc (hh cell), fun k _ hq => by cases hq⟩
      rw [Function.update_self, ← hx]
      exact congrArg Value.asNumber? (hr _)

/-- A name is bound again at the level at which it is bound already. -/
theorem push_again (h : K.Mirrors scope places env c) {slot i : Nat} {u : Value} {x : Float}
    (hi : places[i]? = some (some (.slot slot))) (hl : LastAt env.vars.frame name i)
    (hlevel : env.vars.frame[i]? = some (name, env.level)) (hx : u.asNumber? = some x) :
    K.Mirrors scope places (env.addVariable name u) (Function.update c (.slot slot) x) := by
  obtain ⟨w', store, ha, -, hk, hh, hr⟩ := env.exists_storage u
  rw [ScopedTable.getElem?_frame] at hlevel
  obtain ⟨e, he, hel⟩ := Option.map_eq_some_iff.1 hlevel
  have hadd : env.vars.add name w' env.level = env.vars.modify name fun _ => w' := by
    rcases env.vars.add_cases name w' env.level with ⟨_, _, _, hadd⟩ | ⟨hnew, -⟩
    · exact hadd
    · exact absurd (congrArg Prod.snd hel) (hnew e (h.sound.vars.entry?_eq_some.2 ⟨i, hl, he⟩))
  have hs := h.sound.addVariable name u
  rw [ha, hadd] at hs ⊢
  have hw : env.vars.value? i = some e.value := by
    rw [ScopedTable.value?, he]
    rfl
  refine h.replace hi hw (fun cell hc => ?_) hs rfl ScopedTable.frame_modify (hk _)
    (h.sound.vars.value?_modify_const hl) hh ((congrArg Value.asNumber? (hr _)).trans hx)
  obtain ⟨k, -, hq⟩ := (h.shows i _ _ hi hw).host cell hc
  cases hq

/-- A slot that is a place belongs to a name. -/
theorem exists_name (h : K.Mirrors scope places env c) {slot : Nat}
    (hm : some (.slot slot) ∈ places) : ∃ n level, (n, level) ∈ env.vars.frame ∧
      (slot ∈ scope.map Prod.snd ∨ K.temporary? n = some slot) := by
  obtain ⟨i, hi⟩ := List.getElem?_of_mem hm
  have hlt := (List.getElem?_eq_some_iff.1 hi).1
  rw [h.layout.length] at hlt
  have hp := List.getElem?_eq_getElem hlt
  exact ⟨_, _, List.mem_of_getElem? hp, h.layout.origin i slot _ _ hi hp⟩

theorem not_mem_of_free (h : K.Mirrors scope places env c) {slot : Nat} (hf : K.Free scope slot) :
    some (.slot slot) ∉ places := by
  intro hm
  obtain ⟨n, level, -, hs | ht⟩ := h.exists_name hm
  · exact hf.1 hs
  · exact hf.2 n ht

end Mirrors

/-! ## Going on in a block -/

variable (K) in
/-- From a mirrored environment, bindings were only added at the current level. -/
structure Onward (scope : List (String × Nat)) (places : List (Option Place)) (env : Environment)
    (places' : List (Option Place)) (env' : Environment) (c : Place → Float) : Prop where
  mirrors : K.Mirrors scope places' env' c
  kept : places <+: places'
  grown : env.Extends env'
  level : env'.level = env.level

theorem Mirrors.onward (h : K.Mirrors scope places env c) :
    K.Onward scope places env places env c := ⟨h, List.prefix_rfl, .refl env, rfl⟩

section Onward

variable {places' places'' : List (Option Place)} {env'' : Environment}

theorem Onward.trans (h : K.Onward scope places env places' env' c)
    (h' : K.Onward scope places' env' places'' env'' c') :
    K.Onward scope places env places'' env'' c' :=
  ⟨h'.mirrors, h.kept.trans h'.kept, h.grown.trans h'.grown h'.level, h'.level.trans h.level⟩

theorem Mirrors.onward_of_frame (h : K.Mirrors scope places env' c)
    (hf : env'.functions = env.functions) (hframe : env'.vars.frame = env.vars.frame)
    (hl : env'.level = env.level) : K.Onward scope places env places env' c :=
  ⟨h, List.prefix_rfl, ⟨hf, [], by rw [hframe, List.append_nil], fun _ h => (by cases h)⟩, hl⟩

end Onward

/-- The place of a name that is bound nowhere is that of its temporary. -/
theorem temporary?_of_resolve (hK : K.Valid) (h : K.Mirrors scope places env c)
    (hn : bound? name scope = none) (hp : K.resolve scope name = some p)
    (hv : env.vars.get? name = none) : ∃ slot, K.temporary? name = some slot ∧ p = .slot slot := by
  have hbase : K.env.vars.get? name = none := by
    by_contra hb
    obtain ⟨w, hw⟩ := Option.ne_none_iff_exists'.1 hb
    exact h.get?_ne_none hK hw hv
  unfold resolve at hp
  rw [hn, hbase] at hp
  cases ht : K.temporary? name with
  | none =>
    rw [ht] at hp
    cases hp
  | some slot =>
    rw [ht] at hp
    cases hp
    exact ⟨slot, rfl, rfl⟩

/-- The slots in scope are not those of temporaries. -/
def Apart (scope : List (String × Nat)) : Prop :=
  ∀ q ∈ scope, ∀ n, K.temporary? n ≠ some q.2

/-- The slot of a temporary is used by no other name. -/
theorem not_mem_of_temporary (hK : K.Valid) (h : K.Mirrors scope places env c)
    (ha : K.Apart scope) {slot : Nat} (ht : K.temporary? name = some slot)
    (hv : env.vars.get? name = none) : some (.slot slot) ∉ places := by
  intro hm
  obtain ⟨n, level, hf, hs | ht'⟩ := h.exists_name hm
  · obtain ⟨q, hq, rfl⟩ := List.mem_map.1 hs
    exact ha q hq name ht
  · obtain rfl := hK.tidy.unique n name slot ht' ht
    exact h.sound.vars.entry?_eq_none.1 (Option.map_eq_none_iff.1 hv) level hf

/-- **Assigning a variable** in the environment, and writing the place that the code writes. -/
theorem Mirrors.assign (h : K.Mirrors scope places env c) (hK : K.Valid) (ha : K.Apart scope)
    (hn : bound? name scope = none) (hp : K.resolve scope name = some p) {u : Value} {x : Float}
    (hx : u.asNumber? = some x) (hset : (env.setVariable name u).2 = none) :
    ∃ places', K.Onward scope places env places' (env.setVariable name u).1
      (Function.update c p x) := by
  cases hv : env.vars.get? name with
  | none =>
    obtain ⟨slot, ht, rfl⟩ := temporary?_of_resolve hK h hn hp hv
    have hadd : env.setVariable name u = (env.addVariable name u, none) := by
      unfold Environment.setVariable
      rw [hv]
    rw [hadd]
    have hentry := Option.map_eq_none_iff.1 hv
    refine ⟨_, h.push (fun e he => ?_) (not_mem_of_temporary hK h ha ht hv) (fun _ => id) (.inr ht)
      (fun n => ?_) hx, List.prefix_append _ _, h.sound.extends_addVariable name u,
      env.level_addVariable name u⟩
    · rw [hentry] at he
      cases he
    · split
      · next hname => rw [hname, hp]
      · rfl
  | some w =>
    obtain ⟨i, hl, hw, hplace⟩ := h.exists_of_get? hv
    rw [hp] at hplace
    unfold Environment.setVariable at hset ⊢
    rw [hv] at hset ⊢
    have hrebind : ∀ u : Value, (∀ cell, w ≠ .host cell) → u.asNumber? = some x →
        K.Onward scope places env places (env.rebind name u) (Function.update c p x) := by
      intro u hh hx
      obtain ⟨w', store, -, hb, -⟩ := env.exists_storage u
      have hm := h.rebind hl hplace hw hh hx
      rw [hb] at hm ⊢
      exact hm.onward_of_frame rfl ScopedTable.frame_modify rfl
    cases w with
    | value w' => exact ⟨places, hrebind u (by simp) hx⟩
    | number cell =>
      rcases asNumber?_cases hx with rfl | ⟨b, rfl, -⟩
      · exact ⟨places, (h.setNumber hplace hw rfl x).onward_of_frame rfl rfl rfl⟩
      · exact ⟨places, hrebind _ (by simp) hx⟩
    | host cell =>
      obtain ⟨k, rfl, -⟩ := (h.shows i p _ hplace hw).host cell rfl
      rcases asNumber?_cases hx with rfl | ⟨b, rfl, -⟩
      · exact ⟨places, (h.setNumber hplace hw rfl x).onward_of_frame rfl rfl rfl⟩
      · cases hset

/-! ## The block of a loop -/

section Block

variable {base : Environment} {places' : List (Option Place)} {slot : Nat}

theorem resolve_cons (n : String) : K.resolve ((name, slot) :: scope) n =
    if n = name then some (.slot slot) else K.resolve scope n := by
  unfold resolve
  rw [bound?_cons]
  by_cases hn : n = name
  · rw [if_pos hn, if_pos hn]
  · rw [if_neg hn, if_neg hn]

/-- Leaving a block. -/
theorem Mirrors.leave (h : K.Mirrors scope' places' env c) (hb : K.Mirrors scope places base c')
    (hg : base.Extends env) (hl : env.level = base.level + 1) (hp : places <+: places') :
    K.Onward scope places base places env.leave c := by
  obtain ⟨hlevel, hf, hframe, hvalue⟩ := hg.leave hb.sound h.sound hl
  have hm : K.Mirrors scope places env.leave c := by
    refine ⟨h.sound.leave, hf.trans hb.functions, hframe ▸ hb.layout, fun i q v hi hv => ?_⟩
    obtain ⟨rest, rfl⟩ := hp
    have hlt := (List.getElem?_eq_some_iff.1 hi).1
    have hi : (places ++ rest)[i]? = some (some q) := by
      rw [List.getElem?_append_left hlt, hi]
    rw [hb.layout.length, ScopedTable.length_frame] at hlt
    rw [hvalue i hlt] at hv
    refine (h.shows i q v hi hv).of_read ?_
    unfold Environment.read
    rw [env.store_leave]
  exact hm.onward_of_frame hf hframe hlevel

variable (K) in
/-- The block of a loop in front of its next round: the position can be bound, and the block can be
left. -/
structure Head (scope : List (String × Nat)) (places : List (Option Place)) (base : Environment)
    (name : String) (slot : Nat) (env : Environment) (c : Place → Float) : Prop where
  sound : env.Sound K.held
  level : env.level = base.level + 1
  grown : base.Extends env
  exit : K.Onward scope places base places env.leave c
  ready : ∀ x : Float, ∃ (places' : List (Option Place)) (i : Nat), places <+: places' ∧
    K.Mirrors ((name, slot) :: scope) places' (env.addVariable name (.number x))
      (Function.update c (.slot slot) x) ∧
    places'[i]? = some (some (Place.slot slot)) ∧
    (env.addVariable name (.number x)).vars.frame[i]? = some (name, base.level + 1)

/-- The head of a loop is in front of its first round. -/
theorem Mirrors.head (h : K.Mirrors scope places base c) (hf : K.Free scope slot) (name : String) :
    K.Head scope places base name slot base.enter c := by
  have henter : K.Mirrors scope places base.enter c :=
    ⟨h.sound.enter, h.functions, h.layout, fun i p v hp hv => (h.shows i p v hp hv).of_read rfl⟩
  refine ⟨h.sound.enter, rfl, .enter base, henter.leave h (.enter base) rfl List.prefix_rfl, fun x => ?_⟩
  have hnew : ∀ e, base.enter.vars.entry? name = some e → e.level ≠ base.enter.level := by
    intro e he hl
    obtain ⟨i, -, hi⟩ := h.sound.vars.entry?_eq_some.1 he
    have hle := h.sound.varsLevel.le (e.name, e.level)
      (List.mem_of_getElem? (by rw [ScopedTable.getElem?_frame, hi]; rfl))
    exact absurd (hl ▸ hle) (Nat.not_succ_le_self _)
  have hm : K.Mirrors ((name, slot) :: scope) (places ++ [some (.slot slot)])
      (base.enter.addVariable name (.number x)) (Function.update c (.slot slot) x) :=
    henter.push hnew (h.not_mem_of_free hf) (fun k hk => List.mem_cons_of_mem _ hk)
      (.inl List.mem_cons_self) resolve_cons rfl
  refine ⟨_, places.length, List.prefix_append _ _, hm, List.getElem?_concat_length, ?_⟩
  rw [Environment.frame_addVariable hnew, h.layout.length]
  exact List.getElem?_concat_length

/-- The numbers of the position and of slots without a name do not count at the head. -/
theorem Head.congr (h : K.Head scope places base name slot env c) (hf : K.Free scope slot)
    (hc : ∀ p, p ≠ .slot slot → (∀ k, p = .slot k → ¬ K.Free scope k) → c' p = c p) :
    K.Head scope places base name slot env c' := by
  have hslot := h.exit.mirrors.not_mem_of_free hf
  refine ⟨h.sound, h.level, h.grown, ⟨h.exit.mirrors.congr fun p hp => ?_, h.exit.kept, h.exit.grown,
    h.exit.level⟩, fun x => ?_⟩
  · refine hc p (fun hq => hslot (hq ▸ hp)) ?_
    rintro k rfl hk
    exact h.exit.mirrors.not_mem_of_free hk hp
  · obtain ⟨places', i, hplaces, hm, hi⟩ := h.ready x
    refine ⟨places', i, hplaces, hm.congr fun p hp => ?_, hi⟩
    by_cases hq : p = .slot slot
    · rw [hq, Function.update_self, Function.update_self]
    · rw [Function.update_of_ne hq, Function.update_of_ne hq]
      refine hc p hq ?_
      rintro k rfl hk
      refine hm.not_mem_of_free ⟨fun hmem => ?_, hk.2⟩ hp
      rcases List.mem_cons.1 hmem with rfl | hmem
      · exact hq rfl
      · exact hk.1 hmem

/-- After a round the loop is in front of the next one. -/
theorem Mirrors.head_of_onward {places'' : List (Option Place)} {i : Nat}
    (hb : K.Mirrors scope places base c) (hg : base.Extends env)
    (hl : env.level = base.level + 1) (hplaces : places <+: places')
    (hi : places'[i]? = some (some (.slot slot)))
    (hframe : env.vars.frame[i]? = some (name, base.level + 1))
    (h : K.Onward ((name, slot) :: scope) places' env places'' env' c') :
    K.Head scope places base name slot env' c' := by
  have hl' : env'.level = base.level + 1 := h.level.trans hl
  have hg' : base.Extends env' := hg.trans h.grown h.level
  have hplaces' := hplaces.trans h.kept
  refine ⟨h.mirrors.sound, hl', hg', h.mirrors.leave hb hg' hl' hplaces', fun x => ?_⟩
  -- The last binding of the name is still the one at the beginning of the block.
  have hi' : places''[i]? = some (some (.slot slot)) := by
    obtain ⟨rest, hrest⟩ := h.kept
    rw [← hrest, List.getElem?_append_left (List.getElem?_eq_some_iff.1 hi).1, hi]
  have hframe' : env'.vars.frame[i]? = some (name, base.level + 1) := by
    obtain ⟨above, habove, -⟩ := h.grown.frame
    rw [habove, List.getElem?_append_left (List.getElem?_eq_some_iff.1 hframe).1, hframe]
  obtain ⟨k, hk⟩ := exists_lastAt (List.mem_of_getElem? hframe')
  have hplace := h.mirrors.layout.names name k hk
  rw [resolve_cons, if_pos rfl] at hplace
  obtain rfl : i = k := by
    rcases h.mirrors.layout.apart i k _ hi' hplace with hik | ⟨_, -, hcell⟩
    · exact hik
    · cases hcell
  refine ⟨places'', i, hplaces', ?_, hi', ?_⟩
  · exact h.mirrors.push_again hi' hk (hl' ▸ hframe') rfl
  · obtain ⟨above, habove, -⟩ := (h.mirrors.sound.extends_addVariable name (.number x)).frame
    rw [habove, List.getElem?_append_left (List.getElem?_eq_some_iff.1 hframe').1, hframe']

end Block

/-! ## The places in lowered code -/

section Slots

variable {s s' : Slots} {cell slot : Nat}

theorem resolve_of_lookup? (h : s.Later K.env K.slots) (hs : s.lookup? name = some slot) :
    K.resolve s.scope name = some (.slot slot) := by
  cases hb : bound? name s.scope with
  | some k =>
    rw [Slots.lookup?, hb] at hs
    cases hs
    rw [resolve, hb]
  | none =>
    rw [Slots.lookup?, hb] at hs
    rw [resolve, hb, temporary?, h.keep name slot hs]

theorem exists_of_globalCell {env : Environment} (h : globalCell env name = .ok cell) :
    ∃ v, env.vars.get? name = some v ∧ v.numberCell? = some cell := by
  unfold globalCell at h
  split at h
  · cases h
  · next e he =>
    split at h
    · cases h
    · split at h
      · next k hk =>
        cases h
        exact ⟨e.value, by rw [ScopedTable.get?, he]; rfl, hk⟩
      · cases h

/-- A name that the code reads from a cell has this cell as its place. -/
theorem resolve_of_globalCell (hK : K.Valid) (hs : s.lookup? name = none)
    (h : globalCell K.env name = .ok cell) : K.resolve s.scope name = some (.cell cell) := by
  obtain ⟨v, hv, hc⟩ := exists_of_globalCell h
  have ht := hK.temporary?_eq_none hv
  cases hb : bound? name s.scope with
  | some k =>
    rw [Slots.lookup?, hb] at hs
    cases hs
  | none =>
    rw [resolve, hb, ht, hv, Option.bind_some, hc]
    rfl

theorem lt_of_globalCell (hK : K.Valid) (h : globalCell K.env name = .ok cell) :
    cell < K.env.store.numbers.size := by
  obtain ⟨v, hv, hc⟩ := exists_of_globalCell h
  obtain ⟨e, he, rfl⟩ := Option.map_eq_some_iff.1 hv
  obtain ⟨i, -, hi⟩ := hK.sound.vars.entry?_eq_some.1 he
  exact hK.sound.cells.lt_of_numberCell? (by rw [ScopedTable.value?, hi]; rfl) hc

theorem apart_of_later (h : s.Later K.env K.slots) (ht : s.Tidy K.env) : K.Apart s.scope := by
  intro p hp n hn
  rcases h.fresh n p.2 hn with hk | hk
  · exact ht.apart p hp n hk
  · exact absurd (Slots.lt_of_mem_scope ht.bounded hp) (Nat.not_lt.2 hk)

/-- A slot that was given out without a name stays without one. -/
theorem free_of_later (h : s'.Later K.env K.slots) (hs : s.Bounded)
    (ht : s'.temporaries = s.temporaries) (hlt : s.size ≤ slot) (hlt' : slot < s'.size) :
    K.Free s.scope slot := by
  constructor
  · intro hm
    obtain ⟨p, hp, rfl⟩ := List.mem_map.1 hm
    exact absurd (Slots.lt_of_mem_scope hs hp) (Nat.not_lt.2 hlt)
  · intro n hn
    rcases h.fresh n slot hn with hk | hk
    · rw [ht] at hk
      exact absurd (Slots.lt_of_temporary hs hk) (Nat.not_lt.2 hlt)
    · exact absurd hlt' (Nat.not_lt.2 hk)

end Slots

/-! ## The beginning -/

/-- At the beginning every number variable has its cell as its place. -/
def cellPlaces (env : Environment) : List (Option Place) :=
  env.vars.entries.toList.map fun e => e.value.numberCell?.map .cell

theorem getElem?_cellPlaces (env : Environment) (i : Nat) :
    (cellPlaces env)[i]? = (env.vars.value? i).map fun v => v.numberCell?.map .cell := by
  rw [cellPlaces, List.getElem?_map, Array.getElem?_toList, ScopedTable.value?, Option.map_map]
  rfl

theorem exists_of_cellPlaces {env : Environment} {i : Nat} {p : Place}
    (h : (cellPlaces env)[i]? = some (some p)) :
    ∃ v cell, env.vars.value? i = some v ∧ v.numberCell? = some cell ∧ p = .cell cell := by
  rw [getElem?_cellPlaces] at h
  obtain ⟨v, hv, hplace⟩ := Option.map_eq_some_iff.1 h
  obtain ⟨cell, hc, rfl⟩ := Option.map_eq_some_iff.1 hplace
  exact ⟨v, cell, hv, hc, rfl⟩

/-- **The environment at the beginning is mirrored.** -/
theorem Valid.mirrors (hK : K.Valid) (heap : Array Float) :
    K.Mirrors [] (cellPlaces K.env) K.env (contents heap K.env.store) := by
  refine ⟨hK.sound, rfl, ⟨?_, fun name i hi => ?_, fun i j p hi hj => ?_,
    fun i slot name level hi hf => ?_, List.prefix_rfl⟩, fun i p v hi hv => ?_⟩
  · rw [cellPlaces, List.length_map, ScopedTable.length_frame, Array.length_toList]
  · have hlt := hi.lt
    rw [ScopedTable.length_frame] at hlt
    have he := hK.sound.vars.entry?_eq_some.2 ⟨i, hi, Array.getElem?_eq_getElem hlt⟩
    have hv : K.env.vars.get? name = some (K.env.vars.entries[i]).value := by
      rw [ScopedTable.get?, he]
      rfl
    rw [getElem?_cellPlaces, ScopedTable.value?, Array.getElem?_eq_getElem hlt]
    unfold resolve
    rw [hK.temporary?_eq_none hv, hv]
    rfl
  · obtain ⟨v, cell, hv, hc, rfl⟩ := exists_of_cellPlaces hi
    obtain ⟨w, cell', hw, hc', hp⟩ := exists_of_cellPlaces hj
    cases hp
    rcases Variable.numberCell?_eq_some.1 hc with rfl | rfl
    · rcases Variable.numberCell?_eq_some.1 hc' with rfl | rfl
      · exact .inl (hK.sound.cells.unique i j cell hv hw)
      · exact .inr ⟨cell, hK.sound.cells.host j cell hw, rfl⟩
    · exact .inr ⟨cell, hK.sound.cells.host i cell hv, rfl⟩
  · obtain ⟨v, cell, -, -, hp⟩ := exists_of_cellPlaces hi
    cases hp
  · obtain ⟨w, cell, hw, hc, rfl⟩ := exists_of_cellPlaces hi
    rw [hv] at hw
    cases hw
    rcases Variable.numberCell?_eq_some.1 hc with rfl | rfl
    · refine ⟨rfl, fun cell hc => (by cases hc), fun k hk hp => ?_⟩
      cases hp
      exact absurd hk (hK.sound.cells.own i cell hv)
    · refine ⟨rfl, fun cell' hc => ?_, fun k _ hp => ?_⟩
      · cases hc
        exact ⟨cell, rfl, rfl⟩
      · cases hp
        rfl

end Frozen

end FormulaLang.Bytecode
