import FormulaLang.Proofs.Environment
import FormulaLang.Proofs.Environment.Scopes

/-!
# Anchored variables

A variable at the outermost level that is bound to a number cell of the host stays bound to it:
assignments write through it, and what hides it is bound in blocks further in and gone behind them.

* `ScopedTable.Anchor`: a binding at the outermost level which only blocks further in than a level
  hide, with one lemma for each change of a table.
* `Environment.Hosts`: a name stands for a number cell of the host at the outermost level.
* `Environment.Anchored`: the same in a block, where blocks further in than a level may hide it.
* **`Environment.Anchored.setVariable`**, **`Environment.Anchored.leave`** and the like: the changes
  of an environment.
-/

namespace FormulaLang

/-! ## Tables -/

namespace ScopedTable

variable {α : Type} {t : ScopedTable α} {name other : String} {base base' level : Nat} {v w : α}

/-- A name is bound to a value at the outermost level, and it is bound again only further in than a
level. -/
def Anchor (t : ScopedTable α) (name : String) (v : α) (base : Nat) : Prop :=
  ∃ i, t.frame[i]? = some (name, 0) ∧ t.value? i = some v ∧
    ∀ j level, i < j → t.frame[j]? = some (name, level) → base < level

namespace Anchor

theorem mono (h : t.Anchor name v base) (hb : base' ≤ base) : t.Anchor name v base' := by
  obtain ⟨i, hi, hv, hlater⟩ := h
  exact ⟨i, hi, hv, fun j level hj hf => Nat.lt_of_le_of_lt hb (hlater j level hj hf)⟩

/-- Binding another name, or the name further in. -/
theorem add (h : t.Anchor name v base) (hc : t.Coherent) (hne : other ≠ name ∨ base < level) :
    (t.add other w level).Anchor name v base := by
  obtain ⟨i, hi, hv, hlater⟩ := h
  have hlt := (List.getElem?_eq_some_iff.1 hi).1
  obtain ⟨k, hk, ⟨hf, -, hplace⟩ | ⟨hf, rfl⟩⟩ := hc.add_spec other w level
  · -- The binding that gives way is not the anchor.
    have hik : i ≠ k := by
      rintro rfl
      rw [hi] at hplace
      cases hplace
      exact hne.elim (fun h => h rfl) (Nat.not_lt_zero _)
    exact ⟨i, by rw [hf, hi], by rw [hk, if_neg hik, hv], by rwa [hf]⟩
  · refine ⟨i, by rw [hf, List.getElem?_append_left hlt, hi],
      by rw [hk, if_neg (Nat.ne_of_lt hlt), hv], fun j l hj hl => ?_⟩
    rw [hf] at hl
    rcases Nat.lt_or_ge j t.frame.length with hjlt | hjge
    · rw [List.getElem?_append_left hjlt] at hl
      exact hlater j l hj hl
    · rw [List.getElem?_append_right hjge] at hl
      have hlast := List.mem_singleton.1 (List.mem_of_getElem? hl)
      cases hlast
      exact hne.resolve_left fun h => h rfl

/-- Changing a visible value that is another one. -/
theorem modify (h : t.Anchor name v base) {f : α → α} (hne : t.get? other ≠ some v) :
    (t.modify other f).Anchor name v base := by
  obtain ⟨i, hi, hv, hlater⟩ := h
  refine ⟨i, by rwa [frame_modify], ?_, by rwa [frame_modify]⟩
  rw [value?_modify, if_neg, hv]
  intro hindex
  rw [get?_eq, hindex] at hne
  exact hne hv

/-- Leaving a block, which is further in than the outermost level. -/
theorem dropLevel (h : t.Anchor name v base) (hl : t.Leveled (level + 1)) :
    (t.dropLevel (level + 1)).Anchor name v base := by
  obtain ⟨i, hi, hv, hlater⟩ := h
  obtain ⟨above, habove, hdeep⟩ := hl.exists_above (level + 1)
  have hlt : i < (t.dropLevel (level + 1)).frame.length := by
    by_contra hge
    rw [habove, List.getElem?_append_right (Nat.le_of_not_lt hge)] at hi
    exact Nat.not_succ_le_zero _ (hdeep _ (List.mem_of_getElem? hi))
  have hkept : ∀ j, j < (t.dropLevel (level + 1)).frame.length →
      t.frame[j]? = (t.dropLevel (level + 1)).frame[j]? := fun j hj => by
    rw [habove, List.getElem?_append_left hj]
  refine ⟨i, (hkept i hlt).symm.trans hi, ?_, fun j l hj hf => ?_⟩
  · rw [length_frame] at hlt
    have hsome : (t.dropLevel (level + 1)).value? i =
        some (t.dropLevel (level + 1)).entries[i].value := by
      rw [value?, Array.getElem?_eq_getElem hlt]
      rfl
    rw [hsome, ← value?_dropLevel hsome, hv]
  · exact hlater j l hj ((hkept j (List.getElem?_eq_some_iff.1 hf).1).trans hf)

/-- Where nothing is bound further in, the name is visible. -/
theorem exists_entry (h : t.Anchor name v base) (hc : t.Coherent) (hl : t.Leveled base) :
    ∃ e, t.entry? name = some e ∧ e.level = 0 ∧ e.value = v := by
  obtain ⟨i, hi, hv, hlater⟩ := h
  have hlast : LastAt t.frame name i := ⟨⟨0, hi⟩, fun j hj level hf =>
    absurd (hl.le _ (List.mem_of_getElem? hf)) (Nat.not_le.2 (hlater j level hj hf))⟩
  obtain ⟨e, he, rfl⟩ := Option.map_eq_some_iff.1 hv
  refine ⟨e, hc.entry?_eq_some.2 ⟨i, hlast, he⟩, ?_, rfl⟩
  rw [getElem?_frame, he] at hi
  exact congrArg Prod.snd (Option.some.inj hi)

end Anchor

theorem Coherent.anchor (hc : t.Coherent) {e : Entry α} (he : t.entry? name = some e)
    (hl : e.level = 0) (base : Nat) : t.Anchor name e.value base := by
  obtain ⟨i, hlast, hi⟩ := hc.entry?_eq_some.1 he
  refine ⟨i, ?_, by rw [value?, hi]; rfl, fun j level hj hf => absurd hf (hlast.2 j hj level)⟩
  rw [getElem?_frame, hi, Option.map_some, hc.name_eq he, hl]

/-- A name that is bound somewhere has a value. -/
theorem Anchor.get?_ne_none (h : t.Anchor name v base) (hc : t.Coherent) : t.get? name ≠ none := by
  obtain ⟨i, hi, -⟩ := h
  intro hnone
  exact hc.entry?_eq_none.1 (Option.map_eq_none_iff.1 hnone) 0 (List.mem_of_getElem? hi)

end ScopedTable

/-! ## Environments -/

namespace Environment

variable {env : Environment} {held : List Nat} {cells : List HostCell} {name other : String}
  {cell base : Nat}

/-- The variable of a name is one of the outermost level, in a number cell of the host. -/
def Hosts (env : Environment) (name : String) (cell : Nat) : Prop :=
  ∃ e, env.vars.entry? name = some e ∧ e.level = 0 ∧ e.value = .host (.number cell)

theorem Hosts.get? (h : env.Hosts name cell) : env.vars.get? name = some (.host (.number cell)) := by
  obtain ⟨e, he, -, hv⟩ := h
  rw [ScopedTable.get?, he, Option.map_some, hv]

theorem Hosts.value? (h : env.Hosts name cell) :
    env.value? name = some (.number (env.store.number cell)) := by
  unfold Environment.value?
  rw [h.get?]
  rfl

/-- A name stands for a number cell of the host as far as blocks up to a level are concerned. -/
structure Anchored (held : List Nat) (name : String) (cell base : Nat) (env : Environment) :
    Prop where
  sound : env.Sound held
  anchor : env.vars.Anchor name (.host (.number cell)) base

theorem Sound.hosts_iff (h : env.Sound held) :
    env.Hosts name cell ↔ env.Anchored held name cell env.level := by
  constructor
  · rintro ⟨e, he, hl, hv⟩
    exact ⟨h, hv ▸ h.vars.anchor he hl _⟩
  · exact fun ha => ha.anchor.exists_entry h.vars h.varsLevel

namespace Anchored

theorem addVariable (h : env.Anchored held name cell base) (hne : other ≠ name ∨ base < env.level)
    (v : Value) : (env.addVariable other v).Anchored held name cell base := by
  refine ⟨h.sound.addVariable other v, ?_⟩
  obtain ⟨w, hw⟩ := env.vars_addVariable other v
  rw [hw]
  exact h.anchor.add h.sound.vars hne

theorem addHost (h : env.Anchored held name cell base) (hne : other ≠ name) {shared : HostCell}
    (hc : ∀ c, shared = .number c → c ∈ held) :
    (env.addHost other shared).Anchored held name cell base :=
  ⟨h.sound.addHost hc, h.anchor.add h.sound.vars (.inl hne)⟩

theorem rebind (h : env.Anchored held name cell base) {u : Variable}
    (hu : env.vars.get? other = some u) (hhost : ∀ c, u ≠ .host c) (v : Value) :
    (env.rebind other v).Anchored held name cell base := by
  obtain ⟨e, he, rfl⟩ := Option.map_eq_some_iff.1 hu
  obtain ⟨k, hk, -⟩ := h.sound.vars.entry?_eq_some.1 he
  refine ⟨h.sound.rebind ((h.sound.vars.index other k).2 hk) v, ?_⟩
  obtain ⟨w, store, -, hrebind, -⟩ := env.exists_storage v
  rw [hrebind]
  exact h.anchor.modify fun hvalue => hhost _ (Option.some.inj (hu.symm.trans hvalue))

theorem writeHost (h : env.Anchored held name cell base) (shared : HostCell) (v : Value) :
    (env.writeHost other shared v).1.Anchored held name cell base := by
  refine ⟨h.sound.writeHost shared v, ?_⟩
  have hvars : (env.writeHost other shared v).1.vars = env.vars := by
    unfold Environment.writeHost
    split <;> rfl
  rw [hvars]
  exact h.anchor

/-- **An assignment**, of whatever kind of value, writes through the variable or fails. -/
theorem setVariable (h : env.Anchored held name cell base) (other : String) (v : Value) :
    (env.setVariable other v).1.Anchored held name cell base := by
  unfold Environment.setVariable
  cases hu : env.vars.get? other with
  | none =>
    refine h.addVariable (.inl ?_) v
    rintro rfl
    exact h.anchor.get?_ne_none h.sound.vars hu
  | some u =>
    cases u with
    | host shared => exact h.writeHost shared v
    | value w => exact h.rebind hu (by simp) v
    | number c =>
      dsimp only
      split
      · exact ⟨h.sound.setNumber c _, h.anchor⟩
      · exact h.rebind hu (by simp) _

theorem addFunction (h : env.Anchored held name cell base) (other : String) (f : Function) :
    (env.addFunction other f).Anchored held name cell base :=
  ⟨h.sound.addFunction other f, h.anchor⟩

theorem of_store (h : env.Anchored held name cell base) {store : Store}
    (hs : store.numbers.size = env.store.numbers.size) :
    { env with store }.Anchored held name cell base :=
  ⟨h.sound.of_store hs, h.anchor⟩

theorem newHostCell (h : env.Anchored (HostCell.numberCells cells) name cell base) (v : Value)
    (boxed : Bool) : (env.newHostCell v boxed).2.Anchored
      (HostCell.numberCells ((env.newHostCell v boxed).1 :: cells)) name cell base := by
  refine ⟨h.sound.newHostCell v boxed, ?_⟩
  have hvars : (env.newHostCell v boxed).2.vars = env.vars := by
    unfold Environment.newHostCell
    split <;> rfl
  rw [hvars]
  exact h.anchor

theorem enter (h : env.Anchored held name cell base) : env.enter.Anchored held name cell base :=
  ⟨h.sound.enter, h.anchor⟩

/-- **Leaving a block**, which is never the outermost one. -/
theorem leave (h : env.Anchored held name cell base) : env.leave.Anchored held name cell base := by
  refine ⟨h.sound.leave, ?_⟩
  unfold Environment.leave
  split
  · exact h.anchor
  · next level hl =>
    have hlevel := h.sound.varsLevel
    rw [hl] at hlevel
    exact h.anchor.dropLevel hlevel

end Anchored

end Environment

end FormulaLang
