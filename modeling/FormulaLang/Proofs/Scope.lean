import FormulaLang.Scope
import Mathlib.Data.List.Induction

/-!
# Scoped tables are stacks

The index of a scoped table tells where the last binding of each name stands, and every binding
remembers the one that it hides. So the bindings are a stack of names and levels, the index is
told by them alone, and dropping a level takes the bindings of that level and above off the top.

* `ScopedTable.frame`: the names and levels of the bindings.
* `LastAt`: where the last binding of a name stands.
* `ScopedTable.Coherent`, `ScopedTable.Leveled`: the index fits the bindings, and their levels rise.
* `ScopedTable.add_cases`: what binding a name does.
* **`ScopedTable.toList_dropLevel`**: dropping a level leaves the bindings below it.
* `ScopedTable.Grown`: bindings were only added on top, and dropping their level brings the table
  back.
-/

namespace FormulaLang

/-! ## Last places -/

/-- The last binding of a name stands at a place of a frame. -/
def LastAt (frame : List (String × Nat)) (name : String) (i : Nat) : Prop :=
  (∃ level, frame[i]? = some (name, level)) ∧ ∀ j, i < j → ∀ level, frame[j]? ≠ some (name, level)

section LastAt

variable {frame : List (String × Nat)} {name : String} {i j : Nat}

theorem LastAt.lt (h : LastAt frame name i) : i < frame.length := by
  obtain ⟨⟨level, h⟩, -⟩ := h
  exact (List.getElem?_eq_some_iff.1 h).1

theorem LastAt.unique (h : LastAt frame name i) (h' : LastAt frame name j) : i = j := by
  obtain ⟨⟨l, hi⟩, hl⟩ := h
  obtain ⟨⟨l', hj⟩, hl'⟩ := h'
  by_contra hne
  rcases Nat.lt_or_gt_of_ne hne with hlt | hlt
  · exact hl j hlt l' hj
  · exact hl' i hlt l hi

theorem not_lastAt_nil : ¬ LastAt [] name i := fun h => absurd h.lt (Nat.not_lt_zero _)

theorem lastAt_concat {p : String × Nat} :
    LastAt (frame ++ [p]) name i ↔ if name = p.1 then i = frame.length else LastAt frame name i := by
  obtain ⟨m, l⟩ := p
  constructor
  · intro h
    have hlt := h.lt
    rw [List.length_append, List.length_singleton] at hlt
    obtain ⟨⟨level, hi⟩, hl⟩ := h
    split
    · next hn =>
      subst hn
      by_contra hne
      exact hl frame.length (by omega) l (List.getElem?_concat_length)
    · next hn =>
      have hi' : i < frame.length := by
        by_contra hge
        obtain rfl : i = frame.length := by omega
        rw [List.getElem?_concat_length] at hi
        cases hi
        exact hn rfl
      rw [List.getElem?_append_left hi'] at hi
      refine ⟨⟨level, hi⟩, fun j hj level' hj' => hl j hj level' ?_⟩
      rw [List.getElem?_append_left (List.getElem?_eq_some_iff.1 hj').1, hj']
  · split
    · rintro rfl
      next hn =>
      subst hn
      refine ⟨⟨l, List.getElem?_concat_length⟩, fun j hj level hl => ?_⟩
      have := (List.getElem?_eq_some_iff.1 hl).1
      rw [List.length_append, List.length_singleton] at this
      omega
    · next hn =>
      rintro h
      have hi := h.lt
      obtain ⟨⟨level, h⟩, hl⟩ := h
      refine ⟨⟨level, by rw [List.getElem?_append_left hi, h]⟩, fun j hj level' hj' => ?_⟩
      rcases Nat.lt_or_ge j frame.length with hlt | hge
      · rw [List.getElem?_append_left hlt] at hj'
        exact hl j hj level' hj'
      · have := (List.getElem?_eq_some_iff.1 hj').1
        rw [List.length_append, List.length_singleton] at this
        obtain rfl : j = frame.length := by omega
        rw [List.getElem?_concat_length] at hj'
        cases hj'
        exact hn rfl

/-- A name that is bound somewhere is bound last somewhere. -/
theorem exists_lastAt {level : Nat} (h : (name, level) ∈ frame) : ∃ i, LastAt frame name i := by
  induction frame using List.reverseRecOn with
  | nil => cases h
  | append_singleton frame p ih =>
    simp only [lastAt_concat]
    by_cases hn : name = p.1
    · exact ⟨frame.length, by rw [if_pos hn]⟩
    · simp only [if_neg hn]
      rcases List.mem_append.1 h with h | h
      · exact ih h
      · rw [List.mem_singleton] at h
        exact absurd (congrArg Prod.fst h) hn

end LastAt

namespace ScopedTable

variable {α : Type} {t : ScopedTable α} {name : String} {level i : Nat} {v : α}

/-- The names and levels of the bindings, oldest first. -/
def frame (t : ScopedTable α) : List (String × Nat) :=
  t.entries.toList.map fun e => (e.name, e.level)

theorem getElem?_frame : t.frame[i]? = t.entries[i]?.map fun e => (e.name, e.level) := by
  rw [frame, List.getElem?_map, Array.getElem?_toList]

@[simp] theorem length_frame : t.frame.length = t.entries.size := by simp [frame]

/-- The index tells the last binding of each name, and every binding the one that it hides. -/
structure Coherent (t : ScopedTable α) : Prop where
  index : ∀ name i, t.index[name]? = some i ↔ LastAt t.frame name i
  hidden : ∀ k e, t.entries[k]? = some e →
    ∀ i, e.hidden = some i ↔ LastAt (t.frame.take k) e.name i

/-- The levels of the bindings rise up to a level. -/
structure Leveled (t : ScopedTable α) (level : Nat) : Prop where
  sorted : t.frame.Pairwise fun p q => p.2 ≤ q.2
  le : ∀ p ∈ t.frame, p.2 ≤ level

theorem Leveled.mono (h : t.Leveled level) (hl : level ≤ i) : t.Leveled i :=
  ⟨h.sorted, fun p hp => Nat.le_trans (h.le p hp) hl⟩

/-! ## Looking up -/

theorem Coherent.entry?_eq_some (h : t.Coherent) {e : Entry α} :
    t.entry? name = some e ↔ ∃ i, LastAt t.frame name i ∧ t.entries[i]? = some e := by
  unfold entry?
  cases hi : t.index[name]? with
  | none =>
    constructor
    · intro h
      cases h
    · rintro ⟨i, hl, -⟩
      rw [(h.index name i).2 hl] at hi
      cases hi
  | some i =>
    have hl := (h.index name i).1 hi
    constructor
    · exact fun he => ⟨i, hl, he⟩
    · rintro ⟨j, hj, he⟩
      exact hl.unique hj ▸ he

theorem Coherent.entry?_eq_none (h : t.Coherent) :
    t.entry? name = none ↔ ∀ level, (name, level) ∉ t.frame := by
  constructor
  · intro hn level hm
    obtain ⟨i, hi⟩ := exists_lastAt hm
    have hlt := hi.lt
    rw [length_frame] at hlt
    have := h.entry?_eq_some.2 ⟨i, hi, Array.getElem?_eq_getElem hlt⟩
    rw [hn] at this
    cases this
  · intro hn
    by_contra he
    obtain ⟨e, he⟩ := Option.ne_none_iff_exists'.1 he
    obtain ⟨i, ⟨⟨level, hi⟩, -⟩, -⟩ := h.entry?_eq_some.1 he
    exact hn level (List.mem_of_getElem? hi)

theorem Coherent.contains_iff (h : t.Coherent) :
    t.contains name = true ↔ ∃ level, (name, level) ∈ t.frame := by
  rw [contains, Std.HashMap.contains_eq_isSome_getElem?]
  constructor
  · intro hc
    obtain ⟨i, hi⟩ := Option.isSome_iff_exists.1 hc
    obtain ⟨⟨level, hi⟩, -⟩ := (h.index name i).1 hi
    exact ⟨level, List.mem_of_getElem? hi⟩
  · rintro ⟨level, hm⟩
    obtain ⟨i, hi⟩ := exists_lastAt hm
    rw [(h.index name i).2 hi]
    rfl

theorem Coherent.name_eq (h : t.Coherent) {e : Entry α} (he : t.entry? name = some e) :
    e.name = name := by
  obtain ⟨i, ⟨⟨level, hi⟩, -⟩, he⟩ := h.entry?_eq_some.1 he
  rw [getElem?_frame, he] at hi
  cases hi
  rfl

/-! ## Binding -/

theorem frame_push : (t.push name v level).frame = t.frame ++ [(name, level)] := by
  simp [frame, push]

theorem index_push (other : String) : (t.push name v level).index[other]? =
    if other = name then some t.entries.size else t.index[other]? := by
  simp only [push, Std.HashMap.getElem?_insert, beq_iff_eq]
  by_cases h : other = name
  · rw [if_pos h, if_pos h.symm]
  · rw [if_neg h, if_neg (Ne.symm h)]

theorem coherent_empty : (empty : ScopedTable α).Coherent :=
  ⟨fun name i => by simp [empty, frame, not_lastAt_nil], fun k e h => by simp [empty] at h⟩

theorem leveled_empty : (empty : ScopedTable α).Leveled level :=
  ⟨.nil, fun p hp => by simp [empty, frame] at hp⟩

theorem Coherent.push (h : t.Coherent) : (t.push name v level).Coherent := by
  refine ⟨fun m i => ?_, fun k e he i => ?_⟩
  · rw [frame_push, lastAt_concat, length_frame, index_push]
    split
    · rw [Option.some.injEq, eq_comm]
    · exact h.index m i
  · rw [frame_push]
    simp only [ScopedTable.push, Array.getElem?_push] at he
    split at he
    · next hk =>
      cases he
      rw [hk, ← length_frame, List.take_left]
      exact h.index name i
    · have hk := (Array.getElem?_eq_some_iff.1 he).1
      rw [List.take_append_of_le_length (by rw [length_frame]; omega)]
      exact h.hidden k e he i

theorem Leveled.push (h : t.Leveled level) : (t.push name v level).Leveled level := by
  constructor
  · rw [frame_push, List.pairwise_append]
    refine ⟨h.sorted, List.pairwise_singleton _ _, fun p hp q hq => ?_⟩
    rw [List.mem_singleton] at hq
    subst hq
    exact h.le p hp
  · rw [frame_push]
    intro p hp
    rcases List.mem_append.1 hp with hp | hp
    · exact h.le p hp
    · rw [List.mem_singleton] at hp
      subst hp
      exact Nat.le_refl _

section Modify

variable {f : α → α}

theorem getElem?_modify (i : Nat) : (t.modify name f).entries[i]? =
    if t.index[name]? = some i then t.entries[i]?.map fun e => { e with value := f e.value }
    else t.entries[i]? := by
  unfold modify
  cases hi : t.index[name]? with
  | none => simp
  | some k => simp only [Array.getElem?_modify, Option.some.injEq]

theorem index_modify : (t.modify name f).index = t.index := by
  unfold modify
  split <;> rfl

theorem frame_modify : (t.modify name f).frame = t.frame := by
  refine List.ext_getElem? fun i => ?_
  rw [getElem?_frame, getElem?_frame, getElem?_modify]
  split
  · rw [Option.map_map]
    rfl
  · rfl

theorem Coherent.modify (h : t.Coherent) : (t.modify name f).Coherent := by
  refine ⟨fun m i => by rw [index_modify, frame_modify, h.index], fun k e he i => ?_⟩
  rw [getElem?_modify] at he
  rw [frame_modify]
  split at he
  · obtain ⟨e, he', rfl⟩ := Option.map_eq_some_iff.1 he
    exact h.hidden k e he' i
  · exact h.hidden k e he i

theorem Leveled.modify (h : t.Leveled level) : (t.modify name f).Leveled level := by
  constructor
  · rw [frame_modify]
    exact h.sorted
  · rw [frame_modify]
    exact h.le

end Modify

/-- A binding at the current level gives way, or a new one is put on top. -/
theorem add_cases (t : ScopedTable α) (name : String) (v : α) (level : Nat) :
    (∃ e, t.entry? name = some e ∧ e.level = level ∧
      t.add name v level = t.modify name fun _ => v) ∨
    (∀ e, t.entry? name = some e → e.level ≠ level) ∧
      t.add name v level = t.push name v level := by
  unfold add
  cases he : t.entry? name with
  | none => exact .inr ⟨fun _ h => (by cases h), rfl⟩
  | some e =>
    by_cases hl : e.level = level
    · exact .inl ⟨e, rfl, hl, if_pos hl⟩
    · refine .inr ⟨fun e' h => ?_, if_neg hl⟩
      cases h
      exact hl

theorem Coherent.add (h : t.Coherent) : (t.add name v level).Coherent := by
  rcases t.add_cases name v level with ⟨e, _, _, ha⟩ | ⟨_, ha⟩
  · rw [ha]
    exact h.modify
  · rw [ha]
    exact h.push

theorem Leveled.add (h : t.Leveled level) : (t.add name v level).Leveled level := by
  rcases t.add_cases name v level with ⟨e, _, _, ha⟩ | ⟨_, ha⟩
  · rw [ha]
    exact h.modify
  · rw [ha]
    exact h.push

/-! ## Values -/

/-- What is bound at a place. -/
def value? (t : ScopedTable α) (i : Nat) : Option α := t.entries[i]?.map (·.value)

theorem value?_push : (t.push name v level).value? i =
    if i = t.entries.size then some v else t.value? i := by
  unfold value? push
  rw [Array.getElem?_push]
  split <;> rfl

theorem value?_modify {f : α → α} : (t.modify name f).value? i =
    if t.index[name]? = some i then (t.value? i).map f else t.value? i := by
  unfold value?
  rw [getElem?_modify]
  split
  · rw [Option.map_map, Option.map_map]
    rfl
  · rfl

theorem get?_eq : t.get? name = t.index[name]?.bind t.value? := by
  unfold get? entry?
  cases t.index[name]? <;> rfl

theorem Coherent.lt_size (h : t.Coherent) (hi : t.index[name]? = some i) : i < t.entries.size := by
  rw [← length_frame]
  exact ((h.index name i).1 hi).lt

/-- The values that names are bound to after another binding. -/
theorem Coherent.get?_add (h : t.Coherent) (other : String) :
    (t.add name v level).get? other = if other = name then some v else t.get? other := by
  rcases t.add_cases name v level with ⟨e, he, _, ha⟩ | ⟨_, ha⟩
  · obtain ⟨k, hk, hek⟩ := h.entry?_eq_some.1 he
    have hi := (h.index name k).2 hk
    rw [ha, get?_eq, get?_eq, index_modify]
    by_cases hn : other = name
    · subst hn
      rw [if_pos rfl, hi, Option.bind_some, value?_modify, if_pos hi, value?, hek]
      rfl
    · rw [if_neg hn]
      cases ho : t.index[other]? with
      | none => rfl
      | some j =>
        rw [Option.bind_some, Option.bind_some, value?_modify, if_neg]
        intro hj
        obtain ⟨⟨_, hl⟩, -⟩ := (h.index other j).1 ho
        obtain ⟨⟨_, hl'⟩, -⟩ := (h.index name j).1 hj
        rw [hl] at hl'
        cases hl'
        exact hn rfl
  · rw [ha, get?_eq, get?_eq, index_push]
    by_cases hn : other = name
    · rw [if_pos hn, if_pos hn, Option.bind_some, value?_push, if_pos rfl]
    · rw [if_neg hn, if_neg hn]
      cases ho : t.index[other]? with
      | none => rfl
      | some j =>
        have hlt := h.lt_size ho
        rw [Option.bind_some, Option.bind_some, value?_push, if_neg (by omega)]

/-- Changing the value of a name changes it at one place. -/
theorem Coherent.value?_modify_const (h : t.Coherent) {k : Nat} (hk : LastAt t.frame name k)
    (i : Nat) : (t.modify name fun _ => v).value? i = if i = k then some v else t.value? i := by
  have hlt := hk.lt
  rw [length_frame] at hlt
  have hindex := (h.index name k).2 hk
  rw [value?_modify]
  by_cases hi : i = k
  · subst hi
    rw [if_pos hindex, if_pos rfl, value?, Array.getElem?_eq_getElem hlt]
    rfl
  · rw [if_neg hi, if_neg fun h => hi (Option.some.inj (h.symm.trans hindex))]

/-- What binding a name does: its last binding at the level gives way, or there is a new one. -/
theorem Coherent.add_spec (h : t.Coherent) (name : String) (v : α) (level : Nat) :
    ∃ k, (∀ i, (t.add name v level).value? i = if i = k then some v else t.value? i) ∧
      ((t.add name v level).frame = t.frame ∧ LastAt t.frame name k ∧
          t.frame[k]? = some (name, level) ∨
        (t.add name v level).frame = t.frame ++ [(name, level)] ∧ k = t.frame.length) := by
  rcases t.add_cases name v level with ⟨e, he, hl, ha⟩ | ⟨_, ha⟩
  · obtain ⟨k, hk, hek⟩ := h.entry?_eq_some.1 he
    refine ⟨k, fun i => by rw [ha, h.value?_modify_const hk], .inl ⟨by rw [ha, frame_modify], hk, ?_⟩⟩
    rw [getElem?_frame, hek, Option.map_some, h.name_eq he, hl]
  · exact ⟨t.entries.size, fun i => by rw [ha, value?_push],
      .inr ⟨by rw [ha, frame_push], length_frame.symm⟩⟩

/-- Binding a name puts the value at one place. -/
theorem exists_value?_add (t : ScopedTable α) (name : String) (v : α) (level : Nat) :
    ∃ k, ∀ i, (t.add name v level).value? i = if i = k then some v else t.value? i := by
  rcases t.add_cases name v level with ⟨e, he, _, ha⟩ | ⟨_, ha⟩
  · unfold entry? at he
    cases hk : t.index[name]? with
    | none =>
      rw [hk] at he
      cases he
    | some k =>
      rw [hk] at he
      dsimp only at he
      refine ⟨k, fun i => ?_⟩
      rw [ha, value?_modify, hk]
      by_cases hi : i = k
      · subst hi
        rw [if_pos rfl, if_pos rfl, value?, he]
        rfl
      · rw [if_neg hi, if_neg fun h => hi (Option.some.inj h).symm]
  · exact ⟨t.entries.size, fun i => by rw [ha, value?_push]⟩

/-! ## Visible bindings -/

/-- The visible bindings are those that names are looked up as. -/
theorem Coherent.mem_visible (h : t.Coherent) : (name, v) ∈ t.visible ↔ t.get? name = some v := by
  rw [visible, List.mem_filterMap]
  constructor
  · rintro ⟨⟨e, i⟩, hm, hp⟩
    rw [List.mem_zipIdx_iff_getElem?, Array.getElem?_toList] at hm
    dsimp only at hm hp
    split at hp
    · next hi =>
      cases hp
      rw [get?_eq, hi, Option.bind_some, value?, hm]
      rfl
    · cases hp
  · intro hv
    obtain ⟨e, he, rfl⟩ := Option.map_eq_some_iff.1 hv
    obtain ⟨i, hi, hei⟩ := h.entry?_eq_some.1 he
    have hname := h.name_eq he
    refine ⟨(e, i), List.mem_zipIdx_iff_getElem?.2 (by rw [Array.getElem?_toList, hei]), ?_⟩
    dsimp only
    rw [hname, if_pos ((h.index name i).2 hi)]

/-- Every name is visible once. -/
theorem nodup_visible (t : ScopedTable α) : (t.visible.map Prod.fst).Nodup := by
  have hplaces : t.entries.toList.zipIdx.Pairwise fun p q => p.2 ≠ q.2 := by
    refine List.pairwise_map.1 ?_
    rw [List.zipIdx_map_snd]
    exact List.nodup_range'
  rw [visible, List.Nodup, List.pairwise_map]
  refine List.Pairwise.filterMap _ (fun p q hpq b hb b' hb' hname => ?_) hplaces
  dsimp only at hb hb'
  split at hb
  · next hp =>
    split at hb'
    · next hq =>
      cases hb
      cases hb'
      dsimp only at hname
      rw [hname, hq] at hp
      exact hpq (Option.some.inj hp).symm
    · cases hb'
  · cases hb

/-! ## Dropping -/

theorem entries_pop (last : Entry α) : (t.pop last).entries = t.entries.pop := by
  unfold pop
  split <;> rfl

theorem index_pop (last : Entry α) (m : String) :
    (t.pop last).index[m]? = if m = last.name then last.hidden else t.index[m]? := by
  unfold pop
  by_cases hm : m = last.name
  · subst hm
    rw [if_pos rfl]
    split
    · next i hi => simp [hi]
    · next hi => simp [hi]
  · rw [if_neg hm]
    split
    · simp [Std.HashMap.getElem?_insert, Ne.symm hm]
    · simp [Std.HashMap.getElem?_erase, Ne.symm hm]

section Last

variable {last : Entry α} {entries : Array (Entry α)}

theorem frame_of_push (he : t.entries = entries.push last) :
    t.frame = (t.pop last).frame ++ [(last.name, last.level)] := by
  simp [frame, entries_pop, he]

theorem Coherent.pop (h : t.Coherent) (he : t.entries = entries.push last) :
    (t.pop last).Coherent := by
  have hf := frame_of_push he
  have hsize : (t.pop last).frame.length = entries.size := by simp [entries_pop, he]
  refine ⟨fun m i => ?_, fun k e hk i => ?_⟩
  · rw [index_pop]
    split
    · next hm =>
      subst hm
      rw [h.hidden entries.size last (by simp [he]), hf, ← hsize, List.take_left]
    · next hm => rw [h.index, hf, lastAt_concat, if_neg hm]
  · rw [entries_pop, he, Array.pop_push] at hk
    have hlt := (Array.getElem?_eq_some_iff.1 hk).1
    have := h.hidden k e (by rw [he, Array.getElem?_push_lt hlt, ← hk, Array.getElem?_eq_getElem hlt])
    rw [this, hf, List.take_append_of_le_length (by omega)]

theorem Leveled.pop (h : t.Leveled level) (he : t.entries = entries.push last) :
    (t.pop last).Leveled level ∧ ∀ p ∈ (t.pop last).frame, p.2 ≤ last.level := by
  obtain ⟨hs, hl⟩ := h
  rw [frame_of_push he, List.pairwise_append] at hs
  refine ⟨⟨hs.1, fun p hp => hl p ?_⟩, fun p hp => hs.2.2 p hp _ (List.mem_singleton_self _)⟩
  rw [frame_of_push he]
  exact List.mem_append_left _ hp

end Last

theorem Coherent.dropUpTo {n : Nat} (h : t.Coherent) : (t.dropUpTo n level).Coherent := by
  induction n generalizing t with
  | zero => exact h
  | succ n ih =>
    unfold ScopedTable.dropUpTo
    split
    · next last hlast =>
      obtain ⟨entries, he⟩ := Array.back?_eq_some_iff.1 hlast
      split
      · exact ih (h.pop he)
      · exact h
    · exact h

/-- As many steps as there are bindings leave those below the level. -/
theorem toList_dropUpTo {n : Nat} (h : t.Leveled i) (hn : t.entries.size ≤ n) :
    (t.dropUpTo n level).entries.toList = t.entries.toList.filter (·.level < level) := by
  induction n generalizing t with
  | zero =>
    obtain hz := Array.size_eq_zero_iff.1 (Nat.le_zero.1 hn)
    simp [dropUpTo, hz]
  | succ n ih =>
    unfold dropUpTo
    split
    · next last hlast =>
      obtain ⟨entries, he⟩ := Array.back?_eq_some_iff.1 hlast
      obtain ⟨hp, hle⟩ := h.pop he
      have hpop : (t.pop last).entries = entries := by rw [entries_pop, he, Array.pop_push]
      split
      · next hlevel =>
        rw [ih hp (by rw [hpop]; rw [he, Array.size_push] at hn; omega), hpop, he,
          Array.toList_push, List.filter_append]
        simp [Nat.not_lt.2 hlevel]
      · next hlevel =>
        rw [List.filter_eq_self.2]
        intro e hm
        rw [decide_eq_true_eq]
        rw [he, Array.toList_push, List.mem_append, List.mem_singleton] at hm
        rcases hm with hm | rfl
        · have := hle (e.name, e.level) (List.mem_map.2 ⟨e, by rw [hpop]; exact hm, rfl⟩)
          dsimp only at this
          omega
        · omega
    · next hnone =>
      rw [Array.back?_eq_none_iff] at hnone
      simp [hnone]

/-- **Dropping a level** leaves the bindings below it. -/
theorem toList_dropLevel (h : t.Leveled i) :
    (t.dropLevel level).entries.toList = t.entries.toList.filter (·.level < level) :=
  toList_dropUpTo h (Nat.le_refl _)

theorem dropUpTo_prefix (t : ScopedTable α) (n level : Nat) :
    (t.dropUpTo n level).entries.toList <+: t.entries.toList := by
  induction n generalizing t with
  | zero => exact List.prefix_rfl
  | succ n ih =>
    unfold dropUpTo
    split
    · next last hlast =>
      obtain ⟨entries, he⟩ := Array.back?_eq_some_iff.1 hlast
      split
      · refine (ih _).trans ?_
        rw [entries_pop, he, Array.pop_push, Array.toList_push]
        exact List.prefix_append _ _
      · exact List.prefix_rfl
    · exact List.prefix_rfl

theorem value?_dropLevel (hi : (t.dropLevel level).value? i = some v) : t.value? i = some v := by
  obtain ⟨e, he, rfl⟩ := Option.map_eq_some_iff.1 hi
  obtain ⟨rest, hr⟩ := t.dropUpTo_prefix t.entries.size level
  have hlt := (Array.getElem?_eq_some_iff.1 he).1
  rw [value?, ← Array.getElem?_toList, ← hr, List.getElem?_append_left (by exact hlt),
    Array.getElem?_toList]
  exact congrArg (Option.map _) he

/-- Dropping a level leaves what lies below it. -/
theorem toList_dropLevel_of_frame (h : t.Leveled i) {below above : List (String × Nat)}
    (hf : t.frame = below ++ above) (hb : ∀ p ∈ below, p.2 < level)
    (ha : ∀ p ∈ above, level ≤ p.2) :
    (t.dropLevel level).entries.toList = t.entries.toList.take below.length := by
  have hbelow : (t.entries.toList.take below.length).map (fun e => (e.name, e.level)) = below := by
    rw [List.map_take, ← frame, hf, List.take_left]
  have habove : (t.entries.toList.drop below.length).map (fun e => (e.name, e.level)) = above := by
    rw [List.map_drop, ← frame, hf, List.drop_left]
  rw [toList_dropLevel h]
  conv_lhs => rw [← List.take_append_drop below.length t.entries.toList]
  rw [List.filter_append, List.filter_eq_self.2, List.filter_eq_nil_iff.2, List.append_nil]
  · intro e he
    have := ha (e.name, e.level) (habove ▸ List.mem_map_of_mem he)
    simpa using this
  · intro e he
    have := hb (e.name, e.level) (hbelow ▸ List.mem_map_of_mem he)
    simpa using this

/-- What lies below a dropped level keeps its bindings. -/
theorem value?_dropLevel_of_frame (h : t.Leveled i) {below above : List (String × Nat)}
    (hf : t.frame = below ++ above) (hb : ∀ p ∈ below, p.2 < level)
    (ha : ∀ p ∈ above, level ≤ p.2) :
    (t.dropLevel level).frame = below ∧
      ∀ k < below.length, (t.dropLevel level).value? k = t.value? k := by
  have hdrop := toList_dropLevel_of_frame h hf hb ha
  refine ⟨?_, fun k hk => ?_⟩
  · rw [frame, hdrop, List.map_take, ← frame, hf, List.take_left]
  · rw [value?, value?, ← Array.getElem?_toList, hdrop, List.getElem?_take_of_lt hk,
      Array.getElem?_toList]

theorem Coherent.dropLevel (h : t.Coherent) : (t.dropLevel level).Coherent := h.dropUpTo

theorem frame_dropLevel (h : t.Leveled i) :
    (t.dropLevel level).frame = t.frame.filter (·.2 < level) := by
  rw [frame, toList_dropLevel h, frame, List.filter_map]
  rfl

theorem Leveled.dropLevel (h : t.Leveled i) : (t.dropLevel (level + 1)).Leveled level := by
  constructor
  · rw [frame_dropLevel h]
    exact h.sorted.filter _
  · rw [frame_dropLevel h]
    intro p hp
    have := of_decide_eq_true (List.mem_filter.1 hp).2
    omega

/-! ## Growing -/

/-- Bindings were only added on top, at a level. -/
def Grown (level : Nat) (t t' : ScopedTable α) : Prop :=
  ∃ above, t'.frame = t.frame ++ above ∧ ∀ p ∈ above, p.2 = level

section Grown

variable {t' t'' : ScopedTable α}

theorem Grown.of_frame (h : t'.frame = t.frame) : t.Grown level t' :=
  ⟨[], by rw [h, List.append_nil], fun _ h => (by cases h)⟩

theorem Grown.trans (h : t.Grown level t') (h' : t'.Grown level t'') : t.Grown level t'' := by
  obtain ⟨above, hf, ha⟩ := h
  obtain ⟨above', hf', ha'⟩ := h'
  refine ⟨above ++ above', by rw [hf', hf, List.append_assoc], fun p hp => ?_⟩
  exact (List.mem_append.1 hp).elim (ha p) (ha' p)

theorem grown_add (t : ScopedTable α) (name : String) (v : α) (level : Nat) :
    t.Grown level (t.add name v level) := by
  rcases t.add_cases name v level with ⟨e, -, -, ha⟩ | ⟨-, ha⟩
  · rw [ha]
    exact .of_frame frame_modify
  · refine ⟨_, by rw [ha, frame_push], fun p hp => ?_⟩
    rw [List.mem_singleton] at hp
    rw [hp]

theorem Grown.size_le (h : t.Grown level t') : t.entries.size ≤ t'.entries.size := by
  obtain ⟨above, hf, -⟩ := h
  have := congrArg List.length hf
  rw [List.length_append, length_frame, length_frame] at this
  omega

/-- The names and levels that there were stay where they were. -/
theorem Grown.getElem?_frame (h : t.Grown level t') {p : String × Nat} (hp : t.frame[i]? = some p) :
    t'.frame[i]? = some p := by
  obtain ⟨above, hf, -⟩ := h
  rw [hf, List.getElem?_append_left (List.getElem?_eq_some_iff.1 hp).1, hp]

/-- A name that is bound last somewhere is never bound last further down. -/
theorem Grown.exists_lastAt (h : t.Grown level t') {k : Nat} (hk : LastAt t.frame name k) :
    ∃ j, k ≤ j ∧ LastAt t'.frame name j := by
  obtain ⟨⟨l, hl⟩, -⟩ := hk
  have hl' := h.getElem?_frame hl
  obtain ⟨j, hj⟩ := FormulaLang.exists_lastAt (List.mem_of_getElem? hl')
  exact ⟨j, Nat.le_of_not_lt fun hlt => hj.2 k hlt l hl', hj⟩

/-- Dropping the level brings back the table as it was, with the values it has now. -/
theorem Grown.dropLevel (h : t.Grown (level + 1) t') (ht : t.Leveled level)
    (ht' : t'.Leveled (level + 1)) : (t'.dropLevel (level + 1)).frame = t.frame ∧
      ∀ k < t.entries.size, (t'.dropLevel (level + 1)).value? k = t'.value? k := by
  obtain ⟨above, hf, ha⟩ := h
  have := value?_dropLevel_of_frame ht' hf (fun p hp => Nat.lt_succ_of_le (ht.le p hp))
    fun p hp => Nat.le_of_eq (ha p hp).symm
  rwa [length_frame] at this

end Grown

/-- Nothing is dropped from a table without bindings at the level or above. -/
theorem dropLevel_of_leveled (h : t.Leveled level) : t.dropLevel (level + 1) = t := by
  unfold dropLevel
  generalize t.entries.size = n
  cases n with
  | zero => rfl
  | succ n =>
    unfold dropUpTo
    split
    · next last hlast =>
      obtain ⟨entries, he⟩ := Array.back?_eq_some_iff.1 hlast
      have := h.le (last.name, last.level) (by simp [frame_of_push he])
      rw [if_neg (by dsimp only at this; omega)]
    · rfl

end ScopedTable

end FormulaLang
