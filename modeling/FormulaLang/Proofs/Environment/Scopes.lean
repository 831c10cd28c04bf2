import FormulaLang.Proofs.Scope
import Mathlib.Data.Finmap
import Mathlib.Data.Finset.Sort
import Mathlib.Data.String.Basic

/-!
# Stacks of finite maps

Scopes are finite maps on top of one another. A name has the meaning that the innermost scope gives
it. A scoped table holds the bindings of such a stack, each at the level of its scope.

* `Scopes`: the stack, with `Scopes.find?`, `Scopes.bind`, `Scopes.assign` and the blocks.
* `Scopes.at?`: what a name is bound to at a level.
* `ScopedTable.Shows`: a table holds the bindings of a stack.
* **`ScopedTable.Shows.find?`**: looking up in the table finds what the stack has innermost.
* **`ScopedTable.Shows.add`**, `ScopedTable.Shows.assign`, `ScopedTable.Shows.dropLevel`: changes of
  the table are changes of the stack.
-/

namespace FormulaLang

/-- Finite maps on top of one another: an outermost scope, and a scope for every block. -/
inductive Scopes (β : Type) where
  | outermost (m : Finmap fun _ : String => β)
  | block (m : Finmap fun _ : String => β) (outer : Scopes β)

namespace Scopes

variable {β : Type} {s : Scopes β} {name : String} {b : β} {l k : Nat}

def empty : Scopes β := outermost ∅

/-- The number of blocks around the top. -/
def level : Scopes β → Nat
  | outermost _ => 0
  | block _ outer => outer.level + 1

def enter (s : Scopes β) : Scopes β := block ∅ s

/-- Drops the top map, unless it is the outermost. -/
def leave : Scopes β → Scopes β
  | outermost m => outermost m
  | block _ outer => outer

/-- Binds a name in the top map, or replaces its binding there. -/
def bind (name : String) (b : β) : Scopes β → Scopes β
  | outermost m => outermost (m.insert name b)
  | block m outer => block (m.insert name b) outer

/-- The innermost binding of a name, with its level. -/
def find? (name : String) : Scopes β → Option (β × Nat)
  | outermost m => (m.lookup name).map (·, 0)
  | block m outer =>
    match m.lookup name with
    | some b => some (b, outer.level + 1)
    | none => outer.find? name

/-- Replaces the innermost binding of a name. -/
def assign (name : String) (b : β) : Scopes β → Scopes β
  | outermost m => outermost (if name ∈ m then m.insert name b else m)
  | block m outer => if name ∈ m then block (m.insert name b) outer else block m (outer.assign name b)

/-- The names that are bound somewhere. -/
def names : Scopes β → Finset String
  | outermost m => m.keys
  | block m outer => m.keys ∪ outer.names

/-! ## Bindings at their levels -/

/-- What a name is bound to at a level. -/
def at? (l : Nat) (name : String) : Scopes β → Option β
  | outermost m => if l = 0 then m.lookup name else none
  | block m outer => if l = outer.level + 1 then m.lookup name else outer.at? l name

theorem at?_of_lt (h : s.level < l) : s.at? l name = none := by
  induction s with
  | outermost m => exact if_neg (by rw [level] at h; omega)
  | block m outer ih =>
    rw [level] at h
    rw [at?, if_neg (by omega), ih (by omega)]

theorem at?_empty : (empty : Scopes β).at? l name = none := by
  rw [empty, at?, Finmap.lookup_empty]
  split <;> rfl

theorem at?_enter : s.enter.at? l name = s.at? l name := by
  rw [enter, at?, Finmap.lookup_empty]
  split
  · next h => exact (at?_of_lt (by omega)).symm
  · rfl

theorem at?_leave (h : l < s.level) : s.leave.at? l name = s.at? l name := by
  cases s with
  | outermost m => cases h
  | block m outer =>
    rw [level] at h
    rw [leave, at?, if_neg (by omega)]

theorem level_leave : s.leave.level = s.level - 1 := by
  cases s <;> rfl

theorem level_bind : (s.bind name b).level = s.level := by
  cases s <;> rfl

theorem level_assign : (s.assign name b).level = s.level := by
  induction s with
  | outermost m => rfl
  | block m outer ih =>
    rw [assign]
    split
    · rfl
    · rw [level, level, ih]

theorem lookup_insert (m : Finmap fun _ : String => β) (other : String) :
    (m.insert name b).lookup other = if other = name then some b else m.lookup other := by
  by_cases h : other = name
  · rw [if_pos h, h, Finmap.lookup_insert]
  · rw [if_neg h, Finmap.lookup_insert_of_ne _ h]

theorem at?_bind (other : String) : (s.bind name b).at? l other =
    if l = s.level ∧ other = name then some b else s.at? l other := by
  cases s with
  | outermost m =>
    rw [bind, at?, at?, lookup_insert, level]
    split_ifs <;> simp_all
  | block m outer =>
    rw [bind, at?, at?, lookup_insert, level]
    split_ifs <;> simp_all

/-! ## The innermost binding -/

theorem find?_eq_some_iff : s.find? name = some (b, l) ↔
    s.at? l name = some b ∧ ∀ k, l < k → s.at? k name = none := by
  induction s with
  | outermost m =>
    rw [find?, Option.map_eq_some_iff]
    constructor
    · rintro ⟨c, hc, h⟩
      cases h
      exact ⟨hc, fun k hk => if_neg (by omega)⟩
    · rintro ⟨h, -⟩
      rw [at?] at h
      split at h
      · next hl => exact ⟨b, h, by rw [hl]⟩
      · cases h
  | block m outer ih =>
    have hab : ∀ k, outer.level + 1 < k → at? k name (block m outer) = none := fun k hk =>
      at?_of_lt hk
    rw [find?]
    cases hm : m.lookup name with
    | some c =>
      have htop : at? (outer.level + 1) name (block m outer) = some c := (if_pos rfl).trans hm
      constructor
      · intro h
        cases h
        exact ⟨htop, hab⟩
      · rintro ⟨h, hnone⟩
        have hle : l ≤ outer.level + 1 := by
          by_contra hl
          rw [hab l (by omega)] at h
          cases h
        rcases Nat.lt_or_ge l (outer.level + 1) with hl | hl
        · rw [hnone _ hl] at htop
          cases htop
        · obtain rfl : l = outer.level + 1 := by omega
          rw [htop] at h
          cases h
          rfl
    | none =>
      have hat : ∀ k, at? k name (block m outer) = outer.at? k name := by
        intro k
        rw [at?]
        split
        · next hk => rw [hm, at?_of_lt (by omega)]
        · rfl
      simp only [hat, ih]

theorem find?_eq_none_iff : s.find? name = none ↔ ∀ l, s.at? l name = none := by
  induction s with
  | outermost m =>
    rw [find?, Option.map_eq_none_iff]
    constructor
    · intro h l
      rw [at?, h, ite_self]
    · exact fun h => (if_pos rfl).symm.trans (h 0)
  | block m outer ih =>
    rw [find?]
    cases hm : m.lookup name with
    | some b =>
      refine ⟨fun h => (by cases h), fun h => ?_⟩
      have := h (outer.level + 1)
      rw [at?, if_pos rfl, hm] at this
      cases this
    | none =>
      rw [ih]
      refine forall_congr' fun l => ?_
      rw [at?]
      split
      · next hl => rw [hm, at?_of_lt (by omega)]
      · rfl

theorem mem_names : name ∈ s.names ↔ (s.find? name).isSome := by
  induction s with
  | outermost m =>
    rw [names, Finmap.mem_keys, find?, Option.isSome_map, Finmap.lookup_isSome]
  | block m outer ih =>
    rw [names, Finset.mem_union, Finmap.mem_keys, ih, find?, ← Finmap.lookup_isSome]
    cases m.lookup name <;> simp

/-- Assigning changes the innermost binding and no other one. -/
theorem at?_assign {c : β} (h : s.find? name = some (c, k)) (other : String) :
    (s.assign name b).at? l other = if l = k ∧ other = name then some b else s.at? l other := by
  induction s with
  | outermost m =>
    obtain ⟨c', hc, h⟩ := Option.map_eq_some_iff.1 h
    cases h
    rw [assign, if_pos (Finmap.mem_of_lookup_eq_some hc), at?, at?, lookup_insert]
    split_ifs <;> simp_all
  | block m outer ih =>
    rw [find?] at h
    rw [assign]
    cases hm : m.lookup name with
    | some c' =>
      rw [hm] at h
      cases h
      rw [if_pos (Finmap.mem_of_lookup_eq_some hm), at?, at?, lookup_insert]
      split_ifs <;> simp_all
    | none =>
      rw [hm] at h
      have hk : k ≤ outer.level := by
        by_contra hk
        have := (find?_eq_some_iff.1 h).1
        rw [at?_of_lt (by omega)] at this
        cases this
      rw [if_neg (Finmap.lookup_eq_none.1 hm), at?, at?, level_assign, ih h]
      split_ifs <;> simp_all

end Scopes

/-! ## Tables that hold stacks -/

namespace ScopedTable

variable {α α' β : Type} {f f' : α → β} {t t' : ScopedTable α} {s : Scopes β} {name : String}
  {b : β} {l k : Nat} {v : α}

/-- What is bound at a place, seen through `f`. -/
def image (f : α → β) (t : ScopedTable α) (i : Nat) : Option β := (t.value? i).map f

theorem image_congr {i : Nat} (hf : ∀ w, t.value? i = some w → f' w = f w) :
    t.image f' i = t.image f i := by
  unfold image
  cases hv : t.value? i with
  | none => rfl
  | some w => exact congrArg some (hf w hv)

/-- A table holds the bindings of a stack of finite maps, seen through `f`. -/
structure Shows (f : α → β) (t : ScopedTable α) (s : Scopes β) : Prop where
  coherent : t.Coherent
  leveled : t.Leveled s.level
  nodup : t.frame.Nodup
  at?_eq_some : ∀ l name b, s.at? l name = some b ↔
    ∃ i, t.frame[i]? = some (name, l) ∧ t.image f i = some b

theorem shows_empty : (empty : ScopedTable α).Shows f .empty where
  coherent := coherent_empty
  leveled := leveled_empty
  nodup := .nil
  at?_eq_some l name b := by
    rw [Scopes.at?_empty]
    refine ⟨fun h => (by cases h), ?_⟩
    rintro ⟨i, hi, -⟩
    cases hi

/-- What a dropped level takes off the top. -/
theorem Leveled.exists_above {i : Nat} (h : t.Leveled i) (l : Nat) :
    ∃ above, t.frame = (t.dropLevel l).frame ++ above ∧ ∀ p ∈ above, l ≤ p.2 := by
  obtain ⟨rest, hrest⟩ := t.dropUpTo_prefix t.entries.size l
  have htake : (t.dropLevel l).entries.toList = t.entries.toList.filter (·.level < l) :=
    toList_dropLevel h
  have hbelow : (t.dropLevel l).entries.toList.filter (·.level < l) =
      (t.dropLevel l).entries.toList := by
    rw [htake, List.filter_filter]
    simp
  have habove : rest.filter (·.level < l) = [] := by
    have hall : (t.dropLevel l).entries.toList ++ rest.filter (·.level < l) =
        (t.dropLevel l).entries.toList := by
      calc (t.dropLevel l).entries.toList ++ rest.filter (·.level < l)
          = ((t.dropLevel l).entries.toList ++ rest).filter (·.level < l) := by
            rw [List.filter_append, hbelow]
        _ = t.entries.toList.filter (·.level < l) := congrArg _ hrest
        _ = (t.dropLevel l).entries.toList := htake.symm
    exact List.append_right_eq_self.1 hall
  refine ⟨rest.map fun e => (e.name, e.level), ?_, fun p hp => ?_⟩
  · rw [frame, ← hrest, List.map_append]
    rfl
  · obtain ⟨e, he, rfl⟩ := List.mem_map.1 hp
    simpa using List.filter_eq_nil_iff.1 habove e he

namespace Shows

/-! ## Looking up -/

/-- **Looking up** finds what the stack has innermost. -/
theorem find? (h : t.Shows f s) (name : String) :
    (t.entry? name).map (fun e => (f e.value, e.level)) = s.find? name := by
  cases he : t.entry? name with
  | none =>
    have hnone := h.coherent.entry?_eq_none.1 he
    refine (Scopes.find?_eq_none_iff.2 fun l => ?_).symm
    by_contra hb
    obtain ⟨b, hb⟩ := Option.ne_none_iff_exists'.1 hb
    obtain ⟨i, hi, -⟩ := (h.at?_eq_some l name b).1 hb
    exact hnone l (List.mem_of_getElem? hi)
  | some e =>
    obtain ⟨i, hlast, hi⟩ := h.coherent.entry?_eq_some.1 he
    have hframe : t.frame[i]? = some (name, e.level) := by
      rw [getElem?_frame, hi, Option.map_some, h.coherent.name_eq he]
    refine (Scopes.find?_eq_some_iff.2 ⟨(h.at?_eq_some _ _ _).2 ⟨i, hframe, ?_⟩, fun k hk => ?_⟩).symm
    · rw [image, value?, hi]
      rfl
    · -- A binding at a higher level would stand behind the last one.
      by_contra hb
      obtain ⟨b, hb⟩ := Option.ne_none_iff_exists'.1 hb
      obtain ⟨j, hj, -⟩ := (h.at?_eq_some k name b).1 hb
      obtain ⟨hilt, hi'⟩ := List.getElem?_eq_some_iff.1 hframe
      obtain ⟨hjlt, hj'⟩ := List.getElem?_eq_some_iff.1 hj
      have hji : j ≤ i := Nat.le_of_not_lt fun hij => hlast.2 j hij k hj
      rcases Nat.eq_or_lt_of_le hji with rfl | hji
      · rw [hframe] at hj
        cases hj
        exact Nat.lt_irrefl _ hk
      · have := List.pairwise_iff_getElem.1 h.leveled.sorted j i hjlt hilt hji
        rw [hi', hj'] at this
        exact absurd this (Nat.not_le.2 hk)

theorem get? (h : t.Shows f s) (name : String) :
    (t.get? name).map f = (s.find? name).map Prod.fst := by
  rw [← h.find?, ScopedTable.get?, Option.map_map, Option.map_map]
  rfl

theorem contains (h : t.Shows f s) (name : String) :
    t.contains name = (s.find? name).isSome := by
  rw [← h.find?, Option.isSome_map, Bool.eq_iff_iff, h.coherent.contains_iff]
  cases he : t.entry? name with
  | none => simpa using h.coherent.entry?_eq_none.1 he
  | some e =>
    have := mt h.coherent.entry?_eq_none.2 (by rw [he]; exact Option.some_ne_none e)
    simpa using this

/-! ## Changing -/

/-- The same table, seen in another way that agrees on what is bound. -/
theorem congr (h : t.Shows f s) (hf : ∀ i v, t.value? i = some v → f' v = f v) : t.Shows f' s where
  coherent := h.coherent
  leveled := h.leveled
  nodup := h.nodup
  at?_eq_some l name b := by simp only [image_congr (hf _), h.at?_eq_some]

/-- A new block. -/
theorem enter (h : t.Shows f s) : t.Shows f s.enter where
  coherent := h.coherent
  leveled := h.leveled.mono (Nat.le_succ _)
  nodup := h.nodup
  at?_eq_some l name b := by rw [Scopes.at?_enter, h.at?_eq_some]

/-- One place is bound to something else: a place that there was, or one on top of the others. -/
theorem update (h : t.Shows f s) (hnodup : t'.frame.Nodup) (hk : t'.frame[k]? = some (name, l))
    (hold : ∀ p, t.frame[k]? = some p → p = (name, l))
    (hframe : ∀ i ≠ k, t'.frame[i]? = t.frame[i]?)
    (himage : ∀ i, t'.image f' i = if i = k then some b else t.image f i) (l' : Nat)
    (other : String) (b' : β) :
    (if l' = l ∧ other = name then some b else s.at? l' other) = some b' ↔
      ∃ i, t'.frame[i]? = some (other, l') ∧ t'.image f' i = some b' := by
  obtain ⟨hklt, hk'⟩ := List.getElem?_eq_some_iff.1 hk
  constructor
  · split
    · next heq =>
      obtain ⟨rfl, rfl⟩ := heq
      exact fun hb => ⟨k, hk, by rw [himage, if_pos rfl, hb]⟩
    · next hne =>
      intro hb
      obtain ⟨i, hi, hb⟩ := (h.at?_eq_some _ _ _).1 hb
      have hik : i ≠ k := by
        rintro rfl
        cases hold _ hi
        exact hne ⟨rfl, rfl⟩
      exact ⟨i, by rw [hframe i hik, hi], by rw [himage, if_neg hik, hb]⟩
  · rintro ⟨i, hi, hb⟩
    rw [himage] at hb
    by_cases hik : i = k
    · subst hik
      rw [hk] at hi
      cases hi
      rw [if_pos rfl] at hb
      rw [if_pos ⟨rfl, rfl⟩, hb]
    · rw [if_neg hik] at hb
      rw [if_neg]
      · exact (h.at?_eq_some _ _ _).2 ⟨i, by rw [← hframe i hik, hi], hb⟩
      · rintro ⟨rfl, rfl⟩
        obtain ⟨hilt, hi'⟩ := List.getElem?_eq_some_iff.1 hi
        exact hik ((List.Nodup.getElem_inj_iff hnodup).1 (hi'.trans hk'.symm))

/-- A name that is bound last at a place is bound there in its innermost scope. -/
theorem find?_of_lastAt (h : t.Shows f s) (hk : LastAt t.frame name k)
    (hl : t.frame[k]? = some (name, l)) : ∃ b, s.find? name = some (b, l) := by
  have hlt := hk.lt
  rw [length_frame] at hlt
  have he := h.coherent.entry?_eq_some.2 ⟨k, hk, Array.getElem?_eq_getElem hlt⟩
  have hfind := h.find? name
  rw [he] at hfind
  rw [getElem?_frame, Array.getElem?_eq_getElem hlt] at hl
  cases hl
  exact ⟨_, hfind.symm⟩

/-- **Changing what a name is bound to last** changes its innermost binding. -/
theorem assign (h : t.Shows f s) (hc : t'.Coherent) (hframe : t'.frame = t.frame)
    (hk : LastAt t.frame name k)
    (himage : ∀ i, t'.image f' i = if i = k then some b else t.image f i) :
    t'.Shows f' (s.assign name b) := by
  obtain ⟨l, hl⟩ := hk.1
  obtain ⟨c, hfind⟩ := h.find?_of_lastAt hk hl
  refine ⟨hc, ⟨?_, ?_⟩, hframe ▸ h.nodup, fun l' other b' => ?_⟩
  · rw [hframe]
    exact h.leveled.sorted
  · rw [hframe, Scopes.level_assign]
    exact h.leveled.le
  · rw [Scopes.at?_assign hfind]
    exact h.update (hframe ▸ h.nodup) (hframe ▸ hl) (fun p hp => Option.some.inj (hp.symm.trans hl))
      (fun i _ => by rw [hframe]) himage l' other b'

/-- A name whose visible binding is not at the current level is not bound there. -/
theorem not_mem_frame (h : t.Shows f s)
    (hnew : ∀ e, t.entry? name = some e → e.level ≠ s.level) : (name, s.level) ∉ t.frame := by
  intro hm
  obtain ⟨j, hj, hj'⟩ := List.getElem_of_mem hm
  have hlt := hj
  rw [length_frame] at hlt
  have hat : s.at? s.level name = some (f t.entries[j].value) :=
    (h.at?_eq_some _ _ _).2 ⟨j, List.getElem?_eq_some_iff.2 ⟨hj, hj'⟩, by
      rw [image, value?, Array.getElem?_eq_getElem hlt]
      rfl⟩
  cases hfind : s.find? name with
  | none =>
    rw [Scopes.find?_eq_none_iff.1 hfind] at hat
    cases hat
  | some p =>
    obtain ⟨c, l⟩ := p
    obtain ⟨hc, hnone⟩ := Scopes.find?_eq_some_iff.1 hfind
    have hle : s.level ≤ l := by
      by_contra hl
      rw [hnone _ (Nat.not_le.1 hl)] at hat
      cases hat
    have hge : l ≤ s.level := by
      by_contra hl
      rw [Scopes.at?_of_lt (Nat.not_le.1 hl)] at hc
      cases hc
    rw [← h.find?] at hfind
    obtain ⟨e, he, hcl⟩ := Option.map_eq_some_iff.1 hfind
    cases hcl
    exact hnew e he (Nat.le_antisymm hge hle)

/-- **Binding a name** binds it in the top map. -/
theorem add (h : t.Shows f s) (name : String) (v : α)
    (hf : ∀ i w, t.value? i = some w → f' w = f w) :
    (t.add name v s.level).Shows f' (s.bind name (f' v)) := by
  have hnodup : (t.add name v s.level).frame.Nodup := by
    rcases t.add_cases name v s.level with ⟨e, -, -, ha⟩ | ⟨hnew, ha⟩
    · rw [ha, frame_modify]
      exact h.nodup
    · rw [ha, frame_push]
      exact List.Nodup.append h.nodup (List.nodup_singleton _)
        (List.disjoint_singleton.2 (h.not_mem_frame hnew))
  refine ⟨h.coherent.add, Scopes.level_bind.symm ▸ h.leveled.add, hnodup, fun l other b => ?_⟩
  obtain ⟨k, hk, hplace⟩ := h.coherent.add_spec name v s.level
  have himage : ∀ i, (t.add name v s.level).image f' i =
      if i = k then some (f' v) else t.image f i := by
    intro i
    rw [image, hk]
    split
    · rfl
    · exact image_congr (hf i)
  rw [Scopes.at?_bind]
  rcases hplace with ⟨hframe, -, hl⟩ | ⟨hframe, rfl⟩
  · exact h.update hnodup (hframe ▸ hl) (fun p hp => Option.some.inj (hp.symm.trans hl))
      (fun i _ => by rw [hframe]) himage l other b
  · refine h.update hnodup (by rw [hframe, List.getElem?_concat_length]) (fun p hp => ?_)
      (fun i hi => ?_) himage l other b
    · rw [List.getElem?_eq_none (Nat.le_refl _)] at hp
      cases hp
    · rw [hframe]
      rcases Nat.lt_or_gt_of_ne hi with hi | hi
      · rw [List.getElem?_append_left hi]
      · rw [List.getElem?_eq_none (Nat.le_of_lt hi), List.getElem?_eq_none]
        rw [List.length_append, List.length_singleton]
        exact hi

/-- **Leaving a block** drops the top map. -/
theorem dropLevel {n : Nat} (h : t.Shows f s) (hn : s.level = n + 1) :
    (t.dropLevel (n + 1)).Shows f s.leave := by
  have hlevel : s.leave.level = n := by rw [Scopes.level_leave, hn, Nat.add_sub_cancel]
  have hframe : (t.dropLevel (n + 1)).frame = t.frame.filter (·.2 < n + 1) :=
    frame_dropLevel h.leveled
  refine ⟨h.coherent.dropLevel, hlevel ▸ h.leveled.dropLevel, ?_, fun l name b => ?_⟩
  · rw [hframe]
    exact h.nodup.filter _
  · obtain ⟨above, hsplit, habove⟩ := h.leveled.exists_above (n + 1)
    have hbelow : ∀ p ∈ (t.dropLevel (n + 1)).frame, p.2 < n + 1 := by
      intro p hp
      rw [hframe] at hp
      exact of_decide_eq_true (List.mem_filter.1 hp).2
    obtain ⟨-, hvalue⟩ := value?_dropLevel_of_frame h.leveled hsplit hbelow habove
    have himage : ∀ i < (t.dropLevel (n + 1)).frame.length,
        (t.dropLevel (n + 1)).image f i = t.image f i := fun i hi => by
      rw [image, image, hvalue i hi]
    rcases Nat.lt_or_ge l s.level with hl | hl
    · rw [Scopes.at?_leave hl, h.at?_eq_some]
      refine exists_congr fun i => ?_
      rcases Nat.lt_or_ge i (t.dropLevel (n + 1)).frame.length with hi | hi
      · rw [himage i hi, hsplit, List.getElem?_append_left hi]
      · -- The bindings above are at the dropped level.
        rw [List.getElem?_eq_none hi]
        refine ⟨fun hb => ?_, fun hb => by cases hb.1⟩
        rw [hsplit, List.getElem?_append_right hi] at hb
        exact absurd (habove _ (List.mem_of_getElem? hb.1)) (by dsimp only; omega)
    · rw [Scopes.at?_of_lt (by omega)]
      refine ⟨fun hb => (by cases hb), ?_⟩
      rintro ⟨i, hi, -⟩
      exact absurd (hbelow _ (List.mem_of_getElem? hi)) (by dsimp only; omega)

end Shows

end ScopedTable

end FormulaLang
