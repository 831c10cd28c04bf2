import FormulaLang.Proofs.Scope

/-!
# Scoped tables after any changes

Bindings may be added at any levels in any order, given other values, dropped by level and cleared.
What the table shows then is told by a plain stack of bindings, without an index and without places
of hidden bindings: a name shows the binding of it that was pushed last and is still there.

* `BindingStack`: the bindings, newest first, with `BindingStack.find?` and `BindingStack.modify`.
* `Change`, `BindingStack.after`, `ScopedTable.after`: changes of a stack and of a table.
* `ScopedTable.Follows`: a table whose index fits its bindings, which are those of a stack.
* **`ScopedTable.Follows.apply`**: every change keeps the table and the stack together.
* **`ScopedTable.shows_newest`**: the index, the hidden places and what is looked up.
-/

namespace FormulaLang

variable {α : Type}

/-! ## Stacks of bindings -/

/-- Names with their levels and values, newest first. -/
abbrev BindingStack (α : Type) := List (String × Nat × α)

namespace BindingStack

variable {name : String} {level : Nat} {v : α} {f : α → α} {s newer older : BindingStack α}

/-- The newest binding of a name, as its value and level. -/
def find? (name : String) : BindingStack α → Option (α × Nat)
  | [] => none
  | (other, level, v) :: s => if other = name then some (v, level) else find? name s

/-- Changes the value of the newest binding of a name. -/
def modify (name : String) (f : α → α) : BindingStack α → BindingStack α
  | [] => []
  | (other, level, v) :: s =>
    if other = name then (other, level, f v) :: s else (other, level, v) :: modify name f s

/-- Bindings of other names hide nothing. -/
theorem find?_append (h : ∀ b ∈ newer, b.1 ≠ name) (s : BindingStack α) :
    find? name (newer ++ s) = find? name s := by
  induction newer with
  | nil => rfl
  | cons b newer ih =>
    obtain ⟨hb, hnewer⟩ := List.forall_mem_cons.1 h
    rw [List.cons_append, find?, if_neg hb, ih hnewer]

theorem modify_append (h : ∀ b ∈ newer, b.1 ≠ name) (s : BindingStack α) :
    modify name f (newer ++ s) = newer ++ modify name f s := by
  induction newer with
  | nil => rfl
  | cons b newer ih =>
    obtain ⟨hb, hnewer⟩ := List.forall_mem_cons.1 h
    rw [List.cons_append, modify, if_neg hb, ih hnewer, List.cons_append]

theorem find?_of_newer (h : ∀ b ∈ newer, b.1 ≠ name) :
    find? name (newer ++ (name, level, v) :: older) = some (v, level) := by
  rw [find?_append h, find?, if_pos rfl]

theorem modify_of_newer (h : ∀ b ∈ newer, b.1 ≠ name) :
    modify name f (newer ++ (name, level, v) :: older) = newer ++ (name, level, f v) :: older := by
  rw [modify_append h, modify, if_pos rfl]

theorem find?_of_unbound (h : ∀ b ∈ s, b.1 ≠ name) : find? name s = none := by
  rw [← List.append_nil s, find?_append h, find?]

theorem modify_of_unbound (h : ∀ b ∈ s, b.1 ≠ name) : modify name f s = s := by
  rw [← List.append_nil s, modify_append h, modify]

end BindingStack

/-! ## Changes -/

/-- A change of bindings: a new one at any level, another value for the one that a name shows, the
end of a level and of all those above it, or the end of all bindings. -/
inductive Change (α : Type) where
  | add (name : String) (v : α) (level : Nat)
  | modify (name : String) (f : α → α)
  | dropLevel (level : Nat)
  | clear

/-- What a change does to a stack. A new binding takes the place of the one that its name shows if
both are at the same level. -/
def BindingStack.apply (s : BindingStack α) : Change α → BindingStack α
  | .add name v level =>
    if (s.find? name).any (·.2 = level) then s.modify name fun _ => v else (name, level, v) :: s
  | .modify name f => s.modify name f
  | .dropLevel level => s.dropWhile fun b => level ≤ b.2.1
  | .clear => []

/-- The stack after some changes. -/
def BindingStack.after (changes : List (Change α)) : BindingStack α :=
  changes.foldl BindingStack.apply []

namespace ScopedTable

/-- What a change does to a table. -/
def apply (t : ScopedTable α) : Change α → ScopedTable α
  | .add name v level => t.add name v level
  | .modify name f => t.modify name f
  | .dropLevel level => t.dropLevel level
  | .clear => empty

/-- The table after some changes. -/
def after (changes : List (Change α)) : ScopedTable α := changes.foldl apply empty

/-! ## The bindings of a table -/

variable {t : ScopedTable α} {name : String} {level k n : Nat} {v : α} {f : α → α}
  {s : BindingStack α}

/-- The bindings of a table, newest first. -/
def stack (t : ScopedTable α) : BindingStack α :=
  (t.entries.toList.map fun e => (e.name, e.level, e.value)).reverse

theorem stack_push : (t.push name v level).stack = (name, level, v) :: t.stack := by
  simp [stack, push]

theorem stack_pop {last : Entry α} {entries : Array (Entry α)} (h : t.entries = entries.push last) :
    t.stack = (last.name, last.level, last.value) :: (t.pop last).stack := by
  simp [stack, entries_pop, h]

/-- The last binding of a name has only bindings of other names behind it. -/
theorem toList_of_lastAt (h : LastAt t.frame name k) : ∃ older e newer,
    t.entries.toList = older ++ e :: newer ∧ older.length = k ∧ e.name = name ∧
      ∀ e' ∈ newer, e'.name ≠ name := by
  have hk : k < t.entries.toList.length := by simpa using h.lt
  obtain ⟨⟨level, hlevel⟩, hlast⟩ := h
  refine ⟨t.entries.toList.take k, t.entries.toList[k], t.entries.toList.drop (k + 1), ?_, ?_, ?_,
    fun e' he' hname => ?_⟩
  · rw [← List.drop_eq_getElem_cons hk, List.take_append_drop]
  · rw [List.length_take, Nat.min_eq_left (Nat.le_of_lt hk)]
  · rw [getElem?_frame, ← Array.getElem?_toList, List.getElem?_eq_getElem hk] at hlevel
    cases hlevel
    rfl
  · obtain ⟨j, hj⟩ := List.getElem?_of_mem he'
    rw [List.getElem?_drop, Array.getElem?_toList] at hj
    exact hlast (k + 1 + j) (by omega) e'.level (by rw [getElem?_frame, hj, ← hname]; rfl)

/-- **What a name shows** stands in the stack below bindings of other names, and is what changes
when the name gets another value. -/
theorem Coherent.stack_cases (h : t.Coherent) (name : String) :
    ( t.entry? name = none ∧ (∀ b ∈ t.stack, b.1 ≠ name) ∧ ∀ f, t.modify name f = t) ∨
    ∃ e newer older, t.entry? name = some e ∧ (∀ b ∈ newer, b.1 ≠ name) ∧
      t.stack = newer ++ (name, e.level, e.value) :: older ∧
      ∀ f, (t.modify name f).stack = newer ++ (name, e.level, f e.value) :: older := by
  cases hi : t.index[name]? with
  | none =>
    have he : t.entry? name = none := by
      unfold entry?
      rw [hi]
    refine .inl ⟨he, fun b hb hname => ?_, fun f => by rw [ScopedTable.modify, hi]⟩
    rw [stack, List.mem_reverse] at hb
    obtain ⟨e, hm, rfl⟩ := List.mem_map.1 hb
    exact h.entry?_eq_none.1 he e.level (List.mem_map.2 ⟨e, hm, by rw [← hname]⟩)
  | some k =>
    obtain ⟨older, e, newer, hsplit, rfl, hname, hnewer⟩ := toList_of_lastAt ((h.index name k).1 hi)
    have he : t.entry? name = some e := by
      unfold entry?
      rw [hi]
      dsimp only
      rw [← Array.getElem?_toList, hsplit]
      simp
    have hmodify : ∀ f, (t.modify name f).entries.toList =
        older ++ { e with value := f e.value } :: newer := fun f => by
      rw [ScopedTable.modify, hi]
      dsimp only
      rw [Array.toList_modify, hsplit, List.modify_eq_take_cons_drop (by simp)]
      simp
    refine .inr ⟨e, (newer.map fun e => (e.name, e.level, e.value)).reverse,
      (older.map fun e => (e.name, e.level, e.value)).reverse, he, fun b hb => ?_, ?_, fun f => ?_⟩
    · obtain ⟨e', hm, rfl⟩ := List.mem_map.1 (List.mem_reverse.1 hb)
      exact hnewer e' hm
    · simp [stack, hsplit, hname]
    · simp [stack, hmodify, hname]

theorem Coherent.find?_stack (h : t.Coherent) (name : String) :
    ( t.entry? name).map (fun e => (e.value, e.level)) = t.stack.find? name := by
  rcases h.stack_cases name with ⟨he, hs, -⟩ | ⟨e, newer, older, he, hnewer, hs, -⟩
  · rw [he, BindingStack.find?_of_unbound hs, Option.map_none]
  · rw [he, hs, BindingStack.find?_of_newer hnewer, Option.map_some]

theorem Coherent.stack_modify (h : t.Coherent) :
    (t.modify name f).stack = t.stack.modify name f := by
  rcases h.stack_cases name with ⟨-, hs, hm⟩ | ⟨e, newer, older, -, hnewer, hs, hm⟩
  · rw [hm, BindingStack.modify_of_unbound hs]
  · rw [hm, hs, BindingStack.modify_of_newer hnewer]

theorem Coherent.stack_add (h : t.Coherent) :
    (t.add name v level).stack = t.stack.apply (.add name v level) := by
  rw [BindingStack.apply, ← h.find?_stack]
  rcases t.add_cases name v level with ⟨e, he, hl, ha⟩ | ⟨hne, ha⟩
  · rw [ha, h.stack_modify, he, if_pos (by simpa using hl)]
  · rw [ha, stack_push, if_neg]
    cases he : t.entry? name with
    | none => simp
    | some e => simpa using hne e he

/-- As many steps as there are bindings drop the newest ones down to the first below the level. -/
theorem stack_dropUpTo (hn : t.entries.size ≤ n) :
    (t.dropUpTo n level).stack = t.stack.dropWhile fun b => level ≤ b.2.1 := by
  induction n generalizing t with
  | zero =>
    have hz := Array.size_eq_zero_iff.1 (Nat.le_zero.1 hn)
    simp [dropUpTo, stack, hz]
  | succ n ih =>
    unfold dropUpTo
    split
    · next last hlast =>
      obtain ⟨entries, he⟩ := Array.back?_eq_some_iff.1 hlast
      rw [stack_pop he]
      split
      · next hlevel =>
        rw [List.dropWhile_cons_of_pos (by simpa using hlevel), ih]
        rw [entries_pop, he, Array.pop_push]
        rw [he, Array.size_push] at hn
        omega
      · next hlevel => rw [List.dropWhile_cons_of_neg (by simpa using hlevel), stack_pop he]
    · next hnone =>
      rw [Array.back?_eq_none_iff] at hnone
      simp [stack, hnone]

/-! ## Tables and stacks -/

/-- The index of the table fits its bindings, which are those of the stack. -/
structure Follows (t : ScopedTable α) (s : BindingStack α) : Prop where
  coherent : t.Coherent
  stack : t.stack = s

/-- **Every change** of the table is the same change of the stack. -/
theorem Follows.apply (h : t.Follows s) (c : Change α) : (t.apply c).Follows (s.apply c) := by
  obtain ⟨hc, rfl⟩ := h
  cases c with
  | add name v level => exact ⟨hc.add, hc.stack_add⟩
  | modify name f => exact ⟨hc.modify, hc.stack_modify⟩
  | dropLevel level => exact ⟨hc.dropLevel, stack_dropUpTo (Nat.le_refl _)⟩
  | clear => exact ⟨coherent_empty, rfl⟩

theorem Follows.foldl (h : t.Follows s) (changes : List (Change α)) :
    (changes.foldl ScopedTable.apply t).Follows (changes.foldl BindingStack.apply s) := by
  induction changes generalizing t s with
  | nil => exact h
  | cons c changes ih => exact ih (h.apply c)

theorem follows_after (changes : List (Change α)) :
    (after changes).Follows (BindingStack.after changes) :=
  Follows.foldl ⟨coherent_empty, rfl⟩ changes

/-- Places of hidden bindings are further down. -/
theorem Coherent.hidden_lt (h : t.Coherent) {e : Entry α} {i : Nat} (he : t.entries[k]? = some e)
    (hi : e.hidden = some i) : i < k := by
  have hlt := ((h.hidden k e he i).1 hi).lt
  rw [List.length_take] at hlt
  omega

theorem Follows.get? (h : t.Follows s) (name : String) :
    t.get? name = (s.find? name).map Prod.fst := by
  rw [← h.stack, ← h.coherent.find?_stack, ScopedTable.get?, Option.map_map]
  rfl

theorem Follows.contains (h : t.Follows s) (name : String) :
    t.contains name = (s.find? name).isSome := by
  rw [← h.stack, ← h.coherent.find?_stack, Option.isSome_map, ScopedTable.contains,
    Std.HashMap.contains_eq_isSome_getElem?]
  unfold entry?
  cases hi : t.index[name]? with
  | none => rfl
  | some i =>
    dsimp only
    rw [Array.getElem?_eq_getElem (h.coherent.lt_size hi)]
    rfl

/-- **After any changes at any levels** the index tells the last binding of every name and every
binding the one that it hides, so that all places are in range, and what a name is looked up as is
its newest binding that is left. -/
theorem shows_newest (changes : List (Change α)) :
    (after changes).Coherent ∧
      (∀ (name : String) (i : Nat), (after changes).index[name]? = some i →
        i < (after changes).size) ∧
      (∀ (k : Nat) (e : Entry α) (i : Nat), (after changes).entries[k]? = some e →
        e.hidden = some i → i < k) ∧
      (after changes).stack = BindingStack.after changes ∧
      ((after changes).visible.map Prod.fst).Nodup ∧
      ∀ name, (after changes).get? name = ((BindingStack.after changes).find? name).map Prod.fst ∧
        ( ScopedTable.entry? (after changes) name).map (fun e => (e.value, e.level)) =
          (BindingStack.after changes).find? name ∧
        (after changes).contains name = ((BindingStack.after changes).find? name).isSome ∧
        ∀ v, (name, v) ∈ (after changes).visible ↔
          ((BindingStack.after changes).find? name).map Prod.fst = some v := by
  have h := follows_after changes
  have hget := h.get?
  refine ⟨h.coherent, fun name i => h.coherent.lt_size, fun k e i => h.coherent.hidden_lt, h.stack,
    nodup_visible _, fun name => ⟨hget name, ?_, h.contains name, fun v => ?_⟩⟩
  · rw [h.coherent.find?_stack, h.stack]
  · rw [h.coherent.mem_visible, hget]

end ScopedTable

end FormulaLang
