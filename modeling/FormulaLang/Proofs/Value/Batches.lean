import FormulaLang.Proofs.Value.Selection
import FormulaLang.Proofs.Value.Writes

/-!
# Batches of list items

Writing a list to several positions of a list writes its items one by one, and reading the positions
gives them back. For a single position the list is written as one item, so that it comes back in
another list.

* `Value.gather_eq`: reading several positions.
* `Value.setElements_list`: writing to a list.
* **`Value.setElements_index_list`**: what was written to several positions is read back.
* `Value.index_singleBatch`: a single position.
-/

namespace FormulaLang.Value

variable {α : Type} {i c : Value} {items cs : List Value} {ks : List Nat}

theorem gather_eq {xs ys : List α} (hks : ∀ k ∈ ks, k < xs.length) (hlength : ys.length = ks.length)
    (h : ∀ n (hn : n < ks.length), xs[ks[n]]? = ys[n]?) : gather xs ks = ys := by
  induction ks generalizing ys with
  | nil => exact (List.length_eq_zero_iff.1 hlength).symm
  | cons k ks ih =>
    obtain ⟨hk, hks⟩ := List.forall_mem_cons.1 hks
    cases ys with
    | nil => cases hlength
    | cons y ys =>
      have hfirst : xs[k] = y := by
        have := h 0 (Nat.succ_pos _)
        simpa [hk] using this
      rw [gather_cons hk, hfirst]
      exact congrArg (y :: ·) (ih hks (Nat.succ.inj hlength) fun n hn =>
        h (n + 1) (Nat.succ_lt_succ hn))

/-- Writing to a list writes one item, or as many as there are positions. -/
theorem setElements_list (hp : positions? items.length i = some (.ok ks)) {xs : List Value}
    (hxs : (if 1 < ks.length then c.items? else some [c]) = some xs) :
    (list items).setElements i c =
      (list (assignInto (some void) items ks xs).1, (assignInto (some void) items ks xs).2) := by
  have hlength : (list items).indexLength? = some items.length := rfl
  unfold setElements
  rw [hlength]
  dsimp only
  rw [hp]
  dsimp only [toVector, setPositions]
  rw [hxs]

theorem extent_eq {n : Nat} (hks : ∀ k ∈ ks, k < n) : extent ks n = n := by
  induction ks with
  | nil => rfl
  | cons k ks ih =>
    obtain ⟨hk, hks⟩ := List.forall_mem_cons.1 hks
    rw [extent_cons, max_eq_left hk, ih hks]

/-- Writing in range does not fail. -/
theorem writeAll_of_lt {fill : Option α} {data : Array α} {pairs : List (Nat × α)}
    (h : ∀ p ∈ pairs, p.1 < data.size) : (writeAll fill data pairs).2 = none := by
  induction pairs generalizing data with
  | nil => rfl
  | cons p pairs ih =>
    obtain ⟨hp, hpairs⟩ := List.forall_mem_cons.1 h
    rw [writeAll.eq_def]
    dsimp only
    rw [if_pos hp]
    exact ih (by rwa [Array.size_setIfInBounds])

theorem assignInto_of_lt (fill : Option α) {data xs : List α} (hks : ∀ k ∈ ks, k < data.length)
    (hcount : xs.length = ks.length) : ∃ out, assignInto fill data ks xs = (out, none) := by
  refine ⟨(assignInto fill data ks xs).1, Prod.ext rfl ?_⟩
  unfold assignInto
  dsimp only
  split
  · refine writeAll_of_lt fun p hp => ?_
    obtain ⟨k, hk, rfl⟩ := List.mem_map.1 hp
    exact hks k hk
  · rw [if_pos hcount]
    exact writeAll_of_lt fun p hp => hks p.1 (List.of_mem_zip hp).1

/-- **What was written to several positions is read back.** The positions are different, and there
are at least two of them. -/
theorem setElements_index_list (hi : ∀ x, i ≠ number x)
    (hp : positions? items.length i = some (.ok ks)) (hks : ∀ k ∈ ks, k < items.length)
    (hnodup : ks.Nodup) (hseveral : 1 < ks.length) (hcount : cs.length = ks.length) :
    ∃ out, (list items).setElements i (list cs) = (list out, none) ∧
      (list out).index i = .ok (list cs) ∧ out.length = items.length ∧
      ∀ k, k ∉ ks → out[k]? = items[k]? := by
  obtain ⟨out, hout⟩ := assignInto_of_lt (some void) hks hcount
  have hwrites := listWrites_of_assignInto hout
  have hlength : out.length = items.length := hwrites.length.trans (extent_eq hks)
  have hset : (list items).setElements i (list cs) = (list out, none) := by
    rw [setElements_list hp (c := list cs) (if_pos hseveral), hout]
  -- No position is written twice, so every item stays.
  have hlast : ∀ n (hn : n < ks.length), out[ks[n]]? = cs[n]? := by
    intro n hn
    have hdistinct : ∀ m (hm : m < ks.length), n < m → ks[m] ≠ ks[n] := fun m hm hlt heq =>
      hlt.ne' ((List.Nodup.getElem_inj_iff hnodup).1 heq)
    rw [hwrites.last n hn hdistinct, assigned?, if_neg (by omega)]
  have hgather : gather out ks = cs := gather_eq (hlength.symm ▸ hks) hcount hlast
  have hselects : i.Selects out.length (.several ks) := by
    rw [hlength]
    cases i with
    | number x => exact absurd rfl (hi x)
    | _ => exact hp
  have hbelow : (Selection.several ks).Below out.length := hlength.symm ▸ hks
  refine ⟨out, hset, index_of_selects hselects hbelow ?_, hlength, fun k hk => ?_⟩
  · rw [pick?, select?, hgather]
  · by_cases hlt : k < items.length
    · exact hwrites.old k hlt hk
    · rw [List.getElem?_eq_none (by omega), List.getElem?_eq_none (by omega)]

/-- Two items that change places. -/
theorem setElements_swap :
    let items := [number 1.0, number 2.0, number 3.0]
    let i := numberVector [2.0, 0.0]
    ∃ out, (list items).setElements i (list [number 1.0, number 3.0]) = (list out, none) ∧
      (list out).index i = .ok (list [number 1.0, number 3.0]) ∧ out.length = 3 ∧
      ∀ k, k ∉ [2, 0] → out[k]? = items[k]? := by
  intro items i
  have hp : positions? items.length i = some (.ok [2, 0]) := by rfl
  exact setElements_index_list nofun hp (by decide) (by decide) (by decide) rfl

/-- At a single position the list itself becomes the item. -/
theorem index_singleBatch :
    let i := numberVector [0.0]
    ∃ out, (list [number 1.0, number 2.0]).setElements i (list [number 5.0]) = (list out, none) ∧
      (list out).index i = .ok (list [list [number 5.0]]) ∧
      (list out).index i ≠ .ok (list [number 5.0]) := by
  refine ⟨[list [number 5.0], number 2.0], rfl, rfl, ?_⟩
  have hindex : (list [list [number 5.0], number 2.0]).index (numberVector [0.0]) =
      .ok (list [list [number 5.0]]) := by rfl
  rw [hindex]
  nofun

end FormulaLang.Value
