import FormulaLang.Proofs.Value.Addresses
import FormulaLang.Proofs.Value.Shaped

/-!
# What is written

Elements are written one after the other, so at each position the last one stays. A write behind the
end fills the gap in front of it.

* `lastAt`: the last element that is written to a position.
* **`getElem?_of_writeAll`**: what is where after writing.
* `assignPairs`, `ListWrites`, **`listWrites_of_assignInto`**: writing to a list.
* `Value.Writes`, **`setElements_writes`**: writing to vectors, matrices, numbers and truth values.
-/

namespace FormulaLang

variable {α : Type} {fill : Option α} {ks : List Nat} {xs : List α} {k n : Nat}

/-! ## Writing pairs -/

/-- The last element that is written to a position. -/
def lastAt : List (Nat × α) → Nat → Option α
  | [], _ => none
  | (j, x) :: rest, k => (lastAt rest k).or (if j = k then some x else none)

theorem lastAt_eq_none {pairs : List (Nat × α)} (h : ∀ p ∈ pairs, p.1 ≠ k) :
    lastAt pairs k = none := by
  induction pairs with
  | nil => rfl
  | cons p pairs ih =>
    obtain ⟨hp, hpairs⟩ := List.forall_mem_cons.1 h
    rw [lastAt, ih hpairs, if_neg hp]
    rfl

/-- A pair behind which no other one has its position. -/
theorem lastAt_eq_some {pairs : List (Nat × α)} {x : α} (h : pairs[n]? = some (k, x))
    (hlast : ∀ m p, n < m → pairs[m]? = some p → p.1 ≠ k) : lastAt pairs k = some x := by
  induction pairs generalizing n with
  | nil => cases h
  | cons p pairs ih =>
    cases n with
    | zero =>
      cases h
      have hrest : lastAt pairs k = none := lastAt_eq_none fun q hq => by
        obtain ⟨m, hm⟩ := List.mem_iff_getElem?.1 hq
        exact hlast (m + 1) q (Nat.succ_pos m) hm
      rw [lastAt, hrest, if_pos rfl]
      rfl
    | succ n =>
      rw [lastAt, ih h fun m q hm => hlast (m + 1) q (Nat.succ_lt_succ hm)]
      rfl

/-- The length that is needed for some positions and `n` elements. -/
def extent (ks : List Nat) (n : Nat) : Nat := (ks.map (· + 1)).foldl max n

theorem extent_cons (k : Nat) (ks : List Nat) (n : Nat) :
    extent (k :: ks) n = extent ks (max n (k + 1)) := rfl

theorem le_extent (ks : List Nat) (n : Nat) : n ≤ extent ks n := by
  induction ks generalizing n with
  | nil => exact le_refl n
  | cons k ks ih =>
    rw [extent_cons]
    exact (le_max_left n (k + 1)).trans (ih _)

/-- A write behind the end, with the gap in front of it filled. -/
theorem getElem?_push_filled {data : Array α} {j : Nat} (hj : data.size ≤ j) (f x : α) (k : Nat) :
    ((data ++ Array.replicate (j - data.size) f).push x)[k]? =
      if j = k then some x else data[k]?.or (if k < j then some f else none) := by
  have hsize : (data ++ Array.replicate (j - data.size) f).size = j := by
    rw [Array.size_append, Array.size_replicate]
    omega
  rw [Array.getElem?_push, hsize]
  by_cases hjk : j = k
  · rw [if_pos hjk, if_pos hjk.symm]
  · rw [if_neg hjk, if_neg (Ne.symm hjk), Array.getElem?_append, Array.getElem?_replicate]
    by_cases hk : k < data.size
    · simp [hk]
    · have hgap : k - data.size < j - data.size ↔ k < j := by omega
      simp [hk, hgap]

/-- One write that does not fail: there is room for the position, and gaps are filled. -/
theorem writeAll_cons {data out : Array α} {j : Nat} {x : α} {pairs : List (Nat × α)}
    (h : writeAll fill data ((j, x) :: pairs) = (out, none)) : ∃ data' : Array α,
      writeAll fill data' pairs = (out, none) ∧ data'.size = max data.size (j + 1) ∧
      ∀ k, data'[k]? = if j = k then some x
        else data[k]?.or (if k < data'.size then fill else none) := by
  rw [writeAll.eq_def] at h
  dsimp only at h
  by_cases hj : j < data.size
  · rw [if_pos hj] at h
    have hsize : (data.setIfInBounds j x).size = data.size := Array.size_setIfInBounds
    refine ⟨_, h, by omega, fun k => ?_⟩
    rw [Array.getElem?_setIfInBounds, if_pos hj, hsize]
    by_cases hk : k < data.size <;> simp [hk]
  · rw [if_neg hj] at h
    cases fill with
    | none => cases h
    | some f =>
      dsimp only at h
      split_ifs at h
      · have hsize : ((data ++ Array.replicate (j - data.size) f).push x).size = j + 1 := by
          rw [Array.size_push, Array.size_append, Array.size_replicate]
          omega
        refine ⟨_, h, by omega, fun k => ?_⟩
        rw [getElem?_push_filled (not_lt.1 hj), hsize]
        by_cases hjk : j = k
        · simp [hjk]
        · have hlt : k < j ↔ k < j + 1 := by omega
          simp [hjk, hlt]
      · cases h

/-- **What is where after writing**: the last element written there, or what was there before, or
what gaps are filled with. -/
theorem getElem?_of_writeAll {data out : Array α} {pairs : List (Nat × α)}
    (h : writeAll fill data pairs = (out, none)) :
    out.size = extent (pairs.map Prod.fst) data.size ∧
      ∀ k, out[k]? = ((lastAt pairs k).or data[k]?).or (if k < out.size then fill else none) := by
  induction pairs generalizing data with
  | nil =>
    cases h
    refine ⟨rfl, fun k => ?_⟩
    by_cases hk : k < out.size <;> simp [lastAt, hk]
  | cons p pairs ih =>
    obtain ⟨j, x⟩ := p
    obtain ⟨data', hrest, hsize', hget'⟩ := writeAll_cons h
    obtain ⟨hsize, hget⟩ := ih hrest
    have hextent := le_extent (pairs.map Prod.fst) data'.size
    rw [← hsize] at hextent
    refine ⟨by rw [hsize, hsize', List.map_cons, extent_cons], fun k => ?_⟩
    rw [hget, hget', lastAt]
    cases lastAt pairs k with
    | some y => simp
    | none =>
      by_cases hj : j = k
      · simp [hj]
      · by_cases hk : k < data'.size
        · cases data[k]? <;> cases fill <;> simp [hj, hk, hk.trans_le hextent]
        · have hnone : data[k]? = none := by
            rw [Array.getElem?_eq_none_iff]
            omega
          simp [hj, hk, hnone]

/-! ## Writing to lists -/

/-- The pairs of an assignment, in which a single element is written everywhere. -/
def assignPairs : List Nat → List α → List (Nat × α)
  | ks, [x] => ks.map (·, x)
  | ks, xs => ks.zip xs

theorem assignInto_ok {data out : List α} (h : assignInto fill data ks xs = (out, none)) :
    (xs.length = 1 ∨ xs.length = ks.length) ∧
      writeAll fill data.toArray (assignPairs ks xs) = (out.toArray, none) := by
  have hwrite : ∀ pairs : List (Nat × α), ((writeAll fill data.toArray pairs).1.toList,
      (writeAll fill data.toArray pairs).2) = (out, none) →
      writeAll fill data.toArray pairs = (out.toArray, none) := by
    intro pairs hpairs
    obtain ⟨hout, hfault⟩ := Prod.mk.inj hpairs
    exact Prod.ext (by rw [← hout]) hfault
  unfold assignInto at h
  dsimp only at h
  unfold assignPairs
  split at h
  · exact ⟨.inl rfl, hwrite _ h⟩
  · next xs hxs =>
    split_ifs at h with hlength
    · refine ⟨.inr hlength, ?_⟩
      split
      · next x => exact absurd rfl (hxs x)
      · exact hwrite _ h
    · cases h

/-- The element that belongs to the `n`-th position: a single element belongs to all of them. -/
def assigned? (xs : List α) (n : Nat) : Option α := if xs.length = 1 then xs[0]? else xs[n]?

theorem getElem?_assignPairs (h : xs.length = 1 ∨ xs.length = ks.length) (n : Nat) :
    (assignPairs ks xs)[n]? = ks[n]?.bind fun k => (assigned? xs n).map (k, ·) := by
  unfold assignPairs assigned?
  split
  · next x =>
    rw [List.getElem?_map]
    cases ks[n]? <;> rfl
  · next hxs =>
    have hlength : xs.length ≠ 1 := fun h => by
      obtain ⟨x, rfl⟩ := List.length_eq_one_iff.1 h
      exact hxs x rfl
    rw [if_neg hlength, List.zip, List.getElem?_zipWith]
    cases ks[n]? <;> cases xs[n]? <;> rfl

/-- What is where in a list after writing elements `xs` to positions `ks`. -/
structure ListWrites (fill : Option α) (data out : List α) (ks : List Nat) (xs : List α) :
    Prop where
  count : xs.length = 1 ∨ xs.length = ks.length
  length : out.length = extent ks data.length
  /-- The last one of several entries for a position counts. -/
  last : ∀ n (hn : n < ks.length), (∀ m (hm : m < ks.length), n < m → ks[m] ≠ ks[n]) →
    out[ks[n]]? = assigned? xs n
  old : ∀ k < data.length, k ∉ ks → out[k]? = data[k]?
  new : ∀ k, data.length ≤ k → k < out.length → k ∉ ks → out[k]? = fill

/-- There is an element for every position. -/
theorem exists_assigned? (h : xs.length = 1 ∨ xs.length = ks.length) (hn : n < ks.length) :
    ∃ x, assigned? xs n = some x := by
  unfold assigned?
  split_ifs with h₁
  · exact ⟨_, List.getElem?_eq_getElem (by omega)⟩
  · exact ⟨_, List.getElem?_eq_getElem (by omega)⟩

theorem map_fst_assignPairs (h : xs.length = 1 ∨ xs.length = ks.length) :
    (assignPairs ks xs).map Prod.fst = ks := by
  refine List.ext_getElem? fun n => ?_
  rw [List.getElem?_map, getElem?_assignPairs h]
  by_cases hn : n < ks.length
  · obtain ⟨x, hx⟩ := exists_assigned? h hn
    simp [hn, hx]
  · simp [hn]

/-- **Writing to a list** writes every element to its position. -/
theorem listWrites_of_assignInto {data out : List α}
    (h : assignInto fill data ks xs = (out, none)) : ListWrites fill data out ks xs := by
  obtain ⟨hcount, hwrite⟩ := assignInto_ok h
  obtain ⟨hsize, hget⟩ := getElem?_of_writeAll hwrite
  have hfst := map_fst_assignPairs hcount
  rw [hfst] at hsize
  simp only [List.getElem?_toArray, List.size_toArray] at hget hsize
  have hunwritten : ∀ k, k ∉ ks → lastAt (assignPairs ks xs) k = none := by
    intro k hk
    refine lastAt_eq_none fun p hp hpk => hk ?_
    rw [← hfst, ← hpk]
    exact List.mem_map_of_mem hp
  refine ⟨hcount, hsize, fun n hn hlast => ?_, fun k hk hmem => ?_, fun k hk hk' hmem => ?_⟩
  · obtain ⟨x, hx⟩ := exists_assigned? hcount hn
    have hpair : (assignPairs ks xs)[n]? = some (ks[n], x) := by
      rw [getElem?_assignPairs hcount, List.getElem?_eq_getElem hn, hx]
      rfl
    have hlater : ∀ m p, n < m → (assignPairs ks xs)[m]? = some p → p.1 ≠ ks[n] := by
      intro m p hm hp
      have hkm : ks[m]? = some p.1 := by
        rw [← hfst, List.getElem?_map, hp]
        rfl
      obtain ⟨hlt, hkm⟩ := List.getElem?_eq_some_iff.1 hkm
      rw [← hkm]
      exact hlast m hlt hm
    rw [hget, lastAt_eq_some hpair hlater, hx]
    rfl
  · rw [hget, hunwritten k hmem, List.getElem?_eq_getElem hk]
    rfl
  · rw [hget, hunwritten k hmem, List.getElem?_eq_none hk, if_pos hk']
    cases fill <;> rfl

/-! ## Writing to values -/

namespace Value

/-- What fills the gap in front of an element behind the end. -/
def filler : Value → Value
  | number _ | numberVector _ => number Number.nan
  | bool _ | boolVector _ => bool false
  | stringVector _ => string ""
  | _ => void

/-- The elements of a value are written to one by one: a vector, a matrix, or a number or truth
value as a vector of one element. -/
def isTarget : Value → Bool
  | number _ | bool _ | numberVector _ | boolVector _ | stringVector _ | numberMatrix ..
  | boolMatrix .. => true
  | _ => false

def isMatrix : Value → Bool
  | numberMatrix .. | boolMatrix .. => true
  | _ => false

/-- What `a` becomes when elements `xs` are written to positions `ks`. -/
structure Writes (a b : Value) (ks : List Nat) (xs : List Value) : Prop where
  kind : b.kind = a.toVector.kind
  count : xs.length = 1 ∨ xs.length = ks.length
  length : b.length = if a.isMatrix then a.length else extent ks a.length
  /-- The last one of several entries for a position counts. -/
  last : ∀ n (hn : n < ks.length), (∀ m (hm : m < ks.length), n < m → ks[m] ≠ ks[n]) →
    b.element? ks[n] = assigned? xs n
  old : ∀ k < a.length, k ∉ ks → b.element? k = a.element? k
  new : ∀ k, a.length ≤ k → k < b.length → k ∉ ks → b.element? k = some a.filler

variable {a b c i : Value} {fault : Fault}

/-- Writing to the list of elements writes to the value. -/
theorem writes_of_list {elem : α → Value} {data out : List α} (h : ListWrites fill data out ks xs)
    (hkind : b.kind = a.toVector.kind) (ha : ∀ k, a.element? k = data[k]?.map elem)
    (hb : ∀ k, b.element? k = out[k]?.map elem) (hlength : a.length = data.length)
    (hlength' : b.length = out.length)
    (hfill : a.isMatrix = false → fill.map elem = some a.filler)
    (hmatrix : a.isMatrix = true → out.length = data.length) : Writes a b ks (xs.map elem) := by
  refine ⟨hkind, by rw [List.length_map]; exact h.count, ?_, fun n hn hlast => ?_, ?_, ?_⟩
  · rw [hlength, hlength']
    split_ifs with hm
    · exact hmatrix hm
    · exact h.length
  · rw [hb, h.last n hn hlast, assigned?, assigned?, List.length_map, List.getElem?_map,
      List.getElem?_map]
    split_ifs <;> rfl
  · intro k hk hmem
    rw [hb, ha, h.old k (hlength ▸ hk) hmem]
  · intro k hk hk' hmem
    rw [hlength] at hk
    rw [hlength'] at hk'
    cases hm : a.isMatrix with
    | true => exact absurd hk' (by rw [hmatrix hm]; omega)
    | false => rw [hb, h.new k hk hk' hmem, hfill hm]

theorem items?_of_numberItems? {xs : List Float} (h : c.numberItems? = some xs) :
    c.items? = some (xs.map number) := by
  cases c <;> cases h <;> rfl

theorem items?_of_boolItems? {xs : List Bool} (h : c.boolItems? = some xs) :
    c.items? = some (xs.map bool) := by
  cases c <;> cases h <;> rfl

theorem items?_of_stringItems? {xs : List String} (h : c.stringItems? = some xs) :
    c.items? = some (xs.map string) := by
  cases c <;> cases h <;> rfl

/-- Elements are written to the list of elements, from which the value is built again. -/
theorem writes_of_assigned {elem : α → Value} (of : List α → Value) {data : List α}
    (h : (of (assignInto fill data ks xs).1, (assignInto fill data ks xs).2) = (b, none))
    (hkind : ∀ v, (of v).kind = a.toVector.kind) (ha : ∀ k, a.element? k = data[k]?.map elem)
    (hb : ∀ v k, (of v).element? k = v[k]?.map elem) (hlength : a.length = data.length)
    (hlength' : ∀ v, (of v).length = v.length)
    (hfill : a.isMatrix = false → fill.map elem = some a.filler)
    (hmatrix : a.isMatrix = true → fill = none) : Writes a b ks (xs.map elem) := by
  obtain ⟨rfl, hfault⟩ := Prod.mk.inj h
  have hassign : assignInto fill data ks xs = ((assignInto fill data ks xs).1, none) :=
    Prod.ext rfl hfault
  refine writes_of_list (listWrites_of_assignInto hassign) (hkind _) ha (hb _) hlength
    (hlength' _) hfill fun hm => ?_
  rw [hmatrix hm, length_assignInto]

theorem setPositions_writes (ha : a.isTarget = true)
    (h : a.toVector.setPositions ks c fault = (b, none)) :
    ∃ xs, c.items? = some xs ∧ Writes a b ks xs := by
  unfold setPositions at h
  cases a with
  | number | numberVector =>
    dsimp only [toVector] at h
    split at h
    · next xs hxs =>
      exact ⟨_, items?_of_numberItems? hxs, writes_of_assigned numberVector h (fun _ => rfl)
        (fun k => by cases k <;> rfl) (fun _ _ => rfl) rfl (fun _ => rfl) (fun _ => rfl) nofun⟩
    · cases h
  | bool | boolVector =>
    dsimp only [toVector] at h
    split at h
    · next xs hxs =>
      exact ⟨_, items?_of_boolItems? hxs, writes_of_assigned boolVector h (fun _ => rfl)
        (fun k => by cases k <;> rfl) (fun _ _ => rfl) rfl (fun _ => rfl) (fun _ => rfl) nofun⟩
    · cases h
  | stringVector =>
    dsimp only [toVector] at h
    split at h
    · next xs hxs =>
      exact ⟨_, items?_of_stringItems? hxs, writes_of_assigned stringVector h (fun _ => rfl)
        (fun _ => rfl) (fun _ _ => rfl) rfl (fun _ => rfl) (fun _ => rfl) nofun⟩
    · cases h
  | numberMatrix v columns =>
    dsimp only [toVector] at h
    split at h
    · next xs hxs =>
      exact ⟨_, items?_of_numberItems? hxs, writes_of_assigned (numberMatrix · columns) h
        (fun _ => rfl) (fun _ => rfl) (fun _ _ => rfl) rfl (fun _ => rfl) nofun (fun _ => rfl)⟩
    · cases h
  | boolMatrix v columns =>
    dsimp only [toVector] at h
    split at h
    · next xs hxs =>
      exact ⟨_, items?_of_boolItems? hxs, writes_of_assigned (boolMatrix · columns) h
        (fun _ => rfl) (fun _ => rfl) (fun _ _ => rfl) rfl (fun _ => rfl) nofun (fun _ => rfl)⟩
    · cases h
  | _ => cases ha

/-- **Element writes do what the index says.** The index addresses positions, and the elements of
the value that is written go there. Vectors grow as far as needed, matrices keep their length, and
everything else stays as it is. -/
theorem setElements_writes (ha : a.isTarget = true) (h : a.setElements i c = (b, none)) :
    ∃ ks xs, i.Addresses a.length ks ∧ c.items? = some xs ∧ Writes a b ks xs := by
  have hlength : a.indexLength? = some a.length := by
    cases a <;> first | rfl | cases ha
  unfold setElements at h
  rw [hlength] at h
  dsimp only at h
  cases hp : positions? a.length i with
  | none =>
    rw [hp] at h
    cases h
  | some r =>
    cases r with
    | error e =>
      rw [hp] at h
      cases h
    | ok ks =>
      rw [hp] at h
      obtain ⟨xs, hxs, hwrites⟩ := setPositions_writes ha h
      exact ⟨ks, xs, addresses_of_positions? hp, hxs, hwrites⟩

/-- A number grows to a vector of three. The fraction of a position is dropped, and of two entries
for one position the last one counts. -/
theorem setElements_grows :
    let b := numberVector [2.0, Number.nan, 3.0]
    (number 7.0).setElements (numberVector [2.5, 0.0, 2.0]) (numberVector [1.0, 2.0, 3.0]) =
        (b, none) ∧
      ∃ ks xs, (numberVector [2.5, 0.0, 2.0]).Addresses 1 ks ∧
        (numberVector [1.0, 2.0, 3.0]).items? = some xs ∧ Writes (number 7.0) b ks xs := by
  have h : (number 7.0).setElements (numberVector [2.5, 0.0, 2.0])
      (numberVector [1.0, 2.0, 3.0]) = (numberVector [2.0, Number.nan, 3.0], none) := by rfl
  exact ⟨h, setElements_writes rfl h⟩

end Value

end FormulaLang
