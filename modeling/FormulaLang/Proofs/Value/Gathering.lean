import FormulaLang.Proofs.Number.Integers
import FormulaLang.Proofs.Value.Addresses
import FormulaLang.Proofs.Value.Selection
import FormulaLang.Value.Build
import Mathlib.Data.List.Sort

/-!
# One element and several ones

A number and a vector that holds it select the same element: the first gives it as it is, the
second alone in a vector, string or list. Both accept the same numbers, although they check them in
different ways. A mask selects what the vector of the positions selects where it is true.

* `position_ofNat`, **`positionBelow_eq_ok`**: the two checks of a number.
* `truePositions`: the positions where a mask is true.
* `Value.alone`: an element alone, and `Value.exists_element?`: where there is one.
* `Value.index_number_error`, `Value.index_vector_error`: numbers that are out of range.
* **`Value.index_gathers`**: a number, a vector of one number, and a mask.
* `Value.index_beyond`: where the two checks would part.
-/

namespace FormulaLang

open Number

variable {n k : Nat} {ks : List Nat} {x : Float}

/-! ## Positions -/

theorem position_ofNat (h : k ≤ 2 ^ 53) : position n (Float.ofNat k) = .ok k := by
  obtain ⟨hfinite, hunits⟩ := unitsOf_ofNat h
  refine position_eq_ok.2 ⟨hfinite, ?_, ?_⟩
  · rw [hunits]
    exact Int.natCast_nonneg _
  · rw [address, wholePart_ofNat h]
    omega

/-- **Comparing a number with the length**, or its whole part: the same numbers are in range. -/
theorem positionBelow_eq_ok (hn : n ≤ 2 ^ 53) :
    positionBelow n x = .ok k ↔ position n x = .ok k ∧ k < n := by
  rw [position_eq_ok]
  unfold positionBelow
  split_ifs with h
  · refine iff_of_false nofun fun ⟨⟨hfinite, hpos, hk⟩, hlt⟩ => ?_
    have hnan := isNaN_of_isFinite hfinite
    have hneg := (not_lt_zero_iff hfinite).2 hpos
    have hwhole : wholePart x < n := by
      rw [hk, address] at hlt
      omega
    have hle := (not_ofNat_le_iff hn hnan hneg).2 ⟨hfinite, hwhole⟩
    rw [hnan, decide_eq_false hneg, decide_eq_false hle] at h
    cases h
  · simp only [Bool.or_eq_true, not_or, decide_eq_true_eq] at h
    obtain ⟨⟨hnan, hneg⟩, hle⟩ := h
    obtain ⟨hfinite, hwhole⟩ := (not_ofNat_le_iff hn (Bool.eq_false_iff.2 hnan) hneg).1 hle
    have hpos := (not_lt_zero_iff hfinite).1 hneg
    have haddress : x.toUInt64.toNat = address x := toNat_toUInt64 hfinite hpos
    rw [haddress]
    constructor
    · rintro ⟨⟩
      exact ⟨⟨hfinite, hpos, rfl⟩, lt_of_le_of_lt (Nat.min_le_left _ _) hwhole⟩
    · rintro ⟨⟨-, -, rfl⟩, -⟩
      rfl

/-- The positions where a mask is true. -/
def truePositions (mask : List Bool) : List Nat :=
  (List.range mask.length).filter fun k => mask[k]? = some true

theorem maskPositions_eq (mask : List Bool) : maskPositions 0 mask = truePositions mask := by
  refine List.Pairwise.eq_of_mem_iff (pairwise_maskPositions 0 mask)
    ((List.pairwise_lt_range).filter _) fun k => ?_
  have hlt : mask[k]? = some true → k < mask.length := fun h =>
    (List.getElem?_eq_some_iff.1 h).1
  simpa [truePositions, mem_maskPositions] using hlt

theorem lt_of_mem_truePositions {mask : List Bool} (h : k ∈ truePositions mask) :
    k < mask.length := List.mem_range.1 (List.mem_filter.1 h).1

theorem mapM_position_ofNat (h : ∀ k ∈ ks, k ≤ 2 ^ 53) :
    (ks.map Float.ofNat).mapM (position n) = .ok ks := by
  induction ks with
  | nil => rfl
  | cons k ks ih =>
    obtain ⟨hk, hks⟩ := List.forall_mem_cons.1 h
    rw [List.map_cons, List.mapM_cons, position_ofNat hk, ih hks]
    rfl

namespace Value

variable {a i v : Value}

/-! ## Elements -/

/-- An element alone, as it comes when several elements are selected. -/
def alone (a v : Value) : Value :=
  match a with
  | string _ => v
  | list _ => list [v]
  | _ => collect [v]

/-- **Where there is an element** it is the only item of what selecting its position gives. -/
theorem exists_element? (ha : a.indexLength? = some n) (hk : k < n) : ∃ v,
    a.element? k = some v ∧ a.select? [k] = some (a.alone v) ∧ (a.alone v).items? = some [v] := by
  cases a with
  | void | invalid | struct => cases ha
  | bool b =>
    cases ha
    obtain rfl := Nat.lt_one_iff.1 hk
    exact ⟨bool b, rfl, rfl, rfl⟩
  | number x =>
    cases ha
    obtain rfl := Nat.lt_one_iff.1 hk
    exact ⟨number x, rfl, rfl, rfl⟩
  | string s =>
    cases ha
    have hk' : k < s.toList.length := hk
    have hgather : gather s.toList [k] = [s.toList[k]] := gather_cons hk'
    exact ⟨string (s.toList[k].toString), by simp [element?, hk'],
      congrArg (fun cs => some (string (String.ofList cs))) hgather, rfl⟩
  | boolVector v | boolMatrix v columns =>
    cases ha
    have hk' : k < v.length := hk
    exact ⟨bool v[k], by simp [element?, hk'], by simp [select?, gather_cons hk']; rfl, rfl⟩
  | numberVector v | numberMatrix v columns =>
    cases ha
    have hk' : k < v.length := hk
    exact ⟨number v[k], by simp [element?, hk'], by simp [select?, gather_cons hk']; rfl, rfl⟩
  | stringVector v =>
    cases ha
    have hk' : k < v.length := hk
    exact ⟨string v[k], by simp [element?, hk'], by simp [select?, gather_cons hk']; rfl, rfl⟩
  | list v =>
    cases ha
    have hk' : k < v.length := hk
    exact ⟨v[k], by simp [element?, hk'], by simp [select?, gather_cons hk']; rfl, rfl⟩

theorem exists_select? (ha : a.indexLength? = some n) (ks : List Nat) :
    ∃ w, a.select? ks = some w := by
  cases a with
  | void | invalid | struct => cases ha
  | _ => exact ⟨_, rfl⟩

/-! ## Out of range -/

theorem isInvalid_of_indexLength? (ha : a.indexLength? = some n) : a.isInvalid = false := by
  cases a with
  | void | invalid | struct => cases ha
  | _ => rfl

theorem index_number_error (ha : a.indexLength? = some n) (h : ∀ k, positionBelow n x ≠ .ok k) :
    ∃ e, a.index (number x) = .error e := by
  have hi : (number x).isInvalid = false := rfl
  simp only [index, isInvalid_of_indexLength? ha, hi, ha, Bool.or_self, Bool.false_eq_true,
    if_false]
  cases hk : positionBelow n x with
  | error e => exact ⟨e, rfl⟩
  | ok k => exact absurd hk (h k)

theorem index_vector_error (ha : a.indexLength? = some n)
    (h : ∀ k, position n x = .ok k → n ≤ k) : ∃ e, a.index (numberVector [x]) = .error e := by
  have hi : (numberVector [x]).isInvalid = false := rfl
  simp only [index, isInvalid_of_indexLength? ha, hi, ha, Bool.or_self, Bool.false_eq_true,
    if_false, positions?, List.mapM_cons, List.mapM_nil]
  cases hk : position n x with
  | error e => exact ⟨e, rfl⟩
  | ok k =>
    refine ⟨.indexOutOfRange (Float.ofNat k) n, ?_⟩
    change a.gatherAt n [k] _ = _
    simp [gatherAt, h k hk]

/-! ## Numbers, vectors and masks -/

/-- **A number, a vector that holds it, and a mask.** The number selects an element if and only if
the vector does, which then gives the element alone. A mask selects what the vector of its true
positions selects. The positions must be doubles, which they are below `2 ^ 53`. -/
theorem index_gathers (ha : a.indexLength? = some a.length) (hn : a.length ≤ 2 ^ 53) :
    (∀ x, (∃ v, a.index (number x) = .ok v ∧ a.index (numberVector [x]) = .ok (a.alone v) ∧
        (a.alone v).items? = some [v]) ∨
      (∃ e, a.index (number x) = .error e) ∧ ∃ e, a.index (numberVector [x]) = .error e) ∧
    ∀ mask, mask.length = a.length → ∃ w, a.index (boolVector mask) = .ok w ∧
      a.index (numberVector ((truePositions mask).map Float.ofNat)) = .ok w := by
  constructor
  · intro x
    by_cases h : ∃ k, position a.length x = .ok k ∧ k < a.length
    · obtain ⟨k, hk, hlt⟩ := h
      obtain ⟨v, helement, hselect, hitems⟩ := exists_element? ha hlt
      have hone : (number x).Selects a.length (.one k) := (positionBelow_eq_ok hn).2 ⟨hk, hlt⟩
      have hseveral : (numberVector [x]).Selects a.length (.several [k]) := by
        simp [Selects, positions?, hk]
      have hbelow : (Selection.several [k]).Below a.length := by simpa [Selection.Below] using hlt
      exact .inl ⟨v, index_of_selects hone hlt helement, index_of_selects hseveral hbelow hselect,
        hitems⟩
    · refine .inr ⟨index_number_error ha fun k hk => h ⟨k, (positionBelow_eq_ok hn).1 hk⟩,
        index_vector_error ha fun k hk => not_lt.1 fun hlt => h ⟨k, hk, hlt⟩⟩
  · intro mask hmask
    obtain ⟨w, hw⟩ := exists_select? ha (truePositions mask)
    have hbelow : (Selection.several (truePositions mask)).Below a.length :=
      fun k hk => hmask ▸ lt_of_mem_truePositions hk
    have htrue : (boolVector mask).Selects a.length (.several (truePositions mask)) := by
      change positions? a.length (boolVector mask) = _
      rw [positions?, if_pos hmask, maskPositions_eq]
    have hnumbers : (numberVector ((truePositions mask).map Float.ofNat)).Selects a.length
        (.several (truePositions mask)) :=
      congrArg some (mapM_position_ofNat fun k hk => (hbelow k hk).le.trans hn)
    exact ⟨w, index_of_selects htrue hbelow hw, index_of_selects hnumbers hbelow hw⟩

/-- A number between two positions of a list, and a mask. -/
theorem index_gathers_list :
    let a := list [string "a", list [], number 2.0]
    a.index (number 1.5) = .ok (list []) ∧ a.index (numberVector [1.5]) = .ok (list [list []]) ∧
      ∃ w, a.index (boolVector [false, true, true]) = .ok w ∧
        a.index (numberVector [Float.ofNat 1, Float.ofNat 2]) = .ok w := by
  intro a
  obtain ⟨hnumbers, hmasks⟩ := index_gathers (a := a) rfl (by decide)
  have hposition : positionBelow 3 1.5 = .ok 1 := by
    rw [positionBelow, if_neg (by decide +kernel)]
    exact congrArg Except.ok (by decide +kernel)
  have hindex : a.index (number 1.5) = .ok (list []) :=
    index_of_selects (p := .one 1) hposition (show 1 < 3 by decide) rfl
  refine ⟨hindex, ?_, hmasks [false, true, true] rfl⟩
  rcases hnumbers 1.5 with ⟨v, hv, hvector, -⟩ | ⟨⟨e, he⟩, -⟩
  · rw [hindex] at hv
    cases hv
    exact hvector
  · rw [hindex] at he
    cases he

theorem length_of_indexLength? (ha : a.indexLength? = some n) : a.length = n := by
  cases a with
  | void | invalid | struct => cases ha
  | _ => exact Option.some.inj ha

/-- **One element more** than there are doubles without gaps, and the last position is rounded away
from a number, but not from a vector. -/
theorem index_beyond (ha : a.indexLength? = some (2 ^ 53 + 1)) :
    (∃ e, a.index (number (Float.ofNat (2 ^ 53))) = .error e) ∧
      ∃ w, a.index (numberVector [Float.ofNat (2 ^ 53)]) = .ok w := by
  have hlength := length_of_indexLength? ha
  constructor
  · have hrounded : Float.ofNat (2 ^ 53 + 1) ≤ Float.ofNat (2 ^ 53) := by decide +kernel
    refine index_number_error ha fun k => ?_
    rw [positionBelow, decide_eq_true hrounded, Bool.or_true, if_pos rfl]
    nofun
  · obtain ⟨w, hw⟩ := exists_select? ha [2 ^ 53]
    have hmax : ∀ k ∈ [2 ^ 53], k ≤ 2 ^ 53 := by simp
    have hselects : (numberVector [Float.ofNat (2 ^ 53)]).Selects a.length (.several [2 ^ 53]) :=
      congrArg some (mapM_position_ofNat hmax)
    have hbelow : (Selection.several [2 ^ 53]).Below a.length := by
      simp [Selection.Below, hlength]
    exact ⟨w, index_of_selects hselects hbelow hw⟩

end Value

end FormulaLang
