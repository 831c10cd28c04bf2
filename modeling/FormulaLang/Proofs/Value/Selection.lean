import FormulaLang.Value.Element
import Mathlib.Data.List.Basic

/-!
# Selections

An index selects one position or several ones. Where these are in range there is something at them,
and the index gives it.

* `Selection`, `Selection.Below`: positions, and positions in range.
* `Value.gather_cons`, `Value.length_gather`, `Value.gather_map`, `Value.gather_zipWith`: several
  elements of a list.
* `Value.pick?`, `Value.Selects`: what is selected, and by which index.
* **`Value.index_of_selects`**: an index in range gives what it selects.
-/

namespace FormulaLang

/-- One position, or several ones. -/
inductive Selection where
  | one (k : Nat)
  | several (ks : List Nat)

/-- All positions are below a length. -/
def Selection.Below (n : Nat) : Selection → Prop
  | one k => k < n
  | several ks => ∀ k ∈ ks, k < n

namespace Value

variable {α β γ : Type} {a i v : Value} {k : Nat} {ks : List Nat} {p : Selection}

/-! ## Several elements of a list -/

section Gather

variable {xs : List α} {ys : List β}

theorem gather_cons (hk : k < xs.length) : gather xs (k :: ks) = xs[k] :: gather xs ks := by
  simp [gather, hk]

theorem length_gather (hks : ∀ k ∈ ks, k < xs.length) : (gather xs ks).length = ks.length := by
  induction ks with
  | nil => rfl
  | cons k ks ih =>
    obtain ⟨hk, hks⟩ := List.forall_mem_cons.1 hks
    rw [gather_cons hk, List.length_cons, ih hks, List.length_cons]

theorem gather_map (f : α → β) (xs : List α) (ks : List Nat) :
    gather (xs.map f) ks = (gather xs ks).map f := by
  simp [gather, List.map_filterMap]

theorem gather_zipWith (f : α → β → γ) (hx : ∀ k ∈ ks, k < xs.length)
    (hy : ∀ k ∈ ks, k < ys.length) :
    gather (xs.zipWith f ys) ks = (gather xs ks).zipWith f (gather ys ks) := by
  induction ks with
  | nil => rfl
  | cons k ks ih =>
    obtain ⟨hxk, hx⟩ := List.forall_mem_cons.1 hx
    obtain ⟨hyk, hy⟩ := List.forall_mem_cons.1 hy
    have hk : k < (xs.zipWith f ys).length := by
      rw [List.length_zipWith]
      omega
    rw [gather_cons hxk, gather_cons hyk, gather_cons hk, ih hx hy, List.getElem_zipWith,
      List.zipWith_cons_cons]

end Gather

/-! ## What is selected -/

/-- What is at the selected positions. -/
def pick? (a : Value) : Selection → Option Value
  | .one k => a.element? k
  | .several ks => a.select? ks

/-- The positions that an index into something of a length selects. -/
def Selects (n : Nat) : Value → Selection → Prop
  | number x, .one k => positionBelow n x = .ok k
  | number _, .several _ => False
  | _, .one _ => False
  | i, .several ks => positions? n i = some (.ok ks)

theorem indexLength?_of_pick? (h : a.pick? p = some v) :
    a.indexLength? = some a.length ∧ a.isInvalid = false := by
  cases a with
  | void | invalid | struct => cases p <;> cases h
  | _ => exact ⟨rfl, rfl⟩

/-- **An index in range gives what it selects.** -/
theorem index_of_selects (hi : i.Selects a.length p) (hp : p.Below a.length)
    (h : a.pick? p = some v) : a.index i = .ok v := by
  obtain ⟨hlength, hvalid⟩ := indexLength?_of_pick? h
  have hi' : i.isInvalid = false := by
    cases i with
    | invalid => cases p <;> cases hi
    | _ => rfl
  unfold index
  rw [hvalid, hi', hlength]
  cases p with
  | one k =>
    cases i with
    | number x =>
      have hk : positionBelow a.length x = .ok k := hi
      have helement : a.element? k = some v := h
      simp only [Bool.or_self, Bool.false_eq_true, if_false, hk, helement]
    | _ => cases hi
  | several ks =>
    have hks : positions? a.length i = some (.ok ks) := by
      cases i <;> first | exact hi | cases hi
    have hselect : a.select? ks = some v := h
    have hbelow : ∀ k ∈ ks, k < a.length := hp
    have hfind : ks.find? (a.length ≤ ·) = none := by simpa [List.find?_eq_none] using hbelow
    have hgather : ∀ fault, a.gatherAt a.length ks fault = .ok v := by
      intro fault
      simp only [gatherAt, hfind, hselect]
    cases i with
    | number x => cases hi
    | _ => simp only [Bool.or_self, Bool.false_eq_true, if_false, hks, hgather]

end Value

end FormulaLang
