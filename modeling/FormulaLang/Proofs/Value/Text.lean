import FormulaLang.Value.Build
import FormulaLang.Value.Text
import Mathlib.Data.List.Basic

/-!
# Texts of vectors and matrices

The elements of a vector stand between commas, and so do those of a row of a matrix; its rows stand
between semicolons. A literal puts such rows together again.

* `intercalate_cons`: texts between separators, from the left.
* `separated_vector`, **`separated_rows`**: vectors and matrices.
* `concat_numbers`, **`ofRows_numbers`**: the literals of rows of numbers.
-/

namespace FormulaLang

/-! ## Separators -/

section Separators

variable {acc item : String} {items : List String} {rows : List (List String)} {k columns : Nat}

/-- One more element, with its place. -/
def addElement (columns : Nat) (acc : String) (p : String × Nat) : String :=
  if p.2 = 0 then p.1
  else if columns ≠ 0 ∧ p.2 % columns = 0 then acc ++ "; " ++ p.1
  else acc ++ ", " ++ p.1

theorem separated_eq (columns : Nat) (items : List String) :
    separated columns items = "[" ++ items.zipIdx.foldl (addElement columns) "" ++ "]" := rfl

/-- Elements that begin no row stand behind commas. -/
theorem foldl_within
    (h : ∀ i < items.length, k + i ≠ 0 ∧ ¬ (columns ≠ 0 ∧ (k + i) % columns = 0)) :
    (items.zipIdx k).foldl (addElement columns) acc = ", ".intercalate (acc :: items) := by
  induction items generalizing k acc with
  | nil => exact String.intercalate_singleton.symm
  | cons item items ih =>
    have hfirst := h 0 (Nat.succ_pos _)
    rw [Nat.add_zero] at hfirst
    have hadd : addElement columns acc (item, k) = acc ++ ", " ++ item := by
      rw [addElement, if_neg hfirst.1, if_neg hfirst.2]
    rw [List.zipIdx_cons, List.foldl_cons, hadd, ih, String.intercalate_cons_append,
      String.intercalate_cons_cons]
    intro i hi
    rw [Nat.add_assoc, Nat.add_comm 1]
    exact h (i + 1) (Nat.succ_lt_succ hi)

/-- Between the beginnings of rows no row begins. -/
theorem within_row (hk : k % columns = 0) (hrow : items.length < columns) :
    ∀ i < items.length, k + 1 + i ≠ 0 ∧ ¬ (columns ≠ 0 ∧ (k + 1 + i) % columns = 0) := by
  intro i hi
  refine ⟨by omega, fun h => ?_⟩
  rw [Nat.add_assoc, Nat.add_mod, hk, Nat.zero_add, Nat.mod_mod,
    Nat.mod_eq_of_lt (by omega)] at h
  omega

theorem foldl_first (hrow : (item :: items).length = columns) :
    ((item :: items).zipIdx 0).foldl (addElement columns) acc =
      ", ".intercalate (item :: items) := by
  rw [List.zipIdx_cons, List.foldl_cons, foldl_within]
  · rfl
  · exact within_row (Nat.zero_mod _) (by rw [← hrow]; exact Nat.lt_succ_self _)

theorem foldl_row (hk : k ≠ 0) (hmod : k % columns = 0) (hrow : (item :: items).length = columns) :
    ((item :: items).zipIdx k).foldl (addElement columns) acc =
      acc ++ "; " ++ ", ".intercalate (item :: items) := by
  have hcolumns : columns ≠ 0 := hrow ▸ Nat.succ_ne_zero _
  have hadd : addElement columns acc (item, k) = acc ++ "; " ++ item := by
    rw [addElement, if_neg hk, if_pos ⟨hcolumns, hmod⟩]
  rw [List.zipIdx_cons, List.foldl_cons, hadd, foldl_within, String.intercalate_cons_append]
  exact within_row hmod (by rw [← hrow]; exact Nat.lt_succ_self _)

theorem foldl_rows (hcolumns : columns ≠ 0) (hrows : ∀ row ∈ rows, row.length = columns)
    (hk : k ≠ 0) (hmod : k % columns = 0) :
    (rows.flatten.zipIdx k).foldl (addElement columns) acc =
      "; ".intercalate (acc :: rows.map (", ".intercalate ·)) := by
  induction rows generalizing k acc with
  | nil => exact String.intercalate_singleton.symm
  | cons row rows ih =>
    obtain ⟨hrow, hrest⟩ := List.forall_mem_cons.1 hrows
    cases row with
    | nil => exact absurd hrow.symm hcolumns
    | cons item items =>
      rw [List.flatten_cons, List.zipIdx_append, List.foldl_append, foldl_row hk hmod hrow,
        ih hrest (by omega) (by rw [hrow, Nat.add_mod_right, hmod]),
        String.intercalate_cons_append, List.map_cons, String.intercalate_cons_cons]

/-- **The elements of a vector** stand between commas. -/
theorem separated_vector (items : List String) :
    separated 0 items = "[" ++ ", ".intercalate items ++ "]" := by
  rw [separated_eq]
  cases items with
  | nil => rfl
  | cons item items =>
    rw [List.zipIdx_cons, List.foldl_cons, foldl_within fun i _ => ⟨by omega, by simp⟩]
    rfl

/-- **The rows of a matrix** stand between semicolons. -/
theorem separated_rows (hcolumns : columns ≠ 0) (hrows : ∀ row ∈ rows, row.length = columns) :
    separated columns rows.flatten =
      "[" ++ "; ".intercalate (rows.map (", ".intercalate ·)) ++ "]" := by
  rw [separated_eq]
  cases rows with
  | nil => rfl
  | cons row rows =>
    obtain ⟨hrow, hrest⟩ := List.forall_mem_cons.1 hrows
    cases row with
    | nil => exact absurd hrow.symm hcolumns
    | cons item items =>
      rw [List.flatten_cons, List.zipIdx_append, List.foldl_append, foldl_first hrow,
        Nat.zero_add, hrow, foldl_rows hcolumns hrest hcolumns (Nat.mod_self _), List.map_cons]

end Separators

/-! ## Literals of numbers -/

namespace Value

variable {v row : List Float} {rows : List (List Float)} {columns : Nat}

/-- What succeeds everywhere succeeds. -/
theorem mapM_numberPart {α : Type} {f : α → Value} {g : α → List Float}
    (h : ∀ a, (f a).numberPart = .ok (g a)) (as : List α) :
    (as.map f).mapM numberPart = .ok (as.map g) := by
  induction as with
  | nil => rfl
  | cons a as ih =>
    rw [List.map_cons, List.mapM_cons, h, ih]
    rfl

/-- Numbers side by side are a vector. -/
theorem concat_numbers (v : List Float) : concat (v.map .number) = .ok (numberVector v) := by
  cases v with
  | nil => rfl
  | cons x v =>
    have hvalid : ((x :: v).map number).any isInvalid = false := by simp [isInvalid]
    have hstrings : ((x :: v).map number).mapM stringPart? = none := by simp [stringPart?]
    have hbools : ((x :: v).map number).mapM boolPart? = none := by simp [boolPart?]
    have hflatten : ((x :: v).map fun x => [x]).flatten = x :: v := by
      rw [← List.flatMap_def, List.flatMap_singleton']
    rw [concat, hvalid, hstrings, hbools, mapM_numberPart fun _ => rfl]
    exact congrArg (fun v => Except.ok (numberVector v)) hflatten

theorem concatRows_numbers (rows : List (List Float)) :
    concatRows (rows.map (·.map .number)) = .ok (some (rows.map numberVector)) := by
  induction rows with
  | nil => rfl
  | cons row rows ih =>
    rw [List.map_cons, concatRows, concat_numbers, ih]
    rfl

/-- **Rows of numbers** that are equally long are a matrix. -/
theorem ofRows_numbers (hne : rows ≠ []) (hrows : ∀ row ∈ rows, row.length = columns) :
    ofRows (rows.map (·.map .number)) = .ok (numberMatrix rows.flatten columns) := by
  have hjoin : joinRows (rows.map numberVector) columns =
      .ok (numberMatrix rows.flatten columns) := by
    have hbools : (rows.map numberVector).mapM boolRow? = none := by
      cases rows with
      | nil => exact absurd rfl hne
      | cons row rows => rfl
    rw [joinRows, hbools, mapM_numberPart fun _ => rfl, List.map_id']
    rfl
  have hhead : ((rows.map numberVector).head?.map length).getD 0 = columns := by
    cases rows with
    | nil => exact absurd rfl hne
    | cons row rows => exact hrows row List.mem_cons_self
  have hfind : ((rows.map numberVector).find? fun row => row.length != columns) = none := by
    rw [List.find?_map, Option.map_eq_none_iff, List.find?_eq_none]
    intro row hrow
    simpa [length] using hrows row hrow
  rw [ofRows, concatRows_numbers]
  simp only [hhead, hfind, hjoin]

end Value

end FormulaLang
