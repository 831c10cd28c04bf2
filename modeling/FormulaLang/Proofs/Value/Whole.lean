import FormulaLang.Proofs.Value.Deep
import FormulaLang.Value.Elementwise

/-!
# Whole values

A value is whole if it is not invalid and contains nothing invalid. Operations on whole values give
whole values or fail; an invalid operand makes the result invalid as a whole.

* `Value.whole`, `Value.Clear`: no part is invalid; invalid as a whole or not at all.
* `Proper`: a result is clear, and valid if the operands are.
* `proper_unary`, `proper_binary`, `proper_compare`, `proper_logical`, `proper_index`,
  `proper_member`, `proper_concat`, `proper_ofRows`: the operations.
* `Value.deep_whole`, `whole_setElements`: packing results, structs and writing elements.
-/

namespace FormulaLang

namespace Value

mutual

/-- Neither the value nor anything in it is invalid. -/
def whole : Value → Bool
  | invalid => false
  | list items => wholeItems items
  | struct members => wholeMembers members
  | _ => true

def wholeItems : List Value → Bool
  | [] => true
  | v :: vs => whole v && wholeItems vs

def wholeMembers : List (String × Value) → Bool
  | [] => true
  | (_, v) :: ms => whole v && wholeMembers ms

end

variable {v w u : Value} {vs ws : List Value} {ms : Members}

theorem wholeItems_iff : wholeItems vs ↔ ∀ v ∈ vs, v.whole := by
  induction vs with
  | nil => simp [wholeItems]
  | cons v vs ih => simp [wholeItems, ih]

theorem wholeMembers_iff : wholeMembers ms ↔ ∀ m ∈ ms, m.2.whole := by
  induction ms with
  | nil => simp [wholeMembers]
  | cons m ms ih =>
    obtain ⟨n, v⟩ := m
    simp only [wholeMembers, Bool.and_eq_true, ih, List.forall_mem_cons]

theorem whole_list : (list vs).whole ↔ ∀ v ∈ vs, v.whole := by
  rw [whole, wholeItems_iff]

theorem whole_struct : (struct ms).whole ↔ ∀ m ∈ ms, m.2.whole := by
  rw [whole, wholeMembers_iff]

theorem deep_whole : Deep fun v => v.whole where
  plain {v} h := by
    cases v with
    | invalid | list items | struct ms => cases h
    | _ => rfl
  list := whole_list
  struct := whole_struct

theorem isInvalid_of_whole (h : v.whole) : v.isInvalid = false := by
  cases v with
  | invalid => cases h
  | _ => rfl

theorem not_whole (h : v.isInvalid = true) : ¬ v.whole := by
  rw [isInvalid_iff.1 h, whole]
  exact Bool.false_ne_true

/-- Invalid as a whole, or not at all. -/
def Clear (v : Value) : Prop := v = invalid ∨ v.whole

theorem clear_invalid : invalid.Clear := .inl rfl

theorem Clear.whole (h : v.Clear) (hv : v.isInvalid = false) : v.whole := by
  rcases h with rfl | h
  · cases hv
  · exact h

theorem whole_of_clear (h : ∀ v ∈ vs, v.Clear) (hvs : vs.any isInvalid = false) :
    ∀ v ∈ vs, v.whole := by
  intro v hv
  exact (h v hv).whole (eq_false_of_ne_true (List.any_eq_false.1 hvs v hv))

theorem whole_ofNumbers (x : Operand Float) : (ofNumbers x).whole := by
  cases x <;> rfl

theorem whole_ofBools (x : Operand Bool) : (ofBools x).whole := by
  cases x <;> rfl

theorem whole_ofStrings (x : Operand String) : (ofStrings x).whole := by
  cases x <;> rfl

end Value

open Value (Clear whole)

/-! ## Results -/

/-- Every value of a result is clear, and whole if a condition holds. -/
def Proper (valid : Prop) (r : Except Fault Value) : Prop :=
  ∀ v, r = .ok v → v.Clear ∧ (valid → v.whole)

section Proper

variable {valid : Prop} {r : Except Fault Value} {v w u : Value} {vs : List Value}

theorem Proper.of_whole (h : ∀ v, r = .ok v → v.whole) : Proper valid r :=
  fun v hv => ⟨.inr (h v hv), fun _ => h v hv⟩

theorem proper_ok (h : v.whole) : Proper valid (.ok v) := .of_whole fun _ hv => by
  cases hv
  exact h

theorem proper_error (f : Fault) : Proper valid (.error f) := .of_whole fun _ hv => by cases hv

/-- An invalid operand makes the result invalid. -/
theorem proper_invalid (h : ¬ valid) : Proper valid (.ok .invalid) := by
  intro v hv
  cases hv
  exact ⟨.inl rfl, fun hvalid => absurd hvalid h⟩

theorem proper_map {β : Type} {x : Except Fault β} {f : β → Value} (h : ∀ b, (f b).whole) :
    Proper valid (x.map f) := by
  cases x with
  | ok b => exact proper_ok (h b)
  | error f => exact proper_error f

theorem proper_arithmetic {op : String} {f : Float → Float → Float} :
    Proper valid (v.arithmetic op f w) := by
  unfold Value.arithmetic
  split
  · exact proper_map Value.whole_ofNumbers
  · exact proper_error _

theorem proper_unary {op : UnaryOp} : Proper (v.isInvalid = false) (v.unary op) := by
  unfold Value.unary
  split
  · next h => exact proper_invalid (by rw [h]; decide)
  dsimp only
  split
  · next u hu =>
    refine proper_ok ?_
    cases op with
    | neg | bitNot =>
      obtain ⟨x, -, rfl⟩ := Option.map_eq_some_iff.1 hu
      exact Value.whole_ofNumbers _
    | not =>
      obtain ⟨x, -, rfl⟩ := Option.map_eq_some_iff.1 hu
      exact Value.whole_ofBools _
  · exact proper_error _

/-- Both operands are valid. -/
def ValidPair (v w : Value) : Prop := v.isInvalid = false ∧ w.isInvalid = false

theorem not_validPair (h : (v.isInvalid || w.isInvalid) = true) : ¬ ValidPair v w := by
  rintro ⟨hv, hw⟩
  rw [hv, hw] at h
  cases h

theorem proper_binary {op : BinaryOp} : Proper (ValidPair v w) (v.binary op w) := by
  unfold Value.binary
  split
  · next h => exact proper_invalid (not_validPair h)
  split
  · exact proper_map Value.whole_ofStrings
  · exact proper_arithmetic

theorem proper_compareOther {op : CompareOp} : Proper valid (v.compareOther op w) := by
  unfold Value.compareOther
  cases op with
  | eq | ne =>
    dsimp only
    split
    · exact proper_map Value.whole_ofBools
    · split
      · exact proper_ok rfl
      · exact proper_error _
  | _ => exact proper_error _

theorem proper_compare {op : CompareOp} : Proper (ValidPair v w) (v.compare op w) := by
  unfold Value.compare
  split
  · next h => exact proper_invalid (not_validPair h)
  split
  · exact proper_map Value.whole_ofBools
  split
  · exact proper_map Value.whole_ofBools
  · exact proper_compareOther

theorem proper_logical {op : LogicalOp} : Proper (ValidPair v w) (v.logical op w) := by
  unfold Value.logical
  split
  · next h => exact proper_invalid (not_validPair h)
  split
  · exact proper_map Value.whole_ofBools
  · exact proper_error _

/-! ## Elements -/

theorem proper_gatherAt {length : Nat} {ks : List Nat} {fault : Fault} (hv : v.whole) :
    Proper valid (v.gatherAt length ks fault) := by
  unfold Value.gatherAt
  split
  · exact proper_error _
  split
  · next u hu => exact proper_ok (Value.deep_whole.of_select? hv hu)
  · exact proper_error _

theorem proper_index (hv : v.Clear) : Proper (ValidPair v w) (v.index w) := by
  unfold Value.index
  split
  · next h => exact proper_invalid (not_validPair h)
  next h =>
  have hwhole : v.whole := hv.whole (by cases hv : v.isInvalid <;> simp_all)
  dsimp only
  split
  · exact proper_error _
  split
  · split
    · exact proper_error _
    · split
      · next u hu => exact proper_ok (Value.deep_whole.of_element? hwhole hu)
      · exact proper_error _
  · split
    · exact proper_error _
    · exact proper_error _
    · exact proper_gatherAt hwhole

theorem proper_member {name : String} (hv : v.Clear) :
    Proper (v.isInvalid = false) (v.member name) := by
  cases v with
  | invalid => exact proper_invalid (by simp [Value.isInvalid])
  | struct ms =>
    rw [Value.member]
    split
    · next u hu =>
      obtain ⟨m, hm, rfl⟩ := Option.map_eq_some_iff.1 hu
      exact proper_ok (Value.whole_struct.1 (hv.whole rfl) m (List.mem_of_find?_eq_some hm))
    · exact proper_error _
  | _ => exact proper_error _

/-! ## Vectors, matrices and lists -/

theorem proper_concat : Proper (vs.any Value.isInvalid = false) (Value.concat vs) := by
  unfold Value.concat
  split
  · next h => exact proper_invalid (by rw [h]; decide)
  split
  · exact proper_ok rfl
  split
  · exact proper_ok rfl
  · exact proper_ok rfl
  · exact proper_map fun _ => rfl

theorem proper_joinRows {columns : Nat} : Proper valid (Value.joinRows vs columns) := by
  unfold Value.joinRows
  split
  · exact proper_ok rfl
  · exact proper_map fun _ => rfl

/-- Rows of valid items are joined, or something is at fault. -/
theorem concatRows_ne_none {rows : List (List Value)}
    (h : ∀ row ∈ rows, row.any Value.isInvalid = false) : Value.concatRows rows ≠ .ok none := by
  induction rows with
  | nil => exact fun h => by cases h
  | cons row rows ih =>
    rw [Value.concatRows]
    split
    · exact fun h => by cases h
    next v hv =>
    have hvalid := Value.isInvalid_of_whole ((proper_concat v hv).2 (h row (.head _)))
    rw [hvalid, if_neg (by decide)]
    have ih := ih fun r hr => h r (.tail _ hr)
    rcases hr : Value.concatRows rows with f | (- | vs)
    · exact fun h => by cases h
    · exact absurd hr ih
    · exact fun h => by cases h

theorem proper_ofRows {rows : List (List Value)} :
    Proper (∀ row ∈ rows, row.any Value.isInvalid = false) (Value.ofRows rows) := by
  unfold Value.ofRows
  split
  · exact proper_error _
  · next h => exact proper_invalid fun hrows => concatRows_ne_none hrows h
  · dsimp only
    split
    · exact proper_error _
    · exact proper_joinRows

/-! ## Writing -/

theorem whole_setPositions {ks : List Nat} {fault : Fault} (hv : v.whole) (hw : w.whole) :
    (v.setPositions ks w fault).1.whole := by
  cases v with
  | list items =>
    unfold Value.setPositions
    dsimp only
    split
    · next xs hxs =>
      refine Value.whole_list.2 (forall_assignInto (by simp [whole]) (Value.whole_list.1 hv) ?_)
      split at hxs
      · exact Value.deep_whole.of_items? hw hxs
      · cases hxs
        simpa using hw
    · exact hv
  | numberVector v | boolVector v | stringVector v | numberMatrix v n | boolMatrix v n =>
    unfold Value.setPositions
    dsimp only
    split <;> rfl
  | _ => exact hv

/-- **Writing elements** into a whole value leaves it whole. -/
theorem whole_setElements (hv : v.whole) (hu : u.whole) : (v.setElements w u).1.whole := by
  unfold Value.setElements
  dsimp only
  split
  · exact hv
  split
  · exact hv
  · exact hv
  · refine whole_setPositions ?_ hu
    cases v with
    | bool b | number x => rfl
    | _ => exact hv

end Proper

end FormulaLang
