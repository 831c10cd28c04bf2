import FormulaLang.Proofs.Value.Deep
import FormulaLang.Value.Elementwise

/-!
# Shaped values

A matrix is stored as its data and a number of columns, which must fit together. A value is shaped if
that is so for every matrix in it. Operations on shaped values give shaped values.

* `Value.shaped`, `Operand.Shaped`: values and operands whose matrices are in shape.
* `ShapedResult`: every value of a result is shaped.
* `shaped_binary`, `shaped_compare`, `shaped_logical`, `shaped_unary`, `shaped_index`,
  `shaped_member`, `shaped_ofRows`: the operations.
* **`shaped_setElements`**: writing elements.
-/

namespace FormulaLang

/-! ## Columns -/

theorem fitsColumns_mul (rows columns : Nat) : fitsColumns (rows * columns) columns := by
  unfold fitsColumns
  split
  · next h => simp [h]
  · simp

namespace Value

mutual

/-- The columns of every matrix in the value fit its data. -/
def shaped : Value → Bool
  | boolMatrix data columns => fitsColumns data.length columns
  | numberMatrix data columns => fitsColumns data.length columns
  | list items => shapedItems items
  | struct members => shapedMembers members
  | _ => true

def shapedItems : List Value → Bool
  | [] => true
  | v :: vs => shaped v && shapedItems vs

def shapedMembers : List (String × Value) → Bool
  | [] => true
  | (_, v) :: ms => shaped v && shapedMembers ms

end

variable {v w u : Value} {vs : List Value} {ms : Members}

theorem shapedItems_iff : shapedItems vs ↔ ∀ v ∈ vs, v.shaped := by
  induction vs with
  | nil => simp [shapedItems]
  | cons v vs ih => simp [shapedItems, ih]

theorem shapedMembers_iff : shapedMembers ms ↔ ∀ m ∈ ms, m.2.shaped := by
  induction ms with
  | nil => simp [shapedMembers]
  | cons m ms ih =>
    obtain ⟨n, v⟩ := m
    simp only [shapedMembers, Bool.and_eq_true, ih, List.forall_mem_cons]

theorem shaped_list : (list vs).shaped ↔ ∀ v ∈ vs, v.shaped := by
  rw [shaped, shapedItems_iff]

theorem shaped_struct : (struct ms).shaped ↔ ∀ m ∈ ms, m.2.shaped := by
  rw [shaped, shapedMembers_iff]

theorem deep_shaped : Deep fun v => v.shaped where
  plain {v} h := by
    cases v with
    | boolMatrix | numberMatrix | list items | struct ms => cases h
    | _ => rfl
  list := shaped_list
  struct := shaped_struct

end Value

/-! ## Operators -/

namespace Operand

variable {α β γ : Type} {x : Operand α} {y : Operand β}

/-- The columns of a matrix fit its data. -/
def Shaped : Operand α → Prop
  | scalar _ | vector _ => True
  | matrix data columns => fitsColumns data.length columns

theorem Shaped.map (h : x.Shaped) (f : α → β) : (x.map f).Shaped := by
  cases x with
  | scalar | vector => trivial
  | matrix data columns =>
    rw [Operand.map, Shaped, List.length_map]
    exact h

/-- Paired elements have the shape of the operand that is no scalar. -/
theorem shaped_zipWith {op : String} {f : α → β → γ} {z : Operand γ} (hx : x.Shaped)
    (hy : y.Shaped) (h : x.zipWith op f y = .ok z) : z.Shaped := by
  unfold zipWith at h
  split at h
  · cases h
    exact hy.map _
  · cases h
    exact hx.map _
  · split at h <;> cases h
    trivial
  · next data columns other columns' =>
    split at h
    · next hshape =>
      cases h
      rw [Shaped, List.length_zipWith, hshape.1, Nat.min_self, ← hshape.1]
      exact hx
    · cases h
  · cases h

end Operand

section Operators

variable {v w u : Value} {vs : List Value} {x : Operand Float} {b : Operand Bool}
  {s : Operand String}

theorem shaped_ofNumbers (h : x.Shaped) : (Value.ofNumbers x).shaped := by
  cases x with
  | scalar | vector => rfl
  | matrix data columns => exact h

theorem shaped_ofBools (h : b.Shaped) : (Value.ofBools b).shaped := by
  cases b with
  | scalar | vector => rfl
  | matrix data columns => exact h

theorem shaped_ofStrings : (Value.ofStrings s).shaped := by
  cases s <;> rfl

theorem shaped_of_numbers? (hv : v.shaped) (h : v.numbers? = some x) : x.Shaped := by
  cases v with
  | number | numberVector =>
    cases h
    trivial
  | numberMatrix data columns =>
    cases h
    exact hv
  | _ => cases h

theorem shaped_of_strictBools? (hv : v.shaped) (h : v.strictBools? = some b) : b.Shaped := by
  cases v with
  | bool | boolVector =>
    cases h
    trivial
  | boolMatrix data columns =>
    cases h
    exact hv
  | _ => cases h

theorem shaped_of_strings? (h : v.strings? = some s) : s.Shaped := by
  cases v with
  | string | stringVector =>
    cases h
    trivial
  | _ => cases h

theorem shaped_of_bools? (hv : v.shaped) (h : v.bools? = some b) : b.Shaped := by
  unfold Value.bools? at h
  split at h
  · next x hx =>
    cases h
    exact (shaped_of_numbers? hv hx).map _
  · exact shaped_of_strictBools? hv h

/-- Every value of a result is shaped. -/
def ShapedResult (r : Except Fault Value) : Prop := ∀ v, r = .ok v → v.shaped

theorem shapedResult_ok (h : v.shaped) : ShapedResult (.ok v) := by
  rintro _ ⟨⟩
  exact h

theorem shapedResult_error (f : Fault) : ShapedResult (.error f) := fun _ h => by cases h

theorem shapedResult_map {α : Type} {r : Except Fault α} {f : α → Value}
    (h : ∀ a, r = .ok a → (f a).shaped) : ShapedResult (r.map f) := by
  cases r with
  | ok a => exact shapedResult_ok (h a rfl)
  | error e => exact shapedResult_error e

theorem shaped_of_mapNumbers? {f : Float → Float} (hv : v.shaped) (h : v.mapNumbers? f = some w) :
    w.shaped := by
  obtain ⟨x, hx, rfl⟩ := Option.map_eq_some_iff.1 h
  exact shaped_ofNumbers ((shaped_of_numbers? hv hx).map f)

theorem shaped_unary {op : UnaryOp} (hv : v.shaped) : ShapedResult (v.unary op) := by
  unfold Value.unary
  split
  · exact shapedResult_ok rfl
  dsimp only
  split
  · next u hu =>
    refine shapedResult_ok ?_
    cases op with
    | neg => exact shaped_of_mapNumbers? hv hu
    | bitNot => exact shaped_of_mapNumbers? hv hu
    | not =>
      obtain ⟨b, hb, rfl⟩ := Option.map_eq_some_iff.1 hu
      exact shaped_ofBools ((shaped_of_bools? hv hb).map _)
  · exact shapedResult_error _

variable (hv : v.shaped) (hw : w.shaped)

include hv hw

theorem shaped_arithmetic {op : String} {f : Float → Float → Float} :
    ShapedResult (v.arithmetic op f w) := by
  unfold Value.arithmetic
  split
  · next x y hx hy =>
    exact shapedResult_map fun z hz => shaped_ofNumbers <|
      Operand.shaped_zipWith (shaped_of_numbers? hv hx) (shaped_of_numbers? hw hy) hz
  · exact shapedResult_error _

theorem shaped_binary {op : BinaryOp} : ShapedResult (v.binary op w) := by
  unfold Value.binary
  split
  · exact shapedResult_ok rfl
  split
  · exact shapedResult_map fun _ _ => shaped_ofStrings
  · exact shaped_arithmetic hv hw

theorem shaped_compareOther {op : CompareOp} : ShapedResult (v.compareOther op w) := by
  unfold Value.compareOther
  cases op with
  | eq | ne =>
    dsimp only
    split
    · next x y hx hy =>
      exact shapedResult_map fun z hz => shaped_ofBools <|
        Operand.shaped_zipWith (shaped_of_strictBools? hv hx) (shaped_of_strictBools? hw hy) hz
    · split
      · exact shapedResult_ok rfl
      · exact shapedResult_error _
  | _ => exact shapedResult_error _

theorem shaped_compare {op : CompareOp} : ShapedResult (v.compare op w) := by
  unfold Value.compare
  split
  · exact shapedResult_ok rfl
  split
  · next x y hx hy =>
    exact shapedResult_map fun z hz => shaped_ofBools <|
      Operand.shaped_zipWith (shaped_of_numbers? hv hx) (shaped_of_numbers? hw hy) hz
  split
  · next x y hx hy =>
    exact shapedResult_map fun z hz => shaped_ofBools <|
      Operand.shaped_zipWith (shaped_of_strings? hx) (shaped_of_strings? hy) hz
  · exact shaped_compareOther hv hw

theorem shaped_logical {op : LogicalOp} : ShapedResult (v.logical op w) := by
  unfold Value.logical
  split
  · exact shapedResult_ok rfl
  split
  · next x y hx hy =>
    exact shapedResult_map fun z hz => shaped_ofBools <|
      Operand.shaped_zipWith (shaped_of_bools? hv hx) (shaped_of_bools? hw hy) hz
  · exact shapedResult_error _

theorem shaped_zipNumbers {name : String} {f : Float → Float → Float} :
    ShapedResult (v.zipNumbers name f w) := by
  unfold Value.zipNumbers
  split
  · exact shapedResult_ok rfl
  · exact shaped_arithmetic hv hw

end Operators

/-! ## Elements -/

section Elements

variable {v w u : Value} {vs : List Value}

theorem shaped_gatherAt {length : Nat} {ks : List Nat} {fault : Fault} (hv : v.shaped) :
    ShapedResult (v.gatherAt length ks fault) := by
  unfold Value.gatherAt
  split
  · exact shapedResult_error _
  split
  · next u hu => exact shapedResult_ok (Value.deep_shaped.of_select? hv hu)
  · exact shapedResult_error _

theorem shaped_index (hv : v.shaped) : ShapedResult (v.index w) := by
  unfold Value.index
  split
  · exact shapedResult_ok rfl
  dsimp only
  split
  · exact shapedResult_error _
  split
  · split
    · exact shapedResult_error _
    · split
      · next u hu => exact shapedResult_ok (Value.deep_shaped.of_element? hv hu)
      · exact shapedResult_error _
  · split
    · exact shapedResult_error _
    · exact shapedResult_error _
    · exact shaped_gatherAt hv

theorem shaped_member {name : String} (hv : v.shaped) : ShapedResult (v.member name) := by
  cases v with
  | invalid => exact shapedResult_ok rfl
  | struct ms =>
    rw [Value.member]
    split
    · next u hu =>
      obtain ⟨m, hm, rfl⟩ := Option.map_eq_some_iff.1 hu
      exact shapedResult_ok (Value.shaped_struct.1 hv m (List.mem_of_find?_eq_some hm))
    · exact shapedResult_error _
  | _ => exact shapedResult_error _

/-! ## Vectors and matrices -/

theorem shaped_concat : ShapedResult (Value.concat vs) := by
  unfold Value.concat
  split
  · exact shapedResult_ok rfl
  split
  · exact shapedResult_ok rfl
  split
  · exact shapedResult_ok rfl
  · exact shapedResult_ok rfl
  · exact shapedResult_map fun _ _ => rfl

theorem forall_of_mapM_some {α β : Type} {f : α → Option β} {P : β → Prop} {xs : List α}
    {ys : List β} (hf : ∀ a ∈ xs, ∀ b, f a = some b → P b) (h : xs.mapM f = some ys) :
    ∀ b ∈ ys, P b := by
  induction xs generalizing ys with
  | nil =>
    cases h
    simp
  | cons a xs ih =>
    rw [List.mapM_cons] at h
    obtain ⟨b, hb, h⟩ := Option.bind_eq_some_iff.1 h
    obtain ⟨bs, hbs, h⟩ := Option.bind_eq_some_iff.1 h
    cases h
    obtain ⟨ha, hxs⟩ := List.forall_mem_cons.1 hf
    exact List.forall_mem_cons.2 ⟨ha b hb, ih hxs hbs⟩

theorem forall_of_mapM_ok {α β ε : Type} {f : α → Except ε β} {P : β → Prop} {xs : List α}
    {ys : List β} (hf : ∀ a ∈ xs, ∀ b, f a = .ok b → P b) (h : xs.mapM f = .ok ys) :
    ∀ b ∈ ys, P b := by
  induction xs generalizing ys with
  | nil =>
    cases h
    simp
  | cons a xs ih =>
    obtain ⟨ha, hxs⟩ := List.forall_mem_cons.1 hf
    rw [List.mapM_cons] at h
    cases hb : f a with
    | error e =>
      rw [hb] at h
      cases h
    | ok b =>
      cases hbs : xs.mapM f with
      | error e =>
        rw [hb, hbs] at h
        cases h
      | ok bs =>
        rw [hb, hbs] at h
        cases h
        exact List.forall_mem_cons.2 ⟨ha b hb, ih hxs hbs⟩

/-- A row adds as many numbers as it has elements. -/
theorem length_numberPart {part : List Float} (h : v.numberPart = .ok part) :
    part.length = v.length := by
  cases v with
  | number | bool | numberVector | numberMatrix =>
    cases h
    rfl
  | boolVector | boolMatrix =>
    cases h
    exact List.length_map _
  | _ => cases h

theorem length_boolRow? {part : List Bool} (h : v.boolRow? = some part) :
    part.length = v.length := by
  cases v with
  | boolVector =>
    cases h
    rfl
  | _ => cases h

/-- Rows of one length fill a matrix. -/
theorem fitsColumns_flatten {α : Type} {parts : List (List α)} {columns : Nat}
    (h : ∀ part ∈ parts, part.length = columns) : fitsColumns parts.flatten.length columns := by
  rw [List.length_flatten, List.map_congr_left h, List.map_const', List.sum_replicate_nat]
  exact fitsColumns_mul _ _

theorem shaped_joinRows {rows : List Value} {columns : Nat}
    (h : ∀ row ∈ rows, row.length = columns) : ShapedResult (Value.joinRows rows columns) := by
  unfold Value.joinRows
  split
  · next parts hparts =>
    exact shapedResult_ok <| fitsColumns_flatten <| forall_of_mapM_some
      (fun row hrow part hpart => (length_boolRow? hpart).trans (h row hrow)) hparts
  · exact shapedResult_map fun parts hparts => fitsColumns_flatten <| forall_of_mapM_ok
      (fun row hrow part hpart => (length_numberPart hpart).trans (h row hrow)) hparts

theorem shaped_ofRows {rows : List (List Value)} : ShapedResult (Value.ofRows rows) := by
  unfold Value.ofRows
  split
  · exact shapedResult_error _
  · exact shapedResult_ok rfl
  dsimp only
  split
  · exact shapedResult_error _
  · next rows _ _ hfind =>
    exact shaped_joinRows fun row hrow => by simpa using List.find?_eq_none.1 hfind row hrow

/-! ## Writing -/

/-- Without a fill, writing keeps the size. -/
theorem size_writeAll {α : Type} (data : Array α) (pairs : List (Nat × α)) :
    (writeAll none data pairs).1.size = data.size := by
  induction pairs generalizing data with
  | nil => rfl
  | cons p pairs ih =>
    rw [writeAll.eq_def]
    dsimp only
    split
    · rw [ih, Array.size_setIfInBounds]
    · rfl

theorem length_assignInto {α : Type} (data : List α) (ks : List Nat) (xs : List α) :
    (assignInto none data ks xs).1.length = data.length := by
  unfold assignInto
  dsimp only
  split
  · simp [size_writeAll]
  · split
    · simp [size_writeAll]
    · rfl

theorem shaped_setPositions {ks : List Nat} {fault : Fault} (hv : v.shaped) (hw : w.shaped) :
    (v.setPositions ks w fault).1.shaped := by
  cases v with
  | list items =>
    unfold Value.setPositions
    dsimp only
    split
    · next xs hxs =>
      refine Value.shaped_list.2 (forall_assignInto (by simp [Value.shaped])
        (Value.shaped_list.1 hv) ?_)
      split at hxs
      · exact Value.deep_shaped.of_items? hw hxs
      · cases hxs
        simpa using hw
    · exact hv
  | numberMatrix data columns | boolMatrix data columns =>
    unfold Value.setPositions
    dsimp only
    split
    · rw [Value.shaped, length_assignInto]
      exact hv
    · exact hv
  | numberVector v | boolVector v | stringVector v =>
    unfold Value.setPositions
    dsimp only
    split <;> rfl
  | _ => exact hv

/-- **Writing elements** keeps a matrix in shape, also where the write fails half-way. -/
theorem shaped_setElements (hv : v.shaped) (hu : u.shaped) : (v.setElements w u).1.shaped := by
  unfold Value.setElements
  dsimp only
  split
  · exact hv
  split
  · exact hv
  · exact hv
  · refine shaped_setPositions ?_ hu
    cases v with
    | bool b | number x => rfl
    | _ => exact hv

end Elements

end FormulaLang
