import FormulaLang.Proofs.Value.Selection
import FormulaLang.Value.Elementwise

/-!
# Elementwise operators and their elements

An operator whose result is a vector or a matrix works element by element: a part of the result is
what the operator makes of the parts of its operands, where a scalar takes part as a whole.

* `Arrangement`, `Value.arrangement?`: scalars, vectors and matrices.
* `Value.part?`, `Value.partAt`: what takes part at selected positions, and at an index.
* `Operand.pick?`, **`Operand.zipWith_pick?`**: parts of paired elements.
* `View`, `KeepsParts`, `BuildsParts`: values that are read as operands, and operands that become
  values.
* `Way`, `Pairs`, `Way.pairs`: what an operator does with operands, and with their parts.
* `ElementOp.pairs`, `maps_unary`: all operators.
* **`elementwise_parts`**: parts of results are results of parts.
-/

namespace FormulaLang

variable {α β γ : Type} {a b r : Value} {p : Selection}

/-! ## Arrangements -/

/-- How elements are arranged. A matrix has its length and its number of columns. -/
inductive Arrangement where
  | scalar
  | vector (length : Nat)
  | matrix (length columns : Nat)
  deriving DecidableEq

namespace Value

/-- The arrangement of what has elements that are numbers, truth values or strings. -/
def arrangement? : Value → Option Arrangement
  | bool _ | number _ | string _ => some .scalar
  | boolVector v => some (.vector v.length)
  | numberVector v => some (.vector v.length)
  | stringVector v => some (.vector v.length)
  | boolMatrix v columns => some (.matrix v.length columns)
  | numberMatrix v columns => some (.matrix v.length columns)
  | void | invalid | list _ | struct _ => none

/-- A vector or a matrix. -/
def IsArray (a : Value) : Prop := ∃ s, a.arrangement? = some s ∧ s ≠ .scalar

/-- What takes part at the selected positions: of a scalar everything. -/
def part? (a : Value) (p : Selection) : Option Value :=
  if a.arrangement? = some .scalar then some a else a.pick? p

/-- What takes part at an index. -/
def partAt (a i : Value) : Except Fault Value :=
  if a.arrangement? = some .scalar then .ok a else a.index i

end Value

/-! ## Operands -/

namespace Operand

variable {op : String} {f : α → β → γ} {x : Operand α} {y : Operand β} {z : Operand γ}

def arrangement : Operand α → Arrangement
  | scalar _ => .scalar
  | vector v => .vector v.length
  | matrix v columns => .matrix v.length columns

/-- What takes part at the selected positions. -/
def pick? : Operand α → Selection → Option (Operand α)
  | scalar x, _ => some (scalar x)
  | vector v, .one k | matrix v _, .one k => v[k]?.map scalar
  | vector v, .several ks | matrix v _, .several ks => some (vector (Value.gather v ks))

theorem map_pick? (f : α → γ) (x : Operand α) (p : Selection) :
    (x.map f).pick? p = (x.pick? p).map (map f) := by
  cases x with
  | scalar => rfl
  | vector v | matrix v =>
    cases p with
    | one k =>
      simp only [map, pick?, List.getElem?_map]
      cases v[k]? <;> rfl
    | several ks =>
      simp only [map, pick?, Value.gather_map]
      rfl

theorem exists_pick? (x : Operand α) (hp : p.Below x.length) : ∃ x', x.pick? p = some x' := by
  cases x with
  | scalar x => exact ⟨_, rfl⟩
  | vector v | matrix v =>
    cases p with
    | one k =>
      have hk : k < v.length := hp
      exact ⟨.scalar v[k], by simp [pick?, hk]⟩
    | several ks => exact ⟨_, rfl⟩

/-- Parts of two lists of one length are paired like the lists. -/
theorem zipWith_pick?_vector {xs : List α} {ys : List β} (hlength : xs.length = ys.length)
    (hp : p.Below xs.length) : ∃ x' y' z', (vector xs).pick? p = some x' ∧
      (vector ys).pick? p = some y' ∧ (vector (xs.zipWith f ys)).pick? p = some z' ∧
      x'.zipWith op f y' = .ok z' := by
  cases p with
  | one k =>
    have hk : k < xs.length := hp
    have hk' : k < ys.length := hlength ▸ hk
    have hlt : k < (xs.zipWith f ys).length := by
      rw [List.length_zipWith]
      omega
    refine ⟨.scalar xs[k], .scalar ys[k], .scalar (f xs[k] ys[k]), ?_, ?_, ?_, rfl⟩
    · simp [pick?, hk]
    · simp [pick?, hk']
    · rw [pick?, List.getElem?_eq_getElem hlt, List.getElem_zipWith]
      rfl
  | several ks =>
    have hx : ∀ k ∈ ks, k < xs.length := hp
    have hy : ∀ k ∈ ks, k < ys.length := hlength ▸ hx
    refine ⟨_, _, _, rfl, rfl, rfl, ?_⟩
    rw [Value.gather_zipWith f hx hy, zipWith, if_pos]
    rw [Value.length_gather hx, Value.length_gather hy]

theorem pick?_matrix (v : List α) (columns : Nat) (p : Selection) :
    (matrix v columns).pick? p = (vector v).pick? p := by
  cases p <;> rfl

theorem length_map (f : α → γ) (x : Operand α) : (x.map f).length = x.length := by
  cases x <;> simp [map, length]

theorem arrangement_map (f : α → γ) (x : Operand α) : (x.map f).arrangement = x.arrangement := by
  cases x <;> simp [map, arrangement]

/-- What elements are paired with. -/
theorem zipWith_cases (h : x.zipWith op f y = .ok z) :
    (∃ e, x = scalar e ∧ z = y.map (f e)) ∨ (∃ e, y = scalar e ∧ z = x.map (f · e)) ∨
      (∃ xs ys, x = vector xs ∧ y = vector ys ∧ xs.length = ys.length ∧
        z = vector (xs.zipWith f ys)) ∨
      ∃ xs ys columns, x = matrix xs columns ∧ y = matrix ys columns ∧ xs.length = ys.length ∧
        z = matrix (xs.zipWith f ys) columns := by
  cases x with
  | scalar e =>
    cases h
    exact .inl ⟨e, rfl, rfl⟩
  | vector xs =>
    cases y with
    | scalar e =>
      cases h
      exact .inr (.inl ⟨e, rfl, rfl⟩)
    | vector ys =>
      rw [zipWith] at h
      split_ifs at h with hlength
      cases h
      exact .inr (.inr (.inl ⟨xs, ys, rfl, rfl, hlength, rfl⟩))
    | matrix => cases h
  | matrix xs columns =>
    cases y with
    | scalar e =>
      cases h
      exact .inr (.inl ⟨e, rfl, rfl⟩)
    | vector => cases h
    | matrix ys columns' =>
      rw [zipWith] at h
      split_ifs at h with hshape
      obtain ⟨hlength, rfl⟩ := hshape
      cases h
      exact .inr (.inr (.inr ⟨xs, ys, columns, rfl, rfl, hlength, rfl⟩))

/-- **Parts of paired elements** are the pairs of the parts. -/
theorem zipWith_pick? (h : x.zipWith op f y = .ok z) (hp : p.Below z.length) :
    ∃ x' y' z', x.pick? p = some x' ∧ y.pick? p = some y' ∧ z.pick? p = some z' ∧
      x'.zipWith op f y' = .ok z' := by
  rcases zipWith_cases h with ⟨e, rfl, rfl⟩ | ⟨e, rfl, rfl⟩ | ⟨xs, ys, rfl, rfl, hlength, rfl⟩ |
    ⟨xs, ys, columns, rfl, rfl, hlength, rfl⟩
  · rw [length_map] at hp
    obtain ⟨y', hy'⟩ := y.exists_pick? hp
    exact ⟨scalar e, y', y'.map (f e), rfl, hy', by rw [map_pick?, hy']; rfl, rfl⟩
  · rw [length_map] at hp
    obtain ⟨x', hx'⟩ := x.exists_pick? hp
    refine ⟨x', scalar e, x'.map (f · e), hx', rfl, by rw [map_pick?, hx']; rfl, ?_⟩
    cases x' <;> rfl
  · exact zipWith_pick?_vector hlength (by simpa [length, hlength] using hp)
  · simp only [pick?_matrix]
    exact zipWith_pick?_vector hlength (by simpa [length, hlength] using hp)

/-- Paired elements are arranged as each operand that is no scalar. -/
theorem arrangement_zipWith (h : x.zipWith op f y = .ok z) :
    (x.arrangement = .scalar ∨ x.arrangement = z.arrangement) ∧
      (y.arrangement = .scalar ∨ y.arrangement = z.arrangement) := by
  rcases zipWith_cases h with ⟨e, rfl, rfl⟩ | ⟨e, rfl, rfl⟩ | ⟨xs, ys, rfl, rfl, hlength, rfl⟩ |
    ⟨xs, ys, columns, rfl, rfl, hlength, rfl⟩
  · exact ⟨.inl rfl, .inr (arrangement_map _ _).symm⟩
  · exact ⟨.inr (arrangement_map _ _).symm, .inl rfl⟩
  · exact ⟨.inr (by simp [arrangement, hlength]), .inr (by simp [arrangement, hlength])⟩
  · exact ⟨.inr (by simp [arrangement, hlength]), .inr (by simp [arrangement, hlength])⟩

end Operand

/-! ## Views -/

open Operand

/-- How operands become values: the elements of a vector or a matrix are the values of scalars, and
several elements make a vector. -/
structure BuildsParts (build : Operand α → Value) : Prop where
  element_vector : ∀ v k, (build (.vector v)).element? k = v[k]?.map (build ∘ .scalar)
  element_matrix : ∀ v n k, (build (.matrix v n)).element? k = v[k]?.map (build ∘ .scalar)
  select_vector : ∀ v ks,
    (build (.vector v)).select? ks = some (build (.vector (Value.gather v ks)))
  select_matrix : ∀ v n ks,
    (build (.matrix v n)).select? ks = some (build (.vector (Value.gather v ks)))

theorem buildsParts_numbers : BuildsParts Value.ofNumbers :=
  ⟨fun _ _ => rfl, fun _ _ _ => rfl, fun _ _ => rfl, fun _ _ _ => rfl⟩

theorem buildsParts_bools : BuildsParts Value.ofBools :=
  ⟨fun _ _ => rfl, fun _ _ _ => rfl, fun _ _ => rfl, fun _ _ _ => rfl⟩

theorem buildsParts_strings : BuildsParts Value.ofStrings :=
  ⟨fun _ _ => rfl, fun _ _ _ => rfl, fun _ _ => rfl, fun _ _ _ => rfl⟩

theorem arrangement_ofNumbers (x : Operand Float) :
    (Value.ofNumbers x).arrangement? = some x.arrangement := by
  cases x <;> rfl

theorem arrangement_ofBools (x : Operand Bool) :
    (Value.ofBools x).arrangement? = some x.arrangement := by
  cases x <;> rfl

theorem BuildsParts.pick? {build : Operand α → Value} (h : BuildsParts build) {x : Operand α}
    (p : Selection) (hx : x.arrangement ≠ .scalar) :
    (build x).pick? p = (x.pick? p).map build := by
  cases x with
  | scalar => exact absurd rfl hx
  | vector v =>
    cases p with
    | one k => exact (h.element_vector v k).trans (Option.map_map _ _ _).symm
    | several ks => exact h.select_vector v ks
  | matrix v n =>
    cases p with
    | one k => exact (h.element_matrix v n k).trans (Option.map_map _ _ _).symm
    | several ks => exact h.select_matrix v n ks

/-- A view of some values as operands, whose values are built again. Strings have no matrices, so a
view need not read back a matrix. -/
structure View (read : Value → Option (Operand α)) (build : Operand α → Value) : Prop where
  buildsParts : BuildsParts build
  eq_build : ∀ {a x}, read a = some x → a = build x
  read_scalar : ∀ e, read (build (.scalar e)) = some (.scalar e)
  read_vector : ∀ v, read (build (.vector v)) = some (.vector v)
  arrangement : ∀ {a x}, read a = some x → a.arrangement? = some x.arrangement

theorem view_numbers : View Value.numbers? Value.ofNumbers where
  buildsParts := buildsParts_numbers
  eq_build {a x} h := by cases a <;> cases h <;> rfl
  read_scalar _ := rfl
  read_vector _ := rfl
  arrangement {a x} h := by cases a <;> cases h <;> rfl

theorem view_strictBools : View Value.strictBools? Value.ofBools where
  buildsParts := buildsParts_bools
  eq_build {a x} h := by cases a <;> cases h <;> rfl
  read_scalar _ := rfl
  read_vector _ := rfl
  arrangement {a x} h := by cases a <;> cases h <;> rfl

theorem view_strings : View Value.strings? Value.ofStrings where
  buildsParts := buildsParts_strings
  eq_build {a x} h := by cases a <;> cases h <;> rfl
  read_scalar _ := rfl
  read_vector _ := rfl
  arrangement {a x} h := by cases a <;> cases h <;> rfl

/-- Reading values as operands keeps arrangements and parts. -/
structure KeepsParts (read : Value → Option (Operand α)) : Prop where
  arrangement : ∀ {a x}, read a = some x → a.arrangement? = some x.arrangement
  part : ∀ {a x x'} {p : Selection}, read a = some x → x.pick? p = some x' →
    ∃ v, a.part? p = some v ∧ read v = some x'

theorem View.keepsParts {read : Value → Option (Operand α)} {build : Operand α → Value}
    (h : View read build) : KeepsParts read where
  arrangement := h.arrangement
  part {a x x' p} ha hx' := by
    have harrangement := h.arrangement ha
    by_cases hx : x.arrangement = .scalar
    · cases x with
      | scalar e =>
        cases hx'
        exact ⟨a, if_pos harrangement, ha⟩
      | _ => cases hx
    · have hpart : a.part? p = some (build x') := by
        have hscalar : a.arrangement? ≠ some .scalar := by simpa [harrangement] using hx
        rw [Value.part?, if_neg hscalar, h.eq_build ha, h.buildsParts.pick? p hx, hx']
        rfl
      -- What is picked from a vector or a matrix is a scalar or a vector.
      have hread : read (build x') = some x' := by
        cases x with
        | scalar => exact absurd rfl hx
        | vector v | matrix v =>
          cases p with
          | one k =>
            obtain ⟨e, -, rfl⟩ := Option.map_eq_some_iff.1 hx'
            exact h.read_scalar e
          | several ks =>
            cases hx'
            exact h.read_vector _
      exact ⟨_, hpart, hread⟩

/-- Numbers may stand for truth values. -/
theorem keepsParts_bools : KeepsParts Value.bools? where
  arrangement {a b} h := by
    unfold Value.bools? at h
    cases hn : a.numbers? with
    | some x =>
      rw [hn] at h
      cases h
      rw [view_numbers.arrangement hn, arrangement_map]
    | none =>
      rw [hn] at h
      exact view_strictBools.arrangement h
  part {a b b' p} h hb' := by
    unfold Value.bools? at h
    cases hn : a.numbers? with
    | some x =>
      rw [hn] at h
      cases h
      rw [map_pick?] at hb'
      obtain ⟨x', hx', rfl⟩ := Option.map_eq_some_iff.1 hb'
      obtain ⟨v, hv, hread⟩ := view_numbers.keepsParts.part hn hx'
      exact ⟨v, hv, by rw [Value.bools?, hread]⟩
    | none =>
      rw [hn] at h
      obtain ⟨v, hv, hread⟩ := view_strictBools.keepsParts.part h hb'
      have hnumbers : v.numbers? = none := by cases v <;> first | rfl | cases hread
      exact ⟨v, hv, by rw [Value.bools?, hnumbers, hread]⟩

/-! ## Pairs of parts -/

/-- An operator with two operands that are read as numbers, truth values or strings, and what it
does with elements. -/
structure Way (apply : Value → Value → Except Fault Value) where
  {α γ : Type}
  symbol : String
  onElements : α → α → γ
  read : Value → Option (Operand α)
  build : Operand γ → Value
  keepsParts : KeepsParts read
  buildsParts : BuildsParts build
  arrangement_build : ∀ {a b x y z}, read a = some x → read b = some y →
    x.zipWith symbol onElements y = .ok z → (build z).arrangement? = some z.arrangement
  apply_eq : ∀ {a b x y}, read a = some x → read b = some y →
    apply a b = (x.zipWith symbol onElements y).map build

/-- A vector or matrix is as long as what it was built from. -/
theorem length_of_arrangement? {z : Operand γ} (h : a.arrangement? = some z.arrangement)
    (hz : z.arrangement ≠ .scalar) : a.length = z.length := by
  cases z with
  | scalar => exact absurd rfl hz
  | vector v | matrix v n =>
    cases a <;> simp_all [Value.arrangement?, arrangement, Value.length, length]

theorem exists_of_map_ok {f : α → β} {e : Except Fault α} {y : β} (h : e.map f = .ok y) :
    ∃ x, e = .ok x ∧ f x = y := by
  cases e with
  | error => cases h
  | ok x => exact ⟨x, rfl, Except.ok.inj h⟩

theorem length_congr (h : a.arrangement? = r.arrangement?) (hr : r.IsArray) :
    a.length = r.length := by
  obtain ⟨s, hs, hne⟩ := hr
  rw [hs] at h
  cases r <;> cases hs <;> first | exact absurd rfl hne | skip
  all_goals cases a <;> simp_all [Value.arrangement?, Value.length]

/-- An index in range gives the parts at its positions. -/
theorem partAt_of_part? {i x : Value}
    (ha : a.arrangement? = some .scalar ∨ a.arrangement? = r.arrangement?) (hr : r.IsArray)
    (hi : i.Selects r.length p) (hp : p.Below r.length) (h : a.part? p = some x) :
    a.partAt i = .ok x := by
  unfold Value.part? at h
  unfold Value.partAt
  split_ifs at h ⊢ with hscalar
  · exact congrArg Except.ok (Option.some.inj h)
  · rw [← length_congr (ha.resolve_left hscalar) hr] at hi hp
    exact Value.index_of_selects hi hp h

/-- A vector or matrix `r` whose parts are what an operator makes of the parts of `a` and `b`. -/
structure Pairs (apply : Value → Value → Except Fault Value) (a b r : Value) : Prop where
  left : a.arrangement? = some .scalar ∨ a.arrangement? = r.arrangement?
  right : b.arrangement? = some .scalar ∨ b.arrangement? = r.arrangement?
  part : ∀ p : Selection, p.Below r.length → ∃ x y v, a.part? p = some x ∧ b.part? p = some y ∧
    r.pick? p = some v ∧ apply x y = .ok v

theorem Pairs.index {apply : Value → Value → Except Fault Value} {i : Value}
    (h : Pairs apply a b r) (hr : r.IsArray) (hi : i.Selects r.length p) (hp : p.Below r.length) :
    ∃ x y v, a.partAt i = .ok x ∧ b.partAt i = .ok y ∧ r.index i = .ok v ∧ apply x y = .ok v := by
  obtain ⟨x, y, v, hx, hy, hv, hxy⟩ := h.part p hp
  exact ⟨x, y, v, partAt_of_part? h.left hr hi hp hx, partAt_of_part? h.right hr hi hp hy,
    Value.index_of_selects hi hp hv, hxy⟩

/-- What works element by element pairs parts. -/
theorem Way.pairs {apply : Value → Value → Except Fault Value} (w : Way apply)
    {x y : Operand w.α} (hx : w.read a = some x) (hy : w.read b = some y)
    (h : apply a b = .ok r) (hr : r.IsArray) : Pairs apply a b r := by
  rw [w.apply_eq hx hy] at h
  obtain ⟨z, hz, rfl⟩ := exists_of_map_ok h
  have harrangement := w.arrangement_build hx hy hz
  have hscalar : z.arrangement ≠ .scalar := by
    obtain ⟨s, hs, hne⟩ := hr
    rw [harrangement] at hs
    cases hs
    exact hne
  obtain ⟨hleft, hright⟩ := arrangement_zipWith hz
  refine ⟨?_, ?_, fun p hp => ?_⟩
  · rw [w.keepsParts.arrangement hx, harrangement]
    exact hleft.imp (congrArg some) (congrArg some)
  · rw [w.keepsParts.arrangement hy, harrangement]
    exact hright.imp (congrArg some) (congrArg some)
  · rw [length_of_arrangement? harrangement hscalar] at hp
    obtain ⟨x', y', z', hx', hy', hz', hzip⟩ := zipWith_pick? hz hp
    obtain ⟨u, hu, hread⟩ := w.keepsParts.part hx hx'
    obtain ⟨v, hv, hread'⟩ := w.keepsParts.part hy hy'
    refine ⟨u, v, w.build z', hu, hv, ?_, ?_⟩
    · rw [w.buildsParts.pick? p hscalar, hz']
      rfl
    · rw [w.apply_eq hread hread', hzip]
      rfl

/-! ## Ways of the operators -/

section Reading

variable {x : Operand Float} {s : Operand String} {c : Operand Bool}

theorem of_numbers? (h : a.numbers? = some x) :
    a.isInvalid = false ∧ a.strings? = none ∧ a.strictBools? = none := by
  cases a <;> first | exact ⟨rfl, rfl, rfl⟩ | cases h

theorem of_strings? (h : a.strings? = some s) :
    a.isInvalid = false ∧ a.numbers? = none ∧ a.strictBools? = none := by
  cases a <;> first | exact ⟨rfl, rfl, rfl⟩ | cases h

theorem of_strictBools? (h : a.strictBools? = some c) :
    a.isInvalid = false ∧ a.numbers? = none ∧ a.strings? = none := by
  cases a <;> first | exact ⟨rfl, rfl, rfl⟩ | cases h

theorem isInvalid_of_bools? (h : a.bools? = some c) : a.isInvalid = false := by
  cases a <;> first | rfl | cases h

end Reading

/-- Arithmetic on numbers. -/
def arithmeticWay (op : BinaryOp) : Way fun a b => a.binary op b where
  symbol := op.symbol
  onElements := op.apply
  read := Value.numbers?
  build := Value.ofNumbers
  keepsParts := view_numbers.keepsParts
  buildsParts := buildsParts_numbers
  arrangement_build _ _ _ := arrangement_ofNumbers _
  apply_eq {a b x y} hx hy := by
    obtain ⟨ha, hs, -⟩ := of_numbers? hx
    obtain ⟨hb, -, -⟩ := of_numbers? hy
    simp only [Value.binary, ha, hb, Bool.or_self, Bool.false_eq_true, if_false, hs,
      Value.arithmetic, hx, hy]

/-- Joining strings. -/
def joinWay : Way fun a b => a.binary .add b where
  symbol := BinaryOp.add.symbol
  onElements := (· ++ ·)
  read := Value.strings?
  build := Value.ofStrings
  keepsParts := view_strings.keepsParts
  buildsParts := buildsParts_strings
  arrangement_build {a b x y z} hx hy hz := by
    -- Strings have no matrices.
    cases z with
    | matrix v n =>
      rcases zipWith_cases hz with ⟨e, rfl, hz⟩ | ⟨e, rfl, hz⟩ | ⟨_, _, _, _, _, hz⟩ |
        ⟨xs, ys, columns, rfl, _⟩
      · cases b <;> cases hy <;> cases hz
      · cases a <;> cases hx <;> cases hz
      · cases hz
      · cases a <;> cases hx
    | _ => rfl
  apply_eq {a b x y} hx hy := by
    obtain ⟨ha, -, -⟩ := of_strings? hx
    obtain ⟨hb, -, -⟩ := of_strings? hy
    simp only [Value.binary, ha, hb, Bool.or_self, Bool.false_eq_true, if_false, hx, hy]

/-- Comparing numbers. -/
def compareNumbersWay (op : CompareOp) : Way fun a b => a.compare op b where
  symbol := op.symbol
  onElements := op.onNumbers
  read := Value.numbers?
  build := Value.ofBools
  keepsParts := view_numbers.keepsParts
  buildsParts := buildsParts_bools
  arrangement_build _ _ _ := arrangement_ofBools _
  apply_eq {a b x y} hx hy := by
    obtain ⟨ha, -, -⟩ := of_numbers? hx
    obtain ⟨hb, -, -⟩ := of_numbers? hy
    simp only [Value.compare, ha, hb, Bool.or_self, Bool.false_eq_true, if_false, hx, hy]

/-- Comparing strings. -/
def compareStringsWay (op : CompareOp) : Way fun a b => a.compare op b where
  symbol := op.symbol
  onElements := op.onStrings
  read := Value.strings?
  build := Value.ofBools
  keepsParts := view_strings.keepsParts
  buildsParts := buildsParts_bools
  arrangement_build _ _ _ := arrangement_ofBools _
  apply_eq {a b x y} hx hy := by
    obtain ⟨ha, hn, -⟩ := of_strings? hx
    obtain ⟨hb, -, -⟩ := of_strings? hy
    simp only [Value.compare, ha, hb, Bool.or_self, Bool.false_eq_true, if_false, hn, hx, hy]

/-- Comparing truth values for equality. -/
def compareBoolsWay (op : CompareOp) (equality : Bool → Bool)
    (h : op = .eq ∧ equality = id ∨ op = .ne ∧ equality = not) :
    Way fun a b => a.compare op b where
  symbol := op.symbol
  onElements p q := equality (p == q)
  read := Value.strictBools?
  build := Value.ofBools
  keepsParts := view_strictBools.keepsParts
  buildsParts := buildsParts_bools
  arrangement_build _ _ _ := arrangement_ofBools _
  apply_eq {a b x y} hx hy := by
    obtain ⟨ha, hn, hs⟩ := of_strictBools? hx
    obtain ⟨hb, -, -⟩ := of_strictBools? hy
    rcases h with ⟨rfl, rfl⟩ | ⟨rfl, rfl⟩ <;>
    simp only [Value.compare, ha, hb, Bool.or_self, Bool.false_eq_true, if_false, hn, hs,
      Value.compareOther, hx, hy]

/-- Logical operators. -/
def logicalWay (op : LogicalOp) : Way fun a b => a.logical op b where
  symbol := op.symbol
  onElements := op.apply
  read := Value.bools?
  build := Value.ofBools
  keepsParts := keepsParts_bools
  buildsParts := buildsParts_bools
  arrangement_build _ _ _ := arrangement_ofBools _
  apply_eq {a b x y} hx hy := by
    simp only [Value.logical, isInvalid_of_bools? hx, isInvalid_of_bools? hy, Bool.or_self,
      Bool.false_eq_true, if_false, hx, hy]

/-! ## Two operands -/

theorem not_isArray_invalid : ¬ Value.invalid.IsArray := by
  rintro ⟨s, hs, -⟩
  cases hs

theorem pairs_arithmetic {op : BinaryOp} (h : a.binary op b = .ok r) (hr : r.IsArray)
    (ha : a.arithmetic op.symbol op.apply b = .ok r) : Pairs (fun a b => a.binary op b) a b r := by
  unfold Value.arithmetic at ha
  split at ha
  · next x y hx hy => exact (arithmeticWay op).pairs hx hy h hr
  · cases ha

theorem pairs_binary {op : BinaryOp} (h : a.binary op b = .ok r) (hr : r.IsArray) :
    Pairs (fun a b => a.binary op b) a b r := by
  have hvalue := h
  unfold Value.binary at hvalue
  split at hvalue
  · cases hvalue
    exact absurd hr not_isArray_invalid
  · cases op with
    | add =>
      split at hvalue
      · next x y hx hy => exact joinWay.pairs hx hy h hr
      · exact pairs_arithmetic h hr hvalue
    | _ => exact pairs_arithmetic h hr hvalue

theorem exists_strictBools? {op : CompareOp} (h : a.compareOther op b = .ok r) (hr : r.IsArray) :
    ∃ x y, a.strictBools? = some x ∧ b.strictBools? = some y := by
  have hscalar : ∀ c, ¬ (Value.bool c).IsArray := by
    rintro c ⟨s, hs, hne⟩
    cases hs
    exact hne rfl
  unfold Value.compareOther at h
  cases op with
  | eq | ne =>
    dsimp only at h
    split at h
    · next x y hx hy => exact ⟨x, y, hx, hy⟩
    · split_ifs at h
      cases h
      exact absurd hr (hscalar _)
  | _ => cases h

theorem pairs_compare {op : CompareOp} (h : a.compare op b = .ok r) (hr : r.IsArray) :
    Pairs (fun a b => a.compare op b) a b r := by
  have hvalue := h
  unfold Value.compare at hvalue
  split at hvalue
  · cases hvalue
    exact absurd hr not_isArray_invalid
  split at hvalue
  · next x y hx hy => exact (compareNumbersWay op).pairs hx hy h hr
  split at hvalue
  · next x y hx hy => exact (compareStringsWay op).pairs hx hy h hr
  · -- Apart from truth values, what is compared as a whole gives no vector.
    cases op with
    | eq =>
      obtain ⟨x, y, hx, hy⟩ := exists_strictBools? hvalue hr
      exact (compareBoolsWay .eq id (.inl ⟨rfl, rfl⟩)).pairs hx hy h hr
    | ne =>
      obtain ⟨x, y, hx, hy⟩ := exists_strictBools? hvalue hr
      exact (compareBoolsWay .ne not (.inr ⟨rfl, rfl⟩)).pairs hx hy h hr
    | _ => cases hvalue

theorem pairs_logical {op : LogicalOp} (h : a.logical op b = .ok r) (hr : r.IsArray) :
    Pairs (fun a b => a.logical op b) a b r := by
  have hvalue := h
  unfold Value.logical at hvalue
  split at hvalue
  · cases hvalue
    exact absurd hr not_isArray_invalid
  split at hvalue
  · next x y hx hy => exact (logicalWay op).pairs hx hy h hr
  · cases hvalue

/-! ## One operand -/

/-- A vector or matrix `r` whose parts are what an operator makes of the parts of `a`. -/
structure Maps (apply : Value → Except Fault Value) (a r : Value) : Prop where
  arrangement : a.arrangement? = r.arrangement?
  part : ∀ p : Selection, p.Below r.length → ∃ x v, a.part? p = some x ∧ r.pick? p = some v ∧
    apply x = .ok v

theorem Maps.index {apply : Value → Except Fault Value} {i : Value} (h : Maps apply a r)
    (hr : r.IsArray) (hi : i.Selects r.length p) (hp : p.Below r.length) :
    ∃ x v, a.partAt i = .ok x ∧ r.index i = .ok v ∧ apply x = .ok v := by
  obtain ⟨x, v, hx, hv, hxv⟩ := h.part p hp
  exact ⟨x, v, partAt_of_part? (.inr h.arrangement) hr hi hp hx, Value.index_of_selects hi hp hv,
    hxv⟩

/-- What works element by element maps parts. -/
theorem maps_of_keepsParts {apply : Value → Except Fault Value} {read : Value → Option (Operand α)}
    {build : Operand γ → Value} {f : α → γ} {x : Operand α} (hread : KeepsParts read)
    (hbuild : BuildsParts build)
    (harrangement : ∀ z, (build z).arrangement? = some z.arrangement)
    (happly : ∀ {a x}, read a = some x → apply a = .ok (build (x.map f)))
    (hx : read a = some x) (h : apply a = .ok r) (hr : r.IsArray) : Maps apply a r := by
  rw [happly hx] at h
  cases h
  have hscalar : (x.map f).arrangement ≠ .scalar := by
    obtain ⟨s, hs, hne⟩ := hr
    rw [harrangement] at hs
    cases hs
    exact hne
  refine ⟨?_, fun p hp => ?_⟩
  · rw [hread.arrangement hx, harrangement, arrangement_map]
  · rw [length_of_arrangement? (harrangement _) hscalar, length_map] at hp
    obtain ⟨x', hx'⟩ := x.exists_pick? hp
    obtain ⟨u, hu, hu'⟩ := hread.part hx hx'
    refine ⟨u, build (x'.map f), hu, ?_, happly hu'⟩
    rw [hbuild.pick? p hscalar, map_pick?, hx']
    rfl

theorem neg_of_numbers? {x : Operand Float} (hx : a.numbers? = some x) :
    a.unary .neg = .ok (Value.ofNumbers (x.map fun x => -x)) := by
  rw [Value.unary, (of_numbers? hx).1, Value.mapNumbers?, hx]
  rfl

theorem bitNot_of_numbers? {x : Operand Float} (hx : a.numbers? = some x) :
    a.unary .bitNot = .ok (Value.ofNumbers (x.map Number.bitNot)) := by
  rw [Value.unary, (of_numbers? hx).1]
  simp only [Value.mapNumbers?, hx]
  rfl

theorem not_of_bools? {x : Operand Bool} (hx : a.bools? = some x) :
    a.unary .not = .ok (Value.ofBools (x.map not)) := by
  rw [Value.unary, isInvalid_of_bools? hx]
  simp only [hx]
  rfl

theorem maps_unary {op : UnaryOp} (h : a.unary op = .ok r) (hr : r.IsArray) :
    Maps (fun a => a.unary op) a r := by
  have hvalue := h
  unfold Value.unary at hvalue
  split at hvalue
  · cases hvalue
    exact absurd hr not_isArray_invalid
  · cases op with
    | neg =>
      cases hx : a.numbers? with
      | none =>
        simp [Value.mapNumbers?, hx] at hvalue
      | some x =>
        exact maps_of_keepsParts view_numbers.keepsParts buildsParts_numbers arrangement_ofNumbers
          neg_of_numbers? hx h hr
    | bitNot =>
      cases hx : a.numbers? with
      | none =>
        simp [Value.mapNumbers?, hx] at hvalue
      | some x =>
        exact maps_of_keepsParts view_numbers.keepsParts buildsParts_numbers arrangement_ofNumbers
          bitNot_of_numbers? hx h hr
    | not =>
      cases hx : a.bools? with
      | none =>
        simp [hx] at hvalue
      | some x =>
        exact maps_of_keepsParts keepsParts_bools buildsParts_bools arrangement_ofBools
          not_of_bools? hx h hr

/-! ## All operators -/

/-- An operator with two operands. -/
inductive ElementOp where
  | binary (op : BinaryOp)
  | compare (op : CompareOp)
  | logical (op : LogicalOp)

def ElementOp.apply : ElementOp → Value → Value → Except Fault Value
  | binary op, a, b => a.binary op b
  | compare op, a, b => a.compare op b
  | logical op, a, b => a.logical op b

theorem ElementOp.pairs {op : ElementOp} (h : op.apply a b = .ok r) (hr : r.IsArray) :
    Pairs op.apply a b r := by
  cases op with
  | binary op => exact pairs_binary h hr
  | compare op => exact pairs_compare h hr
  | logical op => exact pairs_logical h hr

/-- **Operators work element by element.** Where the result is a vector or a matrix, the operands
are scalars or arranged alike, and what the result has at one or several positions is what the
operator makes of the operands there. -/
theorem elementwise_parts :
    (∀ (op : ElementOp) (a b r : Value), op.apply a b = .ok r → r.IsArray → Pairs op.apply a b r ∧
      ∀ (i : Value) (p : Selection), i.Selects r.length p → p.Below r.length →
        ∃ x y v, a.partAt i = .ok x ∧ b.partAt i = .ok y ∧ r.index i = .ok v ∧
          op.apply x y = .ok v) ∧
    ∀ (op : UnaryOp) (a r : Value), a.unary op = .ok r → r.IsArray →
      Maps (fun a => a.unary op) a r ∧
      ∀ (i : Value) (p : Selection), i.Selects r.length p → p.Below r.length →
        ∃ x v, a.partAt i = .ok x ∧ r.index i = .ok v ∧ x.unary op = .ok v := by
  constructor
  · intro op a b r h hr
    have hpairs := ElementOp.pairs h hr
    exact ⟨hpairs, fun i p hi hp => hpairs.index hr hi hp⟩
  · intro op a r h hr
    have hmaps := maps_unary h hr
    exact ⟨hmaps, fun i p hi hp => hmaps.index hr hi hp⟩

/-- A sum of a vector and a number, and a change of sign, at the last and the first position. -/
theorem elementwise_parts_reversed :
    let a := Value.numberVector [1.0, 2.0]
    let b := Value.number 10.0
    let i := Value.numberVector [1.0, 0.0]
    (∃ x y v, a.partAt i = .ok x ∧ b.partAt i = .ok y ∧
      (Value.numberVector [1.0 + 10.0, 2.0 + 10.0]).index i = .ok v ∧ x.binary .add y = .ok v) ∧
    ∃ x v, a.partAt i = .ok x ∧ (Value.numberVector [-1.0, -2.0]).index i = .ok v ∧
      x.unary .neg = .ok v := by
  intro a b i
  have hi : i.Selects 2 (.several [1, 0]) := by rfl
  have hp : (Selection.several [1, 0]).Below 2 := by unfold Selection.Below; decide
  exact ⟨(elementwise_parts.1 (.binary .add) a b _ rfl ⟨_, rfl, nofun⟩).2 i _ hi hp,
    (elementwise_parts.2 .neg a _ rfl ⟨_, rfl, nofun⟩).2 i _ hi hp⟩

end FormulaLang
