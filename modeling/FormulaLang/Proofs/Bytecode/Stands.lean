import FormulaLang.Proofs.Bytecode.Operands

/-!
# Numbers that stand for values

A value that counts as a number is that number during a run. A value that is missing, be it the
invalid value or void, counts as no number, and code leaves a NaN in its place.

* `Stands`: a number stands for a value, which may be missing.
* `One`, `Maybe`, `MaybeAll`: the same for the numbers on a stack.
-/

namespace FormulaLang.Bytecode

/-- A number stands for a value: the value counts as it, or it is a NaN and the value is missing. -/
def Stands (missing : Value) (lacks : Bool) (v : Value) (x : Float) : Prop :=
  v.asNumber? = some x ∨ lacks ∧ v = missing ∧ x = Number.nan

/-- A single number that a value counts as. -/
def One (v : Value) (outs : List Float) : Prop := Counts [v] outs

/-- A single number that stands for a value. -/
def Maybe (missing : Value) (lacks : Bool) (v : Value) (outs : List Float) : Prop :=
  ∃ x, outs = [x] ∧ Stands missing lacks v x

/-- The numbers that stand for the values of trees. -/
def MaybeAll (missing : Value) (lacks : Expr → Bool) : List Expr → List Value → List Float → Prop
  | [], [], [] => True
  | e :: es, v :: vs, x :: xs => Stands missing (lacks e) v x ∧ MaybeAll missing lacks es vs xs
  | _, _, _ => False

section Single

variable {missing v : Value} {lacks lacks' : Bool} {x : Float} {outs : List Float}

theorem one_iff : One v outs ↔ ∃ x, outs = [x] ∧ v.asNumber? = some x := by
  constructor
  · intro h
    obtain ⟨x, xs, rfl, hx, hxs⟩ := Counts.exists_cons h
    obtain rfl := List.length_eq_zero_iff.1 hxs.length.symm
    exact ⟨x, rfl, hx⟩
  · rintro ⟨x, rfl, hx⟩
    exact counts_cons.2 ⟨hx, counts_nil⟩

theorem stands_false : Stands missing false v x ↔ v.asNumber? = some x := by simp [Stands]

theorem maybe_false : Maybe missing false v outs ↔ One v outs := by
  rw [one_iff]
  simp only [Maybe, stands_false]

theorem Stands.mono (h : Stands missing lacks v x) (hl : lacks → lacks') :
    Stands missing lacks' v x :=
  h.imp_right fun ⟨hb, hv, hx⟩ => ⟨hl hb, hv, hx⟩

theorem Maybe.mono (h : Maybe missing lacks v outs) (hl : lacks → lacks') :
    Maybe missing lacks' v outs := by
  obtain ⟨x, rfl, hx⟩ := h
  exact ⟨x, rfl, hx.mono hl⟩

/-! ### Void -/

section Void

variable {w u : Value} {y : Float}

theorem Stands.isInvalid (h : Stands .void lacks v x) : v.isInvalid = false := by
  rcases h with h | ⟨-, rfl, -⟩
  · exact isInvalid_of_asNumber? h
  · rfl

/-- Operators have no value for void. -/
theorem Stands.asNumber?_of_unary {op : UnaryOp} (hv : Stands .void lacks v x)
    (h : v.unary op = .ok u) : v.asNumber? = some x := by
  refine hv.resolve_right ?_
  rintro ⟨-, rfl, -⟩
  cases op <;> cases h

theorem Stands.asNumber?_of_arithmetic {symbol : String} {f : Float → Float → Float}
    (hv : Stands .void lacks v x) (hw : Stands .void lacks' w y)
    (h : Value.arithmetic symbol f v w = .ok u) : v.asNumber? = some x ∧ w.asNumber? = some y := by
  rcases hv with hv | ⟨-, rfl, -⟩
  · refine ⟨hv, hw.resolve_right ?_⟩
    rintro ⟨-, rfl, -⟩
    rcases asNumber?_cases hv with rfl | ⟨p, rfl, -⟩ <;> cases h
  · cases h

theorem Stands.asNumber?_of_binary {op : BinaryOp} (hv : Stands .void lacks v x)
    (hw : Stands .void lacks' w y) (h : v.binary op w = .ok u) :
    v.asNumber? = some x ∧ w.asNumber? = some y := by
  unfold Value.binary at h
  rw [hv.isInvalid, hw.isInvalid] at h
  have hstrings : ∀ {lacks v x}, Stands .void lacks v x → v.strings? = none := by
    rintro lacks v x (hv | ⟨-, rfl, -⟩)
    · rcases asNumber?_cases hv with rfl | ⟨p, rfl, -⟩ <;> rfl
    · rfl
  rw [hstrings hv] at h
  have harithmetic : Value.arithmetic op.symbol op.apply v w = .ok u := by
    cases op <;> exact h
  exact hv.asNumber?_of_arithmetic hw harithmetic

theorem Stands.asNumber?_of_logical {op : LogicalOp} (hv : Stands .void lacks v x)
    (hw : Stands .void lacks' w y) (h : v.logical op w = .ok u) :
    v.asNumber? = some x ∧ w.asNumber? = some y := by
  unfold Value.logical at h
  rw [hv.isInvalid, hw.isInvalid] at h
  rcases hv with hv | ⟨-, rfl, -⟩
  · refine ⟨hv, hw.resolve_right ?_⟩
    rintro ⟨-, rfl, -⟩
    rcases asNumber?_cases hv with rfl | ⟨p, rfl, -⟩ <;> cases h
  · cases h

/-- Two voids can be compared, but void and something else cannot. -/
theorem Stands.asNumber?_of_compare {op : CompareOp} (hv : Stands .void lacks v x)
    (hw : Stands .void lacks' w y) (hl : lacks = false ∨ lacks' = false)
    (h : v.compare op w = .ok u) : v.asNumber? = some x ∧ w.asNumber? = some y := by
  unfold Value.compare at h
  rw [hv.isInvalid, hw.isInvalid] at h
  rcases hv with hv | ⟨hlacks, rfl, -⟩
  · refine ⟨hv, hw.resolve_right ?_⟩
    rintro ⟨-, rfl, -⟩
    rcases asNumber?_cases hv with rfl | ⟨p, rfl, -⟩ <;> cases op <;> cases h
  · rcases hw with hw | ⟨hlacks', rfl, -⟩
    · rcases asNumber?_cases hw with rfl | ⟨p, rfl, -⟩ <;> cases op <;> cases h
    · rcases hl with rfl | rfl
      · cases hlacks
      · cases hlacks'

end Void

end Single

section All

variable {missing : Value} {lacks : Expr → Bool} {e : Expr} {es : List Expr} {vs : List Value}
  {xs : List Float}

namespace MaybeAll

theorem exists_cons (h : MaybeAll missing lacks (e :: es) vs xs) : ∃ v vs' x xs', vs = v :: vs' ∧
    xs = x :: xs' ∧ Stands missing (lacks e) v x ∧ MaybeAll missing lacks es vs' xs' := by
  cases vs with
  | nil => exact h.elim
  | cons v vs =>
    cases xs with
    | nil => exact h.elim
    | cons x xs => exact ⟨v, vs, x, xs, rfl, rfl, h⟩

theorem nil (h : MaybeAll missing lacks [] vs xs) : vs = [] ∧ xs = [] := by
  cases vs with
  | nil =>
    cases xs with
    | nil => exact ⟨rfl, rfl⟩
    | cons x xs => exact h.elim
  | cons v vs => exact h.elim

theorem length (h : MaybeAll missing lacks es vs xs) :
    vs.length = es.length ∧ xs.length = es.length := by
  induction es generalizing vs xs with
  | nil =>
    obtain ⟨rfl, rfl⟩ := h.nil
    exact ⟨rfl, rfl⟩
  | cons e es ih =>
    obtain ⟨v, vs, x, xs, rfl, rfl, -, hvs⟩ := h.exists_cons
    exact ⟨congrArg Nat.succ (ih hvs).1, congrArg Nat.succ (ih hvs).2⟩

/-- Values none of which is missing. -/
theorem counts (h : MaybeAll missing lacks es vs xs) (hm : missing ∈ vs → False) :
    Counts vs xs := by
  induction es generalizing vs xs with
  | nil =>
    obtain ⟨rfl, rfl⟩ := h.nil
    exact counts_nil
  | cons e es ih =>
    obtain ⟨v, vs, x, xs, rfl, rfl, hv, hvs⟩ := h.exists_cons
    refine counts_cons.2 ⟨hv.resolve_right fun hv => hm ?_, ih hvs fun h => hm (.tail _ h)⟩
    rw [hv.2.1]
    exact .head _

/-- Trees that do not lack a value. -/
theorem counts_of_all (h : MaybeAll missing lacks es vs xs) (hes : es.all (!lacks ·)) :
    Counts vs xs := by
  induction es generalizing vs xs with
  | nil =>
    obtain ⟨rfl, rfl⟩ := h.nil
    exact counts_nil
  | cons e es ih =>
    obtain ⟨v, vs, x, xs, rfl, rfl, hv, hvs⟩ := h.exists_cons
    simp only [List.all_cons, Bool.and_eq_true, Bool.not_eq_true'] at hes
    rw [hes.1, stands_false] at hv
    exact counts_cons.2 ⟨hv, ih hvs hes.2⟩

theorem getElem (h : MaybeAll missing lacks es vs xs) (i : Nat) (he : i < es.length)
    (hv : i < vs.length) (hx : i < xs.length) : Stands missing (lacks es[i]) vs[i] xs[i] := by
  induction es generalizing vs xs i with
  | nil => cases he
  | cons e es ih =>
    obtain ⟨v, vs, x, xs, rfl, rfl, hfirst, hrest⟩ := h.exists_cons
    cases i with
    | zero => exact hfirst
    | succ i =>
      exact ih hrest i (Nat.lt_of_succ_lt_succ he) (Nat.lt_of_succ_lt_succ hv)
        (Nat.lt_of_succ_lt_succ hx)

theorem any_isInvalid (h : MaybeAll .void lacks es vs xs) : vs.any Value.isInvalid = false := by
  induction es generalizing vs xs with
  | nil =>
    obtain ⟨rfl, rfl⟩ := h.nil
    rfl
  | cons e es ih =>
    obtain ⟨v, vs, x, xs, rfl, rfl, hfirst, hrest⟩ := h.exists_cons
    rw [List.any_cons, hfirst.isInvalid, ih hrest]
    rfl

end MaybeAll

end All

end FormulaLang.Bytecode
