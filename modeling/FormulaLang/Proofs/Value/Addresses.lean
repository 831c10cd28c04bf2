import FormulaLang.Proofs.Number.Truncation
import FormulaLang.Value.Element

/-!
# What an index addresses

A number addresses the position that is its whole part, and a mask the positions where it is true.

* `address`, `position_eq_ok`: the position of a number.
* `mem_maskPositions`, `pairwise_maskPositions`: the positions of a mask.
* `Value.Addresses`, **`addresses_of_positions?`**: the positions of an index.
-/

namespace FormulaLang

open Number

variable {n k : Nat} {ks : List Nat} {i : Value}

/-! ## Numbers -/

/-- The position of a finite number that is not negative: its whole part, as far as there are
integers of 64 bits. -/
def address (x : Float) : Nat := min (wholePart x) (2 ^ 64 - 1)

theorem position_eq_ok {x : Float} :
    position n x = .ok k ↔ x.isFinite = true ∧ 0 ≤ unitsOf x ∧ k = address x := by
  unfold position
  split_ifs with h
  · refine iff_of_false nofun fun ⟨hx, hpos, _⟩ => ?_
    simp only [Bool.or_eq_true, Bool.not_eq_true', decide_eq_true_eq, hx] at h
    exact (not_lt_zero_iff hx).2 hpos (h.resolve_left nofun)
  · simp only [Bool.or_eq_true, Bool.not_eq_true', decide_eq_true_eq, not_or,
      Bool.not_eq_false] at h
    have hpos := (not_lt_zero_iff h.1).1 h.2
    rw [toNat_toUInt64 h.1 hpos]
    exact ⟨fun hk => ⟨h.1, hpos, (Except.ok.inj hk).symm⟩,
      fun ⟨_, _, hk⟩ => congrArg Except.ok hk.symm⟩

theorem mapM_position {xs : List Float} (h : xs.mapM (position n) = .ok ks) :
    (∀ x ∈ xs, x.isFinite = true ∧ 0 ≤ unitsOf x) ∧ ks = xs.map address := by
  induction xs generalizing ks with
  | nil =>
    cases h
    exact ⟨nofun, rfl⟩
  | cons x xs ih =>
    rw [List.mapM_cons] at h
    cases hk : position n x with
    | error e =>
      rw [hk] at h
      cases h
    | ok k =>
      cases hks : xs.mapM (position n) with
      | error e =>
        rw [hk, hks] at h
        cases h
      | ok ks' =>
        rw [hk, hks] at h
        cases h
        obtain ⟨hx, hpos, rfl⟩ := position_eq_ok.1 hk
        obtain ⟨hxs, rfl⟩ := ih hks
        exact ⟨List.forall_mem_cons.2 ⟨⟨hx, hpos⟩, hxs⟩, rfl⟩

/-! ## Masks -/

theorem mem_maskPositions {j : Nat} {mask : List Bool} :
    k ∈ maskPositions j mask ↔ j ≤ k ∧ mask[k - j]? = some true := by
  induction mask generalizing j with
  | nil => simp [maskPositions]
  | cons b mask ih =>
    have hrest : (b :: mask)[k - j]? = some true ↔
        k - j = 0 ∧ b = true ∨ 0 < k - j ∧ mask[k - (j + 1)]? = some true := by
      rcases Nat.eq_zero_or_pos (k - j) with h | h
      · simp [h]
      · obtain ⟨m, hm⟩ := Nat.exists_eq_succ_of_ne_zero h.ne'
        have hm' : k - (j + 1) = m := by omega
        simp [hm, hm']
    rw [hrest]
    cases b with
    | true =>
      rw [maskPositions, List.mem_cons, ih]
      constructor
      · rintro (rfl | ⟨h, hk⟩)
        · exact ⟨le_refl _, .inl ⟨by omega, rfl⟩⟩
        · exact ⟨by omega, .inr ⟨by omega, hk⟩⟩
      · rintro ⟨h, ⟨hk, -⟩ | ⟨hk, hm⟩⟩
        · exact .inl (by omega)
        · exact .inr ⟨by omega, hm⟩
    | false =>
      rw [maskPositions, ih]
      constructor
      · rintro ⟨h, hk⟩
        exact ⟨by omega, .inr ⟨by omega, hk⟩⟩
      · rintro ⟨h, ⟨-, hb⟩ | ⟨hk, hm⟩⟩
        · cases hb
        · exact ⟨by omega, hm⟩

theorem pairwise_maskPositions (j : Nat) (mask : List Bool) :
    (maskPositions j mask).Pairwise (· < ·) := by
  induction mask generalizing j with
  | nil => exact .nil
  | cons b mask ih =>
    cases b with
    | true =>
      refine List.pairwise_cons.2 ⟨fun k hk => ?_, ih (j + 1)⟩
      have := (mem_maskPositions.1 hk).1
      omega
    | false => exact ih (j + 1)

/-! ## Indices -/

/-- The positions that an index into `n` elements addresses. -/
def Value.Addresses (n : Nat) : Value → List Nat → Prop
  | number x, ks => x.isFinite = true ∧ 0 ≤ unitsOf x ∧ ks = [address x]
  | numberVector xs, ks =>
    (∀ x ∈ xs, x.isFinite = true ∧ 0 ≤ unitsOf x) ∧ ks = xs.map address
  | boolVector mask, ks =>
    mask.length = n ∧ ks.Pairwise (· < ·) ∧ ∀ k, k ∈ ks ↔ mask[k]? = some true
  | _, _ => False

/-- **The positions of an index** are those that it addresses. -/
theorem addresses_of_positions? (h : positions? n i = some (.ok ks)) : i.Addresses n ks := by
  cases i with
  | number x =>
    cases hk : position n x with
    | error e =>
      rw [positions?, hk] at h
      cases h
    | ok k =>
      rw [positions?, hk] at h
      cases h
      obtain ⟨hx, hpos, rfl⟩ := position_eq_ok.1 hk
      exact ⟨hx, hpos, rfl⟩
  | numberVector xs => exact mapM_position (Option.some.inj h)
  | boolVector mask =>
    rw [positions?] at h
    split_ifs at h with hlength
    · cases h
      exact ⟨hlength, pairwise_maskPositions 0 mask, fun k => by simp [mem_maskPositions]⟩
    · cases Option.some.inj h
  | _ => cases h

end FormulaLang
