import FormulaLang.Proofs.Engine.Operands

/-!
# Assignments that fail

Elements are written to the value that a variable has, which is stored only when all of them are
written. A write may have changed this value before it fails, and storing it may still be refused.
In each case the variable keeps what it had.

* `Expr.assigned?`: the operands of an assignment.
* `Engine.Refuses`: nothing has happened but that a fault was recorded.
* `setVariable_of_fault`, `isInvalid_of_setElements`: storing a value and writing elements.
* **`eval_assigned_of_invalid`**: an invalid assignment changes nothing behind its operands.
-/

namespace FormulaLang

/-- The operands of an assignment to a variable, or to elements of one. -/
def Expr.assigned? : Expr → Option (List Expr)
  | .assign _ e => some [e]
  | .assignElement _ i e => some [i, e]
  | _ => none

/-- The result is invalid, and nothing has happened since but that a fault was recorded. -/
def Engine.Refuses (st : Engine) (r : Value × Engine) : Prop := ∃ f, r = (.invalid, st.report f)

/-! ## Storing a value -/

/-- A host cell that refuses a value stays as it is. -/
theorem Environment.setVariable_of_fault {env : Environment} {name : String} {v : Value}
    {f : Fault} (h : (env.setVariable name v).2 = some f) : (env.setVariable name v).1 = env := by
  unfold Environment.setVariable at h ⊢
  split
  · next hnone => simp [hnone] at h
  · next cell hcell =>
    simp only [hcell] at h
    unfold Environment.writeHost at h ⊢
    split at h <;> simp at h ⊢
  · next cell hcell =>
    simp only [hcell] at h
    split at h <;> cases h
  · next hcell => simp [hcell] at h

section Assign

variable {st : Engine} {name : String} {v w : Value}

theorem refuses_fail (f : Fault) : st.Refuses (Eval.fail f st) := ⟨f, rfl⟩

/-- A value that is refused is not stored. -/
theorem assign_of_fault {f : Fault} (h : (st.env.setVariable name v).2 = some f) :
    Eval.assign name v st = (.invalid, st.report f) := by
  obtain ⟨env, log, settings⟩ := st
  have hsame := Environment.setVariable_of_fault h
  have hset : env.setVariable name v = (env, some f) := Prod.ext hsame h
  unfold Eval.assign
  dsimp only
  rw [hset]
  rfl

theorem assign_valid_or_refuses (hv : v.isInvalid = false) :
    (Eval.assign name v st).1.isInvalid = false ∨ st.Refuses (Eval.assign name v st) := by
  cases h : (st.env.setVariable name v).2 with
  | none =>
    rw [assign_of_none h]
    exact .inl hv
  | some f => exact .inr ⟨f, assign_of_fault h⟩

/-! ## Writing elements -/

/-- Only vectors, lists and matrices have elements that can be written. -/
theorem isInvalid_of_setPositions {ks : List Nat} {fault : Fault}
    (h : (v.setPositions ks w fault).2 = none) : (v.setPositions ks w fault).1.isInvalid = false := by
  unfold Value.setPositions at h ⊢
  cases v with
  | numberVector _ | boolVector _ | stringVector _ | list _ | numberMatrix _ _ | boolMatrix _ _ =>
    dsimp only
    split <;> rfl
  | _ => cases h

theorem isInvalid_of_setElements {i : Value} (h : (v.setElements i w).2 = none) :
    (v.setElements i w).1.isInvalid = false := by
  unfold Value.setElements at h ⊢
  dsimp only at h ⊢
  split
  · next hlength => simp [hlength] at h
  · next length hlength =>
    simp only [hlength] at h
    split
    · next hks => simp [hks] at h
    · next hks => simp [hks] at h
    · next ks hks =>
      simp only [hks] at h
      exact isInvalid_of_setPositions h

theorem assignElements_of_valid {i : Value} (hi : i.isInvalid = false) (hv : v.isInvalid = false) :
    (assignElements name i v st).1.isInvalid = false ∨
      st.Refuses (assignElements name i v st) := by
  unfold assignElements
  rw [hi, hv]
  simp only [Bool.or_self, Bool.false_eq_true, if_false]
  rw [run_value?_bind]
  cases st.env.value? name with
  | none => exact .inr (refuses_fail _)
  | some target =>
    dsimp only
    rcases hset : target.setElements i v with ⟨target', _ | f⟩
    · have htarget := isInvalid_of_setElements (congrArg Prod.snd hset)
      rw [hset] at htarget
      exact assign_valid_or_refuses htarget
    · exact .inr (refuses_fail f)

end Assign

/-! ## Assignments -/

section Trees

variable {deeper : Deeper} {st : Engine} {e : Expr} {es : List Expr}

/-- An assignment with valid operands gives a valid value, or is refused. -/
theorem eval_assigned_of_valid (he : e.assigned? = some es)
    (hvalid : ∀ v ∈ (evalAll deeper es st).1, v.isInvalid = false) :
    (eval deeper e st).1.isInvalid = false ∨ (evalAll deeper es st).2.Refuses (eval deeper e st) := by
  rcases hrun : evalAll deeper es st with ⟨vs, st₁⟩
  have hlength := length_evalAll deeper es st
  rw [hrun] at hvalid hlength
  cases e with
  | assign name a =>
    cases he
    obtain ⟨v, rfl⟩ := List.length_eq_one_iff.1 hlength
    rw [eval_eager rfl, bind_of_run hrun]
    have hv := hvalid v (by simp)
    unfold ofOne
    dsimp only
    rw [hv]
    exact assign_valid_or_refuses hv
  | assignElement name i a =>
    cases he
    obtain ⟨index, v, rfl⟩ := List.length_eq_two.1 hlength
    rw [eval_eager rfl, bind_of_run hrun]
    exact assignElements_of_valid (hvalid index (by simp)) (hvalid v (by simp))
  | _ => cases he

/-- With an invalid operand nothing is assigned or recorded. -/
theorem eval_assigned_of_mem (he : e.assigned? = some es)
    (hinvalid : .invalid ∈ (evalAll deeper es st).1) :
    eval deeper e st = (.invalid, (evalAll deeper es st).2) := by
  rcases hrun : evalAll deeper es st with ⟨vs, st₁⟩
  have hlength := length_evalAll deeper es st
  rw [hrun] at hinvalid hlength
  cases e with
  | assign name a =>
    cases he
    obtain ⟨v, rfl⟩ := List.length_eq_one_iff.1 hlength
    obtain rfl := List.mem_singleton.1 hinvalid
    rw [eval_eager rfl, bind_of_run hrun]
    rfl
  | assignElement name i a =>
    cases he
    obtain ⟨index, v, rfl⟩ := List.length_eq_two.1 hlength
    rw [eval_eager rfl, bind_of_run hrun]
    simp only [List.mem_cons, List.not_mem_nil, or_false] at hinvalid
    rcases hinvalid with rfl | rfl
    · rfl
    · cases index <;> rfl
  | _ => cases he

/-- **An assignment that is invalid** leaves the variables and the cells of the host as they were
behind its operands, and records one fault there unless an operand is invalid. -/
theorem eval_assigned_of_invalid (he : e.assigned? = some es)
    (h : (eval deeper e st).1 = .invalid) :
    (eval deeper e st).2.env = (evalAll deeper es st).2.env ∧
      (.invalid ∈ (evalAll deeper es st).1 →
        (eval deeper e st).2.log = (evalAll deeper es st).2.log) ∧
      (.invalid ∉ (evalAll deeper es st).1 → ∃ f : Located,
        (eval deeper e st).2.log = (evalAll deeper es st).2.log.push f) := by
  by_cases hinvalid : .invalid ∈ (evalAll deeper es st).1
  · have hrun := eval_assigned_of_mem he hinvalid
    rw [hrun]
    exact ⟨rfl, fun _ => rfl, fun hn => absurd hinvalid hn⟩
  · have hvalid : ∀ v ∈ (evalAll deeper es st).1, v.isInvalid = false := by
      intro v hv
      cases v with
      | invalid => exact absurd hv hinvalid
      | _ => rfl
    obtain ⟨f, hf⟩ : (evalAll deeper es st).2.Refuses (eval deeper e st) := by
      refine (eval_assigned_of_valid he hvalid).resolve_left fun hv => ?_
      rw [h] at hv
      cases hv
    rw [hf]
    exact ⟨rfl, fun hm => absurd hm hinvalid, fun _ => ⟨f.unlocated, rfl⟩⟩

end Trees

/-- An engine whose variable `v` is a cell of the host that holds three numbers. -/
def sharedVector : Engine :=
  (Engine.create {}).onEnv fun env =>
    (env.newHostCell (.numberVector [1.0, 2.0, 3.0]) true).2.addHost "v" (.value 0)

theorem value?_sharedVector :
    sharedVector.env.value? "v" = some (.numberVector [1.0, 2.0, 3.0]) := by
  have hget : sharedVector.env.vars.get? "v" = some (.host (.value 0)) :=
    ((Engine.Reachable.create {}).sound.vars.get?_add "v").trans (if_pos rfl)
  unfold Environment.value?
  rw [hget]
  rfl

/-- `v[[0, 1e9]] = [7, 8]`, whose second position is behind the end of the longest vector. -/
def distantWrite : Expr :=
  .assignElement "v" (.constant (.numberVector [0.0, 1e9])) (.constant (.numberVector [7.0, 8.0]))

/-- The first number is written before the second write fails, but the host keeps its vector. -/
theorem eval_distantWrite :
    let es : List Expr :=
      [.constant (.numberVector [0.0, 1e9]), .constant (.numberVector [7.0, 8.0])]
    (Value.setElements (.numberVector [1.0, 2.0, 3.0]) (.numberVector [0.0, 1e9])
      (.numberVector [7.0, 8.0])).1 = .numberVector [7.0, 2.0, 3.0] ∧
    distantWrite.assigned? = some es ∧ (eval none distantWrite sharedVector).1 = .invalid ∧
    (eval none distantWrite sharedVector).2.env = (evalAll none es sharedVector).2.env ∧
    (.invalid ∈ (evalAll none es sharedVector).1 →
      (eval none distantWrite sharedVector).2.log = (evalAll none es sharedVector).2.log) ∧
    (.invalid ∉ (evalAll none es sharedVector).1 → ∃ f : Located,
      (eval none distantWrite sharedVector).2.log = (evalAll none es sharedVector).2.log.push f) := by
  have hrun : eval none distantWrite sharedVector = assignElements "v" (.numberVector [0.0, 1e9])
      (.numberVector [7.0, 8.0]) sharedVector := rfl
  have hinvalid : (eval none distantWrite sharedVector).1 = .invalid := by
    rw [hrun, assignElements, if_neg (by decide), run_value?_bind, value?_sharedVector]
    rfl
  exact ⟨rfl, rfl, hinvalid, eval_assigned_of_invalid rfl hinvalid⟩

end FormulaLang
