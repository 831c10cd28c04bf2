import FormulaLang.Proofs.Bytecode.Script

/-!
# Sums in compiled formulas

The evaluation of a sum starts from the first value of its body, and the compiled loop from zero.
Zero plus a number is that number, but for negative zero: a sum that is negative zero is zero in the
program, and the sign shows when something is divided by the sum.

* **`runSteps_sum`**: the program of a single sum.
* **`runSteps_of_regular`**: the program of a formula no sum of which is negative zero.
* `runSteps_negativeZeroSum`: the program of a quotient by a sum that is negative zero.
-/

namespace FormulaLang.Bytecode

open FormulaLang.Expr (AlongAll)

variable {σ : Signature}

/-! ## A single sum -/

/-- The code of a sum adds its values to zero. -/
theorem Lowered.yields_sum {base : Environment} {held : List Nat} {s s' : Slots}
    {name : String} {a : Expr} {d : Option Expr} {b body : Expr} {code : Code}
    (hcat : base.FastCatalogued) (hσ : ∀ name, σ.sole name ≠ none → base.function? name = none)
    (h : Lowered base (.tree (.loop .sum name (.range a d b) body none)) s code s')
    (hp : (Piece.tree (.loop .sum name (.range a d b) body none)).resolved σ true false)
    (hs : s.Ready σ true) (hdirect : Direct code) (n : Nat) :
    Yields σ base held s code ((eval (deeperAt n) (.loop .sum name (.range a d b) body none)).given
        (Expr.AlongLoop Visit.Regular n .sum name (.range a d b) body))
      (fun v outs => ∃ z, outs = [z] ∧ Tallies .add 0.0 (body.lacksValue σ) v z) [] := by
  have hregular : true → ∀ t : Visit, t.Regular → t.Regular := fun _ _ ht => ht
  cases h with
  | operation h => cases h
  | loop hk hb hd ha hbody =>
    cases hk
    exact hb.yields_loop hcat hσ rfl hd ha hbody hp hs hdirect
      (fun hp hs hdirect => hb.yields hcat hσ hregular hp hs hdirect n)
      (fun hp hs hdirect => hd.yields hcat hσ hregular hp hs hdirect n)
      (fun hp hs hdirect => ha.yields hcat hσ hregular hp hs hdirect n)
      fun hp hs hdirect => hbody.yields hcat hσ hregular hp hs hdirect n

/-- **The program of a sum leads to zero plus the sum**, which is the sum unless that is negative
zero. -/
theorem runSteps_sum {cells : List HostCell} {st st' : Engine} {name : String} {a : Expr}
    {d : Option Expr} {b body : Expr} {p : Program} {v : Value} {x : Float}
    (h : Engine.Reachable cells st) (hcat : st.env.FastCatalogued)
    (hσ : ∀ name, σ.sole name ≠ none → st.env.function? name = none)
    (he : (Expr.loop .sum name (.range a d b) body none).resolved σ true false)
    (hp : compile st.env (.loop .sum name (.range a d b) body none) = .ok p)
    (hdirect : Direct p.code.toList)
    (hv : Engine.evaluate (.loop .sum name (.range a d b) body none) st = (v, st'))
    (hlog : st'.log = st.log) (hx : v.asNumber? = some x)
    (hway : Expr.AlongLoop Visit.Regular st.settings.callDepth .sum name (.range a d b) body st)
    (settings : Settings) : ∃ n r stv, p.runSteps n settings st = (some r, stv) ∧
      (r = .error .stackOverflow ∨ r = .ok (0.0 + x)) := by
  obtain ⟨s, hl, -⟩ := lowered_of_compile hp
  obtain ⟨n, r, stv, hrun, hr⟩ := runSteps_of_given h hσ
    (hl.yields_sum hcat hσ he Slots.ready_empty hdirect _) (fun v outs ⟨z, hz, _⟩ => ⟨z, hz⟩) hv
    hlog hway settings
  refine ⟨n, r, stv, hrun, hr.imp_right ?_⟩
  rintro ⟨y, rfl, z, hz, w, hw, rfl⟩
  cases hz
  rw [hw.eq hx]
  rfl

/-! ## Formulas with sums -/

/-- **Compiled formulas with sums** are run as they are evaluated if no sum on the way to their
value is negative zero: sums of sums, sums in the bodies of functions that are defined there, and
under any operator. A condition without another case has to have a value. -/
theorem runSteps_of_regular {cells : List HostCell} {st st' : Engine} {e : Expr} {p : Program}
    {v : Value} {x : Float} (h : Engine.Reachable cells st) (hcat : st.env.FastCatalogued)
    (hσ : ∀ name, σ.sole name ≠ none → st.env.function? name = none)
    (he : e.resolved σ true false) (hp : compile st.env e = .ok p) (hdirect : Direct p.code.toList)
    (hv : Engine.evaluate e st = (v, st')) (hlog : st'.log = st.log) (hx : v.asNumber? = some x)
    (hway : e.Along Visit.Regular st.settings.callDepth st) (settings : Settings) :
    ∃ n r stv, p.runSteps n settings st = (some r, stv) ∧
      (r = .error .stackOverflow ∨ r = .ok x) := by
  have hregular : true → ∀ t : Visit, t.Regular → t.Regular := fun _ _ ht => ht
  obtain ⟨n, r, stv, hrun, hr⟩ :=
    runSteps_of_along h hcat hσ hregular he hp hdirect hv hlog hway settings
  refine ⟨n, r, stv, hrun, hr.imp_right ?_⟩
  rintro ⟨y, rfl, hy⟩
  rw [hy.eq hx]

section Along

variable {n : Nat} {st : Engine} {name : String} {e : Expr}

theorem along_constant (v : Value) : (Expr.constant v).Along Visit.Regular n st := by
  rintro ⟨_, _, _⟩ ht
  cases ht with
  | self => exact ⟨nofun, nofun⟩
  | operand he _ => cases he

theorem alongAll_constants (vs : List Value) :
    AlongAll Visit.Regular n (vs.map .constant) st := by
  induction vs generalizing st with
  | nil => exact fun t ht => nomatch ht
  | cons v vs ih =>
    intro t ht
    cases ht with
    | first h => exact along_constant v t h
    | later h => exact ih t h

/-- `sum(name, 1, 2, e)`. -/
def sumTwice (name : String) (e : Expr) : Expr :=
  .loop .sum name (.range (.constant (.number 1.0)) none (.constant (.number 2.0))) e none

/-- The code of `sumTwice`, by its slots and the code of its body. -/
def sumTwiceCode (s : LoopSlots) (body : Code) : Code :=
  loopSetup s 0.0 [.constant 1.0] [.constant 1.0] [.constant 2.0] ++ loopCode s .add body

theorem along_sumTwice (he : ∀ st, e.Along Visit.Regular n st)
    (hv : (eval (deeperAt n) (sumTwice name e) st).1 ≠ .number (-0.0)) :
    (sumTwice name e).Along Visit.Regular n st := by
  rintro ⟨_, _, _⟩ ht
  cases ht with
  | self => exact ⟨fun _ _ _ _ _ => hv, nofun⟩
  | operand he _ => cases he
  | bound h => exact alongAll_constants [.number 1.0, .number 1.0, .number 2.0] _ h
  | round _ _ h => exact he _ _ h

end Along

/-- `1 / sum(i, 1, 2, sum(j, 1, 2, 1))`. -/
def sumOfSums : Expr :=
  .binary .div (.constant (.number 1.0)) (sumTwice "i" (sumTwice "j" (.constant (.number 1.0))))

/-- The program of `sumOfSums`. -/
def sumOfSumsProgram : Program where
  code := ([Instruction.constant 1.0] ++
    sumTwiceCode ⟨2, 3, 1, 0⟩ (sumTwiceCode ⟨6, 7, 5, 4⟩ [.constant 1.0]) ++
      [Instruction.arithmetic .div]).toArray
  heapSize := 8

theorem evaluate_sumOfSums : ∃ st', Engine.evaluate sumOfSums (.create {}) = (.number 0.25, st') ∧
    st'.log = (Engine.create {}).log := by
  rw [show (0.25 : Float) = 1.0 / 4.0 by decide +kernel]
  exact ⟨_, rfl, rfl⟩

theorem along_sumOfSums (n : Nat) (st : Engine) : sumOfSums.Along Visit.Regular n st := by
  have hinner (st : Engine) :
      (sumTwice "j" (.constant (.number 1.0))).Along Visit.Regular n st := by
    have hne : Value.number 2.0 ≠ .number (-0.0) := mt Value.number.inj (by decide +kernel)
    exact along_sumTwice (fun _ => along_constant _) hne
  have houter (st : Engine) :
      (sumTwice "i" (sumTwice "j" (.constant (.number 1.0)))).Along Visit.Regular n st := by
    have hne : Value.number 4.0 ≠ .number (-0.0) := mt Value.number.inj (by decide +kernel)
    exact along_sumTwice hinner hne
  rintro ⟨_, _, _⟩ ht
  cases ht with
  | self => exact ⟨nofun, nofun⟩
  | operand he ht =>
    cases he
    cases ht with
    | first h => exact along_constant _ _ h
    | later h =>
      cases h with
      | first h => exact houter _ _ h
      | later h => exact nomatch h

theorem runSteps_sumOfSums : ∃ p st', compile (Engine.create {}).env sumOfSums = .ok p ∧
    Direct p.code.toList ∧ Engine.evaluate sumOfSums (.create {}) = (.number 0.25, st') ∧
    st'.log = (Engine.create {}).log ∧ ∃ n r stv, p.runSteps n {} (.create {}) = (some r, stv) ∧
      (r = .error .stackOverflow ∨ r = .ok 0.25) := by
  obtain ⟨st', hv, hlog⟩ := evaluate_sumOfSums
  have hp : compile (Engine.create {}).env sumOfSums = .ok sumOfSumsProgram := rfl
  have hd : Direct sumOfSumsProgram.code.toList := by decide +kernel
  have he : sumOfSums.resolved .free true false := by
    simp [sumOfSums, sumTwice, Expr.resolved, Expr.resolvedOption]
  have hcat : (Engine.create {}).env.FastCatalogued := fun _ _ hf _ =>
    Engine.HasCatalog.mem_functions (fun _ => rfl) hf
  have hnew : ∀ name, Signature.free.sole name ≠ none →
      (Engine.create {}).env.function? name = none := fun _ h => absurd rfl h
  exact ⟨_, st', hp, hd, hv, hlog, runSteps_of_regular (.create {}) hcat hnew he hp hd hv
    hlog rfl (along_sumOfSums _ _) {}⟩

/-! ## Negative zero -/

/-- `1 / sum(i, 1, 1, -0)`. -/
def negativeZeroSum : Expr :=
  .binary .div (.constant (.number 1.0))
    (.loop .sum "i" (.range (.constant (.number 1.0)) none (.constant (.number 1.0)))
      (.unary .neg (.constant (.number 0.0))) none)

/-- The program of `negativeZeroSum`. -/
def negativeZeroProgram : Program where
  code := ([Instruction.constant 1.0] ++
    loopSetup ⟨2, 3, 1, 0⟩ 0.0 [.constant 1.0] [.constant 1.0] [.constant 1.0] ++
    loopCode ⟨2, 3, 1, 0⟩ .add [.constant 0.0, .unary .neg] ++
      [Instruction.arithmetic .div]).toArray
  heapSize := 4

set_option maxRecDepth 4000 in
theorem runSteps_negativeZeroProgram (st : Engine) :
    negativeZeroProgram.runSteps 100 {} st = (some (.ok Number.infinity), st) := rfl

/-- **A sum that is negative zero** is zero in the program, so the quotient has the other sign. -/
theorem runSteps_negativeZeroSum : ∃ p st' stv,
    compile (Engine.create {}).env negativeZeroSum = .ok p ∧
    Engine.evaluate negativeZeroSum (.create {}) = (.number (-Number.infinity), st') ∧
    st'.log = (Engine.create {}).log ∧
    p.runSteps 100 {} (.create {}) = (some (.ok Number.infinity), stv) ∧
    stv.log = (Engine.create {}).log := by
  have hquotient : (1.0 / -0.0 : Float) = -Number.infinity := by decide +kernel
  rw [← hquotient]
  exact ⟨negativeZeroProgram, _, _, rfl, rfl, rfl, runSteps_negativeZeroProgram _, rfl⟩

end FormulaLang.Bytecode
