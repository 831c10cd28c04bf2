import FormulaLang.Proofs.Engine.LoopTraces
import FormulaLang.Proofs.Engine.Reachable
import FormulaLang.Proofs.Range.Length

/-!
# The vector of a range and the loop over it

A range gives the vector of its positions, and so does the loop that collects its variable over the
range. Both stop at the same length, with the same fault.

* `Engine.collected`: what comes of positions that are collected.
* `eval_range_of_run`: the vector of a range.
* `forItems_positions`, **`eval_positions_loop`**: the loop over a range.
* **`eval_range_eq_loop`**: both come to the same.
* `values_absorbedStep`: a short range that is refused as too long.
-/

namespace FormulaLang

open Environment (Sound)

variable {deeper : Deeper} {held : List Nat} {st st₁ : Engine} {r : Range} {xs : List Float}
  {name : String} {a b : Expr} {d : Option Expr}

/-- The vector of positions, or the fault that they are too many. -/
def Engine.collected (st : Engine) (xs : List Float) : Value × Engine :=
  if xs.length ≤ maxVectorLength then (.numberVector xs, st)
  else (.invalid, st.report (.vectorTooLong maxVectorLength))

/-! ## The vector of a range -/

theorem eval_range_of_run {start step stop : Float} (h : evalAll deeper (bounds a d b) st =
    ([.number start, .number step, .number stop], st₁)) :
    eval deeper (.range a d b) st =
      Eval.check ((Range.ofBounds start step stop).values.map .numberVector) st₁ := by
  rw [eval_eager (e := .range a d b) rfl, bind_of_run h]
  rfl

/-! ## The loop over a range -/

theorem collect_numbers (xs : List Float) :
    Value.collect (xs.map .number) = .numberVector xs := by
  have hnumbers : (xs.map Value.number).mapM Value.number? = some xs := by
    induction xs with
    | nil => rfl
    | cons x xs ih => simp [ih, Value.number?]
  rw [Value.collect, hnumbers]

variable (deeper name) in
/-- A round binds the variable and appends its value. -/
theorem step_position (hs : st.env.Sound held) (out : Array Value) (x : Float) :
    (LoopForm.collect false).step name (eval deeper (.var name)) out (.number x) st =
      append out (.number x) (st.onEnv (·.addVariable name (.number x))) :=
  LoopForm.step_var hs deeper name out (.number x)

variable (deeper name st) in
/-- The rounds over a range append its positions, until there are too many. -/
theorem forItems_positions {base : Environment} (hxs : r.Yields xs) (hs : st.env.Sound held)
    (hin : base.Inside st.env) (out : Array Value) (hout : out.size ≤ maxVectorLength) :
    ∃ env : Environment, env.Sound held ∧ base.Inside env ∧
      forItems ((LoopForm.collect false).step name (eval deeper (.var name)))
        (Items.range r).left (.range r) out st =
      if out.size + xs.length ≤ maxVectorLength then
        (.ok (out ++ (xs.map Value.number).toArray), { st with env })
      else (.error .invalid, { st with env }.report (.vectorTooLong maxVectorLength)) := by
  induction hxs generalizing st out with
  | @done r hnone =>
    have hitems : (Items.range r).next? = none := by rw [Items.next?, hnone]
    refine ⟨st.env, hs, hin, ?_⟩
    rw [forItems_of_none hitems, if_pos (by simpa using hout)]
    simp [pure, StateT.pure]
  | @next r r' x xs hnext _ ih =>
    have hitems : (Items.range r).next? = some (.number x, .range r') := by
      rw [Items.next?, hnext]
    rw [forItems_left hitems]
    have hround := step_position deeper name hs out x
    rcases hout.lt_or_eq with hlt | heq
    · rw [append, if_neg hlt.ne] at hround
      have hroom : (out.push (.number x)).size ≤ maxVectorLength := by
        rw [Array.size_push]
        exact hlt
      obtain ⟨env, hsound, hinside, hrest⟩ := ih (st.onEnv (·.addVariable name (.number x)))
        (hs.addVariable name (.number x)) (hin.addVariable name (.number x)) _ hroom
      refine ⟨env, hsound, hinside, ?_⟩
      have hsize : (out.push (.number x)).size + xs.length = out.size + (x :: xs).length := by
        simp
        omega
      have happend : out.push (.number x) ++ (xs.map Value.number).toArray =
          out ++ ((x :: xs).map Value.number).toArray := by simp
      rw [hsize, happend] at hrest
      rw [bind_of_run hround]
      exact hrest
    · rw [append, if_pos heq] at hround
      refine ⟨_, hs.addVariable name (.number x), hin.addVariable name (.number x), ?_⟩
      rw [bind_of_run hround, if_neg (by simp; omega)]
      rfl

/-- A loop that collects, in its block. -/
theorem inBlock_collect_of_run {body : Eval Value} {items : Items}
    {out : Except Value (Array Value)}
    (h : forItems ((LoopForm.collect false).step name body) items.left items #[]
      (st.onEnv .enter) = (out, st₁)) :
    Eval.inBlock (runLoop name body items .collect) st =
      ((LoopForm.collect false).result out, st₁.onEnv .leave) :=
  inBlock_runLoop_of_run h

/-- **The loop over a range** collects its positions, and leaves the variables as they were. -/
theorem eval_positions_loop {start step stop : Float} (hs : st₁.env.Sound held)
    (h : evalAll deeper (bounds a d b) st = ([.number start, .number step, .number stop], st₁))
    (hxs : (Range.ofBounds start step stop).Yields xs) :
    ∃ env : Environment, st₁.env.Calm env ∧
      eval deeper (.loop .collect name (.range a d b) (.var name) none) st =
        { st₁ with env }.collected xs := by
  have hsource : evalSource deeper (.range a d b) st =
      (some (.range (.ofBounds start step stop)), st₁) := evalSource_of_run (.range a d b) h
  obtain ⟨env, hsound, hinside, hrounds⟩ := forItems_positions deeper (st₁.onEnv .enter) name
    hxs hs.enter (.enter hs) #[] (Nat.zero_le _)
  refine ⟨env.leave, (hinside.leave hsound).1, ?_⟩
  rw [eval_loop_of_some hsource]
  have hsize : (#[] : Array Value).size + xs.length = xs.length := Nat.zero_add _
  rw [hsize, Array.empty_append] at hrounds
  change Eval.inBlock (runLoop name (eval deeper (.var name)) _ .collect) st₁ = _
  unfold Engine.collected
  split_ifs at hrounds ⊢ with hn
  · rw [inBlock_collect_of_run hrounds, ← collect_numbers xs]
    rfl
  · rw [inBlock_collect_of_run hrounds]
    rfl

/-! ## Both -/

/-- **A range and the loop over it** come to the same: the vector of the positions if these are not
too many, and otherwise one fault. -/
theorem eval_range_eq_loop {start step stop : Float}
    (h : (Range.ofBounds start step stop).Measured) :
    ∃ xs, (Range.ofBounds start step stop).Yields xs ∧
      (Range.ofBounds start step stop).values =
        (if xs.length ≤ maxVectorLength then .ok xs
          else .error (.vectorTooLong maxVectorLength)) ∧
      ∀ (n : Nat) (held : List Nat) (name : String) (a : Expr) (d : Option Expr) (b : Expr)
        (st st₁ : Engine), st.env.Sound held → evalAll (deeperAt n) (bounds a d b) st =
          ([.number start, .number step, .number stop], st₁) →
        eval (deeperAt n) (.range a d b) st = st₁.collected xs ∧
          ∃ env : Environment, st₁.env.Calm env ∧
            eval (deeperAt n) (.loop .collect name (.range a d b) (.var name) none) st =
              { st₁ with env }.collected xs := by
  obtain ⟨xs, hxs, -⟩ := Range.exists_yields (.ofBounds start step stop)
  have hvalues := h.values_eq hxs
  refine ⟨xs, hxs, hvalues, fun n held name a d b st st₁ hs hrun => ⟨?_, ?_⟩⟩
  · rw [eval_range_of_run hrun, hvalues, Engine.collected]
    split_ifs <;> rfl
  · have hs₁ : (evalAll (deeperAt n) (bounds a d b) st).2.env.Sound held :=
      moves_evalAll (R := KeepsSound held) (moves_deeperAt n) _ st hs
    rw [hrun] at hs₁
    exact eval_positions_loop hs₁ hrun hxs

/-- Adding one to `1e17` changes nothing, so the range from `1e17` to `2e17` has a single position.
Its quotient is too large, and it is refused. -/
theorem values_absorbedStep : (Range.ofBounds 1e17 1.0 2e17).Yields [1e17] ∧
    (Range.ofBounds 1e17 1.0 2e17).values = .error (.vectorTooLong maxVectorLength) := by
  have hrefused : (Range.ofBounds 1e17 1.0 2e17).Refused := by decide +kernel
  have hyields : (Range.ofBounds 1e17 1.0 2e17).Yields [1e17] :=
    .next (Range.next?_of_continues (by decide +kernel))
      (.done (Range.next?_of_not_continues (by decide +kernel)))
  refine ⟨hyields, ?_⟩
  rw [hyields.values_eq, if_pos (.inl hrefused)]

/-- The integers from zero to `2 ^ 24` are one too many, for a vector and for a loop. -/
theorem eval_range_tooLong :
    let a : Expr := .constant (.number 0.0)
    let b : Expr := .constant (.number 16777216.0)
    let st := Engine.create {}
    eval (deeperAt 0) (.range a none b) st =
        (.invalid, st.report (.vectorTooLong maxVectorLength)) ∧
      ∃ env : Environment, st.env.Calm env ∧
        eval (deeperAt 0) (.loop .collect "i" (.range a none b) (.var "i") none) st =
          (.invalid, { st with env }.report (.vectorTooLong maxVectorLength)) := by
  intro a b st
  have hgrid : (Range.ofBounds 0.0 1.0 16777216.0).OnGrid 1074 :=
    ⟨by decide +kernel, by decide +kernel, by decide +kernel, by decide +kernel, by decide +kernel⟩
  have hrefused : (Range.ofBounds 0.0 1.0 16777216.0).Refused := by decide +kernel
  obtain ⟨xs, hxs, hvalues, heval⟩ := eval_range_eq_loop (fun _ => .inl ⟨_, hgrid⟩)
  have hlong : ¬ xs.length ≤ maxVectorLength := fun hn => by
    rw [if_pos hn, hxs.values_eq, if_pos (.inl hrefused)] at hvalues
    cases hvalues
  have hrun : evalAll (deeperAt 0) (bounds a none b) st =
      ([.number 0.0, .number 1.0, .number 16777216.0], st) := by
    simp only [bounds, evalAll_cons, evalAll_nil]
    rfl
  have hcollected : ∀ st : Engine, st.collected xs =
      (.invalid, st.report (.vectorTooLong maxVectorLength)) := fun st => if_neg hlong
  have hboth := heval 0 [] "i" a none b st st (Engine.Reachable.create {}).sound hrun
  simp only [hcollected] at hboth
  exact hboth

end FormulaLang
