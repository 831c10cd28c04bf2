import FormulaLang.Proofs.Bytecode.Stands

/-!
# Code that tracks an evaluation

A piece of code tracks an evaluation if its runs put numbers on the stack that fit the result,
whenever the evaluation records no fault. What evaluation and run have in common before, and how
both have changed behind it, are parameters. Runs with a full stack are not compared.

* `Eval.given`: evaluations under a condition.
* `Moment`: where evaluation and run are.
* **`Tracks`**: the piece tracks an evaluation.
* `Tracks.bind`, `Tracks.above`, `Tracks.pop`, `tracks_put`: evaluations one after the other.
* **`tracks_branch`**: conditions.
* **`runSteps_of_tracks`**: a whole program.
-/

namespace FormulaLang

open Eval (Moves Silent)

/-! ## Evaluations under a condition -/

section Given

variable {α β : Type} {C A : Engine → Prop} {B : α → Engine → Prop} {x : Eval α}
  {f : α → Eval β} {st st' : Engine} {v : α}

/-- A computation that is of interest where a condition holds. Elsewhere it records a fault. -/
noncomputable def Eval.given (C : Engine → Prop) (x : Eval α) : Eval α := fun st =>
  haveI := Classical.propDecidable (C st)
  x (if C st then st else st.report (.callDepth 0))

theorem given_of (h : C st) (x : Eval α) : x.given C st = x st := by
  rw [Eval.given, if_pos h]

theorem moves_given (hx : Moves KeepsFaults x) : Moves KeepsFaults (x.given C) := by
  intro st
  by_cases h : C st
  · rw [given_of h]
    exact hx st
  · rw [Eval.given, if_neg h]
    exact (keepsFaults_note st _).trans (hx _)

theorem silent_given (hx : Moves KeepsFaults x) :
    Silent (x.given C) st v st' ↔ C st ∧ Silent x st v st' := by
  constructor
  · rintro ⟨hv, hlog⟩
    have hC : C st := by
      by_contra hC
      rw [Eval.given, if_neg hC] at hv
      have hmoves := hx (st.report (.callDepth 0))
      rw [hv] at hmoves
      have hle : (st.log.push _).size ≤ st'.log.size := hmoves
      rw [Array.size_push] at hle
      omega
    rw [given_of hC] at hv
    exact ⟨hC, hv, hlog⟩
  · rintro ⟨hC, hv, hlog⟩
    exact ⟨(given_of hC x).trans hv, hlog⟩

/-- What holds in front of two computations holds in front of each of them. -/
theorem given_bind (hC : C st) (h₁ : A st) (h₂ : B (x st).1 (x st).2) :
    ((x >>= f).given C) st = (x.given A >>= fun v => (f v).given (B v)) st := by
  have hbind : (x.given A >>= fun v => (f v).given (B v)) st =
      ((f (x.given A st).1).given (B (x.given A st).1)) (x.given A st).2 := rfl
  rw [given_of hC, hbind, given_of h₁, given_of h₂]
  rfl

end Given

namespace Bytecode

/-- The environment of an evaluation, and the heap and the engine of a run. -/
structure Moment where
  env : Environment
  heap : Array Float
  engine : Engine

/-- **A piece of code tracks an evaluation.** It takes some numbers from the stack and leaves those
that fit the result. -/
def Tracks {α : Type} (Before : Moment → Prop) (After : Moment → Moment → Prop) (piece : Code)
    (x : Eval α) (Fits : α → List Float → Prop) (ins : List Float) : Prop :=
  ∀ ⦃limit code a s heap stv st st' v⦄, Placed code a piece → Before ⟨st.env, heap, stv⟩ →
    Silent x st v st' → Leads limit code (· = .stackOverflow)
      (fun m stv' => ∃ outs heap', m = ⟨a + piece.length, s ++ outs.toArray, heap'⟩ ∧
        Fits v outs ∧ After ⟨st.env, heap, stv⟩ ⟨st'.env, heap', stv'⟩)
      ⟨a, s ++ ins.toArray, heap⟩ stv

section Tracks

variable {α β : Type} {Before Before' : Moment → Prop} {After After' : Moment → Moment → Prop}
  {piece piece' : Code} {x y : Eval α} {f : α → Eval β} {Fits Fits₁ : α → List Float → Prop}
  {Fits' : β → List Float → Prop} {ins outs : List Float} {v : α}

namespace Tracks

theorem mono (h : Tracks Before After piece x Fits ins) (hb : ∀ m, Before' m → Before m)
    (ha : ∀ m m', Before' m → After m m' → After' m m')
    (hf : ∀ v outs, Fits v outs → Fits₁ v outs) : Tracks Before' After' piece x Fits₁ ins := by
  intro limit code a s heap stv st st' v hp hm hs
  refine (h hp (hb _ hm) hs).mono ?_
  rintro _ stv₁ ⟨outs, heap₁, rfl, hfit, hafter⟩
  exact ⟨outs, heap₁, rfl, hf v outs hfit, ha _ _ hm hafter⟩

theorem imp_of_silent (h : Tracks Before After piece x Fits ins)
    (hf : ∀ ⦃st st' v outs⦄, Silent x st v st' → Fits v outs → Fits₁ v outs) :
    Tracks Before After piece x Fits₁ ins := by
  intro limit code a s heap stv st st' v hp hm hs
  refine (h hp hm hs).mono ?_
  rintro _ stv₁ ⟨outs, heap₁, rfl, hfit, hafter⟩
  exact ⟨outs, heap₁, rfl, hf hs hfit, hafter⟩

/-- An evaluation that is the same from where the code starts. -/
theorem congr (h : Tracks Before After piece y Fits ins)
    (hxy : ∀ ⦃st st' v heap stv⦄, Before ⟨st.env, heap, stv⟩ → Silent x st v st' → x st = y st) :
    Tracks Before After piece x Fits ins := by
  intro limit code a s heap stv st st' v hp hm hs
  have heq := hxy hm hs
  unfold Silent at hs
  rw [heq] at hs
  exact h hp hm hs

/-- What an evaluation does whether there is code for it or not. -/
theorem and (h : Tracks Before After piece x Fits ins) {P : Environment → Environment → Prop}
    (hP : ∀ ⦃st st' v heap stv⦄, Before ⟨st.env, heap, stv⟩ → Silent x st v st' →
      P st.env st'.env) :
    Tracks Before (fun m m' => After m m' ∧ P m.env m'.env) piece x Fits ins := by
  intro limit code a s heap stv st st' v hp hm hs
  refine (h hp hm hs).mono ?_
  rintro _ stv₁ ⟨outs, heap₁, rfl, hfit, hafter⟩
  exact ⟨outs, heap₁, rfl, hfit, hafter, hP hm hs⟩

/-- **Two evaluations one after the other.** -/
theorem bind (hx : Tracks Before After piece x Fits ins) (hmx : Moves KeepsFaults x)
    (hf : ∀ m m' v outs, Before m → After m m' → Fits v outs →
      Tracks (· = m') (fun _ m₂ => After' m m₂) piece' (f v) Fits' outs)
    (hmf : ∀ v, Moves KeepsFaults (f v)) :
    Tracks Before After' (piece ++ piece') (x >>= f) Fits' ins := by
  intro limit code a s heap stv st st' v hp hm hs
  rw [placed_append] at hp
  obtain ⟨u, st₁, hs₁, hs₂⟩ := silent_bind hmx hmf hs
  refine (hx hp.1 hm hs₁).bind ?_
  rintro _ stv₁ ⟨outs₁, heap₁, rfl, hfit, hafter⟩
  refine (hf _ _ u outs₁ hm hafter hfit hp.2 rfl hs₂).mono ?_
  rintro _ stv₂ ⟨outs₂, heap₂, rfl, hfit₂, hafter₂⟩
  refine ⟨outs₂, heap₂, ?_, hfit₂, hafter₂⟩
  rw [List.length_append, Nat.add_assoc]

/-- Numbers further down on the stack stay where they are. -/
theorem above (h : Tracks Before After piece x Fits []) (below : List Float) :
    Tracks Before After piece x (fun v outs => ∃ above, outs = below ++ above ∧ Fits v above)
      below := by
  intro limit code a s heap stv st st' v hp hm hs
  have hstack : s ++ below.toArray = s ++ below.toArray ++ ([] : List Float).toArray := by simp
  rw [hstack]
  refine (h hp hm hs).mono ?_
  rintro _ stv₁ ⟨above, heap₁, rfl, hfit, hafter⟩
  refine ⟨below ++ above, heap₁, ?_, ⟨above, rfl, hfit⟩, hafter⟩
  simp [Array.append_assoc]

/-- A number that is dropped first. -/
theorem pop (h : Tracks Before After piece x Fits []) (z : Float) :
    Tracks Before After (.pop :: piece) x Fits [z] := by
  intro limit code a s heap stv st st' v hp hm hs
  rw [placed_cons] at hp
  have hpop : execute limit code.size .pop ⟨a, s ++ [z].toArray, heap⟩ stv =
      (.ok ⟨a + 1, s, heap⟩, stv) := Array.push_eq_append ▸ execute_pop ..
  refine .step hp.1 hpop ?_
  have hstack : s = s ++ ([] : List Float).toArray := by simp
  rw [hstack]
  refine (h hp.2 hm hs).mono ?_
  rintro _ stv₁ ⟨outs, heap₁, rfl, hfit, hafter⟩
  refine ⟨outs, heap₁, ?_, hfit, hafter⟩
  rw [List.length_cons, Nat.add_assoc, Nat.add_comm 1, Array.append_empty]

/-- Where the stack below does not matter. -/
theorem leads (h : Tracks Before After piece x Fits []) {limit : Nat} {code : Array Instruction}
    {a : Nat} {s heap : Array Float} {stv st st' : Engine} {v : α} (hp : Placed code a piece)
    (hm : Before ⟨st.env, heap, stv⟩) (hs : Silent x st v st') :
    Leads limit code (· = .stackOverflow)
      (fun m stv' => ∃ outs heap', m = ⟨a + piece.length, s ++ outs.toArray, heap'⟩ ∧
        Fits v outs ∧ After ⟨st.env, heap, stv⟩ ⟨st'.env, heap', stv'⟩) ⟨a, s, heap⟩ stv := by
  have := @h limit code a s heap stv st st' v hp hm hs
  rwa [Array.append_empty] at this

end Tracks

theorem tracks_pure (h : Fits v outs) (ha : ∀ m, Before m → After m m) :
    Tracks Before After [] (pure v) Fits outs := by
  intro limit code a s heap stv st st' u hp hm hs
  obtain ⟨rfl, rfl⟩ := silent_pure hs
  exact .here ⟨outs, heap, rfl, h, ha _ hm⟩

/-- An instruction that puts a number on the stack. -/
theorem tracks_put {i : Instruction}
    (h : ∀ ⦃heap stv st st' v⦄, Before ⟨st.env, heap, stv⟩ → Silent x st v st' →
      After ⟨st.env, heap, stv⟩ ⟨st'.env, heap, stv⟩ ∧ ∃ z, Fits v [z] ∧ ∀ limit n a s,
        execute limit n i ⟨a, s ++ ins.toArray, heap⟩ stv =
          (Machine.putNext limit z ⟨a, s, heap⟩, stv)) :
    Tracks Before After [i] x Fits ins := by
  intro limit code a s heap stv st st' v hp hm hs
  obtain ⟨hafter, z, hfit, he⟩ := h hm hs
  refine .put hp.1 (he limit code.size a s) rfl (.here ⟨[z], heap, ?_, hfit, hafter⟩)
  rw [Array.push_eq_append]
  rfl

end Tracks

/-! ## Conditions -/

/-- **A condition** and its two cases. -/
theorem tracks_branch {Before : Moment → Prop} {After After' : Moment → Moment → Prop}
    {condition value rest : Code} {x y z : Eval Value} {lacks : Bool}
    {Fits : Value → List Float → Prop}
    (hx : Tracks Before After condition x (Maybe .void lacks) []) (hmx : Moves KeepsFaults x)
    (hy : ∀ m m', Before m → After m m' → Tracks (· = m') (fun _ m₂ => After' m m₂) value y Fits [])
    (hmy : Moves KeepsFaults y)
    (hz : ∀ m m', Before m → After m m' → Tracks (· = m') (fun _ m₂ => After' m m₂) rest z Fits [])
    (hmz : Moves KeepsFaults z) :
    Tracks Before After' (branchCode condition value rest) (x >>= fun v =>
      match v with
      | .bool true => y
      | .bool false => z
      | v => if v.isInvalid then pure .invalid else Eval.fail (.nonBoolCondition v.kind)) Fits [] := by
  have hcode : branchCode condition value rest = condition ++ ([.unary .not,
      .jumpIf (value.length + 2)] ++ value ++ [.jump (rest.length + 1)] ++ rest) := by
    simp [branchCode]
  rw [hcode]
  refine hx.bind hmx (fun m m' v outs hm hafter hv => ?_) fun v => ?_
  · obtain ⟨c, rfl, hc⟩ := hv
    intro limit code a s heap stv st st' w hp hm' hs
    obtain ⟨b, rfl, rfl⟩ : ∃ b, v = .bool b ∧ c = Number.ofBool b := by
      -- Neither a number nor void is a condition.
      rcases hc with hc | ⟨-, rfl, -⟩
      · exact (asNumber?_cases hc).resolve_left fun h => not_silent_fail (h ▸ hs)
      · exact absurd hs not_silent_fail
    have hend := hp.le_size (lt_of_placed hp (by simp)).le
    simp only [placed_append, placed_cons, List.length_append, List.length_cons,
      List.length_nil] at hp hend
    obtain ⟨⟨⟨⟨hnot, hif, -⟩, hvalue⟩, hjump, -⟩, hrest⟩ := hp
    have hstack : s ++ [Number.ofBool b].toArray = s.push (Number.ofBool b) :=
      Array.push_eq_append.symm
    rw [hstack]
    refine .put hnot (execute_unary ..) rfl ?_
    rw [unaryOn_not]
    refine .jumpIf hif (b := a + (0 + 1 + 1 + value.length + (0 + 1))) (by omega) (by omega)
      (isTrue_ofBool _) (fun hb => ?_) (fun hb => ?_)
    · cases b with
      | true => cases hb
      | false =>
        refine ((hz m m' hm hafter).leads hrest hm' hs).mono ?_
        rintro _ stv₁ ⟨outs, heap₁, rfl, hfit, hafter₁⟩
        refine ⟨outs, heap₁, ?_, hfit, hafter₁⟩
        simp only [List.length_append, List.length_cons, List.length_nil, Machine.mk.injEq,
          and_true]
        omega
    · cases b with
      | false => cases hb
      | true =>
        refine ((hy m m' hm hafter).leads hvalue hm' hs).bind ?_
        rintro _ stv₁ ⟨outs, heap₁, rfl, hfit, hafter₁⟩
        rw [← Nat.add_assoc] at hjump
        refine .jump (b := a + (0 + 1 + 1 + value.length + (0 + 1) + rest.length)) hjump (by omega)
          hend (.here ⟨outs, heap₁, ?_, hfit, hafter₁⟩)
        simp only [List.length_append, List.length_cons, List.length_nil]
  · split
    · exact hmy
    · exact hmz
    · split
      · exact moves_pure _
      · exact moves_fail _

/-! ## Programs -/

/-- **The run of a program that tracks an evaluation** without faults is stopped by a full stack or
leads to a number that fits the value. -/
theorem runSteps_of_tracks {Before : Moment → Prop} {After : Moment → Moment → Prop} {p : Program}
    {x : Eval Value} {Fits : Value → List Float → Prop} {st st' stv : Engine} {v : Value}
    (h : Tracks Before After p.code.toList x Fits [])
    (hone : ∀ v outs, Fits v outs → ∃ y, outs = [y])
    (settings : Settings) (hm : Before ⟨st.env, (p.start settings).heap, stv⟩)
    (hs : Silent x st v st') : ∃ n r stv', p.runSteps n settings stv = (some r, stv') ∧
      (r = .error .stackOverflow ∨ ∃ y heap, r = .ok y ∧ Fits v [y] ∧
        After ⟨st.env, (p.start settings).heap, stv⟩ ⟨st'.env, heap, stv'⟩) := by
  have hplaced : Placed p.code 0 p.code.toList := by
    simpa using placed_toArray [] p.code.toList
  have hleads : Leads settings.stackLimit p.code (· = .stackOverflow) _ (p.start settings) stv :=
    h.leads hplaced hm hs
  have hend : p.code.size ≤ 0 + p.code.toList.length := by simp
  obtain ⟨n, stv', ⟨m, hn, hm⟩ | ⟨f, hn, rfl⟩⟩ := hleads.exists_runFor fun m st' hm => by
    obtain ⟨outs, heap, rfl, -⟩ := hm
    exact hend
  · obtain ⟨outs, heap, rfl, hfit, hafter⟩ := hm
    obtain ⟨y, rfl⟩ := hone v outs hfit
    refine ⟨n, .ok y, stv', ?_, .inr ⟨y, heap, rfl, hfit, hafter⟩⟩
    unfold Program.runSteps
    rw [show runFor settings.stackLimit p.code n (p.start settings) stv = _ from hn]
    rfl
  · refine ⟨n, .error .stackOverflow, stv', ?_, .inl rfl⟩
    unfold Program.runSteps
    rw [show runFor settings.stackLimit p.code n (p.start settings) stv = _ from hn]
    rfl

end Bytecode

end FormulaLang
