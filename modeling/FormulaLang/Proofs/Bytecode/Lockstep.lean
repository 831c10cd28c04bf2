import FormulaLang.Proofs.Bytecode.Lowering
import FormulaLang.Proofs.Bytecode.Stands
import FormulaLang.Proofs.Engine.Quiet

/-!
# Calls of functions of the environment

A program calls a function of the environment with the numbers on its stack, and so it does not tell
a bool from a number. Where only numbers are passed, evaluation and run call the same functions with
the same arguments one after the other, and both change the same engine.

* `Expr.applies`: formulas of constants, variables, operators and calls.
* `Expr.PassesNumbers`: what is passed to functions and given back during an evaluation.
* `Prepared`: where evaluation and run are between two calls.
* `InStep`: a piece of code that changes the engine as an evaluation does.
* **`runSteps_of_passesNumbers`**: a whole program.
* `runSteps_passedBool`: a program that passes a bool.
-/

namespace FormulaLang

open Eval (Moves Silent)

/-! ## Formulas of calls -/

namespace Expr

section Applies

set_option linter.unusedSectionVars false

variable (named : String → Bool)

mutual

/-- Numbers, bools, variables, operators and calls of functions of some names. -/
def applies : Expr → Bool
  | .constant (.number _) | .constant (.bool _) | .var _ => true
  | .unary _ e => applies e
  | .binary _ a b | .compare _ a b | .logical _ a b => applies a && applies b
  | .call name es => named name && appliesAll es
  | _ => false

def appliesAll : List Expr → Bool
  | [] => true
  | e :: es => applies e && appliesAll es

end

variable {named} {calls : String → Bool} (hsub : ∀ name, named name → calls name)

include hsub

mutual

theorem quiet_of_applies : ∀ e : Expr, e.applies named → e.quiet calls
  | .constant _, _ | .var _, _ => rfl
  | .unary _ e, h => by
    simpa [quiet] using quiet_of_applies e (by simpa [applies] using h)
  | .binary _ a b, h | .compare _ a b, h | .logical _ a b, h => by
    simp only [applies, Bool.and_eq_true] at h
    simp [quiet, quiet_of_applies a h.1, quiet_of_applies b h.2]
  | .call name es, h => by
    simp only [applies, Bool.and_eq_true] at h
    simp [quiet, hsub name h.1, quietAll_of_appliesAll es h.2]

theorem quietAll_of_appliesAll : ∀ es : List Expr, appliesAll named es → quietAll calls es
  | [], _ => rfl
  | e :: es, h => by
    simp only [appliesAll, Bool.and_eq_true] at h
    simp [quietAll, quiet_of_applies e h.1, quietAll_of_appliesAll es h.2]

end

end Applies

section PassesNumbers

variable (deeper : Deeper)

mutual

/-- **Only numbers are passed** to functions during an evaluation, every call gives a number or a
bool, and the name of a function means the same before and behind the arguments of a call. -/
def PassesNumbers : Expr → Engine → Prop
  | .unary _ e, st => PassesNumbers e st
  | .binary _ a b, st | .compare _ a b, st | .logical _ a b, st =>
    PassesNumbers a st ∧ PassesNumbers b (eval deeper a st).2
  | .call name es, st => PassAllNumbers es st ∧
    (∀ v ∈ (evalAll deeper es st).1, ∃ x, v = .number x) ∧
    (evalAll deeper es st).2.env.function? name = st.env.function? name ∧
    ∃ x, (eval deeper (.call name es) st).1.asNumber? = some x
  | _, _ => True

def PassAllNumbers : List Expr → Engine → Prop
  | [], _ => True
  | e :: es, st => PassesNumbers e st ∧ PassAllNumbers es (eval deeper e st).2

end

end PassesNumbers

end Expr

open FormulaLang.Expr (appliesAll PassAllNumbers)

namespace Bytecode

theorem appliesAll_of_operation {named : String → Bool} {e : Expr} {es : List Expr}
    {i : Instruction} (h : operation? e = some (es, i)) (he : e.applies named) :
    appliesAll named es := by
  cases e <;> cases h <;> simpa [appliesAll, Expr.applies] using he

theorem passAllNumbers_of_operation {deeper : Deeper} {e : Expr} {es : List Expr}
    {i : Instruction} {st : Engine} (h : operation? e = some (es, i))
    (he : e.PassesNumbers deeper st) : PassAllNumbers deeper es st := by
  cases e <;> cases h <;> simpa [PassAllNumbers, Expr.PassesNumbers] using he

/-! ## Between two calls -/

/-- The variables are those of the environment that a formula was compiled in, functions are of a
kind, and calls nest up to a depth. -/
structure Prepared (base : Environment) (held : List Nat) (P : String → Function → Prop) (n : Nat)
    (st : Engine) : Prop where
  sound : st.env.Sound held
  binds : st.env.Binds P
  calm : base.Calm st.env
  depth : st.settings.callDepth = n

section Prepared

variable {base : Environment} {held : List Nat} {P : String → Function → Prop} {n : Nat}
  {st : Engine} {name : String} {cell : Nat}

theorem Prepared.moves {α : Type} (h : Prepared base held P n st) {x : Eval α}
    (hx : Moves (Quietly held P) x) (hsettings : Moves KeepsSettings x) :
    Prepared base held P n (x st).2 := by
  obtain ⟨hs, hb, hc⟩ := hx st h.sound h.binds
  exact ⟨hs, hb, h.calm.trans hc, (congrArg Settings.callDepth (hsettings st)).trans h.depth⟩

/-- A variable with a cell has the number of the cell. -/
theorem Prepared.value?_cell (h : Prepared base held P n st) (hb : base.Sound held)
    (hc : globalCell base name = .ok cell) :
    st.env.value? name = some (.number (st.env.store.number cell)) := by
  unfold globalCell at hc
  split at hc
  · cases hc
  · next e he =>
    split_ifs at hc
    split at hc
    · next c hcell =>
      cases hc
      have hget : st.env.vars.get? name = some e.value :=
        (hb.vars.get?_congr h.sound.vars h.calm.vars name).trans (by
          rw [ScopedTable.get?, he]
          rfl)
      unfold Environment.value?
      rw [hget]
      rcases Variable.numberCell?_eq_some.1 hcell with hw | hw <;> rw [hw] <;> rfl
    · cases hc

end Prepared

/-! ## In step -/

/-- **A piece of code changes the engine as an evaluation does** that records no fault, and leaves
numbers that fit the result. -/
def InStep {α : Type} (Before : Engine → Prop) (piece : Code) (x : Eval α)
    (Fits : α → List Float → Prop) : Prop :=
  ∀ ⦃limit code a s heap st st' v⦄, Placed code a piece → Before st → Silent x st v st' →
    Leads limit code (· = .stackOverflow)
      (fun m stv => ∃ outs, m = ⟨a + piece.length, s ++ outs.toArray, heap⟩ ∧ Fits v outs ∧
        stv = st') ⟨a, s, heap⟩ st

/-- Values that count as the numbers on the stack, one for each tree. -/
def CountAll (es : List Expr) (vs : List Value) (outs : List Float) : Prop :=
  Counts vs outs ∧ vs.length = es.length

/-- The code of a piece keeps in step with its evaluation. -/
def Piece.InStep (base : Environment) (held : List Nat) (P : String → Function → Prop) (n : Nat)
    (code : Code) : Piece → Prop
  | .tree e => Bytecode.InStep
      (fun st => Prepared base held P n st ∧ e.PassesNumbers (deeperAt n) st) code
      (eval (deeperAt n) e) One
  | .args es => Bytecode.InStep
      (fun st => Prepared base held P n st ∧ PassAllNumbers (deeperAt n) es st) code
      (evalAll (deeperAt n) es) (CountAll es)
  | _ => True

section InStep

variable {base : Environment} {held : List Nat} {P : String → Function → Prop} {n : Nat}
  {name : String} {e : Expr} {es : List Expr} {code first rest : Code}

/-- An instruction that puts the number on the stack that a value counts as. -/
theorem inStep_push {Before : Engine → Prop} {x : Eval Value} {i : Instruction}
    (h : ∀ ⦃st st' v⦄, Before st → Silent x st v st' → st' = st ∧
      ∃ z, v.asNumber? = some z ∧ ∀ limit n m, execute limit n i m st = (m.putNext limit z, st)) :
    InStep Before [i] x One := by
  intro limit code a s heap st st' v hp hb hs
  obtain ⟨rfl, z, hz, he⟩ := h hb hs
  refine .put hp.1 (he limit code.size ⟨a, s, heap⟩) rfl
    (.here ⟨[z], ?_, one_iff.2 ⟨z, rfl, hz⟩, rfl⟩)
  rw [Array.push_eq_append]
  rfl

theorem inStep_operation {i : Instruction} (h : operation? e = some (es, i))
    (hes : (Piece.args es).InStep base held P n code) :
    (Piece.tree e).InStep base held P n (code ++ [i]) := by
  rintro limit code' a s heap st st' v hp ⟨hprep, hpass⟩ hs
  rw [placed_append] at hp
  rw [eval_operation h] at hs
  obtain ⟨vs, st₁, hargs, hs⟩ :=
    silent_bind (moves_evalAll (moves_deeperAt n) es) (fun vs => moves_check _) hs
  obtain ⟨hv, rfl⟩ := silent_check hs
  refine (hes hp.1 ⟨hprep, passAllNumbers_of_operation h hpass⟩ hargs).bind ?_
  rintro _ _ ⟨outs, rfl, ⟨hcounts, hlength⟩, rfl⟩
  obtain ⟨x, hx, he⟩ := operates_of_operation h hcounts hlength hv
  refine .put hp.2.1 (he limit _ _ s heap _) rfl (.here ⟨[x], ?_, one_iff.2 ⟨x, rfl, hx⟩, rfl⟩)
  rw [Array.push_eq_append, List.length_append, Nat.add_assoc]
  rfl

/-! ### Calls -/

theorem callResult_of_asNumber? {v : Value} {x : Float} (h : v.asNumber? = some x) :
    callResult name v = .ok x := by
  rcases asNumber?_cases h with rfl | ⟨b, rfl, rfl⟩ <;> rfl

/-- A call by the machine is a call with the same arguments in a formula. -/
theorem call_eq_invoke {st : Engine} (hdepth : st.settings.callDepth = n) {f : Function}
    (hf : st.env.function? name = some f) (vs : List Value) :
    Engine.call name vs st = invoke (deeperAt n) name f vs st := by
  have hrun : Engine.call name vs st = performAt st.settings.callDepth (.call name vs) st := rfl
  rw [hrun, hdepth, performAt_eq, perform, callNamed_of_some hf]

/-- **A call** of a function by its evaluated arguments. -/
theorem inStep_call (huser : ∀ f, P name f → ∃ params body, f = .user params body)
    (hes : (Piece.args es).InStep base held P n code) :
    (Piece.tree (.call name es)).InStep base held P n (code ++ [.call name es.length]) := by
  rintro limit code' a s heap st st' v hp ⟨hprep, hpass, hnumbers, hsame, hresult⟩ hs
  rw [placed_append] at hp
  obtain ⟨f, hf⟩ := exists_function_of_silent hs
  obtain ⟨params, body, rfl⟩ := huser f (hprep.binds.function? hprep.sound hf)
  obtain ⟨x, hx⟩ : ∃ x, v.asNumber? = some x := by rwa [hs.1] at hresult
  have heval : eval (deeperAt n) (.call name es) st = (evalAll (deeperAt n) es >>= fun vs =>
      invoke (deeperAt n) name (.user params body) vs) st := by
    rw [eval_call, hf]
    rfl
  unfold Silent at hs
  rw [heval] at hs
  obtain ⟨vs, st₁, hargs, hcall, -⟩ := silent_bind (moves_evalAll (moves_deeperAt n) es)
    (fun vs => moves_invoke (moves_deeperAt n) name _ vs) hs
  have hsettings : KeepsSettings st (evalAll (deeperAt n) es st).2 :=
    moves_evalAll (moves_deeperAt n) es st
  refine (hes hp.1 ⟨hprep, hpass⟩ hargs).bind ?_
  rintro _ stv ⟨outs, rfl, ⟨hcounts, hlength⟩, rfl⟩
  rw [hargs.1] at hnumbers hsame hsettings
  -- The machine passes the numbers on its stack, which are the arguments.
  obtain rfl := hcounts.eq_map_number hnumbers
  have hdepth := (congrArg Settings.callDepth hsettings).trans hprep.depth
  have he := execute_call limit code'.size (a + code.length) s heap stv name outs
  rw [call_eq_invoke hdepth (hsame.trans hf), hcall] at he
  dsimp only at he
  rw [callResult_of_asNumber? hx, ← List.length_map (f := Value.number), hlength] at he
  refine .put hp.2.1 he rfl (.here ⟨[x], ?_, one_iff.2 ⟨x, rfl, hx⟩, rfl⟩)
  rw [Array.push_eq_append, List.length_append, Nat.add_assoc]
  rfl

theorem inStep_consArg (hquiet : Moves (Quietly held P) (eval (deeperAt n) e))
    (he : (Piece.tree e).InStep base held P n first)
    (hes : (Piece.args es).InStep base held P n rest) :
    (Piece.args (e :: es)).InStep base held P n (first ++ rest) := by
  rintro limit code' a s heap st st' vs hp ⟨hprep, hpass, hpasses⟩ hs
  rw [placed_append] at hp
  rw [evalAll] at hs
  have hmes := moves_evalAll (R := KeepsFaults) (moves_deeperAt n) es
  obtain ⟨v, st₁, hfirst, hs⟩ := silent_bind (moves_eval (moves_deeperAt n) e)
    (fun v => moves_bind hmes fun vs => moves_pure (v :: vs)) hs
  obtain ⟨us, st₂, hrest, hs⟩ := silent_bind hmes (fun vs => moves_pure (v :: vs)) hs
  obtain ⟨rfl, rfl⟩ := silent_pure hs
  have hprep₁ := hprep.moves hquiet (moves_eval (moves_deeperAt n) e)
  rw [hfirst.1] at hprep₁ hpasses
  refine (he hp.1 ⟨hprep, hpass⟩ hfirst).bind ?_
  rintro _ _ ⟨out, rfl, hout, rfl⟩
  refine (hes hp.2 ⟨hprep₁, hpasses⟩ hrest).mono ?_
  rintro _ _ ⟨outs, rfl, ⟨hcounts, hlength⟩, rfl⟩
  obtain ⟨z, rfl, hz⟩ := one_iff.1 hout
  refine ⟨z :: outs, ?_, ⟨counts_cons.2 ⟨hz, hcounts⟩, congrArg Nat.succ hlength⟩, rfl⟩
  simp [Nat.add_assoc]

/-! ### Formulas -/

def Piece.applies (named : String → Bool) : Piece → Bool
  | .tree e => e.applies named
  | .args es => appliesAll named es
  | _ => false

/-- **The code of a formula keeps in step** with its evaluation. -/
theorem Lowered.inStep {calls named : String → Bool} (hP : Closed calls P)
    (huser : ∀ name f, P name f → named name → ∃ params body, f = .user params body)
    (hsub : ∀ name, named name → calls name) (hsound : base.Sound held) (hbinds : base.Binds P)
    {p : Piece} {s s' : Slots} (h : Lowered base p s code s') (hp : p.applies named)
    (hempty : s = {}) : s' = {} ∧ p.InStep base held P n code := by
  induction h with
  | number x =>
    refine ⟨hempty, inStep_push fun st st' v _ hs => ?_⟩
    obtain ⟨rfl, rfl⟩ := silent_pure hs
    exact ⟨rfl, x, rfl, fun limit n m => execute_constant ..⟩
  | bool b =>
    refine ⟨hempty, inStep_push fun st st' v _ hs => ?_⟩
    obtain ⟨rfl, rfl⟩ := silent_pure hs
    exact ⟨rfl, _, rfl, fun limit n m => execute_constant ..⟩
  | slot h =>
    subst hempty
    cases h
  | cell h hc =>
    refine ⟨hempty, inStep_push fun st st' v hb hs => ?_⟩
    obtain ⟨rfl, hv⟩ := silent_var hs
    rw [hb.1.value?_cell hsound hc] at hv
    cases hv
    exact ⟨rfl, _, rfl, fun limit n m => execute_readCell ..⟩
  | operation h hes ih =>
    obtain ⟨hs', hes⟩ := ih (appliesAll_of_operation h hp) hempty
    exact ⟨hs', inStep_operation h hes⟩
  | @call s s' name args f code hl hf hn hargs ih =>
    simp only [Piece.applies, Expr.applies, Bool.and_eq_true] at hp
    obtain ⟨hs', hargs⟩ := ih hp.2 hempty
    obtain ⟨params, body, rfl⟩ := huser name f (hbinds.function? hsound hf) hp.1
    exact ⟨hs', inStep_call (fun g hg => huser name g hg hp.1) hargs⟩
  | inline hf =>
    subst hempty
    cases hf
  | noArgs =>
    refine ⟨hempty, fun limit code' a s heap st st' vs hp hb hs => ?_⟩
    obtain ⟨rfl, rfl⟩ := silent_pure hs
    exact .here ⟨[], by simp, ⟨counts_nil, rfl⟩, rfl⟩
  | consArg he hes ihe ihes =>
    simp only [Piece.applies, appliesAll, Bool.and_eq_true] at hp
    obtain ⟨hs₁, he⟩ := ihe hp.1 hempty
    obtain ⟨hs₂, hes⟩ := ihes hp.2 hs₁
    exact ⟨hs₂, inStep_consArg (quietly_eval (quietly_deeperAt hP n) hP _
      (Expr.quiet_of_applies hsub _ hp.1)) he hes⟩
  | _ => cases hp

/-- **Calls of functions of the environment** from compiled code. Functions of some names are those
of formulas, and no body that may be called assigns a variable. If only numbers are passed to them
and evaluating the formula records no fault, the run of its program is stopped by a full stack, or
it leads to the number that the value counts as and leaves the engine as evaluation does. -/
theorem runSteps_of_passesNumbers {cells : List HostCell} {st st' : Engine} {e : Expr} {p : Program}
    {v : Value} {named calls : String → Bool} (h : Engine.Reachable cells st)
    (hsub : ∀ name, named name → calls name)
    (hquiet : st.env.Binds fun name f => calls name → f.Quiet calls)
    (huser : st.env.Binds fun name f => named name → ∃ params body, f = .user params body)
    (he : e.applies named) (hp : compile st.env e = .ok p)
    (hv : Engine.evaluate e st = (v, st')) (hlog : st'.log = st.log)
    (hpass : e.PassesNumbers (deeperAt st.settings.callDepth) st) (settings : Settings) :
    ∃ n r stv, p.runSteps n settings st = (some r, stv) ∧
      (r = .error .stackOverflow ∨ ∃ x, r = .ok x ∧ v.asNumber? = some x ∧ stv = st') := by
  obtain ⟨s, hl, -⟩ := lowered_of_compile hp
  have hP : Closed calls fun name f => (calls name → f.Quiet calls) ∧
      (named name → ∃ params body, f = .user params body) :=
    ⟨And.left, fun hbody => ⟨fun _ => hbody, fun _ => ⟨_, _, rfl⟩⟩⟩
  have hbinds := fun b hb => And.intro (hquiet b hb) (huser b hb)
  have hin : (Piece.tree e).InStep st.env _ _ st.settings.callDepth p.code.toList :=
    (hl.inStep hP (fun _ _ => And.right) hsub h.sound hbinds he rfl).2
  have hplaced : Placed p.code 0 p.code.toList := by
    simpa using placed_toArray [] p.code.toList
  rw [evaluate_eq] at hv
  have hleads : Leads settings.stackLimit p.code (· = .stackOverflow) _ (p.start settings) st :=
    hin hplaced ⟨⟨h.sound, hbinds, .refl _, rfl⟩, hpass⟩ ⟨hv, congrArg Array.size hlog⟩
  obtain ⟨n, stv, ⟨m, hn, outs, rfl, hout, rfl⟩ | ⟨f, hn, rfl⟩⟩ :=
    hleads.exists_runFor fun m stv hm => by
      obtain ⟨outs, rfl, -⟩ := hm
      simp
  · obtain ⟨x, rfl, hx⟩ := one_iff.1 hout
    refine ⟨n, .ok x, stv, ?_, .inr ⟨x, rfl, hx, rfl⟩⟩
    unfold Program.runSteps
    rw [hn]
    rfl
  · refine ⟨n, .error .stackOverflow, stv, ?_, .inl rfl⟩
    unfold Program.runSteps
    rw [hn]
    rfl

end InStep

/-! ## An engine with one function -/

section WithFunction

/-- A new engine with a function of one parameter. -/
def withFunction (name param : String) (body : Expr) : Engine :=
  (Engine.create {}).onEnv (·.addFunction name (.user [param] body))

/-- The same engine when the body is evaluated. -/
def inFunction (name param : String) (body : Expr) (v : Value) : Engine :=
  (withFunction name param body).onEnv fun env => env.enter.addVariable param v

variable {name param : String} {body : Expr} {v : Value}

theorem reachable_withFunction : Engine.Reachable [] (withFunction name param body) :=
  (Engine.Reachable.create {}).addFunction name _

theorem function?_withFunction :
    (withFunction name param body).env.function? name = some (.user [param] body) :=
  ((Engine.Reachable.create {}).sound.function?_addFunction name _ name).trans (if_pos rfl)

theorem binds_withFunction {P : String → Function → Prop} (hP : ∀ p ∈ Catalog.functions, P p.1 p.2)
    (h : P name (.user [param] body)) : (withFunction name param body).env.Binds P :=
  (Catalog.binds_create hP {}).addFunction (Engine.Reachable.create {}).sound h

theorem eval_parameter (deeper : Deeper) :
    eval deeper (.var param) (inFunction name param body v) = (v, inFunction name param body v) := by
  have hvalue : (inFunction name param body v).env.value? param = some v :=
    (reachable_withFunction.sound.enter.value?_addVariable param v param).trans (if_pos rfl)
  rw [eval_var, hvalue]
  rfl

theorem eval_withFunction (n : Nat) (hv : v.isInvalid = false) :
    eval (deeperAt (n + 1)) (.call name [.constant v]) (withFunction name param body) =
      let r := eval (deeperAt n) body (inFunction name param body v)
      (r.1, r.2.onEnv (·.leave)) :=
  eval_call_single function?_withFunction hv

theorem environmentCall_withFunction : environmentCall (withFunction name param body).env name =
    fun args count => do
      checkArity name (some 1) count
      return (← args) ++ [.call name count] := by
  funext args count
  rw [environmentCall, function?_withFunction]
  rfl

/-- A tree without definitions is lowered once. -/
theorem compile_eq_lower {env : Environment} {e : Expr} (h : definitions e = 0) :
    compile env e = (do
      let (code, slots) ← (lower env none e).run {}
      return ⟨code.toArray, slots.size⟩) := by
  unfold compile
  rw [h]
  rfl

end WithFunction

/-- `f(2) < 3`. -/
def comparedCall : Expr :=
  .compare .lt (.call "f" [.constant (.number 2.0)]) (.constant (.number 3.0))

/-- The program of `comparedCall`. -/
def comparingProgram : Program where
  code := #[.constant 2.0, .call "f" 1, .constant 3.0, .compare .lt]
  heapSize := 0

theorem runSteps_comparedCall :
    let st := withFunction "f" "x" (.var "x")
    ∃ p st', (∀ name, name == "f" → name == "f") ∧
      (st.env.Binds fun name f => name == "f" → f.Quiet (· == "f")) ∧
      (st.env.Binds fun name f => name == "f" → ∃ params body, f = .user params body) ∧
      comparedCall.applies (· == "f") ∧ compile st.env comparedCall = .ok p ∧
      Engine.evaluate comparedCall st = (.bool true, st') ∧ st'.log = st.log ∧
      comparedCall.PassesNumbers (deeperAt st.settings.callDepth) st ∧
      ∃ n r stv, p.runSteps n {} st = (some r, stv) ∧
        (r = .error .stackOverflow ∨
          ∃ x, r = .ok x ∧ (Value.bool true).asNumber? = some x ∧ stv = st') := by
  intro st
  let st' := (inFunction "f" "x" (.var "x") (.number 2.0)).onEnv (·.leave)
  have hcall : eval (deeperAt 256) (.call "f" [.constant (.number 2.0)]) st = (.number 2.0, st') := by
    rw [eval_withFunction 255 rfl, eval_parameter]
  have hp : compile st.env comparedCall = .ok comparingProgram := by
    rw [compile_eq_lower rfl, comparedCall]
    simp only [lower]
    rw [environmentCall_withFunction]
    rfl
  have hv : Engine.evaluate comparedCall st = (.bool true, st') := by
    have heval : ∀ deeper st, eval deeper comparedCall st =
        let r := eval deeper (.call "f" [.constant (.number 2.0)]) st
        Eval.check (r.1.compare .lt (.number 3.0)) r.2 := fun _ _ => rfl
    rw [evaluate_eq, heval, show eval (deeperAt st.settings.callDepth) _ st = _ from hcall]
    rfl
  have hnew : "f" ∉ Catalog.functions.map Prod.fst := by decide +kernel
  have hquiet : st.env.Binds fun name f => name == "f" → f.Quiet (· == "f") :=
    binds_withFunction (fun p hp _ => Catalog.quiet _ hp) fun _ => rfl
  have huser : st.env.Binds fun name f => name == "f" → ∃ params body, f = .user params body :=
    by
    refine binds_withFunction (fun p hp hn => ?_) fun _ => ⟨_, _, rfl⟩
    exact absurd (beq_iff_eq.1 hn ▸ List.mem_map_of_mem hp) hnew
  have hsame : st.env.function? "f" = st.env.function? "f" := rfl
  have hpass : comparedCall.PassesNumbers (deeperAt st.settings.callDepth) st := by
    change comparedCall.PassesNumbers (deeperAt 256) st
    refine ⟨⟨⟨trivial, trivial⟩, ?_, rfl, 2.0, ?_⟩, trivial⟩
    · intro v hv
      cases List.mem_singleton.1 hv
      exact ⟨_, rfl⟩
    · rw [hcall]
      rfl
  exact ⟨comparingProgram, st', fun _ => id, hquiet, huser, rfl, hp, hv, rfl, hpass,
    runSteps_of_passesNumbers reachable_withFunction (fun _ => id) hquiet huser rfl hp hv rfl hpass
      {}⟩

/-- `f(true)`. -/
def passedBool : Expr := .call "f" [.constant (.bool true)]

/-- `if(b, 1, 2)`. -/
def choice : Expr :=
  .cases [(.var "b", .constant (.number 1.0))] (some (.constant (.number 2.0)))

/-- What `choice` gives for a condition. -/
def chosen : Value → Eval Value
  | .bool true => pure (.number 1.0)
  | .bool false => pure (.number 2.0)
  | v => if v.isInvalid then pure .invalid else Eval.fail (.nonBoolCondition v.kind)

/-- The program of `passedBool`. -/
def passingBool : Program where
  code := #[.constant (Number.ofBool true), .call "f" 1]
  heapSize := 0

/-- **A bool that is passed** is one for the function that the program calls, which is no condition,
while evaluation gives a number. -/
theorem runSteps_passedBool :
    let st := withFunction "f" "b" choice
    ∃ p st' stv, passedBool.applies (· == "f") ∧ choice.quiet (· == "f") ∧
      compile st.env passedBool = .ok p ∧ Engine.evaluate passedBool st = (.number 1.0, st') ∧
      st'.log = st.log ∧
      p.runSteps 2 {} st = (some (.error (.functionResult "f" .invalid)), stv) := by
  intro st
  have hbody : ∀ v, eval (deeperAt 255) choice (inFunction "f" "b" choice v) =
      chosen v (inFunction "f" "b" choice v) := by
    intro v
    have heval : ∀ st, eval (deeperAt 255) choice st =
        let r := eval (deeperAt 255) (.var "b") st
        chosen r.1 r.2 := fun _ => rfl
    rw [heval, eval_parameter]
  have hcall : ∀ {v : Value}, v.isInvalid = false → eval (deeperAt 256) (.call "f" [.constant v]) st =
      let r := eval (deeperAt 255) choice (inFunction "f" "b" choice v)
      (r.1, r.2.onEnv (·.leave)) := eval_withFunction 255
  have hp : compile st.env passedBool = .ok passingBool := by
    rw [compile_eq_lower rfl, passedBool]
    simp only [lower]
    rw [environmentCall_withFunction]
    rfl
  have hv : Engine.evaluate passedBool st =
      (.number 1.0, (inFunction "f" "b" choice (.bool true)).onEnv (·.leave)) := by
    rw [evaluate_eq]
    exact (hcall rfl).trans (by rw [hbody]; rfl)
  -- The program passes a number, which is no condition.
  let one := Number.ofBool true
  let stv := ((inFunction "f" "b" choice (.number one)).report
    (.nonBoolCondition .number)).onEnv (·.leave)
  have hnumber : Engine.call "f" [.number one] st = (.invalid, stv) := by
    have hinvoke : Engine.call "f" [.number one] st =
        eval (deeperAt 256) (.call "f" [.constant (.number one)]) st := by
      rw [call_eq_invoke (n := 256) rfl function?_withFunction, eval_call, function?_withFunction]
      rfl
    rw [hinvoke, hcall rfl, hbody]
    rfl
  let limit := Settings.stackLimit {}
  let heap := (passingBool.start {}).heap
  have hfirst : execute limit 2 (.constant one) ⟨0, #[], heap⟩ st = (.ok ⟨1, #[one], heap⟩, st) :=
    congrArg (·, st) (Machine.putNext_of_lt 0 heap one (by decide))
  have hsecond : execute limit 2 (.call "f" 1) ⟨1, #[one], heap⟩ st =
      (.error (.functionResult "f" .invalid), stv) := by
    have he := execute_call limit 2 1 #[] heap st "f" [one]
    rw [List.map_singleton, hnumber] at he
    exact he
  have hrun : runFor limit passingBool.code 2 ⟨0, #[], heap⟩ st =
      (some (.error (.functionResult "f" .invalid)), stv) := by
    rw [runFor, show passingBool.code[0]? = some (.constant one) from rfl]
    simp only [show passingBool.code.size = 2 from rfl, hfirst]
    rw [runFor, show passingBool.code[1]? = some (.call "f" 1) from rfl]
    simp only [show passingBool.code.size = 2 from rfl, hsecond]
  refine ⟨passingBool, _, stv, rfl, rfl, hp, hv, rfl, ?_⟩
  unfold Program.runSteps
  rw [show runFor _ _ 2 (passingBool.start {}) st = _ from hrun]
  rfl
end Bytecode

end FormulaLang
