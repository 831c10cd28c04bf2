import FormulaLang.Proofs.Engine.Reachable

/-!
# Evaluation without faults

No fault is forgotten, so an evaluation that records none in the end records none on the way.

* `Eval.Silent`: a computation that records no fault, with its result.
* `silent_bind`, `silent_check`, `silent_assign`, `silent_inBlock`, `silent_var`,
  `silent_forItems`: what its parts do.
* `eval_call`: a call by what its name is bound to.
* `eval_define`, `eval_sequence_cons`: definitions and statements.
-/

namespace FormulaLang

variable {α β σ : Type} {st st' : Engine}

/-- The computation has a result and records no fault. -/
def Eval.Silent (x : Eval α) (st : Engine) (a : α) (st' : Engine) : Prop :=
  x st = (a, st') ∧ st'.log.size = st.log.size

open Eval (Moves Silent)

theorem silent_pure {a b : α} (h : Silent (pure a) st b st') : a = b ∧ st' = st := by
  cases h.1
  exact ⟨rfl, rfl⟩

theorem silent_bind {x : Eval α} {f : α → Eval β} {b : β} (hx : Moves KeepsFaults x)
    (hf : ∀ a, Moves KeepsFaults (f a)) (h : Silent (x >>= f) st b st') :
    ∃ a st₁, Silent x st a st₁ ∧ Silent (f a) st₁ b st' := by
  rcases he : x st with ⟨a, st₁⟩
  have hb : f a st₁ = (b, st') := by
    have h := h.1
    change (f (x st).1 (x st).2) = _ at h
    rwa [he] at h
  have h₁ : st.log.size ≤ st₁.log.size := by
    have := hx st
    rwa [he] at this
  have h₂ : st₁.log.size ≤ st'.log.size := by
    have := hf a st₁
    rwa [hb] at this
  have hlog := h.2
  exact ⟨a, st₁, ⟨he, by omega⟩, hb, by omega⟩

theorem not_silent_fail {f : Fault} {v : Value} : ¬ Silent (Eval.fail f) st v st' := by
  rintro ⟨h, hlog⟩
  have hst : st' = (Eval.fail f st).2 := congrArg Prod.snd h.symm
  have hsize : (Eval.fail f st).2.log.size = st.log.size + 1 := Array.size_push _
  rw [hst, hsize] at hlog
  omega

theorem silent_check {r : Except Fault Value} {v : Value} (h : Silent (Eval.check r) st v st') :
    r = .ok v ∧ st' = st := by
  cases r with
  | ok w =>
    obtain ⟨rfl, hst⟩ := silent_pure h
    exact ⟨rfl, hst⟩
  | error f => exact absurd h not_silent_fail

theorem silent_assign {name : String} {u v : Value} (h : Silent (Eval.assign name u) st v st') :
    u = v ∧ (st.env.setVariable name u).2 = none ∧ st'.env = (st.env.setVariable name u).1 := by
  obtain ⟨h, hlog⟩ := h
  rcases assign_cases st name u with ⟨ha, hn⟩ | ⟨f, ha⟩
  · rw [ha] at h
    cases h
    exact ⟨rfl, hn, rfl⟩
  · rw [ha] at h
    cases h
    simp [Engine.report, Engine.note, Engine.onEnv] at hlog

theorem silent_inBlock {x : Eval α} {a : α} (h : Silent (Eval.inBlock x) st a st') :
    ∃ st₁, Silent x (st.onEnv .enter) a st₁ ∧ st'.env = st₁.env.leave := by
  rcases he : x (st.onEnv .enter) with ⟨b, st₁⟩
  have hb : Eval.inBlock x st = (b, st₁.onEnv .leave) := by
    change ((x (st.onEnv .enter)).1, (x (st.onEnv .enter)).2.onEnv .leave) = _
    rw [he]
  have h' := h.1
  rw [hb] at h'
  cases h'
  exact ⟨st₁, ⟨he, h.2⟩, rfl⟩

/-- A call that records no fault is done at some depth. -/
theorem silent_descend {deeper : Deeper} {call : (Task → Eval Value) → Eval Value} {v : Value}
    (h : Silent (descend deeper call) st v st') : ∃ task, Silent (call task) st v st' := by
  cases deeper with
  | none => exact absurd (show Silent (Eval.fail _) st v st' from h) not_silent_fail
  | some task => exact ⟨task, h⟩

/-! ## Names -/

section Names

variable {deeper : Deeper} {name : String} {v : Value}

theorem eval_var (deeper : Deeper) (name : String) (st : Engine) :
    eval deeper (.var name) st = (match st.env.value? name with
      | some v => pure v
      | none => Eval.fail (.undefinedVariable name)) st := by
  rw [eval]
  rfl

theorem silent_var (h : Silent (eval deeper (.var name)) st v st') :
    st' = st ∧ st.env.value? name = some v := by
  unfold Silent at h
  rw [eval_var] at h
  cases hw : st.env.value? name with
  | none =>
    rw [hw] at h
    exact absurd h not_silent_fail
  | some w =>
    rw [hw] at h
    obtain ⟨rfl, rfl⟩ := silent_pure h
    exact ⟨rfl, rfl⟩

theorem eval_call (deeper : Deeper) (name : String) (args : List Expr) (st : Engine) :
    eval deeper (.call name args) st = (match st.env.function? name with
      | none => Eval.fail (.undefinedFunction name)
      | some f => match f.callable with
        | .lazy run => descend deeper fun task => (run args).perform task
        | _ => evalAll deeper args >>= fun vs => invoke deeper name f vs) st := by
  rw [eval]
  rfl

section CallNamed

variable {deeper : Deeper} {name : String} {st : Engine} {args : List Value}

theorem run_function?_bind (f : Option Function → Eval α) :
    (Eval.function? name >>= f) st = f (st.env.function? name) st := rfl

theorem callNamed_of_none (hf : st.env.function? name = none) :
    callNamed deeper name args st = Eval.fail (.undefinedFunction name) st := by
  rw [callNamed, run_function?_bind, hf]

theorem callNamed_of_some {f : Function} (hf : st.env.function? name = some f) :
    callNamed deeper name args st = invoke deeper name f args st := by
  rw [callNamed, run_function?_bind, hf]

end CallNamed

end Names

/-! ## Statements -/

/-- Definitions have no value. -/
theorem eval_define (deeper : Deeper) (name : String) (params : List String) (body : Expr)
    (st : Engine) : eval deeper (.define name params body) st =
      (.void, st.onEnv (·.addFunction name (.user params body))) := by
  rw [eval]
  rfl

theorem eval_sequence_single (deeper : Deeper) (e : Expr) (st : Engine) :
    eval deeper (.sequence [e]) st = eval deeper e st := by
  rw [eval, evalSequence]
  rfl

/-- The value of a statement in front of others does not matter. -/
theorem eval_sequence_cons (deeper : Deeper) (e e' : Expr) (es : List Expr) (st : Engine) :
    eval deeper (.sequence (e :: e' :: es)) st =
      eval deeper (.sequence (e' :: es)) (eval deeper e st).2 := by
  rw [eval, eval, evalSequence, evalSequence]
  rfl

/-! ## Loops -/

section Loops

variable {step : σ → Value → Eval (Except Value σ)} {n : Nat} {items rest : Items} {item : Value}
  {s : σ} {out : Except Value σ}

theorem silent_forItems_of_none (hi : items.next? = none)
    (h : Silent (forItems step n items s) st out st') : out = .ok s ∧ st' = st := by
  have he : forItems step n items s st = (.ok s, st) := by
    cases n with
    | zero => rfl
    | succ n => rw [forItems, hi]
  have h' := h.1
  rw [he] at h'
  cases h'
  exact ⟨rfl, rfl⟩

/-- A round of a loop, and the rounds behind it unless it stops the loop. -/
theorem silent_forItems (hs : ∀ s v, Moves KeepsFaults (step s v))
    (hi : items.next? = some (item, rest)) (h : Silent (forItems step (n + 1) items s) st out st') :
    ∃ r st₁, Silent (step s item) st r st₁ ∧
      ((∃ s', r = .ok s' ∧ Silent (forItems step n rest s') st₁ out st') ∨
        ∃ v, r = .error v ∧ out = .error v ∧ st' = st₁) := by
  obtain ⟨h, hlog⟩ := h
  rw [forItems, hi] at h
  rcases he : step s item st with ⟨r, st₁⟩
  have h₁ : st.log.size ≤ st₁.log.size := by
    have := hs s item st
    rwa [he] at this
  cases r with
  | ok s' =>
    simp only [he] at h
    have h₂ : st₁.log.size ≤ st'.log.size := by
      have := moves_forItems (R := KeepsFaults) hs n rest s' st₁
      rwa [h] at this
    exact ⟨.ok s', st₁, ⟨he, by omega⟩, .inl ⟨s', rfl, h, by omega⟩⟩
  | error v =>
    simp only [he] at h
    cases h
    exact ⟨.error v, st', ⟨he, hlog⟩, .inr ⟨v, rfl, rfl, rfl⟩⟩

end Loops

end FormulaLang
