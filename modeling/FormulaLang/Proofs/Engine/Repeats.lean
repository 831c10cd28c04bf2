import FormulaLang.Proofs.Engine.Calm
import FormulaLang.Proofs.Engine.Derivation

/-!
# Doing the same again

Names may mean the same in two environments that hold different cells. A computation that cares
only for what names mean repeats itself: from both it gives the same result, records the same
faults and leaves environments in which names mean the same again.

* `Environment.Unchanged`: the bindings, the level and what the cells hold are the same.
* `Paired`: two runs of one computation, seen from where each of them started.
* `Repeats`: a computation that goes on with both runs in the same way.
* `Repeats.bind`, `repeats_value?`, `repeats_overItems`, **`repeats_inBlock`** and the like: what its
  parts do.
-/

namespace FormulaLang

open Environment (Inside)

/-! ## Unchanged environments -/

namespace Environment

/-- The same bindings at the same level, and cells that hold what they held. -/
structure Unchanged (env env' : Environment) : Prop extends Calm env env' where
  bindings : env'.functions.bindings = env.functions.bindings

variable {base env env' env'' : Environment} {held : List Nat}

namespace Unchanged

theorem refl (env : Environment) : env.Unchanged env := ⟨.refl env, rfl⟩

theorem trans (h : env.Unchanged env') (h' : env'.Unchanged env'') : env.Unchanged env'' :=
  ⟨h.toCalm.trans h'.toCalm, h'.bindings.trans h.bindings⟩

end Unchanged

/-- A block in which names were bound leaves nothing behind. -/
theorem Inside.unchanged (h : base.Inside env) (hs : env.Sound held) : base.Unchanged env.leave :=
  ⟨(h.leave hs).1, (h.leave hs).2⟩

end Environment

open Environment (Unchanged)

/-! ## Two runs -/

/-- What a run may do to an environment. -/
abbrev Environment.Change := Environment → Environment → Prop

/-- Two runs that started at `base` and `base'` have reached `st` and `st'`. The environments changed
in the same kind of way, names mean the same in both, and the same faults were recorded. -/
structure Paired (F : Environment.Change) (held : List Nat) (functions : String → Option Function)
    (base base' st st' : Engine) : Prop where
  sound : st.env.Sound held
  sound' : st'.env.Sound held
  value? : ∀ name, st'.env.value? name = st.env.value? name
  function? : st.env.function? = functions
  function?' : st'.env.function? = functions
  settings : st'.settings = st.settings
  change : F base.env st.env
  change' : F base'.env st'.env
  log : ∃ new, st.log = base.log ++ new ∧ st'.log = base'.log ++ new

/-- The computation goes on with both runs in the same way, and with the same result. -/
def Repeats {α : Type} (F : Environment.Change) (held : List Nat) (functions : String → Option Function)
    (x : Eval α) : Prop :=
  ∀ base base' st st', Paired F held functions base base' st st' →
    (x st').1 = (x st).1 ∧ Paired F held functions base base' (x st).2 (x st').2

section Repeats

variable {F G : Environment.Change} {held : List Nat} {functions : String → Option Function}
  {base base' st st' st₁ st₁' : Engine} {α β σ : Type} {x : Eval α} {name : String}

namespace Paired

theorem note (h : Paired F held functions base base' st st') (e : Located) :
    Paired F held functions base base' (st.note e) (st'.note e) where
  __ := h
  log := by
    obtain ⟨new, hl, hl'⟩ := h.log
    refine ⟨new.push e, ?_, ?_⟩
    · rw [Array.append_push, ← hl]
      rfl
    · rw [Array.append_push, ← hl']
      rfl

/-- The runs as seen from where they are now. -/
theorem restart (h : Paired F held functions base base' st st') (hG : ∀ env, G env env) :
    Paired G held functions st st' st st' where
  __ := h
  change := hG st.env
  change' := hG st'.env
  log := ⟨#[], (Array.append_empty).symm, (Array.append_empty).symm⟩

/-- What the runs did from a point in between counts from where they started. -/
theorem trans (h : Paired F held functions base base' st st')
    (h' : Paired G held functions st st' st₁ st₁')
    (hF : ∀ {env env' env''}, F env env' → G env' env'' → F env env'') :
    Paired F held functions base base' st₁ st₁' where
  __ := h'
  change := hF h.change h'.change
  change' := hF h.change' h'.change'
  log := by
    obtain ⟨old, hl, hl'⟩ := h.log
    obtain ⟨new, hn, hn'⟩ := h'.log
    exact ⟨old ++ new, by rw [hn, hl, Array.append_assoc], by rw [hn', hl', Array.append_assoc]⟩

end Paired

/-! ## Rules -/

theorem repeats_pure (a : α) : Repeats F held functions (pure a : Eval α) :=
  fun _ _ _ _ h => ⟨rfl, h⟩

theorem Repeats.bind {f : α → Eval β} (hx : Repeats F held functions x)
    (hf : ∀ a, Repeats F held functions (f a)) : Repeats F held functions (x >>= f) := by
  intro base base' st st' h
  obtain ⟨hv, h₁⟩ := hx _ _ _ _ h
  change (f (x st').1 (x st').2).1 = (f (x st).1 (x st).2).1 ∧
    Paired F held functions base base' (f (x st).1 (x st).2).2 (f (x st').1 (x st').2).2
  rw [hv]
  exact hf _ _ _ _ _ h₁

theorem repeats_report (f : Fault) : Repeats F held functions (Eval.report f) :=
  fun _ _ _ _ h => ⟨rfl, h.note _⟩

theorem repeats_fail (f : Fault) : Repeats F held functions (Eval.fail f) :=
  fun _ _ _ _ h => ⟨rfl, h.note _⟩

theorem repeats_check (r : Except Fault Value) : Repeats F held functions (Eval.check r) := by
  cases r with
  | ok v => exact repeats_pure v
  | error f => exact repeats_fail f

theorem repeats_value? (name : String) : Repeats F held functions (Eval.value? name) :=
  fun _ _ _ _ h => ⟨h.value? name, h⟩

/-- A name has the same function in both runs, and it is known which. -/
theorem repeats_function?_bind {f : Option Function → Eval α}
    (hf : Repeats F held functions (f (functions name))) :
    Repeats F held functions (Eval.function? name >>= f) := by
  intro base base' st st' h
  rw [run_function?_bind, run_function?_bind, h.function?, h.function?']
  exact hf _ _ _ _ h

/-- Going deeper than the limit fails. -/
theorem repeats_descend_none (call : (Task → Eval Value) → Eval Value) :
    Repeats F held functions (descend none call) := by
  intro base base' st st' h
  change (Eval.fail (.callDepth st'.settings.callDepth) st').1 =
      (Eval.fail (.callDepth st.settings.callDepth) st).1 ∧
    Paired F held functions base base' (Eval.fail (.callDepth st.settings.callDepth) st).2
      (Eval.fail (.callDepth st'.settings.callDepth) st').2
  rw [h.settings]
  exact repeats_fail _ _ _ _ _ h

theorem repeats_checkRange (a d b : Value) : Repeats F held functions (checkRange a d b) := by
  unfold checkRange
  split
  · exact repeats_pure _
  · exact repeats_pure _
  · exact (repeats_report _).bind fun _ => repeats_pure _

theorem repeats_ofBounds {f : Option Range → Eval α} (hf : ∀ r, Repeats F held functions (f r))
    (vs : List Value) : Repeats F held functions (ofBounds f vs) := by
  unfold ofBounds
  split
  · exact (repeats_checkRange _ _ _).bind hf
  · exact hf none

theorem repeats_checkItems (v : Value) : Repeats F held functions (checkItems v) := by
  unfold checkItems
  split
  · exact repeats_pure _
  split
  · exact repeats_pure _
  · exact (repeats_report _).bind fun _ => repeats_pure _

theorem repeats_check_source (source : LoopSource Expr) (vs : List Value) :
    Repeats F held functions (source.check vs) := by
  unfold LoopSource.check
  split
  · exact repeats_checkItems _
  · exact repeats_pure _
  · exact repeats_ofBounds (fun _ => repeats_pure _) _

/-! ## Loops -/

section Loops

variable {step : σ → Value → Eval (Except Value σ)}

theorem repeats_forItems (hs : ∀ s v, Repeats F held functions (step s v)) (n : Nat)
    (items : Items) (s : σ) : Repeats F held functions (forItems step n items s) := by
  induction n generalizing items s with
  | zero => exact repeats_pure (Except.ok s)
  | succ n ih =>
    cases hi : items.next? with
    | none =>
      rw [forItems_of_none hi]
      exact repeats_pure _
    | some p =>
      rw [forItems_of_some hi]
      refine (hs s p.1).bind fun r => ?_
      cases r with
      | ok s' => exact ih p.2 s'
      | error v => exact repeats_pure _

theorem repeats_overItems (hs : ∀ s v, Repeats F held functions (step s v)) (form : LoopForm σ)
    (items : Items) (s : σ) : Repeats F held functions (overItems step items s form.pack) := by
  rw [form.overItems_eq]
  exact (repeats_forItems hs _ items s).bind fun _ => repeats_pure _

end Loops

theorem repeats_append (out : Array Value) (v : Value) : Repeats F held functions (append out v) := by
  unfold append
  split
  · exact (repeats_fail _).bind fun _ => repeats_pure _
  · exact repeats_pure _

/-- What a loop does with an item and the value of its body. -/
theorem repeats_after (kind : LoopKind) (s : kind.form.1) (item v : Value) :
    Repeats F held functions (kind.form.2.after s item v) := by
  have hreduce : ∀ op empty acc, Repeats F held functions
      ((LoopForm.reduce op empty).after acc item v) := by
    intro op empty acc
    refine (repeats_check _).bind fun next => ?_
    split <;> exact repeats_pure _
  have haccumulate : ∀ op s, Repeats F held functions ((LoopForm.accumulate op).after s item v) := by
    intro op s
    refine (repeats_check _).bind fun next => ?_
    split
    · exact repeats_pure _
    · refine (repeats_append _ _).bind fun r => ?_
      split <;> exact repeats_pure _
  have hcollect : ∀ skip out, Repeats F held functions ((LoopForm.collect skip).after out item v) := by
    intro skip out
    unfold LoopForm.collect
    dsimp only
    split
    · split <;> exact repeats_pure _
    · exact repeats_append _ _
  have hfilter : ∀ lenient out,
      Repeats F held functions ((LoopForm.filter lenient).after out item v) := by
    intro lenient out
    unfold LoopForm.filter
    dsimp only
    split
    · exact repeats_append _ _
    · exact repeats_pure _
    · split
      · exact repeats_pure _
      · split
        · exact repeats_pure _
        · exact (repeats_fail _).bind fun _ => repeats_pure _
  cases kind with
  | sum | prod => exact hreduce _ _ s
  | cumSum | cumProd => exact haccumulate _ s
  | collect | defaultCollect | saveCollect => exact hcollect _ s
  | filter | saveFilter => exact hfilter _ s

/-! ## Blocks -/

/-- In a block on top of environments the same name is bound in both runs. -/
theorem Paired.addVariable (h : Paired Inside held functions base base' st st') (name : String)
    (v : Value) : Paired Inside held functions base base' (st.onEnv (·.addVariable name v))
      (st'.onEnv (·.addVariable name v)) where
  sound := h.sound.addVariable name v
  sound' := h.sound'.addVariable name v
  value? other := by
    have hv := h.sound.value?_addVariable name v other
    have hv' := h.sound'.value?_addVariable name v other
    rw [h.value?, ← hv] at hv'
    exact hv'
  function? := (funext fun other =>
    congrArg (ScopedTable.get? · other) (st.env.functions_addVariable name v)).trans h.function?
  function?' := (funext fun other =>
    congrArg (ScopedTable.get? · other) (st'.env.functions_addVariable name v)).trans h.function?'
  settings := h.settings
  change := h.change.addVariable name v
  change' := h.change'.addVariable name v
  log := h.log

theorem repeats_addVariable (name : String) (v : Value) :
    Repeats Inside held functions (Eval.change (·.addVariable name v)) :=
  fun _ _ _ _ h => ⟨rfl, h.addVariable name v⟩

theorem repeats_bindAll (params : List String) (args : List Value) :
    Repeats Inside held functions (bindAll params args) := by
  intro base base' st st' h
  have hpairs : ∀ (pairs : List (String × Value)) {st st'},
      Paired Inside held functions base base' st st' →
      Paired Inside held functions base base' (st.onEnv (·.addVariables pairs))
        (st'.onEnv (·.addVariables pairs)) := by
    intro pairs
    induction pairs with
    | nil => exact fun h => h
    | cons p pairs ih => exact fun h => ih (h.addVariable p.1 p.2)
  exact ⟨rfl, hpairs _ h⟩

/-- What repeats itself does so in a block. -/
theorem Repeats.inside (hx : Repeats Unchanged held functions x) :
    Repeats Inside held functions x := by
  intro base base' st st' h
  obtain ⟨hv, h'⟩ := hx _ _ _ _ (h.restart .refl)
  exact ⟨hv, h.trans h' fun hi hu => hi.calm hu.toCalm⟩

theorem Paired.enter (h : Paired F held functions base base' st st') :
    Paired Inside held functions st st' (st.onEnv .enter) (st'.onEnv .enter) where
  sound := h.sound.enter
  sound' := h.sound'.enter
  value? := h.value?
  function? := h.function?
  function?' := h.function?'
  settings := h.settings
  change := .enter h.sound
  change' := .enter h.sound'
  log := ⟨#[], (Array.append_empty).symm, (Array.append_empty).symm⟩

/-- Behind the block both runs are where they were, but for the faults. -/
theorem Paired.leave (h : Paired F held functions base base' st st')
    (h' : Paired Inside held functions st st' st₁ st₁') :
    Paired Unchanged held functions st st' (st₁.onEnv .leave) (st₁'.onEnv .leave) where
  sound := h'.sound.leave
  sound' := h'.sound'.leave
  value? name := by
    have hl := (h'.change.leave h'.sound).1.value? h.sound h'.sound.leave name
    have hl' := (h'.change'.leave h'.sound').1.value? h.sound' h'.sound'.leave name
    rw [h.value?, ← hl] at hl'
    exact hl'
  function? := (funext (h'.change.function?_leave h.sound h'.sound)).trans h.function?
  function?' := (funext (h'.change'.function?_leave h.sound' h'.sound')).trans h.function?'
  settings := h'.settings
  change := h'.change.unchanged h'.sound
  change' := h'.change'.unchanged h'.sound'
  log := h'.log

/-- **A block** leaves nothing behind but faults. -/
theorem repeats_inBlock (hx : Repeats Inside held functions x) :
    Repeats Unchanged held functions (Eval.inBlock x) := by
  intro base base' st st' h
  obtain ⟨hv, h'⟩ := hx _ _ _ _ h.enter
  exact ⟨hv, h.trans (h.leave h') .trans⟩

/-- A loop binds its variable in a block. -/
theorem repeats_runLoop {body : Eval Value} (hb : Repeats Unchanged held functions body)
    (name : String) (items : Items) (kind : LoopKind) :
    Repeats Inside held functions (runLoop name body items kind) := by
  rw [runLoop_eq]
  refine repeats_overItems (fun s item => ?_) _ _ _
  exact ((repeats_addVariable name item).bind fun _ => hb.inside).bind fun v =>
    repeats_after kind s item v

end Repeats

end FormulaLang
