import FormulaLang.Proofs.Engine.LoopTraces

/-!
# Reductions and loops

The catalog folds the items of a value with functions that have the names of loops. The loop over
the same value that gives its variable in every round does the same: it binds the variable and reads
it again, and takes the same step.

* `Catalog.reduced`: what the items of a value are reduced to.
* `LoopForm.Reduces`: a loop that takes the steps of a reduction.
* `LoopForm.Reduces.forItems`: the rounds over some items.
* **`LoopKind.exists_reduces`**: the kinds of loops that have a function of their name.
* `eval_call_reduction`, `eval_loop_reduction`: a call and a loop.
* **`reductions_agree`**: both come to the same.
-/

namespace FormulaLang

open Catalog (functions partials reduction)

/-! ## Steps -/

/-- One step of a fold. -/
theorem Catalog.partials_single (op : BinaryOp) (v : Value) (acc : Option Value)
    (steps : Array Value) : partials op [v] acc steps =
      (fold op acc v).map fun w => if w.isInvalid then none else some (steps.push w) := by
  rw [partials]
  cases fold op acc v with
  | error f => rfl
  | ok w => cases h : w.isInvalid <;> simp [Except.map, h, partials]

/-- A step of a fold, and the steps behind it. -/
theorem Catalog.partials_cons (op : BinaryOp) (v : Value) (vs : List Value) (steps : Array Value) :
    partials op (v :: vs) steps.back? steps =
      match partials op [v] steps.back? steps with
      | .ok (some steps) => partials op vs steps.back? steps
      | r => r := by
  rw [partials_single, partials]
  cases fold op steps.back? v with
  | error f => rfl
  | ok w => cases h : w.isInvalid <;> simp [Except.map, h]

/-- What some items are reduced to: the packed steps, the invalid value or a fault. -/
def Catalog.packed (op : BinaryOp) (pack : Array Value → Value) (items : List Value) :
    Except Fault Value :=
  (partials op items none #[]).map fun
    | some steps => pack steps
    | none => .invalid

/-- What a value is reduced to, with the fault for a value that has no items. -/
def Catalog.reduced (op : BinaryOp) (pack : Array Value → Value) (f : Fault) (v : Value) :
    Except Fault Value :=
  if v.isInvalid then .ok .invalid
  else match v.items? with
    | none => .error f
    | some items => packed op pack items

namespace LoopForm

variable {σ : Type}

/-- How a loop goes on or stops with the steps of a fold. -/
def settle (state : Array Value → σ) :
    Except Fault (Option (Array Value)) → Eval (Except Value σ)
  | .error f => do return .error (← Eval.fail f)
  | .ok none => return .error .invalid
  | .ok (some steps) => return .ok (state steps)

/-- A loop that takes the steps of a fold, as long as they fit into a vector. -/
structure Reduces (form : LoopForm σ) (op : BinaryOp) (pack : Array Value → Value)
    (state : Array Value → σ) : Prop where
  start : form.start = state #[]
  after : ∀ {steps : Array Value} {item v : Value}, steps.size < maxVectorLength →
    form.after (state steps) item v = settle state (partials op [v] steps.back? steps)
  pack : ∀ steps, form.pack (state steps) = pack steps

theorem reduces_reduce (op : BinaryOp) (empty : Float) :
    (reduce op empty).Reduces op (Catalog.lastOr empty) (·.back?) where
  start := rfl
  after {steps item v} _ := by
    funext st
    rw [after_reduce, Catalog.partials_single]
    cases fold op steps.back? v with
    | error f => rfl
    | ok w => cases hw : w.isInvalid <;> simp [Except.map, hw, settle] <;> rfl
  pack _ := rfl

theorem reduces_accumulate (op : BinaryOp) : (accumulate op).Reduces op
    (fun steps => .collect steps.toList) (fun steps => (steps.back?, steps)) where
  start := rfl
  after {steps item v} hroom := by
    funext st
    rw [after_accumulate, Catalog.partials_single]
    cases fold op steps.back? v with
    | error f => rfl
    | ok w => cases hw : w.isInvalid <;> simp [Except.map, hw, settle, hroom.ne] <;> rfl
  pack _ := rfl

variable {form : LoopForm σ} {op : BinaryOp} {pack : Array Value → Value} {state : Array Value → σ}
  {deeper : Deeper} {name : String} {held : List Nat} {st : Engine}

variable (deeper name) in
/-- A round binds the variable to an item, reads it and takes a step. -/
theorem Reduces.step (h : form.Reduces op pack state) (hs : st.env.Sound held)
    (steps : Array Value) (hroom : steps.size < maxVectorLength) (item : Value) :
    form.step name (eval deeper (.var name)) (state steps) item st =
      settle state (partials op [item] steps.back? steps)
        (st.onEnv (·.addVariable name item)) :=
  (step_var hs deeper name _ item).trans (congrFun (h.after hroom) _)

/-- A step leaves the room for those behind it. -/
theorem size_of_partials {steps steps' : Array Value} {acc : Option Value} {v : Value}
    (h : partials op [v] acc steps = .ok (some steps')) : steps'.size = steps.size + 1 := by
  rw [Catalog.partials_single] at h
  cases hw : fold op acc v with
  | error f =>
    rw [hw] at h
    cases h
  | ok w =>
    rw [hw] at h
    cases hi : w.isInvalid <;> simp [Except.map, hi] at h
    rw [← h, Array.size_push]

variable (deeper name st) in
/-- **The rounds over some items** take the steps of the fold, in the block of the loop. -/
theorem Reduces.forItems {base : Environment} (h : form.Reduces op pack state)
    (hs : st.env.Sound held) (hin : base.Inside st.env) (vs : List Value) (steps : Array Value)
    (hroom : steps.size + vs.length ≤ maxVectorLength) :
    ∃ env : Environment, env.Sound held ∧ base.Inside env ∧
      FormulaLang.forItems (form.step name (eval deeper (.var name))) (Items.values vs).left
          (.values vs) (state steps) st =
        settle state (partials op vs steps.back? steps) { st with env } := by
  induction vs generalizing st steps with
  | nil => exact ⟨st.env, hs, hin, by rw [forItems_of_none rfl]; rfl⟩
  | cons v vs ih =>
    have hnext : (Items.values (v :: vs)).next? = some (v, .values vs) := rfl
    have hround := h.step deeper name hs steps (Nat.lt_of_lt_of_le (by simp) hroom) v
    rw [forItems_left hnext, Catalog.partials_cons]
    cases hstep : partials op [v] steps.back? steps with
    | error f =>
      rw [hstep] at hround
      exact ⟨_, hs.addVariable name v, hin.addVariable name v, bind_of_run hround⟩
    | ok r =>
      cases r with
      | none =>
        rw [hstep] at hround
        exact ⟨_, hs.addVariable name v, hin.addVariable name v, bind_of_run hround⟩
      | some steps' =>
        rw [hstep] at hround
        have hroom' : steps'.size + vs.length ≤ maxVectorLength := by
          rw [List.length_cons] at hroom
          rw [size_of_partials hstep]
          omega
        obtain ⟨env, hsound, hinside, hrest⟩ := ih (st.onEnv (·.addVariable name v))
          (hs.addVariable name v) (hin.addVariable name v) steps' hroom'
        exact ⟨env, hsound, hinside, (bind_of_run hround).trans hrest⟩

end LoopForm

/-- **The loops that have a function of their name** take the steps of this function. -/
theorem LoopKind.exists_reduces {kind : LoopKind} {f : Function}
    (hf : (kind.name, f) ∈ functions) : ∃ op pack state,
      f = (reduction kind.name op pack).2 ∧ kind.form.2.Reduces op pack state := by
  have hsame : ∀ p ∈ functions, p.1 = kind.name → f = p.2 := fun p hp hn =>
    congrArg Prod.snd (List.inj_on_of_nodup_map Catalog.nodup_names hf hp hn.symm)
  have hname : kind.name ∈ functions.map Prod.fst := List.mem_map_of_mem hf
  cases kind with
  | sum =>
    exact ⟨_, _, _, hsame (reduction "sum" .add (Catalog.lastOr 0.0)) (by simp [functions]) rfl,
      LoopForm.reduces_reduce ..⟩
  | prod =>
    exact ⟨_, _, _, hsame (reduction "prod" .mul (Catalog.lastOr 1.0)) (by simp [functions]) rfl,
      LoopForm.reduces_reduce ..⟩
  | cumSum =>
    exact ⟨_, _, _, hsame (reduction "cumsum" .add _) (by simp [functions]) rfl,
      LoopForm.reduces_accumulate _⟩
  | cumProd =>
    exact ⟨_, _, _, hsame (reduction "cumprod" .mul _) (by simp [functions]) rfl,
      LoopForm.reduces_accumulate _⟩
  | _ => exact absurd hname (by decide)

/-! ## Calls and loops -/

section Trees

variable {n : Nat} {held : List Nat} {kind : LoopKind} {op : BinaryOp}
  {pack : Array Value → Value} {name : String} {e : Expr} {v : Value} {st st₁ : Engine}

/-- A call of a reduction. -/
theorem eval_call_reduction (hf : st.env.function? name = some (reduction name op pack).2)
    (he : eval (deeperAt (n + 1)) e st = (v, st₁)) :
    eval (deeperAt (n + 1)) (.call name [e]) st =
      Eval.check (Catalog.reduced op pack
        (.failure (name ++ "() cannot reduce " ++ v.kind.name)) v) st₁ := by
  have hargs : evalAll (deeperAt (n + 1)) [e] st = ([v], st₁) := by
    rw [evalAll_cons, he, evalAll_nil]
  rw [eval_call_of_eager hf (fun _ h => by cases h), bind_of_run hargs, invoke, List.any_cons,
    List.any_nil, Bool.or_false, Catalog.reduced]
  by_cases hv : v.isInvalid
  · rw [if_pos hv, if_pos hv]
    rfl
  · rw [if_neg hv, if_neg hv]
    change (match v.items? with
      | none => Request.fail (.failure (name ++ "() cannot reduce " ++ v.kind.name))
      | some items => .ofResult (Catalog.packed op pack items)).perform (performAt n) st₁ = _
    cases v.items? with
    | none => rfl
    | some items =>
      dsimp only
      cases Catalog.packed op pack items <;> rfl

variable (name) in
/-- The loop that gives its variable, in its block. -/
theorem inBlock_reduction {state : Array Value → kind.form.1} (deeper : Deeper)
    (hr : kind.form.2.Reduces op pack state) (hs : st.env.Sound held) {items : List Value}
    (hlen : items.length ≤ maxVectorLength) :
    ∃ env : Environment, st.env.Calm env ∧ env.functions.bindings = st.env.functions.bindings ∧
      Eval.inBlock (runLoop name (eval deeper (.var name)) (.values items) kind) st =
        Eval.check (Catalog.packed op pack items) { st with env } := by
  obtain ⟨env, hsound, hinside, hrounds⟩ := hr.forItems deeper name (st.onEnv .enter) hs.enter
    (.enter hs) items #[] (by simpa using hlen)
  obtain ⟨hcalm, hfunctions⟩ := hinside.leave hsound
  refine ⟨env.leave, hcalm, hfunctions, ?_⟩
  rw [← hr.start] at hrounds
  unfold Catalog.packed
  change _ = LoopForm.settle _ (partials op items none #[]) _ at hrounds
  cases hsteps : partials op items none #[] with
  | error f =>
    rw [hsteps] at hrounds
    exact inBlock_runLoop_of_run hrounds
  | ok r =>
    rw [hsteps] at hrounds
    cases r with
    | none => exact inBlock_runLoop_of_run hrounds
    | some steps =>
      refine (inBlock_runLoop_of_run hrounds).trans ?_
      change (kind.form.2.pack (state steps), _) = (pack steps, _)
      rw [hr.pack]
      rfl

variable (name) in
/-- The loop over a value that gives its variable. -/
theorem eval_loop_reduction {state : Array Value → kind.form.1}
    (hr : kind.form.2.Reduces op pack state) (hs : st₁.env.Sound held) {deeper : Deeper}
    (he : eval deeper e st = (v, st₁))
    (hlen : ∀ items, v.items? = some items → items.length ≤ maxVectorLength) :
    ∃ env : Environment, st₁.env.Calm env ∧ env.functions.bindings = st₁.env.functions.bindings ∧
      eval deeper (.loop kind name (.items e) (.var name) none) st =
        Eval.check (Catalog.reduced op pack (.notIterable v.kind) v) { st₁ with env } := by
  have hsource : evalSource deeper (.items e) st = checkItems v st₁ := by
    rw [evalSource, bind_of_run he]
  unfold Catalog.reduced
  by_cases hv : v.isInvalid
  · rw [checkItems, if_pos hv] at hsource
    rw [if_pos hv]
    exact ⟨st₁.env, .refl _, rfl, eval_loop_of_none hsource⟩
  · rw [checkItems, if_neg hv] at hsource
    rw [if_neg hv]
    cases hitems : v.items? with
    | none =>
      rw [hitems] at hsource
      exact ⟨st₁.env, .refl _, rfl, eval_loop_of_none hsource⟩
    | some items =>
      rw [hitems] at hsource
      obtain ⟨env, hcalm, hfunctions, hrun⟩ :=
        inBlock_reduction name deeper hr hs (hlen items hitems)
      exact ⟨env, hcalm, hfunctions, (eval_loop_of_some hsource).trans hrun⟩

end Trees

/-! ## Both -/

/-- Values that are reduced to the same or not at all, apart from the fault. -/
theorem Catalog.toOption_reduced (op : BinaryOp) (pack : Array Value → Value) (f f' : Fault)
    (v : Value) : (reduced op pack f' v).toOption = (reduced op pack f v).toOption := by
  unfold reduced
  by_cases hv : v.isInvalid
  · rw [if_pos hv, if_pos hv]
  · rw [if_neg hv, if_neg hv]
    cases v.items? <;> rfl

/-- **Reductions agree with loops.** The function of the catalog with the name of a loop and the loop
that gives its variable come to the same value, with as many faults: none or one. Behind both, the
environment is the one behind the value. -/
theorem reductions_agree {n : Nat} {held : List Nat} {kind : LoopKind} {f : Function}
    {name : String} {e : Expr} {v : Value} {st st₁ : Engine} (hs : st.env.Sound held)
    (hm : (kind.name, f) ∈ functions) (hf : st.env.function? kind.name = some f)
    (he : eval (deeperAt (n + 1)) e st = (v, st₁))
    (hlen : ∀ items, v.items? = some items → items.length ≤ maxVectorLength) :
    let called := eval (deeperAt (n + 1)) (.call kind.name [e]) st
    let looped := eval (deeperAt (n + 1)) (.loop kind name (.items e) (.var name) none) st
    looped.1 = called.1 ∧
      (∃ faults faults', called.2.log = st₁.log ++ faults ∧ looped.2.log = st₁.log ++ faults' ∧
        faults'.size = faults.size) ∧
      called.2.env = st₁.env ∧ st₁.env.Calm looped.2.env ∧
      looped.2.env.functions.bindings = st₁.env.functions.bindings := by
  intro called looped
  have hs₁ : (eval (deeperAt (n + 1)) e st).2.env.Sound held :=
    moves_eval (R := KeepsSound held) (moves_deeperAt (n + 1)) e st hs
  rw [he] at hs₁
  obtain ⟨op, pack, state, rfl, hr⟩ := LoopKind.exists_reduces hm
  obtain ⟨env, hcalm, hfunctions, hloop⟩ := eval_loop_reduction name hr hs₁ he hlen
  have hcall : called = _ := eval_call_reduction hf he
  have hloop : looped = _ := hloop
  have hsame := Catalog.toOption_reduced op pack
    (.failure (kind.name ++ "() cannot reduce " ++ v.kind.name)) (.notIterable v.kind) v
  rw [hcall, hloop, env_check, env_check, fst_check, fst_check, hsame]
  obtain ⟨faults, hlog, hsize⟩ := log_check (Catalog.reduced op pack
    (.failure (kind.name ++ "() cannot reduce " ++ v.kind.name)) v) st₁
  obtain ⟨faults', hlog', hsize'⟩ :=
    log_check (Catalog.reduced op pack (.notIterable v.kind) v) { st₁ with env }
  exact ⟨rfl, ⟨faults, faults', hlog, hlog', by rw [hsize, hsize', hsame]⟩, rfl, hcalm, hfunctions⟩

/-- Running sums of strings, in a new engine. -/
theorem reductions_agree_strings :
    let f := (reduction "cumsum" .add fun steps => .collect steps.toList).2
    let st := Engine.create {}
    let e : Expr := .constant (.stringVector ["a", "b"])
    let called := eval (deeperAt 1) (.call "cumsum" [e]) st
    let looped := eval (deeperAt 1) (.loop .cumSum "x" (.items e) (.var "x") none) st
    ("cumsum", f) ∈ functions ∧ st.env.function? "cumsum" = some f ∧
      called.1 = .stringVector ["a", "ab"] ∧ looped.1 = .stringVector ["a", "ab"] ∧
      looped.2.log.size = called.2.log.size ∧ called.2.env = st.env ∧
      st.env.Calm looped.2.env := by
  intro f st e called looped
  have hm : (LoopKind.name .cumSum, f) ∈ functions := by
    have h : reduction "cumsum" .add (fun steps => .collect steps.toList) ∈ functions := by
      simp [functions]
    exact h
  have hf : st.env.function? "cumsum" = some f := Catalog.function?_addTo hm
  have he : eval (deeperAt 1) e st = (.stringVector ["a", "b"], st) := by
    rw [eval]
    rfl
  have hsum : called.1 = .stringVector ["a", "ab"] :=
    (congrArg Prod.fst (eval_call_reduction hf he)).trans rfl
  have hsound : st.env.Sound [] := (Engine.Reachable.create {}).sound
  -- From here on, what is in the new engine does not matter.
  clear_value st
  obtain ⟨hvalue, ⟨faults, faults', hlog, hlog', hsize⟩, henv, hcalm, -⟩ :=
    reductions_agree hsound hm hf he (fun items h => by cases h; simp [maxVectorLength])
  refine ⟨hm, hf, hsum, hvalue.trans hsum, ?_, henv, hcalm⟩
  rw [show looped.2.log = _ from hlog', show called.2.log = _ from hlog, Array.size_append,
    Array.size_append, hsize]

end FormulaLang
