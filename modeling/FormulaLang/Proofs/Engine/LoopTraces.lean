import FormulaLang.Proofs.Engine.Derivation

/-!
# The rounds of a loop

What a loop evaluates does not depend on its form, as long as it is not stopped: the variable is
bound to one item after the other, and the body is evaluated. The form only says what comes of the
items and the values of the body.

* `Items.Yields`: all items of a loop.
* `LoopTrace`: the rounds over all items, each with its item and the value of the body.
* `LoopForm.Folds`: what a form makes of rounds, if they do not stop it.
* `LoopForm.Regular`, `LoopKind.regular_form`: a round goes on and leaves the engine as it is, or
  it stops the loop, which is then invalid.
* **`LoopForm.forItems_of_trace`**, `LoopForm.Regular.exists_trace_or_stops`: a loop is its rounds
  and what its form makes of them.
* `LoopForm.step_var`: a round that does nothing but read its variable.
* `eval_loop_of_trace`, **`exists_trace`**: the same for the tree of a loop.
-/

namespace FormulaLang

/-! ## Items and rounds -/

/-- All items that are left, one after the other. -/
inductive Items.Yields : Items → List Value → Prop
  | done {items} (h : next? items = none) : Yields items []
  | next {items rest item vs} (h : next? items = some (item, rest)) (hrest : Yields rest vs) :
      Yields items (item :: vs)

/-- The rounds over all items: the variable is bound to an item, and the body has a value. -/
inductive LoopTrace (name : String) (body : Eval Value) :
    Items → Engine → List (Value × Value) → Engine → Prop
  | finished {items st} (h : Items.next? items = none) : LoopTrace name body items st [] st
  | round {items rest item st v st₁ rounds st'} (h : Items.next? items = some (item, rest))
      (hb : body (st.onEnv (·.addVariable name item)) = (v, st₁))
      (hrest : LoopTrace name body rest st₁ rounds st') :
      LoopTrace name body items st ((item, v) :: rounds) st'

/-- The rounds go through all items in their order. -/
theorem LoopTrace.yields {name : String} {body : Eval Value} {items : Items} {st st' : Engine}
    {rounds : List (Value × Value)} (h : LoopTrace name body items st rounds st') :
    items.Yields (rounds.map Prod.fst) := by
  induction h with
  | finished h => exact .done h
  | round h _ _ ih => exact .next h ih

/-- Items that are not empty have a round. -/
theorem LoopTrace.ne_nil {name : String} {body : Eval Value} {items : Items} {st st' : Engine}
    {rounds : List (Value × Value)} (h : LoopTrace name body items st rounds st')
    (hitems : items.isEmpty = false) : rounds ≠ [] := by
  cases h with
  | finished h => simp [Items.isEmpty, h] at hitems
  | round => exact List.cons_ne_nil _ _

/-! ## Forms -/

theorem append_eq (out : Array Value) (v : Value) (st : Engine) : append out v st =
    if out.size = maxVectorLength then
      (.error .invalid, st.report (.vectorTooLong maxVectorLength))
    else (.ok (out.push v), st) := by
  unfold append
  split <;> rfl

namespace LoopForm

variable {σ : Type}

/-- A round goes on with a new state and leaves the engine as it is. -/
def Goes (form : LoopForm σ) (s : σ) (item v : Value) (s' : σ) : Prop :=
  ∀ st, form.after s item v st = (.ok s', st)

/-- What a form makes of rounds, none of which stops it. -/
inductive Folds (form : LoopForm σ) : σ → List (Value × Value) → σ → Prop
  | nil {s} : Folds form s [] s
  | cons {s item v s₁ rounds s'} (h : form.Goes s item v s₁) (hrest : Folds form s₁ rounds s') :
      Folds form s ((item, v) :: rounds) s'

/-- A round stops the loop, which is then invalid. -/
def Stops (form : LoopForm σ) (s : σ) (item v : Value) : Prop :=
  ∀ st, ∃ st', form.after s item v st = (.error .invalid, st')

/-- Every round goes on or stops the loop, whatever is bound. -/
def Regular (form : LoopForm σ) : Prop :=
  ∀ s item v, (∃ s', form.Goes s item v s') ∨ form.Stops s item v

theorem after_reduce (op : BinaryOp) (empty : Float) (acc : Option Value) (item v : Value)
    (st : Engine) : (reduce op empty).after acc item v st =
      match fold op acc v with
      | .error f => (.error .invalid, st.report f)
      | .ok w => if w.isInvalid then (.error .invalid, st) else (.ok (some w), st) := by
  simp only [reduce]
  cases fold op acc v with
  | error f => rfl
  | ok w => cases w <;> rfl

theorem after_accumulate (op : BinaryOp) (acc : Option Value) (out : Array Value) (item v : Value)
    (st : Engine) : (accumulate op).after (acc, out) item v st =
      match fold op acc v with
      | .error f => (.error .invalid, st.report f)
      | .ok w =>
        if w.isInvalid then (.error .invalid, st)
        else if out.size = maxVectorLength then
          (.error .invalid, st.report (.vectorTooLong maxVectorLength))
        else (.ok (some w, out.push w), st) := by
  simp only [accumulate]
  cases fold op acc v with
  | error f => rfl
  | ok w =>
    cases hi : w.isInvalid with
    | true =>
      obtain rfl := Value.isInvalid_iff.1 hi
      rfl
    | false =>
      by_cases hfull : out.size = maxVectorLength <;>
        simp [Eval.check, hi, append, hfull] <;> rfl

theorem after_collect (skipInvalid : Bool) (out : Array Value) (item v : Value) (st : Engine) :
    (collect skipInvalid).after out item v st =
      if v.isInvalid then
        if skipInvalid then (.ok out, st) else (.error .invalid, st)
      else append out v st := by
  simp only [collect]
  split_ifs <;> rfl

theorem after_filter_true (lenient : Bool) (out : Array Value) (item : Value) (st : Engine) :
    (filter lenient).after out item (.bool true) st = append out item st := rfl

theorem after_filter_false (lenient : Bool) (out : Array Value) (item : Value) (st : Engine) :
    (filter lenient).after out item (.bool false) st = (.ok out, st) := rfl

theorem after_filter_other (lenient : Bool) (out : Array Value) (item : Value) {v : Value}
    (hv : ∀ b, v ≠ .bool b) (st : Engine) : (filter lenient).after out item v st =
      if lenient then (.ok out, st)
      else if v.isInvalid then (.error .invalid, st)
      else (.error .invalid, st.report (.nonBoolCondition v.kind)) := by
  cases v with
  | bool b => exact absurd rfl (hv b)
  | _ => cases lenient <;> rfl

/-! ## Regular forms -/

theorem regular_reduce (op : BinaryOp) (empty : Float) : (reduce op empty).Regular := by
  intro acc item v
  simp only [Goes, Stops, after_reduce]
  cases fold op acc v with
  | error f => exact .inr fun st => ⟨_, rfl⟩
  | ok w =>
    by_cases hw : w.isInvalid
    · exact .inr fun st => ⟨st, if_pos hw⟩
    · exact .inl ⟨some w, fun st => if_neg hw⟩

theorem regular_accumulate (op : BinaryOp) : (accumulate op).Regular := by
  rintro ⟨acc, out⟩ item v
  simp only [Goes, Stops, after_accumulate]
  cases fold op acc v with
  | error f => exact .inr fun st => ⟨_, rfl⟩
  | ok w =>
    by_cases hw : w.isInvalid
    · exact .inr fun st => ⟨st, if_pos hw⟩
    · by_cases hfull : out.size = maxVectorLength
      · exact .inr fun st => ⟨_, (if_neg hw).trans (if_pos hfull)⟩
      · exact .inl ⟨(some w, out.push w), fun st => (if_neg hw).trans (if_neg hfull)⟩

/-- Appending goes on as long as there is room. -/
theorem goes_or_stops_of_append {form : LoopForm (Array Value)} {out : Array Value}
    {item v w : Value} (h : ∀ st, form.after out item v st = append out w st) :
    (∃ out', form.Goes out item v out') ∨ form.Stops out item v := by
  simp only [Goes, Stops, h, append_eq]
  by_cases hfull : out.size = maxVectorLength
  · exact .inr fun st => ⟨_, if_pos hfull⟩
  · exact .inl ⟨out.push w, fun st => if_neg hfull⟩

theorem regular_collect (skipInvalid : Bool) : (collect skipInvalid).Regular := by
  intro out item v
  by_cases hv : v.isInvalid
  · simp only [Goes, Stops, after_collect, hv]
    cases skipInvalid with
    | true => exact .inl ⟨out, fun st => rfl⟩
    | false => exact .inr fun st => ⟨st, rfl⟩
  · exact goes_or_stops_of_append fun st => (after_collect ..).trans (if_neg hv)

theorem regular_filter (lenient : Bool) : (filter lenient).Regular := by
  intro out item v
  by_cases hv : ∃ b, v = .bool b
  · obtain ⟨b, rfl⟩ := hv
    cases b with
    | true => exact goes_or_stops_of_append (after_filter_true lenient out item)
    | false => exact .inl ⟨out, after_filter_false lenient out item⟩
  · simp only [Goes, Stops, after_filter_other lenient out item fun b hb => hv ⟨b, hb⟩]
    cases lenient with
    | true => exact .inl ⟨out, fun st => rfl⟩
    | false =>
      by_cases hi : v.isInvalid
      · exact .inr fun st => ⟨st, if_pos hi⟩
      · exact .inr fun st => ⟨_, if_neg hi⟩

end LoopForm

theorem LoopKind.regular_form (kind : LoopKind) : kind.form.2.Regular := by
  cases kind with
  | sum | prod => exact LoopForm.regular_reduce _ _
  | cumSum | cumProd => exact LoopForm.regular_accumulate _
  | collect | defaultCollect | saveCollect => exact LoopForm.regular_collect _
  | filter | saveFilter => exact LoopForm.regular_filter _

/-! ## Loops by their rounds -/

namespace LoopForm

variable {σ : Type} {form : LoopForm σ} {name : String} {body : Eval Value} {items : Items}
  {item v u : Value} {s s' : σ} {rounds : List (Value × Value)} {st st' : Engine}

/-- **What a form makes of the rounds** is what the loop ends with. -/
theorem forItems_of_trace (ht : LoopTrace name body items st rounds st')
    (hf : form.Folds s rounds s') :
    forItems (form.step name body) items.left items s st = (.ok s', st') := by
  induction ht generalizing s with
  | finished h =>
    cases hf
    rw [forItems_of_none h]
    rfl
  | round h hb _ ih =>
    cases hf with
    | cons hgoes hf =>
      rw [forItems_left h]
      exact (bind_of_run ((step_of_run hb).trans (hgoes _))).trans (ih hf)

/-- **A loop goes through all of its rounds**, or it is stopped and invalid. -/
theorem Regular.exists_trace_or_stops (h : form.Regular) (name : String) (body : Eval Value)
    (items : Items) (s : σ) (st : Engine) :
    (∃ rounds s' st', LoopTrace name body items st rounds st' ∧ form.Folds s rounds s') ∨
      ∃ st', forItems (form.step name body) items.left items s st = (.error .invalid, st') := by
  induction hn : items.left using Nat.strong_induction_on generalizing items s st with
  | _ n ih =>
    subst hn
    cases hi : items.next? with
    | none => exact .inl ⟨[], s, st, .finished hi, .nil⟩
    | some p =>
      obtain ⟨item, rest⟩ := p
      rcases hb : body (st.onEnv (·.addVariable name item)) with ⟨v, st₁⟩
      rw [forItems_left hi]
      rcases h s item v with ⟨s₁, hgoes⟩ | hstops
      · rw [bind_of_run ((step_of_run hb).trans (hgoes st₁))]
        rcases ih rest.left (Items.left_lt hi) rest s₁ st₁ rfl with
          ⟨rounds, s', st', ht, hf⟩ | hstops
        · exact .inl ⟨(item, v) :: rounds, s', st', .round hi hb ht, .cons hgoes hf⟩
        · exact .inr hstops
      · obtain ⟨st₂, hst₂⟩ := hstops st₁
        rw [bind_of_run ((step_of_run hb).trans hst₂)]
        exact .inr ⟨st₂, rfl⟩

end LoopForm

/-! ## The variable of a loop -/

/-- A variable that has just been bound. -/
theorem eval_var_addVariable {held : List Nat} {st : Engine} (hs : st.env.Sound held)
    (deeper : Deeper) (name : String) (v : Value) :
    eval deeper (.var name) (st.onEnv (·.addVariable name v)) =
      (v, st.onEnv (·.addVariable name v)) := by
  have hvalue : (st.onEnv (·.addVariable name v)).env.value? name = some v :=
    (hs.value?_addVariable name v name).trans (if_pos rfl)
  rw [eval_var, hvalue]
  rfl

/-- A round whose body is the variable. -/
theorem LoopForm.step_var {σ : Type} {form : LoopForm σ} {held : List Nat} {st : Engine}
    (hs : st.env.Sound held) (deeper : Deeper) (name : String) (s : σ) (item : Value) :
    form.step name (eval deeper (.var name)) s item st =
      form.after s item item (st.onEnv (·.addVariable name item)) :=
  step_of_run (eval_var_addVariable hs deeper name item)

/-! ## Trees of loops -/

section Trees

variable {deeper : Deeper} {kind : LoopKind} {name : String} {source : LoopSource Expr}
  {body : Expr} {default : Option Expr} {items : Items} {rounds : List (Value × Value)}
  {st st₁ st₂ : Engine}

variable (kind) in
/-- A loop whose items and rounds are known. -/
theorem eval_loop_of_trace (hs : evalSource deeper source st = (some items, st₁))
    (hd : (default.isSome && items.isEmpty) = false)
    (ht : LoopTrace name (eval deeper body) items (st₁.onEnv .enter) rounds st₂)
    {s : kind.form.1} (hf : kind.form.2.Folds kind.form.2.start rounds s) :
    eval deeper (.loop kind name source body default) st =
      (kind.form.2.pack s, st₂.onEnv .leave) := by
  rw [eval_loop_of_some hs, hd]
  exact inBlock_runLoop_of_run (LoopForm.forItems_of_trace ht hf)

/-- **A loop with a valid value** goes through all of its rounds. -/
theorem exists_trace (hs : evalSource deeper source st = (some items, st₁))
    (hd : (default.isSome && items.isEmpty) = false)
    (hv : (eval deeper (.loop kind name source body default) st).1 ≠ .invalid) :
    ∃ rounds s st₂, LoopTrace name (eval deeper body) items (st₁.onEnv .enter) rounds st₂ ∧
      kind.form.2.Folds kind.form.2.start rounds s := by
  rcases kind.regular_form.exists_trace_or_stops name (eval deeper body) items kind.form.2.start
    (st₁.onEnv .enter) with hrun | ⟨st₂, hstops⟩
  · exact hrun
  · rw [eval_loop_of_some hs, hd] at hv
    exact absurd (congrArg Prod.fst (inBlock_runLoop_of_run hstops)) hv

end Trees

end FormulaLang
