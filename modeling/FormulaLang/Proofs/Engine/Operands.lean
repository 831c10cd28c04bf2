import FormulaLang.Proofs.Engine.Silent
import Mathlib.Data.List.Basic
import Mathlib.Data.List.SplitLengths

/-!
# Operands

Most trees evaluate all their operands from the left, and only then look at the values.

* `fst_check`, `env_check`, `log_check`: what becomes of the result of an operation.
* `evalAll_append`, `length_evalAll`, `evalRows_eq`: evaluating several trees.
* `Expr.eager?`: the operands of such a tree, and what it does with their values.
* **`eval_eager`**: the operands come first.
* `LoopSource.operands`, `LoopSource.check`, `evalSource_eq`: the same for what a loop runs over.
* `forItems_of_some`: the rounds of a loop, one after the other.
-/

namespace FormulaLang

variable {deeper : Deeper} {st : Engine} {e : Expr} {es : List Expr}
  {finish : List Value → Eval Value}

theorem bind_of_run {α β : Type} {x : Eval α} {f : α → Eval β} {a : α} {st st' : Engine}
    (h : x st = (a, st')) : (x >>= f) st = f a st' := by
  have hbind : (x >>= f) st = f (x st).1 (x st).2 := rfl
  rw [hbind, h]

/-! ## Checked results -/

section Check

variable {r r' : Except Fault Value}

theorem fst_check (r : Except Fault Value) (st : Engine) :
    (Eval.check r st).1 = r.toOption.getD .invalid := by
  cases r <;> rfl

theorem env_check (r : Except Fault Value) (st : Engine) : (Eval.check r st).2.env = st.env := by
  cases r <;> rfl

/-- A result adds no fault to the log, or one. -/
theorem log_check (r : Except Fault Value) (st : Engine) : ∃ faults : Array Located,
    (Eval.check r st).2.log = st.log ++ faults ∧
      faults.size = if r.toOption.isSome then 0 else 1 := by
  cases r with
  | ok v => exact ⟨#[], Array.append_empty.symm, rfl⟩
  | error f => exact ⟨#[f.unlocated], Array.push_eq_append, rfl⟩

/-- What there is of a result decides what becomes of it, apart from the fault. -/
theorem check_congr (h : r.toOption = r'.toOption) (st : Engine) :
    (Eval.check r st).1 = (Eval.check r' st).1 ∧
      (Eval.check r st).2.env = (Eval.check r' st).2.env ∧
      (Eval.check r st).2.log.size = (Eval.check r' st).2.log.size := by
  refine ⟨by rw [fst_check, fst_check, h], by rw [env_check, env_check], ?_⟩
  obtain ⟨faults, hlog, hsize⟩ := log_check r st
  obtain ⟨faults', hlog', hsize'⟩ := log_check r' st
  rw [hlog, hlog', Array.size_append, Array.size_append, hsize, hsize', h]

end Check

/-! ## Several trees -/

theorem evalAll_nil : evalAll deeper [] st = ([], st) := by
  rw [evalAll]
  rfl

theorem evalAll_cons (deeper : Deeper) (e : Expr) (es : List Expr) (st : Engine) :
    evalAll deeper (e :: es) st =
      ((eval deeper e st).1 :: (evalAll deeper es (eval deeper e st).2).1,
        (evalAll deeper es (eval deeper e st).2).2) := by
  rw [evalAll]
  rfl

theorem evalAll_append (es es' : List Expr) (st : Engine) :
    evalAll deeper (es ++ es') st =
      ((evalAll deeper es st).1 ++ (evalAll deeper es' (evalAll deeper es st).2).1,
        (evalAll deeper es' (evalAll deeper es st).2).2) := by
  induction es generalizing st with
  | nil =>
    rw [evalAll_nil]
    rfl
  | cons e es ih => rw [List.cons_append, evalAll_cons, evalAll_cons, ih, List.cons_append]

theorem length_evalAll (deeper : Deeper) (es : List Expr) (st : Engine) :
    (evalAll deeper es st).1.length = es.length := by
  induction es generalizing st with
  | nil =>
    rw [evalAll_nil]
    rfl
  | cons e es ih => rw [evalAll_cons, List.length_cons, ih, List.length_cons]

/-- Rows are evaluated one after the other. -/
theorem evalRows_eq (rows : List (List Expr)) (st : Engine) :
    evalRows deeper rows st =
      ((rows.map List.length).splitLengths (evalAll deeper rows.flatten st).1,
        (evalAll deeper rows.flatten st).2) := by
  induction rows generalizing st with
  | nil =>
    rw [evalRows, List.flatten_nil, evalAll_nil]
    rfl
  | cons row rows ih =>
    have hrow := length_evalAll deeper row st
    have hcons : evalRows deeper (row :: rows) st =
        ((evalAll deeper row st).1 :: (evalRows deeper rows (evalAll deeper row st).2).1,
          (evalRows deeper rows (evalAll deeper row st).2).2) := by
      rw [evalRows]
      rfl
    rw [hcons, ih, List.flatten_cons, evalAll_append, List.map_cons, List.splitLengths_cons,
      ← hrow, List.take_left', List.drop_left'] <;> rfl

/-! ## Trees that evaluate all their operands -/

/-- What is done with the value of a single operand. -/
def ofOne (f : Value → Eval Value) : List Value → Eval Value
  | [v] => f v
  | _ => return .invalid

/-- What is done with the values of two operands. -/
def ofTwo (f : Value → Value → Eval Value) : List Value → Eval Value
  | [v, w] => f v w
  | _ => return .invalid

/-- What is done with the bounds of a range. -/
def ofBounds {α : Type} (f : Option Range → Eval α) : List Value → Eval α
  | [start, step, stop] => checkRange start step stop >>= f
  | _ => f none

/-- Reads an element of a variable. -/
def readElement (name : String) (index : Value) : Eval Value := do
  match ← Eval.value? name with
  | some target => Eval.check (target.index index)
  | none => Eval.fail (.undefinedVariable name)

section ReadElement

variable {name : String} {index : Value}

theorem run_value?_bind {α : Type} (f : Option Value → Eval α) :
    (Eval.value? name >>= f) st = f (st.env.value? name) st := rfl

theorem readElement_of_none (h : st.env.value? name = none) :
    readElement name index st = Eval.fail (.undefinedVariable name) st := by
  rw [readElement, run_value?_bind, h]

theorem readElement_of_some {target : Value} (h : st.env.value? name = some target) :
    readElement name index st = Eval.check (target.index index) st := by
  rw [readElement, run_value?_bind, h]

end ReadElement

/-- The bounds of a range, which counts by one where no step is given. -/
def bounds (start : Expr) (step : Option Expr) (stop : Expr) : List Expr :=
  [start, step.getD (.constant (.number 1.0)), stop]

/-- The vector of a range. -/
def rangeVector : Option Range → Eval Value
  | some r => Eval.check (r.values.map .numberVector)
  | none => return .invalid

theorem evalAll_bounds {α : Type} (f : Option Range → Eval α) (a : Expr) (d : Option Expr)
    (b : Expr) : (evalAll deeper (bounds a d b) >>= ofBounds f) = (do
      let start ← eval deeper a
      let step ← evalOr deeper (.number 1.0) d
      let stop ← eval deeper b
      f (← checkRange start step stop)) := by
  cases d <;> funext st <;> rfl

/-- The operands of a tree that evaluates all of them before anything else, and what it does with
their values. Calls and loops are none of these trees: what they do depends on what is bound and
goes deeper. -/
def Expr.eager? : Expr → Option (List Expr × (List Value → Eval Value))
  | .unary op e => some ([e], ofOne fun v => Eval.check (v.unary op))
  | .binary op a b => some ([a, b], ofTwo fun v w => Eval.check (v.binary op w))
  | .compare op a b => some ([a, b], ofTwo fun v w => Eval.check (v.compare op w))
  | .logical op a b => some ([a, b], ofTwo fun v w => Eval.check (v.logical op w))
  | .assign name e => some ([e], ofOne fun v =>
      if v.isInvalid then return .invalid else Eval.assign name v)
  | .assignElement name i e => some ([i, e], ofTwo (assignElements name))
  | .element name i => some ([i], ofOne (readElement name))
  | .index e i => some ([e, i], ofTwo fun target index => Eval.check (target.index index))
  | .member e name => some ([e], ofOne fun target => Eval.check (target.member name))
  | .range a d b => some (bounds a d b, ofBounds rangeVector)
  | .vector items => some (items, fun vs => Eval.check (Value.concat vs))
  | .matrix rows => some (rows.flatten, fun vs =>
      Eval.check (Value.ofRows ((rows.map List.length).splitLengths vs)))
  | .list items => some (items, fun vs =>
      if vs.any Value.isInvalid then return .invalid else return .list vs)
  | _ => none

/-- **The operands come first.** -/
theorem eval_eager (h : e.eager? = some (es, finish)) :
    eval deeper e = evalAll deeper es >>= finish := by
  cases e with
  | range a d b =>
    cases h
    rw [eval]
    exact (evalAll_bounds _ a d b).symm
  | matrix rows =>
    cases h
    funext st
    have hrows : eval deeper (.matrix rows) st =
        Eval.check (Value.ofRows (evalRows deeper rows st).1) (evalRows deeper rows st).2 := by
      rw [eval]
      rfl
    rw [hrows, evalRows_eq]
    rfl
  | _ => cases h <;> funext st <;> rfl

/-- Any function but one that evaluates its arguments itself is called with their values. -/
theorem eval_call_of_eager {name : String} {f : Function} (hf : st.env.function? name = some f)
    (hlazy : ∀ run, f.callable ≠ .lazy run) (args : List Expr) :
    eval deeper (.call name args) st = (evalAll deeper args >>= invoke deeper name f) st := by
  rw [eval_call, hf]
  dsimp only
  cases hc : f.callable with
  | lazy run => exact absurd hc (hlazy run)
  | _ => rfl

theorem eval_call_of_lazy {name : String} {f : Function} {run : List Expr → Request Value}
    (hf : st.env.function? name = some f) (hc : f.callable = .lazy run) (args : List Expr) :
    eval deeper (.call name args) st =
      descend deeper (fun task => (run args).perform task) st := by
  rw [eval_call, hf]
  dsimp only
  rw [hc]

/-! ## What a loop runs over -/

/-- The operands of what a loop runs over. -/
def LoopSource.operands : LoopSource Expr → List Expr
  | .items e => [e]
  | .range a d b => bounds a d b

/-- The items behind the values of the operands; `none` after a fault or for an invalid one. -/
def LoopSource.check : LoopSource Expr → List Value → Eval (Option Items)
  | .items _, [v] => checkItems v
  | .items _, _ => return none
  | .range .., vs => ofBounds (fun r => return r.map .range) vs

theorem evalSource_eq (source : LoopSource Expr) :
    evalSource deeper source = evalAll deeper source.operands >>= source.check := by
  cases source with
  | items e =>
    rw [evalSource]
    rfl
  | range a d b =>
    rw [evalSource]
    exact (evalAll_bounds _ a d b).symm

theorem evalSource_of_run (source : LoopSource Expr) {vs : List Value} {st₁ : Engine}
    (h : evalAll deeper source.operands st = (vs, st₁)) :
    evalSource deeper source st = source.check vs st₁ := by
  rw [evalSource_eq]
  exact bind_of_run h

section Loop

variable {kind : LoopKind} {name : String} {source : LoopSource Expr} {body : Expr}
  {default : Option Expr} {st' : Engine}

theorem eval_loop_of_none (h : evalSource deeper source st = (none, st')) :
    eval deeper (.loop kind name source body default) st = (.invalid, st') := by
  rw [eval, bind_of_run h]
  rfl

theorem eval_loop_of_some {items : Items} (h : evalSource deeper source st = (some items, st')) :
    eval deeper (.loop kind name source body default) st =
      (if default.isSome && items.isEmpty then evalOr deeper .invalid default
        else Eval.inBlock (runLoop name (eval deeper body) items kind)) st' := by
  rw [eval, bind_of_run h]

end Loop

/-! ## Rounds -/

section Rounds

variable {σ : Type} {step : σ → Value → Eval (Except Value σ)} {n : Nat} {items rest : Items}
  {item : Value} {s : σ}

/-- The rounds behind a step, unless it stopped the loop. -/
def roundsBehind (step : σ → Value → Eval (Except Value σ)) (n : Nat) (rest : Items) :
    Except Value σ → Eval (Except Value σ)
  | .ok s => forItems step n rest s
  | .error v => return .error v

theorem forItems_of_none (h : items.next? = none) :
    forItems step n items s = (pure (.ok s) : Eval (Except Value σ)) := by
  funext st
  cases n with
  | zero => rfl
  | succ n =>
    rw [forItems, h]
    rfl

theorem forItems_of_some (h : items.next? = some (item, rest)) :
    forItems step (n + 1) items s =
      (step s item >>= roundsBehind step n rest : Eval (Except Value σ)) := by
  funext st
  rw [forItems, h]
  dsimp only
  rcases hr : step s item st with ⟨v | s', st'⟩ <;> rw [bind_of_run hr] <;> rfl

end Rounds

end FormulaLang
