import FormulaLang.Proofs.Engine.Calm
import FormulaLang.Proofs.Engine.Operands
import FormulaLang.Proofs.Range

/-!
# Evaluation by rules

The rules below say how trees are evaluated without saying for how long: a loop goes on as long as
there are items, a call looks its function up when it is made, and only the depth of calls is
counted, upwards and against a limit. What has a derivation is done in finitely many steps.

* `LoopForm`: what a loop does with an item and the value of its body.
* `Job`, `Job.run`: what there is to do, and what is done with some nested calls left.
* `Derives`: the rules. A derivation also bounds how deep the calls in it nest.
* **`run_of_derives`**: what has a derivation is what is done.
-/

namespace FormulaLang

variable {α σ : Type}

/-! ## Loops -/

/-- A loop by its state at the start, what it does with a state, an item and the value of the body,
and how the last state is packed. -/
structure LoopForm (σ : Type) where
  start : σ
  after : σ → Value → Value → Eval (Except Value σ)
  pack : σ → Value

namespace LoopForm

/-- Folding the values of the body. -/
def reduce (op : BinaryOp) (empty : Float) : LoopForm (Option Value) where
  start := none
  after acc _ v := do
    let next ← Eval.check (fold op acc v)
    if next.isInvalid then return .error .invalid else return .ok (some next)
  pack acc := acc.getD (.number empty)

/-- Folding the values of the body and keeping every step. -/
def accumulate (op : BinaryOp) : LoopForm (Option Value × Array Value) where
  start := (none, #[])
  after := fun (acc, out) _ v => do
    let next ← Eval.check (fold op acc v)
    if next.isInvalid then return .error .invalid
    else
      match ← append out next with
      | .ok out => return .ok (some next, out)
      | .error v => return .error v
  pack := fun (_, out) => .collect out.toList

/-- Collecting the values of the body. -/
def collect (skipInvalid : Bool) : LoopForm (Array Value) where
  start := #[]
  after out _ v :=
    if v.isInvalid then
      if skipInvalid then return .ok out else return .error .invalid
    else append out v
  pack out := .collect out.toList

/-- Collecting the items for which the body is true. -/
def filter (lenient : Bool) : LoopForm (Array Value) where
  start := #[]
  after out item v := do
    match v with
    | .bool true => append out item
    | .bool false => return .ok out
    | v =>
      if lenient then return .ok out
      else if v.isInvalid then return .error .invalid
      else return .error (← Eval.fail (.nonBoolCondition v.kind))
  pack out := .collect out.toList

/-- A round: the item is bound, the body evaluated and its value dealt with. -/
def step (form : LoopForm σ) (name : String) (body : Eval Value) (s : σ) (item : Value) :
    Eval (Except Value σ) := withItem name body item >>= form.after s item

/-- The value of a loop that ended in a state or was stopped. -/
def result (form : LoopForm σ) : Except Value σ → Value
  | .ok s => form.pack s
  | .error v => v

end LoopForm

/-- The form of the loops of a kind. -/
def LoopKind.form : LoopKind → (σ : Type) × LoopForm σ
  | .sum => ⟨_, .reduce .add 0.0⟩
  | .prod => ⟨_, .reduce .mul 1.0⟩
  | .cumSum => ⟨_, .accumulate .add⟩
  | .cumProd => ⟨_, .accumulate .mul⟩
  | .collect | .defaultCollect => ⟨_, .collect false⟩
  | .saveCollect => ⟨_, .collect true⟩
  | .filter => ⟨_, .filter false⟩
  | .saveFilter => ⟨_, .filter true⟩

theorem runLoop_eq (name : String) (body : Eval Value) (items : Items) (kind : LoopKind) :
    runLoop name body items kind =
      overItems (kind.form.2.step name body) items kind.form.2.start kind.form.2.pack := by
  cases kind <;> rfl

/-- A loop is its rounds, and then its result is packed. -/
theorem LoopForm.overItems_eq (form : LoopForm σ) (step : σ → Value → Eval (Except Value σ))
    (items : Items) (s : σ) : overItems step items s form.pack =
      (do return form.result (← forItems step items.bound items s)) := by
  funext st
  unfold overItems
  change _ = (form.result (forItems step items.bound items s st).1,
    (forItems step items.bound items s st).2)
  rcases forItems step items.bound items s st with ⟨v | s', st'⟩ <;> rfl

/-! ## Items -/

namespace Items

/-- A bound on the items that are left. -/
def left : Items → Nat
  | values items => items.length
  | range r => r.rounds

theorem left_lt {items rest : Items} {item : Value} (h : items.next? = some (item, rest)) :
    rest.left < items.left := by
  cases items with
  | values vs =>
    cases vs with
    | nil => cases h
    | cons v vs =>
      cases h
      exact Nat.lt_succ_self _
  | range r =>
    cases hc : r.continues with
    | false =>
      rw [next?, Range.next?_of_not_continues hc] at h
      cases h
    | true =>
      rw [next?, Range.next?_of_continues hc] at h
      cases h
      exact Range.rounds_advance_lt hc

theorem left_le_bound (items : Items) : items.left ≤ items.bound := by
  cases items with
  | values vs => exact Nat.le_refl _
  | range r => exact Range.rounds_le_bound

end Items

/-- A loop does not depend on how many rounds it may run, as long as these are enough. -/
theorem forItems_eq_of_le {step : σ → Value → Eval (Except Value σ)} {m n : Nat} {items : Items}
    (hm : items.left ≤ m) (hn : items.left ≤ n) (s : σ) :
    forItems step m items s = forItems step n items s := by
  induction m generalizing n items s with
  | zero =>
    have hnone : items.next? = none := by
      cases h : items.next? with
      | none => rfl
      | some p => exact absurd (Items.left_lt h) (by omega)
    rw [forItems_of_none hnone, forItems_of_none hnone]
  | succ m ih =>
    cases h : items.next? with
    | none => rw [forItems_of_none h, forItems_of_none h]
    | some p =>
      obtain ⟨item, rest⟩ := p
      have hlt := Items.left_lt h
      cases n with
      | zero => omega
      | succ n =>
        rw [forItems_of_some h, forItems_of_some h]
        congr 1
        funext r
        cases r with
        | ok s' => exact ih (by omega) (by omega) s'
        | error v => rfl

/-! ## Jobs -/

/-- What there is to do on the way to a result. -/
inductive Job : Type → Type 1 where
  | tree (e : Expr) : Job Value
  | trees (es : List Expr) : Job (List Value)
  | branches (bs : List (Expr × Expr)) (otherwise : Option Expr) : Job Value
  | statements (es : List Expr) (last : Value) : Job Value
  /-- The rounds of a loop from a state on. -/
  | rounds {σ : Type} (form : LoopForm σ) (name : String) (body : Expr) (items : Items) (s : σ) :
      Job (Except Value σ)
  | call (name : String) (args : List Value) : Job Value
  | invoke (name : String) (f : Function) (args : List Value) : Job Value
  /-- What a function does in a call. -/
  | callable (c : Callable) (args : List Value) : Job Value
  | request {α : Type} (r : Request α) : Job α
  /-- Something that is done one level deeper. -/
  | nested (j : Job Value) : Job Value

namespace Job

/-- What is done with a number of nested calls left. -/
def run : {α : Type} → Nat → Job α → Eval α
  | _, n, tree e => eval (deeperAt n) e
  | _, n, trees es => evalAll (deeperAt n) es
  | _, n, branches bs otherwise =>
    evalBranches (deeperAt n) bs (evalOr (deeperAt n) .invalid otherwise)
  | _, n, statements es last => evalSequence (deeperAt n) es last
  | _, n, rounds form name body items s =>
    forItems (form.step name (eval (deeperAt n) body)) items.left items s
  | _, n, call name args => callNamed (deeperAt n) name args
  | _, n, invoke name f args => FormulaLang.invoke (deeperAt n) name f args
  | _, n, callable (.native run) args => (run args).perform (performAt n)
  | _, n, callable (.writer run) args => do
    return (← (run args).perform (performAt n)).getD .void
  | _, n, callable (.lazy run) args => (run (args.map .constant)).perform (performAt n)
  | _, n, callable (.user params body) args => callUser (performAt n) params body args
  | _, n, request r => r.perform (performAt n)
  | _, 0, nested _ => do Eval.fail (.callDepth (← get).settings.callDepth)
  | _, n + 1, nested j => j.run n
termination_by structural _ _ j => j

end Job

/-! ## Rules -/

/-- The rules of evaluation. Calls may nest up to a limit; `d` counts the calls around the job, and
calls nest at most `k` deep in its derivation. -/
inductive Derives (limit : Nat) :
    {α : Type} → (d k : Nat) → Job α → Engine → α → Engine → Prop where
  -- Trees
  | constant {d k v st} : Derives limit d k (.tree (.constant v)) st v st
  | var {d k name v st} (h : st.env.value? name = some v) :
      Derives limit d k (.tree (.var name)) st v st
  | undefinedVariable {d k name st} (h : st.env.value? name = none) :
      Derives limit d k (.tree (.var name)) st .invalid (st.report (.undefinedVariable name))
  | eager {d k e es finish st vs st₁ v st'} (he : Expr.eager? e = some (es, finish))
      (hes : Derives limit d k (.trees es) st vs st₁) (hf : finish vs st₁ = (v, st')) :
      Derives limit d k (.tree e) st v st'
  | undefinedFunction {d k name args st} (h : st.env.function? name = none) :
      Derives limit d k (.tree (.call name args)) st .invalid
        (st.report (.undefinedFunction name))
  | callLazy {d k name args f run st v st'} (hf : st.env.function? name = some f)
      (hc : f.callable = .lazy run)
      (hr : Derives limit d k (.nested (.request (run args))) st v st') :
      Derives limit d k (.tree (.call name args)) st v st'
  | callEager {d k name args f st vs st₁ v st'} (hf : st.env.function? name = some f)
      (hc : ∀ run, f.callable ≠ .lazy run) (hargs : Derives limit d k (.trees args) st vs st₁)
      (hi : Derives limit d k (.invoke name f vs) st₁ v st') :
      Derives limit d k (.tree (.call name args)) st v st'
  | define {d k name params body st} :
      Derives limit d k (.tree (.define name params body)) st .void
        (st.onEnv (·.addFunction name (.user params body)))
  | cases {d k bs otherwise st v st'} (h : Derives limit d k (.branches bs otherwise) st v st') :
      Derives limit d k (.tree (.cases bs otherwise)) st v st'
  | noItems {d k kind name source body default st vs st₁ st'}
      (hs : Derives limit d k (.trees (LoopSource.operands source)) st vs st₁)
      (hc : source.check vs st₁ = (none, st')) :
      Derives limit d k (.tree (.loop kind name source body default)) st .invalid st'
  | loopDefault {d k kind name source body default st vs st₁ items st₂ v st'}
      (hs : Derives limit d k (.trees (LoopSource.operands source)) st vs st₁)
      (hc : source.check vs st₁ = (some items, st₂)) (hi : items.isEmpty)
      (hd : Derives limit d k (.tree default) st₂ v st') :
      Derives limit d k (.tree (.loop kind name source body (some default))) st v st'
  | loop {d k kind name source body default st vs st₁ items st₂ r st'}
      (hs : Derives limit d k (.trees (LoopSource.operands source)) st vs st₁)
      (hc : source.check vs st₁ = (some items, st₂))
      (hi : (Option.isSome default && items.isEmpty) = false)
      (hr : Derives limit d k
        (.rounds (LoopKind.form kind).2 name body items (LoopKind.form kind).2.start)
        (st₂.onEnv .enter) r st') :
      Derives limit d k (.tree (.loop kind name source body default)) st
        ((LoopKind.form kind).2.result r) (st'.onEnv .leave)
  | sequence {d k es st v st'} (h : Derives limit d k (.statements es .void) st v st') :
      Derives limit d k (.tree (.sequence es)) st v st'
  | invalid {d k st} : Derives limit d k (.tree .invalid) st .invalid st
  -- Several trees
  | nil {d k st} : Derives limit d k (.trees []) st [] st
  | cons {d k e es st v st₁ vs st'} (he : Derives limit d k (.tree e) st v st₁)
      (hes : Derives limit d k (.trees es) st₁ vs st') :
      Derives limit d k (.trees (e :: es)) st (v :: vs) st'
  | noElse {d k st} : Derives limit d k (.branches [] none) st .invalid st
  | otherwise {d k e st v st'} (h : Derives limit d k (.tree e) st v st') :
      Derives limit d k (.branches [] (some e)) st v st'
  | isTrue {d k c e bs otherwise st st₁ v st'}
      (hc : Derives limit d k (.tree c) st (.bool true) st₁)
      (he : Derives limit d k (.tree e) st₁ v st') :
      Derives limit d k (.branches ((c, e) :: bs) otherwise) st v st'
  | isFalse {d k c e bs otherwise st st₁ v st'}
      (hc : Derives limit d k (.tree c) st (.bool false) st₁)
      (hbs : Derives limit d k (.branches bs otherwise) st₁ v st') :
      Derives limit d k (.branches ((c, e) :: bs) otherwise) st v st'
  | noBool {d k c e bs otherwise st v st₁} (hc : Derives limit d k (.tree c) st v st₁)
      (hv : ∀ b, v ≠ .bool b) :
      Derives limit d k (.branches ((c, e) :: bs) otherwise) st .invalid
        (if v.isInvalid then st₁ else st₁.report (.nonBoolCondition v.kind))
  | last {d k v st} : Derives limit d k (.statements [] v) st v st
  | statement {d k e es last st v st₁ w st'} (he : Derives limit d k (.tree e) st v st₁)
      (hes : Derives limit d k (.statements es v) st₁ w st') :
      Derives limit d k (.statements (e :: es) last) st w st'
  -- Rounds
  | finished {σ : Type} {form : LoopForm σ} {d k name body items s st}
      (h : Items.next? items = none) :
      Derives limit d k (.rounds form name body items s) st (.ok s) st
  | stopped {σ : Type} {form : LoopForm σ} {d k name body items s st item rest v st₁ u st'}
      (h : Items.next? items = some (item, rest))
      (hb : Derives limit d k (.tree body) (st.onEnv (·.addVariable name item)) v st₁)
      (ha : form.after s item v st₁ = (.error u, st')) :
      Derives limit d k (.rounds form name body items s) st (.error u) st'
  | goesOn {σ : Type} {form : LoopForm σ} {d k name body items s st item rest v st₁ s' st₂ r st'}
      (h : Items.next? items = some (item, rest))
      (hb : Derives limit d k (.tree body) (st.onEnv (·.addVariable name item)) v st₁)
      (ha : form.after s item v st₁ = (.ok s', st₂))
      (hr : Derives limit d k (.rounds form name body rest s') st₂ r st') :
      Derives limit d k (.rounds form name body items s) st r st'
  -- Calls
  | callUndefined {d k name args st} (h : st.env.function? name = none) :
      Derives limit d k (.call name args) st .invalid (st.report (.undefinedFunction name))
  | call {d k name args f st v st'} (hf : st.env.function? name = some f)
      (hi : Derives limit d k (.invoke name f args) st v st') :
      Derives limit d k (.call name args) st v st'
  | invalidArgument {d k name f args st} (h : args.any Value.isInvalid = true) :
      Derives limit d k (.invoke name f args) st .invalid st
  | wrongCount {d k name f args expected st} (h : args.any Value.isInvalid = false)
      (ha : (Function.arity f).filter (· ≠ args.length) = some expected) :
      Derives limit d k (.invoke name f args) st .invalid
        (st.report (.wrongArgumentCount name expected args.length))
  | invoke {d k name f args st v st'} (h : args.any Value.isInvalid = false)
      (ha : (Function.arity f).filter (· ≠ args.length) = none)
      (hn : Derives limit d k (.nested (.callable f.callable args)) st v st') :
      Derives limit d k (.invoke name f args) st v st'
  | tooDeep {d k j st} (h : limit ≤ d) :
      Derives limit d k (.nested j) st .invalid (st.report (.callDepth st.settings.callDepth))
  | nested {d k j st v st'} (h : d < limit) (hj : Derives limit (d + 1) k j st v st') :
      Derives limit d (k + 1) (.nested j) st v st'
  | native {d k run args st v st'} (h : Derives limit d k (.request (run args)) st v st') :
      Derives limit d k (.callable (.native run) args) st v st'
  | writer {d k args st v st'} {run : List Value → Request (Option Value)}
      (h : Derives limit d k (.request (run args)) st v st') :
      Derives limit d k (.callable (.writer run) args) st (v.getD .void) st'
  | «lazy» {d k args st v st'} {run : List Expr → Request Value}
      (h : Derives limit d k (.request (run (args.map .constant))) st v st') :
      Derives limit d k (.callable (.lazy run) args) st v st'
  | parameterless {d k body args st v st'} (h : Derives limit d k (.tree body) st v st') :
      Derives limit d k (.callable (.user [] body) args) st v st'
  | parameters {d k param params body args st v st'}
      (h : Derives limit d k (.tree body)
        (st.onEnv fun env => env.enter.addVariables ((param :: params).zip args)) v st') :
      Derives limit d k (.callable (.user (param :: params) body) args) st v (st'.onEnv .leave)
  -- Requests
  | done {α : Type} {a : α} {d k st} : Derives limit d k (.request (.done a)) st a st
  | report {α : Type} {next : Request α} {a : α} {d k f st st'}
      (h : Derives limit d k (.request next) (st.report f) a st') :
      Derives limit d k (.request (.report f next)) st a st'
  | faultCount {α : Type} {next : Nat → Request α} {a : α} {d k st st'}
      (h : Derives limit d k (.request (next st.log.size)) st a st') :
      Derives limit d k (.request (.faultCount next)) st a st'
  | requestCall {α : Type} {next : Value → Request α} {a : α} {d k name args st v st₁ st'}
      (hc : Derives limit d k (.call name args) st v st₁)
      (hn : Derives limit d k (.request (next v)) st₁ a st') :
      Derives limit d k (.request (.call name args next)) st a st'
  | requestTree {α : Type} {next : Value → Request α} {a : α} {d k e st v st₁ st'}
      (he : Derives limit d k (.tree e) st v st₁)
      (hn : Derives limit d k (.request (next v)) st₁ a st') :
      Derives limit d k (.request (.evaluate e next)) st a st'

/-! ## What has a derivation is done -/

section Run

variable {limit : Nat} {st st₁ st' : Engine} {name : String} {v : Value}

theorem run_callable_user {n : Nat} {param : String} {params : List String} {body : Expr}
    {args : List Value} (h : eval (deeperAt n) body
      (st.onEnv fun env => env.enter.addVariables ((param :: params).zip args)) = (v, st')) :
    (Job.callable (.user (param :: params) body) args).run n st = (v, st'.onEnv .leave) := by
  have hblock : (Job.callable (.user (param :: params) body) args).run n st =
      ((performAt n (.evaluate body)
        (st.onEnv fun env => env.enter.addVariables ((param :: params).zip args))).1,
      (performAt n (.evaluate body)
        (st.onEnv fun env => env.enter.addVariables ((param :: params).zip args))).2.onEnv
          .leave) := rfl
  rw [hblock, performAt_evaluate, h]

theorem LoopForm.step_of_run {form : LoopForm σ} {body : Eval Value} {item : Value} {s : σ}
    (h : body (st.onEnv (·.addVariable name item)) = (v, st₁)) :
    form.step name body s item st = form.after s item v st₁ := by
  have hitem : withItem name body item st = (v, st₁) := h
  exact bind_of_run hitem

/-- A round, and the rounds behind it. -/
theorem forItems_left {step : σ → Value → Eval (Except Value σ)} {items rest : Items}
    {item : Value} (h : items.next? = some (item, rest)) (s : σ) :
    forItems step items.left items s =
      (step s item >>= roundsBehind step rest.left rest : Eval (Except Value σ)) := by
  have hlt := Items.left_lt h
  rw [forItems_eq_of_le (Nat.le_refl _) (show items.left ≤ rest.left + 1 + items.left by omega),
    show rest.left + 1 + items.left = (rest.left + items.left) + 1 by omega, forItems_of_some h]
  congr 1
  funext r
  cases r with
  | ok s' => exact forItems_eq_of_le (by omega) (Nat.le_refl _) s'
  | error v => rfl

/-- A loop in its block, once it is known how its rounds end. -/
theorem inBlock_runLoop_of_run {body : Eval Value} {items : Items} {kind : LoopKind}
    {r : Except Value kind.form.1}
    (h : forItems (kind.form.2.step name body) items.left items kind.form.2.start
      (st.onEnv .enter) = (r, st')) :
    Eval.inBlock (runLoop name body items kind) st =
      (kind.form.2.result r, st'.onEnv .leave) := by
  have hrounds : forItems (kind.form.2.step name body) items.bound items kind.form.2.start
      (st.onEnv .enter) = (r, st') := by
    rw [forItems_eq_of_le items.left_le_bound (Nat.le_refl _)]
    exact h
  have hloop : runLoop name body items kind (st.onEnv .enter) = (kind.form.2.result r, st') := by
    rw [runLoop_eq]
    unfold overItems
    rw [hrounds]
    cases r <;> rfl
  have hblock : Eval.inBlock (runLoop name body items kind) st =
      ((runLoop name body items kind (st.onEnv .enter)).1,
        (runLoop name body items kind (st.onEnv .enter)).2.onEnv .leave) := rfl
  rw [hblock, hloop]

theorem invoke_of_run {n : Nat} {f : Function} {args : List Value}
    (h : args.any Value.isInvalid = false) (ha : f.arity.filter (· ≠ args.length) = none) :
    invoke (deeperAt n) name f args st = (Job.nested (.callable f.callable args)).run n st := by
  rw [invoke, h, ha]
  cases hc : f.callable <;> cases n <;> rfl

/-- **What has a derivation is done**: there is no other result. -/
theorem run_of_derives {j : Job α} {d k : Nat} {a : α} (h : Derives limit d k j st a st') :
    ∀ n, d + n = limit → j.run n st = (a, st') := by
  induction h with
  | constant => exact fun _ _ => rfl
  | var h =>
    intro n _
    rw [Job.run, eval_var, h]
    rfl
  | undefinedVariable h =>
    intro n _
    rw [Job.run, eval_var, h]
    rfl
  | eager he _ hf ih =>
    intro n hn
    rw [Job.run, eval_eager he]
    exact (bind_of_run (ih n hn)).trans hf
  | undefinedFunction h =>
    intro n _
    rw [Job.run, eval_call, h]
    rfl
  | callLazy hf hc _ ih =>
    intro n hn
    have hr := ih n hn
    rw [Job.run, eval_call_of_lazy hf hc]
    cases n <;> exact hr
  | callEager hf hc _ _ ihargs ihi =>
    intro n hn
    rw [Job.run, eval_call_of_eager hf hc]
    exact (bind_of_run (ihargs n hn)).trans (ihi n hn)
  | define => exact fun n _ => eval_define _ _ _ _ _
  | cases _ ih =>
    intro n hn
    rw [Job.run, eval]
    exact ih n hn
  | noItems _ hc ihs =>
    intro n hn
    exact eval_loop_of_none ((evalSource_of_run _ (ihs n hn)).trans hc)
  | loopDefault _ hc hi _ ihs ihd =>
    intro n hn
    rw [Job.run, eval_loop_of_some ((evalSource_of_run _ (ihs n hn)).trans hc), hi]
    exact ihd n hn
  | loop _ hc hi _ ihs ihr =>
    intro n hn
    rw [Job.run, eval_loop_of_some ((evalSource_of_run _ (ihs n hn)).trans hc), hi]
    exact inBlock_runLoop_of_run (ihr n hn)
  | sequence _ ih =>
    intro n hn
    rw [Job.run, eval]
    exact ih n hn
  | invalid => exact fun _ _ => rfl
  | nil => exact fun _ _ => rfl
  | cons _ _ ihe ihes =>
    intro n hn
    have he : eval (deeperAt n) _ _ = _ := ihe n hn
    have hes : evalAll (deeperAt n) _ _ = _ := ihes n hn
    exact (evalAll_cons _ _ _ _).trans (by rw [he, hes])
  | noElse => exact fun _ _ => rfl
  | otherwise _ ih =>
    intro n hn
    rw [Job.run, evalBranches, evalOr]
    exact ih n hn
  | isTrue _ _ ihc ihe =>
    intro n hn
    rw [Job.run, evalBranches]
    exact (bind_of_run (ihc n hn)).trans (ihe n hn)
  | isFalse _ _ ihc ihbs =>
    intro n hn
    rw [Job.run, evalBranches]
    exact (bind_of_run (ihc n hn)).trans (ihbs n hn)
  | @noBool _ _ _ _ _ _ _ v _ _ hv ihc =>
    intro n hn
    rw [Job.run, evalBranches]
    refine (bind_of_run (ihc n hn)).trans ?_
    cases v with
    | bool b => exact absurd rfl (hv b)
    | _ => rfl
  | last => exact fun _ _ => rfl
  | statement _ _ ihe ihes =>
    intro n hn
    rw [Job.run, evalSequence]
    exact (bind_of_run (ihe n hn)).trans (ihes n hn)
  | finished h =>
    intro n _
    rw [Job.run, forItems_of_none h]
    rfl
  | stopped h _ ha ihb =>
    intro n hn
    rw [Job.run, forItems_left h]
    exact bind_of_run ((LoopForm.step_of_run (ihb n hn)).trans ha)
  | goesOn h _ ha _ ihb ihr =>
    intro n hn
    rw [Job.run, forItems_left h]
    exact (bind_of_run ((LoopForm.step_of_run (ihb n hn)).trans ha)).trans (ihr n hn)
  | callUndefined h =>
    intro n _
    rw [Job.run, callNamed_of_none h]
    rfl
  | call hf _ ih =>
    intro n hn
    rw [Job.run, callNamed_of_some hf]
    exact ih n hn
  | invalidArgument h =>
    intro n _
    rw [Job.run, FormulaLang.invoke, if_pos h]
    rfl
  | wrongCount h ha =>
    intro n _
    rw [Job.run, FormulaLang.invoke, h, ha]
    rfl
  | invoke h ha _ ih =>
    intro n hn
    exact (invoke_of_run h ha).trans (ih n hn)
  | tooDeep h =>
    intro n hn
    obtain rfl : n = 0 := by omega
    rfl
  | nested h _ ih =>
    intro n hn
    cases n with
    | zero => omega
    | succ n => exact ih n (by omega)
  | native _ ih => exact fun n hn => ih n hn
  | writer _ ih =>
    intro n hn
    rw [Job.run]
    exact bind_of_run (ih n hn)
  | «lazy» _ ih => exact fun n hn => ih n hn
  | parameterless _ ih =>
    intro n hn
    have hbody := ih n hn
    rw [Job.run, ← performAt_evaluate] at hbody
    exact hbody
  | parameters _ ih => exact fun n hn => run_callable_user (ih n hn)
  | done => exact fun _ _ => rfl
  | report _ ih => exact fun n hn => ih n hn
  | faultCount _ ih => exact fun n hn => ih n hn
  | @requestCall _ _ _ _ _ name args st v st₁ _ _ _ ihc ihn =>
    intro n hn
    have hc : performAt n (.call name args) st = (v, st₁) := by
      rw [performAt_eq]
      exact ihc n hn
    exact (bind_of_run hc).trans (ihn n hn)
  | @requestTree _ _ _ _ _ e st v st₁ _ _ _ ihe ihn =>
    intro n hn
    have he : performAt n (.evaluate e) st = (v, st₁) := by
      rw [performAt_eq]
      exact ihe n hn
    exact (bind_of_run he).trans (ihn n hn)

end Run

end FormulaLang
