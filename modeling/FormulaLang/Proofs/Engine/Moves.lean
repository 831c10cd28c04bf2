import FormulaLang.Catalog
import FormulaLang.Engine.Session

/-!
# What evaluation does to an engine

Evaluation changes an engine in few ways: it records faults, binds and assigns names, and does so
in blocks. A relation that these changes keep to, and blocks as a whole, relates the engines
before and after every evaluation.

* `Engine.InBlock`, `Engine.Scoped`: a relation that every change by evaluation keeps to.
* `Engine.Writes`: a relation that writing a number cell keeps to.
* `Engine.Steps`: a relation that every single change keeps to.
* `Eval.Moves`: a computation keeps to a relation.
* **`moves_eval`**, `moves_performAt`: so does evaluation, at every depth.
* `moves_evaluate`, `moves_call`, `moves_formula`, `moves_runProgram`: and every use of an engine.
-/

namespace FormulaLang

open Bytecode (Program)

/-- The same engine with a changed environment. -/
def Engine.onEnv (st : Engine) (f : Environment → Environment) : Engine :=
  { st with env := f st.env }

/-- A relation that recording a fault keeps to. -/
class Engine.Records (R : Engine → Engine → Prop) : Prop where
  refl : ∀ st, R st st
  trans : ∀ {st st₁ st₂}, R st st₁ → R st₁ st₂ → R st st₂
  note : ∀ st e, R st (st.note e)

/-- What is done in a block keeps to a relation, apart from the names that are bound. -/
inductive Engine.InBlock (R : Engine → Engine → Prop) : Engine → Engine → Prop where
  | refl (st : Engine) : InBlock R st st
  | move {st st₁ st₂ : Engine} : InBlock R st st₁ → R st₁ st₂ → InBlock R st st₂
  | bind {st st₁ : Engine} (name : String) (v : Value) :
      InBlock R st st₁ → InBlock R st (st₁.onEnv (·.addVariable name v))

/-- A relation that every change by evaluation keeps to. Names are assigned, but only a block binds
them whether or not they are bound. -/
class Engine.Scoped (R : Engine → Engine → Prop) : Prop extends Engine.Records R where
  assign : ∀ st name v, R st (Eval.assign name v st).2
  addFunction : ∀ (st : Engine) name f, R st (st.onEnv (·.addFunction name f))
  block : ∀ {st st' : Engine}, Engine.InBlock R (st.onEnv .enter) st' → R st (st'.onEnv .leave)

/-- A relation that writing a number cell keeps to, as compiled formulas do. -/
class Engine.Writes (R : Engine → Engine → Prop) : Prop where
  setNumber : ∀ (st : Engine) cell x,
    R st (st.onEnv fun env => { env with store := env.store.setNumber cell x })

/-- A relation that every change of an engine keeps to. -/
class Engine.Steps (R : Engine → Engine → Prop) : Prop
    extends Engine.Records R, Engine.Writes R where
  addVariable : ∀ (st : Engine) name v, R st (st.onEnv (·.addVariable name v))
  assign : ∀ st name v, R st (Eval.assign name v st).2
  addFunction : ∀ (st : Engine) name f, R st (st.onEnv (·.addFunction name f))
  block : ∀ {st st' : Engine}, R (st.onEnv .enter) st' → R st (st'.onEnv .leave)

namespace Engine.InBlock

variable {R : Engine → Engine → Prop} {st st₁ st₂ : Engine}

theorem trans (h : InBlock R st st₁) (h' : InBlock R st₁ st₂) : InBlock R st st₂ := by
  induction h' with
  | refl => exact h
  | move _ hr ih => exact ih.move hr
  | bind name v _ ih => exact ih.bind name v

theorem of_steps [Engine.Steps R] (h : InBlock R st st₁) : R st st₁ := by
  induction h with
  | refl => exact Engine.Records.refl _
  | move _ hr ih => exact Engine.Records.trans ih hr
  | bind name v _ ih => exact Engine.Records.trans ih (Engine.Steps.addVariable _ name v)

end Engine.InBlock

instance {R : Engine → Engine → Prop} [Engine.Records R] : Engine.Records (Engine.InBlock R) where
  refl := .refl
  trans := .trans
  note st e := (Engine.InBlock.refl st).move (Engine.Records.note st e)

instance {R : Engine → Engine → Prop} [Engine.Steps R] : Engine.Scoped R where
  assign := Engine.Steps.assign
  addFunction := Engine.Steps.addFunction
  block h := Engine.Steps.block h.of_steps

/-- A computation keeps to a relation. -/
def Eval.Moves (R : Engine → Engine → Prop) {α : Type} (x : Eval α) : Prop := ∀ st, R st (x st).2

section Moves

open Eval (Moves)
open Engine (InBlock Records Scoped Steps Writes)

variable {R : Engine → Engine → Prop} {α β σ : Type}

section Records

variable [Records R]

theorem moves_pure (a : α) : Moves R (pure a : Eval α) := Records.refl

theorem moves_bind {x : Eval α} {f : α → Eval β} (hx : Moves R x) (hf : ∀ a, Moves R (f a)) :
    Moves R (x >>= f) := fun st => Records.trans (hx st) (hf _ _)

theorem moves_get : Moves R (get : Eval Engine) := Records.refl

theorem moves_report (f : Fault) : Moves R (Eval.report f) := fun st => Records.note st f.unlocated

theorem moves_fail (f : Fault) : Moves R (Eval.fail f) := fun st => Records.note st f.unlocated

theorem moves_check (r : Except Fault Value) : Moves R (Eval.check r) := by
  cases r with
  | ok v => exact moves_pure v
  | error f => exact moves_fail f

theorem moves_value? (name : String) : Moves R (Eval.value? name) := Records.refl

theorem moves_function? (name : String) : Moves R (Eval.function? name) := Records.refl

/-! ## Loops -/

theorem moves_forItems {step : σ → Value → Eval (Except Value σ)}
    (hs : ∀ s v, Moves R (step s v)) (n : Nat) (items : Items) (s : σ) :
    Moves R (forItems step n items s) := by
  induction n generalizing items s with
  | zero => exact Records.refl
  | succ n ih =>
    intro st
    unfold forItems
    split
    · exact Records.refl st
    · next item rest _ =>
      have h := hs s item st
      split
      · next s' st' he =>
        rw [he] at h
        exact Records.trans h (ih rest s' st')
      · next v st' he =>
        rw [he] at h
        exact h

theorem moves_overItems {step : σ → Value → Eval (Except Value σ)}
    (hs : ∀ s v, Moves R (step s v)) (items : Items) (s : σ) (pack : σ → Value) :
    Moves R (overItems step items s pack) := by
  intro st
  have h := moves_forItems hs items.bound items s st
  unfold overItems
  split
  · next he =>
    rw [he] at h
    exact h
  · next he =>
    rw [he] at h
    exact h

theorem moves_append (out : Array Value) (v : Value) : Moves R (append out v) := by
  unfold append
  split
  · exact moves_bind (moves_fail _) fun _ => moves_pure _
  · exact moves_pure _


theorem moves_checkRange (a d b : Value) : Moves R (checkRange a d b) := by
  unfold checkRange
  split
  · exact moves_pure _
  · exact moves_pure _
  · exact moves_bind (moves_report _) fun _ => moves_pure _

theorem moves_checkItems (v : Value) : Moves R (checkItems v) := by
  unfold checkItems
  split
  · exact moves_pure _
  · split
    · exact moves_pure _
    · exact moves_bind (moves_report _) fun _ => moves_pure _

/-- A loop keeps to what its rounds keep to. -/
theorem moves_rounds {name : String} {body : Eval Value}
    (hitem : ∀ item, Moves R (withItem name body item)) (items : Items) (kind : LoopKind) :
    Moves R (runLoop name body items kind) := by
  have hfold : ∀ op acc item, Moves R (withItem name body item >>= fun v =>
      Eval.check (fold op acc v)) := fun op acc item =>
    moves_bind (hitem item) fun v => moves_check _
  have hreduce : ∀ op empty, Moves R (reduce name body op empty items) := by
    intro op empty
    refine moves_overItems (fun acc item => ?_) _ _ _
    refine moves_bind (hitem item) fun v => moves_bind (moves_check _) fun next => ?_
    split <;> exact moves_pure _
  have haccumulate : ∀ op, Moves R (accumulate name body op items) := by
    intro op
    refine moves_overItems (fun s item => ?_) _ _ _
    refine moves_bind (hitem item) fun v => moves_bind (moves_check _) fun next => ?_
    split
    · exact moves_pure _
    · refine moves_bind (moves_append _ _) fun r => ?_
      split <;> exact moves_pure _
  have hcollect : ∀ skip, Moves R (collectResults name body skip items) := by
    intro skip
    refine moves_overItems (fun out item => ?_) _ _ _
    refine moves_bind (hitem item) fun v => ?_
    split
    · split <;> exact moves_pure _
    · exact moves_append _ _
  have hfilter : ∀ lenient, Moves R (filterItems name body lenient items) := by
    intro lenient
    refine moves_overItems (fun out item => ?_) _ _ _
    refine moves_bind (hitem item) fun v => ?_
    split
    · exact moves_append _ _
    · exact moves_pure _
    · split
      · exact moves_pure _
      · split
        · exact moves_pure _
        · exact moves_bind (moves_fail _) fun _ => moves_pure _
  cases kind with
  | sum | prod => exact hreduce _ _
  | cumSum | cumProd => exact haccumulate _
  | collect | defaultCollect | saveCollect => exact hcollect _
  | filter | saveFilter => exact hfilter _

end Records

theorem moves_addVariable [Steps R] (name : String) (v : Value) :
    Moves R (Eval.change (·.addVariable name v)) := fun st => Steps.addVariable st name v

/-- What keeps to a relation does so in a block. -/
theorem Eval.Moves.inside {x : Eval α} (h : Moves R x) : Moves (InBlock R) x :=
  fun st => (InBlock.refl st).move (h st)

theorem moves_bindAll (params : List String) (args : List Value) :
    Moves (InBlock R) (bindAll params args) := by
  intro st
  unfold bindAll
  have h : ∀ (ps : List (String × Value)) (st : Engine),
      InBlock R st (st.onEnv (ps.foldl fun env p => env.addVariable p.1 p.2)) := by
    intro ps
    induction ps with
    | nil => exact .refl
    | cons p ps ih => exact fun st => ((InBlock.refl st).bind p.1 p.2).trans (ih _)
  exact h _ st

section Scoped

variable [Scoped R]

theorem moves_assign (name : String) (v : Value) : Moves R (Eval.assign name v) :=
  fun st => Scoped.assign st name v

theorem moves_inBlock {body : Eval α} (hb : Moves (InBlock R) body) : Moves R (Eval.inBlock body) :=
  fun st => Scoped.block (hb (st.onEnv .enter))

theorem moves_runLoop {name : String} {body : Eval Value} (hb : Moves R body) (items : Items)
    (kind : LoopKind) : Moves (InBlock R) (runLoop name body items kind) :=
  moves_rounds (fun item => moves_bind (fun st => (InBlock.refl st).bind name item) fun _ =>
    hb.inside) items kind

/-! ## Calls -/

theorem moves_perform {task : Task → Eval Value} (ht : ∀ t, Moves R (task t)) (r : Request α) :
    Moves R (r.perform task) := by
  induction r with
  | done a => exact moves_pure a
  | report f next ih => exact moves_bind (moves_report f) fun _ => ih
  | faultCount next ih => exact moves_bind (moves_get) fun st => ih _
  | call name args next ih => exact moves_bind (ht _) fun v => ih v
  | evaluate e next ih => exact moves_bind (ht _) fun v => ih v

theorem moves_assignElements (name : String) (i v : Value) :
    Moves R (assignElements name i v) := by
  unfold assignElements
  split
  · exact moves_pure _
  · refine moves_bind (moves_value? name) fun target => ?_
    split
    · exact moves_fail _
    · split
      · exact moves_fail _
      · exact moves_assign _ _

section Deeper

set_option linter.unusedSectionVars false

variable {deeper : Deeper} (hd : ∀ task ∈ deeper, ∀ t, Moves R (task t))

include hd

theorem moves_descend {call : (Task → Eval Value) → Eval Value}
    (hc : ∀ task, (∀ t, Moves R (task t)) → Moves R (call task)) :
    Moves R (descend deeper call) := by
  cases deeper with
  | none => exact moves_bind (moves_get) fun _ => moves_fail _
  | some task => exact hc task (hd task rfl)

theorem moves_invoke (name : String) (f : Function) (args : List Value) :
    Moves R (invoke deeper name f args) := by
  unfold invoke
  split
  · exact moves_pure _
  split
  · exact moves_fail _
  refine moves_descend hd fun task ht => ?_
  split
  · exact moves_perform ht _
  · exact moves_bind (moves_perform ht _) fun _ => moves_pure _
  · exact moves_perform ht _
  · next params body =>
    unfold callUser
    split
    · exact ht _
    · exact moves_inBlock (moves_bind (moves_bindAll _ _) fun _ => (ht _).inside)

theorem moves_callNamed (name : String) (args : List Value) :
    Moves R (callNamed deeper name args) := by
  refine moves_bind (moves_function? name) fun f => ?_
  split
  · exact moves_fail _
  · exact moves_invoke hd _ _ _

/-! ## Trees -/

mutual

/-- **Evaluation keeps to every relation that single changes keep to.** -/
theorem moves_eval : ∀ e : Expr, Moves R (eval deeper e)
  | .constant v => moves_pure v
  | .var name => by
    rw [eval]
    refine moves_bind (moves_value? name) fun v => ?_
    split
    · exact moves_pure _
    · exact moves_fail _
  | .unary op e => by
    rw [eval]
    exact moves_bind (moves_eval e) fun v => moves_check _
  | .binary op a b | .compare op a b | .logical op a b => by
    rw [eval]
    exact moves_bind (moves_eval a) fun x => moves_bind (moves_eval b) fun y => moves_check _
  | .assign name e => by
    rw [eval]
    refine moves_bind (moves_eval e) fun v => ?_
    split
    · exact moves_pure _
    · exact moves_assign name v
  | .assignElement name i e => by
    rw [eval]
    exact moves_bind (moves_eval i) fun x => moves_bind (moves_eval e) fun y =>
      moves_assignElements name x y
  | .element name i => by
    rw [eval]
    refine moves_bind (moves_eval i) fun x => moves_bind (moves_value? name) fun v => ?_
    split
    · exact moves_check _
    · exact moves_fail _
  | .index e i => by
    rw [eval]
    exact moves_bind (moves_eval e) fun x => moves_bind (moves_eval i) fun y => moves_check _
  | .member e name => by
    rw [eval]
    exact moves_bind (moves_eval e) fun v => moves_check _
  | .call name args => by
    rw [eval]
    refine moves_bind (moves_function? name) fun f => ?_
    split
    · exact moves_fail _
    · split
      · exact moves_descend hd fun task ht => moves_perform ht _
      · exact moves_bind (moves_evalAll args) fun vs => moves_invoke hd _ _ _
  | .define name params body => by
    rw [eval]
    exact moves_bind (fun st => Scoped.addFunction st name _) fun _ => moves_pure _
  | .cases branches otherwise => by
    rw [eval]
    exact moves_evalBranches branches _ (moves_evalOr .invalid otherwise)
  | .range a d b => by
    rw [eval]
    refine moves_bind (moves_eval a) fun x => moves_bind (moves_evalOr _ d) fun y =>
      moves_bind (moves_eval b) fun z => moves_bind (moves_checkRange x y z) fun r => ?_
    split
    · exact moves_check _
    · exact moves_pure _
  | .loop kind name source body default => by
    rw [eval]
    refine moves_bind (moves_evalSource source) fun items => ?_
    split
    · exact moves_pure _
    · split
      · exact moves_evalOr .invalid default
      · exact moves_inBlock (moves_runLoop (moves_eval body) _ kind)
  | .vector items => by
    rw [eval]
    exact moves_bind (moves_evalAll items) fun vs => moves_check _
  | .matrix rows => by
    rw [eval]
    exact moves_bind (moves_evalRows rows) fun vs => moves_check _
  | .list items => by
    rw [eval]
    refine moves_bind (moves_evalAll items) fun vs => ?_
    split <;> exact moves_pure _
  | .sequence es => by
    rw [eval]
    exact moves_evalSequence es .void
  | .invalid => moves_pure _

theorem moves_evalAll : ∀ es : List Expr, Moves R (evalAll deeper es)
  | [] => moves_pure _
  | e :: es => by
    rw [evalAll]
    exact moves_bind (moves_eval e) fun v => moves_bind (moves_evalAll es) fun vs =>
      moves_pure _

theorem moves_evalRows : ∀ rows : List (List Expr), Moves R (evalRows deeper rows)
  | [] => moves_pure _
  | row :: rows => by
    rw [evalRows]
    exact moves_bind (moves_evalAll row) fun v => moves_bind (moves_evalRows rows) fun vs =>
      moves_pure _

theorem moves_evalOr (missing : Value) : ∀ e : Option Expr, Moves R (evalOr deeper missing e)
  | none => moves_pure _
  | some e => moves_eval e

theorem moves_evalBranches : ∀ (bs : List (Expr × Expr)) (otherwise : Eval Value),
    Moves R otherwise → Moves R (evalBranches deeper bs otherwise)
  | [], otherwise, ho => ho
  | (c, e) :: rest, otherwise, ho => by
    rw [evalBranches]
    refine moves_bind (moves_eval c) fun v => ?_
    split
    · exact moves_eval e
    · exact moves_evalBranches rest otherwise ho
    · split
      · exact moves_pure _
      · exact moves_fail _

theorem moves_evalSource : ∀ source : LoopSource Expr, Moves R (evalSource deeper source)
  | .items e => by
    rw [evalSource]
    exact moves_bind (moves_eval e) fun v => moves_checkItems v
  | .range a d b => by
    rw [evalSource]
    exact moves_bind (moves_eval a) fun x => moves_bind (moves_evalOr _ d) fun y =>
      moves_bind (moves_eval b) fun z => moves_bind (moves_checkRange x y z) fun r =>
        moves_pure _

theorem moves_evalSequence : ∀ (es : List Expr) (last : Value),
    Moves R (evalSequence deeper es last)
  | [], last => moves_pure _
  | e :: es, last => by
    rw [evalSequence]
    exact moves_bind (moves_eval e) fun v => moves_evalSequence es v

end

end Deeper

/-! ## Engines -/

/-- How calls are done at a depth. -/
def deeperAt : Nat → Deeper
  | 0 => none
  | n + 1 => some (performAt n)

theorem performAt_eq (n : Nat) (t : Task) : performAt n t = perform (deeperAt n) t := by
  cases n <;> rfl

theorem performAt_evaluate (n : Nat) (e : Expr) :
    performAt n (.evaluate e) = eval (deeperAt n) e := performAt_eq n _

/-- Evaluation goes as deep as the settings say. -/
theorem evaluate_eq (e : Expr) (st : Engine) :
    Engine.evaluate e st = eval (deeperAt st.settings.callDepth) e st :=
  congrFun (performAt_evaluate _ e) st

/-- A text is read, and then evaluated unless a fault was recorded. -/
theorem formula_eq (source : String) (st : Engine) : Engine.formula source st =
    if st.log.size < (Engine.read source st).2.log.size then (.invalid, (Engine.read source st).2)
    else Engine.evaluate (Engine.read source st).1 (Engine.read source st).2 := by
  unfold Engine.formula
  generalize Engine.read source = x
  exact apply_ite (fun y : Eval Value => y (x st).2) _ _ _

/-- Tasks keep to the relation at every depth. -/
theorem moves_performAt (n : Nat) (t : Task) : Moves R (performAt n t) := by
  induction n generalizing t with
  | zero =>
    cases t with
    | evaluate e => exact moves_eval (by simp) e
    | call name args => exact moves_callNamed (by simp) name args
  | succ n ih =>
    have hd : ∀ task ∈ some (performAt n), ∀ t, Moves R (task t) := by
      intro task ht
      cases ht
      exact ih
    cases t with
    | evaluate e => exact moves_eval hd e
    | call name args => exact moves_callNamed hd name args

theorem moves_deeperAt (n : Nat) : ∀ task ∈ deeperAt n, ∀ t, Moves R (task t) := by
  intro task ht t
  cases n with
  | zero => cases ht
  | succ n =>
    cases ht
    exact moves_performAt n t

theorem moves_run (t : Task) : Moves R (Engine.run t) :=
  moves_bind (moves_get) fun _ => moves_performAt _ t

theorem moves_evaluate (e : Expr) : Moves R (Engine.evaluate e) := moves_run _

theorem moves_call (name : String) (args : List Value) : Moves R (Engine.call name args) :=
  moves_run _

theorem moves_read (source : String) : Moves R (Engine.read source) := by
  have h : ∀ (faults : List Located) (st : Engine), R st { st with log := st.log ++ faults } := by
    intro faults
    induction faults with
    | nil => exact fun st => by simpa using Records.refl st
    | cons e faults ih =>
      exact fun st => by simpa [Engine.note] using Records.trans (Records.note st e) (ih _)
  intro st
  exact h (Parser.parse st.settings.parseDepth source).2 st

theorem moves_formula (source : String) : Moves R (Engine.formula source) := by
  unfold Engine.formula
  refine moves_bind (moves_get) fun _ => moves_bind (moves_read source) fun e =>
    moves_bind (moves_get) fun _ => ?_
  split
  · exact moves_pure _
  · exact moves_evaluate e

theorem moves_compile (e : Expr) : Moves R (Engine.compile e) := by
  intro st
  unfold Engine.compile
  split
  · exact Records.refl st
  · exact Records.note st _

end Scoped

/-! ## Machines -/

section Machines

variable [Scoped R] [Writes R]

open Bytecode in
theorem moves_execute (limit length : Nat) (i : Instruction) (m : Machine) :
    Moves R (execute limit length i m) := by
  intro st
  cases i with
  | writeCell cell =>
    simp only [execute]
    split
    · next x m' _ => exact Writes.setNumber st cell x
    · exact Records.refl st
  | callContext f =>
    simp only [execute]
    split
    · next args m' _ => exact moves_perform (moves_run) (f.run args) st
    · exact Records.refl st
  | call name arity =>
    simp only [execute]
    split
    · next args m' _ =>
      have h : R st _ := moves_call name (args.map .number) st
      rcases he : Engine.call name (args.map .number) st with ⟨v, st'⟩
      rw [he] at h
      dsimp only
      split <;> exact h
    · exact Records.refl st
  | dup | jumpIf | callPlain =>
    simp only [execute]
    split <;> exact Records.refl st
  | _ => exact Records.refl st

open Bytecode in
theorem moves_runFor (limit : Nat) (code : Array Instruction) (n : Nat) (m : Machine) :
    Moves R (runFor limit code n m) := by
  induction n generalizing m with
  | zero => exact Records.refl
  | succ n ih =>
    intro st
    unfold runFor
    split
    · exact Records.refl st
    · next i _ =>
      have h : R st _ := moves_execute limit code.size i m st
      split
      · next m' st' he =>
        rw [he] at h
        exact Records.trans h (ih m' st')
      · next f st' he =>
        rw [he] at h
        exact h

/-- Runs of compiled formulas keep to the relation. -/
theorem moves_runSteps (n : Nat) (p : Program) (settings : Settings) :
    Moves R (p.runSteps n settings) :=
  fun st => moves_runFor settings.stackLimit p.code n (p.start settings) st

theorem moves_runProgram (p : Program) : Moves R (Engine.runProgram p) := by
  intro st
  have h : R st (p.run st.settings st).2 :=
    moves_runSteps (R := R) Program.patience p st.settings st
  unfold Engine.runProgram
  split
  · next he =>
    rw [he] at h
    exact h
  · next f st' he =>
    rw [he] at h
    exact Records.trans h (Records.note st' f.unlocated)

end Machines

end Moves

end FormulaLang
