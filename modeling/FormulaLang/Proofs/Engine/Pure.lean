import FormulaLang.Bytecode.Compile
import FormulaLang.Proofs.Engine.Quiet
import FormulaLang.Proofs.Engine.Repeats
import FormulaLang.Proofs.Engine.Termination

/-!
# Pure trees

A tree is pure if it assigns nothing and defines nothing, and so are the bodies of the functions
that it calls. Its evaluation binds loop variables and parameters, and takes all of that back, also
after a fault. So it can be evaluated once more, and everything happens again.

* `Expr.Pure`, `Function.Pure`: pure trees, and functions that can be called in them.
* `ScopedTable.Same`, `Engine.Untouched`: the tables, the level and the cells are as they were.
* `repeats_eval`, `deeperRepeats_deeperAt`: pure trees repeat themselves, at every depth.
* `Engine.Repeatable`, **`repeatable_eval`**: a pure tree can be evaluated again.
-/

namespace FormulaLang

open Bytecode (definitions definitionsOfAll definitionsOfRows definitionsOfBranches
  definitionsOfOption definitionsOfSource)
open Environment (Inside Unchanged)

/-! ## Pure trees and functions -/

section Pure

variable (calls : String → Bool)

/-- The tree has no assignment and no definition, and calls only functions of some names. -/
def Expr.Pure (e : Expr) : Prop := e.quiet calls ∧ definitions e = 0

instance (e : Expr) : Decidable (e.Pure calls) := inferInstanceAs (Decidable (_ ∧ _))

/-- A function of the catalog, or one of a formula with a pure body. -/
def Function.Pure (f : Function) : Prop :=
  (∃ name, (name, f) ∈ Catalog.functions) ∨
    ∃ params body, f.callable = .user params body ∧ body.Pure calls

end Pure

namespace Expr

variable {calls : String → Bool} {e : Expr} {es : List Expr}

attribute [local simp] quiet quietSource definitions definitionsOfSource

theorem pure_of_all (hq : quietAll calls es) (hd : definitionsOfAll es = 0) :
    ∀ e ∈ es, e.Pure calls := by
  induction es with
  | nil => exact fun e he => by cases he
  | cons e es ih =>
    simp only [quietAll, Bool.and_eq_true] at hq
    rw [definitionsOfAll, Nat.add_eq_zero_iff] at hd
    exact List.forall_mem_cons.2 ⟨⟨hq.1, hd.1⟩, ih hq.2 hd.2⟩

theorem pure_of_rows {rows : List (List Expr)} (hq : quietRows calls rows)
    (hd : definitionsOfRows rows = 0) : ∀ e ∈ rows.flatten, e.Pure calls := by
  induction rows with
  | nil => exact fun e he => by cases he
  | cons row rows ih =>
    simp only [quietRows, Bool.and_eq_true] at hq
    rw [definitionsOfRows, Nat.add_eq_zero_iff] at hd
    intro e he
    rcases List.mem_append.1 (List.flatten_cons ▸ he) with he | he
    · exact pure_of_all hq.1 hd.1 e he
    · exact ih hq.2 hd.2 e he

theorem pure_of_branches {bs : List (Expr × Expr)} (hq : quietBranches calls bs)
    (hd : definitionsOfBranches bs = 0) : ∀ b ∈ bs, b.1.Pure calls ∧ b.2.Pure calls := by
  induction bs with
  | nil => exact fun b hb => by cases hb
  | cons b bs ih =>
    obtain ⟨c, e⟩ := b
    simp only [quietBranches, Bool.and_eq_true] at hq
    rw [definitionsOfBranches, Nat.add_eq_zero_iff, Nat.add_eq_zero_iff] at hd
    exact List.forall_mem_cons.2
      ⟨⟨⟨hq.1.1, hd.1.1⟩, ⟨hq.1.2, hd.1.2⟩⟩, ih hq.2 hd.2⟩

theorem pure_of_option {o : Option Expr} (hq : quietOption calls o)
    (hd : definitionsOfOption o = 0) : ∀ e ∈ o, e.Pure calls := by
  rintro e rfl
  exact ⟨hq, hd⟩

theorem pure_of_bounds {a b : Expr} {d : Option Expr} (ha : a.Pure calls)
    (hd : ∀ e ∈ d, e.Pure calls) (hb : b.Pure calls) : ∀ e ∈ bounds a d b, e.Pure calls := by
  have hstep : (d.getD (.constant (.number 1.0))).Pure calls := by
    cases d with
    | none => exact ⟨rfl, rfl⟩
    | some e => exact hd e rfl
  simpa [bounds] using ⟨ha, hstep, hb⟩

namespace Pure

/-- The operands of a pure tree are pure. -/
theorem operands {finish : List Value → Eval Value} (h : e.Pure calls)
    (he : e.eager? = some (es, finish)) : ∀ e' ∈ es, e'.Pure calls := by
  obtain ⟨hq, hd⟩ := h
  cases e with
  | unary op a | element name a | member a name =>
    cases he
    intro e' he'
    obtain rfl := List.mem_singleton.1 he'
    exact ⟨by simpa using hq, by simpa using hd⟩
  | binary op a b | compare op a b | logical op a b | index a b =>
    cases he
    simp only [quiet, Bool.and_eq_true] at hq
    rw [definitions, Nat.add_eq_zero_iff] at hd
    simpa using ⟨⟨hq.1, hd.1⟩, ⟨hq.2, hd.2⟩⟩
  | assign name a | assignElement name a b => simp at hq
  | range a d b =>
    cases he
    simp only [quiet, Bool.and_eq_true] at hq
    rw [definitions, Nat.add_eq_zero_iff, Nat.add_eq_zero_iff] at hd
    exact pure_of_bounds ⟨hq.1.1, hd.1.1⟩ (pure_of_option hq.1.2 hd.1.2) ⟨hq.2, hd.2⟩
  | vector items | list items =>
    cases he
    exact pure_of_all (by simpa using hq) (by simpa using hd)
  | matrix rows =>
    cases he
    exact pure_of_rows (by simpa using hq) (by simpa using hd)
  | _ => cases he

theorem call {name : String} (h : (Expr.call name es).Pure calls) :
    calls name ∧ ∀ e ∈ es, e.Pure calls := by
  obtain ⟨hq, hd⟩ := h
  simp only [quiet, Bool.and_eq_true] at hq
  exact ⟨hq.1, pure_of_all hq.2 (by simpa using hd)⟩

theorem not_define {name : String} {params : List String} {body : Expr} :
    ¬ (Expr.define name params body).Pure calls := by
  rintro ⟨-, hd⟩
  rw [definitions] at hd
  cases hd

theorem branches {bs : List (Expr × Expr)} {otherwise : Option Expr}
    (h : (Expr.cases bs otherwise).Pure calls) :
    (∀ b ∈ bs, b.1.Pure calls ∧ b.2.Pure calls) ∧ ∀ e ∈ otherwise, e.Pure calls := by
  obtain ⟨hq, hd⟩ := h
  simp only [quiet, Bool.and_eq_true] at hq
  rw [definitions, Nat.add_eq_zero_iff] at hd
  exact ⟨pure_of_branches hq.1 hd.1, pure_of_option hq.2 hd.2⟩

theorem loop {kind : LoopKind} {name : String} {source : LoopSource Expr} {body : Expr}
    {default : Option Expr} (h : (Expr.loop kind name source body default).Pure calls) :
    (∀ e ∈ source.operands, e.Pure calls) ∧ body.Pure calls ∧ ∀ e ∈ default, e.Pure calls := by
  obtain ⟨hq, hd⟩ := h
  simp only [quiet, Bool.and_eq_true] at hq
  rw [definitions, Nat.add_eq_zero_iff, Nat.add_eq_zero_iff] at hd
  refine ⟨?_, ⟨hq.1.2, hd.1.2⟩, pure_of_option hq.2 hd.2⟩
  obtain ⟨hq, hd⟩ := And.intro hq.1.1 hd.1.1
  cases source with
  | items e =>
    intro e' he'
    obtain rfl := List.mem_singleton.1 he'
    exact ⟨by simpa using hq, by simpa using hd⟩
  | range a d b =>
    simp only [quietSource, Bool.and_eq_true] at hq
    rw [definitionsOfSource, Nat.add_eq_zero_iff, Nat.add_eq_zero_iff] at hd
    exact pure_of_bounds ⟨hq.1.1, hd.1.1⟩ (pure_of_option hq.1.2 hd.1.2) ⟨hq.2, hd.2⟩

theorem sequence (h : (Expr.sequence es).Pure calls) : ∀ e ∈ es, e.Pure calls :=
  pure_of_all (by simpa using h.1) (by simpa using h.2)

end Pure

end Expr

/-! ## Trees -/

section Trees

variable {F : Environment.Change} {held : List Nat} {functions : String → Option Function}
  {calls : String → Bool} {deeper : Deeper} {e : Expr} {es : List Expr}

theorem repeats_ofOne {f : Value → Eval Value} (hf : ∀ v, Repeats F held functions (f v))
    (vs : List Value) : Repeats F held functions (ofOne f vs) := by
  unfold ofOne
  split
  · exact hf _
  · exact repeats_pure _

theorem repeats_ofTwo {f : Value → Value → Eval Value}
    (hf : ∀ v w, Repeats F held functions (f v w)) (vs : List Value) :
    Repeats F held functions (ofTwo f vs) := by
  unfold ofTwo
  split
  · exact hf _ _
  · exact repeats_pure _

theorem repeats_readElement (name : String) (index : Value) :
    Repeats F held functions (readElement name index) := by
  refine (repeats_value? name).bind fun target => ?_
  split
  · exact repeats_check _
  · exact repeats_fail _

theorem repeats_rangeVector (r : Option Range) : Repeats F held functions (rangeVector r) := by
  cases r with
  | none => exact repeats_pure _
  | some r => exact repeats_check _

/-- What a tree does with the values of its operands repeats itself, unless it assigns them. -/
theorem repeats_finish {finish : List Value → Eval Value} (h : e.Pure calls)
    (he : e.eager? = some (es, finish)) (vs : List Value) :
    Repeats F held functions (finish vs) := by
  cases e with
  | unary | member =>
    cases he
    exact repeats_ofOne (fun _ => repeats_check _) vs
  | binary | compare | logical | index =>
    cases he
    exact repeats_ofTwo (fun _ _ => repeats_check _) vs
  | assign | assignElement => simp [Expr.Pure, Expr.quiet] at h
  | element name i =>
    cases he
    exact repeats_ofOne (repeats_readElement name) vs
  | range a d b =>
    cases he
    exact repeats_ofBounds repeats_rangeVector vs
  | vector | matrix =>
    cases he
    exact repeats_check _
  | list items =>
    cases he
    dsimp only
    split <;> exact repeats_pure _
  | _ => cases he

theorem repeats_evalAll (h : ∀ e ∈ es, Repeats F held functions (eval deeper e)) :
    Repeats F held functions (evalAll deeper es) := by
  induction es with
  | nil => exact repeats_pure _
  | cons e es ih =>
    obtain ⟨he, hes⟩ := List.forall_mem_cons.1 h
    rw [evalAll]
    exact he.bind fun v => (ih hes).bind fun vs => repeats_pure _

theorem repeats_evalOr (missing : Value) {o : Option Expr}
    (h : ∀ e ∈ o, Repeats F held functions (eval deeper e)) :
    Repeats F held functions (evalOr deeper missing o) := by
  cases o with
  | none => exact repeats_pure _
  | some e => exact h e rfl

theorem repeats_evalBranches {bs : List (Expr × Expr)} {otherwise : Eval Value}
    (h : ∀ b ∈ bs, Repeats F held functions (eval deeper b.1) ∧
      Repeats F held functions (eval deeper b.2))
    (ho : Repeats F held functions otherwise) :
    Repeats F held functions (evalBranches deeper bs otherwise) := by
  induction bs with
  | nil => exact ho
  | cons b bs ih =>
    obtain ⟨c, e⟩ := b
    obtain ⟨⟨hc, he⟩, hbs⟩ := List.forall_mem_cons.1 h
    rw [evalBranches]
    refine hc.bind fun v => ?_
    split
    · exact he
    · exact ih hbs
    · split
      · exact repeats_pure _
      · exact repeats_fail _

theorem repeats_evalSource {source : LoopSource Expr}
    (h : ∀ e ∈ source.operands, Repeats F held functions (eval deeper e)) :
    Repeats F held functions (evalSource deeper source) := by
  rw [evalSource_eq]
  exact (repeats_evalAll h).bind (repeats_check_source source)

theorem repeats_evalSequence (h : ∀ e ∈ es, Repeats F held functions (eval deeper e))
    (last : Value) : Repeats F held functions (evalSequence deeper es last) := by
  induction es generalizing last with
  | nil => exact repeats_pure _
  | cons e es ih =>
    obtain ⟨he, hes⟩ := List.forall_mem_cons.1 h
    rw [evalSequence]
    exact he.bind fun v => ih hes v

/-! ### Calls -/

/-- Pure trees repeat themselves one level deeper. -/
def DeeperRepeats (held : List Nat) (functions : String → Option Function)
    (calls : String → Bool) (deeper : Deeper) : Prop :=
  ∀ task ∈ deeper, ∀ e : Expr, e.Pure calls → Repeats Unchanged held functions (task (.evaluate e))

theorem repeats_descend {call : (Task → Eval Value) → Eval Value}
    (hc : ∀ task ∈ deeper, Repeats F held functions (call task)) :
    Repeats F held functions (descend deeper call) := by
  cases deeper with
  | none => exact repeats_descend_none call
  | some task => exact hc task rfl

/-- What is done at once needs no deeper level. -/
theorem repeats_perform {r : Request Value} (hr : r.Immediate) (task : Task → Eval Value) :
    Repeats F held functions (r.perform task) := by
  rcases hr with ⟨v, rfl⟩ | ⟨f, rfl⟩
  · exact repeats_pure v
  · exact repeats_fail f

/-- Parameters are bound in a block. -/
theorem repeats_callUser {task : Task → Eval Value} {body : Expr}
    (hb : Repeats Unchanged held functions (task (.evaluate body))) (params : List String)
    (args : List Value) : Repeats Unchanged held functions (callUser task params body args) := by
  unfold callUser
  split
  · exact hb
  · exact repeats_inBlock ((repeats_bindAll params args).bind fun _ => hb.inside)

theorem repeats_invoke (hd : DeeperRepeats held functions calls deeper) (name : String)
    {f : Function} (hf : f.Pure calls) (args : List Value) :
    Repeats Unchanged held functions (invoke deeper name f args) := by
  unfold invoke
  split
  · exact repeats_pure _
  split
  · exact repeats_fail _
  refine repeats_descend fun task htask => ?_
  rcases hf with ⟨key, hmem⟩ | ⟨params, body, hcall, hbody⟩
  · have himmediate := Catalog.immediate hmem
    unfold Function.Immediate at himmediate
    cases hcall : f.callable with
    | native run =>
      rw [hcall] at himmediate
      exact repeats_perform (himmediate args) task
    | «lazy» run =>
      rw [hcall] at himmediate
      exact repeats_perform (himmediate _) task
    | _ =>
      rw [hcall] at himmediate
      exact himmediate.elim
  · rw [hcall]
    exact repeats_callUser (hd task htask body hbody) params args

/-- A function that evaluates its arguments itself is one of the catalog. -/
theorem Function.Pure.immediate {f : Function} (hf : f.Pure calls)
    {run : List Expr → Request Value} (hcall : f.callable = .lazy run) (es : List Expr) :
    (run es).Immediate := by
  rcases hf with ⟨key, hmem⟩ | ⟨params, body, huser, -⟩
  · have himmediate := Catalog.immediate hmem
    unfold Function.Immediate at himmediate
    rw [hcall] at himmediate
    exact himmediate es
  · rw [huser] at hcall
    cases hcall

/-- **Pure trees repeat themselves.** -/
theorem repeats_eval (hd : DeeperRepeats held functions calls deeper)
    (hf : ∀ name f, calls name → functions name = some f → f.Pure calls) (he : e.Pure calls) :
    Repeats Unchanged held functions (eval deeper e) := by
  induction e using Expr.induct with
  | constant v => exact repeats_pure v
  | var name =>
    rw [eval]
    refine (repeats_value? name).bind fun v => ?_
    split
    · exact repeats_pure _
    · exact repeats_fail _
  | eager e es finish heager ih =>
    rw [eval_eager heager]
    exact (repeats_evalAll fun e' he' => ih e' he' (he.operands heager e' he')).bind
      (repeats_finish he heager)
  | call name args ih =>
    obtain ⟨hname, hargs⟩ := he.call
    rw [eval]
    refine repeats_function?_bind ?_
    cases hfunction : functions name with
    | none => exact repeats_fail _
    | some f =>
      have hpure := hf name f hname hfunction
      dsimp only
      split
      · next run hcall =>
        exact repeats_descend fun task _ => repeats_perform (hpure.immediate hcall args) task
      · exact (repeats_evalAll fun e' he' => ih e' he' (hargs e' he')).bind fun vs =>
          repeats_invoke hd name hpure vs
  | define name params body => exact absurd he Expr.Pure.not_define
  | cases bs otherwise ihbs iho =>
    obtain ⟨hbs, ho⟩ := he.branches
    rw [eval]
    exact repeats_evalBranches
      (fun b hb => ⟨(ihbs b hb).1 (hbs b hb).1, (ihbs b hb).2 (hbs b hb).2⟩)
      (repeats_evalOr _ fun e' he' => iho e' he' (ho e' he'))
  | loop kind name source body default ihs ihb ihd =>
    obtain ⟨hs, hb, hdefault⟩ := he.loop
    rw [eval]
    refine (repeats_evalSource fun e' he' => ihs e' he' (hs e' he')).bind fun items => ?_
    split
    · exact repeats_pure _
    split
    · exact repeats_evalOr _ fun e' he' => ihd e' he' (hdefault e' he')
    · exact repeats_inBlock (repeats_runLoop (ihb hb) name _ kind)
  | sequence es ih =>
    rw [eval]
    exact repeats_evalSequence (fun e' he' => ih e' he' (he.sequence e' he')) .void
  | invalid => exact repeats_pure _

/-- Pure trees repeat themselves at every depth. -/
theorem deeperRepeats_deeperAt
    (hf : ∀ name f, calls name → functions name = some f → f.Pure calls) (n : Nat) :
    DeeperRepeats held functions calls (deeperAt n) := by
  induction n with
  | zero => exact fun task htask => by cases htask
  | succ n ih =>
    intro task htask e he
    cases htask
    rw [performAt_evaluate]
    exact repeats_eval ih hf he

end Trees

/-! ## Engines -/

namespace ScopedTable

variable {α : Type} {t t' : ScopedTable α}

/-- The same bindings, hidden ones included, with the same one visible for each name. -/
structure Same (t t' : ScopedTable α) : Prop where
  entries : t'.entries = t.entries
  index : ∀ name : String, t'.index[name]? = t.index[name]?

/-- Names, levels and values tell everything else. -/
theorem Coherent.same (h : t.Coherent) (h' : t'.Coherent) (hb : t'.bindings = t.bindings) :
    t.Same t' := by
  have hframe : t'.frame = t.frame := by rw [← map_bindings, hb, map_bindings]
  refine ⟨Array.ext_getElem? fun i => ?_, fun name => Option.ext fun i => by
    rw [h'.index, h.index, hframe]⟩
  have hi := congrArg (·[i]?) hb
  simp only [getElem?_bindings] at hi
  cases he : t.entries[i]? with
  | none =>
    rw [he] at hi
    simpa using hi
  | some e =>
    rw [he] at hi
    obtain ⟨e', he', heq⟩ := Option.map_eq_some_iff.1 hi
    have hhidden : e'.hidden = e.hidden := Option.ext fun j => by
      have hname : e'.name = e.name := congrArg Prod.fst heq
      rw [h'.hidden i e' he', h.hidden i e he, hframe, hname]
    obtain ⟨name, level, value, hidden⟩ := e
    obtain ⟨name', level', value', hidden'⟩ := e'
    cases heq
    cases hhidden
    exact he'

end ScopedTable

/-- Nothing but the recorded faults is different: the tables, the level, the settings and what every
cell holds are as they were. -/
structure Engine.Untouched (st st' : Engine) : Prop where
  vars : st.env.vars.Same st'.env.vars
  functions : st.env.functions.Same st'.env.functions
  level : st'.env.level = st.env.level
  number : ∀ cell < st.env.store.numbers.size,
    st'.env.store.number cell = st.env.store.number cell
  bool : ∀ cell, st'.env.store.bool cell = st.env.store.bool cell
  value : ∀ cell, st'.env.store.value cell = st.env.store.value cell
  settings : st'.settings = st.settings

/-- A computation leaves an engine untouched, and done again it has the same value, records the same
faults and leaves the engine untouched again. -/
structure Engine.Repeatable (st : Engine) (x : Eval Value) : Prop where
  once : st.Untouched (x st).2
  twice : (x st).2.Untouched (x (x st).2).2
  value : (x (x st).2).1 = (x st).1
  log : ∃ new, (x st).2.log = st.log ++ new ∧ (x (x st).2).2.log = (x st).2.log ++ new

section Engines

variable {held : List Nat} {cells : List HostCell} {functions : String → Option Function}
  {calls : String → Bool} {base st st' : Engine} {e : Expr}

theorem Engine.untouched_of_unchanged (hs : st.env.Sound held) (hs' : st'.env.Sound held)
    (h : st.env.Unchanged st'.env) (hsettings : st'.settings = st.settings) :
    st.Untouched st' where
  vars := hs.vars.same hs'.vars h.vars
  functions := hs.functions.same hs'.functions h.bindings
  level := h.level
  number cell hc := by
    have hread := h.read (.number cell) fun c hc' => by cases hc'; exact hc
    exact Value.number.inj hread
  bool cell := Value.bool.inj (h.read (.host (.bool cell)) fun c hc => by cases hc)
  value cell := h.read (.host (.value cell)) fun c hc => by cases hc
  settings := hsettings

/-- What repeats itself can be done again. -/
theorem Repeats.repeatable {x : Eval Value} (hs : st.env.Sound held)
    (hx : Repeats Unchanged held st.env.function? x) (hsettings : Eval.Moves KeepsSettings x) :
    st.Repeatable x := by
  -- The first run next to itself tells where it leads, and next to the second one what that does.
  have hstart : Paired Unchanged held st.env.function? st st st st :=
    ⟨hs, hs, fun _ => rfl, rfl, rfl, rfl, .refl _, .refl _, #[], Array.append_empty.symm,
      Array.append_empty.symm⟩
  obtain ⟨-, h₁⟩ := hx _ _ _ _ hstart
  have hbetween : Paired Unchanged held st.env.function? st (x st).2 st (x st).2 :=
    ⟨hs, h₁.sound, h₁.change.toCalm.value? hs h₁.sound, rfl, h₁.function?, hsettings st, .refl _,
      .refl _, #[], Array.append_empty.symm, Array.append_empty.symm⟩
  obtain ⟨hv, h₂⟩ := hx _ _ _ _ hbetween
  exact ⟨Engine.untouched_of_unchanged hs h₁.sound h₁.change (hsettings st),
    Engine.untouched_of_unchanged h₁.sound h₂.sound' h₂.change' (hsettings _), hv, h₂.log⟩

theorem Engine.Repeatable.congr {x y : Eval Value} (h : st.Repeatable x) (hy : y st = x st)
    (hy' : y (x st).2 = x (x st).2) : st.Repeatable y where
  once := hy ▸ h.once
  twice := by
    rw [hy, hy']
    exact h.twice
  value := by
    rw [hy, hy']
    exact h.value
  log := by
    rw [hy, hy']
    exact h.log

/-- **Evaluating a pure tree**, at the outermost level as with every number of nested calls left,
leaves the engine as it was, whether it succeeds or fails half-way, and evaluating it again gives
the same value and records the same faults again. -/
theorem repeatable_eval (h : Engine.Reachable cells st) (he : e.Pure calls)
    (hf : ∀ name f, calls name → st.env.function? name = some f → f.Pure calls) :
    st.Repeatable (Engine.evaluate e) ∧ ∀ n, st.Repeatable (eval (deeperAt n) e) := by
  have heval : ∀ n, st.Repeatable (eval (deeperAt n) e) := fun n =>
    (repeats_eval (deeperRepeats_deeperAt hf n) hf he).repeatable h.sound
      (moves_eval (moves_deeperAt n) e)
  refine ⟨(heval st.settings.callDepth).congr (evaluate_eq e st) ?_, heval⟩
  rw [evaluate_eq, (heval st.settings.callDepth).once.settings]

/-- `f(x) = if(x < 2, x, nope)`, which fails for most arguments. -/
def mostlyFailing : Function := .user ["x"] <| .cases
  [(.compare .lt (.var "x") (.constant (.number 2.0)), .var "x")] (some (.var "nope"))

/-- `sum(i, 1, 3, f(i))`, which fails half-way. -/
def failingSum : Expr :=
  .loop .sum "i" (.range (.constant (.number 1.0)) none (.constant (.number 3.0)))
    (.call "f" [.var "i"]) none

theorem repeatable_failingSum :
    let st := (Engine.create {}).onEnv (·.addFunction "f" mostlyFailing)
    Engine.Reachable [] st ∧ failingSum.Pure (· == "f") ∧
    (∀ name f, (name == "f") = true → st.env.function? name = some f → f.Pure (· == "f")) ∧
    st.Repeatable (Engine.evaluate failingSum) ∧
    ∀ n, st.Repeatable (eval (deeperAt n) failingSum) := by
  have h := (Engine.Reachable.create {}).addFunction "f" mostlyFailing
  have he : failingSum.Pure (· == "f") := ⟨rfl, rfl⟩
  refine ⟨h, he, ?hf, repeatable_eval h he ?hf⟩
  intro name f hname hf
  have hadd := (Engine.Reachable.create {}).sound.function?_addFunction "f" mostlyFailing name
  rw [if_pos (by simpa using hname)] at hadd
  cases hadd.symm.trans hf
  exact .inr ⟨_, _, rfl, rfl, rfl⟩

end Engines

end FormulaLang
