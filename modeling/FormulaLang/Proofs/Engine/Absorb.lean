import FormulaLang.Proofs.Engine.Operands

/-!
# Invalid operands

An invalid operand makes a tree invalid. What the tree would do with the values of its operands is
not done: nothing is assigned or called, and nothing else is recorded, unless something is at fault
that is found before the invalid operand is looked at.

* `Expr.Operands`: the operands that a tree evaluates, whatever their values are.
* `Expr.Orderly`: nothing is at fault in front of an invalid operand.
* `absorbs_eager`, `absorbs_source`, `absorbs_invoke`: what the forms of trees do with the values.
* **`eval_of_invalid_operand`**, `eval_of_not_orderly`: the tree is invalid; without such a fault
  nothing happens behind its operands, and else the fault is recorded.
-/

namespace FormulaLang

/-! ## Operands -/

/-- The operands that a tree evaluates, whatever their values are: those of an eager tree, the
arguments of a call unless the function evaluates them itself, and what a loop runs over. -/
inductive Expr.Operands (env : Environment) : Expr → List Expr → Prop
  | eager {e : Expr} {es : List Expr} {finish : List Value → Eval Value}
      (h : e.eager? = some (es, finish)) : Operands env e es
  | call {name : String} {f : Function} (args : List Expr) (hf : env.function? name = some f)
      (hlazy : ∀ run, f.callable ≠ .lazy run) : Operands env (.call name args) args
  | loop (kind : LoopKind) (name : String) (source : LoopSource Expr) (body : Expr)
      (default : Option Expr) :
      Operands env (.loop kind name source body default) source.operands

/-- The bounds in front of the first invalid one are numbers. -/
def NumbersFirst (vs : List Value) : Prop :=
  ∀ v ∈ vs.takeWhile (!·.isInvalid), v.kind = .number

/-- The rows in front of the first one with an invalid item are vectors. -/
def VectorsFirst (rows : List (List Value)) : Prop :=
  ∀ row ∈ rows.takeWhile (!·.any Value.isInvalid), ∃ v, Value.concat row = .ok v

/-- Nothing is at fault in front of an invalid operand: the variable whose element is read has a
value, and bounds and rows that come first are what they must be. -/
def Expr.Orderly (env : Environment) (vs : List Value) : Expr → Prop
  | .element name _ => (env.value? name).isSome
  | .range .. | .loop _ _ (.range ..) _ _ => NumbersFirst vs
  | .matrix rows => VectorsFirst ((rows.map List.length).splitLengths vs)
  | _ => True

/-- In order nothing has happened since an engine, in disorder a fault was recorded. -/
def Absorbs {α : Type} (r : α × Engine) (st : Engine) (a : α) (orderly : Prop) : Prop :=
  r = (a, st) ∧ orderly ∨ ∃ f, r = (a, st.report f) ∧ ¬ orderly

section Absorbs

variable {st : Engine} {vs : List Value} {v w : Value}

theorem any_isInvalid_of_mem (h : .invalid ∈ vs) : vs.any Value.isInvalid = true :=
  List.any_eq_true.2 ⟨_, h, rfl⟩

/-! ## Bounds -/

theorem rangeOf_of_invalid {a b c : Value} (h : .invalid ∈ [a, b, c]) :
    rangeOf a b c = .error none ∧ NumbersFirst [a, b, c] ∨
      ∃ f, rangeOf a b c = .error (some f) ∧ ¬ NumbersFirst [a, b, c] := by
  -- A bound that is neither a number nor invalid is at fault, whatever follows.
  have wrong : ∀ (xs : List Value) {ys : List Value} {v : Value},
      (∀ x ∈ xs, x.isInvalid = false) → v.isInvalid = false → v.kind ≠ .number →
      ¬ NumbersFirst (xs ++ v :: ys) := by
    intro xs ys v hxs hv hkind hfirst
    refine hkind (hfirst v ?_)
    rw [List.takeWhile_append_of_pos fun x hx => by rw [hxs x hx]; rfl]
    simp [hv]
  cases a with
  | invalid => exact .inl ⟨rfl, fun v hv => by cases hv⟩
  | number x =>
    cases b with
    | invalid => exact .inl ⟨rfl, by simp [NumbersFirst, Value.isInvalid, Value.kind]⟩
    | number y =>
      obtain rfl : Value.invalid = c := by simpa using h
      exact .inl ⟨rfl, by simp [NumbersFirst, Value.isInvalid, Value.kind]⟩
    | _ =>
      exact .inr ⟨_, rfl, wrong [.number x] (by simp [Value.isInvalid]) rfl (by simp [Value.kind])⟩
  | _ => exact .inr ⟨_, rfl, wrong [] (by simp) rfl (by simp [Value.kind])⟩

theorem checkRange_of_none {x y z : Value} (h : rangeOf x y z = .error none) (st : Engine) :
    checkRange x y z st = (none, st) := by
  rw [checkRange, h]
  rfl

theorem checkRange_of_fault {x y z : Value} {fault : Fault}
    (h : rangeOf x y z = .error (some fault)) (st : Engine) :
    checkRange x y z st = (none, st.report fault) := by
  rw [checkRange, h]
  rfl

theorem absorbs_ofBounds {α : Type} {f : Option Range → Eval α} {a : α}
    (hf : ∀ st, f none st = (a, st)) (hlen : vs.length = 3) (h : .invalid ∈ vs) (st : Engine) :
    Absorbs (ofBounds f vs st) st a (NumbersFirst vs) := by
  obtain ⟨x, y, z, rfl⟩ := List.length_eq_three.1 hlen
  have hrun : ofBounds f [x, y, z] st =
      f (checkRange x y z st).1 (checkRange x y z st).2 := rfl
  unfold Absorbs
  rcases rangeOf_of_invalid h with ⟨hr, hfirst⟩ | ⟨fault, hr, hfirst⟩
  · exact .inl ⟨by rw [hrun, checkRange_of_none hr, hf], hfirst⟩
  · exact .inr ⟨fault, by rw [hrun, checkRange_of_fault hr, hf], hfirst⟩

/-! ## Rows -/

theorem isInvalid_of_concat (h : Value.concat vs = .ok v) (hvs : vs.any Value.isInvalid = false) :
    v.isInvalid = false := by
  unfold Value.concat at h
  rw [hvs, if_neg (by decide)] at h
  split at h
  · cases h
    rfl
  split at h
  · cases h
    rfl
  · cases h
    rfl
  · cases hparts : vs.mapM Value.numberPart with
    | error f =>
      rw [hparts] at h
      cases h
    | ok parts =>
      rw [hparts] at h
      cases h
      rfl

theorem concat_of_invalid (h : .invalid ∈ vs) : Value.concat vs = .ok .invalid := by
  rw [Value.concat, any_isInvalid_of_mem h, if_pos rfl]

theorem concatRows_of_invalid {rows : List (List Value)} (h : .invalid ∈ rows.flatten) :
    Value.concatRows rows = .ok none ∧ VectorsFirst rows ∨
      ∃ f, Value.concatRows rows = .error f ∧ ¬ VectorsFirst rows := by
  induction rows with
  | nil => cases h
  | cons row rows ih =>
    cases hrow : row.any Value.isInvalid with
    | true =>
      obtain ⟨v, hv, hinvalid⟩ := List.any_eq_true.1 hrow
      obtain rfl := Value.isInvalid_iff.1 hinvalid
      refine .inl ⟨by rw [Value.concatRows, concat_of_invalid hv]; rfl, fun r hr => ?_⟩
      rw [List.takeWhile_cons_of_neg (by rw [hrow]; decide)] at hr
      cases hr
    | false =>
      have hwhile : (row :: rows).takeWhile (fun r => !r.any Value.isInvalid) =
          row :: rows.takeWhile fun r => !r.any Value.isInvalid :=
        List.takeWhile_cons_of_pos (by rw [hrow]; rfl)
      unfold VectorsFirst
      rw [hwhile]
      cases hc : Value.concat row with
      | error f =>
        refine .inr ⟨f, by rw [Value.concatRows, hc], fun hall => ?_⟩
        obtain ⟨v, hv⟩ := hall row (.head _)
        rw [hc] at hv
        cases hv
      | ok v =>
        have hrows : .invalid ∈ rows.flatten := by
          rw [List.flatten_cons, List.mem_append] at h
          refine h.resolve_left fun hmem => ?_
          rw [any_isInvalid_of_mem hmem] at hrow
          cases hrow
        have hcons : Value.concatRows (row :: rows) =
            (Value.concatRows rows).map (·.map (v :: ·)) := by
          rw [Value.concatRows, hc]
          simp only [isInvalid_of_concat hc hrow, Bool.false_eq_true, if_false]
        rw [hcons]
        rcases ih hrows with ⟨hok, hfirst⟩ | ⟨f, hf, hfirst⟩
        · exact .inl ⟨by rw [hok]; rfl, List.forall_mem_cons.2 ⟨⟨v, hc⟩, hfirst⟩⟩
        · exact .inr ⟨f, by rw [hf]; rfl, fun hall => hfirst (List.forall_mem_cons.1 hall).2⟩

/-! ## The forms of trees -/

theorem Absorbs.of_eq {α : Type} {r : α × Engine} {a : α} (h : r = (a, st)) :
    Absorbs r st a True := .inl ⟨h, trivial⟩

theorem absorbs_ofOne {f : Value → Eval Value} (hlen : vs.length = 1) (h : .invalid ∈ vs)
    (hf : f .invalid st = (.invalid, st)) : Absorbs (ofOne f vs st) st .invalid True := by
  obtain ⟨v, rfl⟩ := List.length_eq_one_iff.1 hlen
  obtain rfl := List.mem_singleton.1 h
  exact .of_eq hf

theorem absorbs_ofTwo {f : Value → Value → Eval Value} (hlen : vs.length = 2)
    (h : .invalid ∈ vs)
    (hf : ∀ v w, (v.isInvalid || w.isInvalid) = true → f v w st = (.invalid, st)) :
    Absorbs (ofTwo f vs st) st .invalid True := by
  obtain ⟨v, w, rfl⟩ := List.length_eq_two.1 hlen
  refine .of_eq (hf v w ?_)
  rcases List.mem_cons.1 h with rfl | h
  · rfl
  · obtain rfl := List.mem_singleton.1 h
    exact Bool.or_true _

theorem check_of_ok {r : Except Fault Value} (h : r = .ok v) : Eval.check r st = (v, st) := by
  rw [h]
  rfl

theorem check_of_error {r : Except Fault Value} {f : Fault} (h : r = .error f) :
    Eval.check r st = (.invalid, st.report f) := by
  rw [h]
  rfl

/-- **Eager trees** pass over values with an invalid one among them. -/
theorem absorbs_eager {e : Expr} {es : List Expr} {finish : List Value → Eval Value}
    (he : e.eager? = some (es, finish)) (hlen : vs.length = es.length) (h : .invalid ∈ vs)
    (st : Engine) : Absorbs (finish vs st) st .invalid (e.Orderly st.env vs) := by
  cases e with
  | unary op e =>
    cases he
    exact absorbs_ofOne hlen h rfl
  | binary op a b =>
    cases he
    exact absorbs_ofTwo hlen h fun v w hvw =>
      check_of_ok (by unfold Value.binary; exact if_pos hvw)
  | compare op a b =>
    cases he
    exact absorbs_ofTwo hlen h fun v w hvw =>
      check_of_ok (by unfold Value.compare; exact if_pos hvw)
  | logical op a b =>
    cases he
    exact absorbs_ofTwo hlen h fun v w hvw =>
      check_of_ok (by unfold Value.logical; exact if_pos hvw)
  | assign name e =>
    cases he
    exact absorbs_ofOne hlen h rfl
  | assignElement name i e =>
    cases he
    refine absorbs_ofTwo hlen h fun v w hvw => ?_
    rw [assignElements, if_pos hvw]
    rfl
  | element name i =>
    cases he
    obtain ⟨v, rfl⟩ := List.length_eq_one_iff.1 hlen
    obtain rfl := List.mem_singleton.1 h
    cases hvalue : st.env.value? name with
    | none => exact .inr ⟨_, readElement_of_none hvalue, by simp [Expr.Orderly, hvalue]⟩
    | some target =>
      refine .inl ⟨?_, by simp [Expr.Orderly, hvalue]⟩
      rw [ofOne, readElement_of_some hvalue]
      exact check_of_ok (by unfold Value.index; exact if_pos (Bool.or_true _))
  | index e i =>
    cases he
    exact absorbs_ofTwo hlen h fun v w hvw =>
      check_of_ok (by unfold Value.index; exact if_pos hvw)
  | member e name =>
    cases he
    exact absorbs_ofOne hlen h rfl
  | range a d b =>
    cases he
    exact absorbs_ofBounds (a := Value.invalid) (fun _ => rfl) hlen h st
  | vector items =>
    cases he
    exact .of_eq (check_of_ok (concat_of_invalid h))
  | matrix rows =>
    cases he
    have hflatten : Value.invalid ∈ ((rows.map List.length).splitLengths vs).flatten := by
      rwa [List.flatten_splitLengths]
      rw [hlen, List.length_flatten]
    rcases concatRows_of_invalid hflatten with ⟨hc, hfirst⟩ | ⟨f, hc, hfirst⟩
    · exact .inl ⟨check_of_ok (by unfold Value.ofRows; rw [hc]), hfirst⟩
    · exact .inr ⟨f, check_of_error (by unfold Value.ofRows; rw [hc]), hfirst⟩
  | list items =>
    cases he
    refine .of_eq ?_
    dsimp only
    rw [any_isInvalid_of_mem h, if_pos rfl]
    rfl
  | _ => cases he

/-- What a loop runs over has no items where an operand is invalid. -/
theorem absorbs_source (source : LoopSource Expr) (hlen : vs.length = source.operands.length)
    (h : .invalid ∈ vs) (st : Engine) {kind : LoopKind} {name : String} {body : Expr}
    {default : Option Expr} : Absorbs (source.check vs st) st none
      ((Expr.loop kind name source body default).Orderly st.env vs) := by
  cases source with
  | items e =>
    obtain ⟨v, rfl⟩ := List.length_eq_one_iff.1 hlen
    obtain rfl := List.mem_singleton.1 h
    exact .of_eq rfl
  | range a d b =>
    exact absorbs_ofBounds (f := fun r => return r.map Items.range) (fun _ => rfl) hlen h st

/-- A call with an invalid argument does nothing. -/
theorem absorbs_invoke {deeper : Deeper} {name : String} {f : Function} (h : .invalid ∈ vs)
    (st : Engine) : invoke deeper name f vs st = (.invalid, st) := by
  rw [invoke, any_isInvalid_of_mem h, if_pos rfl]
  rfl

end Absorbs

/-! ## Trees -/

section Trees

variable {deeper : Deeper} {st : Engine} {e : Expr} {es : List Expr}

/-- A tree with an invalid operand is invalid. Behind its operands nothing happens in order, and in
disorder a fault is recorded. -/
theorem absorbs_eval (he : e.Operands st.env es) (h : .invalid ∈ (evalAll deeper es st).1) :
    Absorbs (eval deeper e st) (evalAll deeper es st).2 .invalid
      (e.Orderly (evalAll deeper es st).2.env (evalAll deeper es st).1) := by
  have hlen := length_evalAll deeper es st
  cases he with
  | eager he =>
    rw [eval_eager he]
    exact absorbs_eager he hlen h _
  | call args hf hlazy =>
    rw [eval_call_of_eager hf hlazy]
    exact .of_eq (absorbs_invoke h _)
  | loop kind name source body default =>
    have hsource := evalSource_of_run source (Eq.refl (evalAll deeper source.operands st))
    rcases absorbs_source source hlen h _ with ⟨hs, horderly⟩ | ⟨f, hs, horderly⟩
    · exact .inl ⟨eval_loop_of_none (hsource.trans hs), horderly⟩
    · exact .inr ⟨f, eval_loop_of_none (hsource.trans hs), horderly⟩

/-- In disorder a fault is recorded next to the invalid operand. -/
theorem eval_of_not_orderly (he : e.Operands st.env es) (h : .invalid ∈ (evalAll deeper es st).1)
    (horderly : ¬ e.Orderly (evalAll deeper es st).2.env (evalAll deeper es st).1) :
    ∃ f, eval deeper e st = (.invalid, (evalAll deeper es st).2.report f) := by
  rcases absorbs_eval he h with ⟨-, ho⟩ | ⟨f, hf, -⟩
  · exact absurd ho horderly
  · exact ⟨f, hf⟩

/-- **An invalid operand** makes a tree invalid, and nothing happens behind the operands: no fault
is recorded, nothing is assigned and no function is called. -/
theorem eval_of_invalid_operand (he : e.Operands st.env es)
    (h : .invalid ∈ (evalAll deeper es st).1)
    (horderly : e.Orderly (evalAll deeper es st).2.env (evalAll deeper es st).1) :
    eval deeper e st = (.invalid, (evalAll deeper es st).2) := by
  rcases absorbs_eval he h with ⟨hr, -⟩ | ⟨f, -, ho⟩
  · exact hr
  · exact absurd horderly ho

end Trees

/-- A range whose step is an undefined variable. -/
def undefinedStep (v w : Value) : Expr :=
  .range (.constant v) (some (.var "nope")) (.constant w)

/-- Its bounds. -/
def undefinedBounds (v w : Value) : List Expr := [.constant v, .var "nope", .constant w]

theorem operands_undefinedStep (env : Environment) (v w : Value) :
    (undefinedStep v w).Operands env (undefinedBounds v w) := .eager rfl

theorem evalAll_undefinedBounds (v w : Value) :
    evalAll none (undefinedBounds v w) (Engine.create {}) =
      ([v, .invalid, w], (Engine.create {}).report (.undefinedVariable "nope")) := by
  have hconstant : ∀ (v : Value) (st : Engine), eval none (.constant v) st = (v, st) :=
    fun _ _ => rfl
  have hvar : eval none (.var "nope") (Engine.create {}) =
      (.invalid, (Engine.create {}).report (.undefinedVariable "nope")) := by
    rw [eval_var, Engine.value?_create (by decide) (by decide)]
    rfl
  rw [undefinedBounds, evalAll_cons, hconstant, evalAll_cons, hvar, evalAll_cons, hconstant,
    evalAll_nil]

theorem invalid_mem_undefinedBounds (v w : Value) :
    .invalid ∈ (evalAll none (undefinedBounds v w) (Engine.create {})).1 := by
  rw [evalAll_undefinedBounds]
  exact .tail _ (.head _)

/-- In `1:nope:"a"` only the bound behind the undefined one is no number. -/
theorem eval_wrongStop :
    let st := Engine.create {}
    let r := evalAll none (undefinedBounds (.number 1.0) (.string "a")) st
    (undefinedStep (.number 1.0) (.string "a")).Operands st.env
      (undefinedBounds (.number 1.0) (.string "a")) ∧
    .invalid ∈ r.1 ∧ (undefinedStep (.number 1.0) (.string "a")).Orderly r.2.env r.1 ∧
    eval none (undefinedStep (.number 1.0) (.string "a")) st = (.invalid, r.2) := by
  have horderly : ∀ env, (undefinedStep (.number 1.0) (.string "a")).Orderly env
      [.number 1.0, .invalid, .string "a"] := by
    simp [undefinedStep, Expr.Orderly, NumbersFirst, Value.isInvalid, Value.kind]
  have hr := evalAll_undefinedBounds (.number 1.0) (.string "a")
  have ho := horderly (Engine.create {}).env
  have h := operands_undefinedStep (Engine.create {}).env (.number 1.0) (.string "a")
  have hinvalid := invalid_mem_undefinedBounds (.number 1.0) (.string "a")
  refine ⟨h, hinvalid, by rw [hr]; exact ho, ?_⟩
  exact eval_of_invalid_operand h hinvalid (by rw [hr]; exact ho)

/-- In `"a":nope:1` the bound in front of the undefined one is no number, which is a fault of its
own: the operands record that a name is undefined, and the range records another fault. -/
theorem eval_wrongStart :
    let st := Engine.create {}
    let r := evalAll none (undefinedBounds (.string "a") (.number 1.0)) st
    (undefinedStep (.string "a") (.number 1.0)).Operands st.env
      (undefinedBounds (.string "a") (.number 1.0)) ∧
    .invalid ∈ r.1 ∧ r.2.log = #[(Fault.undefinedVariable "nope").unlocated] ∧
    (eval none (undefinedStep (.string "a") (.number 1.0)) st).2.log =
      #[(Fault.undefinedVariable "nope").unlocated, (Fault.rangeBound .string).unlocated] := by
  have hr := evalAll_undefinedBounds (.string "a") (.number 1.0)
  refine ⟨operands_undefinedStep _ _ _, invalid_mem_undefinedBounds _ _, by rw [hr]; rfl, ?_⟩
  have heval : eval none (undefinedStep (.string "a") (.number 1.0)) =
      evalAll none (undefinedBounds (.string "a") (.number 1.0)) >>= ofBounds rangeVector :=
    eval_eager rfl
  rw [heval, bind_of_run hr]
  rfl

end FormulaLang
