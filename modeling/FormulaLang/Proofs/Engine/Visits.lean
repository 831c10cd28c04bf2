import FormulaLang.Proofs.Engine.Derivation

/-!
# On the way to a value

A tree has its value by way of the values of other trees: its operands, the rounds of its loops,
the branches that are taken and the bodies of the functions that it calls.

* `Visit`: a tree that is evaluated, and when.
* `Visit.Regular`: it is no sum that is negative zero, and no condition without a value.
* `Round`: the rounds that a loop comes to.
* **`Visit.Within`**: what is evaluated on the way to the value of a tree.
* `Expr.Along`: what holds on all of the way, and so on every part of it.
-/

namespace FormulaLang

/-- A tree that is evaluated, with how deep calls may still nest and the engine at that time. -/
structure Visit where
  calls : Nat
  tree : Expr
  engine : Engine

def Visit.value (t : Visit) : Value := (eval (deeperAt t.calls) t.tree t.engine).1

/-- A sum is not negative zero, and a condition has a value. -/
structure Visit.Regular (t : Visit) : Prop where
  sum : ∀ name source body default, t.tree = .loop .sum name source body default →
    t.value ≠ .number (-0.0)
  cases : ∀ bs, t.tree = .cases bs none → t.value ≠ .invalid

/-! ## Rounds -/

/-- A loop comes to an item, in front of the step that deals with it. -/
inductive Round {σ : Type} (step : σ → Value → Eval (Except Value σ)) :
    Items → σ → Engine → Value → Engine → Prop
  | first {items rest s st item} (h : Items.next? items = some (item, rest)) :
      Round step items s st item st
  | later {items rest s st item s' st' item' st''} (h : Items.next? items = some (item, rest))
      (hs : step s item st = (.ok s', st')) (hr : Round step rest s' st' item' st'') :
      Round step items s st item' st''

/-- What a step would do in rounds that the loop does not come to does not matter. -/
theorem forItems_congr {σ : Type} {step step' : σ → Value → Eval (Except Value σ)} {n : Nat}
    {items : Items} {s : σ} {st : Engine}
    (h : ∀ item st', Round step items s st item st' → ∀ s', step' s' item st' = step s' item st') :
    forItems step' n items s st = forItems step n items s st := by
  induction n generalizing items s st with
  | zero => rfl
  | succ n ih =>
    cases hi : items.next? with
    | none => rw [forItems_of_none hi, forItems_of_none hi]
    | some p =>
      obtain ⟨item, rest⟩ := p
      rw [forItems, forItems, hi]
      dsimp only
      rw [h item st (.first hi) s]
      rcases hs : step s item st with ⟨v | s', st'⟩
      · rfl
      · exact ih fun item' st'' hr => h item' st'' (.later hi hs hr)

/-! ## Trees on the way -/

/-- The engine in which the body of a function is evaluated: without parameters, that of the
call. -/
def Engine.enterCall (st : Engine) (params : List String) (vs : List Value) : Engine :=
  if params.isEmpty then st else st.onEnv fun env => env.enter.addVariables (params.zip vs)

mutual

/-- **A tree is evaluated on the way** to the value of another one, or it is the other one. -/
inductive Visit.Within (t : Visit) : Nat → Expr → Engine → Prop
  | self : Within t t.calls t.tree t.engine
  | operand {n e es finish st} (he : Expr.eager? e = some (es, finish))
      (h : WithinAll t n es st) : Within t n e st
  | statement {n es st} (h : WithinAll t n es st) : Within t n (.sequence es) st
  | branch {n bs o st} (h : WithinBranches t n bs o st) : Within t n (.cases bs o) st
  | argument {n name args f st} (hf : st.env.function? name = some f)
      (hc : ∀ run, f.callable ≠ .lazy run) (h : WithinAll t n args st) :
      Within t n (.call name args) st
  | body {n name args params body st vs st'}
      (hf : st.env.function? name = some (.user params body))
      (hargs : evalAll (deeperAt (n + 1)) args st = (vs, st'))
      (h : Within t n body (st'.enterCall params vs)) : Within t (n + 1) (.call name args) st
  | bound {n kind name source body default st} (h : WithinAll t n (LoopSource.operands source) st) :
      Within t n (.loop kind name source body default) st
  | round {n kind name source body default st items st₁ item st₂}
      (hs : evalSource (deeperAt n) source st = (some items, st₁))
      (hr : Round ((LoopKind.form kind).2.step name (eval (deeperAt n) body)) items
        (LoopKind.form kind).2.start (st₁.onEnv .enter) item st₂)
      (h : Within t n body (st₂.onEnv (·.addVariable name item))) :
      Within t n (.loop kind name source body default) st

inductive Visit.WithinAll (t : Visit) : Nat → List Expr → Engine → Prop
  | first {n e es st} (h : Within t n e st) : WithinAll t n (e :: es) st
  | later {n e es st} (h : WithinAll t n es (eval (deeperAt n) e st).2) :
      WithinAll t n (e :: es) st

inductive Visit.WithinBranches (t : Visit) :
    Nat → List (Expr × Expr) → Option Expr → Engine → Prop
  | condition {n c e bs o st} (h : Within t n c st) : WithinBranches t n ((c, e) :: bs) o st
  | taken {n c e bs o st} (hc : (eval (deeperAt n) c st).1 = .bool true)
      (h : Within t n e (eval (deeperAt n) c st).2) : WithinBranches t n ((c, e) :: bs) o st
  | passed {n c e bs o st} (hc : (eval (deeperAt n) c st).1 = .bool false)
      (h : WithinBranches t n bs o (eval (deeperAt n) c st).2) :
      WithinBranches t n ((c, e) :: bs) o st
  | otherwise {n e st} (h : Within t n e st) : WithinBranches t n [] (some e) st

end

/-! ## All of the way -/

section Along

variable (P : Visit → Prop) (n : Nat)

/-- A property of everything that is evaluated on the way to the value of a tree. -/
def Expr.Along (e : Expr) (st : Engine) : Prop := ∀ t : Visit, t.Within n e st → P t

def Expr.AlongAll (es : List Expr) (st : Engine) : Prop := ∀ t : Visit, t.WithinAll n es st → P t

def Expr.AlongBranches (bs : List (Expr × Expr)) (o : Option Expr) (st : Engine) : Prop :=
  ∀ t : Visit, t.WithinBranches n bs o st → P t

/-- A property of what is evaluated on the way to the value of a loop, but for the loop. -/
structure Expr.AlongLoop (kind : LoopKind) (name : String) (source : LoopSource Expr) (body : Expr)
    (st : Engine) : Prop where
  bounds : Expr.AlongAll P n source.operands st
  rounds : ∀ items st₁, evalSource (deeperAt n) source st = (some items, st₁) → ∀ item st₂,
    Round (kind.form.2.step name (eval (deeperAt n) body)) items kind.form.2.start
      (st₁.onEnv .enter) item st₂ → body.Along P n (st₂.onEnv (·.addVariable name item))

end Along

open FormulaLang.Expr (AlongAll AlongBranches)

section Along

variable {P : Visit → Prop} {n : Nat} {st : Engine} {e : Expr} {es : List Expr}

namespace Expr.Along

theorem self (h : e.Along P n st) : P ⟨n, e, st⟩ := h ⟨n, e, st⟩ .self

theorem operands {finish : List Value → Eval Value} (h : e.Along P n st)
    (he : e.eager? = some (es, finish)) : AlongAll P n es st := fun t ht => h t (.operand he ht)

theorem statements (h : (Expr.sequence es).Along P n st) : AlongAll P n es st :=
  fun t ht => h t (.statement ht)

theorem branches {bs : List (Expr × Expr)} {o : Option Expr} (h : (Expr.cases bs o).Along P n st) :
    AlongBranches P n bs o st := fun t ht => h t (.branch ht)

theorem arguments {name : String} {f : Function} (h : (Expr.call name es).Along P n st)
    (hf : st.env.function? name = some f) (hc : ∀ run, f.callable ≠ .lazy run) :
    AlongAll P n es st := fun t ht => h t (.argument hf hc ht)

theorem body {name : String} {params : List String} {body : Expr}
    (h : (Expr.call name es).Along P (n + 1) st)
    (hf : st.env.function? name = some (.user params body)) :
    body.Along P n ((evalAll (deeperAt (n + 1)) es st).2.enterCall params
      (evalAll (deeperAt (n + 1)) es st).1) :=
  fun t ht => h t (.body hf rfl ht)

theorem loop {kind : LoopKind} {name : String} {source : LoopSource Expr} {body : Expr}
    {default : Option Expr} (h : (Expr.loop kind name source body default).Along P n st) :
    Expr.AlongLoop P n kind name source body st where
  bounds t ht := h t (.bound ht)
  rounds _ _ hs _ _ hr t ht := h t (.round hs hr ht)

end Expr.Along

theorem Expr.alongAll_cons (h : AlongAll P n (e :: es) st) :
    e.Along P n st ∧ AlongAll P n es (eval (deeperAt n) e st).2 :=
  ⟨fun t ht => h t (.first ht), fun t ht => h t (.later ht)⟩

/-- The branches of a condition whose first case is at hand. -/
theorem Expr.alongBranches_cons {c : Expr} {bs : List (Expr × Expr)} {o : Option Expr}
    (h : AlongBranches P n ((c, e) :: bs) o st) : c.Along P n st ∧
      ((eval (deeperAt n) c st).1 = .bool true → e.Along P n (eval (deeperAt n) c st).2) ∧
      ((eval (deeperAt n) c st).1 = .bool false →
        AlongBranches P n bs o (eval (deeperAt n) c st).2) :=
  ⟨fun t ht => h t (.condition ht), fun hc t ht => h t (.taken hc ht),
    fun hc t ht => h t (.passed hc ht)⟩

theorem Expr.alongBranches_nil (h : AlongBranches P n [] (some e) st) : e.Along P n st :=
  fun t ht => h t (.otherwise ht)

end Along

end FormulaLang
