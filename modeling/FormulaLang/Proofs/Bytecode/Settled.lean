import FormulaLang.Proofs.Bytecode.Fragment

/-!
# Definitions inside formulas

A definition binds a function when it is evaluated, in the block around it, while the compiler
defines it for the rest of the formula. Both agree where a definition is evaluated exactly once and
in the order of the text; elsewhere they agree if the definition is the only one of its name.

* `Signature`: what is known beforehand about the functions of a formula.
* `Expr.hasValue`, `Expr.lacksValue`: trees with a value other than void.
* `Expr.settled`: formulas whose definitions are settled.
* `Expr.resolved`: such formulas that may also have sums and conditions without another case.
* `Slots.Ready`, `Slots.Keeps`, **`Lowered.keeps`**: lowering such formulas.
-/

namespace FormulaLang

open Bytecode (Inline)

/-- What is known beforehand about the functions that a formula defines. -/
structure Signature where
  /-- The only definition of a name. -/
  sole : String → Option Inline
  /-- Calls of the name have a value. -/
  valued : String → Bool
  /-- Arguments have a value. -/
  arguments : Bool

namespace Expr

variable (σ : Signature)

mutual

/-- The tree has a value other than void. -/
def hasValue : Expr → Bool
  | .var _ => σ.arguments
  | .sequence es => hasValueAfter false es
  | .cases bs (some e) => hasValueBranches bs && hasValue e
  | .call name _ => σ.valued name
  | .loop _ _ _ body _ => hasValue body
  | .define .. => false
  | _ => true

/-- The last of some statements has a value, or what stands in front of them. -/
def hasValueAfter (last : Bool) : List Expr → Bool
  | [] => last
  | e :: es => hasValueAfter (hasValue e) es

def hasValueBranches : List (Expr × Expr) → Bool
  | [] => true
  | (_, e) :: rest => hasValue e && hasValueBranches rest

end

/-- The tree may have void as its value. -/
def lacksValue (e : Expr) : Bool := !e.hasValue σ

mutual

/-- Formulas that assign nothing, with calls and definitions. A definition may stand anywhere if it
is the only one of its name; outside of branches, loops and bodies (not `inner`) it may replace
others. -/
def settled (inner : Bool) : Expr → Prop
  | .constant (.number _) | .constant (.bool _) | .var _ => True
  | .unary _ e => settled inner e
  | .binary _ a b | .logical _ a b => settled inner a ∧ settled inner b
  | .compare _ a b => settled inner a ∧ settled inner b ∧ (hasValue σ a || hasValue σ b)
  | .sequence es => settledAll inner es
  | .cases bs (some e) => settledBranches inner bs ∧ settled true e
  | .call _ args => settledAll inner args ∧ (σ.arguments → args.all (hasValue σ))
  | .define name params body => settled true body ∧ (σ.valued name → hasValue σ body) ∧
      (∀ f, σ.sole name = some f → f = ⟨params, body⟩) ∧
      (inner → σ.sole name = some ⟨params, body⟩)
  | .loop .prod _ (.range a d b) body none =>
      settled true a ∧ settledOption d ∧ settled true b ∧ settled true body
  | _ => False

def settledAll (inner : Bool) : List Expr → Prop
  | [] => True
  | e :: es => settled inner e ∧ settledAll inner es

def settledOption : Option Expr → Prop
  | none => True
  | some e => settled true e

/-- Only the first condition is evaluated in any case. -/
def settledBranches (inner : Bool) : List (Expr × Expr) → Prop
  | [] => True
  | (c, e) :: rest => settled inner c ∧ settled true e ∧ settledBranches true rest

end

/-! ## Sums -/

section Resolved

variable (wide : Bool)

mutual

/-- Formulas with settled definitions. Wide ones may have sums, and conditions without a value for
the other case. -/
def resolved (inner : Bool) : Expr → Prop
  | .constant (.number _) | .constant (.bool _) | .var _ => True
  | .unary _ e => resolved inner e
  | .binary _ a b | .logical _ a b => resolved inner a ∧ resolved inner b
  | .compare _ a b => resolved inner a ∧ resolved inner b ∧ (hasValue σ a || hasValue σ b)
  | .sequence es => resolvedAll inner es
  | .cases bs none => resolvedBranches inner bs ∧ wide ∧ hasValueBranches σ bs
  | .cases bs (some e) => resolvedBranches inner bs ∧ resolved true e
  | .call _ args => resolvedAll inner args ∧ (σ.arguments → args.all (hasValue σ))
  | .define name params body => resolved true body ∧ (σ.valued name → hasValue σ body) ∧
      (∀ f, σ.sole name = some f → f = ⟨params, body⟩) ∧
      (inner → σ.sole name = some ⟨params, body⟩)
  | .loop kind _ (.range a d b) body none => (kind = .prod ∨ wide ∧ kind = .sum) ∧
      resolved true a ∧ resolvedOption d ∧ resolved true b ∧ resolved true body
  | _ => False

def resolvedAll (inner : Bool) : List Expr → Prop
  | [] => True
  | e :: es => resolved inner e ∧ resolvedAll inner es

def resolvedOption : Option Expr → Prop
  | none => True
  | some e => resolved true e

def resolvedBranches (inner : Bool) : List (Expr × Expr) → Prop
  | [] => True
  | (c, e) :: rest => resolved inner c ∧ resolved true e ∧ resolvedBranches true rest

end

end Resolved

section Resolved

variable {σ : Signature} {wide : Bool}

mutual

theorem resolved_of_settled : ∀ (e : Expr) (inner : Bool), e.settled σ inner →
    e.resolved σ wide inner
  | .constant v, _, h => by cases v <;> simp_all [settled, resolved]
  | .var _, _, _ => trivial
  | .unary _ e, inner, h => resolved_of_settled e inner h
  | .binary _ a b, inner, h | .logical _ a b, inner, h =>
    ⟨resolved_of_settled a inner h.1, resolved_of_settled b inner h.2⟩
  | .compare _ a b, inner, h =>
    ⟨resolved_of_settled a inner h.1, resolved_of_settled b inner h.2.1, h.2.2⟩
  | .sequence es, inner, h => resolvedAll_of_settledAll es inner h
  | .cases bs (some e), inner, h =>
    ⟨resolvedBranches_of_settledBranches bs inner h.1, resolved_of_settled e true h.2⟩
  | .call _ args, inner, h => ⟨resolvedAll_of_settledAll args inner h.1, h.2⟩
  | .define _ _ body, _, h => ⟨resolved_of_settled body true h.1, h.2⟩
  | .loop .prod _ (.range a d b) body none, _, h =>
    ⟨.inl rfl, resolved_of_settled a true h.1, resolvedOption_of_settledOption d h.2.1,
      resolved_of_settled b true h.2.2.1, resolved_of_settled body true h.2.2.2⟩

theorem resolvedAll_of_settledAll : ∀ (es : List Expr) (inner : Bool), settledAll σ inner es →
    resolvedAll σ wide inner es
  | [], _, _ => trivial
  | e :: es, inner, h => ⟨resolved_of_settled e inner h.1, resolvedAll_of_settledAll es inner h.2⟩

theorem resolvedOption_of_settledOption : ∀ o : Option Expr, settledOption σ o →
    resolvedOption σ wide o
  | none, _ => trivial
  | some e, h => resolved_of_settled e true h

theorem resolvedBranches_of_settledBranches : ∀ (bs : List (Expr × Expr)) (inner : Bool),
    settledBranches σ inner bs → resolvedBranches σ wide inner bs
  | [], _, _ => trivial
  | (c, e) :: bs, inner, h => ⟨resolved_of_settled c inner h.1, resolved_of_settled e true h.2.1,
      resolvedBranches_of_settledBranches bs true h.2.2⟩

end

/-- A loop of such a formula is a sum or a product. -/
theorem resolved_loop {inner : Bool} {kind : LoopKind} {name : String} {a : Expr} {d : Option Expr}
    {b body : Expr} {default : Option Expr}
    (h : (loop kind name (.range a d b) body default).resolved σ wide inner) :
    (kind = .sum → wide) ∧ default = none ∧ a.resolved σ wide true ∧ resolvedOption σ wide d ∧
      b.resolved σ wide true ∧ body.resolved σ wide true := by
  cases default with
  | none =>
    obtain ⟨hkind, hparts⟩ := h
    refine ⟨fun hk => ?_, rfl, hparts⟩
    rcases hkind with rfl | ⟨hw, -⟩
    · cases hk
    · exact hw
  | some e => simp [resolved] at h

end Resolved

end Expr

/-- A definition of a name is as the signature says. -/
structure Signature.Admits (σ : Signature) (wide : Bool) (name : String) (f : Inline) : Prop where
  body : f.body.resolved σ wide true
  valued : σ.valued name → f.body.hasValue σ
  sole : ∀ g, σ.sole name = some g → g = f

namespace Bytecode

variable {σ : Signature} {wide inner : Bool}

/-- The parts of such formulas. Where the other case of a condition has no value, the branches
have one. -/
def Piece.resolved (σ : Signature) (wide inner : Bool) : Piece → Prop
  | .tree e => e.resolved σ wide inner
  | .args es | .rest es => Expr.resolvedAll σ wide inner es
  | .optional missing o => (∃ x, missing = [.constant x]) ∧ ∀ e ∈ o, e.resolved σ wide inner
  | .branches bs o => Expr.resolvedBranches σ wide inner bs ∧ (∀ e ∈ o, e.resolved σ wide true) ∧
      (o = none → wide ∧ Expr.hasValueBranches σ bs)

theorem resolvedAll_of_operation {e : Expr} {es : List Expr} {i : Instruction}
    (h : operation? e = some (es, i)) (he : e.resolved σ wide inner) :
    Expr.resolvedAll σ wide inner es := by
  cases e <;> cases h <;> simp_all [Expr.resolved, Expr.resolvedAll]

theorem resolved_branches {bs : List (Expr × Expr)} {o : Option Expr}
    (h : (Expr.cases bs o).resolved σ wide inner) :
    (Piece.branches bs o).resolved σ wide inner := by
  cases o <;> simpa [Piece.resolved, Expr.resolved] using h

theorem resolved_step {o : Option Expr} (h : Expr.resolvedOption σ wide o) (x : Float) :
    (Piece.optional [.constant x] o).resolved σ wide true := by
  refine ⟨⟨x, rfl⟩, fun e he => ?_⟩
  obtain rfl : o = some e := he
  exact h

theorem resolved_otherwise {o : Option Expr} (h : (Piece.branches [] o).resolved σ wide inner) :
    (Piece.optional noValue o).resolved σ wide true := ⟨⟨_, rfl⟩, h.2.1⟩

/-- The branches behind the first one. -/
theorem resolved_rest {c e : Expr} {bs : List (Expr × Expr)} {o : Option Expr}
    (h : (Piece.branches ((c, e) :: bs) o).resolved σ wide inner) :
    c.resolved σ wide inner ∧ e.resolved σ wide true ∧
      (Piece.branches bs o).resolved σ wide true := by
  obtain ⟨⟨hc, he, hbs⟩, ho, hnone⟩ := h
  refine ⟨hc, he, hbs, ho, fun hn => (hnone hn).imp_right fun hv => ?_⟩
  simp only [Expr.hasValueBranches, Bool.and_eq_true] at hv
  exact hv.2

/-! ## Slots -/

namespace Slots

/-- Slots without temporaries, in which the functions are as the signature says. -/
structure Ready (σ : Signature) (wide : Bool) (s : Slots) : Prop where
  temporaries : s.temporaries = []
  bounded : ∀ p ∈ s.scope, p.2 < s.size
  functions : ∀ name f, s.function? name = some f → σ.Admits wide name f

/-- The functions of names with several definitions are the same. -/
def Alike (σ : Signature) (s s' : Slots) : Prop :=
  ∀ name, σ.sole name = none → s'.function? name = s.function? name

/-- From one state of the slots to another, slots were given out and functions defined, inside only
such that are the only ones of their names. -/
structure Keeps (σ : Signature) (wide inner : Bool) (s s' : Slots) : Prop where
  ready : s.Ready σ wide → s'.Ready σ wide
  scope : s'.scope = s.scope
  size_le : s.size ≤ s'.size
  alike : inner → s.Alike σ s'

variable {s s₁ s₂ : Slots} {name : String}

theorem ready_empty : Ready σ wide {} :=
  ⟨rfl, fun _ h => (by cases h), fun _ _ h => (by cases h)⟩

theorem Ready.lookup?_eq (h : s.Ready σ wide) (name : String) :
    s.lookup? name = bound? name s.scope := by
  rw [lookup?, h.temporaries]
  cases bound? name s.scope <;> rfl

theorem Ready.of_scope (h : s.Ready σ wide) (ht : s₁.temporaries = s.temporaries)
    (hb : ∀ p ∈ s₁.scope, p.2 < s₁.size) (hf : s₁.functions = s.functions) : s₁.Ready σ wide :=
  ⟨ht.trans h.temporaries, hb, fun name f hn => h.functions name f (by
    rwa [function?, hf] at hn)⟩

theorem Ready.fresh (h : s.Ready σ wide) : s.fresh.2.Ready σ wide :=
  h.of_scope rfl (fun p hp => Nat.lt_succ_of_lt (h.bounded p hp)) rfl

theorem Ready.push (h : s.Ready σ wide) (name : String) : (s.push name).2.Ready σ wide := by
  refine h.of_scope rfl (fun p hp => ?_) rfl
  rcases List.mem_cons.1 hp with rfl | hp
  · exact Nat.lt_succ_self _
  · exact Nat.lt_succ_of_lt (h.bounded p hp)

theorem Ready.pushAll (h : s.Ready σ wide) (names : List String) :
    (s.pushAll names).Ready σ wide := by
  induction names generalizing s with
  | nil => exact h.of_scope rfl (by simpa [Slots.pushAll] using h.bounded) rfl
  | cons name names ih =>
    rw [pushAll_cons]
    exact ih (h.push name)

/-- Beginning a call changes nothing but the calls that are going on. -/
theorem exists_of_beginCall? (h : s.beginCall? name = some s₁) :
    ∃ active, s₁ = { s with active } := by
  unfold beginCall? at h
  split at h
  · cases h
  · cases h
    exact ⟨_, rfl⟩

theorem Alike.refl (s : Slots) : s.Alike σ s := fun _ _ => rfl

theorem Alike.trans (h : s.Alike σ s₁) (h' : s₁.Alike σ s₂) : s.Alike σ s₂ :=
  fun name hn => (h' name hn).trans (h name hn)

theorem Alike.symm (h : s.Alike σ s₁) : s₁.Alike σ s := fun name hn => (h name hn).symm

theorem alike_of_functions (hf : s₁.functions = s.functions) : s.Alike σ s₁ :=
  fun _ _ => by rw [function?, hf, function?]

namespace Keeps

theorem refl (s : Slots) : s.Keeps σ wide inner s := ⟨id, rfl, Nat.le_refl _, fun _ _ _ => rfl⟩

theorem trans (h : s.Keeps σ wide inner s₁) (h' : s₁.Keeps σ wide inner s₂) :
    s.Keeps σ wide inner s₂ :=
  ⟨fun hs => h'.ready (h.ready hs), h'.scope.trans h.scope, Nat.le_trans h.size_le h'.size_le,
    fun hi => (h.alike hi).trans (h'.alike hi)⟩

/-- What holds inside holds everywhere. -/
theorem of_inner (h : s.Keeps σ wide true s₁) : s.Keeps σ wide inner s₁ :=
  ⟨h.ready, h.scope, h.size_le, fun _ => h.alike rfl⟩

theorem fresh (s : Slots) : s.Keeps σ wide inner s.fresh.2 :=
  ⟨Ready.fresh, rfl, Nat.le_succ _, fun _ => alike_of_functions rfl⟩

end Keeps

/-- From state to state of the slots around the parts of a loop: the stop, the step, the start and
the body. -/
structure Stages (σ : Signature) (wide : Bool) (name : String) (s s₁ s₂ s₃ s₄ : Slots) : Prop where
  ready : s.Ready σ wide
  stop : s.fresh.2.Keeps σ wide true s₁
  step : s₁.fresh.2.Keeps σ wide true s₂
  start : s₂.Keeps σ wide true s₃
  body : (s₃.push name).2.fresh.2.Keeps σ wide true s₄

namespace Stages

variable {s₃ s₄ : Slots}

theorem ready₁ (h : Stages σ wide name s s₁ s₂ s₃ s₄) : s₁.Ready σ wide :=
  h.stop.ready h.ready.fresh

theorem ready₂ (h : Stages σ wide name s s₁ s₂ s₃ s₄) : s₂.Ready σ wide :=
  h.step.ready h.ready₁.fresh

theorem ready₃ (h : Stages σ wide name s s₁ s₂ s₃ s₄) : s₃.Ready σ wide := h.start.ready h.ready₂

theorem readyBody (h : Stages σ wide name s s₁ s₂ s₃ s₄) :
    (s₃.push name).2.fresh.2.Ready σ wide :=
  (h.ready₃.push name).fresh

theorem keeps₁ (h : Stages σ wide name s s₁ s₂ s₃ s₄) : s.Keeps σ wide true s₁ :=
  (Keeps.fresh s).trans h.stop

theorem keeps₂ (h : Stages σ wide name s s₁ s₂ s₃ s₄) : s.Keeps σ wide true s₂ :=
  h.keeps₁.trans ((Keeps.fresh s₁).trans h.step)

theorem keeps₃ (h : Stages σ wide name s s₁ s₂ s₃ s₄) : s.Keeps σ wide true s₃ :=
  h.keeps₂.trans h.start

/-- Behind a loop its position has no name. -/
theorem keeps (h : Stages σ wide name s s₁ s₂ s₃ s₄) : s.Keeps σ wide true s₄.pop := by
  refine h.keeps₃.trans ⟨fun _ => ?_, congrArg List.tail h.body.scope,
    Nat.le_trans (Nat.le_add_right _ 2) h.body.size_le, fun _ => h.body.alike rfl⟩
  have hs₄ := h.body.ready h.readyBody
  exact hs₄.of_scope rfl (fun p hp => hs₄.bounded p (List.mem_of_mem_tail hp)) rfl

end Stages

end Slots

open Slots (Ready Keeps Alike Stages)

/-- **Lowering a formula with resolved definitions.** -/
theorem Lowered.keeps {env : Environment} {p : Piece} {s s' : Slots} {code : Code}
    (h : Lowered env p s code s') (hp : p.resolved σ wide inner) (hs : s.Ready σ wide) :
    s.Keeps σ wide inner s' := by
  induction h generalizing inner with
  | number | bool | slot | cell | empty | noArgs | noRest | missing => exact .refl _
  | operation h hes ih => exact ih (resolvedAll_of_operation h hp) hs
  | assign => exact hp.elim
  | cases h ih => exact ih (resolved_branches hp) hs
  | @loop s s₁ s₂ s₃ s₄ _ _ _ name _ _ _ _ _ _ _ _ _ hk hb hd ha hbody ihb ihd iha ihbody =>
    obtain ⟨-, -, hpa, hpd, hpb, hpbody⟩ := Expr.resolved_loop hp
    have h₁ := ihb hpb hs.fresh
    have h₂ := ihd (resolved_step hpd _) (h₁.ready hs.fresh).fresh
    have h₃ := iha hpa (h₂.ready (h₁.ready hs.fresh).fresh)
    have h₄ := ihbody hpbody ((h₃.ready (h₂.ready (h₁.ready hs.fresh).fresh)).push name).fresh
    exact (Stages.mk hs h₁ h₂ h₃ h₄).keeps.of_inner
  | sequence he hes ihe ihes | consArg he hes ihe ihes | consRest he hes ihe ihes =>
    have h₁ := ihe hp.1 hs
    exact h₁.trans (ihes hp.2 (h₁.ready hs))
  | @define s name params body =>
    obtain ⟨hbody, hvalued, hsole, hinner⟩ := hp
    have hfun : ∀ other, (s.define name ⟨params, body⟩).function? other =
        if other = name then some ⟨params, body⟩ else s.function? other := fun other => bound?_cons
    refine ⟨fun hs => ⟨hs.temporaries, hs.bounded, fun other f hf => ?_⟩, rfl, Nat.le_refl _,
      fun hi other hn => ?_⟩
    · rw [hfun] at hf
      split at hf
      · next ho =>
        cases hf
        subst ho
        exact ⟨hbody, hvalued, hsole⟩
      · exact hs.functions other f hf
    · rw [hfun, if_neg]
      rintro rfl
      rw [hinner hi] at hn
      cases hn
  | @inline s s₁ s₂ s₃ name args f code body hf hb hn hargs hbody ihargs ihbody =>
    obtain ⟨active, rfl⟩ := Slots.exists_of_beginCall? hb
    have hbegin : s.Keeps σ wide inner { s with active } :=
      ⟨fun h => h.of_scope rfl h.bounded rfl, rfl, Nat.le_refl _,
        fun _ => Slots.alike_of_functions rfl⟩
    have hs₁ := hbegin.ready hs
    have hargs := ihargs hp.1 hs₁
    have hs₂ := hargs.ready hs₁
    have hbody := ihbody (hs.functions name f hf).body (hs₂.pushAll f.params)
    have hs₃ := hbody.ready (hs₂.pushAll f.params)
    have hscope : (s₃.popAll f.params.length).endCall.scope = s₂.scope := by
      change s₃.scope.drop f.params.length = s₂.scope
      rw [hbody.scope]
      simp [Slots.pushAll, Slots.slotsOf]
    have hend : s₂.Keeps σ wide true (s₃.popAll f.params.length).endCall := by
      refine ⟨fun _ => hs₃.of_scope rfl (fun p hp => ?_) rfl, hscope,
        Nat.le_trans (Nat.le_add_right _ _) hbody.size_le, fun _ => hbody.alike rfl⟩
      exact hs₃.bounded p (List.mem_of_mem_drop hp)
    exact hbegin.trans (hargs.trans hend.of_inner)
  | call hl hf hn hargs ih => exact ih hp.1 hs
  | present he ih => exact ih (hp.2 _ rfl) hs
  | otherwise h ih => exact (ih (resolved_otherwise hp) hs).of_inner
  | branch hc he hbs ihc ihe ihbs =>
    obtain ⟨hpc, hpe, hpbs⟩ := resolved_rest hp
    have hc := ihc hpc hs
    have hs₁ := hc.ready hs
    have he := ihe hpe hs₁
    have hbs : Keeps σ wide true _ _ := ihbs hpbs (he.ready hs₁)
    exact hc.trans (he.trans hbs).of_inner

/-- The slots around the parts of a loop. -/
theorem Lowered.stages {env : Environment} {name : String} {a : Expr} {d : Option Expr}
    {b body : Expr} {s s₁ s₂ s₃ s₄ : Slots} {start step stop code : Code}
    (hb : Lowered env (.tree b) s.fresh.2 stop s₁)
    (hd : Lowered env (.optional [.constant 1.0] d) s₁.fresh.2 step s₂)
    (ha : Lowered env (.tree a) s₂ start s₃)
    (hbody : Lowered env (.tree body) (s₃.push name).2.fresh.2 code s₄)
    (hpa : a.resolved σ wide true) (hpd : Expr.resolvedOption σ wide d)
    (hpb : b.resolved σ wide true) (hpbody : body.resolved σ wide true) (hs : s.Ready σ wide) :
    Stages σ wide name s s₁ s₂ s₃ s₄ := by
  have h₁ := hb.keeps hpb hs.fresh
  have h₂ := hd.keeps (resolved_step hpd _) (h₁.ready hs.fresh).fresh
  have h₃ := ha.keeps hpa (h₂.ready (h₁.ready hs.fresh).fresh)
  exact ⟨hs, h₁, h₂, h₃, hbody.keeps hpbody
    ((h₃.ready (h₂.ready (h₁.ready hs.fresh).fresh)).push name).fresh⟩

end Bytecode

end FormulaLang
