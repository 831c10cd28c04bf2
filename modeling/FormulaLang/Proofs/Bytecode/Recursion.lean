import FormulaLang.Proofs.Bytecode.Failing

/-!
# Refused recursion

A call is refused as recursive when a call of the same function is in progress. It is in progress
from before its arguments are compiled until behind its body, so what leads back to it stands in its
body or in one of its arguments.

* `LeadsTo`: a call of one function leads to a call of another.
* `Piece.Reached`: all calls in progress lead to what a piece calls.
* **`Fails.leadsTo`**: a function that is refused as recursive leads to itself.
* **`callsItself_of_recursiveCall`**: if no argument leads back, it calls itself by bodies.
* `compile_nestedCall`: a function that calls nothing, in an argument of itself.
-/

namespace FormulaLang.Bytecode

open Relation (TransGen ReflTransGen)
open FormulaLang.Expr (Calls within_of_mem_parts)

/-! ## Calls that lead to calls -/

/-- While a call of `f` is in progress, `g` may be called: by its body and by what it calls, or by
one of its arguments and by what that calls. -/
def LeadsTo (top : Expr) (f g : String) : Prop :=
  TransGen top.CallsInBody f g ∨
    ∃ h, top.CallsInArgument f h ∧ ReflTransGen top.CallsInBody h g

/-- A piece stands in a formula, and the calls in progress lead to all its calls. -/
structure Piece.Reached (top : Expr) (active : List String) (p : Piece) : Prop where
  within : p.Within top
  leads : ∀ f ∈ active, ∀ e ∈ p.trees, ∀ g, e.Calls g → LeadsTo top f g

section Reached

variable {top e : Expr} {active : List String} {p q : Piece} {f g h name : String}
  {args : List Expr}

theorem LeadsTo.body (hl : LeadsTo top f g) (hb : top.CallsInBody g h) : LeadsTo top f h :=
  hl.imp (·.tail hb) fun ⟨a, ha, hg⟩ => ⟨a, ha, hg.tail hb⟩

theorem reached_top (top : Expr) : (Piece.tree top).Reached top [] :=
  ⟨within_tree.2 .self, nofun⟩

theorem Piece.Reached.of_subset (hp : p.Reached top active) (hq : q.trees ⊆ p.trees) :
    q.Reached top active :=
  ⟨fun e he => hp.within e (hq he), fun f hf e he => hp.leads f hf e (hq he)⟩

theorem Piece.Reached.of_mem (hp : p.Reached top active) (he : e ∈ p.trees) :
    (Piece.tree e).Reached top active :=
  hp.of_subset (List.cons_subset.2 ⟨he, List.nil_subset _⟩)

/-- Calls in the parts of a tree other than a definition are calls in the tree. -/
theorem Piece.Reached.parts (hp : (Piece.tree e).Reached top active)
    (he : ∀ name params body, e ≠ .define name params body) (hq : q.trees ⊆ e.parts) :
    q.Reached top active :=
  ⟨within_parts (within_tree.1 hp.within) hq, fun f hf _ ht g hg =>
    hp.leads f hf e (List.mem_singleton_self e) g (.part he (hq ht) hg)⟩

/-- What the arguments of a call call is called while it is in progress. -/
theorem Piece.Reached.arguments (hp : (Piece.tree (.call name args)).Reached top active) :
    (Piece.args args).Reached top (name :: active) := by
  have hargs := hp.parts (by nofun) (q := .args args) (List.Subset.refl _)
  refine ⟨hargs.within, List.forall_mem_cons.2 ⟨fun e he g hg => ?_, hargs.leads⟩⟩
  exact .inr ⟨g, ⟨args, within_tree.1 hp.within, e, he, hg⟩, .refl⟩

/-- So is what its body calls. -/
theorem Piece.Reached.body (hp : (Piece.tree (.call name args)).Reached top active)
    {params : List String} {body : Expr} (hd : (Expr.define name params body).Within top) :
    (Piece.tree body).Reached top (name :: active) := by
  have hcall : ∀ g, body.Calls g → top.CallsInBody name g := fun g hg => ⟨params, body, hd, hg⟩
  refine ⟨within_parts hd (List.Subset.refl _), ?_⟩
  intro f hf e he g hg
  obtain rfl := List.mem_singleton.1 he
  rcases List.mem_cons.1 hf with rfl | hf
  · exact .inl (.single (hcall g hg))
  · exact (hp.leads f hf _ (List.mem_singleton_self _) name (.call args)).body (hcall g hg)

theorem Piece.Reached.operation {es : List Expr} {i : Instruction}
    (hp : (Piece.tree e).Reached top active) (ho : operation? e = some (es, i)) :
    (Piece.args es).Reached top active := by
  unfold operation? at ho
  split at ho <;> cases ho <;> exact hp.parts (by nofun) (List.Subset.refl _)

section Loop

variable {kind : LoopKind} {a b body : Expr} {d default : Option Expr} {missing : Code}
  (hp : (Piece.tree (.loop kind name (.range a d b) body default)).Reached top active)

include hp

theorem Piece.Reached.start : (Piece.tree a).Reached top active :=
  hp.parts (by nofun) (by simp [Piece.trees, Expr.parts, LoopSource.parts])

theorem Piece.Reached.step : (Piece.optional missing d).Reached top active :=
  hp.parts (by nofun) fun t ht => by
    simp [Expr.parts, LoopSource.parts, Option.mem_toList.1 ht]

theorem Piece.Reached.stop : (Piece.tree b).Reached top active :=
  hp.parts (by nofun) (by simp [Piece.trees, Expr.parts, LoopSource.parts])

theorem Piece.Reached.loopBody : (Piece.tree body).Reached top active :=
  hp.parts (by nofun) (by simp [Piece.trees, Expr.parts, LoopSource.parts])

end Loop

end Reached

section Refused

variable {env : Environment} {top : Expr} {active : List String} {p : Piece} {s : Slots}
  {name : String}

theorem globalCell_ne_recursiveCall {f : Fault} {other : String}
    (h : globalCell env name = .error f) : f ≠ .recursiveCall other := by
  unfold globalCell at h
  split at h
  · cases h
    nofun
  · split at h
    · cases h
      nofun
    · split at h
      · cases h
      · cases h
        nofun

/-- **A function that is refused as recursive leads to itself.** -/
theorem Fails.leadsTo (h : Fails env p s (.recursiveCall name)) (hp : p.Reached top active)
    (hs : s.Standing top active) : LeadsTo top name name := by
  generalize hf : Fault.recursiveCall name = f at h
  induction h generalizing active with
  | «variable» _ hc => exact absurd hf.symm (globalCell_ne_recursiveCall hc)
  | target _ _ _ hc => exact absurd hf.symm (globalCell_ne_recursiveCall hc)
  | inlineCount | undefined | callCount | unsupported => cases hf
  | recursive _ hb =>
    cases hf
    have hactive : name ∈ active := hs.active ▸ Slots.beginCall?_eq_none.1 hb
    exact hp.leads name hactive _ (List.mem_singleton_self _) name (.call _)
  | inlineArgs _ hb _ _ ih => exact ih hp.arguments (hs.beginCall hb) hf
  | inlineBody hg hb _ hargs _ ih =>
    have hs₂ := hargs.standing hp.arguments.within (hs.beginCall hb)
    exact ih (hp.body (hs.within_function hg)) (hs₂.of_functions rfl rfl) hf
  | callArgs _ _ _ _ ih => exact ih (hp.parts (by nofun) (List.Subset.refl _)) hs hf
  | operation ho _ ih => exact ih (hp.operation ho) hs hf
  | value _ ih => exact ih (hp.parts (by nofun) (List.Subset.refl _)) hs hf
  | cases _ ih => exact ih (hp.parts (by nofun) (List.Subset.refl _)) hs hf
  | stop _ _ ih => exact ih hp.stop (hs.of_functions rfl rfl) hf
  | step _ hb _ ih =>
    have hs₁ := hb.standing hp.stop.within (hs.of_functions rfl rfl)
    exact ih hp.step (hs₁.of_functions rfl rfl) hf
  | start _ hb hd _ ih =>
    have hs₁ := hb.standing hp.stop.within (hs.of_functions rfl rfl)
    exact ih hp.start (hd.standing hp.step.within (hs₁.of_functions rfl rfl)) hf
  | body _ hb hd ha _ ih =>
    have hs₁ := hb.standing hp.stop.within (hs.of_functions rfl rfl)
    have hs₂ := hd.standing hp.step.within (hs₁.of_functions rfl rfl)
    have hs₃ := ha.standing hp.start.within hs₂
    exact ih hp.loopBody (hs₃.of_functions rfl rfl) hf
  | first _ ih =>
    have hes := hp.parts (by nofun) (q := .rest _) (List.Subset.refl _)
    exact ih (hes.of_mem List.mem_cons_self) hs hf
  | later he _ ih =>
    have hes := hp.parts (by nofun) (q := .rest _) (List.Subset.refl _)
    have hfirst := hes.of_mem List.mem_cons_self
    exact ih (hp.parts (by nofun) (List.subset_cons_self _ _)) (he.standing hfirst.within hs) hf
  | firstArg _ ih | firstRest _ ih | present _ ih | condition _ ih =>
    exact ih (hp.of_subset (by simp [Piece.trees])) hs hf
  | laterArg he _ ih | laterRest he _ ih =>
    have hfirst := hp.of_mem List.mem_cons_self
    exact ih (hp.of_subset (List.subset_cons_self _ _)) (he.standing hfirst.within hs) hf
  | otherwise _ ih => exact ih (hp.of_subset (List.Subset.refl _)) hs hf
  | branch hc _ ih =>
    have hcondition := hp.of_mem List.mem_cons_self
    exact ih (hp.of_subset (by simp [Piece.trees])) (hc.standing hcondition.within hs) hf
  | laterBranch hc he _ ih =>
    have hcondition := hp.of_mem List.mem_cons_self
    have hvalue := hp.of_mem (List.mem_cons_of_mem _ List.mem_cons_self)
    have hs₂ := he.standing hvalue.within (hc.standing hcondition.within hs)
    exact ih (hp.of_subset (by simp [Piece.trees])) hs₂ hf

/-- **A function that is refused as recursive calls itself**, by the bodies of functions of the
formula, unless an argument of one of its calls leads back to it. -/
theorem callsItself_of_recursiveCall {e : Expr} (h : compile env e = .error (.recursiveCall name))
    (hargs : ∀ g, e.CallsInArgument name g → ¬ ReflTransGen e.CallsInBody g name) :
    TransGen e.CallsInBody name name := by
  rcases (fails_of_compile h).leadsTo (reached_top e) (standing_empty e) with hbody | ⟨g, hg, hback⟩
  · exact hbody
  · exact absurd hback (hargs g hg)

end Refused

/-! ## A formula with one function -/

/-- `f(x) = body; call` -/
def withDefinition (body call : Expr) : Expr := .sequence [.define "f" ["x"] body, call]

section One

variable {body call t : Expr} {v : Value} {name g : String} {params : List String}

theorem within_withDefinition (h : t.Within (withDefinition body call)) :
    t = withDefinition body call ∨ t = .define "f" ["x"] body ∨ t.Within body ∨ t.Within call := by
  cases h with
  | self => exact .inl rfl
  | part hp h =>
    rcases List.mem_cons.1 hp with rfl | hp
    · cases h with
      | self => exact .inr (.inl rfl)
      | part hp h =>
        obtain rfl := List.mem_singleton.1 hp
        exact .inr (.inr (.inl h))
    · obtain rfl := List.mem_singleton.1 hp
      exact .inr (.inr (.inr h))

theorem within_var (h : t.Within (.var name)) : t = .var name := by
  cases h with
  | self => rfl
  | part hp _ => cases hp

theorem within_constant (h : t.Within (.constant v)) : t = .constant v := by
  cases h with
  | self => rfl
  | part hp _ => cases hp

theorem within_call_single {a : Expr} (h : t.Within (.call name [a])) :
    t = .call name [a] ∨ t.Within a := by
  cases h with
  | self => exact .inl rfl
  | part hp h =>
    obtain rfl := List.mem_singleton.1 hp
    exact .inr h

theorem not_calls_var : ¬ (Expr.var name).Calls g := by
  intro h
  cases h with
  | part _ hp _ => cases hp

theorem not_calls_constant : ¬ (Expr.constant v).Calls g := by
  intro h
  cases h with
  | part _ hp _ => cases hp

end One

/-- `f(x) = f(x); f(1)` -/
def selfCall : Expr :=
  withDefinition (.call "f" [.var "x"]) (.call "f" [.constant (.number 1.0)])

/-- No argument calls anything here, and the body calls its own function. -/
theorem callsItself_selfCall :
    compile .empty selfCall = .error (.recursiveCall "f") ∧
      (∀ g, selfCall.CallsInArgument "f" g → ¬ ReflTransGen selfCall.CallsInBody g "f") ∧
      TransGen selfCall.CallsInBody "f" "f" := by
  have hargs : ∀ g, ¬ selfCall.CallsInArgument "f" g := by
    rintro g ⟨args, hw, a, ha, hg⟩
    rcases within_withDefinition hw with h | h | h | h
    · cases h
    · cases h
    · rcases within_call_single h with h | h
      · cases h
        obtain rfl := List.mem_singleton.1 ha
        exact not_calls_var hg
      · cases within_var h
    · rcases within_call_single h with h | h
      · cases h
        obtain rfl := List.mem_singleton.1 ha
        exact not_calls_constant hg
      · cases within_constant h
  have hback : ∀ g, selfCall.CallsInArgument "f" g → ¬ ReflTransGen selfCall.CallsInBody g "f" :=
    fun g hg => absurd hg (hargs g)
  have hrefused : compile .empty selfCall = .error (.recursiveCall "f") := rfl
  exact ⟨hrefused, hback, callsItself_of_recursiveCall hrefused hback⟩

/-- `f(x) = x; f(f(1))` -/
def nestedCall : Expr :=
  withDefinition (.var "x") (.call "f" [.call "f" [.constant (.number 1.0)]])

/-- **A function that calls nothing is refused** as recursive when it is called in an argument of
itself. -/
theorem compile_nestedCall :
    compile .empty nestedCall = .error (.recursiveCall "f") ∧
      ∀ g, ¬ TransGen nestedCall.CallsInBody g g := by
  have hbody : ∀ f g, ¬ nestedCall.CallsInBody f g := by
    rintro f g ⟨params, body, hw, hg⟩
    rcases within_withDefinition hw with h | h | h | h
    · cases h
    · cases h
      exact not_calls_var hg
    · cases within_var h
    · rcases within_call_single h with h | h
      · cases h
      · rcases within_call_single h with h | h
        · cases h
        · cases within_constant h
  refine ⟨rfl, fun g h => ?_⟩
  obtain ⟨f, hf, -⟩ := TransGen.head'_iff.1 h
  exact hbody g f hf

end FormulaLang.Bytecode
