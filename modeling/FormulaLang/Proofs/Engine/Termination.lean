import FormulaLang.Proofs.Engine.Derivation

/-!
# Evaluation ends

Everything has a derivation. A loop ends since fewer items are left behind every round, and calls
end since they nest only as deep as the limit: what a name is bound to, and whether the body binds
it again, is of no account.

* `Expr.induct`: induction over trees by the forms that the rules tell apart.
* `Ends`: a job has a derivation from every engine.
* `ends_rounds`, `ends_request`, `ends_nested_of_lt`: one lemma for each sort of job.
* `ends_tree`: a tree ends if what it does one level deeper ends.
* `ends_tree_and_call`: trees and calls end at every depth, by induction on the calls left.
* **`derives_evaluate`**: evaluation ends, from every engine and for every tree.
-/

namespace FormulaLang

variable {α σ : Type}

/-! ## Induction over trees -/

namespace Expr

variable {e e' : Expr} {es : List Expr} {finish : List Value → Eval Value}

theorem sizeOf_lt_of_mem_bounds {a b : Expr} {d : Option Expr} (h : e ∈ bounds a d b) :
    sizeOf e < 1 + sizeOf a + sizeOf d + sizeOf b ∨ e = .constant (.number 1.0) := by
  simp only [bounds, List.mem_cons, List.not_mem_nil, or_false] at h
  rcases h with rfl | rfl | rfl
  · exact .inl (by omega)
  · cases d with
    | none => exact .inr rfl
    | some d => exact .inl (by simp only [Option.getD_some, Option.some.sizeOf_spec]; omega)
  · exact .inl (by omega)

theorem sizeOf_lt_of_mem_operands {source : LoopSource Expr} (h : e ∈ source.operands) :
    sizeOf e < sizeOf source ∨ e = .constant (.number 1.0) := by
  cases source with
  | items e' =>
    obtain rfl := List.mem_singleton.1 h
    exact .inl (by simp only [LoopSource.items.sizeOf_spec]; omega)
  | range a d b =>
    simpa only [LoopSource.range.sizeOf_spec] using sizeOf_lt_of_mem_bounds h

/-- Operands are smaller than the tree, but for the step that a range has by default. -/
theorem sizeOf_lt_of_eager (h : e.eager? = some (es, finish)) (he' : e' ∈ es) :
    sizeOf e' < sizeOf e ∨ e' = .constant (.number 1.0) := by
  cases e with
  | range a d b =>
    cases h
    simpa only [range.sizeOf_spec] using sizeOf_lt_of_mem_bounds he'
  | matrix rows =>
    cases h
    obtain ⟨row, hrow, he'⟩ := List.mem_flatten.1 he'
    have := List.sizeOf_lt_of_mem hrow
    have := List.sizeOf_lt_of_mem he'
    exact .inl (by simp only [matrix.sizeOf_spec]; omega)
  | vector items | list items =>
    cases h
    have := List.sizeOf_lt_of_mem he'
    left
    simp only [vector.sizeOf_spec, list.sizeOf_spec]
    omega
  | binary op a b | compare op a b | logical op a b | assignElement name a b | index a b =>
    cases h
    simp only [List.mem_cons, List.not_mem_nil, or_false] at he'
    rcases he' with rfl | rfl
    all_goals
      left
      simp only [binary.sizeOf_spec, compare.sizeOf_spec, logical.sizeOf_spec,
        assignElement.sizeOf_spec, index.sizeOf_spec]
      omega
  | unary op a | assign name a | element name a | member a name =>
    cases h
    obtain rfl := List.mem_singleton.1 he'
    left
    simp only [unary.sizeOf_spec, assign.sizeOf_spec, element.sizeOf_spec, member.sizeOf_spec]
    omega
  | _ => cases h

/-- Induction over trees. Those that evaluate all their operands are one case. -/
theorem induct {motive : Expr → Prop} (constant : ∀ v, motive (.constant v))
    (var : ∀ name, motive (.var name))
    (eager : ∀ e es finish, e.eager? = some (es, finish) → (∀ e' ∈ es, motive e') → motive e)
    (call : ∀ name args, (∀ e ∈ args, motive e) → motive (.call name args))
    (define : ∀ name params body, motive (.define name params body))
    (cases : ∀ bs otherwise, (∀ p ∈ bs, motive p.1 ∧ motive p.2) →
      (∀ e ∈ otherwise, motive e) → motive (.cases bs otherwise))
    (loop : ∀ kind name source body default, (∀ e ∈ LoopSource.operands source, motive e) →
      motive body → (∀ e ∈ default, motive e) → motive (.loop kind name source body default))
    (sequence : ∀ es, (∀ e ∈ es, motive e) → motive (.sequence es))
    (invalid : motive .invalid) (e : Expr) : motive e := by
  induction hn : sizeOf e using Nat.strong_induction_on generalizing e with
  | _ n ih =>
    subst hn
    have operand : ∀ e', sizeOf e' < sizeOf e ∨ e' = .constant (.number 1.0) → motive e' := by
      rintro e' (hlt | rfl)
      · exact ih _ hlt e' rfl
      · exact constant _
    cases he : e.eager? with
    | some p => exact eager e p.1 p.2 he fun e' he' => operand e' (sizeOf_lt_of_eager he he')
    | none =>
      cases e with
      | constant v => exact constant v
      | var name => exact var name
      | call name args =>
        refine call name args fun e' he' => operand e' (.inl ?_)
        have := List.sizeOf_lt_of_mem he'
        simp only [Expr.call.sizeOf_spec]
        omega
      | define name params body => exact define name params body
      | cases bs otherwise =>
        refine cases bs otherwise (fun p hp => ?_) fun e' he' => operand e' (.inl ?_)
        · have := List.sizeOf_lt_of_mem hp
          have hp' : sizeOf p = 1 + sizeOf p.1 + sizeOf p.2 := rfl
          exact ⟨operand _ (.inl (by simp only [Expr.cases.sizeOf_spec]; omega)),
            operand _ (.inl (by simp only [Expr.cases.sizeOf_spec]; omega))⟩
        · obtain rfl := Option.mem_def.1 he'
          simp only [Expr.cases.sizeOf_spec, Option.some.sizeOf_spec]
          omega
      | loop kind name source body default =>
        refine loop kind name source body default (fun e' he' => operand e' ?_)
          (operand _ (.inl ?_)) fun e' he' => operand e' (.inl ?_)
        · rcases sizeOf_lt_of_mem_operands he' with hlt | rfl
          · exact .inl (by simp only [Expr.loop.sizeOf_spec]; omega)
          · exact .inr rfl
        · simp only [Expr.loop.sizeOf_spec]
          omega
        · obtain rfl := Option.mem_def.1 he'
          simp only [Expr.loop.sizeOf_spec, Option.some.sizeOf_spec]
          omega
      | sequence es =>
        refine sequence es fun e' he' => operand e' (.inl ?_)
        have := List.sizeOf_lt_of_mem he'
        simp only [Expr.sequence.sizeOf_spec]
        omega
      | invalid => exact invalid
      | _ => cases he

end Expr

/-! ## Jobs that end -/

/-- From every engine there is a derivation, in which calls nest at most `k` deep. -/
def Ends (limit d k : Nat) (j : Job α) : Prop := ∀ st, ∃ a st', Derives limit d k j st a st'

section Ends

variable {limit d k : Nat} {es : List Expr} {body : Expr}

theorem ends_trees (h : ∀ e ∈ es, Ends limit d k (.tree e)) : Ends limit d k (.trees es) := by
  induction es with
  | nil => exact fun st => ⟨_, _, .nil⟩
  | cons e es ih =>
    intro st
    obtain ⟨v, st₁, he⟩ := h e List.mem_cons_self st
    obtain ⟨vs, st', hes⟩ := ih (fun e' he' => h e' (List.mem_cons_of_mem _ he')) st₁
    exact ⟨_, _, .cons he hes⟩

theorem ends_statements (h : ∀ e ∈ es, Ends limit d k (.tree e)) (last : Value) :
    Ends limit d k (.statements es last) := by
  induction es generalizing last with
  | nil => exact fun st => ⟨_, _, .last⟩
  | cons e es ih =>
    intro st
    obtain ⟨v, st₁, he⟩ := h e List.mem_cons_self st
    obtain ⟨w, st', hes⟩ := ih (fun e' he' => h e' (List.mem_cons_of_mem _ he')) v st₁
    exact ⟨_, _, .statement he hes⟩

theorem ends_branches {bs : List (Expr × Expr)} {otherwise : Option Expr}
    (h : ∀ p ∈ bs, Ends limit d k (.tree p.1) ∧ Ends limit d k (.tree p.2))
    (ho : ∀ e ∈ otherwise, Ends limit d k (.tree e)) :
    Ends limit d k (.branches bs otherwise) := by
  induction bs with
  | nil =>
    intro st
    cases otherwise with
    | none => exact ⟨_, _, .noElse⟩
    | some e =>
      obtain ⟨v, st', he⟩ := ho e rfl st
      exact ⟨_, _, .otherwise he⟩
  | cons p bs ih =>
    intro st
    obtain ⟨hc, he⟩ := h p List.mem_cons_self
    obtain ⟨v, st₁, hv⟩ := hc st
    by_cases hb : ∃ b, v = .bool b
    · obtain ⟨b, rfl⟩ := hb
      cases b with
      | true =>
        obtain ⟨w, st', hw⟩ := he st₁
        exact ⟨_, _, .isTrue hv hw⟩
      | false =>
        obtain ⟨w, st', hw⟩ := ih (fun p' hp' => h p' (List.mem_cons_of_mem _ hp')) st₁
        exact ⟨_, _, .isFalse hv hw⟩
    · exact ⟨_, _, .noBool hv fun b hvb => hb ⟨b, hvb⟩⟩

/-- **Loops end**: fewer items are left behind every round. -/
theorem ends_rounds (h : Ends limit d k (.tree body)) (form : LoopForm σ) (name : String)
    (items : Items) (s : σ) : Ends limit d k (.rounds form name body items s) := by
  induction hn : items.left using Nat.strong_induction_on generalizing items s with
  | _ n ih =>
    intro st
    cases hi : items.next? with
    | none => exact ⟨_, _, .finished hi⟩
    | some p =>
      obtain ⟨v, st₁, hb⟩ := h (st.onEnv (·.addVariable name p.1))
      rcases ha : form.after s p.1 v st₁ with ⟨u | s', st₂⟩
      · exact ⟨_, _, .stopped hi hb ha⟩
      · have hlt : p.2.left < n := hn ▸ Items.left_lt hi
        obtain ⟨r, st', hr⟩ := ih _ hlt p.2 s' rfl st₂
        exact ⟨_, _, .goesOn hi hb ha hr⟩

/-! ### Calls -/

section Calls

variable (htree : ∀ e, Ends limit d k (.tree e))
  (hcall : ∀ name args, Ends limit d k (.call name args))

include htree hcall in
theorem ends_request (r : Request α) : Ends limit d k (.request r) := by
  induction r with
  | done a => exact fun st => ⟨_, _, .done⟩
  | report f next ih =>
    intro st
    obtain ⟨a, st', h⟩ := ih (st.report f)
    exact ⟨_, _, .report h⟩
  | faultCount next ih =>
    intro st
    obtain ⟨a, st', h⟩ := ih st.log.size st
    exact ⟨_, _, .faultCount h⟩
  | call name args next ih =>
    intro st
    obtain ⟨v, st₁, hc⟩ := hcall name args st
    obtain ⟨a, st', h⟩ := ih v st₁
    exact ⟨_, _, .requestCall hc h⟩
  | evaluate e next ih =>
    intro st
    obtain ⟨v, st₁, he⟩ := htree e st
    obtain ⟨a, st', h⟩ := ih v st₁
    exact ⟨_, _, .requestTree he h⟩

include htree hcall in
theorem ends_callable (c : Callable) (args : List Value) :
    Ends limit d k (.callable c args) := by
  intro st
  cases c with
  | native run =>
    obtain ⟨v, st', h⟩ := ends_request htree hcall (run args) st
    exact ⟨_, _, .native h⟩
  | writer run =>
    obtain ⟨v, st', h⟩ := ends_request htree hcall (run args) st
    exact ⟨_, _, .writer h⟩
  | lazy run =>
    obtain ⟨v, st', h⟩ := ends_request htree hcall (run (args.map .constant)) st
    exact ⟨_, _, .lazy h⟩
  | user params body =>
    cases params with
    | nil =>
      obtain ⟨v, st', h⟩ := htree body st
      exact ⟨_, _, .parameterless h⟩
    | cons param params =>
      obtain ⟨v, st', h⟩ :=
        htree body (st.onEnv fun env => env.enter.addVariables ((param :: params).zip args))
      exact ⟨_, _, .parameters h⟩

end Calls

theorem ends_nested_of_le (h : limit ≤ d) (j : Job Value) : Ends limit d k (.nested j) :=
  fun _ => ⟨_, _, .tooDeep h⟩

theorem ends_nested_of_lt {j : Job Value} (h : d < limit) (hj : Ends limit (d + 1) k j) :
    Ends limit d (k + 1) (.nested j) := by
  intro st
  obtain ⟨v, st', hv⟩ := hj st
  exact ⟨_, _, .nested h hv⟩

section Levels

variable (hcallable : ∀ c args, Ends limit d k (.nested (.callable c args)))
  (hrequest : ∀ r : Request Value, Ends limit d k (.nested (.request r)))

include hcallable in
theorem ends_invoke (name : String) (f : Function) (args : List Value) :
    Ends limit d k (.invoke name f args) := by
  intro st
  cases h : args.any Value.isInvalid with
  | true => exact ⟨_, _, .invalidArgument h⟩
  | false =>
    cases ha : f.arity.filter (· ≠ args.length) with
    | some expected => exact ⟨_, _, .wrongCount h ha⟩
    | none =>
      obtain ⟨v, st', hv⟩ := hcallable f.callable args st
      exact ⟨_, _, .invoke h ha hv⟩

include hcallable in
theorem ends_call (name : String) (args : List Value) : Ends limit d k (.call name args) := by
  intro st
  cases hf : st.env.function? name with
  | none => exact ⟨_, _, .callUndefined hf⟩
  | some f =>
    obtain ⟨v, st', hv⟩ := ends_invoke hcallable name f args st
    exact ⟨_, _, .call hf hv⟩

include hcallable hrequest in
theorem ends_tree_call {name : String} {args : List Expr}
    (h : ∀ e ∈ args, Ends limit d k (.tree e)) : Ends limit d k (.tree (.call name args)) := by
  intro st
  cases hf : st.env.function? name with
  | none => exact ⟨_, _, .undefinedFunction hf⟩
  | some f =>
    by_cases hc : ∃ run, f.callable = .lazy run
    · obtain ⟨run, hc⟩ := hc
      obtain ⟨v, st', hv⟩ := hrequest (run args) st
      exact ⟨_, _, .callLazy hf hc hv⟩
    · obtain ⟨vs, st₁, hvs⟩ := ends_trees h st
      obtain ⟨v, st', hv⟩ := ends_invoke hcallable name f vs st₁
      exact ⟨_, _, .callEager hf (fun run hr => hc ⟨run, hr⟩) hvs hv⟩

theorem ends_tree_loop {kind : LoopKind} {name : String} {source : LoopSource Expr}
    {default : Option Expr} (hs : ∀ e ∈ source.operands, Ends limit d k (.tree e))
    (hb : Ends limit d k (.tree body)) (hd : ∀ e ∈ default, Ends limit d k (.tree e)) :
    Ends limit d k (.tree (.loop kind name source body default)) := by
  intro st
  obtain ⟨vs, st₁, hvs⟩ := ends_trees hs st
  rcases hc : source.check vs st₁ with ⟨_ | items, st₂⟩
  · exact ⟨_, _, .noItems hvs hc⟩
  · cases hi : default.isSome && items.isEmpty with
    | true =>
      obtain ⟨hdefault, hitems⟩ := Bool.and_eq_true_iff.1 hi
      obtain ⟨e, rfl⟩ := Option.isSome_iff_exists.1 hdefault
      obtain ⟨v, st', hv⟩ := hd e rfl st₂
      exact ⟨_, _, .loopDefault hvs hc hitems hv⟩
    | false =>
      obtain ⟨r, st', hr⟩ :=
        ends_rounds hb kind.form.2 name items kind.form.2.start (st₂.onEnv .enter)
      exact ⟨_, _, .loop hvs hc hi hr⟩

include hcallable hrequest in
/-- A tree ends if what it does one level deeper ends. -/
theorem ends_tree (e : Expr) : Ends limit d k (.tree e) := by
  induction e using Expr.induct with
  | constant v => exact fun st => ⟨_, _, .constant⟩
  | var name =>
    intro st
    cases h : st.env.value? name with
    | none => exact ⟨_, _, .undefinedVariable h⟩
    | some v => exact ⟨_, _, .var h⟩
  | eager e es finish he ih =>
    intro st
    obtain ⟨vs, st₁, hvs⟩ := ends_trees ih st
    exact ⟨_, _, .eager he hvs rfl⟩
  | call name args ih => exact ends_tree_call hcallable hrequest ih
  | define name params body => exact fun st => ⟨_, _, .define⟩
  | cases bs otherwise ihbs iho =>
    intro st
    obtain ⟨v, st', h⟩ := ends_branches ihbs iho st
    exact ⟨_, _, .cases h⟩
  | loop kind name source body default ihs ihb ihd => exact ends_tree_loop ihs ihb ihd
  | sequence es ih =>
    intro st
    obtain ⟨v, st', h⟩ := ends_statements ih .void st
    exact ⟨_, _, .sequence h⟩
  | invalid => exact fun st => ⟨_, _, .invalid⟩

end Levels

/-- **Trees and calls end at every depth.** The induction is on the calls that may still nest:
whatever a call does, it does with fewer of them. -/
theorem ends_tree_and_call (h : d + k = limit) :
    (∀ e, Ends limit d k (.tree e)) ∧ ∀ name args, Ends limit d k (.call name args) := by
  induction k generalizing d with
  | zero =>
    have hlimit : limit ≤ d := by omega
    exact ⟨ends_tree (fun _ _ => ends_nested_of_le hlimit _) fun _ => ends_nested_of_le hlimit _,
      ends_call fun _ _ => ends_nested_of_le hlimit _⟩
  | succ k ih =>
    have hlimit : d < limit := by omega
    obtain ⟨htree, hcall⟩ := @ih (d + 1) (by omega)
    have hcallable : ∀ c args, Ends limit d (k + 1) (.nested (.callable c args)) :=
      fun c args => ends_nested_of_lt hlimit (ends_callable htree hcall c args)
    have hrequest : ∀ r : Request Value, Ends limit d (k + 1) (.nested (.request r)) :=
      fun r => ends_nested_of_lt hlimit (ends_request htree hcall r)
    exact ⟨ends_tree hcallable hrequest, ends_call hcallable⟩

end Ends

/-! ## Evaluation -/

/-- **Evaluation ends**: whatever functions are bound and whatever they do, the value of a tree
and the engine behind it have a derivation, in which calls nest as deep as the settings say at
most and which has nothing in it to cut a loop off. No derivation gives anything else. -/
theorem derives_evaluate (e : Expr) (st : Engine) :
    Derives st.settings.callDepth 0 st.settings.callDepth (.tree e) st (Engine.evaluate e st).1
      (Engine.evaluate e st).2 ∧
    ∀ k v st', Derives st.settings.callDepth 0 k (.tree e) st v st' →
      (v, st') = Engine.evaluate e st := by
  have hrun : ∀ k v st', Derives st.settings.callDepth 0 k (.tree e) st v st' →
      Engine.evaluate e st = (v, st') := by
    intro k v st' h
    rw [evaluate_eq]
    exact run_of_derives h st.settings.callDepth (by omega)
  obtain ⟨v, st', h⟩ := (ends_tree_and_call (Nat.zero_add st.settings.callDepth)).1 e st
  refine ⟨?_, fun k v st' h => (hrun k v st' h).symm⟩
  rw [hrun _ v st' h]
  exact h

end FormulaLang
