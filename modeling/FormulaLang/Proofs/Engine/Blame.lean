import FormulaLang.Proofs.Bytecode.Rounds

/-!
# What the first fault blames

A computation is guarded if it records no fault, or first one that blames something else than a name
without a value. Without a fault it leaves the environment in some relation to the one before.
Behind a fault values are invalid and are not assigned, so what is recorded later may blame names.

* `Engine.Blames`: the first fault blames something else.
* `Fair`: results of operators, with `fair_operate`.
* **`Guarded`**, `Guarded.bind`, `Guarded.inBlock`: guarded computations.
* `guarded_reduce`, `guarded_invoke_plain`, `guarded_invoke_user`: loops and calls.
-/

namespace FormulaLang

open Eval (Moves)

/-! ## The first fault -/

/-- The first fault that is recorded since blames something else than a name without a value. -/
def Engine.Blames (st st' : Engine) : Prop :=
  ∃ e, st'.log[st.log.size]? = some e ∧ ∀ name, e.fault ≠ .undefinedVariable name

/-- Faults are recorded behind those that there are. -/
def KeepsLog (st st' : Engine) : Prop := ∃ new, st'.log = st.log ++ new

theorem keepsLog_note (st : Engine) (e : Located) : KeepsLog st (st.note e) :=
  ⟨#[e], Array.push_eq_append⟩

instance : Engine.Steps KeepsLog where
  refl _ := ⟨#[], (Array.append_empty).symm⟩
  trans := by
    rintro _ _ _ ⟨new, h⟩ ⟨new', h'⟩
    exact ⟨new ++ new', by rw [h', h, Array.append_assoc]⟩
  note := keepsLog_note
  addVariable _ _ _ := ⟨#[], (Array.append_empty).symm⟩
  assign st name v := by
    rcases assign_cases st name v with ⟨ha, _⟩ | ⟨f, ha⟩
    · rw [ha]
      exact ⟨#[], (Array.append_empty).symm⟩
    · rw [ha]
      exact keepsLog_note (st.onEnv _) f.unlocated
  addFunction _ _ _ := ⟨#[], (Array.append_empty).symm⟩
  setNumber _ _ _ := ⟨#[], (Array.append_empty).symm⟩
  block h := h

namespace Engine.Blames

variable {st st₁ st₂ : Engine}

theorem of_log (hlog : st₁.log = st.log) (h : st₁.Blames st₂) : st.Blames st₂ := by
  unfold Blames at *
  rwa [hlog] at h

theorem later (h : st.Blames st₁) (hk : KeepsLog st₁ st₂) : st.Blames st₂ := by
  obtain ⟨e, he, hf⟩ := h
  obtain ⟨new, hnew⟩ := hk
  obtain ⟨hlt, -⟩ := Array.getElem?_eq_some_iff.1 he
  exact ⟨e, by rw [hnew, Array.getElem?_append_left hlt, he], hf⟩

theorem report {f : Fault} (hf : ∀ name, f ≠ .undefinedVariable name) (st : Engine) :
    st.Blames (st.report f) :=
  ⟨f.unlocated, Array.getElem?_push_size, hf⟩

end Engine.Blames

/-! ## Results of operators -/

/-- A value other than invalid, or a fault that blames no name. -/
def Fair (r : Except Fault Value) : Prop :=
  match r with
  | .ok v => v.isInvalid = false
  | .error f => ∀ name, f ≠ .undefinedVariable name

section Fair

variable {v w : Value}

theorem isInvalid_ofNumbers (x : Operand Float) : (Value.ofNumbers x).isInvalid = false := by
  cases x <;> rfl

theorem isInvalid_ofBools (x : Operand Bool) : (Value.ofBools x).isInvalid = false := by
  cases x <;> rfl

theorem isInvalid_ofStrings (x : Operand String) : (Value.ofStrings x).isInvalid = false := by
  cases x <;> rfl

/-- Operands of different shapes are to blame. -/
theorem fair_zipWith {α β γ : Type} {op : String} {f : α → β → γ} {x : Operand α} {y : Operand β}
    {pack : Operand γ → Value} (hp : ∀ z, (pack z).isInvalid = false) :
    Fair ((x.zipWith op f y).map pack) := by
  unfold Operand.zipWith
  split
  · exact hp _
  · exact hp _
  · split
    · exact hp _
    · exact fun name h => by cases h
  · split
    · exact hp _
    · exact fun name h => by cases h
  · exact fun name h => by cases h

theorem fair_arithmetic {op : String} {f : Float → Float → Float} : Fair (v.arithmetic op f w) := by
  unfold Value.arithmetic
  split
  · exact fair_zipWith isInvalid_ofNumbers
  · exact fun name h => by cases h

theorem fair_binary {op : BinaryOp} (hv : v.isInvalid = false) (hw : w.isInvalid = false) :
    Fair (v.binary op w) := by
  unfold Value.binary
  rw [hv, hw]
  simp only [Bool.or_self, Bool.false_eq_true, if_false]
  split
  · exact fair_zipWith isInvalid_ofStrings
  · exact fair_arithmetic

theorem fair_compareOther {op : CompareOp} : Fair (v.compareOther op w) := by
  unfold Value.compareOther
  cases op with
  | eq | ne =>
    dsimp only
    split
    · exact fair_zipWith isInvalid_ofBools
    · split
      · rfl
      · exact fun name h => by cases h
  | _ => exact fun name h => by cases h

theorem fair_compare {op : CompareOp} (hv : v.isInvalid = false) (hw : w.isInvalid = false) :
    Fair (v.compare op w) := by
  unfold Value.compare
  rw [hv, hw]
  simp only [Bool.or_self, Bool.false_eq_true, if_false]
  split
  · exact fair_zipWith isInvalid_ofBools
  · split
    · exact fair_zipWith isInvalid_ofBools
    · exact fair_compareOther

theorem fair_logical {op : LogicalOp} (hv : v.isInvalid = false) (hw : w.isInvalid = false) :
    Fair (v.logical op w) := by
  unfold Value.logical
  rw [hv, hw]
  simp only [Bool.or_self, Bool.false_eq_true, if_false]
  split
  · exact fair_zipWith isInvalid_ofBools
  · exact fun name h => by cases h

theorem isInvalid_of_mapNumbers? {f : Float → Float} (h : v.mapNumbers? f = some w) :
    w.isInvalid = false := by
  obtain ⟨x, -, rfl⟩ := Option.map_eq_some_iff.1 h
  exact isInvalid_ofNumbers _

theorem fair_unary {op : UnaryOp} (hv : v.isInvalid = false) : Fair (v.unary op) := by
  unfold Value.unary
  rw [hv]
  simp only [Bool.false_eq_true, if_false]
  split
  · next u hu =>
    cases op with
    | neg => exact isInvalid_of_mapNumbers? hu
    | bitNot => exact isInvalid_of_mapNumbers? hu
    | not =>
      obtain ⟨x, -, rfl⟩ := Option.map_eq_some_iff.1 hu
      exact isInvalid_ofBools _
  · exact fun name h => by cases h

/-- **Operators on valid values** have a valid value, or a fault that blames no name. -/
theorem fair_operate {e : Expr} {es : List Expr} {i : Bytecode.Instruction} {vs : List Value}
    (h : Bytecode.operation? e = some (es, i)) (hlen : vs.length = es.length)
    (hvs : ∀ v ∈ vs, v.isInvalid = false) : Fair (operate e vs) := by
  have two : ∀ {a b : Expr}, es = [a, b] →
      ∃ v w, vs = [v, w] ∧ v.isInvalid = false ∧ w.isInvalid = false := by
    rintro a b rfl
    obtain ⟨v, w, rfl⟩ := List.length_eq_two.1 hlen
    exact ⟨v, w, rfl, hvs v (by simp), hvs w (by simp)⟩
  cases e with
  | unary op a =>
    cases h
    obtain ⟨v, rfl⟩ := List.length_eq_one_iff.1 hlen
    exact fair_unary (hvs v (by simp))
  | binary op a b =>
    cases h
    obtain ⟨v, w, rfl, hv, hw⟩ := two rfl
    exact fair_binary hv hw
  | compare op a b =>
    cases h
    obtain ⟨v, w, rfl, hv, hw⟩ := two rfl
    exact fair_compare hv hw
  | logical op a b =>
    cases h
    obtain ⟨v, w, rfl, hv, hw⟩ := two rfl
    exact fair_logical hv hw
  | _ => cases h

end Fair

/-! ## Guarded computations -/

/-- **A computation is guarded** where a condition holds: without a fault its result and the
environments before and behind it are related, and the first fault blames no name. -/
def Guarded {α : Type} (P : Environment → Prop) (x : Eval α)
    (Q : α → Environment → Environment → Prop) : Prop :=
  ∀ st : Engine, P st.env →
    (x st).2.log = st.log ∧ Q (x st).1 st.env (x st).2.env ∨ st.Blames (x st).2

section Guarded

variable {α β : Type} {P P' : Environment → Prop} {x y : Eval α} {f : α → Eval β}
  {Q Q' : α → Environment → Environment → Prop} {R : β → Environment → Environment → Prop}

theorem Guarded.mono (h : Guarded P' x Q') (hP : ∀ env, P env → P' env)
    (hQ : ∀ a env env', P env → Q' a env env' → Q a env env') : Guarded P x Q :=
  fun st hst => (h st (hP _ hst)).imp_left fun ⟨hlog, hq⟩ => ⟨hlog, hQ _ _ _ hst hq⟩

theorem Guarded.congr (h : Guarded P y Q) (hxy : ∀ st : Engine, P st.env → x st = y st) :
    Guarded P x Q := by
  intro st₁ hst
  rw [hxy st₁ hst]
  exact h st₁ hst

/-- A computation that is guarded in every environment with the condition. -/
theorem guarded_at (h : ∀ env, P env → Guarded (· = env) x Q) : Guarded P x Q :=
  fun st hst => h st.env hst st rfl

theorem guarded_pure {a : α} (h : ∀ env, P env → Q a env env) : Guarded P (pure a : Eval α) Q :=
  fun _ hst => .inl ⟨rfl, h _ hst⟩

theorem guarded_fail {fault : Fault} {Q : Value → Environment → Environment → Prop}
    (hf : ∀ name, fault ≠ .undefinedVariable name) : Guarded P (Eval.fail fault) Q :=
  fun st _ => .inr (.report hf st)

theorem guarded_check {r : Except Fault Value} (hr : Fair r) :
    Guarded P (Eval.check r) fun v env env' => v.isInvalid = false ∧ env' = env := by
  cases r with
  | ok v => exact guarded_pure fun env _ => ⟨hr, rfl⟩
  | error fault => exact guarded_fail hr

/-- **Two computations one after the other.** -/
theorem Guarded.bind (hx : Guarded P x Q) (hf : ∀ a env env₁, P env → Q a env env₁ →
      Guarded (· = env₁) (f a) fun b _ env₂ => R b env env₂)
    (hmf : ∀ a, Moves KeepsLog (f a)) : Guarded P (x >>= f) R := by
  intro st hst
  rcases hx st hst with ⟨hlog, hq⟩ | hblames
  · rcases hf _ _ _ hst hq (x st).2 rfl with ⟨hlog', hr⟩ | hblames
    · exact .inl ⟨hlog'.trans hlog, hr⟩
    · exact .inr (hblames.of_log hlog)
  · exact .inr (hblames.later (hmf _ _))

theorem Guarded.inBlock (h : Guarded P' x Q') (hP : ∀ env, P env → P' env.enter)
    (hQ : ∀ a env env', P env → Q' a env.enter env' → Q a env env'.leave) :
    Guarded P (Eval.inBlock x) Q :=
  fun st hst => (h (st.onEnv .enter) (hP _ hst)).imp_left fun ⟨hlog, hq⟩ =>
    ⟨hlog, hQ _ _ _ hst hq⟩

theorem guarded_change {g : Environment → Environment}
    {Q : Unit → Environment → Environment → Prop} (h : ∀ env, P env → Q () env (g env)) :
    Guarded P (Eval.change g) Q :=
  fun _ hst => .inl ⟨rfl, h _ hst⟩

/-- What cannot be assigned is to blame, and no name. -/
theorem setVariable_fault {env : Environment} {name other : String} {v : Value} :
    (env.setVariable name v).2 ≠ some (.undefinedVariable other) := by
  unfold Environment.setVariable
  split
  · exact fun h => by cases h
  · unfold Environment.writeHost
    split <;> exact fun h => by cases h
  · split <;> exact fun h => by cases h
  · exact fun h => by cases h

theorem guarded_assign (name : String) (v : Value) :
    Guarded P (Eval.assign name v) fun u env env' => u = v ∧ env' = (env.setVariable name v).1 := by
  rintro ⟨env, log, settings⟩ -
  have hfault : ∀ other, (env.setVariable name v).2 ≠ some (.undefinedVariable other) :=
    fun _ => setVariable_fault
  unfold Eval.assign
  dsimp only
  rcases he : env.setVariable name v with ⟨env', _ | f⟩
  · exact .inl ⟨rfl, rfl, rfl⟩
  · rw [he] at hfault
    refine .inr ⟨f.unlocated, Array.getElem?_push_size, fun other hf => hfault other ?_⟩
    exact congrArg some hf

/-! ## Loops -/

/-- Valid bounds are numbers, or else to blame. -/
theorem rangeOf_of_valid {u w t : Value} (hu : u.isInvalid = false) (hw : w.isInvalid = false)
    (ht : t.isInvalid = false) :
    (∃ r, rangeOf u w t = .ok r) ∨ ∃ kind, rangeOf u w t = .error (some (.rangeBound kind)) := by
  cases u with
  | number x =>
    cases w with
    | number y =>
      cases t with
      | number z => exact .inl ⟨_, rfl⟩
      | invalid => cases ht
      | _ => exact .inr ⟨_, rfl⟩
    | invalid => cases hw
    | _ => exact .inr ⟨_, rfl⟩
  | invalid => cases hu
  | _ => exact .inr ⟨_, rfl⟩

theorem guarded_checkRange {u w t : Value} (hu : u.isInvalid = false) (hw : w.isInvalid = false)
    (ht : t.isInvalid = false) :
    Guarded P (checkRange u w t) fun r env env' => (∃ q, r = some q) ∧ env' = env := by
  unfold checkRange
  rcases rangeOf_of_valid hu hw ht with ⟨r, hr⟩ | ⟨kind, hr⟩
  · rw [hr]
    exact guarded_pure fun env _ => ⟨⟨r, rfl⟩, rfl⟩
  · rw [hr]
    exact fun st _ => .inr (.report (fun name h => by cases h) st)

/-- A loop step keeps a condition and goes on. -/
theorem guarded_forItems {σ : Type} {step : σ → Value → Eval (Except Value σ)} {Ok : σ → Prop}
    (hstep : ∀ s x, Ok s → Guarded P (step s (.number x)) fun r _ env' =>
      (∃ s', r = .ok s' ∧ Ok s') ∧ P env')
    (hm : ∀ s v, Moves KeepsLog (step s v)) (n : Nat) (r : Range) {s : σ} (hs : Ok s) :
    Guarded P (forItems step n (.range r) s) fun r _ env' =>
      (∃ s', r = .ok s' ∧ Ok s') ∧ P env' := by
  induction n generalizing r s with
  | zero => exact guarded_pure fun env henv => ⟨⟨s, rfl, hs⟩, henv⟩
  | succ n ih =>
    intro st hst
    cases hnext : r.next? with
    | none =>
      have hitems : (Items.range r).next? = none := by rw [Items.next?, hnext]
      rw [forItems, hitems]
      exact .inl ⟨rfl, ⟨s, rfl, hs⟩, hst⟩
    | some p =>
      obtain ⟨x, rest⟩ := p
      have hitems : (Items.range r).next? = some (.number x, .range rest) := by
        rw [Items.next?, hnext]
      rw [forItems, hitems]
      rcases hx : step s (.number x) st with ⟨out, st₁⟩
      have h := hstep s x hs st hst
      rw [hx] at h
      simp only [hx]
      rcases h with ⟨hlog, ⟨s', rfl, hs'⟩, hst₁⟩ | hblames
      · exact (ih rest hs' st₁ hst₁).imp (And.imp_left (·.trans hlog)) (·.of_log hlog)
      · cases out with
        | error v => exact .inr hblames
        | ok s' => exact .inr (hblames.later (moves_forItems hm n _ s' st₁))

section Reduce

variable {name : String} {body : Eval Value} {op : BinaryOp}

theorem guarded_reduceStep {acc : Option Value} {item : Value}
    (hbody : Guarded P (withItem name body item) fun v _ env' => v.isInvalid = false ∧ P env')
    (hacc : ∀ v ∈ acc, v.isInvalid = false) :
    Guarded P (reduceStep name body op acc item) fun r _ env' =>
      (∃ acc', r = .ok acc' ∧ ∀ v ∈ acc', v.isInvalid = false) ∧ P env' := by
  have hfair : ∀ v, v.isInvalid = false → Fair (fold op acc v) := fun v hv => by
    cases acc with
    | none => exact hv
    | some u => exact fair_binary (hacc u rfl) hv
  have hnext : ∀ v : Value, Moves KeepsLog (if v.isInvalid then pure (.error .invalid)
      else pure (.ok (some v)) : Eval (Except Value (Option Value))) := fun v => by
    split <;> exact moves_pure _
  refine hbody.bind (fun v env env₁ _ ⟨hv, henv⟩ => ?_) fun v => moves_bind (moves_check _) hnext
  refine (guarded_check (hfair v hv)).bind (fun next _ env₂ hst ⟨hvalid, h⟩ => ?_) hnext
  rw [hvalid]
  refine guarded_pure fun env₃ h₃ => ⟨⟨_, rfl, fun w hw => ?_⟩, ?_⟩
  · cases hw
    exact hvalid
  · rw [h₃, h, hst]
    exact henv

/-- **Sums and products** over a range. -/
theorem guarded_reduce (hm : Moves KeepsLog body)
    (hbody : ∀ x, Guarded P (withItem name body (.number x)) fun v _ env' =>
      v.isInvalid = false ∧ P env') (empty : Float) (r : Range) :
    Guarded P (reduce name body op empty (.range r)) fun v _ env' =>
      v.isInvalid = false ∧ P env' := by
  have hrounds : ∀ n, Guarded P (forItems (reduceStep name body op) n (.range r) none)
      fun out _ env' => (∃ acc, out = .ok acc ∧ ∀ v ∈ acc, v.isInvalid = false) ∧ P env' := fun n =>
    guarded_forItems (fun acc x hacc => guarded_reduceStep (hbody x) hacc)
      (fun _ _ => moves_reduceStep hm) n r fun v hv => by cases hv
  intro st hst
  rw [reduce_eq]
  unfold overItems
  generalize (Items.range r).bound = n
  have h := hrounds n st hst
  rcases he : forItems (reduceStep name body op) n (.range r) none st with ⟨out, st'⟩
  rw [he] at h
  rcases h with ⟨hlog, ⟨acc, rfl, hacc⟩, hst'⟩ | hblames
  · refine .inl ⟨hlog, ?_, hst'⟩
    cases acc with
    | none => rfl
    | some v => exact hacc v rfl
  · cases out with
    | ok acc | error v => exact .inr hblames

end Reduce

/-! ## Calls -/

theorem guarded_descend {deeper : Deeper} {call : (Task → Eval Value) → Eval Value}
    {Q : Value → Environment → Environment → Prop}
    (h : ∀ task ∈ deeper, Guarded P (call task) Q) : Guarded P (descend deeper call) Q := by
  cases deeper with
  | none => exact fun st _ => .inr (.report (fun name h => by cases h) st)
  | some task => exact h task rfl

/-- Valid arguments that are as many as there should be lead to the call. -/
theorem guarded_invoke {deeper : Deeper} {name : String} {f : Function} {vs : List Value}
    {Q : Value → Environment → Environment → Prop} (hvs : ∀ v ∈ vs, v.isInvalid = false)
    (h : (∀ k ∈ f.arity, vs.length = k) → Guarded P (descend deeper fun task =>
      match f.callable with
      | .native run => (run vs).perform task
      | .writer run => do return (← (run vs).perform task).getD .void
      | .lazy run => (run (vs.map .constant)).perform task
      | .user params body => callUser task params body vs) Q) :
    Guarded P (invoke deeper name f vs) Q := by
  have hi : vs.any Value.isInvalid = false := List.any_eq_false.2 fun v hv => by simp [hvs v hv]
  unfold invoke
  rw [hi]
  simp only [Bool.false_eq_true, if_false]
  split
  · exact guarded_fail fun n h => by cases h
  · next harity =>
    refine h fun k hk => ?_
    rw [show f.arity = some k from hk] at harity
    by_cases hlen : k = vs.length
    · exact hlen.symm
    · simp [Option.filter, hlen] at harity

/-- A function with a fast path changes nothing, and blames no name. -/
theorem guarded_invoke_plain {name : String} {f : Function} (hm : (name, f) ∈ Catalog.functions)
    (hp : Catalog.hasPlain name) (deeper : Deeper) {vs : List Value}
    (hvs : ∀ v ∈ vs, v.isInvalid = false) : Guarded P (invoke deeper name f vs) fun v env env' =>
      v.isInvalid = false ∧ env' = env := by
  refine guarded_invoke hvs fun harity => guarded_descend fun task _ => ?_
  rcases Catalog.plain_cases hm (Catalog.plain_of_hasPlain hm hp) with ⟨g, hg⟩ | ⟨g, hg⟩
  · obtain rfl : f = (Catalog.unaryMath name g).2 := congrArg Prod.snd hg
    obtain ⟨w, rfl⟩ := List.length_eq_one_iff.1 (harity 1 rfl)
    simp only [Catalog.unaryMath]
    cases hr : w.mapNumbers? g with
    | some v => exact guarded_pure fun env _ => ⟨isInvalid_of_mapNumbers? hr, rfl⟩
    | none => exact fun st _ => .inr (.report (fun name h => by cases h) st)
  · obtain rfl : f = (Catalog.binaryMath name g).2 := congrArg Prod.snd hg
    obtain ⟨w, u, rfl⟩ := List.length_eq_two.1 (harity 2 rfl)
    change Guarded P (Request.perform task (.ofResult (w.zipNumbers name g u))) _
    rw [Value.zipNumbers, hvs w (by simp), hvs u (by simp)]
    have hfair : Fair (Value.arithmetic name g w u) := fair_arithmetic
    change Guarded P (Request.perform task (.ofResult (Value.arithmetic name g w u))) _
    cases hr : Value.arithmetic name g w u with
    | ok v =>
      rw [hr] at hfair
      exact guarded_pure fun env _ => ⟨hfair, rfl⟩
    | error fault =>
      rw [hr] at hfair
      exact fun st _ => .inr (.report hfair st)

/-- **A function of a formula** with as many arguments as parameters. -/
theorem guarded_invoke_user {name : String} {params : List String} {body : Expr} {vs : List Value}
    {Q : Value → Environment → Environment → Prop} (hvs : ∀ v ∈ vs, v.isInvalid = false) {n : Nat}
    (hnil : params = [] → ∀ k, Guarded P (eval (deeperAt k) body) Q)
    (hblock : vs.length = params.length → ∀ k, Guarded P (Eval.inBlock do
      bindAll params vs
      eval (deeperAt k) body) Q) :
    Guarded P (invoke (deeperAt n) name (.user params body) vs) Q := by
  refine guarded_invoke hvs fun harity => guarded_descend fun task htask => ?_
  obtain _ | k := n
  · cases htask
  · cases htask
    change Guarded P (callUser (performAt k) params body vs) Q
    unfold callUser
    rw [performAt_evaluate]
    split
    · next h => exact hnil (List.isEmpty_iff.1 h) k
    · exact hblock (harity _ rfl) k

end Guarded

end FormulaLang
