import FormulaLang.Proofs.Bytecode.Rounds
import FormulaLang.Proofs.Bytecode.Settled
import FormulaLang.Proofs.Engine.Calm
import FormulaLang.Proofs.Engine.Steady

/-!
# Functions during an evaluation

While a formula with settled definitions is evaluated, a name is bound to the function that the
compiler knows for it at the same place of the text. In a branch, a loop or a body the compiler may
be ahead, but only with functions that are the only ones of their names.

* `Agrees`: the functions of an environment are those of the slots.
* `Settles`: an evaluation changes no variable, and the functions as the slots change.
* **`Lowered.settles`**: evaluating a formula.
-/

namespace FormulaLang.Bytecode

open Eval (Moves Silent)
open Slots (Ready Keeps Alike)

variable {σ : Signature} {wide inner : Bool}

/-! ## Functions -/

/-- The function that a definition binds. -/
def Inline.function (f : Inline) : Function := .user f.params f.body

/-- The functions of an environment are those of the slots, or else of the environment at the
beginning. A name with a single definition may be bound to nothing yet, or no longer. -/
structure Agrees (σ : Signature) (base : Environment) (s : Slots) (env : Environment) : Prop where
  free : ∀ name, σ.sole name = none →
    env.function? name = ((s.function? name).map Inline.function).or (base.function? name)
  sole : ∀ name f g, σ.sole name = some f → env.function? name = some g → g = f.function

variable {base env env' : Environment} {s s' s₁ s₂ : Slots} {name : String} {st st' : Engine}

namespace Agrees

/-- The functions at the beginning, none of which the formula defines only once. -/
theorem start (h : ∀ name, σ.sole name ≠ none → base.function? name = none) :
    Agrees σ base {} base := by
  refine ⟨fun name _ => rfl, fun name f g hf hg => ?_⟩
  rw [h name (by simp [hf])] at hg
  cases hg

theorem alike (h : Agrees σ base s env) (ha : s.Alike σ s') : Agrees σ base s' env :=
  ⟨fun name hn => by rw [h.free name hn, ha name hn], h.sole⟩

theorem congr (h : Agrees σ base s env) (hf : ∀ name, env'.function? name = env.function? name) :
    Agrees σ base s env' :=
  ⟨fun name hn => (hf name).trans (h.free name hn), fun name f g hs hg =>
    h.sole name f g hs ((hf name).symm.trans hg)⟩

theorem of_functions (h : Agrees σ base s env) (hf : env'.functions = env.functions) :
    Agrees σ base s env' :=
  h.congr fun name => by rw [Environment.function?, hf, Environment.function?]

/-- What is called where the code puts in a definition is this definition. -/
theorem function?_of_inline (h : Agrees σ base s env) (hs : s.Ready σ wide) {f : Inline}
    (hf : s.function? name = some f) {g : Function} (hg : env.function? name = some g) :
    g = f.function := by
  cases hn : σ.sole name with
  | none =>
    have := h.free name hn
    rw [hf, hg] at this
    exact Option.some.inj this
  | some f' =>
    rw [← (hs.functions name f hf).sole f' hn]
    exact h.sole name f' g hn hg

/-- Where the code puts in a definition, its body is evaluated. -/
theorem eval_inline (h : Agrees σ base s st.env) (hs : s.Ready σ wide) {f : Inline}
    (hf : s.function? name = some f) {deeper : Deeper} {args : List Expr} {v : Value}
    (hv : Silent (eval deeper (.call name args)) st v st') : eval deeper (.call name args) st =
      (evalAll deeper args >>= fun vs => invoke deeper name f.function vs) st := by
  obtain ⟨g, hg⟩ := exists_function_of_silent hv
  obtain rfl := h.function?_of_inline hs hf hg
  rw [eval_call, hg]
  rfl

/-- What is called where the code leaves the call to the catalog is a function of the catalog. -/
theorem function?_of_call (h : Agrees σ base s env)
    (hσ : ∀ name, σ.sole name ≠ none → base.function? name = none)
    (hl : s.function? name = none) {f : Function} (hf : base.function? name = some f) :
    env.function? name = some f := by
  have hn : σ.sole name = none := by
    by_contra hn
    rw [hσ name hn] at hf
    cases hf
  rw [h.free name hn, hl, hf]
  rfl

theorem define {held : List Nat} (h : Agrees σ base s env) (hs : env.Sound held) (f : Inline)
    (hf : ∀ g, σ.sole name = some g → g = f) :
    Agrees σ base (s.define name f) (env.addFunction name f.function) := by
  have hslots : ∀ other, (s.define name f).function? other =
      if other = name then some f else s.function? other := fun other => bound?_cons
  refine ⟨fun other ho => ?_, fun other g k hg hk => ?_⟩
  · rw [hs.function?_addFunction, hslots]
    split
    · rfl
    · exact h.free other ho
  · rw [hs.function?_addFunction] at hk
    split at hk
    · next heq =>
      cases hk
      rw [heq] at hg
      rw [hf g hg]
    · exact h.sole other g k hg hk

end Agrees

/-! ## Evaluations -/

/-- An evaluation without faults changes no variable, and the functions as the slots change. -/
def Settles {α : Type} (σ : Signature) (base : Environment) (held : List Nat) (s s' : Slots)
    (x : Eval α) : Prop :=
  ∀ ⦃st st' v⦄, st.env.Sound held → Agrees σ base s st.env → Silent x st v st' →
    st'.env.Sound held ∧ st.env.Calm st'.env ∧ Agrees σ base s' st'.env

section Settles

variable {α β : Type} {held : List Nat} {x y : Eval α} {f : α → Eval β} {st st' : Engine}

theorem settles_pure (a : α) : Settles σ base held s s (pure a : Eval α) := by
  intro st st' v hs ha h
  obtain ⟨-, rfl⟩ := silent_pure h
  exact ⟨hs, .refl _, ha⟩

theorem settles_fail (f : Fault) : Settles σ base held s s' (Eval.fail f) :=
  fun _ _ _ _ _ h => absurd h not_silent_fail

theorem settles_check (r : Except Fault Value) : Settles σ base held s s (Eval.check r) := by
  intro st st' v hs ha h
  obtain ⟨-, rfl⟩ := silent_check h
  exact ⟨hs, .refl _, ha⟩

theorem Settles.bind (hx : Settles σ base held s s₁ x) (hmx : Moves KeepsFaults x)
    (hf : ∀ a, Settles σ base held s₁ s' (f a)) (hmf : ∀ a, Moves KeepsFaults (f a)) :
    Settles σ base held s s' (x >>= f) := by
  intro st st' v hs ha h
  obtain ⟨a, st₁, h₁, h₂⟩ := silent_bind hmx hmf h
  obtain ⟨hs₁, hc₁, ha₁⟩ := hx hs ha h₁
  obtain ⟨hs₂, hc₂, ha₂⟩ := hf a hs₁ ha₁ h₂
  exact ⟨hs₂, hc₁.trans hc₂, ha₂⟩

theorem Settles.congr (hx : Settles σ base held s s' y)
    (hxy : ∀ ⦃st st' v⦄, Agrees σ base s st.env → Silent x st v st' → x st = y st) :
    Settles σ base held s s' x := by
  intro st st' v hs ha h
  have heq := hxy ha h
  unfold Silent at h
  rw [heq] at h
  exact hx hs ha h

/-- Inside, only names with a single definition are defined. -/
theorem Settles.alike (hx : Settles σ base held s s₁ x) (ha : s₁.Alike σ s') :
    Settles σ base held s s' x := by
  intro st st' v hs hag h
  obtain ⟨hs', hc, hag'⟩ := hx hs hag h
  exact ⟨hs', hc, hag'.alike ha⟩

theorem Settles.of_alike (hx : Settles σ base held s₁ s' x) (ha : s.Alike σ s₁) :
    Settles σ base held s s' x :=
  fun _ _ _ hs hag h => hx hs (hag.alike ha) h

theorem Settles.of_functions {t t' : Slots} (hx : Settles σ base held s s' x)
    (ht : t.functions = s.functions) (ht' : t'.functions = s'.functions) :
    Settles σ base held t t' x :=
  (hx.of_alike (Slots.alike_of_functions ht.symm)).alike (Slots.alike_of_functions ht')

/-- An evaluation between states that are like another one. -/
theorem Settles.within {t : Slots} (hx : Settles σ base held s s' x) (hs : t.Alike σ s)
    (hs' : t.Alike σ s') : Settles σ base held t t x :=
  (hx.of_alike hs).alike hs'.symm

/-- The functions behind a block are those in front of it. -/
theorem agrees_leave (hi : env.Inside env') (hs : env.Sound held) (hs' : env'.Sound held)
    (ha : Agrees σ base s env) :
    env'.leave.Sound held ∧ env.Calm env'.leave ∧ Agrees σ base s env'.leave :=
  ⟨hs'.leave, (hi.leave hs').1, ha.congr (hi.function?_leave hs hs')⟩

/-- The rounds of a loop stay in its block. -/
theorem settles_rounds {z : Eval Value} (hz : Settles σ base held s s z)
    (hmz : Moves KeepsFaults z) {op : BinaryOp} {n : Nat} {items : Items} {acc : Option Value}
    {out : Except Value (Option Value)} (hi : env.Inside st.env) (hs : st.env.Sound held)
    (ha : Agrees σ base s st.env)
    (h : Silent (forItems (reduceStep name z op) n items acc) st out st') :
    env.Inside st'.env ∧ st'.env.Sound held := by
  induction n generalizing items acc st with
  | zero =>
    cases h.1
    exact ⟨hi, hs⟩
  | succ n ih =>
    cases hnext : items.next? with
    | none =>
      obtain ⟨-, rfl⟩ := silent_forItems_of_none hnext h
      exact ⟨hi, hs⟩
    | some p =>
      obtain ⟨item, rest⟩ := p
      obtain ⟨r, st₁, hstep, hrest⟩ := silent_forItems (fun _ _ => moves_reduceStep hmz) hnext h
      obtain ⟨v, next, hbody, -, rfl⟩ := silent_reduceStep hmz hstep
      have hs₀ : (st.onEnv (·.addVariable name item)).env.Sound held := hs.addVariable name item
      have ha₀ := ha.of_functions (st.env.functions_addVariable name item)
      obtain ⟨hs₁, hc₁, ha₁⟩ := hz hs₀ ha₀ hbody
      have hi₁ := (hi.addVariable name item).calm hc₁
      rcases hrest with ⟨acc', -, hrest⟩ | ⟨v', -, -, rfl⟩
      · exact ih hi₁ hs₁ ha₁ hrest
      · exact ⟨hi₁, hs₁⟩

theorem settles_reduce {z : Eval Value} (hz : Settles σ base held s s z)
    (hmz : Moves KeepsFaults z) (op : BinaryOp) (empty : Float) (items : Items) :
    Settles σ base held s s (Eval.inBlock (reduce name z op empty items)) := by
  intro st st' v hs ha h
  obtain ⟨out, st₁, hrounds, henv, -⟩ := silent_reduce h
  have hi : st.env.Inside (st.onEnv .enter).env := .enter hs
  obtain ⟨hi, hs₁⟩ := settles_rounds hz hmz hi hs.enter (ha.of_functions rfl) hrounds
  rw [henv]
  exact agrees_leave hi hs hs₁ ha

end Settles

/-! ## Formulas -/

/-- Evaluating a piece of a formula with calls at most `n` deep. -/
def Piece.Settles (σ : Signature) (base : Environment) (held : List Nat) (n : Nat) (s s' : Slots) :
    Piece → Prop
  | .tree e => Bytecode.Settles σ base held s s' (eval (deeperAt n) e)
  | .args es => Bytecode.Settles σ base held s s' (evalAll (deeperAt n) es)
  | .rest es => ∀ last, Bytecode.Settles σ base held s s' (evalSequence (deeperAt n) es last)
  | .optional _ o => ∀ missing,
      Bytecode.Settles σ base held s s' (evalOr (deeperAt n) missing o)
  | .branches bs o => Bytecode.Settles σ base held s s'
      (evalBranches (deeperAt n) bs (evalOr (deeperAt n) .invalid o))

/-- No function of the environment is called without a fast path. -/
def Direct (code : Code) : Prop := ∀ name n, .call name n ∉ code

instance : DecidablePred Direct := fun code =>
  decidable_of_iff (code.all fun i => !(i matches .call ..)) <| by
    rw [List.all_eq_true]
    refine ⟨fun h name n hm => Bool.false_ne_true (h _ hm), fun h i hi => ?_⟩
    cases i with
    | call name n => exact absurd hi (h name n)
    | _ => rfl

@[simp] theorem direct_nil : Direct [] := fun _ _ => List.not_mem_nil

@[simp] theorem direct_append {code code' : Code} :
    Direct (code ++ code') ↔ Direct code ∧ Direct code' := by
  simp [Direct, forall_and]

@[simp] theorem direct_cons {i : Instruction} {code : Code} :
    Direct (i :: code) ↔ (∀ name n, i ≠ .call name n) ∧ Direct code := by
  simp [Direct, forall_and, eq_comm]

theorem direct_loop {l : LoopSlots} {op : BinaryOp} {seed : Float} {start step stop code : Code} :
    Direct (loopSetup l seed start step stop ++ loopCode l op code) ↔
      Direct start ∧ Direct step ∧ Direct stop ∧ Direct code := by
  simp [loopSetup, loopCode, loopTest, finiteTest, loopAdvance]
  tauto

theorem direct_branch {condition value rest : Code} :
    Direct (branchCode condition value rest) ↔ Direct condition ∧ Direct value ∧ Direct rest := by
  simp [branchCode]

theorem settles_loop {n : Nat} {kind : LoopKind} {op : BinaryOp} {seed : Float} {name : String}
    {a : Expr} {d : Option Expr} {b body : Expr} {held : List Nat}
    (hk : reduction? kind = some (op, seed))
    (ha : Bytecode.Settles σ base held s s (eval (deeperAt n) a))
    (hd : Bytecode.Settles σ base held s s (evalOr (deeperAt n) (.number 1.0) d))
    (hb : Bytecode.Settles σ base held s s (eval (deeperAt n) b))
    (hbody : Bytecode.Settles σ base held s s (eval (deeperAt n) body)) :
    Bytecode.Settles σ base held s s
      (eval (deeperAt n) (.loop kind name (.range a d b) body none)) := by
  intro st st' v hs hag h
  have hm := moves_deeperAt (R := KeepsFaults) n
  obtain ⟨u, w, t, st₁, st₂, st₃, hu, hw, ht, hblock⟩ := silent_loop hm hk h
  obtain ⟨hs₁, hc₁, hag₁⟩ := ha hs hag hu
  obtain ⟨hs₂, hc₂, hag₂⟩ := hd hs₁ hag₁ hw
  obtain ⟨hs₃, hc₃, hag₃⟩ := hb hs₂ hag₂ ht
  have hc := (hc₁.trans hc₂).trans hc₃
  rcases hblock with ⟨-, rfl⟩ | ⟨r, -, hblock⟩
  · exact ⟨hs₃, hc, hag₃⟩
  · obtain ⟨hs', hc', hag'⟩ :=
      settles_reduce hbody (moves_eval hm body) op seed (.range r) hs₃ hag₃ hblock
    exact ⟨hs', hc.trans hc', hag'⟩

theorem Settles.given {held : List Nat} {α : Type} {x : Eval α} (hx : Settles σ base held s s' x)
    (hmx : Moves KeepsFaults x) (C : Engine → Prop) : Settles σ base held s s' (x.given C) :=
  fun _ _ _ hs ha h => hx hs ha ((silent_given hmx).1 h).2

/-- In a call of a function of the formula, the body is evaluated in a block with the parameters. -/
theorem settles_inline {n : Nat} {held : List Nat} {f : Inline} {args : List Expr}
    (hs : s.Ready σ wide) (hf : s.function? name = some f)
    (hargs : Bytecode.Settles σ base held s s₁ (evalAll (deeperAt n) args))
    (hbody : ∀ k, Bytecode.Settles σ base held s₁ s₂ (eval (deeperAt k) f.body))
    (halike : s₁.Alike σ s₂) :
    Bytecode.Settles σ base held s s₂ (eval (deeperAt n) (.call name args)) := by
  have hm := moves_deeperAt (R := KeepsFaults) n
  refine (hargs.bind (moves_evalAll hm args) (fun vs => ?_) (moves_invoke hm name f.function)).congr
    fun st st' v hag h => hag.eval_inline hs hf h
  intro st₁ st' v hs₁ hag₁ hcall
  rcases silent_invoke_user hcall with
    ⟨-, rfl, -⟩ | ⟨-, k, rfl, ⟨-, hcall⟩ | ⟨-, st₂, hcall, henv⟩⟩
  · exact ⟨hs₁, .refl _, hag₁.alike halike⟩
  · exact hbody k hs₁ hag₁ hcall
  · have hin := (Environment.Inside.enter hs₁).addVariables (f.params.zip vs)
    have hsin := hs₁.enter.addVariables (f.params.zip vs)
    have hfun := st₁.env.enter.functions_addVariables (f.params.zip vs)
    obtain ⟨hs₂, hc₂, -⟩ := hbody k hsin (hag₁.of_functions hfun) hcall
    obtain ⟨hs', hc', hag'⟩ := agrees_leave (hin.calm hc₂) hs₁ hs₂ hag₁
    rw [henv]
    exact ⟨hs', hc', hag'.alike halike⟩

instance : Engine.Records fun st st' => st'.env = st.env where
  refl _ := rfl
  trans h h' := h'.trans h
  note _ _ := rfl

/-- A call of a function of the catalog with a fast path. -/
theorem settles_call {n : Nat} {held : List Nat} {f : Function} {args : List Expr}
    (hm : (name, f) ∈ Catalog.functions) (hp : Catalog.hasPlain name)
    (hf : ∀ st : Engine, Agrees σ base s st.env → st.env.function? name = some f)
    (hargs : Bytecode.Settles σ base held s s' (evalAll (deeperAt n) args)) :
    Bytecode.Settles σ base held s s' (eval (deeperAt n) (.call name args)) := by
  refine (hargs.bind (moves_evalAll (moves_deeperAt n) args) (fun vs => ?_) fun vs =>
    moves_invoke (moves_deeperAt n) name f vs).congr fun st _ _ hag _ =>
      Catalog.eval_call hm hp (hf st hag) args
  intro st st' v hs hag h
  have henv : (invoke (deeperAt n) name f vs st).2.env = st.env :=
    moves_invoke_plain (R := fun st st' => st'.env = st.env) hp hm vs st
  rw [h.1] at henv
  rw [henv]
  exact ⟨hs, .refl _, hag⟩

/-- **Evaluating a formula with settled definitions** changes no variable, and the functions as
lowering it changes the slots. -/
theorem Lowered.settles {held : List Nat} (hcat : base.FastCatalogued)
    (hσ : ∀ name, σ.sole name ≠ none → base.function? name = none) {p : Piece} {code : Code}
    (h : Lowered base p s code s') (hp : p.resolved σ wide inner) (hs : s.Ready σ wide)
    (hdirect : Direct code) (n : Nat) : p.Settles σ base held n s s' := by
  have hm := moves_deeperAt (R := KeepsFaults)
  induction h generalizing inner n with
  | number | bool | empty | noArgs => exact settles_pure _
  | slot | cell =>
    intro st st' v hsound hag h
    obtain ⟨rfl, -⟩ := silent_var h
    exact ⟨hsound, .refl _, hag⟩
  | operation h hes ih =>
    have hes := ih (resolvedAll_of_operation h hp) hs (direct_append.1 hdirect).1 n
    refine (Settles.bind hes (moves_evalAll (hm n) _) (fun vs => settles_check _) fun vs =>
      moves_check _).congr fun st _ _ _ _ => by rw [eval_operation h]
  | assign => exact hp.elim
  | cases h ih =>
    exact Settles.congr (ih (resolved_branches hp) hs hdirect n) fun st _ _ _ _ => by rw [eval]
  | @loop s s₁ s₂ s₃ s₄ kind op seed name a d b body default start step stop code hk hb hd ha hbody
      ihb ihd iha ihbody =>
    obtain ⟨-, rfl, hpa, hpd, hpb, hpbody⟩ := Expr.resolved_loop hp
    obtain ⟨hdira, hdird, hdirb, hdirbody⟩ := direct_loop.1 hdirect
    have hst := Lowered.stages hb hd ha hbody hpa hpd hpb hpbody hs
    have h₁ := hst.keeps₁.alike rfl
    have h₂ := hst.keeps₂.alike rfl
    have h₃ := hst.keeps₃.alike rfl
    have h₄ := hst.keeps.alike rfl
    have hstop := ihb hpb hs.fresh hdirb n
    have hstep := ihd (resolved_step hpd _) hst.ready₁.fresh hdird n (.number 1.0)
    have hstart := iha hpa hst.ready₂ hdira n
    have hround := ihbody hpbody hst.readyBody hdirbody n
    -- The parts are evaluated in another order than the code has them.
    exact (settles_loop hk (Settles.within hstart h₂ h₃) (Settles.within hstep h₁ h₂)
      (Settles.within hstop (.refl s) h₁) (Settles.within hround h₃ h₄)).alike h₄
  | @sequence s s₁ s₂ e es first rest he hes ihe ihes =>
    have hdir := direct_append.1 hdirect
    have he' := ihe hp.1 hs hdir.1 n
    have hes' := ihes hp.2 ((he.keeps hp.1 hs).ready hs) hdir.2 n
    exact (Settles.bind he' (moves_eval (hm n) e) hes' fun v =>
      moves_evalSequence (hm n) es v).congr fun st _ _ _ _ => by rw [eval, evalSequence]
  | @define s name params body =>
    intro st st' v hsound hag h
    obtain rfl : st' = st.onEnv (·.addFunction name (.user params body)) :=
      (congrArg Prod.snd h.1).symm
    exact ⟨hsound.addFunction name _, .addFunction _ name _, hag.define hsound _ hp.2.2.1⟩
  | @inline s s₁ s₂ s₃ name args f code body hf hb hn hargs hbody ihargs ihbody =>
    have hdir := direct_append.1 hdirect
    obtain ⟨active, rfl⟩ := Slots.exists_of_beginCall? hb
    have hs₁ : Ready σ wide { s with active } := hs.of_scope rfl hs.bounded rfl
    have hs₂ := (hargs.keeps hp.1 hs₁).ready hs₁
    have hpbody := (hs.functions name f hf).body
    have hkbody := hbody.keeps hpbody (hs₂.pushAll f.params)
    exact settles_inline hs hf
      ((ihargs hp.1 hs₁ (direct_append.1 hdir.1).1 n).of_alike (Slots.alike_of_functions rfl))
      (fun k => Settles.of_functions (ihbody hpbody (hs₂.pushAll f.params) hdir.2 k) rfl rfl)
      (hkbody.alike rfl)
  | @call s s' name args f code hl hf hn hargs ih =>
    have hdir := direct_append.1 hdirect
    have hcall := (direct_cons.1 hdir.2).1
    have hm := hcat.mem_functions hf hcall
    exact settles_call hm (Catalog.hasPlain_of_callInstruction hm hcall)
      (fun st hag => hag.function?_of_call hσ hl hf) (ih hp.1 hs hdir.1 n)
  | @consArg s s₁ s₂ e es first rest he hes ihe ihes =>
    have hdir := direct_append.1 hdirect
    have he' := ihe hp.1 hs hdir.1 n
    have hes' := ihes hp.2 ((he.keeps hp.1 hs).ready hs) hdir.2 n
    refine (Settles.bind he' (moves_eval (hm n) e) (fun v => ?_) fun v =>
      moves_bind (moves_evalAll (hm n) es) fun vs => moves_pure (v :: vs)).congr
        fun st _ _ _ _ => by rw [evalAll]
    exact Settles.bind hes' (moves_evalAll (hm n) es) (fun vs => settles_pure _) fun vs =>
      moves_pure _
  | noRest => exact fun last => settles_pure _
  | @consRest s s₁ s₂ e es first rest he hes ihe ihes =>
    intro last
    have hdir := direct_append.1 hdirect
    have he' := ihe hp.1 hs (direct_cons.1 hdir.1).2 n
    have hes' := ihes hp.2 ((he.keeps hp.1 hs).ready hs) hdir.2 n
    exact (Settles.bind he' (moves_eval (hm n) e) hes' fun v =>
      moves_evalSequence (hm n) es v).congr fun st _ _ _ _ => by rw [evalSequence]
  | missing => exact fun missing => settles_pure _
  | present he ih =>
    exact fun _ => Settles.congr (ih (hp.2 _ rfl) hs hdirect n) fun st _ _ _ _ => by rw [evalOr]
  | otherwise h ih =>
    exact Settles.congr (ih (resolved_otherwise hp) hs hdirect n .invalid)
      fun st _ _ _ _ => by rw [evalBranches]
  | @branch s s₁ s₂ s₃ c e bs o condition value rest hc he hbs ihc ihe ihbs =>
    obtain ⟨hpc, hpe, hrest⟩ := resolved_rest hp
    obtain ⟨hdirc, hdire, hdirbs⟩ := direct_branch.1 hdirect
    have hs₁ := (hc.keeps hpc hs).ready hs
    have hke := he.keeps hpe hs₁
    have hs₂ := hke.ready hs₁
    have h₂ : s₁.Alike σ s₂ := hke.alike rfl
    have h₃ : s₂.Alike σ s₃ := (hbs.keeps hrest hs₂).alike rfl
    have hc' := ihc hpc hs hdirc n
    have he' := (ihe hpe hs₁ hdire n).alike h₃
    have hbs' := (ihbs hrest hs₂ hdirbs n).of_alike h₂
    refine Settles.bind hc' (moves_eval (hm n) c) (fun v => ?_) fun v => ?_
    · split
      · exact he'
      · exact hbs'
      · split
        · exact (settles_pure _).alike (h₂.trans h₃)
        · exact settles_fail _
    · split
      · exact moves_eval (hm n) e
      · exact moves_evalBranches (hm n) bs _ (moves_evalOr (hm n) .invalid o)
      · split
        · exact moves_pure _
        · exact moves_fail _

end FormulaLang.Bytecode
