import FormulaLang.Proofs.Bytecode.Lowering
import FormulaLang.Proofs.Expr.Calls

/-!
# Compiling ends

The rules of `Lowered` say how trees are compiled, and the rules of `Fails` how they are refused.
Neither says how deep calls are put in. Every tree is compiled or refused by a derivation: in a call
that is put in, one more of the functions that the formula defines is in progress, and everywhere
else the trees get smaller.

* `Fails`: the rules of refusal.
* `Slots.Standing`, **`Lowered.standing`**: the functions in the slots are definitions in the
  formula, and the same calls are in progress behind a piece as in front of it.
* `InProgress`: functions of the formula whose calls are in progress, which leaves calls for all
  others.
* `fails_of_lowerAt`, **`compile_ends`**: what is compiled and what is refused.
-/

namespace FormulaLang.Bytecode

open FormulaLang.Expr (Within within_of_mem_parts)

/-! ## Refusal by rules -/

/-- The trees of some forms have code as long as their parts have. -/
def hasCode : Expr → Bool
  | .constant (.number _) | .constant (.bool _) | .var _ | .assign .. | .cases .. | .sequence _
  | .define .. | .call .. => true
  | .loop kind _ (.range ..) _ _ => (reduction? kind).isSome
  | e => (operation? e).isSome

section Rules

variable (env : Environment)

/-- The fault with which a piece is refused. The pieces in front of the one to blame are lowered. -/
inductive Fails : Piece → Slots → Fault → Prop where
  | variable {s : Slots} {name : String} {f : Fault} (h : s.lookup? name = none)
      (hc : globalCell env name = .error f) : Fails (.tree (.var name)) s f
  | operation {s : Slots} {e : Expr} {es : List Expr} {i : Instruction} {f : Fault}
      (h : operation? e = some (es, i)) (hes : Fails (.args es) s f) : Fails (.tree e) s f
  | value {s : Slots} {name : String} {e : Expr} {f : Fault} (he : Fails (.tree e) s f) :
      Fails (.tree (.assign name e)) s f
  | target {s s₁ : Slots} {name : String} {e : Expr} {code : Code} {f : Fault}
      (he : Lowered env (.tree e) s code s₁) (h : s₁.lookup? name = none)
      (hv : env.hasVariable name) (hc : globalCell env name = .error f) :
      Fails (.tree (.assign name e)) s f
  | cases {s : Slots} {bs : List (Expr × Expr)} {otherwise : Option Expr} {f : Fault}
      (h : Fails (.branches bs otherwise) s f) : Fails (.tree (.cases bs otherwise)) s f
  | stop {s : Slots} {kind : LoopKind} {op : BinaryOp} {seed : Float} {name : String} {a : Expr}
      {d : Option Expr} {b body : Expr} {default : Option Expr} {f : Fault}
      (hk : reduction? kind = some (op, seed)) (hb : Fails (.tree b) s.fresh.2 f) :
      Fails (.tree (.loop kind name (.range a d b) body default)) s f
  | step {s s₁ : Slots} {kind : LoopKind} {op : BinaryOp} {seed : Float} {name : String} {a : Expr}
      {d : Option Expr} {b body : Expr} {default : Option Expr} {stop : Code} {f : Fault}
      (hk : reduction? kind = some (op, seed)) (hb : Lowered env (.tree b) s.fresh.2 stop s₁)
      (hd : Fails (.optional [.constant 1.0] d) s₁.fresh.2 f) :
      Fails (.tree (.loop kind name (.range a d b) body default)) s f
  | start {s s₁ s₂ : Slots} {kind : LoopKind} {op : BinaryOp} {seed : Float} {name : String}
      {a : Expr} {d : Option Expr} {b body : Expr} {default : Option Expr} {stop step : Code}
      {f : Fault} (hk : reduction? kind = some (op, seed))
      (hb : Lowered env (.tree b) s.fresh.2 stop s₁)
      (hd : Lowered env (.optional [.constant 1.0] d) s₁.fresh.2 step s₂)
      (ha : Fails (.tree a) s₂ f) :
      Fails (.tree (.loop kind name (.range a d b) body default)) s f
  | body {s s₁ s₂ s₃ : Slots} {kind : LoopKind} {op : BinaryOp} {seed : Float} {name : String}
      {a : Expr} {d : Option Expr} {b body : Expr} {default : Option Expr} {stop step start : Code}
      {f : Fault} (hk : reduction? kind = some (op, seed))
      (hb : Lowered env (.tree b) s.fresh.2 stop s₁)
      (hd : Lowered env (.optional [.constant 1.0] d) s₁.fresh.2 step s₂)
      (ha : Lowered env (.tree a) s₂ start s₃)
      (hbody : Fails (.tree body) (s₃.push name).2.fresh.2 f) :
      Fails (.tree (.loop kind name (.range a d b) body default)) s f
  | first {s : Slots} {e : Expr} {es : List Expr} {f : Fault} (he : Fails (.tree e) s f) :
      Fails (.tree (.sequence (e :: es))) s f
  | later {s s₁ : Slots} {e : Expr} {es : List Expr} {code : Code} {f : Fault}
      (he : Lowered env (.tree e) s code s₁) (hes : Fails (.rest es) s₁ f) :
      Fails (.tree (.sequence (e :: es))) s f
  | recursive {s : Slots} {name : String} {args : List Expr} {f : Inline}
      (hf : s.function? name = some f) (hb : s.beginCall? name = none) :
      Fails (.tree (.call name args)) s (.recursiveCall name)
  | inlineCount {s s₁ : Slots} {name : String} {args : List Expr} {f : Inline}
      (hf : s.function? name = some f) (hb : s.beginCall? name = some s₁)
      (hn : args.length ≠ f.params.length) :
      Fails (.tree (.call name args)) s (.wrongArgumentCount name f.params.length args.length)
  | inlineArgs {s s₁ : Slots} {name : String} {args : List Expr} {f : Inline} {fault : Fault}
      (hf : s.function? name = some f) (hb : s.beginCall? name = some s₁)
      (hn : args.length = f.params.length) (hargs : Fails (.args args) s₁ fault) :
      Fails (.tree (.call name args)) s fault
  | inlineBody {s s₁ s₂ : Slots} {name : String} {args : List Expr} {f : Inline} {code : Code}
      {fault : Fault} (hf : s.function? name = some f) (hb : s.beginCall? name = some s₁)
      (hn : args.length = f.params.length) (hargs : Lowered env (.args args) s₁ code s₂)
      (hbody : Fails (.tree f.body) (s₂.pushAll f.params) fault) :
      Fails (.tree (.call name args)) s fault
  | undefined {s : Slots} {name : String} {args : List Expr} (hl : s.function? name = none)
      (hf : env.function? name = none) :
      Fails (.tree (.call name args)) s (.undefinedFunction name)
  | callCount {s : Slots} {name : String} {args : List Expr} {f : Function} {n : Nat}
      (hl : s.function? name = none) (hf : env.function? name = some f) (ha : f.arity = some n)
      (hn : args.length ≠ n) :
      Fails (.tree (.call name args)) s (.wrongArgumentCount name n args.length)
  | callArgs {s : Slots} {name : String} {args : List Expr} {f : Function} {fault : Fault}
      (hl : s.function? name = none) (hf : env.function? name = some f)
      (hn : checkArity name f.arity args.length = .ok ()) (hargs : Fails (.args args) s fault) :
      Fails (.tree (.call name args)) s fault
  | unsupported {s : Slots} {e : Expr} (h : hasCode e = false) :
      Fails (.tree e) s (.unsupported e.form)
  | firstArg {s : Slots} {e : Expr} {es : List Expr} {f : Fault} (he : Fails (.tree e) s f) :
      Fails (.args (e :: es)) s f
  | laterArg {s s₁ : Slots} {e : Expr} {es : List Expr} {code : Code} {f : Fault}
      (he : Lowered env (.tree e) s code s₁) (hes : Fails (.args es) s₁ f) :
      Fails (.args (e :: es)) s f
  | firstRest {s : Slots} {e : Expr} {es : List Expr} {f : Fault} (he : Fails (.tree e) s f) :
      Fails (.rest (e :: es)) s f
  | laterRest {s s₁ : Slots} {e : Expr} {es : List Expr} {code : Code} {f : Fault}
      (he : Lowered env (.tree e) s code s₁) (hes : Fails (.rest es) s₁ f) :
      Fails (.rest (e :: es)) s f
  | present {s : Slots} {missing : Code} {e : Expr} {f : Fault} (he : Fails (.tree e) s f) :
      Fails (.optional missing (some e)) s f
  | otherwise {s : Slots} {o : Option Expr} {f : Fault} (h : Fails (.optional noValue o) s f) :
      Fails (.branches [] o) s f
  | condition {s : Slots} {c e : Expr} {bs : List (Expr × Expr)} {o : Option Expr} {f : Fault}
      (hc : Fails (.tree c) s f) : Fails (.branches ((c, e) :: bs) o) s f
  | branch {s s₁ : Slots} {c e : Expr} {bs : List (Expr × Expr)} {o : Option Expr}
      {condition : Code} {f : Fault} (hc : Lowered env (.tree c) s condition s₁)
      (he : Fails (.tree e) s₁ f) : Fails (.branches ((c, e) :: bs) o) s f
  | laterBranch {s s₁ s₂ : Slots} {c e : Expr} {bs : List (Expr × Expr)} {o : Option Expr}
      {condition value : Code} {f : Fault} (hc : Lowered env (.tree c) s condition s₁)
      (he : Lowered env (.tree e) s₁ value s₂) (hbs : Fails (.branches bs o) s₂ f) :
      Fails (.branches ((c, e) :: bs) o) s f

end Rules

/-! ## What stands in the slots -/

/-- The trees of a piece. -/
def Piece.trees : Piece → List Expr
  | .tree e => [e]
  | .args es | .rest es => es
  | .optional _ e => e.toList
  | .branches bs otherwise => bs.flatMap (fun b => [b.1, b.2]) ++ otherwise.toList

/-- All trees of a piece stand in a formula. -/
def Piece.Within (top : Expr) (p : Piece) : Prop := ∀ e ∈ p.trees, e.Within top

section Within

variable {top e c : Expr} {es : List Expr} {bs : List (Expr × Expr)} {o : Option Expr}
  {missing : Code}

@[simp] theorem within_tree : (Piece.tree e).Within top ↔ e.Within top := by
  simp [Piece.Within, Piece.trees]

@[simp] theorem within_args_cons :
    (Piece.args (e :: es)).Within top ↔ e.Within top ∧ (Piece.args es).Within top :=
  List.forall_mem_cons

@[simp] theorem within_rest_cons :
    (Piece.rest (e :: es)).Within top ↔ e.Within top ∧ (Piece.rest es).Within top :=
  List.forall_mem_cons

@[simp] theorem within_optional_some :
    (Piece.optional missing (some e)).Within top ↔ e.Within top := by
  simp [Piece.Within, Piece.trees]

@[simp] theorem within_branches_nil :
    (Piece.branches [] o).Within top ↔ (Piece.optional missing o).Within top := Iff.rfl

@[simp] theorem within_branches_cons : (Piece.branches ((c, e) :: bs) o).Within top ↔
    c.Within top ∧ e.Within top ∧ (Piece.branches bs o).Within top := by
  simp [Piece.Within, Piece.trees]

end Within

section Parts

variable {top e : Expr} {es : List Expr} {name : String}

theorem within_parts {p : Piece} (h : e.Within top) (hp : p.trees ⊆ e.parts) : p.Within top :=
  fun _ ht => (within_of_mem_parts (hp ht)).trans h

theorem within_operation {i : Instruction} (h : e.Within top) (ho : operation? e = some (es, i)) :
    (Piece.args es).Within top := by
  unfold operation? at ho
  split at ho <;> cases ho <;> exact within_parts h (List.Subset.refl _)

/-- The bounds and the body of a loop. -/
theorem within_loop {kind : LoopKind} {a : Expr} {d : Option Expr} {b body : Expr}
    {default : Option Expr} {missing : Code}
    (h : (Expr.loop kind name (.range a d b) body default).Within top) :
    a.Within top ∧ (Piece.optional missing d).Within top ∧ b.Within top ∧ body.Within top := by
  have hpart : ∀ p ∈ (Expr.loop kind name (.range a d b) body default).parts, p.Within top :=
    fun p hp => (within_of_mem_parts hp).trans h
  simp only [Expr.parts, LoopSource.parts, List.mem_cons, List.mem_append, List.not_mem_nil,
    or_false, Option.mem_toList] at hpart
  exact ⟨hpart a (by simp), fun p hp => hpart p (by simp [Option.mem_toList.1 hp]),
    hpart b (by simp), hpart body (by simp)⟩

end Parts

/-- The functions in the slots are definitions in a formula, and some calls are in progress. -/
structure Slots.Standing (top : Expr) (active : List String) (s : Slots) : Prop where
  functions : ∀ b ∈ s.functions, (Expr.define b.1 b.2.params b.2.body).Within top
  active : s.active = active

section Standing

variable {env : Environment} {top : Expr} {active : List String} {s s' : Slots} {name : String}

theorem standing_empty (top : Expr) : ({} : Slots).Standing top [] := ⟨nofun, rfl⟩

theorem Slots.Standing.of_functions (h : s.Standing top active) (hf : s'.functions = s.functions)
    (ha : s'.active = s.active) : s'.Standing top active :=
  ⟨hf ▸ h.functions, ha.trans h.active⟩

theorem Slots.Standing.define (h : s.Standing top active) {params : List String} {body : Expr}
    (hw : (Expr.define name params body).Within top) :
    (s.define name ⟨params, body⟩).Standing top active :=
  ⟨List.forall_mem_cons.2 ⟨hw, h.functions⟩, h.active⟩

theorem Slots.Standing.within_function (h : s.Standing top active) {f : Inline}
    (hf : s.function? name = some f) : (Expr.define name f.params f.body).Within top := by
  obtain ⟨⟨name', f⟩, hb, rfl⟩ := Option.map_eq_some_iff.1 hf
  obtain rfl : name' = name := by simpa using List.find?_some hb
  exact h.functions _ (List.mem_of_find?_eq_some hb)

theorem Slots.beginCall?_eq_none : s.beginCall? name = none ↔ name ∈ s.active := by
  unfold beginCall?
  split <;> simp_all

theorem Slots.Standing.beginCall (h : s.Standing top active) (hb : s.beginCall? name = some s') :
    s'.Standing top (name :: active) := by
  unfold beginCall? at hb
  split at hb
  · cases hb
  · cases hb
    exact ⟨h.functions, congrArg _ h.active⟩

theorem Slots.Standing.endCall (h : s.Standing top (name :: active)) :
    s.endCall.Standing top active :=
  ⟨h.functions, by rw [Slots.endCall, h.active]; rfl⟩

theorem Written.calls {i : Instruction} (h : Written env name s i s') :
    s'.functions = s.functions ∧ s'.active = s.active := by
  cases h with
  | slot _ | cell _ _ _ => exact ⟨rfl, rfl⟩
  | temporary _ _ =>
    unfold Slots.temporary
    split <;> exact ⟨rfl, rfl⟩

/-- **Behind a piece the same calls are in progress** as in front of it. -/
theorem Lowered.standing {p : Piece} {code : Code} (h : Lowered env p s code s')
    (hp : p.Within top) (hs : s.Standing top active) : s'.Standing top active := by
  induction h generalizing active with
  | number _ | bool _ | slot _ | cell _ _ | empty | noArgs | noRest | missing _ => exact hs
  | operation ho _ ih => exact ih (within_operation (within_tree.1 hp) ho) hs
  | assign _ hw ih =>
    obtain ⟨hf, ha⟩ := hw.calls
    exact (ih (within_parts (within_tree.1 hp) (List.Subset.refl _)) hs).of_functions hf ha
  | cases _ ih => exact ih (within_parts (within_tree.1 hp) (List.Subset.refl _)) hs
  | loop hk _ _ _ _ ihb ihd iha ihbody =>
    obtain ⟨ha, hd, hb, hbody⟩ := within_loop (within_tree.1 hp)
    have hs₁ := ihb (within_tree.2 hb) (hs.of_functions rfl rfl)
    have hs₂ := ihd hd (hs₁.of_functions rfl rfl)
    have hs₃ := iha (within_tree.2 ha) hs₂
    exact (ihbody (within_tree.2 hbody) (hs₃.of_functions rfl rfl)).of_functions rfl rfl
  | sequence _ _ ihe ihes =>
    have hparts : (Piece.args (_ :: _)).Within top :=
      within_parts (within_tree.1 hp) (List.Subset.refl _)
    obtain ⟨he, hes⟩ := within_args_cons.1 hparts
    exact ihes hes (ihe (within_tree.2 he) hs)
  | define name params body => exact hs.define (within_tree.1 hp)
  | inline hf hb _ _ _ ihargs ihbody =>
    have hargs := ihargs (within_parts (within_tree.1 hp) (List.Subset.refl _)) (hs.beginCall hb)
    have hbody := (within_of_mem_parts (List.mem_singleton_self _)).trans (hs.within_function hf)
    have hs₃ := ihbody (within_tree.2 hbody) (hargs.of_functions rfl rfl)
    exact hs₃.endCall.of_functions rfl rfl
  | call _ _ _ _ ih => exact ih (within_parts (within_tree.1 hp) (List.Subset.refl _)) hs
  | consArg _ _ ihe ihes =>
    obtain ⟨he, hes⟩ := within_args_cons.1 hp
    exact ihes hes (ihe (within_tree.2 he) hs)
  | consRest _ _ ihe ihes =>
    obtain ⟨he, hes⟩ := within_rest_cons.1 hp
    exact ihes hes (ihe (within_tree.2 he) hs)
  | present _ ih => exact ih (within_tree.2 (within_optional_some.1 hp)) hs
  | otherwise _ ih => exact ih (within_branches_nil.1 hp) hs
  | branch _ _ _ ihc ihe ihbs =>
    obtain ⟨hc, he, hbs⟩ := within_branches_cons.1 hp
    exact ihbs hbs (ihe (within_tree.2 he) (ihc (within_tree.2 hc) hs))

end Standing

/-! ## Calls in progress -/

/-- Calls of these functions are in progress, and `n` more can be put in: enough for a call of each
other function of the formula. -/
structure InProgress (top : Expr) (n : Nat) (active : List String) : Prop where
  nodup : active.Nodup
  defined : ∀ name ∈ active, ∃ params body, (Expr.define name params body).Within top
  left : definitions top ≤ n + active.length

namespace InProgress

variable {top : Expr} {m n : Nat} {active : List String} {name : String}

theorem mono (h : InProgress top m active) (hmn : m ≤ n) : InProgress top n active :=
  ⟨h.nodup, h.defined, Nat.le_trans h.left (Nat.add_le_add_right hmn _)⟩

theorem start (top : Expr) : InProgress top (definitions top) [] :=
  ⟨List.nodup_nil, nofun, Nat.le_refl _⟩

/-- A function whose call is not in progress can be called: no more functions are in progress then
than are defined. -/
theorem call (h : InProgress top n active) (hn : name ∉ active) {params : List String}
    {body : Expr} (hd : (Expr.define name params body).Within top) :
    ∃ m, n = m + 1 ∧ InProgress top m (name :: active) := by
  have hnodup : (name :: active).Nodup := List.nodup_cons.2 ⟨hn, h.nodup⟩
  have hdefined : ∀ name' ∈ name :: active, ∃ params body,
      (Expr.define name' params body).Within top :=
    List.forall_mem_cons.2 ⟨⟨params, body, hd⟩, h.defined⟩
  obtain ⟨names, hlength, hnames⟩ := Expr.exists_definedNames top
  have hsubset : name :: active ⊆ names := by
    intro name' hname'
    obtain ⟨params, body, hd⟩ := hdefined name' hname'
    exact hnames name' params body hd
  have hle := hnodup.length_le_of_subset hsubset
  have hleft := h.left
  rw [List.length_cons] at hle
  exact ⟨n - 1, by omega, hnodup, hdefined, by rw [List.length_cons]; omega⟩

end InProgress

/-! ## What is refused is refused by the rules -/

section Runs

variable {α β : Type} {s : Slots} {f f' : Fault}

theorem run_bind_eq_error {x : Lower α} {g : α → Lower β} : (x >>= g).run s = .error f ↔
    x.run s = .error f ∨ ∃ a s₁, x.run s = .ok (a, s₁) ∧ (g a).run s₁ = .error f := by
  rw [StateT.run_bind]
  cases hx : x.run s with
  | error f' =>
    show (Except.error f' : Except Fault (β × Slots)) = .error f ↔ _
    simp
  | ok p =>
    refine ⟨fun h => .inr ⟨p.1, p.2, rfl, h⟩, fun h => ?_⟩
    rcases h with h | ⟨a, s₁, ha, hg⟩
    · cases h
    · cases ha
      exact hg

theorem run_pure_eq_error {a : α} : (pure a : Lower α).run s = .error f ↔ False :=
  ⟨fun h => (by cases h), False.elim⟩

theorem run_get_eq_error : (get : Lower Slots).run s = .error f ↔ False :=
  ⟨fun h => (by cases h), False.elim⟩

theorem run_set_eq_error {t : Slots} : (set t : Lower PUnit).run s = .error f ↔ False :=
  ⟨fun h => (by cases h), False.elim⟩

theorem run_modify_eq_error {g : Slots → Slots} :
    (modify g : Lower PUnit).run s = .error f ↔ False :=
  ⟨fun h => (by cases h), False.elim⟩

theorem run_modifyGet_eq_error {g : Slots → α × Slots} :
    (modifyGet g : Lower α).run s = .error f ↔ False :=
  ⟨fun h => (by cases h), False.elim⟩

theorem run_throw_eq_error : (throw f : Lower α).run s = .error f' ↔ f = f' :=
  ⟨fun h => (by cases h; rfl), fun h => h ▸ rfl⟩

theorem run_lift_eq_error {x : Except Fault α} :
    (liftM x : Lower α).run s = .error f ↔ x = .error f := by
  cases x with
  | error f' => exact ⟨fun h => (by cases h; rfl), fun h => (by cases h; rfl)⟩
  | ok a => exact ⟨fun h => (by cases h), fun h => (by cases h)⟩

theorem run_pushAll_eq_error {names : List String} : (pushAll names).run s = .error f ↔ False := by
  induction names generalizing s with
  | nil => exact run_pure_eq_error
  | cons name names ih =>
    simp only [pushAll, run_bind_eq_error, run_modifyGet_eq_error, run_pure_eq_error, ih]
    simp

theorem run_popAll_eq_error {n : Nat} : (popAll n).run s = .error f ↔ False := by
  induction n generalizing s with
  | zero => exact run_pure_eq_error
  | succ n ih => simp [popAll, ih]

theorem checkArity_eq_error {name : String} {expected : Option Nat} {found : Nat} :
    checkArity name expected found = .error f ↔
      ∃ n, expected = some n ∧ found ≠ n ∧ f = .wrongArgumentCount name n found := by
  cases expected with
  | none => simp [checkArity]
  | some n =>
    by_cases h : n = found
    · simp [checkArity, Option.filter, h]
    · simp [checkArity, Option.filter, h, Ne.symm h, eq_comm]

end Runs

section Pieces

variable {env : Environment} {deeper : BodyLowering} {top : Expr} {n : Nat}

variable (env top n) in
/-- When the computation fails, the piece is refused by the rules. -/
def Refuses (p : Piece) (x : Lower Code) : Prop :=
  p.Within top → ∀ active, InProgress top n active → ∀ s : Slots, s.Standing top active → ∀ f,
    x.run s = .error f → Fails env p s f

theorem refuses_readName (name : String) :
    Refuses env top n (.tree (.var name)) (readName env name) := by
  intro _ active _ s _ f h
  simp only [readName, run_bind_eq_error, run_get_eq_error, run_get_eq_ok, false_or] at h
  obtain ⟨t, s₁, ⟨rfl, rfl⟩, h⟩ := h
  split at h
  · exact (run_pure_eq_error.1 h).elim
  · next hs =>
    simp only [run_bind_eq_error, run_lift_eq_error, run_pure_eq_error, and_false, exists_false,
      or_false] at h
    exact .variable hs h

theorem refuses_assign {name : String} {e : Expr} {x : Lower Code}
    (hx : ∀ s code s', x.run s = .ok (code, s') → Lowered env (.tree e) s code s')
    (hxf : Refuses env top n (.tree e) x) :
    Refuses env top n (.tree (.assign name e)) (do
      let code ← x
      let write ← writeName env name
      return code ++ .dup :: write) := by
  intro hp active ha s hs f h
  have he : (Piece.tree e).Within top := within_parts (within_tree.1 hp) (List.Subset.refl _)
  simp only [run_bind_eq_error, run_pure_eq_error, and_false, exists_false, or_false] at h
  rcases h with h | ⟨code, s₁, hc, h⟩
  · exact .value (hxf he active ha s hs f h)
  · simp only [writeName, run_bind_eq_error, run_get_eq_error, run_get_eq_ok, false_or] at h
    obtain ⟨t, s₂, ⟨rfl, rfl⟩, h⟩ := h
    split at h
    · exact (run_pure_eq_error.1 h).elim
    · next hl =>
      split at h
      · next hv =>
        simp only [run_bind_eq_error, run_lift_eq_error, run_pure_eq_error, and_false,
          exists_false, or_false] at h
        exact .target (hx _ _ _ hc) hl hv h
      · simp only [run_bind_eq_error, run_modifyGet_eq_error, run_pure_eq_error, and_false,
          exists_false, or_false] at h

theorem refuses_inlineCall {name : String} {args : List Expr} {argCode : Lower Code}
    (hbody : ∀ m, n = m + 1 → ∃ body ∈ deeper, ∀ e, Refuses env top m (.tree e) (body e))
    (hargs : ∀ s code s', argCode.run s = .ok (code, s') → Lowered env (.args args) s code s')
    (hargsf : Refuses env top n (.args args) argCode) {active : List String}
    (hp : (Piece.tree (.call name args)).Within top) (ha : InProgress top n active) {s : Slots}
    (hs : s.Standing top active) {f : Inline} (hf : s.function? name = some f) {fault : Fault}
    (h : (inlineCall deeper name f argCode args.length).run s = .error fault) :
    Fails env (.tree (.call name args)) s fault := by
  have hdefine := hs.within_function hf
  simp only [inlineCall, run_bind_eq_error, run_get_eq_error, run_get_eq_ok, false_or] at h
  obtain ⟨t, s₀, ⟨rfl, rfl⟩, h⟩ := h
  cases hb : s.beginCall? name with
  | none =>
    rw [hb] at h
    obtain rfl := run_throw_eq_error.1 h
    exact .recursive hf hb
  | some s₁ =>
    -- One more function is in progress, so the depth has not run out
    have hnew : name ∉ active := by
      rw [← hs.active, ← Slots.beginCall?_eq_none, hb]
      nofun
    obtain ⟨m, rfl, hm⟩ := ha.call hnew hdefine
    obtain ⟨body, rfl, hbodyf⟩ := hbody m rfl
    have hs₁ := hs.beginCall hb
    have hargsin : (Piece.args args).Within top :=
      within_parts (within_tree.1 hp) (List.Subset.refl _)
    have hbodyin : (Piece.tree f.body).Within top :=
      within_parts hdefine (List.Subset.refl _)
    rw [hb] at h
    simp only [run_bind_eq_error, run_set_eq_error, run_set_eq_ok,
      run_lift_eq_error, run_lift_eq_ok, run_pushAll_eq_error, run_pushAll_eq_ok,
      run_popAll_eq_error, run_popAll_eq_ok, run_modify_eq_error, run_modify_eq_ok,
      run_pure_eq_error, false_or, or_false, and_false, exists_false] at h
    obtain ⟨_, s₂, rfl, h | ⟨_, s₃, ⟨hn, rfl⟩, h | ⟨code, s₄, hcode, _, s₅, ⟨rfl, rfl⟩, h⟩⟩⟩ := h
    · obtain ⟨k, hk, hne, rfl⟩ := checkArity_eq_error.1 h
      cases hk
      exact .inlineCount hf hb hne
    · have hcount := checkArity_eq_ok.1 hn _ rfl
      exact .inlineArgs hf hb hcount
        (hargsf hargsin _ (hm.mono (Nat.le_succ m)) _ hs₁ _ h)
    · have hcount := checkArity_eq_ok.1 hn _ rfl
      have hlowered := hargs _ _ _ hcode
      have hs₅ : (s₄.pushAll f.params).Standing top (name :: active) :=
        (hlowered.standing hargsin hs₁).of_functions rfl rfl
      exact .inlineBody hf hb hcount hlowered (hbodyf f.body hbodyin _ hm _ hs₅ _ h)

theorem refuses_environmentCall {name : String} {args : List Expr} {argCode : Lower Code}
    (hargsf : Refuses env top n (.args args) argCode) {active : List String}
    (hp : (Piece.tree (.call name args)).Within top) (ha : InProgress top n active) {s : Slots}
    (hs : s.Standing top active) (hl : s.function? name = none) {fault : Fault}
    (h : (environmentCall env name argCode args.length).run s = .error fault) :
    Fails env (.tree (.call name args)) s fault := by
  have hargsin : (Piece.args args).Within top :=
    within_parts (within_tree.1 hp) (List.Subset.refl _)
  unfold environmentCall at h
  split at h
  · next hf =>
    obtain rfl := run_throw_eq_error.1 h
    exact .undefined hl hf
  · next f hf =>
    simp only [run_bind_eq_error, run_lift_eq_error, run_lift_eq_ok, run_pure_eq_error, and_false,
      exists_false, or_false] at h
    rcases h with h | ⟨_, s₁, ⟨hn, rfl⟩, h⟩
    · obtain ⟨k, hk, hne, rfl⟩ := checkArity_eq_error.1 h
      exact .callCount hl hf hk hne
    · exact .callArgs hl hf hn (hargsf hargsin _ ha _ hs _ h)

theorem refuses_lowerLoop {kind : LoopKind} {op : BinaryOp} {seed : Float} {name : String}
    {a : Expr} {d : Option Expr} {b body : Expr} {default : Option Expr}
    {start step stop bodyCode : Lower Code} (hk : reduction? kind = some (op, seed))
    (ha : ∀ s code s', start.run s = .ok (code, s') → Lowered env (.tree a) s code s')
    (hd : ∀ s code s', step.run s = .ok (code, s') →
      Lowered env (.optional [.constant 1.0] d) s code s')
    (hb : ∀ s code s', stop.run s = .ok (code, s') → Lowered env (.tree b) s code s')
    (haf : Refuses env top n (.tree a) start)
    (hdf : Refuses env top n (.optional [.constant 1.0] d) step)
    (hbf : Refuses env top n (.tree b) stop) (hbodyf : Refuses env top n (.tree body) bodyCode) :
    Refuses env top n (.tree (.loop kind name (.range a d b) body default))
      (lowerLoop op seed name start step stop bodyCode) := by
  intro hp active hactive s hs f h
  obtain ⟨hpa, hpd, hpb, hpbody⟩ := within_loop (within_tree.1 hp)
  rw [← within_tree] at hpa hpb hpbody
  simp only [lowerLoop, run_bind_eq_error, run_modifyGet_eq_error, run_modifyGet_eq_ok,
    run_modify_eq_error, run_pure_eq_error, false_or, or_false, and_false, exists_false] at h
  obtain ⟨_, s₀, h₀, h⟩ := h
  cases h₀
  have hs₀ : s.fresh.2.Standing top active := hs.of_functions rfl rfl
  rcases h with h | ⟨stopCode, s₁, hstop, _, s₂, h₂, h⟩
  · exact .stop hk (hbf hpb _ hactive _ hs₀ _ h)
  cases h₂
  have hs₁ := (hb _ _ _ hstop).standing hpb hs₀
  have hs₂ : s₁.fresh.2.Standing top active := hs₁.of_functions rfl rfl
  rcases h with h | ⟨stepCode, s₃, hstep, h⟩
  · exact .step hk (hb _ _ _ hstop) (hdf hpd _ hactive _ hs₂ _ h)
  have hs₃ := (hd _ _ _ hstep).standing hpd hs₂
  rcases h with h | ⟨startCode, s₄, hstart, _, s₅, h₅, _, s₆, h₆, h⟩
  · exact .start hk (hb _ _ _ hstop) (hd _ _ _ hstep) (haf hpa _ hactive _ hs₃ _ h)
  cases h₅
  cases h₆
  have hs₄ := (ha _ _ _ hstart).standing hpa hs₃
  have hs₆ : (s₄.push name).2.fresh.2.Standing top active := hs₄.of_functions rfl rfl
  exact .body hk (hb _ _ _ hstop) (hd _ _ _ hstep) (ha _ _ _ hstart)
    (hbodyf hpbody _ hactive _ hs₆ _ h)

theorem refuses_pair {a b : Expr} {x y : Lower Code} (g : Code → Code → Code)
    (hx : ∀ s code s', x.run s = .ok (code, s') → Lowered env (.tree a) s code s')
    (hxf : Refuses env top n (.tree a) x) (hyf : Refuses env top n (.tree b) y) :
    Refuses env top n (.args [a, b]) (do
      let left ← x
      let right ← y
      return g left right) := by
  intro hp active ha s hs f h
  obtain ⟨hpa, hpb⟩ := within_args_cons.1 hp
  have hpb := (within_args_cons.1 hpb).1
  rw [← within_tree] at hpa hpb
  simp only [run_bind_eq_error, run_pure_eq_error, and_false, exists_false, or_false] at h
  rcases h with h | ⟨left, s₁, hleft, h⟩
  · exact .firstArg (hxf hpa active ha s hs f h)
  · have hl := hx _ _ _ hleft
    exact .laterArg hl (.firstArg (hyf hpb active ha s₁ (hl.standing hpa hs) f h))

section Trees

set_option linter.unusedSectionVars false

variable (hd : ∀ body ∈ deeper, ∀ e s code s', (body e).run s = .ok (code, s') →
    Lowered env (.tree e) s code s')
  (hdf : ∀ m, n = m + 1 → ∃ body ∈ deeper, ∀ e, Refuses env top m (.tree e) (body e))

include hd hdf

mutual

theorem refuses_lower : ∀ e : Expr, Refuses env top n (.tree e) (lower env deeper e)
  | .constant v => by
    intro _ active _ s _ f h
    cases v with
    | number _ | bool _ => exact (run_pure_eq_error.1 h).elim
    | _ =>
      obtain rfl := run_throw_eq_error.1 h
      exact .unsupported rfl
  | .var name => refuses_readName name
  | .unary op e => by
    intro hp active ha s hs f h
    simp only [lower, run_bind_eq_error, run_pure_eq_error, and_false, exists_false, or_false] at h
    have he : (Piece.tree e).Within top := within_parts (within_tree.1 hp) (List.Subset.refl _)
    exact .operation rfl (.firstArg (refuses_lower e he active ha s hs f h))
  | .binary op a b => fun hp active ha s hs f h =>
    .operation rfl (refuses_pair (fun left right => left ++ right ++ [Instruction.arithmetic op])
      (lowered_of_lower hd a) (refuses_lower a) (refuses_lower b)
      (within_parts (within_tree.1 hp) (List.Subset.refl _)) active ha s hs f h)
  | .compare op a b => fun hp active ha s hs f h =>
    .operation rfl (refuses_pair (fun left right => left ++ right ++ [Instruction.compare op])
      (lowered_of_lower hd a) (refuses_lower a) (refuses_lower b)
      (within_parts (within_tree.1 hp) (List.Subset.refl _)) active ha s hs f h)
  | .logical op a b => fun hp active ha s hs f h =>
    .operation rfl (refuses_pair (fun left right => left ++ right ++ [Instruction.logical op])
      (lowered_of_lower hd a) (refuses_lower a) (refuses_lower b)
      (within_parts (within_tree.1 hp) (List.Subset.refl _)) active ha s hs f h)
  | .assign name e => refuses_assign (lowered_of_lower hd e) (refuses_lower e)
  | .cases bs o => by
    intro hp active ha s hs f h
    exact .cases (refuses_lowerBranches bs o _
      (fun s code s' h => lowered_of_lowerOr hd noValue o s code s' h) (refuses_lowerOr noValue o)
      (within_parts (within_tree.1 hp) (List.Subset.refl _)) active ha s hs f h)
  | .loop kind name source body default => by
    cases source with
    | items e =>
      intro hp active ha s hs f h
      cases kind <;> (obtain rfl := run_throw_eq_error.1 h; exact .unsupported rfl)
    | range a d b =>
      cases kind with
      | sum =>
        exact refuses_lowerLoop rfl (lowered_of_lower hd a) (lowered_of_lowerOr hd _ d)
          (lowered_of_lower hd b) (refuses_lower a) (refuses_lowerOr _ d) (refuses_lower b)
          (refuses_lower body)
      | prod =>
        exact refuses_lowerLoop rfl (lowered_of_lower hd a) (lowered_of_lowerOr hd _ d)
          (lowered_of_lower hd b) (refuses_lower a) (refuses_lowerOr _ d) (refuses_lower b)
          (refuses_lower body)
      | _ =>
        intro hp active ha s hs f h
        obtain rfl := run_throw_eq_error.1 h
        exact .unsupported rfl
  | .sequence [] => by
    intro hp active ha s hs f h
    exact (run_pure_eq_error.1 h).elim
  | .sequence (e :: es) => by
    intro hp active ha s hs f h
    have hparts : (Piece.rest (e :: es)).Within top :=
      within_parts (within_tree.1 hp) (List.Subset.refl _)
    obtain ⟨hpe, hpes⟩ := within_rest_cons.1 hparts
    rw [← within_tree] at hpe
    simp only [lower, run_bind_eq_error, run_pure_eq_error, and_false, exists_false, or_false] at h
    rcases h with h | ⟨code, s₁, hc, h⟩
    · exact .first (refuses_lower e hpe active ha s hs f h)
    · have hl := lowered_of_lower hd e _ _ _ hc
      exact .later hl (refuses_lowerRest es hpes active ha s₁ (hl.standing hpe hs) f h)
  | .define name params body => by
    intro hp active ha s hs f h
    simp only [lower, run_bind_eq_error, run_modify_eq_error, run_pure_eq_error, and_false,
      exists_false, or_false] at h
  | .call name args => by
    intro hp active ha s hs f h
    simp only [lower, run_bind_eq_error, run_get_eq_error, run_get_eq_ok, false_or] at h
    obtain ⟨t, s₁, ⟨rfl, rfl⟩, h⟩ := h
    split at h
    · next g hg =>
      exact refuses_inlineCall hdf (lowered_of_lowerArgs hd args) (refuses_lowerArgs args) hp ha hs
        hg h
    · next hg => exact refuses_environmentCall (refuses_lowerArgs args) hp ha hs hg h
  | .assignElement .. => fun _ _ _ _ _ _ h => run_throw_eq_error.1 h ▸ .unsupported rfl
  | .element .. => fun _ _ _ _ _ _ h => run_throw_eq_error.1 h ▸ .unsupported rfl
  | .index .. => fun _ _ _ _ _ _ h => run_throw_eq_error.1 h ▸ .unsupported rfl
  | .member .. => fun _ _ _ _ _ _ h => run_throw_eq_error.1 h ▸ .unsupported rfl
  | .range .. => fun _ _ _ _ _ _ h => run_throw_eq_error.1 h ▸ .unsupported rfl
  | .vector .. => fun _ _ _ _ _ _ h => run_throw_eq_error.1 h ▸ .unsupported rfl
  | .matrix .. => fun _ _ _ _ _ _ h => run_throw_eq_error.1 h ▸ .unsupported rfl
  | .list .. => fun _ _ _ _ _ _ h => run_throw_eq_error.1 h ▸ .unsupported rfl
  | .invalid => fun _ _ _ _ _ _ h => run_throw_eq_error.1 h ▸ .unsupported rfl

theorem refuses_lowerArgs : ∀ es : List Expr, Refuses env top n (.args es) (lowerArgs env deeper es)
  | [] => fun _ _ _ _ _ _ h => (run_pure_eq_error.1 h).elim
  | e :: es => by
    intro hp active ha s hs f h
    obtain ⟨hpe, hpes⟩ := within_args_cons.1 hp
    rw [← within_tree] at hpe
    simp only [lowerArgs, run_bind_eq_error, run_pure_eq_error, and_false, exists_false,
      or_false] at h
    rcases h with h | ⟨code, s₁, hc, h⟩
    · exact .firstArg (refuses_lower e hpe active ha s hs f h)
    · have hl := lowered_of_lower hd e _ _ _ hc
      exact .laterArg hl (refuses_lowerArgs es hpes active ha s₁ (hl.standing hpe hs) f h)

theorem refuses_lowerRest : ∀ es : List Expr, Refuses env top n (.rest es) (lowerRest env deeper es)
  | [] => fun _ _ _ _ _ _ h => (run_pure_eq_error.1 h).elim
  | e :: es => by
    intro hp active ha s hs f h
    obtain ⟨hpe, hpes⟩ := within_rest_cons.1 hp
    rw [← within_tree] at hpe
    simp only [lowerRest, run_bind_eq_error, run_pure_eq_error, and_false, exists_false,
      or_false] at h
    rcases h with h | ⟨code, s₁, hc, h⟩
    · exact .firstRest (refuses_lower e hpe active ha s hs f h)
    · have hl := lowered_of_lower hd e _ _ _ hc
      exact .laterRest hl (refuses_lowerRest es hpes active ha s₁ (hl.standing hpe hs) f h)

theorem refuses_lowerOr (missing : Code) : ∀ e : Option Expr,
    Refuses env top n (.optional missing e) (lowerOr env deeper missing e)
  | none => fun _ _ _ _ _ _ h => (run_pure_eq_error.1 h).elim
  | some e => fun hp active ha s hs f h =>
    .present (refuses_lower e (within_tree.2 (within_optional_some.1 hp)) active ha s hs f h)

theorem refuses_lowerBranches : ∀ (bs : List (Expr × Expr)) (o : Option Expr)
    (otherwise : Lower Code), (∀ s code s', otherwise.run s = .ok (code, s') →
      Lowered env (.optional noValue o) s code s') →
    Refuses env top n (.optional noValue o) otherwise →
    Refuses env top n (.branches bs o) (lowerBranches env deeper bs otherwise)
  | [], o, otherwise, ho, hof => fun hp active ha s hs f h =>
    .otherwise (hof (within_branches_nil.1 hp) active ha s hs f h)
  | (c, e) :: bs, o, otherwise, ho, hof => by
    intro hp active ha s hs f h
    obtain ⟨hpc, hpe, hpbs⟩ := within_branches_cons.1 hp
    rw [← within_tree] at hpc hpe
    simp only [lowerBranches, run_bind_eq_error, run_pure_eq_error, and_false, exists_false,
      or_false] at h
    rcases h with h | ⟨condition, s₁, hcode, h⟩
    · exact .condition (refuses_lower c hpc active ha s hs f h)
    have hl := lowered_of_lower hd c _ _ _ hcode
    have hs₁ := hl.standing hpc hs
    rcases h with h | ⟨value, s₂, hvalue, h⟩
    · exact .branch hl (refuses_lower e hpe active ha s₁ hs₁ f h)
    have hl' := lowered_of_lower hd e _ _ _ hvalue
    exact .laterBranch hl hl' (refuses_lowerBranches bs o otherwise ho hof hpbs active ha s₂
      (hl'.standing hpe hs₁) f h)

end

end Trees

/-- **What cannot be compiled is refused by the rules**, as long as calls can be put in as deep as
there are definitions left. -/
theorem refuses_lowerAt (n : Nat) (e : Expr) :
    Refuses env top n (.tree e) (lowerAt env n e) := by
  induction n generalizing e with
  | zero => exact refuses_lower (by simp) (fun m hm => by cases hm) e
  | succ n ih =>
    refine refuses_lower (fun body hb e s code s' h => ?_) (fun m hm => ?_) e
    · cases hb
      exact lowered_of_lowerAt n e h
    · cases hm
      exact ⟨lowerAt env n, rfl, ih⟩

theorem fails_of_compile {e : Expr} {f : Fault} (h : compile env e = .error f) :
    Fails env (.tree e) {} f := by
  unfold compile at h
  cases hl : (lowerAt env (definitions e) e).run {} with
  | ok r =>
    rw [hl] at h
    cases h
  | error f' =>
    rw [hl] at h
    cases h
    exact refuses_lowerAt (definitions e) e (within_tree.2 .self) [] (.start e) {}
      (standing_empty e) f hl

/-- **Compiling ends**, in every environment and for every tree: with a program, lowered by rules
that do not count how deep calls are put in, or with a fault by such rules. -/
theorem compile_ends (env : Environment) (e : Expr) :
    (∃ code s, Lowered env (.tree e) {} code s ∧ compile env e = .ok ⟨code.toArray, s.size⟩) ∨
      ∃ f, Fails env (.tree e) {} f ∧ compile env e = .error f := by
  cases h : compile env e with
  | error f => exact .inr ⟨f, fails_of_compile h, rfl⟩
  | ok p =>
    obtain ⟨s, hl, hs⟩ := lowered_of_compile h
    exact .inl ⟨p.code.toList, s, hl, by rw [Array.toArray_toList, ← hs]⟩

end Pieces

end FormulaLang.Bytecode
