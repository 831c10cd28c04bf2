import FormulaLang.Bytecode.Compile

/-!
# Lowering as a relation

`lower` threads the slots through a monad and puts in the bodies of functions up to a depth. The
relation `Lowered` says the same by rules, one for each form of code, so that a fact about
compiled code is an induction over its rules.

* `Piece`: the parts of a tree that have code of their own.
* `operation?`, `reduction?`: the trees whose code is that of their operands and one instruction,
  and the loops that have code.
* `Written`, `Lowered`: the code of an assignment and of a piece.
* **`lowered_of_lowerAt`**, `lowered_of_compile`: what is compiled is lowered by the rules.
-/

namespace FormulaLang.Bytecode

/-! ## Slots -/

namespace Slots

/-- The slots that parameters get, the first parameter first. -/
def slotsOf (s : Slots) (names : List String) : List Nat := List.range' s.size names.length

/-- Binds names to slots of their own, the last name innermost. -/
def pushAll (s : Slots) (names : List String) : Slots :=
  { s with
    scope := (names.zip (s.slotsOf names)).reverse ++ s.scope
    size := s.size + names.length }

/-- Unbinds the `n` innermost names. -/
def popAll (s : Slots) (n : Nat) : Slots := { s with scope := s.scope.drop n }

@[simp] theorem slotsOf_nil (s : Slots) : s.slotsOf [] = [] := rfl

theorem slotsOf_cons (s : Slots) (name : String) (names : List String) :
    s.slotsOf (name :: names) = s.size :: (s.push name).2.slotsOf names := rfl

theorem pushAll_cons (s : Slots) (name : String) (names : List String) :
    s.pushAll (name :: names) = (s.push name).2.pushAll names := by
  simp [pushAll, push, slotsOf, List.range'_succ]
  omega

end Slots

/-! ## The rules -/

/-- A part of a tree that has code of its own. -/
inductive Piece where
  | tree (e : Expr)
  /-- Operands or arguments, from the left. -/
  | args (es : List Expr)
  /-- Statements behind another one. -/
  | rest (es : List Expr)
  /-- A tree that may be missing, with the code that stands for it then. -/
  | optional (missing : Code) (e : Option Expr)
  | branches (bs : List (Expr × Expr)) (otherwise : Option Expr)

/-- The operands and the instruction of an operator. -/
def operation? : Expr → Option (List Expr × Instruction)
  | .unary op e => some ([e], .unary op)
  | .binary op a b => some ([a, b], .arithmetic op)
  | .compare op a b => some ([a, b], .compare op)
  | .logical op a b => some ([a, b], .logical op)
  | _ => none

/-- The operator and the start of a loop that has code. -/
def reduction? : LoopKind → Option (BinaryOp × Float)
  | .sum => some (.add, 0.0)
  | .prod => some (.mul, 1.0)
  | _ => none

/-- The code in front of the test of a loop. -/
def loopSetup (s : LoopSlots) (seed : Float) (start step stop : Code) : Code :=
  .constant seed :: stop ++ .writeSlot s.stop :: step ++ .writeSlot s.step ::
    start ++ .writeSlot s.position :: .constant Number.nan :: [.writeSlot s.previous]

section Rules

variable (env : Environment)

/-- The code that writes a name, and the slots behind it. -/
inductive Written (name : String) (s : Slots) : Instruction → Slots → Prop where
  | slot {slot : Nat} (h : s.lookup? name = some slot) : Written name s (.writeSlot slot) s
  | cell {cell : Nat} (h : s.lookup? name = none) (hv : env.hasVariable name)
      (hc : globalCell env name = .ok cell) : Written name s (.writeCell cell) s
  | temporary (h : s.lookup? name = none) (hv : env.hasVariable name = false) :
      Written name s (.writeSlot (s.temporary name).1) (s.temporary name).2

/-- The code of a piece and the slots behind it. -/
inductive Lowered : Piece → Slots → Code → Slots → Prop where
  | number {s : Slots} (x : Float) : Lowered (.tree (.constant (.number x))) s [.constant x] s
  | bool {s : Slots} (b : Bool) :
      Lowered (.tree (.constant (.bool b))) s [.constant (Number.ofBool b)] s
  | slot {s : Slots} {name : String} {slot : Nat} (h : s.lookup? name = some slot) :
      Lowered (.tree (.var name)) s [.readSlot slot] s
  | cell {s : Slots} {name : String} {cell : Nat} (h : s.lookup? name = none)
      (hc : globalCell env name = .ok cell) : Lowered (.tree (.var name)) s [.readCell cell] s
  | operation {s s' : Slots} {e : Expr} {es : List Expr} {i : Instruction} {code : Code}
      (h : operation? e = some (es, i)) (hes : Lowered (.args es) s code s') :
      Lowered (.tree e) s (code ++ [i]) s'
  | assign {s s₁ s₂ : Slots} {name : String} {e : Expr} {code : Code} {write : Instruction}
      (he : Lowered (.tree e) s code s₁) (hw : Written env name s₁ write s₂) :
      Lowered (.tree (.assign name e)) s (code ++ [.dup, write]) s₂
  | cases {s s' : Slots} {bs : List (Expr × Expr)} {otherwise : Option Expr} {code : Code}
      (h : Lowered (.branches bs otherwise) s code s') :
      Lowered (.tree (.cases bs otherwise)) s code s'
  | loop {s s₁ s₂ s₃ s₄ : Slots} {kind : LoopKind} {op : BinaryOp} {seed : Float} {name : String}
      {a : Expr} {d : Option Expr} {b body : Expr} {default : Option Expr}
      {start step stop code : Code} (hk : reduction? kind = some (op, seed))
      (hb : Lowered (.tree b) s.fresh.2 stop s₁)
      (hd : Lowered (.optional [.constant 1.0] d) s₁.fresh.2 step s₂)
      (ha : Lowered (.tree a) s₂ start s₃)
      (hbody : Lowered (.tree body) (s₃.push name).2.fresh.2 code s₄) :
      Lowered (.tree (.loop kind name (.range a d b) body default)) s
        (loopSetup ⟨s₃.size, s₃.size + 1, s₁.size, s.size⟩ seed start step stop ++
          loopCode ⟨s₃.size, s₃.size + 1, s₁.size, s.size⟩ op code) s₄.pop
  | empty {s : Slots} : Lowered (.tree (.sequence [])) s noValue s
  | sequence {s s₁ s₂ : Slots} {e : Expr} {es : List Expr} {first rest : Code}
      (he : Lowered (.tree e) s first s₁) (hes : Lowered (.rest es) s₁ rest s₂) :
      Lowered (.tree (.sequence (e :: es))) s (first ++ rest) s₂
  | define {s : Slots} (name : String) (params : List String) (body : Expr) :
      Lowered (.tree (.define name params body)) s noValue (s.define name ⟨params, body⟩)
  | inline {s s₁ s₂ s₃ : Slots} {name : String} {args : List Expr} {f : Inline} {code body : Code}
      (hf : s.function? name = some f) (hb : s.beginCall? name = some s₁)
      (hn : args.length = f.params.length) (hargs : Lowered (.args args) s₁ code s₂)
      (hbody : Lowered (.tree f.body) (s₂.pushAll f.params) body s₃) :
      Lowered (.tree (.call name args)) s
        (code ++ (s₂.slotsOf f.params).reverse.map .writeSlot ++ body)
        (s₃.popAll f.params.length).endCall
  | call {s s' : Slots} {name : String} {args : List Expr} {f : Function} {code : Code}
      (hl : s.function? name = none) (hf : env.function? name = some f)
      (hn : checkArity name f.arity args.length = .ok ()) (hargs : Lowered (.args args) s code s') :
      Lowered (.tree (.call name args)) s (code ++ [callInstruction name f args.length]) s'
  | noArgs {s : Slots} : Lowered (.args []) s [] s
  | consArg {s s₁ s₂ : Slots} {e : Expr} {es : List Expr} {first rest : Code}
      (he : Lowered (.tree e) s first s₁) (hes : Lowered (.args es) s₁ rest s₂) :
      Lowered (.args (e :: es)) s (first ++ rest) s₂
  | noRest {s : Slots} : Lowered (.rest []) s [] s
  | consRest {s s₁ s₂ : Slots} {e : Expr} {es : List Expr} {first rest : Code}
      (he : Lowered (.tree e) s first s₁) (hes : Lowered (.rest es) s₁ rest s₂) :
      Lowered (.rest (e :: es)) s (.pop :: first ++ rest) s₂
  | missing {s : Slots} (code : Code) : Lowered (.optional code none) s code s
  | present {s s' : Slots} {missing code : Code} {e : Expr} (he : Lowered (.tree e) s code s') :
      Lowered (.optional missing (some e)) s code s'
  | otherwise {s s' : Slots} {o : Option Expr} {code : Code}
      (h : Lowered (.optional noValue o) s code s') : Lowered (.branches [] o) s code s'
  | branch {s s₁ s₂ s₃ : Slots} {c e : Expr} {bs : List (Expr × Expr)} {o : Option Expr}
      {condition value rest : Code} (hc : Lowered (.tree c) s condition s₁)
      (he : Lowered (.tree e) s₁ value s₂) (hbs : Lowered (.branches bs o) s₂ rest s₃) :
      Lowered (.branches ((c, e) :: bs) o) s (branchCode condition value rest) s₃

end Rules

/-! ## What is compiled is lowered by the rules -/

section Runs

variable {α β : Type} {s s' : Slots}

theorem run_bind_eq_ok {x : Lower α} {f : α → Lower β} {b : β} :
    (x >>= f).run s = .ok (b, s') ↔
      ∃ a s₁, x.run s = .ok (a, s₁) ∧ (f a).run s₁ = .ok (b, s') := by
  rw [StateT.run_bind]
  constructor
  · intro h
    cases hx : x.run s with
    | error f => rw [hx] at h; cases h
    | ok p => exact ⟨p.1, p.2, rfl, by rw [hx] at h; exact h⟩
  · rintro ⟨a, s₁, hx, hf⟩
    rw [hx]
    exact hf

theorem run_pure_eq_ok {a b : α} :
    (pure a : Lower α).run s = .ok (b, s') ↔ a = b ∧ s = s' := by
  rw [StateT.run_pure]
  simp [pure, Except.pure]

theorem run_get_eq_ok {t : Slots} : (get : Lower Slots).run s = .ok (t, s') ↔ s = t ∧ s = s' := by
  rw [StateT.run_get]
  simp [pure, Except.pure]

theorem run_set_eq_ok {t : Slots} {u : PUnit} :
    (set t : Lower PUnit).run s = .ok (u, s') ↔ t = s' := by
  rw [StateT.run_set]
  simp [pure, Except.pure]

theorem run_modify_eq_ok {f : Slots → Slots} {u : PUnit} :
    (modify f : Lower PUnit).run s = .ok (u, s') ↔ f s = s' := by
  rw [StateT.run_modify]
  simp [pure, Except.pure]

theorem run_modifyGet_eq_ok {f : Slots → α × Slots} {a : α} :
    (modifyGet f : Lower α).run s = .ok (a, s') ↔ f s = (a, s') := by
  rw [StateT.run_modifyGet]
  simp [pure, Except.pure, Prod.ext_iff]

theorem run_throw_eq_ok {f : Fault} {a : α} : (throw f : Lower α).run s = .ok (a, s') ↔ False :=
  ⟨fun h => (by cases h), False.elim⟩

theorem run_lift_eq_ok {x : Except Fault α} {a : α} :
    (liftM x : Lower α).run s = .ok (a, s') ↔ x = .ok a ∧ s = s' := by
  cases x with
  | error f => exact ⟨fun h => (by cases h), fun h => (by cases h.1)⟩
  | ok b =>
    show (pure b : Lower α).run s = _ ↔ _
    rw [run_pure_eq_ok, Except.ok.injEq]

theorem run_pushAll_eq_ok {names : List String} {slots : List Nat} :
    (pushAll names).run s = .ok (slots, s') ↔ s.slotsOf names = slots ∧ s.pushAll names = s' := by
  induction names generalizing s slots with
  | nil => exact run_pure_eq_ok
  | cons name names ih =>
    rw [Slots.slotsOf_cons, Slots.pushAll_cons]
    simp only [pushAll, run_bind_eq_ok, run_modifyGet_eq_ok, run_pure_eq_ok]
    constructor
    · rintro ⟨slot, s₁, h, rest, s₂, hr, rfl, rfl⟩
      obtain ⟨rfl, rfl⟩ := ih.1 hr
      cases h
      exact ⟨rfl, rfl⟩
    · rintro ⟨rfl, rfl⟩
      exact ⟨_, _, rfl, _, _, ih.2 ⟨rfl, rfl⟩, rfl, rfl⟩

theorem run_popAll_eq_ok {n : Nat} {u : Unit} :
    (popAll n).run s = .ok (u, s') ↔ s.popAll n = s' := by
  induction n generalizing s with
  | zero => exact run_pure_eq_ok.trans (and_iff_right rfl)
  | succ n ih =>
    simp only [popAll, run_bind_eq_ok, run_modify_eq_ok, ih]
    simp [Slots.pop, Slots.popAll]

theorem checkArity_eq_ok {name : String} {expected : Option Nat} {found : Nat} :
    checkArity name expected found = .ok () ↔ ∀ n ∈ expected, found = n := by
  cases expected with
  | none => simp [checkArity]
  | some n =>
    by_cases h : n = found
    · simp [checkArity, Option.filter, h]
    · simp [checkArity, Option.filter, h, Ne.symm h]

end Runs

section Pieces

variable {env : Environment} {deeper : BodyLowering} {s s' : Slots} {code : Code}

theorem lowered_of_readName {name : String} (h : (readName env name).run s = .ok (code, s')) :
    Lowered env (.tree (.var name)) s code s' := by
  simp only [readName, run_bind_eq_ok, run_get_eq_ok] at h
  obtain ⟨t, s₁, ⟨rfl, rfl⟩, h⟩ := h
  split at h
  · next slot hs =>
    obtain ⟨rfl, rfl⟩ := run_pure_eq_ok.1 h
    exact .slot hs
  · next hs =>
    simp only [run_bind_eq_ok, run_lift_eq_ok, run_pure_eq_ok] at h
    obtain ⟨cell, s₂, ⟨hc, rfl⟩, rfl, rfl⟩ := h
    exact .cell hs hc

theorem written_of_writeName {name : String} (h : (writeName env name).run s = .ok (code, s')) :
    ∃ i, code = [i] ∧ Written env name s i s' := by
  simp only [writeName, run_bind_eq_ok, run_get_eq_ok] at h
  obtain ⟨t, s₁, ⟨rfl, rfl⟩, h⟩ := h
  split at h
  · next slot hs =>
    obtain ⟨rfl, rfl⟩ := run_pure_eq_ok.1 h
    exact ⟨_, rfl, .slot hs⟩
  · next hs =>
    split at h
    · next hv =>
      simp only [run_bind_eq_ok, run_lift_eq_ok, run_pure_eq_ok] at h
      obtain ⟨cell, s₂, ⟨hc, rfl⟩, rfl, rfl⟩ := h
      exact ⟨_, rfl, .cell hs hv hc⟩
    · next hv =>
      simp only [run_bind_eq_ok, run_modifyGet_eq_ok, run_pure_eq_ok] at h
      obtain ⟨slot, s₂, ht, rfl, rfl⟩ := h
      refine ⟨_, rfl, ?_⟩
      have hw : Written env name s (.writeSlot (s.temporary name).1) (s.temporary name).2 :=
        .temporary hs (by simpa using hv)
      rwa [ht] at hw

theorem lowered_of_inlineCall {name : String} {f : Inline} {args : List Expr} {argCode : Lower Code}
    (hd : ∀ body ∈ deeper, ∀ e s code s', (body e).run s = .ok (code, s') →
      Lowered env (.tree e) s code s')
    (ha : ∀ s code s', argCode.run s = .ok (code, s') → Lowered env (.args args) s code s')
    (hf : s.function? name = some f)
    (h : (inlineCall deeper name f argCode args.length).run s = .ok (code, s')) :
    Lowered env (.tree (.call name args)) s code s' := by
  simp only [inlineCall, run_bind_eq_ok, run_get_eq_ok] at h
  obtain ⟨t, s₀, ⟨rfl, rfl⟩, h⟩ := h
  split at h
  · next s₁ lowerBody hb =>
    simp only [run_bind_eq_ok, run_set_eq_ok, run_lift_eq_ok, run_pushAll_eq_ok, run_popAll_eq_ok,
      run_modify_eq_ok, run_pure_eq_ok] at h
    obtain ⟨_, s₁, rfl, _, s₂, ⟨hn, rfl⟩, argsCode, s₃, hargs, slots, s₄, ⟨rfl, rfl⟩, bodyCode, s₅,
      hbody, _, s₆, rfl, _, s₇, rfl, rfl, rfl⟩ := h
    exact .inline hf hb (checkArity_eq_ok.1 hn _ rfl) (ha _ _ _ hargs)
      (hd lowerBody rfl _ _ _ _ hbody)
  · exact (run_throw_eq_ok.1 h).elim

theorem lowered_of_environmentCall {name : String} {args : List Expr} {argCode : Lower Code}
    (ha : ∀ s code s', argCode.run s = .ok (code, s') → Lowered env (.args args) s code s')
    (hl : s.function? name = none)
    (h : (environmentCall env name argCode args.length).run s = .ok (code, s')) :
    Lowered env (.tree (.call name args)) s code s' := by
  simp only [environmentCall] at h
  split at h
  · exact (run_throw_eq_ok.1 h).elim
  · next f hf =>
    simp only [run_bind_eq_ok, run_lift_eq_ok, run_pure_eq_ok] at h
    obtain ⟨_, s₁, ⟨hn, rfl⟩, argsCode, s₂, hargs, rfl, rfl⟩ := h
    exact .call hl hf hn (ha _ _ _ hargs)

theorem lowered_of_lowerLoop {kind : LoopKind} {op : BinaryOp} {seed : Float} {name : String}
    {a : Expr} {d : Option Expr} {b body : Expr} {default : Option Expr}
    {start step stop bodyCode : Lower Code} (hk : reduction? kind = some (op, seed))
    (ha : ∀ s code s', start.run s = .ok (code, s') → Lowered env (.tree a) s code s')
    (hd : ∀ s code s', step.run s = .ok (code, s') →
      Lowered env (.optional [.constant 1.0] d) s code s')
    (hb : ∀ s code s', stop.run s = .ok (code, s') → Lowered env (.tree b) s code s')
    (hbody : ∀ s code s', bodyCode.run s = .ok (code, s') → Lowered env (.tree body) s code s')
    (h : (lowerLoop op seed name start step stop bodyCode).run s = .ok (code, s')) :
    Lowered env (.tree (.loop kind name (.range a d b) body default)) s code s' := by
  simp only [lowerLoop, run_bind_eq_ok, run_modifyGet_eq_ok, run_modify_eq_ok, run_pure_eq_ok] at h
  obtain ⟨stopSlot, s₀, h₀, stopCode, s₁, h₁, stepSlot, s₂, h₂, stepCode, s₃, h₃, startCode, s₄, h₄,
    position, s₅, h₅, previous, s₆, h₆, code', s₇, h₇, -, s₈, rfl, rfl, rfl⟩ := h
  cases h₀
  cases h₂
  cases h₅
  cases h₆
  have hloop : Lowered env (.tree (.loop kind name (.range a d b) body default)) s _ _ :=
    .loop hk (hb _ _ _ h₁) (hd _ _ _ h₃) (ha _ _ _ h₄) (hbody _ _ _ h₇)
  simpa [loopSetup, Slots.push] using hloop

section Trees

set_option linter.unusedSectionVars false

variable (hd : ∀ body ∈ deeper, ∀ e s code s', (body e).run s = .ok (code, s') →
  Lowered env (.tree e) s code s')

include hd

mutual

theorem lowered_of_lower : ∀ (e : Expr) (s : Slots) (code : Code) (s' : Slots),
    (lower env deeper e).run s = .ok (code, s') → Lowered env (.tree e) s code s'
  | .constant v, s, code, s', h => by
    cases v with
    | number x => obtain ⟨rfl, rfl⟩ := run_pure_eq_ok.1 h; exact .number x
    | bool b => obtain ⟨rfl, rfl⟩ := run_pure_eq_ok.1 h; exact .bool b
    | _ => exact (run_throw_eq_ok.1 h).elim
  | .var name, s, code, s', h => lowered_of_readName h
  | .unary op e, s, code, s', h => by
    simp only [lower, run_bind_eq_ok, run_pure_eq_ok] at h
    obtain ⟨c, s₁, he, rfl, rfl⟩ := h
    have hes : Lowered env (.args [e]) s (c ++ []) s₁ := .consArg (lowered_of_lower e _ _ _ he) .noArgs
    simpa using Lowered.operation (e := .unary op e) rfl hes
  | .binary op a b, s, code, s', h => by
    simp only [lower, run_bind_eq_ok, run_pure_eq_ok] at h
    obtain ⟨c₁, s₁, ha, c₂, s₂, hb, rfl, rfl⟩ := h
    have hes : Lowered env (.args [a, b]) s (c₁ ++ (c₂ ++ [])) s₂ :=
      .consArg (lowered_of_lower a _ _ _ ha) (.consArg (lowered_of_lower b _ _ _ hb) .noArgs)
    simpa using Lowered.operation (e := .binary op a b) rfl hes
  | .compare op a b, s, code, s', h => by
    simp only [lower, run_bind_eq_ok, run_pure_eq_ok] at h
    obtain ⟨c₁, s₁, ha, c₂, s₂, hb, rfl, rfl⟩ := h
    have hes : Lowered env (.args [a, b]) s (c₁ ++ (c₂ ++ [])) s₂ :=
      .consArg (lowered_of_lower a _ _ _ ha) (.consArg (lowered_of_lower b _ _ _ hb) .noArgs)
    simpa using Lowered.operation (e := .compare op a b) rfl hes
  | .logical op a b, s, code, s', h => by
    simp only [lower, run_bind_eq_ok, run_pure_eq_ok] at h
    obtain ⟨c₁, s₁, ha, c₂, s₂, hb, rfl, rfl⟩ := h
    have hes : Lowered env (.args [a, b]) s (c₁ ++ (c₂ ++ [])) s₂ :=
      .consArg (lowered_of_lower a _ _ _ ha) (.consArg (lowered_of_lower b _ _ _ hb) .noArgs)
    simpa using Lowered.operation (e := .logical op a b) rfl hes
  | .assign name e, s, code, s', h => by
    simp only [lower, run_bind_eq_ok, run_pure_eq_ok] at h
    obtain ⟨c, s₁, he, w, s₂, hw, rfl, rfl⟩ := h
    obtain ⟨i, rfl, hi⟩ := written_of_writeName hw
    exact .assign (lowered_of_lower e _ _ _ he) hi
  | .cases bs o, s, code, s', h =>
    .cases (lowered_of_lowerBranches bs o _ (fun s code s' h => lowered_of_lowerOr noValue o _ _ _ h)
      _ _ _ h)
  | .loop kind name source body default, s, code, s', h => by
    cases source with
    | items e => cases kind <;> exact (run_throw_eq_ok.1 h).elim
    | range a d b =>
      cases kind with
      | sum =>
        exact lowered_of_lowerLoop rfl (lowered_of_lower a) (lowered_of_lowerOr _ d)
          (lowered_of_lower b) (lowered_of_lower body) h
      | prod =>
        exact lowered_of_lowerLoop rfl (lowered_of_lower a) (lowered_of_lowerOr _ d)
          (lowered_of_lower b) (lowered_of_lower body) h
      | _ => exact (run_throw_eq_ok.1 h).elim
  | .sequence [], s, code, s', h => by
    obtain ⟨rfl, rfl⟩ := run_pure_eq_ok.1 h
    exact .empty
  | .sequence (e :: es), s, code, s', h => by
    simp only [lower, run_bind_eq_ok, run_pure_eq_ok] at h
    obtain ⟨c₁, s₁, he, c₂, s₂, hes, rfl, rfl⟩ := h
    exact .sequence (lowered_of_lower e _ _ _ he) (lowered_of_lowerRest es _ _ _ hes)
  | .define name params body, s, code, s', h => by
    simp only [lower, run_bind_eq_ok, run_modify_eq_ok, run_pure_eq_ok] at h
    obtain ⟨-, s₁, rfl, rfl, rfl⟩ := h
    exact .define name params body
  | .call name args, s, code, s', h => by
    simp only [lower, run_bind_eq_ok, run_get_eq_ok] at h
    obtain ⟨t, s₁, ⟨rfl, rfl⟩, h⟩ := h
    split at h
    · next f hf => exact lowered_of_inlineCall hd (lowered_of_lowerArgs args) hf h
    · next hf => exact lowered_of_environmentCall (lowered_of_lowerArgs args) hf h
  | .assignElement .., s, code, s', h => (run_throw_eq_ok.1 h).elim
  | .element .., s, code, s', h => (run_throw_eq_ok.1 h).elim
  | .index .., s, code, s', h => (run_throw_eq_ok.1 h).elim
  | .member .., s, code, s', h => (run_throw_eq_ok.1 h).elim
  | .range .., s, code, s', h => (run_throw_eq_ok.1 h).elim
  | .vector .., s, code, s', h => (run_throw_eq_ok.1 h).elim
  | .matrix .., s, code, s', h => (run_throw_eq_ok.1 h).elim
  | .list .., s, code, s', h => (run_throw_eq_ok.1 h).elim
  | .invalid, s, code, s', h => (run_throw_eq_ok.1 h).elim

theorem lowered_of_lowerArgs : ∀ (es : List Expr) (s : Slots) (code : Code) (s' : Slots),
    (lowerArgs env deeper es).run s = .ok (code, s') → Lowered env (.args es) s code s'
  | [], s, code, s', h => by
    obtain ⟨rfl, rfl⟩ := run_pure_eq_ok.1 h
    exact .noArgs
  | e :: es, s, code, s', h => by
    simp only [lowerArgs, run_bind_eq_ok, run_pure_eq_ok] at h
    obtain ⟨c₁, s₁, he, c₂, s₂, hes, rfl, rfl⟩ := h
    exact .consArg (lowered_of_lower e _ _ _ he) (lowered_of_lowerArgs es _ _ _ hes)

theorem lowered_of_lowerRest : ∀ (es : List Expr) (s : Slots) (code : Code) (s' : Slots),
    (lowerRest env deeper es).run s = .ok (code, s') → Lowered env (.rest es) s code s'
  | [], s, code, s', h => by
    obtain ⟨rfl, rfl⟩ := run_pure_eq_ok.1 h
    exact .noRest
  | e :: es, s, code, s', h => by
    simp only [lowerRest, run_bind_eq_ok, run_pure_eq_ok] at h
    obtain ⟨c₁, s₁, he, c₂, s₂, hes, rfl, rfl⟩ := h
    exact .consRest (lowered_of_lower e _ _ _ he) (lowered_of_lowerRest es _ _ _ hes)

theorem lowered_of_lowerOr (missing : Code) : ∀ (e : Option Expr) (s : Slots) (code : Code)
    (s' : Slots), (lowerOr env deeper missing e).run s = .ok (code, s') →
      Lowered env (.optional missing e) s code s'
  | none, s, code, s', h => by
    obtain ⟨rfl, rfl⟩ := run_pure_eq_ok.1 h
    exact .missing missing
  | some e, s, code, s', h => .present (lowered_of_lower e _ _ _ h)

theorem lowered_of_lowerBranches : ∀ (bs : List (Expr × Expr)) (o : Option Expr)
    (otherwise : Lower Code), (∀ s code s', otherwise.run s = .ok (code, s') →
      Lowered env (.optional noValue o) s code s') → ∀ (s : Slots) (code : Code) (s' : Slots),
    (lowerBranches env deeper bs otherwise).run s = .ok (code, s') →
      Lowered env (.branches bs o) s code s'
  | [], o, otherwise, ho, s, code, s', h => .otherwise (ho _ _ _ h)
  | (c, e) :: bs, o, otherwise, ho, s, code, s', h => by
    simp only [lowerBranches, run_bind_eq_ok, run_pure_eq_ok] at h
    obtain ⟨c₁, s₁, hc, c₂, s₂, he, c₃, s₃, hbs, rfl, rfl⟩ := h
    exact .branch (lowered_of_lower c _ _ _ hc) (lowered_of_lower e _ _ _ he)
      (lowered_of_lowerBranches bs o otherwise ho _ _ _ hbs)

end

end Trees

/-- **Lowering at any depth follows the rules.** -/
theorem lowered_of_lowerAt (n : Nat) (e : Expr) (h : (lowerAt env n e).run s = .ok (code, s')) :
    Lowered env (.tree e) s code s' := by
  induction n generalizing e s code s' with
  | zero => exact lowered_of_lower (by simp) e s code s' h
  | succ n ih =>
    refine lowered_of_lower (fun body hb e s code s' h => ?_) e s code s' h
    cases hb
    exact ih e h

/-- The code of a program is lowered by the rules from no slots. -/
theorem lowered_of_compile {e : Expr} {p : Program} (h : compile env e = .ok p) :
    ∃ s, Lowered env (.tree e) {} p.code.toList s ∧ p.heapSize = s.size := by
  unfold compile at h
  cases hl : (lowerAt env (definitions e) e).run {} with
  | error f => rw [hl] at h; cases h
  | ok r =>
    rw [hl] at h
    cases h
    exact ⟨r.2, lowered_of_lowerAt _ e hl, rfl⟩

end Pieces

end FormulaLang.Bytecode
