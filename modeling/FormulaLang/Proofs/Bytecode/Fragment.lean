import FormulaLang.Catalog
import FormulaLang.Proofs.Bytecode.SlotUse
import Mathlib.Tactic.Tauto

/-!
# The numeric fragment

Formulas on numbers and bools alone, in which loops multiply over ranges. Their code writes no
position of an enclosing loop, and the temporaries only grow while they are lowered.

* `Expr.numeric`: the fragment, with the names that may be assigned.
* `Slots.Tidy`: names that are bound nowhere have temporaries of their own.
* `Slots.Later`: temporaries that were given out further on.
* `Slots.Opens`: slots in front of a piece of the fragment.
* **`Lowered.spans`**: what lowering a piece of the fragment does to the slots.
-/

namespace FormulaLang

/-- The catalog has a function of the name with a fast path on numbers alone. -/
def Catalog.hasPlain (name : String) : Bool :=
  functions.any fun f => f.1 == name && !f.2.fast.plain.isEmpty

namespace Expr

mutual

/-- Numbers, bools, variables, operators, assignments to some names, statements, conditions with a
value for the other case, calls with a fast path, and products over ranges. Nothing is assigned in
the bounds of a range, and its position is not assigned in the body. -/
def numeric (may : String → Bool) : Expr → Bool
  | .constant (.number _) | .constant (.bool _) | .var _ => true
  | .unary _ e => numeric may e
  | .binary _ a b | .compare _ a b | .logical _ a b => numeric may a && numeric may b
  | .assign name e => may name && numeric may e
  | .sequence es => !es.isEmpty && numericAll may es
  | .cases bs (some e) => numericBranches may bs && numeric may e
  | .call name args => Catalog.hasPlain name && numericAll may args
  | .loop .prod name (.range a d b) body none =>
    numeric (fun _ => false) a && numericOption (fun _ => false) d && numeric (fun _ => false) b &&
      numeric (fun n => may n && n != name) body
  | _ => false

def numericAll (may : String → Bool) : List Expr → Bool
  | [] => true
  | e :: es => numeric may e && numericAll may es

def numericOption (may : String → Bool) : Option Expr → Bool
  | none => true
  | some e => numeric may e

def numericBranches (may : String → Bool) : List (Expr × Expr) → Bool
  | [] => true
  | (c, e) :: rest => numeric may c && numeric may e && numericBranches may rest

end

/-- A loop of the fragment is a product. -/
theorem numeric_loop {may : String → Bool} {kind : LoopKind} {name : String} {a : Expr}
    {d : Option Expr} {b body : Expr} {default : Option Expr}
    (h : (loop kind name (.range a d b) body default).numeric may) :
    kind = .prod ∧ default = none ∧ a.numeric (fun _ => false) ∧
      numericOption (fun _ => false) d ∧ b.numeric (fun _ => false) ∧
      body.numeric fun n => may n && n != name := by
  cases kind with
  | prod =>
    cases default with
    | none => simpa [numeric, and_assoc] using h
    | some e => simp [numeric] at h
  | _ => simp [numeric] at h

end Expr

namespace Bytecode

/-- The parts of formulas of the fragment. -/
def Piece.numeric (may : String → Bool) : Piece → Bool
  | .tree e => e.numeric may
  | .args es | .rest es => Expr.numericAll may es
  | .optional _ e => Expr.numericOption may e
  | .branches bs (some e) => Expr.numericBranches may bs && e.numeric may
  | .branches _ none => false

/-! ## Temporaries -/

theorem bound?_cons {α : Type} {name other : String} {a : α} {bindings : List (String × α)} :
    bound? other ((name, a) :: bindings) = if other = name then some a else bound? other bindings := by
  unfold bound?
  rw [List.find?_cons]
  by_cases h : other = name
  · simp [h]
  · have hb : (name == other) = false := by simpa using Ne.symm h
    rw [hb, if_neg h]

namespace Slots

variable (env : Environment)

/-- The temporaries belong to different names, which are bound nowhere else. -/
structure Tidy (s : Slots) : Prop where
  bounded : s.Bounded
  unique : ∀ n n' k, bound? n s.temporaries = some k → bound? n' s.temporaries = some k → n = n'
  unbound : ∀ n k, bound? n s.temporaries = some k → env.hasVariable n = false
  apart : ∀ p ∈ s.scope, ∀ n, bound? n s.temporaries ≠ some p.2

/-- From one state of the slots to another, slots were only given out, some of them for new
temporaries. -/
structure Later (s s' : Slots) : Prop where
  size_le : s.size ≤ s'.size
  keep : ∀ n k, bound? n s.temporaries = some k → bound? n s'.temporaries = some k
  fresh : ∀ n k, bound? n s'.temporaries = some k →
    bound? n s.temporaries = some k ∨ s.size ≤ k
  tidy : s.Tidy env → s'.Tidy env

variable {env} {s s₁ s₂ : Slots} {name : String} {slot : Nat}

theorem lt_of_temporary (h : s.Bounded) (hk : bound? name s.temporaries = some slot) :
    slot < s.size := by
  refine h slot ?_
  rw [named, List.map_append]
  exact List.mem_append_right _ (mem_of_bound? hk)

theorem lt_of_mem_scope (h : s.Bounded) {p : String × Nat} (hp : p ∈ s.scope) : p.2 < s.size := by
  refine h p.2 ?_
  rw [named, List.map_append]
  exact List.mem_append_left _ (List.mem_map_of_mem hp)

namespace Later

theorem refl (s : Slots) : Later env s s := ⟨Nat.le_refl _, fun _ _ => id, fun _ _ => .inl, id⟩

theorem trans (h : Later env s s₁) (h' : Later env s₁ s₂) : Later env s s₂ where
  size_le := Nat.le_trans h.size_le h'.size_le
  keep n k hk := h'.keep n k (h.keep n k hk)
  fresh n k hk := by
    rcases h'.fresh n k hk with hk | hk
    · exact h.fresh n k hk
    · exact .inr (Nat.le_trans h.size_le hk)
  tidy hs := h'.tidy (h.tidy hs)

end Later

theorem later_fresh (s : Slots) : Later env s s.fresh.2 where
  size_le := Nat.le_succ _
  keep _ _ := id
  fresh _ _ := .inl
  tidy h := ⟨s.grows_fresh.bounded h.bounded, h.unique, h.unbound, h.apart⟩

theorem later_push (s : Slots) (name : String) : Later env s (s.push name).2 where
  size_le := Nat.le_succ _
  keep _ _ := id
  fresh _ _ := .inl
  tidy h := by
    refine ⟨(s.grows_push name).bounded h.bounded, h.unique, h.unbound, fun p hp n hn => ?_⟩
    rcases List.mem_cons.1 hp with rfl | hp
    · exact absurd (lt_of_temporary h.bounded hn) (Nat.lt_irrefl _)
    · exact h.apart p hp n hn

theorem later_pop (s : Slots) : Later env s s.pop where
  size_le := Nat.le_refl _
  keep _ _ := id
  fresh _ _ := .inl
  tidy h := ⟨s.grows_pop.bounded h.bounded, h.unique, h.unbound,
    fun p hp => h.apart p (List.mem_of_mem_tail hp)⟩

theorem later_temporary (hv : env.hasVariable name = false) :
    Later env s (s.temporary name).2 := by
  have hg := s.grows_temporary name
  unfold temporary at hg ⊢
  split
  · exact .refl s
  · next hn =>
    rw [hn] at hg
    have hb : ∀ n, bound? n ((name, s.size) :: s.temporaries) =
        if n = name then some s.size else bound? n s.temporaries := fun n => bound?_cons
    refine ⟨Nat.le_succ _, fun n k hk => ?_, fun n k hk => ?_, fun h => ?_⟩
    · have hne : n ≠ name := by
        rintro rfl
        rw [hn] at hk
        cases hk
      dsimp only
      rw [hb, if_neg hne, hk]
    · dsimp only at hk
      rw [hb] at hk
      split at hk
      · cases hk
        exact .inr (Nat.le_refl _)
      · exact .inl hk
    · have hlt : ∀ n, bound? n s.temporaries ≠ some s.size := fun n hk =>
        absurd (lt_of_temporary h.bounded hk) (Nat.lt_irrefl _)
      refine ⟨hg.bounded h.bounded, fun n n' k hk hk' => ?_, fun n k hk => ?_, fun p hp n hk => ?_⟩
      · dsimp only at hk hk'
        rw [hb] at hk hk'
        split at hk
        · split at hk'
          · next h h' => rw [h, h']
          · cases hk
            exact absurd hk' (hlt n')
        · split at hk'
          · cases hk'
            exact absurd hk (hlt n)
          · exact h.unique n n' k hk hk'
      · dsimp only at hk
        rw [hb] at hk
        split at hk
        · next hname => rw [hname, hv]
        · exact h.unbound n k hk
      · dsimp only at hk
        rw [hb] at hk
        split at hk
        · have hlt := lt_of_mem_scope h.bounded hp
          rw [← Option.some.inj hk] at hlt
          exact absurd hlt (Nat.lt_irrefl _)
        · exact h.apart p hp n hk

end Slots

/-! ## The code of the fragment -/

/-- Slots in front of a piece of the fragment: what it may assign is not in scope, and functions are
not defined. -/
structure Slots.Opens (env : Environment) (may : String → Bool) (s : Slots) : Prop where
  names : ∀ name, may name → bound? name s.scope = none
  functions : s.functions = []
  tidy : s.Tidy env

namespace Slots

variable {env : Environment} {may : String → Bool} {s : Slots}

theorem opens_empty (env : Environment) (may : String → Bool) : Opens env may {} :=
  ⟨fun _ _ => rfl, rfl, fun _ h => (by cases h), fun _ _ _ h => (by cases h),
    fun _ _ h => (by cases h), fun _ h => (by cases h)⟩

theorem Opens.fresh (h : s.Opens env may) : s.fresh.2.Opens env may :=
  ⟨h.names, h.functions, (later_fresh s).tidy h.tidy⟩

/-- Nothing at all may be assigned. -/
theorem Opens.none (h : s.Opens env may) : s.Opens env fun _ => false :=
  ⟨fun _ hn => (by cases hn), h.functions, h.tidy⟩

theorem Opens.push (h : s.Opens env may) (name : String) :
    (s.push name).2.Opens env fun n => may n && n != name := by
  refine ⟨fun n hn => ?_, h.functions, (later_push s name).tidy h.tidy⟩
  simp only [Bool.and_eq_true, bne_iff_ne] at hn
  exact bound?_cons.trans ((if_neg hn.2).trans (h.names n hn.1))

end Slots

/-- What lowering a piece of the fragment does to the slots: names stay in scope, functions are not
defined, and the code does not write what is in scope. -/
structure Spans (env : Environment) (s : Slots) (code : Code) (s' : Slots) : Prop where
  later : Slots.Later env s s'
  scope : s'.scope = s.scope
  functions : s'.functions = s.functions
  spares : ∀ p ∈ s.scope, .writeSlot p.2 ∉ code

section Spans

variable {env : Environment} {s s₁ s₂ : Slots} {code code' : Code} {i : Instruction}
  {name : String} {may : String → Bool}

theorem Spans.append (h : Spans env s code s₁) (h' : Spans env s₁ code' s₂) :
    Spans env s (code ++ code') s₂ where
  later := h.later.trans h'.later
  scope := h'.scope.trans h.scope
  functions := h'.functions.trans h.functions
  spares p hp hm := by
    rcases List.mem_append.1 hm with hm | hm
    · exact h.spares p hp hm
    · exact h'.spares p (h.scope ▸ hp) hm

/-- The slots behind a piece are in front of the next one. -/
theorem Spans.opens (h : Spans env s code s₁) (ho : s.Opens env may) : s₁.Opens env may :=
  ⟨h.scope ▸ ho.names, h.functions.trans ho.functions, h.later.tidy ho.tidy⟩

theorem spans_nil (s : Slots) : Spans env s [] s := ⟨.refl s, rfl, rfl, fun _ _ => by simp⟩

theorem spans_singleton (hi : i.slot? = none) : Spans env s [i] s := by
  refine ⟨.refl s, rfl, rfl, fun p _ hm => ?_⟩
  rw [List.mem_singleton] at hm
  rw [← hm] at hi
  cases hi

/-- Names that are not in scope are not written to the slots of the scope. -/
theorem Written.spans (h : Written env name s i s₁) (hn : bound? name s.scope = none)
    (ht : s.Tidy env) : Spans env s [i] s₁ := by
  have hslot : ∀ slot, i = .writeSlot slot → bound? name s₁.temporaries = some slot := by
    intro slot hi
    subst hi
    cases h with
    | slot h =>
      rw [Slots.lookup?, hn] at h
      exact h
    | temporary h hv =>
      rw [Slots.lookup?, hn] at h
      dsimp only at h
      unfold Slots.temporary
      rw [h]
      exact bound?_cons.trans (if_pos rfl)
  have hlater : Slots.Later env s s₁ ∧ s₁.scope = s.scope ∧ s₁.functions = s.functions := by
    cases h with
    | slot h => exact ⟨.refl s, rfl, rfl⟩
    | cell => exact ⟨.refl s, rfl, rfl⟩
    | temporary h hv =>
      refine ⟨Slots.later_temporary hv, ?_⟩
      unfold Slots.temporary
      split <;> exact ⟨rfl, rfl⟩
  obtain ⟨hl, hs, hf⟩ := hlater
  refine ⟨hl, hs, hf, fun p hp hm => ?_⟩
  rw [List.mem_singleton] at hm
  exact (hl.tidy ht).apart p (hs ▸ hp) name (hslot p.2 hm.symm)

/-- The code of a loop spares what is in scope if its parts do. -/
theorem spans_loop {op : BinaryOp} {seed : Float} {start step stop : Code} {s₃ s₄ : Slots}
    (ht : s.Tidy env) (hb : Spans env s.fresh.2 stop s₁) (hd : Spans env s₁.fresh.2 step s₂)
    (ha : Spans env s₂ start s₃) (hbody : Spans env (s₃.push name).2.fresh.2 code s₄) :
    Spans env s (loopSetup ⟨s₃.size, s₃.size + 1, s₁.size, s.size⟩ seed start step stop ++
      loopCode ⟨s₃.size, s₃.size + 1, s₁.size, s.size⟩ op code) s₄.pop := by
  have h₁ := (Slots.later_fresh s).trans hb.later
  have h₂ := (Slots.later_fresh s₁).trans hd.later
  have h₃ : Slots.Later env s₃ _ := (Slots.later_push s₃ name).trans (Slots.later_fresh _)
  have hscope₁ : s₁.scope = s.scope := hb.scope
  have hscope₂ : s₂.scope = s.scope := hd.scope.trans hscope₁
  have hscope₃ : s₃.scope = s.scope := ha.scope.trans hscope₂
  refine ⟨((((h₁.trans h₂).trans ha.later).trans h₃).trans hbody.later).trans
    (Slots.later_pop s₄), (congrArg List.tail hbody.scope).trans hscope₃,
    hbody.functions.trans (ha.functions.trans (hd.functions.trans hb.functions)),
    fun p hmem hw => ?_⟩
  have hlt := Slots.lt_of_mem_scope ht.bounded hmem
  have hle₁ := h₁.size_le
  have hle₃ := (h₂.trans ha.later).size_le
  have hw : p.2 = s.size ∨ p.2 = s₁.size ∨ p.2 = s₃.size ∨ p.2 = s₃.size + 1 ∨
      .writeSlot p.2 ∈ stop ∨ .writeSlot p.2 ∈ step ∨ .writeSlot p.2 ∈ start ∨
      .writeSlot p.2 ∈ code := by
    simp only [loopSetup, loopCode, loopTest, finiteTest, loopAdvance, List.mem_append,
      List.mem_cons, List.not_mem_nil, or_false, false_or, reduceCtorEq,
      Instruction.writeSlot.injEq] at hw
    tauto
  rcases hw with hw | hw | hw | hw | hw | hw | hw | hw
  · omega
  · omega
  · omega
  · omega
  · exact hb.spares p hmem hw
  · exact hd.spares p (hscope₁ ▸ hmem) hw
  · exact ha.spares p (hscope₂ ▸ hmem) hw
  · exact hbody.spares p (List.mem_cons_of_mem _ (hscope₃ ▸ hmem)) hw

end Spans

theorem numericAll_of_operation {may : String → Bool} {e : Expr} {es : List Expr} {i : Instruction}
    (h : operation? e = some (es, i)) (he : e.numeric may) : Expr.numericAll may es := by
  cases e <;> cases h <;> simpa [Expr.numeric, Expr.numericAll] using he

/-- The code of a missing step uses no slot. -/
theorem missingUsesNone_constant (x : Float) (o : Option Expr) :
    (Piece.optional [.constant x] o).MissingUsesNone := by
  simp [Piece.MissingUsesNone, Instruction.slot?]

/-- **Lowering a piece of the fragment.** -/
theorem Lowered.spans {env : Environment} {p : Piece} {s s' : Slots} {code : Code}
    {may : String → Bool} (h : Lowered env p s code s') (hp : p.numeric may)
    (ho : s.Opens env may) (hu : p.MissingUsesNone) : Spans env s code s' := by
  induction h generalizing may with
  | number | bool | slot | cell | empty => exact ⟨.refl _, rfl, rfl, fun _ _ => by simp [noValue]⟩
  | operation h hes ih =>
    exact (ih (numericAll_of_operation h hp) ho trivial).append
      (spans_singleton (slot?_of_operation h))
  | @assign s s₁ s₂ name e code write he hw ih =>
    simp only [Piece.numeric, Expr.numeric, Bool.and_eq_true] at hp
    have he := ih hp.2 ho trivial
    have ho₁ := he.opens ho
    exact he.append ((spans_singleton rfl).append (hw.spans (ho₁.names name hp.1) ho₁.tidy))
  | @cases s s' bs o code h ih =>
    cases o with
    | none => simp [Piece.numeric, Expr.numeric] at hp
    | some e => exact ih (by simpa [Piece.numeric, Expr.numeric] using hp) ho trivial
  | loop hk hb hd ha hbody ihb ihd iha ihbody =>
    obtain ⟨rfl, rfl, hpa, hpd, hpb, hpbody⟩ := Expr.numeric_loop hp
    have hb := ihb hpb ho.fresh.none trivial
    have ho₁ := hb.opens ho.fresh
    have hd := ihd hpd ho₁.fresh.none (missingUsesNone_constant _ _)
    have ho₂ := hd.opens ho₁.fresh
    have ha := iha hpa ho₂.none trivial
    exact spans_loop ho.tidy hb hd ha (ihbody hpbody ((ha.opens ho₂).push _).fresh trivial)
  | sequence he hes ihe ihes =>
    simp only [Piece.numeric, Expr.numeric, Expr.numericAll, Bool.and_eq_true] at hp
    have he := ihe hp.2.1 ho trivial
    exact he.append (ihes hp.2.2 (he.opens ho) trivial)
  | define => simp [Piece.numeric, Expr.numeric] at hp
  | inline hfun =>
    rw [Slots.function?, ho.functions] at hfun
    cases hfun
  | call hl hfun hn hargs ih =>
    simp only [Piece.numeric, Expr.numeric, Bool.and_eq_true] at hp
    exact (ih hp.2 ho trivial).append (spans_singleton (slot?_callInstruction _ _ _))
  | noArgs | noRest => exact spans_nil _
  | consArg he hes ihe ihes =>
    simp only [Piece.numeric, Expr.numericAll, Bool.and_eq_true] at hp
    have he := ihe hp.1 ho trivial
    exact he.append (ihes hp.2 (he.opens ho) trivial)
  | consRest he hes ihe ihes =>
    simp only [Piece.numeric, Expr.numericAll, Bool.and_eq_true] at hp
    have he := ihe hp.1 ho trivial
    exact (spans_singleton rfl).append (he.append (ihes hp.2 (he.opens ho) trivial))
  | missing code => exact ⟨.refl _, rfl, rfl, fun p _ hw => hu _ hw p.2 rfl⟩
  | present he ih => exact ih hp ho trivial
  | @otherwise s s' o code h ih =>
    cases o with
    | none => cases hp
    | some e =>
      exact ih (by simpa [Piece.numeric, Expr.numericBranches, Expr.numericOption] using hp) ho
        (missingUsesNone_constant _ _)
  | @branch s s₁ s₂ s₃ c e bs o condition value rest hc he hbs ihc ihe ihbs =>
    cases o with
    | none => cases hp
    | some e' =>
      simp only [Piece.numeric, Expr.numericBranches, Bool.and_eq_true] at hp
      obtain ⟨⟨⟨hpc, hpe⟩, hpbs⟩, hpo⟩ := hp
      have hc := ihc hpc ho trivial
      have ho₁ := hc.opens ho
      have he := ihe hpe ho₁ trivial
      have hbs := ihbs (by simp [Piece.numeric, hpbs, hpo]) (he.opens ho₁) trivial
      have hjump : Spans env s₁ ([.unary .not] ++ [.jumpIf (value.length + 2)]) s₁ :=
        (spans_singleton rfl).append (spans_singleton rfl)
      exact ((((hc.append hjump).append he).append (spans_singleton rfl)).append hbs)

end Bytecode

end FormulaLang
