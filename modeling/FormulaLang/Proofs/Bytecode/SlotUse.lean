import FormulaLang.Proofs.Bytecode.Lowering
import FormulaLang.Proofs.Bytecode.Step

/-!
# The slots that code uses

The code of a piece uses the slots that had a name before it was lowered and slots that it gave out
itself. Slots without a name from further out, such as those of an enclosing loop, are not touched.

* `Slots.named`: the slots with a name.
* `Slots.Within`: a slot with a name, or given out between two states of the slots.
* `Slots.Bounded`: the slots with a name have been given out.
* `UsesOnly`, `Slots.Spends`: the slots in code.
* **`Lowered.spends`**: the slots of lowered code.
-/

namespace FormulaLang.Bytecode

theorem mem_of_bound? {α : Type} {name : String} {bindings : List (String × α)} {a : α}
    (h : bound? name bindings = some a) : a ∈ bindings.map Prod.snd := by
  obtain ⟨b, hb, rfl⟩ := Option.map_eq_some_iff.1 h
  exact List.mem_map_of_mem (List.mem_of_find?_eq_some hb)

namespace Slots

/-- The slots with a name. -/
def named (s : Slots) : List Nat := (s.scope ++ s.temporaries).map Prod.snd

/-- The slot had a name at the beginning or was given out until the end. -/
def Within (s s' : Slots) (slot : Nat) : Prop := slot ∈ s.named ∨ s.size ≤ slot ∧ slot < s'.size

/-- From one state of the slots to another, slots were only given out, and names for them. -/
structure Grows (s s' : Slots) : Prop where
  size_le : s.size ≤ s'.size
  named_within : ∀ slot ∈ s'.named, s.Within s' slot

/-- Every slot with a name has been given out. -/
def Bounded (s : Slots) : Prop := ∀ slot ∈ s.named, slot < s.size

variable {s s₁ s₂ s₃ : Slots} {slot : Nat}

theorem Bounded.lt_of_within (h : s.Bounded) (hle : s.size ≤ s₁.size) (hs : s.Within s₁ slot) :
    slot < s₁.size := by
  rcases hs with hs | hs
  · exact Nat.lt_of_lt_of_le (h slot hs) hle
  · exact hs.2

/-- A slot that had been given out without a name does not come to use. -/
theorem Bounded.not_within (h : s.Bounded) (hs : slot = s.size) : ¬ s.fresh.2.Within s₁ slot := by
  rintro (hn | hn)
  · have := h slot hn
    omega
  · have hf : s.fresh.2.size = s.size + 1 := rfl
    omega

namespace Grows

theorem refl (s : Slots) : s.Grows s := ⟨Nat.le_refl _, fun _ => .inl⟩

theorem within (h : s.Grows s₁) (hs : s₁.Within s₂ slot) (h₁ : s₁.size ≤ s₃.size)
    (h₂ : s₂.size ≤ s₃.size) : s.Within s₃ slot := by
  have := h.size_le
  rcases hs with hs | hs
  · rcases h.named_within slot hs with hs | hs
    · exact .inl hs
    · exact .inr (by omega)
  · exact .inr (by omega)

theorem trans (h : s.Grows s₁) (h' : s₁.Grows s₂) : s.Grows s₂ :=
  ⟨Nat.le_trans h.size_le h'.size_le,
    fun slot hs => h.within (h'.named_within slot hs) h'.size_le (Nat.le_refl _)⟩

theorem bounded (h : s.Grows s₁) (hs : s.Bounded) : s₁.Bounded :=
  fun slot hn => hs.lt_of_within h.size_le (h.named_within slot hn)

/-- Forgetting names, and changing what is not about slots. -/
theorem of_subset (hs : s.size = s₁.size) (hn : s₁.named ⊆ s.named) : s.Grows s₁ :=
  ⟨Nat.le_of_eq hs, fun _ h => .inl (hn h)⟩

end Grows

theorem grows_fresh (s : Slots) : s.Grows s.fresh.2 := ⟨Nat.le_succ _, fun _ h => .inl h⟩

theorem named_push (s : Slots) (name : String) : (s.push name).2.named = s.size :: s.named := rfl

theorem grows_push (s : Slots) (name : String) : s.Grows (s.push name).2 := by
  refine ⟨Nat.le_succ _, fun slot h => ?_⟩
  rw [named_push, List.mem_cons] at h
  rcases h with rfl | h
  · exact .inr ⟨Nat.le_refl _, Nat.lt_succ_self _⟩
  · exact .inl h

theorem grows_pushAll (s : Slots) (names : List String) : s.Grows (s.pushAll names) := by
  induction names generalizing s with
  | nil => exact .of_subset rfl (by simp [pushAll, named])
  | cons name names ih =>
    rw [pushAll_cons]
    exact (s.grows_push name).trans (ih _)

theorem grows_pop (s : Slots) : s.Grows s.pop :=
  .of_subset rfl (List.map_subset _ (List.append_subset.2
    ⟨List.subset_append_of_subset_left _ (fun _ => List.mem_of_mem_tail), List.subset_append_right _ _⟩))

theorem grows_popAll (s : Slots) (n : Nat) : s.Grows (s.popAll n) :=
  .of_subset rfl (List.map_subset _ (List.append_subset.2
    ⟨List.subset_append_of_subset_left _ (List.drop_subset _ _), List.subset_append_right _ _⟩))

theorem grows_endCall (s : Slots) : s.Grows s.endCall := .of_subset rfl (List.Subset.refl _)

theorem grows_define (s : Slots) (name : String) (f : Inline) : s.Grows (s.define name f) :=
  .of_subset rfl (List.Subset.refl _)

theorem grows_beginCall {name : String} (h : s.beginCall? name = some s₁) : s.Grows s₁ := by
  unfold beginCall? at h
  split at h
  · cases h
  · cases h
    exact .of_subset rfl (List.Subset.refl _)

theorem mem_named_of_lookup {name : String} (h : s.lookup? name = some slot) : slot ∈ s.named := by
  unfold lookup? at h
  rw [named, List.map_append, List.mem_append]
  split at h
  · next hb =>
    cases h
    exact .inl (mem_of_bound? hb)
  · exact .inr (mem_of_bound? h)

theorem within_of_lookup {name : String} (h : s.lookup? name = some slot) : s.Within s₁ slot :=
  .inl (mem_named_of_lookup h)

theorem grows_temporary (s : Slots) (name : String) : s.Grows (s.temporary name).2 := by
  unfold temporary
  split
  · exact .refl s
  · refine ⟨Nat.le_succ _, fun slot h => ?_⟩
    simp only [named, List.map_append, List.map_cons, List.mem_append, List.mem_cons] at h
    rcases h with h | rfl | h
    · exact .inl (by simp [named, h])
    · exact .inr ⟨Nat.le_refl _, Nat.lt_succ_self _⟩
    · exact .inl (by simp [named, h])

theorem within_temporary (s : Slots) (name : String) :
    s.Within (s.temporary name).2 (s.temporary name).1 := by
  unfold temporary
  split
  · next hb => exact .inl (by simp [named, mem_of_bound? hb])
  · exact .inr ⟨Nat.le_refl _, Nat.lt_succ_self _⟩

theorem within_slotsOf {names : List String} (h : slot ∈ s.slotsOf names) :
    s.Within (s.pushAll names) slot := by
  rw [slotsOf, List.mem_range'_1] at h
  exact .inr h

end Slots

/-! ## The slots of code -/

/-- Every slot in code has a property. -/
def UsesOnly (P : Nat → Prop) (code : Code) : Prop := ∀ i ∈ code, ∀ slot ∈ i.slot?, P slot

section UsesOnly

variable {P Q : Nat → Prop} {code code' : Code} {i : Instruction}

theorem UsesOnly.mono (h : UsesOnly P code) (hPQ : ∀ slot, P slot → Q slot) : UsesOnly Q code :=
  fun i hi slot hs => hPQ slot (h i hi slot hs)

@[simp] theorem usesOnly_nil : UsesOnly P [] := by simp [UsesOnly]

@[simp] theorem usesOnly_cons :
    UsesOnly P (i :: code) ↔ (∀ slot ∈ i.slot?, P slot) ∧ UsesOnly P code := by
  simp [UsesOnly]

@[simp] theorem usesOnly_append :
    UsesOnly P (code ++ code') ↔ UsesOnly P code ∧ UsesOnly P code' := by
  simp [UsesOnly, or_imp, forall_and]

end UsesOnly

/-- The instruction of an operator uses no slot. -/
theorem slot?_of_operation {e : Expr} {es : List Expr} {i : Instruction}
    (h : operation? e = some (es, i)) : i.slot? = none := by
  cases e <;> cases h <;> rfl

theorem slot?_callInstruction (name : String) (f : Function) (n : Nat) :
    (callInstruction name f n).slot? = none := by
  unfold callInstruction
  split <;> rfl

/-- A loop uses its own slots and those of its body. -/
theorem usesOnly_loopCode {P : Nat → Prop} {l : LoopSlots} {op : BinaryOp} {body : Code}
    (hl : P l.position ∧ P l.previous ∧ P l.step ∧ P l.stop) (hb : UsesOnly P body) :
    UsesOnly P (loopCode l op body) := by
  simp [loopCode, loopTest, finiteTest, loopAdvance, Instruction.slot?, hl, hb]

theorem usesOnly_loopSetup {P : Nat → Prop} {l : LoopSlots} {seed : Float} {start step stop : Code}
    (hl : P l.position ∧ P l.previous ∧ P l.step ∧ P l.stop) (ha : UsesOnly P start)
    (hd : UsesOnly P step) (hb : UsesOnly P stop) :
    UsesOnly P (loopSetup l seed start step stop) := by
  simp [loopSetup, Instruction.slot?, hl, ha, hd, hb]

theorem usesOnly_branchCode {P : Nat → Prop} {condition value rest : Code}
    (hc : UsesOnly P condition) (hv : UsesOnly P value) (hr : UsesOnly P rest) :
    UsesOnly P (branchCode condition value rest) := by
  simp [branchCode, Instruction.slot?, hc, hv, hr]

/-- Code that stands for a missing tree uses no slot. -/
def Piece.MissingUsesNone : Piece → Prop
  | .optional missing _ => UsesOnly (fun _ => False) missing
  | _ => True

/-- Lowering code from some slots leads to others, and the code uses slots in between. -/
structure Slots.Spends (s : Slots) (code : Code) (s' : Slots) : Prop where
  grows : s.Grows s'
  uses : UsesOnly (s.Within s') code

section Spends

variable {s s₁ s₂ s₃ : Slots} {code code' : Code} {i : Instruction}

theorem Slots.Grows.spends (h : s.Grows s₁) : s.Spends [] s₁ := ⟨h, usesOnly_nil⟩

theorem Slots.Spends.uses_of_grows (h : s₁.Spends code s₂) (h₀ : s.Grows s₁)
    (h₁ : s₂.size ≤ s₃.size) : UsesOnly (s.Within s₃) code :=
  h.uses.mono fun _ hs => h₀.within hs (Nat.le_trans h.grows.size_le h₁) h₁

theorem Slots.Spends.append (h : s.Spends code s₁) (h' : s₁.Spends code' s₂) :
    s.Spends (code ++ code') s₂ :=
  ⟨h.grows.trans h'.grows, usesOnly_append.2
    ⟨h.uses_of_grows (.refl s) h'.grows.size_le, h'.uses_of_grows h.grows (Nat.le_refl _)⟩⟩

/-- Code that was lowered later does not touch a slot without a name. -/
theorem Slots.Spends.not_mem (h : s₁.Spends code s₂) (hs : s.Bounded) (hg : s.fresh.2.Grows s₁) :
    .writeSlot s.size ∉ code := by
  intro hm
  have hle : s.size + 1 ≤ s₁.size := hg.size_le
  rcases h.uses _ hm s.size rfl with hn | hn
  · exact hs.not_within rfl (hg.named_within _ hn)
  · omega

theorem spends_of_usesNone (h : UsesOnly (fun _ => False) code) : s.Spends code s :=
  ⟨.refl s, h.mono fun _ => False.elim⟩

theorem spends_of_slot?_none (h : i.slot? = none) : s.Spends [i] s :=
  spends_of_usesNone (by simp [h])

theorem Written.spends {env : Environment} {name : String} (h : Written env name s i s₁) :
    s.Spends [i] s₁ := by
  cases h with
  | slot h => exact ⟨.refl s, by simpa [Instruction.slot?] using Slots.within_of_lookup h⟩
  | cell => exact spends_of_slot?_none rfl
  | temporary =>
    exact ⟨s.grows_temporary name, by simpa [Instruction.slot?] using s.within_temporary name⟩

end Spends

/-- **The slots of lowered code** had a name before or were given out for it. -/
theorem Lowered.spends {env : Environment} {p : Piece} {s s' : Slots} {code : Code}
    (h : Lowered env p s code s') (hp : p.MissingUsesNone) : s.Spends code s' := by
  induction h with
  | number | bool | cell | empty => exact spends_of_slot?_none rfl
  | slot h => exact ⟨.refl _, by simpa [Instruction.slot?] using Slots.within_of_lookup h⟩
  | operation h hes ih => exact (ih trivial).append (spends_of_slot?_none (slot?_of_operation h))
  | assign he hw ih => exact (ih trivial).append ((spends_of_slot?_none rfl).append hw.spends)
  | cases h ih => exact ih trivial
  | @loop s s₁ s₂ s₃ s₄ kind op seed name a d b body default start step stop code hk hb hd ha hbody
      ihb ihd iha ihbody =>
    have hb := ihb trivial
    have hd := ihd (by simp [Piece.MissingUsesNone, Instruction.slot?])
    have ha := iha trivial
    have hbody := ihbody trivial
    have g₁ := s.grows_fresh.trans hb.grows
    have g₂ := g₁.trans (s₁.grows_fresh.trans hd.grows)
    have g₃ := g₂.trans ha.grows
    have g₄ := g₃.trans ((s₃.grows_push name).trans (Slots.grows_fresh _))
    -- The slots of the loop are the sizes at the points where they were given out.
    have hs : s.size + 1 ≤ s₁.size := hb.grows.size_le
    have hs₁ : s₁.size + 1 ≤ s₂.size := hd.grows.size_le
    have hs₂ := ha.grows.size_le
    have hs₃ : s₃.size + 2 ≤ s₄.size := hbody.grows.size_le
    have hl : s.Within s₄.pop s₃.size ∧ s.Within s₄.pop (s₃.size + 1) ∧
        s.Within s₄.pop s₁.size ∧ s.Within s₄.pop s.size := by
      simp only [Slots.Within, Slots.pop]
      omega
    refine ⟨(g₄.trans hbody.grows).trans s₄.grows_pop, usesOnly_append.2
      ⟨usesOnly_loopSetup ?_ ?_ ?_ ?_, usesOnly_loopCode ?_ ?_⟩⟩
    · exact hl
    · exact ha.uses_of_grows g₂ (by change s₃.size ≤ s₄.size; omega)
    · exact hd.uses_of_grows (g₁.trans s₁.grows_fresh) (by change s₂.size ≤ s₄.size; omega)
    · exact hb.uses_of_grows s.grows_fresh (by change s₁.size ≤ s₄.size; omega)
    · exact hl
    · exact hbody.uses_of_grows g₄ (Nat.le_refl _)
  | sequence he hes ihe ihes | consArg he hes ihe ihes => exact (ihe trivial).append (ihes trivial)
  | define name params body =>
    exact (spends_of_slot?_none rfl).append (Slots.grows_define _ _ _).spends
  | @inline s s₁ s₂ s₃ name args f code body hf hb hn hargs hbody ihargs ihbody =>
    have hparams : s₂.Spends ((s₂.slotsOf f.params).reverse.map .writeSlot) (s₂.pushAll f.params) :=
      ⟨s₂.grows_pushAll _, by
        intro i hi slot hs
        obtain ⟨k, hk, rfl⟩ := List.mem_map.1 hi
        cases hs
        exact Slots.within_slotsOf (List.mem_reverse.1 hk)⟩
    have hend := ((s₃.grows_popAll f.params.length).trans (Slots.grows_endCall _)).spends
    simpa using (Slots.grows_beginCall hb).spends.append
      ((ihargs trivial).append (hparams.append ((ihbody trivial).append hend)))
  | call hl hf hn hargs ih =>
    exact (ih trivial).append (spends_of_slot?_none (slot?_callInstruction _ _ _))
  | noArgs | noRest => exact (Slots.Grows.refl _).spends
  | consRest he hes ihe ihes =>
    exact (spends_of_slot?_none rfl).append ((ihe trivial).append (ihes trivial))
  | missing => exact spends_of_usesNone hp
  | present he ih => exact ih trivial
  | otherwise h ih => exact ih (by simp [Piece.MissingUsesNone, noValue, Instruction.slot?])
  | branch hc he hbs ihc ihe ihbs =>
    have hc := ihc trivial
    have he := ihe trivial
    have hbs := ihbs trivial
    have hle := he.grows.trans hbs.grows
    exact ⟨hc.grows.trans hle, usesOnly_branchCode
      (hc.uses_of_grows (.refl _) hle.size_le)
      (he.uses_of_grows hc.grows hbs.grows.size_le)
      (hbs.uses_of_grows (hc.grows.trans he.grows) (Nat.le_refl _))⟩

end FormulaLang.Bytecode
