import FormulaLang.Proofs.Bytecode.Footprint
import FormulaLang.Proofs.Bytecode.Simulation

/-!
# The cells in code

The code of a formula uses the number cells of the variables that the formula names. Formulas that
share no cell that one of them assigns do not disturb each other.

* `Expr.names`: the names that a tree assigns, or also those that it reads.
* `Environment.Independent`: no number that one of two trees assigns is used by the other.
* `Footprint`: what the code of a piece uses, by the names in it.
* **`Lowered.footprint`**: the footprint of lowered code.
-/

namespace FormulaLang

/-! ## Names in trees -/

namespace Expr

section Names

variable (reads : Bool)

mutual

/-- The names that a tree of the numeric fragment assigns, or also those that it reads. -/
def names : Expr → List String
  | .var name => if reads then [name] else []
  | .assign name e => name :: names e
  | .unary _ e => names e
  | .binary _ a b | .compare _ a b | .logical _ a b => names a ++ names b
  | .sequence es | .call _ es => namesAll es
  | .cases bs o => namesBranches bs ++ namesOption o
  | .loop _ _ (.range a d b) body _ => names a ++ namesOption d ++ names b ++ names body
  | _ => []

def namesAll : List Expr → List String
  | [] => []
  | e :: es => names e ++ namesAll es

def namesOption : Option Expr → List String
  | none => []
  | some e => names e

def namesBranches : List (Expr × Expr) → List String
  | [] => []
  | (c, e) :: rest => names c ++ names e ++ namesBranches rest

end

end Names

end Expr

/-- A number variable at the outermost level. -/
def Environment.holdsNumber (env : Environment) (name : String) : Bool :=
  (Bytecode.globalCell env name).isOk

/-- No number that belongs to some names belongs to others too. -/
def Environment.Separate (env : Environment) (names names' : List String) : Prop :=
  ∀ name ∈ names, ∀ name' ∈ names', ∀ cell, Bytecode.globalCell env name = .ok cell →
    Bytecode.globalCell env name' ≠ .ok cell

/-- No number that one of two trees assigns is read or assigned by the other. The trees are given by
the names that they assign, and by all their names. -/
structure Environment.Independent (env : Environment) (names names' : Bool → List String) :
    Prop where
  left : env.Separate (names false) (names' true)
  right : env.Separate (names' false) (names true)

theorem Environment.hasVariable_of_holdsNumber {env : Environment} {name : String}
    (h : env.holdsNumber name) : env.hasVariable name := by
  unfold holdsNumber at h
  unfold hasVariable ScopedTable.contains
  cases hi : env.vars.index[name]? with
  | none =>
    have hentry : env.vars.entry? name = none := by rw [ScopedTable.entry?, hi]
    rw [Bytecode.globalCell, hentry] at h
    cases h
  | some i => exact Std.HashMap.contains_eq_isSome_getElem?.trans (by rw [hi]; rfl)

namespace Bytecode

/-- The names in a part of a tree. -/
def Piece.names (reads : Bool) : Piece → List String
  | .tree e => e.names reads
  | .args es | .rest es => Expr.namesAll reads es
  | .optional _ o => Expr.namesOption reads o
  | .branches bs o => Expr.namesBranches reads bs ++ Expr.namesOption reads o

/-! ## Cells in code -/

/-- The code of a piece uses the cells of names in it. There are no new temporaries if all names
that it assigns are bound. -/
structure Footprint (env : Environment) (names : Bool → List String) (s : Slots) (code : Code)
    (s' : Slots) : Prop where
  plain : Plain code
  cells : ∀ reads k, Uses reads code (.cell k) → ∃ name ∈ names reads, globalCell env name = .ok k
  functions : s'.functions = s.functions
  temporaries : (∀ name ∈ names false, env.hasVariable name) → s'.temporaries = s.temporaries

section Footprint

variable {env : Environment} {names names' : Bool → List String} {s s₁ s₂ : Slots}
  {code code' : Code} {i : Instruction}

theorem Footprint.append (h : Footprint env names s code s₁)
    (h' : Footprint env names' s₁ code' s₂) :
    Footprint env (fun reads => names reads ++ names' reads) s (code ++ code') s₂ where
  plain := plain_append.2 ⟨h.plain, h'.plain⟩
  cells reads k hu := by
    rcases uses_append.1 hu with hu | hu
    · obtain ⟨name, hn, hc⟩ := h.cells reads k hu
      exact ⟨name, List.mem_append_left _ hn, hc⟩
    · obtain ⟨name, hn, hc⟩ := h'.cells reads k hu
      exact ⟨name, List.mem_append_right _ hn, hc⟩
  functions := h'.functions.trans h.functions
  temporaries hn := (h'.temporaries fun name hm => hn name (List.mem_append_right _ hm)).trans
    (h.temporaries fun name hm => hn name (List.mem_append_left _ hm))

theorem Footprint.mono (h : Footprint env names s code s₁)
    (hn : ∀ reads, names reads ⊆ names' reads) : Footprint env names' s code s₁ :=
  ⟨h.plain, fun reads k hu => (h.cells reads k hu).imp fun _ ⟨hm, hc⟩ => ⟨hn reads hm, hc⟩,
    h.functions, fun hv => h.temporaries fun name hm => hv name (hn false hm)⟩

theorem footprint_nil : Footprint env (fun _ => []) s [] s :=
  ⟨plain_nil, fun _ _ hu => (not_uses_nil hu).elim, rfl, fun _ => rfl⟩

/-- An instruction that uses no cell. -/
theorem footprint_singleton (hi : i.plain) (hc : ∀ reads k, i.place? reads ≠ some (.cell k)) :
    Footprint env (fun _ => []) s [i] s := by
  refine ⟨by simp [hi], fun reads k hu => ?_, rfl, fun _ => rfl⟩
  rw [uses_cons] at hu
  exact (hu.resolve_right not_uses_nil |> hc reads k).elim

theorem footprint_operation {e : Expr} {es : List Expr} (h : operation? e = some (es, i)) :
    Footprint env (fun _ => []) s [i] s := by
  cases e <;> cases h <;> exact footprint_singleton rfl (by simp [Instruction.place?])

theorem names_of_operation {e : Expr} {es : List Expr} (h : operation? e = some (es, i))
    (reads : Bool) : e.names reads = Expr.namesAll reads es := by
  cases e <;> cases h <;> simp [Expr.names, Expr.namesAll]

theorem Written.footprint {name : String} (h : Written env name s i s₁) :
    Footprint env (fun _ => [name]) s [i] s₁ := by
  cases h with
  | slot h => exact (footprint_singleton rfl (by simp [Instruction.place?])).mono (by simp)
  | @cell k h hv hc =>
    refine ⟨by simp [Instruction.plain], fun reads k' hu => ?_, rfl, fun _ => rfl⟩
    simp only [uses_cons, Instruction.place?, Option.some.injEq, Place.cell.injEq, not_uses_nil,
      or_false] at hu
    exact ⟨name, List.mem_singleton_self _, hu ▸ hc⟩
  | temporary h hv =>
    refine ⟨by simp [Instruction.plain], fun reads k hu => ?_, ?_, fun hn => ?_⟩
    · simp [Instruction.place?] at hu
    · unfold Slots.temporary
      split <;> rfl
    · rw [hn name (List.mem_singleton_self _)] at hv
      cases hv

/-- Calls of functions with a fast path on numbers do not need the engine. -/
theorem exists_callPlain {name : String} {f : Function} {n : Nat}
    (hm : (name, f) ∈ Catalog.functions) (hp : Catalog.hasPlain name)
    (hn : checkArity name f.arity n = .ok ()) : ∃ q, callInstruction name f n = .callPlain q := by
  rw [checkArity_eq_ok] at hn
  rcases Catalog.plain_cases hm (Catalog.plain_of_hasPlain hm hp) with ⟨g, hg⟩ | ⟨g, hg⟩
  · obtain rfl : f = (Catalog.unaryMath name g).2 := congrArg Prod.snd hg
    obtain rfl := hn 1 rfl
    exact ⟨_, rfl⟩
  · obtain rfl : f = (Catalog.binaryMath name g).2 := congrArg Prod.snd hg
    obtain rfl := hn 2 rfl
    exact ⟨_, rfl⟩

theorem footprint_loop {op : BinaryOp} {seed : Float} {l : LoopSlots} {start step stop : Code}
    {na nd nb : Bool → List String} {s₃ s₄ : Slots} {name : String}
    (hb : Footprint env nb s.fresh.2 stop s₁) (hd : Footprint env nd s₁.fresh.2 step s₂)
    (ha : Footprint env na s₂ start s₃)
    (hbody : Footprint env names (s₃.push name).2.fresh.2 code s₄) :
    Footprint env (fun reads => na reads ++ nd reads ++ nb reads ++ names reads) s
      (loopSetup l seed start step stop ++ loopCode l op code) s₄.pop := by
  refine ⟨?_, fun reads k hu => ?_, ?_, fun hu => ?_⟩
  · simp [loopSetup, loopCode, loopTest, finiteTest, loopAdvance, Instruction.plain, hb.plain,
      hd.plain, ha.plain, hbody.plain]
  · have hu : Uses reads start (.cell k) ∨ Uses reads step (.cell k) ∨ Uses reads stop (.cell k) ∨
        Uses reads code (.cell k) := by
      cases reads <;>
      · simp [loopSetup, loopCode, loopTest, finiteTest, loopAdvance, Instruction.place?] at hu
        tauto
    simp only [List.mem_append]
    rcases hu with hu | hu | hu | hu
    · exact (ha.cells reads k hu).imp fun _ h => ⟨.inl (.inl (.inl h.1)), h.2⟩
    · exact (hd.cells reads k hu).imp fun _ h => ⟨.inl (.inl (.inr h.1)), h.2⟩
    · exact (hb.cells reads k hu).imp fun _ h => ⟨.inl (.inr h.1), h.2⟩
    · exact (hbody.cells reads k hu).imp fun _ h => ⟨.inr h.1, h.2⟩
  · exact hbody.functions.trans (ha.functions.trans (hd.functions.trans hb.functions))
  · simp only [List.mem_append, or_imp, forall_and] at hu
    obtain ⟨⟨⟨hna, hnd⟩, hnb⟩, hn⟩ := hu
    exact (hbody.temporaries hn).trans
      ((ha.temporaries hna).trans ((hd.temporaries hnd).trans (hb.temporaries hnb)))

theorem footprint_branch {condition value rest : Code} {nc ne nr : Bool → List String} {s₃ : Slots}
    (hc : Footprint env nc s condition s₁) (he : Footprint env ne s₁ value s₂)
    (hr : Footprint env nr s₂ rest s₃) :
    Footprint env (fun reads => nc reads ++ ne reads ++ nr reads) s
      (branchCode condition value rest) s₃ := by
  have hjump : ∀ {s} o, Footprint env (fun _ => []) s [.jump o] s := fun o =>
    footprint_singleton rfl (by simp [Instruction.place?])
  have htest : ∀ {s} o, Footprint env (fun _ => []) s [.unary .not, .jumpIf o] s := fun o =>
    (footprint_singleton (i := .unary .not) rfl (by simp [Instruction.place?])).append
      (footprint_singleton rfl (by simp [Instruction.place?]))
  exact ((((hc.append (htest _)).append he).append (hjump _)).append hr).mono (by simp)

/-- **The footprint of the code** of a piece of the fragment. -/
theorem Lowered.footprint (hcat : env.Catalogued) {p : Piece} {may : String → Bool} {s' : Slots}
    (h : Lowered env p s code s') (hp : p.numeric may) (hf : s.functions = [])
    (hu : ∀ c o, p = .optional c o → ∃ x, c = [.constant x]) :
    Footprint env (p.names ·) s code s' := by
  -- Only an optional piece has code of its own for a missing tree.
  have hnone : ∀ {q : Piece}, (∀ c o, q ≠ .optional c o) →
      ∀ c o, q = .optional c o → ∃ x, c = [.constant x] := fun hq c o h => absurd h (hq c o)
  have hconstant : ∀ {s x}, Footprint env (fun _ => []) s [.constant x] s :=
    footprint_singleton rfl (by simp [Instruction.place?])
  induction h generalizing may with
  | number | bool | empty => exact hconstant
  | slot =>
    refine (footprint_singleton rfl fun reads k => ?_).mono (by simp)
    cases reads <;> simp [Instruction.place?]
  | @cell s name k h hc =>
    refine ⟨by simp [Instruction.plain], fun reads k' hu => ?_, rfl, fun _ => rfl⟩
    cases reads with
    | false => simp [Instruction.place?] at hu
    | true =>
      simp only [uses_cons, Instruction.place?, if_true, Option.some.injEq, Place.cell.injEq,
        not_uses_nil, or_false] at hu
      exact ⟨name, List.mem_singleton_self _, hu ▸ hc⟩
  | operation h hes ih =>
    have hes := ih (numericAll_of_operation h hp) hf (hnone (by simp))
    refine (hes.append (footprint_operation h)).mono fun reads => ?_
    rw [Piece.names, Piece.names, names_of_operation h, List.append_nil]
    exact List.Subset.refl _
  | @assign s s₁ s₂ name e code write he hw ih =>
    simp only [Piece.numeric, Expr.numeric, Bool.and_eq_true] at hp
    have he := ih hp.2 hf (hnone (by simp))
    have hdup : Footprint env (fun _ => []) s₁ [.dup] s₁ :=
      footprint_singleton rfl (by simp [Instruction.place?])
    refine (he.append (hdup.append hw.footprint)).mono fun reads => ?_
    simp [Piece.names, Expr.names]
  | @cases s s' bs o code h ih =>
    have hbranches : (Piece.branches bs o).numeric may := by
      cases o with
      | none => simp [Piece.numeric, Expr.numeric] at hp
      | some e => simpa [Piece.numeric, Expr.numeric] using hp
    exact (ih hbranches hf (hnone (by simp))).mono fun reads => by simp [Piece.names, Expr.names]
  | @loop s s₁ s₂ s₃ s₄ kind op seed name a d b body default start step stop code hk hb hd ha hbody
      ihb ihd iha ihbody =>
    obtain ⟨rfl, rfl, hpa, hpd, hpb, hpbody⟩ := Expr.numeric_loop hp
    have hb := ihb hpb hf (hnone (by simp))
    have hd := ihd hpd (hb.functions.trans hf) fun _ _ h => by cases h; exact ⟨_, rfl⟩
    have ha := iha hpa (hd.functions.trans (hb.functions.trans hf)) (hnone (by simp))
    have hbody := ihbody hpbody
      (ha.functions.trans (hd.functions.trans (hb.functions.trans hf))) (hnone (by simp))
    exact (footprint_loop hb hd ha hbody).mono fun reads => by simp [Piece.names, Expr.names]
  | sequence he hes ihe ihes =>
    simp only [Piece.numeric, Expr.numeric, Expr.numericAll, Bool.and_eq_true] at hp
    have he := ihe hp.2.1 hf (hnone (by simp))
    exact (he.append (ihes hp.2.2 (he.functions.trans hf) (hnone (by simp)))).mono fun reads => by
      simp [Piece.names, Expr.names, Expr.namesAll]
  | define => simp [Piece.numeric, Expr.numeric] at hp
  | inline hfun =>
    rw [Slots.function?, hf] at hfun
    cases hfun
  | @call s s' name args f code hl hfun hn hargs ih =>
    simp only [Piece.numeric, Expr.numeric, Bool.and_eq_true] at hp
    obtain ⟨q, hq⟩ := exists_callPlain (hcat name f hfun) hp.1 hn
    rw [hq]
    exact ((ih hp.2 hf (hnone (by simp))).append
      (footprint_singleton rfl (by simp [Instruction.place?]))).mono fun reads => by
        simp [Piece.names, Expr.names]
  | noArgs | noRest => exact footprint_nil.mono (by simp)
  | consArg he hes ihe ihes =>
    simp only [Piece.numeric, Expr.numericAll, Bool.and_eq_true] at hp
    have he := ihe hp.1 hf (hnone (by simp))
    exact (he.append (ihes hp.2 (he.functions.trans hf) (hnone (by simp)))).mono fun reads => by
      simp [Piece.names, Expr.namesAll]
  | @consRest s s₁ s₂ e es first rest he hes ihe ihes =>
    simp only [Piece.numeric, Expr.numericAll, Bool.and_eq_true] at hp
    have he := ihe hp.1 hf (hnone (by simp))
    have hpop : Footprint env (fun _ => []) s [.pop] s :=
      footprint_singleton rfl (by simp [Instruction.place?])
    exact ((hpop.append he).append (ihes hp.2 (he.functions.trans hf) (hnone (by simp)))).mono
      fun reads => by simp [Piece.names, Expr.namesAll]
  | missing code =>
    obtain ⟨x, rfl⟩ := hu _ _ rfl
    exact hconstant.mono (by simp)
  | present he ih => exact ih hp hf (hnone (by simp))
  | @otherwise s s' o code h ih =>
    cases o with
    | none => cases hp
    | some e =>
      have he : (Piece.optional noValue (some e)).numeric may := by
        simpa [Piece.numeric, Expr.numericBranches, Expr.numericOption] using hp
      exact (ih he hf fun _ _ h => by cases h; exact ⟨_, rfl⟩).mono fun reads => by
        simp [Piece.names]
  | @branch s s₁ s₂ s₃ c e bs o condition value rest hc he hbs ihc ihe ihbs =>
    cases o with
    | none => cases hp
    | some e' =>
      simp only [Piece.numeric, Expr.numericBranches, Bool.and_eq_true] at hp
      obtain ⟨⟨⟨hpc, hpe⟩, hpbs⟩, hpo⟩ := hp
      have hc := ihc hpc hf (hnone (by simp))
      have he := ihe hpe (hc.functions.trans hf) (hnone (by simp))
      have hrest : (Piece.branches bs (some e')).numeric may := by
        simp [Piece.numeric, hpbs, hpo]
      have hbs := ihbs hrest (he.functions.trans (hc.functions.trans hf)) (hnone (by simp))
      exact (footprint_branch hc he hbs).mono fun reads => by
        simp [Piece.names, Expr.namesBranches]

end Footprint

end Bytecode

end FormulaLang
