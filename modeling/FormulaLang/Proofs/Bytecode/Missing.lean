import FormulaLang.Proofs.Bytecode.Simulation
import FormulaLang.Proofs.Bytecode.Stands
import FormulaLang.Proofs.Number.NotANumber

/-!
# Conditions without a value for the other case

A condition may have no branch that holds and no value for the other case. Its evaluation is the
invalid value then, and its code leaves a NaN. The two stay apart from all numbers together as long
as they are only passed on: statements, branches, `+`, `-`, `*`, `/` and a change of sign pass on
both. Everywhere else a NaN is a number as any other: what may be missing must not get there.

* `Expr.mayLack`, `Expr.tolerant`: trees that may have no value, and formulas that pass it on.
* **`Lowered.conveys`**: the code of such formulas.
* **`runSteps_of_tolerant`**: compiled formulas.
* `runSteps_keptVariable`: what an assignment of a missing value does.
-/

namespace FormulaLang

namespace Expr

mutual

/-- The tree may have no value although nothing is wrong. -/
def mayLack : Expr → Bool
  | .unary _ e => mayLack e
  | .binary _ a b => mayLack a || mayLack b
  | .sequence es => mayLackAfter false es
  | .cases bs none => true || mayLackBranches bs
  | .cases bs (some e) => mayLackBranches bs || mayLack e
  | _ => false

/-- The last of some statements, or what stands in front of them, may have no value. -/
def mayLackAfter (last : Bool) : List Expr → Bool
  | [] => last
  | e :: es => mayLackAfter (mayLack e) es

def mayLackBranches : List (Expr × Expr) → Bool
  | [] => false
  | (_, e) :: rest => mayLack e || mayLackBranches rest

end

mutual

/-- Numbers, bools, variables, operators, assignments, statements, conditions and calls with a fast
path. What may have no value is a statement, the value of a branch, or an operand of an operator
that passes a NaN on. -/
def tolerant : Expr → Bool
  | .constant (.number _) | .constant (.bool _) | .var _ => true
  | .unary op e => tolerant e && (op == .neg || !mayLack e)
  | .binary op a b => tolerant a && tolerant b && (op.absorbs || !(mayLack a || mayLack b))
  | .compare _ a b | .logical _ a b => tolerant a && tolerant b && !(mayLack a || mayLack b)
  | .assign _ e => tolerant e && !mayLack e
  | .sequence es => !es.isEmpty && tolerantAll es
  | .cases bs none => tolerantBranches bs
  | .cases bs (some e) => tolerantBranches bs && tolerant e
  | .call name args => Catalog.hasPlain name && tolerantAll args && args.all (!mayLack ·)
  | _ => false

def tolerantAll : List Expr → Bool
  | [] => true
  | e :: es => tolerant e && tolerantAll es

/-- The conditions have a value. -/
def tolerantBranches : List (Expr × Expr) → Bool
  | [] => true
  | (c, e) :: rest => tolerant c && !mayLack c && tolerant e && tolerantBranches rest

end

end Expr

namespace Bytecode

open Eval (Moves Silent)

/-- The parts of such formulas. Only values may be missing, not the steps of loops. -/
def Piece.tolerant : Piece → Prop
  | .tree e => e.tolerant
  | .args es | .rest es => Expr.tolerantAll es
  | .optional missing o => missing = noValue ∧ ∀ e ∈ o, e.tolerant
  | .branches bs o => Expr.tolerantBranches bs ∧ ∀ e ∈ o, e.tolerant

attribute [local simp] Piece.tolerant Expr.tolerant Expr.tolerantAll Expr.mayLack
  Expr.mayLackBranches

theorem tolerantAll_of_operation {e : Expr} {es : List Expr} {i : Instruction}
    (h : operation? e = some (es, i)) (he : e.tolerant) : Expr.tolerantAll es := by
  cases e <;> cases h <;> simp_all

theorem tolerant_cases {bs : List (Expr × Expr)} {o : Option Expr}
    (h : (Expr.cases bs o).tolerant) : (Piece.branches bs o).tolerant := by
  cases o <;> simp_all

/-! ## Slots -/

/-- **Lowering such a formula** puts nothing in scope. -/
theorem Lowered.spans_of_tolerant {env : Environment} {p : Piece} {s s' : Slots} {code : Code}
    (h : Lowered env p s code s') (hp : p.tolerant) (ho : s.Opens env fun _ => true) :
    Spans env s code s' := by
  induction h with
  | number | bool | slot | cell => exact ⟨.refl _, rfl, rfl, fun _ _ => by simp⟩
  | operation h hes ih =>
    exact (ih (tolerantAll_of_operation h hp) ho).append (spans_singleton (slot?_of_operation h))
  | @assign s s₁ s₂ name e code write he hw ih =>
    simp only [Piece.tolerant, Expr.tolerant, Bool.and_eq_true] at hp
    have he := ih hp.1 ho
    have ho₁ := he.opens ho
    exact he.append ((spans_singleton rfl).append (hw.spans (ho₁.names name rfl) ho₁.tidy))
  | cases h ih => exact ih (tolerant_cases hp) ho
  | loop => simp at hp
  | empty => simp at hp
  | sequence he hes ihe ihes =>
    simp only [Piece.tolerant, Expr.tolerant, Expr.tolerantAll, Bool.and_eq_true] at hp
    have he := ihe hp.2.1 ho
    exact he.append (ihes hp.2.2 (he.opens ho))
  | define => simp at hp
  | inline hfun =>
    rw [Slots.function?, ho.functions] at hfun
    cases hfun
  | call hl hfun hn hargs ih =>
    simp only [Piece.tolerant, Expr.tolerant, Bool.and_eq_true] at hp
    exact (ih hp.1.2 ho).append (spans_singleton (slot?_callInstruction _ _ _))
  | noArgs | noRest => exact spans_nil _
  | consArg he hes ihe ihes =>
    simp only [Piece.tolerant, Expr.tolerantAll, Bool.and_eq_true] at hp
    have he := ihe hp.1 ho
    exact he.append (ihes hp.2 (he.opens ho))
  | consRest he hes ihe ihes =>
    simp only [Piece.tolerant, Expr.tolerantAll, Bool.and_eq_true] at hp
    have he := ihe hp.1 ho
    exact (spans_singleton rfl).append (he.append (ihes hp.2 (he.opens ho)))
  | missing code =>
    obtain ⟨rfl, -⟩ := hp
    exact spans_singleton rfl
  | present he ih => exact ih (hp.2 _ rfl) ho
  | otherwise h ih => exact ih ⟨rfl, hp.2⟩ ho
  | @branch s s₁ s₂ s₃ c e bs o condition value rest hc he hbs ihc ihe ihbs =>
    simp only [Piece.tolerant, Expr.tolerantBranches, Bool.and_eq_true] at hp
    obtain ⟨⟨⟨⟨hpc, -⟩, hpe⟩, hpbs⟩, hpo⟩ := hp
    have hc := ihc hpc ho
    have ho₁ := hc.opens ho
    have he := ihe hpe ho₁
    have hbs := ihbs ⟨hpbs, hpo⟩ (he.opens ho₁)
    have hjump : Spans env s₁ ([.unary .not] ++ [.jumpIf (value.length + 2)]) s₁ :=
      (spans_singleton rfl).append (spans_singleton rfl)
    exact ((((hc.append hjump).append he).append (spans_singleton rfl)).append hbs)

/-! ## Values that may be missing -/

namespace Frozen

section Stands

variable {lacks lacks' : Bool} {v w u : Value} {x y : Float} {outs : List Float}

/-- The change of sign passes on a missing value. -/
theorem stands_unary {op : UnaryOp} (hv : Stands .invalid lacks v x)
    (hop : op = .neg ∨ lacks = false) (h : v.unary op = .ok w) :
    Stands .invalid lacks w (unaryOn op x) := by
  rcases hv with hv | ⟨hl, rfl, rfl⟩
  · exact .inl (asNumber?_unary hv h)
  · rcases hop with rfl | rfl
    · cases h
      exact .inr ⟨hl, rfl, rfl⟩
    · cases hl

/-- An operator that absorbs passes on a missing operand. -/
theorem stands_binary {op : BinaryOp} (hv : Stands .invalid lacks v x)
    (hw : Stands .invalid lacks' w y) (hop : op.absorbs ∨ (lacks || lacks') = false)
    (h : v.binary op w = .ok u) :
    Stands .invalid (lacks || lacks') u (op.apply x y) := by
  rcases hop with hop | hno
  · have habsorb := BinaryOp.apply_nan hop
    rcases hv with hv | ⟨hl, rfl, rfl⟩
    · rcases hw with hw | ⟨hl, rfl, rfl⟩
      · exact .inl (asNumber?_binary hv hw h)
      · have hu : u = .invalid := by
          unfold Value.binary at h
          simpa [Value.isInvalid] using h.symm
        exact .inr ⟨by simp [hl], hu, (habsorb x).2⟩
    · cases h
      exact .inr ⟨by simp [hl], rfl, (habsorb y).1⟩
  · obtain ⟨rfl, rfl⟩ := Bool.or_eq_false_iff.1 hno
    exact .inl (asNumber?_binary (stands_false.1 hv) (stands_false.1 hw) h)

end Stands

/-- **The instruction of an operator** on operands that may be missing. -/
theorem operates_of_tolerant {e : Expr} {es : List Expr} {i : Instruction}
    (h : operation? e = some (es, i)) (he : e.tolerant) {vs : List Value} {xs : List Float}
    {w : Value} (hxs : MaybeAll .invalid Expr.mayLack es vs xs) (hw : operate e vs = .ok w) :
    ∃ x, Stands .invalid e.mayLack w x ∧ ∀ limit n a s heap st,
      execute limit n i ⟨a, s ++ xs.toArray, heap⟩ st =
        (Machine.putNext limit x ⟨a, s, heap⟩, st) := by
  -- Operands that are there leave nothing to do.
  have counted : es.all (!·.mayLack) → ∃ x, Stands .invalid e.mayLack w x ∧ ∀ limit n a s heap st,
      execute limit n i ⟨a, s ++ xs.toArray, heap⟩ st =
        (Machine.putNext limit x ⟨a, s, heap⟩, st) := by
    intro hes
    obtain ⟨x, hx, hexec⟩ := operates_of_operation h (hxs.counts_of_all hes) hxs.length.1 hw
    exact ⟨x, .inl hx, hexec⟩
  cases e with
  | unary op e =>
    cases h
    obtain ⟨v, vs, x, xs, rfl, rfl, hv, hvs⟩ := hxs.exists_cons
    obtain ⟨rfl, rfl⟩ := hvs.nil
    simp only [Expr.tolerant, Bool.and_eq_true, Bool.or_eq_true, beq_iff_eq,
      Bool.not_eq_true'] at he
    exact ⟨_, stands_unary hv he.2 hw, fun limit n a s heap st =>
      Array.push_eq_append ▸ execute_unary ..⟩
  | binary op a b =>
    cases h
    obtain ⟨v, vs, x, xs, rfl, rfl, hv, hvs⟩ := hxs.exists_cons
    obtain ⟨u, us, y, ys, rfl, rfl, hu, hus⟩ := hvs.exists_cons
    obtain ⟨rfl, rfl⟩ := hus.nil
    simp only [Expr.tolerant, Bool.and_eq_true, Bool.or_eq_true, Bool.not_eq_true'] at he
    refine ⟨_, stands_binary hv hu he.2 hw, fun limit n a s heap st => ?_⟩
    have hstack : s ++ [x, y].toArray = (s.push x).push y := Array.ext' (by simp)
    rw [hstack, execute_arithmetic]
  | compare op a b =>
    cases h
    refine counted ?_
    simpa [and_assoc] using And.right (by simpa using he)
  | logical op a b =>
    cases h
    refine counted ?_
    simpa [and_assoc] using And.right (by simpa using he)
  | _ => cases h

/-! ## The code of such formulas -/

/-- The code of a piece carries out its evaluation, as far as there is a value. -/
def Conveys (K : Frozen) (deeper : Deeper) (scope : List (String × Nat)) (code : Code) :
    Piece → Prop
  | .tree e => K.Carries scope code (eval deeper e) (Maybe .invalid e.mayLack) []
  | .args es => K.Carries scope code (evalAll deeper es) (MaybeAll .invalid Expr.mayLack es) []
  | .rest es => ∀ lacks last y, Stands .invalid lacks last y →
      K.Carries scope code (evalSequence deeper es last)
        (Maybe .invalid (Expr.mayLackAfter lacks es)) [y]
  | .optional _ o => K.Carries scope code (evalOr deeper .invalid o)
      (Maybe .invalid (o.elim true Expr.mayLack)) []
  | .branches bs o => K.Carries scope code (evalBranches deeper bs (evalOr deeper .invalid o))
      (Maybe .invalid (Expr.mayLackBranches bs || o.elim true Expr.mayLack)) []

variable {K : Frozen} {scope : List (String × Nat)} {deeper : Deeper}

theorem carries_noValue : K.Carries scope noValue (pure .invalid) (Maybe .invalid true) [] := by
  refine carries_put fun heap stv places st st' u hr hm hs => ?_
  obtain ⟨rfl, rfl⟩ := silent_pure hs
  refine ⟨rfl, Number.nan, ⟨_, rfl, .inr ⟨rfl, rfl, rfl⟩⟩, fun limit n a s => ?_⟩
  rw [Array.append_empty]
  rfl

end Frozen

open Frozen

section Conveys

variable {K : Frozen} {deeper : Deeper} (hd : ∀ task ∈ deeper, ∀ t, Moves KeepsFaults (task t))

include hd

/-- **Lowered code of such formulas carries out their evaluation**, a NaN standing for a value that
is missing. -/
theorem Lowered.conveys (hK : K.Valid) (hcat : K.env.Catalogued) {p : Piece} {s s' : Slots}
    {code : Code} (h : Lowered K.env p s code s') (hp : p.tolerant)
    (ho : s.Opens K.env fun _ => true) (hl : s'.Later K.env K.slots) :
    K.Conveys deeper s.scope code p := by
  have one : ∀ {scope code x}, K.Carries scope code x One [] →
      ∀ {lacks}, K.Carries scope code x (Maybe .invalid lacks) [] := fun h lacks =>
    h.imp fun v outs hv => (maybe_false.2 hv).mono (by simp)
  induction h with
  | number x => exact one (carries_constant (v := .number x) rfl)
  | bool b => exact one (carries_constant (v := .bool b) rfl)
  | slot h => exact one (carries_read (resolve_of_lookup? hl h))
  | cell h hc => exact one (carries_read (resolve_of_globalCell hK h hc))
  | @operation s s' e es i code h hes ih =>
    refine carries_operation hd h (ih (tolerantAll_of_operation h hp) ho hl)
      fun vs xs w hfit hw => ?_
    obtain ⟨x, hx, he⟩ := operates_of_tolerant h hp hfit hw
    exact ⟨x, ⟨x, rfl, hx⟩, he⟩
  | @assign s s₁ s₂ name e code write he hw ih =>
    simp only [Piece.tolerant, Expr.tolerant, Bool.and_eq_true, Bool.not_eq_true'] at hp
    have hspans := he.spans_of_tolerant hp.1 ho
    have ho₁ := hspans.opens ho
    have hn := ho₁.names name rfl
    have he : K.Carries s.scope code (eval deeper e) (Maybe .invalid e.mayLack) [] :=
      ih hp.1 ho ((hw.spans hn ho₁.tidy).later.trans hl)
    -- Only a value that is there may be assigned.
    rw [hp.2] at he
    exact one (carries_assign hd hK hw hl ho₁.tidy hn hspans.scope
      (he.imp fun v outs hv => maybe_false.1 hv))
  | @cases s s' bs o code h ih =>
    refine ((ih (tolerant_cases hp) ho hl).congr fun st _ => by rw [eval]).imp fun v outs hv => ?_
    exact hv.mono (by cases o <;> simp)
  | loop => simp at hp
  | empty => simp at hp
  | @sequence s s₁ s₂ e es first rest he hes ihe ihes =>
    simp only [Piece.tolerant, Expr.tolerant, Expr.tolerantAll, Bool.and_eq_true] at hp
    have hspans := he.spans_of_tolerant hp.2.1 ho
    have ho₁ := hspans.opens ho
    have he := ihe hp.2.1 ho ((hes.spans_of_tolerant hp.2.2 ho₁).later.trans hl)
    have hes := ihes hp.2.2 ho₁ hl
    unfold Conveys at hes
    rw [hspans.scope] at hes
    refine carries_statement hd he fun v outs hv => ?_
    obtain ⟨z, rfl, hz⟩ := hv
    exact hes e.mayLack v z hz
  | define => simp at hp
  | inline hfun =>
    rw [Slots.function?, ho.functions] at hfun
    cases hfun
  | @call s s' name args f code hlocal hfun hn hargs ih =>
    simp only [Piece.tolerant, Expr.tolerant, Bool.and_eq_true] at hp
    exact one (carries_call hd hcat hfun hp.1.1 hn (ih hp.1.2 ho hl) fun vs xs hfit =>
      ⟨hfit.counts_of_all hp.2, hfit.length.1⟩)
  | noArgs => exact carries_pure trivial
  | @consArg s s₁ s₂ e es first rest he hes ihe ihes =>
    simp only [Piece.tolerant, Expr.tolerantAll, Bool.and_eq_true] at hp
    have hspans := he.spans_of_tolerant hp.1 ho
    have ho₁ := hspans.opens ho
    have he := ihe hp.1 ho ((hes.spans_of_tolerant hp.2 ho₁).later.trans hl)
    have hes := ihes hp.2 ho₁ hl
    unfold Conveys at hes
    rw [hspans.scope] at hes
    refine carries_argument hd he hes fun v outs vs outs' hv hvs => ?_
    obtain ⟨z, rfl, hz⟩ := hv
    exact ⟨hz, hvs⟩
  | noRest =>
    intro lacks last y hy
    exact carries_pure ⟨y, rfl, hy⟩
  | @consRest s s₁ s₂ e es first rest he hes ihe ihes =>
    simp only [Piece.tolerant, Expr.tolerantAll, Bool.and_eq_true] at hp
    have hspans := he.spans_of_tolerant hp.1 ho
    have ho₁ := hspans.opens ho
    have he := ihe hp.1 ho ((hes.spans_of_tolerant hp.2 ho₁).later.trans hl)
    have hes := ihes hp.2 ho₁ hl
    unfold Conveys at hes
    rw [hspans.scope] at hes
    intro lacks last y _
    refine carries_nextStatement hd he (fun v outs hv => ?_) last y
    obtain ⟨z, rfl, hz⟩ := hv
    exact hes e.mayLack v z hz
  | missing code =>
    obtain ⟨rfl, -⟩ := hp
    exact carries_noValue
  | present he ih => exact (ih (hp.2 _ rfl) ho hl).congr fun st _ => by rw [evalOr]
  | otherwise h ih => exact (ih ⟨rfl, hp.2⟩ ho hl).congr fun st _ => by rw [evalBranches]
  | @branch s s₁ s₂ s₃ c e bs o condition value rest hc he hbs ihc ihe ihbs =>
    simp only [Piece.tolerant, Expr.tolerantBranches, Bool.and_eq_true, Bool.not_eq_true'] at hp
    obtain ⟨⟨⟨⟨hpc, hcond⟩, hpe⟩, hpbs⟩, hpo⟩ := hp
    have hpbs : (Piece.branches bs o).tolerant := ⟨hpbs, hpo⟩
    have hsc := hc.spans_of_tolerant hpc ho
    have ho₁ := hsc.opens ho
    have hse := he.spans_of_tolerant hpe ho₁
    have ho₂ := hse.opens ho₁
    have hl₂ := (hbs.spans_of_tolerant hpbs ho₂).later.trans hl
    have hc := ihc hpc ho (hse.later.trans hl₂)
    have he := ihe hpe ho₁ hl₂
    have hbs := ihbs hpbs ho₂ hl
    simp only [Conveys] at hc he hbs ⊢
    rw [hcond] at hc
    rw [hsc.scope] at he
    rw [hse.scope, hsc.scope] at hbs
    have hmbs := moves_evalBranches (R := KeepsFaults) hd bs _ (moves_evalOr hd .invalid o)
    refine (carries_branch (hc.imp fun v outs hv => maybe_false.1 hv) (moves_eval hd c)
      (he.imp fun v outs hv => hv.mono ?_) (moves_eval hd e)
      (hbs.imp fun v outs hv => hv.mono ?_) hmbs).congr fun st _ => rfl
    · intro h
      simp [h]
    · intro h
      simp only [Expr.mayLackBranches, Bool.or_eq_true] at h ⊢
      tauto

end Conveys

/-! ## Compiled formulas -/

/-- **Compiled formulas in which values may be missing**: from a reachable engine with the functions
of the catalog, if evaluating records no fault, the run is stopped by a full stack or leads to a NaN
for the invalid value and for a NaN, and to the same number otherwise, and every number variable
holds the same number behind both. -/
theorem runSteps_of_tolerant {cells : List HostCell} {st st' : Engine} {e : Expr} {p : Program}
    {v : Value} (h : Engine.Reachable cells st) (hcat : st.HasCatalog) (he : e.tolerant)
    (hp : compile st.env e = .ok p) (hv : Engine.evaluate e st = (v, st'))
    (hlog : st'.log = st.log) (settings : Settings) :
    ∃ n r stv, p.runSteps n settings st = (some r, stv) ∧
      (r = .error .stackOverflow ∨ ∃ x, r = .ok x ∧
        (x.isNaN ↔ v = .invalid ∨ ∃ y, v = .number y ∧ y.isNaN) ∧
        (v ≠ .invalid → v.asNumber? = some x) ∧
        ∀ name w cell, st.env.vars.get? name = some w → w.numberCell? = some cell →
          ∃ y, stv.env.value? name = some (.number y) ∧
            ∃ u, st'.env.value? name = some u ∧ u.asNumber? = some y) := by
  obtain ⟨s, hl, -⟩ := lowered_of_compile hp
  let K : Frozen := ⟨st.env, HostCell.numberCells cells, s⟩
  have ho := Slots.opens_empty st.env fun _ => true
  have hK : K.Valid := ⟨h.sound, (hl.spans_of_tolerant he ho).later.tidy ho.tidy⟩
  rw [evaluate_eq] at hv
  have hconveys : K.Carries [] p.code.toList (eval (deeperAt st.settings.callDepth) e)
      (Maybe .invalid e.mayLack) [] :=
    hl.conveys (moves_deeperAt _) hK (catalogued hcat) he ho (.refl s)
  obtain ⟨n, r, stv, hrun, hr⟩ := runSteps_of_carries hK (fun v outs ⟨x, hx, _⟩ => ⟨x, hx⟩)
    hconveys rfl ⟨hv, congrArg Array.size hlog⟩ settings
  refine ⟨n, r, stv, hrun, hr.imp_right ?_⟩
  rintro ⟨x, rfl, ⟨y, hy, hstands⟩, hcells⟩
  cases hy
  refine ⟨x, rfl, ?_, fun hne => ?_, hcells⟩
  · rcases hstands with hx | ⟨-, rfl, rfl⟩
    · rcases asNumber?_cases hx with rfl | ⟨b, rfl, rfl⟩
      · simp
      · cases b <;> simp [Number.ofBool] <;> decide +kernel
    · exact ⟨fun _ => .inl rfl, fun _ => Number.isNaN_iff.2 rfl⟩
  · rcases hstands with hx | ⟨-, rfl, -⟩
    · exact hx
    · exact absurd rfl hne

/-- `1 + cases(2 < 1, 3)`. -/
def lackingSum : Expr :=
  .binary .add (.constant (.number 1.0))
    (.cases [(.compare .lt (.constant (.number 2.0)) (.constant (.number 1.0)),
      .constant (.number 3.0))] none)

theorem runSteps_lackingSum : ∃ p st', compile (Engine.create {}).env lackingSum = .ok p ∧
    Engine.evaluate lackingSum (.create {}) = (.invalid, st') ∧
    st'.log = (Engine.create {}).log ∧ ∃ n r stv, p.runSteps n {} (.create {}) = (some r, stv) ∧
      (r = .error .stackOverflow ∨ ∃ x : Float, r = .ok x ∧ x.isNaN) := by
  have hp : compile (Engine.create {}).env lackingSum = .ok _ := rfl
  have hv : Engine.evaluate lackingSum (.create {}) =
      (.invalid, (Engine.evaluate lackingSum (.create {})).2) := rfl
  have hlog : (Engine.evaluate lackingSum (.create {})).2.log = (Engine.create {}).log := rfl
  obtain ⟨n, r, stv, hrun, hr⟩ :=
    runSteps_of_tolerant (.create {}) (fun _ => rfl) (by decide) hp hv hlog {}
  refine ⟨_, _, hp, hv, hlog, n, r, stv, hrun, hr.imp_right ?_⟩
  rintro ⟨x, rfl, hx, -⟩
  exact ⟨x, rfl, hx.2 (.inl rfl)⟩

/-! ## Assigned values -/

/-- The engine with the catalog in which `x` is `5`. -/
def withFive : Engine :=
  (Engine.create {}).onEnv (·.addVariable "x" (.number 5.0))

/-- `x = cases(false, 1)`. -/
def keptVariable : Expr :=
  .assign "x" (.cases [(.constant (.bool false), .constant (.number 1.0))] none)

theorem vars_withFive : withFive.env.vars =
    ((ScopedTable.empty.add "pi" (.number 0) 0).add "e" (.number 1) 0).add "x" (.number 2) 0 := rfl

theorem entry?_withFive : withFive.env.vars.entry? "x" = some ⟨"x", 0, .number 2, none⟩ := by
  rw [vars_withFive]
  simp [ScopedTable.add, ScopedTable.entry?, ScopedTable.push, ScopedTable.empty]

theorem hasVariable_withFive : withFive.env.hasVariable "x" := by
  rw [Environment.hasVariable, vars_withFive]
  simp [ScopedTable.contains, ScopedTable.add, ScopedTable.entry?, ScopedTable.push,
    ScopedTable.empty]

/-- The program of `keptVariable`. -/
def storingProgram : Program where
  code :=
    (branchCode [.constant 0.0] [.constant 1.0] noValue ++ [Instruction.dup, .writeCell 2]).toArray
  heapSize := 0

theorem writeName_withFive (s : Slots) (h : s.lookup? "x" = none) :
    writeName withFive.env "x" s = .ok ([.writeCell 2], s) := by
  have hcell : globalCell withFive.env "x" = .ok 2 := by
    rw [globalCell, entry?_withFive]
    rfl
  have hrun : (writeName withFive.env "x").run s = .ok ([.writeCell 2], s) := by
    simp only [writeName, run_bind_eq_ok, run_get_eq_ok]
    refine ⟨s, s, ⟨rfl, rfl⟩, ?_⟩
    rw [h]
    simp only [hasVariable_withFive, if_true, run_bind_eq_ok, run_lift_eq_ok, run_pure_eq_ok]
    exact ⟨2, s, ⟨hcell, rfl⟩, rfl, rfl⟩
  exact hrun

theorem compile_keptVariable : compile withFive.env keptVariable = .ok storingProgram := by
  have h : compile withFive.env keptVariable = (do
    let lowered ← StateT.run (do
      let write ← writeName withFive.env "x"
      return branchCode [.constant 0.0] [.constant 1.0] noValue ++ .dup :: write : Lower Code) {}
    return ⟨lowered.1.toArray, lowered.2.size⟩) := rfl
  rw [h]
  simp only [StateT.run_bind]
  rw [show (writeName withFive.env "x").run {} = _ from writeName_withFive {} rfl]
  rfl

/-- **A missing value is not assigned by the evaluation, but stored by the program** as a NaN. -/
theorem runSteps_keptVariable : Engine.Reachable [] withFive ∧ withFive.HasCatalog ∧
    ∃ p st' stv, compile withFive.env keptVariable = .ok p ∧
      Engine.evaluate keptVariable withFive = (.invalid, st') ∧ st'.log = withFive.log ∧
      st'.env.value? "x" = some (.number 5.0) ∧
      p.runSteps 10 {} withFive = (some (.ok Number.nan), stv) ∧ stv.log = withFive.log ∧
      stv.env.value? "x" = some (.number Number.nan) := by
  have hget : withFive.env.vars.get? "x" = some (.number 2) := by
    rw [ScopedTable.get?, entry?_withFive]
    rfl
  have hv : Engine.evaluate keptVariable withFive = (.invalid, withFive) := rfl
  have hcat : withFive.HasCatalog := fun name =>
    congrArg (·.get? name) (Environment.functions_addVariable _ _ _)
  let store := withFive.env.store.setNumber 2 Number.nan
  let env := { withFive.env with store }
  refine ⟨.addVariable (.create {}) "x" (.number 5.0), hcat, storingProgram, withFive,
    { withFive with env }, compile_keptVariable, hv, rfl, ?_, rfl, rfl, ?_⟩
  · rw [Environment.value?, hget]
    rfl
  · rw [Environment.value?]
    rw [show env.vars.get? "x" = _ from hget]
    rfl

end Bytecode

end FormulaLang
