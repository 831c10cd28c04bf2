import FormulaLang.Proofs.Bytecode.Loops

/-!
# Compiled formulas simulate their evaluation

For formulas of the numeric fragment, a run and an evaluation from the same engine lead to the same
number and to the same numbers in the variables, unless the evaluation records a fault or the stack
is full.

* `carries_operation`, `carries_assign`, `carries_call`, `carries_argument`, `carries_statement`:
  the forms of formulas, over what the code of their parts carries out.
* `Frozen.Follows`: the code of a piece carries out its evaluation.
* **`Lowered.follows`**: lowered code of the fragment does.
* **`runSteps_of_evaluate`**: compiled formulas.
-/

namespace FormulaLang.Bytecode

open Eval (Moves Silent)

namespace Frozen

/-- The code of a piece carries out its evaluation. -/
def Follows (K : Frozen) (deeper : Deeper) (scope : List (String × Nat)) (code : Code) :
    Piece → Prop
  | .tree e => K.Carries scope code (eval deeper e) One []
  | .args es => K.Carries scope code (evalAll deeper es)
      (fun vs xs => Counts vs xs ∧ vs.length = es.length) []
  | .rest es => ∀ last y, last.asNumber? = some y →
      K.Carries scope code (evalSequence deeper es last) One [y]
  | .optional missing o => ∀ y, missing = [.constant y] →
      K.Carries scope code (evalOr deeper (.number y) o) One []
  | .branches bs o => o.isSome →
      K.Carries scope code (evalBranches deeper bs (evalOr deeper .invalid o)) One []

variable {K : Frozen} {scope : List (String × Nat)} {deeper : Deeper}

theorem carries_constant {v : Value} {x : Float} (hv : v.asNumber? = some x) :
    K.Carries scope [.constant x] (pure v) One [] := by
  refine carries_put fun heap stv places st st' u hr hm hs => ?_
  obtain ⟨rfl, rfl⟩ := silent_pure hs
  refine ⟨rfl, x, one_iff.2 ⟨x, rfl, hv⟩, fun limit n a s => ?_⟩
  rw [Array.append_empty]
  rfl

/-- What an assignment writes is the place of its name. -/
theorem exists_place_of_written {name : String} {s s' : Slots} {i : Instruction} (hK : K.Valid)
    (h : Written K.env name s i s') (hl : s'.Later K.env K.slots) :
    ∃ p, K.resolve s.scope name = some p ∧ i = p.write ∧
      ∀ cell, p = .cell cell → cell < K.env.store.numbers.size := by
  cases h with
  | slot h => exact ⟨.slot _, resolve_of_lookup? hl h, rfl, by simp⟩
  | cell h hv hc =>
    refine ⟨.cell _, resolve_of_globalCell hK h hc, rfl, fun cell he => ?_⟩
    cases he
    exact lt_of_globalCell hK hc
  | temporary h hv =>
    have hlookup : (s.temporary name).2.lookup? name = some (s.temporary name).1 := by
      unfold Slots.lookup? at h ⊢
      split at h
      · cases h
      · next hn =>
        unfold Slots.temporary
        rw [h]
        dsimp only
        rw [hn]
        exact bound?_cons.trans (if_pos rfl)
    have hscope : (s.temporary name).2.scope = s.scope := by
      unfold Slots.temporary
      split <;> rfl
    exact ⟨.slot _, hscope ▸ resolve_of_lookup? hl hlookup, rfl, by simp⟩

/-- The slots of a loop of the fragment. -/
theorem clear_of_spans {name : String} {s s₁ s₂ s₃ s₄ : Slots} {start step stop piece : Code}
    (ht : s.Tidy K.env) (hb : Spans K.env s.fresh.2 stop s₁) (hb' : s.fresh.2.Spends stop s₁)
    (hd : Spans K.env s₁.fresh.2 step s₂) (hd' : s₁.fresh.2.Spends step s₂)
    (ha : Spans K.env s₂ start s₃) (ha' : s₂.Spends start s₃)
    (hbody : Spans K.env (s₃.push name).2.fresh.2 piece s₄)
    (hbody' : (s₃.push name).2.fresh.2.Spends piece s₄) (hl : s₄.Later K.env K.slots) :
    K.Clear s.scope ⟨s₃.size, s₃.size + 1, s₁.size, s.size⟩ start step piece := by
  have ht₁ := hb.later.tidy ((Slots.later_fresh s).tidy ht)
  have ht₃ := ha.later.tidy (hd.later.tidy ((Slots.later_fresh s₁).tidy ht₁))
  have hpush : Slots.Later K.env s₃ (s₃.push name).2.fresh.2 :=
    (Slots.later_push s₃ name).trans (Slots.later_fresh _)
  have hl₃ := hbody.later.trans hl
  have hl₁ := ((hd.later.trans ha.later).trans hpush).trans hl₃
  have hl₀ := (hb.later.trans (Slots.later_fresh s₁)).trans hl₁
  have hscope₁ : s₁.scope = s.scope := hb.scope
  have hscope₃ : s₃.scope = s.scope := ha.scope.trans (hd.scope.trans hscope₁)
  obtain ⟨hdistinct, hspares⟩ := spares_body ht.bounded hb'.grows hd'.grows ha'.grows hbody'
    (hbody.spares (name, s₃.size) List.mem_cons_self)
  have hle : s.size + 1 ≤ s₁.size := hb'.grows.size_le
  refine ⟨hdistinct, ?_, fun slot hm => ?_, hspares, ?_, ?_, ?_⟩
  · dsimp only
    omega
  · simp only [List.mem_cons, List.not_mem_nil, or_false] at hm
    rcases hm with rfl | rfl | rfl | rfl
    · exact hscope₃ ▸ free_of_later hl₃ ht₃.bounded rfl (Nat.le_refl _) (Nat.lt_add_of_pos_right
        (Nat.succ_pos 1))
    · exact hscope₃ ▸ free_of_later hl₃ ht₃.bounded rfl (Nat.le_succ _) (Nat.lt_succ_self _)
    · exact hscope₁ ▸ free_of_later hl₁ ht₁.bounded rfl (Nat.le_refl _) (Nat.lt_succ_self _)
    · exact free_of_later hl₀ ht.bounded rfl (Nat.le_refl _) (Nat.lt_succ_self _)
  · exact hd'.not_mem ht.bounded (hb'.grows.trans s₁.grows_fresh)
  · exact ha'.not_mem ht.bounded (hb'.grows.trans (s₁.grows_fresh.trans hd'.grows))
  · exact ha'.not_mem ht₁.bounded hd'.grows

/-- The parts of a loop are lowered one behind the other in the scope of the loop, and the body in
that with the position. -/
theorem carries_parts {x y z w : Eval Value} {name : String} {s s₁ s₂ s₃ : Slots}
    {start step stop piece : Code} (hsb : Spans K.env s.fresh.2 stop s₁)
    (hsd : Spans K.env s₁.fresh.2 step s₂) (hsa : Spans K.env s₂ start s₃)
    (hb : K.Carries s.fresh.2.scope stop x One []) (hd : K.Carries s₁.fresh.2.scope step y One [])
    (ha : K.Carries s₂.scope start z One [])
    (hbody : K.Carries (s₃.push name).2.fresh.2.scope piece w One []) :
    K.Carries s.scope stop x One [] ∧ K.Carries s.scope step y One [] ∧
      K.Carries s.scope start z One [] ∧ K.Carries ((name, s₃.size) :: s.scope) piece w One [] := by
  have hscope₁ : s₁.scope = s.scope := hsb.scope
  have hscope₂ : s₂.scope = s.scope := hsd.scope.trans hscope₁
  have hscope₃ : s₃.scope = s.scope := hsa.scope.trans hscope₂
  refine ⟨hb, ?_, hscope₂ ▸ ha, ?_⟩
  · rw [← hscope₁]
    exact hd
  · rw [← hscope₃]
    exact hbody

/-! ### Forms

One lemma for each form of formulas, over what its parts leave on the stack. -/

section Forms

variable (hd : ∀ task ∈ deeper, ∀ t, Moves KeepsFaults (task t)) {e : Expr} {es : List Expr}
  {first rest code : Code} {name : String} {Fits FitsTree : Value → List Float → Prop}
  {FitsAll FitsRest : List Value → List Float → Prop}

include hd

/-- An operator behind its operands. -/
theorem carries_operation {i : Instruction} (h : operation? e = some (es, i))
    (hes : K.Carries scope code (evalAll deeper es) FitsAll [])
    (hoperates : ∀ vs xs w, FitsAll vs xs → operate e vs = .ok w → ∃ x, FitsTree w [x] ∧
      ∀ limit n a s heap st, execute limit n i ⟨a, s ++ xs.toArray, heap⟩ st =
        (Machine.putNext limit x ⟨a, s, heap⟩, st)) :
    K.Carries scope (code ++ [i]) (eval deeper e) FitsTree [] := by
  refine (hes.bind (moves_evalAll hd es) (fun vs xs hfit => ?_)
    fun vs => moves_check _).congr fun st _ => by rw [eval_operation h]
  refine carries_put fun heap stv places st st' v hr hm hs => ?_
  obtain ⟨hw, rfl⟩ := silent_check hs
  obtain ⟨x, hx, he⟩ := hoperates vs xs v hfit hw
  exact ⟨rfl, x, hx, fun limit n a s => he limit n a s heap stv⟩

/-- **An assignment** of a value that is there. -/
theorem carries_assign {i : Instruction} {s s' : Slots} (hK : K.Valid)
    (hw : Written K.env name s i s') (hl : s'.Later K.env K.slots) (ht : s.Tidy K.env)
    (hn : bound? name s.scope = none) (hscope : s.scope = scope)
    (he : K.Carries scope code (eval deeper e) One []) :
    K.Carries scope (code ++ [.dup, i]) (eval deeper (.assign name e)) One [] := by
  subst hscope
  obtain ⟨q, hq, rfl, hlt⟩ := exists_place_of_written hK hw hl
  have happart := apart_of_later ((hw.spans hn ht).later.trans hl) ht
  refine (he.bind (moves_eval hd e) (fun v outs hv => ?_) fun v => ?_).congr
    fun st _ => by rw [eval]
  · obtain ⟨z, rfl, hz⟩ := one_iff.1 hv
    exact carries_write hK happart hn hq hlt hz
  · split
    · exact moves_pure _
    · exact moves_assign _ _

/-- A call of a function of the catalog by its fast path. -/
theorem carries_call {f : Function} (hcat : K.env.Catalogued)
    (hfun : K.env.function? name = some f) (hplain : Catalog.hasPlain name)
    (hn : checkArity name f.arity es.length = .ok ())
    (hargs : K.Carries scope code (evalAll deeper es) FitsAll [])
    (hcounts : ∀ vs xs, FitsAll vs xs → Counts vs xs ∧ vs.length = es.length) :
    K.Carries scope (code ++ [callInstruction name f es.length]) (eval deeper (.call name es)) One
      [] := by
  have hmem := hcat name f hfun
  have hfun' : ∀ st : Engine, st.env.functions = K.env.functions →
      st.env.function? name = some f := by
    intro st hst
    rw [Environment.function?, hst]
    exact hfun
  refine (hargs.bind (moves_evalAll hd es) (fun vs xs hfit => ?_)
    fun vs => moves_invoke hd name f vs).congr fun st hst =>
      Catalog.eval_call hmem hplain (hfun' st hst) es
  obtain ⟨hvs, hlen⟩ := hcounts vs xs hfit
  refine carries_put fun heap stv places st st' v hr hm hs => ?_
  rw [← hlen] at hn ⊢
  obtain ⟨q, hq, harity, hv, rfl⟩ := Catalog.invoke_plain hmem hplain hvs hn hs
  rw [hq]
  refine ⟨rfl, _, one_iff.2 ⟨_, rfl, hv⟩, fun limit n a s => ?_⟩
  exact execute_callPlain _ _ _ _ _ _ _ _ (harity.trans hvs.length)

/-- An argument and those behind it. -/
theorem carries_argument (he : K.Carries scope first (eval deeper e) FitsTree [])
    (hes : K.Carries scope rest (evalAll deeper es) FitsRest [])
    (hcons : ∀ v outs vs outs', FitsTree v outs → FitsRest vs outs' →
      FitsAll (v :: vs) (outs ++ outs')) :
    K.Carries scope (first ++ rest) (evalAll deeper (e :: es)) FitsAll [] := by
  refine (he.bind (moves_eval hd e) (fun v outs hv => ?_)
    fun v => moves_bind (moves_evalAll hd es) fun vs => moves_pure (v :: vs)).congr
      fun st _ => by rw [evalAll]
  rw [← List.append_nil rest]
  refine (hes.above outs).bind (moves_evalAll hd es) ?_ fun vs => moves_pure _
  rintro vs _ ⟨outs', rfl, hvs⟩
  exact carries_pure (hcons v outs vs outs' hv hvs)

/-- A statement and those behind it. -/
theorem carries_statement (he : K.Carries scope first (eval deeper e) FitsTree [])
    (hes : ∀ v outs, FitsTree v outs → K.Carries scope rest (evalSequence deeper es v) Fits outs) :
    K.Carries scope (first ++ rest) (eval deeper (.sequence (e :: es))) Fits [] :=
  (he.bind (moves_eval hd e) hes fun v => moves_evalSequence hd es v).congr
    fun st _ => by rw [eval, evalSequence]

/-- A statement behind others, which drops the value of the last one. -/
theorem carries_nextStatement (he : K.Carries scope first (eval deeper e) FitsTree [])
    (hes : ∀ v outs, FitsTree v outs → K.Carries scope rest (evalSequence deeper es v) Fits outs)
    (last : Value) (y : Float) :
    K.Carries scope (.pop :: first ++ rest) (evalSequence deeper (e :: es) last) Fits [y] :=
  ((he.pop y).bind (moves_eval hd e) hes fun v => moves_evalSequence hd es v).congr
    fun st _ => by rw [evalSequence]

end Forms

end Frozen

open Frozen

section Follows

variable {K : Frozen} {deeper : Deeper} (hd : ∀ task ∈ deeper, ∀ t, Moves KeepsFaults (task t))

include hd

/-- **Lowered code of the fragment carries out its evaluation.** -/
theorem Lowered.follows (hK : K.Valid) (hcat : K.env.Catalogued) {p : Piece} {s s' : Slots}
    {code : Code} {may : String → Bool} (h : Lowered K.env p s code s') (hp : p.numeric may)
    (ho : s.Opens K.env may) (hu : p.MissingUsesNone) (hl : s'.Later K.env K.slots) :
    K.Follows deeper s.scope code p := by
  induction h generalizing may with
  | number x => exact carries_constant (v := .number x) rfl
  | bool b => exact carries_constant (v := .bool b) rfl
  | slot h => exact carries_read (resolve_of_lookup? hl h)
  | cell h hc => exact carries_read (resolve_of_globalCell hK h hc)
  | @operation s s' e es i code h hes ih =>
    refine carries_operation hd h (ih (numericAll_of_operation h hp) ho trivial hl)
      fun vs xs w hfit hw => ?_
    obtain ⟨x, hx, he⟩ := operates_of_operation h hfit.1 hfit.2 hw
    exact ⟨x, one_iff.2 ⟨x, rfl, hx⟩, he⟩
  | @assign s s₁ s₂ name e code write he hw ih =>
    simp only [Piece.numeric, Expr.numeric, Bool.and_eq_true] at hp
    have hspans := he.spans hp.2 ho trivial
    have ho₁ := hspans.opens ho
    have hn := ho₁.names name hp.1
    exact carries_assign hd hK hw hl ho₁.tidy hn hspans.scope
      (ih hp.2 ho trivial ((hw.spans hn ho₁.tidy).later.trans hl))
  | @cases s s' bs o code h ih =>
    cases o with
    | none => simp [Piece.numeric, Expr.numeric] at hp
    | some e =>
      have hbs := ih (by simpa [Piece.numeric, Expr.numeric] using hp) ho trivial hl rfl
      exact hbs.congr fun st _ => by rw [eval]
  | @loop s s₁ s₂ s₃ s₄ kind op seed name a d b body default start step stop code hk hb hstep ha
      hbody ihb ihstep iha ihbody =>
    obtain ⟨rfl, rfl, hpa, hpd, hpb, hpbody⟩ := Expr.numeric_loop hp
    cases hk
    have hone := missingUsesNone_constant 1.0 d
    have hsb := hb.spans hpb ho.fresh.none trivial
    have ho₁ := hsb.opens ho.fresh
    have hsd := hstep.spans hpd ho₁.fresh.none hone
    have ho₂ := hsd.opens ho₁.fresh
    have hsa := ha.spans hpa ho₂.none trivial
    have ho₃ := ((hsa.opens ho₂).push name).fresh
    have hsbody := hbody.spans hpbody ho₃ trivial
    have hl₄ := (Slots.later_pop s₄).trans hl
    have hl₃ := ((Slots.later_push s₃ name).trans (Slots.later_fresh _)).trans
      (hsbody.later.trans hl₄)
    have hl₂ := hsa.later.trans hl₃
    have hl₁ := (Slots.later_fresh s₁).trans (hsd.later.trans hl₂)
    have hclear := clear_of_spans ho.tidy hsb (hb.spends trivial) hsd (hstep.spends hone) hsa
      (ha.spends trivial) hsbody (hbody.spends trivial) hl₄
    obtain ⟨hcb, hcd, hca, hcbody⟩ := carries_parts hsb hsd hsa (ihb hpb ho.fresh.none trivial hl₁)
      (ihstep hpd ho₁.fresh.none hone hl₂ 1.0 rfl) (iha hpa ho₂.none trivial hl₃)
      (ihbody hpbody ho₃ trivial hl₄)
    exact carries_loop hd hcat hclear hca (idle_eval a hpa) hcd (idle_evalOr _ d hpd) hcb
      (idle_eval b hpb) hcbody
  | empty => simp [Piece.numeric, Expr.numeric] at hp
  | @sequence s s₁ s₂ e es first rest he hes ihe ihes =>
    simp only [Piece.numeric, Expr.numeric, Expr.numericAll, Bool.and_eq_true] at hp
    have hspans := he.spans hp.2.1 ho trivial
    have ho₁ := hspans.opens ho
    have he := ihe hp.2.1 ho trivial ((hes.spans hp.2.2 ho₁ trivial).later.trans hl)
    have hes := ihes hp.2.2 ho₁ trivial hl
    unfold Follows at hes
    rw [hspans.scope] at hes
    refine carries_statement hd he fun v outs hv => ?_
    obtain ⟨z, rfl, hz⟩ := one_iff.1 hv
    exact hes v z hz
  | define => simp [Piece.numeric, Expr.numeric] at hp
  | inline hfun =>
    rw [Slots.function?, ho.functions] at hfun
    cases hfun
  | @call s s' name args f code hlocal hfun hn hargs ih =>
    simp only [Piece.numeric, Expr.numeric, Bool.and_eq_true] at hp
    exact carries_call hd hcat hfun hp.1 hn (ih hp.2 ho trivial hl) fun _ _ hfit => hfit
  | noArgs => exact carries_pure ⟨rfl, rfl⟩
  | @consArg s s₁ s₂ e es first rest he hes ihe ihes =>
    simp only [Piece.numeric, Expr.numericAll, Bool.and_eq_true] at hp
    have hspans := he.spans hp.1 ho trivial
    have ho₁ := hspans.opens ho
    have he := ihe hp.1 ho trivial ((hes.spans hp.2 ho₁ trivial).later.trans hl)
    have hes := ihes hp.2 ho₁ trivial hl
    unfold Follows at hes
    rw [hspans.scope] at hes
    refine carries_argument hd he hes fun v outs vs outs' hv hfit => ?_
    obtain ⟨z, rfl, hz⟩ := one_iff.1 hv
    obtain ⟨hvs, hlen⟩ := hfit
    exact ⟨counts_cons.2 ⟨hz, hvs⟩, congrArg Nat.succ hlen⟩
  | noRest =>
    intro last y hy
    exact carries_pure (one_iff.2 ⟨y, rfl, hy⟩)
  | @consRest s s₁ s₂ e es first rest he hes ihe ihes =>
    simp only [Piece.numeric, Expr.numericAll, Bool.and_eq_true] at hp
    have hspans := he.spans hp.1 ho trivial
    have ho₁ := hspans.opens ho
    have he := ihe hp.1 ho trivial ((hes.spans hp.2 ho₁ trivial).later.trans hl)
    have hes := ihes hp.2 ho₁ trivial hl
    unfold Follows at hes
    rw [hspans.scope] at hes
    intro last y _
    refine carries_nextStatement hd he (fun v outs hv => ?_) last y
    obtain ⟨z, rfl, hz⟩ := one_iff.1 hv
    exact hes v z hz
  | missing code =>
    intro y hy
    subst hy
    exact carries_constant (v := .number y) rfl
  | present he ih => exact fun y _ => ih hp ho trivial hl
  | @otherwise s s' o code h ih =>
    intro hsome
    obtain ⟨e, rfl⟩ := Option.isSome_iff_exists.1 hsome
    have he := ih (by simpa [Piece.numeric, Expr.numericBranches, Expr.numericOption] using hp) ho
      (missingUsesNone_constant _ _) hl Number.nan rfl
    exact he.congr fun st _ => by rw [evalBranches, evalOr, evalOr]
  | @branch s s₁ s₂ s₃ c e bs o condition value rest hc he hbs ihc ihe ihbs =>
    intro hsome
    obtain ⟨e', rfl⟩ := Option.isSome_iff_exists.1 hsome
    simp only [Piece.numeric, Expr.numericBranches, Bool.and_eq_true] at hp
    obtain ⟨⟨⟨hpc, hpe⟩, hpbs⟩, hpo⟩ := hp
    have hpbs : (Piece.branches bs (some e')).numeric may := by simp [Piece.numeric, hpbs, hpo]
    have hsc := hc.spans hpc ho trivial
    have ho₁ := hsc.opens ho
    have hse := he.spans hpe ho₁ trivial
    have ho₂ := hse.opens ho₁
    have hl₂ := (hbs.spans hpbs ho₂ trivial).later.trans hl
    have hc := ihc hpc ho trivial (hse.later.trans hl₂)
    have he := ihe hpe ho₁ trivial hl₂
    have hbs := ihbs hpbs ho₂ trivial hl rfl
    unfold Follows at hc he
    rw [hsc.scope] at he
    rw [hse.scope, hsc.scope] at hbs
    have hmbs := moves_evalBranches (R := KeepsFaults) hd bs _ (moves_evalOr hd .invalid (some e'))
    exact (carries_branch hc (moves_eval hd c) he (moves_eval hd e) hbs hmbs).congr
      fun st _ => rfl

end Follows

/-! ## Compiled formulas -/

theorem catalogued {st : Engine} (h : st.HasCatalog) : st.env.Catalogued :=
  fun _ _ hf => h.mem_functions hf

/-- Every number variable holds the same number in a run and in the environment that it mirrors. -/
theorem Frozen.Mirrors.numbers {K : Frozen} {places : List (Option Place)} {env : Environment}
    {heap : Array Float} {stv : Engine} (h : K.Mirrors [] places env (contents heap stv.env.store))
    (hK : K.Valid) (hr : K.Runs stv) {name : String} {w : Variable} {cell : Nat}
    (hw : K.env.vars.get? name = some w) (hc : w.numberCell? = some cell) :
    ∃ y, stv.env.value? name = some (.number y) ∧
      ∃ u, env.value? name = some u ∧ u.asNumber? = some y := by
  have hresolve : K.resolve [] name = some (.cell cell) := by
    unfold Frozen.resolve
    rw [hK.temporary?_eq_none hw, hw, Option.bind_some, hc]
    rfl
  obtain ⟨u, hu⟩ := Option.ne_none_iff_exists'.1 (h.get?_ne_none hK hw)
  have hvalue : env.value? name = some (env.read u) := by
    unfold Environment.value?
    rw [hu]
  refine ⟨stv.env.store.number cell, ?_, _, hvalue, h.value?_eq hresolve hvalue⟩
  unfold Environment.value?
  rw [hr.vars, hw]
  rcases Variable.numberCell?_eq_some.1 hc with rfl | rfl <;> rfl

/-- The run of a program that carries out an evaluation without faults: it is stopped by a full
stack or leads to a number that fits the value, and every number variable holds the same number
behind both. -/
theorem runSteps_of_carries {K : Frozen} (hK : K.Valid) {p : Program} {x : Eval Value}
    {Fits : Value → List Float → Prop} (hone : ∀ v outs, Fits v outs → ∃ y, outs = [y])
    (hx : K.Carries [] p.code.toList x Fits []) {st st' : Engine} {v : Value}
    (hst : st.env = K.env) (hs : Silent x st v st') (settings : Settings) :
    ∃ n r stv, p.runSteps n settings st = (some r, stv) ∧
      (r = .error .stackOverflow ∨ ∃ y, r = .ok y ∧ Fits v [y] ∧
        ∀ name w cell, st.env.vars.get? name = some w → w.numberCell? = some cell →
          ∃ y, stv.env.value? name = some (.number y) ∧
            ∃ u, st'.env.value? name = some u ∧ u.asNumber? = some y) := by
  have hruns : K.Runs st := ⟨congrArg (·.vars) hst, congrArg (·.store.numbers.size) hst⟩
  have hm : K.Before [] (cellPlaces K.env) ⟨st.env, (p.start settings).heap, st⟩ :=
    ⟨hruns, by rw [hst]; exact hK.mirrors _⟩
  obtain ⟨n, r, stv, hrun, hr⟩ := runSteps_of_tracks (hx (cellPlaces K.env)) hone settings hm hs
  refine ⟨n, r, stv, hrun, hr.imp_right ?_⟩
  rintro ⟨y, heap, rfl, hfit, hr, ⟨places, ho⟩, -⟩
  exact ⟨y, rfl, hfit, fun name w cell hw hc => ho.mirrors.numbers hK hr (hst ▸ hw) hc⟩

/-- **Compiled formulas of the numeric fragment** are run as they are evaluated: from a reachable
engine with the functions of the catalog, if evaluating records no fault, the run is stopped by a
full stack or leads to the number that the value counts as, and every number variable holds the same
number behind both. -/
theorem runSteps_of_evaluate {cells : List HostCell} {st st' : Engine} {e : Expr} {p : Program}
    {v : Value} (h : Engine.Reachable cells st) (hcat : st.HasCatalog)
    (he : e.numeric fun _ => true) (hp : compile st.env e = .ok p)
    (hv : Engine.evaluate e st = (v, st')) (hlog : st'.log = st.log) (settings : Settings) :
    ∃ n r stv, p.runSteps n settings st = (some r, stv) ∧
      (r = .error .stackOverflow ∨ ∃ x, r = .ok x ∧ v.asNumber? = some x ∧
        ∀ name w cell, st.env.vars.get? name = some w → w.numberCell? = some cell →
          ∃ y, stv.env.value? name = some (.number y) ∧
            ∃ u, st'.env.value? name = some u ∧ u.asNumber? = some y) := by
  obtain ⟨s, hl, -⟩ := lowered_of_compile hp
  let K : Frozen := ⟨st.env, HostCell.numberCells cells, s⟩
  have ho := Slots.opens_empty st.env fun _ => true
  have hK : K.Valid := ⟨h.sound, (hl.spans he ho trivial).later.tidy ho.tidy⟩
  rw [evaluate_eq] at hv
  have hfollows : K.Carries [] p.code.toList (eval (deeperAt st.settings.callDepth) e) One [] :=
    hl.follows (moves_deeperAt _) hK (catalogued hcat) he ho trivial (.refl s)
  have hone : ∀ v outs, One v outs → ∃ x, outs = [x] := by
    intro v outs hv
    obtain ⟨x, rfl, -⟩ := one_iff.1 hv
    exact ⟨x, rfl⟩
  obtain ⟨n, r, stv, hrun, hr⟩ :=
    runSteps_of_carries hK hone hfollows rfl ⟨hv, congrArg Array.size hlog⟩ settings
  refine ⟨n, r, stv, hrun, hr.imp_right ?_⟩
  rintro ⟨x, rfl, hfit, hcells⟩
  obtain ⟨y, hy, hv⟩ := one_iff.1 hfit
  cases hy
  exact ⟨x, rfl, hv, hcells⟩

/-- `if(2 < 3, prod(i, 1, 3, 2), 1)`. -/
def chosenProduct : Expr :=
  .cases [(.compare .lt (.constant (.number 2.0)) (.constant (.number 3.0)),
    .loop .prod "i" (.range (.constant (.number 1.0)) none (.constant (.number 3.0)))
      (.constant (.number 2.0)) none)] (some (.constant (.number 1.0)))

theorem runSteps_chosenProduct : ∃ p st', compile (Engine.create {}).env chosenProduct = .ok p ∧
    Engine.evaluate chosenProduct (.create {}) = (.number 8.0, st') ∧
    st'.log = (Engine.create {}).log ∧ ∃ n r stv, p.runSteps n {} (.create {}) = (some r, stv) ∧
      (r = .error .stackOverflow ∨ r = .ok 8.0) := by
  have hp : compile (Engine.create {}).env chosenProduct = .ok _ := rfl
  have hv : Engine.evaluate chosenProduct (.create {}) =
      (.number 8.0, (Engine.evaluate chosenProduct (.create {})).2) := rfl
  have hlog : (Engine.evaluate chosenProduct (.create {})).2.log = (Engine.create {}).log := rfl
  obtain ⟨n, r, stv, hrun, hr⟩ :=
    runSteps_of_evaluate (.create {}) (fun _ => rfl) (by decide) hp hv hlog {}
  refine ⟨_, _, hp, hv, hlog, n, r, stv, hrun, hr.imp_right ?_⟩
  rintro ⟨x, rfl, hx, -⟩
  cases hx
  rfl

end FormulaLang.Bytecode
