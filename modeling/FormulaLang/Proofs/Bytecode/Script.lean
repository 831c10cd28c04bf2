import FormulaLang.Proofs.Bytecode.Inlining

/-!
# Scripts

A script is a list of definitions and expressions. Nothing is assigned in it, and definitions stand
nowhere else. Its expressions call what has been defined in front of them, maybe several times and
in place of a function of the catalog, and functions of the catalog with a fast path.

* `Expr.plain`, `Expr.script`: formulas that assign and define nothing, and scripts of them.
* **`Expr.settled_of_script`**: the definitions of scripts are settled.
* `Lowered.direct`, `direct_script`: their code calls no function without a fast path.
* **`runSteps_of_script`**: compiled scripts.
-/

namespace FormulaLang

namespace Expr

mutual

/-- Numbers, bools, variables, operators, statements, conditions with a value for the other case,
calls of some functions, and products over ranges. -/
def plain (callable : String → Bool) : Expr → Bool
  | .constant (.number _) | .constant (.bool _) | .var _ => true
  | .unary _ e => plain callable e
  | .binary _ a b | .compare _ a b | .logical _ a b => plain callable a && plain callable b
  | .sequence es => !es.isEmpty && plainAll callable es
  | .cases bs (some e) => plainBranches callable bs && plain callable e
  | .call name args => callable name && plainAll callable args
  | .loop .prod _ (.range a d b) body none =>
    plain callable a && plainOption callable d && plain callable b && plain callable body
  | _ => false

def plainAll (callable : String → Bool) : List Expr → Bool
  | [] => true
  | e :: es => plain callable e && plainAll callable es

def plainOption (callable : String → Bool) : Option Expr → Bool
  | none => true
  | some e => plain callable e

def plainBranches (callable : String → Bool) : List (Expr × Expr) → Bool
  | [] => true
  | (c, e) :: rest => plain callable c && plain callable e && plainBranches callable rest

end

/-- The functions that an expression may call behind some definitions. -/
def callable (known : List (String × Expr)) (name : String) : Bool :=
  known.any (·.1 == name) || Catalog.hasPlain name

/-- Statements of a script behind some definitions, whose bodies call what is defined when they are
called. -/
def scriptFrom (known : List (String × Expr)) : List Expr → Bool
  | [] => true
  | .define name _ body :: es => body.plain (fun _ => true) && scriptFrom ((name, body) :: known) es
  | e :: es => e.plain (callable known) && known.all (·.2.plain (callable known)) &&
      scriptFrom known es

/-- Lists of definitions and expressions, and single ones. -/
def script : Expr → Bool
  | .sequence es => scriptFrom [] es
  | e => scriptFrom [] [e]

/-- A statement of a script is a definition or an expression. -/
theorem scriptFrom_cons {known : List (String × Expr)} {e : Expr} {es : List Expr}
    (h : scriptFrom known (e :: es)) :
    (∃ name params body, e = .define name params body ∧ body.plain (fun _ => true) ∧
      scriptFrom ((name, body) :: known) es) ∨
    e.plain (callable known) ∧ known.all (·.2.plain (callable known)) ∧ scriptFrom known es := by
  by_cases hdefine : ∃ name params body, e = .define name params body
  · obtain ⟨name, params, body, rfl⟩ := hdefine
    exact .inl ⟨name, params, body, rfl, by simpa [scriptFrom] using h⟩
  · rw [scriptFrom, Bool.and_eq_true, Bool.and_eq_true, and_assoc] at h
    · exact .inr h
    · exact fun name params body he => hdefine ⟨name, params, body, he⟩

/-- A script that is no list is a single statement. -/
theorem scriptFrom_of_script {e : Expr} (h : e.script) (hseq : ¬∃ es, e = .sequence es) :
    scriptFrom [] [e] := by
  cases e with
  | sequence es => exact absurd ⟨es, rfl⟩ hseq
  | _ => exact h

/-- A loop of such a formula is a product. -/
theorem plain_loop {callable : String → Bool} {kind : LoopKind} {name : String} {a : Expr}
    {d : Option Expr} {b body : Expr} {default : Option Expr}
    (h : (loop kind name (.range a d b) body default).plain callable) :
    kind = .prod ∧ default = none ∧ a.plain callable ∧ plainOption callable d ∧
      b.plain callable ∧ body.plain callable := by
  cases kind with
  | prod =>
    cases default with
    | none => simpa [plain, and_assoc] using h
    | some e => simp [plain] at h
  | _ => simp [plain] at h

end Expr

/-- Every definition may be replaced, and every call has a value. -/
def Signature.free : Signature where
  sole _ := none
  valued _ := true
  arguments := true

/-! ## Scripts have settled definitions -/

namespace Expr

variable {callable : String → Bool}

mutual

theorem hasValue_of_plain : ∀ e : Expr, e.plain callable → e.hasValue .free
  | .constant _, _ | .var _, _ | .unary .., _ | .binary .., _ | .compare .., _ | .logical .., _
  | .call .., _ => rfl
  | .sequence (e :: es), h => by
    simp only [plain, plainAll, List.isEmpty_cons, Bool.not_false, Bool.true_and,
      Bool.and_eq_true] at h
    exact hasValueAfter_of_plain es _ (hasValue_of_plain e h.1) h.2
  | .cases bs (some e), h => by
    simp only [plain, Bool.and_eq_true] at h
    rw [hasValue, hasValueBranches_of_plain bs h.1, hasValue_of_plain e h.2]
    rfl
  | .loop .prod _ (.range a d b) body none, h => by
    obtain ⟨-, -, -, -, -, hbody⟩ := plain_loop h
    exact hasValue_of_plain body hbody

theorem hasValueAfter_of_plain : ∀ (es : List Expr) (last : Bool), last → plainAll callable es →
    hasValueAfter .free last es
  | [], _, h, _ => h
  | e :: es, _, _, h => by
    simp only [plainAll, Bool.and_eq_true] at h
    exact hasValueAfter_of_plain es _ (hasValue_of_plain e h.1) h.2

theorem hasValueBranches_of_plain : ∀ bs : List (Expr × Expr), plainBranches callable bs →
    hasValueBranches .free bs
  | [], _ => rfl
  | (c, e) :: bs, h => by
    simp only [plainBranches, Bool.and_eq_true] at h
    rw [hasValueBranches, hasValue_of_plain e h.1.2, hasValueBranches_of_plain bs h.2]
    rfl

end

theorem all_hasValue_of_plain {es : List Expr} (h : plainAll callable es) :
    es.all (hasValue .free) := by
  induction es with
  | nil => rfl
  | cons e es ih =>
    simp only [plainAll, Bool.and_eq_true] at h
    rw [List.all_cons, hasValue_of_plain e h.1, ih h.2]
    rfl

mutual

theorem settled_of_plain : ∀ (e : Expr) (inner : Bool), e.plain callable → e.settled .free inner
  | .constant (.number _), _, _ | .constant (.bool _), _, _ | .var _, _, _ => by trivial
  | .unary _ e, inner, h => settled_of_plain e inner h
  | .binary _ a b, inner, h | .logical _ a b, inner, h => by
    simp only [plain, Bool.and_eq_true] at h
    exact ⟨settled_of_plain a inner h.1, settled_of_plain b inner h.2⟩
  | .compare _ a b, inner, h => by
    simp only [plain, Bool.and_eq_true] at h
    exact ⟨settled_of_plain a inner h.1, settled_of_plain b inner h.2,
      Bool.or_eq_true_iff.2 (.inl (hasValue_of_plain a h.1))⟩
  | .sequence es, inner, h => by
    simp only [plain, Bool.and_eq_true] at h
    exact settledAll_of_plain es inner h.2
  | .cases bs (some e), inner, h => by
    simp only [plain, Bool.and_eq_true] at h
    exact ⟨settledBranches_of_plain bs inner h.1, settled_of_plain e true h.2⟩
  | .call _ args, inner, h => by
    simp only [plain, Bool.and_eq_true] at h
    exact ⟨settledAll_of_plain args inner h.2, fun _ => all_hasValue_of_plain h.2⟩
  | .loop .prod _ (.range a d b) body none, _, h => by
    obtain ⟨-, -, ha, hd, hb, hbody⟩ := plain_loop h
    exact ⟨settled_of_plain a true ha, settledOption_of_plain d hd, settled_of_plain b true hb,
      settled_of_plain body true hbody⟩

theorem settledAll_of_plain : ∀ (es : List Expr) (inner : Bool), plainAll callable es →
    settledAll .free inner es
  | [], _, _ => trivial
  | e :: es, inner, h => by
    simp only [plainAll, Bool.and_eq_true] at h
    exact ⟨settled_of_plain e inner h.1, settledAll_of_plain es inner h.2⟩

theorem settledOption_of_plain : ∀ o : Option Expr, plainOption callable o → settledOption .free o
  | none, _ => trivial
  | some e, h => settled_of_plain e true h

theorem settledBranches_of_plain : ∀ (bs : List (Expr × Expr)) (inner : Bool),
    plainBranches callable bs → settledBranches .free inner bs
  | [], _, _ => trivial
  | (c, e) :: bs, inner, h => by
    simp only [plainBranches, Bool.and_eq_true] at h
    exact ⟨settled_of_plain c inner h.1.1, settled_of_plain e true h.1.2,
      settledBranches_of_plain bs true h.2⟩

end

theorem settledAll_of_scriptFrom {known : List (String × Expr)} {es : List Expr}
    (h : scriptFrom known es) : settledAll .free false es := by
  induction es generalizing known with
  | nil => trivial
  | cons e es ih =>
    obtain ⟨name, params, body, rfl, hbody, hes⟩ | ⟨he, -, hes⟩ := scriptFrom_cons h
    · refine ⟨⟨settled_of_plain body true hbody, fun _ => hasValue_of_plain body hbody, ?_, ?_⟩,
        ih hes⟩
      · intro f hf
        cases hf
      · intro hinner
        cases hinner
    · exact ⟨settled_of_plain e false he, ih hes⟩

/-- **The definitions of a script are settled.** -/
theorem settled_of_script {e : Expr} (h : e.script) : e.settled .free false := by
  by_cases hseq : ∃ es, e = .sequence es
  · obtain ⟨es, rfl⟩ := hseq
    exact settledAll_of_scriptFrom (show scriptFrom [] es from h)
  · exact (settledAll_of_scriptFrom (scriptFrom_of_script h hseq)).1

end Expr

namespace Bytecode

/-! ## The code of scripts calls nothing without a fast path -/

variable {callable : String → Bool} {known : List (String × Expr)} {env : Environment}
  {s s' : Slots} {code : Code}

/-- The parts of such formulas. -/
def Piece.plain (callable : String → Bool) : Piece → Prop
  | .tree e => e.plain callable
  | .args es | .rest es => Expr.plainAll callable es
  | .optional missing o => Direct missing ∧ Expr.plainOption callable o
  | .branches bs o => Expr.plainBranches callable bs ∧ Expr.plainOption callable o

theorem plainAll_of_operation {e : Expr} {es : List Expr} {i : Instruction}
    (h : operation? e = some (es, i)) (he : e.plain callable) : Expr.plainAll callable es := by
  cases e <;> cases h <;> simp_all [Expr.plain, Expr.plainAll]

theorem direct_of_operation {e : Expr} {es : List Expr} {i : Instruction}
    (h : operation? e = some (es, i)) : Direct [i] := by
  cases e <;> cases h <;> simp

theorem plain_branches {bs : List (Expr × Expr)} {o : Option Expr}
    (h : (Expr.cases bs o).plain callable) : (Piece.branches bs o).plain callable := by
  cases o with
  | none => simp [Expr.plain] at h
  | some e => simpa [Piece.plain, Expr.plain, Expr.plainOption] using h

/-- What may be called is a function with such a body or one of the catalog with a fast path. -/
structure Slots.Offers (callable : String → Bool) (s : Slots) : Prop where
  bodies : ∀ name f, s.function? name = some f → f.body.plain callable
  catalog : ∀ name, callable name → s.function? name = none → Catalog.hasPlain name

theorem Slots.Offers.of_functions (h : s.Offers callable) (hf : s'.functions = s.functions) :
    s'.Offers callable := by
  have hfun : ∀ name, s'.function? name = s.function? name := fun name => by
    rw [Slots.function?, hf, Slots.function?]
  exact ⟨fun name f hn => h.bodies name f (hfun name ▸ hn), fun name hc hn =>
    h.catalog name hc (hfun name ▸ hn)⟩

/-- A function of the catalog with a fast path is called by it. -/
theorem direct_callInstruction {name : String} {f : Function} (hm : (name, f) ∈ Catalog.functions)
    (hp : Catalog.hasPlain name) {n : Nat} (hn : checkArity name f.arity n = .ok ()) :
    Direct [callInstruction name f n] := by
  rw [checkArity_eq_ok] at hn
  rcases Catalog.plain_cases hm (Catalog.plain_of_hasPlain hm hp) with ⟨g, hg⟩ | ⟨g, hg⟩
  · obtain rfl : f = (Catalog.unaryMath name g).2 := congrArg Prod.snd hg
    obtain rfl := hn 1 rfl
    exact direct_cons.2 ⟨fun _ _ => Instruction.noConfusion, direct_nil⟩
  · obtain rfl : f = (Catalog.binaryMath name g).2 := congrArg Prod.snd hg
    obtain rfl := hn 2 rfl
    exact direct_cons.2 ⟨fun _ _ => Instruction.noConfusion, direct_nil⟩

/-- **Lowering a formula that assigns and defines nothing**, and calls what is offered. -/
theorem Lowered.direct (hcat : env.Catalogued) {p : Piece} (h : Lowered env p s code s')
    (hp : p.plain callable) (hs : s.Offers callable) :
    Direct code ∧ s'.functions = s.functions := by
  induction h with
  | number | bool | slot | cell | empty => exact ⟨by simp [noValue], rfl⟩
  | operation h hes ih =>
    obtain ⟨hdir, hf⟩ := ih (plainAll_of_operation h hp) hs
    exact ⟨direct_append.2 ⟨hdir, direct_of_operation h⟩, hf⟩
  | assign | define => cases hp
  | cases h ih => exact ih (plain_branches hp) hs
  | @loop s s₁ s₂ s₃ s₄ _ _ _ name _ _ _ _ _ _ _ _ _ hk hb hd ha hbody ihb ihd iha ihbody =>
    obtain ⟨-, -, hpa, hpd, hpb, hpbody⟩ := Expr.plain_loop hp
    obtain ⟨hdirb, hf₁⟩ := ihb hpb (hs.of_functions rfl)
    obtain ⟨hdird, hf₂⟩ := ihd ⟨by simp, hpd⟩ (hs.of_functions hf₁)
    have hf₂ : s₂.functions = s.functions := hf₂.trans hf₁
    obtain ⟨hdira, hf₃⟩ := iha hpa (hs.of_functions hf₂)
    have hf₃ : s₃.functions = s.functions := hf₃.trans hf₂
    obtain ⟨hdirbody, hf₄⟩ := ihbody hpbody (hs.of_functions hf₃)
    exact ⟨direct_loop.2 ⟨hdira, hdird, hdirb, hdirbody⟩, hf₄.trans hf₃⟩
  | sequence he hes ihe ihes =>
    simp only [Piece.plain, Expr.plain, Expr.plainAll, Bool.and_eq_true] at hp
    obtain ⟨hdire, hf⟩ := ihe hp.2.1 hs
    obtain ⟨hdires, hf'⟩ := ihes hp.2.2 (hs.of_functions hf)
    exact ⟨direct_append.2 ⟨hdire, hdires⟩, hf'.trans hf⟩
  | @inline s s₁ s₂ s₃ name args f code body hf hb hn hargs hbody ihargs ihbody =>
    obtain ⟨active, rfl⟩ := Slots.exists_of_beginCall? hb
    simp only [Piece.plain, Expr.plain, Bool.and_eq_true] at hp
    obtain ⟨hdirargs, hf₂⟩ := ihargs hp.2 (hs.of_functions rfl)
    have hf₂ : s₂.functions = s.functions := hf₂
    obtain ⟨hdirbody, hf₃⟩ := ihbody (hs.bodies name f hf) (hs.of_functions hf₂)
    refine ⟨direct_append.2 ⟨direct_append.2 ⟨hdirargs, ?_⟩, hdirbody⟩, hf₃.trans hf₂⟩
    simp [Direct]
  | call hl hf hn hargs ih =>
    simp only [Piece.plain, Expr.plain, Bool.and_eq_true] at hp
    obtain ⟨hdir, hf'⟩ := ih hp.2 hs
    exact ⟨direct_append.2
      ⟨hdir, direct_callInstruction (hcat _ _ hf) (hs.catalog _ hp.1 hl) hn⟩, hf'⟩
  | noArgs | noRest => exact ⟨direct_nil, rfl⟩
  | consArg he hes ihe ihes =>
    simp only [Piece.plain, Expr.plainAll, Bool.and_eq_true] at hp
    obtain ⟨hdire, hf⟩ := ihe hp.1 hs
    obtain ⟨hdires, hf'⟩ := ihes hp.2 (hs.of_functions hf)
    exact ⟨direct_append.2 ⟨hdire, hdires⟩, hf'.trans hf⟩
  | consRest he hes ihe ihes =>
    simp only [Piece.plain, Expr.plainAll, Bool.and_eq_true] at hp
    obtain ⟨hdire, hf⟩ := ihe hp.1 hs
    obtain ⟨hdires, hf'⟩ := ihes hp.2 (hs.of_functions hf)
    refine ⟨direct_append.2 ⟨direct_cons.2 ⟨?_, hdire⟩, hdires⟩, hf'.trans hf⟩
    exact fun _ _ => Instruction.noConfusion
  | missing code => exact ⟨hp.1, rfl⟩
  | present he ih => exact ih hp.2 hs
  | otherwise h ih => exact ih ⟨by simp [noValue], hp.2⟩ hs
  | branch hc he hbs ihc ihe ihbs =>
    obtain ⟨hpbs, ho⟩ := hp
    simp only [Expr.plainBranches, Bool.and_eq_true] at hpbs
    obtain ⟨hdirc, hf₁⟩ := ihc hpbs.1.1 hs
    obtain ⟨hdire, hf₂⟩ := ihe hpbs.1.2 (hs.of_functions hf₁)
    obtain ⟨hdirbs, hf₃⟩ := ihbs ⟨hpbs.2, ho⟩ (hs.of_functions (hf₂.trans hf₁))
    exact ⟨direct_branch.2 ⟨hdirc, hdire, hdirbs⟩, hf₃.trans (hf₂.trans hf₁)⟩

/-! ## Statements -/

/-- The functions of the slots are those that are known. -/
structure Slots.Defines (known : List (String × Expr)) (s : Slots) : Prop where
  mem : ∀ name f, s.function? name = some f → (name, f.body) ∈ known
  function? : ∀ p ∈ known, s.function? p.1 ≠ none

theorem Slots.defines_empty : Defines [] {} :=
  ⟨fun _ _ h => (by cases h), fun _ h => (by cases h)⟩

theorem Slots.Defines.define (h : s.Defines known) (name : String) (f : Inline) :
    (s.define name f).Defines ((name, f.body) :: known) := by
  have hfun : ∀ other, (s.define name f).function? other =
      if other = name then some f else s.function? other := fun other => bound?_cons
  refine ⟨fun other g hg => ?_, fun p hp => ?_⟩
  · rw [hfun] at hg
    split at hg
    · next heq =>
      cases hg
      rw [heq]
      exact List.mem_cons_self
    · exact List.mem_cons_of_mem _ (h.mem other g hg)
  · rw [hfun]
    split
    · exact Option.some_ne_none f
    · next hne =>
      rcases List.mem_cons.1 hp with rfl | hp
      · exact absurd rfl hne
      · exact h.function? p hp

theorem Slots.Defines.of_functions (h : s.Defines known) (hf : s'.functions = s.functions) :
    s'.Defines known := by
  have hfun : ∀ name, s'.function? name = s.function? name := fun name => by
    rw [Slots.function?, hf, Slots.function?]
  exact ⟨fun name f hn => h.mem name f (hfun name ▸ hn), fun p hp hn =>
    h.function? p hp (hfun p.1 ▸ hn)⟩

/-- Behind some definitions an expression may call what they define. -/
theorem Slots.Defines.offers (h : s.Defines known)
    (hk : known.all (·.2.plain (Expr.callable known))) : s.Offers (Expr.callable known) := by
  refine ⟨fun name f hf => List.all_eq_true.1 hk _ (h.mem name f hf), fun name hc hn => ?_⟩
  refine (Bool.or_eq_true_iff.1 hc).resolve_left fun hany => ?_
  obtain ⟨p, hp, heq⟩ := List.any_eq_true.1 hany
  obtain rfl := beq_iff_eq.1 heq
  exact h.function? p hp hn

/-- **A statement of a script.** -/
theorem direct_statement (hcat : env.Catalogued) {e : Expr} {es : List Expr}
    (h : Lowered env (.tree e) s code s') (he : Expr.scriptFrom known (e :: es))
    (hs : s.Defines known) :
    Direct code ∧ ∃ known', s'.Defines known' ∧ Expr.scriptFrom known' es := by
  obtain ⟨name, params, body, rfl, -, hes⟩ | ⟨he, hknown, hes⟩ := Expr.scriptFrom_cons he
  · cases h with
    | operation h => cases h
    | define => exact ⟨by simp [noValue], _, hs.define name ⟨params, body⟩, hes⟩
  · obtain ⟨hdir, hf⟩ := h.direct hcat he (hs.offers hknown)
    exact ⟨hdir, known, hs.of_functions hf, hes⟩

/-- The statements of a script. -/
theorem direct_statements (hcat : env.Catalogued) {es : List Expr}
    (h : Lowered env (.rest es) s code s') (hes : Expr.scriptFrom known es) (hs : s.Defines known) :
    Direct code := by
  induction es generalizing known s code with
  | nil =>
    cases h
    exact direct_nil
  | cons e es ih =>
    cases h with
    | consRest he hrest =>
      obtain ⟨hdir, known', hs', hes'⟩ := direct_statement hcat he hes hs
      refine direct_append.2 ⟨direct_cons.2 ⟨fun _ _ => Instruction.noConfusion, hdir⟩, ?_⟩
      exact ih hrest hes' hs'

/-- The code of a script calls no function without a fast path. -/
theorem direct_script (hcat : env.Catalogued) {e : Expr} (h : Lowered env (.tree e) {} code s')
    (he : e.script) : Direct code := by
  by_cases hseq : ∃ es, e = .sequence es
  · obtain ⟨es, rfl⟩ := hseq
    cases h with
    | operation h => cases h
    | empty => simp [noValue]
    | sequence he' hes =>
      obtain ⟨hdir, known', hs', hes'⟩ := direct_statement hcat he' he Slots.defines_empty
      exact direct_append.2 ⟨hdir, direct_statements hcat hes hes' hs'⟩
  · exact (direct_statement hcat h (Expr.scriptFrom_of_script he hseq) Slots.defines_empty).1

/-! ## Compiled scripts -/

/-- **Compiled scripts** are run as they are evaluated: from a reachable engine with the functions
of the catalog, if evaluating records no fault and leads to a number or a bool, the run is stopped
by a full stack or leads to the same number. -/
theorem runSteps_of_script {cells : List HostCell} {st st' : Engine} {e : Expr} {p : Program}
    {v : Value} {x : Float} (h : Engine.Reachable cells st) (hcat : st.HasCatalog)
    (he : e.script) (hp : compile st.env e = .ok p) (hv : Engine.evaluate e st = (v, st'))
    (hlog : st'.log = st.log) (hx : v.asNumber? = some x) (settings : Settings) :
    ∃ n r stv, p.runSteps n settings st = (some r, stv) ∧
      (r = .error .stackOverflow ∨ r = .ok x) := by
  obtain ⟨s, hl, -⟩ := lowered_of_compile hp
  have hdirect : Direct p.code.toList := direct_script (catalogued hcat) hl he
  obtain ⟨n, r, stv, hrun, hr⟩ := runSteps_of_yields h hcat (fun _ hn => absurd rfl hn)
    (Expr.settled_of_script he) hp hdirect hv hlog settings
  refine ⟨n, r, stv, hrun, hr.imp_right ?_⟩
  rintro ⟨y, rfl, hy⟩
  rw [hy.eq hx]

/-- `sin(x) = x * x; sin(3)`. -/
def squareScript : Expr :=
  .sequence [.define "sin" ["x"] (.binary .mul (.var "x") (.var "x")),
    .call "sin" [.constant (.number 3.0)]]

/-- The program of `squareScript`. -/
def squareProgram : Program where
  code := (noValue ++ .pop :: [Instruction.constant 3.0, .writeSlot 0, .readSlot 0, .readSlot 0,
    .arithmetic .mul]).toArray
  heapSize := 1

theorem evaluate_squareScript : ∃ st',
    Engine.evaluate squareScript (.create {}) = (.number 9.0, st') ∧
      st'.log = (Engine.create {}).log := by
  let body : Expr := .binary .mul (.var "x") (.var "x")
  let st := (Engine.create {}).onEnv (·.addFunction "sin" (.user ["x"] body))
  let st₁ := st.onEnv fun env => env.enter.addVariable "x" (.number 3.0)
  have hsound : (Engine.create {}).env.Sound [] := (Engine.Reachable.create {}).sound
  have heval : ∀ n (st : Engine), eval (deeperAt n) squareScript st =
      eval (deeperAt n) (.call "sin" [.constant (.number 3.0)])
        (st.onEnv (·.addFunction "sin" (.user ["x"] body))) := fun _ _ => rfl
  have hf : st.env.function? "sin" = some (.user ["x"] body) :=
    (hsound.function?_addFunction "sin" _ "sin").trans (if_pos rfl)
  have hx : st₁.env.value? "x" = some (.number 3.0) :=
    ((hsound.addFunction "sin" _).enter.value?_addVariable "x" _ "x").trans (if_pos rfl)
  have hvar : eval (deeperAt 255) (.var "x") st₁ = (.number 3.0, st₁) := by
    rw [eval_var, hx]
    rfl
  have hbody : eval (deeperAt 255) body st₁ = (.number 9.0, st₁) := by
    have hbind : eval (deeperAt 255) body st₁ =
        let v := eval (deeperAt 255) (.var "x") st₁
        let w := eval (deeperAt 255) (.var "x") v.2
        Eval.check (operate body [v.1, w.1]) w.2 := rfl
    rw [hbind, hvar]
    dsimp only
    rw [hvar]
    rfl
  refine ⟨st₁.onEnv (·.leave), ?_, rfl⟩
  rw [evaluate_eq, heval, show (Engine.create {}).settings = {} from rfl,
    eval_call_unary (n := 255) hf, show eval (deeperAt 255) body _ = _ from hbody]

theorem runSteps_squareScript : ∃ p st', compile (Engine.create {}).env squareScript = .ok p ∧
    Engine.evaluate squareScript (.create {}) = (.number 9.0, st') ∧
    st'.log = (Engine.create {}).log ∧ ∃ n r stv, p.runSteps n {} (.create {}) = (some r, stv) ∧
      (r = .error .stackOverflow ∨ r = .ok 9.0) := by
  obtain ⟨st', hv, hlog⟩ := evaluate_squareScript
  have hp : compile (Engine.create {}).env squareScript = .ok squareProgram := rfl
  exact ⟨squareProgram, st', hp, hv, hlog,
    runSteps_of_script (.create {}) (fun _ => rfl) (by decide +kernel) hp hv hlog rfl {}⟩

end Bytecode

end FormulaLang
