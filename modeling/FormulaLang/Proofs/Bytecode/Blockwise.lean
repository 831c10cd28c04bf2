import FormulaLang.Proofs.Bytecode.Settled

/-!
# Names of blocks

A name that is first assigned in a branch, a loop or a function may be unbound behind it, while the
compiler gives it a slot for the rest of the formula. In blockwise formulas such names are local:
they are read only where they have been assigned or bound before, in the same branch, loop or
function.

* `Expr.binds`: the names that are assigned whenever a tree is evaluated.
* `Expr.blockwise`: formulas with local names.
* `Slots.Names`, `Slots.Tight`, **`Lowered.tight`**: lowering such formulas gives slots to other
  names only where they are bound.
-/

namespace FormulaLang

namespace Expr

mutual

/-- The names that are assigned whenever the tree is evaluated without a fault. -/
def binds : Expr → List String
  | .unary _ e => binds e
  | .binary _ a b | .compare _ a b | .logical _ a b => binds a ++ binds b
  | .assign name e => name :: binds e
  | .sequence es | .call _ es => bindsAll es
  | .cases bs _ => bindsFirst bs
  | _ => []

def bindsAll : List Expr → List String
  | [] => []
  | e :: es => binds e ++ bindsAll es

def bindsFirst : List (Expr × Expr) → List String
  | [] => []
  | (c, _) :: _ => binds c

end

/-- Some names and others. -/
def also (known : String → Bool) (names : List String) (name : String) : Bool :=
  known name || names.contains name

variable (locals : String → Bool)

mutual

/-- A local name is read only where it is known, and in branches, loops and functions (`inner`)
other names are assigned only where they are. The body of a function knows no local name but its
parameters, and conditions have a value for the other case. -/
def blockwise (inner : Bool) (known : String → Bool) : Expr → Bool
  | .constant (.number _) | .constant (.bool _) => true
  | .var name => !locals name || known name
  | .unary _ e => blockwise inner known e
  | .binary _ a b | .compare _ a b | .logical _ a b =>
    blockwise inner known a && blockwise inner (also known (binds a)) b
  | .assign name e =>
    blockwise inner known e && (!inner || locals name || also known (binds e) name)
  | .sequence es | .call _ es => blockwiseAll inner known es
  | .cases bs (some e) => blockwiseBranches inner known bs && blockwise true known e
  | .define _ params body =>
    !inner && blockwise true (also (fun name => !locals name && known name) params) body
  | .loop _ name (.range a d b) body none =>
    blockwise true known a && blockwiseOption known d && blockwise true known b &&
      blockwise true (also known [name]) body
  | _ => false

def blockwiseAll (inner : Bool) (known : String → Bool) : List Expr → Bool
  | [] => true
  | e :: es => blockwise inner known e && blockwiseAll inner (also known (binds e)) es

def blockwiseOption (known : String → Bool) : Option Expr → Bool
  | none => true
  | some e => blockwise true known e

/-- Only the first condition is evaluated in any case. -/
def blockwiseBranches (inner : Bool) (known : String → Bool) : List (Expr × Expr) → Bool
  | [] => true
  | (c, e) :: rest => blockwise inner known c && blockwise true (also known (binds c)) e &&
      blockwiseBranches true (also known (binds c)) rest

end

variable {locals} {inner : Bool} {known known' : String → Bool}

theorem also_iff {names : List String} {name : String} :
    also known names name ↔ known name ∨ name ∈ names := by simp [also]

theorem also_mono (h : ∀ name, known name → known' name) (names : List String) (name : String)
    (hn : also known names name) : also known' names name :=
  also_iff.2 ((also_iff.1 hn).imp_left (h name))

mutual

/-- What is blockwise where some names are known is so where more are. -/
theorem blockwise_mono : ∀ (e : Expr) (inner : Bool) {known known' : String → Bool},
    (∀ name, known name → known' name) → e.blockwise locals inner known →
      e.blockwise locals inner known'
  | .constant (.number _), _, _, _, _, _ | .constant (.bool _), _, _, _, _, _ => rfl
  | .var name, _, _, _, hk, h => by
    simp only [blockwise, Bool.or_eq_true] at h ⊢
    exact h.imp_right (hk name)
  | .unary _ e, inner, _, _, hk, h => blockwise_mono e inner hk h
  | .binary _ a b, inner, _, _, hk, h | .compare _ a b, inner, _, _, hk, h
  | .logical _ a b, inner, _, _, hk, h => by
    simp only [blockwise, Bool.and_eq_true] at h ⊢
    exact ⟨blockwise_mono a inner hk h.1, blockwise_mono b inner (also_mono hk _) h.2⟩
  | .assign name e, inner, _, _, hk, h => by
    simp only [blockwise, Bool.and_eq_true, Bool.or_eq_true] at h ⊢
    exact ⟨blockwise_mono e inner hk h.1, h.2.imp_right (also_mono hk _ name)⟩
  | .sequence es, inner, _, _, hk, h | .call _ es, inner, _, _, hk, h =>
    blockwiseAll_mono es inner hk h
  | .cases bs (some e), inner, _, _, hk, h => by
    simp only [blockwise, Bool.and_eq_true] at h ⊢
    exact ⟨blockwiseBranches_mono bs inner hk h.1, blockwise_mono e true hk h.2⟩
  | .define _ params body, inner, _, _, hk, h => by
    simp only [blockwise, Bool.and_eq_true] at h ⊢
    refine ⟨h.1, blockwise_mono body true (also_mono (fun name hn => ?_) params) h.2⟩
    simp only [Bool.and_eq_true] at hn ⊢
    exact ⟨hn.1, hk name hn.2⟩
  | .loop _ name (.range a d b) body none, _, _, _, hk, h => by
    simp only [blockwise, Bool.and_eq_true] at h ⊢
    exact ⟨⟨⟨blockwise_mono a true hk h.1.1.1, blockwiseOption_mono d hk h.1.1.2⟩,
      blockwise_mono b true hk h.1.2⟩, blockwise_mono body true (also_mono hk _) h.2⟩

theorem blockwiseAll_mono : ∀ (es : List Expr) (inner : Bool) {known known' : String → Bool},
    (∀ name, known name → known' name) → blockwiseAll locals inner known es →
      blockwiseAll locals inner known' es
  | [], _, _, _, _, _ => rfl
  | e :: es, inner, _, _, hk, h => by
    simp only [blockwiseAll, Bool.and_eq_true] at h ⊢
    exact ⟨blockwise_mono e inner hk h.1, blockwiseAll_mono es inner (also_mono hk _) h.2⟩

theorem blockwiseOption_mono : ∀ (o : Option Expr) {known known' : String → Bool},
    (∀ name, known name → known' name) → blockwiseOption locals known o →
      blockwiseOption locals known' o
  | none, _, _, _, _ => rfl
  | some e, _, _, hk, h => blockwise_mono e true hk h

theorem blockwiseBranches_mono : ∀ (bs : List (Expr × Expr)) (inner : Bool)
    {known known' : String → Bool}, (∀ name, known name → known' name) →
      blockwiseBranches locals inner known bs → blockwiseBranches locals inner known' bs
  | [], _, _, _, _, _ => rfl
  | (c, e) :: bs, inner, _, _, hk, h => by
    simp only [blockwiseBranches, Bool.and_eq_true] at h ⊢
    exact ⟨⟨blockwise_mono c inner hk h.1.1, blockwise_mono e true (also_mono hk _) h.1.2⟩,
      blockwiseBranches_mono bs true (also_mono hk _) h.2⟩

end

end Expr

namespace Bytecode

open Expr (also also_iff also_mono)

variable {locals : String → Bool} {inner : Bool} {known known' : String → Bool}
  {env : Environment} {name : String}

/-- The names that are assigned whenever a part of a formula is evaluated. -/
def Piece.binds : Piece → List String
  | .tree e => e.binds
  | .args es | .rest es => Expr.bindsAll es
  | .optional _ _ => []
  | .branches bs _ => Expr.bindsFirst bs

/-- The parts of blockwise formulas. -/
def Piece.blockwise (locals : String → Bool) (inner : Bool) (known : String → Bool) : Piece → Prop
  | .tree e => e.blockwise locals inner known
  | .args es | .rest es => Expr.blockwiseAll locals inner known es
  | .optional _ o => ∀ e ∈ o, e.blockwise locals inner known
  | .branches bs o => Expr.blockwiseBranches locals inner known bs ∧
      ∃ e, o = some e ∧ e.blockwise locals true known

theorem binds_of_operation {e : Expr} {es : List Expr} {i : Instruction}
    (h : operation? e = some (es, i)) : e.binds = Expr.bindsAll es := by
  cases e <;> cases h <;> simp [Expr.binds, Expr.bindsAll]

theorem blockwiseAll_of_operation {e : Expr} {es : List Expr} {i : Instruction}
    (h : operation? e = some (es, i)) (he : e.blockwise locals inner known) :
    Expr.blockwiseAll locals inner known es := by
  cases e <;> cases h <;> simp_all [Expr.blockwise, Expr.blockwiseAll]

theorem blockwiseAll_cons {e : Expr} {es : List Expr} :
    Expr.blockwiseAll locals inner known (e :: es) ↔ e.blockwise locals inner known ∧
      Expr.blockwiseAll locals inner (also known e.binds) es := by
  simp [Expr.blockwiseAll]

theorem blockwise_branches {bs : List (Expr × Expr)} {o : Option Expr}
    (h : (Expr.cases bs o).blockwise locals inner known) :
    (Piece.branches bs o).blockwise locals inner known := by
  cases o with
  | none => simp [Expr.blockwise] at h
  | some e => simpa [Piece.blockwise, Expr.blockwise] using h

theorem blockwise_otherwise {missing : Code} {o : Option Expr}
    (h : (Piece.branches [] o).blockwise locals inner known) :
    (Piece.optional missing o).blockwise locals true known := by
  obtain ⟨-, e, rfl, he⟩ := h
  intro e' he'
  cases he'
  exact he

theorem blockwise_branch {c e : Expr} {bs : List (Expr × Expr)} {o : Option Expr}
    (h : (Piece.branches ((c, e) :: bs) o).blockwise locals inner known) :
    c.blockwise locals inner known ∧ e.blockwise locals true (also known c.binds) ∧
      (Piece.branches bs o).blockwise locals true (also known c.binds) := by
  obtain ⟨hbs, e', rfl, he'⟩ := h
  simp only [Expr.blockwiseBranches, Bool.and_eq_true] at hbs
  exact ⟨hbs.1.1, hbs.1.2, hbs.2, e', rfl,
    Expr.blockwise_mono e' true (fun _ hn => also_iff.2 (.inl hn)) he'⟩

theorem blockwise_loop {kind : LoopKind} {a : Expr} {d : Option Expr} {b body : Expr}
    {default : Option Expr}
    (h : (Expr.loop kind name (.range a d b) body default).blockwise locals inner known) :
    default = none ∧ a.blockwise locals true known ∧ (∀ e ∈ d, e.blockwise locals true known) ∧
      b.blockwise locals true known ∧ body.blockwise locals true (also known [name]) := by
  cases default with
  | some e => simp [Expr.blockwise] at h
  | none =>
    simp only [Expr.blockwise, Bool.and_eq_true] at h
    obtain ⟨⟨⟨ha, hd⟩, hb⟩, hbody⟩ := h
    refine ⟨rfl, ha, fun e he => ?_, hb, hbody⟩
    obtain rfl : d = some e := he
    exact hd

/-! ## Slots -/

theorem bound?_ne_none {α : Type} {bindings : List (String × α)} :
    bound? name bindings ≠ none ↔ name ∈ bindings.map Prod.fst := by
  simp [bound?, List.find?_eq_none]

namespace Slots

/-- A name has a slot. -/
def Names (s : Slots) (name : String) : Prop :=
  name ∈ s.scope.map Prod.fst ∨ name ∈ s.temporaries.map Prod.fst

variable {s s₁ s₂ s' : Slots}

theorem names_iff : s.Names name ↔ s.lookup? name ≠ none := by
  rw [Names, ← bound?_ne_none, ← bound?_ne_none, lookup?]
  cases bound? name s.scope <;> simp

theorem names_pushAll {names : List String} :
    (s.pushAll names).Names name ↔ name ∈ names ∨ s.Names name := by
  have hmap : (s.pushAll names).scope.map Prod.fst = names.reverse ++ s.scope.map Prod.fst := by
    simp [Slots.pushAll, slotsOf, List.map_fst_zip]
  rw [Names, Names, hmap, List.mem_append, List.mem_reverse, or_assoc]
  rfl

/-- The names other than local ones that have a slot or are variables. -/
def outer (env : Environment) (locals : String → Bool) (s : Slots) (name : String) : Bool :=
  !locals name && ((s.lookup? name).isSome || env.hasVariable name)

theorem outer_iff : s.outer env locals name ↔
    locals name = false ∧ (s.Names name ∨ env.hasVariable name) := by
  rw [names_iff]
  simp [outer, Option.isSome_iff_ne_none]

/-- What is known has a slot or is a variable, unless it is local, and so have the names that bodies
of functions know. -/
structure Tight (env : Environment) (locals known : String → Bool) (s : Slots) : Prop where
  known : ∀ name, known name → locals name = false → s.Names name ∨ env.hasVariable name
  bodies : ∀ name f, s.function? name = some f →
    f.body.blockwise locals true (also (s.outer env locals) f.params)

/-- From one state of the slots to another, names got slots and functions were defined, inside only
local names and no functions. -/
structure Widens (locals : String → Bool) (inner : Bool) (s s' : Slots) : Prop where
  scope : s'.scope = s.scope
  temporaries : ∀ name ∈ s.temporaries.map Prod.fst, name ∈ s'.temporaries.map Prod.fst
  functions : inner → s'.functions = s.functions
  others : inner → ∀ name ∈ s'.temporaries.map Prod.fst, locals name = false →
    name ∈ s.temporaries.map Prod.fst

namespace Widens

theorem of_temporaries (h : s'.temporaries = s.temporaries) (hscope : s'.scope = s.scope)
    (hf : s'.functions = s.functions) : s.Widens locals inner s' :=
  ⟨hscope, fun _ hn => h ▸ hn, fun _ => hf, fun _ _ hn _ => h ▸ hn⟩

theorem refl (s : Slots) : s.Widens locals inner s := .of_temporaries rfl rfl rfl

theorem trans (h : s.Widens locals inner s₁) (h' : s₁.Widens locals inner s') :
    s.Widens locals inner s' :=
  ⟨h'.scope.trans h.scope, fun name hn => h'.temporaries name (h.temporaries name hn),
    fun hi => (h'.functions hi).trans (h.functions hi),
    fun hi name hn hl => h.others hi name (h'.others hi name hn hl) hl⟩

theorem fresh (s : Slots) : s.Widens locals inner s.fresh.2 := .of_temporaries rfl rfl rfl

theorem of_inner (h : s.Widens locals true s') : s.Widens locals inner s' :=
  ⟨h.scope, h.temporaries, fun _ => h.functions rfl, fun _ => h.others rfl⟩

theorem names (h : s.Widens locals inner s') (hn : s.Names name) : s'.Names name :=
  hn.imp (h.scope ▸ ·) (h.temporaries name)

theorem outer (h : s.Widens locals inner s') (hn : s.outer env locals name) :
    s'.outer env locals name := by
  rw [outer_iff] at hn ⊢
  exact ⟨hn.1, hn.2.imp_left h.names⟩

/-- The calls that are going on have no slots. -/
theorem of_active {active active' : List String}
    (h : { s with active }.Widens locals inner { s' with active := active' }) :
    s.Widens locals inner s' :=
  ⟨h.scope, h.temporaries, h.functions, h.others⟩

/-- Behind a loop its position has no name. -/
theorem pop (h : (s.push name).2.fresh.2.Widens locals true s') : s.Widens locals true s'.pop :=
  ⟨congrArg List.tail h.scope, h.temporaries, h.functions, h.others⟩

/-- Behind a call its parameters have no names. -/
theorem endCall {names : List String} (h : (s.pushAll names).Widens locals true s') :
    s.Widens locals true (s'.popAll names.length).endCall := by
  refine ⟨?_, h.temporaries, h.functions, h.others⟩
  change s'.scope.drop names.length = s.scope
  rw [h.scope]
  simp [Slots.pushAll, Slots.slotsOf]

/-- Inside, other names than local ones have had their slots before. -/
theorem names_of_inner (h : s.Widens locals true s') (hl : locals name = false)
    (hn : s'.Names name) : s.Names name :=
  hn.imp (h.scope ▸ ·) fun hn => h.others rfl name hn hl

end Widens

namespace Tight

theorem mono (h : s.Tight env locals known) (hk : ∀ name, known' name → known name) :
    s.Tight env locals known' :=
  ⟨fun name hn => h.known name (hk name hn), h.bodies⟩

/-- Where more names have slots and the functions are the same. -/
theorem of_names (h : s.Tight env locals known) (hn : ∀ name, s.Names name → s'.Names name)
    (hf : s'.functions = s.functions) : s'.Tight env locals known := by
  refine ⟨fun name hk hl => (h.known name hk hl).imp_left (hn name), fun name f hname => ?_⟩
  rw [function?, hf] at hname
  refine Expr.blockwise_mono _ _ (also_mono (fun other ho => ?_) f.params) (h.bodies name f hname)
  rw [outer_iff] at ho ⊢
  exact ⟨ho.1, ho.2.imp_left (hn other)⟩

theorem of_widens (h : s.Tight env locals known) (hw : s.Widens locals true s') :
    s'.Tight env locals known :=
  h.of_names (fun _ => hw.names) (hw.functions rfl)

theorem fresh (h : s.Tight env locals known) : s.fresh.2.Tight env locals known :=
  h.of_names (fun _ => id) rfl

theorem pushAll (h : s.Tight env locals known) (names : List String) :
    (s.pushAll names).Tight env locals (also known names) := by
  refine ⟨fun name hn hl => ?_, (h.of_names (fun _ hn => names_pushAll.2 (.inr hn)) rfl).bodies⟩
  rcases also_iff.1 hn with hk | hn
  · exact (h.known name hk hl).imp_left fun hn => names_pushAll.2 (.inr hn)
  · exact .inl (names_pushAll.2 (.inl hn))

theorem push (h : s.Tight env locals known) (name : String) :
    (s.push name).2.Tight env locals (also known [name]) :=
  h.pushAll [name]

end Tight

end Slots

open Slots (Tight Widens)

/-- Writing a name gives a slot to no other one, and changes no function. -/
theorem Written.cases {s s' : Slots} {i : Instruction} (h : Written env name s i s') :
    s' = s ∧ (s.Names name ∨ env.hasVariable name) ∨
      ¬ s.Names name ∧ env.hasVariable name = false ∧
        s' = { s with temporaries := (name, s.size) :: s.temporaries, size := s.size + 1 } := by
  cases h with
  | slot h => exact .inl ⟨rfl, .inl (Slots.names_iff.2 (by simp [h]))⟩
  | cell h hv hc => exact .inl ⟨rfl, .inr hv⟩
  | temporary h hv =>
    have hnot : ¬ s.Names name := fun hn => Slots.names_iff.1 hn h
    refine .inr ⟨hnot, hv, ?_⟩
    rw [Slots.temporary]
    cases hb : bound? name s.temporaries with
    | none => rfl
    | some slot => exact absurd (.inr (bound?_ne_none.1 (by simp [hb]))) hnot

theorem Written.functions {s s' : Slots} {i : Instruction} (h : Written env name s i s') :
    s'.functions = s.functions := by
  rcases h.cases with ⟨rfl, -⟩ | ⟨-, -, rfl⟩ <;> rfl

theorem Written.names {s s' : Slots} {i : Instruction} {other : String}
    (h : Written env name s i s') (hn : s'.Names other) : other = name ∨ s.Names other := by
  rcases h.cases with ⟨rfl, -⟩ | ⟨-, -, rfl⟩
  · exact .inr hn
  · rcases hn with hn | hn
    · exact .inr (.inl hn)
    · exact (List.mem_cons.1 hn).imp_right .inr

/-- Writing a name gives it a slot if it has none, inside only if it is local. -/
theorem Written.widens {s s' : Slots} {i : Instruction} (h : Written env name s i s')
    (hs : s.Tight env locals known) (hn : inner → locals name = false → known name) :
    s.Widens locals inner s' ∧ (s'.Names name ∨ env.hasVariable name) := by
  rcases h.cases with ⟨rfl, hname⟩ | ⟨hnot, hv, rfl⟩
  · exact ⟨.refl _, hname⟩
  · refine ⟨⟨rfl, fun _ hn => List.mem_cons_of_mem _ hn, fun _ => rfl, fun hi other ho hl => ?_⟩,
      .inl (.inr List.mem_cons_self)⟩
    rcases List.mem_cons.1 ho with rfl | ho
    · rcases hs.known _ (hn hi hl) hl with hname | hname
      · exact absurd hname hnot
      · rw [hname] at hv
        cases hv
    · exact ho

/-- **Lowering a blockwise formula** gives slots to local names wherever they are assigned, but to
others only outside of branches, loops and functions. -/
theorem Lowered.tight {p : Piece} {s s' : Slots} {code : Code} (h : Lowered env p s code s')
    (hp : p.blockwise locals inner known) (hs : s.Tight env locals known) :
    s.Widens locals inner s' ∧ s'.Tight env locals (also known p.binds) := by
  have hnone : ∀ {s : Slots} {known : String → Bool}, s.Tight env locals known →
      s.Tight env locals (also known []) := fun hs => hs.mono fun name hn => by
    simpa [also] using hn
  induction h generalizing inner known with
  | number | bool | slot | cell | empty | noArgs | noRest | missing => exact ⟨.refl _, hnone hs⟩
  | operation h hes ih =>
    have := ih (blockwiseAll_of_operation h hp) hs
    rwa [Piece.binds, binds_of_operation h]
  | @assign s s₁ s₂ name e code write he hw ihe =>
    simp only [Piece.blockwise, Expr.blockwise, Bool.and_eq_true, Bool.or_eq_true,
      Bool.not_eq_true'] at hp
    obtain ⟨hpe, hname⟩ := hp
    obtain ⟨hwide, htight⟩ := ihe hpe hs
    have hknown : inner → locals name = false → also known e.binds name := fun hi hl => by
      simpa [hi, hl] using hname
    obtain ⟨hwrite, hnamed⟩ := hw.widens htight hknown
    have htight₂ := htight.of_names (fun _ => hwrite.names) hw.functions
    refine ⟨hwide.trans hwrite, fun other ho hl => ?_, htight₂.bodies⟩
    rcases also_iff.1 ho with ho | ho
    · exact htight₂.known other (also_iff.2 (.inl ho)) hl
    · rcases List.mem_cons.1 ho with rfl | ho
      · exact hnamed
      · exact htight₂.known other (also_iff.2 (.inr ho)) hl
  | cases h ih => exact ih (blockwise_branches hp) hs
  | @loop s s₁ s₂ s₃ s₄ _ _ _ name _ _ _ _ _ _ _ _ _ hk hb hd ha hbody ihb ihd iha ihbody =>
    obtain ⟨-, hpa, hpd, hpb, hpbody⟩ := blockwise_loop hp
    obtain ⟨hw₁, -⟩ := ihb hpb hs.fresh
    have hs₁ := hs.fresh.of_widens hw₁
    obtain ⟨hw₂, -⟩ := ihd hpd hs₁.fresh
    have hs₂ := hs₁.fresh.of_widens hw₂
    obtain ⟨hw₃, -⟩ := iha hpa hs₂
    have hs₃ := hs₂.of_widens hw₃
    obtain ⟨hw₄, -⟩ := ihbody hpbody (hs₃.push name).fresh
    have hw := (Widens.fresh s).trans (hw₁.trans ((Widens.fresh s₁).trans (hw₂.trans hw₃)))
    exact ⟨(hw.trans hw₄.pop).of_inner, hnone (hs.of_widens (hw.trans hw₄.pop))⟩
  | sequence he hes ihe ihes | consArg he hes ihe ihes | consRest he hes ihe ihes =>
    simp only [Piece.blockwise, Expr.blockwise, Expr.blockwiseAll, Bool.and_eq_true] at hp
    obtain ⟨hw, hs₁⟩ := ihe hp.1 hs
    obtain ⟨hw', hs₂⟩ := ihes hp.2 hs₁
    refine ⟨hw.trans hw', hs₂.mono fun name hn => ?_⟩
    simpa [also, Piece.binds, Expr.binds, Expr.bindsAll, or_assoc] using hn
  | @define s name params body =>
    simp only [Piece.blockwise, Expr.blockwise, Bool.and_eq_true, Bool.not_eq_true'] at hp
    obtain ⟨rfl, hbody⟩ := hp
    have hfun : ∀ other, (s.define name ⟨params, body⟩).function? other =
        if other = name then some ⟨params, body⟩ else s.function? other := fun other => bound?_cons
    refine ⟨⟨rfl, fun _ => id, fun hi => (by cases hi), fun _ _ hn _ => hn⟩, hnone ⟨hs.known, ?_⟩⟩
    intro other f hf
    rw [hfun] at hf
    split at hf
    · cases hf
      refine Expr.blockwise_mono _ _ (also_mono (fun n hn => ?_) params) hbody
      simp only [Bool.and_eq_true, Bool.not_eq_true'] at hn
      exact Slots.outer_iff.2 ⟨hn.1, hs.known n hn.2 hn.1⟩
    · exact hs.bodies other f hf
  | @inline s s₁ s₂ s₃ name args f code body hf hb hn hargs hbody ihargs ihbody =>
    obtain ⟨active, rfl⟩ := Slots.exists_of_beginCall? hb
    obtain ⟨hw, hs₂⟩ := ihargs hp (hs.of_names (fun _ => id) rfl)
    have hw : s.Widens locals inner s₂ := hw.of_active
    have hpbody := Expr.blockwise_mono _ _ (also_mono (fun _ => hw.outer) f.params)
      (hs.bodies name f hf)
    have hknown : s₂.Tight env locals (s₂.outer env locals) :=
      ⟨fun n hn _ => (Slots.outer_iff.1 hn).2, hs₂.bodies⟩
    obtain ⟨hw', -⟩ := ihbody hpbody (hknown.pushAll f.params)
    exact ⟨hw.trans hw'.endCall.of_inner, hs₂.of_widens hw'.endCall⟩
  | call hl hf hn hargs ih => exact ih hp hs
  | present he ih =>
    obtain ⟨hw, hs'⟩ := ih (hp _ rfl) hs
    exact ⟨hw, hnone (hs'.mono fun name hn => also_iff.2 (.inl hn))⟩
  | otherwise h ih =>
    obtain ⟨hw, hs'⟩ := ih (blockwise_otherwise hp) hs
    exact ⟨hw.of_inner, hs'⟩
  | @branch s s₁ s₂ s₃ c e bs o condition value rest hc he hbs ihc ihe ihbs =>
    obtain ⟨hpc, hpe, hpbs⟩ := blockwise_branch hp
    obtain ⟨hw₁, hs₁⟩ := ihc hpc hs
    obtain ⟨hw₂, -⟩ := ihe hpe hs₁
    have hs₂ := hs₁.of_widens hw₂
    obtain ⟨hw₃, -⟩ := ihbs hpbs hs₂
    exact ⟨hw₁.trans (hw₂.trans hw₃).of_inner, hs₂.of_widens hw₃⟩

end Bytecode

end FormulaLang
