import FormulaLang.Proofs.Bytecode.Agreement
import FormulaLang.Proofs.Bytecode.Simulation

/-!
# Code with inlined functions

The body of a function stands in the code wherever it is called, with slots of its own for its
parameters. Its other names lead to the slots around the call, as they lead to the blocks around the
call when it is evaluated. What a formula defines but does not need has void as its value, for which
the code leaves a NaN.

* `Sees`: the variables of an evaluation are what the code reads.
* `Yields`: code that tracks an evaluation that assigns nothing.
* `yields_inline`, `yields_loop`: calls and loops.
* **`Lowered.yields`**: the code of formulas with settled definitions.
* `runSteps_of_along`: compiled formulas, under a condition on what is evaluated on the way.
* **`runSteps_of_settled`**: compiled formulas.
* `runSteps_passedDefinition`: a definition that is passed by.
-/

namespace FormulaLang.Bytecode

open Eval (Moves Silent)
open Slots (Ready Keeps Alike Stages)
open FormulaLang.Expr (AlongAll AlongBranches)

variable {P : Visit → Prop} {σ : Signature} {wide inner : Bool} {base env env' : Environment}
  {held : List Nat} {s s' s₁ s₂ : Slots} {heap heap' heap'' : Array Float} {name : String}

/-! ## What code reads -/

/-- The slots below a bound hold the same numbers. -/
def SameBelow (size : Nat) (heap heap' : Array Float) : Prop :=
  ∀ slot < size, getSlot heap' slot = getSlot heap slot

theorem SameBelow.refl (size : Nat) (heap : Array Float) : SameBelow size heap heap :=
  fun _ _ => rfl

theorem SameBelow.trans {size size' : Nat} (h : SameBelow size heap heap')
    (h' : SameBelow size' heap' heap'') (hle : size ≤ size') : SameBelow size heap heap'' :=
  fun slot hs => (h' slot (Nat.lt_of_lt_of_le hs hle)).trans (h slot hs)

theorem SameBelow.mono {size size' : Nat} (h : SameBelow size' heap heap') (hle : size ≤ size') :
    SameBelow size heap heap' :=
  fun slot hs => h slot (Nat.lt_of_lt_of_le hs hle)

theorem sameBelow_setSlot {size slot : Nat} (hs : size ≤ slot) (x : Float) :
    SameBelow size heap (setSlot heap slot x) :=
  fun _ hlt => getSlot_setSlot_of_ne (Nat.ne_of_lt (Nat.lt_of_lt_of_le hlt hs))

variable (σ base held) in
/-- **The variables of an evaluation are what the code reads**: a name in scope has a value for
which the number in its slot stands, and any other name the value that it had at the beginning. -/
structure Sees (s : Slots) (env : Environment) (heap : Array Float) : Prop where
  sound : env.Sound held
  agrees : Agrees σ base s env
  scope : ∀ name slot, bound? name s.scope = some slot →
    ∃ v, env.value? name = some v ∧ Stands .void (!σ.arguments) v (getSlot heap slot)
  outer : ∀ name, bound? name s.scope = none → env.value? name = base.value? name

namespace Sees

variable {v : Value}

theorem lt_of_bound? (hs : s.Ready σ wide) {slot : Nat} (h : bound? name s.scope = some slot) :
    slot < s.size := by
  obtain ⟨p, hp, rfl⟩ := List.mem_map.1 (mem_of_bound? h)
  exact hs.bounded p hp

/-- At another time, with the same variables, functions and names in scope. -/
theorem move (h : Sees σ base held s env heap) (hs : s.Ready σ wide) (hsound : env'.Sound held)
    (hc : env.Calm env') (ha : Agrees σ base s' env') (hscope : s'.scope = s.scope)
    (hb : SameBelow s.size heap heap') : Sees σ base held s' env' heap' := by
  have hvalue := hc.value? h.sound hsound
  refine ⟨hsound, ha, fun name slot hn => ?_, fun name hn => ?_⟩
  · rw [hscope] at hn
    obtain ⟨v, hv, hstands⟩ := h.scope name slot hn
    exact ⟨v, (hvalue name).trans hv, by rwa [hb slot (lt_of_bound? hs hn)]⟩
  · rw [hscope] at hn
    exact (hvalue name).trans (h.outer name hn)

theorem of_slots (h : Sees σ base held s env heap) (hscope : s'.scope = s.scope)
    (hf : s'.functions = s.functions) : Sees σ base held s' env heap :=
  ⟨h.sound, h.agrees.alike (Slots.alike_of_functions hf), fun name slot hn =>
    h.scope name slot (hscope ▸ hn), fun name hn => h.outer name (hscope ▸ hn)⟩

theorem enter (h : Sees σ base held s env heap) : Sees σ base held s env.enter heap :=
  ⟨h.sound.enter, h.agrees.of_functions rfl, h.scope, h.outer⟩

/-- A name is bound to a slot of its own, and to a value for which the number there stands. -/
theorem push (h : Sees σ base held s env heap) (hs : s.Ready σ wide) (hsound : env'.Sound held)
    (ha : Agrees σ base s env')
    (hothers : ∀ other, other ≠ name → env'.value? other = env.value? other)
    (hb : SameBelow s.size heap heap') (hv : Stands .void (!σ.arguments) v (getSlot heap' s.size)) :
    Sees σ base held (s.push name).2 (env'.addVariable name v) heap' := by
  have hvalue := hsound.value?_addVariable name v
  have hbound : ∀ other, bound? other (s.push name).2.scope =
      if other = name then some s.size else bound? other s.scope := fun other => bound?_cons
  refine ⟨hsound.addVariable name v, ?_, fun other slot hn => ?_, fun other hn => ?_⟩
  · have ha' : Agrees σ base (s.push name).2 env' := ha.alike (Slots.alike_of_functions rfl)
    exact ha'.of_functions (env'.functions_addVariable name v)
  · rw [hbound] at hn
    rw [hvalue]
    split at hn
    · next heq =>
      cases hn
      exact ⟨v, if_pos heq, hv⟩
    · next hne =>
      obtain ⟨w, hw, hstands⟩ := h.scope other slot hn
      refine ⟨w, ?_, by rwa [hb slot (lt_of_bound? hs hn)]⟩
      rw [if_neg hne, hothers other hne, hw]
  · rw [hbound] at hn
    split at hn
    · cases hn
    · next hne =>
      rw [hvalue, if_neg hne, hothers other hne, h.outer other hn]

/-- Parameters are bound to slots of their own. -/
theorem pushAll (h : Sees σ base held s env heap) (hs : s.Ready σ wide) {names : List String}
    {vs : List Value} (hlen : vs.length = names.length) (hb : SameBelow s.size heap heap')
    (hvs : ∀ i (hi : i < vs.length),
      Stands .void (!σ.arguments) vs[i] (getSlot heap' (s.size + i))) :
    Sees σ base held (s.pushAll names) (env.addVariables (names.zip vs)) heap' := by
  induction names generalizing s env vs heap with
  | nil =>
    exact h.move hs h.sound (.refl env) (h.agrees.alike (Slots.alike_of_functions rfl))
      (by simp [Slots.pushAll]) hb
  | cons name names ih =>
    obtain _ | ⟨v, vs⟩ := vs
    · cases hlen
    rw [Slots.pushAll_cons]
    refine ih (h.push hs h.sound h.agrees (fun _ _ => rfl) hb (hvs 0 (Nat.zero_lt_succ _)))
      (hs.push name) (Nat.succ.inj hlen) (.refl _ _) fun i hi => ?_
    have hslot : (s.push name).2.size + i = s.size + (i + 1) := by
      rw [Nat.add_comm i 1, ← Nat.add_assoc]
      rfl
    rw [hslot]
    exact hvs (i + 1) (Nat.succ_lt_succ hi)

end Sees

/-! ## Code of evaluations that assign nothing -/

variable (σ base held) in
/-- **Code tracks an evaluation that assigns nothing**: the engine of the run does not change, nor
do the slots that have been given out before. -/
def Yields {α : Type} (s : Slots) (piece : Code) (x : Eval α) (Fits : α → List Float → Prop)
    (ins : List Float) : Prop :=
  Tracks (fun m => m.engine.env = base ∧ Sees σ base held s m.env m.heap)
    (fun m m' => m'.engine = m.engine ∧ SameBelow s.size m.heap m'.heap) piece x Fits ins

section Yields

variable {α β : Type} {piece piece' : Code} {x y : Eval α} {f : α → Eval β}
  {Fits Fits₁ : α → List Float → Prop} {Fits' : β → List Float → Prop} {ins outs : List Float}
  {v : α}

namespace Yields

theorem congr (h : Yields σ base held s piece y Fits ins)
    (hxy : ∀ ⦃st st' v⦄, Agrees σ base s st.env → Silent x st v st' → x st = y st) :
    Yields σ base held s piece x Fits ins :=
  Tracks.congr h fun _ _ _ _ _ hm hsilent => hxy hm.2.agrees hsilent

theorem of_slots (h : Yields σ base held s piece x Fits ins) (hscope : s'.scope = s.scope)
    (hf : s'.functions = s.functions) (hsize : s'.size = s.size) :
    Yields σ base held s' piece x Fits ins :=
  Tracks.mono h (fun _ hm => ⟨hm.1, hm.2.of_slots hscope.symm hf.symm⟩)
    (fun _ _ _ ha => hsize ▸ ha) fun _ _ hfit => hfit

theorem imp (h : Yields σ base held s piece x Fits ins)
    (hf : ∀ v outs, Fits v outs → Fits₁ v outs) : Yields σ base held s piece x Fits₁ ins :=
  Tracks.mono h (fun _ hm => hm) (fun _ _ _ ha => ha) hf

/-- Behind an evaluation the code of another one can go on. -/
theorem after (h : Yields σ base held s' piece' x Fits ins) {m m' : Moment}
    (hm : m.engine.env = base ∧ Sees σ base held s m.env m.heap) (hs : s.Ready σ wide)
    (ha : (m'.engine = m.engine ∧ SameBelow s.size m.heap m'.heap) ∧
      m'.env.Sound held ∧ m.env.Calm m'.env ∧ Agrees σ base s₁ m'.env)
    (halike : s₁.Alike σ s') (hscope : s'.scope = s.scope) (hle : s.size ≤ s'.size) :
    Tracks (· = m') (fun _ m₂ => m₂.engine = m.engine ∧ SameBelow s.size m.heap m₂.heap) piece' x
      Fits ins := by
  obtain ⟨⟨hengine, hb⟩, hsound, hcalm, hagrees⟩ := ha
  refine Tracks.mono h ?_ ?_ fun _ _ hfit => hfit
  · rintro _ rfl
    exact ⟨hengine ▸ hm.1, hm.2.move hs hsound hcalm (hagrees.alike halike) hscope hb⟩
  · rintro _ m₂ rfl ⟨hengine₂, hb₂⟩
    exact ⟨hengine₂.trans hengine, hb.trans hb₂ hle⟩

theorem andSettles (hx : Yields σ base held s piece x Fits ins) (hsx : Settles σ base held s s₁ x) :
    Tracks (fun m => m.engine.env = base ∧ Sees σ base held s m.env m.heap)
      (fun m m' => (m'.engine = m.engine ∧ SameBelow s.size m.heap m'.heap) ∧
        m'.env.Sound held ∧ m.env.Calm m'.env ∧ Agrees σ base s₁ m'.env) piece x Fits ins :=
  Tracks.and hx (P := fun env env' => env'.Sound held ∧ env.Calm env' ∧ Agrees σ base s₁ env')
    fun _ _ _ _ _ hm hsilent => hsx hm.2.sound hm.2.agrees hsilent

/-- **Two evaluations one after the other.** -/
theorem bind (hx : Yields σ base held s piece x Fits ins) (hsx : Settles σ base held s s₁ x)
    (hs : s.Ready σ wide) (hk : s.Keeps σ wide inner s₁) (hmx : Moves KeepsFaults x)
    (hf : ∀ v outs, Fits v outs → Yields σ base held s₁ piece' (f v) Fits' outs)
    (hmf : ∀ v, Moves KeepsFaults (f v)) :
    Yields σ base held s (piece ++ piece') (x >>= f) Fits' ins :=
  (hx.andSettles hsx).bind hmx (fun _ _ v outs hm ha hfit =>
    (hf v outs hfit).after hm hs ha (.refl s₁) hk.scope hk.size_le) hmf

/-- An evaluation that is the same where a condition holds. -/
theorem given_congr {C C' : Engine → Prop} (h : Yields σ base held s piece (y.given C') Fits ins)
    (hmx : Moves KeepsFaults x) (hxy : ∀ ⦃st st' v⦄, Agrees σ base s st.env → C st →
      Silent x st v st' → C' st ∧ x st = y st) :
    Yields σ base held s piece (x.given C) Fits ins := by
  refine h.congr fun st st' v hag hs => ?_
  obtain ⟨hC, hs⟩ := (silent_given hmx).1 hs
  obtain ⟨hC', heq⟩ := hxy hag hC hs
  rw [given_of hC, given_of hC', heq]

theorem given (h : Yields σ base held s piece x Fits ins) (hmx : Moves KeepsFaults x)
    (C : Engine → Prop) : Yields σ base held s piece (x.given C) Fits ins :=
  h.congr fun _ _ _ _ hs => given_of ((silent_given hmx).1 hs).1 x

/-- **Two evaluations one after the other** under conditions. -/
theorem given_bind {C A : Engine → Prop} {B : α → Engine → Prop}
    (hx : Yields σ base held s piece (x.given A) Fits ins) (hsx : Settles σ base held s s₁ x)
    (hs : s.Ready σ wide) (hk : s.Keeps σ wide inner s₁) (hmx : Moves KeepsFaults x)
    (hf : ∀ v outs, Fits v outs → Yields σ base held s₁ piece' ((f v).given (B v)) Fits' outs)
    (hmf : ∀ v, Moves KeepsFaults (f v))
    (hC : ∀ st, C st → A st ∧ B (x st).1 (x st).2) :
    Yields σ base held s (piece ++ piece') ((x >>= f).given C) Fits' ins := by
  refine (hx.bind (hsx.given hmx A) hs hk (moves_given hmx) hf fun v =>
    moves_given (hmf v)).congr fun st st' v _ h => ?_
  obtain ⟨hc, -⟩ := (silent_given (moves_bind hmx hmf)).1 h
  exact FormulaLang.given_bind hc (hC st hc).1 (hC st hc).2

theorem above (h : Yields σ base held s piece x Fits []) (below : List Float) :
    Yields σ base held s piece x (fun v outs => ∃ above, outs = below ++ above ∧ Fits v above)
      below :=
  Tracks.above h below

theorem pop (h : Yields σ base held s piece x Fits []) (z : Float) :
    Yields σ base held s (.pop :: piece) x Fits [z] :=
  Tracks.pop h z

end Yields

theorem yields_pure (h : Fits v outs) : Yields σ base held s [] (pure v) Fits outs :=
  tracks_pure h fun _ _ => ⟨rfl, .refl _ _⟩

theorem yields_put {i : Instruction}
    (h : ∀ ⦃heap stv st st' v⦄, stv.env = base → Sees σ base held s st.env heap →
      Silent x st v st' → ∃ z, Fits v [z] ∧ ∀ limit n a s,
        execute limit n i ⟨a, s ++ ins.toArray, heap⟩ stv =
          (Machine.putNext limit z ⟨a, s, heap⟩, stv)) :
    Yields σ base held s [i] x Fits ins :=
  tracks_put fun _ _ _ _ _ hm hs => ⟨⟨rfl, .refl _ _⟩, h hm.1 hm.2 hs⟩

/-- What a condition leads to. -/
def chooseBranch (y z : Eval Value) : Value → Eval Value
  | .bool true => y
  | .bool false => z
  | v => if v.isInvalid then pure .invalid else Eval.fail (.nonBoolCondition v.kind)

theorem chooseBranch_congr {y y' z z' : Eval Value} {v : Value} {st : Engine}
    (hy : v = .bool true → y' st = y st) (hz : v = .bool false → z' st = z st) :
    chooseBranch y' z' v st = chooseBranch y z v st := by
  cases v with
  | bool b =>
    cases b with
    | true => exact hy rfl
    | false => exact hz rfl
  | _ => rfl

theorem moves_chooseBranch {y z : Eval Value} (hy : Moves KeepsFaults y) (hz : Moves KeepsFaults z)
    (v : Value) : Moves KeepsFaults (chooseBranch y z v) := by
  unfold chooseBranch
  split
  · exact hy
  · exact hz
  · split
    · exact moves_pure _
    · exact moves_fail _

/-- A condition and its two cases. -/
theorem yields_branch {condition value rest : Code} {x y z : Eval Value} {lacks : Bool}
    {Fits : Value → List Float → Prop} {C Cx Cy Cz : Engine → Prop}
    (hx : Yields σ base held s condition (x.given Cx) (Maybe .void lacks) [])
    (hsx : Settles σ base held s s₁ x) (hs : s.Ready σ wide) (hk : s.Keeps σ wide inner s₁)
    (hk' : s₁.Keeps σ wide true s₂) (hmx : Moves KeepsFaults x)
    (hy : Yields σ base held s₁ value (y.given Cy) Fits []) (hmy : Moves KeepsFaults y)
    (hz : Yields σ base held s₂ rest (z.given Cz) Fits []) (hmz : Moves KeepsFaults z)
    (hC : ∀ st, C st → Cx st ∧ ((x st).1 = .bool true → Cy (x st).2) ∧
      ((x st).1 = .bool false → Cz (x st).2)) :
    Yields σ base held s (branchCode condition value rest)
      ((x >>= chooseBranch y z).given C) Fits [] := by
  have hmove := moves_chooseBranch hmy hmz
  refine Yields.congr (y := x.given Cx >>= chooseBranch (y.given Cy) (z.given Cz)) (tracks_branch
    (hx.andSettles (hsx.given hmx Cx)) (moves_given hmx)
    (fun _ _ hm ha => hy.after hm hs ha (.refl s₁) hk.scope hk.size_le) (moves_given hmy)
    (fun _ _ hm ha => hz.after hm hs ha (hk'.alike rfl) (hk'.scope.trans hk.scope)
      (hk.size_le.trans hk'.size_le)) (moves_given hmz)) fun st st' v _ h => ?_
  obtain ⟨hc, -⟩ := (silent_given (moves_bind hmx hmove)).1 h
  obtain ⟨hcx, hcy, hcz⟩ := hC st hc
  have hbind : ∀ (u : Eval Value) (g : Value → Eval Value), (u >>= g) st = g (u st).1 (u st).2 :=
    fun _ _ => rfl
  rw [given_of hc, hbind, hbind, given_of hcx]
  exact (chooseBranch_congr (fun hb => given_of (hcy hb) y) fun hb => given_of (hcz hb) z).symm

end Yields

/-! ## Operators and functions of the catalog -/

/-- Where an operator has a value, so have its operands. -/
theorem counts_of_operation {e : Expr} {es : List Expr} {i : Instruction}
    (h : operation? e = some (es, i)) (he : e.resolved σ wide inner) {vs : List Value}
    {xs : List Float} {w : Value} (hxs : MaybeAll .void (Expr.lacksValue σ) es vs xs)
    (hw : operate e vs = .ok w) :
    Counts vs xs := by
  have two : ∀ {a b : Expr}, es = [a, b] → ∃ v u x y, vs = [v, u] ∧ xs = [x, y] ∧
      Stands .void (a.lacksValue σ) v x ∧ Stands .void (b.lacksValue σ) u y := by
    rintro a b rfl
    obtain ⟨v, vs, x, xs, rfl, rfl, hv, hvs⟩ := hxs.exists_cons
    obtain ⟨u, us, y, ys, rfl, rfl, hu, hus⟩ := hvs.exists_cons
    obtain ⟨rfl, rfl⟩ := hus.nil
    exact ⟨v, u, x, y, rfl, rfl, hv, hu⟩
  have counts : ∀ {v u : Value} {x y : Float}, v.asNumber? = some x ∧ u.asNumber? = some y →
      Counts [v, u] [x, y] := fun h => counts_cons.2 ⟨h.1, counts_cons.2 ⟨h.2, counts_nil⟩⟩
  cases e with
  | unary op a =>
    cases h
    obtain ⟨v, vs, x, xs, rfl, rfl, hv, hvs⟩ := hxs.exists_cons
    obtain ⟨rfl, rfl⟩ := hvs.nil
    exact counts_cons.2 ⟨hv.asNumber?_of_unary hw, counts_nil⟩
  | binary op a b =>
    cases h
    obtain ⟨v, u, x, y, rfl, rfl, hv, hu⟩ := two rfl
    exact counts (hv.asNumber?_of_binary hu hw)
  | compare op a b =>
    cases h
    obtain ⟨v, u, x, y, rfl, rfl, hv, hu⟩ := two rfl
    have hl : a.lacksValue σ = false ∨ b.lacksValue σ = false := by
      simpa [Expr.lacksValue] using he.2.2
    exact counts (hv.asNumber?_of_compare hu hl hw)
  | logical op a b =>
    cases h
    obtain ⟨v, u, x, y, rfl, rfl, hv, hu⟩ := two rfl
    exact counts (hv.asNumber?_of_logical hu hw)
  | _ => cases h

/-- A function with a fast path has no value for void. -/
theorem counts_of_invoke_plain {f : Function} (hm : (name, f) ∈ Catalog.functions)
    (hp : Catalog.hasPlain name) {lacks : Expr → Bool} {es : List Expr} {vs : List Value}
    {xs : List Float} (hxs : MaybeAll .void lacks es vs xs)
    (hn : checkArity name f.arity vs.length = .ok ()) {deeper : Deeper} {st st' : Engine}
    {v : Value} (h : Silent (invoke deeper name f vs) st v st') : Counts vs xs := by
  obtain ⟨-, ⟨g, w, rfl, rfl, hr⟩ | ⟨g, w, u, rfl, rfl, hr⟩⟩ :=
    Catalog.silent_invoke_plain hm hp hxs.any_isInvalid hn h
  · refine hxs.counts fun hvoid => ?_
    obtain rfl := List.mem_singleton.1 hvoid
    cases hr
  · obtain ⟨a, b, rfl⟩ := List.length_eq_two.1 hxs.length.1.symm
    obtain ⟨v, vs, x, xs, hvs, rfl, hv, hrest⟩ := hxs.exists_cons
    cases hvs
    obtain ⟨u', us, y, ys, hus, rfl, hu, hrest'⟩ := hrest.exists_cons
    cases hus
    obtain ⟨-, rfl⟩ := hrest'.nil
    obtain ⟨hv, hu⟩ := hv.asNumber?_of_arithmetic hu hr
    exact counts_cons.2 ⟨hv, counts_cons.2 ⟨hu, counts_nil⟩⟩

/-! ## Calls of functions of the formula -/

/-- Arguments are put into the slots of the parameters, the last one first. -/
theorem leads_writeSlots {limit : Nat} {code : Array Instruction} {F : Fault → Prop}
    {Q : Machine → Engine → Prop} {a k : Nat} {stack : Array Float} {xs : List Float} {stv : Engine}
    (hp : Placed code a ((List.range' k xs.length).reverse.map .writeSlot))
    (hn : ∀ heap', (∀ i (hi : i < xs.length), getSlot heap' (k + i) = xs[i]) →
      (∀ slot, slot < k ∨ k + xs.length ≤ slot → getSlot heap' slot = getSlot heap slot) →
        Leads limit code F Q ⟨a + xs.length, stack, heap'⟩ stv) :
    Leads limit code F Q ⟨a, stack ++ xs.toArray, heap⟩ stv := by
  induction xs using List.reverseRecOn generalizing a heap with
  | nil => simpa using hn heap (fun i hi => absurd hi (Nat.not_lt_zero i)) fun _ _ => rfl
  | append_singleton xs x ih =>
    have hslots : (List.range' k (xs ++ [x]).length).reverse.map Instruction.writeSlot =
        .writeSlot (k + xs.length) :: (List.range' k xs.length).reverse.map .writeSlot := by
      rw [List.length_append, List.length_singleton, List.range'_concat]
      simp
    have hstack : stack ++ (xs ++ [x]).toArray = (stack ++ xs.toArray).push x := by
      simp
    rw [hslots, placed_cons] at hp
    rw [hstack]
    refine .write hp.1 (ih hp.2 fun heap' hxs hothers => ?_)
    have hlen : (xs ++ [x]).length = xs.length + 1 := List.length_append
    have hend := hn heap' (fun i hi => ?_) fun slot hslot => ?_
    · rwa [hlen, ← Nat.add_assoc, Nat.add_right_comm] at hend
    · rcases Nat.lt_succ_iff_lt_or_eq.1 (hlen ▸ hi) with hi | rfl
      · rw [hxs i hi, List.getElem_append_left hi]
      · rw [hothers _ (.inr (Nat.le_refl _)), getSlot_setSlot_self]
        simp
    · rw [hothers slot (hslot.imp_right fun h => by omega), getSlot_setSlot_of_ne (by omega)]

/-- What parameters may lack is lacked by some argument. -/
theorem stands_parameter {args : List Expr} {vs : List Value} {xs : List Float}
    (hvalues : σ.arguments → args.all (Expr.hasValue σ))
    (h : MaybeAll .void (Expr.lacksValue σ) args vs xs) (i : Nat) (hv : i < vs.length)
    (hx : i < xs.length) : Stands .void (!σ.arguments) vs[i] xs[i] := by
  have he : i < args.length := h.length.1 ▸ hv
  refine (h.getElem i he hv hx).mono fun hlacks => ?_
  rw [Bool.not_eq_true', Bool.eq_false_iff]
  intro harguments
  have hvalue := List.all_eq_true.1 (hvalues harguments) _ (List.getElem_mem he)
  rw [Expr.lacksValue, hvalue] at hlacks
  cases hlacks

/-- A property of the way to the value of a call, from where the arguments have their values. -/
def Inline.AlongBody (P : Visit → Prop) (n : Nat) (f : Inline) (vs : List Value) (st : Engine) :
    Prop :=
  ∀ k, n = k + 1 → f.body.Along P k (st.enterCall f.params vs)

/-- The body of a function behind its arguments, with slots for its parameters. -/
theorem yields_body {n : Nat} {f : Inline} {args : List Expr} {body : Code} {vs : List Value}
    {xs : List Float} (hs : s.Ready σ wide) (hn : args.length = f.params.length)
    (hvalues : σ.arguments → args.all (Expr.hasValue σ))
    (hfit : MaybeAll .void (Expr.lacksValue σ) args vs xs)
    (hbody : ∀ k, Yields σ base held (s.pushAll f.params) body
      ((eval (deeperAt k) f.body).given (f.body.Along P k))
      (Maybe .void (f.body.lacksValue σ)) []) :
    Yields σ base held s ((s.slotsOf f.params).reverse.map .writeSlot ++ body)
      ((invoke (deeperAt n) name f.function vs).given (f.AlongBody P n vs))
      (Maybe .void (f.body.lacksValue σ)) xs := by
  have hm := moves_deeperAt (R := KeepsFaults)
  rintro limit code a stack heap stv st st' v hp ⟨hengine, hsees⟩ hsilent
  dsimp only at hengine hsees
  obtain ⟨hway, hsilent⟩ := (silent_given (moves_invoke (hm n) name f.function vs)).1 hsilent
  rcases silent_invoke_user hsilent with ⟨hinvalid, -⟩ | ⟨hlen, k, rfl, hcall⟩
  · rw [hfit.any_isInvalid] at hinvalid
    cases hinvalid
  have hxs : xs.length = f.params.length := hfit.length.2.trans hn
  rw [placed_append, Slots.slotsOf, ← hxs] at hp
  refine leads_writeSlots hp.1 fun heap' hslots hothers => ?_
  have hb : SameBelow s.size heap heap' := fun slot hlt => hothers slot (.inl hlt)
  have hparams : ∀ i (hi : i < vs.length),
      Stands .void (!σ.arguments) vs[i] (getSlot heap' (s.size + i)) := by
    intro i hi
    have hx : i < xs.length := hxs.trans hlen.symm ▸ hi
    rw [hslots i hx]
    exact stands_parameter hvalues hfit i hi hx
  -- With parameters the body is evaluated in a block of its own.
  obtain ⟨st₂, hsees', hcall⟩ : ∃ st₂ : Engine,
      Sees σ base held (s.pushAll f.params) (st.enterCall f.params vs).env heap' ∧
        Silent (eval (deeperAt k) f.body) (st.enterCall f.params vs) v st₂ := by
    unfold Engine.enterCall
    rcases hcall with ⟨hnil, hcall⟩ | ⟨hne, st₂, hcall, -⟩
    · have hpush := hsees.pushAll hs hlen hb hparams
      rw [hnil] at hpush ⊢
      exact ⟨st', hpush, hcall⟩
    · rw [if_neg (by simpa using hne)]
      exact ⟨st₂, hsees.enter.pushAll hs hlen hb hparams, hcall⟩
  have hcall := (silent_given (moves_eval (hm k) f.body)).2 ⟨hway k rfl, hcall⟩
  refine ((hbody k).leads (by simpa using hp.2) ⟨hengine, hsees'⟩ hcall).mono ?_
  rintro _ stv' ⟨outs, heap'', rfl, hvalue, hengine', hb'⟩
  refine ⟨outs, heap'', ?_, hvalue, hengine', hb.trans hb' (Nat.le_add_right _ _)⟩
  simp [Slots.slotsOf, hxs, Nat.add_assoc]

/-- A call of a function of the formula: the arguments, and the body with slots for them. -/
theorem yields_inline {n : Nat} {f : Inline} {args : List Expr} {code body : Code}
    (hs : s.Ready σ wide) (hf : s.function? name = some f) (hn : args.length = f.params.length)
    (hvalues : σ.arguments → args.all (Expr.hasValue σ)) (hk : s.Keeps σ wide inner s₁)
    (hargs : Yields σ base held s code ((evalAll (deeperAt n) args).given (AlongAll P n args))
      (MaybeAll .void (Expr.lacksValue σ) args) [])
    (hsargs : Settles σ base held s s₁ (evalAll (deeperAt n) args))
    (hbody : ∀ k, Yields σ base held (s₁.pushAll f.params) body
      ((eval (deeperAt k) f.body).given (f.body.Along P k))
      (Maybe .void (f.body.lacksValue σ)) []) :
    Yields σ base held s (code ++ (s₁.slotsOf f.params).reverse.map .writeSlot ++ body)
      ((eval (deeperAt n) (.call name args)).given ((Expr.call name args).Along P n))
      (Maybe .void (!σ.valued name)) [] := by
  have hm := moves_deeperAt (R := KeepsFaults) n
  rw [List.append_assoc]
  refine ((Yields.given_bind (C := fun st => (Expr.call name args).Along P n st ∧
      st.env.function? name = some f.function) (B := f.AlongBody P n) hargs hsargs hs hk
    (moves_evalAll hm args) (fun vs xs hfit => yields_body (hk.ready hs) hn hvalues hfit hbody)
    (moves_invoke hm name f.function) fun st hC => ⟨?_, ?_⟩).imp fun v outs hv =>
      hv.mono ?_).given_congr (moves_eval hm _) fun st st' v hag hC h => ?_
  · exact hC.1.arguments hC.2 fun run => by simp [Inline.function, Function.user]
  · rintro k rfl
    exact hC.1.body hC.2
  rotate_left
  · obtain ⟨g, hg⟩ := exists_function_of_silent h
    exact ⟨⟨hC, hag.function?_of_inline hs hf hg ▸ hg⟩, hag.eval_inline hs hf h⟩
  intro hlacks
  rw [Bool.not_eq_true', Bool.eq_false_iff]
  intro hvalued
  rw [Expr.lacksValue, (hs.functions name f hf).valued hvalued] at hlacks
  cases hlacks

/-! ## Loops -/

section Loops

variable {env₀ : Environment} {heap₀ : Array Float} {engine₀ : Engine} {l : LoopSlots}

variable (σ base held) in
/-- In the block of a loop, all but the position is as it was in front of it. -/
structure InRound (s : Slots) (name : String) (env₀ : Environment) (heap₀ : Array Float)
    (engine₀ : Engine) (m : Moment) : Prop where
  engine : m.engine = engine₀
  same : SameBelow s.size heap₀ m.heap
  sound : m.env.Sound held
  agrees : Agrees σ base s m.env
  others : ∀ other, other ≠ name → m.env.value? other = env₀.value? other

theorem rounds_of_yields {piece : Code} {x : Eval Value} {lacks : Bool}
    (h : Sees σ base held s env₀ heap₀) (hengine : engine₀.env = base) (hs : s.Ready σ wide)
    (hposition : l.position = s.size) (hprevious : l.previous = s.size + 1)
    (hstep : l.step < s.size) (hstop : l.stop < s.size)
    (hx : Yields σ base held (s.push name).2.fresh.2 piece x (Maybe .void lacks) [])
    (hsx : Settles σ base held (s.push name).2.fresh.2 s₁ x) (halike : s.Alike σ s₁) :
    Rounds l name piece x lacks (InRound σ base held s name env₀ heap₀ engine₀) := by
  rintro ⟨env, heap, stv⟩ hh
  have hb : SameBelow s.size heap₀ heap := hh.same
  have hsees : Sees σ base held (s.push name).2 (env.addVariable name
      (.number (l.range heap).position)) heap :=
    h.push hs hh.sound hh.agrees hh.others hb (.inl (by rw [LoopSlots.range, hposition]; rfl))
  refine (hx.andSettles hsx).mono ?_ ?_ fun _ _ hfit => hfit
  · rintro _ rfl
    exact ⟨hh.engine ▸ hengine, hsees.of_slots rfl rfl⟩
  rintro _ ⟨env', heap', stv'⟩ rfl ⟨⟨hengine', hb'⟩, hsound, hcalm, hagrees⟩
  dsimp only at hb' hsound hcalm hagrees
  have hsize : (s.push name).2.fresh.2.size = s.size + 2 := rfl
  rw [hsize] at hb'
  refine ⟨?_, hengine'.trans hh.engine, ?_, hsound, hagrees.alike halike.symm, fun other hne => ?_⟩
  · simp only [LoopSlots.range]
    rw [hb' l.position (by omega), hb' l.previous (by omega), hb' l.step (by omega),
      hb' l.stop (by omega)]
  · intro slot hlt
    dsimp only
    rw [LoopSlots.getSlot_advance heap' ⟨by omega, by omega⟩, hb' slot (by omega), hb slot hlt]
  · dsimp only
    rw [hcalm.value? (hh.sound.addVariable name _) hsound, hh.sound.value?_addVariable, if_neg hne]
    exact hh.others other hne

/-- **A loop with its bounds** leaves the seed with the result behind it. -/
theorem yields_loop {n : Nat} {kind : LoopKind} {op : BinaryOp} {seed : Float} {a : Expr}
    {d : Option Expr} {b body : Expr} {start step stop piece : Code} {la ld lb lacks : Bool}
    {s₃ s₄ : Slots} (hk : reduction? kind = some (op, seed))
    (hst : Stages σ wide name s s₁ s₂ s₃ s₄)
    (ha : Yields σ base held s₂ start ((eval (deeperAt n) a).given (a.Along P n))
      (Maybe .void la) [])
    (hsa : Settles σ base held s₂ s₃ (eval (deeperAt n) a))
    (hd : Yields σ base held s₁.fresh.2 step
      ((evalOr (deeperAt n) (.number 1.0) d).given fun st => ∀ e ∈ d, e.Along P n st)
      (Maybe .void ld) [])
    (hsd : Settles σ base held s₁.fresh.2 s₂ (evalOr (deeperAt n) (.number 1.0) d))
    (hb : Yields σ base held s.fresh.2 stop ((eval (deeperAt n) b).given (b.Along P n))
      (Maybe .void lb) [])
    (hsb : Settles σ base held s.fresh.2 s₁ (eval (deeperAt n) b))
    (hbody : Yields σ base held (s₃.push name).2.fresh.2 piece
      ((eval (deeperAt n) body).given (body.Along P n)) (Maybe .void lacks) [])
    (hsbody : Settles σ base held (s₃.push name).2.fresh.2 s₄ (eval (deeperAt n) body)) :
    Yields σ base held s (loopSetup ⟨s₃.size, s₃.size + 1, s₁.size, s.size⟩ seed start step stop ++
        loopCode ⟨s₃.size, s₃.size + 1, s₁.size, s.size⟩ op piece)
      ((eval (deeperAt n) (.loop kind name (.range a d b) body none)).given
        (Expr.AlongLoop P n kind name (.range a d b) body))
      (fun v outs => ∃ z, outs = [z] ∧ Tallies op seed lacks v z) [] := by
  have hm := moves_deeperAt (R := KeepsFaults) n
  have h₁ := hst.keeps₁
  have h₂ := hst.keeps₂
  have h₃ := hst.keeps₃
  have hle₁ : s.size + 1 ≤ s₁.size := hst.stop.size_le
  have hle₂ : s₁.size + 1 ≤ s₂.size := hst.step.size_le
  have hle₃ : s₂.size ≤ s₃.size := hst.start.size_le
  generalize hl : (⟨s₃.size, s₃.size + 1, s₁.size, s.size⟩ : LoopSlots) = l
  have hposition : l.position = s₃.size := hl ▸ rfl
  have hprevious : l.previous = s₃.size + 1 := hl ▸ rfl
  have hstep : l.step = s₁.size := hl ▸ rfl
  have hstop : l.stop = s.size := hl ▸ rfl
  rw [loopSetup_append]
  rintro limit code addr stack heap stv st st' v hp ⟨hengine, hsees⟩ hsilent
  dsimp only at hengine hsees
  obtain ⟨hway, hsilent⟩ := (silent_given (moves_eval hm _)).1 hsilent
  obtain ⟨u, w, t, st₁, st₂, st₃, hu, hw, ht, hblock⟩ := silent_loop hm hk hsilent
  obtain ⟨hway₁, hway₂, hway₃⟩ := along_bounds hway hu hw
  -- The evaluation of the bounds, which is in another order than their code.
  obtain ⟨hs₁, hc₁, hag₁⟩ := (hsa.within (h₂.alike rfl) (h₃.alike rfl)) hsees.sound hsees.agrees hu
  obtain ⟨hs₂, hc₂, hag₂⟩ := (hsd.within (h₁.alike rfl) (h₂.alike rfl)) hs₁ hag₁ hw
  obtain ⟨hs₃, hc₃, hag₃⟩ := (hsb.within (.refl s) (h₁.alike rfl)) hs₂ hag₂ ht
  have hc₂ := hc₁.trans hc₂
  have hc₃ := hc₂.trans hc₃
  simp only [placed_cons, placed_append] at hp
  obtain ⟨hp₀, hpstop, hp₁, hpstep, hp₂, hpstart, hp₃, hp₄, hp₅, hploop⟩ := hp
  rw [Array.append_empty]
  refine .put hp₀ (execute_constant ..) rfl ?_
  have hsees₂ := hsees.move hst.ready hs₂ hc₂ hag₂ rfl (.refl _ heap)
  refine (hb.leads hpstop ⟨hengine, hsees₂.of_slots rfl rfl⟩
    ((silent_given (moves_eval hm b)).2 ⟨hway₃, ht⟩)).bind ?_
  rintro _ stv₁ ⟨_, heap₁, rfl, ⟨z, rfl, hz⟩, heq, hpast⟩
  obtain rfl : stv₁ = stv := heq
  have hb₁ : SameBelow (s.size + 1) heap heap₁ := hpast
  have hstack : ∀ x : Float, ∀ stack : Array Float, stack ++ [x].toArray = stack.push x :=
    fun _ _ => Array.push_eq_append.symm
  rw [hstack]
  refine .write hp₁ ?_
  have hsame₁ : SameBelow s.size heap (setSlot heap₁ l.stop z) :=
    (hb₁.mono (Nat.le_succ _)).trans (sameBelow_setSlot hstop.ge z) (Nat.le_refl _)
  have hsees₁ : Sees σ base held s₁.fresh.2 st₁.env (setSlot heap₁ l.stop z) :=
    hsees.move hst.ready hs₁ hc₁ (hag₁.alike (h₁.alike rfl)) h₁.scope hsame₁
  refine (hd.leads hpstep ⟨hengine, hsees₁⟩
    ((silent_given (moves_evalOr hm _ d)).2 ⟨hway₂, hw⟩)).bind ?_
  rintro _ stv₂ ⟨_, heap₂, rfl, ⟨y, rfl, hy⟩, heq, hpast⟩
  obtain rfl : stv₂ = stv₁ := heq
  have hb₂ : SameBelow (s₁.size + 1) (setSlot heap₁ l.stop z) heap₂ := hpast
  rw [hstack]
  refine .write hp₂ ?_
  have hsame₂ : SameBelow s.size heap (setSlot heap₂ l.step y) :=
    (hsame₁.trans hb₂ (by omega)).trans (sameBelow_setSlot hstep.ge y) (by omega)
  have hsees₀ : Sees σ base held s₂ st.env (setSlot heap₂ l.step y) :=
    hsees.move hst.ready hsees.sound (.refl _) (hsees.agrees.alike (h₂.alike rfl)) h₂.scope hsame₂
  refine (ha.leads hpstart ⟨hengine, hsees₀⟩
    ((silent_given (moves_eval hm a)).2 ⟨hway₁, hu⟩)).bind ?_
  rintro _ stv₃ ⟨_, heap₃, rfl, ⟨x, rfl, hx⟩, heq, hpast⟩
  obtain rfl : stv₃ = stv₂ := heq
  have hb₃ : SameBelow s₂.size (setSlot heap₂ l.step y) heap₃ := hpast
  rw [hstack]
  refine .write hp₃ (.put hp₄ (execute_constant ..) rfl (.write hp₅ ?_))
  -- The range in the slots is that of the evaluation.
  have hrange : l.range (setSlot (setSlot heap₃ l.position x) l.previous Number.nan) =
      .ofBounds x y z := by
    refine LoopSlots.range_setup ⟨by omega, ⟨by omega, by omega⟩, ⟨by omega, by omega⟩⟩ ?_ ?_
    · rw [hb₃ _ (by omega), getSlot_setSlot_self]
    · rw [hb₃ _ (by omega), getSlot_setSlot_of_ne (by omega), hb₂ _ (by omega),
        getSlot_setSlot_self]
  have hbounds := rangeOf_eq hx hy hz
  rcases hblock with ⟨herror, -⟩ | ⟨r, hr, hblock⟩
  · exact absurd herror hbounds.1
  obtain rfl := hbounds.2 r hr
  have hgiven := inBlock_reduce_given seed fun item st₄ hround =>
    along_rounds hk hway hu hw ht hr hround
  unfold Silent at hblock
  rw [← hgiven, ← hrange] at hblock
  have hsame₃ : SameBelow s.size heap
      (setSlot (setSlot heap₃ l.position x) l.previous Number.nan) :=
    ((hsame₂.trans hb₃ (by omega)).trans (sameBelow_setSlot hposition.ge x) (by omega)).trans
      (sameBelow_setSlot hprevious.ge _) (by omega)
  have hsees₃ : Sees σ base held s₃ st₃.env
      (setSlot (setSlot heap₃ l.position x) l.previous Number.nan) :=
    hsees.move hst.ready hs₃ hc₃ (hag₃.alike (h₃.alike rfl)) h₃.scope hsame₃
  have hmbody := moves_eval (R := KeepsFaults) hm body
  have hrounds := rounds_of_yields hsees₃ hengine hst.ready₃ hposition hprevious (by omega)
    (by omega) hbody (hsbody.given hmbody _) (hst.body.alike rfl)
  refine (leads_reduce hk ⟨by omega, ⟨by omega, by omega⟩, ⟨by omega, by omega⟩⟩ hrounds
    (moves_given hmbody) hploop
    ⟨rfl, .refl _ _, hs₃.enter, hsees₃.agrees.of_functions rfl, fun _ _ => rfl⟩ hblock).mono ?_
  rintro _ stv' ⟨q, heap₄, env', rfl, hq, hh, -⟩
  refine ⟨[q], heap₄, ?_, ⟨q, rfl, hq⟩, hh.engine, hsame₃.trans hh.same (by omega)⟩
  rw [Array.push_eq_append]
  simp only [List.length_append, List.length_cons, Machine.mk.injEq, and_true]
  omega

end Loops

/-! ## Formulas -/

/-- A property of the way to the value of a condition, which has a value. -/
def AlongCases (P : Visit → Prop) (n : Nat) (bs : List (Expr × Expr)) (o : Option Expr)
    (st : Engine) : Prop :=
  AlongBranches P n bs o st ∧
    (o = none → (evalBranches (deeperAt n) bs (evalOr (deeperAt n) .invalid o) st).1 ≠ .invalid)

/-- The code of a piece of a formula with calls at most `n` deep. -/
def Piece.Yields (P : Visit → Prop) (σ : Signature) (base : Environment) (held : List Nat) (n : Nat)
    (s : Slots) (code : Code) : Piece → Prop
  | .tree e => Bytecode.Yields σ base held s code ((eval (deeperAt n) e).given (e.Along P n))
      (Maybe .void (e.lacksValue σ)) []
  | .args es => Bytecode.Yields σ base held s code
      ((evalAll (deeperAt n) es).given (AlongAll P n es)) (MaybeAll .void (Expr.lacksValue σ) es) []
  | .rest es => ∀ has last y, Stands .void (!has) last y →
      Bytecode.Yields σ base held s code
        ((evalSequence (deeperAt n) es last).given (AlongAll P n es))
        (Maybe .void (!Expr.hasValueAfter σ has es)) [y]
  | .optional missing o => ∀ y, missing = [.constant y] →
      Bytecode.Yields σ base held s code
        ((evalOr (deeperAt n) (.number y) o).given fun st => ∀ e ∈ o, e.Along P n st)
        (Maybe .void (o.elim false (Expr.lacksValue σ))) []
  | .branches bs o => Bytecode.Yields σ base held s code
      ((evalBranches (deeperAt n) bs (evalOr (deeperAt n) .invalid o)).given (AlongCases P n bs o))
      (Maybe .void (!(Expr.hasValueBranches σ bs && o.elim true (Expr.hasValue σ)))) []

theorem yields_constant {x : Eval Value} {z : Float} {lacks : Bool}
    (hx : ∀ ⦃st st' v⦄, Silent x st v st' → Stands .void lacks v z) :
    Yields σ base held s [.constant z] x (Maybe .void lacks) [] := by
  refine yields_put fun heap stv st st' u hengine hsees h =>
    ⟨z, ⟨z, rfl, hx h⟩, fun limit n a s => ?_⟩
  rw [Array.append_empty]
  rfl

theorem yields_var {slot : Nat} (hs : bound? name s.scope = some slot) {deeper : Deeper} :
    Yields σ base held s [.readSlot slot] (eval deeper (.var name))
      (Maybe .void (!σ.arguments)) [] := by
  refine yields_put fun heap stv st st' v hengine hsees h => ?_
  obtain ⟨rfl, hv⟩ := silent_var h
  obtain ⟨w, hw, hstands⟩ := hsees.scope name slot hs
  obtain rfl := Option.some.inj (hw.symm.trans hv)
  refine ⟨_, ⟨_, rfl, hstands⟩, fun limit n a s => ?_⟩
  rw [Array.append_empty]
  exact execute_readSlot ..

theorem yields_cell {cell : Nat} (hs : bound? name s.scope = none)
    (hc : globalCell base name = .ok cell) {deeper : Deeper} {lacks : Bool} :
    Yields σ base held s [.readCell cell] (eval deeper (.var name)) (Maybe .void lacks) [] := by
  refine yields_put fun heap stv st st' v hengine hsees h => ?_
  obtain ⟨rfl, hv⟩ := silent_var h
  obtain ⟨w, hw, hcell⟩ := Frozen.exists_of_globalCell hc
  have hbase : base.value? name = some (.number (base.store.number cell)) := by
    rw [Environment.value?, hw]
    rcases Variable.numberCell?_eq_some.1 hcell with rfl | rfl <;> rfl
  rw [hsees.outer name hs, hbase] at hv
  cases hv
  refine ⟨_, ⟨_, rfl, .inl rfl⟩, fun limit n a s => ?_⟩
  rw [Array.append_empty, ← hengine]
  exact execute_readCell ..

theorem eager?_of_operation {e : Expr} {es : List Expr} {i : Instruction}
    (h : operation? e = some (es, i)) : ∃ finish, e.eager? = some (es, finish) := by
  cases e <;> cases h <;> exact ⟨_, rfl⟩

/-- The branches of a condition whose first case is at hand. -/
theorem alongCases_cons {n : Nat} {c e : Expr} {bs : List (Expr × Expr)} {o : Option Expr}
    {st : Engine} (h : AlongCases P n ((c, e) :: bs) o st) : c.Along P n st ∧
      ((eval (deeperAt n) c st).1 = .bool true → e.Along P n (eval (deeperAt n) c st).2) ∧
      ((eval (deeperAt n) c st).1 = .bool false →
        AlongCases P n bs o (eval (deeperAt n) c st).2) := by
  obtain ⟨hc, he, hbs⟩ := Expr.alongBranches_cons h.1
  refine ⟨hc, he, fun hb => ⟨hbs hb, fun ho => ?_⟩⟩
  have hvalue := h.2 ho
  have hrun : evalBranches (deeperAt n) ((c, e) :: bs) (evalOr (deeperAt n) .invalid o) st =
      chooseBranch (eval (deeperAt n) e)
        (evalBranches (deeperAt n) bs (evalOr (deeperAt n) .invalid o))
        (eval (deeperAt n) c st).1 (eval (deeperAt n) c st).2 := by
    rw [evalBranches]
    rfl
  rw [hrun, hb] at hvalue
  exact hvalue

/-- The code of a loop, if that of its parts yields their values. -/
theorem Lowered.yields_loop (hcat : base.FastCatalogued)
    (hσ : ∀ name, σ.sole name ≠ none → base.function? name = none) {kind : LoopKind}
    {op : BinaryOp} {seed : Float} (hk : reduction? kind = some (op, seed)) {n : Nat} {a : Expr}
    {d : Option Expr} {b body : Expr} {start step stop code : Code} {s₃ s₄ : Slots}
    (hb : Lowered base (.tree b) s.fresh.2 stop s₁)
    (hd : Lowered base (.optional [.constant 1.0] d) s₁.fresh.2 step s₂)
    (ha : Lowered base (.tree a) s₂ start s₃)
    (hbody : Lowered base (.tree body) (s₃.push name).2.fresh.2 code s₄)
    (hp : (Piece.tree (.loop kind name (.range a d b) body none)).resolved σ wide inner)
    (hs : s.Ready σ wide)
    (hdirect : Direct (loopSetup ⟨s₃.size, s₃.size + 1, s₁.size, s.size⟩ seed start step stop ++
      loopCode ⟨s₃.size, s₃.size + 1, s₁.size, s.size⟩ op code))
    (hyb : (Piece.tree b).resolved σ wide true → s.fresh.2.Ready σ wide → Direct stop →
      (Piece.tree b).Yields P σ base held n s.fresh.2 stop)
    (hyd : (Piece.optional [.constant 1.0] d).resolved σ wide true → s₁.fresh.2.Ready σ wide →
      Direct step → (Piece.optional [.constant 1.0] d).Yields P σ base held n s₁.fresh.2 step)
    (hya : (Piece.tree a).resolved σ wide true → s₂.Ready σ wide → Direct start →
      (Piece.tree a).Yields P σ base held n s₂ start)
    (hybody : (Piece.tree body).resolved σ wide true → (s₃.push name).2.fresh.2.Ready σ wide →
      Direct code → (Piece.tree body).Yields P σ base held n (s₃.push name).2.fresh.2 code) :
    Bytecode.Yields σ base held s
      (loopSetup ⟨s₃.size, s₃.size + 1, s₁.size, s.size⟩ seed start step stop ++
        loopCode ⟨s₃.size, s₃.size + 1, s₁.size, s.size⟩ op code)
      ((eval (deeperAt n) (.loop kind name (.range a d b) body none)).given
        (Expr.AlongLoop P n kind name (.range a d b) body))
      (fun v outs => ∃ z, outs = [z] ∧ Tallies op seed (body.lacksValue σ) v z) [] := by
  obtain ⟨-, -, hpa, hpd, hpb, hpbody⟩ := Expr.resolved_loop hp
  obtain ⟨hdirstart, hdirstep, hdirstop, hdirbody⟩ := direct_loop.1 hdirect
  have hst := Lowered.stages hb hd ha hbody hpa hpd hpb hpbody hs
  exact Bytecode.yields_loop hk hst (hya hpa hst.ready₂ hdirstart)
    (ha.settles hcat hσ hpa hst.ready₂ hdirstart n)
    (hyd (resolved_step hpd _) hst.ready₁.fresh hdirstep 1.0 rfl)
    (hd.settles hcat hσ (resolved_step hpd _) hst.ready₁.fresh hdirstep n (.number 1.0))
    (hyb hpb hs.fresh hdirstop) (hb.settles hcat hσ hpb hs.fresh hdirstop n)
    (hybody hpbody hst.readyBody hdirbody)
    (hbody.settles hcat hσ hpbody hst.readyBody hdirbody n)

/-- **The code of a formula with settled definitions** yields its value, where it keeps to the
evaluation. -/
theorem Lowered.yields (hcat : base.FastCatalogued)
    (hσ : ∀ name, σ.sole name ≠ none → base.function? name = none)
    (hP : wide → ∀ t, P t → t.Regular) {p : Piece} {code : Code} (h : Lowered base p s code s')
    (hp : p.resolved σ wide inner) (hs : s.Ready σ wide) (hdirect : Direct code) (n : Nat) :
    p.Yields P σ base held n s code := by
  have hm := moves_deeperAt (R := KeepsFaults)
  induction h generalizing inner n with
  | number x =>
    refine (yields_constant fun st st' v h => ?_).given (moves_eval (hm n) _) _
    obtain ⟨rfl, -⟩ := silent_pure h
    exact .inl rfl
  | bool b =>
    refine (yields_constant fun st st' v h => ?_).given (moves_eval (hm n) _) _
    obtain ⟨rfl, -⟩ := silent_pure h
    exact .inl rfl
  | slot h => exact (yields_var ((hs.lookup?_eq _).symm.trans h)).given (moves_eval (hm n) _) _
  | cell h hc =>
    exact (yields_cell ((hs.lookup?_eq _).symm.trans h) hc).given (moves_eval (hm n) _) _
  | @operation s s' e es i code h hes ih =>
    have hpes := resolvedAll_of_operation h hp
    have hdir := (direct_append.1 hdirect).1
    obtain ⟨finish, he⟩ := eager?_of_operation h
    refine (Yields.given_bind (C := e.Along P n) (B := fun _ _ => True) (ih hpes hs hdir n)
      (hes.settles hcat hσ hpes hs hdir n) hs (hes.keeps hpes hs) (moves_evalAll (hm n) es)
      (fun vs xs hfit => Yields.given ?_ (moves_check _) _) (fun vs => moves_check _)
      fun st hC => ⟨hC.operands he, trivial⟩).given_congr (moves_eval (hm n) e)
        fun st _ _ _ hC _ => ⟨hC, by rw [eval_operation h]⟩
    refine yields_put fun heap stv st st' v hengine hsees hsilent => ?_
    obtain ⟨hw, -⟩ := silent_check hsilent
    obtain ⟨x, hx, he⟩ :=
      operates_of_operation h (counts_of_operation h hp hfit hw) hfit.length.1 hw
    exact ⟨x, ⟨x, rfl, .inl hx⟩, fun limit n a s => he limit n a s heap stv⟩
  | assign => exact hp.elim
  | @cases s s' bs o code h ih =>
    have hbs := resolved_branches hp
    have hmove := moves_eval (hm n) (.cases bs o)
    cases o with
    | none =>
      obtain ⟨hwide, hvalue⟩ := hbs.2.2 rfl
      refine Yields.given_congr ((ih hbs hs hdirect n).imp fun v outs hv => hv.mono ?_) hmove
        fun st _ _ _ hC _ => ⟨⟨hC.branches, fun _ => ?_⟩, by rw [eval]⟩
      · simp [hvalue]
      · have hregular := (hP hwide _ hC.self).cases bs rfl
        rwa [Visit.value, eval] at hregular
    | some e =>
      exact Yields.given_congr (ih hbs hs hdirect n) hmove fun st _ _ _ hC _ =>
        ⟨⟨hC.branches, fun ho => by cases ho⟩, by rw [eval]⟩
  | @loop s s₁ s₂ s₃ s₄ kind op seed name a d b body default start step stop code hk hb hd ha hbody
      ihb ihd iha ihbody =>
    obtain ⟨hwide, rfl, -⟩ := Expr.resolved_loop hp
    have hloop := hb.yields_loop hcat hσ hk hd ha hbody hp hs hdirect
      (fun h₁ h₂ h₃ => ihb h₁ h₂ h₃ n) (fun h₁ h₂ h₃ => ihd h₁ h₂ h₃ n)
      (fun h₁ h₂ h₃ => iha h₁ h₂ h₃ n) fun h₁ h₂ h₃ => ihbody h₁ h₂ h₃ n
    have hmove := moves_eval (hm n) (.loop kind name (.range a d b) body none)
    refine (Yields.given_congr hloop hmove fun st _ _ _ hC _ => ⟨hC.loop, rfl⟩).imp_of_silent ?_
    rintro st st' v _ hsilent ⟨z, rfl, hz⟩
    obtain ⟨hway, hv, -⟩ := (silent_given hmove).1 hsilent
    refine ⟨z, rfl, hz.stands hk fun hop h => ?_⟩
    obtain rfl : kind = .sum := by
      subst hop
      cases kind <;> cases hk
      rfl
    exact (hP (hwide rfl) _ hway.self).sum _ _ _ _ rfl ((congrArg Prod.fst hv).trans h)
  | empty =>
    refine (yields_constant fun st st' v h => ?_).given (moves_eval (hm n) _) _
    obtain ⟨rfl, -⟩ := silent_pure h
    exact .inr ⟨rfl, rfl, rfl⟩
  | @sequence s s₁ s₂ e es first rest he hes ihe ihes =>
    have hdir := direct_append.1 hdirect
    have he' := ihe hp.1 hs hdir.1 n
    have hk := he.keeps hp.1 hs
    have hes' := ihes hp.2 (hk.ready hs) hdir.2 n
    refine (Yields.given_bind (C := AlongAll P n (e :: es)) (B := fun _ => AlongAll P n es) he'
      (he.settles hcat hσ hp.1 hs hdir.1 n) hs hk (moves_eval (hm n) e) (fun v outs hv => ?_)
      (fun v => moves_evalSequence (hm n) es v) fun st => Expr.alongAll_cons).given_congr
        (moves_eval (hm n) _) fun st _ _ _ hC _ => ⟨hC.statements, by rw [eval, evalSequence]⟩
    obtain ⟨z, rfl, hz⟩ := hv
    exact hes' (e.hasValue σ) v z hz
  | define name params body =>
    refine (yields_constant fun st st' v h => ?_).given (moves_eval (hm n) _) _
    cases h.1
    exact .inr ⟨rfl, rfl, rfl⟩
  | @inline s s₁ s₂ s₃ name args f code body hf hb hn hargs hbody ihargs ihbody =>
    have hdir := direct_append.1 hdirect
    have hdirargs := (direct_append.1 hdir.1).1
    obtain ⟨active, rfl⟩ := Slots.exists_of_beginCall? hb
    have hs₁ : Ready σ wide { s with active } := hs.of_scope rfl hs.bounded rfl
    have hka := hargs.keeps hp.1 hs₁
    have hpbody := (hs.functions name f hf).body
    have hsettles : Settles σ base held _ s₂ (evalAll (deeperAt n) args) :=
      hargs.settles hcat hσ hp.1 hs₁ hdirargs n
    exact yields_inline hs hf hn hp.2 ⟨fun _ => hka.ready hs₁, hka.scope, hka.size_le, hka.alike⟩
      (Yields.of_slots (ihargs hp.1 hs₁ hdirargs n) rfl rfl rfl)
      (Settles.of_alike hsettles (Slots.alike_of_functions rfl))
      (ihbody hpbody ((hka.ready hs₁).pushAll f.params) hdir.2)
  | @call s s' name args f code hl hf hn hargs ih =>
    have hdir := direct_append.1 hdirect
    have hcall := (direct_cons.1 hdir.2).1
    have hmem := hcat.mem_functions hf hcall
    have hplain := Catalog.hasPlain_of_callInstruction hmem hcall
    obtain ⟨run, hrun⟩ := Catalog.exists_native hmem hplain
    refine (Yields.given_bind (C := fun st => (Expr.call name args).Along P n st ∧
        st.env.function? name = some f) (B := fun _ _ => True) (ih hp.1 hs hdir.1 n)
      (hargs.settles hcat hσ hp.1 hs hdir.1 n) hs (hargs.keeps hp.1 hs) (moves_evalAll (hm n) args)
      (fun vs xs hfit => Yields.given ?_ (moves_invoke (hm n) name f vs) _)
      (fun vs => moves_invoke (hm n) name f vs) fun st hC =>
        ⟨hC.1.arguments hC.2 fun run' => by simp [hrun], trivial⟩).given_congr (moves_eval (hm n) _)
          fun st _ _ hag hC _ => ?_
    · refine yields_put fun heap stv st st' v hengine hsees hsilent => ?_
      rw [← hfit.length.1] at hn ⊢
      have hcounts := counts_of_invoke_plain hmem hplain hfit hn hsilent
      obtain ⟨q, hq, harity, hv, -⟩ := Catalog.invoke_plain hmem hplain hcounts hn hsilent
      rw [hq]
      refine ⟨_, ⟨_, rfl, .inl hv⟩, fun limit n a s => ?_⟩
      exact execute_callPlain _ _ _ _ _ _ _ _ (harity.trans hcounts.length)
    · have hfun := hag.function?_of_call hσ hl hf
      exact ⟨⟨hC, hfun⟩, Catalog.eval_call hmem hplain hfun args⟩
  | noArgs => exact (yields_pure trivial).given (moves_pure _) _
  | @consArg s s₁ s₂ e es first rest he hes ihe ihes =>
    have hdir := direct_append.1 hdirect
    have hk := he.keeps hp.1 hs
    have hs₁ := hk.ready hs
    have hmrest := fun v => moves_bind (R := KeepsFaults) (moves_evalAll (hm n) es)
      fun vs => moves_pure (v :: vs)
    refine (Yields.given_bind (C := AlongAll P n (e :: es)) (B := fun _ => AlongAll P n es)
      (ihe hp.1 hs hdir.1 n) (he.settles hcat hσ hp.1 hs hdir.1 n) hs hk (moves_eval (hm n) e)
      (fun v outs hv => ?_) hmrest fun st => Expr.alongAll_cons).given_congr
        (moves_evalAll (hm n) _) fun st _ _ _ hC _ => ⟨hC, by rw [evalAll]⟩
    obtain ⟨z, rfl, hz⟩ := hv
    rw [← List.append_nil rest]
    refine Yields.given_bind (B := fun _ _ => True) (Yields.above (ihes hp.2 hs₁ hdir.2 n) [z])
      (hes.settles hcat hσ hp.2 hs₁ hdir.2 n) hs₁ (hes.keeps hp.2 hs₁) (moves_evalAll (hm n) es) ?_
      (fun vs => moves_pure _) fun st hC => ⟨hC, trivial⟩
    rintro vs _ ⟨zs, rfl, hzs⟩
    exact (yields_pure ⟨hz, hzs⟩).given (moves_pure _) _
  | noRest =>
    intro has last y hy
    exact (yields_pure ⟨y, rfl, hy⟩).given (moves_pure _) _
  | @consRest s s₁ s₂ e es first rest he hes ihe ihes =>
    intro has last y hy
    have hdir := direct_append.1 hdirect
    have hdir₁ := (direct_cons.1 hdir.1).2
    have he' := ihe hp.1 hs hdir₁ n
    have hk := he.keeps hp.1 hs
    have hes' := ihes hp.2 (hk.ready hs) hdir.2 n
    refine (Yields.given_bind (C := AlongAll P n (e :: es)) (B := fun _ => AlongAll P n es)
      (Yields.pop he' y) (he.settles hcat hσ hp.1 hs hdir₁ n) hs hk (moves_eval (hm n) e)
      (fun v outs hv => ?_) (fun v => moves_evalSequence (hm n) es v)
      fun st => Expr.alongAll_cons).given_congr (moves_evalSequence (hm n) _ last)
        fun st _ _ _ hC _ => ⟨hC, by rw [evalSequence]⟩
    obtain ⟨z, rfl, hz⟩ := hv
    exact hes' (e.hasValue σ) v z hz
  | missing code =>
    rintro y rfl
    refine (yields_constant fun st st' v h => ?_).given (moves_pure _) _
    obtain ⟨rfl, -⟩ := silent_pure h
    exact .inl rfl
  | @present s s' missing code e he ih =>
    exact fun y _ => Yields.given_congr (ih (hp.2 _ rfl) hs hdirect n)
      (moves_evalOr (hm n) _ (some e)) fun st _ _ _ hC _ => ⟨hC e rfl, by rw [evalOr]⟩
  | @otherwise s s' o code h ih =>
    have hmove := moves_evalBranches (hm n) [] _ (moves_evalOr (hm n) .invalid o)
    have hrest := ih (resolved_otherwise hp) hs hdirect n Number.nan rfl
    cases o with
    | none =>
      refine Yields.given_congr hrest hmove fun st _ _ _ hC _ => absurd ?_ (hC.2 rfl)
      rw [evalBranches, evalOr]
      rfl
    | some e =>
      refine Yields.given_congr (hrest.imp fun v outs hv => hv.mono ?_) hmove
        fun st _ _ _ hC _ => ⟨fun e' he' => ?_, by rw [evalBranches, evalOr, evalOr]⟩
      · simp [Expr.lacksValue, Expr.hasValueBranches]
      · obtain rfl : e = e' := Option.some.inj he'
        exact Expr.alongBranches_nil hC.1
  | @branch s s₁ s₂ s₃ c e bs o condition value rest hc he hbs ihc ihe ihbs =>
    obtain ⟨hpc, hpe, hrest⟩ := resolved_rest hp
    obtain ⟨hdirc, hdire, hdirbs⟩ := direct_branch.1 hdirect
    have hk := hc.keeps hpc hs
    have hs₁ := hk.ready hs
    have hke := he.keeps hpe hs₁
    have hs₂ := hke.ready hs₁
    have hc' := ihc hpc hs hdirc n
    have he' := ihe hpe hs₁ hdire n
    have hbs' := ihbs hrest hs₂ hdirbs n
    refine yields_branch hc' (hc.settles hcat hσ hpc hs hdirc n) hs hk hke (moves_eval (hm n) c)
      (Yields.imp he' fun v outs hv => hv.mono ?_) (moves_eval (hm n) e)
      (Yields.imp hbs' fun v outs hv => hv.mono ?_)
      (moves_evalBranches (hm n) bs _ (moves_evalOr (hm n) .invalid o)) fun st => alongCases_cons
    · simp [Expr.lacksValue, Expr.hasValueBranches]
      tauto
    · simp [Expr.hasValueBranches]
      tauto

/-! ## Compiled formulas -/

/-- The run of a program whose code yields the value of a formula leads to a number that fits it. -/
theorem runSteps_of_given {cells : List HostCell} {st st' : Engine} {e : Expr} {p : Program}
    {v : Value} {C : Engine → Prop} {Fits : Value → List Float → Prop}
    (h : Engine.Reachable cells st)
    (hσ : ∀ name, σ.sole name ≠ none → st.env.function? name = none)
    (hyields : Yields σ st.env (HostCell.numberCells cells) {} p.code.toList
      ((eval (deeperAt st.settings.callDepth) e).given C) Fits [])
    (hone : ∀ v outs, Fits v outs → ∃ x, outs = [x]) (hv : Engine.evaluate e st = (v, st'))
    (hlog : st'.log = st.log) (hC : C st) (settings : Settings) :
    ∃ n r stv, p.runSteps n settings st = (some r, stv) ∧
      (r = .error .stackOverflow ∨ ∃ x, r = .ok x ∧ Fits v [x]) := by
  rw [evaluate_eq] at hv
  have hsees : Sees σ st.env (HostCell.numberCells cells) {} st.env (p.start settings).heap :=
    ⟨h.sound, .start hσ, fun _ _ hn => (by cases hn), fun _ _ => rfl⟩
  have hsilent := (silent_given (moves_eval (moves_deeperAt _) e)).2
    ⟨hC, hv, congrArg Array.size hlog⟩
  obtain ⟨n, r, stv, hrun, hr⟩ :=
    runSteps_of_tracks hyields hone settings ⟨rfl, hsees⟩ hsilent
  exact ⟨n, r, stv, hrun, hr.imp_right fun ⟨x, _, hx, hfit, _⟩ => ⟨x, hx, hfit⟩⟩

/-- **The run of a formula** that keeps to its evaluation on all of the way leads to a number that
stands for its value. -/
theorem runSteps_of_along {cells : List HostCell} {st st' : Engine} {e : Expr} {p : Program}
    {v : Value} (h : Engine.Reachable cells st) (hcat : st.env.FastCatalogued)
    (hσ : ∀ name, σ.sole name ≠ none → st.env.function? name = none)
    (hP : wide → ∀ t, P t → t.Regular) (he : e.resolved σ wide false)
    (hp : compile st.env e = .ok p) (hdirect : Direct p.code.toList)
    (hv : Engine.evaluate e st = (v, st')) (hlog : st'.log = st.log)
    (hway : e.Along P st.settings.callDepth st) (settings : Settings) :
    ∃ n r stv, p.runSteps n settings st = (some r, stv) ∧
      (r = .error .stackOverflow ∨ ∃ x, r = .ok x ∧ Stands .void (e.lacksValue σ) v x) := by
  obtain ⟨s, hl, -⟩ := lowered_of_compile hp
  obtain ⟨n, r, stv, hrun, hr⟩ := runSteps_of_given h hσ
    (hl.yields hcat hσ hP he Slots.ready_empty hdirect _) (fun v outs ⟨x, hx, _⟩ => ⟨x, hx⟩) hv
    hlog hway settings
  refine ⟨n, r, stv, hrun, hr.imp_right ?_⟩
  rintro ⟨x, rfl, y, hy, hx⟩
  cases hy
  exact ⟨x, rfl, hx⟩

/-- **The run of a formula with settled definitions**, no function of which is called without a fast
path, leads to a number that stands for its value. -/
theorem runSteps_of_yields {cells : List HostCell} {st st' : Engine} {e : Expr} {p : Program}
    {v : Value} (h : Engine.Reachable cells st) (hcat : st.HasCatalog)
    (hσ : ∀ name, σ.sole name ≠ none → st.env.function? name = none) (he : e.settled σ false)
    (hp : compile st.env e = .ok p) (hdirect : Direct p.code.toList)
    (hv : Engine.evaluate e st = (v, st')) (hlog : st'.log = st.log) (settings : Settings) :
    ∃ n r stv, p.runSteps n settings st = (some r, stv) ∧
      (r = .error .stackOverflow ∨ ∃ x, r = .ok x ∧ Stands .void (e.lacksValue σ) v x) := by
  have hP : false = true → ∀ t : Visit, True → t.Regular := fun h => by cases h
  have hcat : st.env.FastCatalogued := fun _ _ hf _ => hcat.mem_functions hf
  exact runSteps_of_along h hcat hσ hP (Expr.resolved_of_settled e false he) hp hdirect hv hlog
    (fun _ _ => trivial) settings

/-- The number of a value is the only one that stands for it. -/
theorem Stands.eq {v : Value} {lacks : Bool} {x y : Float} (h : Stands .void lacks v y)
    (hv : v.asNumber? = some x) : y = x := by
  rcases h with hy | ⟨-, rfl, -⟩
  · exact Option.some.inj (hy.symm.trans hv)
  · cases hv

/-- **Compiled formulas with definitions** are run as they are evaluated, wherever the definitions
stand: in branches, loops, functions, operands and arguments. A definition in a place that may be
passed by, or passed several times, is the only one of its name, and no function of the catalog has
it. -/
theorem runSteps_of_settled {cells : List HostCell} {st st' : Engine} {e : Expr} {p : Program}
    {v : Value} {x : Float} (h : Engine.Reachable cells st) (hcat : st.HasCatalog)
    (hσ : ∀ name, σ.sole name ≠ none → st.env.function? name = none) (he : e.settled σ false)
    (hp : compile st.env e = .ok p) (hdirect : Direct p.code.toList)
    (hv : Engine.evaluate e st = (v, st')) (hlog : st'.log = st.log) (hx : v.asNumber? = some x)
    (settings : Settings) : ∃ n r stv, p.runSteps n settings st = (some r, stv) ∧
      (r = .error .stackOverflow ∨ r = .ok x) := by
  obtain ⟨n, r, stv, hrun, hr⟩ :=
    runSteps_of_yields h hcat hσ he hp hdirect hv hlog settings
  refine ⟨n, r, stv, hrun, hr.imp_right ?_⟩
  rintro ⟨y, rfl, hy⟩
  rw [hy.eq hx]

/-- `cases(true, f(x) = x, 0); f(2)`. -/
def chosenDefinition : Expr :=
  .sequence [.cases [(.constant (.bool true), .define "f" ["x"] (.var "x"))]
    (some (.constant (.number 0.0))), .call "f" [.constant (.number 2.0)]]

/-- The only function is `f`, and its calls have a value. -/
def chosenSignature : Signature where
  sole name := if name = "f" then some ⟨["x"], .var "x"⟩ else none
  valued _ := true
  arguments := true

/-- The program of `chosenDefinition`. -/
def chosenProgram : Program where
  code := (branchCode [.constant (Number.ofBool true)] noValue [.constant 0.0] ++
    [Instruction.pop, .constant 2.0, .writeSlot 0, .readSlot 0]).toArray
  heapSize := 1

theorem evaluate_chosenDefinition : ∃ st',
    Engine.evaluate chosenDefinition (.create {}) = (.number 2.0, st') ∧
      st'.log = (Engine.create {}).log := by
  let st := (Engine.create {}).onEnv (·.addFunction "f" (.user ["x"] (.var "x")))
  let st₁ := st.onEnv fun env => env.enter.addVariable "x" (.number 2.0)
  have hsound : (Engine.create {}).env.Sound [] := (Engine.Reachable.create {}).sound
  have heval : ∀ n (st : Engine), eval (deeperAt n) chosenDefinition st =
      eval (deeperAt n) (.call "f" [.constant (.number 2.0)])
        (st.onEnv (·.addFunction "f" (.user ["x"] (.var "x")))) := fun _ _ => rfl
  have hf : st.env.function? "f" = some (.user ["x"] (.var "x")) :=
    (hsound.function?_addFunction "f" _ "f").trans (if_pos rfl)
  have hx : st₁.env.value? "x" = some (.number 2.0) :=
    ((hsound.addFunction "f" _).enter.value?_addVariable "x" _ "x").trans (if_pos rfl)
  refine ⟨st₁.onEnv (·.leave), ?_, rfl⟩
  rw [evaluate_eq, heval, show (Engine.create {}).settings = {} from rfl,
    eval_call_unary (n := 255) hf, eval_var, hx]
  rfl

/-- Definitions of `f` replace no function of the catalog. -/
theorem function?_eq_none_of_chosenSignature {name : String}
    (hn : chosenSignature.sole name ≠ none) : (Engine.create {}).env.function? name = none := by
  have hcat : (Engine.create {}).HasCatalog := fun _ => rfl
  have hnew : "f" ∉ Catalog.functions.map Prod.fst := by decide +kernel
  obtain rfl : name = "f" := by
    by_contra h
    exact hn (if_neg h)
  exact Option.eq_none_iff_forall_ne_some.2 fun f hf =>
    hnew (List.mem_map_of_mem (hcat.mem_functions hf))

theorem settled_chosenDefinition : chosenDefinition.settled chosenSignature false := by
  simp [chosenDefinition, chosenSignature, Expr.settled, Expr.settledAll, Expr.settledBranches,
    Expr.hasValue]

theorem runSteps_chosenDefinition : ∃ p st',
    compile (Engine.create {}).env chosenDefinition = .ok p ∧ Direct p.code.toList ∧
    Engine.evaluate chosenDefinition (.create {}) = (.number 2.0, st') ∧
    st'.log = (Engine.create {}).log ∧ chosenDefinition.settled chosenSignature false ∧
    (∀ name, chosenSignature.sole name ≠ none → (Engine.create {}).env.function? name = none) ∧
    ∃ n r stv, p.runSteps n {} (.create {}) = (some r, stv) ∧
      (r = .error .stackOverflow ∨ r = .ok 2.0) := by
  obtain ⟨st', hv, hlog⟩ := evaluate_chosenDefinition
  have hp : compile (Engine.create {}).env chosenDefinition = .ok chosenProgram := rfl
  have hd : Direct chosenProgram.code.toList := by decide +kernel
  exact ⟨chosenProgram, st', hp, hd, hv, hlog, settled_chosenDefinition,
    fun _ => function?_eq_none_of_chosenSignature,
    runSteps_of_settled (.create {}) (fun _ => rfl) (fun _ => function?_eq_none_of_chosenSignature)
      settled_chosenDefinition hp hd hv hlog rfl {}⟩

/-! ## Definitions that are passed by -/

/-- `f(x) = 1; cases(false, f(x) = 2, 0); f(0)`. -/
def passedDefinition : Expr :=
  .sequence [.define "f" ["x"] (.constant (.number 1.0)),
    .cases [(.constant (.bool false), .define "f" ["x"] (.constant (.number 2.0)))]
      (some (.constant (.number 0.0))),
    .call "f" [.constant (.number 0.0)]]

/-- The program of `passedDefinition`. -/
def passingProgram : Program where
  code := (noValue ++ .pop ::
    (branchCode [.constant (Number.ofBool false)] noValue [.constant 0.0] ++
      [Instruction.pop, .constant 0.0, .writeSlot 0, .constant 2.0])).toArray
  heapSize := 1

/-- **A definition that is passed by** is not evaluated, but the program calls what it defines. -/
theorem runSteps_passedDefinition : ∃ p st' stv,
    compile (Engine.create {}).env passedDefinition = .ok p ∧
    Engine.evaluate passedDefinition (.create {}) = (.number 1.0, st') ∧
    st'.log = (Engine.create {}).log ∧
    p.runSteps 20 {} (.create {}) = (some (.ok 2.0), stv) ∧ stv.log = (Engine.create {}).log := by
  let st := (Engine.create {}).onEnv (·.addFunction "f" (.user ["x"] (.constant (.number 1.0))))
  have hsound : (Engine.create {}).env.Sound [] := (Engine.Reachable.create {}).sound
  have heval : ∀ n (st : Engine), eval (deeperAt n) passedDefinition st =
      eval (deeperAt n) (.call "f" [.constant (.number 0.0)])
        (st.onEnv (·.addFunction "f" (.user ["x"] (.constant (.number 1.0))))) := fun _ _ => rfl
  have hf : st.env.function? "f" = some (.user ["x"] (.constant (.number 1.0))) :=
    (hsound.function?_addFunction "f" _ "f").trans (if_pos rfl)
  let st₁ := st.onEnv fun env => env.enter.addVariable "x" (.number 0.0)
  refine ⟨passingProgram, st₁.onEnv (·.leave), .create {}, rfl, ?_, rfl, rfl, rfl⟩
  rw [evaluate_eq, heval, show (Engine.create {}).settings = {} from rfl,
    eval_call_unary (n := 255) hf]
  rfl

end FormulaLang.Bytecode
