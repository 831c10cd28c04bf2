import FormulaLang.Proofs.Bytecode.Tracks
import FormulaLang.Proofs.Engine.Visits

/-!
# Rounds of loops

The code of a sum or a product keeps the rest of its range in slots without a name, and the result
so far on the stack. While the evaluation goes through the same range, its block is in front of a
round whenever the run is at the head of the loop.

* `reduceStep`, `silent_reduceStep`, `silent_reduce`, `silent_loop`: what the evaluation of a loop
  does.
* `Tallies`: the number on the stack and the result so far.
* `Rounds`: the code of the body tracks the body from round to round.
* **`leads_rounds`**, `leads_reduce`: then runs go through the loop as the evaluation does.
* `LoopSlots.range_setup`: the range that the code in front of a loop sets up.
-/

namespace FormulaLang

open Eval (Moves Silent)

/-! ## One round -/

/-- A round of a loop that folds the values of its body. -/
def reduceStep (name : String) (body : Eval Value) (op : BinaryOp) (acc : Option Value)
    (item : Value) : Eval (Except Value (Option Value)) := do
  let v ← withItem name body item
  let next ← Eval.check (fold op acc v)
  if next.isInvalid then return .error .invalid else return .ok (some next)

theorem reduce_eq (name : String) (body : Eval Value) (op : BinaryOp) (empty : Float)
    (items : Items) : reduce name body op empty items =
      overItems (reduceStep name body op) items none fun acc => acc.getD (.number empty) := rfl

section Round

variable {name : String} {body : Eval Value} {op : BinaryOp} {acc : Option Value} {item v : Value}
  {st st' : Engine}

theorem moves_withItem {R : Engine → Engine → Prop} [Engine.Steps R] (hb : Moves R body) :
    Moves R (withItem name body item) :=
  moves_bind (moves_addVariable name item) fun _ => hb

theorem moves_reduceStep {R : Engine → Engine → Prop} [Engine.Steps R] (hb : Moves R body) :
    Moves R (reduceStep name body op acc item) := by
  refine moves_bind (moves_withItem hb) fun v => moves_bind (moves_check _) fun next => ?_
  split <;> exact moves_pure _

theorem silent_reduceStep {r : Except Value (Option Value)} (hb : Moves KeepsFaults body)
    (h : Silent (reduceStep name body op acc item) st r st') :
    ∃ v next, Silent body (st.onEnv (·.addVariable name item)) v st' ∧ fold op acc v = .ok next ∧
      r = if next.isInvalid then .error .invalid else .ok (some next) := by
  have hrest : ∀ v, Moves KeepsFaults (Eval.check (fold op acc v) >>= fun next =>
      (if next.isInvalid then pure (.error .invalid) else pure (.ok (some next)) :
        Eval (Except Value (Option Value)))) := by
    intro v
    refine moves_bind (moves_check _) fun next => ?_
    split <;> exact moves_pure _
  obtain ⟨v, st₁, hv, hrest'⟩ := silent_bind (moves_withItem hb) hrest h
  obtain ⟨next, st₂, hnext, hr⟩ := silent_bind (moves_check _)
    (fun next => by split <;> exact moves_pure _) hrest'
  obtain ⟨hfold, rfl⟩ := silent_check hnext
  refine ⟨v, next, ?_⟩
  by_cases hi : next.isInvalid
  · rw [if_pos hi] at hr ⊢
    obtain ⟨rfl, rfl⟩ := silent_pure hr
    exact ⟨hv, hfold, rfl⟩
  · rw [if_neg hi] at hr ⊢
    obtain ⟨rfl, rfl⟩ := silent_pure hr
    exact ⟨hv, hfold, rfl⟩

/-- The rounds of a loop are done in a block. -/
theorem silent_reduce {empty : Float} {items : Items}
    (h : Silent (Eval.inBlock (reduce name body op empty items)) st v st') :
    ∃ out st₁, Silent (forItems (reduceStep name body op) items.bound items none)
      (st.onEnv .enter) out st₁ ∧ st'.env = st₁.env.leave ∧
        ∀ acc, out = .ok acc → v = acc.getD (.number empty) := by
  obtain ⟨st₁, ⟨hblock, hlog⟩, henv⟩ := silent_inBlock h
  rw [reduce_eq] at hblock
  unfold overItems at hblock
  rcases he : forItems (reduceStep name body op) items.bound items none (st.onEnv .enter) with
    ⟨out, st₂⟩
  rw [he] at hblock
  cases out with
  | ok acc =>
    cases hblock
    exact ⟨.ok acc, st₁, ⟨he, hlog⟩, henv, fun _ h => by cases h; rfl⟩
  | error u =>
    cases hblock
    exact ⟨.error v, st₁, ⟨he, hlog⟩, henv, fun _ h => by cases h⟩

/-- A condition on the body that holds in a round does not matter for it. -/
theorem reduceStep_given {C : Engine → Prop} (hC : C (st.onEnv (·.addVariable name item))) :
    reduceStep name (body.given C) op acc item st = reduceStep name body op acc item st := by
  have hitem : withItem name (body.given C) item st = withItem name body item st := given_of hC body
  rcases hr : withItem name body item st with ⟨v, st₁⟩
  rw [reduceStep, reduceStep, bind_of_run hr, bind_of_run (hitem.trans hr)]

end Round

namespace Bytecode

/-! ## Results so far -/

section Tallies

variable {kind : LoopKind} {op : BinaryOp} {seed y x : Float} {lacks : Bool} {acc : Option Value}
  {v next : Value}

/-- **The number that the code has folded** has the seed in front of what stands for the result. -/
def Tallies (op : BinaryOp) (seed : Float) (lacks : Bool) (v : Value) (y : Float) : Prop :=
  ∃ x, Stands .void lacks v x ∧ y = op.apply seed x

theorem apply_seed_self (hk : reduction? kind = some (op, seed)) : op.apply seed seed = seed := by
  cases kind <;> cases hk
  · exact Number.zero_add_zero
  · exact Number.one_mul _

/-- What is folded behind the seed may be folded before. -/
theorem apply_seed_apply (hk : reduction? kind = some (op, seed)) (x y : Float) :
    op.apply (op.apply seed x) y = op.apply seed (op.apply x y) := by
  cases kind <;> cases hk
  · exact Number.zero_add_add x y
  · simp only [BinaryOp.apply, Number.one_mul]

theorem tallies_seed (hk : reduction? kind = some (op, seed)) :
    Tallies op seed lacks (.number seed) seed :=
  ⟨seed, .inl rfl, (apply_seed_self hk).symm⟩

theorem eq_number_of_negativeZero (h : v.asNumber? = some (-0.0)) : v = .number (-0.0) := by
  refine (asNumber?_cases h).resolve_right ?_
  rintro ⟨p, -, hp⟩
  have hbits := congrArg Float.toBits hp
  cases p <;> revert hbits <;> decide +kernel

/-- The seed does not show, but in a sum that is negative zero. -/
theorem Tallies.stands (hk : reduction? kind = some (op, seed)) (h : Tallies op seed lacks v y)
    (hv : op = .add → v ≠ .number (-0.0)) : Stands .void lacks v y := by
  obtain ⟨x, hx, rfl⟩ := h
  cases kind <;> cases hk
  · have hne : x ≠ -0.0 := by
      rintro rfl
      rcases hx with hx | ⟨-, -, hx⟩
      · exact hv rfl (eq_number_of_negativeZero hx)
      · exact absurd (congrArg Float.toBits hx) (by decide +kernel)
    rwa [BinaryOp.apply, Number.zero_add_of_ne hne]
  · rwa [BinaryOp.apply, Number.one_mul]

/-- **A round** folds the same into both. -/
theorem Tallies.fold (hk : reduction? kind = some (op, seed))
    (h : Tallies op seed lacks (acc.getD (.number seed)) y) (hv : Stands .void lacks v x)
    (hf : FormulaLang.fold op acc v = .ok next) :
    next.isInvalid = false ∧ Tallies op seed lacks next (op.apply y x) := by
  obtain ⟨z, hz, rfl⟩ := h
  cases acc with
  | none =>
    cases hf
    obtain rfl : seed = z := by
      rcases hz with hz | ⟨-, hz, -⟩
      · exact Option.some.inj hz
      · cases hz
    exact ⟨hv.isInvalid, x, hv, by rw [apply_seed_self hk]⟩
  | some w =>
    have hw : Stands .void lacks w z := hz
    have hf : w.binary op v = .ok next := hf
    obtain ⟨hw, hv⟩ := hw.asNumber?_of_binary hv hf
    have hnext : Stands .void lacks next (op.apply z x) := .inl (asNumber?_binary hw hv hf)
    exact ⟨hnext.isInvalid, _, hnext, apply_seed_apply hk z x⟩

end Tallies

/-! ## Rounds of the code -/

/-- **The code of the body tracks the body from round to round.** -/
def Rounds (l : LoopSlots) (name : String) (piece : Code) (x : Eval Value) (lacks : Bool)
    (Head : Moment → Prop) : Prop :=
  ∀ m, Head m → Tracks
    (· = { m with env := m.env.addVariable name (.number (l.range m.heap).position) })
    (fun _ m' => l.range m'.heap = l.range m.heap ∧ Head { m' with heap := l.advance m'.heap })
    piece x (Maybe .void lacks) []

section Rounds

variable {l : LoopSlots} {name : String} {x : Eval Value} {piece : Code} {limit : Nat}
  {kind : LoopKind} {op : BinaryOp} {seed : Float} {code : Array Instruction} {a : Nat}
  {s heap : Array Float} {lacks : Bool} {Head : Moment → Prop} {stv st st' : Engine}

/-- **The rounds of a loop.** -/
theorem leads_rounds (hk : reduction? kind = some (op, seed)) (hl : l.Distinct)
    (hx : Rounds l name piece x lacks Head) (hmx : Moves KeepsFaults x)
    (hp : Placed code a (loopCode l op piece)) {n : Nat} {acc : Option Value} {y : Float}
    {out : Except Value (Option Value)} (hn : (l.range heap).rounds ≤ n)
    (hh : Head ⟨st.env, heap, stv⟩)
    (hacc : Tallies op seed lacks (acc.getD (.number seed)) y)
    (hs : Silent (forItems (reduceStep name x op) n (.range (l.range heap)) acc) st out st') :
    Leads limit code (· = .stackOverflow)
      (fun m stv' => ∃ acc' z heap', out = .ok acc' ∧
        Tallies op seed lacks (acc'.getD (.number seed)) z ∧
        m = ⟨a + (loopCode l op piece).length, s.push z, heap'⟩ ∧ Head ⟨st'.env, heap', stv'⟩)
      ⟨a, s.push y, heap⟩ stv := by
  -- The induction is on the rounds that the range in the slots of the loop leaves.
  induction hr : (l.range heap).rounds using Nat.strong_induction_on
    generalizing n heap stv st acc y with
  | _ k ih =>
    refine leads_loopHead rfl hp (fun hc => ?_) fun hc => ?_
    · have hnext : (Items.range (l.range heap)).next? = none := by
        rw [Items.next?, Range.next?_of_not_continues hc]
      obtain ⟨rfl, rfl⟩ := silent_forItems_of_none hnext hs
      exact .here ⟨acc, y, heap, rfl, hacc, rfl, hh⟩
    have hlt := Range.rounds_advance_lt hc
    obtain ⟨n, rfl⟩ : ∃ m, n = m + 1 := ⟨n - 1, by omega⟩
    have hnext : (Items.range (l.range heap)).next? =
        some (.number (l.range heap).position, .range (l.range heap).advance) := by
      rw [Items.next?, Range.next?_of_continues hc]
    obtain ⟨r, st₁, hstep, hrest⟩ :=
      silent_forItems (fun _ _ => moves_reduceStep hmx) hnext hs
    obtain ⟨v, next, hbody, hfold, rfl⟩ := silent_reduceStep hmx hstep
    obtain ⟨hpiece, hop⟩ := hp.of_loopCode
    refine ((hx _ hh).leads hpiece rfl hbody).bind ?_
    rintro _ stv₁ ⟨_, heap₁, rfl, ⟨z, rfl, hz⟩, hrange, hhead⟩
    obtain ⟨hvalid, htallies⟩ := hacc.fold hk hz hfold
    have hacc' : Tallies op seed lacks ((some next).getD (.number seed)) (op.apply y z) := htallies
    rw [hvalid] at hrest
    have hstack : s.push y ++ [z].toArray = (s.push y).push z := Array.push_eq_append.symm
    rw [hstack]
    refine .put hop (execute_arithmetic ..) rfl (leads_loopBack hl rfl hp ?_)
    rcases hrest with ⟨acc', heq, hs'⟩ | ⟨v, herror, -⟩
    · cases heq
      have hadvance : l.range (l.advance heap₁) = (l.range heap).advance := by
        rw [LoopSlots.range_advance hl, hrange]
      rw [← hadvance] at hlt hs'
      exact ih _ (hr ▸ hlt) (by omega) hhead hacc' hs' rfl
    · cases herror

/-- The block of a loop, from the head of its code with the seed on the stack. -/
theorem leads_reduce (hk : reduction? kind = some (op, seed)) (hl : l.Distinct)
    (hx : Rounds l name piece x lacks Head) (hmx : Moves KeepsFaults x)
    (hp : Placed code a (loopCode l op piece)) {v : Value} (hh : Head ⟨st.env.enter, heap, stv⟩)
    (hs : Silent (Eval.inBlock (reduce name x op seed (.range (l.range heap)))) st v st') :
    Leads limit code (· = .stackOverflow)
      (fun m stv' => ∃ z heap' env', m = ⟨a + (loopCode l op piece).length, s.push z, heap'⟩ ∧
        Tallies op seed lacks v z ∧ Head ⟨env', heap', stv'⟩ ∧ st'.env = env'.leave)
      ⟨a, s.push seed, heap⟩ stv := by
  obtain ⟨out, st₁, hrounds, henv, hout⟩ := silent_reduce hs
  have hh : Head ⟨(st.onEnv .enter).env, heap, stv⟩ := hh
  refine (leads_rounds hk hl hx hmx hp Range.rounds_le_bound hh (tallies_seed hk) hrounds).mono ?_
  rintro m stv₁ ⟨acc, z, heap', rfl, hz, rfl, hhead⟩
  exact ⟨z, heap', st₁.env, rfl, hout acc rfl ▸ hz, hhead, henv⟩

/-- The code in front of a loop in the order in which it is run. -/
theorem loopSetup_append (l : LoopSlots) (seed : Float) (start step stop rest : Code) :
    loopSetup l seed start step stop ++ rest = .constant seed ::
      (stop ++ .writeSlot l.stop :: (step ++ .writeSlot l.step :: (start ++ .writeSlot l.position ::
        .constant Number.nan :: .writeSlot l.previous :: rest))) := by
  simp [loopSetup]

/-- In front of a loop its bounds are put into its slots. -/
theorem LoopSlots.range_setup (hl : l.Distinct) {x y z : Float} (hstep : getSlot heap l.step = y)
    (hstop : getSlot heap l.stop = z) :
    l.range (setSlot (setSlot heap l.position x) l.previous Number.nan) = .ofBounds x y z := by
  simp only [LoopSlots.range, Range.ofBounds, getSlot_setSlot_self,
    getSlot_setSlot_of_ne hl.previous.symm, getSlot_setSlot_of_ne hl.step.1,
    getSlot_setSlot_of_ne hl.step.2, getSlot_setSlot_of_ne hl.stop.1,
    getSlot_setSlot_of_ne hl.stop.2, hstep, hstop]

end Rounds

end Bytecode

/-! ## Loops with their bounds -/

theorem silent_checkRange {u w t : Value} {st st' : Engine} {r : Option Range}
    (h : Silent (checkRange u w t) st r st') : st' = st ∧
      (rangeOf u w t = .error none ∧ r = none ∨ ∃ q, rangeOf u w t = .ok q ∧ r = some q) := by
  unfold checkRange at h
  cases hq : rangeOf u w t with
  | ok q =>
    rw [hq] at h
    obtain ⟨rfl, rfl⟩ := silent_pure h
    exact ⟨rfl, .inr ⟨q, rfl, rfl⟩⟩
  | error o =>
    rw [hq] at h
    cases o with
    | none =>
      obtain ⟨rfl, rfl⟩ := silent_pure h
      exact ⟨rfl, .inl ⟨rfl, rfl⟩⟩
    | some f =>
      obtain ⟨h, hlog⟩ := h
      cases h
      simp [Engine.report, Engine.note] at hlog

/-- Bounds that make a range are numbers. -/
theorem rangeOf_eq {u w t : Value} {lu lw lt : Bool} {x y z : Float}
    (hu : Bytecode.Stands .void lu u x) (hw : Bytecode.Stands .void lw w y)
    (ht : Bytecode.Stands .void lt t z) :
    rangeOf u w t ≠ .error none ∧ ∀ r, rangeOf u w t = .ok r → r = .ofBounds x y z := by
  have cases_of : ∀ {l v x}, Bytecode.Stands .void l v x →
      v = .number x ∨ (∃ p, v = .bool p) ∨ v = .void := by
    rintro l v x (h | ⟨-, rfl, -⟩)
    · exact (asNumber?_cases h).imp_right fun ⟨p, h, _⟩ => .inl ⟨p, h⟩
    · exact .inr (.inr rfl)
  rcases cases_of hu with rfl | ⟨p, rfl⟩ | rfl
  · rcases cases_of hw with rfl | ⟨p, rfl⟩ | rfl
    · rcases cases_of ht with rfl | ⟨p, rfl⟩ | rfl
      · exact ⟨by simp [rangeOf, bind, Except.bind, pure, Except.pure], fun r h => by cases h; rfl⟩
      all_goals exact ⟨by simp [rangeOf, bind, Except.bind], fun r h => by cases h⟩
    all_goals exact ⟨by simp [rangeOf, bind, Except.bind], fun r h => by cases h⟩
  all_goals exact ⟨by simp [rangeOf, bind, Except.bind], fun r h => by cases h⟩

/-- A loop over a range, if there is one. -/
def overRange (x : Items → Eval Value) (r : Option Range) : Eval Value :=
  match r.map Items.range with
  | none => pure .invalid
  | some items => Eval.inBlock (x items)

theorem moves_overRange {R : Engine → Engine → Prop} [Engine.Records R] {x : Items → Eval Value}
    (hx : ∀ items, Moves R (Eval.inBlock (x items))) (r : Option Range) :
    Moves R (overRange x r) := by
  unfold overRange
  split
  · exact moves_pure _
  · exact hx _

section Bounds

variable {deeper : Deeper} (hd : ∀ task ∈ deeper, ∀ t, Moves KeepsFaults (task t))
  {name : String} {a : Expr} {d : Option Expr} {b body : Expr} {st st' : Engine} {v : Value}

include hd

/-- The bounds of a loop are evaluated one after the other, and then its block. -/
theorem silent_loop {kind : LoopKind} {op : BinaryOp} {seed : Float}
    (hk : Bytecode.reduction? kind = some (op, seed))
    (h : Silent (eval deeper (.loop kind name (.range a d b) body none)) st v st') :
    ∃ u w t st₁ st₂ st₃, Silent (eval deeper a) st u st₁ ∧
      Silent (evalOr deeper (.number 1.0) d) st₁ w st₂ ∧ Silent (eval deeper b) st₂ t st₃ ∧
      (rangeOf u w t = .error none ∧ st' = st₃ ∨ ∃ r, rangeOf u w t = .ok r ∧
        Silent (Eval.inBlock (reduce name (eval deeper body) op seed (.range r))) st₃ v st') := by
  have hrun : ∀ items, runLoop name (eval deeper body) items kind =
      reduce name (eval deeper body) op seed items := by
    intro items
    cases kind <;> cases hk <;> rfl
  have heval : eval deeper (.loop kind name (.range a d b) body none) =
      (eval deeper a >>= fun u => evalOr deeper (.number 1.0) d >>= fun w =>
        eval deeper b >>= fun t => checkRange u w t >>=
          overRange (reduce name (eval deeper body) op seed)) := by
    rw [← show (fun items => runLoop name (eval deeper body) items kind) = _ from funext hrun, eval,
      evalSource]
    rfl
  have hblock : ∀ items, Moves KeepsFaults
      (Eval.inBlock (reduce name (eval deeper body) op seed items)) := fun items =>
    hrun items ▸ moves_inBlock (moves_runLoop (moves_eval hd body) items kind)
  have hrange : ∀ r, Moves KeepsFaults (overRange (reduce name (eval deeper body) op seed) r) :=
    moves_overRange hblock
  have hcheck := fun u w t => moves_bind (moves_checkRange (R := KeepsFaults) u w t) hrange
  have hstop := fun u w => moves_bind (moves_eval (R := KeepsFaults) hd b) (hcheck u w)
  have hstep := fun u => moves_bind (moves_evalOr (R := KeepsFaults) hd (.number 1.0) d) (hstop u)
  rw [heval] at h
  obtain ⟨u, st₁, hu, h₁⟩ := silent_bind (moves_eval hd a) hstep h
  obtain ⟨w, st₂, hw, h₂⟩ := silent_bind (moves_evalOr hd _ d) (hstop u) h₁
  obtain ⟨t, st₃, ht, h₃⟩ := silent_bind (moves_eval hd b) (hcheck u w) h₂
  obtain ⟨r, st₄, hr', h₄⟩ := silent_bind (moves_checkRange u w t) hrange h₃
  obtain ⟨rfl, hr⟩ := silent_checkRange hr'
  refine ⟨u, w, t, st₁, st₂, st₄, hu, hw, ht, ?_⟩
  rcases hr with ⟨hr, rfl⟩ | ⟨r, hr, rfl⟩
  · exact .inl ⟨hr, (silent_pure h₄).2⟩
  · exact .inr ⟨r, hr, h₄⟩

end Bounds

/-! ## Loops under a condition -/

section Given

variable {name : String} {x : Eval Value} {op : BinaryOp} {items : Items}
  {C : Engine → Prop} {st : Engine}

/-- A condition on the body that holds in all rounds does not matter for a loop. -/
theorem inBlock_reduce_given (empty : Float) (hC : ∀ item st₁,
    Round (reduceStep name x op) items none (st.onEnv .enter) item st₁ →
      C (st₁.onEnv (·.addVariable name item))) :
    Eval.inBlock (reduce name (x.given C) op empty items) st =
      Eval.inBlock (reduce name x op empty items) st := by
  have hblock : reduce name (x.given C) op empty items (st.onEnv .enter) =
      reduce name x op empty items (st.onEnv .enter) := by
    rw [reduce_eq, reduce_eq]
    unfold overItems
    rw [forItems_congr fun item st₁ hr _ => reduceStep_given (hC item st₁ hr)]
  have hrun : ∀ y : Eval Value, Eval.inBlock y st =
      ((y (st.onEnv .enter)).1, (y (st.onEnv .enter)).2.onEnv .leave) := fun _ => rfl
  rw [hrun, hrun, hblock]

end Given

section Along

variable {P : Visit → Prop} {n : Nat} {kind : LoopKind} {op : BinaryOp} {seed : Float}
  {name : String} {a : Expr} {d : Option Expr} {b body : Expr} {st st₁ st₂ st₃ : Engine}
  {u w t : Value} {r : Range}

theorem eval_getD (deeper : Deeper) (d : Option Expr) (v : Value) :
    eval deeper (d.getD (.constant v)) = evalOr deeper v d := by
  cases d with
  | none => rw [evalOr, Option.getD_none, eval]
  | some e => rw [evalOr, Option.getD_some]

theorem along_bounds (h : Expr.AlongLoop P n kind name (.range a d b) body st)
    (hu : Silent (eval (deeperAt n) a) st u st₁)
    (hw : Silent (evalOr (deeperAt n) (.number 1.0) d) st₁ w st₂) :
    a.Along P n st ∧ (∀ e ∈ d, e.Along P n st₁) ∧ b.Along P n st₂ := by
  obtain ⟨ha, hrest⟩ := Expr.alongAll_cons h.bounds
  rw [hu.1] at hrest
  obtain ⟨hd, hrest⟩ := Expr.alongAll_cons hrest
  rw [eval_getD, hw.1] at hrest
  refine ⟨ha, fun e he => ?_, (Expr.alongAll_cons hrest).1⟩
  obtain rfl : d = some e := he
  exact hd

theorem along_rounds (hk : Bytecode.reduction? kind = some (op, seed))
    (h : Expr.AlongLoop P n kind name (.range a d b) body st)
    (hu : Silent (eval (deeperAt n) a) st u st₁)
    (hw : Silent (evalOr (deeperAt n) (.number 1.0) d) st₁ w st₂)
    (ht : Silent (eval (deeperAt n) b) st₂ t st₃) (hr : rangeOf u w t = .ok r) {item : Value}
    {st' : Engine} (hround : Round (reduceStep name (eval (deeperAt n) body) op) (.range r) none
      (st₃.onEnv .enter) item st') : body.Along P n (st'.onEnv (·.addVariable name item)) := by
  have hs : evalSource (deeperAt n) (.range a d b) st = (some (.range r), st₃) := by
    rw [evalSource, bind_of_run hu.1, bind_of_run hw.1, bind_of_run ht.1, checkRange, hr]
    rfl
  cases kind <;> cases hk <;> exact h.rounds _ _ hs _ _ hround

end Along

end FormulaLang
