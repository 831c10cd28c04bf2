import FormulaLang.Proofs.Bytecode.Cells
import FormulaLang.Proofs.Bytecode.Missing

/-!
# The bounds of loops

The evaluation of a loop goes through its bounds from the start to the stop. The code has them in
the opposite order, so that bounds that assign may find other numbers there. They do not if no bound
assigns a number that another one uses: then each of them runs as it does by itself, in any order.

* `visits`, `visited`: the positions that an evaluation gets to.
* **`trail_rounds`**: the positions with which a run passes the operator of a loop.
* `Undisturbed`, **`trail_setup`**: bounds in another order.
* `SeparateBounds`, `separateCode_of_lowered`: bounds that do not disturb each other.
* **`runSteps_of_separateBounds`**: compiled loops.
* `runSteps_disturbedSum`: a bound that reads what another one assigns.
-/

namespace FormulaLang

open Eval (Moves Silent)

/-! ## Positions of an evaluation -/

section Visits

variable {σ : Type}

/-- The items that a loop of at most `n` steps gets to. -/
def visits (step : σ → Value → Eval (Except Value σ)) : Nat → Items → σ → Engine → List Value
  | 0, _, _, _ => []
  | n + 1, items, s, st =>
    match items.next? with
    | none => []
    | some (item, rest) =>
      item :: match step s item st with
        | (.ok s', st') => visits step n rest s' st'
        | (.error _, _) => []

theorem visits_of_none {step : σ → Value → Eval (Except Value σ)} {n : Nat} {items : Items} {s : σ}
    {st : Engine} (h : items.next? = none) : visits step n items s st = [] := by
  cases n with
  | zero => rfl
  | succ n => rw [visits, h]

/-- The positions of a range that a loop gets to are numbers. -/
theorem exists_visits (step : σ → Value → Eval (Except Value σ)) (n : Nat) (r : Range) (s : σ)
    (st : Engine) : ∃ xs : List Float, visits step n (.range r) s st = xs.map .number := by
  induction n generalizing r s st with
  | zero => exact ⟨[], rfl⟩
  | succ n ih =>
    rw [visits, Items.next?]
    cases r.next? with
    | none => exact ⟨[], rfl⟩
    | some p =>
      obtain ⟨x, rest⟩ := p
      dsimp only
      rcases step s (.number x) st with ⟨s' | v, st'⟩
      · exact ⟨[x], rfl⟩
      · obtain ⟨xs, hxs⟩ := ih rest v st'
        exact ⟨x :: xs, congrArg (_ :: ·) hxs⟩

end Visits

/-- The items that the evaluation of a `sum` or `prod` loop gets to. -/
def visited (deeper : Deeper) (op : BinaryOp) (name : String) (source : LoopSource Expr)
    (body : Expr) (st : Engine) : List Value :=
  match evalSource deeper source st with
  | (some items, st₁) =>
    visits (reduceStep name (eval deeper body) op) items.bound items none (st₁.onEnv .enter)
  | (none, _) => []

theorem visited_range {deeper : Deeper} {op : BinaryOp} {name : String} {a : Expr} {d : Option Expr}
    {b body : Expr} {st st₁ st₂ st₃ : Engine} {u w t : Value} {r : Range}
    (hu : eval deeper a st = (u, st₁)) (hw : evalOr deeper (.number 1.0) d st₁ = (w, st₂))
    (ht : eval deeper b st₂ = (t, st₃)) (hr : rangeOf u w t = .ok r) :
    visited deeper op name (.range a d b) body st =
      visits (reduceStep name (eval deeper body) op) (Items.range r).bound (.range r) none
        (st₃.onEnv .enter) := by
  have hsource : evalSource deeper (.range a d b) st = (some (.range r), st₃) := by
    have heval : evalSource deeper (.range a d b) =
        (eval deeper a >>= fun u => evalOr deeper (.number 1.0) d >>= fun w =>
          eval deeper b >>= fun t => checkRange u w t >>= fun r => pure (r.map Items.range)) := by
      rw [evalSource]
    have hcheck : checkRange u w t st₃ = (some r, st₃) := by
      rw [checkRange, hr]
      rfl
    simp only [heval, bind, StateT.bind, hu, hw, ht, hcheck]
    rfl
  rw [visited, hsource]

namespace Bytecode

/-! ## Pieces by themselves -/

section Pieces

variable {K : Frozen} {α : Type} {scope : List (String × Nat)} {places : List (Option Place)}
  {piece : Code} {x : Eval α} {Fits : α → List Float → Prop} {k : Nat} {heap : Array Float}
  {stv st st' : Engine} {v : α}

/-- A piece that carries out an evaluation has a run by itself. -/
theorem Frozen.Carries.alone (hx : K.Carries scope piece x Fits []) (hraises : Raises piece 0 k)
    (hplain : Plain piece) (hr : K.Runs stv)
    (hm : K.Mirrors scope places st.env (contents heap stv.env.store)) (hs : Silent x st v st') :
    ∃ outs heap' stv', Alone piece heap stv outs heap' stv' ∧ Fits v outs ∧
      K.Past scope places st.env heap piece st'.env heap' stv' := by
  refine alone_of_leads heap stv hraises hplain fun limit => ?_
  have hplaced : Placed piece.toArray 0 piece := by simpa using placed_toArray [] piece
  refine ((hx places).leads (s := #[]) hplaced ⟨hr, hm⟩ hs).mono ?_
  rintro _ stv₁ ⟨outs, heap₁, rfl, hfit, hpast⟩
  exact ⟨outs, heap₁, by simp, hfit, hpast⟩

theorem alone_loopTest (l : LoopSlots) (heap : Array Float) (st : Engine) :
    Alone (loopTest l) heap st [Number.ofBool !(l.range heap).continues] heap st := by
  have hplaced : Placed (loopTest l).toArray 0 (loopTest l) := by
    simpa using placed_toArray [] (loopTest l)
  obtain ⟨_, _, _, h, rfl, rfl, rfl⟩ := alone_of_leads heap st
    (R := fun outs heap' st' => outs = [Number.ofBool !(l.range heap).continues] ∧ heap' = heap ∧
      st' = st) (raises_loopTest l) (by simp [loopTest, finiteTest, Instruction.plain])
    fun limit => leads_loopTest rfl hplaced
      (.here ⟨_, heap, by rw [Nat.zero_add]; rfl, rfl, rfl, rfl⟩)
  exact h

theorem alone_loopAdvance {l : LoopSlots} (hl : l.Distinct) (heap : Array Float) (st : Engine) :
    Alone (loopAdvance l) heap st [] (l.advance heap) st := by
  have hplaced : Placed (loopAdvance l).toArray 0 (loopAdvance l) := by
    simpa using placed_toArray [] (loopAdvance l)
  obtain ⟨_, _, _, h, rfl, rfl, rfl⟩ := alone_of_leads heap st
    (R := fun outs heap' st' => outs = [] ∧ heap' = l.advance heap ∧ st' = st)
    (raises_loopAdvance l) (by simp [loopAdvance, Instruction.plain])
    fun limit => leads_loopAdvance hl rfl hplaced
      (.here ⟨[], _, by rw [Nat.zero_add], rfl, rfl, rfl⟩)
  exact h

end Pieces

/-! ## Rounds -/

section Rounds

variable {K : Frozen} {scope : List (String × Nat)} {places : List (Option Place)}
  {base : Environment} {c : Place → Float} {l : LoopSlots} {op : BinaryOp} {name : String}
  {x : Eval Value} {piece : Code} {limit a : Nat} {code : Array Instruction}
  {s heap : Array Float} {stv st st' : Engine}

/-- The code of a piece that a loop puts into a program. -/
structure Part (K : Frozen) (piece : Code) : Prop where
  raises : Raises piece 0 1
  plain : Plain piece
  cells : ∀ k, Touches piece (.cell k) → k < K.env.store.numbers.size

/-- A loop in front of a round. -/
structure AtRound (K : Frozen) (scope : List (String × Nat)) (places : List (Option Place))
    (base : Environment) (name : String) (slot : Nat) (env : Environment) (heap : Array Float)
    (stv : Engine) : Prop where
  runs : K.Runs stv
  head : K.Head scope places base name slot env (contents heap stv.env.store)

theorem range_of_contents {heap' : Array Float} {stv' : Engine}
    (h : contents heap' stv'.env.store = contents heap stv.env.store) (l : LoopSlots) :
    l.range heap' = l.range heap :=
  range_congr fun slot _ => congrFun h (.slot slot)

theorem uses_loopTest {reads : Bool} {k : Nat} : ¬ Uses reads (loopTest l) (.cell k) := by
  cases reads <;> simp [loopTest, finiteTest, Instruction.place?]

theorem uses_loopAdvance {reads : Bool} {k : Nat} : ¬ Uses reads (loopAdvance l) (.cell k) := by
  cases reads <;> simp [loopAdvance, Instruction.place?]

/-- What the evaluation of a round does, in which the body has a number. -/
theorem silent_round {n : Nat} {r : Range} {acc : Option Value} {out : Except Value (Option Value)}
    (hmx : Moves KeepsFaults x) (hc : r.continues = true)
    (hs : Silent (forItems (reduceStep name x op) (n + 1) (.range r) acc) st out st') :
    ∃ v next st₁, Silent x (st.onEnv (·.addVariable name (.number r.position))) v st₁ ∧
      fold op acc v = .ok next ∧
      (next.isInvalid = false →
        Silent (forItems (reduceStep name x op) n (.range r.advance) (some next)) st₁ out st' ∧
        visits (reduceStep name x op) (n + 1) (.range r) acc st = .number r.position ::
          visits (reduceStep name x op) n (.range r.advance) (some next) st₁) := by
  have hnext : (Items.range r).next? = some (.number r.position, .range r.advance) := by
    rw [Items.next?, Range.next?_of_continues hc]
  obtain ⟨o, st₁, hstep, hrest⟩ := silent_forItems (fun _ _ => moves_reduceStep hmx) hnext hs
  obtain ⟨v, next, hbody, hfold, rfl⟩ := silent_reduceStep hmx hstep
  refine ⟨v, next, st₁, hbody, hfold, fun hi => ?_⟩
  rw [hi] at hrest hstep
  have hvisits : visits (reduceStep name x op) (n + 1) (.range r) acc st =
      .number r.position :: visits (reduceStep name x op) n (.range r.advance) (some next) st₁ := by
    rw [visits, hnext]
    simp only [hstep.1]
    rfl
  rcases hrest with ⟨acc', heq, hrest⟩ | ⟨u, herror, -⟩
  · cases heq
    exact ⟨hrest, hvisits⟩
  · cases herror

/-- Values that count as numbers are folded into one. -/
theorem exists_fold {acc : Option Value} {v next : Value} {z : Float}
    (hacc : ∀ w ∈ acc, ∃ y, w.asNumber? = some y) (hv : v.asNumber? = some z)
    (h : fold op acc v = .ok next) : ∃ y, next.asNumber? = some y := by
  cases acc with
  | none =>
    cases h
    exact ⟨z, hv⟩
  | some w =>
    obtain ⟨y, hy⟩ := hacc w rfl
    exact ⟨_, asNumber?_binary hy hv h⟩

/-- **The rounds of a loop** pass the operator with the positions that the evaluation gets to. -/
theorem trail_rounds (limit : Nat) (hl : l.Distinct) (hw : Spares l piece)
    (hposition : K.Free scope l.position) (hprevious : K.Free scope l.previous)
    (hb : K.Mirrors scope places base c)
    (hx : K.Carries ((name, l.position) :: scope) piece x One []) (hpart : Part K piece)
    (hmx : Moves KeepsFaults x) (hp : Placed code a (loopCode l op piece)) {n : Nat}
    {acc : Option Value} {y : Float} {out : Except Value (Option Value)} {xs : List Float}
    (hn : (l.range heap).rounds ≤ n)
    (hh : AtRound K scope places base name l.position st.env heap stv)
    (hacc : ∀ w ∈ acc, ∃ z, w.asNumber? = some z)
    (hs : Silent (forItems (reduceStep name x op) n (.range (l.range heap)) acc) st out st')
    (hxs : visits (reduceStep name x op) n (.range (l.range heap)) acc st = xs.map .number) :
    Trail limit code (a + (loopTest l).length + 1 + piece.length) l.position
      (fun m stv' => ∃ z heap', m = ⟨a + (loopCode l op piece).length, s.push z, heap'⟩ ∧
        AtRound K scope places base name l.position st'.env heap' stv')
      xs ⟨a, s.push y, heap⟩ stv := by
  have ha := (lt_of_placed hp (by simp [loopCode, loopTest, finiteTest])).le
  have hsize := hp.le_size ha
  obtain ⟨hpiece, hop⟩ := hp.of_loopCode
  have hp' := hp
  simp only [loopCode, placed_append, placed_cons] at hp'
  obtain ⟨⟨htest, hjump, -, -, hadvance⟩, hback, -⟩ := hp'
  have hsite := (Array.getElem?_eq_some_iff.1 hop).1
  -- The induction is on the rounds that the range in the slots of the loop leaves.
  induction hk : (l.range heap).rounds using Nat.strong_induction_on
    generalizing n heap stv st acc y xs with
  | _ k ih =>
    refine (alone_loopTest l heap stv).trail_same (K := K) (by
      simp [loopTest, finiteTest, Instruction.plain]) (fun k hu => (uses_loopTest hu).elim) hh.runs
      hh.runs rfl htest ha (.inr (by omega)) fun heap₁ stv₁ hr₁ hcontents₁ => ?_
    rw [append_singleton]
    refine .jumpIf hjump (b := a + (loopCode l op piece).length) ?_ hsize (by omega)
      (isTrue_ofBool _) (fun hc => ?_) fun hc => ?_
    · simp only [loopCode, List.length_append, List.length_cons, List.length_nil]
      omega
    · rw [Bool.not_eq_true'] at hc
      have hnext : (Items.range (l.range heap)).next? = none := by
        rw [Items.next?, Range.next?_of_not_continues hc]
      obtain ⟨rfl, rfl⟩ := silent_forItems_of_none hnext hs
      rw [visits_of_none hnext] at hxs
      obtain rfl := List.map_eq_nil_iff.1 hxs.symm
      exact .here ⟨y, heap₁, rfl, hr₁, hcontents₁ ▸ hh.head⟩
    rw [Bool.not_eq_false'] at hc
    have hlt := Range.rounds_advance_lt hc
    obtain ⟨n, rfl⟩ : ∃ m, n = m + 1 := ⟨n - 1, by omega⟩
    obtain ⟨v, next, st₁, hbody, hfold, hrest⟩ := silent_round hmx hc hs
    obtain ⟨places', hm, hnext⟩ := hh.head.round hb hposition hprevious
    obtain ⟨outs, heap₂, stv₂, halone, hone, hpast⟩ :=
      hx.alone hpart.raises hpart.plain hh.runs hm hbody
    obtain ⟨z, rfl, hz⟩ := one_iff.1 hone
    refine halone.trail_same hpart.plain hpart.cells hh.runs hr₁ hcontents₁ hpiece (by omega)
      (.inr (Nat.le_refl _)) fun heap₃ stv₃ hr₃ hcontents₃ => ?_
    rw [append_singleton]
    -- The operator is passed with the position of the round.
    have hrange : l.range heap₂ = l.range heap :=
      range_congr fun slot hm => hpast.spares slot (hw slot hm)
    have hnoted : getSlot heap₃ l.position = (l.range heap).position :=
      congrArg Range.position ((range_of_contents hcontents₃ l).trans hrange)
    obtain ⟨q, hq⟩ := exists_fold hacc hz hfold
    obtain ⟨hs', hvisits⟩ := hrest (isInvalid_of_asNumber? hq)
    rw [hvisits] at hxs
    cases xs with
    | nil => cases hxs
    | cons p xs =>
      rw [List.map_cons, List.cons.injEq, Value.number.injEq] at hxs
      obtain ⟨rfl, hxs⟩ := hxs
      rw [← hnoted]
      refine .note hop (execute_arithmetic ..) ?_
      refine (alone_loopAdvance hl heap₂ stv₂).trail_same (K := K)
        (by simp [loopAdvance, Instruction.plain]) (fun k hu => (uses_loopAdvance hu).elim)
        hpast.runs hr₃ hcontents₃ hadvance (by omega) (.inl (by omega))
        fun heap₄ stv₄ hr₄ hcontents₄ => ?_
      rw [Array.append_empty]
      have hend : a + (loopTest l ++
          .jumpIf (((piece ++ .arithmetic op :: loopAdvance l).length : Int) + 2) ::
            (piece ++ .arithmetic op :: loopAdvance l)).length =
          a + (loopTest l).length + 1 + piece.length + 1 + (loopAdvance l).length := by
        simp only [List.length_append, List.length_cons]
        omega
      rw [hend] at hback
      refine .jump hback (b := a) ?_ ha (by omega) ?_
      · simp only [List.length_append, List.length_cons]
        omega
      have hadvanced : l.range heap₄ = (l.range heap).advance := by
        rw [range_of_contents hcontents₄, LoopSlots.range_advance hl, hrange]
      rw [← hadvanced] at hlt hs' hxs
      exact ih _ (hk ▸ hlt) (by omega) ⟨hr₄, hcontents₄ ▸ hnext hpast⟩
        (fun w hw => ⟨q, Option.some.inj hw ▸ hq⟩) hs' hxs rfl

end Rounds

/-! ## Bounds -/

section Setup

/-- Neither of two pieces of code writes what the other one uses. -/
def Undisturbed (code code' : Code) : Prop :=
  ∀ p, (Overwrites code p → ¬ Touches code' p) ∧ (Overwrites code' p → ¬ Touches code p)

variable {K : Frozen} {l : LoopSlots} {seed x y z : Float} {start step stop : Code}
  {limit a site slot : Nat} {code : Array Instruction} {s heap heap₁ heap₂ heap₃ : Array Float}
  {stv stv₁ stv₂ stv₃ : Engine} {Q : Machine → Engine → Prop} {xs : List Float}

/-- The code of a bound leaves the slots of its loop alone. -/
structure Bound (K : Frozen) (l : LoopSlots) (piece : Code) : Prop extends Part K piece where
  slots : ∀ k ∈ [l.position, l.previous, l.step, l.stop], ¬ Touches piece (.slot k)

/-- Slots of a loop are written in front of it. -/
theorem contents_setSlot_of_ne (heap : Array Float) {k : Nat} {p : Place} (hp : p ≠ .slot k)
    (v : Float) (st : Engine) :
    contents (setSlot heap k v) st.env.store p = contents heap st.env.store p := by
  rw [contents_setSlot, Function.update_of_ne hp]

/-- **Bounds that do not disturb each other** can run in any order. If they have runs by themselves
one after the other in the order of the evaluation, then the code in front of the loop, which has
them in the opposite order, leads to the same numbers. -/
theorem trail_setup (ha : Bound K l start) (hd : Bound K l step) (hb : Bound K l stop)
    (had : Undisturbed start step) (hab : Undisturbed start stop) (hdb : Undisturbed step stop)
    (hstart : Alone start heap stv [x] heap₁ stv₁) (hstep : Alone step heap₁ stv₁ [y] heap₂ stv₂)
    (hstop : Alone stop heap₂ stv₂ [z] heap₃ stv₃) (hr : K.Runs stv) (hl : l.Distinct)
    (hne : l.stop ≠ l.step) (hp : Placed code a (loopSetup l seed start step stop))
    (hsite : a + (loopSetup l seed start step stop).length ≤ site)
    (hn : ∀ heap' stv', K.Runs stv' → l.range heap' = .ofBounds x y z →
      (∀ p, (∀ k ∈ [l.position, l.previous, l.step, l.stop], p ≠ .slot k) →
        contents heap' stv'.env.store p = contents heap₃ stv₃.env.store p) →
      Trail limit code site slot Q xs
        ⟨a + (loopSetup l seed start step stop).length, s.push seed, heap'⟩ stv') :
    Trail limit code site slot Q xs ⟨a, s, heap⟩ stv := by
  obtain ⟨hr₁, hkept₁⟩ := hstart.kept ha.plain ha.cells hr
  obtain ⟨hr₂, hkept₂⟩ := hstep.kept hd.plain hd.cells hr₁
  obtain ⟨hr₃, hkept₃⟩ := hstop.kept hb.plain hb.cells hr₂
  simp only [loopSetup, List.cons_append, placed_cons, placed_append, List.append_assoc] at hp
  simp only [loopSetup, List.length_append, List.length_cons, List.length_nil] at hsite hn
  obtain ⟨hp₀, hpstop, hp₁, hpstep, hp₂, hpstart, hp₃, hp₄, hp₅, -⟩ := hp
  have hend := (Array.getElem?_eq_some_iff.1 hp₅).1
  have hslot : ∀ {piece : Code}, Bound K l piece → ∀ {p}, Touches piece p →
      ∀ k ∈ [l.position, l.previous, l.step, l.stop], p ≠ .slot k := by
    rintro piece hpiece p hp k hk rfl
    exact hpiece.slots k hk hp
  refine .put hp₀ (execute_constant ..) (by omega) ?_
  -- The stop is evaluated first. It uses nothing that the start and the step write.
  refine hstop.trail hb.plain hb.cells hr₂ hr (fun p hp => ?_) hpstop (by omega)
    (.inr (by omega)) fun heapA stvA hrA hsameA hkeptA => ?_
  · rw [hkept₂ p fun ho => (hdb p).1 ho hp, hkept₁ p fun ho => (hab p).1 ho hp]
  rw [append_singleton]
  refine .write hp₁ (by omega) ?_
  refine hstep.trail hd.plain hd.cells hr₁ hrA (fun p hp => ?_) hpstep (by omega) (.inr (by omega))
    fun heapB stvB hrB hsameB hkeptB => ?_
  · rw [contents_setSlot_of_ne _ (hslot hd hp _ (by simp)), hkeptA p fun ho => (hdb p).2 ho hp,
      hkept₁ p fun ho => (had p).1 ho hp]
  rw [append_singleton]
  refine .write hp₂ (by omega) ?_
  refine hstart.trail ha.plain ha.cells hr hrB (fun p hp => ?_) hpstart (by omega) (.inr (by omega))
    fun heapC stvC hrC hsameC hkeptC => ?_
  · rw [contents_setSlot_of_ne _ (hslot ha hp _ (by simp)), hkeptB p fun ho => (had p).2 ho hp,
      contents_setSlot_of_ne _ (hslot ha hp _ (by simp)), hkeptA p fun ho => (hab p).2 ho hp]
  rw [append_singleton]
  refine .write hp₃ (by omega) (.put hp₄ (execute_constant ..) (by omega) ?_)
  refine .write hp₅ (by omega) ?_
  have hlength : a + 1 + stop.length + 1 + step.length + 1 + start.length + 1 + 1 + 1 =
      a + (stop.length + 1 + (step.length + 1) + (start.length + 1) + (0 + 1 + 1 + 1)) := by omega
  rw [hlength]
  refine hn _ _ hrC (LoopSlots.range_setup hl ?_ ?_) fun p hp => ?_
  · have hC := hkeptC (.slot l.step) fun ho => ha.slots l.step (by simp) ho.touches
    exact hC.trans (getSlot_setSlot_self ..)
  · have hB := hkeptB (.slot l.stop) fun ho => hd.slots l.stop (by simp) ho.touches
    have hC := hkeptC (.slot l.stop) fun ho => ha.slots l.stop (by simp) ho.touches
    refine hC.trans ((getSlot_setSlot_of_ne hne).trans (hB.trans (getSlot_setSlot_self ..)))
  rw [contents_setSlot_of_ne _ (hp _ (by simp)), contents_setSlot_of_ne _ (hp _ (by simp))]
  have hwritten₁ := contents_setSlot_of_ne heapA (hp l.stop (by simp)) z stvA
  have hwritten₂ := contents_setSlot_of_ne heapB (hp l.step (by simp)) y stvB
  -- What a bound writes was written by it alone, in both orders.
  by_cases hoa : Overwrites start p
  · have hta := hoa.touches
    rw [hsameC p hta, hkept₃ p fun ho => (hab p).2 ho hta, hkept₂ p fun ho => (had p).2 ho hta]
  rw [hkeptC p hoa, hwritten₂]
  by_cases hod : Overwrites step p
  · rw [hsameB p hod.touches, hkept₃ p fun ho => (hdb p).2 ho hod.touches]
  rw [hkeptB p hod, hwritten₁]
  by_cases hob : Overwrites stop p
  · rw [hsameA p hob.touches]
  · rw [hkeptA p hob, hkept₃ p hob, hkept₂ p hod, hkept₁ p hoa]

/-- The code of a loop carries out its parts, and its bounds do not disturb each other. -/
structure SeparateCode (K : Frozen) (deeper : Deeper) (scope : List (String × Nat)) (l : LoopSlots)
    (name : String) (a : Expr) (d : Option Expr) (b body : Expr) (start step stop piece : Code) :
    Prop where
  clear : K.Clear scope l start step piece
  carriesStart : K.Carries scope start (eval deeper a) One []
  carriesStep : K.Carries scope step (evalOr deeper (.number 1.0) d) One []
  carriesStop : K.Carries scope stop (eval deeper b) One []
  carriesBody : K.Carries ((name, l.position) :: scope) piece (eval deeper body) One []
  start_step : Undisturbed start step
  start_stop : Undisturbed start stop
  step_stop : Undisturbed step stop
  start : Bound K l start
  step : Bound K l step
  stop : Bound K l stop
  body : Part K piece

/-- **A loop whose bounds do not disturb each other** passes the operator with the positions that
the evaluation gets to, and leads behind the block of the evaluation. -/
theorem trail_loop (limit : Nat) {deeper : Deeper}
    (hdeeper : ∀ task ∈ deeper, ∀ t, Moves KeepsFaults (task t))
    {kind : LoopKind} {op : BinaryOp} {scope : List (String × Nat)} {places : List (Option Place)}
    {name : String} {a : Expr} {d : Option Expr} {b body : Expr} {piece : Code} {address : Nat}
    {st st' : Engine} {v : Value} (hk : reduction? kind = some (op, seed))
    (h : SeparateCode K deeper scope l name a d b body start step stop piece) (hr : K.Runs stv)
    (hm : K.Mirrors scope places st.env (contents heap stv.env.store))
    (hs : Silent (eval deeper (.loop kind name (.range a d b) body none)) st v st')
    (hp : Placed code address (loopSetup l seed start step stop ++ loopCode l op piece)) :
    ∃ xs : List Float, visited deeper op name (.range a d b) body st = xs.map .number ∧
      Trail limit code (address + (loopSetup l seed start step stop).length + (loopTest l).length +
        1 + piece.length) l.position
        (fun m stv' => ∃ z heap' places',
          m = ⟨address + (loopSetup l seed start step stop ++ loopCode l op piece).length,
            s.push z, heap'⟩ ∧
          K.Runs stv' ∧ K.Mirrors scope places' st'.env (contents heap' stv'.env.store))
        xs ⟨address, s, heap⟩ stv := by
  obtain ⟨u, w, t, st₁, st₂, st₃, hu, hw, ht, hblock⟩ := silent_loop hdeeper hk hs
  -- By themselves, the bounds run in the order of the evaluation.
  obtain ⟨_, heap₁, stv₁, hstart, hx', hpast₁⟩ :=
    h.carriesStart.alone h.start.raises h.start.plain hr hm hu
  obtain ⟨x, rfl, hx⟩ := one_iff.1 hx'
  obtain ⟨places₁, ho₁⟩ := hpast₁.onward
  obtain ⟨_, heap₂, stv₂, hstep, hy', hpast₂⟩ :=
    h.carriesStep.alone h.step.raises h.step.plain hpast₁.runs ho₁.mirrors hw
  obtain ⟨y, rfl, hy⟩ := one_iff.1 hy'
  obtain ⟨places₂, ho₂⟩ := hpast₂.onward
  obtain ⟨_, heap₃, stv₃, hstop, hz', hpast₃⟩ :=
    h.carriesStop.alone h.stop.raises h.stop.plain hpast₂.runs ho₂.mirrors ht
  obtain ⟨z, rfl, hz⟩ := one_iff.1 hz'
  obtain ⟨places₃, ho₃⟩ := hpast₃.onward
  have hbounds := rangeOf_eq (stands_false.2 hx) (stands_false.2 hy) (stands_false.2 hz)
  rcases hblock with ⟨herror, -⟩ | ⟨r, hr', hblock⟩
  · exact absurd herror hbounds.1
  obtain rfl := hbounds.2 r hr'
  obtain ⟨out, st₄, hrounds, henv, -⟩ := silent_reduce hblock
  obtain ⟨xs, hxs⟩ := exists_visits (reduceStep name (eval deeper body) op)
    (Items.range (.ofBounds x y z)).bound (.ofBounds x y z) none (st₃.onEnv .enter)
  refine ⟨xs, (visited_range hu.1 hw.1 ht.1 hr').trans hxs, ?_⟩
  rw [placed_append] at hp
  refine trail_setup h.start h.step h.stop h.start_step h.start_stop h.step_stop hstart hstep hstop
    hr h.clear.distinct h.clear.stop_ne_step hp.1 (by omega) fun heap' stv' hruns hrange hkept => ?_
  have hm' : K.Mirrors scope places₃ st₃.env (contents heap' stv'.env.store) := by
    refine ho₃.mirrors.congr fun p hp => hkept p fun k hk => ?_
    rintro rfl
    exact ho₃.mirrors.not_mem_of_free (h.clear.free k hk) hp
  have hposition := h.clear.free l.position (by simp)
  have hat : AtRound K scope places₃ st₃.env name l.position (st₃.onEnv .enter).env heap' stv' :=
    ⟨hruns, hm'.head hposition name⟩
  rw [← hrange] at hrounds hxs
  have htrail := trail_rounds limit (s := s) h.clear.distinct h.clear.spares hposition
    (h.clear.free l.previous (by simp)) hm' h.carriesBody h.body (moves_eval hdeeper body) hp.2
    Range.rounds_le_bound hat (y := seed) (by simp) hrounds hxs
  refine htrail.mono ?_
  rintro _ stv₄ ⟨q, heap₄, rfl, hat'⟩
  refine ⟨q, heap₄, places₃, by rw [List.length_append, Nat.add_assoc], hat'.runs, ?_⟩
  rw [henv]
  exact hat'.head.exit.mirrors

theorem Footprint.part {names : Bool → List String} {t t' : Slots} {piece : Code}
    (h : Footprint K.env names t piece t') (hK : K.Valid) (hraises : Raises piece 0 1) :
    Part K piece :=
  ⟨hraises, h.plain, fun k hu => by
    obtain ⟨name, -, hc⟩ := h.cells true k hu
    exact Frozen.lt_of_globalCell hK hc⟩

theorem Footprint.undisturbed {env : Environment} {names names' : Bool → List String}
    {t₁ t₁' t₂ t₂' : Slots} {piece piece' : Code} (h : Footprint env names t₁ piece t₁')
    (h' : Footprint env names' t₂ piece' t₂') (hn : env.Independent names names')
    (hslots : ∀ k, Touches piece (.slot k) → ¬ Touches piece' (.slot k)) :
    Undisturbed piece piece' := by
  rintro (k | k)
  · refine ⟨fun ho ht => ?_, fun ho ht => ?_⟩
    · obtain ⟨name, hm, hc⟩ := h.cells false k ho
      obtain ⟨name', hm', hc'⟩ := h'.cells true k ht
      exact hn.left name hm name' hm' k hc hc'
    · obtain ⟨name', hm', hc'⟩ := h'.cells false k ho
      obtain ⟨name, hm, hc⟩ := h.cells true k ht
      exact hn.right name' hm' name hm k hc' hc
  · exact ⟨fun ho ht => hslots k ho.touches ht, fun ho ht => hslots k ht ho.touches⟩

end Setup

/-! ## Lowered loops -/

section Lowered

variable {K : Frozen} {may : String → Bool} {p : Piece} {s s' : Slots} {code : Code}

/-- No slot has a name in front of a piece of code and behind it, and the code uses slots that were
given out for it. -/
structure Slots.Owns (s : Slots) (code : Code) (s' : Slots) : Prop where
  size_le : s.size ≤ s'.size
  named : s'.named = []
  uses : ∀ k, Touches code (.slot k) → s.size ≤ k ∧ k < s'.size

/-- The code of a bound that assigns only numbers of the outermost level. -/
theorem Lowered.owns (h : Lowered K.env p s code s') (hcat : K.env.Catalogued) (hp : p.numeric may)
    (ho : s.Opens K.env may) (hu : p.MissingUsesNone)
    (hm : ∀ c o, p = .optional c o → ∃ x, c = [.constant x]) (hn : s.named = [])
    (hassigned : ∀ name ∈ p.names false, K.env.holdsNumber name) : s.Owns code s' := by
  have hspends := h.spends hu
  have hfootprint := h.footprint hcat hp ho.functions hm
  have htemporaries := hfootprint.temporaries fun name hm =>
    Environment.hasVariable_of_holdsNumber (hassigned name hm)
  refine ⟨hspends.grows.size_le, ?_, fun k hk => ?_⟩
  · rw [Slots.named, (h.spans hp ho hu).scope, htemporaries]
    exact hn
  · refine (hspends.uses.of_uses hk).resolve_left fun hmem => ?_
    rw [hn] at hmem
    cases hmem

/-- The bounds of a loop are formulas of the fragment that assign numbers of the outermost level,
and none of them assigns a number that another one uses. -/
structure SeparateBounds (env : Environment) (a : Expr) (d : Option Expr) (b : Expr) : Prop where
  start : a.numeric fun _ => true
  step : Expr.numericOption (fun _ => true) d
  stop : b.numeric fun _ => true
  assigned : ∀ name ∈ a.names false ++ Expr.namesOption false d ++ b.names false,
    env.holdsNumber name
  start_step : env.Independent (a.names ·) (Expr.namesOption · d)
  start_stop : env.Independent (a.names ·) (b.names ·)
  step_stop : env.Independent (Expr.namesOption · d) (b.names ·)

/-- What lowering the parts of a loop does to the slots. -/
structure PartsSpan (env : Environment) (s s₁ s₂ s₃ s₄ : Slots) (name : String)
    (start step stop piece : Code) : Prop where
  stop : Spans env s.fresh.2 stop s₁
  step : Spans env s₁.fresh.2 step s₂
  start : Spans env s₂ start s₃
  body : Spans env (s₃.push name).2.fresh.2 piece s₄

theorem PartsSpan.later {env : Environment} {s₁ s₂ s₃ s₄ : Slots} {name : String}
    {start step stop piece : Code} (h : PartsSpan env s s₁ s₂ s₃ s₄ name start step stop piece) :
    s.Later env s₄.pop :=
  ((Slots.later_fresh s).trans (h.stop.later.trans ((Slots.later_fresh s₁).trans
    (h.step.later.trans (h.start.later.trans ((Slots.later_push s₃ name).trans
      ((Slots.later_fresh _).trans (h.body.later.trans (Slots.later_pop s₄)))))))))

theorem partsSpan_of_lowered {env : Environment} {s₁ s₂ s₃ s₄ : Slots} {name : String} {a : Expr}
    {d : Option Expr} {b body : Expr} {start step stop piece : Code}
    (ho : s.Opens env fun _ => true) (hbounds : SeparateBounds env a d b)
    (hnumeric : body.numeric (· != name)) (hb : Lowered env (.tree b) s.fresh.2 stop s₁)
    (hd : Lowered env (.optional [.constant 1.0] d) s₁.fresh.2 step s₂)
    (ha : Lowered env (.tree a) s₂ start s₃)
    (hbody : Lowered env (.tree body) (s₃.push name).2.fresh.2 piece s₄) :
    PartsSpan env s s₁ s₂ s₃ s₄ name start step stop piece := by
  have hsb := hb.spans hbounds.stop ho.fresh trivial
  have ho₁ := hsb.opens ho.fresh
  have hsd := hd.spans hbounds.step ho₁.fresh (missingUsesNone_constant 1.0 d)
  have ho₂ := hsd.opens ho₁.fresh
  have hsa := ha.spans hbounds.start ho₂ trivial
  exact ⟨hsb, hsd, hsa, hbody.spans hnumeric ((hsa.opens ho₂).push name).fresh trivial⟩

/-- **Lowered bounds that share no number that one of them assigns** do not disturb each other. -/
theorem separateCode_of_lowered {deeper : Deeper}
    (hdeeper : ∀ task ∈ deeper, ∀ t, Moves KeepsFaults (task t)) (hK : K.Valid)
    (hcat : K.env.Catalogued) {s₁ s₂ s₃ s₄ : Slots} {name : String} {a : Expr} {d : Option Expr}
    {b body : Expr} {start step stop piece : Code} (ho : s.Opens K.env fun _ => true)
    (hn : s.named = []) (hbounds : SeparateBounds K.env a d b) (hnumeric : body.numeric (· != name))
    (hb : Lowered K.env (.tree b) s.fresh.2 stop s₁)
    (hd : Lowered K.env (.optional [.constant 1.0] d) s₁.fresh.2 step s₂)
    (ha : Lowered K.env (.tree a) s₂ start s₃)
    (hbody : Lowered K.env (.tree body) (s₃.push name).2.fresh.2 piece s₄)
    (hl : s₄.Later K.env K.slots) :
    SeparateCode K deeper s.scope ⟨s₃.size, s₃.size + 1, s₁.size, s.size⟩ name a d b body
      start step stop piece := by
  obtain ⟨hsb, hsd, hsa, hsbody⟩ := partsSpan_of_lowered ho hbounds hnumeric hb hd ha hbody
  obtain ⟨hpa, hpd, hpb, hassigned, had, hab, hdb⟩ := hbounds
  simp only [List.mem_append, or_imp, forall_and] at hassigned
  obtain ⟨⟨hassigneda, hassignedd⟩, hassignedb⟩ := hassigned
  have hone := missingUsesNone_constant 1.0 d
  have hconstant : ∀ c o, Piece.optional [.constant 1.0] d = .optional c o →
      ∃ x, c = [.constant x] := fun _ _ h => by cases h; exact ⟨1.0, rfl⟩
  have ho₁ := hsb.opens ho.fresh
  have ho₂ := hsd.opens ho₁.fresh
  have ho₃ := ((hsa.opens ho₂).push name).fresh
  have hl₃ := ((Slots.later_push s₃ name).trans (Slots.later_fresh _)).trans (hsbody.later.trans hl)
  have hl₂ := hsa.later.trans hl₃
  have hl₁ := (Slots.later_fresh s₁).trans (hsd.later.trans hl₂)
  have hclear := Frozen.clear_of_spans ho.tidy hsb (hb.spends trivial) hsd (hd.spends hone) hsa
    (ha.spends trivial) hsbody (hbody.spends trivial) hl
  obtain ⟨hcb, hcd, hca, hcbody⟩ := Frozen.carries_parts hsb hsd hsa
    (hb.follows hdeeper hK hcat hpb ho.fresh trivial hl₁)
    (hd.follows hdeeper hK hcat hpd ho₁.fresh hone hl₂ 1.0 rfl)
    (ha.follows hdeeper hK hcat hpa ho₂ trivial hl₃)
    (hbody.follows hdeeper hK hcat hnumeric ho₃ trivial hl)
  -- The slots of the bounds lie between those of the loop.
  have hownb := hb.owns hcat hpb ho.fresh trivial nofun hn hassignedb
  have hownd := hd.owns hcat hpd ho₁.fresh hone hconstant hownb.named hassignedd
  have howna := ha.owns hcat hpa ho₂ trivial nofun hownd.named hassigneda
  have hsizeb : s.size + 1 ≤ s₁.size := hownb.size_le
  have hsized : s₁.size + 1 ≤ s₂.size := hownd.size_le
  have hsizea := howna.size_le
  have husesb : ∀ k, Touches stop (.slot k) → s.size + 1 ≤ k ∧ k < s₁.size := hownb.uses
  have husesd : ∀ k, Touches step (.slot k) → s₁.size + 1 ≤ k ∧ k < s₂.size := hownd.uses
  have husesa := howna.uses
  have hslots : ∀ {piece : Code}, (∀ k, Touches piece (.slot k) →
      k ≠ s₃.size ∧ k ≠ s₃.size + 1 ∧ k ≠ s₁.size ∧ k ≠ s.size) →
      ∀ k ∈ [s₃.size, s₃.size + 1, s₁.size, s.size], ¬ Touches piece (.slot k) := by
    intro piece hpiece k hk ht
    have := hpiece k ht
    simp only [List.mem_cons, List.not_mem_nil, or_false] at hk
    omega
  have hfb := hb.footprint hcat hpb ho.fresh.functions nofun
  have hfd := hd.footprint hcat hpd ho₁.fresh.functions hconstant
  have hfa := ha.footprint hcat hpa ho₂.functions nofun
  have hfbody := hbody.footprint hcat hnumeric ho₃.functions nofun
  exact {
    clear := hclear
    carriesStart := hca
    carriesStep := hcd
    carriesStop := hcb
    carriesBody := hcbody
    start := ⟨hfa.part hK (ha.raises 0), hslots fun k hk => by have := husesa k hk; omega⟩
    step := ⟨hfd.part hK (hd.raises (raises_constant _) 0),
      hslots fun k hk => by have := husesd k hk; omega⟩
    stop := ⟨hfb.part hK (hb.raises 0), hslots fun k hk => by have := husesb k hk; omega⟩
    body := hfbody.part hK (hbody.raises 0)
    start_step := hfa.undisturbed hfd had fun k hk hk' => by
      have := husesa k hk
      have := husesd k hk'
      omega
    start_stop := hfa.undisturbed hfb hab fun k hk hk' => by
      have := husesa k hk
      have := husesb k hk'
      omega
    step_stop := hfd.undisturbed hfb hdb fun k hk hk' => by
      have := husesd k hk
      have := husesb k hk'
      omega }

end Lowered

/-! ## Programs of loops -/

/-- The code of a loop ends with the operator that folds the value of a round, six instructions that
move the loop on, and the jump back. -/
def Program.foldAddress (p : Program) : Nat := p.code.size - 8

/-- Moving a loop on begins with reading the slot of its position. -/
def Program.positionSlot (p : Program) : Nat :=
  match p.code[p.code.size - 7]? with
  | some (.readSlot slot) => slot
  | _ => 0

/-- The positions of a loop at which a run of its program folds the value of the body. -/
def Program.positions (n : Nat) (p : Program) (settings : Settings) (st : Engine) : List Float :=
  passages settings.stackLimit p.code p.foldAddress p.positionSlot n (p.start settings) st

section Programs

variable {p : Program} {l : LoopSlots} {op : BinaryOp} {setup piece : Code}

theorem foldAddress_eq (h : p.code.toList = setup ++ loopCode l op piece) :
    p.foldAddress = setup.length + (loopTest l).length + 1 + piece.length := by
  have hsize := congrArg List.length h
  simp only [Array.length_toList, loopCode, loopAdvance, List.length_append, List.length_cons,
    List.length_nil] at hsize
  rw [Program.foldAddress, hsize]
  omega

theorem positionSlot_eq (h : p.code.toList = setup ++ loopCode l op piece) :
    p.positionSlot = l.position := by
  have hsize := congrArg List.length h
  simp only [Array.length_toList, loopCode, loopAdvance, List.length_append, List.length_cons,
    List.length_nil] at hsize
  have hplaced : Placed p.code setup.length (loopCode l op piece) := by
    have := placed_toArray setup (loopCode l op piece)
    rwa [← h, Array.toArray_toList] at this
  simp only [loopCode, loopAdvance, placed_append, placed_cons] at hplaced
  have hread := hplaced.1.2.2.2.2.1
  have haddress : setup.length + (loopTest l).length + 1 + piece.length + 1 = p.code.size - 7 := by
    rw [hsize]
    omega
  rw [haddress] at hread
  rw [Program.positionSlot, hread]

end Programs

/-- **Loops whose bounds do not disturb each other.** From a reachable engine with the functions of
the catalog, if evaluating a `sum` or `prod` over a range records no fault, the run of its program
is stopped by a full stack, or it gets to the positions that evaluation gets to, one after the other,
and every number variable holds the same number behind both. -/
theorem runSteps_of_separateBounds {cells : List HostCell} {st st' : Engine} {kind : LoopKind}
    {op : BinaryOp} {seed : Float} {name : String} {a : Expr} {d : Option Expr} {b body : Expr}
    {p : Program} {v : Value} (h : Engine.Reachable cells st) (hcat : st.HasCatalog)
    (hk : reduction? kind = some (op, seed)) (hbounds : SeparateBounds st.env a d b)
    (hbody : body.numeric (· != name))
    (hp : compile st.env (.loop kind name (.range a d b) body none) = .ok p)
    (hv : Engine.evaluate (.loop kind name (.range a d b) body none) st = (v, st'))
    (hlog : st'.log = st.log) (settings : Settings) :
    ∃ n r stv, p.runSteps n settings st = (some r, stv) ∧ (r = .error .stackOverflow ∨
      visited (deeperAt st.settings.callDepth) op name (.range a d b) body st =
        (p.positions n settings st).map .number ∧
      ∀ name w cell, st.env.vars.get? name = some w → w.numberCell? = some cell →
        ∃ y, stv.env.value? name = some (.number y) ∧
          ∃ u, st'.env.value? name = some u ∧ u.asNumber? = some y) := by
  obtain ⟨s, hl, -⟩ := lowered_of_compile hp
  generalize hcode : p.code.toList = code at hl
  cases hl with
  | operation h => cases h
  | @loop _ s₁ s₂ s₃ s₄ _ op' seed' _ _ _ _ _ _ start step stop piece hk' hb hd ha hbody' =>
    obtain ⟨rfl, rfl⟩ : op' = op ∧ seed' = seed := by
      rw [hk] at hk'
      cases hk'
      exact ⟨rfl, rfl⟩
    have ho := Slots.opens_empty st.env fun _ => true
    let K : Frozen := ⟨st.env, HostCell.numberCells cells, s₄.pop⟩
    have hparts := partsSpan_of_lowered ho hbounds hbody hb hd ha hbody'
    have hK : K.Valid := ⟨h.sound, hparts.later.tidy ho.tidy⟩
    have hdeeper := moves_deeperAt (R := KeepsFaults) st.settings.callDepth
    have hloop := separateCode_of_lowered (K := K) hdeeper hK (catalogued hcat) ho rfl hbounds hbody
      hb hd ha hbody' (Slots.later_pop s₄)
    have hplaced := placed_toArray [] p.code.toList
    rw [List.nil_append, Array.toArray_toList, hcode] at hplaced
    rw [evaluate_eq] at hv
    obtain ⟨xs, hvisited, htrail⟩ := trail_loop settings.stackLimit (s := #[]) hdeeper hk
      hloop ⟨rfl, rfl⟩ (hK.mirrors (p.start settings).heap) ⟨hv, congrArg Array.size hlog⟩ hplaced
    rw [List.length_nil, Nat.zero_add, ← foldAddress_eq hcode, ← positionSlot_eq hcode] at htrail
    have hend := congrArg List.length hcode
    rw [Array.length_toList] at hend
    obtain ⟨n, stv, ⟨m, hrun, ⟨z, heap', places', rfl, hr, hm⟩, rfl⟩ | hrun⟩ :=
      htrail.exists_runFor fun m st' hm => by
        obtain ⟨z, heap', places', rfl, -⟩ := hm
        exact hend.le.trans_eq (Nat.zero_add _).symm
    · refine ⟨n, .ok z, stv, ?_, .inr ⟨hvisited, fun name w cell hw hc => hm.numbers hK hr hw hc⟩⟩
      unfold Program.runSteps
      rw [show runFor settings.stackLimit p.code n (p.start settings) st = _ from hrun]
      rfl
    · refine ⟨n, .error .stackOverflow, stv, ?_, .inl rfl⟩
      unfold Program.runSteps
      rw [show runFor settings.stackLimit p.code n (p.start settings) st = _ from hrun]
      rfl

/-! ## A bound that assigns -/

/-- `sum(i, (x = 1), b, 2)`. -/
def assigningSum (b : Expr) : Expr :=
  .loop .sum "i" (.range (.assign "x" (.constant (.number 1.0))) none b)
    (.constant (.number 2.0)) none

/-- The program of `assigningSum`, by the code of the stop. -/
def assigningProgram (stop : Code) : Program where
  code := (loopSetup ⟨2, 3, 1, 0⟩ 0.0 [.constant 1.0, .dup, .writeCell 2] [.constant 1.0] stop ++
    loopCode ⟨2, 3, 1, 0⟩ .add [.constant 2.0]).toArray
  heapSize := 4

/-- The engine with the catalog in which `x` is a number. -/
def withX (x : Float) : Engine := (Engine.create {}).onEnv (·.addVariable "x" (.number x))

theorem get?_withX (x : Float) : (withX x).env.vars.get? "x" = some (.number 2) := by
  show withFive.env.vars.get? "x" = _
  rw [ScopedTable.get?, entry?_withFive]
  rfl

theorem setNumber_addVariable (env : Environment) (name : String) (x y : Float) :
    { env.addVariable name (.number x) with
      store := (env.addVariable name (.number x)).store.setNumber env.store.numbers.size y } =
      env.addVariable name (.number y) := by
  simp [Environment.addVariable, Store.setNumber, Store.pushNumber, Array.setIfInBounds,
    Array.set_push]

theorem eval_assign_withX (deeper : Deeper) (x y : Float) :
    eval deeper (.assign "x" (.constant (.number y))) (withX x) = (.number y, withX y) := by
  have heval : eval deeper (.assign "x" (.constant (.number y))) = Eval.assign "x" (.number y) := by
    rw [eval, eval]
    rfl
  have hset : (withX x).env.setVariable "x" (.number y) = ((withX y).env, none) := by
    rw [Environment.setVariable, get?_withX]
    exact congrArg (·, none) (setNumber_addVariable (Engine.create {}).env "x" x y)
  rw [heval, assign_of_none (by rw [hset]), Engine.onEnv, hset]
  rfl

theorem eval_assigningSum {deeper : Deeper} {b : Expr} {t : Float}
    (hb : eval deeper b (withX 1.0) = (.number t, withX 1.0)) :
    eval deeper (assigningSum b) withFive = Eval.inBlock
      (reduce "i" (pure (.number 2.0)) .add 0.0 (.range (.ofBounds 1.0 1.0 t))) (withX 1.0) := by
  have hstart := eval_assign_withX deeper 5.0 1.0
  change eval deeper _ withFive = _ at hstart
  simp only [assigningSum, eval, evalSource, evalOr, bind, StateT.bind, pure, StateT.pure]
    at hstart ⊢
  rw [hstart]
  dsimp only
  rw [hb]
  rfl

theorem readName_withFive {s : Slots} (h : s.lookup? "x" = none) :
    (readName withFive.env "x").run s = .ok ([.readCell 2], s) := by
  have hcell : globalCell withFive.env "x" = .ok 2 := by
    rw [globalCell, entry?_withFive]
    rfl
  simp only [readName, run_bind_eq_ok, run_get_eq_ok]
  refine ⟨s, s, ⟨rfl, rfl⟩, ?_⟩
  rw [h]
  simp only [run_bind_eq_ok, run_lift_eq_ok, run_pure_eq_ok]
  exact ⟨2, s, ⟨hcell, rfl⟩, rfl, rfl⟩

theorem compile_assigningSum {b : Expr} {stop : Code} (hn : definitions b = 0)
    (hb : (lower withFive.env none b).run { size := 1 } = .ok (stop, { size := 1 })) :
    compile withFive.env (assigningSum b) = .ok (assigningProgram stop) := by
  have hlower : (lowerAt withFive.env 0 (assigningSum b)).run {} =
      .ok ((assigningProgram stop).code.toList, { size := 4 }) := by
    simp only [lowerAt, assigningSum, lower, lowerLoop, run_bind_eq_ok]
    refine ⟨_, _, rfl, _, _, hb, _, _, rfl, _, _, rfl, _, _,
      ⟨_, _, rfl, _, _, writeName_withFive _ rfl, rfl⟩, _, _, rfl, _, _, rfl, _, _, rfl, _, _, rfl,
      ?_⟩
    simp [assigningProgram, loopSetup, Slots.pop]
    rfl
  have hdefinitions : definitions (assigningSum b) = 0 := by
    simp [assigningSum, definitions, definitionsOfSource, definitionsOfOption, hn]
  rw [compile, hdefinitions, hlower]
  rfl

theorem separateBounds_assigningSum : SeparateBounds withFive.env
    (.assign "x" (.constant (.number 1.0))) none (.constant (.number 2.0)) := by
  refine ⟨rfl, rfl, rfl, fun name hm => ?_, ⟨?_, ?_⟩, ⟨?_, ?_⟩, ⟨?_, ?_⟩⟩
  · obtain rfl : name = "x" := by simpa [Expr.names, Expr.namesOption] using hm
    rw [Environment.holdsNumber, globalCell, entry?_withFive]
    rfl
  all_goals simp [Environment.Separate, Expr.names, Expr.namesOption]

theorem hasCatalog_withFive : withFive.HasCatalog :=
  fun name => congrArg (·.get? name) (Environment.functions_addVariable _ _ _)

/-- The positions of `assigningSum`. -/
theorem visited_assigningSum {deeper : Deeper} {b : Expr} {t : Float}
    (hb : eval deeper b (withX 1.0) = (.number t, withX 1.0)) :
    visited deeper .add "i" (.range (.assign "x" (.constant (.number 1.0))) none b)
      (.constant (.number 2.0)) withFive =
      visits (reduceStep "i" (pure (.number 2.0)) .add) (Items.range (.ofBounds 1.0 1.0 t)).bound
        (.range (.ofBounds 1.0 1.0 t)) none ((withX 1.0).onEnv .enter) := by
  have hstep : evalOr deeper (.number 1.0) none (withX 1.0) = (.number 1.0, withX 1.0) := by
    rw [evalOr]
    rfl
  rw [show withFive = withX 5.0 from rfl,
    visited_range (eval_assign_withX deeper 5.0 1.0) hstep hb rfl, eval]

theorem runSteps_assigningSum : ∃ p st',
    compile withFive.env (assigningSum (.constant (.number 2.0))) = .ok p ∧
    Engine.evaluate (assigningSum (.constant (.number 2.0))) withFive = (.number 4.0, st') ∧
    st'.log = withFive.log ∧ ∃ n r stv, p.runSteps n {} withFive = (some r, stv) ∧
      (r = .error .stackOverflow ∨ p.positions n {} withFive = [1.0, 2.0]) := by
  have hb : ∀ deeper,
      eval deeper (.constant (.number 2.0)) (withX 1.0) = (.number 2.0, withX 1.0) :=
    fun deeper => by rw [eval]; rfl
  have hp : compile withFive.env (assigningSum (.constant (.number 2.0))) =
      .ok (assigningProgram [.constant 2.0]) := compile_assigningSum rfl rfl
  have heval := (evaluate_eq (assigningSum (.constant (.number 2.0))) withFive).trans
    (eval_assigningSum (hb _))
  have hv := heval.trans (Prod.mk.eta (p := Eval.inBlock _ _)).symm
  have hlog : (Eval.inBlock (reduce "i" (pure (.number 2.0)) .add 0.0
      (.range (.ofBounds 1.0 1.0 2.0))) (withX 1.0)).2.log = withFive.log := rfl
  obtain ⟨n, r, stv, hrun, hr⟩ := runSteps_of_separateBounds
    (.addVariable (.create {}) "x" (.number 5.0)) hasCatalog_withFive rfl
    separateBounds_assigningSum rfl hp hv hlog {}
  have hvisits : visits (reduceStep "i" (pure (.number 2.0)) .add)
      (Items.range (.ofBounds 1.0 1.0 2.0)).bound (.range (.ofBounds 1.0 1.0 2.0)) none
      ((withX 1.0).onEnv .enter) = [1.0, 2.0].map .number := rfl
  refine ⟨_, _, hp, hv, hlog, n, r, stv, hrun, hr.imp_right fun h => ?_⟩
  exact List.map_injective_iff.2 (fun _ _ => Value.number.inj)
    (h.1.symm.trans ((visited_assigningSum (hb _)).trans hvisits))

/-- `x - 3`. -/
def belowX : Expr := .binary .sub (.var "x") (.constant (.number 3.0))

theorem eval_belowX (deeper : Deeper) (x : Float) :
    eval deeper belowX (withX x) = (.number (x - 3.0), withX x) := by
  have hread : (withX x).env.value? "x" = some (.number x) := by
    rw [Environment.value?, get?_withX]
    rfl
  have hvar : eval deeper (.var "x") (withX x) = (.number x, withX x) := by
    have hvalue : Eval.value? "x" (withX x) = (some (.number x), withX x) :=
      congrArg (·, withX x) hread
    simp only [eval, bind, StateT.bind, hvalue]
    rfl
  simp only [belowX, eval, bind, StateT.bind] at hvar ⊢
  rw [hvar]
  rfl

theorem lower_belowX : (lower withFive.env none belowX).run { size := 1 } =
    .ok ([.readCell 2, .constant 3.0, .arithmetic .sub], { size := 1 }) := by
  simp only [belowX, lower, run_bind_eq_ok]
  exact ⟨_, _, readName_withFive rfl, _, _, rfl, rfl⟩

set_option maxRecDepth 10000 in
theorem runSteps_belowProgram : ∃ stv,
    (assigningProgram [.readCell 2, .constant 3.0, .arithmetic .sub]).runSteps 150 {} withFive =
      (some (.ok 4.0), stv) ∧ stv.log = withFive.log :=
  ⟨Prod.snd _, Prod.ext rfl rfl, rfl⟩

set_option maxRecDepth 10000 in
theorem positions_belowProgram :
    (assigningProgram [.readCell 2, .constant 3.0, .arithmetic .sub]).positions 150 {} withFive =
      [1.0, 2.0] := rfl

/-- **A stop that reads what the start assigns** is evaluated too early by the program: it goes
through two positions, while the evaluation has none to go through. -/
theorem runSteps_disturbedSum : Engine.Reachable [] withFive ∧ withFive.HasCatalog ∧ ∃ p st' stv,
    compile withFive.env (assigningSum belowX) = .ok p ∧
    Engine.evaluate (assigningSum belowX) withFive = (.number 0.0, st') ∧
    st'.log = withFive.log ∧
    visited (deeperAt withFive.settings.callDepth) .add "i"
      (.range (.assign "x" (.constant (.number 1.0))) none belowX) (.constant (.number 2.0))
      withFive = [] ∧
    p.runSteps 150 {} withFive = (some (.ok 4.0), stv) ∧ stv.log = withFive.log ∧
    p.positions 150 {} withFive = [1.0, 2.0] := by
  have heval := (evaluate_eq (assigningSum belowX) withFive).trans
    (eval_assigningSum (eval_belowX _ 1.0))
  have hv := heval.trans (Prod.mk.eta (p := Eval.inBlock _ _)).symm
  have hlog : (Eval.inBlock (reduce "i" (pure (.number 2.0)) .add 0.0
      (.range (.ofBounds 1.0 1.0 (1.0 - 3.0)))) (withX 1.0)).2.log = withFive.log := rfl
  obtain ⟨stv, hrun, hstv⟩ := runSteps_belowProgram
  exact ⟨.addVariable (.create {}) "x" (.number 5.0), hasCatalog_withFive, _, _, stv,
    compile_assigningSum rfl lower_belowX, hv, hlog,
    (visited_assigningSum (eval_belowX _ 1.0)).trans rfl, hrun, hstv, positions_belowProgram⟩

end Bytecode

end FormulaLang
