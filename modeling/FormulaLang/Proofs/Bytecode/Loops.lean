import FormulaLang.Proofs.Bytecode.Carries
import FormulaLang.Proofs.Bytecode.Halting
import FormulaLang.Proofs.Bytecode.Rounds

/-!
# Code that carries out loops

* `Frozen.Head.round`: one round, from block to block.
* `Frozen.rounds_of_carries`: a body that is carried out, from round to round.
* `Frozen.Carries.idle`: the bounds, which are evaluated in another order than the code has them.
* **`Frozen.carries_loop`**: a loop with its bounds.
-/

namespace FormulaLang.Bytecode.Frozen

open Eval (Moves Silent)

/-! ## Rounds -/

section Rounds

variable {K : Frozen} {scope : List (String × Nat)} {places : List (Option Place)}
  {base : Environment} {l : LoopSlots} {name : String} {x : Eval Value} {piece : Code}
  {limit : Nat} {code : Array Instruction} {a : Nat} {s : Array Float}

theorem contents_advance (heap : Array Float) {store : Store} {p : Place}
    (hprevious : K.Free scope l.previous) (hp : p ≠ .slot l.position)
    (hfree : ∀ k, p = .slot k → ¬ K.Free scope k) :
    contents (l.advance heap) store p = contents heap store p := by
  cases p with
  | cell cell => rfl
  | slot k =>
    refine LoopSlots.getSlot_advance heap ⟨fun h => hp (congrArg _ h), ?_⟩
    rintro rfl
    exact hfree _ rfl hprevious

/-- **A round**: its body runs in the block in which the position is bound, and behind it the loop
is in front of the next round. -/
theorem Head.round {env : Environment} {heap : Array Float} {stv : Engine} {c : Place → Float}
    (h : K.Head scope places base name l.position env (contents heap stv.env.store))
    (hb : K.Mirrors scope places base c) (hposition : K.Free scope l.position)
    (hprevious : K.Free scope l.previous) :
    ∃ places', K.Mirrors ((name, l.position) :: scope) places'
        (env.addVariable name (.number (l.range heap).position)) (contents heap stv.env.store) ∧
      ∀ {piece : Code} {env' : Environment} {heap' : Array Float} {stv' : Engine},
        K.Past ((name, l.position) :: scope) places'
          (env.addVariable name (.number (l.range heap).position)) heap piece env' heap' stv' →
        K.Head scope places base name l.position env'
          (contents (l.advance heap') stv'.env.store) := by
  obtain ⟨places', i, hplaces, hm, hi, hframe⟩ := h.ready (l.range heap).position
  have hupdate : Function.update (contents heap stv.env.store) (.slot l.position)
      (l.range heap).position = contents heap stv.env.store := Function.update_eq_self _ _
  rw [hupdate] at hm
  refine ⟨places', hm, fun {piece env' heap' stv'} hpast => ?_⟩
  obtain ⟨places'', ho⟩ := hpast.onward
  have hgrown := h.grown.trans (h.sound.extends_addVariable name
    (.number (l.range heap).position)) (env.level_addVariable name _)
  have hlevel := (env.level_addVariable name (.number (l.range heap).position)).trans h.level
  exact (hb.head_of_onward hgrown hlevel hplaces hi hframe ho).congr hposition
    fun p hp hf => contents_advance heap' hprevious hp hf

variable (K scope places base l name piece) in
/-- The block of a loop is in front of a round, and slots that the loop does not write are as they
were. -/
structure AtHead (heap₀ : Array Float) (m : Moment) : Prop where
  runs : K.Runs m.engine
  head : K.Head scope places base name l.position m.env (contents m.heap m.engine.env.store)
  spares : ∀ slot, .writeSlot slot ∉ loopCode l .mul piece →
    getSlot m.heap slot = getSlot heap₀ slot

theorem rounds_of_carries (hw : Spares l piece) (hposition : K.Free scope l.position)
    (hprevious : K.Free scope l.previous) {c : Place → Float} (hb : K.Mirrors scope places base c)
    (hx : K.Carries ((name, l.position) :: scope) piece x One []) (heap₀ : Array Float) :
    Rounds l name piece x false (K.AtHead scope places base l name piece heap₀) := by
  rintro ⟨env, heap, stv⟩ ⟨hr, hh, hspares⟩
  dsimp only at hr hh hspares ⊢
  obtain ⟨places', hm, hnext⟩ := hh.round hb hposition hprevious
  refine (hx places').mono ?_ ?_ fun _ _ => maybe_false.2
  · rintro _ rfl
    exact ⟨hr, hm⟩
  rintro _ ⟨env', heap', stv'⟩ rfl hpast
  refine ⟨range_congr fun slot hm => hpast.spares slot (hw slot hm), hpast.runs, hnext hpast,
    fun slot hslot => ?_⟩
  obtain ⟨hbody, hadvance⟩ := not_mem_of_loopCode hslot heap'
  rw [hadvance, hpast.spares slot hbody, hspares slot hslot]

/-! ## Bounds -/

/-- Writing a slot without a name. -/
theorem Mirrors.setSlot {env : Environment} {heap : Array Float} {store : Store} {slot : Nat}
    (h : K.Mirrors scope places env (contents heap store)) (hf : K.Free scope slot) (z : Float) :
    K.Mirrors scope places env (contents (setSlot heap slot z) store) := by
  refine h.congr fun p hp => ?_
  rw [contents_setSlot, Function.update_of_ne]
  rintro rfl
  exact h.not_mem_of_free hf hp

/-- **The code of an evaluation that changes nothing** can run at another time, as long as
everything is the same. -/
theorem Carries.idle (hx : K.Carries scope piece x One []) (hi : Moves (Idle K.held) x)
    (hp : Placed code a piece) {env : Environment} {heap : Array Float} {stv st st' : Engine}
    {v : Value} (hr : K.Runs stv) (hm : K.Mirrors scope places env (contents heap stv.env.store))
    (hc : st.env.Catalogued) (hsound : st.env.Sound K.held) (hsame : env.Same st.env)
    (hs : Silent x st v st') :
    Leads limit code (· = .stackOverflow)
      (fun m stv' => ∃ z heap', m = ⟨a + piece.length, s.push z, heap'⟩ ∧
        v.asNumber? = some z ∧ K.Runs stv' ∧
        K.Mirrors scope places env (contents heap' stv'.env.store) ∧
        ∀ slot, .writeSlot slot ∉ piece → getSlot heap' slot = getSlot heap slot)
      ⟨a, s, heap⟩ stv := by
  refine ((hx places).leads hp ⟨hr, hm.of_same hsound hsame⟩ hs).mono ?_
  rintro _ stv₁ ⟨outs, heap₁, rfl, hfit, hr₁, ⟨places', ho⟩, hspares⟩
  obtain ⟨z, rfl, hz⟩ := one_iff.1 hfit
  have hsame' : st.env.Same st'.env := by
    have := (hi st hsound hc).2
    rwa [hs.1] at this
  have hm' := ho.mirrors.of_same' hm.sound (hsame.trans hsame')
  obtain rfl : places = places' :=
    ho.kept.eq_of_length (hm.layout.length.trans hm'.layout.length.symm)
  refine ⟨z, heap₁, ?_, hz, hr₁, hm', hspares⟩
  rw [Array.push_eq_append]

end Rounds

/-! ## Loops with their bounds -/

variable (K : Frozen)

/-- The slots of a loop are different and belong to no name, and what is put into them in front of
the loop stays there. -/
structure Clear (scope : List (String × Nat)) (l : LoopSlots) (start step piece : Code) : Prop where
  distinct : l.Distinct
  stop_ne_step : l.stop ≠ l.step
  free : ∀ slot ∈ [l.position, l.previous, l.step, l.stop], K.Free scope slot
  spares : Spares l piece
  step : .writeSlot l.stop ∉ step
  start : .writeSlot l.stop ∉ start ∧ .writeSlot l.step ∉ start

variable {K} {scope : List (String × Nat)} {l : LoopSlots} {start step stop piece : Code}
  {deeper : Deeper} {name : String} {a : Expr} {d : Option Expr} {b body : Expr}

/-- **A loop with its bounds**, which neither assign nor are they disturbed by each other. -/
theorem carries_loop (hd : ∀ task ∈ deeper, ∀ t, Moves KeepsFaults (task t))
    (hcat : K.env.Catalogued) (hl : K.Clear scope l start step piece)
    (ha : K.Carries scope start (eval deeper a) One []) (hia : Moves (Idle K.held) (eval deeper a))
    (hs : K.Carries scope step (evalOr deeper (.number 1.0) d) One [])
    (his : Moves (Idle K.held) (evalOr deeper (.number 1.0) d))
    (hb : K.Carries scope stop (eval deeper b) One []) (hib : Moves (Idle K.held) (eval deeper b))
    (hbody : K.Carries ((name, l.position) :: scope) piece (eval deeper body) One []) :
    K.Carries scope (loopSetup l 1.0 start step stop ++ loopCode l .mul piece)
      (eval deeper (.loop .prod name (.range a d b) body none)) One [] := by
  rw [loopSetup_append]
  rintro places limit code addr stack heap stv st st' v hp ⟨hr, hm⟩ hsilent
  have hposition := hl.free l.position (by simp)
  have hprevious := hl.free l.previous (by simp)
  obtain ⟨u, w, t, st₁, st₂, st₃, hu, hw, ht, hblock⟩ := silent_loop hd rfl hsilent
  -- Nothing changes while the bounds are evaluated.
  have hidle : ∀ {x : Eval Value} {q q' : Engine} {r : Value}, Moves (Idle K.held) x →
      Silent x q r q' → q.env.Sound K.held ∧ st.env.Same q.env →
        q'.env.Sound K.held ∧ st.env.Same q'.env := by
    intro x q q' r hi hx hq
    have hc : q.env.Catalogued := hcat.of_functions (hq.2.functions.trans hm.functions)
    have := hi q hq.1 hc
    rw [hx.1] at this
    exact ⟨this.1, hq.2.trans this.2⟩
  have h₀ : st.env.Sound K.held ∧ st.env.Same st.env := ⟨hm.sound, .refl _⟩
  have h₁ := hidle hia hu h₀
  have h₂ := hidle his hw h₁
  have h₃ := hidle hib ht h₂
  have hcat' : ∀ {q : Engine}, st.env.Same q.env → q.env.Catalogued := fun hq =>
    hcat.of_functions (hq.functions.trans hm.functions)
  simp only [placed_cons, placed_append] at hp
  obtain ⟨hp₀, hpstop, hp₁, hpstep, hp₂, hpstart, hp₃, hp₄, hp₅, hploop⟩ := hp
  rw [Array.append_empty]
  refine .put hp₀ (execute_constant ..) rfl ?_
  refine (hb.idle hib hpstop hr hm (hcat' h₂.2) h₂.1 h₂.2 ht).bind ?_
  rintro _ stv₁ ⟨z, heap₁, rfl, hz, hr₁, hm₁, hspares₁⟩
  refine .write hp₁ ?_
  have hm₁ := hm₁.setSlot (hl.free l.stop (by simp)) z
  refine (hs.idle his hpstep hr₁ hm₁ (hcat' h₁.2) h₁.1 h₁.2 hw).bind ?_
  rintro _ stv₂ ⟨y, heap₂, rfl, hy, hr₂, hm₂, hspares₂⟩
  refine .write hp₂ ?_
  have hm₂ := hm₂.setSlot (hl.free l.step (by simp)) y
  refine (ha.idle hia hpstart hr₂ hm₂ (hcat' h₀.2) h₀.1 h₀.2 hu).bind ?_
  rintro _ stv₃ ⟨x, heap₃, rfl, hx, hr₃, hm₃, hspares₃⟩
  refine .write hp₃ (.put hp₄ (execute_constant ..) rfl (.write hp₅ ?_))
  have hm₃ := ((hm₃.setSlot hposition x).setSlot hprevious Number.nan).of_same h₃.1 h₃.2
  have hrange : l.range (setSlot (setSlot heap₃ l.position x) l.previous Number.nan) =
      .ofBounds x y z := by
    refine LoopSlots.range_setup hl.distinct ?_ ?_
    · rw [hspares₃ _ hl.start.2, getSlot_setSlot_self]
    · rw [hspares₃ _ hl.start.1, getSlot_setSlot_of_ne hl.stop_ne_step, hspares₂ _ hl.step,
        getSlot_setSlot_self]
  have hbounds := rangeOf_eq (stands_false.2 hx) (stands_false.2 hy) (stands_false.2 hz)
  rcases hblock with ⟨herror, -⟩ | ⟨r, hr', hblock⟩
  · exact absurd herror hbounds.1
  obtain rfl := hbounds.2 r hr'
  rw [← hrange] at hblock
  have hrounds := rounds_of_carries hl.spares hposition hprevious hm₃ hbody
    (setSlot (setSlot heap₃ l.position x) l.previous Number.nan)
  have hk : reduction? .prod = some (.mul, 1.0) := rfl
  refine (leads_reduce hk hl.distinct hrounds (moves_eval hd body) hploop
    ⟨hr₃, hm₃.head hposition name, fun _ _ => rfl⟩ hblock).mono ?_
  rintro _ stv₄ ⟨q, heap₄, env', rfl, hq, ⟨hr₄, hh, hspares₄⟩, henv⟩
  dsimp only at hr₄ hh hspares₄
  have hvalue := hq.stands hk fun h => by cases h
  refine ⟨[q], heap₄, ?_, maybe_false.1 ⟨q, rfl, hvalue⟩, hr₄, ⟨places, ?_⟩, fun slot hslot => ?_⟩
  · rw [Array.push_eq_append]
    simp only [List.length_append, List.length_cons, Machine.mk.injEq, and_true]
    omega
  · dsimp only
    rw [henv]
    exact (hm₃.onward_of_frame h₃.2.functions h₃.2.frame h₃.2.level).trans hh.exit
  · simp only [List.mem_append, List.mem_cons, not_or, reduceCtorEq, not_false_eq_true, true_and,
      Instruction.writeSlot.injEq] at hslot
    obtain ⟨hstop, hne₁, hstep, hne₂, hstart, hne₃, hne₄, hloop⟩ := hslot
    rw [hspares₄ slot hloop, getSlot_setSlot_of_ne hne₄, getSlot_setSlot_of_ne hne₃,
      hspares₃ slot hstart, getSlot_setSlot_of_ne hne₂, hspares₂ slot hstep,
      getSlot_setSlot_of_ne hne₁, hspares₁ slot hstop]

end FormulaLang.Bytecode.Frozen
