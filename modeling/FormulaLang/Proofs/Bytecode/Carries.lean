import FormulaLang.Proofs.Bytecode.Mirror
import FormulaLang.Proofs.Bytecode.Tracks

/-!
# Code that carries out an evaluation

A piece of code carries out an evaluation if from every mirrored environment its runs put the
numbers on the stack that the values count as, and mirror the environment behind the evaluation.
Evaluations that record a fault, and runs with a full stack, are not compared.

* `Frozen.Runs`: what does not change in the engine of a run.
* `Frozen.Past`: a run behind a piece of code.
* **`Frozen.Carries`**: the piece carries out an evaluation.
* `Carries.bind`, `Carries.above`: evaluations one after the other.
* `carries_branch`, `carries_write`: conditions and what an assignment writes.
-/

namespace FormulaLang.Bytecode

open Eval (Moves Silent)

/-! ## Contents -/

section Contents

variable (heap : Array Float) (store : Store) (x : Float)

theorem contents_setSlot (slot : Nat) :
    contents (setSlot heap slot x) store = Function.update (contents heap store) (.slot slot) x := by
  funext p
  cases p with
  | cell cell => rw [Function.update_of_ne (by simp)]; rfl
  | slot other =>
    by_cases h : other = slot
    · subst h
      rw [Function.update_self]
      exact getSlot_setSlot_self heap other x
    · rw [Function.update_of_ne (by simpa using h)]
      exact getSlot_setSlot_of_ne h

theorem contents_setNumber {cell : Nat} (hc : cell < store.numbers.size) :
    contents heap (store.setNumber cell x) =
      Function.update (contents heap store) (.cell cell) x := by
  funext p
  cases p with
  | slot slot => rw [Function.update_of_ne (by simp)]; rfl
  | cell other =>
    have hn := Environment.number_setNumber store x hc other
    by_cases h : other = cell
    · subst h
      rw [Function.update_self]
      exact hn.trans (if_pos rfl)
    · rw [Function.update_of_ne (by simpa using h)]
      exact hn.trans (if_neg h)

end Contents

namespace Frozen

variable (K : Frozen)

/-- The engine of a run has the variables of the beginning, and as many cells. -/
structure Runs (st : Engine) : Prop where
  vars : st.env.vars = K.env.vars
  size : st.env.store.numbers.size = K.env.store.numbers.size

/-- A run has got behind a piece of code, and the evaluation from one environment to another: the
new environment is mirrored, and slots that the piece does not write are as they were. -/
structure Past (scope : List (String × Nat)) (places : List (Option Place)) (env : Environment)
    (heap : Array Float) (piece : Code) (env' : Environment) (heap' : Array Float) (st : Engine) :
    Prop where
  runs : K.Runs st
  onward : ∃ places', K.Onward scope places env places' env' (contents heap' st.env.store)
  spares : ∀ slot, .writeSlot slot ∉ piece → getSlot heap' slot = getSlot heap slot

/-- What a run and an evaluation have in common. -/
def Before (scope : List (String × Nat)) (places : List (Option Place)) (m : Moment) : Prop :=
  K.Runs m.engine ∧ K.Mirrors scope places m.env (contents m.heap m.engine.env.store)

/-- How a run and an evaluation have changed behind a piece of code. -/
def After (scope : List (String × Nat)) (places : List (Option Place)) (piece : Code)
    (m m' : Moment) : Prop :=
  K.Past scope places m.env m.heap piece m'.env m'.heap m'.engine

/-- **A piece of code carries out an evaluation.** -/
def Carries {α : Type} (scope : List (String × Nat)) (piece : Code) (x : Eval α)
    (Fits : α → List Float → Prop) (ins : List Float) : Prop :=
  ∀ places, Tracks (K.Before scope places) (K.After scope places piece) piece x Fits ins

variable {K} {α β : Type} {scope : List (String × Nat)} {places places' : List (Option Place)}
  {env env' env'' : Environment} {heap heap' heap'' : Array Float} {piece piece' : Code}
  {stv stv' : Engine}

theorem Mirrors.past (h : K.Mirrors scope places env (contents heap stv.env.store))
    (hr : K.Runs stv) : K.Past scope places env heap piece env heap stv :=
  ⟨hr, ⟨places, h.onward⟩, fun _ _ => rfl⟩

theorem Past.append {places' : List (Option Place)}
    (h : K.Past scope places env heap piece env' heap' stv)
    (ho : K.Onward scope places env places' env' (contents heap' stv.env.store))
    (h' : K.Past scope places' env' heap' piece' env'' heap'' stv') :
    K.Past scope places env heap (piece ++ piece') env'' heap'' stv' := by
  obtain ⟨places'', ho'⟩ := h'.onward
  refine ⟨h'.runs, ⟨places'', ho.trans ho'⟩, fun slot hs => ?_⟩
  rw [List.mem_append, not_or] at hs
  exact (h'.spares slot hs.2).trans (h.spares slot hs.1)

theorem Past.mono (h : K.Past scope places env heap piece env' heap' stv)
    (hp : ∀ slot, .writeSlot slot ∈ piece → .writeSlot slot ∈ piece') :
    K.Past scope places env heap piece' env' heap' stv :=
  ⟨h.runs, h.onward, fun slot hs => h.spares slot fun hw => hs (hp slot hw)⟩

/-! ## Evaluations one after the other -/

section Carries

variable {x y : Eval α} {f : α → Eval β} {Fits : α → List Float → Prop}
  {Fits' : β → List Float → Prop} {ins outs : List Float} {v : α}

/-- An evaluation that is the same as long as the functions are. -/
theorem Carries.congr (h : K.Carries scope piece y Fits ins)
    (hxy : ∀ st : Engine, st.env.functions = K.env.functions → x st = y st) :
    K.Carries scope piece x Fits ins :=
  fun places => (h places).congr fun st _ _ _ _ hm _ => hxy st hm.2.functions

theorem Carries.imp (h : K.Carries scope piece x Fits ins) {Fits₁ : α → List Float → Prop}
    (himp : ∀ v outs, Fits v outs → Fits₁ v outs) : K.Carries scope piece x Fits₁ ins :=
  fun places => (h places).mono (fun _ hm => hm) (fun _ _ _ ha => ha) himp

/-- Behind a piece of code another one can go on. -/
theorem Carries.after (h : K.Carries scope piece' x Fits ins) {m m' : Moment}
    (ha : K.After scope places piece m m') {code : Code}
    (hp : ∀ slot, .writeSlot slot ∈ piece ∨ .writeSlot slot ∈ piece' → .writeSlot slot ∈ code) :
    Tracks (· = m') (fun _ m₂ => K.After scope places code m m₂) piece' x Fits ins := by
  obtain ⟨places₁, ho⟩ := ha.onward
  refine (h places₁).mono ?_ ?_ fun _ _ hfit => hfit
  · rintro _ rfl
    exact ⟨ha.runs, ho.mirrors⟩
  · rintro _ m₂ rfl hpast
    exact (Past.append ha ho hpast).mono fun slot hw => hp slot (List.mem_append.1 hw)

/-- **Two evaluations one after the other.** -/
theorem Carries.bind (hx : K.Carries scope piece x Fits ins) (hmx : Moves KeepsFaults x)
    (hf : ∀ v outs, Fits v outs → K.Carries scope piece' (f v) Fits' outs)
    (hmf : ∀ v, Moves KeepsFaults (f v)) :
    K.Carries scope (piece ++ piece') (x >>= f) Fits' ins :=
  fun places => (hx places).bind hmx (fun _ _ v outs _ ha hfit =>
    (hf v outs hfit).after ha fun _ hw => List.mem_append.2 hw) hmf

theorem carries_pure (h : Fits v outs) : K.Carries scope [] (pure v) Fits outs :=
  fun _ => tracks_pure h fun _ hm => hm.2.past hm.1

/-- Numbers further down on the stack stay where they are. -/
theorem Carries.above (h : K.Carries scope piece x Fits []) (below : List Float) :
    K.Carries scope piece x (fun v outs => ∃ above, outs = below ++ above ∧ Fits v above) below :=
  fun places => (h places).above below

/-- A number that is dropped first. -/
theorem Carries.pop (h : K.Carries scope piece x Fits []) (z : Float) :
    K.Carries scope (.pop :: piece) x Fits [z] :=
  fun places => ((h places).pop z).mono (fun _ hm => hm)
    (fun _ _ _ ha => ha.mono fun _ hw => List.mem_cons_of_mem _ hw) fun _ _ hfit => hfit

/-- An instruction that puts a number on the stack for an evaluation that changes nothing. -/
theorem carries_put {i : Instruction}
    (h : ∀ ⦃heap stv places st st' v⦄, K.Runs stv →
      K.Mirrors scope places st.env (contents heap stv.env.store) → Silent x st v st' →
      st'.env = st.env ∧ ∃ z, Fits v [z] ∧ ∀ limit n a s,
        execute limit n i ⟨a, s ++ ins.toArray, heap⟩ stv =
          (Machine.putNext limit z ⟨a, s, heap⟩, stv)) :
    K.Carries scope [i] x Fits ins := by
  refine fun _ => tracks_put fun heap stv st st' v hm hs => ?_
  obtain ⟨henv, hput⟩ := h hm.1 hm.2 hs
  rw [henv]
  exact ⟨hm.2.past hm.1, hput⟩

end Carries

/-! ## Variables -/

section Variables

variable {name : String} {p : Place} {v : Value} {z : Float}

/-- A place of the code is written. -/
theorem Runs.write (hr : K.Runs stv) (heap : Array Float)
    (hp : ∀ cell, p = .cell cell → cell < K.env.store.numbers.size) (z : Float) :
    ∃ heap' stv', (∀ limit n a s, execute limit n p.write ⟨a, s.push z, heap⟩ stv =
        (.ok ⟨a + 1, s, heap'⟩, stv')) ∧ K.Runs stv' ∧
      contents heap' stv'.env.store = Function.update (contents heap stv.env.store) p z ∧
      ∀ slot, .writeSlot slot ≠ p.write → getSlot heap' slot = getSlot heap slot := by
  cases p with
  | cell cell =>
    refine ⟨heap, { stv with env := { stv.env with store := stv.env.store.setNumber cell z } },
      fun limit n a s => execute_writeCell .., ⟨hr.vars, ?_⟩, ?_, fun _ _ => rfl⟩
    · rw [← hr.size]
      simp [Store.setNumber]
    · exact contents_setNumber heap stv.env.store z (hr.size.symm ▸ hp cell rfl)
  | slot slot =>
    refine ⟨setSlot heap slot z, stv, fun limit n a s => execute_writeSlot .., hr,
      contents_setSlot heap stv.env.store z slot, fun other hne => ?_⟩
    refine getSlot_setSlot_of_ne ?_
    rintro rfl
    exact hne rfl

/-- Reading a variable. -/
theorem carries_read {deeper : Deeper} (hp : K.resolve scope name = some p) :
    K.Carries scope [p.read] (eval deeper (.var name)) One [] := by
  refine carries_put fun heap stv places st st' v hr hm hs => ?_
  obtain ⟨rfl, hw⟩ := silent_var hs
  refine ⟨rfl, _, one_iff.2 ⟨_, rfl, hm.value?_eq hp hw⟩, fun limit n a s => ?_⟩
  rw [Array.append_empty]
  cases p with
  | cell cell => exact execute_readCell ..
  | slot slot => exact execute_readSlot ..

/-- **Assigning a variable** writes its place. -/
theorem carries_write (hK : K.Valid) (ha : K.Apart scope) (hn : bound? name scope = none)
    (hp : K.resolve scope name = some p)
    (hlt : ∀ cell, p = .cell cell → cell < K.env.store.numbers.size) (hv : v.asNumber? = some z) :
    K.Carries scope [.dup, p.write]
      (if v.isInvalid then pure Value.invalid else Eval.assign name v) One [z] := by
  rintro places limit code a s heap stv st st' w hpl ⟨hr, hm⟩ hs
  obtain ⟨hdup, hwrite, -⟩ := hpl
  rw [isInvalid_of_asNumber? hv] at hs
  obtain ⟨rfl, hset, henv⟩ := silent_assign hs
  obtain ⟨heap', stv', hex, hr', hcontents, hspares⟩ := hr.write heap hlt z
  obtain ⟨places', ho⟩ := hm.assign hK ha hn hp hv hset
  have hstack : s ++ [z].toArray = s.push z := Array.push_eq_append.symm
  rw [hstack]
  refine .put hdup (execute_dup ..) rfl (.step hwrite (hex ..) (.here ⟨[z], heap', ?_,
    one_iff.2 ⟨z, rfl, hv⟩, hr', ⟨places', ?_⟩, fun slot hw => hspares slot ?_⟩))
  · rw [hstack]
    rfl
  · rw [henv, hcontents]
    exact ho
  · intro h
    exact hw (by simp [h])

end Variables

/-! ## Conditions -/

/-- **A condition** and its two cases. -/
theorem carries_branch {condition value rest : Code} {x y z : Eval Value}
    {Fits : Value → List Float → Prop}
    (hx : K.Carries scope condition x One []) (hmx : Moves KeepsFaults x)
    (hy : K.Carries scope value y Fits []) (hmy : Moves KeepsFaults y)
    (hz : K.Carries scope rest z Fits []) (hmz : Moves KeepsFaults z) :
    K.Carries scope (branchCode condition value rest) (x >>= fun v =>
      match v with
      | .bool true => y
      | .bool false => z
      | v => if v.isInvalid then pure .invalid else Eval.fail (.nonBoolCondition v.kind)) Fits [] :=
  fun places => tracks_branch ((hx.imp fun _ _ => maybe_false.2) places) hmx
    (fun _ _ _ ha => hy.after ha fun _ hw => by simpa [branchCode] using hw.imp_right .inl) hmy
    (fun _ _ _ ha => hz.after ha fun _ hw => by simpa [branchCode] using hw.imp_right .inr) hmz

end Frozen

end FormulaLang.Bytecode
