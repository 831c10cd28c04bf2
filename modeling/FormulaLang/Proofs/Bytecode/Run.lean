import FormulaLang.Proofs.Bytecode.Step
import FormulaLang.Bytecode.Compile
import FormulaLang.Proofs.Range

/-!
# Runs of placed code

What a piece of code does is told by where runs from its beginning lead: each of them gets to a
machine of some kind, unless it stops before with a fault that is expected.

* `Placed`: a piece of code inside a program.
* `Leads`: every run gets to a machine of some kind, with `Leads.bind`, `Leads.put`, `Leads.pass`.
* `Leads.exists_runFor`: so does `runFor` with enough steps.
* **`leads_loopTest`**: the test of a loop tells whether its range goes on.
-/

namespace FormulaLang.Bytecode

/-! ## Placed code -/

/-- The code lies in a program from an address on. -/
def Placed (code : Array Instruction) : Nat → Code → Prop
  | _, [] => True
  | a, i :: piece => code[a]? = some i ∧ Placed code (a + 1) piece

section Placed

variable {code : Array Instruction} {a : Nat} {i : Instruction} {piece piece' : Code}

@[simp] theorem placed_nil : Placed code a [] := trivial

@[simp] theorem placed_cons :
    Placed code a (i :: piece) ↔ code[a]? = some i ∧ Placed code (a + 1) piece := Iff.rfl

@[simp] theorem placed_append :
    Placed code a (piece ++ piece') ↔
      Placed code a piece ∧ Placed code (a + piece.length) piece' := by
  induction piece generalizing a with
  | nil => simp
  | cons i piece ih =>
    rw [List.cons_append, placed_cons, placed_cons, ih, and_assoc, List.length_cons,
      Nat.add_right_comm, Nat.add_assoc]

theorem placed_toArray (pre piece : Code) : Placed (pre ++ piece).toArray pre.length piece := by
  induction piece generalizing pre with
  | nil => trivial
  | cons i piece ih =>
    refine ⟨by simp, ?_⟩
    simpa using ih (pre ++ [i])

theorem lt_of_placed (h : Placed code a piece) (hp : piece ≠ []) : a < code.size := by
  cases piece with
  | nil => exact (hp rfl).elim
  | cons i piece =>
    by_contra hn
    have hnone : code[a]? = none := Array.getElem?_eq_none (by omega)
    rw [h.1] at hnone
    cases hnone

theorem Placed.le_size (h : Placed code a piece) (ha : a ≤ code.size) :
    a + piece.length ≤ code.size := by
  induction piece generalizing a with
  | nil => simpa
  | cons i piece ih =>
    have := ih h.2 (lt_of_placed h (by simp))
    rw [List.length_cons]
    omega

end Placed

/-! ## Where runs lead -/

section Leads

variable (limit : Nat) (code : Array Instruction) (F : Fault → Prop)

/-- Every run from a machine and an engine gets to some of a kind, unless an instruction on the way
fails as expected. -/
inductive Leads (Q : Machine → Engine → Prop) : Machine → Engine → Prop where
  | here {m : Machine} {st : Engine} (h : Q m st) : Leads Q m st
  | fault {m : Machine} {st st' : Engine} {i : Instruction} {f : Fault}
      (hi : code[m.address]? = some i) (he : execute limit code.size i m st = (.error f, st'))
      (hf : F f) : Leads Q m st
  | step {m m' : Machine} {st st' : Engine} {i : Instruction}
      (hi : code[m.address]? = some i) (he : execute limit code.size i m st = (.ok m', st'))
      (h : Leads Q m' st') : Leads Q m st

variable {limit code F} {Q R : Machine → Engine → Prop} {m : Machine} {st st' : Engine}

namespace Leads

theorem bind (h : Leads limit code F Q m st)
    (hQ : ∀ m st, Q m st → Leads limit code F R m st) : Leads limit code F R m st := by
  induction h with
  | here h => exact hQ _ _ h
  | fault hi he hf => exact .fault hi he hf
  | step hi he _ ih => exact .step hi he ih

theorem mono (h : Leads limit code F Q m st) (hQ : ∀ m st, Q m st → R m st) :
    Leads limit code F R m st := h.bind fun m st h => .here (hQ m st h)

variable {a : Nat} {s t h : Array Float} {x : Float} {i : Instruction}

/-- An instruction that puts a number on the stack can only fail because the stack is full. -/
theorem put (hi : code[a]? = some i)
    (he : execute limit code.size i ⟨a, t, h⟩ st = (Machine.putNext limit x ⟨a, s, h⟩, st'))
    (hF : F .stackOverflow) (hn : Leads limit code F Q ⟨a + 1, s.push x, h⟩ st') :
    Leads limit code F Q ⟨a, t, h⟩ st := by
  by_cases hs : s.size < limit
  · rw [Machine.putNext_of_lt a h x hs] at he
    exact .step hi he hn
  · rw [Machine.putNext_of_le a h x (by omega)] at he
    exact .fault hi he hF

theorem write {slot : Nat} (hi : code[a]? = some (.writeSlot slot))
    (hn : Leads limit code F Q ⟨a + 1, s, setSlot h slot x⟩ st) :
    Leads limit code F Q ⟨a, s.push x, h⟩ st :=
  .step hi (execute_writeSlot ..) hn

theorem jump {o : Int} {b : Nat} (hi : code[a]? = some (.jump o)) (hb : (b : Int) = a + o)
    (hle : b ≤ code.size) (hn : Leads limit code F Q ⟨b, s, h⟩ st) :
    Leads limit code F Q ⟨a, s, h⟩ st :=
  .step hi (by rw [execute_jump, jumpTo_of_le s h hb hle]) hn

/-- A conditional jump leads to either of two addresses. -/
theorem jumpIf {o : Int} {b : Nat} {c : Bool} (hi : code[a]? = some (.jumpIf o))
    (hb : (b : Int) = a + o) (hle : b ≤ code.size) (hx : Number.isTrue x = c)
    (ht : c = true → Leads limit code F Q ⟨b, s, h⟩ st)
    (hf : c = false → Leads limit code F Q ⟨a + 1, s, h⟩ st) :
    Leads limit code F Q ⟨a, s.push x, h⟩ st := by
  have he := execute_jumpIf limit code.size a s h x st o
  rw [hx, jumpTo_of_le s h hb hle] at he
  cases c with
  | true => exact .step hi he (ht rfl)
  | false => exact .step hi he (hf rfl)

/-- Enough steps get where the runs lead. -/
theorem exists_runFor (h : Leads limit code F Q m st) (hend : ∀ m st, Q m st → code.size ≤ m.address) :
    ∃ n st', (∃ m', runFor limit code n m st = (some (.ok m'), st') ∧ Q m' st') ∨
      ∃ f, runFor limit code n m st = (some (.error f), st') ∧ F f := by
  induction h with
  | @here m st hq =>
    refine ⟨0, st, .inl ⟨m, ?_, hq⟩⟩
    rw [runFor, if_pos (hend m st hq)]
  | @fault m st st' i f hi he hf =>
    refine ⟨1, st', .inr ⟨f, ?_, hf⟩⟩
    rw [runFor, hi]
    simp only [he]
  | @step m m' st st' i hi he _ ih =>
    obtain ⟨n, st₁, hn⟩ := ih
    refine ⟨n + 1, st₁, ?_⟩
    rw [runFor, hi]
    simp only [he]
    exact hn

end Leads

end Leads

/-! ## Truth values -/

@[simp] theorem isTrue_ofBool (b : Bool) : Number.isTrue (Number.ofBool b) = b := by
  cases b <;> decide +kernel

@[simp] theorem unaryOn_not (b : Bool) :
    unaryOn .not (Number.ofBool b) = Number.ofBool !b := by
  rw [unaryOn, isTrue_ofBool]

/-! ## The head and the end of a loop -/

/-- The range that is left to a loop. -/
def LoopSlots.range (l : LoopSlots) (h : Array Float) : Range :=
  ⟨getSlot h l.position, getSlot h l.previous, getSlot h l.step, getSlot h l.stop⟩

/-- No two slots of a loop are the same, of those that the loop writes. -/
structure LoopSlots.Distinct (l : LoopSlots) : Prop where
  previous : l.previous ≠ l.position
  step : l.step ≠ l.position ∧ l.step ≠ l.previous
  stop : l.stop ≠ l.position ∧ l.stop ≠ l.previous

/-- The heap after a round of a loop. -/
def LoopSlots.advance (l : LoopSlots) (h : Array Float) : Array Float :=
  setSlot (setSlot h l.previous (getSlot h l.position)) l.position
    (getSlot h l.position + getSlot h l.step)

theorem LoopSlots.range_advance {l : LoopSlots} (hl : l.Distinct) (h : Array Float) :
    l.range (l.advance h) = (l.range h).advance := by
  unfold range advance Range.advance
  simp only [getSlot_setSlot_self, getSlot_setSlot_of_ne hl.previous,
    getSlot_setSlot_of_ne hl.step.1, getSlot_setSlot_of_ne hl.step.2,
    getSlot_setSlot_of_ne hl.stop.1, getSlot_setSlot_of_ne hl.stop.2]

theorem LoopSlots.getSlot_advance {l : LoopSlots} {slot : Nat} (h : Array Float)
    (hs : slot ≠ l.position ∧ slot ≠ l.previous) :
    getSlot (l.advance h) slot = getSlot h slot := by
  rw [advance, getSlot_setSlot_of_ne hs.1, getSlot_setSlot_of_ne hs.2]

section Loops

variable {limit : Nat} {code : Array Instruction} {F : Fault → Prop}
  {Q : Machine → Engine → Prop} {a : Nat} {s h : Array Float} {st : Engine}

theorem leads_finiteTest {slot : Nat} (hF : F .stackOverflow)
    (hp : Placed code a (finiteTest slot))
    (hn : Leads limit code F Q ⟨a + 5, s.push (Number.ofBool (getSlot h slot).isFinite), h⟩ st) :
    Leads limit code F Q ⟨a, s, h⟩ st := by
  simp only [finiteTest, placed_cons] at hp
  obtain ⟨h₁, h₂, h₃, h₄, h₅, -⟩ := hp
  refine .put h₁ (execute_readSlot ..) hF ?_
  refine .put h₂ (execute_readSlot ..) hF ?_
  refine .put h₃ (execute_arithmetic ..) hF ?_
  refine .put h₄ (execute_constant ..) hF ?_
  refine .put h₅ (execute_compare ..) hF ?_
  rw [← Number.isFinite_eq_sub] at hn
  exact hn

/-- **The test of a loop** puts one on the stack when the range that is left has no position. -/
theorem leads_loopTest {l : LoopSlots} (hF : F .stackOverflow) (hp : Placed code a (loopTest l))
    (hn : Leads limit code F Q
      ⟨a + (loopTest l).length, s.push (Number.ofBool !(l.range h).continues), h⟩ st) :
    Leads limit code F Q ⟨a, s, h⟩ st := by
  simp only [loopTest, placed_append, placed_cons] at hp
  obtain ⟨⟨hposition, hstop⟩, h₁, h₂, h₃, h₄, h₅, h₆, h₇, h₈, h₉, h₁₀, h₁₁, h₁₂, h₁₃, h₁₄, h₁₅, h₁₆,
    h₁₇, h₁₈, -⟩ := hp
  refine leads_finiteTest hF hposition ?_
  refine leads_finiteTest hF hstop ?_
  refine .put h₁ (execute_logical ..) hF ?_
  refine .put h₂ (execute_readSlot ..) hF ?_
  refine .put h₃ (execute_readSlot ..) hF ?_
  refine .put h₄ (execute_compare ..) hF ?_
  refine .put h₅ (execute_logical ..) hF ?_
  refine .put h₆ (execute_readSlot ..) hF ?_
  refine .put h₇ (execute_constant ..) hF ?_
  refine .put h₈ (execute_compare ..) hF ?_
  refine .put h₉ (execute_logical ..) hF ?_
  refine .put h₁₀ (execute_readSlot ..) hF ?_
  refine .put h₁₁ (execute_readSlot ..) hF ?_
  refine .put h₁₂ (execute_arithmetic ..) hF ?_
  refine .put h₁₃ (execute_readSlot ..) hF ?_
  refine .put h₁₄ (execute_arithmetic ..) hF ?_
  refine .put h₁₅ (execute_constant ..) hF ?_
  refine .put h₁₆ (execute_compare ..) hF ?_
  refine .put h₁₇ (execute_logical ..) hF ?_
  refine .put h₁₈ (execute_unary ..) hF ?_
  simp only [isTrue_ofBool, unaryOn_not, Machine.readSlot]
  exact hn

/-- The end of a round moves the loop on. -/
theorem leads_loopAdvance {l : LoopSlots} (hl : l.Distinct) (hF : F .stackOverflow)
    (hp : Placed code a (loopAdvance l))
    (hn : Leads limit code F Q ⟨a + (loopAdvance l).length, s, l.advance h⟩ st) :
    Leads limit code F Q ⟨a, s, h⟩ st := by
  simp only [loopAdvance, placed_cons] at hp
  obtain ⟨h₁, h₂, h₃, h₄, h₅, h₆, -⟩ := hp
  refine .put h₁ (execute_readSlot ..) hF ?_
  refine .write h₂ ?_
  refine .put h₃ (execute_readSlot ..) hF ?_
  refine .put h₄ (execute_readSlot ..) hF ?_
  refine .put h₅ (execute_arithmetic ..) hF ?_
  refine .write h₆ ?_
  have hposition := getSlot_setSlot_of_ne (h := h) (x := getSlot h l.position) hl.previous.symm
  have hstep := getSlot_setSlot_of_ne (h := h) (x := getSlot h l.position) hl.step.2
  have hm : ∀ a s h slot, Machine.readSlot slot ⟨a, s, h⟩ = getSlot h slot := fun _ _ _ _ => rfl
  simp only [hm, hposition, hstep]
  exact hn

variable {l : LoopSlots} {op : BinaryOp} {body : Code}

/-- The body of a loop and the operator behind it lie behind the test. -/
theorem Placed.of_loopCode (hp : Placed code a (loopCode l op body)) :
    Placed code (a + (loopTest l).length + 1) body ∧
      code[a + (loopTest l).length + 1 + body.length]? = some (.arithmetic op) := by
  simp only [loopCode, placed_append, placed_cons] at hp
  exact ⟨hp.1.2.2.1, hp.1.2.2.2.1⟩

/-- What a loop does not write, neither its body nor the end of a round writes. -/
theorem not_mem_of_loopCode {slot : Nat} (hm : .writeSlot slot ∉ loopCode l op body)
    (h : Array Float) :
    .writeSlot slot ∉ body ∧ getSlot (l.advance h) slot = getSlot h slot := by
  have hposition : slot ≠ l.position := fun h => hm (by simp [loopCode, loopAdvance, h])
  have hprevious : slot ≠ l.previous := fun h => hm (by simp [loopCode, loopAdvance, h])
  exact ⟨fun hw => hm (by simp [loopCode, hw]),
    LoopSlots.getSlot_advance h ⟨hposition, hprevious⟩⟩

/-- At the head of a loop runs go on behind it or with its body. -/
theorem leads_loopHead (hF : F .stackOverflow) (hp : Placed code a (loopCode l op body))
    (hexit : (l.range h).continues = false →
      Leads limit code F Q ⟨a + (loopCode l op body).length, s, h⟩ st)
    (hbody : (l.range h).continues = true →
      Leads limit code F Q ⟨a + (loopTest l).length + 1, s, h⟩ st) :
    Leads limit code F Q ⟨a, s, h⟩ st := by
  have hsize := hp.le_size (lt_of_placed hp (by simp [loopCode, loopTest, finiteTest])).le
  simp only [loopCode, placed_append, placed_cons] at hp
  obtain ⟨⟨htest, hjump, -⟩, -⟩ := hp
  refine leads_loopTest hF htest ?_
  refine .jumpIf hjump (b := a + (loopCode l op body).length) ?_ hsize (isTrue_ofBool _) ?_ ?_
  · simp only [loopCode, List.length_append, List.length_cons, List.length_nil]
    omega
  · intro hc
    rw [Bool.not_eq_true'] at hc
    exact hexit hc
  · intro hc
    rw [Bool.not_eq_false'] at hc
    exact hbody hc

/-- Behind the operator a round of a loop ends, and runs go on at the head. -/
theorem leads_loopBack (hl : l.Distinct) (hF : F .stackOverflow)
    (hp : Placed code a (loopCode l op body)) (hn : Leads limit code F Q ⟨a, s, l.advance h⟩ st) :
    Leads limit code F Q ⟨a + (loopTest l).length + 1 + body.length + 1, s, h⟩ st := by
  have hsize := hp.le_size (lt_of_placed hp (by simp [loopCode, loopTest, finiteTest])).le
  simp only [loopCode, placed_append, placed_cons] at hp
  obtain ⟨⟨-, -, -, -, hadvance⟩, hback, -⟩ := hp
  refine leads_loopAdvance hl hF hadvance ?_
  have hend : a + (loopTest l ++ .jumpIf (((body ++ .arithmetic op :: loopAdvance l).length : Int)
      + 2) :: (body ++ .arithmetic op :: loopAdvance l)).length =
      a + (loopTest l).length + 1 + body.length + 1 + (loopAdvance l).length := by
    simp only [List.length_append, List.length_cons]
    omega
  rw [hend] at hback
  refine .jump hback (b := a) ?_ (le_trans (Nat.le_add_right _ _) hsize) hn
  simp only [List.length_append, List.length_cons]
  omega

end Loops

end FormulaLang.Bytecode
