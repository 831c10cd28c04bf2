import FormulaLang.Bytecode.Machine
import Mathlib.Logic.Relation
import Mathlib.Tactic.SplitIfs

/-!
# Steps of the machine

What an instruction does to the address and to the height of the stack does not depend on the
numbers. Four tables say it, and one theorem says that `execute` keeps to them.

* `Instruction.pops`, `Instruction.pushes`: how many numbers are taken and put back.
* `Instruction.leaps`, `Instruction.slot?`: how far away the run goes on, and the slot in use.
* `RunFault`: the faults that do not come from the code alone.
* `getSlot`, `setSlot`: the slots of a heap.
* **`execute_spec`**, `execute_ok`: one instruction.
* `Step`, `Reaches`: some instructions, with `runFor_reaches` and `runFor_none`.
-/

namespace FormulaLang.Bytecode

/-! ## Jumps -/

section Jumps

variable (limit n a : Nat) (s h : Array Float) (st : Engine)

theorem execute_jump (offset : Int) (m : Machine) :
    execute limit n (.jump offset) m st = (m.jumpTo n offset, st) := by
  rw [execute]

variable {n a} in
theorem jumpTo_of_le {offset : Int} {b : Nat} (hb : (b : Int) = a + offset) (hn : b ≤ n) :
    Machine.jumpTo n offset ⟨a, s, h⟩ = .ok ⟨b, s, h⟩ := by
  have : ((⟨a, s, h⟩ : Machine).address : Int) + offset = b := hb.symm
  rw [Machine.jumpTo, this]
  simp [hn]

end Jumps

/-! ## What an instruction needs -/

namespace Instruction

/-- How many numbers an instruction takes from the stack. -/
@[simp] def pops : Instruction → Nat
  | constant _ | readCell _ | readSlot _ | jump _ => 0
  | writeCell _ | writeSlot _ | unary _ | dup | pop | jumpIf _ => 1
  | arithmetic _ | compare _ | logical _ => 2
  | callPlain f => f.arity
  | callContext f => f.arity
  | call _ arity => arity

/-- How many numbers an instruction puts on the stack after that. -/
@[simp] def pushes : Instruction → Nat
  | writeCell _ | writeSlot _ | pop | jump _ | jumpIf _ => 0
  | dup => 2
  | _ => 1

/-- How far away the run can go on. -/
@[simp] def leaps : Instruction → List Int
  | jump offset => [offset]
  | jumpIf offset => [1, offset]
  | _ => [1]

/-- The heap slot that an instruction reads or writes. -/
def slot? : Instruction → Option Nat
  | readSlot slot | writeSlot slot => some slot
  | _ => none

end Instruction

/-- A full stack, or a called function whose result is no number. -/
def RunFault (f : Fault) : Prop := f = .stackOverflow ∨ ∃ name kind, f = .functionResult name kind

/-! ## The stack -/

namespace Machine

variable (limit a : Nat) (s h : Array Float) (x y : Float)

/-- Pushes a number and goes on with the next instruction. -/
def putNext (m : Machine) : Except Fault Machine := (m.push limit x).map (·.next)

variable {limit s} in
theorem putNext_of_lt (hs : s.size < limit) :
    putNext limit x ⟨a, s, h⟩ = .ok ⟨a + 1, s.push x, h⟩ := by
  rw [putNext, push, if_neg (by simpa using hs)]
  rfl

variable {limit s} in
theorem putNext_of_le (hs : limit ≤ s.size) : putNext limit x ⟨a, s, h⟩ = .error .stackOverflow := by
  rw [putNext, push, if_pos hs]
  rfl

@[simp] theorem pop_push : pop ⟨a, s.push x, h⟩ = .ok (x, ⟨a, s, h⟩) := by
  simp [pop]

theorem onTop_push (f : Float → Float) :
    onTop limit f ⟨a, s.push x, h⟩ = push limit (f x) ⟨a, s, h⟩ := by
  rw [onTop, pop_push]
  rfl

theorem onTopTwo_push (f : Float → Float → Float) :
    onTopTwo limit f ⟨a, (s.push x).push y, h⟩ = push limit (f x y) ⟨a, s, h⟩ := by
  rw [onTopTwo, pop_push]
  show (pop ⟨a, s.push x, h⟩ >>= _) = _
  rw [pop_push]
  rfl

theorem popArgs_append (args : List Float) :
    popArgs args.length ⟨a, s ++ args.toArray, h⟩ = .ok (args, ⟨a, s, h⟩) := by
  rw [popArgs, if_neg (by simp)]
  simp [Array.extract_append, Array.take_eq_extract]

end Machine

/-! ## The heap -/

/-- What a slot of a heap holds. -/
def getSlot (h : Array Float) (slot : Nat) : Float := h.getD slot Number.nan

/-- A heap with another number in a slot. -/
def setSlot (h : Array Float) (slot : Nat) (x : Float) : Array Float :=
  if slot < h.size then h.setIfInBounds slot x
  else (h ++ Array.replicate (slot - h.size) Number.nan).push x

section Heap

variable (h : Array Float) (slot : Nat) (x : Float)

theorem getSlot_setSlot (other : Nat) :
    getSlot (setSlot h slot x) other = if other = slot then x else getSlot h other := by
  unfold getSlot setSlot
  simp only [Array.getD_eq_getD_getElem?]
  by_cases hs : slot < h.size
  · rw [if_pos hs, Array.getElem?_setIfInBounds]
    by_cases ho : other = slot
    · rw [if_pos ho.symm, if_pos ho, if_pos (ho ▸ hs)]
      rfl
    · rw [if_neg (Ne.symm ho), if_neg ho]
  · rw [if_neg hs, Array.getElem?_push, Array.size_append, Array.size_replicate]
    by_cases ho : other = slot
    · rw [if_pos (by omega), if_pos ho]
      rfl
    · rw [if_neg (by omega), if_neg ho, Array.getElem?_append]
      by_cases hb : other < h.size
      · rw [if_pos hb]
      · rw [if_neg hb, Array.getElem?_replicate, Array.getElem?_eq_none (by omega)]
        split <;> rfl

theorem getSlot_setSlot_self : getSlot (setSlot h slot x) slot = x := by
  rw [getSlot_setSlot, if_pos rfl]

variable {h slot x} in
theorem getSlot_setSlot_of_ne {other : Nat} (hne : other ≠ slot) :
    getSlot (setSlot h slot x) other = getSlot h other := by
  rw [getSlot_setSlot, if_neg hne]

theorem writeSlot_mk (a : Nat) (s : Array Float) :
    Machine.writeSlot slot x ⟨a, s, h⟩ = ⟨a, s, setSlot h slot x⟩ := by
  unfold Machine.writeSlot setSlot
  dsimp only
  split_ifs <;> rfl

end Heap

/-! ## One instruction -/

section Execute

variable (limit n a : Nat) (s h : Array Float) (x y : Float) (st : Engine)

theorem execute_constant (m : Machine) :
    execute limit n (.constant x) m st = (m.putNext limit x, st) := rfl

theorem execute_readCell (cell : Nat) (m : Machine) :
    execute limit n (.readCell cell) m st = (m.putNext limit (st.env.store.number cell), st) := rfl

theorem execute_readSlot (slot : Nat) (m : Machine) :
    execute limit n (.readSlot slot) m st = (m.putNext limit (m.readSlot slot), st) := rfl

theorem execute_writeCell (cell : Nat) :
    execute limit n (.writeCell cell) ⟨a, s.push x, h⟩ st = (.ok ⟨a + 1, s, h⟩,
      { st with env := { st.env with store := st.env.store.setNumber cell x } }) := by
  rw [execute, Machine.pop_push]
  rfl

theorem execute_writeSlot (slot : Nat) :
    execute limit n (.writeSlot slot) ⟨a, s.push x, h⟩ st =
      (.ok ⟨a + 1, s, setSlot h slot x⟩, st) := by
  rw [execute, Machine.pop_push]
  simp only [Except.map, writeSlot_mk]
  rfl

theorem execute_arithmetic (op : BinaryOp) :
    execute limit n (.arithmetic op) ⟨a, (s.push x).push y, h⟩ st =
      (Machine.putNext limit (op.apply x y) ⟨a, s, h⟩, st) := by
  rw [execute, Machine.onTopTwo_push]
  rfl

theorem execute_compare (op : CompareOp) :
    execute limit n (.compare op) ⟨a, (s.push x).push y, h⟩ st =
      (Machine.putNext limit (Number.ofBool (op.onNumbers x y)) ⟨a, s, h⟩, st) := by
  rw [execute, Machine.onTopTwo_push]
  rfl

theorem execute_logical (op : LogicalOp) :
    execute limit n (.logical op) ⟨a, (s.push x).push y, h⟩ st =
      (Machine.putNext limit
        (Number.ofBool (op.apply (Number.isTrue x) (Number.isTrue y))) ⟨a, s, h⟩, st) := by
  rw [execute, Machine.onTopTwo_push]
  rfl

theorem execute_unary (op : UnaryOp) :
    execute limit n (.unary op) ⟨a, s.push x, h⟩ st =
      (Machine.putNext limit (unaryOn op x) ⟨a, s, h⟩, st) := by
  rw [execute, Machine.onTop_push]
  rfl

theorem execute_dup :
    execute limit n .dup ⟨a, s.push x, h⟩ st = (Machine.putNext limit x ⟨a, s.push x, h⟩, st) := by
  simp only [execute, Array.back?_push]
  rfl

theorem execute_pop : execute limit n .pop ⟨a, s.push x, h⟩ st = (.ok ⟨a + 1, s, h⟩, st) := by
  rw [execute, Machine.pop_push]
  rfl

theorem execute_jumpIf (offset : Int) :
    execute limit n (.jumpIf offset) ⟨a, s.push x, h⟩ st =
      (if Number.isTrue x then Machine.jumpTo n offset ⟨a, s, h⟩ else .ok ⟨a + 1, s, h⟩, st) := by
  rw [execute, Machine.pop_push]
  rfl

theorem execute_callPlain (f : FastPath Float) (args : List Float) (hf : f.arity = args.length) :
    execute limit n (.callPlain f) ⟨a, s ++ args.toArray, h⟩ st =
      (Machine.putNext limit (f.run args) ⟨a, s, h⟩, st) := by
  simp only [execute, hf, Machine.popArgs_append]
  rfl

theorem execute_callContext (f : FastPath (Request Float)) (args : List Float)
    (hf : f.arity = args.length) :
    execute limit n (.callContext f) ⟨a, s ++ args.toArray, h⟩ st =
      (Machine.putNext limit ((f.run args).perform Engine.run st).1 ⟨a, s, h⟩,
        ((f.run args).perform Engine.run st).2) := by
  simp only [execute, hf, Machine.popArgs_append]
  rfl

theorem execute_call (name : String) (args : List Float) :
    execute limit n (.call name args.length) ⟨a, s ++ args.toArray, h⟩ st =
      (callResult name (Engine.call name (args.map .number) st).1 >>= fun x =>
        Machine.putNext limit x ⟨a, s, h⟩, (Engine.call name (args.map .number) st).2) := by
  simp only [execute, Machine.popArgs_append]
  generalize Engine.call name (args.map .number) st = r
  obtain ⟨v, st'⟩ := r
  dsimp only
  cases callResult name v <;> rfl

end Execute

/-! ## Every instruction -/

/-- What a step leads to: a machine of one kind or a fault of another. -/
def Outcome (P : Machine → Prop) (F : Fault → Prop) : Except Fault Machine → Prop
  | .ok m => P m
  | .error f => F f

section Spec

variable {limit n a : Nat} {s h : Array Float} {P : Machine → Prop} {F : Fault → Prop}

theorem outcome_putNext {x : Float} (hm : P ⟨a + 1, s.push x, h⟩) (hf : F .stackOverflow) :
    Outcome P F (Machine.putNext limit x ⟨a, s, h⟩) := by
  by_cases hs : s.size < limit
  · rw [Machine.putNext_of_lt a h x hs]
    exact hm
  · rw [Machine.putNext_of_le a h x (by omega)]
    exact hf

theorem outcome_jumpTo {offset : Int}
    (hm : ∀ b : Nat, (b : Int) = a + offset → b ≤ n → P ⟨b, s, h⟩)
    (hf : ¬ (∃ b : Nat, (b : Int) = a + offset ∧ b ≤ n) → F (.invalidJump a)) :
    Outcome P F (Machine.jumpTo n offset ⟨a, s, h⟩) := by
  by_cases hb : ∃ b : Nat, (b : Int) = a + offset ∧ b ≤ n
  · obtain ⟨b, hb, hn⟩ := hb
    rw [jumpTo_of_le s h hb hn]
    exact hm b hb hn
  · have hr : ¬ (0 ≤ (a : Int) + offset ∧ (a : Int) + offset ≤ n) := fun hr =>
      hb ⟨((a : Int) + offset).toNat, by omega, by omega⟩
    rw [Machine.jumpTo, if_neg hr]
    exact hf hb

theorem exists_push_of_one_le (hs : 1 ≤ s.size) :
    ∃ (t : Array Float) (x : Float), s = t.push x :=
  Array.exists_push_of_size_pos hs

theorem exists_push_push_of_two_le (hs : 2 ≤ s.size) :
    ∃ (t : Array Float) (x y : Float), s = (t.push x).push y := by
  have h₁ : 1 ≤ s.size := by omega
  obtain ⟨t, y, rfl⟩ := exists_push_of_one_le h₁
  rw [Array.size_push] at hs
  obtain ⟨u, x, rfl⟩ := exists_push_of_one_le (s := t) (by omega)
  exact ⟨u, x, y, rfl⟩

theorem exists_append_of_le {k : Nat} (hs : k ≤ s.size) :
    ∃ (t : Array Float) (args : List Float), args.length = k ∧ s = t ++ args.toArray := by
  refine ⟨s.take (s.size - k), (s.extract (s.size - k) s.size).toList, ?_, ?_⟩
  · simp
    omega
  · rw [Array.take_eq_extract, Array.toArray_toList, Array.extract_append_extract]
    simp

variable (limit n a h) in
/-- **One instruction.** If the stack is high enough, it changes its height as the tables say, goes
on at one of the leaps and keeps the slots that it does not write. It can fail by a leap out of the
code and by a `RunFault`. -/
theorem execute_spec {i : Instruction} (st : Engine) (hs : i.pops ≤ s.size) :
    Outcome
      (fun m => m.stack.size + i.pops = s.size + i.pushes ∧
        (∃ o ∈ i.leaps, (m.address : Int) = a + o) ∧
        ∀ slot, i ≠ .writeSlot slot → getSlot m.heap slot = getSlot h slot)
      (fun f => RunFault f ∨
        f = .invalidJump a ∧ ∃ o ∈ i.leaps, ¬ ∃ b : Nat, (b : Int) = a + o ∧ b ≤ n)
      (execute limit n i ⟨a, s, h⟩ st).1 := by
  have full : RunFault .stackOverflow := .inl rfl
  cases i with
  | constant x => exact outcome_putNext (by simp) (.inl full)
  | readCell cell => exact outcome_putNext (by simp) (.inl full)
  | readSlot slot => exact outcome_putNext (by simp) (.inl full)
  | writeCell cell =>
    obtain ⟨t, x, rfl⟩ := exists_push_of_one_le hs
    rw [execute_writeCell]
    simp [Outcome]
  | writeSlot slot =>
    obtain ⟨t, x, rfl⟩ := exists_push_of_one_le hs
    rw [execute_writeSlot]
    refine ⟨by simp, by simp, fun other hne => ?_⟩
    exact getSlot_setSlot_of_ne fun h => hne (h ▸ rfl)
  | arithmetic op =>
    obtain ⟨t, x, y, rfl⟩ := exists_push_push_of_two_le hs
    rw [execute_arithmetic]
    exact outcome_putNext (by simp) (.inl full)
  | compare op =>
    obtain ⟨t, x, y, rfl⟩ := exists_push_push_of_two_le hs
    rw [execute_compare]
    exact outcome_putNext (by simp) (.inl full)
  | logical op =>
    obtain ⟨t, x, y, rfl⟩ := exists_push_push_of_two_le hs
    rw [execute_logical]
    exact outcome_putNext (by simp) (.inl full)
  | unary op =>
    obtain ⟨t, x, rfl⟩ := exists_push_of_one_le hs
    rw [execute_unary]
    exact outcome_putNext (by simp) (.inl full)
  | dup =>
    obtain ⟨t, x, rfl⟩ := exists_push_of_one_le hs
    rw [execute_dup]
    exact outcome_putNext (by simp) (.inl full)
  | pop =>
    obtain ⟨t, x, rfl⟩ := exists_push_of_one_le hs
    rw [execute_pop]
    simp [Outcome]
  | jump offset =>
    exact outcome_jumpTo
      (fun b hb hn => by simpa using hb)
      (fun hb => .inr ⟨rfl, offset, by simp, hb⟩)
  | jumpIf offset =>
    obtain ⟨t, x, rfl⟩ := exists_push_of_one_le hs
    rw [execute_jumpIf]
    dsimp only
    split
    · exact outcome_jumpTo
        (fun b hb hn => by simp [hb])
        (fun hb => .inr ⟨rfl, offset, by simp, hb⟩)
    · simp [Outcome]
  | callPlain f =>
    obtain ⟨t, args, hf, rfl⟩ := exists_append_of_le hs
    rw [execute_callPlain _ _ _ _ _ _ _ _ hf.symm]
    exact outcome_putNext (by simp at hf ⊢; omega) (.inl full)
  | callContext f =>
    obtain ⟨t, args, hf, rfl⟩ := exists_append_of_le hs
    rw [execute_callContext _ _ _ _ _ _ _ _ hf.symm]
    exact outcome_putNext (by simp at hf ⊢; omega) (.inl full)
  | call name k =>
    obtain ⟨t, args, hf, rfl⟩ := exists_append_of_le hs
    cases hf
    rw [execute_call]
    generalize (Engine.call name (args.map .number) st).1 = v
    cases hv : callResult name v with
    | ok x => exact outcome_putNext (by simp; omega) (.inl full)
    | error f =>
      refine .inl (.inr ⟨name, v.kind, ?_⟩)
      cases v <;> cases hv <;> rfl

variable (limit n a h) in
/-- Without enough numbers on the stack an instruction fails. -/
theorem execute_of_lt {i : Instruction} (st : Engine) (hs : s.size < i.pops) :
    ∃ f, (execute limit n i ⟨a, s, h⟩ st).1 = .error f := by
  cases i with
  | constant | readCell | readSlot | jump => exact absurd hs (Nat.not_lt_zero _)
  | writeCell | writeSlot | unary | dup | pop | jumpIf =>
    obtain rfl : s = #[] := Array.size_eq_zero_iff.1 (Nat.lt_one_iff.1 hs)
    exact ⟨_, rfl⟩
  | arithmetic | compare | logical =>
    by_cases h₀ : s.size = 0
    · obtain rfl : s = #[] := Array.size_eq_zero_iff.1 h₀
      exact ⟨_, rfl⟩
    · obtain ⟨t, x, rfl⟩ := exists_push_of_one_le (Nat.one_le_iff_ne_zero.2 h₀)
      simp only [Instruction.pops, Array.size_push] at hs
      obtain rfl : t = #[] := Array.size_eq_zero_iff.1 (by omega)
      exact ⟨_, rfl⟩
  | callPlain | callContext | call =>
    refine ⟨.stackUnderflow, ?_⟩
    simp only [Instruction.pops] at hs
    simp only [execute, Machine.popArgs, if_pos hs]

/-- An instruction that does not fail goes on at one of its leaps and keeps the slots that it does
not write. -/
theorem execute_ok {i : Instruction} {m m' : Machine} {st st' : Engine}
    (he : execute limit n i m st = (.ok m', st')) :
    (∃ o ∈ i.leaps, (m'.address : Int) = m.address + o) ∧
      ∀ slot, i ≠ .writeSlot slot → getSlot m'.heap slot = getSlot m.heap slot := by
  rcases Nat.lt_or_ge m.stack.size i.pops with hs | hs
  · obtain ⟨f, hf⟩ := execute_of_lt limit n m.address m.heap st hs
    rw [show execute limit n i ⟨m.address, m.stack, m.heap⟩ st = _ from he] at hf
    cases hf
  · have hx := execute_spec limit n m.address m.heap st hs
    rw [show execute limit n i ⟨m.address, m.stack, m.heap⟩ st = _ from he] at hx
    exact hx.2

end Spec

/-! ## Some instructions -/

/-- One instruction that does not fail. -/
def Step (limit : Nat) (code : Array Instruction) (c d : Machine × Engine) : Prop :=
  ∃ i, code[c.1.address]? = some i ∧ execute limit code.size i c.1 c.2 = (.ok d.1, d.2)

/-- Some instructions that do not fail. -/
abbrev Reaches (limit : Nat) (code : Array Instruction) : Machine × Engine → Machine × Engine → Prop :=
  Relation.ReflTransGen (Step limit code)

section Runs

variable {limit : Nat} {code : Array Instruction}

/-- A run that stops has reached a machine behind the code, or one whose instruction fails. -/
theorem runFor_reaches {n : Nat} {m : Machine} {st st' : Engine} {r : Except Fault Machine}
    (h : runFor limit code n m st = (some r, st')) :
    ∃ m₁ st₁, Reaches limit code (m, st) (m₁, st₁) ∧
      ((r = .ok m₁ ∧ st' = st₁ ∧ code.size ≤ m₁.address) ∨
        ∃ i f, code[m₁.address]? = some i ∧ r = .error f ∧
          execute limit code.size i m₁ st₁ = (.error f, st')) := by
  induction n generalizing m st with
  | zero =>
    simp only [runFor] at h
    split at h
    · next hm =>
      cases h
      exact ⟨m, _, .refl, .inl ⟨rfl, rfl, hm⟩⟩
    · cases h
  | succ n ih =>
    simp only [runFor] at h
    split at h
    · next hi =>
      cases h
      exact ⟨m, _, .refl, .inl ⟨rfl, rfl, by simpa using hi⟩⟩
    · next i hi =>
      split at h
      · next m₂ st₂ he =>
        obtain ⟨m₁, st₁, hr, hc⟩ := ih h
        exact ⟨m₁, st₁, .head ⟨i, hi, he⟩ hr, hc⟩
      · next f st₂ he =>
        cases h
        exact ⟨m, st, .refl, .inr ⟨i, f, hi, rfl, he⟩⟩

end Runs

end FormulaLang.Bytecode
