import FormulaLang.Proofs.Bytecode.SlotUse

/-!
# Stack heights

Every address of compiled code has one stack height, whichever way the run gets there. Heights are
put together like the code: from the heights of the parts.

* `Fits`: an instruction agrees with the heights at its address and at its leaps.
* `Steady`, `Raises`: code that agrees with some heights, and where they begin and end.
* `Lowered.raises`: the code of a tree leaves one number more.
* `Balanced`: the height of a machine is that of its address, with `Balanced.step`.
* **`exists_height_of_compile`**: compiled programs are safe to run.
-/

namespace FormulaLang.Bytecode

/-! ## Heights of code -/

/-- The stack is high enough for the instruction, and every leap leads into code of length `n` or to
its end, to an address whose height is what the instruction leaves. -/
def Fits (height : Nat → Nat) (n a : Nat) (i : Instruction) : Prop :=
  i.pops ≤ height a ∧
    ∀ o ∈ i.leaps, ∃ b ≤ n, (b : Int) = a + o ∧ height b + i.pops = height a + i.pushes

/-- Code placed at an address fits. -/
def Steady (height : Nat → Nat) (n : Nat) : Nat → Code → Prop
  | _, [] => True
  | a, i :: code => Fits height n a i ∧ Steady height n (a + 1) code

/-- Code that is entered at the height `k` and left at the height `l`. -/
def Raises (code : Code) (k l : Nat) : Prop :=
  ∃ height : Nat → Nat, height 0 = k ∧ height code.length = l ∧ Steady height code.length 0 code

section Steady

variable {height height' : Nat → Nat} {n n' a d k l m : Nat} {code code' : Code} {i : Instruction}

@[simp] theorem steady_nil : Steady height n a [] := trivial

@[simp] theorem steady_cons :
    Steady height n a (i :: code) ↔ Fits height n a i ∧ Steady height n (a + 1) code := Iff.rfl

@[simp] theorem steady_append : Steady height n a (code ++ code') ↔
    Steady height n a code ∧ Steady height n (a + code.length) code' := by
  induction code generalizing a with
  | nil => simp
  | cons i code ih =>
    rw [List.cons_append, steady_cons, steady_cons, ih, and_assoc, List.length_cons,
      Nat.add_right_comm, Nat.add_assoc]

theorem Steady.fits (h : Steady height n a code) {j : Nat} (hj : code[j]? = some i) :
    Fits height n (a + j) i := by
  induction code generalizing a j with
  | nil => simp at hj
  | cons i' code ih =>
    cases j with
    | zero =>
      cases hj
      exact h.1
    | succ j =>
      have := ih h.2 (j := j) (by simpa using hj)
      rwa [Nat.add_right_comm] at this

/-- Code that fits by itself fits wherever it is placed, with its heights. -/
theorem Steady.place (h : Steady height n a code) (ha : a + code.length ≤ n)
    (hd : ∀ b ≤ n, height' (b + d) = height b) (hn : n + d ≤ n') :
    Steady height' n' (a + d) code := by
  induction code generalizing a with
  | nil => trivial
  | cons i code ih =>
    rw [List.length_cons] at ha
    refine ⟨⟨?_, fun o ho => ?_⟩, ?_⟩
    · rw [hd a (by omega)]
      exact h.1.1
    · obtain ⟨b, hb, hba, hh⟩ := h.1.2 o ho
      refine ⟨b + d, by omega, by omega, ?_⟩
      rw [hd a (by omega), hd b hb]
      exact hh
    · have := ih h.2 (by omega)
      rwa [Nat.add_right_comm] at this

/-- An instruction that goes on with the next one fits by its tables. -/
theorem fits_of_leaps (hl : i.leaps = [1]) (ha : a < n) (hk : i.pops ≤ height a)
    (hh : height (a + 1) + i.pops = height a + i.pushes) : Fits height n a i := by
  refine ⟨hk, fun o ho => ⟨a + 1, ha, ?_, hh⟩⟩
  rw [hl, List.mem_singleton] at ho
  rw [ho]
  rfl

theorem raises_of_steady (hn : code.length = n) (h₀ : height 0 = k) (h₁ : height n = l)
    (hs : Steady height n 0 code) : Raises code k l := by
  subst hn
  exact ⟨height, h₀, h₁, hs⟩

theorem raises_nil : Raises [] k k := ⟨fun _ => k, rfl, rfl, trivial⟩

/-- Two heights put behind one another, the second from the end of the first. -/
theorem exists_join (f g : Nat → Nat) (h : f n = g 0) :
    ∃ height : Nat → Nat, (∀ b ≤ n, height b = f b) ∧ ∀ b, height (b + n) = g b := by
  refine ⟨fun a => if a ≤ n then f a else g (a - n), fun b hb => if_pos hb, fun b => ?_⟩
  by_cases hb : b = 0
  · simp [hb, h]
  · dsimp only
    rw [if_neg (by omega), Nat.add_sub_cancel]

/-- Two heights put behind one another, the second from the address after the first. -/
theorem exists_glue (f g : Nat → Nat) (n : Nat) :
    ∃ height : Nat → Nat, (∀ b ≤ n, height b = f b) ∧ ∀ b, height (b + (n + 1)) = g b := by
  refine ⟨fun a => if a ≤ n then f a else g (a - (n + 1)), fun b hb => if_pos hb, fun b => ?_⟩
  dsimp only
  rw [if_neg (by omega), Nat.add_sub_cancel]

theorem Raises.append (h : Raises code k l) (h' : Raises code' l m) :
    Raises (code ++ code') k m := by
  obtain ⟨f, f₀, f₁, hf⟩ := h
  obtain ⟨g, g₀, g₁, hg⟩ := h'
  obtain ⟨height, h₁, h₂⟩ := exists_join f g (f₁.trans g₀.symm)
  have hstart : height 0 = k := by rw [h₁ 0 (Nat.zero_le _), f₀]
  have hend : height (code'.length + code.length) = m := by rw [h₂, g₁]
  refine raises_of_steady ?_ hstart hend (steady_append.2 ⟨?_, ?_⟩)
  · rw [List.length_append, Nat.add_comm]
  · exact hf.place (d := 0) (by omega) h₁ (by omega)
  · rw [Nat.add_comm]
    exact hg.place (by omega) (fun b _ => h₂ b) (by omega)

/-- One instruction that goes on with the next one. -/
theorem raises_singleton (hl : i.leaps = [1]) (hk : i.pops ≤ k) (h : l + i.pops = k + i.pushes) :
    Raises [i] k l :=
  ⟨fun a => if a = 0 then k else l, rfl, rfl, fits_of_leaps hl (by simp) hk h, trivial⟩

theorem raises_cons (hl : i.leaps = [1]) (hk : i.pops ≤ k) (h : l + i.pops = k + i.pushes)
    (hc : Raises code l m) : Raises (i :: code) k m := (raises_singleton hl hk h).append hc

/-- The height behind code without jumps. -/
def straight? : Code → Nat → Option Nat
  | [], k => some k
  | i :: code, k => if i.leaps = [1] ∧ i.pops ≤ k then straight? code (k - i.pops + i.pushes) else none

theorem raises_of_straight (h : straight? code k = some l) : Raises code k l := by
  induction code generalizing k with
  | nil =>
    cases h
    exact raises_nil
  | cons i code ih =>
    rw [straight?] at h
    split at h
    · next hi => exact raises_cons hi.1 hi.2 (by omega) (ih h)
    · cases h

end Steady

/-! ## Conditions and loops -/

section Pieces

variable {k l : Nat}

theorem raises_branchCode {condition value rest : Code} (hc : Raises condition k (k + 1))
    (hv : Raises value k (k + 1)) (hr : Raises rest k (k + 1)) :
    Raises (branchCode condition value rest) k (k + 1) := by
  obtain ⟨f, f₀, f₁, hf⟩ := hv
  obtain ⟨g, g₀, g₁, hg⟩ := hr
  obtain ⟨tail, t₁, t₂⟩ := exists_glue f g value.length
  obtain ⟨height, h₀, h₁⟩ := exists_glue (fun _ => k + 1) tail 0
  have h₀ := h₀ 0 (Nat.le_refl 0)
  have hvalue : ∀ b ≤ value.length, height (b + 1) = f b := fun b hb => (h₁ b).trans (t₁ b hb)
  have hrest : ∀ b, height (b + (value.length + 2)) = g b := fun b => (h₁ _).trans (t₂ b)
  have hleave : height (value.length + 1) = k + 1 := by rw [hvalue _ (Nat.le_refl _), f₁]
  have hend : height (rest.length + (value.length + 2)) = k + 1 := by rw [hrest, g₁]
  have hbranch : Raises
      (.jumpIf (value.length + 2) :: (value ++ .jump (rest.length + 1) :: rest)) (k + 1) (k + 1) := by
    refine raises_of_steady (n := rest.length + (value.length + 2)) ?_ h₀ hend
      ⟨⟨by simp [h₀], fun o ho => ?_⟩, steady_append.2 ⟨?_, steady_cons.2 ⟨⟨by simp,
        fun o ho => ?_⟩, ?_⟩⟩⟩
    · simp only [List.length_cons, List.length_append]
      omega
    · simp only [Instruction.leaps, List.mem_cons, List.not_mem_nil, or_false] at ho
      rcases ho with rfl | rfl
      · exact ⟨0 + 1, by omega, rfl, by rw [hvalue 0 (Nat.zero_le _), f₀, h₀]; rfl⟩
      · exact ⟨0 + (value.length + 2), by omega, by omega, by rw [hrest, h₀, g₀]; rfl⟩
    · exact hf.place (d := 1) (by omega) hvalue (by omega)
    · simp only [Instruction.leaps, List.mem_singleton] at ho
      subst ho
      refine ⟨rest.length + (value.length + 2), by omega, by omega, ?_⟩
      rw [hend, Nat.zero_add, Nat.add_comm 1, hleave]
      rfl
    · have := hg.place (d := value.length + 2) (by omega) (fun b _ => hrest b) (Nat.le_refl _)
      rwa [show 0 + (value.length + 2) = 0 + 1 + value.length + 1 by omega] at this
  have hnot : Raises [.unary .not] (k + 1) (k + 1) := raises_singleton rfl (by simp) rfl
  simpa [branchCode] using (hc.append hnot).append hbranch

theorem raises_loopTest (s : LoopSlots) : Raises (loopTest s) k (k + 1) :=
  raises_of_straight (by simp [loopTest, finiteTest, straight?])

theorem raises_loopAdvance (s : LoopSlots) : Raises (loopAdvance s) k k :=
  raises_of_straight (by simp [loopAdvance, straight?])

/-- The result so far lies below the numbers of the test and of the body. -/
theorem raises_loopCode (s : LoopSlots) (op : BinaryOp) {body : Code}
    (hb : Raises body (k + 1) (k + 1 + 1)) : Raises (loopCode s op body) (k + 1) (k + 1) := by
  have hround : Raises (body ++ .arithmetic op :: loopAdvance s) (k + 1) (k + 1) :=
    hb.append (raises_cons rfl (by simp) rfl (raises_loopAdvance s))
  have htest : Raises (loopTest s) (k + 1) (k + 2) := raises_loopTest s
  unfold loopCode
  dsimp only
  rw [List.append_assoc, List.cons_append]
  generalize loopTest s = test at htest
  generalize body ++ .arithmetic op :: loopAdvance s = round at hround
  obtain ⟨f, f₀, f₁, hf⟩ := htest
  obtain ⟨g, g₀, g₁, hg⟩ := hround
  obtain ⟨tail, t₁, t₂⟩ := exists_glue g (fun _ => k + 1) round.length
  obtain ⟨height, htest, h₂⟩ := exists_glue f tail test.length
  have hround : ∀ b ≤ round.length, height (b + (test.length + 1)) = g b :=
    fun b hb => (h₂ b).trans (t₁ b hb)
  have hstart : height 0 = k + 1 := by rw [htest 0 (Nat.zero_le _), f₀]
  have hexit : height test.length = k + 2 := by rw [htest _ (Nat.le_refl _), f₁]
  have hback : height (round.length + (test.length + 1)) = k + 1 := by
    rw [hround _ (Nat.le_refl _), g₁]
  have hend : height (round.length + 1 + (test.length + 1)) = k + 1 := by
    rw [h₂, ← t₂ 0]
    congr 1
    omega
  refine raises_of_steady (n := round.length + 1 + (test.length + 1)) ?_ hstart hend
    (steady_append.2 ⟨?_, steady_cons.2 ⟨⟨?_, fun o ho => ?_⟩, steady_append.2
      ⟨?_, steady_cons.2 ⟨⟨?_, fun o ho => ?_⟩, steady_nil⟩⟩⟩⟩)
  · simp only [List.length_cons, List.length_append, List.length_nil]
    omega
  · exact hf.place (d := 0) (by omega) htest (by omega)
  · rw [Nat.zero_add, hexit]
    exact Nat.le_add_left _ _
  · simp only [Instruction.leaps, List.mem_cons, List.not_mem_nil, or_false, Nat.zero_add] at ho ⊢
    rcases ho with rfl | rfl
    · refine ⟨0 + (test.length + 1), by omega, by omega, ?_⟩
      rw [hround 0 (Nat.zero_le _), hexit, g₀]
      rfl
    · refine ⟨round.length + 1 + (test.length + 1), by omega, by omega, ?_⟩
      rw [hend, hexit]
      rfl
  · rw [Nat.zero_add, ← Nat.zero_add (test.length + 1)]
    exact hg.place (by omega) hround (by omega)
  · exact Nat.zero_le _
  · simp only [Instruction.leaps, List.mem_singleton] at ho
    subst ho
    refine ⟨0, Nat.zero_le _, by omega, ?_⟩
    rw [hstart, ← hback]
    simp [Nat.add_comm, Nat.add_left_comm]

end Pieces

/-! ## Lowered code -/

/-- What the code of a piece does to the height of the stack. -/
def Piece.Raises (code : Code) : Piece → Prop
  | .tree _ | .branches _ _ => ∀ k, Bytecode.Raises code k (k + 1)
  | .args es => ∀ k, Bytecode.Raises code k (k + es.length)
  | .rest _ => ∀ k, Bytecode.Raises code (k + 1) (k + 1)
  | .optional missing _ => (∀ k, Bytecode.Raises missing k (k + 1)) →
      ∀ k, Bytecode.Raises code k (k + 1)

theorem raises_constant (x : Float) (k : Nat) : Raises [.constant x] k (k + 1) :=
  raises_singleton rfl (Nat.zero_le _) rfl

theorem raises_writeSlot (slot k : Nat) : Raises [.writeSlot slot] (k + 1) k :=
  raises_singleton rfl (by simp) rfl

theorem raises_operation {e : Expr} {es : List Expr} {i : Instruction} (k : Nat)
    (h : operation? e = some (es, i)) : Raises [i] (k + es.length) (k + 1) := by
  cases e <;> cases h <;> exact raises_singleton rfl (by simp) rfl

/-- A call takes its arguments, of which a fast path has as many as it was chosen for. -/
theorem pops_callInstruction (name : String) (f : Function) (n : Nat) :
    (callInstruction name f n).pops = n := by
  unfold callInstruction
  split
  · next h => simpa using (List.find?_some h)
  · next h => simpa using (List.find?_some h)
  · rfl

theorem raises_callInstruction (name : String) (f : Function) (n k : Nat) :
    Raises [callInstruction name f n] (k + n) (k + 1) := by
  have hp := pops_callInstruction name f n
  have hl : (callInstruction name f n).leaps = [1] ∧ (callInstruction name f n).pushes = 1 := by
    unfold callInstruction
    split <;> exact ⟨rfl, rfl⟩
  exact raises_singleton hl.1 (by omega) (by omega)

theorem raises_writeSlots (slots : List Nat) (k : Nat) :
    Raises (slots.map .writeSlot) (k + slots.length) k := by
  induction slots with
  | nil => exact raises_nil
  | cons slot slots ih => exact (raises_writeSlot slot (k + slots.length)).append ih

theorem raises_loopSetup {start step stop : Code} (s : LoopSlots) (seed : Float)
    (ha : ∀ k, Raises start k (k + 1)) (hd : ∀ k, Raises step k (k + 1))
    (hb : ∀ k, Raises stop k (k + 1)) (k : Nat) :
    Raises (loopSetup s seed start step stop) k (k + 1) := by
  have h := (raises_constant seed k).append
    ((hb (k + 1)).append ((raises_writeSlot s.stop (k + 1)).append
      ((hd (k + 1)).append ((raises_writeSlot s.step (k + 1)).append
        ((ha (k + 1)).append ((raises_writeSlot s.position (k + 1)).append
          ((raises_constant Number.nan (k + 1)).append (raises_writeSlot s.previous (k + 1)))))))))
  simpa [loopSetup] using h

theorem Written.raises {env : Environment} {name : String} {s s' : Slots} {i : Instruction}
    (h : Written env name s i s') (k : Nat) : Raises [i] (k + 1) k := by
  cases h <;> exact raises_singleton rfl (by simp) rfl

/-- **The code of a tree leaves one number more** on the stack than it found there, arguments leave
one number each, and statements behind another one put their number in the place of its. -/
theorem Lowered.raises {env : Environment} {p : Piece} {s s' : Slots} {code : Code}
    (h : Lowered env p s code s') : p.Raises code := by
  induction h with
  | number x => exact raises_constant _
  | bool b => exact raises_constant _
  | slot | cell => exact fun k => raises_singleton rfl (Nat.zero_le _) rfl
  | operation h hes ih => exact fun k => (ih k).append (raises_operation k h)
  | assign he hw ih =>
    exact fun k => (ih k).append
      ((raises_singleton rfl (by simp) rfl).append (hw.raises (k + 1)))
  | cases h ih => exact ih
  | loop hk hb hd ha hbody ihb ihd iha ihbody =>
    exact fun k => (raises_loopSetup _ _ iha (ihd (raises_constant _)) ihb k).append
      (raises_loopCode _ _ (ihbody (k + 1)))
  | empty => exact raises_constant _
  | sequence he hes ihe ihes => exact fun k => (ihe k).append (ihes k)
  | define => exact raises_constant _
  | inline hf hb hn hargs hbody ihargs ihbody =>
    refine fun k => ((ihargs k).append ?_).append (ihbody k)
    simpa [Slots.slotsOf, hn] using raises_writeSlots (Slots.slotsOf _ _).reverse k
  | call hl hf hn hargs ih => exact fun k => (ih k).append (raises_callInstruction _ _ _ k)
  | noArgs | noRest => exact fun k => raises_nil
  | consArg he hes ihe ihes =>
    intro k
    have := (ihe k).append (ihes (k + 1))
    rwa [Nat.add_assoc, Nat.add_comm 1] at this
  | consRest he hes ihe ihes =>
    exact fun k => (raises_singleton (l := k) rfl (by simp) rfl).append ((ihe k).append (ihes k))
  | missing => exact id
  | present he ih => exact fun _ => ih
  | otherwise h ih => exact ih (raises_constant _)
  | branch hc he hbs ihc ihe ihbs => exact fun k => raises_branchCode (ihc k) (ihe k) (ihbs k)

/-! ## Runs -/

/-- The machine is inside the code or at its end, and its stack has the height of its address. -/
def Balanced (height : Nat → Nat) (n : Nat) (m : Machine) : Prop :=
  m.address ≤ n ∧ m.stack.size = height m.address

section Runs

variable {height : Nat → Nat} {code : Array Instruction} {limit : Nat} {m : Machine} {st : Engine}
  {i : Instruction}

variable (limit st) in
/-- An instruction that fits keeps the balance, and fails by a `RunFault` at most. -/
theorem Balanced.execute (hm : Balanced height code.size m) (h : Fits height code.size m.address i) :
    Outcome (Balanced height code.size) RunFault (execute limit code.size i m st).1 := by
  have hs : i.pops ≤ m.stack.size := by rw [hm.2]; exact h.1
  have hx := execute_spec limit code.size m.address m.heap st hs
  cases he : (Bytecode.execute limit code.size i m st).1 with
  | ok m' =>
    rw [he] at hx
    obtain ⟨hsize, ⟨o, ho, ha⟩, -⟩ := hx
    obtain ⟨b, hb, hba, hh⟩ := h.2 o ho
    have : m'.address = b := by omega
    subst this
    exact ⟨hb, by rw [hm.2] at hsize; omega⟩
  | error f =>
    rw [he] at hx
    rcases hx with hf | ⟨-, o, ho, hb⟩
    · exact hf
    · obtain ⟨b, hb', hba, -⟩ := h.2 o ho
      exact (hb ⟨b, hba, hb'⟩).elim

theorem Balanced.reaches {c d : Machine × Engine}
    (h : ∀ a i, code[a]? = some i → Fits height code.size a i)
    (hc : Balanced height code.size c.1) (hr : Reaches limit code c d) :
    Balanced height code.size d.1 := by
  induction hr with
  | refl => exact hc
  | @tail d d' _ hs ih =>
    obtain ⟨i, hi, he⟩ := hs
    have hx := ih.execute limit d.2 (h _ i hi)
    rw [he] at hx
    exact hx

end Runs

/-- The instructions of a program fit some heights, from the empty stack to one number, and use
slots of its heap. -/
structure Program.Safe (p : Program) (height : Nat → Nat) : Prop where
  entry : height 0 = 0
  exit : height p.code.size = 1
  fits : ∀ a i, p.code[a]? = some i → Fits height p.code.size a i
  slots : UsesOnly (· < p.heapSize) p.code.toList

namespace Program.Safe

variable {p : Program} {height : Nat → Nat} {limit n : Nat} {heap : Array Float} {m : Machine}
  {st st' : Engine} {f : Fault}

theorem balanced (h : p.Safe height)
    (hr : Reaches limit p.code (⟨0, #[], heap⟩, st) (m, st')) : Balanced height p.code.size m :=
  Balanced.reaches h.fits (c := (⟨0, #[], heap⟩, st)) ⟨Nat.zero_le _, h.entry.symm⟩ hr

theorem fault (h : p.Safe height)
    (hr : runFor limit p.code n ⟨0, #[], heap⟩ st = (some (.error f), st')) : RunFault f := by
  obtain ⟨m, st₁, hm, ⟨hr, -⟩ | ⟨i, g, hi, hr, he⟩⟩ := runFor_reaches hr
  · cases hr
  · cases hr
    have hx := (h.balanced hm).execute limit st₁ (h.fits _ i hi)
    rw [he] at hx
    exact hx

theorem finish (h : p.Safe height)
    (hr : runFor limit p.code n ⟨0, #[], heap⟩ st = (some (.ok m), st')) :
    m.address = p.code.size ∧ m.stack.size = 1 := by
  obtain ⟨m', st₁, hm, ⟨hr, -, hend⟩ | ⟨i, g, hi, hr, he⟩⟩ := runFor_reaches hr
  · cases hr
    have hb := h.balanced hm
    have ha := Nat.le_antisymm hb.1 hend
    exact ⟨ha, by rw [hb.2, ha, h.exit]⟩
  · cases hr

theorem runSteps_fault (h : p.Safe height) {settings : Settings}
    (hr : p.runSteps n settings st = (some (.error f), st')) : RunFault f := by
  unfold runSteps at hr
  cases ho : runFor settings.stackLimit p.code n (p.start settings) st with
  | mk o st₁ =>
    rw [ho] at hr
    match o with
    | none => cases hr
    | some (.error g) =>
      cases hr
      exact h.fault ho
    | some (.ok m) =>
      obtain ⟨s, x, hs⟩ := exists_push_of_one_le (Nat.le_of_eq (h.finish ho).2.symm)
      simp [result, hs, bind, Except.bind] at hr

end Program.Safe

theorem safe_of_compile {env : Environment} {e : Expr} {p : Program} (h : compile env e = .ok p) :
    ∃ height, p.Safe height := by
  obtain ⟨s, hl, hs⟩ := lowered_of_compile h
  obtain ⟨height, h₀, h₁, hsteady⟩ := hl.raises 0
  refine ⟨height, h₀, h₁, fun a i hi => ?_, ?_⟩
  · simpa using hsteady.fits (j := a) (by simpa using hi)
  · refine (hl.spends trivial).uses.mono fun slot h => ?_
    rcases h with h | h
    · cases h
    · rw [hs]
      exact h.2

/-- **Compiled programs are safe to run.** One height for each address, from the empty stack to one
number, fits every instruction, so that no way to an address changes it; the slots are in the heap.
From every heap and engine, each machine of the run has the height of its address, a run that
finishes leaves one number, and one that fails has a full stack or a called function without a
number. -/
theorem exists_height_of_compile {env : Environment} {e : Expr} {p : Program}
    (h : compile env e = .ok p) :
    ∃ height, p.Safe height ∧ ∀ limit heap st,
      (∀ m st', Reaches limit p.code (⟨0, #[], heap⟩, st) (m, st') →
        Balanced height p.code.size m) ∧
      (∀ n f st', runFor limit p.code n ⟨0, #[], heap⟩ st = (some (.error f), st') → RunFault f) ∧
      (∀ n m st', runFor limit p.code n ⟨0, #[], heap⟩ st = (some (.ok m), st') →
        m.address = p.code.size ∧ m.stack.size = 1) ∧
      ∀ n settings f st', p.runSteps n settings st = (some (.error f), st') → RunFault f := by
  obtain ⟨height, hp⟩ := safe_of_compile h
  refine ⟨height, hp, fun limit heap st => ⟨?_, ?_, ?_, ?_⟩⟩
  · exact fun m st' hr => hp.balanced hr
  · exact fun n f st' hr => hp.fault hr
  · exact fun n m st' hr => hp.finish hr
  · exact fun n settings f st' hr => hp.runSteps_fault hr

/-- `f(x) = x + 1; sum(i, 1, 3, f(i))` has the body of `f` put in inside the loop. -/
def inlinedSum : Expr :=
  .sequence [.define "f" ["x"] (.binary .add (.var "x") (.constant (.number 1.0))),
    .loop .sum "i" (.range (.constant (.number 1.0)) none (.constant (.number 3.0)))
      (.call "f" [.var "i"]) none]

theorem exists_height_of_inlinedSum :
    ∃ p, compile .empty inlinedSum = .ok p ∧ ∃ height, p.Safe height := by
  have hp : compile .empty inlinedSum = .ok _ := rfl
  obtain ⟨height, h, -⟩ := exists_height_of_compile hp
  exact ⟨_, hp, height, h⟩

end FormulaLang.Bytecode
