import FormulaLang.Proofs.Bytecode.Run
import FormulaLang.Proofs.Bytecode.SlotUse

/-!
# Compiled programs halt

Only loops jump back, and every round of a loop takes from the room of its range. The bounds, the
step and the previous position of a loop lie in slots without a name, which its body cannot write.
The position has a name. A body that assigns to it can keep its loop going for ever, so programs
halt if no body does that.

* `KeepsPositions`: no loop writes the slot of its position on the way.
* `Passes`: every run of a piece of code gets behind it.
* `passes_loopCode`: loops, by the room of their ranges.
* **`exists_runFor_of_keepsPositions`**: every run of a compiled program stops.
-/

namespace FormulaLang.Bytecode

/-! ## Code that runs get behind -/

/-- Every run of a piece of code gets behind it, unless it fails, and keeps the slots that the piece
does not write. -/
def Passes (piece : Code) : Prop :=
  ∀ limit code m st, Placed code m.address piece →
    Leads limit code (fun _ => True)
      (fun m' _ => m'.address = m.address + piece.length ∧
        ∀ slot, .writeSlot slot ∉ piece → getSlot m'.heap slot = getSlot m.heap slot) m st

section Passes

variable {piece piece' : Code} {i : Instruction}

theorem passes_nil : Passes [] := fun _ _ _ _ _ => .here ⟨rfl, fun _ _ => rfl⟩

theorem Passes.append (h : Passes piece) (h' : Passes piece') : Passes (piece ++ piece') := by
  intro limit code m st hp
  rw [placed_append] at hp
  refine (h limit code m st hp.1).bind fun m₁ st₁ h₁ => ?_
  refine (h' limit code m₁ st₁ (h₁.1 ▸ hp.2)).mono fun m₂ st₂ h₂ => ⟨?_, fun slot hs => ?_⟩
  · rw [h₂.1, h₁.1, List.length_append, Nat.add_assoc]
  · rw [List.mem_append, not_or] at hs
    rw [h₂.2 slot hs.2, h₁.2 slot hs.1]

/-- One step of any instruction. -/
theorem leads_step {limit : Nat} {code : Array Instruction} {Q : Machine → Engine → Prop}
    {m : Machine} {st : Engine} (hi : code[m.address]? = some i)
    (hn : ∀ m' st', (∃ o ∈ i.leaps, (m'.address : Int) = m.address + o) →
      (∀ slot, i ≠ .writeSlot slot → getSlot m'.heap slot = getSlot m.heap slot) →
      Leads limit code (fun _ => True) Q m' st') : Leads limit code (fun _ => True) Q m st := by
  rcases he : execute limit code.size i m st with ⟨r, st'⟩
  cases r with
  | error f => exact .fault hi he trivial
  | ok m' => exact .step hi he (hn m' st' (execute_ok he).1 (execute_ok he).2)

theorem passes_singleton (hl : i.leaps = [1]) : Passes [i] := by
  intro limit code m st hp
  refine leads_step hp.1 fun m' st' ha hs => .here ⟨?_, fun slot hm => hs slot fun h => hm ?_⟩
  · rw [hl] at ha
    simp only [List.mem_singleton, exists_eq_left] at ha
    simp only [List.length_singleton]
    omega
  · rw [h]
    exact List.mem_singleton_self _

theorem passes_cons (hl : i.leaps = [1]) (h : Passes piece) : Passes (i :: piece) :=
  (passes_singleton hl).append h

end Passes

/-! ## Conditions -/

theorem passes_branchCode {condition value rest : Code} (hc : Passes condition)
    (hv : Passes value) (hr : Passes rest) : Passes (branchCode condition value rest) := by
  have hbranch : Passes
      (.jumpIf (value.length + 2) :: (value ++ .jump (rest.length + 1) :: rest)) := by
    intro limit code m st hp
    simp only [placed_cons, placed_append] at hp
    obtain ⟨h₁, h₂, h₃, h₄⟩ := hp
    refine leads_step h₁ fun m₁ st₁ ha hs => ?_
    simp only [Instruction.leaps, List.mem_cons, List.not_mem_nil, or_false, exists_eq_or_imp,
      exists_eq_left] at ha
    -- Either the value and the jump behind the rest follow, or the rest.
    rcases ha with ha | ha
    · have ha : m₁.address = m.address + 1 := by omega
      refine (hv limit code m₁ st₁ (ha ▸ h₂)).bind ?_
      rintro m₂ st₂ ⟨ha₂, hs₂⟩
      refine leads_step (m := m₂) (by rw [ha₂, ha]; exact h₃) fun m₃ st₃ ha₃ hs₃ => .here ⟨?_, ?_⟩
      · simp only [Instruction.leaps, List.mem_singleton, exists_eq_left] at ha₃
        simp only [List.length_cons, List.length_append]
        omega
      · intro slot hm
        simp only [List.mem_cons, List.mem_append, not_or] at hm
        rw [hs₃ slot (by simp), hs₂ slot hm.2.1, hs slot (by simp)]
    · have ha : m₁.address = m.address + 1 + value.length + 1 := by omega
      refine (hr limit code m₁ st₁ (ha ▸ h₄)).mono ?_
      rintro m₂ st₂ ⟨ha₂, hs₂⟩
      constructor
      · simp only [List.length_cons, List.length_append]
        omega
      · intro slot hm
        simp only [List.mem_cons, List.mem_append, not_or] at hm
        rw [hs₂ slot hm.2.2.2, hs slot (by simp)]
  simpa [branchCode] using (hc.append (passes_singleton rfl)).append hbranch

/-! ## Loops -/

/-- The body leaves the slots of its loop alone. -/
def Spares (l : LoopSlots) (body : Code) : Prop :=
  ∀ slot ∈ [l.position, l.previous, l.step, l.stop], .writeSlot slot ∉ body

section Loops

variable {l : LoopSlots} {op : BinaryOp} {body : Code} {limit : Nat} {code : Array Instruction}
  {a : Nat} {m : Machine} {h : Array Float} {st : Engine}

/-- What runs of a loop get to. -/
def BehindLoop (l : LoopSlots) (op : BinaryOp) (body : Code) (a : Nat) (h : Array Float)
    (m : Machine) (_ : Engine) : Prop :=
  m.address = a + (loopCode l op body).length ∧
    ∀ slot, .writeSlot slot ∉ loopCode l op body → getSlot m.heap slot = getSlot h slot

theorem range_congr {h' : Array Float}
    (hs : ∀ slot ∈ [l.position, l.previous, l.step, l.stop], getSlot h' slot = getSlot h slot) :
    l.range h' = l.range h := by
  simp only [List.mem_cons, List.not_mem_nil, or_false, forall_eq_or_imp, forall_eq] at hs
  simp only [LoopSlots.range, hs]

/-- From the head of a loop runs get behind it. -/
theorem leads_loopCode (hl : l.Distinct) (hb : Passes body) (hw : Spares l body) (m : Machine)
    (st : Engine) (hp : Placed code m.address (loopCode l op body)) :
    Leads limit code (fun _ => True) (BehindLoop l op body m.address m.heap) m st := by
  -- The induction is on the rounds that the range in the slots of the loop leaves.
  induction hn : (l.range m.heap).rounds using Nat.strong_induction_on generalizing m st with
  | _ n ih =>
    obtain ⟨a, s, h⟩ := m
    refine leads_loopHead trivial hp (fun _ => .here ⟨rfl, fun _ _ => rfl⟩) fun hc => ?_
    obtain ⟨hbody, hop⟩ := hp.of_loopCode
    refine (hb limit code ⟨_, s, h⟩ st hbody).bind ?_
    rintro m₁ st₁ ⟨ha₁, hs₁⟩
    refine leads_step (m := m₁) (by rw [ha₁]; exact hop) fun m₂ st₂ ha₂ hs₂ => ?_
    simp only [Instruction.leaps, List.mem_singleton, exists_eq_left] at ha₂
    obtain ⟨a₂, s₂, h₂⟩ := m₂
    have hslots : ∀ slot, .writeSlot slot ∉ body → getSlot h₂ slot = getSlot h slot :=
      fun slot hm => (hs₂ slot (by simp)).trans (hs₁ slot hm)
    have hrange : l.range (l.advance h₂) = (l.range h).advance := by
      rw [LoopSlots.range_advance hl, range_congr fun slot hm => hslots slot (hw slot hm)]
    have hlt := Range.rounds_advance_lt hc
    obtain rfl : a₂ = a + (loopTest l).length + 1 + body.length + 1 := by
      dsimp only at ha₁ ha₂
      omega
    refine leads_loopBack hl trivial hp ?_
    refine (ih _ (hn ▸ hlt) ⟨a, s₂, l.advance h₂⟩ st₂ hp (by rw [hrange])).mono ?_
    rintro m₃ st₃ ⟨ha₃, hs₃⟩
    refine ⟨ha₃, fun slot hm => ?_⟩
    obtain ⟨hbody, hadvance⟩ := not_mem_of_loopCode hm h₂
    rw [hs₃ slot hm, hadvance, hslots slot hbody]

theorem passes_loopCode (hl : l.Distinct) (hb : Passes body) (hw : Spares l body) :
    Passes (loopCode l op body) := fun _ _ m st hp => leads_loopCode hl hb hw m st hp

theorem passes_loopSetup {seed : Float} {start step stop : Code} (ha : Passes start)
    (hd : Passes step) (hb : Passes stop) : Passes (loopSetup l seed start step stop) := by
  have hwrite : ∀ slot, Passes [.writeSlot slot] := fun slot => passes_singleton rfl
  have hconstant : ∀ x, Passes [.constant x] := fun x => passes_singleton rfl
  have h := (hconstant seed).append (hb.append ((hwrite l.stop).append (hd.append
    ((hwrite l.step).append (ha.append ((hwrite l.position).append
      ((hconstant Number.nan).append (hwrite l.previous))))))))
  simpa [loopSetup] using h

end Loops

/-! ## Lowered code -/

/-- No loop of the code writes the slot of its position between its head and its jump back, but for
the instruction in front of that. -/
def KeepsPositions (code : Code) : Prop :=
  ∀ head back position, head < back →
    code[back]? = some (.jump ((head : Int) - back)) → code[head]? = some (.readSlot position) →
    ∀ a, head < a → a + 1 < back → code[a]? ≠ some (.writeSlot position)

namespace Instruction

/-- How far a jump leads that does not ask for a number. -/
def jump? : Instruction → Option Int
  | jump offset => some offset
  | _ => none

/-- The slot that an instruction reads. -/
def read? : Instruction → Option Nat
  | readSlot slot => some slot
  | _ => none

/-- The slot that an instruction writes. -/
def written? : Instruction → Option Nat
  | writeSlot slot => some slot
  | _ => none

variable {i : Instruction}

theorem jump?_eq_some {offset : Int} : i.jump? = some offset ↔ i = .jump offset := by
  cases i <;> simp [jump?]

theorem read?_eq_some {slot : Nat} : i.read? = some slot ↔ i = .readSlot slot := by
  cases i <;> simp [read?]

theorem written?_eq_some {slot : Nat} : i.written? = some slot ↔ i = .writeSlot slot := by
  cases i <;> simp [written?]

end Instruction

section KeepsPositions

variable {code code' : Code}

instance : DecidablePred KeepsPositions := fun code =>
  decidable_of_iff
    (∀ back < code.length, ∀ head < back, code[back]?.bind (·.jump?) = some ((head : Int) - back) →
      ∀ position ∈ code[head]?.bind (·.read?), ∀ a < back - 1, head < a →
        code[a]?.bind (·.written?) ≠ some position) <| by
    simp only [Option.bind_eq_some_iff, Option.mem_def, Instruction.jump?_eq_some,
      Instruction.read?_eq_some, Instruction.written?_eq_some, exists_eq_right, ne_eq]
    constructor
    · intro h head back position hlt hb hh a ha hab
      exact h back (List.getElem?_eq_some_iff.1 hb).1 head hlt hb position hh a (by omega) ha
    · intro h back _ head hlt hb position hh a hab ha
      exact h head back position hlt hb hh a ha (by omega)

theorem KeepsPositions.of_append (h : KeepsPositions (code ++ code')) :
    KeepsPositions code ∧ KeepsPositions code' := by
  refine ⟨fun head back position hlt hb hh a ha hab hw => ?_,
    fun head back position hlt hb hh a ha hab hw => ?_⟩
  · have left : ∀ {k i}, code[k]? = some i → (code ++ code')[k]? = some i := fun hk => by
      rw [List.getElem?_append_left (List.getElem?_eq_some_iff.1 hk).1, hk]
    exact h head back position hlt (left hb) (left hh) a ha hab (left hw)
  · have right : ∀ {k i}, code'[k]? = some i → (code ++ code')[code.length + k]? = some i :=
      fun hk => by rw [List.getElem?_append_right (Nat.le_add_right _ _), Nat.add_sub_cancel_left, hk]
    refine h (code.length + head) (code.length + back) position (by omega) ?_ (right hh)
      (code.length + a) (by omega) (by omega) (right hw)
    rw [right hb]
    congr 2
    omega

theorem KeepsPositions.of_cons {i : Instruction} (h : KeepsPositions (i :: code)) :
    KeepsPositions code := (KeepsPositions.of_append (show KeepsPositions ([i] ++ code) from h)).2

theorem KeepsPositions.of_loopSetup {l : LoopSlots} {seed : Float} {start step stop : Code}
    (h : KeepsPositions (loopSetup l seed start step stop)) :
    KeepsPositions start ∧ KeepsPositions step ∧ KeepsPositions stop :=
  ⟨h.of_append.1.of_append.2.of_cons, h.of_append.1.of_append.1.of_append.2.of_cons,
    h.of_append.1.of_append.1.of_append.1.of_cons⟩

theorem KeepsPositions.of_loopCode {l : LoopSlots} {op : BinaryOp} {body : Code}
    (h : KeepsPositions (loopCode l op body)) : KeepsPositions body :=
  h.of_append.1.of_append.2.of_cons.of_append.1

theorem KeepsPositions.of_branchCode {condition value rest : Code}
    (h : KeepsPositions (branchCode condition value rest)) :
    KeepsPositions condition ∧ KeepsPositions value ∧ KeepsPositions rest :=
  ⟨h.of_append.1.of_append.1.of_append.1.of_append.1, h.of_append.1.of_append.1.of_append.2,
    h.of_append.2⟩

/-- The body of a loop does not write its position. -/
theorem KeepsPositions.not_mem_body {l : LoopSlots} {op : BinaryOp} {body : Code}
    (h : KeepsPositions (loopCode l op body)) : .writeSlot l.position ∉ body := by
  intro hm
  obtain ⟨k, hk⟩ := List.getElem?_of_mem hm
  have hlt := (List.getElem?_eq_some_iff.1 hk).1
  set n := (loopTest l).length + 1 + (body ++ .arithmetic op :: loopAdvance l).length with hn
  have hround : (body ++ .arithmetic op :: loopAdvance l).length = body.length + 7 := by
    simp [loopAdvance]
  have hback : (loopCode l op body)[n]? = some (.jump (-(n : Int))) := by
    set front := loopTest l ++ .jumpIf (((body ++ .arithmetic op :: loopAdvance l).length : Int) + 2)
      :: (body ++ .arithmetic op :: loopAdvance l) with hfront
    have hlen : front.length = n := by
      rw [hfront, List.length_append, List.length_cons, hn]
      omega
    have hcode : loopCode l op body = front ++ [.jump (-(n : Int))] := rfl
    rw [hcode, ← hlen]
    exact List.getElem?_concat_length
  have hwrite : (loopCode l op body)[(loopTest l).length + 1 + k]? =
      some (.writeSlot l.position) := by
    unfold loopCode
    dsimp only
    rw [List.getElem?_append_left (by simp; omega), List.getElem?_append_right (by omega),
      show (loopTest l).length + 1 + k - (loopTest l).length = k + 1 by omega,
      List.getElem?_cons_succ, List.getElem?_append_left hlt, hk]
  refine h 0 n l.position (by omega) ?_ rfl ((loopTest l).length + 1 + k) (by omega) (by omega) hwrite
  rw [hback]
  simp

end KeepsPositions

/-- Code that stands for a missing tree uses no slot, and runs get behind it. -/
def Piece.MissingPasses : Piece → Prop
  | .optional missing _ => UsesOnly (fun _ => False) missing ∧ Passes missing
  | _ => True

theorem passes_constant (x : Float) : Passes [.constant x] := passes_singleton rfl

theorem leaps_of_operation {e : Expr} {es : List Expr} {i : Instruction}
    (h : operation? e = some (es, i)) : i.leaps = [1] := by
  cases e <;> cases h <;> rfl

theorem leaps_callInstruction (name : String) (f : Function) (n : Nat) :
    (callInstruction name f n).leaps = [1] := by
  unfold callInstruction
  split <;> rfl

theorem Written.leaps {env : Environment} {name : String} {s s' : Slots} {i : Instruction}
    (h : Written env name s i s') : i.leaps = [1] := by
  cases h <;> rfl

theorem passes_writeSlots (slots : List Nat) : Passes (slots.map .writeSlot) := by
  induction slots with
  | nil => exact passes_nil
  | cons slot slots ih => exact passes_cons rfl ih

/-- The slots of a loop are different. The body can only name that of the position. -/
theorem spares_body {s s₁ s₂ s₃ s₄ : Slots} {name : String} {body : Code} (hs : s.Bounded)
    (hb : s.fresh.2.Grows s₁) (hd : s₁.fresh.2.Grows s₂) (ha : s₂.Grows s₃)
    (hbody : (s₃.push name).2.fresh.2.Spends body s₄)
    (hp : .writeSlot s₃.size ∉ body) :
    LoopSlots.Distinct ⟨s₃.size, s₃.size + 1, s₁.size, s.size⟩ ∧
      Spares ⟨s₃.size, s₃.size + 1, s₁.size, s.size⟩ body := by
  have h₁ : s.size + 1 ≤ s₁.size := hb.size_le
  have h₂ : s₁.size + 1 ≤ s₂.size := hd.size_le
  have h₃ : s₂.size ≤ s₃.size := ha.size_le
  have hs₁ := (s.grows_fresh.trans hb).bounded hs
  have hs₃ := ((s₁.grows_fresh.trans hd).trans ha).bounded hs₁
  have hpush : s₃.Grows (s₃.push name).2.fresh.2 := (s₃.grows_push name).trans (Slots.grows_fresh _)
  have hstep := (hd.trans ha).trans hpush
  have hstop := hb.trans (s₁.grows_fresh.trans hstep)
  refine ⟨⟨by simp, ⟨?_, ?_⟩, ⟨?_, ?_⟩⟩, fun slot hm => ?_⟩
  · dsimp only
    omega
  · dsimp only
    omega
  · dsimp only
    omega
  · dsimp only
    omega
  · simp only [List.mem_cons, List.not_mem_nil, or_false] at hm
    rcases hm with rfl | rfl | rfl | rfl
    · exact hp
    · exact hbody.not_mem ((s₃.grows_push name).bounded hs₃) (.refl _)
    · exact hbody.not_mem hs₁ hstep
    · exact hbody.not_mem hs hstop

/-- **Runs get behind lowered code** that keeps the positions of its loops. -/
theorem Lowered.passes {env : Environment} {p : Piece} {s s' : Slots} {code : Code}
    (h : Lowered env p s code s') (hp : p.MissingPasses) (hs : s.Bounded)
    (hk : KeepsPositions code) : Passes code := by
  induction h with
  | number | bool | slot | cell | empty | define => exact passes_singleton rfl
  | operation h hes ih =>
    exact (ih trivial hs hk.of_append.1).append (passes_singleton (leaps_of_operation h))
  | assign he hw ih =>
    exact (ih trivial hs hk.of_append.1).append (passes_cons rfl (passes_singleton hw.leaps))
  | cases h ih => exact ih trivial hs hk
  | @loop s s₁ s₂ s₃ s₄ kind op seed name a d b body default start step stop code hk' hb hd ha hbody
      ihb ihd iha ihbody =>
    have hgb := (hb.spends trivial).grows
    have hgd := (hd.spends (by simp [Piece.MissingUsesNone, Instruction.slot?])).grows
    have hga := (ha.spends trivial).grows
    have hspends := hbody.spends trivial
    obtain ⟨hka, hkd, hkb⟩ := hk.of_append.1.of_loopSetup
    have hkbody := hk.of_append.2.of_loopCode
    obtain ⟨hl, hw⟩ := spares_body hs hgb hgd hga hspends hk.of_append.2.not_mem_body
    have hs₀ := s.grows_fresh.bounded hs
    have hs₁ := s₁.grows_fresh.bounded (hgb.bounded hs₀)
    have hs₂ := hgd.bounded hs₁
    have hs₃ := ((s₃.grows_push name).trans (Slots.grows_fresh _)).bounded (hga.bounded hs₂)
    have hstep := ihd ⟨by simp [Instruction.slot?], passes_constant _⟩ hs₁ hkd
    exact (passes_loopSetup (iha trivial hs₂ hka) hstep (ihb trivial hs₀ hkb)).append
      (passes_loopCode hl (ihbody trivial hs₃ hkbody) hw)
  | sequence he hes ihe ihes | consArg he hes ihe ihes =>
    have hg := he.spends trivial
    exact (ihe trivial hs hk.of_append.1).append
      (ihes trivial (hg.grows.bounded hs) hk.of_append.2)
  | @inline s s₁ s₂ s₃ name args f code body hf hb hn hargs hbody ihargs ihbody =>
    have hs₁ := (Slots.grows_beginCall hb).bounded hs
    have hs₂ := (hargs.spends trivial).grows.bounded hs₁
    have hs₃ := (s₂.grows_pushAll f.params).bounded hs₂
    exact ((ihargs trivial hs₁ hk.of_append.1.of_append.1).append (passes_writeSlots _)).append
      (ihbody trivial hs₃ hk.of_append.2)
  | call hl hf hn hargs ih =>
    exact (ih trivial hs hk.of_append.1).append (passes_singleton (leaps_callInstruction _ _ _))
  | noArgs | noRest => exact passes_nil
  | consRest he hes ihe ihes =>
    have hg := he.spends trivial
    exact passes_cons rfl ((ihe trivial hs hk.of_cons.of_append.1).append
      (ihes trivial (hg.grows.bounded hs) hk.of_cons.of_append.2))
  | missing => exact hp.2
  | present he ih => exact ih trivial hs hk
  | otherwise h ih =>
    exact ih ⟨by simp [noValue, Instruction.slot?], passes_constant _⟩ hs hk
  | branch hc he hbs ihc ihe ihbs =>
    obtain ⟨hkc, hkv, hkr⟩ := hk.of_branchCode
    have hs₁ := (hc.spends trivial).grows.bounded hs
    have hs₂ := (he.spends trivial).grows.bounded hs₁
    exact passes_branchCode (ihc trivial hs hkc) (ihe trivial hs₁ hkv) (ihbs trivial hs₂ hkr)

/-- **Compiled programs halt**, from every heap and engine, if no loop body writes the position of
its loop. -/
theorem exists_runFor_of_keepsPositions {env : Environment} {e : Expr} {p : Program}
    (h : compile env e = .ok p) (hk : KeepsPositions p.code.toList) (limit : Nat)
    (heap : Array Float) (st : Engine) :
    ∃ n r st', runFor limit p.code n ⟨0, #[], heap⟩ st = (some r, st') := by
  obtain ⟨s, hl, -⟩ := lowered_of_compile h
  have hb : Slots.Bounded {} := fun slot hn => by cases hn
  have hplaced : Placed p.code 0 p.code.toList := by
    simpa using placed_toArray [] p.code.toList
  have hleads := hl.passes trivial hb hk limit p.code ⟨0, #[], heap⟩ st hplaced
  obtain ⟨n, st', ⟨m, hm, -⟩ | ⟨f, hf, -⟩⟩ := hleads.exists_runFor fun m st h => by
    rw [h.1, Array.length_toList]
    omega
  · exact ⟨n, _, st', hm⟩
  · exact ⟨n, _, st', hf⟩

/-- `f(x) = x = x * 2; sum(i, 1, 3, f(i))` assigns to a parameter in its loop. -/
def doublingSum : Expr :=
  .sequence [.define "f" ["x"] (.assign "x" (.binary .mul (.var "x") (.constant (.number 2.0)))),
    .loop .sum "i" (.range (.constant (.number 1.0)) none (.constant (.number 3.0)))
      (.call "f" [.var "i"]) none]

theorem exists_runFor_doublingSum :
    ∃ p, compile .empty doublingSum = .ok p ∧ KeepsPositions p.code.toList ∧
      ∀ limit heap st, ∃ n r st', runFor limit p.code n ⟨0, #[], heap⟩ st = (some r, st') := by
  have hp : compile .empty doublingSum = .ok _ := rfl
  exact ⟨_, hp, by decide +kernel, exists_runFor_of_keepsPositions hp (by decide +kernel)⟩

/-! ## Endless runs -/

section Endless

variable {limit : Nat} {code : Array Instruction} {m m' : Machine} {st st' : Engine}

/-- The machine and the engine after `n` instructions, if none of them fails. -/
def after? (limit : Nat) (code : Array Instruction) : Nat → Machine → Engine → Option (Machine × Engine)
  | 0, m, st => some (m, st)
  | n + 1, m, st =>
    match code[m.address]? with
    | none => none
    | some i =>
      match execute limit code.size i m st with
      | (.ok m, st) => after? limit code n m st
      | (.error _, _) => none

theorem after?_succ {n : Nat} {c : Machine × Engine}
    (h : after? limit code (n + 1) m st = some c) :
    ∃ i m₁ st₁, code[m.address]? = some i ∧ execute limit code.size i m st = (.ok m₁, st₁) ∧
      after? limit code n m₁ st₁ = some c := by
  rw [after?] at h
  split at h
  · cases h
  · next i hi =>
    split at h
    · next m₁ st₁ he => exact ⟨i, m₁, st₁, hi, he, h⟩
    · cases h

theorem runFor_after {n : Nat} (k : Nat) (h : after? limit code n m st = some (m', st')) :
    runFor limit code (n + k) m st = runFor limit code k m' st' := by
  induction n generalizing m st with
  | zero =>
    cases h
    rw [Nat.zero_add]
  | succ n ih =>
    obtain ⟨i, m₁, st₁, hi, he, h⟩ := after?_succ h
    rw [Nat.add_right_comm, runFor, hi]
    simp only [he]
    exact ih h

/-- A run does not stop on a way that goes on. -/
theorem runFor_of_lt {n k : Nat} {c : Machine × Engine} (hk : k < n)
    (h : after? limit code n m st = some c) : (runFor limit code k m st).1 = none := by
  induction k generalizing m st n with
  | zero =>
    obtain ⟨n, rfl⟩ := Nat.exists_eq_add_of_lt hk
    obtain ⟨i, m₁, st₁, hi, -, -⟩ := after?_succ h
    have hlt : m.address < code.size := (Array.getElem?_eq_some_iff.1 hi).1
    rw [runFor, if_neg (by omega)]
  | succ k ih =>
    obtain ⟨n, rfl⟩ : ∃ j, n = j + 1 := ⟨n - 1, by omega⟩
    obtain ⟨i, m₁, st₁, hi, he, h⟩ := after?_succ h
    rw [runFor, hi]
    simp only [he]
    exact ih (by omega) h

/-- A run that comes back to where it was never stops. -/
theorem runFor_of_cycle {n : Nat} (hn : 0 < n) (h : after? limit code n m st = some (m, st))
    (k : Nat) : (runFor limit code k m st).1 = none := by
  induction k using Nat.strong_induction_on with
  | _ k ih =>
    rcases Nat.lt_or_ge k n with hk | hk
    · exact runFor_of_lt hk h
    · obtain ⟨j, rfl⟩ := Nat.exists_eq_add_of_le hk
      rw [runFor_after j h]
      exact ih j (by omega)

/-- `sum(i, 1, 3, i = 0)` puts its position back to zero in every round. -/
def restartedSum : Expr :=
  .loop .sum "i" (.range (.constant (.number 1.0)) none (.constant (.number 3.0)))
    (.assign "i" (.constant (.number 0.0))) none

/-- The program of `restartedSum`. -/
def restartedProgram : Program :=
  match compile .empty restartedSum with
  | .ok p => p
  | .error _ => ⟨#[], 0⟩

/-- The machine at the head of the loop, in the second round and in every later one. -/
def restartedHead : Machine :=
  ⟨9, #[0.0], #[3.0, 1.0, 1.0, 0.0] ++ Array.replicate 12 Number.nan⟩

set_option maxRecDepth 10000 in
theorem after?_restartedProgram (st : Engine) :
    after? 2048 restartedProgram.code 49 (restartedProgram.start {}) st = some (restartedHead, st) :=
  rfl

set_option maxRecDepth 10000 in
theorem after?_restartedHead (st : Engine) :
    after? 2048 restartedProgram.code 40 restartedHead st = some (restartedHead, st) := rfl

/-- **A body that assigns to the position can keep its loop going for ever**: the program of
`restartedSum` never stops. -/
theorem runSteps_restartedSum :
    ∃ p, compile .empty restartedSum = .ok p ∧ ∀ n st, (p.runSteps n {} st).1 = none := by
  refine ⟨restartedProgram, rfl, fun n st => ?_⟩
  have hnone : (runFor 2048 restartedProgram.code n (restartedProgram.start {}) st).1 = none := by
    rcases Nat.lt_or_ge n 49 with hn | hn
    · exact runFor_of_lt hn (after?_restartedProgram st)
    · obtain ⟨k, rfl⟩ := Nat.exists_eq_add_of_le hn
      rw [runFor_after k (after?_restartedProgram st)]
      exact runFor_of_cycle (by decide) (after?_restartedHead st) k
  show (runFor 2048 restartedProgram.code n (restartedProgram.start {}) st).1.map _ = none
  rw [hnone]
  rfl

end Endless

end FormulaLang.Bytecode
