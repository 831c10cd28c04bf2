import FormulaLang.Proofs.Bytecode.Carries
import FormulaLang.Proofs.Bytecode.Height

/-!
# The footprint of code

Code depends on the numbers at the places that it reads and changes those that it writes. A run of a
piece of code by itself is therefore repeated wherever the piece lies in a program, on every stack
that has room, and from other numbers at other places.

* `Uses`, `Touches`, `Overwrites`: the places in code.
* `Instruction.effect`, **`execute_eq_apply`**: what an instruction does with the numbers it takes.
* `Alone`: a run of a piece of code by itself, with `Leads.alone`.
* `Frozen.Beside`: a second run beside the first one.
* `Trail`: where runs lead, and the numbers that a slot holds whenever they pass an address.
* **`Alone.trail`**: a run of a piece by itself is repeated inside a program.
-/

namespace FormulaLang.Bytecode

/-! ## Places in code -/

namespace Instruction

/-- The place that an instruction writes, or also one that it reads. -/
def place? (reads : Bool) : Instruction → Option Place
  | writeCell k => some (.cell k)
  | writeSlot k => some (.slot k)
  | readCell k => if reads then some (.cell k) else none
  | readSlot k => if reads then some (.slot k) else none
  | _ => none

/-- The instruction is no call that the engine takes part in. -/
def plain : Instruction → Bool
  | callContext _ | call _ _ => false
  | _ => true

end Instruction

/-- Code that writes a place, or also one that reads it. -/
def Uses (reads : Bool) (code : Code) (p : Place) : Prop := ∃ i ∈ code, i.place? reads = some p

abbrev Touches (code : Code) (p : Place) : Prop := Uses true code p

abbrev Overwrites (code : Code) (p : Place) : Prop := Uses false code p

/-- Code without calls that the engine takes part in. -/
def Plain (code : Code) : Prop := ∀ i ∈ code, i.plain

section Uses

variable {reads : Bool} {code code' : Code} {i : Instruction} {p : Place}

@[simp] theorem not_uses_nil : ¬ Uses reads [] p := by simp [Uses]

@[simp] theorem uses_cons :
    Uses reads (i :: code) p ↔ i.place? reads = some p ∨ Uses reads code p := by
  simp [Uses]

@[simp] theorem uses_append :
    Uses reads (code ++ code') p ↔ Uses reads code p ∨ Uses reads code' p := by
  simp [Uses, or_and_right, exists_or]

theorem Overwrites.touches (h : Overwrites code p) : Touches code p := by
  obtain ⟨i, hi, hp⟩ := h
  refine ⟨i, hi, ?_⟩
  cases i <;> cases hp <;> rfl

/-- The slots in code. -/
theorem UsesOnly.of_uses {P : Nat → Prop} (h : UsesOnly P code) {k : Nat}
    (hu : Uses reads code (.slot k)) : P k := by
  obtain ⟨i, hi, hp⟩ := hu
  refine h i hi k ?_
  cases i with
  | readSlot | writeSlot =>
    cases reads <;> cases hp <;> rfl
  | readCell | writeCell => cases reads <;> cases hp
  | _ => cases hp

@[simp] theorem plain_nil : Plain [] := by simp [Plain]

@[simp] theorem plain_cons : Plain (i :: code) ↔ i.plain ∧ Plain code := by simp [Plain]

@[simp] theorem plain_append : Plain (code ++ code') ↔ Plain code ∧ Plain code' := by
  simp [Plain, or_imp, forall_and]

end Uses

/-! ## What an instruction does -/

/-- What an instruction does with the numbers that it takes from the stack. -/
inductive Effect where
  /-- Puts numbers back and another one on top, for which there must be room. -/
  | put (kept : List Float) (x : Float)
  | overwrite (p : Place) (x : Float)
  | drop
  | go (offset : Int)

namespace Instruction

/-- The effect of an instruction on the numbers that it takes, the right operand last, where places
have some contents. -/
def effect (c : Place → Float) : Instruction → List Float → Effect
  | constant x, _ => .put [] x
  | readCell k, _ => .put [] (c (.cell k))
  | readSlot k, _ => .put [] (c (.slot k))
  | writeCell k, [x] => .overwrite (.cell k) x
  | writeSlot k, [x] => .overwrite (.slot k) x
  | arithmetic op, [x, y] => .put [] (op.apply x y)
  | compare op, [x, y] => .put [] (Number.ofBool (op.onNumbers x y))
  | logical op, [x, y] => .put [] (Number.ofBool (op.apply (Number.isTrue x) (Number.isTrue y)))
  | unary op, [x] => .put [] (unaryOn op x)
  | dup, [x] => .put [x] x
  | jump offset, _ => .go offset
  | jumpIf offset, [x] => .go (if Number.isTrue x then offset else 1)
  | callPlain f, args => .put [] (f.run args)
  | _, _ => .drop

end Instruction

/-- A heap and an engine with another number at a place. -/
def Place.set (x : Float) : Place → Array Float × Engine → Array Float × Engine
  | .cell k, (heap, st) =>
    (heap, { st with env := { st.env with store := st.env.store.setNumber k x } })
  | .slot k, (heap, st) => (setSlot heap k x, st)

/-- An effect on the numbers at the end of a stack. -/
def Effect.apply (limit n a : Nat) (s heap : Array Float) (st : Engine) :
    Effect → Except Fault Machine × Engine
  | put kept x => (Machine.putNext limit x ⟨a, s ++ kept.toArray, heap⟩, st)
  | overwrite p x => (.ok ⟨a + 1, s, (p.set x (heap, st)).1⟩, (p.set x (heap, st)).2)
  | drop => (.ok ⟨a + 1, s, heap⟩, st)
  | go offset => (Machine.jumpTo n offset ⟨a, s, heap⟩, st)

section Effects

variable {limit n a : Nat} {s heap : Array Float} {st : Engine} {i : Instruction}
  {c : Place → Float}

theorem append_singleton (s : Array Float) (x : Float) : s ++ [x].toArray = s.push x :=
  Array.push_eq_append.symm

theorem append_pair (s : Array Float) (x y : Float) : s ++ [x, y].toArray = (s.push x).push y := by
  rw [← append_singleton, ← append_singleton, Array.append_assoc]
  rfl

/-- **An instruction does what its effect says**, which depends on the number at its place only. -/
theorem execute_eq_apply (hi : i.plain) {args : List Float} (hargs : args.length = i.pops)
    (hc : ∀ p ∈ i.place? true, c p = contents heap st.env.store p) (ha : a < n) :
    execute limit n i ⟨a, s ++ args.toArray, heap⟩ st =
      (i.effect c args).apply limit n a s heap st := by
  cases i with
  | constant x | jump o =>
    obtain rfl := List.length_eq_zero_iff.1 hargs
    rw [Array.append_empty]
    rfl
  | readCell k =>
    obtain rfl := List.length_eq_zero_iff.1 hargs
    rw [Array.append_empty, execute_readCell, Instruction.effect, hc _ rfl]
    rfl
  | readSlot k =>
    obtain rfl := List.length_eq_zero_iff.1 hargs
    rw [Array.append_empty, execute_readSlot, Instruction.effect, hc _ rfl]
    rfl
  | writeCell k =>
    obtain ⟨x, rfl⟩ := List.length_eq_one_iff.1 hargs
    rw [append_singleton, execute_writeCell]
    rfl
  | writeSlot k =>
    obtain ⟨x, rfl⟩ := List.length_eq_one_iff.1 hargs
    rw [append_singleton, execute_writeSlot]
    rfl
  | arithmetic op =>
    obtain ⟨x, y, rfl⟩ := List.length_eq_two.1 hargs
    rw [append_pair, execute_arithmetic]
    rfl
  | compare op =>
    obtain ⟨x, y, rfl⟩ := List.length_eq_two.1 hargs
    rw [append_pair, execute_compare]
    rfl
  | logical op =>
    obtain ⟨x, y, rfl⟩ := List.length_eq_two.1 hargs
    rw [append_pair, execute_logical]
    rfl
  | unary op =>
    obtain ⟨x, rfl⟩ := List.length_eq_one_iff.1 hargs
    rw [append_singleton, execute_unary]
    rfl
  | dup =>
    obtain ⟨x, rfl⟩ := List.length_eq_one_iff.1 hargs
    rw [append_singleton, execute_dup]
    rfl
  | pop =>
    obtain ⟨x, rfl⟩ := List.length_eq_one_iff.1 hargs
    rw [append_singleton, execute_pop]
    rfl
  | jumpIf o =>
    obtain ⟨x, rfl⟩ := List.length_eq_one_iff.1 hargs
    rw [append_singleton, execute_jumpIf, Instruction.effect]
    cases Number.isTrue x with
    | true => rfl
    | false => exact congrArg (·, st) (jumpTo_of_le s heap rfl ha).symm
  | callPlain f => exact execute_callPlain _ _ _ _ _ _ _ _ hargs.symm
  | callContext | call => cases hi

theorem length_of_put {args kept : List Float} {x : Float} (h : i.effect c args = .put kept x) :
    kept.length ≤ args.length := by
  unfold Instruction.effect at h
  split at h <;> cases h <;> simp

/-- The stack is full if an instruction says so. -/
theorem le_size_of_overflow (hi : i.plain) {m : Machine} (hs : i.pops ≤ m.stack.size)
    (ha : m.address < n) (h : (execute limit n i m st).1 = .error .stackOverflow) :
    limit ≤ m.stack.size := by
  obtain ⟨a, s, heap⟩ := m
  obtain ⟨s, args, hargs, rfl⟩ := exists_append_of_le hs
  rw [execute_eq_apply hi hargs (fun _ _ => rfl) ha] at h
  cases he : i.effect (contents heap st.env.store) args with
  | put kept x =>
    rw [he] at h
    by_contra hlt
    have hk := length_of_put he
    simp only [Array.size_append, List.size_toArray] at hlt
    have hroom : (s ++ kept.toArray).size < limit := by
      simp only [Array.size_append, List.size_toArray]
      omega
    rw [Effect.apply, Machine.putNext_of_lt _ _ _ hroom] at h
    cases h
  | overwrite => rw [he] at h; cases h
  | drop => rw [he] at h; cases h
  | go offset =>
    rw [he, Effect.apply, Machine.jumpTo] at h
    dsimp only at h
    split at h <;> cases h

end Effects

/-! ## Runs of a piece by itself -/

/-- With enough room on the stack, a piece of code by itself gets behind its end, from a heap and an
engine to others, and leaves some numbers. -/
def Alone (piece : Code) (heap : Array Float) (st : Engine) (outs : List Float)
    (heap' : Array Float) (st' : Engine) : Prop :=
  ∃ limit, Reaches limit piece.toArray (⟨0, #[], heap⟩, st)
    (⟨piece.length, outs.toArray, heap'⟩, st')

section Alone

variable {limit k : Nat} {code : Array Instruction} {piece : Code} {height : Nat → Nat}
  {m : Machine} {st : Engine} {heap : Array Float} {Q : Machine → Engine → Prop}

/-- Where the stack has room for the heights of the code, no run fails. -/
theorem Leads.exists_reaches (h : Leads limit code (· = .stackOverflow) Q m st)
    (hfits : ∀ a i, code[a]? = some i → Fits height code.size a i)
    (hplain : ∀ i ∈ code, i.plain) (hlimit : ∀ a ≤ code.size, height a < limit)
    (hm : Balanced height code.size m) :
    ∃ m' st', Reaches limit code (m, st) (m', st') ∧ Q m' st' := by
  induction h with
  | here h => exact ⟨_, _, .refl, h⟩
  | @fault m st st' i f hi he hf =>
    subst hf
    have hfit := hfits _ i hi
    obtain ⟨ha, hcode⟩ := Array.getElem?_eq_some_iff.1 hi
    have hfull := le_size_of_overflow (hplain i (hcode ▸ Array.getElem_mem ha))
      (hm.2 ▸ hfit.1) ha (congrArg Prod.fst he)
    have := hlimit _ hm.1
    rw [← hm.2] at this
    omega
  | @step m m' st st' i hi he _ ih =>
    have hm' := hm.execute limit st (hfits _ i hi)
    rw [he] at hm'
    obtain ⟨m₁, st₁, hr, hq⟩ := ih hm'
    exact ⟨m₁, st₁, .head ⟨i, hi, he⟩ hr, hq⟩

/-- A piece whose runs all lead behind it has a run by itself. -/
theorem alone_of_leads (heap : Array Float) (st : Engine)
    {R : List Float → Array Float → Engine → Prop} (hr : Raises piece 0 k) (hplain : Plain piece)
    (h : ∀ limit, Leads limit piece.toArray (· = .stackOverflow) (fun m st' => ∃ outs heap',
      m = ⟨piece.length, outs.toArray, heap'⟩ ∧ R outs heap' st') ⟨0, #[], heap⟩ st) :
    ∃ outs heap' st', Alone piece heap st outs heap' st' ∧ R outs heap' st' := by
  obtain ⟨height, h₀, -, hsteady⟩ := hr
  have hle : ∀ a ≤ piece.toArray.size,
      height a < (Finset.range (piece.toArray.size + 1)).sup height + 1 := fun a ha =>
    Nat.lt_succ_of_le (Finset.le_sup (Finset.mem_range_succ_iff.2 ha))
  have hfits : ∀ a i, piece.toArray[a]? = some i → Fits height piece.toArray.size a i := by
    intro a i hi
    simpa using hsteady.fits (j := a) (by simpa using hi)
  obtain ⟨m, st', hreach, outs, heap', rfl, hR⟩ := (h _).exists_reaches hfits
    (fun i hi => hplain i (by simpa using hi)) hle ⟨Nat.zero_le _, h₀.symm⟩
  exact ⟨outs, heap', st', ⟨_, hreach⟩, hR⟩

end Alone

/-! ## Runs beside each other -/

section Set

variable (p : Place) (x : Float) (heap : Array Float) (st : Engine)

theorem contents_set (hp : ∀ k, p = .cell k → k < st.env.store.numbers.size) :
    contents (p.set x (heap, st)).1 (p.set x (heap, st)).2.env.store =
      Function.update (contents heap st.env.store) p x := by
  cases p with
  | cell k => exact contents_setNumber heap st.env.store x (hp k rfl)
  | slot k => exact contents_setSlot heap st.env.store x k

theorem Frozen.Runs.set {K : Frozen} {st : Engine} (h : K.Runs st) :
    K.Runs (p.set x (heap, st)).2 := by
  cases p with
  | cell k =>
    refine ⟨h.vars, ?_⟩
    rw [← h.size]
    simp [Place.set, Store.setNumber]
  | slot k => exact h

end Set

namespace Frozen

variable (K : Frozen)

/-- A run inside a program is beside one of a piece by itself: it is as far in the piece, with the
same numbers on top of the stack and at the places that the piece touches. Places that the piece
does not write are as they were, in both runs. -/
structure Beside (piece : Code) (d : Nat) (base : Array Float) (c c' : Place → Float)
    (m : Machine) (st : Engine) (m' : Machine) (st' : Engine) : Prop where
  address : m'.address = d + m.address
  stack : m'.stack = base ++ m.stack
  runs : K.Runs st
  runs' : K.Runs st'
  same : ∀ p, Touches piece p → contents m'.heap st'.env.store p = contents m.heap st.env.store p
  kept : ∀ p, ¬ Overwrites piece p → contents m.heap st.env.store p = c p
  kept' : ∀ p, ¬ Overwrites piece p → contents m'.heap st'.env.store p = c' p

variable {K} {piece : Code} {d limit limit' n : Nat} {base : Array Float} {c c' : Place → Float}
  {m m₁ m' : Machine} {st st₁ st' : Engine} {i : Instruction}

/-- **A step of the first run** is repeated by the second one, unless its stack is full. -/
theorem Beside.execute (limit' : Nat) (h : K.Beside piece d base c c' m st m' st') (hi : i ∈ piece)
    (hplain : i.plain) (hcells : ∀ k, Touches piece (.cell k) → k < K.env.store.numbers.size)
    (ha : m.address < piece.length) (hn : d + piece.length ≤ n)
    (he : execute limit piece.length i m st = (.ok m₁, st₁)) :
    (execute limit' n i m' st').1 = .error .stackOverflow ∨ ∃ m₁' st₁',
      execute limit' n i m' st' = (.ok m₁', st₁') ∧ K.Beside piece d base c c' m₁ st₁ m₁' st₁' := by
  obtain ⟨a, s, heap⟩ := m
  obtain ⟨a', s', heap'⟩ := m'
  obtain ⟨rfl, rfl, hr, hr', hsame, hkept, hkept'⟩ := h
  dsimp only at ha hsame hkept hkept' he ⊢
  rcases Nat.lt_or_ge s.size i.pops with hs | hs
  · obtain ⟨f, hf⟩ := execute_of_lt limit piece.length a heap st hs
    rw [he] at hf
    cases hf
  obtain ⟨s, args, hargs, rfl⟩ := exists_append_of_le hs
  have hsame' : ∀ p ∈ i.place? true,
      contents heap st.env.store p = contents heap' st'.env.store p :=
    fun p hp => (hsame p ⟨i, hi, hp⟩).symm
  rw [execute_eq_apply hplain hargs (fun _ _ => rfl) ha] at he
  rw [← Array.append_assoc, execute_eq_apply hplain hargs hsame' (by omega)]
  cases hx : i.effect (contents heap st.env.store) args with
  | put kept x =>
    rw [hx] at he
    rw [Effect.apply] at he ⊢
    have hlt : (s ++ kept.toArray).size < limit := by
      by_contra hle
      rw [Machine.putNext_of_le _ _ _ (Nat.not_lt.1 hle)] at he
      cases he
    rw [Machine.putNext_of_lt _ _ _ hlt] at he
    cases he
    by_cases hlt' : (base ++ s ++ kept.toArray).size < limit'
    · rw [Machine.putNext_of_lt _ _ _ hlt']
      refine .inr ⟨_, _, rfl, Nat.add_assoc .., ?_, hr, hr', hsame, hkept, hkept'⟩
      dsimp only
      rw [Array.append_assoc, Array.append_push]
    · rw [Machine.putNext_of_le _ _ _ (Nat.not_lt.1 hlt')]
      exact .inl rfl
  | overwrite p x =>
    rw [hx] at he
    cases he
    have hover : Overwrites piece p := by
      refine ⟨i, hi, ?_⟩
      unfold Instruction.effect at hx
      split at hx <;> cases hx <;> rfl
    have hlt : ∀ k, p = .cell k → k < K.env.store.numbers.size := by
      rintro k rfl
      exact hcells k hover.touches
    have hset := contents_set p x heap st fun k hk => hr.size.symm ▸ hlt k hk
    have hset' := contents_set p x heap' st' fun k hk => hr'.size.symm ▸ hlt k hk
    refine .inr ⟨_, _, rfl, Nat.add_assoc .., rfl, hr.set p x heap, hr'.set p x heap',
      fun q hq => ?_, fun q hq => ?_, fun q hq => ?_⟩
    · dsimp only
      rw [hset, hset', Function.update_apply, Function.update_apply, hsame q hq]
    · dsimp only
      rw [hset, Function.update_of_ne (fun h : q = p => hq (h ▸ hover)), hkept q hq]
    · dsimp only
      rw [hset', Function.update_of_ne (fun h : q = p => hq (h ▸ hover)), hkept' q hq]
  | drop =>
    rw [hx] at he
    cases he
    exact .inr ⟨_, _, rfl, Nat.add_assoc .., rfl, hr, hr', hsame, hkept, hkept'⟩
  | go offset =>
    rw [hx, Effect.apply] at he
    rw [Effect.apply]
    have hin : 0 ≤ (a : Int) + offset ∧ (a : Int) + offset ≤ piece.length := by
      by_contra hn
      rw [Machine.jumpTo, if_neg hn] at he
      cases he
    obtain ⟨b, hb⟩ := Int.eq_ofNat_of_zero_le hin.1
    rw [jumpTo_of_le s heap hb.symm (by omega)] at he
    cases he
    rw [jumpTo_of_le (base ++ s) heap' (b := d + b) (by push_cast; omega) (by omega)]
    exact .inr ⟨_, _, rfl, rfl, rfl, hr, hr', hsame, hkept, hkept'⟩

end Frozen

/-! ## Trails -/

/-- What a slot holds if a machine is at an address. -/
def Machine.noted (site slot : Nat) (m : Machine) : List Float :=
  if m.address = site then [getSlot m.heap slot] else []

/-- What a slot holds whenever a run of at most `n` instructions is at an address. -/
def passages (limit : Nat) (code : Array Instruction) (site slot : Nat) :
    Nat → Machine → Engine → List Float
  | 0, _, _ => []
  | n + 1, m, st =>
    match code[m.address]? with
    | none => []
    | some i =>
      match execute limit code.size i m st with
      | (.ok m', st') => m.noted site slot ++ passages limit code site slot n m' st'
      | (.error _, _) => []

section Trail

variable (limit : Nat) (code : Array Instruction) (site slot : Nat)

/-- Every run from a machine and an engine gets to some of a kind and passes an address with some
numbers in a slot, unless its stack is full. -/
inductive Trail (Q : Machine → Engine → Prop) : List Float → Machine → Engine → Prop where
  | here {m : Machine} {st : Engine} (h : Q m st) : Trail Q [] m st
  | full {xs : List Float} {m : Machine} {st st' : Engine} {i : Instruction}
      (hi : code[m.address]? = some i)
      (he : execute limit code.size i m st = (.error .stackOverflow, st')) : Trail Q xs m st
  | step {xs : List Float} {m m' : Machine} {st st' : Engine} {i : Instruction}
      (hi : code[m.address]? = some i) (he : execute limit code.size i m st = (.ok m', st'))
      (h : Trail Q xs m' st') : Trail Q (m.noted site slot ++ xs) m st

variable {limit code site slot} {Q R : Machine → Engine → Prop} {xs ys : List Float}
  {m m' : Machine} {st st' : Engine} {i : Instruction}

namespace Trail

theorem bind (h : Trail limit code site slot Q xs m st)
    (hQ : ∀ m st, Q m st → Trail limit code site slot R ys m st) :
    Trail limit code site slot R (xs ++ ys) m st := by
  induction h with
  | here h => exact hQ _ _ h
  | full hi he => exact .full hi he
  | step hi he _ ih =>
    rw [List.append_assoc]
    exact .step hi he ih

theorem mono (h : Trail limit code site slot Q xs m st) (hQ : ∀ m st, Q m st → R m st) :
    Trail limit code site slot R xs m st := by
  rw [← List.append_nil xs]
  exact h.bind fun m st hq => .here (hQ m st hq)

/-- A step somewhere else. -/
theorem pass (hi : code[m.address]? = some i) (he : execute limit code.size i m st = (.ok m', st'))
    (ha : m.address ≠ site) (h : Trail limit code site slot Q xs m' st') :
    Trail limit code site slot Q xs m st := by
  have := h.step hi he
  rwa [Machine.noted, if_neg ha] at this

/-- An instruction that puts a number on the stack somewhere else. -/
theorem put {a : Nat} {s t heap : Array Float} {x : Float} (hi : code[a]? = some i)
    (he : execute limit code.size i ⟨a, t, heap⟩ st = (Machine.putNext limit x ⟨a, s, heap⟩, st'))
    (ha : a ≠ site) (hn : Trail limit code site slot Q xs ⟨a + 1, s.push x, heap⟩ st') :
    Trail limit code site slot Q xs ⟨a, t, heap⟩ st := by
  by_cases hs : s.size < limit
  · rw [Machine.putNext_of_lt a heap x hs] at he
    exact .pass hi he ha hn
  · rw [Machine.putNext_of_le a heap x (Nat.not_lt.1 hs)] at he
    exact .full hi he

/-- An instruction that puts a number on the stack at the address itself. -/
theorem note {s t heap : Array Float} {x : Float} (hi : code[site]? = some i)
    (he : execute limit code.size i ⟨site, t, heap⟩ st =
      (Machine.putNext limit x ⟨site, s, heap⟩, st'))
    (hn : Trail limit code site slot Q xs ⟨site + 1, s.push x, heap⟩ st') :
    Trail limit code site slot Q (getSlot heap slot :: xs) ⟨site, t, heap⟩ st := by
  by_cases hs : s.size < limit
  · rw [Machine.putNext_of_lt site heap x hs] at he
    have := hn.step (m := ⟨site, t, heap⟩) hi he
    rwa [Machine.noted, if_pos rfl] at this
  · rw [Machine.putNext_of_le site heap x (Nat.not_lt.1 hs)] at he
    exact .full hi he

theorem write {a k : Nat} {s heap : Array Float} {x : Float} (hi : code[a]? = some (.writeSlot k))
    (ha : a ≠ site) (hn : Trail limit code site slot Q xs ⟨a + 1, s, setSlot heap k x⟩ st) :
    Trail limit code site slot Q xs ⟨a, s.push x, heap⟩ st :=
  .pass hi (execute_writeSlot ..) ha hn

theorem jump {o : Int} {a b : Nat} {s heap : Array Float} (hi : code[a]? = some (.jump o))
    (hb : (b : Int) = a + o) (hle : b ≤ code.size) (ha : a ≠ site)
    (hn : Trail limit code site slot Q xs ⟨b, s, heap⟩ st) :
    Trail limit code site slot Q xs ⟨a, s, heap⟩ st :=
  .pass hi (by rw [execute_jump, jumpTo_of_le s heap hb hle]) ha hn

/-- A conditional jump leads to either of two addresses. -/
theorem jumpIf {o : Int} {a b : Nat} {s heap : Array Float} {x : Float} {c : Bool}
    (hi : code[a]? = some (.jumpIf o)) (hb : (b : Int) = a + o) (hle : b ≤ code.size)
    (ha : a ≠ site) (hx : Number.isTrue x = c)
    (ht : c = true → Trail limit code site slot Q xs ⟨b, s, heap⟩ st)
    (hf : c = false → Trail limit code site slot Q xs ⟨a + 1, s, heap⟩ st) :
    Trail limit code site slot Q xs ⟨a, s.push x, heap⟩ st := by
  have he := execute_jumpIf limit code.size a s heap x st o
  rw [hx, jumpTo_of_le s heap hb hle] at he
  cases c with
  | true => exact .pass hi he ha (ht rfl)
  | false => exact .pass hi he ha (hf rfl)

/-- Enough steps get where the runs lead, and pass the address on the way. -/
theorem exists_runFor (h : Trail limit code site slot Q xs m st)
    (hend : ∀ m st, Q m st → code.size ≤ m.address) :
    ∃ n st', (∃ m', runFor limit code n m st = (some (.ok m'), st') ∧ Q m' st' ∧
        passages limit code site slot n m st = xs) ∨
      runFor limit code n m st = (some (.error .stackOverflow), st') := by
  induction h with
  | @here m st hq =>
    refine ⟨0, st, .inl ⟨m, ?_, hq, rfl⟩⟩
    rw [runFor, if_pos (hend m st hq)]
  | @full xs m st st' i hi he =>
    refine ⟨1, st', .inr ?_⟩
    rw [runFor, hi]
    simp only [he]
  | @step xs m m' st st' i hi he _ ih =>
    obtain ⟨n, st₁, hn⟩ := ih
    refine ⟨n + 1, st₁, ?_⟩
    rw [runFor, passages, hi]
    simp only [he]
    refine hn.imp_left ?_
    rintro ⟨m₁, hrun, hq, rfl⟩
    exact ⟨m₁, hrun, hq, rfl⟩

end Trail

end Trail

section Alone

variable {K : Frozen} {piece : Code} {limit limit₁ d site slot : Nat} {code : Array Instruction}
  {s heap heap₁ heap' : Array Float} {st st₁ st' : Engine} {outs : List Float}
  {Q : Machine → Engine → Prop} {xs : List Float}

theorem Placed.getElem? {j : Nat} {i : Instruction} (h : Placed code d piece)
    (hi : piece[j]? = some i) : code[d + j]? = some i := by
  induction piece generalizing d j with
  | nil => simp at hi
  | cons i' piece ih =>
    cases j with
    | zero =>
      cases hi
      exact h.1
    | succ j =>
      rw [← ih h.2 (j := j) (by simpa using hi), Nat.add_right_comm, Nat.add_assoc]

/-- The second of two runs beside each other leads to where it is beside the end of the first. -/
theorem Frozen.Beside.trail {c c' : Place → Float} {b e : Machine × Engine} {m' : Machine}
    (hreach : Reaches limit₁ piece.toArray b e) (hm : K.Beside piece d s c c' b.1 b.2 m' st')
    (hplain : Plain piece)
    (hcells : ∀ k, Touches piece (.cell k) → k < K.env.store.numbers.size)
    (hp : Placed code d piece) (hd : d ≤ code.size) (hsite : site < d ∨ d + piece.length ≤ site)
    (hn : ∀ m₁' st₁', K.Beside piece d s c c' e.1 e.2 m₁' st₁' →
      Trail limit code site slot Q xs m₁' st₁') : Trail limit code site slot Q xs m' st' := by
  -- The induction is on the first run, which the second one stays beside.
  induction hreach using Relation.ReflTransGen.head_induction_on generalizing m' st' with
  | refl => exact hn m' st' hm
  | @head b b₁ hstep hrest ih =>
    obtain ⟨i, hi, he⟩ := hstep
    have hi : piece[b.1.address]? = some i := by simpa using hi
    obtain ⟨hlt, hcode⟩ := List.getElem?_eq_some_iff.1 hi
    have hmem : i ∈ piece := hcode ▸ List.getElem_mem hlt
    have hplaced : code[m'.address]? = some i := hm.address ▸ hp.getElem? hi
    have hne : m'.address ≠ site := by
      rw [hm.address]
      omega
    rw [List.size_toArray] at he
    rcases hx : Bytecode.execute limit code.size i m' st' with ⟨r, st₁'⟩
    rcases hm.execute limit hmem (hplain i hmem) hcells hlt (hp.le_size hd) he with
      hfull | ⟨m₁', st₁', he', hm₁⟩
    · rw [hx] at hfull
      dsimp only at hfull
      exact .full hplaced (hx.trans (by rw [hfull]))
    · exact .pass hplaced he' hne (ih hm₁)

/-- A run of a piece changes nothing at other places than the piece writes. -/
theorem Alone.kept (h : Alone piece heap st outs heap₁ st₁) (hplain : Plain piece)
    (hcells : ∀ k, Touches piece (.cell k) → k < K.env.store.numbers.size) (hr : K.Runs st) :
    K.Runs st₁ ∧ ∀ p, ¬ Overwrites piece p →
      contents heap₁ st₁.env.store p = contents heap st.env.store p := by
  obtain ⟨limit₁, hreach⟩ := h
  -- The run is beside itself.
  have hbeside : ∀ e : Machine × Engine, Reaches limit₁ piece.toArray (⟨0, #[], heap⟩, st) e →
      K.Beside piece 0 #[] (contents heap st.env.store) (contents heap st.env.store)
        e.1 e.2 e.1 e.2 := by
    intro e he
    induction he with
    | refl => exact ⟨rfl, rfl, hr, hr, fun _ _ => rfl, fun _ _ => rfl, fun _ _ => rfl⟩
    | @tail b e _ hstep ih =>
      obtain ⟨i, hi, he⟩ := hstep
      have hi : piece[b.1.address]? = some i := by simpa using hi
      obtain ⟨hlt, hcode⟩ := List.getElem?_eq_some_iff.1 hi
      have hmem : i ∈ piece := hcode ▸ List.getElem_mem hlt
      rw [List.size_toArray] at he
      rcases ih.execute limit₁ hmem (hplain i hmem) hcells hlt
        (Nat.le_of_eq (Nat.zero_add _)) he with hfull | ⟨m₁, st₁, he', hm⟩
      · rw [he] at hfull
        cases hfull
      · rw [he] at he'
        cases he'
        exact hm
  have hend := hbeside _ hreach
  exact ⟨hend.runs, hend.kept⟩

/-- **A run of a piece by itself is repeated** where the piece lies in a program, from other numbers
at the places that it does not touch, and leads to the same numbers at those that it does. -/
theorem Alone.trail (h : Alone piece heap st outs heap₁ st₁) (hplain : Plain piece)
    (hcells : ∀ k, Touches piece (.cell k) → k < K.env.store.numbers.size) (hr : K.Runs st)
    (hr' : K.Runs st') (hsame : ∀ p, Touches piece p →
      contents heap' st'.env.store p = contents heap st.env.store p)
    (hp : Placed code d piece) (hd : d ≤ code.size) (hsite : site < d ∨ d + piece.length ≤ site)
    (hn : ∀ heap₁' st₁', K.Runs st₁' → (∀ p, Touches piece p →
        contents heap₁' st₁'.env.store p = contents heap₁ st₁.env.store p) →
      (∀ p, ¬ Overwrites piece p →
        contents heap₁' st₁'.env.store p = contents heap' st'.env.store p) →
      Trail limit code site slot Q xs ⟨d + piece.length, s ++ outs.toArray, heap₁'⟩ st₁') :
    Trail limit code site slot Q xs ⟨d, s, heap'⟩ st' := by
  obtain ⟨limit₁, hreach⟩ := h
  refine Frozen.Beside.trail hreach ⟨rfl, Array.append_empty.symm, hr, hr', hsame, fun _ _ => rfl,
    fun _ _ => rfl⟩ hplain hcells hp hd hsite fun m₁' st₁' hm => ?_
  obtain ⟨a', s', heap₁'⟩ := m₁'
  obtain ⟨rfl, rfl, -, hr₁, hsame₁, -, hkept'⟩ := hm
  exact hn heap₁' st₁' hr₁ hsame₁ hkept'

/-- The same from the same numbers everywhere. -/
theorem Alone.trail_same (h : Alone piece heap st outs heap₁ st₁) (hplain : Plain piece)
    (hcells : ∀ k, Touches piece (.cell k) → k < K.env.store.numbers.size) (hr : K.Runs st)
    (hr' : K.Runs st') (hsame : contents heap' st'.env.store = contents heap st.env.store)
    (hp : Placed code d piece) (hd : d ≤ code.size) (hsite : site < d ∨ d + piece.length ≤ site)
    (hn : ∀ heap₁' st₁', K.Runs st₁' →
      contents heap₁' st₁'.env.store = contents heap₁ st₁.env.store →
      Trail limit code site slot Q xs ⟨d + piece.length, s ++ outs.toArray, heap₁'⟩ st₁') :
    Trail limit code site slot Q xs ⟨d, s, heap'⟩ st' := by
  refine h.trail hplain hcells hr hr' (fun p _ => congrFun hsame p) hp hd hsite
    fun heap₁' st₁' hr₁ hsame₁ hkept' => hn heap₁' st₁' hr₁ (funext fun p => ?_)
  by_cases hover : Overwrites piece p
  · exact hsame₁ p hover.touches
  · exact (hkept' p hover).trans
      ((congrFun hsame p).trans ((h.kept hplain hcells hr).2 p hover).symm)

end Alone

end FormulaLang.Bytecode
