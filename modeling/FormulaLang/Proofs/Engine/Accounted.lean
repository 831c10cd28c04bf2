import FormulaLang.Proofs.Engine.Operands
import FormulaLang.Proofs.Environment.Intact

/-!
# Faults behind invalid values

A computation accounts for its result if the result is what it should be, unless a fault was
recorded. It keeps the environment intact in either case, so that an invalid value is bound to no
name and stored in no other value.

* `Accounted`: what holds behind a computation in any case, and what holds unless a fault was
  recorded.
* `Accounted.bind`, `accounted_check`, `accounted_assign`, `accounted_inBlock`: its parts.
* `accounted_eager`, `LoopSource.accounted_check`: what trees do with the values of their operands.
* `accounted_overItems`, **`accounted_runLoop`**: loops.
-/

namespace FormulaLang

open Environment (Intact)
open Value (Clear)

variable {α β σ : Type} {I : Nat → Environment → Prop}

/-! ## Computations that account for their results -/

/-- **A computation accounts for its result**: it keeps to an invariant of the environment at each
level, `Q` holds of the result, and so does `R` unless a fault was recorded. -/
def Accounted (I : Nat → Environment → Prop) (Q R : α → Prop) (x : Eval α) : Prop :=
  ∀ level (st : Engine), I level st.env →
    I level (x st).2.env ∧ Q (x st).1 ∧ st.log.size ≤ (x st).2.log.size ∧
      (R (x st).1 ∨ st.log.size < (x st).2.log.size)

/-- The value is invalid as a whole or not at all, and not invalid unless a fault was recorded. -/
abbrev Accounts (I : Nat → Environment → Prop) (x : Eval Value) : Prop :=
  Accounted I Clear (fun v => v.whole) x

section Accounted

variable {Q R : α → Prop} {Q' R' : β → Prop} {x : Eval α} {f : α → Eval β} {v w : Value}

theorem Accounted.mono {Q' R' : α → Prop} (h : Accounted I Q R x) (hQ : ∀ a, Q a → Q' a)
    (hR : ∀ a, Q a → R a → R' a) : Accounted I Q' R' x := by
  intro level st hst
  obtain ⟨hi, hq, hle, hr⟩ := h level st hst
  exact ⟨hi, hQ _ hq, hle, hr.imp_left (hR _ hq)⟩

theorem Accounted.imp {R' : α → Prop} (h : Accounted I Q R x) (hR : ∀ a, Q a → R a → R' a) :
    Accounted I Q R' x :=
  h.mono (fun _ => id) hR

theorem accounted_pure {a : α} (hq : Q a) (hr : R a) : Accounted I Q R (pure a : Eval α) :=
  fun _ _ hst => ⟨hst, hq, Nat.le_refl _, .inl hr⟩

/-- **Two computations one after the other.** The second one owes its result only where the first
one has one: otherwise a fault was recorded already. -/
theorem Accounted.bind (hx : Accounted I Q R x)
    (hf : ∀ a, Q a → Accounted I Q' (fun b => R a → R' b) (f a)) :
    Accounted I Q' R' (x >>= f) := by
  intro level st hst
  obtain ⟨hi, hq, hle, hr⟩ := hx level st hst
  obtain ⟨hi', hq', hle', hr'⟩ := hf _ hq level _ hi
  refine ⟨hi', hq', Nat.le_trans hle hle', ?_⟩
  rcases hr with hr | hlt
  · exact hr'.imp (fun h => h hr) (Nat.lt_of_le_of_lt hle)
  · exact .inr (Nat.lt_of_lt_of_le hlt hle')

theorem accounted_report {Q R : Unit → Prop} (f : Fault) (hq : Q ()) :
    Accounted I Q R (Eval.report f) := by
  intro level st hst
  have hsize : ((Eval.report f : Eval Unit) st).2.log.size = st.log.size + 1 := Array.size_push _
  exact ⟨hst, hq, by omega, .inr (by omega)⟩

theorem accounted_fail {Q R : Value → Prop} (f : Fault) (hq : Q .invalid) :
    Accounted I Q R (Eval.fail f) :=
  (accounted_report (Q := fun _ => True) (R := fun _ => False) f trivial).bind fun _ _ =>
    accounted_pure hq fun h => h.elim

theorem accounted_check {valid : Prop} {r : Except Fault Value} (hr : Proper valid r) :
    Accounted I Clear (fun v => valid → v.whole) (Eval.check r) := by
  cases r with
  | ok v =>
    obtain ⟨hclear, hwhole⟩ := hr v rfl
    exact accounted_pure hclear hwhole
  | error f => exact accounted_fail f Value.clear_invalid

theorem accounted_change {g : Environment → Environment}
    (hg : ∀ level env, I level env → I level (g env)) :
    Accounted I (fun _ => True) (fun _ => True) (Eval.change g) :=
  fun level st hst => ⟨hg level st.env hst, trivial, Nat.le_refl _, .inl trivial⟩

end Accounted

/-! ## Intact environments -/

section Intact

variable {held : List Nat} {P : String → Function → Prop} {base : Nat} {Q R : α → Prop}
  {x : Eval α} {name : String} {v w : Value} {vs : List Value}

theorem accounted_value? (name : String) : Accounted (Intact held P base)
    (fun r => ∀ v ∈ r, v.whole) (fun _ => True) (Eval.value? name) :=
  fun _ _ hst => ⟨hst, fun _ hv => hst.value? hv, Nat.le_refl _, .inl trivial⟩

theorem accounted_assign (hv : v.whole) (name : String) :
    Accounts (Intact held P base) (Eval.assign name v) := by
  intro level st hst
  have hset := hst.setVariable hv name
  rcases assign_cases st name v with ⟨ha, -⟩ | ⟨f, ha⟩
  · rw [ha]
    exact ⟨hset, .inr hv, Nat.le_refl _, .inl hv⟩
  · rw [ha]
    have hlt : st.log.size < ((st.onEnv fun env => (env.setVariable name v).1).report f).log.size :=
      Nat.lt_of_lt_of_eq (Nat.lt_succ_self _) (Array.size_push _).symm
    exact ⟨hset, Value.clear_invalid, Nat.le_of_lt hlt, .inr hlt⟩

theorem accounted_inBlock (hx : Accounted (Intact held P base) Q R x) :
    Accounted (Intact held P base) Q R (Eval.inBlock x) := by
  intro level st hst
  obtain ⟨hi, hrest⟩ := hx (level + 1) (st.onEnv .enter) hst.enter
  exact ⟨hi.leave hst.base_le, hrest⟩

theorem accounted_bindAll (params : List String) (hvs : ∀ v ∈ vs, v.whole) :
    Accounted (Intact held P base) (fun _ => True) (fun _ => True) (bindAll params vs) := by
  refine accounted_change fun level env henv => ?_
  have hpairs : ∀ p ∈ params.zip vs, p.2.whole := fun p hp => hvs _ (List.of_mem_zip hp).2
  generalize params.zip vs = pairs at hpairs
  induction pairs generalizing env with
  | nil => exact henv
  | cons p pairs ih =>
    obtain ⟨hp, hpairs⟩ := List.forall_mem_cons.1 hpairs
    exact ih _ (henv.addVariable hp p.1) hpairs

/-! ## Operands -/

theorem isInvalid_of_forall (h : ∀ v ∈ vs, v.whole) : vs.any Value.isInvalid = false :=
  List.any_eq_false.2 fun v hv => by rw [Value.isInvalid_of_whole (h v hv)]; decide

/-- Three whole bounds are a range, or one of them is at fault. -/
theorem rangeOf_ne_invalid {a b c : Value} (h : ∀ v ∈ [a, b, c], v.whole) :
    rangeOf a b c ≠ .error none := by
  obtain ⟨ha, hb, hc⟩ : a.whole ∧ b.whole ∧ c.whole := by simpa using h
  cases a with
  | invalid => cases ha
  | number x =>
    cases b with
    | invalid => cases hb
    | number y =>
      cases c with
      | invalid => cases hc
      | _ => exact fun h => by cases h
    | _ => exact fun h => by cases h
  | _ => exact fun h => by cases h

theorem accounted_ofBounds {f : Option Range → Eval α} (hlen : vs.length = 3)
    (hnone : Accounted I Q (fun _ => True) (f none))
    (hsome : ∀ r, Accounted I Q R (f (some r))) :
    Accounted I Q (fun a => (∀ v ∈ vs, v.whole) → R a) (ofBounds f vs) := by
  obtain ⟨a, b, c, rfl⟩ := List.length_eq_three.1 hlen
  have hcheck : Accounted I (fun _ => True) (fun r => (∀ v ∈ [a, b, c], v.whole) → r ≠ none)
      (checkRange a b c) := by
    unfold checkRange
    split
    · exact accounted_pure trivial fun _ => by simp
    · next hr => exact accounted_pure trivial fun h => absurd hr (rangeOf_ne_invalid h)
    · exact (accounted_report (Q := fun _ => True) (R := fun _ => False) _ trivial).bind
        fun _ _ => accounted_pure trivial fun h => h.elim
  refine hcheck.bind fun r _ => ?_
  cases r with
  | none => exact hnone.imp fun _ _ _ hr hall => absurd rfl (hr hall)
  | some r => exact (hsome r).imp fun _ _ h _ _ => h

theorem accounted_rangeVector (r : Option Range) : Accounted I Clear (fun v => r ≠ none → v.whole)
    (rangeVector r) := by
  cases r with
  | none => exact accounted_pure Value.clear_invalid fun h => absurd rfl h
  | some r => exact (accounted_check (proper_map fun _ => rfl)).imp fun _ _ h => h

theorem accounted_assignElements (hw : w.Clear) :
    Accounted (Intact held P base) Clear (fun u => ValidPair v w → u.whole)
      (assignElements name v w) := by
  unfold assignElements
  split
  · next h => exact accounted_pure Value.clear_invalid fun hvalid => absurd hvalid (not_validPair h)
  next h =>
  have hwhole : w.whole := hw.whole (by cases hi : w.isInvalid <;> simp_all)
  refine (accounted_value? name).bind fun r hr => ?_
  split
  · exact accounted_fail _ Value.clear_invalid
  next target =>
  have htarget := hr target rfl
  split
  · exact accounted_fail _ Value.clear_invalid
  · next u hset =>
    have hu : u.whole := by
      have := whole_setElements (w := v) htarget hwhole
      rwa [hset] at this
    exact (accounted_assign hu name).imp fun _ _ h _ _ => h

theorem accounted_readElement :
    Accounted (Intact held P base) Clear (fun u => v.isInvalid = false → u.whole)
      (readElement name v) := by
  refine (accounted_value? name).bind fun r hr => ?_
  cases r with
  | none => exact accounted_fail _ Value.clear_invalid
  | some target =>
    refine (accounted_check (proper_index (.inr (hr target rfl)))).imp fun _ _ h _ hvalid => ?_
    exact h ⟨Value.isInvalid_of_whole (hr target rfl), hvalid⟩

theorem accounted_ofOne {f : Value → Eval Value} (hlen : vs.length = 1)
    (hvs : ∀ v ∈ vs, v.Clear) (hf : ∀ v, v.Clear →
      Accounted I Clear (fun u => v.isInvalid = false → u.whole) (f v)) :
    Accounted I Clear (fun u => (∀ v ∈ vs, v.whole) → u.whole) (ofOne f vs) := by
  obtain ⟨v, rfl⟩ := List.length_eq_one_iff.1 hlen
  exact (hf v (hvs v (.head _))).imp fun _ _ h hall =>
    h (Value.isInvalid_of_whole (hall v (.head _)))

theorem accounted_ofTwo {f : Value → Value → Eval Value} (hlen : vs.length = 2)
    (hvs : ∀ v ∈ vs, v.Clear) (hf : ∀ v w, v.Clear → w.Clear →
      Accounted I Clear (fun u => ValidPair v w → u.whole) (f v w)) :
    Accounted I Clear (fun u => (∀ v ∈ vs, v.whole) → u.whole) (ofTwo f vs) := by
  obtain ⟨v, w, rfl⟩ := List.length_eq_two.1 hlen
  exact (hf v w (hvs v (.head _)) (hvs w (.tail _ (.head _)))).imp fun _ _ h hall =>
    h ⟨Value.isInvalid_of_whole (hall v (.head _)),
      Value.isInvalid_of_whole (hall w (.tail _ (.head _)))⟩

/-- **Eager trees** with whole operands have a whole value, or record a fault. -/
theorem accounted_eager {e : Expr} {es : List Expr} {finish : List Value → Eval Value}
    (he : e.eager? = some (es, finish)) (hlen : vs.length = es.length)
    (hvs : ∀ v ∈ vs, v.Clear) : Accounted (Intact held P base) Clear
      (fun u => (∀ v ∈ vs, v.whole) → u.whole) (finish vs) := by
  cases e with
  | unary op e =>
    cases he
    exact accounted_ofOne hlen hvs fun v _ => accounted_check proper_unary
  | binary op a b =>
    cases he
    exact accounted_ofTwo hlen hvs fun v w _ _ => accounted_check proper_binary
  | compare op a b =>
    cases he
    exact accounted_ofTwo hlen hvs fun v w _ _ => accounted_check proper_compare
  | logical op a b =>
    cases he
    exact accounted_ofTwo hlen hvs fun v w _ _ => accounted_check proper_logical
  | assign name e =>
    cases he
    refine accounted_ofOne hlen hvs fun v hv => ?_
    split
    · next h => exact accounted_pure Value.clear_invalid fun hv => by simp [h] at hv
    · next h =>
      have hwhole := hv.whole (eq_false_of_ne_true h)
      exact (accounted_assign hwhole name).imp fun _ _ h _ => h
  | assignElement name i e =>
    cases he
    exact accounted_ofTwo hlen hvs fun v w _ hw => accounted_assignElements hw
  | element name i =>
    cases he
    exact accounted_ofOne hlen hvs fun v _ => accounted_readElement
  | index e i =>
    cases he
    exact accounted_ofTwo hlen hvs fun v w hv _ => accounted_check (proper_index hv)
  | member e name =>
    cases he
    exact accounted_ofOne hlen hvs fun v hv => accounted_check (proper_member hv)
  | range a d b =>
    cases he
    exact accounted_ofBounds hlen ((accounted_rangeVector none).imp fun _ _ _ => trivial) fun r =>
      (accounted_rangeVector (some r)).imp fun _ _ h => h (by simp)
  | vector items =>
    cases he
    exact (accounted_check proper_concat).imp fun _ _ h hall => h (isInvalid_of_forall hall)
  | matrix rows =>
    cases he
    refine (accounted_check proper_ofRows).imp fun _ _ h hall => h fun row hrow => ?_
    refine isInvalid_of_forall fun v hv => hall v ?_
    have hflatten : ((rows.map List.length).splitLengths vs).flatten = vs :=
      List.flatten_splitLengths _ _ (by rw [hlen, List.length_flatten])
    rw [← hflatten]
    exact List.mem_flatten.2 ⟨row, hrow, hv⟩
  | list items =>
    cases he
    dsimp only
    split
    · next h =>
      refine accounted_pure Value.clear_invalid fun hall => ?_
      rw [isInvalid_of_forall hall] at h
      cases h
    · next h =>
      have hall := Value.whole_of_clear hvs (eq_false_of_ne_true h)
      exact accounted_pure (.inr (Value.whole_list.2 hall)) fun _ => Value.whole_list.2 hall
  | _ => cases he

/-! ## Loops -/

/-- The items that are left are whole. -/
def Items.Whole : Items → Prop
  | .values vs => ∀ v ∈ vs, v.whole
  | .range _ => True

theorem Items.Whole.next {items rest : Items} (h : items.Whole)
    (hn : items.next? = some (v, rest)) : v.whole ∧ rest.Whole := by
  cases items with
  | values vs =>
    cases vs with
    | nil => cases hn
    | cons w vs =>
      cases hn
      exact List.forall_mem_cons.1 h
  | range r =>
    rw [Items.next?] at hn
    split at hn <;> cases hn
    exact ⟨rfl, trivial⟩

/-- What a loop runs over is whole, and there are items for whole operands. -/
theorem LoopSource.accounted_check (source : LoopSource Expr)
    (hlen : vs.length = source.operands.length) (hvs : ∀ v ∈ vs, v.Clear) :
    Accounted I (fun r => ∀ items ∈ r, items.Whole) (fun r => (∀ v ∈ vs, v.whole) → r ≠ none)
      (source.check vs) := by
  cases source with
  | items e =>
    obtain ⟨v, rfl⟩ := List.length_eq_one_iff.1 hlen
    rw [LoopSource.check]
    unfold checkItems
    split
    · next h =>
      exact accounted_pure (by simp) fun hall => absurd (hall v (.head _)) (Value.not_whole h)
    next h =>
    have hv : v.whole := (hvs v (.head _)).whole (eq_false_of_ne_true h)
    split
    · next items hitems =>
      refine accounted_pure (fun _ hi => ?_) fun _ => by simp
      cases hi
      exact Value.deep_whole.of_items? hv hitems
    · exact (accounted_report (Q := fun _ => True) (R := fun _ => False) _ trivial).bind
        fun _ _ => accounted_pure (by simp) fun h => h.elim
  | range a d b =>
    refine accounted_ofBounds hlen (accounted_pure (by simp) trivial) fun r =>
      accounted_pure (fun _ hi => ?_) (by simp)
    cases hi
    trivial

/-- A loop goes on in a state with a property, or it is stopped with the invalid value. -/
def Proceeds (S : σ → Prop) : Except Value σ → Prop
  | .ok s => S s
  | .error v => v = .invalid

section Loops

variable {S : σ → Prop} {step : σ → Value → Eval (Except Value σ)}

/-- **Loops are only stopped after a fault** if every step is. -/
theorem accounted_forItems (hstep : ∀ s v, S s → v.whole →
      Accounted I (Proceeds S) (fun r => ∃ s, r = .ok s) (step s v))
    (n : Nat) {items : Items} {s : σ} (hitems : items.Whole) (hs : S s) :
    Accounted I (Proceeds S) (fun r => ∃ s, r = .ok s) (forItems step n items s) := by
  induction n generalizing items s with
  | zero => exact accounted_pure (Q := Proceeds S) hs ⟨s, rfl⟩
  | succ n ih =>
    cases hn : items.next? with
    | none =>
      rw [forItems_of_none hn]
      exact accounted_pure (Q := Proceeds S) hs ⟨s, rfl⟩
    | some p =>
      obtain ⟨v, rest⟩ := p
      obtain ⟨hv, hrest⟩ := hitems.next hn
      rw [forItems_of_some hn]
      refine (hstep s v hs hv).bind fun r hr => ?_
      cases r with
      | ok s' => exact (ih hrest hr).imp fun _ _ h _ => h
      | error u => exact accounted_pure hr fun h => h

theorem accounted_overItems {items : Items} {s : σ} {pack : σ → Value}
    (hstep : ∀ s v, S s → v.whole →
      Accounted I (Proceeds S) (fun r => ∃ s, r = .ok s) (step s v))
    (hitems : items.Whole) (hs : S s) (hpack : ∀ s, S s → (pack s).whole) :
    Accounts I (overItems step items s pack) := by
  intro level st hst
  have h := accounted_forItems hstep items.bound hitems hs level st hst
  unfold overItems
  rcases hr : forItems step items.bound items s st with ⟨u | s', st'⟩
  · rw [hr] at h
    obtain ⟨hi, rfl, hle, hlt⟩ := h
    exact ⟨hi, Value.clear_invalid, hle, .inr (hlt.resolve_left fun ⟨_, h⟩ => by cases h)⟩
  · rw [hr] at h
    obtain ⟨hi, hs', hle, -⟩ := h
    exact ⟨hi, .inr (hpack s' hs'), hle, .inl (hpack s' hs')⟩

end Loops

theorem accounted_append {out : Array Value} (hout : ∀ u ∈ out, u.whole) (hv : v.whole) :
    Accounted I (Proceeds fun out => ∀ u ∈ out, u.whole) (fun r => ∃ out, r = .ok out)
      (append out v) := by
  unfold append
  split
  · exact (accounted_fail (R := fun _ => False) _ (Q := (· = .invalid)) rfl).bind fun u hu =>
      accounted_pure hu fun h => h.elim
  · refine accounted_pure (fun u hu => ?_) ⟨_, rfl⟩
    rcases Array.mem_push.1 hu with hu | rfl
    · exact hout u hu
    · exact hv

theorem proper_fold {op : BinaryOp} {acc : Option Value} (hacc : ∀ u ∈ acc, u.whole)
    (hv : v.Clear) : Proper v.whole (fold op acc v) := by
  cases acc with
  | none => exact fun u hu => by cases hu; exact ⟨hv, id⟩
  | some u =>
    intro w hw
    obtain ⟨hclear, hwhole⟩ := proper_binary w hw
    exact ⟨hclear, fun hv => hwhole
      ⟨Value.isInvalid_of_whole (hacc u rfl), Value.isInvalid_of_whole hv⟩⟩

section Bodies

variable {body : Eval Value} {items : Items}
  (hbody : Accounts (Intact held P base) body) (hitems : items.Whole)

include hbody

theorem accounted_withItem (hv : v.whole) :
    Accounts (Intact held P base) (withItem name body v) :=
  (accounted_change fun _ _ henv => henv.addVariable hv name).bind fun _ _ =>
    hbody.imp fun _ _ h _ => h

include hitems

theorem accounted_reduce (op : BinaryOp) (empty : Float) :
    Accounts (Intact held P base) (reduce name body op empty items) := by
  refine accounted_overItems (S := fun acc => ∀ u ∈ acc, u.whole) (fun acc item hacc hitem => ?_)
    hitems (by simp) fun acc hacc => ?_
  · refine (accounted_withItem hbody hitem).bind fun v hv => ?_
    refine (accounted_check (proper_fold hacc hv)).bind fun next hnext => ?_
    split
    · next h =>
      exact accounted_pure rfl fun hwhole hv => absurd (hwhole hv) (Value.not_whole h)
    · next h =>
      refine accounted_pure (fun u hu => ?_) fun _ _ => ⟨_, rfl⟩
      cases hu
      exact hnext.whole (eq_false_of_ne_true h)
  · cases acc with
    | none => rfl
    | some u => exact hacc u rfl

theorem accounted_accumulate (op : BinaryOp) :
    Accounts (Intact held P base) (accumulate name body op items) := by
  refine accounted_overItems
    (S := fun s : Option Value × Array Value => (∀ u ∈ s.1, u.whole) ∧ ∀ u ∈ s.2, u.whole)
    (fun s item hs hitem => ?_) hitems (by simp)
    fun s hs => Value.deep_whole.collect (by simpa using hs.2)
  obtain ⟨acc, out⟩ := s
  refine (accounted_withItem hbody hitem).bind fun v hv => ?_
  refine (accounted_check (proper_fold hs.1 hv)).bind fun next hnext => ?_
  split
  · next h =>
    exact accounted_pure rfl fun hwhole hv => absurd (hwhole hv) (Value.not_whole h)
  · next h =>
    have hwhole := hnext.whole (eq_false_of_ne_true h)
    refine (accounted_append hs.2 hwhole).bind fun r hr => ?_
    cases r with
    | ok out' =>
      refine accounted_pure ⟨fun u hu => ?_, hr⟩ fun _ _ _ => ⟨_, rfl⟩
      cases hu
      exact hwhole
    | error u => exact accounted_pure hr fun ⟨_, h⟩ => by cases h

theorem accounted_collectResults (skip : Bool) :
    Accounts (Intact held P base) (collectResults name body skip items) := by
  refine accounted_overItems (S := fun out : Array Value => ∀ u ∈ out, u.whole)
    (fun out item hout hitem => ?_) hitems (by simp) fun out hout =>
      Value.deep_whole.collect (by simpa using hout)
  refine (accounted_withItem hbody hitem).bind fun v hv => ?_
  split
  · next h =>
    split
    · exact accounted_pure hout fun _ => ⟨_, rfl⟩
    · exact accounted_pure rfl fun hv => absurd hv (Value.not_whole h)
  · next h =>
    exact (accounted_append hout (hv.whole (eq_false_of_ne_true h))).imp fun _ _ h _ => h

theorem accounted_filterItems (lenient : Bool) :
    Accounts (Intact held P base) (filterItems name body lenient items) := by
  refine accounted_overItems (S := fun out : Array Value => ∀ u ∈ out, u.whole)
    (fun out item hout hitem => ?_) hitems (by simp) fun out hout =>
      Value.deep_whole.collect (by simpa using hout)
  refine (accounted_withItem hbody hitem).bind fun v hv => ?_
  split
  · exact (accounted_append hout hitem).imp fun _ _ h _ => h
  · exact accounted_pure hout fun _ => ⟨_, rfl⟩
  · split
    · exact accounted_pure hout fun _ => ⟨_, rfl⟩
    · split
      · next h =>
        exact accounted_pure rfl fun hv => absurd hv (Value.not_whole h)
      · exact (accounted_fail (Q := (· = .invalid)) (R := fun _ => False) _ rfl).bind fun u hu =>
          accounted_pure hu fun h => h.elim

/-- **Loops over whole items** have a whole value, or record a fault. -/
theorem accounted_runLoop (kind : LoopKind) :
    Accounts (Intact held P base) (runLoop name body items kind) := by
  cases kind with
  | sum | prod => exact accounted_reduce hbody hitems _ _
  | cumSum | cumProd => exact accounted_accumulate hbody hitems _
  | collect | defaultCollect | saveCollect => exact accounted_collectResults hbody hitems _
  | filter | saveFilter => exact accounted_filterItems hbody hitems _

end Bodies

end Intact

end FormulaLang
