import FormulaLang.Proofs.Engine.Operands
import FormulaLang.Value.Build

/-!
# Nested vectors

A vector literal flattens the vectors in it, so that brackets around some of its items do not
matter. An empty vector is the exception: it counts as a vector of numbers, and among strings or
bools it makes the whole literal one of numbers.

* `Value.joined`: what items add to a vector of a kind, if each of them adds something.
* `Value.toOption_concat`: a literal by what its items add.
* `Value.Stands`, `Value.stands_of_concat`: a vector adds what the items in it add.
* **`Value.concat_nested_iff`**: when a vector may stand for its items.
* `Value.eval_vector_nested`: the same for literals that are evaluated.
-/

namespace FormulaLang.Value

variable {α : Type} {part? : Value → Option (List α)} {v : Value} {xs ys zs : List Value}

/-! ## What items add -/

/-- What items add to a vector, if each of them adds something. -/
def joined (part? : Value → Option (List α)) (items : List Value) : Option (List α) :=
  (items.mapM part?).map List.flatten

/-- The numbers that an item adds, if it may stand in a vector of numbers. -/
def numberPart? (v : Value) : Option (List Float) := v.numberPart.toOption

@[simp]
theorem joined_nil : joined part? [] = some [] := rfl

theorem joined_cons : joined part? (v :: ys) =
    (part? v).bind fun a => (joined part? ys).map (a ++ ·) := by
  simp only [joined, List.mapM_cons]
  cases part? v with
  | none => rfl
  | some a => cases ys.mapM part? <;> rfl

theorem joined_append : joined part? (xs ++ ys) =
    (joined part? xs).bind fun a => (joined part? ys).map (a ++ ·) := by
  induction xs with
  | nil => simp
  | cons v xs ih =>
    rw [List.cons_append, joined_cons, joined_cons, ih]
    cases part? v <;> cases joined part? xs <;> cases joined part? ys <;> simp

/-- An item may stand for several ones that add the same. -/
theorem joined_nested (h : part? v = joined part? ys) :
    joined part? (xs ++ v :: zs) = joined part? (xs ++ (ys ++ zs)) := by
  rw [joined_append, joined_cons, joined_append, joined_append, h]

theorem joined_cons_eq_none (h : part? v = none) : joined part? (v :: zs) = none := by
  rw [joined_cons, h]
  rfl

theorem joined_eq_none (h : part? v = none) : joined part? (xs ++ v :: zs) = none := by
  rw [joined_append, joined_cons_eq_none h]
  cases joined part? xs <;> rfl

theorem toOption_mapM_numberPart (items : List Value) :
    (items.mapM numberPart).toOption = items.mapM numberPart? := by
  induction items with
  | nil => rfl
  | cons v items ih =>
    rw [List.mapM_cons, List.mapM_cons, ← ih, numberPart?]
    cases v.numberPart with
    | error f => rfl
    | ok a => cases items.mapM numberPart <;> rfl

/-- **A literal by what its items add**: strings if all are strings, else bools if all are bools,
else numbers. -/
theorem toOption_concat (items : List Value) : (concat items).toOption =
    if items.any isInvalid then some invalid
    else if items = [] then some (numberVector [])
    else (joined stringPart? items).map stringVector <|>
      ((joined boolPart? items).map boolVector <|>
        (joined numberPart? items).map numberVector) := by
  have hnumbers : ((items.mapM numberPart).map fun parts => numberVector parts.flatten).toOption =
      (joined numberPart? items).map numberVector := by
    rw [joined, ← toOption_mapM_numberPart]
    cases items.mapM numberPart <;> rfl
  unfold concat
  by_cases hi : items.any isInvalid
  · rw [if_pos hi, if_pos hi]
    rfl
  · rw [if_neg hi, if_neg hi]
    by_cases hn : items = []
    · subst hn
      rfl
    · rw [if_neg (by simpa using hn), if_neg hn]
      simp only [joined] at hnumbers ⊢
      cases items.mapM stringPart? with
      | some parts => rfl
      | none =>
        cases items.mapM boolPart? with
        | some parts => rfl
        | none => exact hnumbers

/-! ## A vector and its items -/

/-- A string adds neither bools nor numbers. -/
theorem parts_of_stringPart? {ss : List String} (h : v.stringPart? = some ss) :
    v.boolPart? = none ∧ v.numberPart? = none := by
  cases v <;> first | exact ⟨rfl, rfl⟩ | cases h

/-- Bools add as many numbers. -/
theorem numberPart?_of_boolPart? {bs : List Bool} (h : v.boolPart? = some bs) :
    v.numberPart? = some (bs.map Number.ofBool) := by
  cases v <;> first | (cases h; rfl) | cases h

theorem joined_numbers_of_bools {bs : List Bool} (h : joined boolPart? ys = some bs) :
    joined numberPart? ys = some (bs.map Number.ofBool) := by
  induction ys generalizing bs with
  | nil =>
    cases h
    rfl
  | cons v ys ih =>
    rw [joined_cons, Option.bind_eq_some_iff] at h
    obtain ⟨a, ha, h⟩ := h
    obtain ⟨b, hb, rfl⟩ := Option.map_eq_some_iff.1 h
    rw [joined_cons, numberPart?_of_boolPart? ha, ih hb]
    simp

/-- A value adds to a literal what several items add to it. -/
structure Stands (v : Value) (items : List Value) : Prop where
  valid : v.isInvalid = items.any isInvalid
  strings : v.stringPart? = joined stringPart? items
  bools : v.boolPart? = joined boolPart? items
  numbers : v.numberPart? = joined numberPart? items

/-- **The vector of some items adds what they add.** -/
theorem stands_of_concat (hys : ys ≠ []) (hi : ys.any isInvalid = false) (h : concat ys = .ok v) :
    v.Stands ys := by
  have hv := toOption_concat ys
  rw [h, hi, if_neg (by simp), if_neg hys] at hv
  change some v = _ at hv
  cases hs : joined stringPart? ys with
  | some ss =>
    obtain ⟨y, ys, rfl⟩ := List.exists_cons_of_ne_nil hys
    rw [hs] at hv
    cases hv
    obtain ⟨a, ha, -⟩ := Option.bind_eq_some_iff.1 (joined_cons.symm.trans hs)
    obtain ⟨hbools, hnumbers⟩ := parts_of_stringPart? ha
    exact ⟨hi.symm, hs.symm, (joined_cons_eq_none hbools).symm,
      (joined_cons_eq_none hnumbers).symm⟩
  | none =>
    cases hb : joined boolPart? ys with
    | some bs =>
      rw [hs, hb] at hv
      cases hv
      exact ⟨hi.symm, hs.symm, hb.symm, (joined_numbers_of_bools hb).symm⟩
    | none =>
      rw [hs, hb] at hv
      obtain ⟨ns, hn, rfl⟩ := Option.map_eq_some_iff.1 hv.symm
      exact ⟨hi.symm, hs.symm, hb.symm, hn.symm⟩

theorem any_isInvalid_nested (h : v.isInvalid = ys.any isInvalid) :
    (xs ++ v :: zs).any isInvalid = (xs ++ (ys ++ zs)).any isInvalid := by
  simp [h]

/-- A vector that adds what its items add may stand for them. -/
theorem Stands.concat_nested (h : v.Stands ys) (hys : ys ≠ []) :
    (concat (xs ++ v :: zs)).toOption = (concat (xs ++ (ys ++ zs))).toOption := by
  rw [toOption_concat, toOption_concat, any_isInvalid_nested h.valid, joined_nested h.strings,
    joined_nested h.bools, joined_nested h.numbers, if_neg (by simp : xs ++ v :: zs ≠ []),
    if_neg (by simp [hys] : xs ++ (ys ++ zs) ≠ [])]

/-! ## Nested literals -/

/-- A literal that does not come out as strings or as bools. -/
def Numeric (items : List Value) : Prop :=
  ∀ w, concat items = .ok w → w.kind ≠ .stringVector ∧ w.kind ≠ .boolVector

theorem numeric_iff : Numeric xs ↔
    xs.any isInvalid ∨ xs = [] ∨ joined stringPart? xs = none ∧ joined boolPart? xs = none := by
  have hok : ∀ w, concat xs = .ok w ↔ (concat xs).toOption = some w := fun w => by
    cases concat xs <;> simp [Except.toOption]
  simp only [Numeric, hok, toOption_concat]
  by_cases hi : xs.any isInvalid
  · simp [hi, kind]
  · by_cases hn : xs = []
    · simp [hn, kind]
    · rw [if_neg hi, if_neg hn]
      cases joined stringPart? xs <;> cases joined boolPart? xs <;> simp [hi, hn, kind]

/-- An empty vector adds nothing, but makes a vector of numbers of what stands around it. -/
theorem concat_empty_iff :
    (concat (xs ++ numberVector [] :: zs)).toOption = (concat (xs ++ zs)).toOption ↔
      Numeric (xs ++ zs) := by
  have hvalid : (xs ++ numberVector [] :: zs).any isInvalid = (xs ++ zs).any isInvalid :=
    any_isInvalid_nested (show isInvalid (numberVector []) = [].any isInvalid from rfl)
  have hstrings : joined stringPart? (xs ++ numberVector [] :: zs) = none := joined_eq_none rfl
  have hbools : joined boolPart? (xs ++ numberVector [] :: zs) = none := joined_eq_none rfl
  have hnumbers : joined numberPart? (xs ++ numberVector [] :: zs) =
      joined numberPart? (xs ++ zs) :=
    joined_nested (show numberPart? (numberVector []) = joined numberPart? [] from rfl)
  rw [toOption_concat, toOption_concat, numeric_iff, hvalid, hstrings, hbools, hnumbers,
    if_neg (by simp : xs ++ numberVector [] :: zs ≠ [])]
  by_cases hi : (xs ++ zs).any isInvalid
  · simp [hi]
  · rw [if_neg hi, if_neg hi]
    by_cases hn : xs ++ zs = []
    · simp [hn]
    · rw [if_neg hn]
      cases joined stringPart? (xs ++ zs) <;> cases joined boolPart? (xs ++ zs) <;>
        cases joined numberPart? (xs ++ zs) <;> simp [hi, hn]

/-- **A vector may stand for the items in it**, unless it is empty and among strings or bools
alone. -/
theorem toOption_concat_nested (h : concat ys = .ok v) (hys : ys = [] → Numeric (xs ++ zs)) :
    (concat (xs ++ v :: zs)).toOption = (concat (xs ++ (ys ++ zs))).toOption := by
  by_cases hn : ys = []
  · subst hn
    obtain rfl : numberVector [] = v := Except.ok.inj h
    exact concat_empty_iff.2 (hys rfl)
  · cases hi : ys.any isInvalid with
    | false => exact (stands_of_concat hn hi h).concat_nested hn
    | true =>
      obtain rfl : invalid = v := by
        rw [concat, if_pos hi] at h
        exact Except.ok.inj h
      have hvalid : (xs ++ (ys ++ zs)).any isInvalid := by simp [hi]
      rw [toOption_concat, toOption_concat, any_isInvalid_nested (v := invalid) hi.symm,
        if_pos hvalid, if_pos hvalid]

/-- **Brackets do not matter** in a literal, neither for its elements nor for their kind nor for
whether there is a vector at all. Only where they enclose nothing, the items around them must not
be strings alone or bools alone. -/
theorem concat_nested_iff (h : concat ys = .ok v) :
    (concat (xs ++ v :: zs)).toOption = (concat (xs ++ (ys ++ zs))).toOption ↔
      (ys = [] → Numeric (xs ++ zs)) := by
  refine ⟨fun heq hn => ?_, toOption_concat_nested h⟩
  subst hn
  obtain rfl : numberVector [] = v := Except.ok.inj h
  exact concat_empty_iff.1 heq

/-- A bool in front of brackets with a bool, numbers and an empty vector. -/
theorem concat_nested_mixed :
    let xs := [bool true]
    let ys := [bool false, numberVector [2.0, 3.0], boolVector []]
    let v := numberVector [0.0, 2.0, 3.0]
    concat ys = .ok v ∧ (concat (xs ++ v :: [])).toOption = (concat (xs ++ (ys ++ []))).toOption := by
  intro xs ys v
  have h : concat ys = .ok v := rfl
  exact ⟨h, (concat_nested_iff h).2 nofun⟩

/-- An empty literal turns bools into numbers, and among strings it is at fault. -/
theorem concat_empty_ne :
    concat [] = .ok (numberVector []) ∧
      concat [bool true, numberVector []] = .ok (numberVector [1.0]) ∧
      concat [bool true] = .ok (boolVector [true]) ∧
      concat [string "a", numberVector []] = .error (.vectorElement .string) ∧
      concat [string "a"] = .ok (stringVector ["a"]) :=
  ⟨rfl, rfl, rfl, rfl, rfl⟩

/-! ## Literals that are evaluated -/

section Eval

variable {deeper : Deeper} {es fs gs : List Expr} {st st₁ st₂ st₃ : Engine}

theorem eval_vector (es : List Expr) (st : Engine) : eval deeper (.vector es) st =
    Eval.check (concat (evalAll deeper es st).1) (evalAll deeper es st).2 := by
  rw [eval_eager rfl]
  rfl

/-- **Brackets in a literal** change neither its value nor what is bound nor how many faults there
are. -/
theorem eval_vector_nested (hes : evalAll deeper es st = (xs, st₁))
    (hfs : evalAll deeper fs st₁ = (ys, st₂)) (hgs : evalAll deeper gs st₂ = (zs, st₃))
    (h : concat ys = .ok v) (hn : ys = [] → Numeric (xs ++ zs)) :
    let nested := eval deeper (.vector (es ++ .vector fs :: gs)) st
    let flat := eval deeper (.vector (es ++ (fs ++ gs))) st
    nested.1 = flat.1 ∧ nested.2.env = flat.2.env ∧ nested.2.log.size = flat.2.log.size := by
  intro nested flat
  have hinner : eval deeper (.vector fs) st₁ = (v, st₂) := by
    rw [eval_vector, hfs, h]
    rfl
  have hnested : nested = Eval.check (concat (xs ++ v :: zs)) st₃ := by
    simp only [nested, eval_vector, evalAll_append, evalAll_cons, hes, hinner, hgs]
  have hflat : flat = Eval.check (concat (xs ++ (ys ++ zs))) st₃ := by
    simp only [flat, eval_vector, evalAll_append, hes, hfs, hgs]
  rw [hnested, hflat]
  exact check_congr (toOption_concat_nested h hn) st₃

end Eval

end FormulaLang.Value
