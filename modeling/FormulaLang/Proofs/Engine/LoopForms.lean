import FormulaLang.Proofs.Engine.LoopTraces

/-!
# Loop forms that agree

Several forms go through the same rounds and make the same of them, as long as nothing is invalid:
collecting and collecting what is valid, filtering strictly and leniently. A running fold keeps the
fold itself as its last step.

* `Value.element?_collect`, `Value.length_collect`: packed results one by one.
* `LoopForm.Follows`: one form in the place of another one.
* `LoopForm.Folds.element?_last`: the last step of a running fold.
* `kept`, `LoopForm.Folds.toList_filter`: the items of the rounds in which the body is true.
* `LoopKind.Repeats`, `LoopKind.Totals`: the same for the kinds of loops.
* `eval_loop_congr`: two kinds that make the same of all rounds.
* **`loops_agree`**: all of this, for the trees of loops.
-/

namespace FormulaLang

/-! ## Packed results -/

namespace Value

variable {α : Type} {vs : List Value}

theorem eq_map_of_mapM {view? : Value → Option α} {make : α → Value}
    (h : ∀ v x, view? v = some x → v = make x) {xs : List α} (hxs : vs.mapM view? = some xs) :
    vs = xs.map make := by
  induction vs generalizing xs with
  | nil =>
    cases hxs
    rfl
  | cons v vs ih =>
    cases hv : view? v with
    | none => simp [hv] at hxs
    | some x =>
      cases hrest : vs.mapM view? with
      | none => simp [hv, hrest] at hxs
      | some rest =>
        obtain rfl : x :: rest = xs := by simpa [hv, hrest] using hxs
        rw [List.map_cons, ← h v x hv, ← ih hrest]

/-- **Packed results** are a vector of them, or a list. -/
theorem collect_cases (vs : List Value) :
    (∃ xs, vs = xs.map number ∧ collect vs = numberVector xs) ∨
      (∃ bs, vs = bs.map bool ∧ collect vs = boolVector bs) ∨
      (∃ ss, vs = ss.map string ∧ collect vs = stringVector ss) ∨ collect vs = list vs := by
  have hnumber : ∀ v x, number? v = some x → v = number x := fun v x h => by
    cases v <;> first | (cases h; rfl) | cases h
  have hbool : ∀ v b, bool? v = some b → v = bool b := fun v b h => by
    cases v <;> first | (cases h; rfl) | cases h
  have hstring : ∀ v s, asString? v = some s → v = string s := fun v s h => by
    cases v <;> first | (cases h; rfl) | cases h
  unfold collect
  split
  · next xs h => exact .inl ⟨xs, eq_map_of_mapM hnumber h, rfl⟩
  · split
    · next bs h => exact .inr (.inl ⟨bs, eq_map_of_mapM hbool h, rfl⟩)
    · split
      · next ss h => exact .inr (.inr (.inl ⟨ss, eq_map_of_mapM hstring h, rfl⟩))
      · exact .inr (.inr (.inr rfl))

theorem length_collect (vs : List Value) : (collect vs).length = vs.length := by
  rcases collect_cases vs with ⟨xs, rfl, h⟩ | ⟨bs, rfl, h⟩ | ⟨ss, rfl, h⟩ | h <;> rw [h] <;>
    simp [length]

theorem element?_collect (vs : List Value) (k : Nat) : (collect vs).element? k = vs[k]? := by
  rcases collect_cases vs with ⟨xs, rfl, h⟩ | ⟨bs, rfl, h⟩ | ⟨ss, rfl, h⟩ | h <;> rw [h] <;>
    simp [element?]

end Value

/-! ## One form in the place of another one -/

namespace LoopForm

variable {σ τ : Type} {rounds : List (Value × Value)} {item v : Value} {out out' : Array Value}

/-- A form that goes on whenever another one does, with the state that belongs to its state. -/
structure Follows (form' : LoopForm τ) (form : LoopForm σ) (f : σ → τ) : Prop where
  start : f form.start = form'.start
  goes : ∀ {s item v s'}, form.Goes s item v s' → form'.Goes (f s) item v (f s')

theorem Follows.folds {form : LoopForm σ} {form' : LoopForm τ} {f : σ → τ}
    (h : form'.Follows form f) {s : σ} (hf : form.Folds form.start rounds s) :
    form'.Folds form'.start rounds (f s) := by
  rw [← h.start]
  generalize form.start = s₀ at hf
  induction hf with
  | nil => exact .nil
  | cons hgoes _ ih => exact .cons (h.goes hgoes) ih

/-- Without invalid values there is nothing to leave out. -/
theorem follows_collect : (collect true).Follows (collect false) id where
  start := rfl
  goes {out item v out'} h st := by
    have hst := h st
    rw [after_collect] at hst
    by_cases hv : v.isInvalid
    · rw [if_pos hv] at hst
      cases hst
    · rw [if_neg hv] at hst
      rw [after_collect, if_neg hv]
      exact hst

/-- A strict filter goes on if the body is a bool, and keeps the item if it is true. -/
theorem Goes.filter (h : (LoopForm.filter false).Goes out item v out') :
    ∃ b, v = .bool b ∧ out'.toList = out.toList ++ if b then [item] else [] := by
  have hst := h (Engine.create {})
  by_cases hv : ∃ b, v = .bool b
  · obtain ⟨b, rfl⟩ := hv
    refine ⟨b, rfl, ?_⟩
    cases b with
    | true =>
      rw [after_filter_true, append_eq] at hst
      by_cases hfull : out.size = maxVectorLength
      · rw [if_pos hfull] at hst
        cases hst
      · rw [if_neg hfull] at hst
        cases hst
        simp
    | false =>
      cases hst
      simp
  · rw [after_filter_other _ _ _ fun b hb => hv ⟨b, hb⟩] at hst
    by_cases hi : v.isInvalid <;> simp only [hi] at hst <;> cases hst

/-- With bools only there is nothing to be lenient about. -/
theorem follows_filter : (filter true).Follows (filter false) id where
  start := rfl
  goes {out item v out'} h := by
    obtain ⟨b, rfl, -⟩ := Goes.filter h
    cases b with
    | true => exact h
    | false => exact h

/-- A running fold goes on with one more step, which is what the fold goes on with. -/
theorem Goes.accumulate {op : BinaryOp} {s s' : Option Value × Array Value}
    (h : (LoopForm.accumulate op).Goes s item v s') :
    ∃ w, s' = (some w, s.2.push w) ∧ fold op s.1 v = .ok w ∧ ¬ w.isInvalid := by
  obtain ⟨acc, out⟩ := s
  have hst := h (Engine.create {})
  rw [after_accumulate] at hst
  cases hfold : fold op acc v with
  | error f =>
    rw [hfold] at hst
    cases hst
  | ok w =>
    rw [hfold] at hst
    dsimp only at hst
    by_cases hi : w.isInvalid
    · rw [if_pos hi] at hst
      cases hst
    · by_cases hfull : out.size = maxVectorLength
      · rw [if_neg hi, if_pos hfull] at hst
        cases hst
      · rw [if_neg hi, if_neg hfull] at hst
        cases hst
        exact ⟨w, rfl, rfl, hi⟩

/-- The fold goes on as long as the running fold does. -/
theorem follows_reduce (op : BinaryOp) (empty : Float) :
    (reduce op empty).Follows (LoopForm.accumulate op) Prod.fst where
  start := rfl
  goes {s item v s'} h st := by
    obtain ⟨w, rfl, hfold, hi⟩ := h.accumulate
    rw [after_reduce, hfold]
    exact if_neg hi

/-! ## Last states -/

/-- After any round, a running fold has a last step, and this is what the fold has come to. -/
theorem Folds.last_step {op : BinaryOp} {s s' : Option Value × Array Value}
    (h : (accumulate op).Folds s rounds s') (hne : rounds ≠ []) :
    ∃ w, s'.1 = some w ∧ s'.2.back? = some w := by
  induction h with
  | nil => exact absurd rfl hne
  | @cons s item v s₁ rounds s' hgoes hrest ih =>
    by_cases hnil : rounds = []
    · subst hnil
      cases hrest
      obtain ⟨w, rfl, -⟩ := hgoes.accumulate
      exact ⟨w, rfl, Array.back?_push⟩
    · exact ih hnil

/-- **The last step of a running fold** is the fold. -/
theorem Folds.element?_last {op : BinaryOp} {s : Option Value × Array Value}
    (h : (accumulate op).Folds (accumulate op).start rounds s) (hne : rounds ≠ [])
    (empty : Float) :
    ((accumulate op).pack s).element? (((accumulate op).pack s).length - 1) =
      some ((reduce op empty).pack s.1) := by
  obtain ⟨w, hacc, hback⟩ := h.last_step hne
  change (Value.collect s.2.toList).element? ((Value.collect s.2.toList).length - 1) =
    some (s.1.getD (.number empty))
  rw [Value.length_collect, Value.element?_collect, hacc, Option.getD_some, ← hback,
    Array.back?, Array.length_toList, Array.getElem?_toList]

end LoopForm

/-- The items of the rounds in which the body is true. -/
def kept (rounds : List (Value × Value)) : List Value :=
  (rounds.filter fun r => r.2.bool? = some true).map Prod.fst

theorem kept_sublist (rounds : List (Value × Value)) :
    (kept rounds).Sublist (rounds.map Prod.fst) := List.filter_sublist.map _

/-- **A strict filter keeps the items for which the body is true.** -/
theorem LoopForm.Folds.toList_filter {rounds : List (Value × Value)} {out out' : Array Value}
    (h : (LoopForm.filter false).Folds out rounds out') :
    out'.toList = out.toList ++ kept rounds := by
  induction h with
  | nil => simp [kept]
  | cons hgoes _ ih =>
    obtain ⟨b, rfl, hout⟩ := Goes.filter hgoes
    rw [ih, hout]
    cases b <;> simp [kept, Value.bool?]

/-! ## Kinds of loops -/

namespace LoopKind

/-- A kind that goes on whenever another one does, and packs the same then. -/
def Repeats (kind' kind : LoopKind) : Prop :=
  ∃ f, kind'.form.2.Follows kind.form.2 f ∧ ∀ s, kind'.form.2.pack (f s) = kind.form.2.pack s

theorem repeats_saveCollect : saveCollect.Repeats collect :=
  ⟨id, LoopForm.follows_collect, fun _ => rfl⟩

theorem repeats_defaultCollect : defaultCollect.Repeats collect :=
  ⟨id, ⟨rfl, fun h => h⟩, fun _ => rfl⟩

theorem repeats_saveFilter : saveFilter.Repeats filter :=
  ⟨id, LoopForm.follows_filter, fun _ => rfl⟩

/-- A running fold and the fold that is its last step. -/
inductive Totals : LoopKind → LoopKind → Prop
  | sum : Totals .cumSum .sum
  | prod : Totals .cumProd .prod

end LoopKind

/-- A source that comes to at least one item. -/
def LoopSource.HasItems (source : LoopSource Expr) (deeper : Deeper) (st : Engine) : Prop :=
  ∃ items st₁, evalSource deeper source st = (some items, st₁) ∧ items.isEmpty = false

section Trees

variable {deeper : Deeper} {kind kind' : LoopKind} {name : String} {source : LoopSource Expr}
  {body : Expr} {d d' : Option Expr} {items : Items} {st st₁ : Engine}

/-- The same rounds and the same result. -/
theorem eval_loop_of_repeats (hk : kind'.Repeats kind)
    (hs : evalSource deeper source st = (some items, st₁))
    (hd : (d.isSome && items.isEmpty) = false) (hd' : (d'.isSome && items.isEmpty) = false)
    (hv : (eval deeper (.loop kind name source body d) st).1 ≠ .invalid) :
    eval deeper (.loop kind' name source body d') st =
      eval deeper (.loop kind name source body d) st := by
  obtain ⟨f, hfollows, hpack⟩ := hk
  obtain ⟨rounds, s, st₂, ht, hf⟩ := exists_trace hs hd hv
  rw [eval_loop_of_trace kind hs hd ht hf,
    eval_loop_of_trace kind' hs hd' ht (hfollows.folds hf), hpack]

theorem eval_loop_congr (hk : kind'.Repeats kind)
    (hv : (eval deeper (.loop kind name source body d) st).1 ≠ .invalid) :
    eval deeper (.loop kind' name source body d) st =
      eval deeper (.loop kind name source body d) st := by
  rcases hs : evalSource deeper source st with ⟨_ | items, st₁⟩
  · rw [eval_loop_of_none hs, eval_loop_of_none hs]
  · cases hd : d.isSome && items.isEmpty with
    | true => rw [eval_loop_of_some hs, eval_loop_of_some hs, hd, if_pos rfl, if_pos rfl]
    | false => exact eval_loop_of_repeats hk hs hd hd hv

/-- The items of a loop that does not come to its default. -/
theorem exists_items (hd : d.isSome → source.HasItems deeper st)
    (hv : (eval deeper (.loop kind name source body d) st).1 ≠ .invalid) :
    ∃ items st₁, evalSource deeper source st = (some items, st₁) ∧
      (d.isSome && items.isEmpty) = false := by
  cases d with
  | none =>
    rcases hs : evalSource deeper source st with ⟨_ | items, st₁⟩
    · exact absurd (congrArg Prod.fst (eval_loop_of_none hs)) hv
    · exact ⟨items, st₁, rfl, rfl⟩
  | some e => exact hd rfl

/-- What a strict filter keeps. -/
theorem eval_filter_of_valid (hd : d.isSome → source.HasItems deeper st)
    (hv : (eval deeper (.loop .filter name source body d) st).1 ≠ .invalid) :
    ∃ items st₁ rounds st₂, evalSource deeper source st = (some items, st₁) ∧
      LoopTrace name (eval deeper body) items (st₁.onEnv .enter) rounds st₂ ∧
      eval deeper (.loop .filter name source body d) st =
        (.collect (kept rounds), st₂.onEnv .leave) := by
  obtain ⟨items, st₁, hs, hempty⟩ := exists_items hd hv
  obtain ⟨rounds, out, st₂, ht, hf⟩ := exists_trace hs hempty hv
  refine ⟨items, st₁, rounds, st₂, hs, ht, ?_⟩
  have hout : out.toList = kept rounds := LoopForm.Folds.toList_filter hf
  rw [eval_loop_of_trace .filter hs hempty ht hf, ← hout]
  rfl

/-- A running fold goes through the same rounds as the fold, which is its last step. -/
theorem eval_running_of_valid {running total : LoopKind} (hk : running.Totals total)
    (hsome : source.HasItems deeper st)
    (hv : (eval deeper (.loop running name source body d) st).1 ≠ .invalid) :
    (eval deeper (.loop total name source body d') st).2 =
        (eval deeper (.loop running name source body d) st).2 ∧
      (eval deeper (.loop running name source body d) st).1.element?
          ((eval deeper (.loop running name source body d) st).1.length - 1) =
        some (eval deeper (.loop total name source body d') st).1 := by
  obtain ⟨items, st₁, hs, hitems⟩ := hsome
  have hempty : ∀ d : Option Expr, (d.isSome && items.isEmpty) = false := fun d => by
    rw [hitems, Bool.and_false]
  obtain ⟨rounds, s, st₂, ht, hf⟩ := exists_trace hs (hempty d) hv
  have hne := ht.ne_nil hitems
  have hrunning := eval_loop_of_trace running hs (hempty d) ht hf
  cases hk with
  | sum =>
    rw [hrunning, eval_loop_of_trace .sum hs (hempty d') ht
      ((LoopForm.follows_reduce .add 0.0).folds hf)]
    exact ⟨rfl, LoopForm.Folds.element?_last hf hne 0.0⟩
  | prod =>
    rw [hrunning, eval_loop_of_trace .prod hs (hempty d') ht
      ((LoopForm.follows_reduce .mul 1.0).folds hf)]
    exact ⟨rfl, LoopForm.Folds.element?_last hf hne 1.0⟩

end Trees

/-- **Loops agree**, whatever their bodies do, on values and on everything they leave behind. If
collecting is valid, then so is collecting what is valid, and with any item also collecting with a
default. If filtering is valid, then so is filtering leniently, and the result selects some of the
items in their order. A running fold over at least one item has the fold as its last element. -/
theorem loops_agree (deeper : Deeper) (name : String) (source : LoopSource Expr) (body : Expr)
    (st : Engine) :
    let run (kind : LoopKind) (d : Option Expr) :=
      eval deeper (.loop kind name source body d) st
    (∀ d, (run .collect d).1 ≠ .invalid → run .saveCollect d = run .collect d ∧
      (source.HasItems deeper st → ∀ d', run .defaultCollect d' = run .collect d)) ∧
    (∀ d, (run .filter d).1 ≠ .invalid → run .saveFilter d = run .filter d ∧
      ((d.isSome → source.HasItems deeper st) →
        ∃ items st₁ rounds st₂, evalSource deeper source st = (some items, st₁) ∧
          LoopTrace name (eval deeper body) items (st₁.onEnv .enter) rounds st₂ ∧
          items.Yields (rounds.map Prod.fst) ∧ (kept rounds).Sublist (rounds.map Prod.fst) ∧
          run .filter d = (.collect (kept rounds), st₂.onEnv .leave))) ∧
    (∀ running total, LoopKind.Totals running total → source.HasItems deeper st →
      ∀ d d', (run running d).1 ≠ .invalid → (run total d').2 = (run running d).2 ∧
        (run running d).1.element? ((run running d).1.length - 1) = some (run total d').1) := by
  intro run
  refine ⟨fun d hv => ⟨eval_loop_congr LoopKind.repeats_saveCollect hv, ?_⟩,
    fun d hv => ⟨eval_loop_congr LoopKind.repeats_saveFilter hv, fun hd => ?_⟩,
    fun running total hk hsome d d' hv => eval_running_of_valid hk hsome hv⟩
  · rintro ⟨items, st₁, hs, hitems⟩ d'
    exact eval_loop_of_repeats LoopKind.repeats_defaultCollect hs (by rw [hitems, Bool.and_false])
      (by rw [hitems, Bool.and_false]) hv
  · obtain ⟨items, st₁, rounds, st₂, hs, ht, hrun⟩ := eval_filter_of_valid hd hv
    exact ⟨items, st₁, rounds, st₂, hs, ht, ht.yields, kept_sublist rounds, hrun⟩

/-- A loop over two items and its variable. -/
theorem eval_loop_pair (kind : LoopKind) (s : kind.form.1) {source a b : Value}
    (hvalid : source.isInvalid = false) (hitems : source.items? = some [a, b])
    (hf : kind.form.2.Folds kind.form.2.start [(a, a), (b, b)] s) :
    (eval (deeperAt 0) (.loop kind "x" (.items (.constant source)) (.var "x") none)
      (Engine.create {})).1 = kind.form.2.pack s := by
  have hs : evalSource (deeperAt 0) (.items (.constant source)) (Engine.create {}) =
      (some (.values [a, b]), Engine.create {}) := by
    rw [evalSource, eval]
    change checkItems source _ = _
    rw [checkItems, hvalid, hitems]
    rfl
  have hsound := (Engine.Reachable.create {}).sound.enter
  have ht : LoopTrace "x" (eval (deeperAt 0) (.var "x")) (.values [a, b])
      ((Engine.create {}).onEnv .enter) [(a, a), (b, b)] _ :=
    .round rfl (eval_var_addVariable hsound _ "x" a) (.round rfl
      (eval_var_addVariable (hsound.addVariable "x" a) _ "x" b) (.finished rfl))
  exact congrArg Prod.fst (eval_loop_of_trace kind hs rfl ht hf)

/-- Collecting and filtering two bools, and adding two strings. -/
theorem loops_agree_pairs :
    let deeper : Deeper := deeperAt 0
    let st := Engine.create {}
    let bools : LoopSource Expr := .items (.constant (.boolVector [true, false]))
    let strings : LoopSource Expr := .items (.constant (.stringVector ["a", "b"]))
    let run (kind : LoopKind) (source : LoopSource Expr) (d : Option Expr) :=
      eval deeper (.loop kind "x" source (.var "x") d) st
    bools.HasItems deeper st ∧ strings.HasItems deeper st ∧
      (run .collect bools none).1 = .boolVector [true, false] ∧
      run .saveCollect bools none = run .collect bools none ∧
      run .defaultCollect bools (some .invalid) = run .collect bools none ∧
      (run .filter bools none).1 = .boolVector [true] ∧
      run .saveFilter bools none = run .filter bools none ∧
      (run .cumSum strings none).1 = .stringVector ["a", "ab"] ∧
      (run .sum strings none).1 = .string "ab" := by
  intro deeper st bools strings run
  have hsource : ∀ v : Value, evalSource deeper (.items (.constant v)) st = checkItems v st :=
    fun v => by rw [evalSource, eval]; rfl
  have hbools : bools.HasItems deeper st := ⟨_, _, (hsource _).trans rfl, rfl⟩
  have hstrings : strings.HasItems deeper st := ⟨_, _, (hsource _).trans rfl, rfl⟩
  have hcollect : (run .collect bools none).1 = .boolVector [true, false] :=
    eval_loop_pair .collect #[.bool true, .bool false] rfl rfl
      (.cons (fun _ => rfl) (.cons (fun _ => rfl) .nil))
  have hfilter : (run .filter bools none).1 = .boolVector [true] :=
    eval_loop_pair .filter #[.bool true] rfl rfl
      (.cons (fun _ => rfl) (.cons (fun _ => rfl) .nil))
  have hsteps : (run .cumSum strings none).1 = .stringVector ["a", "ab"] :=
    eval_loop_pair .cumSum (some (.string "ab"), #[.string "a", .string "ab"]) rfl rfl
      (.cons (fun _ => rfl) (.cons (fun _ => rfl) .nil))
  obtain ⟨hcollects, hfilters, -⟩ := loops_agree deeper "x" bools (.var "x") st
  obtain ⟨-, -, htotals⟩ := loops_agree deeper "x" strings (.var "x") st
  obtain ⟨hsave, hdefault⟩ := hcollects none (hcollect ▸ nofun)
  have hlast := (htotals _ _ .sum hstrings none none (hsteps ▸ nofun)).2
  refine ⟨hbools, hstrings, hcollect, hsave, hdefault hbools _, hfilter,
    (hfilters none (hfilter ▸ nofun)).1, hsteps, ?_⟩
  change (run .cumSum strings none).1.element? ((run .cumSum strings none).1.length - 1) =
    some (run .sum strings none).1 at hlast
  rw [hsteps] at hlast
  exact (Option.some.inj hlast).symm

end FormulaLang
