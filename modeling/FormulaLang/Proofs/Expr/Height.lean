import FormulaLang.Expr.Parser
import Mathlib.Tactic.Ring

/-!
# The height of parsed trees

The depth that the parser counts goes back behind every chain of operators and every nested
expression, so a level may hold a chain of each rank on top of the others. A parsed tree may then be
higher than the limit, by a factor that grows with the limit, but not higher than the square of the
limit allows.

* `Expr.height`: the number of steps from the root of a tree to its lowest leaf.
* `Yields`, `Low`: what the trees that a parser gives have in common, and the height of them all.
* `Shallow`: the heights of what is parsed one level deeper.
* `Goal.bound`, `low_goal`, `low_parseAt`: the heights of what is parsed at a depth.
* **`height_le_of_mem_parseText`**: the heights of the statements of a text.
* `deepChains`: a text with chains of every rank on each of four levels.
-/

namespace FormulaLang

namespace Expr

mutual

/-- The number of steps from the root to the lowest leaf. -/
def height : Expr → Nat
  | constant _ | var _ | invalid => 0
  | unary _ e | assign _ e | element _ e | member e _ | define _ _ e => height e + 1
  | binary _ a b | compare _ a b | logical _ a b | index a b | assignElement _ a b =>
    max (height a) (height b) + 1
  | call _ args => heightBelow args
  | cases branches otherwise => max (heightBranches branches) (heightOption otherwise)
  | range a d b => max (max (height a) (height b) + 1) (heightOption d)
  | loop _ _ source body default =>
    max (heightSource source) (max (height body + 1) (heightOption default))
  | vector items | list items | sequence items => heightBelow items
  | matrix rows => heightRows rows

/-- The height of a tree above some trees. -/
def heightBelow : List Expr → Nat
  | [] => 0
  | e :: es => max (height e + 1) (heightBelow es)

def heightRows : List (List Expr) → Nat
  | [] => 0
  | row :: rows => max (heightBelow row) (heightRows rows)

def heightBranches : List (Expr × Expr) → Nat
  | [] => 0
  | (c, e) :: rest => max (max (height c) (height e) + 1) (heightBranches rest)

def heightOption : Option Expr → Nat
  | none => 0
  | some e => height e + 1

def heightSource : LoopSource Expr → Nat
  | .items e => height e + 1
  | .range a d b => max (max (height a) (height b) + 1) (heightOption d)

end

variable {h : Nat}

theorem heightBelow_le {es : List Expr} (hes : ∀ e ∈ es, e.height ≤ h) : heightBelow es ≤ h + 1 := by
  induction es with
  | nil => exact Nat.zero_le _
  | cons e es ih =>
    have he := hes e List.mem_cons_self
    have := ih fun e he => hes e (List.mem_cons_of_mem _ he)
    rw [heightBelow]
    omega

theorem heightRows_le {rows : List (List Expr)} (hrows : ∀ row ∈ rows, ∀ e ∈ row, e.height ≤ h) :
    heightRows rows ≤ h + 1 := by
  induction rows with
  | nil => exact Nat.zero_le _
  | cons row rows ih =>
    have hrow := heightBelow_le (hrows row List.mem_cons_self)
    have := ih fun row hrow => hrows row (List.mem_cons_of_mem _ hrow)
    rw [heightRows]
    omega

theorem heightBranches_le {bs : List (Expr × Expr)}
    (hbs : ∀ b ∈ bs, b.1.height ≤ h ∧ b.2.height ≤ h) : heightBranches bs ≤ h + 1 := by
  induction bs with
  | nil => exact Nat.zero_le _
  | cons b bs ih =>
    obtain ⟨hc, he⟩ := hbs b List.mem_cons_self
    have := ih fun b hb => hbs b (List.mem_cons_of_mem _ hb)
    rw [heightBranches]
    omega

theorem heightOption_le {o : Option Expr} (ho : ∀ e ∈ o, e.height ≤ h) : heightOption o ≤ h + 1 := by
  cases o with
  | none => exact Nat.zero_le _
  | some e => exact Nat.succ_le_succ (ho e rfl)

end Expr

namespace Parser

open Expr

variable {α β : Type} {h k n : Nat}

/-! ## Forms over their parts -/

section Forms

variable {args : List Expr} {e : Expr}

theorem mem_of_pairUp {pairs : List (Expr × Expr)} {last : Option Expr}
    (hp : pairUp args = (pairs, last)) :
    (∀ p ∈ pairs, p.1 ∈ args ∧ p.2 ∈ args) ∧ ∀ e ∈ last, e ∈ args := by
  induction args using pairUp.induct generalizing pairs last with
  | case1 c v rest pairs' last' hrest ih =>
    rw [pairUp, hrest] at hp
    cases hp
    obtain ⟨hpairs, hlast⟩ := ih hrest
    refine ⟨fun p hp => ?_, fun e he => by simp [hlast e he]⟩
    rcases List.mem_cons.1 hp with rfl | hp
    · simp
    · simp [hpairs p hp]
  | case2 e =>
    cases hp
    simp
  | case3 =>
    cases hp
    simp

theorem height_loopOf {kind : LoopKind} {default : Option Expr}
    (hargs : ∀ a ∈ args, a.height ≤ h) (hdefault : ∀ a ∈ default, a.height ≤ h)
    (hf : loopOf kind args default = .ok e) : e.height ≤ h + 1 := by
  have ho := heightOption_le hdefault
  unfold loopOf at hf
  split at hf
  · cases hf
    simp only [List.mem_cons, forall_eq_or_imp] at hargs
    simp only [height, heightSource]
    omega
  · cases hf
    simp only [List.mem_cons, forall_eq_or_imp] at hargs
    simp only [height, heightSource, heightOption]
    omega
  · cases hf
    simp only [List.mem_cons, forall_eq_or_imp] at hargs
    simp only [height, heightSource, heightOption]
    omega
  · cases hf

theorem height_call (hargs : ∀ a ∈ args, a.height ≤ h) (name : String) :
    (Expr.call name args).height ≤ h + 1 := by
  rw [height]
  exact heightBelow_le hargs

theorem height_loopForm {kind : LoopKind} (hargs : ∀ a ∈ args, a.height ≤ h)
    (hf : loopForm kind args = .ok e) : e.height ≤ h + 1 := by
  unfold loopForm at hf
  dsimp only at hf
  by_cases hcalled : kind.isReduction ∧ args.length < 3
  · rw [if_pos hcalled] at hf
    cases hf
    exact height_call hargs _
  rw [if_neg hcalled] at hf
  by_cases harity : args.length < 3 + (if kind.takesDefault then 1 else 0) ∨
      5 + (if kind.takesDefault then 1 else 0) < args.length
  · rw [if_pos harity] at hf
    cases hf
  rw [if_neg harity] at hf
  split at hf
  · refine height_loopOf (fun a ha => hargs a (List.dropLast_subset _ ha)) (fun a ha => ?_) hf
    exact hargs a (List.mem_of_getLast? ha)
  · exact height_loopOf hargs (fun a ha => by cases ha) hf

theorem height_callForm {name : String} (hargs : ∀ a ∈ args, a.height ≤ h)
    (hf : callForm name args = .ok e) : e.height ≤ h + 1 := by
  unfold callForm at hf
  split at hf
  · split at hf
    · cases hf
      simp only [List.mem_cons, forall_eq_or_imp] at hargs
      simp only [height, heightBranches, heightOption]
      omega
    · cases hf
  split at hf
  · split at hf
    · cases hf
    · rcases hp : pairUp args with ⟨branches, otherwise⟩
      rw [hp] at hf
      cases hf
      obtain ⟨hpairs, hlast⟩ := mem_of_pairUp hp
      rw [height]
      exact Nat.max_le.2 ⟨heightBranches_le fun b hb =>
        ⟨hargs _ (hpairs b hb).1, hargs _ (hpairs b hb).2⟩,
        heightOption_le fun e he => hargs e (hlast e he)⟩
  split at hf
  · exact height_loopForm hargs hf
  · cases hf
    exact height_call hargs _

theorem height_literalOf {rows : List (List Expr)} (hrows : ∀ row ∈ rows, ∀ e ∈ row, e.height ≤ h)
    (hf : literalOf rows = .ok e) : e.height ≤ h + 1 := by
  unfold literalOf at hf
  split at hf
  · cases hf
    exact Nat.zero_le _
  · cases hf
    rw [height]
    exact heightBelow_le (hrows _ List.mem_cons_self)
  · dsimp only at hf
    split at hf
    · cases hf
    · cases hf
      rw [height]
      exact heightRows_le hrows

end Forms

/-! ## Parsers of low trees -/

/-- What a step of parsing gives has a property. -/
def Yields (P : α → Prop) (x : Parse α) : Prop := ∀ c, P (x c).1

/-- A parser of trees up to a height. -/
abbrev Low (h : Nat) (x : Parse Expr) : Prop := Yields (·.height ≤ h) x

section Low

variable {P Q : α → Prop} {R : β → Prop} {x : Parse α} {f : α → Parse β}

theorem Yields.bind (hx : Yields P x) (hf : ∀ a, P a → Yields R (f a)) : Yields R (x >>= f) :=
  fun c => hf _ (hx c) _

/-- A step whose result does not matter. -/
theorem yields_bind (hf : ∀ a, Yields R (f a)) : Yields R (x >>= f) := fun _ => hf _ _

theorem yields_pure {a : α} (ha : P a) : Yields P (pure a : Parse α) := fun _ => ha

theorem Yields.mono (hx : Yields P x) (hPQ : ∀ a, P a → Q a) : Yields Q x := fun _ => hPQ _ (hx _)

theorem Yields.map {g : α → β} (hx : Yields P x) (hg : ∀ a, P a → R (g a)) :
    Yields R (do return g (← x)) := hx.bind fun a ha => yields_pure (hg a ha)

theorem Yields.le {x : Parse Expr} (hx : Low h x) (hk : h ≤ k) : Low k x :=
  hx.mono fun _ he => Nat.le_trans he hk

theorem low_invalid : Low h (pure .invalid) := yields_pure (Nat.zero_le _)

theorem low_failAt {x : Text.Extent} {f : Fault} : Low h (failAt x f) :=
  yields_bind fun _ => low_invalid

theorem low_failHere {f : Fault} : Low h (failHere f) := yields_bind fun _ => low_failAt

theorem low_orFail {x : Text.Extent} {r : Except Fault Expr} (hr : ∀ e, r = .ok e → e.height ≤ h) :
    Low h (orFail x r) := by
  cases r with
  | ok e => exact yields_pure (hr e rfl)
  | error f => exact low_failAt

/-- Items between commas. -/
theorem yields_itemsUntil {P : Expr → Prop} {item : Parse Expr} (hi : Yields P item) (close : Mark)
    (what : String) (n : Nat) :
    Yields (fun r => ∀ es ∈ r, ∀ e ∈ es, P e) (itemsUntil item close what n) := by
  induction n with
  | zero => exact yields_bind fun _ => yields_pure (fun es hes => by cases hes)
  | succ n ih =>
    unfold itemsUntil
    refine hi.bind fun e he => yields_bind fun comma => ?_
    split
    · refine yields_bind fun _ => ih.bind fun r hr => yields_pure fun es hes => ?_
      obtain ⟨rest, hrest, rfl⟩ := Option.map_eq_some_iff.1 hes
      exact List.forall_mem_cons.2 ⟨he, hr rest hrest⟩
    · refine yields_bind fun closed => ?_
      split
      · exact yields_pure fun es hes => by
          cases hes
          exact List.forall_mem_singleton.2 he
      · exact yields_pure fun es hes => by cases hes

/-- Items between commas and semicolons. -/
theorem yields_rowsUntil {P : Expr → Prop} {item : Parse Expr} (hi : Yields P item) (n : Nat) :
    Yields (fun r => ∀ rows ∈ r, ∀ row ∈ rows, ∀ e ∈ row, P e) (rowsUntil item n) := by
  have hadd : ∀ {e : Expr} {rows : List (List Expr)}, P e →
      (∀ row ∈ rows, ∀ e ∈ row, P e) → ∀ row ∈ addToRow e rows, ∀ e ∈ row, P e := by
    intro e rows he hrows
    cases rows with
    | nil => simpa [addToRow] using he
    | cons row rows =>
      rw [addToRow, List.forall_mem_cons, List.forall_mem_cons]
      exact ⟨⟨he, hrows row List.mem_cons_self⟩, fun row hr => hrows row (List.mem_cons_of_mem _ hr)⟩
  induction n with
  | zero => exact yields_bind fun _ => yields_pure (fun es hes => by cases hes)
  | succ n ih =>
    unfold rowsUntil
    refine hi.bind fun e he => yields_bind fun comma => ?_
    split
    · refine yields_bind fun _ => ih.bind fun r hr => yields_pure fun rows hrows => ?_
      obtain ⟨rest, hrest, rfl⟩ := Option.map_eq_some_iff.1 hrows
      exact hadd he (hr rest hrest)
    refine yields_bind fun semicolon => ?_
    split
    · refine yields_bind fun _ => ih.bind fun r hr => yields_pure fun rows hrows => ?_
      obtain ⟨rest, hrest, rfl⟩ := Option.map_eq_some_iff.1 hrows
      exact List.forall_mem_cons.2 ⟨List.forall_mem_singleton.2 he, hr rest hrest⟩
    · refine yields_bind fun closed => ?_
      split
      · exact yields_pure fun rows hrows => by
          cases hrows
          exact List.forall_mem_singleton.2 (List.forall_mem_singleton.2 he)
      · exact yields_pure fun es hes => by cases hes

end Low

/-! ## One level -/

/-- The height of what is parsed for a goal with `n` more levels below it: an operand and its links,
a sign and a range around them, and a chain of `n` links for each rank up to that of the goal. -/
def Goal.bound (n : Nat) : Goal → Nat
  | .expression => 3 * (n + 1) ^ 2
  | .prefixed => 3 * n ^ 2 + n + 3
  | .joined op left => max left.height (3 * n ^ 2 + n + 3 + (op.rank - 1) * n) + 1 + n
  | .link base => max base.height (3 * n ^ 2 + 2) + 1 + n

/-- With `n` more levels what is parsed one level deeper is low, also where there is no level. -/
structure Shallow (limit n : Nat) (deeper : Deeper) : Prop where
  expression : Low (3 * n ^ 2) (descend limit deeper .expression)
  prefixed : ∀ parse ∈ deeper, Low (3 * n ^ 2 + n + 2) (parse .prefixed)
  joined : ∀ op left, Low (max left.height (3 * n ^ 2 + n + 3 + (op.rank - 1) * n) + n)
    (descend limit deeper (.joined op left))
  link : ∀ base, Low (max base.height (3 * n ^ 2 + 1) + n) (descend limit deeper (.link base))

theorem shallow_none (limit : Nat) : Shallow limit 0 none where
  expression := low_failHere
  prefixed _ hp := by cases hp
  joined _ _ := low_failHere
  link _ := low_failHere

theorem shallow_some {limit : Nat} {parse : Goal → Parse Expr}
    (hp : ∀ g : Goal, Low (g.bound n) (parse g)) : Shallow limit (n + 1) (some parse) := by
  have hsquare : 3 * (n + 1) ^ 2 = 3 * n ^ 2 + 6 * n + 3 := by ring
  constructor
  · exact hp .expression
  · rintro _ ⟨⟩
    exact (hp .prefixed).le (by rw [Goal.bound]; omega)
  · intro op left
    refine (hp (.joined op left)).le ?_
    have hmul : (op.rank - 1) * (n + 1) = (op.rank - 1) * n + (op.rank - 1) := by ring
    rw [Goal.bound]
    omega
  · intro base
    exact (hp (.link base)).le (by rw [Goal.bound]; omega)

/-- A call, special form or function definition, behind its arguments. -/
def afterArguments (limit : Nat) (deeper : Deeper) (name : String) (x : Text.Extent) :
    Option (List Expr) → Parse Expr
  | none => return .invalid
  | some args => do
    if ← at? .assign then
      advance
      let body ← descend limit deeper .expression
      orFail x (defineForm name args body)
    else
      orFail x (callForm name args)

section Level

variable {limit : Nat} {deeper : Deeper} (hd : Shallow limit n deeper)

include hd

theorem low_listLiteral : Low (3 * n ^ 2 + 1) (listLiteral limit deeper) := by
  unfold listLiteral
  refine yields_bind fun closed => ?_
  split
  · exact yields_bind fun _ => yields_pure (Nat.zero_le _)
  · refine yields_bind fun bound => (yields_itemsUntil hd.expression _ _ _).bind fun r hr => ?_
    split
    · next items =>
      refine yields_pure ?_
      rw [height]
      exact heightBelow_le (hr items rfl)
    · exact low_invalid

theorem low_vectorLiteral (x : Text.Extent) :
    Low (3 * n ^ 2 + 1) (vectorLiteral limit deeper x) := by
  unfold vectorLiteral
  refine yields_bind fun closed => ?_
  split
  · exact yields_bind fun _ => yields_pure (Nat.zero_le _)
  · refine yields_bind fun bound => (yields_rowsUntil hd.expression _).bind fun r hr => ?_
    split
    · next rows => exact low_orFail fun e he => height_literalOf (hr rows rfl) he
    · exact low_invalid

theorem low_afterArguments (name : String) (x : Text.Extent) (args : Option (List Expr))
    (hargs : ∀ es ∈ args, ∀ e ∈ es, e.height ≤ 3 * n ^ 2) :
    Low (3 * n ^ 2 + 1) (afterArguments limit deeper name x args) := by
  cases args with
  | none => exact low_invalid
  | some args =>
    refine yields_bind fun assigned => ?_
    split
    · refine yields_bind fun _ => hd.expression.bind fun body hbody => low_orFail fun e he => ?_
      unfold defineForm at he
      split at he
      · cases he
        rw [height]
        exact Nat.succ_le_succ hbody
      · cases he
    · exact low_orFail fun e he => height_callForm (hargs args rfl) he

theorem low_callLike (name : String) (x : Text.Extent) :
    Low (3 * n ^ 2 + 1) (callLike limit deeper name x) := by
  unfold callLike
  refine yields_bind fun closed => ?_
  dsimp only
  split
  · exact yields_bind fun _ => low_afterArguments hd name x (some []) fun es hes => by
      cases hes
      simp
  · exact yields_bind fun _ => (yields_itemsUntil hd.expression _ _ _).bind
      (low_afterArguments hd name x)

theorem low_nameLike (name : String) (x : Text.Extent) :
    Low (3 * n ^ 2 + 1) (nameLike limit deeper name x) := by
  unfold nameLike
  refine yields_bind fun c => ?_
  split
  · refine yields_bind fun _ => hd.expression.map fun e he => ?_
    rw [height]
    exact Nat.succ_le_succ he
  · refine yields_bind fun _ => hd.expression.bind fun i hi => yields_bind fun closed => ?_
    split
    · refine yields_bind fun assigned => ?_
      split
      · refine yields_bind fun _ => hd.expression.map fun e he => ?_
        rw [height]
        omega
      · refine yields_pure ?_
        rw [height]
        omega
    · exact low_invalid
  · exact yields_bind fun _ => low_callLike hd name x
  · exact yields_pure (Nat.zero_le _)

/-- An operand is a leaf, a nested expression or a form over nested expressions. -/
theorem low_primary : Low (3 * n ^ 2 + 1) (primary limit deeper) := by
  have hleaf : ∀ v, Low (3 * n ^ 2 + 1) (do advance; return .constant v) := fun v =>
    yields_bind fun _ => yields_pure (Nat.zero_le _)
  unfold primary
  refine yields_bind fun c => ?_
  split
  · exact hleaf _
  · exact hleaf _
  · exact hleaf _
  · exact hleaf _
  · refine yields_bind fun _ => hd.expression.bind fun e he => yields_bind fun closed => ?_
    split
    · exact yields_pure (Nat.le_succ_of_le he)
    · exact low_invalid
  · exact yields_bind fun _ => low_vectorLiteral hd _
  · exact yields_bind fun _ => low_listLiteral hd
  · exact yields_bind fun _ => low_nameLike hd _ _
  · exact yields_bind fun _ => low_invalid

omit hd in
theorem low_signed {operand : Parse Expr} (ho : Low h operand) : Low (h + 1) (signed operand) := by
  unfold signed
  refine yields_bind fun c => ?_
  split
  · refine yields_bind fun _ => ho.map fun e he => ?_
    rw [height]
    exact Nat.succ_le_succ he
  · exact yields_bind fun _ => ho.le (Nat.le_succ h)
  · exact ho.le (Nat.le_succ h)

theorem low_links (base : Expr) :
    Low (max base.height (3 * n ^ 2 + 1) + n) (links limit deeper base) := by
  unfold links
  refine yields_bind fun c => ?_
  split
  · exact hd.link base
  · exact yields_pure (by omega)

theorem low_link (base : Expr) : Low ((Goal.link base).bound n) (link limit deeper base) := by
  have hlinks : ∀ e : Expr, e.height ≤ max base.height (3 * n ^ 2 + 2) + 1 →
      Low ((Goal.link base).bound n) (links limit deeper e) := fun e he =>
    (low_links hd e).le (by rw [Goal.bound]; omega)
  unfold link
  refine yields_bind fun c => ?_
  split
  · refine yields_bind fun _ => (low_signed (low_primary hd)).bind fun e he => hlinks _ ?_
    rw [height]
    omega
  · refine yields_bind fun _ => hd.expression.bind fun i hi => yields_bind fun closed => ?_
    split
    · refine hlinks _ ?_
      rw [height]
      omega
    · exact low_invalid
  · refine yields_bind fun _ => yields_bind fun c => ?_
    split
    · refine yields_bind fun _ => hlinks _ ?_
      rw [height]
      omega
    · exact yields_bind fun _ => low_invalid

theorem low_linked : Low (3 * n ^ 2 + 1 + n) (linked limit deeper) :=
  (low_primary hd).bind fun base hbase => (low_links hd base).le (by omega)

theorem low_rangeLike (negated : Bool) :
    Low (3 * n ^ 2 + n + 3) (rangeLike limit deeper negated) := by
  have hstart : ∀ first : Expr, first.height ≤ 3 * n ^ 2 + 1 + n →
      (if negated then Expr.unary .neg first else first).height ≤ 3 * n ^ 2 + 2 + n := by
    intro first hf
    split
    · rw [height]
      omega
    · omega
  unfold rangeLike
  refine (low_linked hd).bind fun first hfirst => ?_
  have hs := hstart first hfirst
  refine yields_bind fun colon => ?_
  split
  · refine yields_bind fun _ => (low_signed (low_linked hd)).bind fun second hsecond =>
      yields_bind fun colon => ?_
    split
    · refine yields_bind fun _ => (low_signed (low_linked hd)).map fun stop hstop => ?_
      rw [height, heightOption]
      omega
    · refine yields_pure ?_
      rw [height, heightOption]
      omega
  · exact yields_pure (by omega)

theorem low_prefixed : Low (3 * n ^ 2 + n + 3) (prefixed limit deeper) := by
  unfold prefixed
  refine yields_bind fun c => ?_
  split
  · exact low_rangeLike hd false
  · next op _ =>
    refine yields_bind fun _ => yields_bind fun c => ?_
    split
    · exact low_rangeLike hd true
    split
    · exact low_failHere
    · next parse =>
      refine (hd.prefixed parse rfl).bind fun operand ho => ?_
      split
      · refine yields_pure ?_
        rw [height]
        omega
      · exact yields_pure (by omega)

theorem low_joins (rank : Nat) (left : Expr) :
    Low (max left.height (3 * n ^ 2 + n + 3 + (rank - 1) * n) + n)
      (joins limit deeper rank left) := by
  unfold joins
  refine yields_bind fun c => ?_
  split
  · split
    · next op _ =>
      split
      · next hrank => exact hrank ▸ hd.joined op left
      · exact yields_pure (by omega)
    · exact yields_pure (by omega)
  · exact yields_pure (by omega)

/-- Every rank adds a chain of as many links as there are levels. -/
theorem low_ranked (rank : Nat) :
    Low (3 * n ^ 2 + n + 3 + rank * n) (ranked limit deeper rank) := by
  induction rank with
  | zero => exact (low_prefixed hd).le (Nat.le_add_right _ _)
  | succ rank ih =>
    refine ih.bind fun left hleft => (low_joins hd (rank + 1) left).le ?_
    rw [Nat.add_sub_cancel, Nat.succ_mul rank n]
    omega

/-- **The heights of what is parsed at one level**, if what is parsed one level deeper is low. -/
theorem low_goal : ∀ g : Goal, Low (g.bound n) (goal limit deeper g)
  | .expression => by
    have hsquare : 3 * (n + 1) ^ 2 = 3 * n ^ 2 + n + 3 + 5 * n := by ring
    rw [Goal.bound, hsquare]
    exact low_ranked hd 5
  | .prefixed => low_prefixed hd
  | .joined op left => by
    refine yields_bind fun _ => (low_ranked hd _).bind fun right hright =>
      (low_joins hd op.rank _).le ?_
    have hbuild : (op.build left right).height = max left.height right.height + 1 := by
      cases op <;> simp only [Joiner.build, height]
    rw [Goal.bound, hbuild]
    omega
  | .link base => low_link hd base

end Level

/-- **The heights of what is parsed at a depth.** -/
theorem low_parseAt (limit n : Nat) (g : Goal) : Low (g.bound n) (parseAt limit n g) := by
  induction n generalizing g with
  | zero => exact low_goal (shallow_none limit) g
  | succ n ih => exact low_goal (shallow_some ih) g

theorem low_expression (limit : Nat) : Low (3 * limit ^ 2) (expression limit) := by
  cases limit with
  | zero => exact low_failHere
  | succ n => exact low_parseAt (n + 1) n .expression

/-! ## Statements -/

theorem height_of_mem_statements (limit n : Nat) (c : Cursor) :
    ∀ e ∈ (statements limit n c).1, e.height ≤ 3 * limit ^ 2 := by
  induction n generalizing c with
  | zero => exact fun e he => by cases he
  | succ n ih =>
    unfold statements
    dsimp only
    split
    · exact fun e he => by cases he
    · exact ih _
    · have hlow := low_expression limit c.listen
      rcases he : (expression limit).run c.listen with ⟨e, c'⟩
      replace hlow : e.height ≤ 3 * limit ^ 2 := congrArg (·.1.height) he ▸ hlow
      dsimp only
      split
      · exact List.forall_mem_singleton.2 hlow
      · exact List.forall_mem_cons.2 ⟨hlow, ih _⟩
      · exact List.forall_mem_cons.2 ⟨Nat.zero_le _, ih _⟩

/-- **The height of a statement** is at most three times the square of the limit. -/
theorem height_le_of_mem_parseText (limit : Nat) (source : String) :
    ∀ e ∈ (parseText limit source).1, e.height ≤ 3 * limit ^ 2 :=
  height_of_mem_statements limit _ _

theorem height_firstStatement :
    ∃ e ∈ (parseText 1 "-x:y").1, e.height = 2 ∧ e.height ≤ 3 * 1 ^ 2 := by
  have hparse : (parseText 1 "-x:y").1 = [.range (.unary .neg (.var "x")) none (.var "y")] := rfl
  have hmem : .range (.unary .neg (.var "x")) none (.var "y") ∈ (parseText 1 "-x:y").1 := by
    rw [hparse]
    exact List.mem_singleton_self _
  exact ⟨_, hmem, rfl, height_le_of_mem_parseText 1 "-x:y" _ hmem⟩

/-- On each level a power, a sign, a range and chains of all five ranks, as long as the level lets
them be. -/
def deepChains : String :=
  "-[-[-[-x:x]^x:x*x+x==x and x or x]^x^x:x*x*x+x+x==x==x and x and x or x or x]" ++
    "^x^x^x:x*x*x*x+x+x+x==x==x==x and x and x and x or x or x or x"

/-- A limit of four levels does not keep trees to eight times as many steps. -/
theorem height_deepChains : (parseText 4 deepChains).2.faults.size = 0 ∧
    ∃ e ∈ (parseText 4 deepChains).1, 8 * (4 + 1) < e.height := by
  decide +kernel

end Parser

end FormulaLang
