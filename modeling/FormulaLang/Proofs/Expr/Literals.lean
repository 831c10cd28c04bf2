import FormulaLang.Proofs.Engine.Operands
import FormulaLang.Proofs.Expr.Height

/-!
# The constants of trees

A text has literals for numbers, strings and truth values only. So these are the constants of a
parsed tree, wherever they stand in it.

* `Expr.Constants`: a property of all constants of a tree.
* `Value.isScalar`, `Plain`: what literals stand for, and trees of such constants.
* `yields_goal`, `yields_parseAt`: what is parsed at one level and at a depth.
* **`constants_parse`**: the constants of a parsed text.
-/

namespace FormulaLang

/-- Numbers, strings and truth values. -/
def Value.isScalar : Value → Bool
  | number _ | string _ | bool _ => true
  | _ => false

section Constants

variable {Q Q' : Value → Prop} {e : Expr}

/-- All constants of a tree have a property, also those in the bodies of its definitions. A range
without a step counts by the constant one. -/
inductive Expr.Constants (Q : Value → Prop) : Expr → Prop
  | constant {v : Value} (hv : Q v) : Constants Q (.constant v)
  | var (name : String) : Constants Q (.var name)
  | eager {e : Expr} {es : List Expr} {finish : List Value → Eval Value}
      (he : e.eager? = some (es, finish)) (hes : ∀ e ∈ es, Constants Q e) : Constants Q e
  | call {name : String} {args : List Expr} (hargs : ∀ e ∈ args, Constants Q e) :
      Constants Q (.call name args)
  | define {name : String} {params : List String} {body : Expr} (hbody : Constants Q body) :
      Constants Q (.define name params body)
  | cases {branches : List (Expr × Expr)} {otherwise : Option Expr}
      (hconditions : ∀ b ∈ branches, Constants Q b.1) (hbranches : ∀ b ∈ branches, Constants Q b.2)
      (hotherwise : ∀ e ∈ otherwise, Constants Q e) : Constants Q (.cases branches otherwise)
  | loop {kind : LoopKind} {name : String} {source : LoopSource Expr} {body : Expr}
      {default : Option Expr} (hsource : ∀ e ∈ source.operands, Constants Q e)
      (hbody : Constants Q body) (hdefault : ∀ e ∈ default, Constants Q e) :
      Constants Q (.loop kind name source body default)
  | sequence {es : List Expr} (hes : ∀ e ∈ es, Constants Q e) : Constants Q (.sequence es)
  | invalid : Constants Q .invalid

namespace Expr.Constants

theorem mono (h : e.Constants Q) (hQ : ∀ v, Q v → Q' v) : e.Constants Q' := by
  induction h with
  | constant hv => exact .constant (hQ _ hv)
  | var name => exact .var name
  | eager he _ ih => exact .eager he ih
  | call _ ih => exact .call ih
  | define _ ih => exact .define ih
  | cases _ _ _ ihc ihb iho => exact .cases ihc ihb iho
  | loop _ _ _ ihs ihb ihd => exact .loop ihs ihb ihd
  | sequence _ ih => exact .sequence ih
  | invalid => exact .invalid

variable {a b : Expr} {d : Option Expr}

theorem bounds (ha : a.Constants Q) (hd : ∀ e ∈ d, e.Constants Q) (hb : b.Constants Q)
    (hone : Q (.number 1.0)) : ∀ e ∈ FormulaLang.bounds a d b, e.Constants Q := by
  have hstep : (d.getD (.constant (.number 1.0))).Constants Q := by
    cases d with
    | none => exact .constant hone
    | some e => exact hd e rfl
  simpa [FormulaLang.bounds] using ⟨ha, hstep, hb⟩

/-- A tree with one operand. -/
theorem one {finish : List Value → Eval Value} (he : e.eager? = some ([a], finish))
    (ha : a.Constants Q) : e.Constants Q :=
  .eager he (List.forall_mem_singleton.2 ha)

/-- A tree with two operands. -/
theorem two {finish : List Value → Eval Value} (he : e.eager? = some ([a, b], finish))
    (ha : a.Constants Q) (hb : b.Constants Q) : e.Constants Q :=
  .eager he (List.forall_mem_cons.2 ⟨ha, List.forall_mem_singleton.2 hb⟩)

end Expr.Constants

end Constants

namespace Parser

open Expr (Constants)

variable {α β : Type} {args : List Expr} {e : Expr}

/-- The constants of the tree are scalars. -/
abbrev Plain (e : Expr) : Prop := e.Constants fun v => v.isScalar

/-! ## Forms over their parts -/

theorem plain_loopOf {kind : LoopKind} {default : Option Expr} (hargs : ∀ a ∈ args, Plain a)
    (hdefault : ∀ a ∈ default, Plain a) (hf : loopOf kind args default = .ok e) : Plain e := by
  unfold loopOf at hf
  split at hf
  · cases hf
    simp only [List.mem_cons, List.not_mem_nil, or_false, forall_eq_or_imp, forall_eq] at hargs
    exact .loop (List.forall_mem_singleton.2 hargs.2.1) hargs.2.2 hdefault
  · cases hf
    simp only [List.mem_cons, List.not_mem_nil, or_false, forall_eq_or_imp, forall_eq] at hargs
    exact .loop (.bounds hargs.2.1 (by simp) hargs.2.2.1 rfl) hargs.2.2.2 hdefault
  · cases hf
    simp only [List.mem_cons, List.not_mem_nil, or_false, forall_eq_or_imp, forall_eq] at hargs
    exact .loop (.bounds hargs.2.1 (by simpa using hargs.2.2.1) hargs.2.2.2.1 rfl) hargs.2.2.2.2
      hdefault
  · cases hf

theorem plain_loopForm {kind : LoopKind} (hargs : ∀ a ∈ args, Plain a)
    (hf : loopForm kind args = .ok e) : Plain e := by
  unfold loopForm at hf
  dsimp only at hf
  by_cases hcalled : kind.isReduction ∧ args.length < 3
  · rw [if_pos hcalled] at hf
    cases hf
    exact .call hargs
  rw [if_neg hcalled] at hf
  by_cases harity : args.length < 3 + (if kind.takesDefault then 1 else 0) ∨
      5 + (if kind.takesDefault then 1 else 0) < args.length
  · rw [if_pos harity] at hf
    cases hf
  rw [if_neg harity] at hf
  split at hf
  · refine plain_loopOf (fun a ha => hargs a (List.dropLast_subset _ ha)) (fun a ha => ?_) hf
    exact hargs a (List.mem_of_getLast? ha)
  · exact plain_loopOf hargs (fun a ha => by cases ha) hf

theorem plain_callForm {name : String} (hargs : ∀ a ∈ args, Plain a)
    (hf : callForm name args = .ok e) : Plain e := by
  unfold callForm at hf
  split at hf
  · split at hf
    · cases hf
      simp only [List.mem_cons, List.not_mem_nil, or_false, forall_eq_or_imp, forall_eq] at hargs
      exact .cases (List.forall_mem_singleton.2 hargs.1) (List.forall_mem_singleton.2 hargs.2.1)
        (by simpa using hargs.2.2)
    · cases hf
  split at hf
  · split at hf
    · cases hf
    · rcases hp : pairUp args with ⟨branches, otherwise⟩
      rw [hp] at hf
      cases hf
      obtain ⟨hpairs, hlast⟩ := mem_of_pairUp hp
      exact .cases (fun b hb => hargs _ (hpairs b hb).1) (fun b hb => hargs _ (hpairs b hb).2)
        fun e he => hargs e (hlast e he)
  split at hf
  · exact plain_loopForm hargs hf
  · cases hf
    exact .call hargs

theorem plain_literalOf {rows : List (List Expr)} (hrows : ∀ row ∈ rows, ∀ e ∈ row, Plain e)
    (hf : literalOf rows = .ok e) : Plain e := by
  unfold literalOf at hf
  split at hf
  · cases hf
    exact .eager rfl (by simp)
  · cases hf
    exact .eager rfl (hrows _ List.mem_cons_self)
  · dsimp only at hf
    split at hf
    · cases hf
    · cases hf
      refine .eager rfl fun e he => ?_
      obtain ⟨row, hrow, he⟩ := List.mem_flatten.1 he
      exact hrows row hrow e he

/-! ## One level -/

theorem plain_invalid : Yields Plain (pure .invalid) := yields_pure .invalid

theorem plain_failAt {x : Text.Extent} {f : Fault} : Yields Plain (failAt x f) :=
  yields_bind fun _ => plain_invalid

theorem plain_failHere {f : Fault} : Yields Plain (failHere f) := yields_bind fun _ => plain_failAt

theorem plain_orFail {x : Text.Extent} {r : Except Fault Expr} (hr : ∀ e, r = .ok e → Plain e) :
    Yields Plain (orFail x r) := by
  cases r with
  | ok e => exact yields_pure (hr e rfl)
  | error f => exact plain_failAt

/-- The tree that a goal goes on with is plain. -/
def Goal.Plain : Goal → Prop
  | .expression | .prefixed => True
  | .joined _ left => Parser.Plain left
  | .link base => Parser.Plain base

section Level

variable {limit : Nat} {deeper : Deeper}
  (hd : ∀ parse ∈ deeper, ∀ g : Goal, g.Plain → Yields Plain (parse g))

include hd

theorem plain_descend {g : Goal} (hg : g.Plain) : Yields Plain (descend limit deeper g) := by
  cases deeper with
  | none => exact plain_failHere
  | some parse => exact hd parse rfl g hg

theorem plain_nested : Yields Plain (descend limit deeper .expression) :=
  plain_descend hd (g := .expression) trivial

theorem plain_listLiteral : Yields Plain (listLiteral limit deeper) := by
  unfold listLiteral
  refine yields_bind fun closed => ?_
  split
  · exact yields_bind fun _ => yields_pure (.eager rfl (by simp))
  · refine yields_bind fun bound => (yields_itemsUntil (plain_nested hd) _ _ _).bind fun r hr => ?_
    split
    · next items => exact yields_pure (.eager rfl (hr items rfl))
    · exact plain_invalid

theorem plain_vectorLiteral (x : Text.Extent) :
    Yields Plain (vectorLiteral limit deeper x) := by
  unfold vectorLiteral
  refine yields_bind fun closed => ?_
  split
  · exact yields_bind fun _ => yields_pure (.eager rfl (by simp))
  · refine yields_bind fun bound => (yields_rowsUntil (plain_nested hd) _).bind fun r hr => ?_
    split
    · next rows => exact plain_orFail fun e he => plain_literalOf (hr rows rfl) he
    · exact plain_invalid

theorem plain_afterArguments (name : String) (x : Text.Extent) (args : Option (List Expr))
    (hargs : ∀ es ∈ args, ∀ e ∈ es, Plain e) :
    Yields Plain (afterArguments limit deeper name x args) := by
  cases args with
  | none => exact plain_invalid
  | some args =>
    refine yields_bind fun assigned => ?_
    split
    · refine yields_bind fun _ => (plain_nested hd).bind fun body hbody =>
        plain_orFail fun e he => ?_
      unfold defineForm at he
      split at he
      · cases he
        exact .define hbody
      · cases he
    · exact plain_orFail fun e he => plain_callForm (hargs args rfl) he

theorem plain_callLike (name : String) (x : Text.Extent) :
    Yields Plain (callLike limit deeper name x) := by
  unfold callLike
  refine yields_bind fun closed => ?_
  dsimp only
  split
  · exact yields_bind fun _ => plain_afterArguments hd name x (some []) fun es hes => by
      cases hes
      simp
  · exact yields_bind fun _ => (yields_itemsUntil (plain_nested hd) _ _ _).bind
      (plain_afterArguments hd name x)

theorem plain_nameLike (name : String) (x : Text.Extent) :
    Yields Plain (nameLike limit deeper name x) := by
  unfold nameLike
  refine yields_bind fun c => ?_
  split
  · exact yields_bind fun _ => (plain_nested hd).map fun e he => .one rfl he
  · refine yields_bind fun _ => (plain_nested hd).bind fun i hi => yields_bind fun closed => ?_
    split
    · refine yields_bind fun assigned => ?_
      split
      · exact yields_bind fun _ => (plain_nested hd).map fun e he => .two rfl hi he
      · exact yields_pure (.one rfl hi)
    · exact plain_invalid
  · exact yields_bind fun _ => plain_callLike hd name x
  · exact yields_pure (.var name)

/-- The literals of an operand are numbers, strings and truth values. -/
theorem plain_primary : Yields Plain (primary limit deeper) := by
  unfold primary
  refine yields_bind fun c => ?_
  split
  · exact yields_bind fun _ => yields_pure (.constant rfl)
  · exact yields_bind fun _ => yields_pure (.constant rfl)
  · exact yields_bind fun _ => yields_pure (.constant rfl)
  · exact yields_bind fun _ => yields_pure (.constant rfl)
  · refine yields_bind fun _ => (plain_nested hd).bind fun e he =>
      yields_bind fun closed => ?_
    split
    · exact yields_pure he
    · exact plain_invalid
  · exact yields_bind fun _ => plain_vectorLiteral hd _
  · exact yields_bind fun _ => plain_listLiteral hd
  · exact yields_bind fun _ => plain_nameLike hd _ _
  · exact yields_bind fun _ => plain_invalid

omit hd in
theorem plain_signed {operand : Parse Expr} (ho : Yields Plain operand) :
    Yields Plain (signed operand) := by
  unfold signed
  refine yields_bind fun c => ?_
  split
  · exact yields_bind fun _ => ho.map fun e he => .one rfl he
  · exact yields_bind fun _ => ho
  · exact ho

theorem plain_links {base : Expr} (hbase : Plain base) :
    Yields Plain (links limit deeper base) := by
  unfold links
  refine yields_bind fun c => ?_
  split
  · exact plain_descend hd hbase
  · exact yields_pure hbase

theorem plain_link {base : Expr} (hbase : Plain base) : Yields Plain (link limit deeper base) := by
  unfold link
  refine yields_bind fun c => ?_
  split
  · exact yields_bind fun _ => (plain_signed (plain_primary hd)).bind fun e he =>
      plain_links hd (.two rfl hbase he)
  · refine yields_bind fun _ => (plain_nested hd).bind fun i hi =>
      yields_bind fun closed => ?_
    split
    · exact plain_links hd (.two rfl hbase hi)
    · exact plain_invalid
  · refine yields_bind fun _ => yields_bind fun c => ?_
    split
    · exact yields_bind fun _ => plain_links hd (.one rfl hbase)
    · exact yields_bind fun _ => plain_invalid

theorem plain_linked : Yields Plain (linked limit deeper) :=
  (plain_primary hd).bind fun _ hbase => plain_links hd hbase

theorem plain_rangeLike (negated : Bool) : Yields Plain (rangeLike limit deeper negated) := by
  unfold rangeLike
  refine (plain_linked hd).bind fun first hfirst => ?_
  have hstart : Plain (if negated then Expr.unary .neg first else first) := by
    split
    · exact .one rfl hfirst
    · exact hfirst
  refine yields_bind fun colon => ?_
  split
  · refine yields_bind fun _ => (plain_signed (plain_linked hd)).bind fun second hsecond =>
      yields_bind fun colon => ?_
    split
    · refine yields_bind fun _ => (plain_signed (plain_linked hd)).map fun stop hstop => ?_
      exact .eager rfl (.bounds hstart (by simpa using hsecond) hstop rfl)
    · exact yields_pure (.eager rfl (.bounds hstart (by simp) hsecond rfl))
  · exact yields_pure hstart

theorem plain_prefixed : Yields Plain (prefixed limit deeper) := by
  unfold prefixed
  refine yields_bind fun c => ?_
  split
  · exact plain_rangeLike hd false
  · refine yields_bind fun _ => yields_bind fun c => ?_
    split
    · exact plain_rangeLike hd true
    split
    · exact plain_failHere
    · next parse =>
      refine (hd parse rfl .prefixed trivial).bind fun operand ho => ?_
      split
      · exact yields_pure (.one rfl ho)
      · exact yields_pure ho

theorem plain_joins (rank : Nat) {left : Expr} (hleft : Plain left) :
    Yields Plain (joins limit deeper rank left) := by
  unfold joins
  refine yields_bind fun c => ?_
  split
  · split
    · split
      · exact plain_descend hd hleft
      · exact yields_pure hleft
    · exact yields_pure hleft
  · exact yields_pure hleft

theorem plain_ranked (rank : Nat) : Yields Plain (ranked limit deeper rank) := by
  induction rank with
  | zero => exact plain_prefixed hd
  | succ rank ih => exact ih.bind fun left hleft => plain_joins hd (rank + 1) hleft

/-- **What is parsed at one level** is plain, if what is parsed one level deeper is. -/
theorem yields_goal : ∀ g : Goal, g.Plain → Yields Plain (goal limit deeper g)
  | .expression, _ => plain_ranked hd 5
  | .prefixed, _ => plain_prefixed hd
  | .joined op _, hleft => by
    refine yields_bind fun _ => (plain_ranked hd _).bind fun right hright =>
      plain_joins hd op.rank ?_
    cases op <;> exact .two rfl hleft hright
  | .link _, hbase => plain_link hd hbase

end Level

/-- **What is parsed at a depth.** -/
theorem yields_parseAt (limit n : Nat) (g : Goal) (hg : g.Plain) :
    Yields Plain (parseAt limit n g) := by
  induction n generalizing g with
  | zero => exact yields_goal (fun _ hp => by cases hp) g hg
  | succ n ih =>
    refine yields_goal (fun parse hp g hg => ?_) g hg
    cases hp
    exact ih g hg

theorem yields_expression (limit : Nat) : Yields Plain (expression limit) := by
  cases limit with
  | zero => exact plain_failHere
  | succ n => exact yields_parseAt (n + 1) n .expression trivial

/-! ## Statements -/

theorem constants_of_mem_statements (limit n : Nat) (c : Cursor) :
    ∀ e ∈ (statements limit n c).1, Plain e := by
  induction n generalizing c with
  | zero => exact fun e he => by cases he
  | succ n ih =>
    unfold statements
    dsimp only
    split
    · exact fun e he => by cases he
    · exact ih _
    · have hplain := yields_expression limit c.listen
      rcases he : (expression limit).run c.listen with ⟨e, c'⟩
      replace hplain : Plain e := congrArg (Plain ·.1) he ▸ hplain
      dsimp only
      split
      · exact List.forall_mem_singleton.2 hplain
      · exact List.forall_mem_cons.2 ⟨hplain, ih _⟩
      · exact List.forall_mem_cons.2 ⟨.invalid, ih _⟩

theorem plain_sequenceOf {es : List Expr} (hes : ∀ e ∈ es, Plain e) : Plain (sequenceOf es) := by
  unfold sequenceOf
  split
  · exact hes _ (.head _)
  · exact .sequence hes

/-- **The constants of a parsed text** are numbers, strings and truth values. -/
theorem constants_parse (limit : Nat) (source : String) :
    (parse limit source).1.Constants fun v => v.isScalar := by
  have hes : ∀ e ∈ (parseText limit source).1, Plain e := constants_of_mem_statements limit _ _
  exact plain_sequenceOf hes

end Parser

end FormulaLang
