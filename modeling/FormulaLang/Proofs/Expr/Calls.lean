import FormulaLang.Bytecode.Compile
import Mathlib

/-!
# Definitions and calls in a formula

Which functions a formula defines, anywhere in it, and which functions they call. What a body
defines is not called with it, so a call in a nested definition belongs to that definition.

* `Expr.parts`, `Expr.Within`: the trees right below a tree, and all trees in it.
* **`exists_definedNames`**: a formula defines no more functions than it has definitions.
* `Expr.Calls`: the functions that a tree calls, outside of definitions.
* `Expr.CallsInBody`, `Expr.CallsInArgument`: calls between the functions of a formula.
-/

namespace FormulaLang

open Bytecode

def LoopSource.parts : LoopSource Expr → List Expr
  | .items e => [e]
  | .range a d b => a :: (d.toList ++ [b])

namespace Expr

/-! ## Trees in a tree -/

/-- The trees right below a tree, from the left. -/
def parts : Expr → List Expr
  | constant _ | var _ | invalid => []
  | unary _ e | assign _ e | element _ e | member e _ | define _ _ e => [e]
  | binary _ a b | compare _ a b | logical _ a b | index a b | assignElement _ a b => [a, b]
  | call _ es | vector es | list es | sequence es => es
  | cases bs o => bs.flatMap (fun b => [b.1, b.2]) ++ o.toList
  | range a d b => a :: (d.toList ++ [b])
  | loop _ _ source body default => source.parts ++ body :: default.toList
  | matrix rows => rows.flatten

/-- The first tree is the second one or stands in it. -/
inductive Within (e : Expr) : Expr → Prop where
  | self : Within e e
  | part {p t : Expr} (hp : p ∈ t.parts) (h : Within e p) : Within e t

variable {e p t : Expr} {name : String}

theorem within_of_mem_parts (h : p ∈ t.parts) : p.Within t := .part h .self

theorem Within.trans (h : e.Within p) (h' : p.Within t) : e.Within t := by
  induction h' with
  | self => exact h
  | part hp _ ih => exact .part hp ih

theorem sizeOf_lt_of_mem_option {o : Option Expr} (h : p ∈ o) : sizeOf p < sizeOf o := by
  obtain rfl := Option.mem_def.1 h
  simp

theorem sizeOf_lt_of_mem_range {a b : Expr} {d : Option Expr} (h : p ∈ a :: (d.toList ++ [b])) :
    sizeOf p < 1 + sizeOf a + sizeOf d + sizeOf b := by
  simp only [List.mem_cons, List.mem_append, List.not_mem_nil, or_false, Option.mem_toList] at h
  rcases h with rfl | h | rfl
  · omega
  · have := sizeOf_lt_of_mem_option h
    omega
  · omega

theorem sizeOf_lt_of_mem_source {source : LoopSource Expr} (h : p ∈ source.parts) :
    sizeOf p < sizeOf source := by
  cases source with
  | items e =>
    obtain rfl := List.mem_singleton.1 h
    simp
  | range a d b => simpa using sizeOf_lt_of_mem_range h

theorem sizeOf_lt_of_mem_parts (h : p ∈ t.parts) : sizeOf p < sizeOf t := by
  cases t with
  | constant _ | var _ | invalid => cases h
  | unary _ e | assign _ e | element _ e | member e _ | define _ _ e =>
    obtain rfl := List.mem_singleton.1 h
    simp only [unary.sizeOf_spec, assign.sizeOf_spec, element.sizeOf_spec, member.sizeOf_spec,
      define.sizeOf_spec]
    omega
  | binary _ a b | compare _ a b | logical _ a b | index a b | assignElement _ a b =>
    simp only [parts, List.mem_cons, List.not_mem_nil, or_false] at h
    rcases h with rfl | rfl <;>
      simp only [binary.sizeOf_spec, compare.sizeOf_spec, logical.sizeOf_spec, index.sizeOf_spec,
        assignElement.sizeOf_spec] <;>
      omega
  | call _ es | vector es | list es | sequence es =>
    have hlt : sizeOf p < sizeOf es := List.sizeOf_lt_of_mem h
    simp only [call.sizeOf_spec, vector.sizeOf_spec, list.sizeOf_spec, sequence.sizeOf_spec]
    omega
  | cases bs o =>
    simp only [parts, List.mem_append, List.mem_flatMap, List.mem_cons, List.not_mem_nil, or_false,
      Option.mem_toList] at h
    simp only [cases.sizeOf_spec]
    rcases h with ⟨⟨c, e⟩, hb, h⟩ | h
    · have hlt := List.sizeOf_lt_of_mem hb
      simp only [Prod.mk.sizeOf_spec] at hlt
      rcases h with rfl | rfl <;> omega
    · have hlt := sizeOf_lt_of_mem_option h
      omega
  | range a d b => simpa using sizeOf_lt_of_mem_range h
  | loop kind name source body default =>
    simp only [parts, List.mem_append, List.mem_cons, Option.mem_toList] at h
    simp only [loop.sizeOf_spec]
    rcases h with h | rfl | h
    · have hlt := sizeOf_lt_of_mem_source h
      omega
    · omega
    · have hlt := sizeOf_lt_of_mem_option h
      omega
  | matrix rows =>
    obtain ⟨row, hrow, h⟩ := List.mem_flatten.1 h
    have hrow := List.sizeOf_lt_of_mem hrow
    have h := List.sizeOf_lt_of_mem h
    simp only [matrix.sizeOf_spec]
    omega

/-! ## Functions that a formula defines -/

theorem definitionsOfAll_eq (es : List Expr) : definitionsOfAll es = (es.map definitions).sum := by
  induction es with
  | nil => rfl
  | cons e es ih => rw [definitionsOfAll, ih, List.map_cons, List.sum_cons]

theorem definitionsOfRows_eq (rows : List (List Expr)) :
    definitionsOfRows rows = (rows.flatten.map definitions).sum := by
  induction rows with
  | nil => rfl
  | cons row rows ih =>
    rw [definitionsOfRows, ih, definitionsOfAll_eq, List.flatten_cons, List.map_append,
      List.sum_append]

theorem definitionsOfBranches_eq (bs : List (Expr × Expr)) : definitionsOfBranches bs =
    ((bs.flatMap fun b => [b.1, b.2]).map definitions).sum := by
  induction bs with
  | nil => rfl
  | cons b bs ih => simp [definitionsOfBranches, ih, Nat.add_assoc]

theorem definitionsOfOption_eq (o : Option Expr) :
    definitionsOfOption o = (o.toList.map definitions).sum := by
  cases o <;> simp [definitionsOfOption]

theorem definitionsOfSource_eq (source : LoopSource Expr) :
    definitionsOfSource source = (source.parts.map definitions).sum := by
  cases source <;>
    simp [definitionsOfSource, definitionsOfOption_eq, LoopSource.parts, Nat.add_assoc]

/-- A tree has the definitions of its parts, and may be one itself. -/
theorem definitions_eq (e : Expr) : definitions e =
    (e.parts.map definitions).sum + match e with | define .. => 1 | _ => 0 := by
  cases e <;> simp [definitions, parts, definitionsOfAll_eq, definitionsOfRows_eq,
    definitionsOfBranches_eq, definitionsOfOption_eq, definitionsOfSource_eq, Nat.add_assoc]

/-- Some trees have no more functions in them than definitions, if each of them has not. -/
theorem exists_definedNames_of_parts {ps : List Expr} (h : ∀ p ∈ ps, ∃ names : List String,
      names.length ≤ definitions p ∧ ∀ name params body, (define name params body).Within p →
        name ∈ names) :
    ∃ names : List String, names.length ≤ (ps.map definitions).sum ∧
      ∀ p ∈ ps, ∀ name params body, (define name params body).Within p → name ∈ names := by
  induction ps with
  | nil => exact ⟨[], Nat.le_refl _, nofun⟩
  | cons p ps ih =>
    obtain ⟨⟨names, hlength, hnames⟩, h⟩ := List.forall_mem_cons.1 h
    obtain ⟨more, hlength', hmore⟩ := ih h
    refine ⟨names ++ more, ?_, List.forall_mem_cons.2 ⟨?_, ?_⟩⟩
    · rw [List.length_append, List.map_cons, List.sum_cons]
      omega
    · exact fun name params body hw => List.mem_append_left _ (hnames name params body hw)
    · exact fun p hp name params body hw => List.mem_append_right _ (hmore p hp name params body hw)

/-- **A formula defines no more functions than it has definitions.** -/
theorem exists_definedNames (e : Expr) : ∃ names : List String, names.length ≤ definitions e ∧
    ∀ name params body, (define name params body).Within e → name ∈ names := by
  obtain ⟨names, hlength, hnames⟩ := exists_definedNames_of_parts fun p (hp : p ∈ e.parts) =>
    have := sizeOf_lt_of_mem_parts hp
    exists_definedNames p
  have hcount := definitions_eq e
  by_cases hdefine : ∃ name params body, e = define name params body
  · obtain ⟨name, params, body, rfl⟩ := hdefine
    refine ⟨name :: names, ?_, fun name' params' body' h => ?_⟩
    · rw [hcount, List.length_cons]
      exact Nat.succ_le_succ hlength
    · cases h with
      | self => exact List.mem_cons_self
      | part hp h => exact List.mem_cons_of_mem _ (hnames _ hp _ _ _ h)
  · refine ⟨names, by omega, fun name params body h => ?_⟩
    cases h with
    | self => exact absurd ⟨_, _, _, rfl⟩ hdefine
    | part hp h => exact hnames _ hp _ _ _ h
termination_by sizeOf e

/-! ## Functions that a tree calls -/

/-- A call of a function stands in the tree, outside of definitions. -/
inductive Calls (name : String) : Expr → Prop where
  | call (args : List Expr) : Calls name (.call name args)
  | part {p t : Expr} (ht : ∀ name params body, t ≠ .define name params body) (hp : p ∈ t.parts)
      (h : Calls name p) : Calls name t

/-- The body of a definition of `f` in the formula calls `g`. -/
def CallsInBody (e : Expr) (f g : String) : Prop :=
  ∃ params body, (define f params body).Within e ∧ body.Calls g

/-- An argument of a call of `f` in the formula calls `g`. -/
def CallsInArgument (e : Expr) (f g : String) : Prop :=
  ∃ args, (call f args).Within e ∧ ∃ a ∈ args, a.Calls g

end Expr

end FormulaLang
