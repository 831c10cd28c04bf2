import FormulaLang.Proofs.Bytecode.Fragment
import FormulaLang.Proofs.Bytecode.Run
import FormulaLang.Proofs.Engine.Silent

/-!
# Operators on numbers and bools

A bool counts as one or zero. Where an operator on numbers and bools has a value at all, the
machine has the same from the numbers that they count as. The functions of the catalog with a fast
path agree with it on numbers, and have no value for bools.

* `asNumber?_unary`, `asNumber?_binary`, `asNumber?_compare`, `asNumber?_logical`: operators.
* `Operates`, **`operates_of_operation`**: the same for every operator and its instruction.
* `Catalog.plain_cases`: the functions with a fast path on numbers alone.
* `Environment.FastCatalogued`: no other functions have a fast path.
-/

namespace FormulaLang

open Bytecode (unaryOn)

/-! ## Operators -/

section Operators

variable {v w u : Value} {a b : Float}

theorem asNumber?_cases (h : v.asNumber? = some a) :
    v = .number a ∨ ∃ p, v = .bool p ∧ a = Number.ofBool p := by
  cases v with
  | number x =>
    cases h
    exact .inl rfl
  | bool p =>
    cases h
    exact .inr ⟨p, rfl, rfl⟩
  | _ => cases h

theorem isInvalid_of_asNumber? (h : v.asNumber? = some a) : v.isInvalid = false := by
  rcases asNumber?_cases h with rfl | ⟨p, rfl, _⟩ <;> rfl

theorem bools?_of_asNumber? (h : v.asNumber? = some a) :
    v.bools? = some (.scalar (Number.isTrue a)) := by
  rcases asNumber?_cases h with rfl | ⟨p, rfl, rfl⟩
  · rfl
  · rw [Bytecode.isTrue_ofBool]
    rfl

theorem asNumber?_unary {op : UnaryOp} (hv : v.asNumber? = some a) (h : v.unary op = .ok w) :
    w.asNumber? = some (unaryOn op a) := by
  unfold Value.unary at h
  rw [isInvalid_of_asNumber? hv, bools?_of_asNumber? hv] at h
  rcases asNumber?_cases hv with rfl | ⟨p, rfl, rfl⟩
  · cases op <;> cases h <;> rfl
  · cases op <;> cases h
    rfl

theorem asNumber?_arithmetic (symbol : String) {f : Float → Float → Float}
    (hv : v.asNumber? = some a) (hw : w.asNumber? = some b)
    (h : Value.arithmetic symbol f v w = .ok u) : u.asNumber? = some (f a b) := by
  rcases asNumber?_cases hv with rfl | ⟨p, rfl, rfl⟩
  · rcases asNumber?_cases hw with rfl | ⟨q, rfl, rfl⟩
    · cases h
      rfl
    · cases h
  · cases h

theorem asNumber?_binary {op : BinaryOp} (hv : v.asNumber? = some a) (hw : w.asNumber? = some b)
    (h : v.binary op w = .ok u) : u.asNumber? = some (op.apply a b) := by
  unfold Value.binary at h
  rw [isInvalid_of_asNumber? hv, isInvalid_of_asNumber? hw] at h
  refine asNumber?_arithmetic op.symbol hv hw ?_
  rcases asNumber?_cases hv with rfl | ⟨p, rfl, rfl⟩ <;> cases op <;> exact h

theorem onNumbers_ofBool {op : CompareOp} {p q : Bool} :
    (op = .eq → op.onNumbers (Number.ofBool p) (Number.ofBool q) = (p == q)) ∧
      (op = .ne → op.onNumbers (Number.ofBool p) (Number.ofBool q) = !(p == q)) := by
  constructor
  · rintro rfl
    cases p <;> cases q <;> decide +kernel
  · rintro rfl
    cases p <;> cases q <;> decide +kernel

theorem asNumber?_compare {op : CompareOp} (hv : v.asNumber? = some a) (hw : w.asNumber? = some b)
    (h : v.compare op w = .ok u) : u.asNumber? = some (Number.ofBool (op.onNumbers a b)) := by
  unfold Value.compare at h
  rw [isInvalid_of_asNumber? hv, isInvalid_of_asNumber? hw] at h
  rcases asNumber?_cases hv with rfl | ⟨p, rfl, rfl⟩
  · rcases asNumber?_cases hw with rfl | ⟨q, rfl, rfl⟩
    · cases h
      rfl
    · cases op <;> cases h
  · rcases asNumber?_cases hw with rfl | ⟨q, rfl, rfl⟩
    · cases op <;> cases h
    · -- Bools can only be compared for equality.
      cases op with
      | eq =>
        cases h
        rw [onNumbers_ofBool.1 rfl]
        rfl
      | ne =>
        cases h
        rw [onNumbers_ofBool.2 rfl]
        rfl
      | _ => cases h

theorem asNumber?_logical {op : LogicalOp} (hv : v.asNumber? = some a) (hw : w.asNumber? = some b)
    (h : v.logical op w = .ok u) :
    u.asNumber? = some (Number.ofBool (op.apply (Number.isTrue a) (Number.isTrue b))) := by
  unfold Value.logical at h
  rw [isInvalid_of_asNumber? hv, isInvalid_of_asNumber? hw, bools?_of_asNumber? hv,
    bools?_of_asNumber? hw] at h
  cases h
  rfl

end Operators

/-! ## Instructions -/

/-- The value of an operator on the values of its operands. -/
def operate : Expr → List Value → Except Fault Value
  | .unary op _, [v] => v.unary op
  | .binary op _ _, [v, w] => v.binary op w
  | .compare op _ _, [v, w] => v.compare op w
  | .logical op _ _, [v, w] => v.logical op w
  | _, _ => .ok .invalid

theorem eval_operation {deeper : Deeper} {e : Expr} {es : List Expr} {i : Bytecode.Instruction}
    (h : Bytecode.operation? e = some (es, i)) :
    eval deeper e = evalAll deeper es >>= fun vs => Eval.check (operate e vs) := by
  cases e <;> cases h <;> funext st <;> rfl

/-- The numbers that values count as. -/
def Counts (vs : List Value) (xs : List Float) : Prop := vs.map Value.asNumber? = xs.map some

theorem counts_nil : Counts [] [] := rfl

theorem counts_cons {v : Value} {vs : List Value} {x : Float} {xs : List Float} :
    Counts (v :: vs) (x :: xs) ↔ v.asNumber? = some x ∧ Counts vs xs := by
  simp [Counts]

theorem Counts.length {vs : List Value} {xs : List Float} (h : Counts vs xs) :
    vs.length = xs.length := by
  simpa using congrArg List.length h

theorem Counts.exists_cons {v : Value} {vs : List Value} {xs : List Float}
    (h : Counts (v :: vs) xs) : ∃ y ys, xs = y :: ys ∧ v.asNumber? = some y ∧ Counts vs ys := by
  cases xs with
  | nil => cases h
  | cons y ys => exact ⟨y, ys, rfl, counts_cons.1 h⟩

theorem Counts.any_isInvalid {vs : List Value} {xs : List Float} (h : Counts vs xs) :
    vs.any Value.isInvalid = false := by
  induction vs generalizing xs with
  | nil => rfl
  | cons v vs ih =>
    obtain ⟨y, ys, rfl, hv, hvs⟩ := h.exists_cons
    rw [List.any_cons, isInvalid_of_asNumber? hv, ih hvs]
    rfl

/-- Values that are numbers themselves. -/
theorem Counts.eq_map_number {vs : List Value} {xs : List Float} (h : Counts vs xs)
    (hvs : ∀ v ∈ vs, ∃ x, v = .number x) : vs = xs.map .number := by
  induction vs generalizing xs with
  | nil =>
    obtain rfl := List.length_eq_zero_iff.1 h.length.symm
    rfl
  | cons v vs ih =>
    obtain ⟨y, ys, rfl, hv, hys⟩ := h.exists_cons
    obtain ⟨x, rfl⟩ := hvs v (.head _)
    cases hv
    rw [List.map_cons, ← ih hys fun v hv => hvs v (.tail _ hv)]

/-- **The instruction of an operator** puts the number on the stack that its value counts as. -/
theorem operates_of_operation {e : Expr} {es : List Expr} {i : Bytecode.Instruction}
    (h : Bytecode.operation? e = some (es, i)) {vs : List Value} {xs : List Float} {w : Value}
    (hxs : Counts vs xs) (hn : vs.length = es.length) (hw : operate e vs = .ok w) :
    ∃ x, w.asNumber? = some x ∧ ∀ limit n a s heap st,
      Bytecode.execute limit n i ⟨a, s ++ xs.toArray, heap⟩ st =
        (Bytecode.Machine.putNext limit x ⟨a, s, heap⟩, st) := by
  have one : es.length = 1 → ∃ v x, vs = [v] ∧ xs = [x] ∧ v.asNumber? = some x := by
    intro hes
    obtain ⟨v, rfl⟩ := List.length_eq_one_iff.1 (hn.trans hes)
    obtain ⟨x, ys, rfl, hv, hys⟩ := hxs.exists_cons
    obtain rfl := List.length_eq_zero_iff.1 hys.length.symm
    exact ⟨v, x, rfl, rfl, hv⟩
  have two : es.length = 2 → ∃ v u x y, vs = [v, u] ∧ xs = [x, y] ∧ v.asNumber? = some x ∧
      u.asNumber? = some y := by
    intro hes
    obtain ⟨v, u, rfl⟩ := List.length_eq_two.1 (hn.trans hes)
    obtain ⟨x, ys, rfl, hv, hys⟩ := hxs.exists_cons
    obtain ⟨y, zs, rfl, hu, hzs⟩ := hys.exists_cons
    obtain rfl := List.length_eq_zero_iff.1 hzs.length.symm
    exact ⟨v, u, x, y, rfl, rfl, hv, hu⟩
  have push₂ : ∀ (s : Array Float) x y, s ++ [x, y].toArray = (s.push x).push y := by
    intro s x y
    exact Array.ext' (by simp)
  cases e with
  | unary op e =>
    cases h
    obtain ⟨v, x, rfl, rfl, hv⟩ := one rfl
    exact ⟨_, asNumber?_unary hv hw, fun limit n a s heap st =>
      Array.push_eq_append ▸ Bytecode.execute_unary ..⟩
  | binary op a b =>
    cases h
    obtain ⟨v, u, x, y, rfl, rfl, hv, hu⟩ := two rfl
    refine ⟨_, asNumber?_binary hv hu hw, fun limit n a s heap st => ?_⟩
    rw [push₂, Bytecode.execute_arithmetic]
  | compare op a b =>
    cases h
    obtain ⟨v, u, x, y, rfl, rfl, hv, hu⟩ := two rfl
    refine ⟨_, asNumber?_compare hv hu hw, fun limit n a s heap st => ?_⟩
    rw [push₂, Bytecode.execute_compare]
  | logical op a b =>
    cases h
    obtain ⟨v, u, x, y, rfl, rfl, hv, hu⟩ := two rfl
    refine ⟨_, asNumber?_logical hv hu hw, fun limit n a s heap st => ?_⟩
    rw [push₂, Bytecode.execute_logical]
  | _ => cases h

/-! ## Functions of the catalog -/

namespace Catalog

theorem plain_of_hasPlain {name : String} {f : Function} (hm : (name, f) ∈ functions)
    (hp : hasPlain name) : f.fast.plain.isEmpty = false := by
  obtain ⟨g, hg, hn⟩ := List.any_eq_true.1 hp
  simp only [Bool.and_eq_true, beq_iff_eq, Bool.not_eq_true'] at hn
  obtain rfl := List.inj_on_of_nodup_map nodup_names hg hm hn.1
  exact hn.2

/-- A function with a fast path on numbers alone works on one or two numbers. -/
theorem plain_cases {p : String × Function} (hm : p ∈ functions)
    (hp : p.2.fast.plain.isEmpty = false) :
    (∃ g, p = unaryMath p.1 g) ∨ ∃ g, p = binaryMath p.1 g := by
  simp only [functions, List.mem_cons, List.not_mem_nil, or_false] at hm
  rcases hm with rfl | rfl | rfl | rfl | rfl | rfl | rfl | rfl | rfl | rfl | rfl | rfl | rfl | rfl |
    rfl | rfl | rfl | rfl | rfl | rfl | rfl | rfl | rfl | rfl | rfl | rfl | rfl
  all_goals first
    | exact .inl ⟨_, rfl⟩
    | exact .inr ⟨_, rfl⟩
    | cases hp

theorem hasPlain_or_fast_eq {p : String × Function} (hm : p ∈ functions) :
    hasPlain p.1 ∨ p.2.fast = {} := by
  simp only [functions, List.mem_cons, List.not_mem_nil, or_false] at hm
  rcases hm with rfl | rfl | rfl | rfl | rfl | rfl | rfl | rfl | rfl | rfl | rfl | rfl | rfl | rfl |
    rfl | rfl | rfl | rfl | rfl | rfl | rfl | rfl | rfl | rfl | rfl | rfl | rfl
  all_goals first
    | exact .inr rfl
    | exact .inl (by decide)

/-- A function that code calls directly has a fast path on numbers alone. -/
theorem hasPlain_of_callInstruction {name : String} {f : Function} (hm : (name, f) ∈ functions)
    {n : Nat} (hc : ∀ m k, Bytecode.callInstruction name f n ≠ .call m k) : hasPlain name := by
  refine (hasPlain_or_fast_eq hm).resolve_right fun hfast => hc name n ?_
  rw [Bytecode.callInstruction, show f.fast = {} from hfast]
  rfl

end Catalog

/-- The functions with a fast path are entries of the catalog. Others may be anything. -/
def Environment.FastCatalogued (env : Environment) : Prop :=
  ∀ name f, env.function? name = some f → f.fast ≠ {} → (name, f) ∈ Catalog.functions

theorem Environment.FastCatalogued.mem_functions {env : Environment} (h : env.FastCatalogued)
    {name : String} {f : Function} (hf : env.function? name = some f) {n : Nat}
    (hc : ∀ m k, Bytecode.callInstruction name f n ≠ .call m k) : (name, f) ∈ Catalog.functions :=
  h name f hf fun hfast => hc name n (by rw [Bytecode.callInstruction, hfast]; rfl)

namespace Catalog

theorem exists_native {name : String} {f : Function} (hm : (name, f) ∈ functions)
    (hp : hasPlain name) : ∃ run, f.callable = .native run := by
  rcases plain_cases hm (plain_of_hasPlain hm hp) with ⟨g, hg⟩ | ⟨g, hg⟩
  · exact ⟨_, congrArg (fun p => p.2.callable) hg⟩
  · exact ⟨_, congrArg (fun p => p.2.callable) hg⟩

/-- A call of a function with a fast path evaluates its arguments first. -/
theorem eval_call {name : String} {f : Function} (hm : (name, f) ∈ functions) (hp : hasPlain name)
    {deeper : Deeper} {st : Engine} (hf : st.env.function? name = some f) (args : List Expr) :
    eval deeper (.call name args) st =
      (evalAll deeper args >>= fun vs => invoke deeper name f vs) st := by
  obtain ⟨run, hrun⟩ := exists_native hm hp
  rw [FormulaLang.eval_call, hf]
  simp only [hrun]

/-- What a function with a fast path does in a call without faults. -/
theorem silent_invoke_plain {name : String} {f : Function} (hm : (name, f) ∈ functions)
    (hp : hasPlain name) {vs : List Value} (hi : vs.any Value.isInvalid = false)
    (hn : Bytecode.checkArity name f.arity vs.length = .ok ()) {deeper : Deeper} {st st' : Engine}
    {v : Value} (h : Eval.Silent (invoke deeper name f vs) st v st') : st' = st ∧
      ((∃ g w, f = (unaryMath name g).2 ∧ vs = [w] ∧ w.mapNumbers? g = some v) ∨
        ∃ g w u, f = (binaryMath name g).2 ∧ vs = [w, u] ∧ Value.arithmetic name g w u = .ok v) := by
  rw [Bytecode.checkArity_eq_ok] at hn
  have harity : f.arity.filter (· ≠ vs.length) = none := by
    cases ha : f.arity with
    | none => rfl
    | some k => simp [Option.filter, hn k ha]
  unfold invoke at h
  rw [hi, harity] at h
  obtain ⟨task, h, hlog⟩ := silent_descend h
  rcases plain_cases hm (plain_of_hasPlain hm hp) with ⟨g, hg⟩ | ⟨g, hg⟩
  · obtain rfl : f = (unaryMath name g).2 := congrArg Prod.snd hg
    obtain ⟨w, rfl⟩ := List.length_eq_one_iff.1 (hn 1 rfl)
    simp only [unaryMath] at h
    cases hr : w.mapNumbers? g with
    | some r =>
      rw [hr] at h
      cases h
      exact ⟨rfl, .inl ⟨g, w, rfl, rfl, hr⟩⟩
    | none =>
      rw [hr] at h
      cases h
      exact absurd hlog (by simp [Engine.report, Engine.note])
  · obtain rfl : f = (binaryMath name g).2 := congrArg Prod.snd hg
    obtain ⟨w, u, rfl⟩ := List.length_eq_two.1 (hn 2 rfl)
    change (Request.ofResult (w.zipNumbers name g u)).perform task st = (v, st') at h
    simp only [List.any_cons, List.any_nil, Bool.or_false] at hi
    rw [Value.zipNumbers, hi] at h
    cases hr : Value.arithmetic name g w u with
    | ok r =>
      rw [hr] at h
      cases h
      exact ⟨rfl, .inr ⟨g, w, u, rfl, rfl, hr⟩⟩
    | error e =>
      rw [hr] at h
      cases h
      exact absurd hlog (by simp [Engine.report, Engine.note])

/-- The value that a function with a fast path has on numbers is that of the fast path. -/
theorem invoke_plain {name : String} {f : Function} (hm : (name, f) ∈ functions)
    (hp : hasPlain name) {vs : List Value} {xs : List Float} (hxs : Counts vs xs)
    (hn : Bytecode.checkArity name f.arity vs.length = .ok ()) {deeper : Deeper} {st st' : Engine}
    {v : Value} (h : Eval.Silent (invoke deeper name f vs) st v st') :
    ∃ p, Bytecode.callInstruction name f vs.length = .callPlain p ∧ p.arity = vs.length ∧
      v.asNumber? = some (p.run xs) ∧ st' = st := by
  obtain ⟨rfl, ⟨g, w, rfl, rfl, hr⟩ | ⟨g, w, u, rfl, rfl, hr⟩⟩ :=
    silent_invoke_plain hm hp hxs.any_isInvalid hn h
  · obtain ⟨x, ys, rfl, hw, hys⟩ := hxs.exists_cons
    obtain rfl := List.length_eq_zero_iff.1 hys.length.symm
    refine ⟨.unary g Number.nan, rfl, rfl, ?_, rfl⟩
    rcases asNumber?_cases hw with rfl | ⟨q, rfl, rfl⟩ <;> cases hr
    rfl
  · obtain ⟨x, ys, rfl, hw, hys⟩ := hxs.exists_cons
    obtain ⟨y, zs, rfl, hu, hzs⟩ := hys.exists_cons
    obtain rfl := List.length_eq_zero_iff.1 hzs.length.symm
    exact ⟨.binary g Number.nan, rfl, rfl, asNumber?_arithmetic name hw hu hr, rfl⟩

end Catalog

end FormulaLang
