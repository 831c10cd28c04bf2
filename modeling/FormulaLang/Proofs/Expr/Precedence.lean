import FormulaLang.Proofs.Expr.Forms
import FormulaLang.Proofs.Expr.Split
import Mathlib.Data.List.TakeWhile

/-!
# Operators and how tightly they bind

A chain is an operand followed by operators, each with an operand behind it. It is grouped by adding
one operator after the other: an operator takes what stands in front of it as its left side, but for
the looser operators there, which it goes below on the right. The result is the only tree of the
chain in which tighter operators are below looser ones, and equal ones are grouped to the left.

* `Atom`, `Grouping`: operands, and operators between them.
* `Grouping.Ordered`: the order of a grouping, with `eq_group` for its uniqueness.
* `Grouping.graft`, `group`: adding an operator, and grouping a chain.
* **`group_append`**: where a looser operator splits a chain.
* `takes_links_chain`, **`takes_joins_chain`**, **`takes_ranked_chain`**: the powers of a chain, the
  operators of one rank, and those of all ranks up to one.
* **`parse_chain`**: a text that is a chain is parsed to its grouping.
-/

namespace FormulaLang.Parser

open Lexer

/-! ## Chains -/

/-- An operand of a chain. -/
inductive Atom where
  | number (x : Float)
  | name (s : String)

def Atom.token : Atom → Token
  | number x => .number x
  | name s => .name s

def Atom.expr : Atom → Expr
  | number x => .constant (.number x)
  | name s => .var s

/-- The tokens of operators, each with the operand behind it. -/
def linkTokens (ps : List (Joiner × Atom)) : List Token :=
  ps.flatMap fun p => [.mark p.1.mark, p.2.token]

/-- The tokens of a chain. -/
def chainTokens (a : Atom) (ps : List (Joiner × Atom)) : List Token := a.token :: linkTokens ps

/-! ## Groupings -/

/-- Operators between operands. -/
inductive Grouping where
  | atom (a : Atom)
  | node (op : Joiner) (left right : Grouping)

namespace Grouping

/-- The tree of a grouping. -/
def expr : Grouping → Expr
  | atom a => a.expr
  | node op l r => op.build l.expr r.expr

/-- The first operand of the chain that is grouped. -/
def first : Grouping → Atom
  | atom a => a
  | node _ l _ => l.first

/-- The operators of the chain that is grouped, each with the operand behind it. -/
def rest : Grouping → List (Joiner × Atom)
  | atom _ => []
  | node op l r => l.rest ++ (op, r.first) :: r.rest

/-- Tighter operators are below looser ones, and equal ones are grouped to the left: the operators
to the left of an operator are no looser, and those to the right of it are tighter. -/
def Ordered : Grouping → Prop
  | atom _ => True
  | node op l r => l.Ordered ∧ r.Ordered ∧ (∀ p ∈ l.rest, p.1.rank ≤ op.rank) ∧
      ∀ p ∈ r.rest, p.1.rank < op.rank

/-- Adds an operator and the operand behind it at the end. -/
def graft : Grouping → Joiner × Atom → Grouping
  | atom a, p => node p.1 (atom a) (atom p.2)
  | node op l r, p =>
    if p.1.rank < op.rank then node op l (r.graft p) else node p.1 (node op l r) (atom p.2)

end Grouping

/-- The grouping of a chain, one operator after the other. -/
def group (a : Atom) (ps : List (Joiner × Atom)) : Grouping := ps.foldl Grouping.graft (.atom a)

section Grouping

open Grouping

variable {t l r : Grouping} {a b : Atom} {op : Joiner} {p : Joiner × Atom}
  {ps done more : List (Joiner × Atom)}

theorem first_graft (t : Grouping) (p : Joiner × Atom) : (t.graft p).first = t.first := by
  unfold graft
  split
  · rfl
  · split <;> rfl

theorem rest_graft (t : Grouping) (p : Joiner × Atom) : (t.graft p).rest = t.rest ++ [p] := by
  induction t with
  | atom a => rfl
  | node op l r _ ih =>
    rw [graft]
    split
    · rw [rest, ih, first_graft, rest, List.append_assoc, List.cons_append]
    · rfl

theorem first_foldl_graft (t : Grouping) (ps : List (Joiner × Atom)) :
    (ps.foldl graft t).first = t.first := by
  induction ps generalizing t with
  | nil => rfl
  | cons p ps ih => rw [List.foldl_cons, ih, first_graft]

theorem rest_foldl_graft (t : Grouping) (ps : List (Joiner × Atom)) :
    (ps.foldl graft t).rest = t.rest ++ ps := by
  induction ps generalizing t with
  | nil => rw [List.foldl_nil, List.append_nil]
  | cons p ps ih => rw [List.foldl_cons, ih, rest_graft, List.append_assoc, List.singleton_append]

@[simp] theorem first_group (a : Atom) (ps : List (Joiner × Atom)) : (group a ps).first = a :=
  first_foldl_graft _ _

@[simp] theorem rest_group (a : Atom) (ps : List (Joiner × Atom)) : (group a ps).rest = ps :=
  rest_foldl_graft _ _

/-- An operator that is as loose as all others goes above them. -/
theorem graft_of_le (h : ∀ q ∈ t.rest, q.1.rank ≤ p.1.rank) :
    t.graft p = node p.1 t (.atom p.2) := by
  cases t with
  | atom a => rfl
  | node op l r =>
    have hop : op.rank ≤ p.1.rank := h (op, r.first) (List.mem_append_right _ List.mem_cons_self)
    rw [graft, if_neg (Nat.not_lt.2 hop)]

/-- Tighter operators go below an operator on the right. -/
theorem foldl_graft_node (h : ∀ p ∈ ps, p.1.rank < op.rank) :
    ps.foldl graft (node op l r) = node op l (ps.foldl graft r) := by
  induction ps generalizing r with
  | nil => rfl
  | cons p ps ih =>
    obtain ⟨hp, hps⟩ := List.forall_mem_cons.1 h
    rw [List.foldl_cons, graft, if_pos hp, ih hps, List.foldl_cons]

/-- **Where a looser operator splits a chain**, with those on its right tighter than it is, both
sides are grouped on their own. -/
theorem group_append (hdone : ∀ p ∈ done, p.1.rank ≤ op.rank)
    (hmore : ∀ p ∈ more, p.1.rank < op.rank) :
    group a (done ++ (op, b) :: more) = node op (group a done) (group b more) := by
  have hgraft : (group a done).graft (op, b) = node op (group a done) (.atom b) :=
    graft_of_le ((rest_group a done).symm ▸ hdone)
  rw [group, List.foldl_append, List.foldl_cons]
  exact (congrArg (more.foldl graft) hgraft).trans (foldl_graft_node hmore)

theorem ordered_graft (h : t.Ordered) : (t.graft p).Ordered := by
  induction t with
  | atom a => exact ⟨trivial, trivial, nofun, nofun⟩
  | node op l r _ ih =>
    obtain ⟨hl, hr, hleft, hright⟩ := h
    rw [graft]
    by_cases hp : p.1.rank < op.rank
    · rw [if_pos hp]
      refine ⟨hl, ih hr, hleft, fun q hq => ?_⟩
      rw [rest_graft, List.mem_append, List.mem_singleton] at hq
      rcases hq with hq | rfl
      · exact hright q hq
      · exact hp
    · rw [if_neg hp]
      refine ⟨⟨hl, hr, hleft, hright⟩, trivial, fun q hq => ?_, nofun⟩
      have hop := Nat.not_lt.1 hp
      rcases List.mem_append.1 hq with hq | hq
      · exact Nat.le_trans (hleft q hq) hop
      · rcases List.mem_cons.1 hq with rfl | hq
        · exact hop
        · exact Nat.le_trans (Nat.le_of_lt (hright q hq)) hop

theorem ordered_group (a : Atom) (ps : List (Joiner × Atom)) : (group a ps).Ordered := by
  have hfold : ∀ t : Grouping, t.Ordered → (ps.foldl graft t).Ordered := by
    induction ps with
    | nil => exact fun _ ht => ht
    | cons p ps ih => exact fun t ht => ih _ (ordered_graft ht)
  exact hfold _ trivial

/-- **A grouping in order** is that of its chain. -/
theorem eq_group (h : t.Ordered) : t = group t.first t.rest := by
  induction t with
  | atom a => rfl
  | node op l r ihl ihr =>
    obtain ⟨hl, hr, hleft, hright⟩ := h
    rw [first, rest, group_append hleft hright, ← ihl hl, ← ihr hr]

/-- A chain splits where its operators are first looser than a rank. -/
theorem exists_tighter (k : Nat) (ps : List (Joiner × Atom)) :
    ∃ inner outer, ps = inner ++ outer ∧ (∀ p ∈ inner, p.1.rank ≤ k) ∧
      ∀ p ∈ outer.head?, k < p.1.rank := by
  refine ⟨ps.takeWhile fun p => p.1.rank ≤ k, ps.dropWhile fun p => p.1.rank ≤ k,
    List.takeWhile_append_dropWhile.symm, fun p hp => ?_, fun p hp => ?_⟩
  · exact of_decide_eq_true (List.mem_takeWhile_imp (p := fun p : Joiner × Atom => p.1.rank ≤ k) hp)
  · have hhead := List.head?_dropWhile_not (fun p : Joiner × Atom => p.1.rank ≤ k) ps
    rw [Option.mem_def.1 hp] at hhead
    simpa using hhead

end Grouping

/-! ## Parsing a chain -/

section Parsing

variable {limit n k : Nat} {deeper : Deeper} {a : Atom} {e : Expr} {ts us : List Token}
  {ps done : List (Joiner × Atom)}

theorem takes_atom (h : apart (front us)) :
    Takes (primary limit deeper) (a.token :: us) a.expr us := by
  cases a with
  | number x => exact takes_number
  | name s => exact takes_var h

theorem prefixOp?_atom (a : Atom) : prefixOp? a.token = none := by
  cases a <;> rfl

theorem linkTokens_cons (p : Joiner × Atom) (ps : List (Joiner × Atom)) :
    linkTokens (p :: ps) = .mark p.1.mark :: chainTokens p.2 ps := rfl

theorem chainTokens_append (a : Atom) (ps qs : List (Joiner × Atom)) :
    chainTokens a (ps ++ qs) = chainTokens a ps ++ linkTokens qs := by
  rw [chainTokens, linkTokens, List.flatMap_append]
  rfl

theorem apart_linkTokens (h : apart (front us)) : apart (front (linkTokens ps ++ us)) := by
  cases ps with
  | nil => exact h
  | cons p ps => exact apart_mark p.1

/-- What begins with a looser operator is loose. -/
theorem loose_linkTokens (hps : ∀ p ∈ ps.head?, k < p.1.rank) (h : Loose k (front us)) :
    Loose k (front (linkTokens ps ++ us)) := by
  cases ps with
  | nil => exact h
  | cons p ps => exact loose_mark (ne_pow_of_rank (hps p rfl)) (hps p rfl)

/-- The powers of a chain are links of its first operand. -/
theorem takes_links_chain (hps : ∀ p ∈ ps, p.1.rank ≤ 0) (hn : ps.length ≤ n)
    (hapart : apart (front us)) (hlink : isLink (front us) = false)
    (hdone : ∀ p ∈ done, p.1.rank ≤ 0) :
    Takes (links limit (below limit n) (group a done).expr) (linkTokens ps ++ us)
      (group a (done ++ ps)).expr us := by
  induction ps generalizing n done with
  | nil =>
    rw [List.append_nil]
    exact takes_links hlink
  | cons p ps ih =>
    obtain ⟨op, b⟩ := p
    obtain ⟨hp, hmore⟩ := List.forall_mem_cons.1 hps
    obtain rfl := eq_pow_of_rank hp
    obtain ⟨n, rfl⟩ := Nat.exists_eq_add_one_of_ne_zero (Nat.ne_of_gt (Nat.lt_of_lt_of_le
      (Nat.succ_pos _) hn))
    have hgroup : group a (done ++ [(.binary .pow, b)]) =
        .node (.binary .pow) (group a done) (.atom b) := group_append hdone nofun
    have hlinks := ih hmore (Nat.le_of_succ_le_succ hn)
      (List.forall_mem_append.2 ⟨hdone, List.forall_mem_singleton.2 hp⟩)
    rw [hgroup, List.append_assoc, List.singleton_append] at hlinks
    exact takes_links_of_caret (takes_atom (apart_linkTokens hapart)) (prefixOp?_atom b) hlinks

/-- What parses the operators of a chain up to the rank `k`, each of which may take a level. -/
def ParsesChains (limit k : Nat) : Prop :=
  ∀ ⦃n : Nat⦄ ⦃a : Atom⦄ ⦃ps : List (Joiner × Atom)⦄ ⦃us : List Token⦄,
    (∀ p ∈ ps, p.1.rank ≤ k) → ps.length ≤ n → apart (front us) → Loose k (front us) →
      Takes (ranked limit (below limit n) k) (chainTokens a ps ++ us) (group a ps).expr us

/-- The operators up to a rank, in front of looser ones. -/
theorem ParsesChains.takes_inner (h : ParsesChains limit k) {inner outer : List (Joiner × Atom)}
    (hinner : ∀ p ∈ inner, p.1.rank ≤ k) (houter : ∀ p ∈ outer.head?, k < p.1.rank)
    (hn : inner.length ≤ n) (hapart : apart (front us)) (hloose : Loose k (front us)) :
    Takes (ranked limit (below limit n) k) (chainTokens a (inner ++ outer) ++ us)
      (group a inner).expr (linkTokens outer ++ us) := by
  rw [chainTokens_append, List.append_assoc]
  exact h hinner hn (apart_linkTokens hapart) (loose_linkTokens houter hloose)

/-- **The operators of one rank**, from left to right. What stands between two of them is tighter,
and is parsed one level deeper. -/
theorem takes_joins_chain (hranked : ParsesChains limit k) (hps : ∀ p ∈ ps, p.1.rank ≤ k + 1)
    (hhead : ∀ p ∈ ps.head?, k < p.1.rank) (hn : ps.length ≤ n) (hapart : apart (front us))
    (hloose : Loose (k + 1) (front us)) (hdone : ∀ p ∈ done, p.1.rank ≤ k + 1) :
    Takes (joins limit (below limit n) (k + 1) (group a done).expr) (linkTokens ps ++ us)
      (group a (done ++ ps)).expr us := by
  -- Every operator of the rank takes a level, so the induction is on the levels below.
  induction n generalizing done ps with
  | zero =>
    obtain rfl := List.eq_nil_of_length_eq_zero (Nat.le_zero.1 hn)
    rw [List.append_nil]
    exact takes_joins hloose.joiner
  | succ n ih =>
    cases ps with
    | nil =>
      rw [List.append_nil]
      exact takes_joins hloose.joiner
    | cons p ps =>
      obtain ⟨op, b⟩ := p
      obtain ⟨hp, hps⟩ := List.forall_mem_cons.1 hps
      have hk : op.rank = k + 1 := Nat.le_antisymm hp (hhead (op, b) rfl)
      obtain ⟨inner, outer, rfl, hinner, houter⟩ := exists_tighter k ps
      rw [List.length_cons, List.length_append] at hn
      have hgroup : group a (done ++ (op, b) :: inner) = .node op (group a done) (group b inner) :=
        group_append (hk ▸ hdone) fun q hq => hk ▸ Nat.lt_succ_of_le (hinner q hq)
      have hright : Takes (ranked limit (below limit n) k) (chainTokens b (inner ++ outer) ++ us)
          (group b inner).expr (linkTokens outer ++ us) :=
        hranked.takes_inner hinner houter (by omega) hapart (hloose.mono (Nat.le_succ k))
      have hjoins := ih (List.forall_mem_append.1 hps).2 houter (by omega)
        (List.forall_mem_append.2 ⟨hdone, List.forall_mem_cons.2
          ⟨hp, fun q hq => Nat.le_succ_of_le (hinner q hq)⟩⟩)
      rw [hgroup, List.append_assoc, List.cons_append] at hjoins
      rw [linkTokens_cons, List.cons_append]
      exact takes_joins_of_mark (ne_pow_of_rank (hhead (op, b) rfl)) hk hright hjoins

/-- **The operators of all ranks up to one**, the tighter ones first. -/
theorem takes_ranked_chain (limit k : Nat) : ParsesChains limit k := by
  induction k with
  | zero =>
    intro n a ps us hps hn hapart hloose
    have hlinks : Takes (links limit (below limit n) (group a []).expr) (linkTokens ps ++ us)
        (group a ([] ++ ps)).expr us := takes_links_chain hps hn hapart hloose.link nofun
    have hlinked : Takes (linked limit (below limit n)) (chainTokens a ps ++ us)
        (group a ps).expr us := (takes_atom (apart_linkTokens hapart)).bind hlinks
    exact takes_prefixed (takes_rangeLike hlinked hloose.colon) (prefixOp?_atom a)
  | succ k ih =>
    intro n a ps us hps hn hapart hloose
    obtain ⟨inner, outer, rfl, hinner, houter⟩ := exists_tighter k ps
    rw [List.length_append] at hn
    have hleft : Takes (ranked limit (below limit n) k) (chainTokens a (inner ++ outer) ++ us)
        (group a inner).expr (linkTokens outer ++ us) :=
      ih.takes_inner hinner houter (by omega) hapart (hloose.mono (Nat.le_succ k))
    exact hleft.bind (takes_joins_chain ih (List.forall_mem_append.1 hps).2 houter (by omega) hapart
      hloose fun q hq => Nat.le_succ_of_le (hinner q hq))

/-- A text whose tokens are taken as one expression. -/
theorem parse_of_takes {source : String}
    (hsource : (lex source).lexemes.map (·.content) = ts.map .ok)
    (hbegins : closes (front ts) = false) (h : Takes (expression limit) ts e []) :
    parse limit source = (e, []) := by
  have hstart := Cursor.shows_start (lex source) hsource
  have hbegins : closes (Cursor.start (lex source)).current = false := hstart.current ▸ hbegins
  obtain ⟨he, hend⟩ := h _ hstart.listen
  have hrun := statements_of_run (n := (Cursor.start (lex source)).rest.length)
    (fun hfinish => by rw [hfinish] at hbegins; cases hbegins)
    (fun hsemicolon => by rw [hsemicolon] at hbegins; cases hbegins) (Prod.ext he rfl)
  rw [behind_of_finish hend.current] at hrun
  unfold parse parseText
  dsimp only
  rw [hrun, hend.faults]
  rfl

/-- **A chain is parsed to its grouping**, under a limit above the number of its operators. The
grouping is the only one of the chain that is in order. -/
theorem parse_chain {source : String}
    (hsource : (lex source).lexemes.map (·.content) = (chainTokens a ps).map .ok)
    (hlimit : ps.length < limit) :
    parse limit source = ((group a ps).expr, []) ∧
      ∀ t : Grouping, t.Ordered ∧ t.first = a ∧ t.rest = ps ↔ t = group a ps := by
  refine ⟨?_, fun t => ⟨?_, ?_⟩⟩
  · obtain ⟨n, rfl⟩ := Nat.exists_eq_add_one_of_ne_zero (Nat.ne_of_gt (Nat.zero_lt_of_lt hlimit))
    have hranks : ∀ p ∈ ps, p.1.rank ≤ 5 := fun p _ => by
      by_cases hpow : p.1 = .binary .pow
      · exact hpow ▸ Nat.zero_le 5
      · exact (rank_pos hpow).2
    have hranked : Takes (ranked (n + 1) (below (n + 1) n) 5) (chainTokens a ps ++ [])
        (group a ps).expr [] :=
      takes_ranked_chain (n + 1) 5 hranks (Nat.le_of_lt_succ hlimit) rfl (loose_of_closes rfl)
    rw [List.append_nil] at hranked
    have hexpr : Takes (expression (n + 1)) (chainTokens a ps) (group a ps).expr [] :=
      takes_expression hranked (Nat.le_refl 5) rfl
    exact parse_of_takes hsource (by cases a <;> rfl) hexpr
  · rintro ⟨hordered, rfl, rfl⟩
    exact eq_group hordered
  · rintro rfl
    exact ⟨ordered_group a ps, first_group a ps, rest_group a ps⟩

end Parsing

/-- A chain with operators of every rank, some of them equal. -/
def mixedChain : List (Joiner × Atom) :=
  [(.binary .sub, .number 2.0), (.binary .mul, .name "x"), (.binary .pow, .name "y"),
    (.binary .pow, .number 3.0), (.binary .bitOr, .name "z"), (.compare .lt, .number 4.0),
    (.logical .and, .name "p"), (.logical .nor, .name "q")]

theorem parse_mixedChain :
    (lex "1 - 2 * x ^ y ^ 3 bor z < 4 && p nor q").lexemes.map (·.content) =
        (chainTokens (.number 1.0) mixedChain).map .ok ∧ mixedChain.length < 9 ∧
      parse 9 "1 - 2 * x ^ y ^ 3 bor z < 4 && p nor q" =
        (.logical .nor (.logical .and (.compare .lt (.binary .bitOr (.binary .sub
          (.constant (.number 1.0)) (.binary .mul (.constant (.number 2.0)) (.binary .pow
            (.binary .pow (.var "x") (.var "y")) (.constant (.number 3.0))))) (.var "z"))
          (.constant (.number 4.0))) (.var "p")) (.var "q"), []) := by
  have hsource : (lex "1 - 2 * x ^ y ^ 3 bor z < 4 && p nor q").lexemes.map (·.content) =
      (chainTokens (.number 1.0) mixedChain).map .ok := by rfl
  exact ⟨hsource, by decide, (parse_chain hsource (by decide)).1⟩

end FormulaLang.Parser
