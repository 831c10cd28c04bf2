import FormulaLang.Proofs.Expr.Cursor
import FormulaLang.Proofs.Expr.Split

/-!
# Parsing by rules

The rules below say how a text is parsed without saying for how long: items are parsed as long as
commas follow, and a fault is skipped up to a semicolon, however far it is. Only the levels are
counted. What has a derivation is parsed in finitely many steps.

* `Phrase`, `Phrase.parser`: what there is to parse, and its parser.
* `Parses`: the rules, with `Skips` and `Statements` for whole texts.
* **`moves_of_parses`**, `Parses.reaches`: a phrase is parsed by steps of the cursor.
-/

namespace FormulaLang.Parser

open Text (Extent)

/-! ## Phrases -/

/-- An operand without signs and links, or with its links. -/
inductive Factor where
  | primary
  | linked

/-- The parser of an operand. -/
def Factor.parser (limit : Nat) (deeper : Deeper) : Factor → Parse Expr
  | primary => Parser.primary limit deeper
  | linked => Parser.linked limit deeper

/-- What there is to parse. -/
inductive Phrase : Type → Type where
  /-- A goal one level deeper. -/
  | nested (g : Goal) : Phrase Expr
  | goal (g : Goal) : Phrase Expr
  /-- An expression whose joiners are of the rank or tighter. -/
  | ranked (rank : Nat) : Phrase Expr
  /-- The joiners of a rank behind `left`. -/
  | joins (rank : Nat) (left : Expr) : Phrase Expr
  | prefixed : Phrase Expr
  /-- A range, or a single operand. -/
  | range (negated : Bool) : Phrase Expr
  | operand (f : Factor) : Phrase Expr
  | links (base : Expr) : Phrase Expr
  | signed (f : Factor) : Phrase Expr
  /-- What starts with a name that has the extent `x`, behind the name. -/
  | named (name : String) (x : Extent) : Phrase Expr
  /-- What is behind the arguments of a name that has the extent `x`. -/
  | called (name : String) (x : Extent) (args : List Expr) : Phrase Expr
  /-- Items up to the mark `close`, or none. -/
  | list (close : Mark) (what : String) : Phrase (Option (List Expr))
  | items (close : Mark) (what : String) : Phrase (Option (List Expr))
  /-- Rows up to the closing bracket, or none. -/
  | matrix : Phrase (Option (List (List Expr)))
  | rows : Phrase (Option (List (List Expr)))

namespace Phrase

variable {α : Type}

/-- The parser of a phrase with `n` more levels below. There are at most `bound` items. -/
def parser (limit n bound : Nat) : {α : Type} → Phrase α → Parse α
  | _, nested g => descend limit (below limit n) g
  | _, goal g => Parser.goal limit (below limit n) g
  | _, ranked rank => Parser.ranked limit (below limit n) rank
  | _, joins rank left => Parser.joins limit (below limit n) rank left
  | _, prefixed => Parser.prefixed limit (below limit n)
  | _, range negated => rangeLike limit (below limit n) negated
  | _, operand f => f.parser limit (below limit n)
  | _, links base => Parser.links limit (below limit n) base
  | _, signed f => Parser.signed (f.parser limit (below limit n))
  | _, named name x => nameLike limit (below limit n) name x
  | _, called name x args => afterArguments limit (below limit n) name x (some args)
  | _, list close what => do
    if ← at? close then
      advance
      return some []
    else itemsUntil (descend limit (below limit n) .expression) close what (← itemBound)
  | _, items close what => itemsUntil (descend limit (below limit n) .expression) close what bound
  | _, matrix => do
    if ← at? .rightBracket then
      advance
      return some []
    else rowsUntil (descend limit (below limit n) .expression) (← itemBound)
  | _, rows => rowsUntil (descend limit (below limit n) .expression) bound

/-- A phrase that takes a token, unless there is a fault. -/
def eager : {α : Type} → Phrase α → Bool
  | _, joins .. | _, links _ | _, named .. | _, called .. => false
  | _, _ => true

/-- What a cursor comes to over a phrase. -/
def Moves (p : Phrase α) (c c' : Cursor) : Prop :=
  bif p.eager then c.Moves c' else c.Reaches c'

end Phrase

/-! ## Tokens -/

/-- The value of a literal. -/
def literal? : Token → Option Value
  | .number x => some (.number x)
  | .string s => some (.string s)
  | .mark .true => some (.bool true)
  | .mark .false => some (.bool false)
  | _ => none

/-- An operand begins with the token. -/
def beginsOperand : Token → Bool
  | .number _ | .string _ | .name _ | .mark .true | .mark .false | .mark .leftParen |
    .mark .leftBracket | .mark .leftBrace => true
  | _ => false

theorem operand_cases (t : Token) : beginsOperand t = false ∨ (∃ v, literal? t = some v) ∨
    t = .mark .leftParen ∨ t = .mark .leftBracket ∨ t = .mark .leftBrace ∨ ∃ s, t = .name s := by
  cases t with
  | mark m => cases m <;> simp [beginsOperand, literal?]
  | _ => simp [beginsOperand, literal?]

/-- The operator that a token stands for between operands. -/
def joinerAt : Token → Option Joiner
  | .mark m => joiner? m
  | _ => none

/-! ## Rules -/

/-- The rules of parsing with `n` more levels below: from the first cursor a phrase is parsed to
what it stands for, which leaves the last cursor. -/
inductive Parses (limit : Nat) :
    {α : Type} → (n : Nat) → Phrase α → Cursor → α → Cursor → Prop where
  -- Levels
  | tooDeep {g c} :
      Parses limit 0 (.nested g) c .invalid (c.note ⟨.nestingTooDeep limit, some c.extent⟩)
  | nested {n g c e c'} (h : Parses limit n (.goal g) c e c') :
      Parses limit (n + 1) (.nested g) c e c'
  -- Goals
  | expression {n c e c'} (h : Parses limit n (.ranked 5) c e c') :
      Parses limit n (.goal .expression) c e c'
  | prefixed {n c e c'} (h : Parses limit n .prefixed c e c') :
      Parses limit n (.goal .prefixed) c e c'
  | joined {n op left c right c₁ e c'}
      (hr : Parses limit n (.ranked (Joiner.rank op - 1)) (Cursor.advance c) right c₁)
      (h : Parses limit n (.joins op.rank (op.build left right)) c₁ e c') :
      Parses limit n (.goal (.joined op left)) c e c'
  | power {n base c x c₁ e c'} (hc : Cursor.current c = .mark .caret)
      (hx : Parses limit n (.signed .primary) c.advance x c₁)
      (h : Parses limit n (.links (.binary .pow base x)) c₁ e c') :
      Parses limit n (.goal (.link base)) c e c'
  | index {n base c i c₁ c₂ e c'} (hc : Cursor.current c = .mark .leftBracket)
      (hi : Parses limit n (.nested .expression) c.advance i c₁)
      (hclose : expect .rightBracket "']'" c₁ = (true, c₂))
      (h : Parses limit n (.links (.index base i)) c₂ e c') :
      Parses limit n (.goal (.link base)) c e c'
  | openIndex {n base c i c₁ c'} (hc : Cursor.current c = .mark .leftBracket)
      (hi : Parses limit n (.nested .expression) c.advance i c₁)
      (hclose : expect .rightBracket "']'" c₁ = (false, c')) :
      Parses limit n (.goal (.link base)) c .invalid c'
  | member {n base c name e c'} (hcaret : Cursor.current c ≠ .mark .caret)
      (hbracket : c.current ≠ .mark .leftBracket) (hname : c.advance.current = .name name)
      (h : Parses limit n (.links (.member base name)) c.advance.advance e c') :
      Parses limit n (.goal (.link base)) c e c'
  | noMember {n base c} (hcaret : Cursor.current c ≠ .mark .caret)
      (hbracket : c.current ≠ .mark .leftBracket)
      (hname : ∀ name, c.advance.current ≠ .name name) :
      Parses limit n (.goal (.link base)) c .invalid (c.advance.expected "member name")
  -- Joiners
  | loose {n c e c'} (h : Parses limit n .prefixed c e c') : Parses limit n (.ranked 0) c e c'
  | ranked {n rank c left c₁ e c'} (hl : Parses limit n (.ranked rank) c left c₁)
      (h : Parses limit n (.joins (rank + 1) left) c₁ e c') :
      Parses limit n (.ranked (rank + 1)) c e c'
  | joins {n left c op e c'} (hop : joinerAt (Cursor.current c) = some op)
      (h : Parses limit n (.nested (.joined op left)) c e c') :
      Parses limit n (.joins op.rank left) c e c'
  | noJoiner {n rank left c} (h : ∀ op, joinerAt (Cursor.current c) = some op → op.rank ≠ rank) :
      Parses limit n (.joins rank left) c left c
  -- Prefix operators and ranges
  | noPrefix {n c e c'} (hop : prefixOp? (Cursor.current c) = none)
      (h : Parses limit n (.range false) c e c') : Parses limit n .prefixed c e c'
  | negated {n c e c'} (hop : prefixOp? (Cursor.current c) = some (some .neg))
      (hone : prefixOp? c.advance.current = none)
      (h : Parses limit n (.range true) c.advance e c') : Parses limit n .prefixed c e c'
  | prefixTooDeep {c op} (hop : prefixOp? (Cursor.current c) = some op)
      (hmore : ¬(op = some .neg ∧ prefixOp? c.advance.current = none)) :
      Parses limit 0 .prefixed c .invalid
        (c.advance.note ⟨.nestingTooDeep limit, some c.advance.extent⟩)
  | unary {n c op e c'} (hop : prefixOp? (Cursor.current c) = some op)
      (hmore : ¬(op = some .neg ∧ prefixOp? c.advance.current = none))
      (h : Parses limit n (.goal .prefixed) c.advance e c') :
      Parses limit (n + 1) .prefixed c (op.elim e (.unary · e)) c'
  | single {n negated c e c'} (h : Parses limit n (.operand .linked) c e c')
      (hcolon : c'.current ≠ .mark .colon) :
      Parses limit n (.range negated) c (if negated then .unary .neg e else e) c'
  | pair {n negated c a c₁ b c'} (ha : Parses limit n (.operand .linked) c a c₁)
      (hcolon : c₁.current = .mark .colon)
      (hb : Parses limit n (.signed .linked) c₁.advance b c')
      (hend : c'.current ≠ .mark .colon) :
      Parses limit n (.range negated) c
        (.range (if negated then .unary .neg a else a) none b) c'
  | triple {n negated c a c₁ d c₂ b c'} (ha : Parses limit n (.operand .linked) c a c₁)
      (hcolon : c₁.current = .mark .colon)
      (hd : Parses limit n (.signed .linked) c₁.advance d c₂)
      (hcolon' : c₂.current = .mark .colon)
      (hb : Parses limit n (.signed .linked) c₂.advance b c') :
      Parses limit n (.range negated) c
        (.range (if negated then .unary .neg a else a) (some d) b) c'
  -- Operands
  | linked {n c base c₁ e c'} (hb : Parses limit n (.operand .primary) c base c₁)
      (h : Parses limit n (.links base) c₁ e c') : Parses limit n (.operand .linked) c e c'
  | links {n base c e c'} (hlink : isLink (Cursor.current c) = true)
      (h : Parses limit n (.nested (.link base)) c e c') : Parses limit n (.links base) c e c'
  | noLink {n base c} (hlink : isLink (Cursor.current c) = false) :
      Parses limit n (.links base) c base c
  | minus {n f c e c'} (hc : Cursor.current c = .mark .minus)
      (h : Parses limit n (.operand f) c.advance e c') :
      Parses limit n (.signed f) c (.unary .neg e) c'
  | plus {n f c e c'} (hc : Cursor.current c = .mark .plus)
      (h : Parses limit n (.operand f) c.advance e c') : Parses limit n (.signed f) c e c'
  | noSign {n f c e c'} (hminus : Cursor.current c ≠ .mark .minus)
      (hplus : c.current ≠ .mark .plus) (h : Parses limit n (.operand f) c e c') :
      Parses limit n (.signed f) c e c'
  | literal {n c v} (hv : literal? (Cursor.current c) = some v) :
      Parses limit n (.operand .primary) c (.constant v) c.advance
  | group {n c e c₁ closed c'} (hc : Cursor.current c = .mark .leftParen)
      (he : Parses limit n (.nested .expression) c.advance e c₁)
      (hclose : expect .rightParen "')'" c₁ = (closed, c')) :
      Parses limit n (.operand .primary) c (if closed then e else .invalid) c'
  | vector {n c rows c₁ e c'} (hc : Cursor.current c = .mark .leftBracket)
      (hr : Parses limit n .matrix c.advance (some rows) c₁)
      (he : orFail c.extent (literalOf rows) c₁ = (e, c')) :
      Parses limit n (.operand .primary) c e c'
  | openVector {n c c'} (hc : Cursor.current c = .mark .leftBracket)
      (hr : Parses limit n .matrix c.advance none c') :
      Parses limit n (.operand .primary) c .invalid c'
  | list {n c items c'} (hc : Cursor.current c = .mark .leftBrace)
      (hi : Parses limit n (.list .rightBrace "',' or '\x7d'") c.advance items c') :
      Parses limit n (.operand .primary) c (items.elim .invalid .list) c'
  | name {n c name e c'} (hc : Cursor.current c = .name name)
      (h : Parses limit n (.named name c.extent) c.advance e c') :
      Parses limit n (.operand .primary) c e c'
  | noOperand {n c} (hc : beginsOperand (Cursor.current c) = false) :
      Parses limit n (.operand .primary) c .invalid c.unexpected
  -- Names
  | assign {n name x c e c'} (hc : Cursor.current c = .mark .assign)
      (h : Parses limit n (.nested .expression) c.advance e c') :
      Parses limit n (.named name x) c (.assign name e) c'
  | element {n name x c i c₁ c'} (hc : Cursor.current c = .mark .leftBracket)
      (hi : Parses limit n (.nested .expression) c.advance i c₁)
      (hclose : expect .rightBracket "']'" c₁ = (true, c')) (hend : c'.current ≠ .mark .assign) :
      Parses limit n (.named name x) c (.element name i) c'
  | assignElement {n name x c i c₁ c₂ e c'} (hc : Cursor.current c = .mark .leftBracket)
      (hi : Parses limit n (.nested .expression) c.advance i c₁)
      (hclose : expect .rightBracket "']'" c₁ = (true, c₂)) (hassign : c₂.current = .mark .assign)
      (h : Parses limit n (.nested .expression) c₂.advance e c') :
      Parses limit n (.named name x) c (.assignElement name i e) c'
  | openElement {n name x c i c₁ c'} (hc : Cursor.current c = .mark .leftBracket)
      (hi : Parses limit n (.nested .expression) c.advance i c₁)
      (hclose : expect .rightBracket "']'" c₁ = (false, c')) :
      Parses limit n (.named name x) c .invalid c'
  | call {n name x c args c₁ e c'} (hc : Cursor.current c = .mark .leftParen)
      (ha : Parses limit n (.list .rightParen "',' or ')'") c.advance (some args) c₁)
      (h : Parses limit n (.called name x args) c₁ e c') :
      Parses limit n (.named name x) c e c'
  | openCall {n name x c c'} (hc : Cursor.current c = .mark .leftParen)
      (ha : Parses limit n (.list .rightParen "',' or ')'") c.advance none c') :
      Parses limit n (.named name x) c .invalid c'
  | var {n name x c} (hc : apart (Cursor.current c) = true) :
      Parses limit n (.named name x) c (.var name) c
  | define {n name x args c body c₁ e c'} (hc : Cursor.current c = .mark .assign)
      (hb : Parses limit n (.nested .expression) c.advance body c₁)
      (he : orFail x (defineForm name args body) c₁ = (e, c')) :
      Parses limit n (.called name x args) c e c'
  | form {n name x args c e c'} (hc : Cursor.current c ≠ .mark .assign)
      (he : orFail x (callForm name args) c = (e, c')) :
      Parses limit n (.called name x args) c e c'
  -- Items
  | noItems {n close what c} (hc : Cursor.current c = .mark close) :
      Parses limit n (.list close what) c (some []) c.advance
  | items {n close what c items c'} (hc : Cursor.current c ≠ .mark close)
      (h : Parses limit n (.items close what) c items c') :
      Parses limit n (.list close what) c items c'
  | item {n close what c e c₁ items c'} (he : Parses limit n (.nested .expression) c e c₁)
      (hcomma : c₁.current = .mark .comma)
      (h : Parses limit n (.items close what) c₁.advance items c') :
      Parses limit n (.items close what) c (items.map (e :: ·)) c'
  | lastItem {n close what c e c₁ closed c'} (he : Parses limit n (.nested .expression) c e c₁)
      (hcomma : c₁.current ≠ .mark .comma) (hclose : expect close what c₁ = (closed, c')) :
      Parses limit n (.items close what) c (if closed then some [e] else none) c'
  | noRows {n c} (hc : Cursor.current c = .mark .rightBracket) :
      Parses limit n .matrix c (some []) c.advance
  | rows {n c rows c'} (hc : Cursor.current c ≠ .mark .rightBracket)
      (h : Parses limit n .rows c rows c') : Parses limit n .matrix c rows c'
  | column {n c e c₁ rows c'} (he : Parses limit n (.nested .expression) c e c₁)
      (hcomma : c₁.current = .mark .comma) (h : Parses limit n .rows c₁.advance rows c') :
      Parses limit n .rows c (rows.map (addToRow e)) c'
  | row {n c e c₁ rows c'} (he : Parses limit n (.nested .expression) c e c₁)
      (hsemicolon : c₁.current = .mark .semicolon) (h : Parses limit n .rows c₁.advance rows c') :
      Parses limit n .rows c (rows.map ([e] :: ·)) c'
  | lastRow {n c e c₁ closed c'} (he : Parses limit n (.nested .expression) c e c₁)
      (hcomma : c₁.current ≠ .mark .comma) (hsemicolon : c₁.current ≠ .mark .semicolon)
      (hclose : expect .rightBracket "',', ';' or ']'" c₁ = (closed, c')) :
      Parses limit n .rows c (if closed then some [[e]] else none) c'

/-- What is behind a broken statement is skipped up to a semicolon or the end of the text. -/
inductive Skips : Cursor → Cursor → Prop where
  | finish {c} (h : Cursor.current c = .finish) : Skips c c
  | semicolon {c} (h : Cursor.current c = .mark .semicolon) : Skips c c
  | token {c c'} (hfinish : Cursor.current c ≠ .finish) (hsemicolon : c.current ≠ .mark .semicolon)
      (h : Skips c.advance c') : Skips c c'

/-- The rules of whole texts: the statements ahead of the first cursor, and the cursor at the end of
the text. -/
inductive Statements (limit : Nat) : Cursor → List Expr → Cursor → Prop where
  | finish {c} (h : Cursor.current c = .finish) : Statements limit c [] c.listen
  | empty {c es c'} (h : Cursor.current c = .mark .semicolon)
      (hs : Statements limit c.listen.advance es c') : Statements limit c es c'
  | last {c e c'} (hfinish : Cursor.current c ≠ .finish) (hsemicolon : c.current ≠ .mark .semicolon)
      (he : Parses limit limit (.nested .expression) c.listen e c') (h : c'.current = .finish) :
      Statements limit c [e] c'
  | cons {c e c₁ es c'} (hfinish : Cursor.current c ≠ .finish)
      (hsemicolon : c.current ≠ .mark .semicolon)
      (he : Parses limit limit (.nested .expression) c.listen e c₁)
      (h : c₁.current = .mark .semicolon) (hs : Statements limit c₁.listen.advance es c') :
      Statements limit c (e :: es) c'
  | broken {c e c₁ c₂ es c'} (hfinish : Cursor.current c ≠ .finish)
      (hsemicolon : c.current ≠ .mark .semicolon)
      (he : Parses limit limit (.nested .expression) c.listen e c₁)
      (hfinish₁ : c₁.current ≠ .finish) (hsemicolon₁ : c₁.current ≠ .mark .semicolon)
      (hk : Skips c₁.unexpected c₂) (hs : Statements limit c₂ es c') :
      Statements limit c (.invalid :: es) c'

/-! ## Steps of the cursor -/

section Moves

variable {α : Type} {limit n : Nat} {p : Phrase α} {c c' c₁ : Cursor} {a : α} {e : Expr}

theorem Phrase.Moves.reaches (h : p.Moves c c') : c.Reaches c' := by
  unfold Phrase.Moves at h
  cases he : p.eager with
  | true =>
    rw [he] at h
    exact Relation.TransGen.to_reflTransGen h
  | false => rwa [he] at h

theorem moves_expect {m : Mark} {what : String} {b : Bool} (h : expect m what c = (b, c')) :
    c.Moves c' := by
  by_cases hc : c.current = .mark m
  · rw [expect_of_eq hc] at h
    cases h
    exact Cursor.moves_advance
  · rw [expect_of_ne hc] at h
    cases h
    exact Cursor.moves_expected what

theorem reaches_orFail {x : Extent} {r : Except Fault Expr} (h : orFail x r c = (e, c')) :
    c.Reaches c' := by
  cases r with
  | ok t =>
    cases h
    exact .refl
  | error f =>
    cases h
    exact .single (.note _)

/-- **A phrase is parsed by steps of the cursor**, and there is one unless the phrase may be
empty. -/
theorem moves_of_parses (h : Parses limit n p c a c') : p.Moves c c' := by
  induction h with
  | tooDeep => exact Cursor.moves_note _
  | nested _ ih => exact ih
  | expression _ ih => exact ih
  | prefixed _ ih => exact ih
  | joined _ _ ihr ih => exact (Cursor.moves_advance.trans ihr).trans_left ih
  | power _ _ _ ihx ih => exact (Cursor.moves_advance.trans ihx).trans_left ih
  | index _ _ hclose _ ihi ih =>
    exact ((Cursor.moves_advance.trans ihi).trans (moves_expect hclose)).trans_left ih
  | openIndex _ _ hclose ihi => exact (Cursor.moves_advance.trans ihi).trans (moves_expect hclose)
  | member _ _ _ _ ih => exact (Cursor.moves_advance.trans Cursor.moves_advance).trans_left ih
  | noMember => exact Cursor.moves_advance.trans (Cursor.moves_expected _)
  | loose _ ih => exact ih
  | ranked _ _ ihl ih => exact Relation.TransGen.trans_left ihl ih
  | joins _ _ ih => exact Relation.TransGen.to_reflTransGen ih
  | noJoiner => exact .refl
  | noPrefix _ _ ih => exact ih
  | negated _ _ _ ih => exact Cursor.moves_advance.trans ih
  | prefixTooDeep => exact Cursor.moves_advance.trans (Cursor.moves_note _)
  | unary _ _ _ ih => exact Cursor.moves_advance.trans ih
  | single _ _ ih => exact ih
  | pair _ _ _ _ iha ihb => exact (Relation.TransGen.trans iha Cursor.moves_advance).trans ihb
  | triple _ _ _ _ _ iha ihd ihb =>
    exact (((Relation.TransGen.trans iha Cursor.moves_advance).trans ihd).trans
      Cursor.moves_advance).trans ihb
  | linked _ _ ihb ih => exact Relation.TransGen.trans_left ihb ih
  | links _ _ ih => exact Relation.TransGen.to_reflTransGen ih
  | noLink => exact .refl
  | minus _ _ ih | plus _ _ ih => exact Cursor.moves_advance.trans ih
  | noSign _ _ _ ih => exact ih
  | literal => exact Cursor.moves_advance
  | group _ _ hclose ih => exact (Cursor.moves_advance.trans ih).trans (moves_expect hclose)
  | vector _ _ he ihr => exact (Cursor.moves_advance.trans ihr).trans_left (reaches_orFail he)
  | openVector _ _ ihr => exact Cursor.moves_advance.trans ihr
  | list _ _ ihi => exact Cursor.moves_advance.trans ihi
  | name _ _ ih => exact Cursor.moves_advance.trans_left ih
  | noOperand => exact Cursor.moves_unexpected
  | assign _ _ ih => exact (Cursor.moves_advance.trans ih).to_reflTransGen
  | element _ _ hclose _ ihi =>
    exact ((Cursor.moves_advance.trans ihi).trans (moves_expect hclose)).to_reflTransGen
  | assignElement _ _ hclose _ _ ihi ih =>
    exact ((((Cursor.moves_advance.trans ihi).trans (moves_expect hclose)).trans
      Cursor.moves_advance).trans ih).to_reflTransGen
  | openElement _ _ hclose ihi =>
    exact ((Cursor.moves_advance.trans ihi).trans (moves_expect hclose)).to_reflTransGen
  | call _ _ _ iha ih => exact (Cursor.moves_advance.trans iha).to_reflTransGen.trans ih
  | openCall _ _ iha => exact (Cursor.moves_advance.trans iha).to_reflTransGen
  | var => exact .refl
  | define _ _ he ihb =>
    exact (Cursor.moves_advance.trans ihb).to_reflTransGen.trans (reaches_orFail he)
  | form _ he => exact reaches_orFail he
  | noItems => exact Cursor.moves_advance
  | items _ _ ih => exact ih
  | item _ _ _ ihe ih => exact (Relation.TransGen.trans ihe Cursor.moves_advance).trans ih
  | lastItem _ _ hclose ihe => exact Relation.TransGen.trans ihe (moves_expect hclose)
  | noRows => exact Cursor.moves_advance
  | rows _ _ ih => exact ih
  | column _ _ _ ihe ih => exact (Relation.TransGen.trans ihe Cursor.moves_advance).trans ih
  | row _ _ _ ihe ih => exact (Relation.TransGen.trans ihe Cursor.moves_advance).trans ih
  | lastRow _ _ _ hclose ihe => exact Relation.TransGen.trans ihe (moves_expect hclose)

theorem Parses.reaches (h : Parses limit n p c a c') : c.Reaches c' := (moves_of_parses h).reaches

end Moves

end FormulaLang.Parser
