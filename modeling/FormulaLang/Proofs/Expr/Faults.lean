import FormulaLang.Proofs.Expr.Ending

/-!
# Faults of a text

A statement records at most one fault from its first token on. But the lexical faults in front of
that token are met while the cursor moves over the semicolon before it, and only then the statement
begins to listen, so a statement that begins with a lexical fault may record two.

* `beginsWithFault`: a segment that begins with a lexical fault.
* `Statements.size_le`: the faults of the statements ahead.
* **`length_faults_le`**: the faults of a text.
* **`length_faults_strayMark`**: a text without a semicolon that has two of them.
-/

namespace FormulaLang.Parser

open Lexer

variable {limit : Nat} {c c' : Cursor} {es : List Expr} {ls : List Lexeme}

/-- The segment begins with a lexical fault, and goes on with a token. -/
def beginsWithFault (segment : List Lexeme) : Bool :=
  segment.head?.any Lexeme.isFault && hasToken segment

/-- Segments weigh one, and those that begin with a lexical fault and go on weigh two. -/
abbrev faultWeight : List Lexeme → Nat := segmentWeight 1 beginsWithFault

/-- A cursor that moves to the first token of some lexemes meets the lexical faults in front of it,
and records one of them at most. -/
theorem size_add_weight_moveTo_le (ls : List Lexeme) (c : Cursor) :
    (Cursor.moveTo ls c).faults.size + (Cursor.moveTo ls c).weight faultWeight ≤
      c.faults.size + ((segments ls).map faultWeight).sum := by
  obtain ⟨first, more, hs⟩ := exists_segments ls
  have hweight := Cursor.weight_moveTo_le (w := faultWeight) hs c
  have htoken := (hasToken first).toNat_le
  have hfirst : faultWeight first = 1 + (beginsWithFault first).toNat := rfl
  rw [sum_segments hs, hfirst]
  have hquiet : (Cursor.moveTo ls c).faults = c.faults → (Cursor.moveTo ls c).faults.size +
      (Cursor.moveTo ls c).weight faultWeight ≤
        c.faults.size + (1 + (beginsWithFault first).toNat + weightBehind faultWeight ls) := by
    intro h
    rw [h]
    omega
  cases ls with
  | nil => exact hquiet rfl
  | cons l ls =>
    obtain ⟨content, x⟩ := l
    cases content with
    | ok t => exact hquiet rfl
    | error f =>
      have hbegins : beginsWithFault first = hasToken first := by
        obtain ⟨first', rfl, -⟩ := exists_of_segments_cons rfl hs
        rfl
      have htotal := Cursor.total_moveTo (⟨.error f, x⟩ :: ls) c
      have hroom := c.room_le
      rw [hbegins]
      omega

/-- **Each statement records at most one fault**, and at most one is met in front of it. -/
theorem Statements.size_le (h : Statements limit c es c') :
    c'.faults.size ≤ c.faults.size + c.weight faultWeight := by
  induction h with
  | finish => exact Nat.le_add_right _ _
  | @empty c es c' h _ ih =>
    rw [Cursor.weight_of_semicolon h]
    exact Nat.le_trans ih (size_add_weight_moveTo_le c.rest c.listen)
  | @last c e c' hfinish hsemicolon he h =>
    have hsize : c'.faults.size ≤ c.faults.size + 1 := he.reaches.size_le
    have hlt : c'.weight faultWeight < c.weight faultWeight :=
      he.reaches.weight_lt hfinish hsemicolon (.inl h)
    omega
  | @cons c e c₁ es c' hfinish hsemicolon he h _ ih =>
    have hsize : c₁.faults.size ≤ c.faults.size + 1 := he.reaches.size_le
    have hlt : c₁.weight faultWeight < c.weight faultWeight :=
      he.reaches.weight_lt hfinish hsemicolon (.inr h)
    rw [Cursor.weight_of_semicolon h] at hlt
    have hle := Nat.le_trans ih (size_add_weight_moveTo_le c₁.rest c₁.listen)
    have hfaults : c₁.listen.faults = c₁.faults := rfl
    rw [hfaults] at hle
    omega
  | @broken c e c₁ c₂ es c' hfinish hsemicolon he _ _ hk _ ih =>
    have hreaches := reaches_broken he hk
    have hsize : c₂.faults.size ≤ c.faults.size + 1 := hreaches.size_le
    have hlt : c₂.weight faultWeight < c.weight faultWeight :=
      hreaches.weight_lt hfinish hsemicolon hk.current
    omega

/-- **The faults of a text** are at most one more than its semicolons and the segments that begin
with a lexical fault. -/
theorem length_faults_le (limit : Nat) (source : String) :
    (parse limit source).2.length ≤ (lex source).lexemes.countP Lexeme.isSemicolon + 1 +
      (segments (lex source).lexemes).countP beginsWithFault := by
  obtain ⟨es, c, h⟩ := exists_statements limit (Cursor.start (lex source))
  rw [parse_of_statements h, Array.length_toList, ← length_segments]
  have hle := Nat.le_trans h.size_le (size_add_weight_moveTo_le _ _)
  rwa [sum_segmentWeight, Nat.one_mul, Array.size_empty, Nat.zero_add] at hle

/-- A lexical fault in front of two operands. -/
def strayMark : String := "$ a b"

theorem length_faults_strayMark :
    ¬(parse defaultLimit strayMark).2.length ≤
      (lex strayMark).lexemes.countP Lexeme.isSemicolon + 1 := by
  decide +kernel

end FormulaLang.Parser
