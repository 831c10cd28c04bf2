import FormulaLang.Proofs.Number.Unsigned
import FormulaLang.Proofs.Token.Reads

/-!
# Tokens that can be written again

Every name and every number that is read from a text can be written again, and reads back to itself.

* `IsName`, `written_name`: names.
* `ReadsBack`, `written_number`: numbers. The digits of a finite number must read back to it.
* **`legal_of_mem_lex`**: the tokens of a text.
-/

namespace FormulaLang.Lexer

open Text (Place)

/-! ## Names -/

/-- A word that is neither a keyword nor the name of a number. -/
structure IsName (s : String) : Prop where
  chars : ∃ c cs, s.toList = c :: cs ∧ isWordStart c ∧ ∀ d ∈ cs, isWordChar d
  ofWord : Token.ofWord s = .name s

theorem written_word {s : String} (c : Char) (cs : List Char) (hs : s.toList = c :: cs)
    (hc : isWordStart c) (hcs : ∀ d ∈ cs, isWordChar d) : Written s [.ofWord s] := by
  intro rest hrest
  have hword := reads_word c cs hc hcs hrest
  rwa [← hs, String.ofList_toList, ← List.cons_append, ← hs] at hword

theorem written_name {s : String} (h : IsName s) : Written s [.name s] := by
  obtain ⟨⟨c, cs, hs, hc, hcs⟩, hname⟩ := h
  exact hname ▸ written_word c cs hs hc hcs

/-! ## Numbers -/

/-- The digits of a number read back to it. -/
def ReadsBack (x : Float) : Prop :=
  IsDecimal (Number.text x).toList ∧ Number.ofDecimal? (Number.text x).toList = some x

section Numbers

variable {x : Float}

theorem numberLiteral_of_isFinite (h : x.isFinite) : numberLiteral x = Number.text x := by
  have hx := Number.isNaN_of_isFinite h
  obtain ⟨hlow, hhigh⟩ := (Number.isFinite_iff hx).1 h
  have hne : ∀ y : Float, y.isNaN = false → Number.key y ≠ Number.key x → (x == y) = false :=
    fun y hy hkey => Bool.eq_false_iff.2 fun heq => hkey ((Number.beq_iff hx hy).1 heq).symm
  have hinf : (x == Number.infinity) = false := hne _ rfl (Int.ne_of_gt hhigh)
  have hninf : (x == -Number.infinity) = false := hne _ rfl (Int.ne_of_lt hlow)
  simp [numberLiteral, hinf, hninf]

/-- The numbers that tokens hold. -/
def IsLiteral (x : Float) : Prop := x = Number.nan ∨ x = -Number.infinity ∨ Number.Unsigned x

theorem written_nan : Written (numberLiteral Number.nan) [.number Number.nan] := by
  have htext : numberLiteral Number.nan = "nan" := by decide +kernel
  have hword : Token.ofWord "nan" = .number _ := rfl
  rw [htext, ← hword]
  exact written_word 'n' ['a', 'n'] rfl rfl (List.all_eq_true.1 rfl)

theorem written_infinity : Written (numberLiteral Number.infinity) [.number Number.infinity] := by
  have htext : numberLiteral Number.infinity = "inf" := by decide +kernel
  have hword : Token.ofWord "inf" = .number _ := rfl
  rw [htext, ← hword]
  exact written_word 'i' ['n', 'f'] rfl rfl (List.all_eq_true.1 rfl)

theorem written_neg_infinity :
    Written (numberLiteral (-Number.infinity)) [.number (-Number.infinity)] := by
  have htext : numberLiteral (-Number.infinity) = "ninf" := by decide +kernel
  have hword : Token.ofWord "ninf" = .number _ := rfl
  rw [htext, ← hword]
  exact written_word 'n' ['i', 'n', 'f'] rfl rfl (List.all_eq_true.1 rfl)

/-- The literal of a number reads back to it. -/
theorem written_number (hx : IsLiteral x) (hback : x.isFinite → 0.0 ≤ x → ReadsBack x) :
    Written (numberLiteral x) [.number x] := by
  rcases hx with rfl | rfl | hx
  · exact written_nan
  · exact written_neg_infinity
  · rcases hx.cases with rfl | ⟨hfinite, hle⟩
    · exact written_infinity
    · rw [numberLiteral_of_isFinite hfinite]
      obtain ⟨hdecimal, hof⟩ := hback hfinite hle
      exact fun rest hrest => reads_decimal hdecimal hof hrest

theorem isLiteral_of_namedNumber? {word : String} (h : Token.namedNumber? word = some x) :
    IsLiteral x := by
  unfold Token.namedNumber? at h
  split at h <;> cases h
  · exact .inl rfl
  · exact .inr (.inr trivial)
  · exact .inr (.inl rfl)

theorem unsigned_of_ofDecimal? {cs : List Char} (h : Number.ofDecimal? cs = some x) :
    Number.Unsigned x := by
  unfold Number.ofDecimal? at h
  dsimp only at h
  split at h
  · cases h
    exact Number.unsigned_ofParts _ _
  · cases h

end Numbers

/-! ## Scans -/

/-- A token of a text: a name, a number without a sign or with a name, or something else. -/
def IsScanned : Token → Prop
  | .number x => IsLiteral x
  | .name s => IsName s
  | _ => True

section Scans

variable {c : Char} {cs : List Char} {t : Token}

theorem isScanned_scanDecimal (h : (scanDecimal cs).content = .ok t) : IsScanned t := by
  unfold scanDecimal at h
  dsimp only at h
  split at h
  · next x hx =>
    cases h
    exact .inr (.inr (unsigned_of_ofDecimal? hx))
  · cases h

theorem isScanned_scanRadix {radix : Nat} (h : (scanRadix radix c cs).content = .ok t) :
    IsScanned t := by
  unfold scanRadix at h
  dsimp only at h
  split at h
  · split at h
    · cases h
      exact .inr (.inr (Number.unsigned_ofNat _))
    · cases h
  · cases h

theorem isScanned_scanNumber (h : (scanNumber cs).content = .ok t) : IsScanned t := by
  unfold scanNumber at h
  split at h
  · split at h
    · exact isScanned_scanRadix h
    · exact isScanned_scanDecimal h
  · exact isScanned_scanDecimal h

theorem isScanned_scanString (h : (scanString cs).content = .ok t) : IsScanned t := by
  unfold scanString at h
  dsimp only at h
  split at h <;> cases h
  trivial

theorem isScanned_scanWord (hc : isWordStart c) (h : (scanWord (c :: cs)).content = .ok t) :
    IsScanned t := by
  cases h
  have hword : (c :: cs).takeWhile isWordChar = c :: cs.takeWhile isWordChar :=
    List.takeWhile_cons_of_pos (isWordChar_of_isWordStart hc)
  generalize hs : String.ofList ((c :: cs).takeWhile isWordChar) = s
  have hchars : s.toList = c :: cs.takeWhile isWordChar := by rw [← hs, String.toList_ofList, hword]
  unfold Token.ofWord
  split
  · trivial
  · next x _ hx => exact isLiteral_of_namedNumber? hx
  · next hmark hnumber =>
    refine ⟨⟨c, _, hchars, hc, fun d hd => List.mem_takeWhile_imp hd⟩, ?_⟩
    rw [Token.ofWord, hmark, hnumber]

theorem isScanned_scanMark? {s : Scan} (hs : scanMark? c cs = some s) (h : s.content = .ok t) :
    IsScanned t := by
  unfold scanMark? at hs
  split at hs
  · cases hs
    cases h
    trivial
  · split at hs
    · split at hs <;> cases hs <;> cases h <;> trivial
    · cases hs
      cases h
      trivial
  · cases hs

theorem isScanned_scan (h : (scan c cs).content = .ok t) : IsScanned t := by
  unfold scan at h
  split at h
  · next s hs => exact isScanned_scanMark? hs h
  · split_ifs at h with hpoint hdigit hquote hdigit hword
    · exact isScanned_scanNumber h
    · cases h
      trivial
    · exact isScanned_scanString h
    · exact isScanned_scanNumber h
    · exact isScanned_scanWord hword h

theorem isScanned_of_mem_lexFrom {n : Nat} {p : Place} {l : Lexeme}
    (hl : l ∈ (lexFrom n p cs).lexemes) (h : l.content = .ok t) : IsScanned t := by
  induction n generalizing p cs with
  | zero => cases hl
  | succ n ih =>
    unfold lexFrom at hl
    dsimp only at hl
    split at hl
    · cases hl
    · rcases List.mem_cons.1 hl with rfl | hl
      · exact isScanned_scan h
      · exact ih hl

end Scans

/-! ## Texts -/

/-- A token that can be written again. -/
def Legal : Token → Prop
  | .number x => Written (numberLiteral x) [.number x]
  | .name s => IsName s
  | _ => True

/-- The digits of every finite number in a text read back to it. -/
def NumbersReadBack (source : String) : Prop :=
  ∀ l ∈ (lex source).lexemes, ∀ x, l.content = .ok (.number x) → x.isFinite → 0.0 ≤ x →
    ReadsBack x

/-- **The tokens of a text can be written again.** -/
theorem legal_of_mem_lex {source : String} (hback : NumbersReadBack source) {l : Lexeme}
    (hl : l ∈ (lex source).lexemes) {t : Token} (h : l.content = .ok t) : Legal t := by
  have hscan : IsScanned t := isScanned_of_mem_lexFrom hl h
  cases t with
  | number x => exact written_number hscan (hback l hl x h)
  | name s => exact hscan
  | string s => trivial
  | mark m => trivial
  | finish => trivial

end FormulaLang.Lexer
