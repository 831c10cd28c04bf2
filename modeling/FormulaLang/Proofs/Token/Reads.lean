import FormulaLang.Expr.Printer
import FormulaLang.Token.Lexer

/-!
# Reading a text piece by piece

A piece of a text is read in front of what really follows it, so that reading the pieces one after
the other never splits a word, a number or a mark of two characters.

* `Reads`: reading some tokens leaves a rest. `Reads.append` composes it, and `lexFrom_of_reads`
  gives the lexemes of a text that is read to its end.
* `breaks`, `Broken`: the characters at which words and numbers end.
* `reads_word`, `reads_decimal`, `reads_string`, **`reads_mark`**: the pieces.
* `Written`, `Delimited`: texts that are read as some tokens, in front of a break or of anything.
-/

namespace FormulaLang.Lexer

open Text (Place isBlank)

/-! ## Reading tokens in front of a rest -/

/-- Reading the tokens in front of `cs` leaves the last list of characters. -/
inductive Reads : List Char → List Token → List Char → Prop where
  | done {rest : List Char} : Reads rest [] rest
  | blank {c : Char} {cs rest : List Char} {ts : List Token} (hc : isBlank c)
      (h : Reads cs ts rest) : Reads (c :: cs) ts rest
  | token {c : Char} {cs more rest : List Char} {t : Token} {ts : List Token}
      (hskip : skip .plain (c :: cs) = ([], c :: cs)) (hscan : (scan c cs).content = .ok t)
      (hmore : (scan c cs).rest = more) (hlen : more.length ≤ cs.length)
      (h : Reads more ts rest) : Reads (c :: cs) (t :: ts) rest

variable {c : Char} {cs more rest : List Char} {t : Token} {ts us : List Token}

theorem Reads.append (h : Reads cs ts more) (h' : Reads more us rest) :
    Reads cs (ts ++ us) rest := by
  induction h with
  | done => exact h'
  | blank hc _ ih => exact .blank hc (ih h')
  | token hskip hscan hmore hlen _ ih => exact .token hskip hscan hmore hlen (ih h')

theorem skip_blank (hc : isBlank c) (cs : List Char) :
    skip .plain (c :: cs) = (c :: (skip .plain cs).1, (skip .plain cs).2) := by
  have hslash : c ≠ '/' := by
    rintro rfl
    exact absurd hc (by decide)
  rw [skip, if_pos hc]
  · exact fun _ h => absurd h hslash
  · exact fun _ h => absurd h hslash

/-- A text that is read to its end has no other lexemes. -/
theorem lexFrom_of_reads (h : Reads cs ts []) {n : Nat} (hn : cs.length < n) (p : Place) :
    (lexFrom n p cs).lexemes.map (·.content) = ts.map .ok := by
  generalize hrest : ([] : List Char) = rest at h
  induction h generalizing n p with
  | done =>
    subst hrest
    obtain ⟨n, rfl⟩ := Nat.exists_eq_add_one_of_ne_zero (Nat.ne_of_gt hn)
    rfl
  | @blank c cs _ _ hc h ih =>
    obtain ⟨n, rfl⟩ := Nat.exists_eq_add_one_of_ne_zero (Nat.ne_of_gt (Nat.zero_lt_of_lt hn))
    have hsame := ih (n := n + 1) (Nat.lt_of_succ_lt hn) (p.next c) hrest
    simp only [lexFrom, skip_blank hc, Place.after_cons] at hsame ⊢
    exact hsame
  | token hskip hscan hmore hlen h ih =>
    obtain ⟨n, rfl⟩ := Nat.exists_eq_add_one_of_ne_zero (Nat.ne_of_gt (Nat.zero_lt_of_lt hn))
    simp only [List.length_cons, Nat.add_lt_add_iff_right] at hn
    simp only [lexFrom, hskip, List.map_cons, hscan, hmore]
    rw [ih (Nat.lt_of_le_of_lt hlen hn) _ hrest]

/-! ## Where words and numbers end -/

/-- A character that ends a word or a number. -/
def breaks (c : Char) : Bool := [' ', ',', ';', ':', '(', ')', '[', ']', '\x7d'].contains c

/-- The end of a text or a character that ends a word or a number. -/
def Broken (cs : List Char) : Prop := ∀ c ∈ cs.head?, breaks c

@[simp] theorem broken_nil : Broken [] := nofun

@[simp] theorem broken_cons : Broken (c :: cs) ↔ breaks c := by simp [Broken]

theorem Broken.head_ne (h : Broken rest) (hc : breaks c = false) (more : List Char) :
    rest ≠ c :: more := by
  rintro rfl
  rw [broken_cons, hc] at h
  cases h

/-- A run of characters ends at the first one that does not belong to it. -/
theorem span_stop {p : Char → Bool} (hcs : ∀ c ∈ cs, p c) (hrest : ∀ c ∈ rest.head?, p c = false) :
    (cs ++ rest).takeWhile p = cs ∧ (cs ++ rest).dropWhile p = rest := by
  rw [List.takeWhile_append_of_pos hcs, List.dropWhile_append_of_pos hcs]
  cases rest with
  | nil => simp
  | cons c rest => simp [hrest c rfl]

/-- What no break satisfies ends in front of one. -/
theorem span_broken {p : Char → Bool} (hp : ∀ c, breaks c → p c = false) (hcs : ∀ c ∈ cs, p c)
    (h : Broken rest) :
    (cs ++ rest).takeWhile p = cs ∧ (cs ++ rest).dropWhile p = rest :=
  span_stop hcs fun c hc => hp c (h c hc)

theorem breaks_iff :
    breaks c ↔ c = ' ' ∨ c = ',' ∨ c = ';' ∨ c = ':' ∨ c = '(' ∨ c = ')' ∨ c = '[' ∨ c = ']' ∨
      c = '\x7d' := by
  simp [breaks]

theorem isWordChar_of_breaks (h : breaks c) : isWordChar c = false := by
  rcases breaks_iff.1 h with rfl | rfl | rfl | rfl | rfl | rfl | rfl | rfl | rfl <;> decide

theorem isDigit_of_breaks (h : breaks c) : c.isDigit = false := by
  rcases breaks_iff.1 h with rfl | rfl | rfl | rfl | rfl | rfl | rfl | rfl | rfl <;> decide

/-! ## Words -/

theorem skip_of_ne_slash (hblank : isBlank c = false) (hslash : c ≠ '/') (cs : List Char) :
    skip .plain (c :: cs) = ([], c :: cs) := by
  rw [skip, if_neg (by simp [hblank])]
  · exact fun _ h => absurd h hslash
  · exact fun _ h => absurd h hslash

/-- Letters and underscores begin words. -/
def isWordStart (c : Char) : Bool := c.isAlpha || c == '_'

/-- Letters, digits and underscores begin no mark, no string and no comment, and are not blank. -/
structure Ordinary (c : Char) : Prop where
  blank : isBlank c = false
  single : singleMark? c = none
  double : doubleMark? c = none
  point : c ≠ '.'
  quote : c ≠ '"'
  slash : c ≠ '/'

theorem toNat_of_isWordChar (h : isWordChar c) :
    48 ≤ c.toNat ∧ c.toNat ≤ 57 ∨ 65 ≤ c.toNat ∧ c.toNat ≤ 90 ∨ c.toNat = 95 ∨
      97 ≤ c.toNat ∧ c.toNat ≤ 122 := by
  delta isWordChar Char.isAlphanum Char.isAlpha Char.isUpper Char.isLower Char.isDigit at h
  simp only [Bool.or_eq_true, Bool.and_eq_true, decide_eq_true_eq, beq_iff_eq, ge_iff_le,
    UInt32.le_iff_toNat_le] at h
  rcases h with ((⟨h, h'⟩ | ⟨h, h'⟩) | ⟨h, h'⟩) | rfl
  · exact .inr (.inl ⟨h, h'⟩)
  · exact .inr (.inr (.inr ⟨h, h'⟩))
  · exact .inl ⟨h, h'⟩
  · decide

theorem ordinary_of_isWordChar (h : isWordChar c) : Ordinary c where
  blank := by
    have hn := toNat_of_isWordChar h
    simp only [isBlank, Bool.or_eq_false_iff, Bool.and_eq_false_iff, decide_eq_false_iff_not,
      beq_eq_false_iff_ne]
    omega
  single := by
    unfold singleMark?
    split <;> first | rfl | exact absurd h (by decide)
  double := by
    unfold doubleMark?
    split <;> first | rfl | exact absurd h (by decide)
  point := by rintro rfl; exact absurd h (by decide)
  quote := by rintro rfl; exact absurd h (by decide)
  slash := by rintro rfl; exact absurd h (by decide)

theorem Ordinary.skip (h : Ordinary c) (cs : List Char) : skip .plain (c :: cs) = ([], c :: cs) :=
  skip_of_ne_slash h.blank h.slash cs

theorem Ordinary.scanMark? (h : Ordinary c) (cs : List Char) : scanMark? c cs = none := by
  simp [Lexer.scanMark?, h.single, h.double]

theorem isWordChar_of_isWordStart (h : isWordStart c) : isWordChar c := by
  simp only [isWordStart, isWordChar, Char.isAlphanum, Bool.or_eq_true] at h ⊢
  exact h.imp_left .inl

theorem isDigit_of_isWordStart (h : isWordStart c) : c.isDigit = false := by
  delta isWordStart Char.isAlpha Char.isUpper Char.isLower at h
  simp only [Bool.or_eq_true, Bool.and_eq_true, decide_eq_true_eq, beq_iff_eq, ge_iff_le,
    UInt32.le_iff_toNat_le] at h
  simp only [Char.isDigit, Bool.and_eq_false_iff, decide_eq_false_iff_not, ge_iff_le,
    UInt32.le_iff_toNat_le]
  rcases h with (⟨h, h'⟩ | ⟨h, h'⟩) | rfl
  · exact .inr fun h₉ => absurd (Nat.le_trans h h₉) (by decide)
  · exact .inr fun h₉ => absurd (Nat.le_trans h h₉) (by decide)
  · decide

/-- A word is read up to a break. -/
theorem reads_word (c : Char) (cs : List Char) (hc : isWordStart c)
    (hcs : ∀ d ∈ cs, isWordChar d) (hrest : Broken rest) :
    Reads (c :: (cs ++ rest)) [.ofWord (String.ofList (c :: cs))] rest := by
  have hword := isWordChar_of_isWordStart hc
  have hord := ordinary_of_isWordChar hword
  obtain ⟨htake, hdrop⟩ : (c :: (cs ++ rest)).takeWhile isWordChar = c :: cs ∧
      (c :: (cs ++ rest)).dropWhile isWordChar = rest :=
    span_broken (fun _ => isWordChar_of_breaks) (List.forall_mem_cons.2 ⟨hword, hcs⟩) hrest
  have hscan : scan c (cs ++ rest) = scanWord (c :: (cs ++ rest)) := by
    simp only [scan, hord.scanMark?, hord.point, hord.quote, isDigit_of_isWordStart hc, if_false,
      Bool.false_eq_true]
    exact if_pos hc
  exact .token (hord.skip _) (by rw [hscan, scanWord, htake]) (by rw [hscan, scanWord, hdrop])
    (by simp) .done

/-! ## Numbers -/

theorem isWordChar_of_isDigit (h : c.isDigit) : isWordChar c := by
  simp [isWordChar, Char.isAlphanum, h]

/-- Digits, maybe with a point and more digits behind them. -/
def IsDecimal (ds : List Char) : Prop :=
  ∃ whole : List Char, whole ≠ [] ∧ (∀ d ∈ whole, d.isDigit) ∧
    (ds = whole ∨ ∃ fraction : List Char, (∀ d ∈ fraction, d.isDigit) ∧ ds = whole ++ '.' :: fraction)

/-- A decimal begins with a digit. -/
theorem IsDecimal.exists_cons {ds : List Char} (h : IsDecimal ds) :
    ∃ c cs, ds = c :: cs ∧ c.isDigit := by
  obtain ⟨_ | ⟨c, whole⟩, hne, hwhole, rfl | ⟨fraction, -, rfl⟩⟩ := h
  · exact absurd rfl hne
  · exact absurd rfl hne
  · exact ⟨c, whole, rfl, hwhole c List.mem_cons_self⟩
  · exact ⟨c, _, rfl, hwhole c List.mem_cons_self⟩

theorem mantissa_decimal {ds : List Char} (h : IsDecimal ds) (hrest : Broken rest) :
    mantissa (ds ++ rest) = (ds, rest) := by
  obtain ⟨whole, -, hwhole, rfl | ⟨fraction, hfraction, rfl⟩⟩ := h
  · obtain ⟨htake, hdrop⟩ := span_broken (fun _ => isDigit_of_breaks) hwhole hrest
    rw [mantissa, htake, hdrop]
    cases rest with
    | nil => rfl
    | cons c rest =>
      split
      · next heq =>
        cases heq
        exact absurd (broken_cons.1 hrest) (by decide)
      · rfl
  · obtain ⟨htake, hdrop⟩ := span_broken (fun _ => isDigit_of_breaks) hfraction hrest
    have hpoint : ('.' : Char).isDigit = false := by decide
    have hspan : ((whole ++ '.' :: fraction) ++ rest).takeWhile Char.isDigit = whole ∧
        ((whole ++ '.' :: fraction) ++ rest).dropWhile Char.isDigit = '.' :: (fraction ++ rest) := by
      rw [List.append_assoc, List.takeWhile_append_of_pos hwhole,
        List.dropWhile_append_of_pos hwhole]
      simp [hpoint]
    rw [mantissa, hspan.1, hspan.2]
    simp only [htake, hdrop]

theorem power_broken (h : Broken rest) : power rest = ([], rest) := by
  cases rest with
  | nil => rfl
  | cons c rest =>
    have hc : ¬ (c = 'e' ∨ c = 'E') := by
      rintro (rfl | rfl) <;> exact absurd (broken_cons.1 h) (by decide)
    unfold power
    dsimp only
    rw [if_neg fun hand => hc hand.1]

theorem radix?_eq_none (h : c.isDigit ∨ c = '.' ∨ breaks c) : radix? c = none := by
  unfold radix?
  split <;> first | rfl | exact absurd h (by decide)

/-- The text of a decimal does not begin with a radix. -/
theorem scanNumber_decimal {ds : List Char} (h : IsDecimal ds) (hrest : Broken rest) :
    scanNumber (ds ++ rest) = scanDecimal (ds ++ rest) := by
  have hsecond : ∀ letter more, ds ++ rest = '0' :: letter :: more → radix? letter = none := by
    intro letter more heq
    refine radix?_eq_none ?_
    obtain ⟨_ | ⟨c, _ | ⟨d, whole⟩⟩, hne, hwhole, rfl | ⟨fraction, -, rfl⟩⟩ := h
    · exact absurd rfl hne
    · exact absurd rfl hne
    · rw [List.singleton_append, List.cons.injEq] at heq
      rw [heq.2] at hrest
      exact .inr (.inr (broken_cons.1 hrest))
    · simp only [List.cons_append, List.nil_append, List.cons.injEq] at heq
      exact .inr (.inl heq.2.1.symm)
    · simp only [List.cons_append, List.cons.injEq] at heq
      exact .inl (heq.2.1 ▸ hwhole d (by simp))
    · simp only [List.cons_append, List.cons.injEq] at heq
      exact .inl (heq.2.1 ▸ hwhole d (by simp))
  unfold scanNumber
  split
  · next letter more heq =>
    rw [hsecond letter more heq, heq]
  · rfl

/-- A decimal is read up to a break. -/
theorem reads_decimal {ds : List Char} {x : Float} (h : IsDecimal ds)
    (hx : Number.ofDecimal? ds = some x) (hrest : Broken rest) :
    Reads (ds ++ rest) [.number x] rest := by
  have hscan : scanNumber (ds ++ rest) = ⟨.ok (.number x), ds, rest⟩ := by
    rw [scanNumber_decimal h hrest, scanDecimal, mantissa_decimal h hrest]
    simp only [power_broken hrest, List.append_nil, hx]
  obtain ⟨c, ds, rfl, hc⟩ := h.exists_cons
  have hord := ordinary_of_isWordChar (isWordChar_of_isDigit hc)
  have hsame : scan c (ds ++ rest) = scanNumber (c :: ds ++ rest) := by
    simp only [scan, hord.scanMark?, hord.point, hord.quote, hc, if_false, if_true,
      List.cons_append]
  rw [List.cons_append]
  exact .token (hord.skip _) (by rw [hsame, hscan]) (by rw [hsame, hscan]) (by simp) .done

/-! ## Strings -/

theorem unescape_escape (c : Char) : escape c = [c] ∧ c ≠ '"' ∧ c ≠ '\\' ∨
    ∃ d, escape c = ['\\', d] ∧ unescape d = [c] := by
  unfold escape
  split
  · exact .inr ⟨'"', rfl, rfl⟩
  · exact .inr ⟨'\\', rfl, rfl⟩
  · exact .inr ⟨'n', rfl, rfl⟩
  · exact .inr ⟨'t', rfl, rfl⟩
  · exact .inr ⟨'r', rfl, rfl⟩
  · next hquote hslash _ _ _ => exact .inl ⟨rfl, hquote, hslash⟩

/-- What is escaped reads back to itself. -/
theorem quoted_escape (cs : List Char) (hrest : ∀ more, rest ≠ '"' :: more) :
    quoted (cs.flatMap escape ++ '"' :: rest) =
      (some cs, cs.flatMap escape ++ ['"'], rest) := by
  induction cs with
  | nil =>
    rw [List.flatMap_nil, List.nil_append, List.nil_append, quoted]
    exact fun more h => hrest more h
  | cons c cs ih =>
    rw [List.flatMap_cons, List.append_assoc]
    rcases unescape_escape c with ⟨hc, hquote, hslash⟩ | ⟨d, hc, hd⟩
    · rw [hc, List.singleton_append, quoted, ih]
      · simp
      · exact fun _ h => absurd h hquote
      · exact fun h => absurd h hquote
      · exact fun _ _ h => absurd h hslash
    · rw [hc, List.cons_append, List.cons_append, List.nil_append, quoted, ih]
      simp [hd]

/-- A string literal is read up to what is no quote. -/
theorem reads_string (s : String) (hrest : ∀ more, rest ≠ '"' :: more) :
    Reads ((stringLiteral s).toList ++ rest) [.string s] rest := by
  have hchars : (stringLiteral s).toList ++ rest =
      '"' :: (s.toList.flatMap escape ++ '"' :: rest) := by
    simp [stringLiteral, quote]
  have hscan : scan '"' (s.toList.flatMap escape ++ '"' :: rest) =
      ⟨.ok (.string s), '"' :: (s.toList.flatMap escape ++ ['"']), rest⟩ := by
    have hstring : scan '"' (s.toList.flatMap escape ++ '"' :: rest) =
      scanString (s.toList.flatMap escape ++ '"' :: rest) := rfl
    rw [hstring, scanString, quoted_escape _ hrest]
    simp
  rw [hchars]
  exact .token (skip_of_ne_slash (by decide) (by decide) _) (by rw [hscan]) (by rw [hscan])
    (by simp; omega) .done

/-! ## Marks -/

/-- A character that begins a mark and no comment. -/
structure Punctuation (c : Char) : Prop where
  blank : isBlank c = false
  slash : c ≠ '/'

/-- A mark of one character that begins no longer mark. -/
theorem reads_single {m : Mark} (hc : Punctuation c) (h : singleMark? c = some m) :
    Reads (c :: rest) [.mark m] rest := by
  have hscan : scan c rest = ⟨.ok (.mark m), [c], rest⟩ := by
    simp [scan, scanMark?, h]
  exact .token (skip_of_ne_slash hc.blank hc.slash _) (by rw [hscan]) (by rw [hscan])
    (Nat.le_refl _) .done

/-- A mark of two characters. -/
theorem reads_long {d : Char} {long short : Mark} (hc : Punctuation c) (h : singleMark? c = none)
    (h' : doubleMark? c = some (d, long, short)) : Reads (c :: d :: rest) [.mark long] rest := by
  have hscan : scan c (d :: rest) = ⟨.ok (.mark long), [c, d], rest⟩ := by
    simp [scan, scanMark?, h, h']
  exact .token (skip_of_ne_slash hc.blank hc.slash _) (by rw [hscan]) (by rw [hscan])
    (Nat.le_succ _) .done

/-- The beginning of a longer mark in front of something else. -/
theorem reads_short {d : Char} {long short : Mark} (hc : Punctuation c) (h : singleMark? c = none)
    (h' : doubleMark? c = some (d, long, short)) (hrest : ∀ more, rest ≠ d :: more) :
    Reads (c :: rest) [.mark short] rest := by
  have hscan : scan c rest = ⟨.ok (.mark short), [c], rest⟩ := by
    cases rest with
    | nil => simp [scan, scanMark?, h, h']
    | cons e rest =>
      have hne : e ≠ d := by
        rintro rfl
        exact hrest rest rfl
      simp [scan, scanMark?, h, h', hne]
  exact .token (skip_of_ne_slash hc.blank hc.slash _) (by rw [hscan]) (by rw [hscan])
    (Nat.le_refl _) .done

theorem reads_slash (hrest : Broken rest) : Reads ('/' :: rest) [.mark .slash] rest := by
  have hskip : skip .plain ('/' :: rest) = ([], '/' :: rest) := by
    rw [skip, if_neg (by decide)]
    · exact fun cs _ h => hrest.head_ne (by decide) cs h
    · exact fun cs _ h => hrest.head_ne (by decide) cs h
  have hscan : scan '/' rest = ⟨.ok (.mark .slash), ['/'], rest⟩ := rfl
  exact .token hskip (by rw [hscan]) (by rw [hscan]) (Nat.le_refl _) .done

theorem reads_dot (hc : c.isDigit = false) :
    Reads ('.' :: c :: rest) [.mark .dot] (c :: rest) := by
  have hscan : scan '.' (c :: rest) = ⟨.ok (.mark .dot), ['.'], c :: rest⟩ := by
    simp [scan, scanMark?, singleMark?, doubleMark?, hc]
  exact .token (skip_of_ne_slash (by decide) (by decide) _) (by rw [hscan]) (by rw [hscan])
    (Nat.le_refl _) .done

/-- Every mark is read from its text in front of a break. -/
theorem reads_mark (m : Mark) (hrest : Broken rest) :
    Reads (m.text.toList ++ rest) [.mark m] rest := by
  have hshort : ∀ {c d : Char} {long short : Mark}, Punctuation c → singleMark? c = none →
      doubleMark? c = some (d, long, short) → breaks d = false →
      Reads (c :: rest) [.mark short] rest :=
    fun hc h h' hd => reads_short hc h h' (hrest.head_ne hd)
  cases m with
  | «true» => exact reads_word 't' ['r', 'u', 'e'] rfl (List.all_eq_true.1 rfl) hrest
  | «false» => exact reads_word 'f' ['a', 'l', 's', 'e'] rfl (List.all_eq_true.1 rfl) hrest
  | and => exact reads_word 'a' ['n', 'd'] rfl (List.all_eq_true.1 rfl) hrest
  | or => exact reads_word 'o' ['r'] rfl (List.all_eq_true.1 rfl) hrest
  | xor => exact reads_word 'x' ['o', 'r'] rfl (List.all_eq_true.1 rfl) hrest
  | nor => exact reads_word 'n' ['o', 'r'] rfl (List.all_eq_true.1 rfl) hrest
  | nand => exact reads_word 'n' ['a', 'n', 'd'] rfl (List.all_eq_true.1 rfl) hrest
  | not => exact reads_word 'n' ['o', 't'] rfl (List.all_eq_true.1 rfl) hrest
  | ampersand => exact hshort (c := '&') ⟨rfl, by decide⟩ rfl rfl rfl
  | bar => exact hshort (c := '|') ⟨rfl, by decide⟩ rfl rfl rfl
  | assign => exact hshort (c := '=') ⟨rfl, by decide⟩ rfl rfl rfl
  | bang => exact hshort (c := '!') ⟨rfl, by decide⟩ rfl rfl rfl
  | less => exact hshort (c := '<') ⟨rfl, by decide⟩ rfl rfl rfl
  | greater => exact hshort (c := '>') ⟨rfl, by decide⟩ rfl rfl rfl
  | equal => exact reads_long (c := '=') ⟨rfl, by decide⟩ rfl rfl
  | notEqual => exact reads_long (c := '!') ⟨rfl, by decide⟩ rfl rfl
  | lessEqual => exact reads_long (c := '<') ⟨rfl, by decide⟩ rfl rfl
  | greaterEqual => exact reads_long (c := '>') ⟨rfl, by decide⟩ rfl rfl
  | slash => exact reads_slash hrest
  | dot =>
    cases rest with
    | nil => exact .token rfl rfl rfl (Nat.le_refl _) .done
    | cons c rest => exact reads_dot (isDigit_of_breaks (broken_cons.1 hrest))
  | _ => exact reads_single ⟨rfl, by decide⟩ rfl

/-! ## Pieces of a text -/

/-- A text that is read as some tokens in front of a break. -/
def Written (text : String) (ts : List Token) : Prop :=
  ∀ rest, Broken rest → Reads (text.toList ++ rest) ts rest

/-- A text that is read as some tokens in front of anything. -/
def Delimited (text : String) (ts : List Token) : Prop :=
  ∀ rest, Reads (text.toList ++ rest) ts rest

/-- A text that begins with a break. -/
def Breaking (text : String) : Prop := ∃ c cs, text.toList = c :: cs ∧ breaks c

section Pieces

variable {a b : String}

theorem Delimited.written (h : Delimited a ts) : Written a ts := fun rest _ => h rest

theorem Delimited.append_written (ha : Delimited a ts) (hb : Written b us) :
    Written (a ++ b) (ts ++ us) := by
  intro rest hrest
  rw [String.toList_append, List.append_assoc]
  exact (ha _).append (hb rest hrest)

theorem Delimited.append (ha : Delimited a ts) (hb : Delimited b us) :
    Delimited (a ++ b) (ts ++ us) := by
  intro rest
  rw [String.toList_append, List.append_assoc]
  exact (ha _).append (hb rest)

theorem Breaking.broken (h : Breaking a) (rest : List Char) : Broken (a.toList ++ rest) := by
  obtain ⟨c, cs, ha, hc⟩ := h
  rw [ha]
  exact broken_cons.2 hc

theorem Breaking.append (h : Breaking a) (b : String) : Breaking (a ++ b) := by
  obtain ⟨c, cs, ha, hc⟩ := h
  exact ⟨c, cs ++ b.toList, by rw [String.toList_append, ha, List.cons_append], hc⟩

theorem Written.append (ha : Written a ts) (hb : Written b us) (hbreak : Breaking b) :
    Written (a ++ b) (ts ++ us) := by
  intro rest hrest
  rw [String.toList_append, List.append_assoc]
  exact (ha _ (hbreak.broken rest)).append (hb rest hrest)

theorem Written.append_delimited (ha : Written a ts) (hb : Delimited b us) (hbreak : Breaking b) :
    Delimited (a ++ b) (ts ++ us) := by
  intro rest
  rw [String.toList_append, List.append_assoc]
  exact (ha _ (hbreak.broken rest)).append (hb rest)

theorem delimited_single {m : Mark} (ha : a.toList = [c]) (hc : Punctuation c)
    (h : singleMark? c = some m) : Delimited a [.mark m] := by
  intro rest
  rw [ha]
  exact reads_single hc h

/-- A blank behind a piece of a text. -/
theorem Delimited.blank (h : Delimited a ts) : Delimited (a ++ " ") ts := by
  intro rest
  rw [String.toList_append, List.append_assoc]
  exact ts.append_nil ▸ (h _).append (.blank (by decide) .done)

/-- A mark between blanks. -/
theorem delimited_spaced (m : Mark) : Delimited (" " ++ m.text ++ " ") [.mark m] := by
  intro rest
  have hchars : (" " ++ m.text ++ " ").toList ++ rest = ' ' :: (m.text.toList ++ ' ' :: rest) := by
    simp
  rw [hchars]
  exact .blank (by decide) ((reads_mark m (broken_cons.2 rfl)).append (.blank (by decide) .done))

/-- A mark behind which a blank follows. -/
theorem delimited_word (m : Mark) : Delimited (m.text ++ " ") [.mark m] := by
  intro rest
  have hchars : (m.text ++ " ").toList ++ rest = m.text.toList ++ ' ' :: rest := by simp
  rw [hchars]
  exact (reads_mark m (broken_cons.2 rfl)).append (.blank (by decide) .done)

/-- Some pieces with a mark between them. -/
def between (m : Mark) (tss : List (List Token)) : List Token := [.mark m].intercalate tss

@[simp] theorem between_singleton (m : Mark) (ts : List Token) : between m [ts] = ts := by
  simp [between]

@[simp] theorem between_cons_cons (m : Mark) (ts us : List Token) (tss : List (List Token)) :
    between m (ts :: us :: tss) = ts ++ .mark m :: between m (us :: tss) := by
  simp [between]

/-- **Pieces with a mark between them.** -/
theorem written_intercalate {α : Type} {text : α → String} {f : α → List Token} {sep : String}
    {m : Mark} (hsep : Delimited sep [.mark m]) (hbreak : Breaking sep) {xs : List α}
    (hxs : ∀ x ∈ xs, Written (text x) (f x)) :
    Written (sep.intercalate (xs.map text)) (between m (xs.map f)) := by
  induction xs with
  | nil => exact fun rest _ => .done
  | cons x xs ih =>
    have hx := hxs x List.mem_cons_self
    cases xs with
    | nil => simpa using hx
    | cons y xs =>
      have hmore := ih fun y hy => hxs y (List.mem_cons_of_mem _ hy)
      have htext : sep.intercalate ((x :: y :: xs).map text) =
          text x ++ sep ++ sep.intercalate ((y :: xs).map text) := by
        simp [String.intercalate_cons_cons]
      have htokens : between m ((x :: y :: xs).map f) =
          f x ++ [.mark m] ++ between m ((y :: xs).map f) := by
        simp
      rw [htext, htokens]
      exact (hx.append_delimited hsep hbreak).append_written hmore

end Pieces

end FormulaLang.Lexer
