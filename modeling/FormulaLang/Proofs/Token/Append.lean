import FormulaLang.Proofs.Token.Reads
import Mathlib.Tactic.SplitIfs

/-!
# A text behind a text

A new line behind a text changes none of its lexemes, unless it ends in an open string or an open
block comment. What stands behind a semicolon is read as if it stood alone.

* `Scan.Tiles`, `tiles_scan`, `length_rest_le`: a step of reading takes some of the characters.
* `contents`: the tokens and faults of a text, wherever it stands.
* `gapAfter`, `endGap`, `EndsInComment`: where reading stands at the end of a text.
* `skip_append_of_nil`, `skip_append_of_cons`, `scan_append`: blanks and tokens in front of a new line.
* **`contents_append`**: two texts with a semicolon between them.
-/

namespace FormulaLang.Lexer

open Text (Place isBlank)

variable {c : Char} {cs ds : List Char} {t : Token}

/-! ## Steps take characters -/

theorem skip_tiles (g : Gap) (cs : List Char) : (skip g cs).1 ++ (skip g cs).2 = cs := by
  fun_induction skip g cs <;> simp_all

theorem quoted_tiles (cs : List Char) : (quoted cs).2.1 ++ (quoted cs).2.2 = cs := by
  fun_induction quoted cs <;> simp_all

theorem mantissa_tiles (cs : List Char) : (mantissa cs).1 ++ (mantissa cs).2 = cs := by
  unfold mantissa
  dsimp only
  split
  · next rest hrest =>
    rw [List.append_assoc, List.cons_append, List.takeWhile_append_dropWhile, ← hrest,
      List.takeWhile_append_dropWhile]
  · exact List.takeWhile_append_dropWhile

/-- The sign behind the letter of an exponent. -/
def sign : List Char → List Char
  | '+' :: _ => ['+']
  | '-' :: _ => ['-']
  | _ => []

theorem sign_append_drop (cs : List Char) : sign cs ++ cs.drop (sign cs).length = cs := by
  unfold sign
  split <;> rfl

theorem power_cons (e : Char) (cs : List Char) : power (e :: cs) =
    if (e = 'e' ∨ e = 'E') ∧ (cs.drop (sign cs).length).head?.any Char.isDigit then
      (e :: sign cs ++ (cs.drop (sign cs).length).takeWhile Char.isDigit,
        (cs.drop (sign cs).length).dropWhile Char.isDigit)
    else ([], e :: cs) := rfl

theorem power_tiles (cs : List Char) : (power cs).1 ++ (power cs).2 = cs := by
  cases cs with
  | nil => rfl
  | cons e cs =>
    rw [power_cons]
    split
    · rw [List.append_assoc, List.takeWhile_append_dropWhile, List.cons_append, sign_append_drop]
    · rfl

/-- The characters taken and those left make up the text. -/
def Scan.Tiles (s : Scan) (cs : List Char) : Prop := s.taken ++ s.rest = cs

theorem taken_scanDecimal (cs : List Char) :
    (scanDecimal cs).taken = (mantissa cs).1 ++ (power (mantissa cs).2).1 := by
  unfold scanDecimal
  dsimp only
  split <;> rfl

theorem tiles_scanDecimal (cs : List Char) : (scanDecimal cs).Tiles cs := by
  have hrest : (scanDecimal cs).rest = (power (mantissa cs).2).2 := by
    unfold scanDecimal
    dsimp only
    split <;> rfl
  rw [Scan.Tiles, taken_scanDecimal, hrest, List.append_assoc, power_tiles, mantissa_tiles]

theorem tiles_scanRadix (radix : Nat) (letter : Char) (cs : List Char) :
    (scanRadix radix letter cs).Tiles ('0' :: letter :: cs) := by
  have hspan : '0' :: letter :: cs.takeWhile (Number.isDigitOf radix) ++
      cs.dropWhile (Number.isDigitOf radix) = '0' :: letter :: cs := by
    simp
  unfold scanRadix
  dsimp only
  split
  · split <;> exact hspan
  · exact hspan

theorem tiles_scanNumber (cs : List Char) : (scanNumber cs).Tiles cs := by
  unfold scanNumber
  split
  · split
    · exact tiles_scanRadix _ _ _
    · exact tiles_scanDecimal _
  · exact tiles_scanDecimal _

theorem tiles_scanString (cs : List Char) : (scanString cs).Tiles ('"' :: cs) := by
  unfold scanString
  dsimp only
  split <;> exact congrArg ('"' :: ·) (quoted_tiles cs)

theorem tiles_scanMark? {s : Scan} (h : scanMark? c cs = some s) : s.Tiles (c :: cs) := by
  unfold scanMark? at h
  split at h
  · cases h
    rfl
  · split at h
    · split at h <;> cases h <;> rfl
    · cases h
      rfl
  · cases h

theorem tiles_scan (c : Char) (cs : List Char) : (scan c cs).Tiles (c :: cs) := by
  unfold scan
  split
  · next s hs => exact tiles_scanMark? hs
  split_ifs with hpoint hdigit hquote
  · exact tiles_scanNumber _
  · rfl
  · rw [hquote]
    exact tiles_scanString cs
  · exact tiles_scanNumber _
  · exact List.takeWhile_append_dropWhile
  · rfl

/-- A number takes the digit or the point that it begins with. -/
theorem scanNumber_taken_ne_nil (h : c.isDigit ∨ c = '.') (cs : List Char) :
    (scanNumber (c :: cs)).taken ≠ [] := by
  have hmantissa : (mantissa (c :: cs)).1 ≠ [] := by
    unfold mantissa
    dsimp only
    split
    · simp
    · next rest hrest =>
      rcases h with h | rfl
      · simp [h]
      · exact absurd rfl (hrest cs)
  have hdecimal : (scanDecimal (c :: cs)).taken ≠ [] := by
    unfold scanDecimal
    dsimp only
    split <;> simp [hmantissa]
  unfold scanNumber
  split
  · next letter more heq =>
    split
    · unfold scanRadix
      dsimp only
      split
      · split <;> simp
      · simp
    · rwa [← heq]
  · exact hdecimal

theorem scan_taken_ne_nil (c : Char) (cs : List Char) : (scan c cs).taken ≠ [] := by
  unfold scan
  split
  · next s hs =>
    unfold scanMark? at hs
    split at hs
    · cases hs
      simp
    · split at hs
      · split at hs <;> cases hs <;> simp
      · cases hs
        simp
    · cases hs
  split_ifs with hpoint hdigit hquote hdigit hword
  · exact scanNumber_taken_ne_nil (.inr hpoint) cs
  · simp
  · unfold scanString
    dsimp only
    split <;> simp
  · exact scanNumber_taken_ne_nil (.inl hdigit) cs
  · have hc : isWordChar c := isWordChar_of_isWordStart hword
    simp [scanWord, hc]
  · simp

/-- What is left of a text gets shorter. -/
theorem length_rest_le (c : Char) (cs : List Char) : (scan c cs).rest.length ≤ cs.length := by
  have htiles := congrArg List.length (tiles_scan c cs)
  have htaken := List.length_pos_iff.2 (scan_taken_ne_nil c cs)
  rw [List.length_append, List.length_cons] at htiles
  omega

/-! ## The lexemes of a text -/

/-- The tokens and faults of a text, in front of nothing. -/
def contents (cs : List Char) : List (Except Fault Token) :=
  (lexFrom (cs.length + 1) .origin cs).lexemes.map (·.content)

theorem lexFrom_congr {n m : Nat} (hn : cs.length < n) (hm : cs.length < m) (p q : Place) :
    (lexFrom n p cs).lexemes.map (·.content) = (lexFrom m q cs).lexemes.map (·.content) := by
  induction n generalizing m p q cs with
  | zero => exact absurd hn (Nat.not_lt_zero _)
  | succ n ih =>
    obtain ⟨m, rfl⟩ := Nat.exists_eq_add_one_of_ne_zero (Nat.ne_of_gt (Nat.zero_lt_of_lt hm))
    have hskip := congrArg List.length (skip_tiles .plain cs)
    rw [List.length_append] at hskip
    unfold lexFrom
    dsimp only
    split
    · rfl
    · next c rest hrest =>
      rw [hrest, List.length_cons] at hskip
      have hle := length_rest_le c rest
      exact congrArg (_ :: ·) (ih (by omega) (by omega) _ _)

/-- They do not depend on where the text stands. -/
theorem contents_of_lexFrom {n : Nat} (hn : cs.length < n) (p : Place) :
    (lexFrom n p cs).lexemes.map (·.content) = contents cs :=
  lexFrom_congr hn (Nat.lt_succ_self _) p .origin

theorem contents_of_nil (h : (skip .plain cs).2 = []) : contents cs = [] := by
  unfold contents lexFrom
  dsimp only
  rw [h]
  rfl

theorem contents_of_cons {rest : List Char} (h : (skip .plain cs).2 = c :: rest) :
    contents cs = (scan c rest).content :: contents (scan c rest).rest := by
  have hskip := congrArg List.length (skip_tiles .plain cs)
  have hle := length_rest_le c rest
  rw [List.length_append, h, List.length_cons] at hskip
  rw [contents, lexFrom]
  dsimp only
  rw [h]
  exact congrArg (_ :: ·) (contents_of_lexFrom (by omega) _)

/-- Nor on the blanks in front of it. -/
theorem contents_congr (h : (skip .plain cs).2 = (skip .plain ds).2) : contents cs = contents ds := by
  cases hrest : (skip .plain ds).2 with
  | nil => rw [contents_of_nil hrest, contents_of_nil (h.trans hrest)]
  | cons c rest => rw [contents_of_cons hrest, contents_of_cons (h.trans hrest)]

theorem scanNumber_ne_finish (cs : List Char) : (scanNumber cs).content ≠ .ok .finish := by
  have hdecimal : ∀ cs, (scanDecimal cs).content ≠ .ok .finish := by
    intro cs
    unfold scanDecimal
    dsimp only
    split <;> nofun
  unfold scanNumber
  split
  · split
    · unfold scanRadix
      dsimp only
      split
      · split <;> nofun
      · nofun
    · exact hdecimal _
  · exact hdecimal _

/-- Nothing in a text is read as its end. -/
theorem scan_ne_finish (c : Char) (cs : List Char) : (scan c cs).content ≠ .ok .finish := by
  unfold scan
  split
  · next s hs =>
    unfold scanMark? at hs
    split at hs
    · cases hs
      nofun
    · split at hs
      · split at hs <;> cases hs <;> nofun
      · cases hs
        nofun
    · cases hs
  split_ifs with hpoint hdigit hquote hdigit hword
  · exact scanNumber_ne_finish _
  · nofun
  · unfold scanString
    dsimp only
    split <;> nofun
  · exact scanNumber_ne_finish _
  · intro h
    have hword : Token.ofWord (String.ofList ((c :: cs).takeWhile isWordChar)) = .finish :=
      Except.ok.inj h
    unfold Token.ofWord at hword
    split at hword <;> cases hword
  · nofun

theorem ne_finish_of_mem_lexFrom {n : Nat} {p : Place} {l : Lexeme}
    (hl : l ∈ (lexFrom n p cs).lexemes) : l.content ≠ .ok .finish := by
  induction n generalizing p cs with
  | zero => cases hl
  | succ n ih =>
    unfold lexFrom at hl
    dsimp only at hl
    split at hl
    · cases hl
    · rcases List.mem_cons.1 hl with rfl | hl
      · exact scan_ne_finish _ _
      · exact ih hl

theorem ne_finish_of_mem_contents : ∀ r ∈ contents cs, r ≠ .ok .finish := by
  intro r hr
  obtain ⟨l, hl, rfl⟩ := List.mem_map.1 hr
  exact ne_finish_of_mem_lexFrom hl

/-! ## Where a text ends -/

/-- Where `skip` stands behind the blanks and comments that it takes. -/
def gapAfter : Gap → List Char → Gap
  | g, [] => g
  | .plain, '/' :: '*' :: cs => gapAfter .block cs
  | .plain, '/' :: '/' :: cs => gapAfter .line cs
  | .plain, c :: cs => if isBlank c then gapAfter .plain cs else .plain
  | .line, c :: cs => gapAfter (if c = '\n' then .plain else .line) cs
  | .block, '*' :: '/' :: cs => gapAfter .plain cs
  | .block, _ :: cs => gapAfter .block cs

/-- Where reading at most `n` lexemes stands at the end of a text. -/
def endGap : Nat → List Char → Gap
  | 0, _ => .plain
  | n + 1, cs =>
    match (skip .plain cs).2 with
    | [] => gapAfter .plain cs
    | c :: rest => endGap n (scan c rest).rest

/-- The text ends in a block comment that is not closed. -/
def EndsInComment (source : String) : Prop :=
  endGap (source.toList.length + 1) source.toList = .block

instance (source : String) : Decidable (EndsInComment source) :=
  inferInstanceAs (Decidable (_ = _))

/-! ## In front of a new line -/

/-- A block comment goes on unless it is closed. -/
theorem skip_block (h : ∀ ds, c = '*' → cs ≠ '/' :: ds) :
    skip .block (c :: cs) = (c :: (skip .block cs).1, (skip .block cs).2) := by
  rw [skip]
  exact h

/-- What is neither blank nor begins a comment is not skipped. -/
theorem skip_plain (hstar : ∀ ds, c = '/' → cs ≠ '*' :: ds) (hslash : ∀ ds, c = '/' → cs ≠ '/' :: ds)
    (hblank : isBlank c = false) : skip .plain (c :: cs) = ([], c :: cs) := by
  rw [skip, if_neg (by simp [hblank])]
  · exact hstar
  · exact hslash

/-- A new line begins and closes no comment. -/
theorem append_ne {d : Char} (h : ∀ es, cs ≠ d :: es) (hd : d ≠ '\n') (ds es : List Char) :
    cs ++ '\n' :: ds ≠ d :: es := by
  cases cs with
  | nil => exact fun heq => hd (List.cons.inj heq).1.symm
  | cons c cs => exact fun heq => h cs (by rw [(List.cons.inj heq).1])

theorem skip_append_of_nil (g : Gap) (h : (skip g cs).2 = []) (ds : List Char) :
    (skip g (cs ++ '\n' :: ds)).2 = (skip (gapAfter g cs) ('\n' :: ds)).2 := by
  fun_induction gapAfter g cs with
  | case4 c cs hstar hslash hblank ih =>
    rw [skip_blank hblank] at h
    rw [List.cons_append, skip_blank hblank]
    exact ih h
  | case8 c cs hclose ih =>
    rw [skip_block hclose] at h
    rw [List.cons_append, skip_block fun es hc => append_ne (hclose · hc) (by decide) ds es]
    exact ih h
  | _ => simp_all [skip]

theorem skip_append_of_cons (g : Gap) {rest : List Char} (h : (skip g cs).2 = c :: rest)
    (ds : List Char) : (skip g (cs ++ '\n' :: ds)).2 = c :: (rest ++ '\n' :: ds) := by
  fun_induction gapAfter g cs with
  | case4 c cs hstar hslash hblank ih =>
    rw [skip_blank hblank] at h
    rw [List.cons_append, skip_blank hblank]
    exact ih h
  | case5 d cs hstar hslash hblank =>
    replace hblank := Bool.eq_false_iff.2 hblank
    rw [skip_plain hstar hslash hblank] at h
    cases h
    rw [List.cons_append, skip_plain (fun es hc => append_ne (hstar · hc) (by decide) ds es)
      (fun es hc => append_ne (hslash · hc) (by decide) ds es) hblank]
  | case8 c cs hclose ih =>
    rw [skip_block hclose] at h
    rw [List.cons_append, skip_block fun es hc => append_ne (hclose · hc) (by decide) ds es]
    exact ih h
  | _ => simp_all [skip]

/-- Characters up to one that is no new line end in front of one, too. -/
theorem span_append {p : Char → Bool} (hp : p '\n' = false) (cs ds : List Char) :
    (cs ++ '\n' :: ds).takeWhile p = cs.takeWhile p ∧
      (cs ++ '\n' :: ds).dropWhile p = cs.dropWhile p ++ '\n' :: ds := by
  induction cs with
  | nil => simp [hp]
  | cons c cs ih => cases hc : p c <;> simp [hc, ih]

/-- The step with more characters left. -/
def Scan.push (s : Scan) (ds : List Char) : Scan := { s with rest := s.rest ++ '\n' :: ds }

theorem mantissa_append (cs ds : List Char) :
    mantissa (cs ++ '\n' :: ds) = ((mantissa cs).1, (mantissa cs).2 ++ '\n' :: ds) := by
  obtain ⟨htake, hdrop⟩ := span_append (p := Char.isDigit) rfl cs ds
  unfold mantissa
  rw [htake, hdrop]
  cases cs.dropWhile Char.isDigit with
  | nil => rfl
  | cons c rest =>
    obtain ⟨htake, hdrop⟩ := span_append (p := Char.isDigit) rfl rest ds
    dsimp only [List.cons_append]
    split
    · next heq =>
      cases heq
      simp [htake, hdrop]
    · next hpoint =>
      split
      · next heq =>
        cases heq
        exact absurd rfl (hpoint _)
      · rfl

theorem sign_length_le (cs : List Char) : (sign cs).length ≤ cs.length := by
  unfold sign
  split <;> simp

theorem sign_append (cs ds : List Char) : sign (cs ++ '\n' :: ds) = sign cs := by
  cases cs with
  | nil => rfl
  | cons c cs => unfold sign; split <;> simp_all

theorem power_append (cs ds : List Char) :
    power (cs ++ '\n' :: ds) = ((power cs).1, (power cs).2 ++ '\n' :: ds) := by
  cases cs with
  | nil => simp [power]
  | cons e cs =>
    have hdrop : (cs ++ '\n' :: ds).drop (sign cs).length =
        cs.drop (sign cs).length ++ '\n' :: ds :=
      List.drop_append_of_le_length (sign_length_le cs)
    generalize hdigits : cs.drop (sign cs).length = digits at hdrop
    have hhead : (digits ++ '\n' :: ds).head?.any Char.isDigit = digits.head?.any Char.isDigit := by
      cases digits <;> rfl
    obtain ⟨htake, hrest⟩ := span_append (p := Char.isDigit) rfl digits ds
    rw [List.cons_append, power_cons, power_cons, sign_append, hdrop, hdigits, hhead, htake, hrest]
    split <;> rfl

theorem scanDecimal_append (cs ds : List Char) :
    scanDecimal (cs ++ '\n' :: ds) = (scanDecimal cs).push ds := by
  unfold scanDecimal
  rw [mantissa_append]
  dsimp only
  rw [power_append]
  dsimp only
  split <;> rfl

theorem scanRadix_append (radix : Nat) (letter : Char) (hradix : Number.isDigitOf radix '\n' = false)
    (cs ds : List Char) :
    scanRadix radix letter (cs ++ '\n' :: ds) = (scanRadix radix letter cs).push ds := by
  obtain ⟨htake, hdrop⟩ := span_append hradix cs ds
  unfold scanRadix
  rw [htake, hdrop]
  dsimp only
  split
  · split <;> rfl
  · rfl

/-- Only a letter behind the zero marks a radix. -/
theorem scanNumber_of_radix? (h : ∀ letter more, cs = '0' :: letter :: more → radix? letter = none) :
    scanNumber cs = scanDecimal cs := by
  unfold scanNumber
  split
  · rw [h _ _ rfl]
  · rfl

theorem scanNumber_append (cs ds : List Char) :
    scanNumber (cs ++ '\n' :: ds) = (scanNumber cs).push ds := by
  by_cases hmarked : ∃ letter more radix, cs = '0' :: letter :: more ∧ radix? letter = some radix
  · obtain ⟨letter, more, radix, rfl, hradix⟩ := hmarked
    have hdigit : Number.isDigitOf radix '\n' = false := by
      unfold radix? at hradix
      split at hradix <;> cases hradix <;> rfl
    simp only [List.cons_append, scanNumber, hradix, scanRadix_append radix letter hdigit]
  have hnone : ∀ letter more, cs = '0' :: letter :: more → radix? letter = none := by
    intro letter more heq
    cases hradix : radix? letter with
    | none => rfl
    | some radix => exact absurd ⟨letter, more, radix, heq, hradix⟩ hmarked
  rw [scanNumber_of_radix? hnone, ← scanDecimal_append]
  refine scanNumber_of_radix? fun letter more heq => ?_
  cases cs with
  | nil => cases heq
  | cons c cs =>
    cases cs with
    | nil =>
      cases heq
      rfl
    | cons d cs =>
      exact hnone letter cs (by cases heq; rfl)

/-- A string that is closed is not opened again. -/
theorem quoted_append {cs : List Char} (h : (quoted cs).1 ≠ none) (ds : List Char) :
    quoted (cs ++ '\n' :: ds) = ((quoted cs).1, (quoted cs).2.1, (quoted cs).2.2 ++ '\n' :: ds) := by
  fun_induction quoted cs with
  | case1 => exact absurd rfl h
  | case2 cs value taken rest hq ih =>
    rw [hq] at ih
    simp only [List.cons_append, quoted, ih (by simpa using h)]
  | case3 cs hquote =>
    rw [List.cons_append, quoted]
    exact append_ne hquote (by decide) ds
  | case4 c cs value taken rest hq ih =>
    rw [hq] at ih
    simp only [List.cons_append, quoted, ih (by simpa using h)]
  | case5 c cs _ hquote hslash value taken rest hq ih =>
    have hopen : value ≠ none := by simpa using h
    have hcs : cs ≠ [] := by
      rintro rfl
      cases hq
      exact hopen rfl
    rw [hq] at ih
    rw [List.cons_append, quoted, ih hopen]
    · exact fun _ hc => absurd hc hquote
    · exact hquote
    · intro d es hc heq
      obtain ⟨d', cs, rfl⟩ := List.exists_cons_of_ne_nil hcs
      exact hslash d' cs hc rfl

theorem scanString_append {cs : List Char} (h : (scanString cs).content = .ok t) (ds : List Char) :
    scanString (cs ++ '\n' :: ds) = (scanString cs).push ds := by
  have hclosed : (quoted cs).1 ≠ none := by
    intro hnone
    simp only [scanString, hnone] at h
    cases h
  unfold scanString
  rw [quoted_append hclosed]
  dsimp only
  split <;> rfl

theorem scanWord_append (cs ds : List Char) :
    scanWord (cs ++ '\n' :: ds) = (scanWord cs).push ds := by
  obtain ⟨htake, hdrop⟩ := span_append (p := isWordChar) rfl cs ds
  unfold scanWord
  rw [htake, hdrop]
  rfl

theorem scanMark?_append (c : Char) (cs ds : List Char) :
    scanMark? c (cs ++ '\n' :: ds) = (scanMark? c cs).map (·.push ds) := by
  unfold scanMark?
  split
  · rfl
  · next second long short _ h =>
    cases cs with
    | nil =>
      have hsecond : '\n' ≠ second := by
        unfold doubleMark? at h
        split at h <;> cases h <;> decide
      dsimp only [List.nil_append]
      rw [if_neg hsecond]
      rfl
    | cons d cs =>
      dsimp only [List.cons_append]
      split <;> rfl
  · rfl

/-- **A token is read the same** in front of a new line. -/
theorem scan_append (h : (scan c cs).content = .ok t) (ds : List Char) :
    scan c (cs ++ '\n' :: ds) = (scan c cs).push ds := by
  have hhead : (cs ++ '\n' :: ds).head?.any Char.isDigit = cs.head?.any Char.isDigit := by
    cases cs <;> rfl
  unfold scan at h ⊢
  rw [scanMark?_append]
  cases hmark : scanMark? c cs with
  | some s => rfl
  | none =>
    rw [hmark] at h
    dsimp only [Option.map_none] at h ⊢
    rw [hhead]
    split_ifs at h ⊢ with hpoint hdigit hquote hdigit hword
    · exact scanNumber_append (c :: cs) ds
    · rfl
    · exact scanString_append h ds
    · exact scanNumber_append (c :: cs) ds
    · exact scanWord_append (c :: cs) ds

/-! ## Texts behind each other -/

theorem skip_newline {g : Gap} (hg : g ≠ .block) (ds : List Char) :
    (skip g ('\n' :: ds)).2 = (skip .plain ds).2 := by
  cases g with
  | plain => rw [skip_blank (by decide)]
  | line => rw [skip, if_pos rfl]
  | block => exact absurd rfl hg

theorem contents_semicolon (cs : List Char) :
    contents (';' :: cs) = .ok (.mark .semicolon) :: contents cs := by
  have hskip : (skip .plain (';' :: cs)).2 = ';' :: cs := by
    rw [skip_of_ne_slash (by decide) (by decide)]
  exact contents_of_cons hskip

/-- **Two texts with a semicolon between them.** A new line in front of it ends a line comment; the
first text has no faults, so no string is open at its end either. -/
theorem contents_append {n : Nat} (hn : cs.length < n) (hgap : endGap n cs ≠ .block)
    (hok : ∀ r ∈ contents cs, ∃ t, r = .ok t) (ds : List Char) :
    contents (cs ++ '\n' :: ';' :: ds) = contents cs ++ .ok (.mark .semicolon) :: contents ds := by
  induction n generalizing cs with
  | zero => exact absurd hn (Nat.not_lt_zero _)
  | succ n ih =>
    have hskip := congrArg List.length (skip_tiles .plain cs)
    rw [List.length_append] at hskip
    rw [endGap] at hgap
    cases hrest : (skip .plain cs).2 with
    | nil =>
      rw [hrest] at hgap
      rw [contents_of_nil hrest, List.nil_append, ← contents_semicolon]
      exact contents_congr ((skip_append_of_nil .plain hrest _).trans (skip_newline hgap _))
    | cons c rest =>
      have hle := length_rest_le c rest
      rw [hrest] at hgap hskip
      rw [contents_of_cons hrest] at hok ⊢
      obtain ⟨⟨t, ht⟩, hok⟩ := List.forall_mem_cons.1 hok
      rw [contents_of_cons (skip_append_of_cons .plain hrest _), scan_append ht, List.cons_append]
      rw [List.length_cons] at hskip
      exact congrArg (_ :: ·) (ih (by omega) hgap hok)

end FormulaLang.Lexer
