import FormulaLang.Proofs.Token.Tiling
import Mathlib.Data.List.TakeWhile
import Mathlib.Data.String.Basic

/-!
# Tokens read alone

A step of reading looks at most at what it takes and at the character behind that, and it stops in
front of that character as it would at the end of a text. So the characters of a token are read as
that token wherever they stand.

* `Extent.slice`: the part of a text that an extent covers.
* `Scan.alone`: a step that leaves nothing.
* `scanNumber_alone`, `scanString_alone`, `scanWord_alone`, **`scan_alone`**: steps on what they
  take.
* `exists_scan_of_mem`: every lexeme is what a step gives, behind blanks and comments.
* **`lex_slice`**: the slice of a token is read as the token and nothing else.
-/

namespace FormulaLang.Text

/-- The bytes of a text from `start` up to `stop`. -/
def Extent.slice (e : Extent) (source : String) : String :=
  String.Pos.Raw.extract source ⟨e.start⟩ ⟨e.stop⟩

/-- What an extent covers is its slice. -/
theorem Extent.Covers.slice_eq {e : Extent} {before piece back : List Char} {source : String}
    (h : e.Covers before piece) (hsource : source.toList = before ++ piece ++ back) :
    e.slice source = String.ofList piece := by
  have htext : source = String.ofList (before ++ piece ++ back) := by
    rw [← hsource, String.ofList_toList]
  have hstop : e.stop = String.utf8Len before + String.utf8Len piece := by
    rw [h.stop, String.ofList_append, String.utf8ByteSize_append, String.utf8ByteSize_ofList,
      String.utf8ByteSize_ofList]
  rw [Extent.slice, h.start, hstop, htext, String.utf8ByteSize_ofList]
  exact String.extract_of_valid before piece back

end FormulaLang.Text

namespace FormulaLang.Lexer

open Text (Place Extent isBlank)

variable {c : Char} {cs ds rest : List Char} {t : Token}

/-! ## Runs of characters -/

/-- A run of characters is one on its own. -/
theorem span_takeWhile (p : Char → Bool) (cs : List Char) :
    (cs.takeWhile p).takeWhile p = cs.takeWhile p ∧ (cs.takeWhile p).dropWhile p = [] :=
  ⟨List.takeWhile_idem, List.dropWhile_eq_nil_iff.2 fun _ h => List.mem_takeWhile_imp h⟩

/-! ## Steps on what they take -/

/-- The step when nothing stands behind what it takes. -/
def Scan.alone (s : Scan) : Scan := { s with rest := [] }

theorem mantissa_of_point {more : List Char} (h : cs.dropWhile Char.isDigit = '.' :: more) :
    mantissa cs = (cs.takeWhile Char.isDigit ++ '.' :: more.takeWhile Char.isDigit,
      more.dropWhile Char.isDigit) := by
  simp only [mantissa, h]

theorem mantissa_of_no_point (h : ∀ more, cs.dropWhile Char.isDigit ≠ '.' :: more) :
    mantissa cs = (cs.takeWhile Char.isDigit, cs.dropWhile Char.isDigit) := by
  unfold mantissa
  dsimp only
  split
  · next more hmore => exact absurd hmore (h more)
  · rfl

/-- Neither a digit nor a point goes on with a mantissa. -/
theorem mantissa_stop (cs : List Char) (hds : ∀ c ∈ ds.head?, c.isDigit = false ∧ c ≠ '.') :
    mantissa ((mantissa cs).1 ++ ds) = ((mantissa cs).1, ds) := by
  have hdigits : ∀ cs : List Char, ∀ c ∈ cs.takeWhile Char.isDigit, c.isDigit :=
    fun _ _ h => List.mem_takeWhile_imp h
  have hstop : ∀ c ∈ ds.head?, c.isDigit = false := fun c hc => (hds c hc).1
  by_cases hpoint : ∃ more, cs.dropWhile Char.isDigit = '.' :: more
  · obtain ⟨more, hmore⟩ := hpoint
    obtain ⟨htake, hdrop⟩ := span_stop (hdigits cs)
      (show ∀ c ∈ ('.' :: (more.takeWhile Char.isDigit ++ ds)).head?, c.isDigit = false by simp)
    obtain ⟨htake', hdrop'⟩ := span_stop (hdigits more) hstop
    rw [mantissa_of_point hmore, List.append_assoc, List.cons_append, mantissa_of_point hdrop,
      htake, htake', hdrop']
  · obtain ⟨htake, hdrop⟩ := span_stop (hdigits cs) hstop
    rw [mantissa_of_no_point fun more hmore => hpoint ⟨more, hmore⟩, mantissa_of_no_point, htake,
      hdrop]
    intro more hmore
    rw [hdrop] at hmore
    subst hmore
    exact (hds '.' rfl).2 rfl

/-- An exponent begins with its letter. -/
theorem head?_power (cs : List Char) : ∀ c ∈ (power cs).1.head?, c = 'e' ∨ c = 'E' := by
  cases cs with
  | nil => nofun
  | cons e cs =>
    rw [power_cons]
    split
    · next h =>
      intro c hc
      cases hc
      exact h.1
    · nofun

/-- A digit is no sign. -/
theorem sign_stop (cs : List Char) (hc : c.isDigit) (ds : List Char) :
    sign (sign cs ++ c :: ds) = sign cs := by
  have hcases : sign cs = ['+'] ∨ sign cs = ['-'] ∨ sign cs = [] := by
    unfold sign
    split <;> simp
  rcases hcases with h | h | h <;> rw [h]
  · rfl
  · rfl
  · show sign (c :: ds) = []
    unfold sign
    split
    · next heq => cases heq; cases hc
    · next heq => cases heq; cases hc
    · rfl

theorem power_alone (cs : List Char) : power (power cs).1 = ((power cs).1, []) := by
  cases cs with
  | nil => rfl
  | cons e cs =>
    rw [power_cons]
    generalize hdigits : cs.drop (sign cs).length = digits
    split
    · next h =>
      obtain ⟨htake, hdrop⟩ := span_takeWhile Char.isDigit digits
      obtain ⟨d, more, rfl⟩ : ∃ d more, digits = d :: more := by
        cases digits with
        | nil => cases h.2
        | cons d more => exact ⟨d, more, rfl⟩
      have hd : d.isDigit := h.2
      have hsign : sign (sign cs ++ (d :: more).takeWhile Char.isDigit) = sign cs := by
        rw [List.takeWhile_cons_of_pos hd]
        exact sign_stop cs hd _
      rw [List.cons_append, power_cons, hsign, List.drop_left, htake, hdrop,
        List.takeWhile_cons_of_pos hd]
      rw [if_pos ⟨h.1, hd⟩]
      rfl
    · rfl

theorem scanDecimal_alone (cs : List Char) :
    scanDecimal (scanDecimal cs).taken = (scanDecimal cs).alone := by
  have hstop : ∀ c ∈ (power (mantissa cs).2).1.head?, c.isDigit = false ∧ c ≠ '.' := by
    intro c hc
    rcases head?_power _ c hc with rfl | rfl <;> decide
  rw [taken_scanDecimal, scanDecimal, mantissa_stop cs hstop]
  dsimp only
  rw [power_alone]
  unfold scanDecimal
  dsimp only
  split <;> rfl

theorem scanRadix_alone (radix : Nat) (letter : Char) (cs : List Char) :
    scanRadix radix letter (cs.takeWhile (Number.isDigitOf radix)) =
      (scanRadix radix letter cs).alone := by
  obtain ⟨htake, hdrop⟩ := span_takeWhile (Number.isDigitOf radix) cs
  unfold scanRadix
  rw [htake, hdrop]
  dsimp only
  split
  · split <;> rfl
  · rfl

/-- A number is read alone as in front of anything. -/
theorem scanNumber_alone (cs : List Char) :
    scanNumber (scanNumber cs).taken = (scanNumber cs).alone := by
  by_cases hmarked : ∃ letter more radix, cs = '0' :: letter :: more ∧ radix? letter = some radix
  · obtain ⟨letter, more, radix, rfl, hradix⟩ := hmarked
    have htaken : (scanRadix radix letter more).taken =
        '0' :: letter :: more.takeWhile (Number.isDigitOf radix) := by
      unfold scanRadix
      dsimp only
      split
      · split <;> rfl
      · rfl
    simp only [scanNumber, hradix, htaken, scanRadix_alone]
  have hnone : ∀ letter more, cs = '0' :: letter :: more → radix? letter = none := by
    intro letter more heq
    cases hradix : radix? letter with
    | none => rfl
    | some radix => exact absurd ⟨letter, more, radix, heq, hradix⟩ hmarked
  rw [scanNumber_of_radix? hnone, ← scanDecimal_alone]
  refine scanNumber_of_radix? fun letter more heq => ?_
  -- What is taken is the beginning of the text, so no radix is marked there either.
  have htiles := tiles_scanDecimal cs
  rw [Scan.Tiles, heq] at htiles
  exact hnone letter (more ++ (scanDecimal cs).rest) htiles.symm

theorem quoted_alone {cs : List Char} (h : (quoted cs).1 ≠ none) :
    quoted (quoted cs).2.1 = ((quoted cs).1, (quoted cs).2.1, []) := by
  fun_induction quoted cs with
  | case1 => exact absurd rfl h
  | case2 cs value taken rest hq ih =>
    rw [hq] at ih
    simp only [quoted, ih (by simpa using h)]
  | case3 cs hquote => rfl
  | case4 c cs value taken rest hq ih =>
    rw [hq] at ih
    simp only [quoted, ih (by simpa using h)]
  | case5 c cs _ hquote hslash value taken rest hq ih =>
    have hclosed : value ≠ none := by simpa using h
    have htiles := quoted_tiles cs
    rw [hq] at ih htiles
    rw [quoted, ih hclosed]
    · exact fun _ hc => absurd hc hquote
    · exact hquote
    · intro d es hc heq
      refine hslash d (es ++ rest) hc ?_
      rw [← htiles, heq, List.cons_append]

/-- A closed string is read alone as in front of anything. -/
theorem scanString_alone {cs : List Char} (h : (scanString cs).content = .ok t) :
    ∃ ds, (scanString cs).taken = '"' :: ds ∧ scanString ds = (scanString cs).alone := by
  have hclosed : (quoted cs).1 ≠ none := by
    intro hnone
    simp only [scanString, hnone] at h
    cases h
  refine ⟨(quoted cs).2.1, ?_, ?_⟩
  · unfold scanString
    dsimp only
    split <;> rfl
  · unfold scanString
    rw [quoted_alone hclosed]
    dsimp only
    split <;> rfl

theorem scanWord_alone (cs : List Char) :
    scanWord (cs.takeWhile isWordChar) = (scanWord cs).alone := by
  obtain ⟨htake, hdrop⟩ := span_takeWhile isWordChar cs
  unfold scanWord
  rw [htake, hdrop]
  rfl

theorem scanMark?_alone {s : Scan} (h : scanMark? c cs = some s) :
    ∃ ds, s.taken = c :: ds ∧ scanMark? c ds = some s.alone := by
  unfold scanMark? at h
  split at h
  · next m _ hm =>
    cases h
    exact ⟨[], rfl, by simp only [scanMark?, hm]; rfl⟩
  · next second long short hm hd =>
    split at h
    · next d rest =>
      split at h
      · next hsecond =>
        cases h
        exact ⟨[d], rfl, by simp only [scanMark?, hm, hd, if_pos hsecond]; rfl⟩
      · cases h
        exact ⟨[], rfl, by simp only [scanMark?, hm, hd]; rfl⟩
    · cases h
      exact ⟨[], rfl, by simp only [scanMark?, hm, hd]; rfl⟩
  · cases h

/-- Whether a mark begins depends on one character only. -/
theorem scanMark?_eq_none (h : scanMark? c cs = none) (ds : List Char) : scanMark? c ds = none := by
  unfold scanMark? at h
  split at h
  · cases h
  · split at h
    · split at h <;> cases h
    · cases h
  · next hm hd => simp only [scanMark?, hm, hd]

/-- A number takes the character that it begins with. -/
theorem scanNumber_taken (h : c.isDigit ∨ c = '.') (cs : List Char) :
    ∃ ds, (scanNumber (c :: cs)).taken = c :: ds ∧ ds ++ (scanNumber (c :: cs)).rest = cs := by
  have htiles := tiles_scanNumber (c :: cs)
  rw [Scan.Tiles] at htiles
  obtain ⟨d, ds, hds⟩ := List.exists_cons_of_ne_nil (scanNumber_taken_ne_nil h cs)
  rw [hds, List.cons_append, List.cons.injEq] at htiles
  exact ⟨ds, by rw [hds, htiles.1], htiles.2⟩

/-- A point alone is no number. -/
theorem head?_of_point (h : (scanNumber ('.' :: cs)).content = .ok t)
    (hds : (scanNumber ('.' :: cs)).taken = '.' :: ds) : ds ≠ [] := by
  rintro rfl
  have halone := scanNumber_alone ('.' :: cs)
  rw [hds] at halone
  have hcontent : (scanNumber ['.']).content = .ok t := by
    rw [halone]
    exact h
  cases hcontent

/-- **A token is read from the characters that it takes.** -/
theorem scan_alone (h : (scan c cs).content = .ok t) :
    ∃ ds, (scan c cs).taken = c :: ds ∧ scan c ds = (scan c cs).alone := by
  unfold scan at h ⊢
  cases hmark : scanMark? c cs with
  | some s =>
    obtain ⟨ds, htaken, hds⟩ := scanMark?_alone hmark
    exact ⟨ds, htaken, by simp only [hds]⟩
  | none =>
    rw [hmark] at h
    simp only [scanMark?_eq_none hmark]
    dsimp only at h
    split_ifs at h ⊢ with hpoint hdigit hquote hdigit hword
    · subst hpoint
      obtain ⟨ds, htaken, hrest⟩ := scanNumber_taken (.inr rfl) cs
      obtain ⟨d, more, rfl⟩ := List.exists_cons_of_ne_nil (head?_of_point h htaken)
      have hd : (d :: more).head?.any Char.isDigit := by
        rw [← hrest] at hdigit
        exact hdigit
      exact ⟨d :: more, htaken, by rw [if_pos hd, ← htaken, scanNumber_alone]⟩
    · exact ⟨[], rfl, rfl⟩
    · obtain ⟨ds, htaken, hds⟩ := scanString_alone h
      exact ⟨ds, by rw [htaken, hquote], hds⟩
    · obtain ⟨ds, htaken, -⟩ := scanNumber_taken (.inl hdigit) cs
      exact ⟨ds, htaken, by rw [← htaken, scanNumber_alone]⟩
    · have hc : isWordChar c := isWordChar_of_isWordStart hword
      have htaken : (c :: cs).takeWhile isWordChar = c :: cs.takeWhile isWordChar :=
        List.takeWhile_cons_of_pos hc
      exact ⟨cs.takeWhile isWordChar, htaken, by rw [← htaken, scanWord_alone]⟩

/-! ## Lexemes in a text -/

/-- What is left behind blanks and comments begins with no blank. -/
theorem isBlank_of_skip {g : Gap} (h : (skip g cs).2 = c :: rest) : isBlank c = false := by
  fun_induction skip g cs with
  | case5 d cs hstar hslash hblank =>
    cases h
    exact Bool.eq_false_iff.2 hblank
  | _ => simp_all

/-- Each lexeme of a text is what a step gives behind blanks and comments. -/
theorem exists_scan_of_mem {n : Nat} (before : List Char) {l : Lexeme}
    (hl : l ∈ (lexFrom n (Place.origin.after before) cs).lexemes) :
    ∃ front c rest, isBlank c = false ∧ l.content = (scan c rest).content ∧
      l.extent.Covers (before ++ front) (scan c rest).taken ∧
      before ++ cs = before ++ front ++ (scan c rest).taken ++ (scan c rest).rest := by
  induction n generalizing before cs with
  | zero => cases hl
  | succ n ih =>
    have hblank := skip_tiles .plain cs
    rcases hskip : skip .plain cs with ⟨blank, _ | ⟨c, rest⟩⟩
    · simp only [lexFrom, hskip] at hl
      cases hl
    · rw [hskip] at hblank
      simp only [lexFrom, hskip] at hl
      have hcs : before ++ cs =
          before ++ blank ++ (scan c rest).taken ++ (scan c rest).rest := by
        rw [List.append_assoc _ (scan c rest).taken, tiles_scan c rest, ← hblank,
          List.append_assoc]
      rcases List.mem_cons.1 hl with rfl | hl
      · refine ⟨blank, c, rest, isBlank_of_skip (by rw [hskip]), rfl, ?_, hcs⟩
        rw [← Place.after_append]
        exact Place.covers_extent _ _
      · rw [← Place.after_append, ← Place.after_append] at hl
        obtain ⟨front, d, more, hd, hcontent, hcovers, hmore⟩ := ih _ hl
        refine ⟨blank ++ (scan c rest).taken ++ front, d, more, hd, hcontent, ?_, ?_⟩
        · simpa only [List.append_assoc] using hcovers
        · rw [hcs]
          simpa only [List.append_assoc] using hmore

/-- A text that is one token. -/
theorem contents_of_alone (hc : isBlank c = false) (h : scan c ds = ⟨.ok t, c :: ds, []⟩) :
    contents (c :: ds) = [.ok t] := by
  have hskip : (skip .plain (c :: ds)).2 = c :: ds := by
    by_cases hslash : c = '/'
    · subst hslash
      obtain rfl : ds = [] := by
        have htaken : ['/'] = '/' :: ds := congrArg Scan.taken h
        exact (List.cons.inj htaken).2.symm
      rfl
    · rw [skip_of_ne_slash hc hslash]
  rw [contents_of_cons hskip, h]
  rfl

/-- **Tokens are free of their context.** The slice of a token that is not the end, in whatever text
and behind whatever faults, is read as that token and then the end. -/
theorem lex_slice {source : String} {l : Lexeme} {t : Token} (hl : l ∈ (lex source).all)
    (ht : l.content = .ok t) (hfinish : t ≠ .finish) :
    (lex (l.extent.slice source)).all.map (·.content) = [.ok t, .ok .finish] := by
  have hmem : l ∈ (lex source).lexemes := by
    rcases List.mem_append.1 hl with hl | hl
    · exact hl
    · cases List.mem_singleton.1 hl
      cases ht
      exact absurd rfl hfinish
  obtain ⟨front, c, rest, hc, hcontent, hcovers, hsource⟩ :=
    exists_scan_of_mem [] hmem
  have hscan : (scan c rest).content = .ok t := hcontent.symm.trans ht
  obtain ⟨ds, htaken, halone⟩ := scan_alone hscan
  have hslice : l.extent.slice source = String.ofList (c :: ds) := by
    rw [← htaken]
    exact hcovers.slice_eq hsource
  have hlexemes : (lex (String.ofList (c :: ds))).lexemes.map (·.content) = [.ok t] := by
    rw [lex, String.toList_ofList]
    exact contents_of_alone hc (by rw [halone, Scan.alone, hscan, htaken])
  rw [hslice, Lexed.all, List.map_append, hlexemes]
  rfl

/-- A number behind a fault, in front of what goes on as an exponent would. -/
theorem lex_slice_faulty : ∃ l ∈ (lex "$ 1.5e+x").all, l.content = .ok (.number 1.5) ∧
    l.extent.slice "$ 1.5e+x" = "1.5" ∧
    (lex (l.extent.slice "$ 1.5e+x")).all.map (·.content) = [.ok (.number 1.5), .ok .finish] := by
  have hmem : ⟨.ok (.number 1.5), ⟨2, 5, 1, 3⟩⟩ ∈ (lex "$ 1.5e+x").all :=
    List.mem_of_getElem? (i := 1) rfl
  exact ⟨_, hmem, rfl, by decide +kernel, lex_slice hmem rfl nofun⟩

end FormulaLang.Lexer
