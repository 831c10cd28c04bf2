import FormulaLang.Proofs.Token.Append
import Mathlib.Data.List.Induction

/-!
# Where the lexemes of a text stand

Calls for the next lexeme reach the end of every text. The lexemes take up pieces of the text one
after the other, and only blanks and comments stand in front of, between and behind them.

* `Extent.Covers`, `covers_extent`: an extent by the text in front of a piece, without places.
* `Filler`, `filler_skip`: what is skipped. Only a comment behind the last lexeme may be open.
* `nextLexeme`, `Delivers`: calls for lexemes until one stands for the end.
* `Tiled`: a text as fillers with lexemes between them.
* **`lex_tiles_text`**: the lexemes of a text tile it.
-/

namespace FormulaLang.Text

/-! ## Extents by the text in front of them -/

/-- The extent of `piece` behind `before`: the bytes up to its start and its end, and one more than
the newlines in front of it and than the characters behind the last of them. -/
structure Extent.Covers (e : Extent) (before piece : List Char) : Prop where
  start : e.start = (String.ofList before).utf8ByteSize
  stop : e.stop = (String.ofList (before ++ piece)).utf8ByteSize
  line : e.line = before.count '\n' + 1
  column : e.column = (before.reverse.takeWhile (· ≠ '\n')).length + 1

namespace Place

variable (cs : List Char)

theorem offset_after_origin : (origin.after cs).offset = (String.ofList cs).utf8ByteSize := by
  induction cs using List.reverseRecOn with
  | nil => rfl
  | append_singleton cs c ih =>
    rw [after_append, String.ofList_append, String.utf8ByteSize_append, ← ih,
      ← String.singleton_eq_ofList, String.utf8ByteSize_singleton, after_cons, after_nil, next]
    split <;> rfl

theorem line_after_origin : (origin.after cs).line = cs.count '\n' + 1 := by
  induction cs using List.reverseRecOn with
  | nil => rfl
  | append_singleton cs c ih =>
    rw [after_append, List.count_append, after_cons, after_nil, next]
    split
    · next hc => simp [hc, ih]
    · next hc => simp [hc, ih]

theorem column_after_origin :
    (origin.after cs).column = (cs.reverse.takeWhile (· ≠ '\n')).length + 1 := by
  induction cs using List.reverseRecOn with
  | nil => rfl
  | append_singleton cs c ih =>
    rw [after_append, List.reverse_append, after_cons, after_nil, next]
    split
    · next hc => simp [hc]
    · next hc => simp [hc, ih]

theorem covers_extent (before piece : List Char) :
    ((origin.after before).extent piece).Covers before piece where
  start := offset_after_origin before
  stop := by rw [← offset_after_origin, after_append]; rfl
  line := line_after_origin before
  column := column_after_origin before

end Place

namespace Extent.Covers

variable {e : Extent} {before piece : List Char}

/-- What covers a piece stops in front of what covers a piece behind it. -/
theorem stop_le_start {e' : Extent} {front piece' : List Char} (h : e.Covers before piece)
    (h' : e'.Covers (before ++ piece ++ front) piece') : e.stop ≤ e'.start := by
  rw [h.stop, h'.start, @String.ofList_append (before ++ piece), String.utf8ByteSize_append]
  exact Nat.le_add_right _ _

theorem start_lt_stop (h : e.Covers before piece) (hpiece : piece ≠ []) : e.start < e.stop := by
  have hbytes : (String.ofList piece).utf8ByteSize ≠ 0 := by
    rwa [ne_eq, String.utf8ByteSize_eq_zero_iff, String.ofList_eq_empty_iff]
  rw [h.start, h.stop, String.ofList_append, String.utf8ByteSize_append]
  exact Nat.lt_add_of_pos_right (Nat.pos_of_ne_zero hbytes)

/-- A piece of a text begins and ends on the boundaries of characters. -/
theorem isValid {source : String} {back : List Char} (h : e.Covers before piece)
    (hsource : source.toList = before ++ piece ++ back) :
    (String.Pos.Raw.mk e.start).IsValid source ∧ (String.Pos.Raw.mk e.stop).IsValid source := by
  have hboundary : ∀ front behind : List Char, source.toList = front ++ behind →
      (String.Pos.Raw.mk (String.ofList front).utf8ByteSize).IsValid source := by
    intro front behind hfront
    refine String.Pos.Raw.isValid_iff_exists_append.2 ⟨.ofList front, .ofList behind, ?_, rfl⟩
    rw [← String.ofList_append, ← hfront, String.ofList_toList]
  rw [h.start, h.stop]
  exact ⟨hboundary before (piece ++ back) (by rw [hsource, List.append_assoc]),
    hboundary (before ++ piece) back hsource⟩

end Extent.Covers

end FormulaLang.Text

namespace FormulaLang.Lexer

open Text (Place Extent isBlank)

variable {c : Char} {cs : List Char}

/-! ## Fillers -/

/-- Blanks and comments. What stands behind all lexemes is final: there a line comment may go up
to the end of the text, and a block comment may stay open. -/
inductive Filler (final : Bool) : List Char → Prop where
  | done : Filler final []
  | blank {c : Char} {cs : List Char} (hc : isBlank c) (h : Filler final cs) :
      Filler final (c :: cs)
  | line {body cs : List Char} (hbody : '\n' ∉ body) (h : Filler final cs) :
      Filler final ('/' :: '/' :: (body ++ '\n' :: cs))
  | block {body cs : List Char} (hbody : ¬ ['*', '/'] <:+: body ++ ['*']) (h : Filler final cs) :
      Filler final ('/' :: '*' :: (body ++ '*' :: '/' :: cs))
  | lastLine {body : List Char} (hfinal : final) (hbody : '\n' ∉ body) :
      Filler final ('/' :: '/' :: body)
  | openBlock {body : List Char} (hfinal : final) (hbody : ¬ ['*', '/'] <:+: body) :
      Filler final ('/' :: '*' :: body)

/-- What begins a comment. -/
def Gap.opening : Gap → List Char
  | .plain => []
  | .line => ['/', '/']
  | .block => ['/', '*']

section Filler

variable {final : Bool}

theorem Filler.line_cons (hc : c ≠ '\n') (h : Filler final ('/' :: '/' :: cs)) :
    Filler final ('/' :: '/' :: c :: cs) := by
  have hnotMem : ∀ {body : List Char}, '\n' ∉ body → '\n' ∉ c :: body := by
    simp [hc.symm]
  cases h with
  | blank hblank _ => exact absurd hblank (by decide)
  | line hbody h => exact .line (hnotMem hbody) h
  | lastLine hfinal hbody => exact .lastLine hfinal (hnotMem hbody)

theorem Filler.block_cons (hc : ∀ ds, c = '*' → cs ≠ '/' :: ds)
    (h : Filler final ('/' :: '*' :: cs)) : Filler final ('/' :: '*' :: c :: cs) := by
  have hopen : ∀ {body : List Char}, body <+: cs → ¬ ['*', '/'] <:+: body →
      ¬ ['*', '/'] <:+: c :: body := by
    intro body hprefix hbody hclose
    rcases List.infix_cons_iff.1 hclose with hclose | hclose
    · obtain ⟨rfl, hslash⟩ := List.cons_prefix_cons.1 hclose
      obtain ⟨ds, rfl⟩ := hslash.trans hprefix
      exact hc ds rfl rfl
    · exact hbody hclose
  cases h with
  | blank hblank _ => exact absurd hblank (by decide)
  | @block body _ hbody h =>
    exact @Filler.block _ (c :: body) _ (hopen (by simp) hbody) h
  | openBlock hfinal hbody => exact .openBlock hfinal (hopen (List.prefix_refl _) hbody)

end Filler

/-- **What is skipped is a filler**, a final one when nothing is left. -/
theorem filler_skip (g : Gap) (cs : List Char) :
    Filler (skip g cs).2.isEmpty (g.opening ++ (skip g cs).1) := by
  fun_induction skip g cs with
  | case1 g =>
    cases g with
    | plain => exact .done
    | line => exact .lastLine rfl List.not_mem_nil
    | block => exact .openBlock rfl (by simp)
  | case2 cs blank rest hskip ih =>
    rw [hskip] at ih
    exact ih
  | case3 cs blank rest hskip ih =>
    rw [hskip] at ih
    exact ih
  | case4 c cs hstar hslash hblank blank rest hskip ih =>
    rw [hskip] at ih
    exact .blank hblank ih
  | case5 => exact .done
  | case6 c cs blank rest hskip ih =>
    rw [hskip] at ih
    split at ih
    · next hc =>
      subst hc
      exact @Filler.line _ [] _ List.not_mem_nil ih
    · next hc => exact .line_cons hc ih
  | case7 cs blank rest hskip ih =>
    rw [hskip] at ih
    exact @Filler.block _ [] _ (by decide) ih
  | case8 c cs hclose blank rest hskip ih =>
    have htiles := skip_tiles .block cs
    rw [hskip] at ih htiles
    refine .block_cons (fun ds hc hblank => hclose (ds ++ rest) hc ?_) ih
    rw [← htiles, hblank, List.cons_append]

/-! ## Calls for lexemes -/

/-- A call for the next lexeme: the lexeme, and the place and the text behind it. -/
def nextLexeme (p : Place) (cs : List Char) : Lexeme × Place × List Char :=
  let (blank, rest) := skip .plain cs
  let p := p.after blank
  match rest with
  | [] => (⟨.ok .finish, p.extent []⟩, p, [])
  | c :: rest =>
    let s := scan c rest
    (⟨s.content, p.extent s.taken⟩, p.after s.taken, s.rest)

/-- Calls from a place on give these lexemes, and the last call is the first to give the end. -/
inductive Delivers : Place → List Char → List Lexeme → Prop where
  | finish {p : Place} {cs : List Char} (h : (nextLexeme p cs).1.content = .ok .finish) :
      Delivers p cs [(nextLexeme p cs).1]
  | lexeme {p : Place} {cs : List Char} {ls : List Lexeme}
      (h : (nextLexeme p cs).1.content ≠ .ok .finish)
      (hmore : Delivers (nextLexeme p cs).2.1 (nextLexeme p cs).2.2 ls) :
      Delivers p cs ((nextLexeme p cs).1 :: ls)

section Calls

variable {blank rest : List Char} {ls : List Lexeme} {n : Nat} {p : Place}

theorem nextLexeme_of_nil (h : skip .plain cs = (blank, [])) :
    nextLexeme p cs = (⟨.ok .finish, (p.after blank).extent []⟩, p.after blank, []) := by
  simp only [nextLexeme, h]

theorem nextLexeme_of_cons (h : skip .plain cs = (blank, c :: rest)) :
    nextLexeme p cs = (⟨(scan c rest).content, (p.after blank).extent (scan c rest).taken⟩,
      (p.after blank).after (scan c rest).taken, (scan c rest).rest) := by
  simp only [nextLexeme, h]

/-- A call gives the end when only a final filler is left. -/
theorem filler_of_finish (h : (nextLexeme p cs).1.content = .ok .finish) :
    Filler true cs ∧ (nextLexeme p cs).1.extent = (p.after cs).extent [] := by
  have hfiller := filler_skip .plain cs
  have htiles := skip_tiles .plain cs
  rcases hskip : skip .plain cs with ⟨blank, _ | ⟨c, rest⟩⟩
  · rw [hskip] at hfiller htiles
    obtain rfl : blank = cs := (List.append_nil blank).symm.trans htiles
    rw [nextLexeme_of_nil hskip]
    exact ⟨hfiller, rfl⟩
  · rw [nextLexeme_of_cons hskip] at h
    exact absurd h (scan_ne_finish c rest)

/-- Any other call takes characters behind a filler. -/
theorem taken_of_ne_finish (h : (nextLexeme p cs).1.content ≠ .ok .finish) :
    ∃ blank piece, cs = blank ++ (piece ++ (nextLexeme p cs).2.2) ∧ Filler false blank ∧
      piece ≠ [] ∧ (nextLexeme p cs).1.extent = (p.after blank).extent piece ∧
      (nextLexeme p cs).2.1 = (p.after blank).after piece := by
  have hfiller := filler_skip .plain cs
  have htiles := skip_tiles .plain cs
  rcases hskip : skip .plain cs with ⟨blank, _ | ⟨c, rest⟩⟩
  · rw [nextLexeme_of_nil hskip] at h
    exact absurd rfl h
  · rw [hskip] at hfiller htiles
    rw [nextLexeme_of_cons hskip]
    refine ⟨blank, (scan c rest).taken, ?_, hfiller, scan_taken_ne_nil c rest, rfl, rfl⟩
    rw [tiles_scan c rest, htiles]

theorem all_lexFrom_of_finish (h : (nextLexeme p cs).1.content = .ok .finish) :
    (lexFrom (n + 1) p cs).all = [(nextLexeme p cs).1] := by
  rcases hskip : skip .plain cs with ⟨blank, _ | ⟨c, rest⟩⟩
  · rw [nextLexeme_of_nil hskip]
    simp only [lexFrom, hskip]
    rfl
  · rw [nextLexeme_of_cons hskip] at h
    exact absurd h (scan_ne_finish c rest)

theorem all_lexFrom_of_ne_finish (h : (nextLexeme p cs).1.content ≠ .ok .finish) :
    (lexFrom (n + 1) p cs).all =
      (nextLexeme p cs).1 :: (lexFrom n (nextLexeme p cs).2.1 (nextLexeme p cs).2.2).all := by
  rcases hskip : skip .plain cs with ⟨blank, _ | ⟨c, rest⟩⟩
  · rw [nextLexeme_of_nil hskip] at h
    exact absurd rfl h
  · rw [nextLexeme_of_cons hskip]
    simp only [lexFrom, hskip]
    rfl

/-- **Calls reach the end**, since each one before takes characters. -/
theorem delivers_lexFrom (hn : cs.length < n) (p : Place) : Delivers p cs (lexFrom n p cs).all := by
  induction n generalizing p cs with
  | zero => exact absurd hn (Nat.not_lt_zero _)
  | succ n ih =>
    by_cases h : (nextLexeme p cs).1.content = .ok .finish
    · rw [all_lexFrom_of_finish h]
      exact .finish h
    · obtain ⟨blank, piece, hcs, -, hpiece, -, -⟩ := taken_of_ne_finish h
      have hlength := congrArg List.length hcs
      have hpos := List.length_pos_iff.2 hpiece
      rw [List.length_append, List.length_append] at hlength
      rw [all_lexFrom_of_ne_finish h]
      exact .lexeme h (ih (by omega) _)

theorem Delivers.length_le (h : Delivers p cs ls) : ls.length ≤ cs.length + 1 := by
  induction h with
  | finish => exact Nat.le_add_left _ _
  | lexeme h _ ih =>
    obtain ⟨blank, piece, hcs, -, hpiece, -, -⟩ := taken_of_ne_finish h
    have hlength := congrArg List.length hcs
    have hpos := List.length_pos_iff.2 hpiece
    rw [List.length_append, List.length_append] at hlength
    rw [List.length_cons]
    omega

end Calls

/-! ## Tilings -/

/-- The text behind `before` consists of the lexemes and of fillers in front of, between and behind
them. The last lexeme stands for the end. -/
inductive Tiled : List Char → List Char → List Lexeme → Prop where
  | finish {before blank : List Char} {l : Lexeme} (hblank : Filler true blank)
      (hl : l.content = .ok .finish) (hextent : l.extent.Covers (before ++ blank) []) :
      Tiled before blank [l]
  | lexeme {before blank piece rest : List Char} {l : Lexeme} {ls : List Lexeme}
      (hblank : Filler false blank) (hl : l.content ≠ .ok .finish) (hpiece : piece ≠ [])
      (hextent : l.extent.Covers (before ++ blank) piece)
      (hmore : Tiled (before ++ blank ++ piece) rest ls) :
      Tiled before (blank ++ (piece ++ rest)) (l :: ls)

section Tiled

variable {before : List Char} {l : Lexeme} {ls : List Lexeme}

/-- **What calls give tiles the text**, wherever they start. -/
theorem tiled_of_delivers (h : Delivers (.after .origin before) cs ls) : Tiled before cs ls := by
  generalize hp : Place.after .origin before = p at h
  induction h generalizing before with
  | finish h =>
    subst hp
    obtain ⟨hfiller, hextent⟩ := filler_of_finish h
    rw [← Place.after_append] at hextent
    exact .finish hfiller h (hextent ▸ Place.covers_extent _ _)
  | lexeme h _ ih =>
    subst hp
    obtain ⟨blank, piece, hcs, hfiller, hpiece, hextent, hplace⟩ := taken_of_ne_finish h
    rw [← Place.after_append] at hextent
    rw [← Place.after_append, ← Place.after_append, ← List.append_assoc] at hplace
    have htiled := Tiled.lexeme hfiller h hpiece (hextent ▸ Place.covers_extent _ _)
      (ih hplace.symm)
    rwa [← hcs] at htiled

/-- Each lexeme covers a piece of the text, which is empty at the end only. -/
theorem Tiled.exists_covers (h : Tiled before cs ls) (hl : l ∈ ls) :
    ∃ front piece back, before ++ cs = before ++ front ++ piece ++ back ∧
      l.extent.Covers (before ++ front) piece ∧ (l.content ≠ .ok .finish → piece ≠ []) := by
  induction h with
  | @finish before blank _ _ hfinish hextent =>
    rw [List.mem_singleton.1 hl]
    exact ⟨blank, [], [], by simp, hextent, fun h => absurd hfinish h⟩
  | @lexeme before blank piece rest _ _ _ _ hpiece hextent _ ih =>
    rcases List.mem_cons.1 hl with rfl | hl
    · exact ⟨blank, piece, rest, by simp, hextent, fun _ => hpiece⟩
    · obtain ⟨front, piece', back, hcs, hextent', hpiece'⟩ := ih hl
      refine ⟨blank ++ piece ++ front, piece', back, ?_, ?_, hpiece'⟩
      · simpa [List.append_assoc] using hcs
      · simpa [List.append_assoc] using hextent'

/-- The lexemes stand one behind the other. -/
theorem Tiled.pairwise (h : Tiled before cs ls) :
    ls.Pairwise fun l l' => l.extent.stop ≤ l'.extent.start := by
  induction h with
  | finish => exact List.pairwise_singleton _ _
  | lexeme _ _ _ hextent hmore ih =>
    refine List.pairwise_cons.2 ⟨fun l' hl' => ?_, ih⟩
    obtain ⟨front, piece, back, -, hextent', -⟩ := hmore.exists_covers hl'
    exact hextent.stop_le_start hextent'

end Tiled

/-- **The lexemes of a text tile it.** Finitely many calls give them and then the end. Their extents
are on the boundaries of characters, not empty and one behind the other, and only blanks and
comments stand around them. -/
theorem lex_tiles_text (source : String) :
    Delivers .origin source.toList (lex source).all ∧
      Tiled [] source.toList (lex source).all ∧
      (lex source).all.length ≤ source.toList.length + 1 ∧
      (∀ l ∈ (lex source).lexemes, l.extent.start < l.extent.stop) ∧
      (∀ l ∈ (lex source).all, (String.Pos.Raw.mk l.extent.start).IsValid source ∧
        (String.Pos.Raw.mk l.extent.stop).IsValid source) ∧
      (lex source).all.Pairwise fun l l' => l.extent.stop ≤ l'.extent.start := by
  have hdelivers : Delivers .origin source.toList (lex source).all :=
    delivers_lexFrom (Nat.lt_succ_self _) .origin
  have htiled : Tiled [] source.toList (lex source).all := tiled_of_delivers hdelivers
  refine ⟨hdelivers, htiled, hdelivers.length_le, fun l hl => ?_, fun l hl => ?_,
    htiled.pairwise⟩
  · obtain ⟨front, piece, back, -, hextent, hpiece⟩ :=
      htiled.exists_covers (List.mem_append_left _ hl)
    exact hextent.start_lt_stop (hpiece (ne_finish_of_mem_lexFrom hl))
  · obtain ⟨front, piece, back, hsource, hextent, -⟩ := htiled.exists_covers hl
    exact hextent.isValid hsource

end FormulaLang.Lexer
