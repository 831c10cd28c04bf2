import FormulaLang.Expr.Parser
import Mathlib

/-!
# Moving over lexemes

Within a statement a cursor does nothing but record faults and move on. So no lexeme comes back, and
a cursor that has recorded a fault stays silent.

* `at?_of_ne`, `expect_of_ne`: looking for a mark that is missing.
* `Cursor.Step`: a step of a cursor, with `Cursor.Reaches` and `Cursor.Moves` for several steps.
* **`Cursor.Reaches.total`**: at most one fault is recorded within a statement.
* `Cursor.ahead`: the lexemes from the current one on, with `Cursor.Reaches.ahead_suffix`.
* `Cursor.Over`: a silent cursor at the end of the text, which nothing changes.
* `Cursor.Tidy`: the end of the text is behind all lexemes.
* `segments`, `Cursor.weight`: the segments of a text, and what those ahead of a cursor weigh.
-/

namespace FormulaLang

namespace Parser

variable {α β : Type} {c : Cursor} {m : Mark}

/-! ## Steps of parsing -/

theorem run_bind (x : Parse α) (f : α → Parse β) (c : Cursor) :
    (x >>= f) c = f (x c).1 (x c).2 := rfl

theorem isMark_of_ne {t : Token} (h : t ≠ .mark m) : t.isMark m = false := by
  cases t with
  | mark m' =>
    rw [Token.isMark_mark, beq_eq_false_iff_ne]
    rintro rfl
    exact h rfl
  | _ => rfl

theorem at?_of_eq (h : c.current = .mark m) : at? m c = (true, c) := by
  change (c.current.isMark m, c) = _
  rw [h, Token.isMark_mark, beq_self_eq_true]

theorem at?_of_ne (h : c.current ≠ .mark m) : at? m c = (false, c) := by
  change (c.current.isMark m, c) = _
  rw [isMark_of_ne h]

theorem expect_of_eq {what : String} (h : c.current = .mark m) :
    expect m what c = (true, c.advance) := by
  rw [expect, run_bind, at?_of_eq h]
  rfl

theorem expect_of_ne {what : String} (h : c.current ≠ .mark m) :
    expect m what c = (false, c.expected what) := by
  rw [expect, run_bind, at?_of_ne h]
  rfl

namespace Cursor

/-- A step of a cursor: it records a fault, unless it is silent, or moves on. -/
inductive Step (c : Cursor) : Cursor → Prop
  | note (e : Located) : Step c (c.note e)
  | advance : Step c c.advance

/-- What a cursor comes to within a statement. -/
abbrev Reaches : Cursor → Cursor → Prop := Relation.ReflTransGen Step

/-- What a cursor comes to within a statement in at least one step. -/
abbrev Moves : Cursor → Cursor → Prop := Relation.TransGen Step

variable {c' : Cursor}

theorem moves_note (e : Located) : c.Moves (c.note e) := .single (.note e)

theorem moves_advance : c.Moves c.advance := .single .advance

theorem moves_expected (what : String) : c.Moves (c.expected what) := moves_note _

theorem unexpected_eq (c : Cursor) : ∃ e, c.unexpected = c.note e := by
  unfold unexpected
  split <;> exact ⟨_, rfl⟩

theorem moves_unexpected : c.Moves c.unexpected := by
  obtain ⟨e, he⟩ := c.unexpected_eq
  exact he ▸ moves_note e

/-- What every step keeps stays within a statement. -/
theorem Reaches.keeps {P : Cursor → Prop} (h : c.Reaches c') (hc : P c)
    (hnote : ∀ c e, P c → P (c.note e)) (hadvance : ∀ c, P c → P c.advance) : P c' := by
  induction h with
  | refl => exact hc
  | tail _ hs ih =>
    cases hs with
    | note e => exact hnote _ e ih
    | advance => exact hadvance _ ih

/-! ## Faults -/

/-- The number of faults that may still be recorded in the statement. -/
def room (c : Cursor) : Nat := if c.silent then 0 else 1

theorem room_le (c : Cursor) : c.room ≤ 1 := by
  unfold room
  split <;> omega

theorem room_eq_zero : c.room = 0 ↔ c.silent = true := by
  unfold room
  cases c.silent <;> simp

theorem total_note (c : Cursor) (e : Located) :
    (c.note e).faults.size + (c.note e).room = c.faults.size + c.room := by
  unfold note room
  split
  · rfl
  · simp

theorem total_moveTo (ls : List Lexeme) (c : Cursor) :
    (moveTo ls c).faults.size + (moveTo ls c).room = c.faults.size + c.room := by
  induction ls generalizing c with
  | nil => rfl
  | cons l ls ih =>
    obtain ⟨content, x⟩ := l
    cases content with
    | ok t => rfl
    | error f => exact (ih _).trans (total_note c _)

/-- **A fault takes the room for others**, so at most one is recorded within a statement. -/
theorem Reaches.total (h : c.Reaches c') :
    c'.faults.size + c'.room = c.faults.size + c.room :=
  h.keeps (P := fun d => d.faults.size + d.room = c.faults.size + c.room) rfl
    (fun d e hd => (total_note d e).trans hd) fun d hd => (total_moveTo _ d).trans hd

theorem Reaches.size_le (h : c.Reaches c') : c'.faults.size ≤ c.faults.size + 1 := by
  have htotal := h.total
  have hroom := c.room_le
  omega

theorem silent_note (c : Cursor) (e : Located) : (c.note e).silent = true := by
  unfold note
  split
  · next hs => exact hs
  · rfl

theorem not_listens_note {e : Located} (h : (c.note e).silent = false) : False :=
  Bool.false_ne_true (h.symm.trans (silent_note c e))

theorem silent_unexpected (c : Cursor) : c.unexpected.silent = true := by
  obtain ⟨e, he⟩ := c.unexpected_eq
  exact he ▸ silent_note c e

theorem note_of_silent (h : c.silent = true) (e : Located) : c.note e = c := if_pos h

theorem silent_moveTo (ls : List Lexeme) (h : c.silent = true) :
    (moveTo ls c).silent = true := by
  induction ls generalizing c with
  | nil => exact h
  | cons l ls ih =>
    obtain ⟨content, x⟩ := l
    cases content with
    | ok t => exact h
    | error f => exact ih (silent_note c _)

theorem Reaches.silent (h : c.Reaches c') (hs : c.silent = true) : c'.silent = true :=
  h.keeps (P := fun d => d.silent = true) hs (fun d e _ => silent_note d e)
    fun _ hd => silent_moveTo _ hd

/-- Where a fault may still be recorded, none has been. -/
theorem Reaches.listens (h : c.Reaches c') (hs : c'.silent = false) : c.silent = false :=
  Bool.eq_false_iff.2 fun hc => Bool.false_ne_true (hs.symm.trans (h.silent hc))

theorem Moves.listens (h : c.Moves c') (hs : c'.silent = false) : c.silent = false :=
  Reaches.listens h.to_reflTransGen hs

/-- What comes to another cursor without a fault still listens there. -/
theorem Reaches.listens_of_size (h : c.Reaches c') (hs : c.silent = false)
    (hf : c'.faults.size ≤ c.faults.size) : c'.silent = false := by
  have htotal := h.total
  have hroom : c.room = 1 := by rw [room, hs, if_neg Bool.false_ne_true]
  have hne : c'.room ≠ 0 := by omega
  exact Bool.eq_false_iff.2 (mt room_eq_zero.2 hne)

/-- No fault is taken back. -/
theorem Reaches.le_size (h : c.Reaches c') : c.faults.size ≤ c'.faults.size := by
  have htotal := h.total
  by_cases hs : c.silent = true
  · rw [room_eq_zero.2 hs, room_eq_zero.2 (h.silent hs)] at htotal
    omega
  · have hroom : c.room = 1 := by rw [room, if_neg hs]
    have hle := c'.room_le
    omega

/-- What comes to another cursor is silent there, or has moved on. -/
theorem Moves.silent_or_advance (h : c.Moves c') : c'.silent = true ∨ c.advance.Reaches c' := by
  obtain ⟨c₁, hs, hr⟩ := Relation.TransGen.head'_iff.1 h
  cases hs with
  | note e => exact .inl (Reaches.silent hr (silent_note c e))
  | advance => exact .inr hr

/-! ## Lexemes -/

/-- The lexemes from the current one on, unless the text has ended. -/
def ahead (c : Cursor) : List Lexeme :=
  match c.current with
  | .finish => c.rest
  | t => ⟨.ok t, c.extent⟩ :: c.rest

theorem ahead_of_ne (h : c.current ≠ .finish) :
    c.ahead = ⟨.ok c.current, c.extent⟩ :: c.rest := by
  unfold ahead
  split
  · next hc => exact absurd hc h
  · rfl

theorem ne_finish_of_mark {m : Mark} (h : c.current = .mark m) : c.current ≠ .finish := by
  rw [h]
  nofun

theorem rest_suffix_ahead (c : Cursor) : c.rest <:+ c.ahead := by
  unfold ahead
  split
  · exact List.suffix_rfl
  · exact List.suffix_cons _ _

theorem length_ahead_le (c : Cursor) : c.ahead.length ≤ c.rest.length + 1 := by
  unfold ahead
  split
  · exact Nat.le_succ _
  · exact Nat.le_refl _

@[simp] theorem note_current (c : Cursor) (e : Located) : (c.note e).current = c.current := by
  unfold note
  split <;> rfl

@[simp] theorem note_rest (c : Cursor) (e : Located) : (c.note e).rest = c.rest := by
  unfold note
  split <;> rfl

@[simp] theorem unexpected_current (c : Cursor) : c.unexpected.current = c.current := by
  obtain ⟨e, he⟩ := c.unexpected_eq
  exact he ▸ note_current c e

@[simp] theorem unexpected_rest (c : Cursor) : c.unexpected.rest = c.rest := by
  obtain ⟨e, he⟩ := c.unexpected_eq
  exact he ▸ note_rest c e

theorem note_ahead (c : Cursor) (e : Located) : (c.note e).ahead = c.ahead := by
  unfold note
  split <;> rfl

theorem ahead_moveTo_suffix (ls : List Lexeme) (c : Cursor) : (moveTo ls c).ahead <:+ ls := by
  induction ls generalizing c with
  | nil => exact List.suffix_rfl
  | cons l ls ih =>
    obtain ⟨content, x⟩ := l
    cases content with
    | ok t =>
      unfold ahead
      split
      · exact List.suffix_cons _ _
      · exact List.suffix_rfl
    | error f => exact (ih _).trans (List.suffix_cons _ _)

/-- No lexeme comes back. -/
theorem Reaches.ahead_suffix (h : c.Reaches c') : c'.ahead <:+ c.ahead :=
  h.keeps (P := fun d => d.ahead <:+ c.ahead) List.suffix_rfl (fun d e hd => by rwa [note_ahead])
    fun d hd => (ahead_moveTo_suffix _ d).trans (d.rest_suffix_ahead.trans hd)

/-- Moving on takes a lexeme. -/
theorem length_ahead_advance_lt (h : c.current ≠ .finish) :
    c.advance.ahead.length < c.ahead.length := by
  rw [ahead_of_ne h]
  exact Nat.lt_succ_of_le (ahead_moveTo_suffix _ c).length_le

theorem length_rest_moveTo (ls : List Lexeme) (c : Cursor) :
    (moveTo ls c).rest.length ≤ ls.length - 1 := by
  induction ls generalizing c with
  | nil => exact Nat.le_refl _
  | cons l ls ih =>
    obtain ⟨content, x⟩ := l
    cases content with
    | ok t => exact Nat.le_refl _
    | error f => exact Nat.le_trans (ih _) (Nat.sub_le_sub_right (Nat.le_succ _) 1)

/-- Moving on leaves fewer lexemes behind the current one, unless there are none. -/
theorem length_rest_advance (c : Cursor) : c.advance.rest.length ≤ c.rest.length - 1 :=
  length_rest_moveTo _ c

theorem Reaches.length_rest_le (h : c.Reaches c') : c'.rest.length ≤ c.rest.length :=
  h.keeps (P := fun d => d.rest.length ≤ c.rest.length) (Nat.le_refl _)
    (fun d e hd => by rwa [note_rest])
    fun d hd => Nat.le_trans d.length_rest_advance (Nat.le_trans (Nat.sub_le _ _) hd)

/-! ## The end of the text -/

/-- A silent cursor at the end of the text. -/
structure Over (c : Cursor) : Prop where
  current : c.current = .finish
  extent : c.extent = c.ending
  rest : c.rest = []
  silent : c.silent = true

theorem over_advance (hr : c.rest = []) (hs : c.silent = true) : c.advance.Over := by
  unfold advance
  rw [hr]
  exact ⟨rfl, rfl, rfl, hs⟩

theorem Over.advance (h : c.Over) : c.advance = c := by
  change moveTo c.rest c = ⟨c.current, c.extent, c.rest, c.ending, c.faults, c.silent⟩
  rw [h.current, h.extent, h.rest, moveTo]

/-- Nothing changes a cursor at the end of the text that is silent. -/
theorem Over.eq_of_reaches (h : c.Over) (hr : c.Reaches c') : c' = c :=
  hr.keeps (P := fun d => d = c) rfl (fun _ e hd => hd ▸ note_of_silent h.silent e)
    fun _ hd => hd ▸ h.advance

theorem Over.current_of_reaches (h : c.Over) (hr : c.Reaches c') : c'.current = .finish :=
  h.eq_of_reaches hr ▸ h.current

/-- The end of the text comes behind all lexemes. -/
structure Tidy (c : Cursor) : Prop where
  rest_eq_nil : c.current = .finish → c.rest = []
  ne_finish : ∀ l ∈ c.rest, l.content ≠ .ok .finish

theorem tidy_moveTo {ls : List Lexeme} (h : ∀ l ∈ ls, l.content ≠ .ok .finish) (c : Cursor) :
    (moveTo ls c).Tidy := by
  induction ls generalizing c with
  | nil => exact ⟨fun _ => rfl, nofun⟩
  | cons l ls ih =>
    have hls := fun l' hl => h l' (List.mem_cons_of_mem l hl)
    obtain ⟨content, x⟩ := l
    cases content with
    | ok t =>
      refine ⟨fun ht => ?_, hls⟩
      have ht : t = .finish := ht
      exact absurd (congrArg Except.ok ht) (h _ List.mem_cons_self)
    | error f => exact ih hls _

theorem Reaches.tidy (h : c.Reaches c') (hc : c.Tidy) : c'.Tidy :=
  h.keeps hc
    (fun d e hd => ⟨by simpa using hd.rest_eq_nil, by simpa using hd.ne_finish⟩)
    fun d hd => tidy_moveTo hd.ne_finish d

end Cursor

end Parser

/-! ## Segments -/

/-- The lexeme is a semicolon. -/
def Lexeme.isSemicolon (l : Lexeme) : Bool :=
  match l.content with
  | .ok t => t.isMark .semicolon
  | .error _ => false

/-- The lexeme is a lexical fault. -/
def Lexeme.isFault (l : Lexeme) : Bool :=
  match l.content with
  | .ok _ => false
  | .error _ => true

namespace Parser

/-- The segments of a text between its semicolons. -/
def segments (ls : List Lexeme) : List (List Lexeme) := ls.splitOnP Lexeme.isSemicolon

section Segments

variable {w : List Lexeme → Nat} {l : Lexeme} {ls ls' : List Lexeme} {c c' : Cursor}

theorem exists_segments (ls : List Lexeme) : ∃ first more, segments ls = first :: more :=
  List.exists_cons_of_ne_nil (List.splitOnP_ne_nil _ _)

theorem segments_of_semicolon (h : l.isSemicolon = true) (ls : List Lexeme) :
    segments (l :: ls) = [] :: segments ls := by
  rw [segments, List.splitOnP_cons_eq_if_modifyHead, if_pos h, segments]

theorem segments_of_not_semicolon (h : l.isSemicolon = false) (ls : List Lexeme) :
    segments (l :: ls) = (segments ls).modifyHead (l :: ·) := by
  rw [segments, List.splitOnP_cons_eq_if_modifyHead, h]
  rfl

/-- A lexeme that is no semicolon stands in front of the first segment behind it. -/
theorem exists_of_segments_cons {first : List Lexeme} {more : List (List Lexeme)}
    (h : l.isSemicolon = false) (hs : segments (l :: ls) = first :: more) :
    ∃ first', first = l :: first' ∧ segments ls = first' :: more := by
  obtain ⟨first', more', hs'⟩ := exists_segments ls
  rw [segments_of_not_semicolon h, hs', List.modifyHead_cons, List.cons.injEq] at hs
  obtain ⟨rfl, rfl⟩ := hs
  exact ⟨first', rfl, hs'⟩

/-- Every semicolon begins a segment. -/
theorem length_segments (ls : List Lexeme) :
    (segments ls).length = ls.countP Lexeme.isSemicolon + 1 := by
  induction ls with
  | nil => rfl
  | cons l ls ih =>
    cases h : l.isSemicolon with
    | true => rw [segments_of_semicolon h, List.countP_cons_of_pos h, List.length_cons, ih]
    | false =>
      rw [segments_of_not_semicolon h, List.length_modifyHead, ih,
        List.countP_cons_of_neg (Bool.eq_false_iff.1 h)]

/-- The weight of a segment: `k`, and one more for what has the property `q`. -/
def segmentWeight (k : Nat) (q : List Lexeme → Bool) (segment : List Lexeme) : Nat :=
  k + (q segment).toNat

theorem sum_segmentWeight (k : Nat) (q : List Lexeme → Bool) (ss : List (List Lexeme)) :
    (ss.map (segmentWeight k q)).sum = k * ss.length + ss.countP q := by
  induction ss with
  | nil => rfl
  | cons s ss ih =>
    have hq : ss.countP q + (q s).toNat = (s :: ss).countP q := by
      rw [List.countP_cons]
      cases q s <;> rfl
    rw [List.map_cons, List.sum_cons, ih, segmentWeight, List.length_cons, Nat.mul_succ, ← hq]
    omega

/-- The segment has a token, and so a statement may begin in it. -/
def hasToken (segment : List Lexeme) : Bool := segment.any fun l => !l.isFault

/-- What the segments weigh that begin behind some lexemes, each of them as `w` says. -/
def weightBehind (w : List Lexeme → Nat) (ls : List Lexeme) : Nat :=
  ((segments ls).tail.map w).sum

theorem weightBehind_of_semicolon (h : l.isSemicolon = true) (ls : List Lexeme) :
    weightBehind w (l :: ls) = ((segments ls).map w).sum := by
  rw [weightBehind, segments_of_semicolon h, List.tail_cons]

theorem weightBehind_of_not_semicolon (h : l.isSemicolon = false) (ls : List Lexeme) :
    weightBehind w (l :: ls) = weightBehind w ls := by
  obtain ⟨first, more, hs⟩ := exists_segments ls
  rw [weightBehind, segments_of_not_semicolon h, weightBehind, hs]
  rfl

theorem sum_segments {first : List Lexeme} {more : List (List Lexeme)}
    (h : segments ls = first :: more) :
    ((segments ls).map w).sum = w first + weightBehind w ls := by
  rw [weightBehind, h, List.map_cons, List.sum_cons, List.tail_cons]

theorem weightBehind_le (w : List Lexeme → Nat) (ls : List Lexeme) :
    weightBehind w ls ≤ ((segments ls).map w).sum := by
  obtain ⟨first, more, h⟩ := exists_segments ls
  rw [sum_segments h]
  exact Nat.le_add_left _ _

theorem weightBehind_le_of_suffix (h : ls' <:+ ls) : weightBehind w ls' ≤ weightBehind w ls := by
  obtain ⟨front, rfl⟩ := h
  induction front with
  | nil => exact Nat.le_refl _
  | cons l front ih =>
    refine Nat.le_trans ih ?_
    rw [List.cons_append]
    cases hl : l.isSemicolon with
    | true =>
      rw [weightBehind_of_semicolon hl]
      exact weightBehind_le w _
    | false => rw [weightBehind_of_not_semicolon hl]

/-- A statement begins at the cursor. -/
def Cursor.opens (c : Cursor) : Nat :=
  match c.current with
  | .finish | .mark .semicolon => 0
  | _ => 1

theorem Cursor.opens_le (c : Cursor) : c.opens ≤ 1 := by
  unfold opens
  split <;> omega

/-- The weight of the segments ahead: that of a segment which has begun is one. -/
def Cursor.weight (w : List Lexeme → Nat) (c : Cursor) : Nat := c.opens + weightBehind w c.ahead

theorem Cursor.weight_of_semicolon (h : c.current = .mark .semicolon) :
    c.weight w = ((segments c.rest).map w).sum := by
  have hopens : c.opens = 0 := by rw [opens, h]
  rw [weight, hopens, ahead_of_ne (ne_finish_of_mark h), weightBehind_of_semicolon (by rw [h]; rfl),
    Nat.zero_add]

/-- A cursor that moves to the first token of some lexemes stands in the first segment, unless that
has no token. -/
theorem Cursor.weight_moveTo_le {first : List Lexeme} {more : List (List Lexeme)}
    (hs : segments ls = first :: more) (c : Cursor) :
    (moveTo ls c).weight w ≤ (hasToken first).toNat + weightBehind w ls := by
  induction ls generalizing first more c with
  | nil => exact Nat.zero_le _
  | cons l ls ih =>
    obtain ⟨content, x⟩ := l
    cases content with
    | ok t =>
      have hbehind := weightBehind_le_of_suffix (w := w) (ahead_moveTo_suffix (⟨.ok t, x⟩ :: ls) c)
      by_cases ht : t = .mark .semicolon
      · subst ht
        exact Nat.add_le_add (Nat.zero_le _) hbehind
      · have hl : Lexeme.isSemicolon ⟨.ok t, x⟩ = false := isMark_of_ne ht
        obtain ⟨first', rfl, -⟩ := exists_of_segments_cons hl hs
        exact Nat.add_le_add (opens_le _) hbehind
    | error f =>
      obtain ⟨first', rfl, hs'⟩ := exists_of_segments_cons rfl hs
      rw [weightBehind_of_not_semicolon rfl]
      exact ih hs' _

/-- A statement takes the weight of the segment in which it begins. -/
theorem Cursor.Reaches.weight_lt (h : c.Reaches c') (hfinish : c.current ≠ .finish)
    (hsemicolon : c.current ≠ .mark .semicolon)
    (hend : c'.current = .finish ∨ c'.current = .mark .semicolon) : c'.weight w < c.weight w := by
  have hclosed : c'.opens = 0 := by rcases hend with h | h <;> rw [opens, h]
  have hopens : c.opens = 1 := by
    unfold opens
    split
    · next hc => exact absurd hc hfinish
    · next hc => exact absurd hc hsemicolon
    · rfl
  have hle : weightBehind w c'.ahead ≤ weightBehind w c.ahead :=
    weightBehind_le_of_suffix h.ahead_suffix
  rw [weight, weight, hclosed, hopens]
  omega

end Segments

end Parser

end FormulaLang
