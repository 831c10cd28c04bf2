import FormulaLang.Settings
import Mathlib.Data.List.Basic
import Mathlib.Data.List.Induction
import Mathlib.Data.List.TakeWhile
import Mathlib.Data.Nat.Digits.Defs

/-!
# The settings of a text

A line of a settings text is blank, a comment, an assignment or wrong. Of several assignments of a
setting the last one counts, and wrong lines are reported and change nothing.

* `Text.exists_trim`, `Text.trimBlanks_eq`: what trimming leaves.
* `Text.flatten_splitLines`, `Text.not_mem_splitLines`: the lines of a text.
* `SettingKey`, `Setting.Written`: the settings and the values that they take, by their characters.
* `Assigns`, `Comment`, `Wrong`: the lines of a settings text, by their characters.
* **`readLine_eq_some`**, `readLine_eq_none`: reading a line tells which it is.
* `Settings.loadLines_eq`: loading lines, without the recursion.
* **`Settings.load_last_wins`**: the settings and the problems of a text.
-/

namespace FormulaLang

/-! ## Trimming -/

namespace Text

variable {cs ls rs core : List Char} {c : Char}

/-- Nothing but blanks. -/
def Blank (cs : List Char) : Prop := ∀ c ∈ cs, isBlank c

theorem Blank.nil : Blank [] := fun _ h => nomatch h

theorem Blank.append (hl : Blank ls) (hr : Blank rs) : Blank (ls ++ rs) := fun c hc =>
  (List.mem_append.1 hc).elim (hl c) (hr c)

/-- Trimming takes blanks off both ends. -/
theorem exists_trim (cs : List Char) :
    ∃ ls rs, cs = ls ++ trimBlanks cs ++ rs ∧ Blank ls ∧ Blank rs := by
  have hright :=
    List.takeWhile_append_dropWhile (p := isBlank) (l := (cs.dropWhile isBlank).reverse)
  refine ⟨cs.takeWhile isBlank, ((cs.dropWhile isBlank).reverse.takeWhile isBlank).reverse, ?_,
    fun c hc => List.mem_takeWhile_imp hc, fun c hc => ?_⟩
  · conv_lhs => rw [← List.takeWhile_append_dropWhile (p := isBlank) (l := cs)]
    rw [trimBlanks, List.append_assoc, ← List.reverse_append, hright, List.reverse_reverse]
  · exact List.mem_takeWhile_imp (List.mem_reverse.1 hc)

theorem dropWhile_of_head? (h : ∀ c ∈ cs.head?, isBlank c = false) :
    cs.dropWhile isBlank = cs := by
  cases cs with
  | nil => rfl
  | cons c cs => exact List.dropWhile_cons_of_neg (by simp [h c rfl])

/-- A text between blanks that begins and ends with other characters is what trimming leaves. -/
theorem trimBlanks_eq (hl : Blank ls) (hr : Blank rs) (hne : core ≠ [])
    (hfirst : ∀ c ∈ core.head?, isBlank c = false)
    (hlast : ∀ c ∈ core.getLast?, isBlank c = false) : trimBlanks (ls ++ core ++ rs) = core := by
  have hleft : (ls ++ core ++ rs).dropWhile isBlank = core ++ rs := by
    rw [List.append_assoc, List.dropWhile_append_of_pos hl]
    refine dropWhile_of_head? fun c hc => hfirst c ?_
    rwa [List.head?_append_of_ne_nil core hne] at hc
  have hright : (core ++ rs).reverse.dropWhile isBlank = core.reverse := by
    rw [List.reverse_append, List.dropWhile_append_of_pos fun c hc => hr c (List.mem_reverse.1 hc)]
    exact dropWhile_of_head? fun c hc => hlast c (by rwa [List.head?_reverse] at hc)
  rw [trimBlanks, hleft, hright, List.reverse_reverse]

/-- A text that begins with another character behind blanks begins with it after trimming. -/
theorem trimBlanks_cons (hl : Blank ls) (hc : isBlank c = false) (rest : List Char) :
    ∃ core, trimBlanks (ls ++ c :: rest) = c :: core := by
  rw [trimBlanks, List.dropWhile_append_of_pos hl, List.dropWhile_cons_of_neg (by simp [hc]),
    List.reverse_cons, List.dropWhile_append]
  split
  · rw [List.dropWhile_cons_of_neg (by simp [hc])]
    exact ⟨[], rfl⟩
  · exact ⟨_, List.reverse_concat⟩

theorem trimBlanks_eq_nil_iff : trimBlanks cs = [] ↔ Blank cs := by
  refine ⟨fun h => ?_, fun h => ?_⟩
  · obtain ⟨ls, rs, hcs, hl, hr⟩ := exists_trim cs
    rw [hcs, h, List.append_nil]
    exact hl.append hr
  · rw [trimBlanks, List.dropWhile_eq_nil_iff.2 h]
    rfl

/-! ## Lines -/

/-- The lines with a line end behind each are the text, with a line end if it lacks one. -/
theorem flatten_splitLines (cs : List Char) :
    ((splitLines cs).map (· ++ ['\n'])).flatten =
      if cs = [] ∨ cs.getLast? = some '\n' then cs else cs ++ ['\n'] := by
  induction cs with
  | nil => rfl
  | cons c rest ih =>
    cases rest with
    | nil => by_cases hc : c = '\n' <;> simp [splitLines, hc]
    | cons d rest =>
      rw [List.getLast?_cons_cons]
      simp only [reduceCtorEq, false_or] at ih ⊢
      rw [splitLines]
      split
      · next hc =>
        rw [List.map_cons, List.flatten_cons, ih, hc]
        split <;> rfl
      · split
        · next hlines => rw [hlines] at ih; split at ih <;> simp at ih
        · next line lines hlines =>
          rw [hlines, List.map_cons, List.flatten_cons] at ih
          rw [List.map_cons, List.flatten_cons, List.cons_append, List.cons_append, ih]
          split <;> rfl

/-- No line has a line end in it. -/
theorem not_mem_splitLines (cs : List Char) : ∀ line ∈ splitLines cs, '\n' ∉ line := by
  induction cs with
  | nil => exact fun line h => nomatch h
  | cons c rest ih =>
    rw [splitLines]
    split
    · exact List.forall_mem_cons.2 ⟨List.not_mem_nil, ih⟩
    · next hc =>
      split
      · simp [Ne.symm hc]
      · next line lines hlines =>
        rw [hlines] at ih
        obtain ⟨hline, htail⟩ := List.forall_mem_cons.1 ih
        exact List.forall_mem_cons.2 ⟨by simp [Ne.symm hc, hline], htail⟩

end Text

/-! ## Keys and values -/

/-- Which setting. -/
inductive SettingKey where
  | catalog
  | callDepth
  | parseDepth
  | stackLimit
  | initialHeap
  deriving DecidableEq, Repr

/-- The name of a setting in a text. -/
def SettingKey.name : SettingKey → String
  | .catalog => "register_builtins"
  | .callDepth => "max_call_depth"
  | .parseDepth => "max_parse_depth"
  | .stackLimit => "vm_stack_limit"
  | .initialHeap => "vm_initial_heap"

/-- Which setting has the value. -/
def Setting.key : Setting → SettingKey
  | .catalog _ => .catalog
  | .callDepth _ => .callDepth
  | .parseDepth _ => .parseDepth
  | .stackLimit _ => .stackLimit
  | .initialHeap _ => .initialHeap

/-- The value of a setting. -/
def Settings.get (s : Settings) : SettingKey → Setting
  | .catalog => .catalog s.catalog
  | .callDepth => .callDepth s.callDepth
  | .parseDepth => .parseDepth s.parseDepth
  | .stackLimit => .stackLimit s.stackLimit
  | .initialHeap => .initialHeap s.initialHeap

theorem Settings.get_apply (s : Settings) (x : Setting) (key : SettingKey) :
    (s.apply x).get key = if x.key = key then x else s.get key := by
  cases x <;> cases key <;> rfl

/-- A word for the truth value, in any mix of upper and lower case. -/
def TruthWord (value : String) : Bool → Prop
  | true => value.map Char.toLower ∈ ["true", "on", "yes", "1"]
  | false => value.map Char.toLower ∈ ["false", "off", "no", "0"]

/-- Decimal digits of the number, maybe with a plus sign in front; it has at most 64 bits. -/
def CountWord (value : String) (n : Nat) : Prop :=
  ∃ digits : List Char, (value.toList = digits ∨ value.toList = '+' :: digits) ∧ digits ≠ [] ∧
    (∀ c ∈ digits, c.isDigit) ∧ n < 2 ^ 64 ∧
    Nat.ofDigits 10 (digits.reverse.map fun c => c.toNat - '0'.toNat) = n

/-- The text is a value for the setting, and this one. -/
def Setting.Written (value : String) : Setting → Prop
  | .catalog b => TruthWord value b
  | .callDepth n | .parseDepth n | .stackLimit n | .initialHeap n => CountWord value n

theorem readBool?_eq_some {value : String} {b : Bool} :
    readBool? value = some b ↔ TruthWord value b := by
  rw [readBool?]
  split
  · next h =>
    cases b with
    | true => simpa [TruthWord] using h
    | false => rcases h with h | h | h | h <;> simp [TruthWord, h]
  · next htrue =>
    split
    · next h =>
      cases b with
      | true => rcases h with h | h | h | h <;> simp [TruthWord, h]
      | false => simpa [TruthWord] using h
    · next hfalse => cases b <;> simp_all [TruthWord]

/-! ## Counts -/

section Counts

variable {c : Char} {digits : List Char}

theorem digitValue?_of_isDigit (h : c.isDigit) :
    Number.digitValue? c = some (c.toNat - '0'.toNat) := by
  simp only [Char.isDigit, Bool.and_eq_true, decide_eq_true_eq] at h
  exact if_pos h

theorem isDigitOf_ten : Number.isDigitOf 10 c = c.isDigit := by
  by_cases h : c.isDigit
  · have hle : c.toNat ≤ '9'.toNat := by
      simp only [Char.isDigit, Bool.and_eq_true, decide_eq_true_eq] at h
      exact h.2
    rw [Number.isDigitOf, digitValue?_of_isDigit h, h]
    exact decide_eq_true (Nat.lt_succ_of_le (Nat.sub_le_sub_right hle '0'.toNat))
  · have hnot : ¬ ('0' ≤ c ∧ c ≤ '9') := fun h' => h (by
      simp only [Char.isDigit, Bool.and_eq_true, decide_eq_true_eq]
      exact h')
    rw [Number.isDigitOf, Number.digitValue?, if_neg hnot, eq_false_of_ne_true h]
    split
    · simp
    · split <;> simp

/-- Reading digits from the left gives the number that they are the digits of. -/
theorem foldDigits_eq (h : ∀ c ∈ digits, c.isDigit) : Number.foldDigits 10 0 digits =
    Nat.ofDigits 10 (digits.reverse.map fun c => c.toNat - '0'.toNat) := by
  rw [Nat.ofDigits_eq_foldr, List.map_reverse, List.foldr_reverse, List.foldl_map,
    Number.foldDigits]
  refine List.foldl_ext _ _ 0 fun n c hc => ?_
  rw [digitValue?_of_isDigit (h c hc), Option.getD_some, Nat.add_comm]
  rfl

theorem ofDigits?_eq_some {n : Nat} : Number.ofDigits? 10 digits = some n ↔
    digits ≠ [] ∧ (∀ c ∈ digits, c.isDigit) ∧
      Nat.ofDigits 10 (digits.reverse.map fun c => c.toNat - '0'.toNat) = n := by
  have hall : (!digits.isEmpty && digits.all (Number.isDigitOf 10)) = true ↔
      digits ≠ [] ∧ ∀ c ∈ digits, c.isDigit := by
    simp [isDigitOf_ten]
  rw [Number.ofDigits?]
  split
  · next h =>
    rw [hall] at h
    rw [Option.some.injEq, foldDigits_eq h.2]
    exact ⟨fun hn => ⟨h.1, h.2, hn⟩, fun hn => hn.2.2⟩
  · next h =>
    rw [hall] at h
    exact iff_of_false nofun fun h' => h ⟨h'.1, h'.2.1⟩

theorem readCount?_eq_some {value : String} {n : Nat} :
    readCount? value = some n ↔ CountWord value n := by
  rw [readCount?, Option.filter_eq_some_iff, decide_eq_true_eq, ofDigits?_eq_some]
  split
  · next digits hplus =>
    refine ⟨fun ⟨⟨hne, hall, hn⟩, hlt⟩ => ⟨digits, .inr hplus, hne, hall, hlt, hn⟩, ?_⟩
    rintro ⟨digits', hvalue | hvalue, hne, hall, hlt, hn⟩
    · -- A plus sign is no digit.
      rw [hplus] at hvalue
      subst hvalue
      exact absurd (hall '+' List.mem_cons_self) (by decide)
    · rw [hplus] at hvalue
      cases hvalue
      exact ⟨⟨hne, hall, hn⟩, hlt⟩
  · next digits hplus =>
    refine ⟨fun ⟨⟨hne, hall, hn⟩, hlt⟩ => ⟨value.toList, .inl rfl, hne, hall, hlt, hn⟩, ?_⟩
    rintro ⟨digits', hvalue | hvalue, hne, hall, hlt, hn⟩
    · rw [hvalue]
      exact ⟨⟨hne, hall, hn⟩, hlt⟩
    · exact absurd hvalue (hplus digits')

end Counts

/-! ## Settings by their keys and values -/

section Values

variable {value : String} {x : Setting}

theorem isBlank_of_isDigit {c : Char} (h : c.isDigit) : Text.isBlank c = false := by
  simp only [Char.isDigit, Bool.and_eq_true, decide_eq_true_eq] at h
  have hlow : 48 ≤ c.toNat := h.1
  have hhigh : c.toNat ≤ 57 := h.2
  simp only [Text.isBlank, Bool.or_eq_false_iff, Bool.and_eq_false_iff, decide_eq_false_iff_not,
    beq_eq_false_iff_ne]
  omega

theorem isBlank_of_toLower {c : Char} (h : Text.isBlank c.toLower = false) :
    Text.isBlank c = false := by
  by_cases hupper : c.val ≥ 'A'.val ∧ c.val ≤ 'Z'.val
  · have hlow : 65 ≤ c.toNat := hupper.1
    have hhigh : c.toNat ≤ 90 := hupper.2
    simp only [Text.isBlank, Bool.or_eq_false_iff, Bool.and_eq_false_iff, decide_eq_false_iff_not,
      beq_eq_false_iff_ne]
    omega
  · have hsame : c.toLower = c := dif_neg hupper
    rwa [hsame] at h

theorem TruthWord.word {b : Bool} (h : TruthWord value b) :
    value.toList ≠ [] ∧ ∀ c ∈ value.toList, Text.isBlank c = false := by
  have hword : (value.map Char.toLower).toList ≠ [] ∧
      ∀ c ∈ (value.map Char.toLower).toList, Text.isBlank c = false := by
    have hmem : value.map Char.toLower ∈
        ["true", "on", "yes", "1"] ++ ["false", "off", "no", "0"] := by
      cases b with
      | true => exact List.mem_append_left _ h
      | false => exact List.mem_append_right _ h
    have hwords : ((["true", "on", "yes", "1"] ++ ["false", "off", "no", "0"]).all fun word =>
        !word.toList.isEmpty && word.toList.all fun c => !Text.isBlank c) = true := by decide
    simpa using List.all_eq_true.1 hwords _ hmem
  rw [String.toList_map] at hword
  exact ⟨fun hnil => hword.1 (List.map_eq_nil_iff.2 hnil),
    fun c hc => isBlank_of_toLower (hword.2 _ (List.mem_map_of_mem hc))⟩

theorem CountWord.word {n : Nat} (h : CountWord value n) :
    value.toList ≠ [] ∧ ∀ c ∈ value.toList, Text.isBlank c = false := by
  obtain ⟨digits, hvalue, hne, hall, -⟩ := h
  have hdigits : ∀ c ∈ digits, Text.isBlank c = false := fun c hc => isBlank_of_isDigit (hall c hc)
  rcases hvalue with h | h <;> rw [h]
  · exact ⟨hne, hdigits⟩
  · exact ⟨List.cons_ne_nil _ _, List.forall_mem_cons.2 ⟨rfl, hdigits⟩⟩

/-- Values are words without blanks. -/
theorem Setting.Written.word (h : x.Written value) :
    value.toList ≠ [] ∧ ∀ c ∈ value.toList, Text.isBlank c = false := by
  cases x with
  | catalog b => exact TruthWord.word h
  | callDepth n | parseDepth n | stackLimit n | initialHeap n => exact CountWord.word h

theorem readSetting_eq_ok {key : String} :
    readSetting key value = .ok x ↔ key = x.key.name ∧ x.Written value := by
  constructor
  · intro h
    rw [readSetting] at h
    dsimp only at h
    repeat' split at h
    all_goals cases h
    · next hkey _ b hb => exact ⟨hkey, readBool?_eq_some.1 hb⟩
    all_goals next hkey _ n hn => exact ⟨hkey, readCount?_eq_some.1 hn⟩
  · rintro ⟨rfl, h⟩
    cases x with
    | catalog b =>
      rw [Setting.Written, ← readBool?_eq_some] at h
      simp [readSetting, Setting.key, SettingKey.name, h]
    | callDepth n | parseDepth n | stackLimit n | initialHeap n =>
      rw [Setting.Written, ← readCount?_eq_some] at h
      simp [readSetting, Setting.key, SettingKey.name, h]

end Values

/-! ## Lines of a settings text -/

section Lines

variable {line : List Char} {x y : Setting}

/-- A line that begins with `#` or `;`, maybe behind blanks. -/
def Comment (line : List Char) : Prop :=
  ∃ blanks c rest, line = blanks ++ c :: rest ∧ Text.Blank blanks ∧ (c = '#' ∨ c = ';')

/-- A line `key = value` for a value of a setting, with blanks anywhere around the two. -/
def Assigns (line : List Char) (x : Setting) : Prop :=
  ∃ (a b c d : List Char) (value : String),
    Text.Blank a ∧ Text.Blank b ∧ Text.Blank c ∧ Text.Blank d ∧ x.Written value ∧
      line = a ++ x.key.name.toList ++ b ++ '=' :: (c ++ value.toList ++ d)

/-- A line that says something else. -/
def Wrong (line : List Char) : Prop :=
  ¬ Text.Blank line ∧ ¬ Comment line ∧ ∀ x, ¬ Assigns line x

theorem readLine_eq_none : readLine line = .ok none ↔ Text.Blank line ∨ Comment line := by
  constructor
  · intro h
    obtain ⟨ls, rs, hline, hl, hr⟩ := Text.exists_trim line
    rw [readLine] at h
    dsimp only at h
    split at h
    · next htrim => exact .inl (Text.trimBlanks_eq_nil_iff.1 htrim)
    · next rest htrim =>
      rw [htrim, List.append_assoc] at hline
      exact .inr ⟨ls, '#', rest ++ rs, hline, hl, .inl rfl⟩
    · next rest htrim =>
      rw [htrim, List.append_assoc] at hline
      exact .inr ⟨ls, ';', rest ++ rs, hline, hl, .inr rfl⟩
    · split at h
      · cases hx : readSetting _ _ with
        | error p => rw [hx] at h; cases h
        | ok x => rw [hx] at h; cases h
      · cases h
  · rintro (h | ⟨blanks, c, rest, rfl, hblanks, hc⟩)
    · rw [readLine, Text.trimBlanks_eq_nil_iff.2 h]
    · have hvisible : Text.isBlank c = false := by rcases hc with rfl | rfl <;> rfl
      obtain ⟨core, hcore⟩ := Text.trimBlanks_cons hblanks hvisible rest
      rw [readLine, hcore]
      rcases hc with rfl | rfl <;> rfl

/-- Names of settings are words without blanks, equals signs and marks of comments. -/
theorem SettingKey.name_word (key : SettingKey) : ∃ first rest,
    key.name.toList = first :: rest ∧ first ≠ '#' ∧ first ≠ ';' ∧
      ∀ c ∈ first :: rest, Text.isBlank c = false ∧ c ≠ '=' := by
  have hplain : ∀ name : List Char, (name.all fun c => !Text.isBlank c && c != '=') = true →
      ∀ c ∈ name, Text.isBlank c = false ∧ c ≠ '=' := by
    intro name h c hc
    simpa using List.all_eq_true.1 h c hc
  cases key <;> exact ⟨_, _, rfl, by decide, by decide, hplain _ rfl⟩

/-- What is in front of the first equals sign of a line and behind it. -/
theorem split_equals {before : List Char} (h : '=' ∉ before) (after : List Char) :
    (before ++ '=' :: after).takeWhile (· ≠ '=') = before ∧
      ((before ++ '=' :: after).dropWhile (· ≠ '=')).drop 1 = after := by
  have hbefore : ∀ c ∈ before, decide (c ≠ '=') = true := fun c hc =>
    decide_eq_true fun heq => h (heq ▸ hc)
  rw [List.takeWhile_append_of_pos hbefore, List.dropWhile_append_of_pos hbefore]
  simp

/-- Reading a line that has an equals sign and neither is blank nor a comment. -/
theorem readLine_of_equals {first : Char} {core before after : List Char}
    (htrim : Text.trimBlanks line = first :: core) (hhash : first ≠ '#') (hsemi : first ≠ ';')
    (hcore : first :: core = before ++ '=' :: after) (hbefore : '=' ∉ before) :
    readLine line = (readSetting (String.ofList (Text.trimBlanks before))
      (String.ofList (Text.trimBlanks after))).map some := by
  have hmem : '=' ∈ first :: core := by simp [hcore]
  have hsplit := split_equals hbefore after
  rw [← hcore] at hsplit
  rw [readLine, htrim]
  dsimp only
  split
  · next h => cases h
  · next h => exact absurd (List.cons.inj h).1 hhash
  · next h => exact absurd (List.cons.inj h).1 hsemi
  · rw [if_pos hmem, hsplit.1, hsplit.2]

/-- **Reading a line** gives a setting just if the line assigns it. -/
theorem readLine_eq_some : readLine line = .ok (some x) ↔ Assigns line x := by
  constructor
  · intro h
    obtain ⟨ls, rs, hline, hl, hr⟩ := Text.exists_trim line
    rw [readLine] at h
    dsimp only at h
    split at h
    iterate 3 cases h
    split at h
    · next hmem =>
      obtain ⟨before, after, hcore, hbefore⟩ := List.eq_append_cons_of_mem hmem
      have hsplit := split_equals hbefore after
      rw [hcore] at h hline
      rw [hsplit.1, hsplit.2] at h
      cases hx : readSetting _ _ with
      | error p => rw [hx] at h; cases h
      | ok x =>
        rw [hx] at h
        cases h
        obtain ⟨hkey, hvalue⟩ := readSetting_eq_ok.1 hx
        obtain ⟨ls', b, hls', hl', hb⟩ := Text.exists_trim before
        obtain ⟨c, rs', hrs', hc, hr'⟩ := Text.exists_trim after
        refine ⟨ls ++ ls', b, c, rs' ++ rs, _, hl.append hl', hb, hc, hr'.append hr, hvalue, ?_⟩
        rw [← hkey, String.toList_ofList, String.toList_ofList, hline]
        conv_lhs => rw [hls', hrs']
        simp only [List.append_assoc, List.cons_append]
    · cases h
  · rintro ⟨a, b, c, d, value, ha, hb, hc, hd, hvalue, hline⟩
    obtain ⟨first, rest, hname, hhash, hsemi, hword⟩ := x.key.name_word
    obtain ⟨hne, hvisible⟩ := hvalue.word
    have hkey : Text.trimBlanks (first :: rest ++ b) = first :: rest :=
      Text.trimBlanks_eq Text.Blank.nil hb (List.cons_ne_nil _ _)
        (fun c hc => (hword c (List.mem_of_mem_head? hc)).1)
        (fun c hc => (hword c (List.mem_of_mem_getLast? hc)).1)
    have hrest : Text.trimBlanks (c ++ value.toList) = value.toList := by
      rw [← List.append_nil (c ++ value.toList)]
      exact Text.trimBlanks_eq hc Text.Blank.nil hne
        (fun c hc => hvisible c (List.mem_of_mem_head? hc))
        (fun c hc => hvisible c (List.mem_of_mem_getLast? hc))
    have htrim : Text.trimBlanks line = first :: rest ++ b ++ '=' :: (c ++ value.toList) := by
      have hcore : line = a ++ (first :: rest ++ b ++ '=' :: (c ++ value.toList)) ++ d := by
        rw [hline, hname]
        simp only [List.append_assoc, List.cons_append]
      rw [hcore]
      refine Text.trimBlanks_eq ha hd (List.cons_ne_nil _ _) (fun e he => ?_) fun e he => ?_
      · cases he
        exact (hword first List.mem_cons_self).1
      · rw [List.getLast?_append_of_ne_nil _ (List.cons_ne_nil _ _), ← List.cons_append,
          List.getLast?_append_of_ne_nil _ hne] at he
        exact hvisible e (List.mem_of_mem_getLast? he)
    have hequals : '=' ∉ first :: rest ++ b := fun hmem =>
      (List.mem_append.1 hmem).elim (fun h => (hword _ h).2 rfl)
        fun h => absurd (hb _ h) (by decide)
    rw [readLine_of_equals htrim hhash hsemi rfl hequals, hkey, hrest, ← hname,
      String.ofList_toList, String.ofList_toList, readSetting_eq_ok.2 ⟨rfl, hvalue⟩]
    rfl

theorem readLine_eq_error : (∃ p, readLine line = .error p) ↔ Wrong line := by
  rw [Wrong, ← and_assoc, ← not_or, ← readLine_eq_none]
  simp only [← readLine_eq_some]
  cases readLine line with
  | error p => simp
  | ok o => cases o <;> simp

/-- A line assigns one setting at most. -/
theorem Assigns.unique (hx : Assigns line x) (hy : Assigns line y) : x = y := by
  rw [← readLine_eq_some] at hx hy
  rw [hx] at hy
  cases hy
  rfl

end Lines

/-! ## Loading -/

namespace Settings

variable {lines before after : List (List Char)} {line : List Char} {x : Setting} {n : Nat}
  {s : Settings}

/-- The setting that a line assigns. -/
def assigned? (line : List Char) : Option Setting :=
  match readLine line with
  | .ok x => x
  | .error _ => none

/-- The problem of a line with its number. -/
def problem? (p : List Char × Nat) : Option SettingsProblem :=
  match readLine p.1 with
  | .ok _ => none
  | .error problem => some ⟨p.2, problem⟩

theorem assigned?_eq_some : assigned? line = some x ↔ Assigns line x := by
  rw [← readLine_eq_some, assigned?]
  split
  · next h => rw [h, Except.ok.injEq]
  · next h => rw [h]; exact iff_of_false nofun nofun

theorem assigned?_of_wrong (h : Wrong line) : assigned? line = none := by
  obtain ⟨p, hp⟩ := readLine_eq_error.2 h
  rw [assigned?, hp]

/-- **Loading lines** takes the assigned settings one after the other, and the problems. -/
theorem loadLines_eq (n : Nat) (lines : List (List Char)) (s : Settings) :
    loadLines n lines s =
      ((lines.filterMap assigned?).foldl apply s, (lines.zipIdx n).filterMap problem?) := by
  induction lines generalizing n s with
  | nil => rfl
  | cons line lines ih =>
    rw [loadLines, List.zipIdx_cons, List.filterMap_cons, List.filterMap_cons, assigned?, problem?]
    cases readLine line with
    | error p => simp only [ih]
    | ok x =>
      cases x with
      | none => simp only [ih]
      | some x => simp only [ih, List.foldl_cons]

/-- The last line that assigns the setting gives it this value. -/
def LastAssigned (lines : List (List Char)) (x : Setting) : Prop :=
  ∃ before line after, lines = before ++ line :: after ∧ Assigns line x ∧
    ∀ later ∈ after, ∀ y, Assigns later y → y.key ≠ x.key

theorem get_key (s : Settings) (key : SettingKey) : (s.get key).key = key := by cases key <;> rfl

theorem LastAssigned.concat (h : LastAssigned lines x)
    (hline : ∀ y, Assigns line y → y.key ≠ x.key) : LastAssigned (lines ++ [line]) x := by
  obtain ⟨before, last, after, rfl, hlast, hafter⟩ := h
  exact ⟨before, last, after ++ [line], by simp, hlast,
    List.forall_mem_append.2 ⟨hafter, List.forall_mem_singleton.2 hline⟩⟩

/-- **What a setting has** after some lines is what the last line for it says, or what it had. -/
theorem get_foldl (lines : List (List Char)) (s : Settings) (key : SettingKey) :
    LastAssigned lines (((lines.filterMap assigned?).foldl apply s).get key) ∨
      (∀ line ∈ lines, ∀ x, Assigns line x → x.key ≠ key) ∧
        ((lines.filterMap assigned?).foldl apply s).get key = s.get key := by
  induction lines using List.reverseRecOn with
  | nil => exact .inr ⟨nofun, rfl⟩
  | append_singleton lines line ih =>
    rw [List.filterMap_append, List.foldl_append]
    generalize (lines.filterMap assigned?).foldl apply s = t at ih ⊢
    by_cases h : ∃ x, Assigns line x ∧ x.key = key
    · obtain ⟨x, hx, hkey⟩ := h
      have hget : (([line].filterMap assigned?).foldl apply t).get key = x := by
        rw [List.filterMap_cons_some (assigned?_eq_some.2 hx)]
        exact (get_apply t x key).trans (if_pos hkey)
      rw [hget]
      exact .inl ⟨lines, line, [], rfl, hx, fun _ h => nomatch h⟩
    · have hother : ∀ x, Assigns line x → x.key ≠ key := fun x hx hkey => h ⟨x, hx, hkey⟩
      have hget : (([line].filterMap assigned?).foldl apply t).get key = t.get key := by
        cases hx : assigned? line with
        | none => rw [List.filterMap_cons_none hx]; rfl
        | some x =>
          rw [List.filterMap_cons_some hx]
          exact (get_apply t x key).trans (if_neg (hother x (assigned?_eq_some.1 hx)))
      rw [hget]
      rcases ih with ih | ⟨hnone, hsame⟩
      · exact .inl (ih.concat fun y hy => by rw [get_key]; exact hother y hy)
      · exact .inr ⟨List.forall_mem_append.2 ⟨hnone, List.forall_mem_singleton.2 hother⟩, hsame⟩

/-! ## Problems -/

theorem line_of_problem? {p : List Char × Nat} {problem : SettingsProblem}
    (h : problem? p = some problem) : problem.line = p.2 := by
  rw [problem?] at h
  split at h
  · cases h
  · cases h
    rfl

theorem exists_problem? (p : List Char × Nat) :
    (∃ problem, problem? p = some problem) ↔ Wrong p.1 := by
  rw [← readLine_eq_error, problem?]
  cases readLine p.1 <;> simp

/-- The problems stand in the order of their lines. -/
theorem pairwise_problems (n : Nat) (lines : List (List Char)) :
    (((lines.zipIdx n).filterMap problem?).map (·.line)).Pairwise (· < ·) := by
  rw [List.pairwise_map, List.pairwise_filterMap]
  have hnumbers : (lines.zipIdx n).Pairwise fun p q => p.2 < q.2 := by
    rw [← List.pairwise_map (f := Prod.snd), List.zipIdx_map_snd]
    exact List.pairwise_lt_range'
  refine hnumbers.imp fun hlt p hp q hq => ?_
  rwa [line_of_problem? hp, line_of_problem? hq]

theorem mem_problems {k : Nat} :
    k ∈ ((lines.zipIdx n).filterMap problem?).map (·.line) ↔
      n ≤ k ∧ ∃ line, lines[k - n]? = some line ∧ Wrong line := by
  rw [List.mem_map]
  constructor
  · rintro ⟨problem, hmem, rfl⟩
    obtain ⟨⟨line, k⟩, hline, hproblem⟩ := List.mem_filterMap.1 hmem
    rw [line_of_problem? hproblem]
    rw [List.mk_mem_zipIdx_iff_le_and_getElem?_sub] at hline
    exact ⟨hline.1, line, hline.2, (exists_problem? _).1 ⟨_, hproblem⟩⟩
  · rintro ⟨hle, line, hline, hwrong⟩
    obtain ⟨problem, hproblem⟩ := (exists_problem? (line, k)).2 hwrong
    refine ⟨problem, List.mem_filterMap.2 ⟨(line, k), ?_, hproblem⟩, line_of_problem? hproblem⟩
    rw [List.mk_mem_zipIdx_iff_le_and_getElem?_sub]
    exact ⟨hle, hline⟩

/-- **Of several assignments** of a setting in a text the last one counts, and a setting without any
has its default. The problems tell in increasing order the numbers of the wrong lines, and a wrong
line changes no setting. -/
theorem load_last_wins (text : String) :
    (∀ key, LastAssigned (Text.splitLines text.toList) ((load text).1.get key) ∨
      (∀ line ∈ Text.splitLines text.toList, ∀ x, Assigns line x → x.key ≠ key) ∧
        (load text).1.get key = ({} : Settings).get key) ∧
    ((load text).2.map (·.line)).Pairwise (· < ·) ∧
    (∀ n, n ∈ (load text).2.map (·.line) ↔
      1 ≤ n ∧ ∃ line, (Text.splitLines text.toList)[n - 1]? = some line ∧ Wrong line) ∧
    ∀ n before line after s, Wrong line →
      (loadLines n (before ++ line :: after) s).1 = (loadLines n (before ++ after) s).1 := by
  rw [load, loadLines_eq]
  refine ⟨get_foldl _ _, pairwise_problems 1 _, fun n => mem_problems, ?_⟩
  intro n before line after s hwrong
  rw [loadLines_eq, loadLines_eq, List.filterMap_append, List.filterMap_append,
    List.filterMap_cons_none (assigned?_of_wrong hwrong)]

end Settings

end FormulaLang
