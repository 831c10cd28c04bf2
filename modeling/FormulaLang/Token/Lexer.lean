import FormulaLang.Number.Reading
import FormulaLang.Text.Blank
import FormulaLang.Token

/-!
# Reading tokens

* `skip`: blanks and comments in front of a token.
* `Scan`: what one step reads, the characters it takes and the characters it leaves.
* `scanNumber`, `scanString`, `scanWord`, `scan`: the steps.
* `Lexed`, `lex`: all lexemes of a text and the place where it ends.
* `tokens`: the tokens of a text without lexical faults.
-/

namespace FormulaLang.Lexer

open Text (Place Extent isBlank)

/-! ## Blanks and comments -/

/-- Where `skip` stands: between tokens, in a line comment or in a block comment. -/
inductive Gap where
  | plain
  | line
  | block
  deriving DecidableEq, Repr

/-- Splits off blanks and comments. Block comments do not nest, and an open one takes the rest. -/
def skip : Gap → List Char → List Char × List Char
  | _, [] => ([], [])
  | .plain, '/' :: '*' :: cs =>
    let (blank, rest) := skip .block cs
    ('/' :: '*' :: blank, rest)
  | .plain, '/' :: '/' :: cs =>
    let (blank, rest) := skip .line cs
    ('/' :: '/' :: blank, rest)
  | .plain, c :: cs =>
    if isBlank c then
      let (blank, rest) := skip .plain cs
      (c :: blank, rest)
    else ([], c :: cs)
  | .line, c :: cs =>
    let (blank, rest) := skip (if c = '\n' then .plain else .line) cs
    (c :: blank, rest)
  | .block, '*' :: '/' :: cs =>
    let (blank, rest) := skip .plain cs
    ('*' :: '/' :: blank, rest)
  | .block, c :: cs =>
    let (blank, rest) := skip .block cs
    (c :: blank, rest)

/-! ## Single steps -/

/-- A step of reading: the token or fault, the characters taken and those left. -/
structure Scan where
  content : Except Fault Token
  taken : List Char
  rest : List Char

/-- What stands for `\c` in a string. -/
def unescape : Char → List Char
  | '"' => ['"']
  | '\'' => ['\'']
  | 't' => ['\t']
  | 'n' => ['\n']
  | 'r' => ['\r']
  | '\\' => ['\\']
  | '/' => ['/']
  | c => ['\\', c]

/-- Reads behind the opening quote: the contents unless the closing quote is missing, the
characters taken and those left. A doubled quote stands for one. -/
def quoted : List Char → Option (List Char) × List Char × List Char
  | [] => (none, [], [])
  | '"' :: '"' :: cs =>
    let (value, taken, rest) := quoted cs
    (value.map ('"' :: ·), '"' :: '"' :: taken, rest)
  | '"' :: cs => (some [], ['"'], cs)
  | '\\' :: c :: cs =>
    let (value, taken, rest) := quoted cs
    (value.map (unescape c ++ ·), '\\' :: c :: taken, rest)
  | c :: cs =>
    let (value, taken, rest) := quoted cs
    (value.map (c :: ·), c :: taken, rest)

/-- Reads a string behind its opening quote. -/
def scanString (cs : List Char) : Scan :=
  let (value, taken, rest) := quoted cs
  match value with
  | some value => ⟨.ok (.string (String.ofList value)), '"' :: taken, rest⟩
  | none => ⟨.error .unterminatedString, '"' :: taken, rest⟩

/-- The radix that the letter of `0x`, `0o` or `0b` stands for. -/
def radix? : Char → Option Nat
  | 'x' | 'X' => some 16
  | 'o' | 'O' => some 8
  | 'b' | 'B' => some 2
  | _ => none

/-- Reads an integer whose radix is marked by the two characters `0` and `letter`. It has at least
one digit and fits in 64 bits. -/
def scanRadix (radix : Nat) (letter : Char) (cs : List Char) : Scan :=
  let digits := cs.takeWhile (Number.isDigitOf radix)
  let taken := '0' :: letter :: digits
  let rest := cs.dropWhile (Number.isDigitOf radix)
  match Number.ofDigits? radix digits with
  | some n =>
    if n < UInt64.size then ⟨.ok (.number (Float.ofNat n)), taken, rest⟩
    else ⟨.error (.invalidNumber (String.ofList taken)), taken, rest⟩
  | none => ⟨.error (.invalidNumber (String.ofList taken)), taken, rest⟩

/-- Splits off digits with at most one point among or around them. -/
def mantissa (cs : List Char) : List Char × List Char :=
  let whole := cs.takeWhile Char.isDigit
  match cs.dropWhile Char.isDigit with
  | '.' :: rest => (whole ++ '.' :: rest.takeWhile Char.isDigit, rest.dropWhile Char.isDigit)
  | rest => (whole, rest)

/-- Splits off an exponent, which must have digits behind its letter and optional sign. -/
def power : List Char → List Char × List Char
  | e :: cs =>
    let sign : List Char :=
      match cs with
      | '+' :: _ => ['+']
      | '-' :: _ => ['-']
      | _ => []
    let digits := cs.drop sign.length
    if (e = 'e' ∨ e = 'E') ∧ digits.head?.any Char.isDigit then
      (e :: sign ++ digits.takeWhile Char.isDigit, digits.dropWhile Char.isDigit)
    else ([], e :: cs)
  | [] => ([], [])

/-- Reads a decimal number. -/
def scanDecimal (cs : List Char) : Scan :=
  let (digits, rest) := mantissa cs
  let (exponent, rest) := power rest
  let taken := digits ++ exponent
  match Number.ofDecimal? taken with
  | some x => ⟨.ok (.number x), taken, rest⟩
  | none => ⟨.error (.invalidNumber (String.ofList taken)), taken, rest⟩

/-- Reads a number. -/
def scanNumber : List Char → Scan
  | '0' :: letter :: cs =>
    match radix? letter with
    | some radix => scanRadix radix letter cs
    | none => scanDecimal ('0' :: letter :: cs)
  | cs => scanDecimal cs

/-- Letters, digits and underscores continue a word. -/
def isWordChar (c : Char) : Bool := c.isAlphanum || c == '_'

/-- Reads a keyword, a named number or a name. -/
def scanWord (cs : List Char) : Scan :=
  let word := cs.takeWhile isWordChar
  ⟨.ok (.ofWord (String.ofList word)), word, cs.dropWhile isWordChar⟩

/-- The marks of one character that begin no longer mark. -/
def singleMark? : Char → Option Mark
  | '(' => some .leftParen
  | ')' => some .rightParen
  | '[' => some .leftBracket
  | ']' => some .rightBracket
  | '\x7b' => some .leftBrace
  | '\x7d' => some .rightBrace
  | ',' => some .comma
  | ';' => some .semicolon
  | ':' => some .colon
  | '+' => some .plus
  | '-' => some .minus
  | '*' => some .star
  | '/' => some .slash
  | '%' => some .percent
  | '^' => some .caret
  | '~' => some .tilde
  | _ => none

/-- Marks that a second character makes longer: that character, the long and the short mark. -/
def doubleMark? : Char → Option (Char × Mark × Mark)
  | '&' => some ('&', .and, .ampersand)
  | '|' => some ('|', .or, .bar)
  | '=' => some ('=', .equal, .assign)
  | '!' => some ('=', .notEqual, .bang)
  | '<' => some ('=', .lessEqual, .less)
  | '>' => some ('=', .greaterEqual, .greater)
  | _ => none

/-- Reads a mark that starts with `c`. -/
def scanMark? (c : Char) (cs : List Char) : Option Scan :=
  match singleMark? c, doubleMark? c with
  | some m, _ => some ⟨.ok (.mark m), [c], cs⟩
  | none, some (second, long, short) =>
    match cs with
    | d :: rest =>
      if d = second then some ⟨.ok (.mark long), [c, d], rest⟩
      else some ⟨.ok (.mark short), [c], cs⟩
    | [] => some ⟨.ok (.mark short), [c], cs⟩
  | none, none => none

/-- Reads one token or fault that starts with `c`. -/
def scan (c : Char) (cs : List Char) : Scan :=
  match scanMark? c cs with
  | some s => s
  | none =>
    if c = '.' then
      if cs.head?.any Char.isDigit then scanNumber (c :: cs) else ⟨.ok (.mark .dot), [c], cs⟩
    else if c = '"' then scanString cs
    else if c.isDigit then scanNumber (c :: cs)
    else if c.isAlpha || c == '_' then scanWord (c :: cs)
    else ⟨.error (.unexpectedCharacter c), [c], cs⟩

/-! ## Whole texts -/

/-- The lexemes of a text, and the place where its end stands. -/
structure Lexed where
  lexemes : List Lexeme
  finish : Place

/-- Reads at most `n` lexemes. -/
def lexFrom : Nat → Place → List Char → Lexed
  | 0, p, _ => ⟨[], p⟩
  | n + 1, p, cs =>
    let (blank, rest) := skip .plain cs
    let p := p.after blank
    match rest with
    | [] => ⟨[], p⟩
    | c :: rest =>
      let s := scan c rest
      let more := lexFrom n (p.after s.taken) s.rest
      ⟨⟨s.content, p.extent s.taken⟩ :: more.lexemes, more.finish⟩

/-- Every lexeme takes a character, so a text has no more lexemes than characters. -/
def lex (source : String) : Lexed :=
  let cs := source.toList
  lexFrom (cs.length + 1) .origin cs

/-- The lexeme that stands for the end of the text. -/
def Lexed.ending (l : Lexed) : Lexeme := ⟨.ok .finish, l.finish.extent []⟩

/-- All lexemes with the end of the text. -/
def Lexed.all (l : Lexed) : List Lexeme := l.lexemes ++ [l.ending]

/-- The fault of a lexeme that is none. -/
def located (l : Lexeme) : Except Located (Token × Extent) :=
  match l.content with
  | .ok t => .ok (t, l.extent)
  | .error f => .error ⟨f, some l.extent⟩

/-- All tokens of a text with the end, or its first lexical fault. -/
def tokens (source : String) : Except Located (List (Token × Extent)) :=
  (lex source).all.mapM located

end FormulaLang.Lexer
