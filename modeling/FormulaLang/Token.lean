import FormulaLang.Fault
import FormulaLang.Number.Basic

/-!
# Tokens

* `Mark`: keywords and punctuation, with `Mark.text` and `Mark.ofWord?`.
* `Token`: a literal, a name, a mark or the end of the text, with `Token.text`.
* `Token.ofWord`: the token of an identifier.
* `Lexeme`: a token or a lexical fault, with its extent.
-/

namespace FormulaLang

open Text (Extent)

/-- Keywords and punctuation. -/
inductive Mark where
  | true
  | false
  | plus
  | minus
  | star
  | slash
  | percent
  | caret
  | ampersand
  | bar
  | tilde
  | assign
  | equal
  | notEqual
  | less
  | lessEqual
  | greater
  | greaterEqual
  | and
  | or
  | xor
  | nor
  | nand
  | not
  | bang
  | leftParen
  | rightParen
  | leftBracket
  | rightBracket
  | leftBrace
  | rightBrace
  | comma
  | semicolon
  | colon
  | dot
  deriving DecidableEq, Repr

namespace Mark

/-- The spelling of a mark in messages. -/
def text : Mark → String
  | .true => "true"
  | .false => "false"
  | .plus => "+"
  | .minus => "-"
  | .star => "*"
  | .slash => "/"
  | .percent => "%"
  | .caret => "^"
  | .ampersand => "&"
  | .bar => "|"
  | .tilde => "~"
  | .assign => "="
  | .equal => "=="
  | .notEqual => "!="
  | .less => "<"
  | .lessEqual => "<="
  | .greater => ">"
  | .greaterEqual => ">="
  | .and => "and"
  | .or => "or"
  | .xor => "xor"
  | .nor => "nor"
  | .nand => "nand"
  | .not => "not"
  | .bang => "!"
  | .leftParen => "("
  | .rightParen => ")"
  | .leftBracket => "["
  | .rightBracket => "]"
  | .leftBrace => "\x7b"
  | .rightBrace => "\x7d"
  | .comma => ","
  | .semicolon => ";"
  | .colon => ":"
  | .dot => "."

/-- The keywords. -/
def ofWord? : String → Option Mark
  | "true" => some .true
  | "false" => some .false
  | "and" => some .and
  | "or" => some .or
  | "xor" => some .xor
  | "not" => some .not
  | "nor" => some .nor
  | "nand" => some .nand
  | "band" => some .ampersand
  | "bor" => some .bar
  | _ => none

end Mark

/-- An atomic unit of a formula. -/
inductive Token where
  | number (x : Float)
  | string (s : String)
  | name (s : String)
  | mark (m : Mark)
  | finish
  deriving BEq, Repr

namespace Token

/-- The text of a token in messages. -/
def text : Token → String
  | number x => Number.wordText x
  | string s => "\"" ++ s ++ "\""
  | name s => s
  | mark m => m.text
  | finish => "end of input"

/-- The token is the mark `m`. -/
def isMark (m : Mark) : Token → Bool
  | mark n => n == m
  | _ => false

@[simp] theorem isMark_mark (m n : Mark) : (mark n).isMark m = (n == m) := rfl

/-- The number a word names, in any mix of upper and lower case. -/
def namedNumber? (word : String) : Option Float :=
  match word.toList.map Char.toLower with
  | ['n', 'a', 'n'] => some Number.nan
  | ['i', 'n', 'f'] => some Number.infinity
  | ['n', 'i', 'n', 'f'] => some (-Number.infinity)
  | _ => none

/-- Keywords come first, then the named numbers; any other word is a name. -/
def ofWord (word : String) : Token :=
  match Mark.ofWord? word, namedNumber? word with
  | some m, _ => mark m
  | none, some x => number x
  | none, none => name word

end Token

/-- A token, or a lexical fault, and where it stands. -/
structure Lexeme where
  content : Except Fault Token
  extent : Extent

end FormulaLang
