import FormulaLang.Number.Reading
import FormulaLang.Text.Blank
import FormulaLang.Text.Line

/-!
# Settings

Settings come from lines `key = value`. Blank lines and lines that start with `#` or `;` say
nothing, a wrong line is reported and skipped, and of several lines for a key the last one counts.

* `Settings`: the limits of an engine, with their defaults.
* `Setting`, `Settings.apply`: one setting.
* `readLine`: what a line says.
* `Settings.load`: the settings of a text and its problems.
-/

namespace FormulaLang

/-- The limits of an engine. -/
structure Settings where
  /-- Whether the catalog of functions and constants is registered. -/
  catalog : Bool := true
  /-- How deep calls may nest. -/
  callDepth : Nat := 256
  /-- How deep a parsed tree may be. -/
  parseDepth : Nat := 1000
  /-- How many numbers the stack of the machine may hold. -/
  stackLimit : Nat := 2048
  /-- How many slots the heap of the machine has at least. -/
  initialHeap : Nat := 16
  deriving DecidableEq, Repr

/-- The value of one setting. -/
inductive Setting where
  | catalog (b : Bool)
  | callDepth (n : Nat)
  | parseDepth (n : Nat)
  | stackLimit (n : Nat)
  | initialHeap (n : Nat)
  deriving DecidableEq, Repr

/-- Changes one setting. -/
def Settings.apply (s : Settings) : Setting → Settings
  | .catalog b => { s with catalog := b }
  | .callDepth n => { s with callDepth := n }
  | .parseDepth n => { s with parseDepth := n }
  | .stackLimit n => { s with stackLimit := n }
  | .initialHeap n => { s with initialHeap := n }

/-- What can be wrong with a line. -/
inductive LineProblem where
  | noAssignment (line : String)
  | unknownKey (key : String)
  | notBool (value : String)
  | notCount (key value : String)
  deriving DecidableEq, Repr

def LineProblem.message : LineProblem → String
  | noAssignment line => "expected 'key = value', got '" ++ line ++ "'"
  | unknownKey key => "unknown key '" ++ key ++ "'"
  | notBool value => "expected a boolean, got '" ++ value ++ "'"
  | notCount key value => key ++ " must be a non-negative integer, got '" ++ value ++ "'"

/-- A problem and the number of its line. -/
structure SettingsProblem where
  line : Nat
  problem : LineProblem
  deriving DecidableEq, Repr

def SettingsProblem.text (p : SettingsProblem) : String :=
  s!"line {p.line}: {p.problem.message}"

/-! ## Values -/

/-- The truth value of a word, in any mix of upper and lower case. -/
def readBool? (value : String) : Option Bool :=
  let word := value.map Char.toLower
  if word = "true" ∨ word = "on" ∨ word = "yes" ∨ word = "1" then some true
  else if word = "false" ∨ word = "off" ∨ word = "no" ∨ word = "0" then some false
  else none

/-- A count of at most 64 bits, which may carry a plus sign. -/
def readCount? (value : String) : Option Nat :=
  let digits :=
    match value.toList with
    | '+' :: digits => digits
    | digits => digits
  (Number.ofDigits? 10 digits).filter (· < UInt64.size)

/-- The setting of a key. -/
def readSetting (key value : String) : Except LineProblem Setting :=
  let count (setting : Nat → Setting) : Except LineProblem Setting :=
    match readCount? value with
    | some n => .ok (setting n)
    | none => .error (.notCount key value)
  if key = "register_builtins" then
    match readBool? value with
    | some b => .ok (.catalog b)
    | none => .error (.notBool value)
  else if key = "max_call_depth" then count .callDepth
  else if key = "max_parse_depth" then count .parseDepth
  else if key = "vm_stack_limit" then count .stackLimit
  else if key = "vm_initial_heap" then count .initialHeap
  else .error (.unknownKey key)

/-! ## Lines -/

/-- What a line says; `none` if it says nothing. -/
def readLine (line : List Char) : Except LineProblem (Option Setting) :=
  let line := Text.trimBlanks line
  match line with
  | [] | '#' :: _ | ';' :: _ => .ok none
  | line =>
    if '=' ∈ line then
      let key := Text.trimBlanks (line.takeWhile (· ≠ '='))
      let value := Text.trimBlanks ((line.dropWhile (· ≠ '=')).drop 1)
      (readSetting (String.ofList key) (String.ofList value)).map some
    else .error (.noAssignment (String.ofList line))

namespace Settings

/-- Takes in the lines from the number `n` on. -/
def loadLines : Nat → List (List Char) → Settings → Settings × List SettingsProblem
  | _, [], s => (s, [])
  | n, line :: lines, s =>
    match readLine line with
    | .ok none => loadLines (n + 1) lines s
    | .ok (some setting) => loadLines (n + 1) lines (s.apply setting)
    | .error p =>
      let (s, problems) := loadLines (n + 1) lines s
      (s, ⟨n, p⟩ :: problems)

/-- The settings of a text, and its problems by line. -/
def load (text : String) : Settings × List SettingsProblem :=
  loadLines 1 (Text.splitLines text.toList) {}

end Settings

end FormulaLang
