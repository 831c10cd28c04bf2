import FormulaLang.Engine.Session
import FormulaLang.Text.Line

/-!
# The command line

* `Screen`, `Talk`: what has been written to the two output channels, and computations that write.
* `answer`, `answerCompiled`: evaluates or compiles a formula and writes the result or the faults.
* `replLine`: one line of an interactive session.
* `takeSettings`, `command`: the arguments.
* `Console.run`: a whole run, given the files and the input.
-/

namespace FormulaLang.Console

/-- What has been written so far. -/
structure Screen where
  out : String := ""
  err : String := ""

/-- A computation that writes to the screen, and on an engine where there is one. -/
abbrev Talk (α : Type) := StateM Screen α

/-- Writes a line. -/
def say (line : String) : Talk Unit := modify fun s => { s with out := s.out ++ line ++ "\n" }

/-- Writes a line to the error channel. -/
def warn (line : String) : Talk Unit := modify fun s => { s with err := s.err ++ line ++ "\n" }

/-- Writes a text as it is. -/
def put (text : String) : Talk Unit := modify fun s => { s with out := s.out ++ text }

/-- Writes several lines. -/
def sayAll (lines : List String) : Talk Unit := lines.forM say

/-! ## Formulas -/

/-- Writes the faults recorded from the number `n` on, and tells whether there are none. -/
def noFaultsFrom (n : Nat) (st : Engine) : Talk Bool := do
  let faults := st.log.toList.drop n
  faults.forM fun e => warn e.text
  return faults.isEmpty

/-- Evaluates a formula and writes its value, unless there is none. -/
def answer (source : String) (st : Engine) : Talk (Bool × Engine) := do
  let before := st.log.size
  let (v, st) := Engine.formula source st
  if ← noFaultsFrom before st then
    match v with
    | .void => pure ()
    | v => say ("=> " ++ v.text)
    return (true, st)
  else return (false, st)

/-- Compiles a formula, writes the program and runs it. -/
def answerCompiled (source : String) (st : Engine) : Talk (Bool × Engine) := do
  let before := st.log.size
  let (e, st) := Engine.read source st
  if ← noFaultsFrom before st then
    match Engine.compile e st with
    | (.error _, st) => return (← noFaultsFrom before st, st)
    | (.ok p, st) =>
      put (p.listing st.env.store source)
      let (x, st) := Engine.runProgram p st
      if ← noFaultsFrom before st then
        say ("=> " ++ Number.text x)
        return (true, st)
      else return (false, st)
  else return (false, st)

/-! ## Help -/

def version : String := "0.1.0"

def help : List String := [
  "mathexpr",
  "An embeddable formula language",
  "Version " ++ version,
  "",
  "USAGE:",
  "  mathexpr [--config <file>] <command>",
  "",
  "COMMANDS:",
  "  repl                 Start interactive REPL",
  "  eval <expr>          Evaluate one formula",
  "  run <file>           Evaluate a formula file",
  "  compile <expr>       Show bytecode and run it on the VM",
  "  help                 Show this help message",
  "  version              Show version",
  "",
  "EXAMPLES:",
  "  mathexpr eval \"sum(i, 1, 10, i^2)\"",
  "  mathexpr compile \"f(x) = x * x; f(3) + 1\"",
  "  mathexpr repl",
  "",
  "LANGUAGE FEATURES:",
  "  x = 2; x * 3             Variables and statement lists",
  "  [1, 2; 3, 4]             Vectors and matrices",
  "  1:2:9                    Ranges",
  "  f(a, b) = a * b          Function definition",
  "  if(c, a, b)              Conditionals and cases(...)",
  "  for(i, 1, 5, i^2)        Loops: sum, prod, for, filterfor, ..."]

def replHelp : List String := [
  "REPL Commands:",
  "  exit, quit          Exit the REPL",
  "  :vars               List variables",
  "  :reset              Clear variables, functions and errors",
  "  :errors             Show every recorded error",
  "  :compile <expr>     Show bytecode and run it on the VM",
  "  help                Show this help",
  "",
  "Language Examples:",
  "  x = 10",
  "  v = [1, 2, 3]; v[v > 1]",
  "  sq(n) = n * n",
  "  sum(i, 1, 100, sq(i))"]

/-! ## Interactive sessions -/

def banner : List String :=
  ["mathexpr " ++ version ++ " - formula REPL", "Type exit to exit, help for help", ""]

def farewell : String := "Goodbye!"

/-- Takes back the character in front of each backspace. -/
def eraseBackspaces (line : List Char) : List Char :=
  (line.foldl (fun kept c => if c = '\x08' then kept.drop 1 else c :: kept) []).reverse

/-- What follows `:compile` at the start of a line. -/
def compileSource? (line : List Char) : Option (List Char) :=
  let word := ":compile".toList
  if word.isPrefixOf line then some (line.drop word.length) else none

/-- Answers a line. The session ends where no engine is left. -/
def replLine (line : List Char) (st : Engine) : Talk (Option Engine) := do
  let line := Text.trimBlanks (eraseBackspaces line)
  match String.ofList line with
  | "" => return some st
  | "exit" | "quit" =>
    say farewell
    return none
  | "help" =>
    sayAll replHelp
    return some st
  | ":vars" =>
    st.env.values.forM fun (name, v) => say ("  " ++ name ++ " = " ++ v.text)
    return some st
  | ":reset" =>
    say "Environment cleared."
    return some { st.clear with log := #[] }
  | ":errors" =>
    if ← noFaultsFrom 0 st then say "No errors."
    return some st
  | source =>
    match compileSource? line with
    | some source => return some (← answerCompiled (Text.trim (String.ofList source)) st).2
    | none => return some (← answer source st).2

/-- Answers lines until the session ends. -/
def replLines : List (List Char) → Engine → Talk Unit
  | [], _ => say farewell
  | line :: lines, st => do
    match ← replLine line st with
    | some st => replLines lines st
    | none => return ()

/-! ## Arguments -/

/-- How files are read: their text, or why they cannot be read. -/
abbrev Files := String → Except String String

/-- Splits off the first `--config` and the file behind it. -/
def splitConfig : List String → Option (Except Unit (String × List String))
  | [] => none
  | "--config" :: rest =>
    match rest with
    | path :: rest => some (.ok (path, rest))
    | [] => some (.error ())
  | arg :: rest =>
    match splitConfig rest with
    | some (.ok (path, rest)) => some (.ok (path, arg :: rest))
    | other => other

/-- The file that a command reads. -/
def commandFile? : List String → Option String
  | "run" :: arg :: args => some (" ".intercalate (arg :: args))
  | _ => none

/-- The files that a run on the arguments may read. -/
def filesOf (args : List String) : List String :=
  match splitConfig args with
  | none => (commandFile? args).toList
  | some (.ok (path, args)) => path :: (commandFile? args).toList
  | some (.error ()) => []

/-- The settings, and the arguments that are left; `none` after a mistake. -/
def takeSettings (files : Files) (args : List String) : Talk (Option (Settings × List String)) := do
  match splitConfig args with
  | none => return some ({}, args)
  | some (.error ()) =>
    warn "error: --config needs a file argument"
    return none
  | some (.ok (path, args)) =>
    match files path with
    | .error reason =>
      warn ("error: cannot read config '" ++ path ++ "': " ++ reason)
      return none
    | .ok text =>
      let (settings, problems) := Settings.load text
      problems.forM fun p => warn ("warning: " ++ path ++ ": " ++ p.text)
      return some (settings, args)

/-- How a run goes on: it ends with an exit code, or becomes an interactive session. -/
inductive Course where
  | exit (code : Nat)
  | session (st : Engine)

/-- The exit code of success or failure. -/
def exitCode (success : Bool) : Nat := if success then 0 else 1

/-- Runs a command on what follows it, joined by blanks. -/
def withArgument (usage : String) (args : List String) (body : String → Talk Bool) :
    Talk Course := do
  if args.isEmpty then
    warn "error: missing argument"
    warn ("Usage: mathexpr " ++ usage)
    return .exit 1
  else return .exit (exitCode (← body (" ".intercalate args)))

/-- Runs a command on a new engine. -/
def command (files : Files) (settings : Settings) : List String → Talk Course
  | [] => do
    sayAll help
    return .exit 0
  | "repl" :: _ => do
    sayAll banner
    return .session (.create settings)
  | "eval" :: args => withArgument "eval <expr>" args fun source =>
    return (← answer source (.create settings)).1
  | "run" :: args => withArgument "run <file>" args fun path => do
    match files path with
    | .ok source => return (← answer source (.create settings)).1
    | .error reason =>
      warn ("error: cannot read file '" ++ path ++ "': " ++ reason)
      return false
  | "compile" :: args => withArgument "compile <expr>" args fun source =>
    return (← answerCompiled source (.create settings)).1
  | name :: _ => do
    if name = "help" ∨ name = "--help" ∨ name = "-h" then
      sayAll help
      return .exit 0
    else if name = "version" ∨ name = "--version" ∨ name = "-v" then
      say ("mathexpr " ++ version)
      return .exit 0
    else
      warn ("error: unknown command '" ++ name ++ "'")
      sayAll help
      return .exit 1

/-- Starts a run. -/
def start (files : Files) (args : List String) : Talk Course := do
  match ← takeSettings files args with
  | some (settings, args) => command files settings args
  | none => return .exit 1

/-- A whole run: its exit code and what it writes. -/
def run (files : Files) (args : List String) (input : String) : Nat × Screen :=
  let go : Talk Nat := do
    match ← start files args with
    | .exit code => return code
    | .session st =>
      replLines (Text.splitLines input.toList) st
      return 0
  go.run {}

end FormulaLang.Console
