import FormulaLang.Console

/-!
# The program

* `readText`: reads a file for the command line.
* `main`: runs the command line on the arguments, and a session on the lines of the input.
-/

namespace FormulaLang.Console

/-- The words of the system for a failure. Its code may come with the sign of a failed call. -/
def reason (code : UInt32) (details : String) : String :=
  s!"{details.capitalize} (os error {min code (-code)})"

/-- The text of a file, or the reason of the system for not giving it. -/
def readText (path : String) : IO (Except String String) := do
  try
    return .ok (← IO.FS.readFile path)
  catch e =>
    match e with
    | .noFileOrDirectory _ code details | .inappropriateType _ code details
    | .permissionDenied _ code details => return .error (reason code details)
    | e => return .error (toString e)

/-- Writes out what a computation puts on the screen. -/
def display {α : Type} (talk : Talk α) : IO α := do
  let (a, screen) := talk.run {}
  (← IO.getStderr).putStr screen.err
  (← IO.getStderr).flush
  (← IO.getStdout).putStr screen.out
  (← IO.getStdout).flush
  return a

/-- Answers the lines of the input until the session or the input ends. -/
partial def converse (input : IO.FS.Stream) (st : Engine) : IO Unit := do
  let line ← input.getLine
  if line.isEmpty then display (say farewell)
  else
    match ← display (replLine (line.toList.filter (· ≠ '\n')) st) with
    | some st => converse input st
    | none => return

end FormulaLang.Console

open FormulaLang.Console in
/-- The command line. The files that the arguments name are read before it starts. -/
def main (args : List String) : IO UInt32 := do
  let texts ← (filesOf args).mapM fun path => return (path, ← readText path)
  let files : Files := fun path => (texts.lookup path).getD (.error "not read")
  match ← display (start files args) with
  | .exit code => return code.toUInt32
  | .session st =>
    converse (← IO.getStdin) st
    return 0
