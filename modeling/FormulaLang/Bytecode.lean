import FormulaLang.Environment

/-!
# Bytecode

A program runs on a stack of numbers and a heap of numbered slots. Truth values are one and zero.

* `Instruction`: what a program is made of; jumps are relative to their own address.
* `Program`, `Program.pointJump`: code and the slots it needs.
* `Program.listing`: the program line by line.
-/

namespace FormulaLang.Bytecode

/-- An instruction. Operators take their operands from the stack, the right one first, and push
their result. -/
inductive Instruction where
  | constant (x : Float)
  /-- Pushes a number of the environment. -/
  | readCell (cell : Nat)
  /-- Pops into a number of the environment. -/
  | writeCell (cell : Nat)
  /-- Pushes a heap slot, which is a NaN until it is written. -/
  | readSlot (slot : Nat)
  /-- Pops into a heap slot. -/
  | writeSlot (slot : Nat)
  | arithmetic (op : BinaryOp)
  | compare (op : CompareOp)
  | logical (op : LogicalOp)
  | unary (op : UnaryOp)
  | dup
  | pop
  | jump (offset : Int)
  /-- Pops a number and jumps unless it is zero. -/
  | jumpIf (offset : Int)
  | callPlain (f : FastPath Float)
  | callContext (f : FastPath (Request Float))
  /-- Calls a function of the environment with arguments from the stack. -/
  | call (name : String) (arity : Nat)

/-- A compiled formula. -/
structure Program where
  code : Array Instruction
  heapSize : Nat

/-- Makes the jump at an address lead to another address. -/
def Program.pointJump (p : Program) (address target : Nat) : Program :=
  let offset := (target : Int) - address
  { p with code := p.code.modify address fun
    | .jump _ => .jump offset
    | .jumpIf _ => .jumpIf offset
    | other => other }

/-! ## Listings -/

def arithmeticName : BinaryOp → String
  | .add => "ADD"
  | .sub => "SUB"
  | .mul => "MUL"
  | .div => "DIV"
  | .mod => "MOD"
  | .pow => "POW"
  | .bitAnd => "BIT_AND"
  | .bitOr => "BIT_OR"

def compareName : CompareOp → String
  | .eq => "EQ"
  | .ne => "NE"
  | .lt => "LT"
  | .le => "LE"
  | .gt => "GT"
  | .ge => "GE"

def logicalName : LogicalOp → String
  | .and => "AND"
  | .or => "OR"
  | .xor => "XOR"
  | .nor => "NOR"
  | .nand => "NAND"

def unaryName : UnaryOp → String
  | .neg => "NEG"
  | .not => "NOT"
  | .bitNot => "BIT_NOT"

/-- Fills up a text with blanks on the right. -/
def padRight (width : Nat) (s : String) : String :=
  s ++ String.ofList (List.replicate (width - s.length) ' ')

/-- An address or slot with at least four characters, sign included. -/
def fourDigits (n : Int) : String :=
  let digits := toString n.natAbs
  let zeros (width : Nat) := String.ofList (List.replicate (width - digits.length) '0')
  if n < 0 then "-" ++ zeros 3 ++ digits else zeros 4 ++ digits

/-- An integer with its sign. -/
def withSign (n : Int) : String := if n < 0 then toString n else "+" ++ toString n

namespace Instruction

/-- The line of an instruction that has something behind its name. -/
def withPayload (name payload : String) : String := padRight 16 name ++ " " ++ payload

/-- The line of a jump at an address. -/
def jumpText (name : String) (address : Nat) (offset : Int) : String :=
  withPayload name (withSign offset ++ " -> " ++ fourDigits (address + offset))

/-- The line of an access to a cell, which shows what the cell holds now. -/
def cellText (store : Store) (name : String) (cell : Nat) : String :=
  withPayload name ("<cell " ++ Number.wordText (store.number cell) ++ ">")

/-- The line of the instruction at an address. -/
def text (store : Store) (address : Nat) : Instruction → String
  | constant x => withPayload "CONSTANT" (Number.wordText x)
  | readCell cell => cellText store "VAR_READ" cell
  | writeCell cell => cellText store "VAR_WRITE" cell
  | readSlot slot => withPayload "HEAP_READ" (fourDigits slot)
  | writeSlot slot => withPayload "HEAP_WRITE" (fourDigits slot)
  | arithmetic op => arithmeticName op
  | compare op => compareName op
  | logical op => logicalName op
  | unary op => unaryName op
  | dup => "DUP"
  | pop => "POP"
  | jump offset => jumpText "JUMP_REL" address offset
  | jumpIf offset => jumpText "JUMP_COND_REL" address offset
  | callPlain f => withPayload "CALL_SIMPLE" s!"arity {f.arity}"
  | callContext f => withPayload "CALL_SIMPLE_CTX" s!"arity {f.arity}"
  | call name arity => withPayload "CALL_RESULT" s!"{name}/{arity}"

end Instruction

/-- The listing of a program under a title. -/
def Program.listing (p : Program) (store : Store) (title : String) : String :=
  let lines := p.code.toList.zipIdx.map fun (i, address) =>
    fourDigits address ++ " " ++ i.text store address ++ "\n"
  let slots := if p.heapSize = 0 then "" else s!"heap slots: {p.heapSize}\n"
  "== " ++ title ++ " ==\n" ++ String.join lines ++ slots

end FormulaLang.Bytecode
