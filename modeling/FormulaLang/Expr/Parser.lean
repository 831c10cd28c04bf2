import FormulaLang.Expr
import FormulaLang.Token.Lexer

/-!
# Parsing

Precedence, loosest first: `or xor nor`, `and nand`, comparisons, `+ - |`, `* / % &`, the prefix
operators, ranges `a:b` and `a:d:b`, then `^`, `[index]` and `.member` from left to right. Every
nested expression, prefix operator and link of a chain takes one level of a limited depth.

A fault leaves `Expr.invalid` in the tree. Only the first fault of a statement is recorded, and
parsing goes on at the next `;`.

* `Joiner`, `Mark.joiner?`: the operators between operands and their ranks.
* `Cursor`, `Parse`: the lexemes ahead and the faults found so far.
* `Goal`, `goal`, `parseAt`: what is parsed one level deeper, and the parser of a depth.
* `statements`, `parse`: whole texts.
-/

namespace FormulaLang.Parser

open Text (Extent)

/-! ## Operators between operands -/

/-- An operator that stands between two operands. -/
inductive Joiner where
  | binary (op : BinaryOp)
  | compare (op : CompareOp)
  | logical (op : LogicalOp)
  deriving DecidableEq, Repr

namespace Joiner

/-- How tightly the operator binds, from one to five, loosest last. Powers are links of an operand
and bind tighter than all of them. -/
def rank : Joiner → Nat
  | binary .mul | binary .div | binary .mod | binary .bitAnd => 1
  | binary .add | binary .sub | binary .bitOr => 2
  | binary .pow => 0
  | compare _ => 3
  | logical .and | logical .nand => 4
  | logical .or | logical .xor | logical .nor => 5

/-- The tree of two operands. -/
def build : Joiner → Expr → Expr → Expr
  | binary op, a, b => .binary op a b
  | compare op, a, b => .compare op a b
  | logical op, a, b => .logical op a b

end Joiner

/-- The operator that a mark stands for between operands. -/
def joiner? : Mark → Option Joiner
  | .star => some (.binary .mul)
  | .slash => some (.binary .div)
  | .percent => some (.binary .mod)
  | .ampersand => some (.binary .bitAnd)
  | .plus => some (.binary .add)
  | .minus => some (.binary .sub)
  | .bar => some (.binary .bitOr)
  | .equal => some (.compare .eq)
  | .notEqual => some (.compare .ne)
  | .less => some (.compare .lt)
  | .lessEqual => some (.compare .le)
  | .greater => some (.compare .gt)
  | .greaterEqual => some (.compare .ge)
  | .and => some (.logical .and)
  | .nand => some (.logical .nand)
  | .or => some (.logical .or)
  | .xor => some (.logical .xor)
  | .nor => some (.logical .nor)
  | _ => none

/-! ## The cursor -/

/-- The current token, the lexemes behind it and the faults found so far. While `silent` holds
further faults of the statement are not recorded. -/
structure Cursor where
  current : Token
  extent : Extent
  rest : List Lexeme
  ending : Extent
  faults : Array Located
  silent : Bool

namespace Cursor

/-- Records a fault, unless the statement already has one. -/
def note (c : Cursor) (e : Located) : Cursor :=
  if c.silent then c else { c with faults := c.faults.push e, silent := true }

/-- Moves to the first token of `lexemes`, noting the lexical faults in front of it. -/
def moveTo : List Lexeme → Cursor → Cursor
  | [], c => { c with current := .finish, extent := c.ending, rest := [] }
  | ⟨.ok t, x⟩ :: rest, c => { c with current := t, extent := x, rest := rest }
  | ⟨.error f, x⟩ :: rest, c => moveTo rest (c.note ⟨f, some x⟩)

/-- Moves to the next token. -/
def advance (c : Cursor) : Cursor := moveTo c.rest c

/-- A cursor at the first token of a text. -/
def start (text : Lexer.Lexed) : Cursor :=
  let ending := text.ending.extent
  moveTo text.lexemes ⟨.finish, ending, [], ending, #[], false⟩

/-- Forgets that the statement has a fault. -/
def listen (c : Cursor) : Cursor := { c with silent := false }

/-- The fault of a token that fits nowhere. -/
def unexpected (c : Cursor) : Cursor :=
  match c.current with
  | .finish => c.note ⟨.unexpectedEnd, some c.extent⟩
  | t => c.note ⟨.unexpectedToken t.text, some c.extent⟩

/-- The fault of a token in place of an expected one. -/
def expected (c : Cursor) (what : String) : Cursor :=
  c.note ⟨.expectedToken what c.current.text, some c.extent⟩

/-- Moves on to the next `;` or to the end. -/
def skipStatement (n : Nat) (c : Cursor) : Cursor :=
  match n with
  | 0 => c
  | n + 1 =>
    match c.current with
    | .finish | .mark .semicolon => c
    | _ => skipStatement n c.advance

end Cursor

/-- A step of parsing. -/
abbrev Parse (α : Type) := StateM Cursor α

/-- The current token is the mark `m`. -/
def at? (m : Mark) : Parse Bool := do return (← get).current.isMark m

def advance : Parse Unit := modify Cursor.advance

/-- Records a fault at an extent and gives the invalid tree. -/
def failAt (x : Extent) (f : Fault) : Parse Expr := do
  modify (·.note ⟨f, some x⟩)
  return .invalid

/-- Records a fault at the current token and gives the invalid tree. -/
def failHere (f : Fault) : Parse Expr := do failAt (← get).extent f

/-- Takes the mark `m`, or faults with the description `what`. -/
def expect (m : Mark) (what : String) : Parse Bool := do
  if ← at? m then
    advance
    return true
  else
    modify (·.expected what)
    return false

/-! ## Special forms -/

/-- Groups arguments in pairs, with an odd one left over. -/
def pairUp : List Expr → List (Expr × Expr) × Option Expr
  | c :: v :: rest => let (pairs, last) := pairUp rest; ((c, v) :: pairs, last)
  | [e] => ([], some e)
  | [] => ([], none)

/-- The name of a plain name. -/
def plainName? : Expr → Option String
  | .var name => some name
  | _ => none

/-- A loop form over its arguments without the default. -/
def loopOf (kind : LoopKind) (args : List Expr) (default : Option Expr) : Except Fault Expr :=
  match args with
  | [.var x, items, body] => .ok (.loop kind x (.items items) body default)
  | [.var x, a, b, body] => .ok (.loop kind x (.range a none b) body default)
  | [.var x, a, d, b, body] => .ok (.loop kind x (.range a (some d) b) body default)
  | _ => .error (.loopVariableNotName kind.name)

/-- A loop form. Reductions with fewer than three arguments are plain calls. -/
def loopForm (kind : LoopKind) (args : List Expr) : Except Fault Expr :=
  let found := args.length
  let extra := if kind.takesDefault then 1 else 0
  if kind.isReduction ∧ found < 3 then .ok (.call kind.name args)
  else if found < 3 + extra ∨ 5 + extra < found then .error (.formArity kind.name found)
  else if kind.takesDefault then loopOf kind args.dropLast args.getLast?
  else loopOf kind args none

/-- What `name(args)` means. -/
def callForm (name : String) (args : List Expr) : Except Fault Expr :=
  if name = "if" then
    match args with
    | [c, a, b] => .ok (.cases [(c, a)] (some b))
    | _ => .error (.formArity name args.length)
  else if name = "cases" then
    if args.length < 2 then .error (.formArity name args.length)
    else let (branches, otherwise) := pairUp args; .ok (.cases branches otherwise)
  else
    match LoopKind.ofName? name with
    | some kind => loopForm kind args
    | none => .ok (.call name args)

/-- What `name(args) = body` means. -/
def defineForm (name : String) (args : List Expr) (body : Expr) : Except Fault Expr :=
  match args.mapM plainName? with
  | some params => .ok (.define name params body)
  | none => .error (.invalidParameter name)

/-- The tree, or the fault recorded at `x`. -/
def orFail (x : Extent) : Except Fault Expr → Parse Expr
  | .ok e => return e
  | .error f => failAt x f

/-- The tree of a bracketed literal of rows; the rows of a matrix are equally long. -/
def literalOf : List (List Expr) → Except Fault Expr
  | [] => .ok (.vector [])
  | [items] => .ok (.vector items)
  | first :: rest =>
    let columns := first.length
    match rest.zipIdx.find? fun row => row.1.length != columns with
    | some (row, i) => .error (.matrixRowLength (i + 1) columns row.length)
    | none => .ok (.matrix (first :: rest))

/-! ## Sequences of items -/

/-- At most `n` items between commas up to the mark `close`; `none` after a fault. -/
def itemsUntil (item : Parse Expr) (close : Mark) (what : String) :
    Nat → Parse (Option (List Expr))
  | 0 => do
    modify (·.expected what)
    return none
  | n + 1 => do
    let e ← item
    if ← at? .comma then
      advance
      return (← itemsUntil item close what n).map (e :: ·)
    else if ← expect close what then return some [e]
    else return none

/-- Puts an item in front of the first row. -/
def addToRow (e : Expr) : List (List Expr) → List (List Expr)
  | row :: rows => (e :: row) :: rows
  | [] => [[e]]

/-- At most `n` items between commas and semicolons up to `]`; `none` after a fault. -/
def rowsUntil (item : Parse Expr) : Nat → Parse (Option (List (List Expr)))
  | 0 => do
    modify (·.expected "',', ';' or ']'")
    return none
  | n + 1 => do
    let e ← item
    if ← at? .comma then
      advance
      return (← rowsUntil item n).map (addToRow e)
    else if ← at? .semicolon then
      advance
      return (← rowsUntil item n).map ([e] :: ·)
    else if ← expect .rightBracket "',', ';' or ']'" then return some [[e]]
    else return none

/-- Every further item takes a lexeme, so there are no more than lexemes ahead and one. -/
def itemBound : Parse Nat := do return (← get).rest.length + 1

/-! ## One level of depth -/

/-- What is parsed one level deeper: a whole expression, the operand of a prefix operator, the
operand that a joiner adds to `left`, or a power, index or member of `base`. -/
inductive Goal where
  | expression
  | prefixed
  | joined (op : Joiner) (left : Expr)
  | link (base : Expr)

/-- The parsers of one depth. They use the parser of the next depth, of which there is none at the
limit. -/
abbrev Deeper := Option (Goal → Parse Expr)

section Level

variable (limit : Nat) (deeper : Deeper)

/-- Parses a goal one level deeper, or faults at the limit. -/
def descend (g : Goal) : Parse Expr :=
  match deeper with
  | some parse => parse g
  | none => failHere (.nestingTooDeep limit)

/-- A list in braces, behind its opening brace. -/
def listLiteral : Parse Expr := do
  if ← at? .rightBrace then
    advance
    return .list []
  else
    match ← itemsUntil (descend limit deeper .expression) .rightBrace "',' or '\x7d'"
        (← itemBound) with
    | some items => return .list items
    | none => return .invalid

/-- A vector or matrix, behind its opening bracket, whose extent is `x`. -/
def vectorLiteral (x : Extent) : Parse Expr := do
  if ← at? .rightBracket then
    advance
    return .vector []
  else
    match ← rowsUntil (descend limit deeper .expression) (← itemBound) with
    | some rows => orFail x (literalOf rows)
    | none => return .invalid

/-- A call, special form or function definition, behind its opening parenthesis. The name has the
extent `x`. -/
def callLike (name : String) (x : Extent) : Parse Expr := do
  let args ←
    if ← at? .rightParen then do
      advance
      pure (some [])
    else
      itemsUntil (descend limit deeper .expression) .rightParen "',' or ')'" (← itemBound)
  match args with
  | none => return .invalid
  | some args =>
    if ← at? .assign then
      advance
      let body ← descend limit deeper .expression
      orFail x (defineForm name args body)
    else
      orFail x (callForm name args)

/-- What starts with a name, behind the name. -/
def nameLike (name : String) (x : Extent) : Parse Expr := do
  match (← get).current with
  | .mark .assign =>
    advance
    return .assign name (← descend limit deeper .expression)
  | .mark .leftBracket =>
    advance
    let index ← descend limit deeper .expression
    if ← expect .rightBracket "']'" then
      if ← at? .assign then
        advance
        return .assignElement name index (← descend limit deeper .expression)
      else
        return .element name index
    else
      return .invalid
  | .mark .leftParen =>
    advance
    callLike limit deeper name x
  | _ => return .var name

/-- An operand without signs and links. -/
def primary : Parse Expr := do
  let c ← get
  match c.current with
  | .number x =>
    advance
    return .constant (.number x)
  | .string s =>
    advance
    return .constant (.string s)
  | .mark .true =>
    advance
    return .constant (.bool true)
  | .mark .false =>
    advance
    return .constant (.bool false)
  | .mark .leftParen =>
    advance
    let e ← descend limit deeper .expression
    if ← expect .rightParen "')'" then return e else return .invalid
  | .mark .leftBracket =>
    advance
    vectorLiteral limit deeper c.extent
  | .mark .leftBrace =>
    advance
    listLiteral limit deeper
  | .name name =>
    advance
    nameLike limit deeper name c.extent
  | _ =>
    modify Cursor.unexpected
    return .invalid

/-- An operand with an optional sign. -/
def signed (operand : Parse Expr) : Parse Expr := do
  match (← get).current with
  | .mark .minus =>
    advance
    return .unary .neg (← operand)
  | .mark .plus =>
    advance
    operand
  | _ => operand

/-- The marks that begin a power, an index or a member. -/
def isLink : Token → Bool
  | .mark .caret | .mark .leftBracket | .mark .dot => true
  | _ => false

/-- The links behind `base`. -/
def links (base : Expr) : Parse Expr := do
  if isLink (← get).current then descend limit deeper (.link base) else return base

/-- The link at the current mark, and those behind it. -/
def link (base : Expr) : Parse Expr := do
  match (← get).current with
  | .mark .caret =>
    advance
    let exponent ← signed (primary limit deeper)
    links limit deeper (.binary .pow base exponent)
  | .mark .leftBracket =>
    advance
    let index ← descend limit deeper .expression
    if ← expect .rightBracket "']'" then links limit deeper (.index base index)
    else return .invalid
  | _ =>
    advance
    match (← get).current with
    | .name name =>
      advance
      links limit deeper (.member base name)
    | _ =>
      modify (·.expected "member name")
      return .invalid

/-- An operand with its links. -/
def linked : Parse Expr := do
  let base ← primary limit deeper
  links limit deeper base

/-- A range, or a single operand. A sign in front of it belongs to its start. -/
def rangeLike (negated : Bool) : Parse Expr := do
  let first ← linked limit deeper
  let start := if negated then .unary .neg first else first
  if ← at? .colon then
    advance
    let second ← signed (linked limit deeper)
    if ← at? .colon then
      advance
      let stop ← signed (linked limit deeper)
      return .range start (some second) stop
    else
      return .range start none second
  else
    return start

/-- The operator that a mark stands for in front of an operand; `+` stands for none. -/
def prefixOp? : Token → Option (Option UnaryOp)
  | .mark .minus => some (some .neg)
  | .mark .plus => some none
  | .mark .bang | .mark .not => some (some .not)
  | .mark .tilde => some (some .bitNot)
  | _ => none

/-- Prefix operators and their operand: `-1:3` negates the start, `-(1:3)` the whole range. -/
def prefixed : Parse Expr := do
  match prefixOp? (← get).current with
  | none => rangeLike limit deeper false
  | some op =>
    advance
    if op = some .neg ∧ prefixOp? (← get).current = none then rangeLike limit deeper true
    else
      match deeper with
      | none => failHere (.nestingTooDeep limit)
      | some parse =>
        let operand ← parse .prefixed
        match op with
        | some op => return .unary op operand
        | none => return operand

/-- The joiners of a rank behind `left`. -/
def joins (rank : Nat) (left : Expr) : Parse Expr := do
  match (← get).current with
  | .mark m =>
    match joiner? m with
    | some op =>
      if op.rank = rank then descend limit deeper (.joined op left) else return left
    | none => return left
  | _ => return left

/-- An expression whose joiners are of the rank or tighter. -/
def ranked : Nat → Parse Expr
  | 0 => prefixed limit deeper
  | rank + 1 => do
    let left ← ranked rank
    joins limit deeper (rank + 1) left

/-- The parser of a goal at this depth. -/
def goal : Goal → Parse Expr
  | .expression => ranked limit deeper 5
  | .prefixed => prefixed limit deeper
  | .joined op left => do
    advance
    let right ← ranked limit deeper (op.rank - 1)
    joins limit deeper op.rank (op.build left right)
  | .link base => link limit deeper base

end Level

/-- The parser of a goal with `n` more levels below it. -/
def parseAt (limit : Nat) : Nat → Goal → Parse Expr
  | 0, g => goal limit none g
  | n + 1, g => goal limit (some (parseAt limit n)) g

/-- A whole expression at the outermost level. -/
def expression (limit : Nat) : Parse Expr :=
  match limit with
  | 0 => failHere (.nestingTooDeep limit)
  | n + 1 => parseAt limit n .expression

/-! ## Statements -/

/-- At most `n` steps over the statements of a text, each of which takes a lexeme or ends it. -/
def statements (limit : Nat) : Nat → Cursor → List Expr × Cursor
  | 0, c => ([], c)
  | n + 1, c =>
    let c := c.listen
    match c.current with
    | .finish => ([], c)
    | .mark .semicolon => statements limit n c.advance
    | _ =>
      let (e, c) := (expression limit).run c
      match c.current with
      | .finish => ([e], c)
      | .mark .semicolon =>
        let (es, c) := statements limit n c.listen.advance
        (e :: es, c)
      | _ =>
        let c := c.unexpected
        let (es, c) := statements limit n (c.skipStatement (c.rest.length + 1))
        (.invalid :: es, c)

/-- A single statement stands for itself. -/
def sequenceOf : List Expr → Expr
  | [e] => e
  | es => .sequence es

/-- The deepest tree that is parsed unless a limit is given. -/
def defaultLimit : Nat := 1000

/-- The cursor at the end of the text, with the statements in front of it. -/
def parseText (limit : Nat) (source : String) : List Expr × Cursor :=
  let c := Cursor.start (Lexer.lex source)
  statements limit (c.rest.length + 1) c

/-- Parses a text: its tree and all its faults. -/
def parse (limit : Nat) (source : String) : Expr × List Located :=
  let (es, c) := parseText limit source
  (sequenceOf es, c.faults.toList)

end FormulaLang.Parser
