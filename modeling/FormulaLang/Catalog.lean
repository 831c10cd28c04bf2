import FormulaLang.Engine.Eval

/-!
# The catalog

The functions and constants that an engine has unless its settings leave them out.

* `unaryMath`, `binaryMath`: numeric functions, elementwise on vectors and matrices, with a fast
  path on numbers.
* `partials`: the steps of folding items, behind `sum`, `prod`, `cumsum` and `cumprod`.
* `structOf`, `varname`: making structs and naming variables.
* `Catalog.functions`, `Catalog.constants`, `Engine.registerCatalog`, `Engine.create`.
-/

namespace FormulaLang.Catalog

/-- A numeric function of one argument. -/
def unaryMath (name : String) (f : Float → Float) : String × Function :=
  (name, {
    callable := .native fun
      | [x] =>
        match x.mapNumbers? f with
        | some v => .done v
        | none => .fail (.failure (name ++ "() expects numbers, got " ++ x.kind.name))
      | _ => .done .invalid
    arity := some 1
    fast := FastPaths.addPlain {} (.unary f Number.nan) })

/-- A numeric function of two arguments. -/
def binaryMath (name : String) (f : Float → Float → Float) : String × Function :=
  (name, {
    callable := .native fun
      | [a, b] => .ofResult (a.zipNumbers name f b)
      | _ => .done .invalid
    arity := some 2
    fast := FastPaths.addPlain {} (.binary f Number.nan) })

/-- A function of one value. -/
def onValue (name : String) (f : Value → Request Value) : String × Function :=
  (name, {
    callable := .native fun
      | [v] => f v
      | _ => .done .invalid
    arity := some 1 })

/-! ## Reductions -/

/-- The results of folding items one after the other, behind `out`; `none` as soon as one of them
is invalid. -/
def partials (op : BinaryOp) :
    List Value → Option Value → Array Value → Except Fault (Option (Array Value))
  | [], _, out => .ok (some out)
  | item :: rest, acc, out =>
    match fold op acc item with
    | .error f => .error f
    | .ok v => if v.isInvalid then .ok none else partials op rest (some v) (out.push v)

/-- A function that folds the items of a value and packs the steps. -/
def reduction (name : String) (op : BinaryOp) (pack : Array Value → Value) : String × Function :=
  onValue name fun v =>
    match v.items? with
    | none => .fail (.failure (name ++ "() cannot reduce " ++ v.kind.name))
    | some items => .ofResult ((partials op items none #[]).map fun
      | some steps => pack steps
      | none => .invalid)

/-- The last step, or a number if there is none. -/
def lastOr (empty : Float) (steps : Array Value) : Value := steps.back?.getD (.number empty)

/-! ## Structs and names -/

/-- Pairs names with values. -/
def memberPairs : List Value → Except Fault (List (String × Value))
  | name :: v :: rest =>
    match name with
    | .string s => (memberPairs rest).map ((s, v) :: ·)
    | other =>
      .error (.failure ("struct() member names must be strings, got " ++ other.kind.name))
  | _ => .ok []

/-- The struct of names and values in turn. -/
def structOf (args : List Value) : Except Fault Value :=
  if args.length % 2 ≠ 0 then .error (.failure "struct() expects name/value pairs")
  else (memberPairs args).map fun pairs => .struct (Members.ofPairs pairs)

/-- The name of a variable, which is not evaluated. -/
def varname : List Expr → Request Value
  | [.var name] => .done (.string name)
  | _ => .fail (.failure "varname() expects a single variable")

/-! ## The whole catalog -/

def functions : List (String × Function) := [
  unaryMath "sin" Float.sin,
  unaryMath "cos" Float.cos,
  unaryMath "tan" Float.tan,
  unaryMath "asin" Float.asin,
  unaryMath "acos" Float.acos,
  unaryMath "atan" Float.atan,
  unaryMath "exp" Float.exp,
  unaryMath "log" Float.log,
  unaryMath "log10" Float.log10,
  unaryMath "sqrt" Float.sqrt,
  unaryMath "abs" Float.abs,
  unaryMath "floor" Float.floor,
  unaryMath "ceil" Float.ceil,
  unaryMath "round" Float.round,
  unaryMath "trunc" Number.truncate,
  binaryMath "atan2" Float.atan2,
  binaryMath "min" Number.least,
  binaryMath "max" Number.greatest,
  onValue "length" fun v => .done (.number (Float.ofNat v.length)),
  reduction "sum" .add (lastOr 0.0),
  reduction "prod" .mul (lastOr 1.0),
  reduction "cumsum" .add fun steps => Value.collect steps.toList,
  reduction "cumprod" .mul fun steps => Value.collect steps.toList,
  onValue "typeof" fun v => .done (.string v.kind.name),
  onValue "tostring" fun v => .done (.string v.text),
  ("struct", { callable := .native fun args => .ofResult (structOf args) }),
  ("varname", { callable := .lazy varname })]

/-- The doubles nearest to π and e. -/
def constants : List (String × Float) :=
  [("pi", 3.141592653589793), ("e", 2.718281828459045)]

/-- Binds the catalog at the current level. -/
def addTo (env : Environment) : Environment :=
  let env := functions.foldl (fun env f => env.addFunction f.1 f.2) env
  constants.foldl (fun env c => env.addVariable c.1 (.number c.2)) env

end FormulaLang.Catalog

namespace FormulaLang.Engine

/-- Binds the catalog if the settings ask for it. -/
def registerCatalog (st : Engine) : Engine :=
  if st.settings.catalog then { st with env := Catalog.addTo st.env } else st

/-- A new engine. -/
def create (settings : Settings) : Engine := registerCatalog ⟨.empty, #[], settings⟩

/-- Drops all bindings and starts again from the catalog. -/
def clear (st : Engine) : Engine := registerCatalog { st with env := st.env.clear }

end FormulaLang.Engine
