import ScriptTree.Grammar.Feed
import ScriptTree.Token.Shown

/-!
The grammar of expressions, from the loosest to the tightest binding: sequences, assignments and
arrow functions, conditionals, binary operators by rank, unary operators, postfix operators, calls
and members, and primary expressions.

The rules are mutually recursive. A rule takes the rules of the next depth as an argument and uses
them for parts that stand after at least one token of its own, so that the depth of a derivation is
at most the number of tokens.
-/
namespace ScriptTree.Grammar

structure Rules where
  statement : Parser Value
  assignment : Parser Value
  unary : Parser Value
  binary : Nat → Parser Value
  construction : Parser Value

/-- An expression made of one part, or a sequence of parts with commas between them. -/
def sequence (part : Parser Value) : Parser Value := do
  let start ← here
  let first ← part
  if ← accept .comma then
    let others ← commaList part (← get).steps
    build .sequenceExpression [.list (first :: others)] start
  else return first

def nestedExpression (r : Rules) : Parser Value := allowingIn (sequence r.assignment)

def nestedAssignment (r : Rules) : Parser Value := allowingIn r.assignment

def bindingIdentifier : Parser Value := do
  if ← check .ident then
    let t ← advance
    build .identifier [t.value] t.start
  else refuse (.expectedIdentifier (← get).current.kind)

/-- The name of a property; keywords are names here. -/
def propertyName : Parser Value := do
  let t := (← get).current
  if t.kind == .ident || t.kind.isKeyword then
    let _ ← advance
    build .identifier [.text t.word] t.start
  else refuse (.expectedProperty t.kind)

/-- A literal of a value, which takes the current token. -/
def literal (value : Value) : Parser Value := do
  let t ← advance
  return (← build .literal [value] t.start).mapNotes ({ · with raw := some t.raw })

/-- Adds the comments before a token to the end of a node's comments. -/
def attachTrailing (t : Token) (v : Value) : Value :=
  v.mapNotes fun notes =>
    { notes with comments := notes.comments ++ t.comments.map ({ · with leading := false }) }

/-- A statement with the comments before it, which take the place of any it has. -/
def attachLeading (comments : List Comment) (v : Value) : Value :=
  if comments.isEmpty then v else v.mapNotes ({ · with comments := comments })

/-- Statements up to a closing token, which is left. -/
def statements (r : Rules) (close : TokenKind) : Nat → Parser (List Value)
  | 0 => refuse .tooDeep
  | steps + 1 => do
    if ← check close then return []
    if ← check .endOfInput then refuse .unexpectedEnd
    let leading := (← get).current.comments
    let first ← r.statement
    return attachLeading leading first :: (← statements r close steps)

def mapLast (f : Value → Value) : List Value → List Value
  | [] => []
  | [v] => [f v]
  | v :: vs => v :: mapLast f vs

/-- Statements up to a closing token; the last one gets the comments before that token. -/
def statementList (r : Rules) (close : TokenKind) : Parser (List Value) := do
  let body ← statements r close (← get).steps
  return mapLast (attachTrailing (← get).current) body

/-- A block; one without statements keeps the comments inside it itself. -/
def block (r : Rules) : Parser Value := do
  let opening ← expect .leftBrace
  let body ← allowingIn (statementList r .rightBrace)
  let closing ← expect .rightBrace
  let made ← build .blockStatement [.list body] opening.start
  return if body.isEmpty then attachTrailing closing made else made

def parameters : Parser Value := do
  let _ ← expect .leftParen
  let params ← closedList .rightParen bindingIdentifier (← get).steps
  let _ ← expect .rightParen
  return .list params

/-- A function; one that is declared needs a name. -/
def functionRule (r : Rules) (declared : Bool) : Parser Value := do
  let start ← expect .kwFunction
  let name ←
    if ← check .ident then bindingIdentifier
    else if declared then refuse .unnamedFunction
    else pure .null
  let params ← parameters
  let body ← block r
  let kind := if declared then Kind.functionDeclaration else Kind.functionExpression
  build kind [name, params, body] start.start

/-- The elements of an array; a comma without an element before it leaves a hole. -/
def elements (r : Rules) : Nat → Parser (List Value)
  | 0 => refuse .tooDeep
  | steps + 1 => do
    if ← check .rightBracket then return []
    if ← accept .comma then return .null :: (← elements r steps)
    let first ← nestedAssignment r
    if ← check .rightBracket then return [first]
    let _ ← expect .comma
    return first :: (← elements r steps)

def array (r : Rules) : Parser Value := do
  let start ← expect .leftBracket
  let items ← elements r (← get).steps
  let _ ← expect .rightBracket
  build .arrayExpression [.list items] start.start

def objectProperty (r : Rules) : Parser Value := do
  let t := (← get).current
  if ← accept .leftBracket then
    let key ← nestedAssignment r
    let _ ← expect .rightBracket
    let _ ← expect .colon
    let value ← nestedAssignment r
    build .property [key, value, .bool true, .bool false] t.start
  else if t.kind == .string || t.kind == .number then
    let key ← literal t.value
    valued t key
  else if t.kind == .ident || t.kind.isKeyword then
    let key ← propertyName
    if t.kind == .ident && ((← check .comma) || (← check .rightBrace)) then
      let value ← build .identifier [t.value] t.start
      build .property [key, value, .bool false, .bool true] t.start
    else valued t key
  else refuse (.unexpectedInObject t.kind)
where
  valued (t : Token) (key : Value) : Parser Value := do
    let _ ← expect .colon
    let value ← nestedAssignment r
    build .property [key, value, .bool false, .bool false] t.start

def object (r : Rules) : Parser Value := do
  let start ← expect .leftBrace
  let properties ← closedList .rightBrace (objectProperty r) (← get).steps
  let _ ← expect .rightBrace
  build .objectExpression [.list properties] start.start

/-- An expression that no operator outside of it can take apart. -/
def primary (r : Rules) : Parser Value := do
  let t := (← get).current
  match t.kind with
  | .ident => do
    let _ ← advance
    build .identifier [t.value] t.start
  | .number | .string => literal t.value
  | .kwTrue => literal (.bool true)
  | .kwFalse => literal (.bool false)
  | .kwNull => literal .null
  | .kwThis => do
    let _ ← advance
    build .thisExpression [] t.start
  | .kwFunction => functionRule r false
  | .leftParen => do
    let _ ← advance
    let inner ← nestedExpression r
    let _ ← expect .rightParen
    return inner
  | .leftBracket => array r
  | .leftBrace => object r
  | .endOfInput => refuse .unexpectedEnd
  | kind => refuse (.unexpected kind)

def arguments (r : Rules) : Parser Value := do
  let _ ← expect .leftParen
  let args ← closedList .rightParen (nestedAssignment r) (← get).steps
  let _ ← expect .rightParen
  return .list args

def member? (r : Rules) (start : Mark) (object : Value) : Parser (Option Value) := do
  if ← accept .dot then
    let name ← propertyName
    return some (← build .memberExpression [object, name, .bool false] start)
  else if ← accept .leftBracket then
    let index ← nestedExpression r
    let _ ← expect .rightBracket
    return some (← build .memberExpression [object, index, .bool true] start)
  else return none

def members (r : Rules) (start : Mark) : Nat → Value → Parser Value
  | 0, _ => refuse .tooDeep
  | steps + 1, object => do
    match ← member? r start object with
    | some made => members r start steps made
    | none => return object

/-- A construction: its callee takes member accesses but no calls. -/
def construction (r : Rules) : Parser Value := do
  let start ← expect .kwNew
  let head ← if ← check .kwNew then r.construction else primary r
  let callee ← members r start.start (← get).steps head
  let args ← if ← check .leftParen then arguments r else pure (.list [])
  build .newExpression [callee, args] start.start

def accesses (r : Rules) (start : Mark) : Nat → Value → Parser Value
  | 0, _ => refuse .tooDeep
  | steps + 1, object => do
    match ← member? r start object with
    | some made => accesses r start steps made
    | none =>
      if ← check .leftParen then
        let args ← arguments r
        accesses r start steps (← build .callExpression [object, args] start)
      else return object

def access (r : Rules) : Parser Value := do
  let start ← here
  let head ← if ← check .kwNew then construction r else primary r
  accesses r start (← get).steps head

def isTarget (v : Value) : Bool :=
  match v.kind? with
  | some .identifier => true
  | some .memberExpression => true
  | _ => false

def stepped (r : Rules) : Parser Value := do
  let start ← here
  let target ← access r
  let t := (← get).current
  if t.kind.isUpdate && !t.newlineBefore then
    if !isTarget target then refuse .updateTarget
    let _ ← advance
    build .updateExpression [t.value, .bool false, target] start
  else return target

def unary (r : Rules) : Parser Value := do
  let t := (← get).current
  if t.kind.isUnary then
    let _ ← advance
    let argument ← r.unary
    build .unaryExpression [t.value, argument] t.start
  else if t.kind.isUpdate then
    let _ ← advance
    let argument ← r.unary
    if !isTarget argument then refuse .updateTarget
    build .updateExpression [t.value, .bool true, argument] t.start
  else stepped r

def operatorRank : Parser (Option Nat) := do
  let f ← get
  return if f.sees .kwIn && f.noIn then none else f.current.kind.rank?

def operations (r : Rules) (start : Mark) (least : Nat) : Nat → Value → Parser Value
  | 0, _ => refuse .tooDeep
  | steps + 1, left => do
    match ← operatorRank with
    | none => return left
    | some rank =>
      if rank ≤ least then return left
      else
        let t ← advance
        let right ← r.binary (if t.kind == .power then rank - 1 else rank)
        let kind := if t.kind.isLogical then Kind.logicalExpression else Kind.binaryExpression
        operations r start least steps (← build kind [t.value, left, right] start)

def binary (r : Rules) (least : Nat) : Parser Value := do
  let start ← here
  let left ← unary r
  operations r start least (← get).steps left

def conditional (r : Rules) : Parser Value := do
  let start ← here
  let test ← binary r 0
  if ← accept .question then
    let consequent ← allowingIn r.assignment
    let _ ← expect .colon
    let alternate ← r.assignment
    build .conditionalExpression [test, consequent, alternate] start
  else return test

/-- Whether the bracket that closes the open ones is followed by an arrow on its line. -/
def arrowAfter : Nat → List Token → Bool
  | _, [] => false
  | depth, t :: rest =>
    if t.kind.opens then arrowAfter (depth + 1) rest
    else if t.kind.closes then
      if depth ≤ 1 then
        match rest with
        | next :: _ => next.kind == .arrow && !next.newlineBefore
        | [] => false
      else arrowAfter (depth - 1) rest
    else if t.kind == .endOfInput then false
    else arrowAfter depth rest

/-- Whether an arrow function starts here: a name or a bracketed part with an arrow after it. -/
def Feed.startsArrow (f : Feed) : Bool :=
  match f.current.kind with
  | .ident => f.rest.head?.any (·.kind == .arrow)
  | .leftParen => arrowAfter 0 (f.current :: f.rest)
  | _ => false

def arrow (r : Rules) : Parser Value := do
  let start ← here
  let params ← if ← check .ident then (fun p => .list [p]) <$> bindingIdentifier else parameters
  let _ ← expect .arrow
  if ← check .leftBrace then
    let body ← block r
    build .arrowFunctionExpression [params, body, .bool false] start
  else
    let body ← allowingIn r.assignment
    build .arrowFunctionExpression [params, body, .bool true] start

def assignment (r : Rules) : Parser Value := do
  if (← get).startsArrow then arrow r
  else
    let start ← here
    let left ← conditional r
    let t := (← get).current
    if t.kind.isAssignment then
      if !isTarget left then refuse .assignmentTarget
      let _ ← advance
      let right ← r.assignment
      build .assignmentExpression [t.value, left, right] start
    else return left

def expression (r : Rules) : Parser Value := sequence (assignment r)

end ScriptTree.Grammar
