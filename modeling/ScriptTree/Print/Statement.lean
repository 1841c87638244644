import ScriptTree.Print.Expression

/-! Printing of statements, one to a line, with the comments around them. -/
namespace ScriptTree.Print

open Layout

def declarator (r : Rules) (c : Context) (v : Value) : Except Error Phrase := do
  let name ← r.expression c sequenceRank (← v.field "id")
  match ← v.field "init" with
  | .null => return name
  | init => do
    let name ← name.spoken
    return .source (name ++ lay " = " ++ (← (← r.expression c assignmentRank init).spoken))

def declaration (r : Rules) (c : Context) (v : Value) : Except Error Layout := do
  let declarators ← Phrase.separated (← (← items v "declarations").mapM (declarator r c))
  let kind ← (← v.field "kind").spoken
  return ofText kind ++ lay " " ++ declarators

/-- The body of a choice or a loop: a block on the same line, or one statement on the next. -/
def body (r : Rules) (c : Context) (v : Value) : Except Error Layout := do
  if v.isKind .blockStatement then return lay " " ++ (← block r c v)
  return [.line (c.depth + 1)] ++ (← r.statement c.deeper v)

def joiner (c : Context) (body : Value) : Layout :=
  if body.isKind .blockStatement then lay " " else [.line c.depth]

def handler (r : Rules) (c : Context) (v : Value) : Except Error Layout := do
  let head ←
    match ← v.field "param" with
    | .null => pure (lay "catch")
    | param => do
      pure (lay "catch " ++ parens (← (← r.expression c sequenceRank param).spoken))
  return head ++ lay " " ++ (← block r c (← v.field "body"))

def loopTarget (r : Rules) (c : Context) (v : Value) : Except Error Phrase :=
  if v.isKind .variableDeclaration then .source <$> declaration r c v
  else r.expression c callRank v

/-- A choice; the choice in its other branch goes on in the same line. -/
def choice (r : Rules) (c : Context) (v : Value) : Except Error Layout := do
  let test ← r.expression c sequenceRank (← v.field "test")
  let consequent ← v.field "consequent"
  let alternate ← v.field "alternate"
  let test ← test.spoken
  let head := lay "if " ++ parens test ++ (← body r c consequent)
  if alternate.isNull then return head
  let head := head ++ joiner c consequent ++ lay "else"
  if alternate.isKind .ifStatement then return head ++ lay " " ++ (← r.choice c alternate)
  return head ++ (← body r c alternate)

def loopInit (r : Rules) (c : Context) (v : Value) : Except Error Phrase :=
  if v.isNull then .ok (.source [])
  else if v.isKind .variableDeclaration then .source <$> declaration r c.loopHead v
  else r.expression c.loopHead sequenceRank v

def loopPart (r : Rules) (c : Context) (v : Value) : Except Error Layout := do
  if v.isNull then return []
  return lay " " ++ (← (← r.expression c sequenceRank v).strict)

def countedLoop (r : Rules) (c : Context) (v : Value) : Except Error Layout := do
  let init ← v.field "init"
  let test ← v.field "test"
  let update ← v.field "update"
  let init ← loopInit r c init
  let test ← loopPart r c test
  let update ← loopPart r c update
  let head := (← init.spoken) ++ lay ";" ++ test ++ lay ";" ++ update
  return lay "for " ++ parens head ++ (← body r c (← v.field "body"))

def loopOver (r : Rules) (c : Context) (preposition : String) (v : Value) :
    Except Error Layout := do
  let left ← loopTarget r c (← v.field "left")
  let right ← r.expression c assignmentRank (← v.field "right")
  let head := (← left.spoken) ++ lay preposition ++ (← right.spoken)
  return lay "for " ++ parens head ++ (← body r c (← v.field "body"))

def testedLoop (r : Rules) (c : Context) (v : Value) : Except Error Layout := do
  let test ← (← r.expression c sequenceRank (← v.field "test")).spoken
  return lay "while " ++ parens test ++ (← body r c (← v.field "body"))

def repeatedLoop (r : Rules) (c : Context) (v : Value) : Except Error Layout := do
  let inner ← v.field "body"
  let innerText ← body r c inner
  let test ← (← r.expression c sequenceRank (← v.field "test")).spoken
  return lay "do" ++ innerText ++ joiner c inner ++ lay "while " ++ parens test ++ lay ";"

def guarded (r : Rules) (c : Context) (v : Value) : Except Error Layout := do
  let head := lay "try " ++ (← block r c (← v.field "block"))
  let handled ← v.field "handler"
  let head ←
    if handled.isNull then pure head else pure (head ++ lay " " ++ (← handler r c handled))
  let finalizer ← v.field "finalizer"
  if finalizer.isNull then return head
  return head ++ lay " finally " ++ (← block r c finalizer)

def wordWith (r : Rules) (c : Context) (word : String) (v : Value) : Except Error Layout := do
  return lay word ++ lay " " ++ (← (← r.expression c sequenceRank v).spoken) ++ lay ";"

def simple (r : Rules) (c : Context) (word field : String) (v : Value) : Except Error Layout := do
  match ← v.field field with
  | .null => return lay word ++ lay ";"
  | argument => wordWith r c word argument

/-- An expression as a statement; one that would be read as a block or a declared function stands in
parentheses. -/
def expressionStatement (r : Rules) (c : Context) (v : Value) : Except Error Layout := do
  let inner ← (← r.expression c sequenceRank (← v.field "expression")).begun
  let clash := inner.startsWith (text "\x7b") || inner.startsWith (text "function")
  return (if clash then parens inner else inner) ++ lay ";"

def bareStatement (r : Rules) (c : Context) (v : Value) : Except Error Layout :=
  match v.kind? with
  | none => .error .lacksPart
  | some kind =>
    match kind with
    | .expressionStatement => expressionStatement r c v
    | .blockStatement => block r c v
    | .emptyStatement => .ok (lay ";")
    | .variableDeclaration => do return (← declaration r c v) ++ lay ";"
    | .functionDeclaration => function r c v
    | .returnStatement => simple r c "return" "argument" v
    | .breakStatement => simple r c "break" "label" v
    | .continueStatement => simple r c "continue" "label" v
    | .throwStatement => do wordWith r c "throw" (← v.field "argument")
    | .ifStatement => choice r c v
    | .forStatement => countedLoop r c v
    | .forInStatement => loopOver r c " in " v
    | .forOfStatement => loopOver r c " of " v
    | .whileStatement => testedLoop r c v
    | .doWhileStatement => repeatedLoop r c v
    | .tryStatement => guarded r c v
    | kind => malformedAt .notStatement kind

/-- Whether the trailing comments of a statement stand after it: those of an empty block are inside
it. -/
def keepsTrailing (v : Value) : Except Error Bool := do
  if v.isKind .blockStatement then return (← v.field "body").isTruthy
  return true

/-- A statement with the comments before and after it, each on a line. -/
def statement (r : Rules) (c : Context) (v : Value) : Except Error Layout := do
  let own ← bareStatement r c v
  let trailing := if ← keepsTrailing v then commentLines c v false else []
  return join [.line c.depth] (commentLines c v true ++ [own] ++ trailing)

end ScriptTree.Print
