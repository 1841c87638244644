import ScriptTree.Grammar.Expression

/-! The grammar of statements. Statements are read where the word `in` is an operator. -/
namespace ScriptTree.Grammar

def declarator (r : Rules) : Parser Value := do
  let start ← here
  let name ← bindingIdentifier
  let init ← if ← accept .assign then assignment r else pure .null
  build .variableDeclarator [name, init] start

def declaration (r : Rules) : Parser Value := do
  let word ← advance
  let declarators ← commaList (declarator r) (← get).steps
  build .variableDeclaration [.text (text word.kind.spelling), .list declarators] word.start

def condition (r : Rules) : Parser Value := do
  let _ ← expect .leftParen
  let test ← expression r
  let _ ← expect .rightParen
  return test

def ifRule (r : Rules) : Parser Value := do
  let start ← expect .kwIf
  let test ← condition r
  let consequent ← r.statement
  let alternate ← if ← accept .kwElse then r.statement else pure .null
  build .ifStatement [test, consequent, alternate] start.start

/-- What a loop over a collection can bind: one variable without an initial value, or a target. -/
def isLoopTarget : Value → Bool
  | .node .variableDeclaration [_, .list [.node _ [_, .null] _]] _ => true
  | .node .identifier _ _ => true
  | .node .memberExpression _ _ => true
  | _ => false

/-- The rest of a loop over the names or the items of a collection. -/
def loopOver (r : Rules) (start : Mark) (left : Value) : Parser Value := do
  let names ← check .kwIn
  if !isLoopTarget left then refuse .forTarget
  let _ ← advance
  let right ← if names then expression r else assignment r
  let _ ← expect .rightParen
  let body ← r.statement
  let kind := if names then Kind.forInStatement else Kind.forOfStatement
  build kind [left, right, body] start

/-- Whether the current token is the word that makes a loop run over a collection. -/
def Feed.atLoopWord (f : Feed) : Bool :=
  f.sees .kwIn || (f.sees .ident &&
    match f.current.value with
    | .text word => word == text "of"
    | _ => false)

/-- The rest of a loop with a test and an update. -/
def countedLoop (r : Rules) (start : Mark) (init : Value) : Parser Value := do
  let _ ← expect .semicolon
  let test ← if ← check .semicolon then pure .null else expression r
  let _ ← expect .semicolon
  let update ← if ← check .rightParen then pure .null else expression r
  let _ ← expect .rightParen
  let body ← r.statement
  build .forStatement [init, test, update, body] start

def forRule (r : Rules) : Parser Value := do
  let start ← expect .kwFor
  let _ ← expect .leftParen
  if ← check .semicolon then countedLoop r start.start .null
  else
    let init ← withoutIn do
      if (← get).current.kind.declares then declaration r else expression r
    if (← get).atLoopWord then loopOver r start.start init
    else countedLoop r start.start init

def whileRule (r : Rules) : Parser Value := do
  let start ← expect .kwWhile
  let test ← condition r
  let body ← r.statement
  build .whileStatement [test, body] start.start

def doRule (r : Rules) : Parser Value := do
  let start ← expect .kwDo
  let body ← r.statement
  let _ ← expect .kwWhile
  let test ← condition r
  let _ ← accept .semicolon
  build .doWhileStatement [body, test] start.start

def handler (r : Rules) : Parser Value := do
  let start ← expect .kwCatch
  let param ←
    if ← accept .leftParen then
      let name ← bindingIdentifier
      let _ ← expect .rightParen
      pure name
    else pure .null
  let body ← block r
  build .catchClause [param, body] start.start

def tryRule (r : Rules) : Parser Value := do
  let start ← expect .kwTry
  let guarded ← block r
  let handled ← if ← check .kwCatch then handler r else pure .null
  let finalizer ← if ← accept .kwFinally then block r else pure .null
  if handled.isNull && finalizer.isNull then refuse .bareTry
  build .tryStatement [guarded, handled, finalizer] start.start

/-- The end of a function, with a result on the same line or without one. -/
def returnRule (r : Rules) : Parser Value := do
  let start ← expect .kwReturn
  let f ← get
  let argument ← if f.sees .semicolon || f.endsStatement then pure .null else expression r
  endStatement
  build .returnStatement [argument] start.start

/-- A jump out of a loop or to its next round, with a label on the same line or without one. -/
def jumpRule (kind : Kind) : Parser Value := do
  let start ← advance
  let f ← get
  let label ← if f.sees .ident && !f.current.newlineBefore then bindingIdentifier else pure .null
  endStatement
  build kind [label] start.start

/-- The raising of a value, which stands on the same line. -/
def throwRule (r : Rules) : Parser Value := do
  let start ← expect .kwThrow
  if (← get).current.newlineBefore then refuse .lineEndAfterThrow
  let argument ← expression r
  endStatement
  build .throwStatement [argument] start.start

def expressionRule (r : Rules) : Parser Value := do
  let start ← here
  let inner ← expression r
  endStatement
  build .expressionStatement [inner] start

def statement (r : Rules) : Parser Value := do
  match (← get).current.kind with
  | .leftBrace => block r
  | .semicolon => do
    let t ← advance
    build .emptyStatement [] t.start
  | .kwVar | .kwLet | .kwConst => do
    let made ← declaration r
    endStatement
    return made
  | .kwFunction => functionRule r true
  | .kwIf => ifRule r
  | .kwFor => forRule r
  | .kwWhile => whileRule r
  | .kwDo => doRule r
  | .kwTry => tryRule r
  | .kwReturn => returnRule r
  | .kwBreak => jumpRule .breakStatement
  | .kwContinue => jumpRule .continueStatement
  | .kwThrow => throwRule r
  | _ => expressionRule r

end ScriptTree.Grammar
