import ScriptTree.Error
import ScriptTree.Token.Basic

/-!
Reading tokens. A feed stands at a current token, remembers the one before it, and stays at the last
token for good. A parser takes tokens from a feed and gives a result, or refuses at a token.
-/
namespace ScriptTree.Grammar

structure Feed where
  prev : Token
  current : Token
  rest : List Token
  /-- Whether the word `in` is no operator here, as in the head of a loop. -/
  noIn : Bool := false

structure Refusal where
  fault : GrammarFault
  line : Nat
  column : Nat
  deriving DecidableEq

def Refusal.error (r : Refusal) : Error := .grammar r.fault r.line r.column

abbrev Parser (α : Type) := StateT Feed (Except Refusal) α

namespace Feed

/-- Moves to the next token; at the last one it stays. -/
def next (f : Feed) : Feed :=
  match f.rest with
  | [] => { f with prev := f.current }
  | t :: rest => { f with prev := f.current, current := t, rest := rest }

def sees (f : Feed) (kind : TokenKind) : Bool := f.current.kind == kind

/-- How many steps a loop may take that moves on in each of them. -/
def steps (f : Feed) : Nat := f.rest.length + 1

/-- Whether a statement may end before the current token without a semicolon of its own. -/
def endsStatement (f : Feed) : Bool :=
  f.sees .rightBrace || f.sees .endOfInput || f.current.newlineBefore

end Feed

def refuse {α : Type} (fault : GrammarFault) : Parser α := fun f =>
  .error ⟨fault, f.current.start.line, f.current.start.column⟩

def advance : Parser Token := fun f => .ok (f.current, f.next)

def check (kind : TokenKind) : Parser Bool := return (← get).sees kind

def accept (kind : TokenKind) : Parser Bool := do
  if ← check kind then
    let _ ← advance
    return true
  return false

/-- Takes the current token, which has to be of a class. -/
def expect (kind : TokenKind) : Parser Token := do
  if ← check kind then advance
  else refuse (.expected kind (← get).current.kind)

/-- Takes a semicolon, or goes on where a statement may end without one. -/
def endStatement : Parser Unit := do
  if ← accept .semicolon then return
  if (← get).endsStatement then return
  refuse .expectedSemicolon

/-- Runs a parser where the word `in` is an operator again. -/
def allowingIn {α : Type} (p : Parser α) : Parser α := do
  let saved := (← get).noIn
  modify ({ · with noIn := false })
  let result ← p
  modify ({ · with noIn := saved })
  return result

/-- Runs a parser in the head of a loop, where the word `in` is no operator. -/
def withoutIn {α : Type} (p : Parser α) : Parser α := do
  modify ({ · with noIn := true })
  let result ← p
  modify ({ · with noIn := false })
  return result

/-- A node from a start to the last token taken. -/
def build (kind : Kind) (children : List Value) (start : Mark) : Parser Value := do
  return .node kind children { span := some ⟨start, some (← get).prev.stop⟩ }

def here : Parser Mark := return (← get).current.start

def commaList (item : Parser Value) : Nat → Parser (List Value)
  | 0 => refuse .tooDeep
  | steps + 1 => do
    let first ← item
    if ← accept .comma then return first :: (← commaList item steps)
    return [first]

/-- Items with commas between them up to a closing token, which is left; a comma may come last. -/
def closedList (close : TokenKind) (item : Parser Value) : Nat → Parser (List Value)
  | 0 => refuse .tooDeep
  | steps + 1 => do
    if ← check close then return []
    let first ← item
    if ← accept .comma then return first :: (← closedList close item steps)
    return [first]

end ScriptTree.Grammar
