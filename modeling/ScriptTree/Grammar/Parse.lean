import ScriptTree.Grammar.Statement
import ScriptTree.Token.Scan

/-!
Programs and expressions from tokens and from source text. The rules are tied together to a depth
that no derivation over the tokens at hand exceeds.
-/
namespace ScriptTree

namespace Grammar

def rules : Nat → Rules
  | 0 =>
    { statement := refuse .tooDeep
      assignment := refuse .tooDeep
      unary := refuse .tooDeep
      binary := fun _ => refuse .tooDeep
      construction := refuse .tooDeep }
  | depth + 1 =>
    let r := rules depth
    { statement := statement r
      assignment := assignment r
      unary := unary r
      binary := binary r
      construction := construction r }

/-- The feed at the start of some tokens; without any it stands at an end of input. -/
def Feed.ofTokens : List Token → Feed
  | [] => ⟨{ kind := .endOfInput }, { kind := .endOfInput }, [], false⟩
  | t :: rest => ⟨t, t, rest, false⟩

/-- A whole program; one without statements keeps its comments itself. -/
def program (r : Rules) : Parser Value := do
  let start ← here
  let body ← statementList r .endOfInput
  let last := (← get).current
  let made := .node .program [.list body] { span := some ⟨start, some last.stop⟩ }
  return if body.isEmpty then attachTrailing last made else made

def wholeExpression (r : Rules) : Parser Value := do
  let made ← expression r
  if ← check .endOfInput then return made
  refuse (.unexpected (← get).current.kind)

/-- Runs a parser on tokens, with rules of sufficient depth. -/
def run (parser : Rules → Parser Value) (tokens : List Token) : Except Refusal Value :=
  (parser (rules (tokens.length + 1)) (Feed.ofTokens tokens)).map Prod.fst

end Grammar

def programOfTokens (tokens : List Token) : Except Error Value :=
  (Grammar.run Grammar.program tokens).mapError Grammar.Refusal.error

/-- The program that a source text holds. -/
def parse (source : Text) : Except Error Value := do
  programOfTokens (← tokenize source)

/-- The one expression that a source text holds. -/
def parseExpression (source : Text) : Except Error Value := do
  (Grammar.run Grammar.wholeExpression (← tokenize source)).mapError Grammar.Refusal.error

end ScriptTree
