import ScriptTree.Token.Basic
import ScriptTree.Tree.Shown

/-! Tokens as messages show them, and the words that name properties. -/
namespace ScriptTree

def Token.shown (t : Token) : Except Error Text := do
  return text "Tok(" ++ text t.kind.name ++ text ", " ++ (← t.value.shown) ++ text ", " ++
    Text.decimal t.start.line ++ text ":" ++ Text.decimal t.start.column ++ text ")"

/-- The word of a token: its source text, or its value in a sentence if it has none. -/
def Token.word (t : Token) : Text :=
  if t.raw.isEmpty then
    -- only an integer beyond the limit of what can be written has no text
    t.value.spoken.toOption.getD []
  else t.raw

end ScriptTree
