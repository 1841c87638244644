import ScriptTree.Token.Kind
import ScriptTree.Tree.Value

/-! Tokens: what the source text is cut into. White space and comments are no tokens; a token knows
the comments and whether there was a line end since the token before it. -/
namespace ScriptTree

structure Token where
  kind : TokenKind
  value : Value := .null
  start : Mark := ⟨0, 0, 0⟩
  stop : Mark := ⟨0, 0, 0⟩
  raw : Text := []
  newlineBefore : Bool := false
  comments : List Comment := []
  deriving Inhabited

namespace Mark

def first : Mark := ⟨1, 1, 0⟩

def right (m : Mark) (count : Nat) : Mark := ⟨m.line, m.column + count, m.offset + count⟩

/-- The start of the next line, after some code points that end this one. -/
def nextLine (m : Mark) (count : Nat) : Mark := ⟨m.line + 1, 1, m.offset + count⟩

end Mark

end ScriptTree
