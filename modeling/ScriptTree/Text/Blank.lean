import ScriptTree.Text.Ranges

/-! White space of all scripts, and what is left of a text without it. -/
namespace ScriptTree

def Point.widerBlanks : Ranges :=
  [ (133, 133), (160, 160), (5760, 5760), (8192, 8202), (8232, 8233), (8239, 8239), (8287, 8287),
    (12288, 12288) ]

/-- White space of any script, the ASCII separators included. -/
def Point.isBlank (c : Point) : Bool :=
  if c < 128 then (9 ≤ c && c ≤ 13) || (28 ≤ c && c ≤ 32) else widerBlanks.has c

namespace Text

def trimLeft (t : Text) : Text := t.dropWhile Point.isBlank

def trim (t : Text) : Text := ((trimLeft t).reverse.dropWhile Point.isBlank).reverse

def firstWord (t : Text) : Text × Text :=
  let t := t.trim
  (t.takeWhile (!Point.isBlank ·), Text.trimLeft (t.dropWhile (!Point.isBlank ·)))

end Text

end ScriptTree
