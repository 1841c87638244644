import ScriptTree.Text.Basic

/-!
Layouts: printed text in which the line ends that the printer makes are kept apart, each with the
depth of the line after it. The width of an indentation step is chosen when a layout is rendered, so
it cannot bear on anything else.
-/
namespace ScriptTree

/-- A code point of printed text, or a line end with the depth of the next line. -/
inductive Glyph
  | point (c : Point)
  | line (depth : Nat)
  deriving DecidableEq

/-- Printed text before its indentation is chosen. -/
abbrev Layout := List Glyph

namespace Layout

/-- A text as a layout; the line ends in it are not the printer's. -/
def ofText (t : Text) : Layout := t.map .point

def lay (s : String) : Layout := ofText (text s)

def join (separator : Layout) (parts : List Layout) : Layout := separator.intercalate parts

def parens (l : Layout) : Layout := lay "(" ++ l ++ lay ")"

def startsWith (l : Layout) (head : Text) : Bool := (ofText head).isPrefixOf l

/-- The text of a layout, with `width` spaces for each step of depth; a negative width gives no
indentation. -/
def render (width : Int) (l : Layout) : Text :=
  l.flatMap fun
    | .point c => [c]
    | .line depth => Point.lineFeed :: Text.spaces (width * depth).toNat

end Layout

end ScriptTree
