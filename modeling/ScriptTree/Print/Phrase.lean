import ScriptTree.Print.Layout
import ScriptTree.Tree.Arithmetic
import ScriptTree.Tree.Shown

/-!
Phrases: what expressions print as. An expression prints as source text, except that an identifier
prints as its name whatever value that is. Where phrases are put together decides what becomes of a
value that is no text.
-/
namespace ScriptTree

/-- Source text, or a value that is no text in the place of it. -/
inductive Phrase
  | source (l : Layout)
  | odd (v : Value)

namespace Phrase

def ofValue : Value → Phrase
  | .text t => source (Layout.ofText t)
  | v => odd v

/-- A phrase inside a line that is put together; an odd value is shown there. -/
def spoken : Phrase → Except Error Layout
  | source l => .ok l
  | odd v => do return Layout.ofText (← v.spoken)

/-- A phrase where only source text can stand. -/
def strict : Phrase → Except Error Layout
  | source l => .ok l
  | odd _ => .error .wrongType

/-- A phrase whose beginning is looked at; an odd value has none. -/
def begun : Phrase → Except Error Layout
  | source l => .ok l
  | odd _ => .error .lacksPart

/-- One phrase directly after another; of two odd values it is the sum. -/
def plus : Phrase → Phrase → Except Error Phrase
  | source l, source m => .ok (source (l ++ m))
  | odd v, odd w => odd <$> v.plus w
  | _, _ => .error .wrongType

def separated (phrases : List Phrase) : Except Error Layout := do
  return Layout.join (Layout.lay ", ") (← phrases.mapM strict)

def render (width : Int) : Phrase → Value
  | source l => .text (l.render width)
  | odd v => v

end Phrase

end ScriptTree
