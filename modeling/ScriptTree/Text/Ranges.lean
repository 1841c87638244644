import ScriptTree.Text.Basic

/-! Sets of code points given by closed ranges. -/
namespace ScriptTree

/-- Closed ranges of code points, ascending and disjoint. -/
abbrev Ranges := List (Point × Point)

def Ranges.has (ranges : Ranges) (c : Point) : Bool :=
  ranges.any fun range => range.1 ≤ c && c ≤ range.2

end ScriptTree
