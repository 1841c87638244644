import ScriptTree.Print.Node
import ScriptTree.Query
import ScriptTree.Tree.Shown

/-! What the explorer shows of a source: the program in its canonical form, its tree, and the names
in each scope. -/
namespace ScriptTree

def Text.precedes : Text → Text → Bool
  | [], _ => true
  | _ :: _, [] => false
  | a :: as, b :: bs => if a = b then precedes as bs else a < b

/-- Names in order. Names that are no texts have an order only if they are numbers. -/
def sortedNames (names : List Value) : Except Error (List Value) :=
  match names.mapM Value.text? with
  | some texts => .ok ((texts.mergeSort Text.precedes).map .text)
  | none =>
    if names.length ≤ 1 then .ok names
    else if names.all Value.isNumber then .ok (names.mergeSort Value.atMost)
    else .error .wrongType

namespace Explorer

/-- The line of a scope in the report: its kind, its line, and the names that would clash in it. -/
def scopeLine (p : Path) : Except Error Text := do
  let names ← sortedNames (← p.namesInScope)
  match p.value with
  | .node kind _ notes =>
    let line :=
      match notes.span with
      | some span => text " (line " ++ Text.decimal span.start.line ++ text ")"
      | none => []
    let listed ←
      match names.mapM Value.text? with
      | some texts => pure (Text.join (text ", ") texts)
      | none => .error .wrongType
    return Text.spaces (2 * p.scope.depth) ++ text kind.name ++ line ++ text ": " ++
      (if listed.isEmpty then text "-" else listed)
  | _ => .error .lacksPart

/-- One line for each scope of a tree, in pre-order. -/
def scopeReport (v : Value) : Except Error (List Text) := do
  let root := Path.root 0 v
  let walk := root.descendants
  let lines ← ((root :: walk.paths).filter (·.establishes)).mapM scopeLine
  match walk.fault with
  | some e => .error e
  | none => return lines

structure Settings where
  showTree : Bool := false
  showScopes : Bool := true

/-- The sections that the explorer shows of a source, with an empty line between them. -/
def describe (source : Text) (settings : Settings) : Except Error Text := do
  let tree ← parse source
  let printed ← tree.print {}
  let dumped ← if settings.showTree then tree.dump (text "  ") else pure []
  let scopes ←
    if settings.showScopes then Text.join [Point.lineFeed] <$> scopeReport tree else pure []
  let sections := [printed, dumped, scopes].filter (!·.isEmpty)
  return Text.join [Point.lineFeed, Point.lineFeed] sections

end Explorer

end ScriptTree
