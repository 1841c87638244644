import ScriptTree.Explorer.Report
import ScriptTree.Text.Blank

/-!
The explorer's commands, which begin with a slash, its completions, and what the Enter key does.
-/
namespace ScriptTree.Explorer

structure State extends Settings where
  traceVariable : Option Text := none

def traceVariableName : String := "ASTKIT_DEBUG_PY_TRACE"

/-- Whether tracebacks are on: the variable holds one of the words for true. -/
def State.traces (s : State) : Bool :=
  [text "1", text "true", text "yes", text "on"].contains (s.traceVariable.getD []).trim.lower

/-- Turns tracebacks on or off; off removes the variable. -/
def State.setTrace (s : State) (on : Bool) : State :=
  { s with traceVariable := if on then some (text "1") else none }

structure Output where
  out : Text := []
  err : Text := []

def Output.line (t : Text) : Output := { out := t ++ [Point.lineFeed] }

def Output.errorLine (t : Text) : Output := { err := t ++ [Point.lineFeed] }

def commands : List (String × String) :=
  [ ("/clear", "Clear the terminal screen"),
    ("/py-traceback", "Toggle Python traceback on errors"),
    ("/scopes", "Toggle per-scope identifier listing"),
    ("/tree", "Toggle tree dump") ]

def completions (t : Text) : List (String × String) :=
  if t.startsWith (text "/") then commands.filter fun entry => (text entry.1).startsWith t else []

/-- A setting after a command with an argument: a word for true or false sets it, anything else
turns it over. -/
def toggled (argument : Text) (current : Bool) : Bool :=
  let word := argument.lower
  if [text "on", text "1", text "true", text "yes"].contains word then true
  else if [text "off", text "0", text "false", text "no"].contains word then false
  else !current

def settingLine (name : String) (on : Bool) : Output :=
  .line (text name ++ text ": " ++ (if on then text "on" else text "off"))

/-- Carries out a line that is a command; other lines are left. The screen is cleared by the given
output. -/
def command? (clear : Output) (s : State) (line : Text) : Option (State × Output) :=
  let (name, argument) := line.firstWord
  if !name.startsWith (text "/") then none
  else if name = text "/clear" then some (s, clear)
  else if name = text "/py-traceback" then
    let s := s.setTrace (toggled argument s.traces)
    some (s, settingLine "Python traceback" s.traces)
  else if name = text "/tree" then
    let s := { s with showTree := toggled argument s.showTree }
    some (s, settingLine "Tree dump" s.showTree)
  else if name = text "/scopes" then
    let s := { s with showScopes := toggled argument s.showScopes }
    some (s, settingLine "Scope listing" s.showScopes)
  else some (s, .errorLine (text "Unknown command: " ++ name))

/-- Characters that do not show in a submitted text and are dropped from it. -/
def isDropped (c : Point) : Bool :=
  [0x200B, 0x200C, 0x200D, 0xFEFF, 0xA0, Point.carriageReturn].contains c

def normalized (t : Text) : Text := t.filter (!isDropped ·)

/-- The depth of brackets after a token; a closing one without an opening one changes nothing. -/
def bracketStep (depth : Nat) (t : Token) : Nat :=
  if t.kind.opens then depth + 1 else if t.kind.closes then depth - 1 else depth

/-- How many brackets a text leaves open; none if it cannot be cut into tokens. -/
def openDepth (t : Text) : Except Error Nat :=
  match tokenize t with
  | .ok tokens => .ok (tokens.foldl bracketStep 0)
  | .error (.scan ..) => .ok 0
  | .error e => .error e

/-- What the Enter key inserts into a text, or nothing if it submits the text. Reading goes on while
brackets are open, unless the last line is blank or the text is a command. -/
def entered (t : Text) : Except Error (Option Text) := do
  if t.lastLine.trim.isEmpty then return none
  let depth ← openDepth t
  if 0 < depth ∧ !t.startsWith (text "/") then
    return some (Point.lineFeed :: Text.spaces (4 * depth))
  return none

end ScriptTree.Explorer
