import ScriptTree.Explorer.Dialogue

/-! The explorer at a terminal: lines come from the standard input, answers go to the standard
streams. -/
namespace ScriptTree.Terminal

/-- A text for the first stream, which takes no surrogates. -/
def encoded (t : Text) : IO String :=
  if t.all (·.isValidChar) then return String.ofList (t.map Char.ofNat)
  else throw (.userError "surrogates cannot be written")

/-- A text for the second stream, where surrogates stand as escapes. -/
def escaped (t : Text) : String :=
  String.join (t.map fun c =>
    if c.isValidChar then String.singleton (Char.ofNat c)
    else "\\u" ++ String.ofList (Nat.toDigits 16 c))

/-- Writes what an answer has for each stream. -/
def write (output : Explorer.Output) : IO Unit := do
  let shown ← encoded output.out
  let out ← IO.getStdout
  out.putStr shown
  out.flush
  (← IO.getStderr).putStr (escaped output.err)

/-- Clears the screen and goes to its first line. -/
def clear : Explorer.Output := { out := text "\x1b[2J\x1b[H" }

/-- Reads lines until Enter submits what was typed; at the end of input nothing is submitted. -/
partial def submission (typed : Text) : IO (Except Error (Option Text)) := do
  let line ← (← IO.getStdin).getLine
  if line.isEmpty then return .ok none
  let typed := typed ++ (text line).filter (· != Point.lineFeed)
  match Explorer.entered typed with
  | .error e => return .error e
  | .ok none => return .ok (some typed)
  | .ok (some inserted) =>
    write { out := text "... " }
    submission (typed ++ inserted)

/-- Ends the dialogue with a failure that is not reported, also one of the Enter key. -/
def abandon (e : Error) : IO UInt32 := do
  write (.errorLine (e.message?.getD (text "Internal error")))
  return 1

/-- Answers one submitted text after the other until the input ends. -/
partial def converse (s : Explorer.State) : IO UInt32 := do
  write { out := text ">>> " }
  match ← submission [] with
  | .error e => abandon e
  | .ok none =>
    write (.line [])
    return 0
  | .ok (some typed) =>
    match Explorer.submit clear s typed with
    | .error e => abandon e
    | .ok (s, output) =>
      write output
      converse s

end ScriptTree.Terminal

/-- Starts the explorer. -/
def main : IO UInt32 := do
  ScriptTree.Terminal.write ScriptTree.Explorer.banner
  let setting ← IO.getEnv ScriptTree.Explorer.traceVariableName
  ScriptTree.Terminal.converse { traceVariable := setting.map ScriptTree.text }
