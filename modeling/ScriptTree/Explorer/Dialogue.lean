import ScriptTree.Explorer.Command

/-!
The explorer's dialogue: what it answers to each line, and a whole dialogue played from a script at
a terminal. Failures that are reported leave the dialogue standing; any other failure of an answer
ends it, and so does one of writing.
-/
namespace ScriptTree.Explorer

def banner : Output := .line (text "astkit repl (Ctrl-D to exit, / for commands)")

def failureOutput? (s : State) (e : Error) : Option Output :=
  e.notice?.map fun notice =>
    let first := text "Error: " ++ notice.render ++ [Point.lineFeed]
    { err := if s.traces then first ++ text "\nPython traceback:\n" else first }

/-- The answer to a submitted text, before it is written. -/
def submit (clear : Output) (s : State) (t : Text) : Except Error (State × Output) :=
  let t := normalized t
  if t.trim.isEmpty then .ok (s, {})
  else
    match command? clear s t with
    | some answer => .ok answer
    | none =>
      match describe t s.toSettings with
      | .ok shown => .ok (s, .line shown)
      | .error e =>
        match failureOutput? s e with
        | some output => .ok (s, output)
        | none => .error e

/-- What the terminal decides: how the screen is cleared, how much of an output it carries, with the
failure if that is not all, and what becomes of a failure in the handler of the Enter key, which
ends the dialogue or leaves it with something shown. -/
structure Terminal where
  clear : Output
  carry : Output → Output × Option Error
  keyFault : Error → Except Error Output

inductive Cue
  /-- Enter is pressed on a text that is not submitted by it. -/
  | enter (t : Text)
  | line (t : Text)
  | interrupt
  | finish

/-- An entry in the record of a dialogue: what was written since the last prompt, or what Enter
inserted, none if it submitted the text. -/
inductive Entry
  | written (output : Output)
  | pressed (inserted : Option Text)

structure Record where
  entries : List Entry := []
  crash : Option Error := none

def Record.after (e : Entry) (r : Record) : Record := { r with entries := e :: r.entries }

def crashed (shown : Output) (e : Error) : Record :=
  { entries := [.written shown], crash := some e }

/-- Writes an output before the rest of a dialogue, which a failure to write cuts off. -/
def Terminal.tell (terminal : Terminal) (output : Output) (rest : Record) : Record :=
  match terminal.carry output with
  | (shown, none) => rest.after (.written shown)
  | (shown, some e) => crashed shown e

def Terminal.farewell (terminal : Terminal) : Record := terminal.tell (.line []) {}

/-- Plays a script from a prompt on; when it runs out, the input ends. -/
def play (terminal : Terminal) (s : State) : List Cue → Record
  | [] => terminal.farewell
  | .enter t :: cues =>
    match entered t with
    | .ok inserted => (play terminal s cues).after (.pressed inserted)
    | .error e =>
      match terminal.keyFault e with
      | .ok shown => (play terminal s cues).after (.written shown)
      | .error e => crashed {} e
  | .line t :: cues =>
    match submit terminal.clear s t with
    | .ok (s, output) => terminal.tell output (play terminal s cues)
    | .error e => crashed {} e
  | .interrupt :: cues => terminal.tell (.line (text "KeyboardInterrupt")) (play terminal s cues)
  | .finish :: _ => terminal.farewell

def dialogue (terminal : Terminal) (cues : List Cue) : Record :=
  terminal.tell banner (play terminal {} cues)

end ScriptTree.Explorer
