import ScriptTree.Explorer.Dialogue
import ScriptTree.Proofs.Grammar.Numeric
import ScriptTree.Proofs.Path.Roles
import ScriptTree.Proofs.Path.Scopes
import ScriptTree.Proofs.Print.Totality
import ScriptTree.Proofs.Token.Hazards

/-!
What the explorer survives. A source is shown or reported as wrong, unless the scan comes to a
hazard in it or an integer in it is too long to write. At a terminal that carries all that is
written, a dialogue goes on as long as that is so.
-/
namespace ScriptTree

open Value

/-- A failure that is reported as one of the source, of its tokens or of its grammar. -/
def Error.InSource : Error → Prop
  | .scan .. | .grammar .. => True
  | _ => False

/-- A source without a hazard, that has no integers which are too long to write. -/
def Legible (source : Text) : Prop :=
  ¬Hazardous source ∧ ∀ v, parse source = .ok v → v.isShort

section Trees

mutual
/-- A tree is dumped unless an integer in it is too long. -/
theorem Answers.dumpLines (indent : Text) (level : Nat) (label : Text) : (v : Value) →
    Answers v.isShort (fun _ => True) (v.dumpLines indent level label)
  | .list items => by
    rw [Value.dumpLines]
    exact ((Answers.dumpItems ..).bind fun _ _ => .ok trivial).congr (by simp [isShort])
  | .node kind children notes => by
    rw [Value.dumpLines]
    exact ((Answers.dumpItems ..).bind fun _ _ => .ok trivial).congr (by simp [isShort])
  | .int n => by
    simp only [Value.dumpLines, Value.shown, writeInteger, isShort]
    cases Numeral.writeInt? n with
    | none => exact .inr ⟨nofun, rfl⟩
    | some t => exact .inl ⟨rfl, _, rfl, trivial⟩
  | .null | .bool _ | .float _ | .text _ => (Answers.ok trivial).congr (by simp [isShort])

theorem Answers.dumpItems (indent : Text) (level : Nat) (names : List String) (index : Nat) :
    (vs : List Value) →
      Answers (areShort vs) (fun _ => True) (Value.dumpItems indent level names index vs)
  | [] => (Answers.ok trivial).congr (by simp [areShort])
  | v :: vs => by
    rw [Value.dumpItems]
    exact ((Answers.dumpLines ..).bind fun _ _ => (Answers.dumpItems ..).bind fun _ _ =>
      .ok trivial).congr (by simp [areShort])
end

variable {s : Convention} {r : Role} {v : Value}

/-- An identifier that stands in its place holds a text. -/
theorem Conforms.named (conforms : Conforms s r v) (kind : v.isKind .identifier) :
    ∃ w n, v = .node .identifier [.text w] n := by
  induction conforms with
  | binding | word => exact ⟨_, _, rfl⟩
  | keyWord _ ih | name _ ih | loopDeclaration _ _ ih | loopExpression _ ih | loopPlace _ _ ih
  | blockStatement _ ih | declarationStatement _ ih => exact ih kind
  | operation =>
    unfold Grammar.operationKind at kind
    split at kind <;> cases kind
  | _ => cases kind

/-- The names in a tree that follows the grammar are texts. -/
theorem Conforms.mentions_texts {name : Value} (conforms : Conforms s r v)
    (valid : v.validate true = .ok ()) (mentions : (Path.root 0 v).Mentions name) :
    ∃ t, name = .text t := by
  obtain ⟨p, below, isVariable, named⟩ := mentions
  have valid : (Path.root 0 v).value.validate true = .ok () := valid
  obtain ⟨role, stands, _⟩ := Conforms.under (q := .root 0 v) conforms
    ((Path.mem_descendants_iff valid).mp below)
  obtain ⟨w, n, same⟩ := stands.named isVariable.1
  rw [same] at named
  cases named
  exact ⟨w, rfl⟩

end Trees

/-- What has been scanned is free of hazards. -/
theorem scanned_harmless {source : Text} {tokens : List Token}
    (scanned : tokenize source = .ok tokens) : ¬Hazardous source := by
  intro hazardous
  obtain ⟨e, failed, _⟩ := hazardous.fails
  cases scanned.symm.trans failed

theorem fault_harmless {source : Text} {e : Error} (failed : tokenize source = .error e)
    (fault : e.IsScan) : ¬Hazardous source := by
  intro hazardous
  obtain ⟨f, again, silent⟩ := hazardous.fails
  cases again.symm.trans failed
  exact silent fault

/-- Parsing fails with a fault of the source, or at a hazard and without a notice. -/
theorem parse_error {source : Text} {e : Error} (failed : parse source = .error e) :
    (¬Hazardous source ∧ e.InSource) ∨ (Hazardous source ∧ e.notice? = none) := by
  rw [parse] at failed
  cases scanned : tokenize source with
  | error f =>
    rw [scanned] at failed
    cases failed
    refine (tokenize_error scanned).imp_left fun fault => ⟨fault_harmless scanned fault, ?_⟩
    cases e <;> trivial
  | ok tokens =>
    rw [scanned] at failed
    have failed : programOfTokens tokens = .error e := failed
    rw [programOfTokens] at failed
    cases ran : Grammar.run Grammar.program tokens with
    | ok v =>
      rw [ran] at failed
      cases failed
    | error refusal =>
      rw [ran] at failed
      cases failed
      exact .inl ⟨scanned_harmless scanned, trivial⟩

/-- What is parsed is legible if its integers are short. -/
theorem legible_parsed {source : Text} {v : Value} (parsed : parse source = .ok v) :
    Legible source ↔ v.isShort := by
  refine ⟨fun ⟨_, short⟩ => short v parsed, fun short => ⟨?_, fun w again => ?_⟩⟩
  · obtain ⟨tokens, scanned, _⟩ := Scan.bind_ok.mp parsed
    exact scanned_harmless scanned
  · cases again.symm.trans parsed
    exact short

namespace Explorer

variable {source : Text} {settings : Settings} {v : Value} {e : Error} {clear : Output} {s : State}

/-- What is parsed is shown, unless an integer in it is too long. -/
theorem describe_parsed (parsed : parse source = .ok v) :
    Answers v.isShort (fun _ => True) (describe source settings) := by
  have conforms := parse_program parsed
  have valid := conforms.valid Convention.parsed_scalar
  obtain ⟨lines, report, _⟩ := scopeReport_ok rfl valid
    fun name => conforms.mentions_texts valid
  have dumped : Answers v.isShort (fun _ => True) (v.dump (text "  ")) :=
    ((Answers.dumpLines ..).bind fun _ _ => .ok trivial).congr (by rw [and_true])
  rcases conforms.print {} Convention.parsed_scalar with
    ⟨short, shown, printed, _⟩ | ⟨long, failed⟩
  · rcases dumped with ⟨_, tree, dumped, _⟩ | ⟨long, _⟩
    · refine .inl ⟨short, ?_⟩
      obtain ⟨showTree, showScopes⟩ := settings
      simp only [describe, parsed, printed, dumped, report, ok_bind, pure_ok, map_ok]
      cases showTree <;> cases showScopes <;> exact ⟨_, rfl, trivial⟩
    · exact absurd short long
  · exact .inr ⟨long, by rw [describe, parsed, ok_bind, failed]; rfl⟩

/-- A legible source is shown or reported as wrong; any other fails without a notice. -/
theorem describe_cases (source : Text) (settings : Settings) :
    (Legible source ∧ ((∃ t, describe source settings = .ok t) ∨
      ∃ e, describe source settings = .error e ∧ e.InSource)) ∨
    (¬Legible source ∧ ∃ e, describe source settings = .error e ∧ e.notice? = none) := by
  cases parsed : parse source with
  | error e =>
    have failed : describe source settings = .error e := by
      rw [describe, parsed]
      rfl
    rcases parse_error parsed with ⟨harmless, inSource⟩ | ⟨hazardous, silent⟩
    · exact .inl ⟨⟨harmless, fun v other => nomatch other.symm.trans parsed⟩,
        .inr ⟨e, failed, inSource⟩⟩
    · exact .inr ⟨fun legible => legible.1 hazardous, e, failed, silent⟩
  | ok v =>
    rw [legible_parsed parsed]
    exact (describe_parsed parsed).imp (fun ⟨short, t, shown, _⟩ => ⟨short, .inl ⟨t, shown⟩⟩)
      fun ⟨long, failed⟩ => ⟨long, _, failed, rfl⟩

/-- The record of a dialogue goes on without a crash where the rest of it does. -/
@[simp] theorem crash_after {entry : Entry} {record : Record} :
    (record.after entry).crash = record.crash := rfl

theorem notice_of_inSource (inSource : e.InSource) : ∃ notice, e.notice? = some notice := by
  cases e <;> first | exact ⟨_, rfl⟩ | cases inSource

/-- What has an answer: an empty line, a command, and a legible source; Enter also where the last
line is empty. -/
def Cue.Harmless : Cue → Prop
  | .enter t => t.lastLine.trim.isEmpty ∨ ¬Hazardous t
  | .line t => (normalized t).trim.isEmpty ∨ (normalized t).firstWord.1.startsWith (text "/") ∨
      Legible (normalized t)
  | .interrupt | .finish => True

def Cue.ends : Cue → Bool
  | .finish => true
  | _ => false

theorem command?_isSome {line : Text} :
    (command? clear s line).isSome = line.firstWord.1.startsWith (text "/") := by
  rw [command?]
  obtain ⟨name, argument⟩ := line.firstWord
  simp only
  cases name.startsWith (text "/") with
  | false => rfl
  | true =>
    simp only [Bool.not_true, Bool.false_eq_true, if_false]
    repeat' split
    all_goals rfl

/-- A harmless line is answered, and any other ends in a failure without a notice. -/
theorem submit_harmless {t : Text} :
    (∃ answer, submit clear s t = .ok answer) ↔ (Cue.line t).Harmless := by
  rw [submit, Cue.Harmless]
  split
  · rename_i blank
    exact iff_of_true ⟨_, rfl⟩ (.inl blank)
  rename_i some
  rw [← command?_isSome (s := s), or_iff_right some]
  cases answered : command? clear s (normalized t) with
  | some answer => exact iff_of_true ⟨_, rfl⟩ (.inl rfl)
  | none =>
    rw [or_iff_right (by simp)]
    rcases describe_cases (normalized t) s.toSettings with
      ⟨legible, ⟨shown, answer⟩ | ⟨e, failed, inSource⟩⟩ | ⟨illegible, e, failed, silent⟩
    · rw [answer]
      exact iff_of_true ⟨_, rfl⟩ legible
    · obtain ⟨notice, known⟩ := notice_of_inSource inSource
      simp only [failed, failureOutput?, known, Option.map_some]
      exact iff_of_true ⟨_, rfl⟩ legible
    · simp only [failed, failureOutput?, silent, Option.map_none]
      exact iff_of_false nofun illegible

theorem entered_harmless {t : Text} :
    (∃ inserted, entered t = .ok inserted) ↔ (Cue.enter t).Harmless := by
  rw [entered, Cue.Harmless]
  split
  · rename_i blank
    exact iff_of_true ⟨_, rfl⟩ (.inl blank)
  rename_i some
  rw [or_iff_right some, openDepth]
  cases scanned : tokenize t with
  | ok tokens =>
    refine iff_of_true ?_ (scanned_harmless scanned)
    rw [ok_bind]
    split <;> exact ⟨_, rfl⟩
  | error e =>
    rcases tokenize_error scanned with fault | ⟨hazardous, silent⟩
    · refine iff_of_true ?_ (fault_harmless scanned fault)
      cases e with
      | scan => exact ⟨_, rfl⟩
      | _ => cases fault
    · refine iff_of_false ?_ fun harmless => harmless hazardous
      cases e with
      | scan => cases silent
      | _ => exact nofun

theorem eq_error {α : Type} {x : Except Error α}
    (fails : (match x with | .error f => some f | .ok _ => none) = some e) :
    x = .error e := by
  cases x with
  | error f =>
    cases fails
    rfl
  | ok => cases fails

section Terminal

variable {terminal : Terminal}

theorem crash_tell (carries : ∀ output, (terminal.carry output).2 = none) {output : Output}
    {rest : Record} : (terminal.tell output rest).crash = rest.crash := by
  have carried := carries output
  rw [Terminal.tell]
  split
  · rfl
  · rename_i failed
    rw [failed] at carried
    cases carried

/-- At a terminal that carries all that is written, and does not go on when the handler of the Enter
key fails, a dialogue crashes exactly at what is not harmless. -/
theorem play_survives (carries : ∀ output, (terminal.carry output).2 = none)
    (ends : ∀ e shown, terminal.keyFault e ≠ .ok shown) {cues : List Cue} :
    (play terminal s cues).crash = none ↔ ∀ cue ∈ cues.takeWhile (!·.ends), cue.Harmless := by
  induction cues generalizing s with
  | nil => simp [play, Terminal.farewell, crash_tell carries]
  | cons cue cues ih =>
    cases cue with
    | finish => simp [play, Terminal.farewell, crash_tell carries, Cue.ends]
    | interrupt =>
      rw [play, crash_tell carries, ih]
      simp [Cue.ends, Cue.Harmless]
    | enter t =>
      rw [List.takeWhile_cons_of_pos (by rfl), List.forall_mem_cons, ← entered_harmless, play]
      cases entered t with
      | ok inserted => simp [ih]
      | error e =>
        cases fault : terminal.keyFault e with
        | ok shown => exact absurd fault (ends e shown)
        | error f => simp [fault, crashed]
    | line t =>
      rw [List.takeWhile_cons_of_pos (by rfl), List.forall_mem_cons,
        ← submit_harmless (s := s), play]
      cases submit terminal.clear s t with
      | ok answer => simp [crash_tell carries, ih]
      | error e => simp [crashed]

end Terminal

/-- The explorer answers every source with a text or reports it as wrong, unless the scan comes to a
hazard in it or it holds an integer that is too long to write. -/
theorem explorer_survives_iff (source : Text) (settings : Settings) :
    ((∃ t, describe source settings = .ok t) ∨
      ∃ e, describe source settings = .error e ∧ e.InSource) ↔ Legible source := by
  rcases describe_cases source settings with ⟨legible, answer⟩ | ⟨illegible, e, failed, silent⟩
  · exact iff_of_true answer legible
  · refine iff_of_false ?_ illegible
    rintro (⟨t, answer⟩ | ⟨f, answer, inSource⟩)
    · cases answer.symm.trans failed
    · cases answer.symm.trans failed
      obtain ⟨notice, known⟩ := notice_of_inSource inSource
      cases known.symm.trans silent

/-- An escape that names no code point is not reported, and such a line has no answer. -/
theorem explorer_crashes :
    let source := text "'\\u\x7b110000\x7d'"
    describe source {} = .error .noSuchPoint ∧ (Error.noSuchPoint).notice? = none ∧
      submit {} {} source = .error .noSuchPoint :=
  ⟨eq_error (by decide +kernel), rfl, eq_error (by decide +kernel)⟩

end Explorer

end ScriptTree
