import ScriptTree.Proofs.Print.Padded

/-!
What the width of an indentation step can change. A layout is a list of lines, each with its depth,
and rendering it puts the spaces before them; which lines these are, whether there is a text at all
and the value that stands in the place of one do not depend on the width.
-/
namespace ScriptTree

namespace Text

/-- Lines under each other, each after `width` spaces for every step of its depth. -/
def indented (width : Int) (lines : List (Nat × Text)) : Text :=
  join [Point.lineFeed] (lines.map fun line => spaces (width * line.1).toNat ++ line.2)

theorem join_cons {separator t : Text} {parts : List Text} :
    join separator (t :: parts) = t ++ parts.flatMap (separator ++ ·) := by
  induction parts generalizing t with
  | nil => simp [join, List.intercalate]
  | cons u parts ih =>
    have next : join separator (t :: u :: parts) =
        t ++ separator ++ join separator (u :: parts) := by
      simp [join, List.intercalate]
    rw [next, ih, List.flatMap_cons]
    simp

end Text

namespace Layout

def opening : Layout → Text
  | .point c :: l => c :: opening l
  | _ => []

def later : Layout → List (Nat × Text)
  | [] => []
  | .point _ :: l => later l
  | .line depth :: l => (depth, opening l) :: later l

/-- The lines of a layout with their depths; the first is at the margin. -/
def lines (l : Layout) : List (Nat × Text) := (0, l.opening) :: l.later

theorem render_eq_opening (width : Int) (l : Layout) :
    l.render width = l.opening ++ (l.later.map fun line =>
      Text.spaces (width * line.1).toNat ++ line.2).flatMap ([Point.lineFeed] ++ ·) := by
  induction l with
  | nil => rfl
  | cons glyph l ih =>
    cases glyph with
    | point c =>
      show c :: Layout.render width l = c :: _
      rw [ih]
      rfl
    | line depth =>
      have first : opening (.line depth :: l) = [] := rfl
      have others : later (.line depth :: l) = (depth, opening l) :: later l := rfl
      show Point.lineFeed :: (Text.spaces (width * depth).toNat ++ Layout.render width l) = _
      rw [ih, first, others, List.map_cons, List.flatMap_cons]
      simp

/-- Rendering a layout indents its lines and puts them under each other. -/
theorem render_lines (width : Int) (l : Layout) : l.render width = Text.indented width l.lines := by
  rw [render_eq_opening, Text.indented, lines, List.map_cons, Text.join_cons]
  simp [Text.spaces]

end Layout

theorem map_eq_ok {α β : Type} {x : Except Error α} {f : α → β} {b : β} :
    f <$> x = .ok b ↔ ∃ a, x = .ok a ∧ f a = b := by
  cases x <;> simp

namespace Value

def holdsText (v : Value) (field : String) : Bool :=
  match v.field field with
  | .ok (.text _) => true
  | _ => false

/-- Whether an expression that prints does so as source text. A name that is no text stands for
itself, and an operator that is none is added to its operand. -/
def isWritten (v : Value) : Bool :=
  match v.kind? with
  | some .identifier => v.holdsText "name"
  | some .unaryExpression => v.holdsText "operator"
  | some .updateExpression => v.holdsText "operator"
  | _ => true

/-- Whether a node that prints does so as source text. A property in its short form prints as its
value, and a variable without an initial value prints as its name. -/
def printsText (v : Value) : Bool :=
  match v.kind? with
  | some .property =>
    match v.field "shorthand", v.field "value" with
    | .ok shorthand, .ok value => !shorthand.isTruthy || value.isWritten
    | _, _ => true
  | some .variableDeclarator =>
    match v.field "init", v.field "id" with
    | .ok init, .ok id => !init.isNull || id.isWritten
    | _, _ => true
  | _ => v.isWritten

theorem holdsText_eq {v w : Value} {name : String} (held : v.field name = .ok w) :
    v.holdsText name = w.text?.isSome := by
  rw [holdsText, held]
  cases w <;> rfl

/-- A sum is never a text. -/
theorem text?_plus {v w sum : Value} (run : v.plus w = .ok sum) : sum.text? = none := by
  unfold plus at run
  split at run
  next => cases run; rfl
  next =>
    obtain ⟨x, -, run⟩ := Scan.bind_ok.mp run
    cases run
    rfl
  next =>
    obtain ⟨x, -, run⟩ := Scan.bind_ok.mp run
    cases run
    rfl
  next => cases run; rfl
  next => cases run; rfl
  next => cases run

end Value

namespace Phrase

/-- A phrase that is source text exactly if `written` says so; a value in its place is no text. -/
def IsFor (written : Bool) : Phrase → Prop
  | source _ => written = true
  | odd w => written = false ∧ w.text? = none

variable {written : Bool} {p q s : Phrase} {l : Layout}

theorem ofValue_isFor {v : Value} : (ofValue v).IsFor v.text?.isSome := by
  cases v <;> simp [ofValue, IsFor, Value.text?]

/-- Where only source text can stand there is source text. -/
theorem IsFor.strict (is : p.IsFor written) (run : p.strict = .ok l) : written = true := by
  cases p with
  | source m => exact is
  | odd w => cases run

/-- A sum of phrases is of the sort of its parts. -/
theorem plus_isFor (run : p.plus q = .ok s) (is : p.IsFor written ∨ q.IsFor written) :
    s.IsFor written := by
  cases p with
  | source l =>
    cases q with
    | source m =>
      cases run
      exact is.elim id id
    | odd w => cases run
  | odd v =>
    cases q with
    | source m => cases run
    | odd w =>
      obtain ⟨sum, added, rfl⟩ := map_eq_ok.mp run
      exact ⟨is.elim And.left And.left, Value.text?_plus added⟩

end Phrase

namespace Print

variable {r : Rules} {c : Context} {v : Value} {p q : Phrase} {least depth : Nat}

theorem unary_isFor (run : unary r c v = .ok p) : p.IsFor (v.holdsText "operator") := by
  unfold unary at run
  obtain ⟨op, held, run⟩ := Scan.bind_ok.mp run
  rw [Value.holdsText_eq held]
  obtain ⟨w, -, run⟩ := Scan.bind_ok.mp run
  obtain ⟨argument, -, run⟩ := Scan.bind_ok.mp run
  split at run
  next op =>
    split at run
    · obtain ⟨l, -, run⟩ := Scan.bind_ok.mp run
      cases run
      rfl
    split at run
    · obtain ⟨l, -, run⟩ := Scan.bind_ok.mp run
      cases run
      rfl
    · exact Phrase.plus_isFor run (.inl rfl)
  next noText =>
    have odd : op.text? = none := by
      cases op with
      | text t => exact (noText t rfl).elim
      | _ => rfl
    split at run
    · rw [odd]
      exact Phrase.plus_isFor run (.inl ⟨rfl, odd⟩)
    · cases run

theorem update_isFor (run : update r c v = .ok p) : p.IsFor (v.holdsText "operator") := by
  unfold update at run
  obtain ⟨op, held, run⟩ := Scan.bind_ok.mp run
  rw [Value.holdsText_eq held]
  obtain ⟨argument, -, run⟩ := Scan.bind_ok.mp run
  obtain ⟨isPrefix, -, run⟩ := Scan.bind_ok.mp run
  split at run
  · obtain ⟨inner, -, run⟩ := Scan.bind_ok.mp run
    exact Phrase.plus_isFor run (.inl Phrase.ofValue_isFor)
  · obtain ⟨inner, -, run⟩ := Scan.bind_ok.mp run
    exact Phrase.plus_isFor run (.inr Phrase.ofValue_isFor)

theorem bare_isFor {kind : Kind} (own : v.kind? = some kind) (run : bare r c v kind = .ok p) :
    p.IsFor v.isWritten := by
  have source {x : Except Error Layout} (is : v.isWritten = true)
      (run : Phrase.source <$> x = .ok p) : p.IsFor v.isWritten := by
    obtain ⟨l, -, rfl⟩ := map_eq_ok.mp run
    exact is
  unfold Value.isWritten at source ⊢
  rw [own] at source ⊢
  cases kind
  case identifier =>
    obtain ⟨name, held, run⟩ := Scan.bind_ok.mp run
    cases run
    show Phrase.IsFor (v.holdsText "name") _
    rw [Value.holdsText_eq held]
    exact Phrase.ofValue_isFor
  case unaryExpression => exact unary_isFor run
  case updateExpression => exact update_isFor run
  case literal =>
    obtain ⟨value, -, run⟩ := Scan.bind_ok.mp run
    obtain ⟨t, -, run⟩ := Scan.bind_ok.mp run
    cases run
    rfl
  case sequenceExpression =>
    obtain ⟨vs, -, run⟩ := Scan.bind_ok.mp run
    obtain ⟨l, -, run⟩ := Scan.bind_ok.mp run
    cases run
    rfl
  case thisExpression => cases run; rfl
  all_goals first | exact source rfl run | cases run

theorem commented_isFor {written : Bool} (run : commented c v p = .ok q) (is : p.IsFor written) :
    q.IsFor written := by
  unfold commented at run
  split at run
  · cases run
    exact is
  · obtain ⟨l, strict, run⟩ := Scan.bind_ok.mp run
    cases run
    exact is.strict strict

/-- Whether an expression prints as source text depends on what it is, not on where it stands. -/
theorem expression_isFor (run : expression r c least v = .ok p) : p.IsFor v.isWritten := by
  unfold expression at run
  split at run
  next => cases run
  next kind own =>
    obtain ⟨rank, -, run⟩ := Scan.bind_ok.mp run
    split at run
    · obtain ⟨q, done, run⟩ := Scan.bind_ok.mp run
      obtain ⟨l, strict, run⟩ := Scan.bind_ok.mp run
      have written : v.isWritten = true := (bare_isFor own done).strict strict
      exact commented_isFor run written
    · obtain ⟨q, done, run⟩ := Scan.bind_ok.mp run
      exact commented_isFor run (bare_isFor own done)

theorem rules_isFor (run : (rules depth).expression c least v = .ok p) : p.IsFor v.isWritten := by
  cases depth with
  | zero => cases run
  | succ depth => exact expression_isFor run

theorem property_isFor (own : v.kind? = some .property)
    (run : property (rules depth) c v = .ok p) : p.IsFor v.printsText := by
  unfold property at run
  obtain ⟨key, -, run⟩ := Scan.bind_ok.mp run
  obtain ⟨value, below, run⟩ := Scan.bind_ok.mp run
  obtain ⟨shorthand, flag, run⟩ := Scan.bind_ok.mp run
  have whole : v.printsText = (!shorthand.isTruthy || value.isWritten) := by
    rw [Value.printsText, own]
    simp only [flag, below]
  rw [whole]
  split at run
  next short =>
    rw [short]
    exact rules_isFor run
  next long =>
    obtain ⟨keyPhrase, -, run⟩ := Scan.bind_ok.mp run
    obtain ⟨keyText, -, run⟩ := Scan.bind_ok.mp run
    obtain ⟨computed, -, run⟩ := Scan.bind_ok.mp run
    obtain ⟨valuePhrase, -, run⟩ := Scan.bind_ok.mp run
    obtain ⟨valueText, -, run⟩ := Scan.bind_ok.mp run
    cases run
    rw [Bool.not_eq_true] at long
    rw [long]
    rfl

theorem declarator_isFor (own : v.kind? = some .variableDeclarator)
    (run : declarator (rules depth) c v = .ok p) : p.IsFor v.printsText := by
  unfold declarator at run
  obtain ⟨id, below, run⟩ := Scan.bind_ok.mp run
  obtain ⟨name, done, run⟩ := Scan.bind_ok.mp run
  obtain ⟨init, value, run⟩ := Scan.bind_ok.mp run
  have whole : v.printsText = (!init.isNull || id.isWritten) := by
    rw [Value.printsText, own]
    simp only [value, below]
  rw [whole]
  split at run
  next =>
    cases run
    exact rules_isFor done
  next some =>
    obtain ⟨nameText, -, run⟩ := Scan.bind_ok.mp run
    obtain ⟨initPhrase, -, run⟩ := Scan.bind_ok.mp run
    obtain ⟨initText, -, run⟩ := Scan.bind_ok.mp run
    cases run
    have present : init.isNull = false := by
      cases init with
      | null => exact (some rfl).elim
      | _ => rfl
    rw [present]
    rfl

/-- Properties and declarators have no kinds below them. -/
theorem isKind_iff {kind : Kind} (is : kind = .property ∨ kind = .variableDeclarator) :
    v.isKind kind ↔ v.kind? = some kind := by
  constructor
  · intro belongs
    cases v with
    | node own children notes =>
      rcases is with rfl | rfl <;> cases own <;> first | rfl | cases belongs
    | _ => cases belongs
  · intro own
    cases v with
    | node => cases own; rcases is with rfl | rfl <;> rfl
    | _ => cases own

theorem printsText_of_lines
    (is : v.isKind .program || v.isKind .statement || v.isKind .catchClause) :
    v.printsText = true := by
  cases v with
  | node kind children notes =>
    cases kind
    case identifier | unaryExpression | updateExpression | property | variableDeclarator => cases is
    all_goals rfl
  | _ => cases is

/-- Whether a node prints as source text can be told from the node. -/
theorem node_isFor (run : node (rules depth) c v = .ok p) : p.IsFor v.printsText := by
  have source {x : Except Error Layout}
      (is : v.isKind .program || v.isKind .statement || v.isKind .catchClause)
      (run : Phrase.source <$> x = .ok p) : p.IsFor v.printsText := by
    obtain ⟨l, -, rfl⟩ := map_eq_ok.mp run
    exact printsText_of_lines is
  unfold node at run
  split at run
  · cases run
  split at run
  next is => exact source (by simp [is]) run
  split at run
  next is => exact source (by simp [is]) run
  split at run
  next is => exact property_isFor ((isKind_iff (.inl rfl)).mp is) run
  next noProperty =>
    split at run
    next is => exact declarator_isFor ((isKind_iff (.inr rfl)).mp is) run
    next noDeclarator =>
      split at run
      next is => exact source (by simp [is]) run
      next =>
        have written : v.printsText = v.isWritten := by
          unfold Value.printsText
          split
          next own => exact (noProperty ((isKind_iff (.inl rfl)).mpr own)).elim
          next own => exact (noDeclarator ((isKind_iff (.inr rfl)).mpr own)).elim
          next => rfl
        rw [written]
        exact expression_isFor run

end Print

namespace Value

/-- What a node prints as if each line is written with the spaces before it at once. -/
def drawn (v : Value) (options : PrintOptions) : Except Error Value := do
  let phrase ← Print.Padded.node options.tabWidth (Print.Padded.rules options.tabWidth v.depth)
    { comments := options.comments } v
  return phrase.render 0

variable {v : Value} {options : PrintOptions}

theorem printed_eq_drawn : v.printed options = v.drawn options := by
  have filled : Print.Padded.node options.tabWidth
      (Print.Padded.rules options.tabWidth v.depth) { comments := options.comments } v =
        Phrase.fill options.tabWidth <$> v.phrase options.comments :=
    Print.Padded.node_fill (Print.Padded.rules_pad v.depth) rfl
  rw [printed, drawn, filled]
  cases v.phrase options.comments with
  | error e => rfl
  | ok p =>
    cases p with
    | odd w => rfl
    | source l =>
      show Except.ok (text (l.render options.tabWidth)) =
        Except.ok (text ((l.fill options.tabWidth).render 0))
      rw [Layout.fill, render_ofText]

end Value

/-- The width of an indentation step changes the indentation and nothing else. Printing is printing
that writes the spaces of each line with the line. A tree that is refused at one width is refused at
every width, for the same reason. A tree that prints as text has one list of lines with depths, and
its text at any width is those lines, indented. Any other tree prints as the same value, no text, at
every width. -/
theorem printed_widths (v : Value) (comments : Bool) :
    (∀ width : Int, v.printed { tabWidth := width, comments } =
      v.drawn { tabWidth := width, comments }) ∧
    ((∃ e, ∀ width : Int, v.printed { tabWidth := width, comments } = .error e) ∨
      (v.printsText = true ∧ ∃ lines : List (Nat × Text), ∀ width : Int,
        v.printed { tabWidth := width, comments } = .ok (.text (Text.indented width lines))) ∨
      (v.printsText = false ∧ ∃ w : Value, w.text? = none ∧ ∀ width : Int,
        v.printed { tabWidth := width, comments } = .ok w)) := by
  refine ⟨fun width => Value.printed_eq_drawn, ?_⟩
  have rendered (width : Int) : v.printed { tabWidth := width, comments } =
      Phrase.render width <$> v.phrase comments := rfl
  simp only [rendered]
  cases run : v.phrase comments with
  | error e => exact .inl ⟨e, fun width => rfl⟩
  | ok p =>
    have is : p.IsFor v.printsText := Print.node_isFor run
    cases p with
    | source l =>
      refine .inr (.inl ⟨is, l.lines, fun width => ?_⟩)
      rw [← l.render_lines width]
      rfl
    | odd w => exact .inr (.inr ⟨is.1, w, is.2, fun width => rfl⟩)

/-- An identifier whose name is a truth value has the fields of its kind. It prints as that value,
which is no list of lines at any width. -/
theorem printed_widths_truth :
    (Value.node .identifier [.bool true] {}).validate true = .ok () ∧
      (∀ width : Int, (Value.node .identifier [.bool true] {}).printed { tabWidth := width } =
        .ok (.bool true)) ∧
      ¬ ∃ lines : List (Nat × Text), ∀ width : Int,
        (Value.node .identifier [.bool true] {}).printed { tabWidth := width } =
          .ok (.text (Text.indented width lines)) := by
  have truth (width : Int) : (Value.node .identifier [.bool true] {}).printed
      { tabWidth := width } = .ok (.bool true) := rfl
  refine ⟨rfl, truth, ?_⟩
  rintro ⟨lines, text⟩
  have both := (truth 4).symm.trans (text 4)
  cases both

end ScriptTree
