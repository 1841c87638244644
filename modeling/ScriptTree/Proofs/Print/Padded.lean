import ScriptTree.Proofs.Print.Clashes

/-!
Printing that indents as it goes. Every line is written with the spaces before it at once, and what
the printer asks about the beginning of a text it asks about the text with those spaces in it. The
result is the layout with its indentation filled in, so choosing the width last changes nothing.
-/
namespace ScriptTree

namespace Print.Padded

open Layout

variable (width : Int)

def pad (c : Context) : Layout := ofText (Text.spaces (width * c.depth).toNat)

def feed : Layout := ofText [Point.lineFeed]

def commentLines (c : Context) (v : Value) (leading : Bool) : List Layout :=
  (Print.commentLines c v leading).map (pad width c ++ ·)

def block (r : Rules) (c : Context) (v : Value) : Except Error Layout := do
  let inner := c.lifted.deeper
  let lines ←
    if (← v.field "body").isTruthy then (← items v "body").mapM (r.statement inner)
    else pure (commentLines width inner v false)
  if lines.isEmpty then return lay "\x7b\x7d"
  return lay "\x7b" ++ feed ++ join feed lines ++ feed ++ pad width c ++ lay "\x7d"

def function (r : Rules) (c : Context) (v : Value) : Except Error Layout := do
  let name ←
    match ← v.field "id" with
    | .null => pure []
    | id => do pure (lay " " ++ (← (← r.expression c sequenceRank id).strict))
  let params ← parameters r c v
  return lay "function" ++ name ++ parens params ++ lay " " ++
    (← block width r c (← v.field "body"))

def arrow (r : Rules) (c : Context) (v : Value) : Except Error Layout := do
  let body ← v.field "body"
  let body ←
    if body.isKind .blockStatement then block width r c body
    else
      let inner ← (← r.expression c.lifted assignmentRank body).begun
      pure (if inner.startsWith (text "\x7b") then parens inner else inner)
  return parens (← parameters r c v) ++ lay " => " ++ body

def bare (r : Rules) (c : Context) (v : Value) (kind : Kind) : Except Error Phrase :=
  match kind with
  | .functionExpression => .source <$> function width r c v
  | .arrowFunctionExpression => .source <$> arrow width r c v
  | kind => Print.bare r c v kind

def expression (r : Rules) (c : Context) (least : Nat) (v : Value) : Except Error Phrase :=
  match v.kind? with
  | none => .error (.malformed (.expectedExpression v.typeName) none)
  | some kind => do
    if (← rank v) < least then
      commented c v (.source (parens (← (← bare width r c.lifted v kind).strict)))
    else commented c v (← bare width r c v kind)

def body (r : Rules) (c : Context) (v : Value) : Except Error Layout := do
  if v.isKind .blockStatement then return lay " " ++ (← block width r c v)
  return feed ++ (← r.statement c.deeper v)

def handler (r : Rules) (c : Context) (v : Value) : Except Error Layout := do
  let head ←
    match ← v.field "param" with
    | .null => pure (lay "catch")
    | param => do
      pure (lay "catch " ++ parens (← (← r.expression c sequenceRank param).spoken))
  return head ++ lay " " ++ (← block width r c (← v.field "body"))

def choice (r : Rules) (c : Context) (v : Value) : Except Error Layout := do
  let test ← r.expression c sequenceRank (← v.field "test")
  let consequent ← v.field "consequent"
  let alternate ← v.field "alternate"
  let test ← test.spoken
  let head := lay "if " ++ parens test ++ (← body width r c consequent)
  if alternate.isNull then return head
  let joiner := if consequent.isKind .blockStatement then lay " " else feed ++ pad width c
  let head := head ++ joiner ++ lay "else"
  if alternate.isKind .ifStatement then return head ++ lay " " ++ (← r.choice c alternate)
  return head ++ (← body width r c alternate)

def countedLoop (r : Rules) (c : Context) (v : Value) : Except Error Layout := do
  let init ← v.field "init"
  let test ← v.field "test"
  let update ← v.field "update"
  let init ← loopInit r c init
  let test ← loopPart r c test
  let update ← loopPart r c update
  let head := (← init.spoken) ++ lay ";" ++ test ++ lay ";" ++ update
  return lay "for " ++ parens head ++ (← body width r c (← v.field "body"))

def loopOver (r : Rules) (c : Context) (preposition : String) (v : Value) :
    Except Error Layout := do
  let left ← loopTarget r c (← v.field "left")
  let right ← r.expression c assignmentRank (← v.field "right")
  let head := (← left.spoken) ++ lay preposition ++ (← right.spoken)
  return lay "for " ++ parens head ++ (← body width r c (← v.field "body"))

def testedLoop (r : Rules) (c : Context) (v : Value) : Except Error Layout := do
  let test ← (← r.expression c sequenceRank (← v.field "test")).spoken
  return lay "while " ++ parens test ++ (← body width r c (← v.field "body"))

def repeatedLoop (r : Rules) (c : Context) (v : Value) : Except Error Layout := do
  let inner ← body width r c (← v.field "body")
  let test ← (← r.expression c sequenceRank (← v.field "test")).spoken
  let joiner := if inner.startsWith (text " \x7b") then lay " " else feed ++ pad width c
  return lay "do" ++ inner ++ joiner ++ lay "while " ++ parens test ++ lay ";"

def guarded (r : Rules) (c : Context) (v : Value) : Except Error Layout := do
  let head := lay "try " ++ (← block width r c (← v.field "block"))
  let handled ← v.field "handler"
  let head ←
    if handled.isNull then pure head
    else pure (head ++ lay " " ++ (← handler width r c handled))
  let finalizer ← v.field "finalizer"
  if finalizer.isNull then return head
  return head ++ lay " finally " ++ (← block width r c finalizer)

def bareStatement (r : Rules) (c : Context) (v : Value) : Except Error Layout :=
  match v.kind? with
  | some .blockStatement => block width r c v
  | some .functionDeclaration => function width r c v
  | some .ifStatement => choice width r c v
  | some .forStatement => countedLoop width r c v
  | some .forInStatement => loopOver width r c " in " v
  | some .forOfStatement => loopOver width r c " of " v
  | some .whileStatement => testedLoop width r c v
  | some .doWhileStatement => repeatedLoop width r c v
  | some .tryStatement => guarded width r c v
  | _ => Print.bareStatement r c v

def statement (r : Rules) (c : Context) (v : Value) : Except Error Layout := do
  let own ← bareStatement width r c v
  let trailing := if ← keepsTrailing v then commentLines width c v false else []
  return join feed (commentLines width c v true ++ [pad width c ++ own] ++ trailing)

def rules : Nat → Rules
  | 0 => Print.rules 0
  | depth + 1 =>
    let r := rules depth
    { expression := expression width r
      statement := statement width r
      choice := choice width r }

def program (r : Rules) (c : Context) (v : Value) : Except Error Layout := do
  let lines ← (← items v "body").mapM (r.statement c)
  return join feed (lines ++ commentLines width c v false)

def node (r : Rules) (c : Context) (v : Value) : Except Error Phrase :=
  if !v.isNode then .error (.malformed (.unprintable v.typeName) none)
  else if v.isKind .program then .source <$> program width r c v
  else if v.isKind .statement then .source <$> statement width r c v
  else if v.isKind .property then property r c v
  else if v.isKind .variableDeclarator then declarator r c v
  else if v.isKind .catchClause then .source <$> handler width r c v
  else expression width r c sequenceRank v

end Print.Padded

namespace Layout

def fill (width : Int) (l : Layout) : Layout := ofText (l.render width)

variable {width : Int} {l m : Layout} {t head : Text}

@[simp] theorem fill_ofText : (ofText t).fill width = ofText t := by
  rw [fill, render_ofText]

@[simp] theorem fill_lay {s : String} : (lay s).fill width = lay s := fill_ofText

@[simp] theorem fill_nil : fill width [] = [] := rfl

@[simp] theorem fill_append : fill width (l ++ m) = l.fill width ++ m.fill width := by
  rw [fill, render_append, ofText, List.map_append]
  rfl

@[simp] theorem fill_parens : (parens l).fill width = parens (l.fill width) := by
  simp [parens]

@[simp] theorem fill_ite {b : Prop} [Decidable b] :
    fill width (if b then l else m) = if b then l.fill width else m.fill width :=
  apply_ite ..

@[simp] theorem fill_join {separator : Layout} {parts : List Layout} :
    (join separator parts).fill width =
      join (separator.fill width) (parts.map (Layout.fill width)) := by
  induction parts with
  | nil => rfl
  | cons l parts ih =>
    by_cases some : parts = []
    · simp [some, join_single]
    · rw [join_cons some, List.map_cons, join_cons (by simpa using some), ← ih]
      simp

/-- A line end with the spaces after it. -/
@[simp] theorem fill_line {c : Print.Context} :
    fill width (.line c.depth :: l) =
      Print.Padded.feed ++ (Print.Padded.pad width c ++ l.fill width) := by
  simp [fill, render, ofText, Print.Padded.feed, Print.Padded.pad]

theorem startsWith_fill (flat : Point.lineFeed ∉ head) :
    (l.fill width).startsWith head = l.startsWith head := by
  rw [startsWith_render width flat, startsWith_render width flat, fill, render_ofText]

end Layout

namespace Phrase

def fill (width : Int) : Phrase → Phrase
  | source l => source (l.fill width)
  | odd v => odd v

variable {width : Int} {p q : Phrase} {l : Layout}

@[simp] theorem fill_source : (source l).fill width = source (l.fill width) := rfl

@[simp] theorem fill_odd {v : Value} : (odd v).fill width = odd v := rfl

@[simp] theorem fill_ofValue {v : Value} : (ofValue v).fill width = ofValue v := by
  cases v <;> simp [ofValue]

@[simp] theorem strict_fill : (p.fill width).strict = Layout.fill width <$> p.strict := by
  cases p <;> rfl

@[simp] theorem begun_fill : (p.fill width).begun = Layout.fill width <$> p.begun := by
  cases p <;> rfl

@[simp] theorem spoken_fill : (p.fill width).spoken = Layout.fill width <$> p.spoken := by
  cases p with
  | source l => rfl
  | odd v => simp [fill, spoken]

theorem plus_fill : (p.fill width).plus (q.fill width) = fill width <$> p.plus q := by
  cases p <;> cases q <;> simp [plus, fill]

@[simp] theorem ofText_plus_fill {t : Text} :
    (source (Layout.ofText t)).plus (q.fill width) =
      fill width <$> (source (Layout.ofText t)).plus q := by
  rw [← plus_fill, fill_source, Layout.fill_ofText]

@[simp] theorem odd_plus_fill {v : Value} :
    (odd v).plus (q.fill width) = fill width <$> (odd v).plus q := by
  rw [← plus_fill, fill_odd]

@[simp] theorem ofValue_plus_fill {v : Value} :
    (ofValue v).plus (q.fill width) = fill width <$> (ofValue v).plus q := by
  rw [← plus_fill, fill_ofValue]

@[simp] theorem fill_plus_ofValue {v : Value} :
    (p.fill width).plus (ofValue v) = fill width <$> p.plus (ofValue v) := by
  rw [← plus_fill, fill_ofValue]

end Phrase

namespace Print

structure Rules.Pads (width : Int) (p r : Rules) : Prop where
  expression : ∀ c least v, p.expression c least v = Phrase.fill width <$> r.expression c least v
  statement : ∀ c v,
    p.statement c v = (fun l => Padded.pad width c ++ l.fill width) <$> r.statement c v
  choice : ∀ c v, p.choice c v = Layout.fill width <$> r.choice c v

variable {width : Int} {p r : Rules} {c : Context} {v : Value} {least : Nat}

/-- What is done to each result of a list can be done after it. -/
theorem mapM_fill {α β γ : Type} {f : α → Except Error β} {h : α → Except Error γ} {g : β → γ}
    (each : ∀ a, h a = g <$> f a) (as : List α) : as.mapM h = List.map g <$> as.mapM f := by
  induction as with
  | nil => rfl
  | cons a as ih => simp [each, ih]

theorem map_ite {α β : Type} {f : α → β} {b : Prop} [Decidable b] {x y : Except Error α} :
    (f <$> if b then x else y) = if b then f <$> x else f <$> y :=
  apply_ite ..

@[simp] theorem separated_fill {parts : List Phrase} :
    Phrase.separated (parts.map (Phrase.fill width)) =
      Layout.fill width <$> Phrase.separated parts := by
  have strict : (parts.mapM fun p => (p.fill width).strict) =
      List.map (Layout.fill width) <$> parts.mapM Phrase.strict :=
    mapM_fill (fun _ => Phrase.strict_fill) parts
  simp only [Phrase.separated, List.mapM_map]
  simp only [Function.comp_def, strict]
  simp

theorem commaSeparated_fill (pads : Rules.Pads width p r) {vs : List Value} :
    commaSeparated p c least vs = Layout.fill width <$> commaSeparated r c least vs := by
  simp [commaSeparated, mapM_fill (pads.expression c least)]

theorem array_fill (pads : Rules.Pads width p r) :
    array p c v = Layout.fill width <$> array r c v := by
  have element : ∀ e : Value, (if e.isNull then pure (Phrase.source []) else
      p.expression c.lifted assignmentRank e) = Phrase.fill width <$> (if e.isNull then
        pure (Phrase.source []) else r.expression c.lifted assignmentRank e) := by
    intro e
    simp [pads.expression, map_ite]
  simp [array, mapM_fill element]

theorem property_fill (pads : Rules.Pads width p r) :
    property p c v = Phrase.fill width <$> property r c v := by
  simp [property, pads.expression, map_ite]

theorem object_fill (pads : Rules.Pads width p r) :
    object p c v = Layout.fill width <$> object r c v := by
  simp [object, map_ite, mapM_fill fun _ => property_fill pads]

theorem parameters_fill (pads : Rules.Pads width p r) :
    parameters p c v = Layout.fill width <$> parameters r c v := by
  simp [parameters, commaSeparated_fill pads]

theorem isSign_flat {op : Text} (sign : isSign op) : Point.lineFeed ∉ op := by
  simp only [isSign, Bool.or_eq_true, beq_iff_eq] at sign
  rcases sign with rfl | rfl <;> decide

theorem unary_fill (pads : Rules.Pads width p r) :
    unary p c v = Phrase.fill width <$> unary r c v := by
  simp only [unary, pads.expression, map_bind, bind_map_left]
  congr 1
  funext op
  congr 1
  funext argument
  congr 1
  funext inner
  cases op with
  | text op =>
    by_cases word : isWordOperator op
    · simp [word]
    · by_cases sign : isSign op
      · simp [word, sign, Layout.startsWith_fill (isSign_flat sign)]
      · simp [word, sign]
  | _ => simp [map_ite]

theorem update_fill (pads : Rules.Pads width p r) :
    update p c v = Phrase.fill width <$> update r c v := by
  simp [update, pads.expression, map_ite]

theorem operand_fill {op : Text} {own : Nat} {phrase : Phrase} :
    operand op own v (phrase.fill width) = Phrase.fill width <$> operand op own v phrase := by
  simp [operand, map_ite]

theorem operation_fill (pads : Rules.Pads width p r) :
    operation p c v = Layout.fill width <$> operation r c v := by
  simp [operation, pads.expression, operand_fill]

theorem binary_fill (pads : Rules.Pads width p r) :
    binary p c v = Layout.fill width <$> binary r c v := by
  simp [binary, map_ite, operation_fill pads]

theorem assignment_fill (pads : Rules.Pads width p r) :
    assignment p c v = Layout.fill width <$> assignment r c v := by
  simp [assignment, pads.expression]

theorem conditional_fill (pads : Rules.Pads width p r) :
    conditional p c v = Layout.fill width <$> conditional r c v := by
  simp [conditional, pads.expression]

theorem arguments_fill (pads : Rules.Pads width p r) :
    arguments p c v = Layout.fill width <$> arguments r c v := by
  simp [arguments, commaSeparated_fill pads]

theorem call_fill (pads : Rules.Pads width p r) :
    call p c v = Layout.fill width <$> call r c v := by
  simp [call, pads.expression, arguments_fill pads]

theorem construction_fill (pads : Rules.Pads width p r) :
    construction p c v = Layout.fill width <$> construction r c v := by
  simp [construction, pads.expression, arguments_fill pads]

theorem member_fill (pads : Rules.Pads width p r) :
    member p c v = Layout.fill width <$> member r c v := by
  simp [member, pads.expression, map_ite]

theorem declarator_fill (pads : Rules.Pads width p r) :
    declarator p c v = Phrase.fill width <$> declarator r c v := by
  simp only [declarator, pads.expression, map_bind, bind_map_left]
  congr 1
  funext id
  congr 1
  funext name
  congr 1
  funext init
  cases init <;> simp

theorem declaration_fill (pads : Rules.Pads width p r) :
    declaration p c v = Layout.fill width <$> declaration r c v := by
  simp [declaration, mapM_fill fun _ => declarator_fill pads]

theorem loopTarget_fill (pads : Rules.Pads width p r) :
    loopTarget p c v = Phrase.fill width <$> loopTarget r c v := by
  simp [loopTarget, map_ite, declaration_fill pads, pads.expression]

theorem loopInit_fill (pads : Rules.Pads width p r) :
    loopInit p c v = Phrase.fill width <$> loopInit r c v := by
  simp [loopInit, map_ite, declaration_fill pads, pads.expression]

theorem loopPart_fill (pads : Rules.Pads width p r) :
    loopPart p c v = Layout.fill width <$> loopPart r c v := by
  simp [loopPart, map_ite, pads.expression]

theorem wordWith_fill (pads : Rules.Pads width p r) {word : String} :
    wordWith p c word v = Layout.fill width <$> wordWith r c word v := by
  simp [wordWith, pads.expression]

theorem simple_fill (pads : Rules.Pads width p r) {word field : String} :
    simple p c word field v = Layout.fill width <$> simple r c word field v := by
  simp only [simple, map_bind]
  congr 1
  funext argument
  cases argument <;> simp [wordWith_fill pads]

theorem expressionStatement_fill (pads : Rules.Pads width p r) :
    expressionStatement p c v = Layout.fill width <$> expressionStatement r c v := by
  have brace : Point.lineFeed ∉ text "\x7b" := by decide
  have word : Point.lineFeed ∉ text "function" := by decide
  simp [expressionStatement, pads.expression, Layout.startsWith_fill brace,
    Layout.startsWith_fill word]

namespace Padded

/-- Lines that begin with their spaces are lines with the spaces at each line end. -/
theorem join_pad {lines : List Layout} (some : lines ≠ []) :
    Layout.join feed (lines.map (pad width c ++ ·)) =
      pad width c ++ Layout.join (feed ++ pad width c) lines := by
  induction lines with
  | nil => contradiction
  | cons l lines ih =>
    by_cases last : lines = []
    · simp [last, join_single]
    · rw [List.map_cons, join_cons (by simpa using last), join_cons last, ih last]
      simp

theorem commentLines_fill {leading : Bool} :
    commentLines width c v leading =
      (Print.commentLines c v leading).map (pad width c ++ Layout.fill width ·) := by
  simp only [commentLines, Print.commentLines]
  split <;> simp

theorem block_fill (pads : Rules.Pads width p r) :
    block width p c v = Layout.fill width <$> Print.block r c v := by
  -- the braces around the lines, which are the same for statements and for comments
  have braces : ∀ lines : List Layout,
      (if (lines.map (pad width c.lifted.deeper ++ Layout.fill width ·)).isEmpty = true then
          (pure (Layout.lay "\x7b\x7d") : Except Error Layout)
        else pure (Layout.lay "\x7b" ++ feed ++
          Layout.join feed (lines.map (pad width c.lifted.deeper ++ Layout.fill width ·)) ++ feed ++
          pad width c ++ Layout.lay "\x7d")) =
        Layout.fill width <$> (if lines.isEmpty = true then pure (Layout.lay "\x7b\x7d")
          else pure (Layout.lay "\x7b" ++ [.line c.lifted.deeper.depth] ++
            Layout.join [.line c.lifted.deeper.depth] lines ++ [.line c.depth] ++
            Layout.lay "\x7d")) := by
    intro lines
    by_cases none : lines = []
    · simp [none]
    · have some : lines.map (Layout.fill width) ≠ [] := by simpa using none
      have joined : Layout.join feed ((lines.map (Layout.fill width)).map
          (pad width c.lifted.deeper ++ ·)) = pad width c.lifted.deeper ++
            Layout.join (feed ++ pad width c.lifted.deeper) (lines.map (Layout.fill width)) :=
        join_pad some
      simp only [List.map_map, Function.comp_def] at joined
      simp [none, joined]
  simp only [block, Print.block, map_bind]
  congr 1
  funext body
  rw [map_ite]
  simp only [mapM_fill (pads.statement _), commentLines_fill, bind_map_left, map_bind, pure_bind,
    braces]
  rfl

theorem function_fill (pads : Rules.Pads width p r) :
    function width p c v = Layout.fill width <$> Print.function r c v := by
  simp only [function, Print.function, map_bind, block_fill pads, parameters_fill pads]
  congr 1
  funext id
  cases id <;> simp [pads.expression]

theorem arrow_fill (pads : Rules.Pads width p r) :
    arrow width p c v = Layout.fill width <$> Print.arrow r c v := by
  have brace : Point.lineFeed ∉ text "\x7b" := by decide
  simp only [arrow, Print.arrow, map_bind, block_fill pads, parameters_fill pads]
  congr 1
  funext body
  by_cases inner : body.isKind .blockStatement
  · simp [inner]
  · simp [inner, pads.expression, Layout.startsWith_fill brace]

theorem bare_fill (pads : Rules.Pads width p r) {kind : Kind} :
    bare width p c v kind = Phrase.fill width <$> Print.bare r c v kind := by
  unfold bare
  split
  · simp [Print.bare, function_fill pads]
  · simp [Print.bare, arrow_fill pads]
  · unfold Print.bare
    split
    · simp
    · simp
    · rfl
    · simp [array_fill pads]
    · simp [object_fill pads]
    · contradiction
    · contradiction
    · exact unary_fill pads
    · exact update_fill pads
    · simp [binary_fill pads]
    · simp [binary_fill pads]
    · simp [assignment_fill pads]
    · simp [conditional_fill pads]
    · simp [call_fill pads]
    · simp [construction_fill pads]
    · simp [member_fill pads]
    · simp [commaSeparated_fill pads]
    · rfl

theorem commented_fill {phrase : Phrase} :
    commented c v (phrase.fill width) = Phrase.fill width <$> commented c v phrase := by
  have comments : (inlineComments c v).fill width = inlineComments c v := by
    rw [inlineComments]
    split
    · induction v.comments with
      | nil => rfl
      | cons comment comments ih => simp [ih]
    · rfl
  simp [commented, map_ite, comments]

theorem expression_fill (pads : Rules.Pads width p r) :
    expression width p c least v = Phrase.fill width <$> Print.expression r c least v := by
  unfold expression Print.expression
  cases v.kind? with
  | none => rfl
  | some kind =>
    simp only [bare_fill pads, map_bind, bind_map_left]
    congr 1
    funext own
    by_cases loose : own < least
    · simp [loose, ← commented_fill]
    · simp [loose, commented_fill]

theorem body_fill (pads : Rules.Pads width p r) :
    body width p c v = Layout.fill width <$> Print.body r c v := by
  have deeper : c.depth + 1 = c.deeper.depth := rfl
  simp [body, Print.body, map_ite, block_fill pads, pads.statement, deeper]

theorem handler_fill (pads : Rules.Pads width p r) :
    handler width p c v = Layout.fill width <$> Print.handler r c v := by
  simp only [handler, Print.handler, map_bind, block_fill pads]
  congr 1
  funext param
  cases param <;> simp [pads.expression]

theorem choice_fill (pads : Rules.Pads width p r) :
    choice width p c v = Layout.fill width <$> Print.choice r c v := by
  simp [choice, Print.choice, pads.expression, pads.choice, body_fill pads, map_ite, joiner]

theorem countedLoop_fill (pads : Rules.Pads width p r) :
    countedLoop width p c v = Layout.fill width <$> Print.countedLoop r c v := by
  simp [countedLoop, Print.countedLoop, loopInit_fill pads, loopPart_fill pads, body_fill pads]

theorem loopOver_fill (pads : Rules.Pads width p r) {preposition : String} :
    loopOver width p c preposition v = Layout.fill width <$> Print.loopOver r c preposition v := by
  simp [loopOver, Print.loopOver, loopTarget_fill pads, pads.expression, body_fill pads]

theorem testedLoop_fill (pads : Rules.Pads width p r) :
    testedLoop width p c v = Layout.fill width <$> Print.testedLoop r c v := by
  simp [testedLoop, Print.testedLoop, pads.expression, body_fill pads]

theorem block_opens {l : Layout} (run : Print.block r c v = .ok l) :
    ∃ rest, l = Layout.lay "\x7b" ++ rest := by
  have opens : ∀ lines : List Layout, (if lines.isEmpty = true then
        (pure (Layout.lay "\x7b\x7d") : Except Error Layout)
      else pure (Layout.lay "\x7b" ++ [.line c.lifted.deeper.depth] ++
        Layout.join [.line c.lifted.deeper.depth] lines ++ [.line c.depth] ++
        Layout.lay "\x7d")) = .ok l → ∃ rest, l = Layout.lay "\x7b" ++ rest := by
    intro lines done
    split at done
    · cases done
      exact ⟨Layout.lay "\x7d", rfl⟩
    · cases done
      simp only [List.append_assoc]
      exact ⟨_, rfl⟩
  simp only [Print.block] at run
  obtain ⟨body, -, run⟩ := Scan.bind_ok.mp run
  split at run
  · obtain ⟨stmts, -, run⟩ := Scan.bind_ok.mp run
    obtain ⟨lines, -, run⟩ := Scan.bind_ok.mp run
    exact opens lines run
  · exact opens _ run

/-- A body begins with a space and a brace exactly if it is a block. -/
theorem body_startsWith {l : Layout} (run : Print.body r c v = .ok l) :
    l.startsWith (text " \x7b") = v.isKind .blockStatement := by
  simp only [Print.body] at run
  split at run
  next inner =>
    obtain ⟨m, done, run⟩ := Scan.bind_ok.mp run
    obtain ⟨rest, rfl⟩ := block_opens done
    cases run
    rw [inner]
    rfl
  next inner =>
    obtain ⟨m, done, run⟩ := Scan.bind_ok.mp run
    cases run
    rw [Bool.not_eq_true] at inner
    rw [inner]
    rfl

theorem repeatedLoop_fill (pads : Rules.Pads width p r) :
    repeatedLoop width p c v = Layout.fill width <$> Print.repeatedLoop r c v := by
  have flat : Point.lineFeed ∉ text " \x7b" := by decide
  simp only [repeatedLoop, Print.repeatedLoop, map_bind, body_fill pads, bind_map_left]
  congr 1
  funext inner
  cases run : Print.body r c inner with
  | error e => rfl
  | ok l =>
    simp [ok_bind, pads.expression, Layout.startsWith_fill flat, body_startsWith run, joiner]

theorem guarded_fill (pads : Rules.Pads width p r) :
    guarded width p c v = Layout.fill width <$> Print.guarded r c v := by
  simp [guarded, Print.guarded, block_fill pads, handler_fill pads, map_ite]

theorem bareStatement_fill (pads : Rules.Pads width p r) :
    bareStatement width p c v = Layout.fill width <$> Print.bareStatement r c v := by
  unfold bareStatement Print.bareStatement
  cases v.kind? with
  | none => rfl
  | some kind =>
    cases kind
    case blockStatement => exact block_fill pads
    case functionDeclaration => exact function_fill pads
    case ifStatement => exact choice_fill pads
    case forStatement => exact countedLoop_fill pads
    case forInStatement | forOfStatement => exact loopOver_fill pads
    case whileStatement => exact testedLoop_fill pads
    case doWhileStatement => exact repeatedLoop_fill pads
    case tryStatement => exact guarded_fill pads
    case expressionStatement => exact expressionStatement_fill pads
    case variableDeclaration => simp [declaration_fill pads]
    case returnStatement | breakStatement | continueStatement => exact simple_fill pads
    case throwStatement => simp [wordWith_fill pads]
    all_goals rfl

/-- A statement begins with its spaces, and so does each line of the comments around it. -/
theorem statement_fill (pads : Rules.Pads width p r) :
    statement width p c v =
      (fun l => pad width c ++ l.fill width) <$> Print.statement r c v := by
  have lines : ∀ (own : Layout) (keeps : Bool), Layout.join feed (commentLines width c v true ++
        [pad width c ++ own.fill width] ++ if keeps then commentLines width c v false else []) =
      pad width c ++ (Layout.join [.line c.depth] (Print.commentLines c v true ++ [own] ++
        if keeps then Print.commentLines c v false else [])).fill width := by
    intro own keeps
    rw [Layout.fill_join, Layout.fill_line, Layout.fill_nil, List.append_nil,
      ← join_pad (by simp)]
    cases keeps <;> simp [commentLines_fill, Function.comp_def]
  simp only [statement, Print.statement, bareStatement_fill pads, bind_map_left, map_bind,
    map_pure, lines]

/-- At the margin nothing stands before a line. -/
theorem pad_margin (margin : c.depth = 0) : pad width c = [] := by
  rw [pad, margin, Int.natCast_zero, Int.mul_zero]
  rfl

theorem program_fill (pads : Rules.Pads width p r) (margin : c.depth = 0) :
    program width p c v = Layout.fill width <$> Print.program r c v := by
  have lines : ∀ body : List Layout, Layout.join feed
        (body.map (fun l => pad width c ++ l.fill width) ++ commentLines width c v false) =
      (Layout.join [.line c.depth] (body ++ Print.commentLines c v false)).fill width := by
    intro body
    simp [commentLines_fill, pad_margin margin]
  simp only [program, Print.program, mapM_fill (pads.statement c), bind_map_left, map_bind,
    map_pure, lines]

theorem node_fill (pads : Rules.Pads width p r) (margin : c.depth = 0) :
    node width p c v = Phrase.fill width <$> Print.node r c v := by
  have refused : ∀ e : Error, Phrase.fill width <$> (Except.error e : Except Error Phrase) =
      .error e := fun _ => rfl
  simp [node, Print.node, map_ite, program_fill pads margin, statement_fill pads,
    property_fill pads, declarator_fill pads, handler_fill pads, expression_fill pads,
    pad_margin margin, refused]

theorem rules_pad (depth : Nat) : Rules.Pads width (rules width depth) (Print.rules depth) := by
  induction depth with
  | zero => exact ⟨fun _ _ _ => rfl, fun _ _ => rfl, fun _ _ => rfl⟩
  | succ depth ih =>
    exact ⟨fun _ _ _ => expression_fill ih, fun _ _ => statement_fill ih,
      fun _ _ => choice_fill ih⟩

end Padded

end Print

end ScriptTree
