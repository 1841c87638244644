import ScriptTree.Proofs.Grammar.Accord

/-!
Parsing moves on and ends. On tokens whose last one is their only end of input, a program is read or
refused at one of them, whatever the rules would do beyond the depth they are tied to and whatever a
statement would do where the word `in` is no operator. Every procedure that returns a node and every
round of a loop that another one follows leaves reading at a later token, and leaves the word `in`
treated as before.
-/
namespace ScriptTree.Grammar

variable {r s : Rules} {f g h : Feed} {v : Value} {tokens : List Token} {pos depth : Nat}

/-- The parsers of single nodes. -/
inductive Procedure
  | statement
  | block
  | declaration
  | declarator
  | binding
  | function (declared : Bool)
  | choice
  | loop
  | loopOver (start : Mark) (left : Value)
  | countedLoop (start : Mark) (init : Value)
  | loopTestedFirst
  | loopTestedLast
  | guarded
  | handler
  | result
  | jump (kind : Kind)
  | raising
  | expressionStatement
  | condition
  | expression
  | assignment
  | arrow
  | conditional
  | binary (least : Nat)
  | unary
  | stepped
  | access
  | construction
  | nestedExpression
  | nestedAssignment
  | propertyName
  | primary
  | array
  | object
  | property

namespace Procedure

def parser (r : Rules) : Procedure → Parser Value
  | statement => Grammar.statement r
  | block => Grammar.block r
  | declaration => Grammar.declaration r
  | declarator => Grammar.declarator r
  | binding => bindingIdentifier
  | function declared => functionRule r declared
  | choice => ifRule r
  | loop => forRule r
  | loopOver start left => Grammar.loopOver r start left
  | countedLoop start init => Grammar.countedLoop r start init
  | loopTestedFirst => whileRule r
  | loopTestedLast => doRule r
  | guarded => tryRule r
  | handler => Grammar.handler r
  | result => returnRule r
  | jump kind => jumpRule kind
  | raising => throwRule r
  | expressionStatement => expressionRule r
  | condition => Grammar.condition r
  | expression => Grammar.expression r
  | assignment => Grammar.assignment r
  | arrow => Grammar.arrow r
  | conditional => Grammar.conditional r
  | binary least => Grammar.binary r least
  | unary => Grammar.unary r
  | stepped => Grammar.stepped r
  | access => Grammar.access r
  | construction => Grammar.construction r
  | nestedExpression => Grammar.nestedExpression r
  | nestedAssignment => Grammar.nestedAssignment r
  | propertyName => Grammar.propertyName
  | primary => Grammar.primary r
  | array => Grammar.array r
  | object => Grammar.object r
  | property => objectProperty r

/-- Where a procedure is entered: a statement, only where the word `in` is an operator; a jump, at
its word. -/
def Entered (f : Feed) : Procedure → Prop
  | statement | choice | loop | loopOver .. | countedLoop .. | loopTestedFirst | loopTestedLast
  | guarded | result | raising => f.noIn = false
  | jump _ => f.current.kind = .kwBreak ∨ f.current.kind = .kwContinue
  | _ => True

end Procedure

/-- What follows a token that closed tokens go on after has taken that token too. -/
theorem Feed.Closed.onward (closed : f.Closed) (onward : f.next.Onward g) : f.Onward g := by
  have within : f.current.kind ≠ .endOfInput := by
    intro last
    have alone := closed.tokens_end last
    have none : f.rest = [] := by simpa [Feed.tokens] using alone
    apply onward.1.1
    simpa only [Feed.next, none] using last
  exact ⟨Feed.past within onward.1.upto, onward.2.trans Feed.next_noIn⟩

theorem declaration_onward (hr : r.Sound) (closed : f.Closed)
    (run : declaration r f = .ok (v, g)) : f.Onward g := by
  apply closed.onward
  simp only [declaration, advance_bind, get_bind] at run
  obtain ⟨items, h, inner, rest⟩ := bind_ok.mp run
  cases build_ok.mp rest
  exact (commaList_sound (e := .declarator) (declarator_sound hr) inner).onward rfl (.inl rfl)

theorem loopOver_onward (hr : r.Sound) (closed : f.Closed) (plain : f.noIn = false) {start : Mark}
    {left : Value} (run : loopOver r start left f = .ok (v, g)) : f.Onward g := by
  apply closed.onward
  simp only [loopOver, check_bind, ite_run] at run
  split at run
  next => exact (refuse_bind_ok.mp run).elim
  next =>
    -- what follows the word is the same for names and for items
    have tail : ∀ {p : Parser Value} {part : Part} {kind : Kind},
        (∀ {f v g}, p f = .ok (v, g) → Reads part f v g) → part.consumes = true →
        part.holdsStatements = false → (p >>= fun right => expect .rightParen >>= fun _ =>
          r.statement >>= fun body => build kind [left, right, body] start) f.next = .ok (v, g) →
        f.next.Onward g := by
      intro p part kind sound consumes expr run
      obtain ⟨right, h, inner, rest⟩ := bind_ok.mp run
      obtain ⟨_, rest⟩ := expect_bind_ok.mp rest
      obtain ⟨body, i, followed, rest⟩ := bind_ok.mp rest
      cases build_ok.mp rest
      have onward := ((sound inner).onward consumes (.inl expr)).next
      have last := hr.statement followed
      have noIn := onward.2.trans (Feed.next_noIn.trans plain)
      exact onward.trans last.upto (last.noIn_eq (.inr noIn))
    rw [advance_bind, ite_run] at run
    split at run
    · exact tail (expression_sound hr) rfl rfl run
    · exact tail (assignment_sound hr) rfl rfl run

theorem jumpRule_onward {kind : Kind}
    (word : f.current.kind = .kwBreak ∨ f.current.kind = .kwContinue)
    (run : jumpRule kind f = .ok (v, g)) : f.Onward g := by
  obtain ⟨label, h, read, ends, _⟩ := jumpRule_sound run
  have within : f.current.kind ≠ .endOfInput := by
    rcases word with word | word <;> simp [word]
  have taken := (Feed.onward_next rfl within).trans read.upto (read.noIn_eq (.inl rfl))
  exact taken.trans ends.upto ends.noIn

theorem expressionRule_onward (hr : r.Sound) (run : expressionRule r f = .ok (v, g)) :
    f.Onward g := by
  simp only [expressionRule, here_bind] at run
  obtain ⟨inner, h, read, rest⟩ := bind_ok.mp run
  obtain ⟨i, ends, rest⟩ := endStatement_bind_ok.mp rest
  cases build_ok.mp rest
  exact ((expression_sound hr read).onward rfl (.inl rfl)).trans ends.upto ends.noIn

theorem handler_onward (hr : r.Sound) (run : handler r f = .ok (v, g)) : f.Onward g := by
  have word := (expect_bind_ok.mp run).1
  have read := handler_sound hr run
  have after : f.next.Upto g := by
    cases read with
    | handlerNone stop => exact absurd word stop
    | handlerBare _ _ body => exact body.upto
    | handlerNamed _ _ name _ body =>
      exact (Feed.upto_next.trans name.upto).trans (Feed.upto_next.trans body.upto)
  exact ⟨Feed.past (by simp [word]) after, read.noIn_eq (.inl rfl)⟩

/-- A procedure that returns leads onward. -/
theorem Procedure.onward (hr : r.Sound) (closed : f.Closed) {p : Procedure} (entered : p.Entered f)
    (run : p.parser r f = .ok (v, g)) : f.Onward g := by
  cases p with
  | statement => exact (statement_sound hr run).onward rfl (.inr entered)
  | block => exact (block_sound hr run).onward rfl (.inl rfl)
  | declaration => exact declaration_onward hr closed run
  | declarator => exact (declarator_sound hr run).onward rfl (.inl rfl)
  | binding => exact (bindingIdentifier_sound run).onward rfl (.inl rfl)
  | function => exact (functionRule_sound hr run).onward rfl (.inl rfl)
  | choice => exact (ifRule_sound hr run).onward rfl (.inr entered)
  | loop => exact (forRule_sound hr run).onward rfl (.inr entered)
  | loopOver => exact loopOver_onward hr closed entered run
  | countedLoop => exact (countedLoop_sound hr run).onward rfl (.inr entered)
  | loopTestedFirst => exact (whileRule_sound hr run).onward rfl (.inr entered)
  | loopTestedLast => exact (doRule_sound hr run).onward rfl (.inr entered)
  | guarded => exact (tryRule_sound hr run).onward rfl (.inr entered)
  | handler => exact handler_onward hr run
  | result => exact (returnRule_sound hr run).onward rfl (.inr entered)
  | jump => exact jumpRule_onward entered run
  | raising => exact (throwRule_sound hr run).onward rfl (.inr entered)
  | expressionStatement => exact expressionRule_onward hr run
  | condition => exact condition_onward hr run
  | expression => exact (expression_sound hr run).onward rfl (.inl rfl)
  | assignment => exact (assignment_sound hr run).onward rfl (.inl rfl)
  | arrow => exact (arrow_sound hr run).onward rfl (.inl rfl)
  | conditional => exact (conditional_sound hr run).onward rfl (.inl rfl)
  | binary => exact (binary_sound hr run).onward rfl (.inl rfl)
  | unary => exact (unary_sound hr run).onward rfl (.inl rfl)
  | stepped => exact (stepped_sound hr run).onward rfl (.inl rfl)
  | access => exact (access_sound hr run).onward rfl (.inl rfl)
  | construction => exact (construction_sound hr run).onward rfl (.inl rfl)
  | nestedExpression => exact (nestedExpression_sound hr run).onward rfl (.inl rfl)
  | nestedAssignment => exact (nestedAssignment_sound hr run).onward rfl (.inl rfl)
  | propertyName => exact (propertyName_sound run).1.onward rfl (.inl rfl)
  | primary => exact (primary_sound hr run).onward rfl (.inl rfl)
  | array => exact (array_sound hr run).onward rfl (.inl rfl)
  | object => exact (object_sound hr run).onward rfl (.inl rfl)
  | property => exact (objectProperty_sound hr run).onward rfl (.inl rfl)

/-- Rules that are in accord make each procedure concur. -/
theorem Procedure.concur (hr : r.Accord s depth) (fits : f.Fits depth) {p : Procedure}
    (entered : p.Entered f) : Concurs (p.parser r) (p.parser s) f := by
  have more := fits.more
  cases p with
  | statement => exact statement_concur hr more entered
  | block => exact block_concur hr more
  | declaration => exact declaration_concur hr more
  | declarator => exact declarator_concur hr more
  | binding => exact bindingIdentifier_concur
  | function => exact functionRule_concur hr more
  | choice => exact ifRule_concur hr more entered
  | loop => exact forRule_concur hr more entered
  | loopOver => exact loopOver_concur hr fits entered
  | countedLoop => exact countedLoop_concur hr more entered
  | loopTestedFirst => exact whileRule_concur hr more entered
  | loopTestedLast => exact doRule_concur hr more entered
  | guarded => exact tryRule_concur hr more
  | handler => exact handler_concur hr more
  | result => exact returnRule_concur hr more
  | jump => exact jumpRule_concur
  | raising => exact throwRule_concur hr more
  | expressionStatement => exact expressionRule_concur hr more
  | condition => exact condition_concur hr more
  | expression => exact expression_concur hr more
  | assignment => exact assignment_concur hr more
  | arrow => exact arrow_concur hr more
  | conditional => exact conditional_concur hr more
  | binary => exact binary_concur hr more
  | unary => exact unary_concur hr more
  | stepped => exact stepped_concur hr more
  | access => exact access_concur hr more
  | construction => exact construction_concur hr more
  | nestedExpression => exact nestedExpression_concur hr fits
  | nestedAssignment => exact nestedAssignment_concur hr fits
  | propertyName => exact propertyName_concur
  | primary => exact primary_concur hr more
  | array => exact array_concur hr more
  | object => exact object_concur hr more
  | property => exact objectProperty_concur hr fits

def Item.parser (r : Rules) : Item → Parser Value
  | binding => bindingIdentifier
  | nested => nestedAssignment r
  | property => objectProperty r
  | assignment => r.assignment
  | declarator => Grammar.declarator r

theorem Item.sound (hr : r.Sound) {e : Item} (run : e.parser r f = .ok (v, g)) :
    Reads e.part f v g := by
  cases e with
  | binding => exact bindingIdentifier_sound run
  | nested => exact nestedAssignment_sound hr run
  | property => exact objectProperty_sound hr run
  | assignment => exact hr.assignment run
  | declarator => exact declarator_sound hr run

inductive Loop
  | statements (close : TokenKind)
  | commas (item : Item)
  | closed (close : TokenKind) (item : Item)
  | elements
  | members (start : Mark)
  | accesses (start : Mark)
  | operations (start : Mark) (least : Nat)

namespace Loop

/-- What a loop carries from round to round. -/
abbrev State : Loop → Type
  | statements _ | commas _ | closed .. | elements => List Value
  | members _ | accesses _ | operations .. => Value

def parser (r : Rules) : (l : Loop) → Nat → l.State → Parser l.State
  | statements close, steps, body => (body ++ ·) <$> Grammar.statements r close steps
  | commas item, steps, items => (items ++ ·) <$> commaList (item.parser r) steps
  | closed close item, steps, items => (items ++ ·) <$> closedList close (item.parser r) steps
  | elements, steps, items => (items ++ ·) <$> Grammar.elements r steps
  | members start, steps, object => Grammar.members r start steps object
  | accesses start, steps, object => Grammar.accesses r start steps object
  | operations start least, steps, left => Grammar.operations r start least steps left

def round (r : Rules) : (l : Loop) → l.State → Parser (ForInStep l.State)
  | statements close => statementRound r close
  | commas item => commaRound (item.parser r)
  | closed close item => closedRound close (item.parser r)
  | elements => elementRound r
  | members start => memberRound r start
  | accesses start => accessRound r start
  | operations start least => operationRound r start least

/-- Where a loop is entered: one over statements, only where the word `in` is an operator. -/
def Entered (f : Feed) : Loop → Prop
  | statements _ => f.noIn = false
  | _ => True

theorem parser_eq_rounds {l : Loop} (steps : Nat) (state : l.State) :
    l.parser r steps state = rounds (l.round r) steps state := by
  cases l with
  | statements => exact statements_rounds steps state
  | commas => exact commaList_rounds steps state
  | closed => exact closedList_rounds steps state
  | elements => exact elements_rounds steps state
  | members => exact members_rounds steps state
  | accesses => exact accesses_rounds steps state
  | operations => exact operations_rounds steps state

theorem moves (hr : r.Sound) {l : Loop} (entered : l.Entered f) (state : l.State) :
    Moves (l.round r state) f := by
  cases l with
  | statements => exact statementRound_moves hr entered
  | commas => exact commaRound_moves (Item.sound hr)
  | closed => exact closedRound_moves (Item.sound hr)
  | elements => exact elementRound_moves hr
  | members => exact memberRound_moves hr
  | accesses => exact accessRound_moves hr
  | operations => exact operationRound_moves hr

end Loop

/-- Rules to a depth over given rules; a statement that is entered where the word `in` is no
operator is left to a parser of its own. -/
def rulesOver (base : Rules) (barred : Parser Value) : Nat → Rules
  | 0 => base
  | depth + 1 =>
    let r := rulesOver base barred depth
    { statement := fun f => if f.noIn then barred f else statement r f
      assignment := assignment r
      unary := unary r
      binary := binary r
      construction := construction r }

/-- What the rules go on to beyond a depth is not reached from feeds that fit it. -/
theorem rules_accord (base : Rules) (barred : Parser Value) {depth : Nat} :
    ∀ {d e : Nat}, depth ≤ d → depth ≤ e → (rules d).Accord (rulesOver base barred e) depth := by
  induction depth with
  | zero =>
    intro d e _ _
    have none : ∀ {f : Feed}, ¬f.Fits 0 := fun fits => Nat.not_lt_zero _ fits.2
    exact ⟨rules_sound d, fun fits => (none fits).elim, fun fits => (none fits).elim,
      fun fits => (none fits).elim, fun fits => (none fits).elim, fun fits => (none fits).elim⟩
  | succ depth ih =>
    intro d e le le'
    obtain ⟨d, rfl⟩ : ∃ d', d = d' + 1 := ⟨d - 1, by omega⟩
    obtain ⟨e, rfl⟩ : ∃ e', e = e' + 1 := ⟨e - 1, by omega⟩
    have inner := ih (Nat.le_of_succ_le_succ le) (Nat.le_of_succ_le_succ le')
    constructor
    · exact rules_sound (d + 1)
    · intro f fits plain
      have entered := statement_concur inner fits plain
      exact entered.upto .refl rfl (by simp [rulesOver, plain])
    · exact assignment_concur inner
    · exact unary_concur inner
    · exact binary_concur inner
    · exact construction_concur inner

structure Feed.Stands (f : Feed) (tokens : List Token) (pos : Nat) : Prop where
  current : tokens[pos]? = some f.current
  rest : tokens.drop (pos + 1) = f.rest

/-- A feed stands at a later position than another, and the word `in` is there what it was. -/
def Feed.Gains (f g : Feed) (tokens : List Token) (pos : Nat) : Prop :=
  ∃ later, pos < later ∧ later < tokens.length ∧ g.Stands tokens later ∧ g.noIn = f.noIn

namespace Feed.Stands

theorem lt_length (stands : f.Stands tokens pos) : pos < tokens.length :=
  (List.getElem?_eq_some_iff.mp stands.current).1

theorem tokens_eq (stands : f.Stands tokens pos) : f.tokens = tokens.drop pos := by
  have inside := stands.lt_length
  have here := stands.current
  rw [List.getElem?_eq_getElem inside, Option.some.injEq] at here
  rw [List.drop_eq_getElem_cons inside, here, stands.rest, Feed.tokens]

theorem of_tokens (left : f.tokens = tokens.drop pos) : f.Stands tokens pos := by
  have first := congrArg (·[0]?) left
  have later := congrArg List.tail left
  simp only [Feed.tokens, List.getElem?_cons_zero, List.getElem?_drop, Nat.add_zero] at first
  rw [Feed.tokens, List.tail_cons, List.tail_drop] at later
  exact ⟨first.symm, later.symm⟩

theorem closed (stands : f.Stands tokens pos) (closed : ScriptTree.Closed tokens) : f.Closed := by
  rw [Feed.Closed, stands.tokens_eq]
  refine closed_suffix closed (List.drop_suffix pos tokens) ?_
  rw [← stands.tokens_eq]
  simp [Feed.tokens]

/-- Fewer tokens are left than there are, and fewer the later a feed stands. -/
theorem fits (stands : f.Stands tokens pos) (closed : ScriptTree.Closed tokens)
    (deep : tokens.length ≤ depth + pos) : f.Fits depth := by
  refine ⟨stands.closed closed, ?_⟩
  have inside := stands.lt_length
  rw [← stands.rest, List.length_drop]
  omega

/-- What leads onward leads to a later position. -/
theorem gains (stands : f.Stands tokens pos) (closed : ScriptTree.Closed tokens)
    (onward : f.Onward g) : f.Gains g tokens pos := by
  obtain ⟨⟨within, upto⟩, noIn⟩ := onward
  obtain ⟨t, rest, more, next⟩ := (stands.closed closed).next_eq within
  have after : f.next.tokens = tokens.drop (pos + 1) := by
    rw [next, stands.rest, more]
    rfl
  obtain ⟨taken, split⟩ : g.tokens <:+ tokens.drop (pos + 1) := after ▸ upto
  have left : g.tokens = tokens.drop (pos + 1 + taken.length) := by
    rw [← List.drop_drop, ← split, List.drop_left]
  have there := of_tokens left
  exact ⟨pos + 1 + taken.length, by omega, there.lt_length, there, noIn⟩

/-- A refusal at a token that is left is one at a token of the whole. -/
theorem among {e : Refusal} (stands : f.Stands tokens pos) (among : e.Among f.tokens) :
    e.Among tokens := by
  obtain ⟨fault, t, left, place⟩ := among
  rw [stands.tokens_eq] at left
  exact ⟨fault, t, List.mem_of_mem_drop left, place⟩

end Feed.Stands

/-- Reading starts at the first token. -/
theorem Feed.ofTokens_at (closed : ScriptTree.Closed tokens) :
    (Feed.ofTokens tokens).Stands tokens 0 := by
  cases tokens with
  | nil => exact closed.elim
  | cons t rest => exact ⟨rfl, rfl⟩

/-- What it means that some tokens are read with progress all along. -/
structure Progresses (tokens : List Token) : Prop where
  /-- A program is read, or refused at one of the tokens. -/
  outcome : (∃ vs notes, run program tokens = .ok (.node .program [.list vs] notes)) ∨
    ∃ e, run program tokens = .error e ∧ e.Among tokens
  /-- What the rules do beyond a depth, and what a statement does where the word `in` is no
  operator, makes no difference: neither is ever reached. -/
  unreached : ∀ base barred depth, tokens.length ≤ depth →
    (program (rulesOver base barred depth) (Feed.ofTokens tokens)).map Prod.fst = run program tokens
  /-- A procedure that returns has moved to a later token. -/
  procedure : ∀ (p : Procedure) depth f g v pos, f.Stands tokens pos → p.Entered f →
    p.parser (rules depth) f = .ok (v, g) → f.Gains g tokens pos
  /-- A procedure that refuses does so at one of the tokens. -/
  refusal : ∀ (p : Procedure) depth f e pos, f.Stands tokens pos → p.Entered f →
    tokens.length ≤ depth + pos → p.parser (rules depth) f = .error e → e.Among tokens
  /-- A loop is its rounds. -/
  loop : ∀ (l : Loop) depth steps (state : l.State),
    l.parser (rules depth) steps state = rounds (l.round (rules depth)) steps state
  /-- A round moves to a later token, or it is the last one and stays. -/
  round : ∀ (l : Loop) depth f g (state : l.State) x pos, f.Stands tokens pos → l.Entered f →
    l.round (rules depth) state f = .ok (x, g) →
    f.Gains g tokens pos ∨ g = f ∧ ∃ result, x = .done result

/-- Tokens whose last one is their only end of input are read with progress all along. -/
theorem run_progresses (closed : Closed tokens) : Progresses tokens := by
  have start := Feed.ofTokens_at closed
  have deep : (Feed.ofTokens tokens).Fits tokens.length := start.fits closed (by omega)
  have same : ∀ base barred depth, tokens.length ≤ depth →
      Concurs (program (rules (tokens.length + 1))) (program (rulesOver base barred depth))
        (Feed.ofTokens tokens) := by
    intro base barred depth le
    exact program_concur (rules_accord base barred (by omega) le) deep Feed.noIn_ofTokens
  constructor
  case outcome =>
    cases outcome : run program tokens with
    | ok v =>
      obtain ⟨vs, g, _, rfl⟩ := program_sound outcome
      left
      split
      · exact ⟨_, _, rfl⟩
      · exact ⟨_, _, rfl⟩
    | error e =>
      right
      refine ⟨e, rfl, ?_⟩
      rw [run] at outcome
      cases ran : program (rules (tokens.length + 1)) (Feed.ofTokens tokens) with
      | ok x =>
        rw [ran] at outcome
        cases outcome
      | error e' =>
        rw [ran] at outcome
        cases outcome
        exact start.among ((same (rules 0) (refuse .tooDeep) _ (Nat.le_refl _)).refusal ran)
  case unreached =>
    intro base barred depth le
    rw [(same base barred depth le).same, run]
  case procedure =>
    intro p depth f g v pos stands entered run
    exact stands.gains closed (p.onward (rules_sound depth) (stands.closed closed) entered run)
  case refusal =>
    intro p depth f e pos stands entered deep run
    have accord := rules_accord (rules 0) (refuse .tooDeep) (Nat.le_refl depth) (Nat.le_refl depth)
    exact stands.among ((p.concur accord (stands.fits closed deep) entered).refusal run)
  case loop =>
    intro l depth steps state
    exact Loop.parser_eq_rounds steps state
  case round =>
    intro l depth f g state x pos stands entered run
    obtain onward | last := Loop.moves (rules_sound depth) entered state run
    · exact .inl (stands.gains closed onward)
    · exact .inr last

/-- The tokens of `for (k in a) do ; while (b)`, in which a loop stands in a loop. -/
def loopTokens : List Token :=
  [{ kind := .kwFor }, { kind := .leftParen }, { kind := .ident, value := .text (text "k") },
    { kind := .kwIn }, { kind := .ident, value := .text (text "a") }, { kind := .rightParen },
    { kind := .kwDo }, { kind := .semicolon }, { kind := .kwWhile }, { kind := .leftParen },
    { kind := .ident, value := .text (text "b") }, { kind := .rightParen }, { kind := .endOfInput }]

theorem run_progresses_loops : Closed loopTokens ∧ Progresses loopTokens := by
  have closed : Closed loopTokens := by simp [Closed, loopTokens]
  exact ⟨closed, run_progresses closed⟩

end ScriptTree.Grammar
