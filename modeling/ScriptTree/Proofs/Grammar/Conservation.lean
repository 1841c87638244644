import Mathlib.Tactic.Abel
import ScriptTree.Proofs.Grammar.Tally

/-!
Reading neither drops nor invents anything: what is left before a part is counted by what the part
reads together with what is left after it. A keyword counts as a name by its neighbours, so it has
to be known of every part which tokens stand around its first one.
-/
namespace ScriptTree

namespace Grammar

variable {p : Part} {f g : Feed} {v : Value}

@[simp] theorem Feed.next_lift_current : f.lift.next.current = f.next.current := by
  simp only [next, lift]
  split <;> rfl

theorem Feed.Ends.colon (stop : f.Ends g) (colon : f.current.kind = .colon) :
    g.current.kind = .colon := by
  rcases stop with ⟨semicolon, _⟩ | ⟨_, _, rfl⟩
  · rw [colon] at semicolon
    cases semicolon
  · exact colon

theorem Feed.next_prev_ne {k l : TokenKind} (last : f.current.kind = k)
    (apart : k ≠ l) : f.next.prev.kind ≠ l := by
  rwa [Feed.next_prev, last]

theorem symbol_plain {k : TokenKind} (operator : k.isAssignment ∨ k.isUpdate) :
    k.isKeyword = false := by
  rcases operator with assignment | update
  · exact TokenKind.holds_of_contains assignment (by decide)
  · rcases TokenKind.update_cases update with rfl | rfl <;> rfl

/-- No part begins with a colon. -/
theorem Reads.opens (read : Reads p f v g) (consumes : p.consumes) : f.current.kind ≠ .colon := by
  induction read with
  | commasLast _ _ ih | commasMore _ _ _ ih => exact ih (Item.part_consumes _)
  | nested _ ih | group _ ih | single _ _ ih | sequence _ _ _ ih | arrowFunction _ _ ih
  | unassigned _ _ _ ih | assigned _ _ _ _ _ ih | arrowName _ ih | arrowNames _ _ ih
  | arrowBlock _ _ _ _ ih | arrowValue _ _ _ _ ih | untested _ _ ih | tested _ _ _ _ _ ih
  | binary _ _ ih | access _ _ ih | unsigned _ _ _ ih | unstepped _ _ ih | stepAfter _ _ _ _ ih
  | headNew _ _ ih | headPrimary _ _ ih | functionExpression _ ih | propertyNamed _ _ _ ih
  | declaratorBare _ _ ih | declaratorInit _ _ _ ih | blockStatement _ ih
  | variableDeclaration _ _ ih | functionDeclaration _ ih | loopInitDeclaration _ _ ih
  | loopInitExpression _ _ ih | expressionStatement _ _ _ ih => exact ih rfl
  | binding kind | name kind | wordTrue kind | wordFalse kind | wordNull kind | wordThis kind
  | memberNamed kind | memberIndexed kind | constructionCall kind | constructionBare kind
  | arguments kind | parameters kind | parenthesized kind | array kind | object kind
  | propertyComputed kind | propertyShort kind | functionNamed kind | functionUnnamed kind
  | blockEmpty kind | block kind | emptyStatement kind | ifShort kind | ifElse kind | counted kind
  | forBare kind | forCounted kind | forIn kind | forOf kind | whileStatement kind | doWhile kind
  | tryStatement kind | returnBare kind | returnValue kind | breakStatement kind
  | continueStatement kind | throwStatement kind => exact kind_ne kind (by decide)
  | propertyName name => exact name.elim (kind_ne · (by decide)) (kind_apart · rfl)
  | numberOrString kind | propertyLiteral kind =>
    exact kind.elim (kind_ne · (by decide)) (kind_ne · (by decide))
  | unaryOperator operator | stepBefore _ operator | declaration operator =>
    exact kind_apart operator rfl
  | closedNone | closedLast | closedMore | operationsStop | operationsMore | membersStop
  | membersMore | accessesStop | accessesMember | accessesCall | elementsNone | elementsHole
  | elementsLast | elementsMore | statementsNone | statementsMore | optionalNone | optionalSome
  | handlerNone | handlerBare | handlerNamed | finalizerNone | finalizerSome | labelNone
  | labelSome => cases consumes

theorem Feed.Ends.prev_ne {k : TokenKind} (stop : f.Ends g) (last : f.prev.kind ≠ k)
    (other : .semicolon ≠ k) : g.prev.kind ≠ k := by
  rcases stop with ⟨semicolon, rfl⟩ | ⟨_, _, rfl⟩
  · exact next_prev_ne semicolon other
  · exact last

/-- No part ends with a dot. -/
theorem Reads.prev_ne_dot (read : Reads p f v g)
    (before : p.consumes ∨ f.prev.kind ≠ .dot) : g.prev.kind ≠ .dot := by
  induction read with
  | commasLast _ _ ih | closedLast _ _ _ ih => exact ih (.inl (Item.part_consumes _))
  | commasMore _ _ _ _ ih | nested _ ih | group _ ih | single _ _ ih | sequence _ _ _ _ ih
  | arrowFunction _ _ ih | unassigned _ _ _ ih | assigned _ _ _ _ _ _ ih | arrowName _ ih
  | arrowNames _ _ ih | arrowBlock _ _ _ _ _ ih | arrowValue _ _ _ _ _ ih | untested _ _ ih
  | tested _ _ _ _ _ _ _ ih | unaryOperator _ _ ih | stepBefore _ _ _ _ ih | unsigned _ _ _ ih
  | unstepped _ _ ih | headNew _ _ ih | headPrimary _ _ ih | memberNamed _ _ ih
  | constructionCall _ _ _ _ _ _ ih | functionExpression _ ih | elementsLast _ _ _ _ ih
  | propertyComputed _ _ _ _ _ _ ih | propertyLiteral _ _ _ ih | propertyNamed _ _ _ _ ih
  | functionNamed _ _ _ _ _ _ ih | functionUnnamed _ _ _ _ _ ih | declaratorBare _ _ ih
  | declaratorInit _ _ _ _ ih | declaration _ _ ih | blockStatement _ ih
  | functionDeclaration _ ih | ifShort _ _ _ _ _ _ _ ih | ifElse _ _ _ _ _ _ _ _ _ ih
  | loopInitDeclaration _ _ ih | loopInitExpression _ _ ih | optionalSome _ _ ih
  | counted _ _ _ _ _ _ _ _ ih | forBare _ _ _ _ ih | forCounted _ _ _ _ _ _ _ ih
  | forIn _ _ _ _ _ _ _ _ _ _ _ ih | forOf _ _ _ _ _ _ _ _ _ _ _ _ ih
  | whileStatement _ _ _ _ _ _ ih | handlerBare _ _ _ ih | handlerNamed _ _ _ _ _ _ ih
  | finalizerSome _ _ ih | labelSome _ _ ih => exact ih (.inl rfl)
  | closedMore _ _ comma _ _ ih | elementsHole comma _ ih | elementsMore _ _ _ comma _ _ ih =>
    exact ih (.inr (Feed.next_prev_ne comma (by decide)))
  | closedNone | operationsStop | membersStop | accessesStop | elementsNone | statementsNone
  | optionalNone | handlerNone | finalizerNone | labelNone => exact before.resolve_left nofun
  | binding kind | name kind | wordTrue kind | wordFalse kind | wordNull kind | wordThis kind
  | propertyShort kind | emptyStatement kind | memberIndexed _ _ kind | arguments _ _ kind
  | parameters _ _ kind | parenthesized _ _ kind | array _ _ kind | object _ _ kind
  | blockEmpty _ kind => exact Feed.next_prev_ne kind (by decide)
  | @block _ g _ _ _ _ kind => exact Feed.next_prev_ne (f := g.resume _) kind (by decide)
  | propertyName name =>
    exact name.elim (Feed.next_prev_ne · (by decide)) (Feed.next_prev ▸ kind_apart · rfl)
  | numberOrString kind =>
    exact kind.elim (Feed.next_prev_ne · (by decide)) (Feed.next_prev_ne · (by decide))
  | stepAfter _ operator => exact Feed.next_prev ▸ kind_apart operator rfl
  | binary _ _ first more | access _ _ first more | membersMore _ _ first more
  | accessesMember _ _ first more | accessesCall _ _ first more | operationsMore _ _ _ _ first more
  | constructionBare _ _ _ _ first more | statementsMore _ _ _ _ first more =>
    exact more (.inr (first (.inl rfl)))
  | variableDeclaration _ stop ih | expressionStatement _ _ stop ih | returnValue _ _ _ stop ih
  | throwStatement _ _ _ stop ih => exact stop.prev_ne (ih (.inl rfl)) (by decide)
  | returnBare word _ stop =>
    exact stop.prev_ne (Feed.next_prev_ne word (by decide)) (by decide)
  | breakStatement word _ stop ih | continueStatement word _ stop ih =>
    exact stop.prev_ne (ih (.inr (Feed.next_prev_ne word (by decide)))) (by decide)
  | doWhile _ _ _ _ _ close stop =>
    rw [stop]
    split
    · exact Feed.next_prev_ne ‹_› (by decide)
    · exact Feed.next_prev_ne close (by decide)
  | tryStatement _ _ _ _ _ guarded handler finalizer =>
    exact finalizer (.inr (handler (.inr (guarded (.inl rfl)))))

/-- The parts that a colon can only stand after, not in. -/
def Part.isPlain : Part → Bool
  | property | commas .property => false
  | _ => true

theorem Item.part_isPlain (e : Item) : e.part.isPlain = (Part.commas e).isPlain := by
  cases e <;> rfl

/-- A part whose second token is a colon ends before that colon, and a part that may be empty is so
before a colon. -/
theorem Reads.lone (read : Reads p f v g) (plain : p.isPlain)
    (colon : (if p.consumes then f.next else f).current.kind = .colon) :
    g.current.kind = .colon := by
  induction read with
  | @commasLast e _ _ _ _ _ ih =>
    refine ih (e.part_isPlain ▸ plain) ?_
    rwa [if_pos e.part_consumes]
  | @commasMore e _ _ _ _ _ _ comma _ ih _ =>
    have := ih (e.part_isPlain ▸ plain) (by rwa [if_pos e.part_consumes])
    rw [comma] at this
    cases this
  | closedLast _ item => exact absurd colon (item.opens (Item.part_consumes _))
  | closedMore _ item => exact absurd colon (item.opens (Item.part_consumes _))
  | closedNone | operationsStop | membersStop | accessesStop | elementsNone | statementsNone
  | optionalNone | handlerNone | finalizerNone | labelNone | binding | propertyName | name
  | numberOrString | wordTrue | wordFalse | wordNull | wordThis | emptyStatement => exact colon
  | nested _ ih | group _ ih =>
    exact ih rfl ((congrArg Token.kind Feed.next_lift_current).trans colon)
  | single _ _ ih | arrowFunction _ _ ih | unassigned _ _ _ ih | arrowName _ ih | arrowNames _ _ ih
  | untested _ _ ih | unsigned _ _ _ ih | unstepped _ _ ih | headNew _ _ ih | headPrimary _ _ ih
  | functionExpression _ ih | declaratorBare _ _ ih | blockStatement _ ih
  | functionDeclaration _ ih | loopInitDeclaration _ _ ih | loopInitExpression _ _ ih =>
    exact ih rfl colon
  | binary _ _ first more | access _ _ first more => exact more rfl (first rfl colon)
  | variableDeclaration _ stop ih | expressionStatement _ _ stop ih | breakStatement _ _ stop ih
  | continueStatement _ _ stop ih => exact stop.colon (ih rfl colon)
  | returnBare _ _ stop => exact stop.colon colon
  | sequence _ other _ ih | arrowBlock _ other _ _ ih | arrowValue _ other _ _ ih
  | tested _ other _ _ _ ih | declaratorInit _ other _ ih | arguments _ _ other ih
  | parameters _ _ other ih | array _ _ other ih | object _ _ other ih | block _ _ other ih
  | counted _ _ other _ _ _ ih => cases other.symm.trans (ih rfl colon)
  | assigned _ _ operator _ _ ih => exact absurd (ih rfl colon) (kind_apart operator rfl)
  | stepAfter _ operator _ _ ih => exact absurd (ih rfl colon) (kind_apart operator rfl)
  | ifShort _ other | ifElse _ other | whileStatement _ other | forBare _ other
  | forCounted _ other | forIn _ other | forOf _ other | blockEmpty _ other | elementsHole other
  | handlerBare other | handlerNamed other | finalizerSome other => cases other.symm.trans colon
  | unaryOperator _ inner | stepBefore _ _ inner | memberNamed _ inner | memberIndexed _ inner
  | constructionCall _ inner | constructionBare _ inner | parenthesized _ inner
  | functionNamed _ inner | functionUnnamed _ _ inner | declaration _ inner | doWhile _ inner
  | tryStatement _ inner | returnValue _ _ inner | throwStatement _ _ inner
  | elementsLast _ _ inner | elementsMore _ _ inner | statementsMore _ _ inner
  | membersMore inner | accessesMember inner | accessesCall inner | optionalSome _ inner
  | labelSome _ inner => exact absurd colon (inner.opens rfl)
  | operationsMore ranked => exact absurd colon (Feed.rank?_ne ranked rfl)
  | propertyComputed | propertyLiteral | propertyNamed | propertyShort => cases plain

/-- Tokens that are not counted unless they are names. -/
def isSilent (k : TokenKind) : Bool :=
  !k.isOperator && !List.contains [.ident, .number, .string, .kwTrue, .kwFalse, .kwNull, .kwThis,
    .endOfInput] k

namespace Feed

structure Genuine (f : Feed) : Prop where
  closed : f.Closed
  faithful : f.Faithful

namespace Genuine

theorem upto (genuine : f.Genuine) (upto : f.Upto g) : g.Genuine :=
  ⟨upto.closed genuine.closed, genuine.faithful.upto upto⟩

theorem next (genuine : f.Genuine) : f.next.Genuine := genuine.upto upto_next

theorem lift (genuine : f.Genuine) : f.lift.Genuine := genuine.upto upto_lift

theorem bar (genuine : f.Genuine) : f.bar.Genuine := genuine.upto upto_bar

theorem after (genuine : f.Genuine) (read : Reads p f v g) : g.Genuine := genuine.upto read.upto

end Genuine

def tally (f : Feed) : Tally :=
  ⟨spelledLeaves f.prev.kind f.tokens, (spelledOperators f.prev.kind f.tokens : Multiset Value)⟩

def asName (f : Feed) : Bool := f.current.isPropertyName f.prev.kind f.rest

@[simp] theorem tally_lift : f.lift.tally = f.tally := rfl

@[simp] theorem tally_bar : f.bar.tally = f.tally := rfl

@[simp] theorem tally_resume : (f.resume g).tally = f.tally := rfl

@[simp] theorem tally_next_lift : f.lift.next.tally = f.next.tally := by
  simp [tally]

@[simp] theorem tally_next_resume : (f.resume g).next.tally = f.next.tally := by
  simp [tally]

@[simp] theorem asName_lift : f.lift.asName = f.asName := rfl

@[simp] theorem asName_bar : f.bar.asName = f.asName := rfl

theorem asName_of_prev (dot : f.prev.kind ≠ .dot) (brace : f.prev.kind ≠ .leftBrace)
    (comma : f.prev.kind ≠ .comma) : f.asName = false := by
  simp [asName, Token.isPropertyName, dot, brace, comma]

theorem asName_of_plain (plain : f.current.kind.isKeyword = false) : f.asName = false := by
  simp [asName, Token.isPropertyName, plain]

theorem asName_of_next (closed : f.Closed) (dot : f.prev.kind ≠ .dot)
    (colon : f.next.current.kind ≠ .colon) : f.asName = false := by
  by_cases stop : f.current.kind = .endOfInput
  · exact asName_of_plain (stop ▸ rfl)
  · obtain ⟨t, rest, more, next⟩ := closed.next_eq stop
    rw [next] at colon
    simp [asName, Token.isPropertyName, dot, more, colon]

/-- What is left is the current token and what is left after it. -/
theorem tally_next (closed : f.Closed) (within : f.current.kind ≠ .endOfInput) :
    f.tally = (if f.asName then .leaf (.name (.text f.current.raw))
      else ⟨f.current.leaves, if f.current.kind.isOperator then {f.current.value} else 0⟩) +
        f.next.tally := by
  obtain ⟨t, rest, more, next⟩ := closed.next_eq within
  rw [next]
  simp only [tally, tokens, asName, more, spelledLeaves, spelledOperators]
  cases named : f.current.isPropertyName f.prev.kind (t :: rest) <;>
    cases operator : f.current.kind.isOperator <;>
    simp [Tally.ext_iff, Tally.leaf]

/-- Most tokens are not counted. -/
theorem take_silent (closed : f.Closed) (silent : isSilent f.current.kind)
    (unnamed : f.asName = false) : f.tally = f.next.tally := by
  obtain ⟨operator, uncounted⟩ := Bool.and_eq_true_iff.mp silent
  rw [Bool.not_eq_true'] at operator
  have leaves : f.current.leaves = [] := by
    unfold Token.leaves
    split <;> simp_all
  have within : f.current.kind ≠ .endOfInput := by
    intro stop
    simp [stop] at uncounted
  rw [tally_next closed within, unnamed, operator, leaves]
  exact zero_add _

theorem take_mark {k : TokenKind} (closed : f.Closed) (mark : f.current.kind = k)
    (plain : k.isKeyword = false) (silent : isSilent k) :
    f.tally = f.next.tally :=
  take_silent closed (mark ▸ silent) (asName_of_plain (mark ▸ plain))

theorem take_word {k : TokenKind} (closed : f.Closed) (word : f.current.kind = k)
    (unnamed : f.asName = false) (silent : isSilent k) : f.tally = f.next.tally :=
  take_silent closed (word ▸ silent) unnamed

/-- A token with a leaf that is no operator. -/
theorem take_leaf {l : Leaf} (closed : f.Closed) (unnamed : f.asName = false)
    (leaf : f.current.leaves = [l]) : f.tally = .leaf l + f.next.tally := by
  have plain : f.current.kind ≠ .endOfInput ∧ f.current.kind.isOperator = false := by
    unfold Token.leaves at leaf
    split at leaf <;> simp_all [TokenKind.isOperator, TokenKind.rank?, TokenKind.isAssignment,
      TokenKind.isUnary, TokenKind.isUpdate]
  rw [tally_next closed plain.1, unnamed, plain.2, leaf]
  rfl

theorem take_ident (closed : f.Closed) (ident : f.current.kind = .ident) :
    f.tally = .leaf (.name f.current.value) + f.next.tally :=
  take_leaf closed (asName_of_plain (ident ▸ rfl)) (by simp [Token.leaves, ident])

/-- A token read as the name of a property. -/
theorem take_name (closed : f.Closed) (faithful : f.Faithful)
    (named : f.current.kind = .ident ∨ f.asName) :
    f.tally = .leaf (.name f.spelled) + f.next.tally := by
  rcases named with ident | named
  · obtain ⟨w, _, value, spelled⟩ := faithful.name ident
    rw [take_ident closed ident, value, spelled]
  · have keyword : f.current.kind.isKeyword := (Bool.and_eq_true_iff.mp named).1
    obtain ⟨value, raw⟩ := faithful.current.word keyword
    rw [tally_next closed (kind_apart keyword rfl), named, spelled,
      Token.word_of_value value raw, ← raw]
    rfl

end Feed

/-- What has to stand around a part so that its keywords are names just where it reads names. -/
def Part.Placed (p : Part) (f g : Feed) : Prop :=
  match p with
  | propertyName => f.current.kind = .ident ∨ f.asName
  | property | closed _ .property => f.prev.kind = .leftBrace ∨ f.prev.kind = .comma
  | commas .property => False
  | statement | sequence | group | commas _ | declaration | loopInit | optional _ =>
    f.asName = false ∧ g.current.kind ≠ .colon
  | statements _ => (f.current.kind.isKeyword → f.prev.kind ≠ .dot) ∧ g.current.kind ≠ .colon
  | closed .. => f.prev.kind ≠ .dot ∧ g.current.kind ≠ .colon
  | elements | operations .. | handler | finalizer => f.prev.kind ≠ .dot
  | counted .. => g.current.kind ≠ .colon
  | binding | arrowParameters | parameters | arguments | block | label | member .. | members ..
  | accesses .. => True
  | _ => f.asName = false

/-- What is counted before a part is counted after it, with the value that the part goes on from. -/
def Part.Settles (p : Part) (f : Feed) (v : Value) (g : Feed) : Prop :=
  match p with
  | counted _ base | member _ base | members _ base | accesses _ base | operations _ _ base =>
    base.tally + f.tally = v.tally + g.tally
  | _ => f.tally = v.tally + g.tally

def Part.Conserves (p : Part) (f : Feed) (v : Value) (g : Feed) : Prop :=
  f.Genuine → p.Placed f g → p.Settles f v g

theorem Item.settles {e : Item} : e.part.Settles f v g ↔ f.tally = v.tally + g.tally := by
  cases e <;> rfl

theorem Item.placed {e : Item} {h : Feed} (placed : (Part.commas e).Placed f h) :
    e.part.Placed f g := by
  cases e with
  | binding => trivial
  | property => exact placed.elim
  | _ => exact placed.1

/-- An item before a token other than a colon. -/
theorem Item.placed_closed {e : Item} {k : TokenKind} {h : Feed} (genuine : f.Genuine)
    (placed : (Part.closed k e).Placed f h) (item : Reads e.part f v g)
    (stop : e ≠ .property → g.current.kind ≠ .colon) : e.part.Placed f g := by
  have unnamed (plain : e ≠ .property) (dot : f.prev.kind ≠ .dot) : f.asName = false := by
    refine Feed.asName_of_next genuine.closed dot fun colon => ?_
    refine stop plain (item.lone ?_ (by rwa [if_pos e.part_consumes]))
    cases e <;> first | exact absurd rfl plain | rfl
  cases e with
  | binding => trivial
  | property => exact placed
  | _ => exact unnamed nofun placed.1

theorem Item.stop_of_placed {e : Item} {k : TokenKind} (placed : (Part.closed k e).Placed f g)
    (plain : e ≠ .property) : g.current.kind ≠ .colon := by
  cases e with
  | property => exact absurd rfl plain
  | _ => exact placed.2

theorem Item.placed_more {e : Item} {k : TokenKind} {h : Feed} (comma : g.current.kind = .comma)
    (placed : (Part.closed k e).Placed f h) : (Part.closed k e).Placed g.next h := by
  have prev : g.next.prev.kind = .comma := by rw [Feed.next_prev, comma]
  cases e with
  | property => exact .inr prev
  | _ => exact ⟨prev ▸ nofun, placed.2⟩

theorem Item.placed_commas {e : Item} {h : Feed} (genuine : g.Genuine)
    (comma : g.current.kind = .comma) (more : Reads (.commas e) g.next v h)
    (plain : e ≠ .property) (stop : h.current.kind ≠ .colon) :
    (Part.commas e).Placed g.next h := by
  have unnamed : g.next.asName = false := by
    refine Feed.asName_of_next genuine.next.closed ?_ fun colon => ?_
    · rw [Feed.next_prev, comma]
      nofun
    · refine stop (more.lone ?_ colon)
      cases e <;> first | exact absurd rfl plain | rfl
  cases e with
  | property => exact absurd rfl plain
  | _ => exact ⟨unnamed, stop⟩

theorem Item.plain_of_placed {e : Item} (placed : (Part.commas e).Placed f g) :
    e ≠ .property ∧ g.current.kind ≠ .colon := by
  cases e with
  | property => exact placed.elim
  | _ => exact ⟨nofun, placed.2⟩

namespace Feed

theorem asName_next {k : TokenKind} (last : f.current.kind = k)
    (apart : k ≠ .dot ∧ k ≠ .leftBrace ∧ k ≠ .comma) : f.next.asName = false := by
  apply asName_of_prev <;> rw [next_prev, last]
  exacts [apart.1, apart.2.1, apart.2.2]

/-- An operator is counted by its spelling, and what stands after it is no name. -/
theorem take_operator (genuine : f.Genuine)
    (operator : f.current.kind.isUnary ∨ f.current.kind.isUpdate ∨ f.current.kind.isAssignment ∨
      f.current.kind.rank?.isSome) (unnamed : f.asName = false) :
    f.current.value = .text (text f.current.kind.spelling) ∧
      f.tally = .operator (.text (text f.current.kind.spelling)) + f.next.tally ∧
      f.next.asName = false := by
  have value := genuine.faithful.operator operator
  have isOperator : f.current.kind.isOperator := by
    simp only [TokenKind.isOperator, Bool.or_eq_true]
    tauto
  have apart : ∀ k, TokenKind.isOperator k = false → f.current.kind ≠ k := by
    intro k plain same
    rw [same, plain] at isOperator
    cases isOperator
  have dot := apart .dot rfl
  have brace := apart .leftBrace rfl
  have comma := apart .comma rfl
  have within := apart .endOfInput rfl
  have leaves : f.current.leaves = [] := by
    unfold Token.leaves
    split
    case h_8 => rfl
    all_goals exact absurd ‹_› (apart _ rfl)
  refine ⟨value, ?_, asName_next rfl ⟨dot, brace, comma⟩⟩
  rw [tally_next genuine.closed within, unnamed, isOperator, leaves, value]
  rfl

/-- A keyword before a part is no name, unless it stands after a dot. -/
theorem asName_before {h : Feed} (genuine : f.Genuine) (dot : f.prev.kind ≠ .dot)
    (read : Reads p h v g) (consumes : p.consumes)
    (start : h.current = f.next.current) : f.asName = false :=
  asName_of_next genuine.closed dot (start ▸ read.opens consumes)

/-- Of a part in parentheses only the part is counted. -/
theorem settles_parens (genuine : f.Genuine) (opening : f.current.kind = .leftParen)
    (inner : Reads p f.next v g) (close : g.current.kind = .rightParen)
    (settled : f.next.tally = v.tally + g.tally) : f.tally = v.tally + g.next.tally := by
  rw [take_mark genuine.closed opening rfl rfl, settled,
    take_mark (genuine.next.after inner).closed close rfl rfl]

theorem settles_name (genuine : f.Genuine) (ident : f.current.kind = .ident) :
    f.tally = (f.next.node .identifier [f.current.value] f.current.start).tally +
      f.next.tally := by
  obtain ⟨w, _, value, _⟩ := genuine.faithful.name ident
  rw [take_ident genuine.closed ident, node, Value.tally_name (by rw [value]; rfl)]

theorem tally_literal {w : Value} (scalar : w.isScalar) :
    (f.literal w).tally = .leaf (.literal w) := by
  rw [literal, Value.tally_mapNotes, node, Value.tally_literal scalar]

theorem settles_literal {w : Value} (genuine : f.Genuine) (unnamed : f.asName = false)
    (leaf : f.current.leaves = [.literal w]) (scalar : w.isScalar) :
    f.tally = (f.literal w).tally + f.next.tally := by
  rw [take_leaf genuine.closed unnamed leaf, tally_literal scalar]

theorem Ends.tally (stop : f.Ends g) (closed : f.Closed) : f.tally = g.tally := by
  rcases stop with ⟨semicolon, rfl⟩ | ⟨_, _, rfl⟩
  · exact take_mark closed semicolon rfl rfl
  · rfl

theorem Closed.optional_semicolon (closed : f.Closed)
    (stop : g = if f.current.kind = .semicolon then f.next else f) : f.tally = g.tally := by
  rw [stop]
  split
  · exact take_mark closed ‹_› rfl rfl
  · rfl

theorem Ends.before (stop : f.Ends g) (apart : g.current.kind ≠ .colon) :
    f.current.kind ≠ .colon :=
  mt stop.colon apart

end Feed

theorem tally_attachLeading {comments : List Comment} :
    (attachLeading comments v).tally = v.tally := by
  unfold attachLeading
  split
  · rfl
  · exact Value.tally_mapNotes _

theorem tally_attachTrailing {t : Token} : (attachTrailing t v).tally = v.tally :=
  Value.tally_mapNotes _

theorem tallyOf_mapLast {t : Token} {vs : List Value} :
    Value.tallyOf (mapLast (attachTrailing t) vs) = Value.tallyOf vs := by
  induction vs with
  | nil => rfl
  | cons v vs ih =>
    cases vs with
    | nil => simp [mapLast, tally_attachTrailing]
    | cons w vs =>
      change v.tally + Value.tallyOf (mapLast (attachTrailing t) (w :: vs)) = _
      rw [ih]
      rfl

/-- A part that no colon follows does not begin with a name, unless it stands after a dot. -/
theorem Reads.unnamed_before (read : Reads p f v g) (genuine : f.Genuine)
    (dot : f.current.kind.isKeyword → f.prev.kind ≠ .dot) (stop : g.current.kind ≠ .colon)
    (plain : p.isPlain) (consumes : p.consumes) : f.asName = false := by
  cases keyword : f.current.kind.isKeyword with
  | false => exact Feed.asName_of_plain keyword
  | true =>
    refine Feed.asName_of_next genuine.closed (dot keyword) fun colon => ?_
    exact stop (read.lone plain (by rwa [if_pos consumes]))

theorem Feed.Faithful.scalar (faithful : f.Faithful)
    (scalar : f.current.kind = .number ∨ f.current.kind = .string) : f.current.value.isScalar := by
  rcases scalar with number | string
  · rcases faithful.current.number number with ⟨_, same⟩ | ⟨_, same⟩ <;> rw [same] <;> rfl
  · obtain ⟨_, same⟩ := faithful.current.string string
    rw [same]
    rfl

theorem Reads.named_after_dot (read : Reads .propertyName f v g) (dot : f.prev.kind = .dot) :
    f.current.kind = .ident ∨ f.asName := by
  cases read with
  | propertyName word =>
    refine word.imp_right fun keyword => ?_
    simp [Feed.asName, Token.isPropertyName, keyword, dot]

theorem Reads.named_before_colon (read : Reads .propertyName f v g) (genuine : f.Genuine)
    (place : f.prev.kind = .leftBrace ∨ f.prev.kind = .comma)
    (colon : f.next.current.kind = .colon) : f.current.kind = .ident ∨ f.asName := by
  cases read with
  | propertyName word =>
    refine word.imp_right fun keyword => ?_
    obtain ⟨t, rest, more, next⟩ := genuine.closed.next_eq (kind_apart keyword rfl)
    rw [next] at colon
    change t.kind = .colon at colon
    rcases place with before | before <;>
      simp [Feed.asName, Token.isPropertyName, keyword, before, more, colon]

theorem declares_apart {k : TokenKind} (word : k.declares) :
    isSilent k ∧ k ≠ .dot ∧ k ≠ .leftBrace ∧ k ≠ .comma := by
  rcases TokenKind.declares_cases word with rfl | rfl | rfl <;> decide

theorem settles_lists : Part.Family.lists.Keeps Part.Conserves := by
  intro p f v g read rule family genuine placed
  induction rule using Reads.below.casesOn with
    -- the rules of the parts are left out, for they hold the goal once more
    (cases family <;> repeat (rename Reads.below _ => parts; clear parts)) <;>
      simp only [Part.Conserves, Part.Settles, Value.tally_list,
        Value.tallyOf_cons, Value.tallyOf_nil, Value.tally_null, add_zero, zero_add] at *
  | commasLast _ _ _ ih => exact Item.settles.mp (ih genuine (Item.placed placed))
  | commasMore item comma more _ ih _ rest =>
    obtain ⟨plain, stop⟩ := Item.plain_of_placed placed
    have later := genuine.after item
    rw [Item.settles.mp (ih genuine (Item.placed placed)),
      Feed.take_mark later.closed comma rfl rfl,
      rest later.next (Item.placed_commas later comma more plain stop), add_assoc]
  | closedLast _ item _ _ ih =>
    have inner := Item.placed_closed genuine placed item (Item.stop_of_placed placed)
    exact Item.settles.mp (ih genuine inner)
  | closedMore _ item comma _ _ ih _ more =>
    have later := genuine.after item
    have inner := Item.placed_closed genuine placed item fun _ => kind_ne comma (by decide)
    rw [Item.settles.mp (ih genuine inner), Feed.take_mark later.closed comma rfl rfl,
      more later.next (Item.placed_more comma placed), add_assoc]
  | elementsHole comma _ _ ih =>
    rw [Feed.take_mark genuine.closed comma rfl rfl,
      ih genuine.next (Feed.next_prev_ne comma (by decide))]
  | elementsLast _ _ item stop _ ih =>
    exact ih genuine (item.unnamed_before genuine (fun _ => placed)
      (kind_ne stop (by decide)) rfl rfl)
  | elementsMore _ _ item next _ _ ih _ more =>
    have later := genuine.after item
    rw [
      ih genuine (item.unnamed_before genuine (fun _ => placed) (kind_ne next (by decide)) rfl rfl),
      Feed.take_mark later.closed next rfl rfl,
      more later.next (Feed.next_prev_ne next (by decide)), add_assoc]
  | statementsMore _ _ first more _ ih _ rest =>
    have apart : _ ≠ TokenKind.colon := fun colon => placed.2 (more.lone rfl colon)
    rw [ih genuine ⟨first.unnamed_before genuine placed.1 apart rfl rfl, apart⟩,
      rest (genuine.after first) ⟨fun _ => first.prev_ne_dot (.inl rfl), placed.2⟩,
      tally_attachLeading, add_assoc]

theorem settles_names : Part.Family.names.Keeps Part.Conserves := by
  intro p f v g read rule family genuine placed
  induction rule using Reads.below.casesOn with
    (cases family <;> repeat (rename Reads.below _ => parts; clear parts)) <;>
      simp only [Part.Conserves, Part.Settles, Value.tally_null, zero_add] at *
  | binding ident => exact Feed.settles_name genuine ident
  | propertyName word =>
    rw [Feed.take_name genuine.closed genuine.faithful placed, Feed.node, Value.tally_name rfl]
  | nested _ _ ih => exact ih genuine.lift placed
  | group _ _ ih => exact ih genuine.lift placed
  | arguments opening items close _ ih =>
    exact Feed.settles_parens genuine opening items close
      (ih genuine.next ⟨Feed.next_prev_ne opening (by decide), kind_ne close (by decide)⟩)
  | parameters opening items close _ ih =>
    exact Feed.settles_parens genuine opening items close
      (ih genuine.next ⟨Feed.next_prev_ne opening (by decide), kind_ne close (by decide)⟩)
  | optionalSome _ _ _ ih => exact ih genuine placed

theorem settles_assignments : Part.Family.assignments.Keeps Part.Conserves := by
  intro p f v g read rule family genuine placed
  induction rule using Reads.below.casesOn with
    (cases family <;> repeat (rename Reads.below _ => parts; clear parts)) <;>
      simp only [Part.Conserves, Part.Settles, Value.tally_list,
        Value.tallyOf_cons, Value.tallyOf_nil, add_zero] at *
  | single _ _ _ ih => exact ih genuine placed.1
  | sequence first comma more _ ih _ rest =>
    have later := genuine.after first
    have inner := Item.placed_commas later comma more nofun placed.2
    rw [ih genuine placed.1, Feed.take_mark later.closed comma rfl rfl, rest later.next inner,
      Feed.node, Value.tally_node (by decide)]
    simp [add_assoc]
  | arrowFunction _ _ _ ih => exact ih genuine placed
  | unassigned _ _ _ _ ih => exact ih genuine placed
  | assigned _ inner operator _ _ _ left _ right =>
    have later := genuine.after inner
    obtain ⟨value, taken, unnamed⟩ := Feed.take_operator later (.inr (.inr (.inl operator)))
      (Feed.asName_of_plain (symbol_plain (.inl operator)))
    rw [left genuine placed, taken, right later.next unnamed, Feed.node, value,
      Value.tally_assignment, Tally.operator_add_left]
    simp only [add_assoc]
  | arrowName _ _ ih => exact ih genuine trivial
  | arrowNames _ _ _ ih => exact ih genuine trivial
  | arrowBlock params arrow _ _ _ listed _ body =>
    have later := genuine.after params
    rw [listed genuine trivial, Feed.take_mark later.closed arrow rfl rfl, body later.next trivial,
      Feed.node, Value.tally_node (by decide)]
    simp [add_assoc]
  | arrowValue params arrow _ _ _ listed _ body =>
    have later := genuine.after params
    rw [listed genuine trivial, Feed.take_mark later.closed arrow rfl rfl,
      body later.next (Feed.asName_next arrow (by decide)), Feed.node, Value.tally_node (by decide)]
    simp [add_assoc]
  | untested _ _ _ ih => exact ih genuine placed
  | tested condition question consequent colon _ _ test _ left _ right =>
    have first := genuine.after condition
    have second := first.next.after consequent
    rw [test genuine placed, Feed.take_mark first.closed question rfl rfl,
      left first.next (Feed.asName_next question (by decide)),
      Feed.take_mark second.closed colon rfl rfl,
      right second.next (Feed.asName_next colon (by decide)), Feed.node,
      Value.tally_node (by decide)]
    simp [add_assoc]

theorem settles_operations : Part.Family.operations.Keeps Part.Conserves := by
  intro p f v g read rule family genuine placed
  induction rule using Reads.below.casesOn with
    (cases family <;> repeat (rename Reads.below _ => parts; clear parts)) <;>
      simp only [Part.Conserves, Part.Settles] at *
  | binary first _ _ ih _ more =>
    rw [ih genuine placed, more (genuine.after first) (first.prev_ne_dot (.inl rfl))]
  | operationsMore ranked _ operand _ _ right _ more =>
    have ranked' := Feed.rank?_some ranked
    have unnamed := Feed.asName_before genuine placed operand rfl (by simp)
    obtain ⟨value, taken, later⟩ := Feed.take_operator genuine (.inr (.inr (.inr
      (by simp [ranked'])))) unnamed
    have rest := more (genuine.next.after operand) (operand.prev_ne_dot (.inl rfl))
    rw [Feed.node, value, Value.tally_operation] at rest
    rw [← rest, taken, right genuine.next later, Tally.operator_add_left]
    simp only [add_assoc]
  | unaryOperator operator _ _ ih =>
    obtain ⟨value, taken, unnamed⟩ := Feed.take_operator genuine (.inl operator) placed
    rw [taken, ih genuine.next unnamed, Feed.node, value, Value.tally_unary, add_assoc]
  | stepBefore _ operator _ _ _ ih =>
    obtain ⟨value, taken, unnamed⟩ := Feed.take_operator genuine (.inr (.inl operator)) placed
    rw [taken, ih genuine.next unnamed, Feed.node, value, Value.tally_update, add_assoc]
  | unsigned _ _ _ _ ih => exact ih genuine placed
  | unstepped _ _ _ ih => exact ih genuine placed
  | stepAfter inner operator _ _ _ ih =>
    have later := genuine.after inner
    obtain ⟨value, taken, _⟩ := Feed.take_operator later (.inr (.inl operator))
      (Feed.asName_of_plain (symbol_plain (.inr operator)))
    rw [ih genuine placed, taken, Feed.node, value, Value.tally_update, Tally.operator_add_left,
      add_assoc]

theorem settles_accesses : Part.Family.accesses.Keeps Part.Conserves := by
  intro p f v g read rule family genuine placed
  induction rule using Reads.below.casesOn with
    (cases family <;> repeat (rename Reads.below _ => parts; clear parts)) <;>
      simp only [Part.Conserves, Part.Settles] at *
  | access first _ _ ih _ more =>
    rw [ih genuine placed, more (genuine.after first) trivial]
  | headNew _ _ _ ih => exact ih genuine placed
  | headPrimary _ _ _ ih => exact ih genuine placed
  | memberNamed dot name _ ih =>
    have named : _ ∨ Feed.asName _ = true := name.named_after_dot (by simp [dot])
    rw [Feed.take_mark genuine.closed dot rfl rfl, ih genuine.next named, Feed.node,
      Value.tally_node (by decide)]
    simp [add_assoc]
  | memberIndexed bracket index close _ ih =>
    have later := genuine.next.after index
    rw [Feed.take_mark genuine.closed bracket rfl rfl,
      ih genuine.next ⟨Feed.asName_next bracket (by decide), kind_ne close (by decide)⟩,
      Feed.take_mark later.closed close rfl rfl, Feed.node, Value.tally_node (by decide)]
    simp [add_assoc]
  | membersMore first _ _ ih _ more => rw [ih genuine trivial, more (genuine.after first) trivial]
  | accessesMember first _ _ ih _ more =>
    rw [ih genuine trivial, more (genuine.after first) trivial]
  | accessesCall args _ _ listed _ more =>
    have rest := more (genuine.after args) trivial
    rw [Feed.node, Value.tally_node (by decide)] at rest
    rw [← rest, listed genuine trivial]
    simp [add_assoc]
  | constructionCall new first callee _ _ ih _ more _ listed =>
    have later := genuine.next.after first
    rw [Feed.take_word genuine.closed new placed rfl,
      ih genuine.next (Feed.asName_next new (by decide)), more later trivial,
      listed (later.after callee) trivial, Feed.node, Value.tally_node (by decide)]
    simp [add_assoc]
  | constructionBare new first _ _ _ ih _ more =>
    rw [Feed.take_word genuine.closed new placed rfl,
      ih genuine.next (Feed.asName_next new (by decide)), more (genuine.next.after first) trivial,
      Feed.node, Value.tally_node (by decide)]
    simp

theorem settles_primaries : Part.Family.primaries.Keeps Part.Conserves := by
  intro p f v g read rule family genuine placed
  induction rule using Reads.below.casesOn with
    (cases family <;> repeat (rename Reads.below _ => parts; clear parts)) <;>
      simp only [Part.Conserves, Part.Settles] at *
  | name ident => exact Feed.settles_name genuine ident
  | numberOrString scalar =>
    refine Feed.settles_literal genuine placed ?_ (genuine.faithful.scalar scalar)
    rcases scalar with kind | kind <;> simp [Token.leaves, kind]
  | wordTrue word => exact Feed.settles_literal genuine placed (by simp [Token.leaves, word]) rfl
  | wordFalse word => exact Feed.settles_literal genuine placed (by simp [Token.leaves, word]) rfl
  | wordNull word => exact Feed.settles_literal genuine placed (by simp [Token.leaves, word]) rfl
  | wordThis word =>
    rw [Feed.take_leaf genuine.closed placed (l := .this) (by simp [Token.leaves, word])]
    rfl
  | functionExpression _ _ ih => exact ih genuine placed
  | parenthesized opening inner close _ ih =>
    exact Feed.settles_parens genuine opening inner close
      (ih genuine.next ⟨Feed.asName_next opening (by decide), kind_ne close (by decide)⟩)
  | array opening items close _ ih =>
    have later := genuine.next.after items
    rw [Feed.take_mark genuine.closed opening rfl rfl,
      ih genuine.next (Feed.next_prev_ne opening (by decide)),
      Feed.take_mark later.closed close rfl rfl, Feed.node, Value.tally_node (by decide)]
    simp
  | object opening items close _ ih =>
    have later := genuine.next.after items
    rw [Feed.take_mark genuine.closed opening rfl rfl, ih genuine.next (.inl (by simp [opening])),
      Feed.take_mark later.closed close rfl rfl, Feed.node, Value.tally_node (by decide)]
    simp
  | propertyComputed opening key close colon _ _ ih _ value =>
    have later := genuine.next.after key
    rw [Feed.take_mark genuine.closed opening rfl rfl,
      ih genuine.next (Feed.asName_next opening (by decide)),
      Feed.take_mark later.closed close rfl rfl, Feed.take_mark later.next.closed colon rfl rfl,
      value later.next.next (Feed.asName_next colon (by decide)), Feed.node, Value.tally_property,
      add_assoc]
  | propertyLiteral scalar colon _ _ value =>
    have isScalar := genuine.faithful.scalar scalar.symm
    have taken : Feed.tally _ = _ := Feed.settles_literal genuine
      (Feed.asName_of_plain (by rcases scalar with kind | kind <;> rw [kind] <;> rfl))
      (by rcases scalar with kind | kind <;> simp [Token.leaves, kind]) isScalar
    rw [taken, Feed.take_mark genuine.next.closed colon rfl rfl,
      value genuine.next.next (Feed.asName_next colon (by decide)), Feed.node, Value.tally_property,
      add_assoc]
  | propertyNamed key colon _ _ ih _ value =>
    rw [ih genuine (key.named_before_colon genuine placed colon),
      Feed.take_mark genuine.next.closed colon rfl rfl,
      value genuine.next.next (Feed.asName_next colon (by decide)), Feed.node, Value.tally_property,
      add_assoc]
  | propertyShort ident _ =>
    obtain ⟨w, _, value, spelled⟩ := genuine.faithful.name ident
    rw [Feed.take_ident genuine.closed ident, Feed.node, Feed.node, Feed.node, value, spelled,
      Value.tally_shorthand rfl, Value.tally_name rfl]

theorem settles_functions : Part.Family.functions.Keeps Part.Conserves := by
  intro p f v g read rule family genuine placed
  induction rule using Reads.below.casesOn with
    (cases family <;> repeat (rename Reads.below _ => parts; clear parts)) <;>
      simp only [Part.Conserves, Part.Settles, Value.tally_list, Value.tallyOf_cons] at *
  | @functionNamed declared _ _ _ _ _ _ _ word name params _ _ named _ listed _ body =>
    have later := genuine.next.after name
    rw [Feed.take_word genuine.closed word placed rfl, named genuine.next trivial,
      listed later trivial, body (later.after params) trivial, Feed.node]
    cases declared <;> rw [Value.tally_node (by decide)] <;> simp [add_assoc]
  | functionUnnamed word _ params _ _ listed _ body =>
    rw [Feed.take_word genuine.closed word placed rfl, listed genuine.next trivial,
      body (genuine.next.after params) trivial, Feed.node, Value.tally_node (by decide)]
    simp [add_assoc]
  | blockEmpty opening close =>
    rw [Feed.take_mark genuine.closed opening rfl rfl,
      Feed.take_mark genuine.next.closed close rfl rfl, tally_attachTrailing, Feed.node,
      Value.tally_node (by decide)]
    simp
  | block opening body close _ ih =>
    have later := genuine.next.lift.after body
    have inner := ih genuine.next.lift ⟨fun _ => Feed.next_prev_ne opening (by decide), kind_ne
      close (by decide)⟩
    rw [Feed.tally_lift] at inner
    rw [Feed.take_mark genuine.closed opening rfl rfl, inner,
      Feed.take_mark later.closed close rfl rfl, Feed.node, Value.tally_node (by decide)]
    simp [tallyOf_mapLast, add_assoc]
  | declaratorBare _ _ _ ih =>
    rw [ih genuine trivial, Feed.node, Value.tally_declarator_bare]
  | declaratorInit name assign init _ ih _ value =>
    have later := genuine.after name
    obtain ⟨_, taken, unnamed⟩ := Feed.take_operator later (.inr (.inr (.inl
      (by rw [assign]; rfl)))) (Feed.asName_of_plain (by rw [assign]; rfl))
    have conforms : Conforms .parsed .expression _ := init.yields later.next.faithful
    rw [ih genuine trivial, taken, value later.next unnamed, assign, Feed.node,
      Value.tally_declarator conforms.isNode, Tally.operator_add_left]
    simp only [show TokenKind.assign.spelling = "=" from rfl, add_assoc]
  | declaration word items _ ih =>
    rw [Feed.take_silent genuine.closed (declares_apart word).1 placed.1,
      ih genuine.next ⟨Feed.asName_next rfl (declares_apart word).2, placed.2⟩, Feed.node,
      Value.tally_node (by decide)]
    simp

theorem settles_clauses : Part.Family.clauses.Keeps Part.Conserves := by
  intro p f v g read rule family genuine placed
  induction rule using Reads.below.casesOn with
    (cases family <;> repeat (rename Reads.below _ => parts; clear parts)) <;>
      simp only [Part.Conserves, Part.Settles, Value.tally_null, zero_add] at *
  | loopInitDeclaration _ _ _ ih => exact ih genuine placed
  | loopInitExpression _ _ _ ih => exact ih genuine placed
  | counted first condition second update close _ _ test _ updated _ body =>
    have later := genuine.next.after condition
    have last := later.next.after update
    rw [Feed.take_mark genuine.closed first rfl rfl,
      test genuine.next ⟨Feed.asName_next first (by decide), kind_ne second (by decide)⟩,
      Feed.take_mark later.closed second rfl rfl,
      updated later.next ⟨Feed.asName_next second (by decide), kind_ne close (by decide)⟩,
      Feed.take_mark last.closed close rfl rfl,
      body last.next ⟨Feed.asName_next close (by decide), placed⟩, Feed.node,
      Value.tally_node (by decide)]
    simp [add_assoc]
  | handlerBare word _ body _ ih =>
    rw [
      Feed.take_word genuine.closed word (Feed.asName_before genuine placed body rfl (by simp)) rfl,
      ih genuine.next trivial, Feed.node, Value.tally_node (by decide)]
    simp
  | handlerNamed word opening name close _ _ named _ body =>
    have later := genuine.next.next.after name
    have unnamed := Feed.asName_of_next genuine.closed placed (kind_ne opening (by decide))
    have head :=
      Feed.settles_parens genuine.next opening name close (named genuine.next.next trivial)
    rw [Feed.take_word genuine.closed word unnamed rfl, head, body later.next trivial, Feed.node,
      Value.tally_node (by decide)]
    simp [add_assoc]
  | finalizerSome word body _ ih =>
    rw [
      Feed.take_word genuine.closed word (Feed.asName_before genuine placed body rfl (by simp)) rfl,
      ih genuine.next trivial]
  | labelSome _ _ _ ih => exact ih genuine trivial

theorem settles_statements : Part.Family.statements.Keeps Part.Conserves := by
  intro p f v g read rule family genuine placed
  induction rule using Reads.below.casesOn with
    (cases family <;> repeat (rename Reads.below _ => parts; clear parts)) <;>
      simp only [Part.Conserves, Part.Settles, Value.tally_null, zero_add] at *
  | blockStatement _ _ ih => exact ih genuine trivial
  | emptyStatement semicolon =>
    rw [Feed.take_mark genuine.closed semicolon rfl rfl, Feed.node, Value.tally_node (by decide)]
    simp
  | variableDeclaration inner stop _ ih =>
    rw [ih genuine ⟨placed.1, stop.before placed.2⟩, stop.tally (genuine.after inner).closed]
  | functionDeclaration _ _ ih => exact ih genuine placed.1
  | ifShort word opening condition close consequent _ _ test _ left =>
    have later := genuine.next.next.after condition
    have head := Feed.settles_parens genuine.next opening condition close
      (test genuine.next.next ⟨Feed.asName_next opening (by decide), kind_ne close (by decide)⟩)
    rw [Feed.take_word genuine.closed word placed.1 rfl, head,
      left later.next ⟨Feed.asName_next close (by decide), placed.2⟩, Feed.node,
      Value.tally_node (by decide)]
    simp [add_assoc]
  | ifElse word opening condition close consequent els alternate _ test _ left _ right =>
    have later := genuine.next.next.after condition
    have last := later.next.after consequent
    have dot := consequent.prev_ne_dot (.inl rfl)
    have unnamed := Feed.asName_before last dot alternate rfl (by simp)
    have head := Feed.settles_parens genuine.next opening condition close
      (test genuine.next.next ⟨Feed.asName_next opening (by decide), kind_ne close (by decide)⟩)
    rw [Feed.take_word genuine.closed word placed.1 rfl, head,
      left later.next ⟨Feed.asName_next close (by decide), kind_ne els (by decide)⟩,
      Feed.take_word last.closed els unnamed rfl,
      right last.next ⟨Feed.asName_next els (by decide), placed.2⟩, Feed.node,
      Value.tally_node (by decide)]
    simp [add_assoc]
  | forBare word opening _ _ _ ih =>
    rw [Feed.take_word genuine.closed word placed.1 rfl,
      Feed.take_mark genuine.next.closed opening rfl rfl, ih genuine.next.next placed.2]
  | forCounted word opening _ init _ rest _ first _ ih =>
    have start := first genuine.next.next.bar ⟨Feed.asName_next opening (by decide), rest.opens rfl⟩
    rw [Feed.tally_bar] at start
    rw [Feed.take_word genuine.closed word placed.1 rfl,
      Feed.take_mark genuine.next.closed opening rfl rfl, start,
      ← ih (genuine.next.next.bar.after init).lift placed.2, Feed.tally_lift]
  | forIn word opening _ init loop _ collection close _ _ left _ right _ body =>
    have later := genuine.next.next.bar.after init
    have last := later.lift.next.after collection
    have start :=
      left genuine.next.next.bar ⟨Feed.asName_next opening (by decide), kind_ne loop (by decide)⟩
    have rest :=
      right later.lift.next ⟨Feed.asName_next loop (by decide), kind_ne close (by decide)⟩
    rw [Feed.tally_bar] at start
    rw [Feed.tally_next_lift] at rest
    obtain ⟨_, taken, _⟩ := Feed.take_operator later (.inr (.inr (.inr (by rw [loop]; rfl))))
      (Feed.asName_before later (init.prev_ne_dot (.inl rfl)) collection rfl (by simp))
    rw [Feed.take_word genuine.closed word placed.1 rfl,
      Feed.take_mark genuine.next.closed opening rfl rfl, start, taken, rest,
      Feed.take_mark last.closed close rfl rfl,
      body last.next ⟨Feed.asName_next close (by decide), placed.2⟩, loop, Feed.node,
      Value.tally_forIn, Tally.operator_add_left]
    simp only [show TokenKind.kwIn.spelling = "in" from rfl, add_assoc]
  | forOf word opening _ init loop of _ collection close _ _ left _ right _ body =>
    have later := genuine.next.next.bar.after init
    have last := later.lift.next.after collection
    have start :=
      left genuine.next.next.bar ⟨Feed.asName_next opening (by decide), kind_ne loop (by decide)⟩
    have rest := right later.lift.next (Feed.asName_next loop (by decide))
    rw [Feed.tally_bar] at start
    rw [Feed.tally_next_lift] at rest
    rw [Feed.take_word genuine.closed word placed.1 rfl,
      Feed.take_mark genuine.next.closed opening rfl rfl, start, Feed.take_ident later.closed loop,
      of, rest, Feed.take_mark last.closed close rfl rfl,
      body last.next ⟨Feed.asName_next close (by decide), placed.2⟩, Feed.node, Value.tally_forOf]
    simp only [Leaf.of, add_assoc]
  | whileStatement word opening condition close _ _ test _ body =>
    have later := genuine.next.next.after condition
    have head := Feed.settles_parens genuine.next opening condition close
      (test genuine.next.next ⟨Feed.asName_next opening (by decide), kind_ne close (by decide)⟩)
    rw [Feed.take_word genuine.closed word placed.1 rfl, head,
      body later.next ⟨Feed.asName_next close (by decide), placed.2⟩, Feed.node,
      Value.tally_node (by decide)]
    simp [add_assoc]
  | doWhile word inner tail opening condition close stop _ body _ test =>
    have later := genuine.next.after inner
    have last := later.next.next.after condition
    have ending := last.next.closed.optional_semicolon stop
    have tested := Feed.settles_parens later.next opening condition close
      (test later.next.next ⟨Feed.asName_next opening (by decide), kind_ne close (by decide)⟩)
    have unnamed := Feed.asName_of_next later.closed (inner.prev_ne_dot (.inl rfl))
      (kind_ne opening (by decide))
    rw [Feed.take_word genuine.closed word placed.1 rfl,
      body genuine.next ⟨Feed.asName_next word (by decide), kind_ne tail (by decide)⟩,
      Feed.take_word later.closed tail unnamed rfl, tested, ending, Feed.node,
      Value.tally_node (by decide)]
    simp [add_assoc]
  | tryStatement word inner caught last _ _ guarded _ handled _ ended =>
    have later := genuine.next.after inner
    have dot := inner.prev_ne_dot (.inl rfl)
    rw [Feed.take_word genuine.closed word placed.1 rfl, guarded genuine.next trivial,
      handled later dot, ended (later.after caught) (caught.prev_ne_dot (.inr dot)), Feed.node,
      Value.tally_node (by decide)]
    simp [add_assoc]
  | returnBare word _ stop =>
    rw [Feed.take_word genuine.closed word placed.1 rfl, stop.tally genuine.next.closed, Feed.node,
      Value.tally_node (by decide)]
    simp
  | returnValue word _ value stop _ ih =>
    rw [Feed.take_word genuine.closed word placed.1 rfl,
      ih genuine.next ⟨Feed.asName_next word (by decide), stop.before placed.2⟩,
      stop.tally (genuine.next.after value).closed, Feed.node, Value.tally_node (by decide)]
    simp
  | breakStatement word label stop _ ih =>
    rw [Feed.take_word genuine.closed word placed.1 rfl, ih genuine.next trivial,
      stop.tally (genuine.next.after label).closed, Feed.node, Value.tally_node (by decide)]
    simp
  | continueStatement word label stop _ ih =>
    rw [Feed.take_word genuine.closed word placed.1 rfl, ih genuine.next trivial,
      stop.tally (genuine.next.after label).closed, Feed.node, Value.tally_node (by decide)]
    simp
  | throwStatement word _ value stop _ ih =>
    rw [Feed.take_word genuine.closed word placed.1 rfl,
      ih genuine.next ⟨Feed.asName_next word (by decide), stop.before placed.2⟩,
      stop.tally (genuine.next.after value).closed, Feed.node, Value.tally_node (by decide)]
    simp
  | expressionStatement _ inner stop _ ih =>
    rw [ih genuine ⟨placed.1, stop.before placed.2⟩, stop.tally (genuine.after inner).closed,
      Feed.node, Value.tally_node (by decide)]
    simp

theorem Reads.settles (read : Reads p f v g) : p.Conserves f v g :=
  read.byFamily fun
    | .lists => settles_lists
    | .names => settles_names
    | .assignments => settles_assignments
    | .operations => settles_operations
    | .accesses => settles_accesses
    | .primaries => settles_primaries
    | .functions => settles_functions
    | .clauses => settles_clauses
    | .statements => settles_statements

end Grammar

mutual
theorem Value.gather_signs (v : Value) : (v.gather Value.signs : Multiset Value) =
    v.gather Value.operator + v.gather Value.initSign + v.gather Value.loopSign := by
  cases v with
  | node kind children notes =>
    simp only [Value.gather, ← Multiset.coe_add, Value.signs, gatherOf_signs children]
    abel
  | list items => exact gatherOf_signs items
  | _ => rfl

theorem Value.gatherOf_signs (vs : List Value) : (Value.gatherOf Value.signs vs : Multiset Value) =
    Value.gatherOf Value.operator vs + Value.gatherOf Value.initSign vs +
      Value.gatherOf Value.loopSign vs := by
  cases vs with
  | nil => rfl
  | cons v vs =>
    simp only [Value.gatherOf, ← Multiset.coe_add, gather_signs v, gatherOf_signs vs]
    abel
end

/-- The first token of a source is no name of a property, whatever is taken to stand before it. -/
theorem tally_ofTokens {t : Token} {rest : List Token} :
    (Grammar.Feed.ofTokens (t :: rest)).tally =
      ⟨spelledLeaves .endOfInput (t :: rest),
        (spelledOperators .endOfInput (t :: rest) : Multiset Value)⟩ := by
  have same : t.isPropertyName t.kind rest = t.isPropertyName .endOfInput rest := by
    unfold Token.isPropertyName
    cases t.kind <;> rfl
  simp only [Grammar.Feed.ofTokens, Grammar.Feed.tally, Grammar.Feed.tokens, spelledLeaves,
    spelledOperators, same]

/-- At the end of input there is nothing to count. -/
theorem Grammar.Feed.Closed.tally_end {f : Feed} (closed : f.Closed)
    (stop : f.current.kind = .endOfInput) : f.tally = 0 := by
  obtain ⟨before, t, _ | ⟨u, rest⟩, noIn⟩ := f
  · change t.kind = .endOfInput at stop
    have operator : TokenKind.isOperator .endOfInput = false := rfl
    have keyword : TokenKind.isKeyword .endOfInput = false := rfl
    refine Tally.ext ?_ ?_ <;>
      simp [tally, tokens, spelledLeaves, spelledOperators, Token.isPropertyName, Token.leaves,
        stop, operator, keyword]
  · exact absurd stop closed.1

/-- The names, literals and `this` of a parsed source are those that its tokens spell, in their
order, but for the `of` in the heads of loops; its operators are those among the tokens, but for the
signs in declarations and the `in` in the heads of loops. -/
theorem parse_conserves {source : Text} {v : Value} (parsed : parse source = .ok v) :
    ∃ tokens, tokenize source = .ok tokens ∧
      v.leaves [.of] = spelledLeaves .endOfInput tokens ∧
      (v.gather Value.operator + v.gather Value.initSign + v.gather Value.loopSign :
        Multiset Value) = spelledOperators .endOfInput tokens := by
  obtain ⟨tokens, scanned, ran⟩ := parse_ok.mp parsed
  obtain ⟨vs, g, read, made⟩ := Grammar.program_sound ran
  have closed := tokenize_closed scanned
  have faithful := tokenize_faithful scanned
  refine ⟨tokens, scanned, ?_⟩
  cases tokens with
  | nil => exact closed.elim
  | cons t rest =>
    have genuine : (Grammar.Feed.ofTokens (t :: rest)).Genuine := ⟨closed, faithful⟩
    have stop := read.statements_stop
    have settled : _ = Value.tally (.list vs) + _ := read.settles genuine
      ⟨fun keyword => Grammar.kind_apart keyword rfl, Grammar.kind_ne
      stop (by decide)⟩
    have whole : v.tally = Value.tallyOf vs := by
      rw [made]
      split
      · rename_i empty
        rw [Grammar.tally_attachTrailing, Value.tally_node (by decide), List.isEmpty_iff.mp empty]
        simp
      · rw [Value.tally_node (by decide)]
        simp [Grammar.tallyOf_mapLast]
    rw [(genuine.after read).closed.tally_end stop, add_zero, Value.tally_list, ← whole,
      tally_ofTokens] at settled
    refine ⟨(congrArg Tally.leaves settled).symm, ?_⟩
    rw [← Value.gather_signs]
    exact (congrArg Tally.operators settled).symm

/-- A loop over items, a keyword as a name and a declaration with a value. -/
theorem parse_conserves_loop : ∃ v tokens,
    parse (text "for (let x of a.in) var y = x instanceof b;") = .ok v ∧
      tokenize (text "for (let x of a.in) var y = x instanceof b;") = .ok tokens ∧
      v.leaves [.of] = spelledLeaves .endOfInput tokens ∧
      (v.gather Value.operator + v.gather Value.initSign + v.gather Value.loopSign :
        Multiset Value) = spelledOperators .endOfInput tokens := by
  have parses : (parse (text "for (let x of a.in) var y = x instanceof b;")).toOption.any
      (fun _ => true) = true := by decide +kernel
  obtain ⟨v, parsed, -⟩ := ok_of_any parses
  obtain ⟨tokens, conserved⟩ := parse_conserves parsed
  exact ⟨v, tokens, parsed, conserved⟩

end ScriptTree
