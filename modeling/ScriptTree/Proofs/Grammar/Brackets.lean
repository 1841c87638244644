import ScriptTree.Proofs.Grammar.Progress

/-!
Brackets. What a part of the language takes from a feed is properly nested, and the token that it
begins with is one of a few. Hence the look ahead for an arrow stops at the bracket that closes the
first one: an arrow function is recognised before what reading it in another way would leave at its
arrow.
-/
namespace ScriptTree

namespace TokenKind

def closer? : TokenKind → Option TokenKind
  | leftParen => some rightParen
  | leftBracket => some rightBracket
  | leftBrace => some rightBrace
  | _ => none

/-- Whether a class is neither that of a bracket nor that of the end of input. -/
def isInner (k : TokenKind) : Bool := !k.opens && !k.closes && k != endOfInput

end TokenKind

/-- Classes of tokens in which every bracket has its counterpart. -/
inductive Nested : List TokenKind → Prop
  | none : Nested []
  | inner {k : TokenKind} {rest : List TokenKind} (plain : k.isInner) (more : Nested rest) :
      Nested (k :: rest)
  | pair {k j : TokenKind} {inside rest : List TokenKind} (closes : k.closer? = some j)
      (within : Nested inside) (more : Nested rest) : Nested (k :: (inside ++ j :: rest))

theorem Nested.append {ks js : List TokenKind} (first : Nested ks) (second : Nested js) :
    Nested (ks ++ js) := by
  induction first with
  | none => exact second
  | inner plain _ ih => exact .inner plain ih
  | pair closes within _ _ ih =>
    rw [List.cons_append, List.append_assoc, List.cons_append]
    exact .pair closes within ih

theorem Nested.single {k : TokenKind} (plain : k.isInner) : Nested [k] := .inner plain .none

theorem closer?_opens {k j : TokenKind} (closes : k.closer? = some j) :
    k.opens ∧ j.closes ∧ j.opens = false ∧ k ≠ .endOfInput ∧ j ≠ .endOfInput := by
  cases k <;> cases closes <;> decide

namespace Grammar

open TokenKind

variable {t : Token} {rest : List Token} {depth : Nat}

theorem arrowAfter_opens (opens : t.kind.opens) :
    arrowAfter depth (t :: rest) = arrowAfter (depth + 1) rest := by
  rw [arrowAfter.eq_def]
  simp only [opens, if_true]

theorem arrowAfter_inner (inner : t.kind.isInner) :
    arrowAfter depth (t :: rest) = arrowAfter depth rest := by
  simp only [isInner, Bool.and_eq_true, Bool.not_eq_true', bne_iff_ne] at inner
  obtain ⟨⟨opens, closes⟩, within⟩ := inner
  rw [arrowAfter.eq_def]
  simp only [opens, closes, Bool.false_eq_true, if_false, beq_iff_eq, if_neg within]

theorem arrowAfter_closes (closes : t.kind.closes) (opens : t.kind.opens = false) :
    arrowAfter (depth + 2) (t :: rest) = arrowAfter (depth + 1) rest := by
  have deep : ¬depth + 2 ≤ 1 := by omega
  rw [arrowAfter.eq_def]
  simp only [opens, closes, Bool.false_eq_true, if_false, if_true, if_neg deep]
  rfl

/-- The look ahead for an arrow ends at the bracket that closes the first one. -/
theorem arrowAfter_last {u : Token} (closes : t.kind.closes) (opens : t.kind.opens = false) :
    arrowAfter 1 (t :: u :: rest) = (u.kind == .arrow && !u.newlineBefore) := by
  rw [arrowAfter.eq_def]
  simp only [opens, closes, Bool.false_eq_true, if_false, if_true, Nat.le_refl]

/-- The look ahead for an arrow passes over nested tokens inside a bracket. -/
theorem arrowAfter_nested {ts : List Token} (nested : Nested (ts.map Token.kind)) :
    arrowAfter (depth + 1) (ts ++ rest) = arrowAfter (depth + 1) rest := by
  generalize eq : ts.map Token.kind = ks at nested
  induction nested generalizing ts rest depth with
  | none =>
    rw [List.map_eq_nil_iff] at eq
    rw [eq, List.nil_append]
  | inner plain _ ih =>
    obtain ⟨t, ts, rfl, rfl, more⟩ := List.map_eq_cons_iff.mp eq
    rw [List.cons_append, arrowAfter_inner plain]
    exact ih more
  | pair counterpart _ _ first second =>
    obtain ⟨t, ts, rfl, rfl, more⟩ := List.map_eq_cons_iff.mp eq
    obtain ⟨inside, us, rfl, within, more⟩ := List.map_eq_append_iff.mp more
    obtain ⟨u, us, rfl, rfl, tail⟩ := List.map_eq_cons_iff.mp more
    obtain ⟨opens, closes, other, _⟩ := closer?_opens counterpart
    rw [List.cons_append, List.append_assoc, List.cons_append, arrowAfter_opens opens,
      first within, arrowAfter_closes closes other]
    exact second tail

namespace Feed

def Spans (f g : Feed) : Prop :=
  f.Closed → g.Closed ∧ ∃ ts, f.tokens = ts ++ g.tokens ∧ Nested (ts.map Token.kind)

/-- Between two feeds lie nested tokens, a bracket that closes, and nested tokens again. -/
def Leaves (f g : Feed) : Prop :=
  ∃ h, f.Spans h ∧ h.current.kind = .rightParen ∧ h.next.Spans g

variable {f g h : Feed} {k : TokenKind}

theorem Spans.refl : f.Spans f := fun closed => ⟨closed, [], rfl, .none⟩

theorem Spans.trans (first : f.Spans g) (second : g.Spans h) : f.Spans h := by
  intro closed
  obtain ⟨closed, ts, tokens, nested⟩ := first closed
  obtain ⟨closed, us, others, more⟩ := second closed
  refine ⟨closed, ts ++ us, ?_, ?_⟩
  · rw [tokens, others, List.append_assoc]
  · rw [List.map_append]
    exact nested.append more

/-- A token is taken. -/
theorem Closed.next (closed : f.Closed) (within : f.current.kind ≠ .endOfInput) :
    f.next.Closed ∧ f.tokens = f.current :: f.next.tokens := by
  refine ⟨upto_next.closed closed, ?_⟩
  obtain ⟨t, rest, more, next⟩ := closed.next_eq within
  rw [next, tokens, tokens, more]

theorem spans_next (plain : f.current.kind.isInner) : f.Spans f.next := by
  intro closed
  have within : f.current.kind ≠ .endOfInput := by
    simp only [isInner, Bool.and_eq_true, bne_iff_ne] at plain
    exact plain.2
  obtain ⟨after, tokens⟩ := closed.next within
  exact ⟨after, [f.current], tokens, .single plain⟩

theorem spans_pair (closes : f.current.kind.closer? = some g.current.kind)
    (within : f.next.Spans g) : f.Spans g.next := by
  intro closed
  obtain ⟨_, _, _, opening, closing⟩ := closer?_opens closes
  obtain ⟨closed, first⟩ := closed.next opening
  obtain ⟨closed, ts, inside, nested⟩ := within closed
  obtain ⟨closed, last⟩ := closed.next closing
  refine ⟨closed, f.current :: (ts ++ [g.current]), ?_, ?_⟩
  · rw [first, inside, last, List.cons_append, List.append_assoc, List.singleton_append]
  · rw [List.map_cons, List.map_append]
    exact .pair closes nested .none

/-- Tokens that a part takes in brackets after it has taken the first. -/
theorem Leaves.spans (opening : f.current.kind = .leftParen) (leaves : f.next.Leaves g) :
    f.Spans g := by
  obtain ⟨h, within, closing, more⟩ := leaves
  refine Spans.trans (spans_pair ?_ within) more
  rw [opening, closing]
  rfl

theorem spans_next_lift (spans : f.lift.next.Spans g) : f.next.Spans g := by
  intro closed
  have same : f.lift.next.Closed := by rwa [Closed, tokens_next_lift]
  rw [← tokens_next_lift]
  exact spans same

/-- Tokens between the brackets of an `if`, a loop or a call. -/
theorem Spans.paren (opening : f.current.kind = .leftParen) (within : f.next.Spans g)
    (closing : g.current.kind = .rightParen) : f.Spans g.next := by
  refine spans_pair ?_ within
  rw [opening, closing]
  rfl

theorem Spans.bracket (opening : f.current.kind = .leftBracket) (within : f.next.Spans g)
    (closing : g.current.kind = .rightBracket) : f.Spans g.next := by
  refine spans_pair ?_ within
  rw [opening, closing]
  rfl

theorem Spans.brace (opening : f.current.kind = .leftBrace) (within : f.next.Spans g)
    (closing : g.current.kind = .rightBrace) : f.Spans g.next := by
  refine spans_pair ?_ within
  rw [opening, closing]
  rfl

/-- Where a statement ends, at most a semicolon has been taken. -/
theorem Ends.spans (stop : f.Ends g) : f.Spans g := by
  obtain ⟨semicolon, rfl⟩ | ⟨_, _, rfl⟩ := stop
  · refine spans_next ?_
    rw [semicolon]
    rfl
  · exact .refl

end Feed

theorem isInner_of_unary {k : TokenKind} (operator : k.isUnary) : k.isInner :=
  TokenKind.holds_of_contains operator (by decide)

theorem isInner_of_update {k : TokenKind} (operator : k.isUpdate) : k.isInner := by
  rcases TokenKind.update_cases operator with rfl | rfl <;> rfl

theorem isInner_of_assignment {k : TokenKind} (operator : k.isAssignment) : k.isInner :=
  TokenKind.holds_of_contains operator (by decide)

theorem isInner_of_declares {k : TokenKind} (word : k.declares) : k.isInner := by
  rcases TokenKind.declares_cases word with rfl | rfl | rfl <;> rfl

theorem isInner_of_keyword {k : TokenKind} (word : k.isKeyword) : k.isInner :=
  TokenKind.holds_of_contains word (by decide)

theorem isInner_of_rank {f : Feed} {rank : Nat} (ranked : f.rank? = some rank) :
    f.current.kind.isInner :=
  TokenKind.holds_of_rank (Feed.rank?_some ranked) (by decide)

/-- What a part takes is nested, but for the rest of a loop's head. -/
def Part.Spans (p : Part) (f g : Feed) : Prop :=
  match p with
  | counted .. => f.Leaves g
  | _ => f.Spans g

theorem Item.spans {e : Item} {f g : Feed} : e.part.Spans f g ↔ f.Spans g := by
  cases e <;> rfl

theorem Reads.spans {p : Part} {f g : Feed} {v : Value} (read : Reads p f v g) : p.Spans f g := by
  have step {f : Feed} {k : TokenKind} (kind : f.current.kind = k) (plain : k.isInner) :
      f.Spans f.next := Feed.spans_next (kind ▸ plain)
  induction read with
  | commasLast _ _ ih | closedLast _ _ _ ih => exact Item.spans.1 ih
  | commasMore _ comma _ ih more | closedMore _ _ comma _ ih more =>
    exact (Item.spans.1 ih).trans ((step comma rfl).trans more)
  | closedNone | elementsNone | operationsStop | membersStop | accessesStop | statementsNone
  | optionalNone | handlerNone | finalizerNone | labelNone => exact .refl
  | nested _ ih | group _ ih | single _ _ ih | arrowFunction _ _ ih | unassigned _ _ _ ih
  | arrowName _ ih | arrowNames _ _ ih | untested _ _ ih | unsigned _ _ _ ih | unstepped _ _ ih
  | headNew _ _ ih | headPrimary _ _ ih | functionExpression _ ih | declaratorBare _ _ ih
  | blockStatement _ ih | functionDeclaration _ ih | loopInitDeclaration _ _ ih
  | loopInitExpression _ _ ih | optionalSome _ _ ih | labelSome _ _ ih => exact ih
  | binding kind | name kind | wordTrue kind | wordFalse kind | wordNull kind | wordThis kind
  | propertyShort kind | emptyStatement kind => exact step kind rfl
  | propertyName kind =>
    rcases kind with kind | kind
    · exact step kind rfl
    · exact Feed.spans_next (isInner_of_keyword kind)
  | numberOrString kind =>
    rcases kind with kind | kind
    · exact step kind rfl
    · exact step kind rfl
  | sequence _ comma _ first more | elementsMore _ _ _ comma _ first more =>
    exact first.trans ((step comma rfl).trans more)
  | assigned _ _ operator _ _ left right =>
    exact left.trans ((Feed.spans_next (isInner_of_assignment operator)).trans right)
  | arrowBlock _ arrow _ _ params body | arrowValue _ arrow _ _ params body =>
    exact params.trans ((step arrow rfl).trans body)
  | tested _ question _ colon _ test left right =>
    exact test.trans ((step question rfl).trans (left.trans ((step colon rfl).trans right)))
  | binary _ _ first more | access _ _ first more | membersMore _ _ first more
  | accessesMember _ _ first more | accessesCall _ _ first more
  | statementsMore _ _ _ _ first more => exact first.trans more
  | operationsMore ranked _ _ _ right more =>
    exact (Feed.spans_next (isInner_of_rank ranked)).trans (right.trans more)
  | unaryOperator operator _ ih => exact (Feed.spans_next (isInner_of_unary operator)).trans ih
  | stepBefore _ operator _ _ ih => exact (Feed.spans_next (isInner_of_update operator)).trans ih
  | stepAfter _ operator _ _ ih =>
    exact Feed.Spans.trans ih (Feed.spans_next (isInner_of_update operator))
  | memberNamed word _ ih | elementsHole word _ ih => exact (step word rfl).trans ih
  | memberIndexed opening _ close ih | array opening _ close ih =>
    exact Feed.Spans.bracket opening ih close
  | constructionCall new _ _ _ first more args =>
    exact (step new rfl).trans (first.trans (more.trans args))
  | constructionBare new _ _ _ first more => exact (step new rfl).trans (first.trans more)
  | arguments opening _ close ih | parenthesized opening _ close ih
  | parameters opening _ close ih => exact Feed.Spans.paren opening ih close
  | elementsLast _ _ _ _ ih => exact ih
  | object opening _ close ih | block opening _ close ih => exact Feed.Spans.brace opening ih close
  | propertyComputed opening _ close colon _ key value =>
    exact (Feed.Spans.bracket opening key close).trans ((step colon rfl).trans value)
  | propertyLiteral key colon _ value =>
    rcases key with key | key
    · exact (step key rfl).trans ((step colon rfl).trans value)
    · exact (step key rfl).trans ((step colon rfl).trans value)
  | propertyNamed _ colon _ key value => exact key.trans ((step colon rfl).trans value)
  | functionNamed word _ _ _ name params body =>
    exact (step word rfl).trans (name.trans (params.trans body))
  | functionUnnamed word _ _ _ params body => exact (step word rfl).trans (params.trans body)
  | blockEmpty opening close => exact Feed.Spans.brace opening .refl close
  | declaratorInit _ assign _ name init => exact name.trans ((step assign rfl).trans init)
  | declaration word _ ih => exact (Feed.spans_next (isInner_of_declares word)).trans ih
  | variableDeclaration _ stop ih | expressionStatement _ _ stop ih => exact ih.trans stop.spans
  | ifShort word opening _ close _ _ test left =>
    exact (step word rfl).trans ((Feed.Spans.paren opening test close).trans left)
  | ifElse word opening _ close _ els _ test left right =>
    exact (step word rfl).trans ((Feed.Spans.paren opening test close).trans
      (left.trans ((step els rfl).trans right)))
  | counted first _ second _ close _ test update body =>
    exact ⟨_, (step first rfl).trans (test.trans ((step second rfl).trans update)), close, body⟩
  | forBare word opening _ _ rest => exact (step word rfl).trans (Feed.Leaves.spans opening rest)
  | forCounted word opening _ _ _ _ init rest =>
    obtain ⟨h, within, closing, more⟩ := rest
    exact (step word rfl).trans (Feed.Leaves.spans opening ⟨h, init.trans within, closing, more⟩)
  | forIn word opening _ _ loop _ _ close _ init right body
  | forOf word opening _ _ loop _ _ _ close _ init right body =>
    have head := init.trans ((step loop rfl).trans (Feed.spans_next_lift right))
    exact (step word rfl).trans ((Feed.Spans.paren opening head close).trans body)
  | whileStatement word opening _ close _ test body =>
    exact (step word rfl).trans ((Feed.Spans.paren opening test close).trans body)
  | doWhile word _ tail opening _ close stop body test =>
    have loop := (step word rfl).trans (body.trans ((step tail rfl).trans
      (Feed.Spans.paren opening test close)))
    subst stop
    split
    · exact loop.trans (step ‹_› rfl)
    · exact loop
  | handlerBare word _ _ body | finalizerSome word _ body => exact (step word rfl).trans body
  | handlerNamed word opening _ close _ name body =>
    exact (step word rfl).trans ((Feed.Spans.paren opening name close).trans body)
  | tryStatement word _ _ _ _ guarded handler finalizer =>
    exact (step word rfl).trans (guarded.trans (handler.trans finalizer))
  | returnBare word _ stop => exact (step word rfl).trans stop.spans
  | returnValue word _ _ stop value | throwStatement word _ _ stop value
  | breakStatement word _ stop value | continueStatement word _ stop value =>
    exact (step word rfl).trans (value.trans stop.spans)

/-- Whether an expression begins with a token of a class if it begins with no operator. -/
def startsOperand (kind : TokenKind) : Bool :=
  [.ident, .number, .string, .kwTrue, .kwFalse, .kwNull, .kwThis, .kwFunction, .kwNew, .leftParen,
    .leftBracket, .leftBrace].contains kind

def startsExpression (kind : TokenKind) : Bool :=
  startsOperand kind || kind.isUnary || kind.isUpdate

/-- Whether a part begins with a token of a class; little is said of parts that can be empty. -/
def Part.startsWith : Part → TokenKind → Bool
  | sequence, k | assignment, k | conditional, k | binary _, k | unary, k | nested, k | group, k =>
    startsExpression k
  | arrow, k | stepped, k | access, k | head, k | primary, k | construction, k
  | arrowParameters, k => startsOperand k
  | binding, k => k == .ident
  | parameters, k => k == .leftParen
  | function _, k => k == .kwFunction
  | block, k => k == .leftBrace
  | declaration, k => k.declares
  | statement, k => opensStatement k || startsExpression k
  | propertyName, k | property, k => !k.closes
  | _, _ => true

theorem startsExpression_of_operand {k : TokenKind} (starts : startsOperand k) :
    startsExpression k := by
  rw [startsExpression, starts, Bool.true_or, Bool.true_or]

theorem opensStatement_of_declares {k : TokenKind} (word : k.declares) : opensStatement k := by
  rcases TokenKind.declares_cases word with rfl | rfl | rfl <;> rfl

/-- A part begins with one of its tokens. -/
theorem Reads.starts {p : Part} {f g : Feed} {v : Value} (read : Reads p f v g) :
    p.startsWith f.current.kind := by
  induction read with
  | nested _ ih | group _ ih | single _ _ ih | sequence _ _ _ ih | unassigned _ _ _ ih
  | assigned _ _ _ _ _ ih | untested _ _ ih | tested _ _ _ _ _ ih | binary _ _ ih => exact ih
  | arrowFunction _ _ ih | unsigned _ _ _ ih => exact startsExpression_of_operand ih
  | arrowBlock _ _ _ _ ih | arrowValue _ _ _ _ ih | unstepped _ _ ih | stepAfter _ _ _ _ ih
  | access _ _ ih | headNew _ _ ih | headPrimary _ _ ih => exact ih
  | unaryOperator operator => simp [Part.startsWith, startsExpression, operator]
  | stepBefore _ operator => simp [Part.startsWith, startsExpression, operator]
  | numberOrString scalar =>
    rcases scalar with kind | kind <;> rw [kind] <;> rfl
  | arrowName _ ih | arrowNames _ _ ih | functionExpression _ ih =>
    simp only [Part.startsWith, beq_iff_eq] at ih
    rw [ih]
    rfl
  | propertyName name =>
    rcases name with name | name
    · rw [name]
      rfl
    · have inner := isInner_of_keyword name
      simp only [TokenKind.isInner, Bool.and_eq_true] at inner
      exact inner.1.2
  | propertyNamed _ _ _ ih => exact ih
  | propertyLiteral key => rcases key with kind | kind <;> rw [kind] <;> rfl
  | declaration word => exact word
  | variableDeclaration _ _ ih =>
    simp only [Part.startsWith] at ih ⊢
    rw [opensStatement_of_declares ih, Bool.true_or]
  | blockStatement _ ih | functionDeclaration _ ih =>
    simp only [Part.startsWith, beq_iff_eq] at ih
    rw [ih]
    rfl
  | expressionStatement _ _ _ ih =>
    simp only [Part.startsWith] at ih ⊢
    rw [ih, Bool.or_true]
  | _ => first | rfl | (simp only [*]; rfl)

variable {f g : Feed} {v : Value}

theorem Reads.start_ne {p : Part} {k : TokenKind} (read : Reads p f v g)
    (other : p.startsWith k = false) : f.current.kind ≠ k := by
  rintro rfl
  rw [read.starts] at other
  cases other

/-- An arrow ends a bracketed part that begins an arrow function. -/
theorem startsArrow_paren (closed : f.Closed) (opening : f.current.kind = .leftParen)
    (within : f.next.Spans g) (closing : g.current.kind = .rightParen) :
    f.startsArrow = (g.next.current.kind == .arrow && !g.next.current.newlineBefore) := by
  obtain ⟨closed, first⟩ := closed.next (by simp [opening])
  obtain ⟨closed, ts, inside, nested⟩ := within closed
  obtain ⟨_, last⟩ := closed.next (by simp [closing])
  have tokens : f.current :: f.rest =
      f.current :: (ts ++ g.current :: g.next.current :: g.next.rest) := by
    rw [← Feed.tokens, first, inside, last, Feed.tokens]
  simp only [Feed.startsArrow, opening, tokens]
  rw [arrowAfter_opens (by simp [opening, opens]), arrowAfter_nested nested,
    arrowAfter_last (by simp [closing, closes]) (by simp [closing, opens])]

/-- Parameters begin an arrow function if an arrow follows them on their line. -/
theorem Reads.parameters_arrow (read : Reads .parameters f v g) (closed : f.Closed) :
    f.startsArrow = (g.current.kind == .arrow && !g.current.newlineBefore) := by
  cases read with
  | parameters opening items close => exact startsArrow_paren closed opening items.spans close

theorem startsArrow_name (closed : f.Closed) (name : f.current.kind = .ident) :
    f.startsArrow = (f.next.current.kind == .arrow) := by
  obtain ⟨t, rest, more, next⟩ := closed.next_eq (by simp [name])
  simp [Feed.startsArrow, name, more, next]

/-- An arrow function begins with a name or a bracket. -/
theorem startsArrow_kind (starts : f.startsArrow) :
    f.current.kind = .ident ∨ f.current.kind = .leftParen := by
  unfold Feed.startsArrow at starts
  split at starts
  · exact .inl ‹_›
  · exact .inr ‹_›
  · cases starts

/-- Where an arrow function begins, its first operand ends at the arrow. -/
theorem Reads.head_arrow (read : Reads .head f v g) (closed : f.Closed) (starts : f.startsArrow) :
    g.current.kind = .arrow := by
  have kind := startsArrow_kind starts
  cases read with
  | headNew new => simp [new] at kind
  | headPrimary _ inner =>
    cases inner with
    | name ident =>
      rw [startsArrow_name closed ident] at starts
      exact beq_iff_eq.mp starts
    | parenthesized opening inner close =>
      rw [startsArrow_paren closed opening inner.spans close, Bool.and_eq_true] at starts
      exact beq_iff_eq.mp starts.1
    | functionExpression inner =>
      have word := inner.starts
      simp only [Part.startsWith, beq_iff_eq] at word
      simp [word] at kind
    | numberOrString scalar => rcases scalar with scalar | scalar <;> simp [scalar] at kind
    | _ => simp_all

/-- Nothing is accessed at an arrow. -/
theorem Reads.access_arrow (read : Reads .access f v g) (closed : f.Closed)
    (starts : f.startsArrow) : g.current.kind = .arrow := by
  cases read with
  | access first more =>
    have arrow := first.head_arrow closed starts
    cases more with
    | accessesMember member => cases member <;> simp_all
    | accessesCall args => cases args; simp_all
    | accessesStop => exact arrow

theorem Reads.unary_arrow (read : Reads .unary f v g) (closed : f.Closed)
    (starts : f.startsArrow) : g.current.kind = .arrow := by
  have kind := startsArrow_kind starts
  cases read with
  | unaryOperator operator =>
    rcases kind with kind | kind <;> rw [kind] at operator <;> cases operator
  | stepBefore _ operator =>
    rcases kind with kind | kind <;> rw [kind] at operator <;> cases operator
  | unsigned _ _ inner =>
    cases inner with
    | unstepped inner => exact inner.access_arrow closed starts
    | stepAfter inner operator =>
      rw [inner.access_arrow closed starts] at operator
      cases operator

/-- What begins as an arrow function is read as another expression up to the arrow only. -/
theorem Reads.conditional_arrow (read : Reads .conditional f v g) (closed : f.Closed)
    (starts : f.startsArrow) : g.current.kind = .arrow := by
  have binary {w : Value} {h : Feed} (read : Reads (.binary 0) f w h) :
      h.current.kind = .arrow := by
    cases read with
    | binary first more =>
      have arrow := first.unary_arrow closed starts
      cases more with
      | operationsStop => exact arrow
      | operationsMore ranked => simp [Feed.rank?, arrow, rank?] at ranked
  cases read with
  | untested inner => exact binary inner
  | tested condition question => simp [binary condition] at question

end Grammar

end ScriptTree
