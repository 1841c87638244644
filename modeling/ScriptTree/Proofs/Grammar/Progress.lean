import ScriptTree.Proofs.Grammar.Reading
import ScriptTree.Proofs.Token.Faithful

/-!
Reading moves forward: what is left after a part is a suffix of what was left before it, and a part
that cannot be empty takes at least one token. Tokens whose last one is their only end of input are
never read to the end, so each token taken makes what is left shorter. Where a part ends, the word
`in` is treated as where it began.
-/
namespace ScriptTree.Grammar

namespace Feed

/-- The tokens that are left, the current one first. -/
def tokens (f : Feed) : List Token := f.current :: f.rest

/-- What is left at a feed is a suffix of what is left at an earlier one. -/
def Upto (f g : Feed) : Prop := g.tokens <:+ f.tokens

/-- The earlier feed is not at the end of input, and its current token has been taken. -/
def Past (f g : Feed) : Prop := f.current.kind ≠ .endOfInput ∧ f.next.Upto g

variable {f g h : Feed}

@[simp] theorem tokens_lift : f.lift.tokens = f.tokens := rfl

@[simp] theorem tokens_bar : f.bar.tokens = f.tokens := rfl

@[simp] theorem tokens_resume : (f.resume g).tokens = f.tokens := rfl

@[simp] theorem tokens_next_lift : f.lift.next.tokens = f.next.tokens := by
  simp only [next, lift]
  split <;> rfl

@[simp] theorem tokens_next_bar : f.bar.next.tokens = f.next.tokens := by
  simp only [next, bar]
  split <;> rfl

@[simp] theorem tokens_next_resume : (f.resume g).next.tokens = f.next.tokens := by
  simp only [next, resume]
  split <;> rfl

theorem upto_next : f.Upto f.next := by
  unfold next
  split
  next last => simp [Upto, tokens, last]
  next t rest more => simp [Upto, tokens, more]

theorem upto_lift : f.Upto f.lift := List.suffix_rfl

theorem upto_bar : f.Upto f.bar := List.suffix_rfl

theorem upto_resume : f.Upto (f.resume g) := List.suffix_rfl

theorem next_upto_lift_next : f.next.Upto f.lift.next := by simp [Upto]

theorem next_upto_resume_next : f.next.Upto (f.resume g).next := by simp [Upto]

theorem Upto.refl : f.Upto f := List.suffix_rfl

theorem Upto.trans (first : f.Upto g) (second : g.Upto h) : f.Upto h :=
  List.IsSuffix.trans second first

theorem Past.upto (past : f.Past g) : f.Upto g := upto_next.trans past.2

theorem Past.trans (first : f.Past g) (second : g.Upto h) : f.Past h :=
  ⟨first.1, first.2.trans second⟩

theorem past (within : f.current.kind ≠ .endOfInput) (after : f.next.Upto g) : f.Past g :=
  ⟨within, after⟩

/-- Where a statement ends, at most a semicolon has been taken. -/
theorem Ends.upto (stop : f.Ends g) : f.Upto g := by
  obtain ⟨_, rfl⟩ | ⟨_, _, rfl⟩ := stop
  · exact upto_next
  · exact .refl

/-- A relation between feeds that holds past every token and wherever only the context changes, and
that reading carries on from one token to the next. -/
structure Course (R : Feed → Feed → Prop) : Prop where
  refl {f : Feed} : R f f
  trans {f g h : Feed} : R f g → R g h → R f h
  next {f : Feed} (within : f.current.kind ≠ .endOfInput) : R f f.next
  same {f : Feed} (noIn : Bool) : R f { f with noIn }
  next_lift {f : Feed} : R f.next f.lift.next

/-- The earlier feed is not at the end of input, and a relation holds from the next one on. -/
def Over (R : Feed → Feed → Prop) (f g : Feed) : Prop :=
  f.current.kind ≠ .endOfInput ∧ R f.next g

section Course

variable {R : Feed → Feed → Prop}

theorem Over.then (leads : f.Over R g) (course : Course R) (more : R g h) : f.Over R h :=
  ⟨leads.1, course.trans leads.2 more⟩

theorem Over.onward (leads : f.Over R g) (course : Course R) (more : R g h) : R f h :=
  course.trans (course.next leads.1) (course.trans leads.2 more)

theorem Over.lifted (leads : f.lift.Over R g) (course : Course R) : f.Over R g :=
  ⟨leads.1, course.trans course.next_lift leads.2⟩

theorem Course.ends (course : Course R) (stop : f.Ends g) : R f g := by
  obtain ⟨semicolon, rfl⟩ | ⟨_, _, rfl⟩ := stop
  · exact course.next (by simp [semicolon])
  · exact course.refl

end Course

theorem course_upto : Course Upto where
  refl := .refl
  trans := .trans
  next _ := upto_next
  same _ := List.suffix_rfl
  next_lift := next_upto_lift_next

theorem noIn_ofTokens {tokens : List Token} : (ofTokens tokens).noIn = false := by
  cases tokens <;> rfl

theorem Ends.noIn (ends : f.Ends g) : g.noIn = f.noIn := by
  obtain ⟨_, rfl⟩ | ⟨_, _, rfl⟩ := ends
  · exact next_noIn
  · rfl

end Feed

/-- The parts that take at least one token. -/
def Part.consumes : Part → Bool
  | elements | label | handler | finalizer | closed .. | statements .. | optional .. => false
  | members .. | accesses .. | operations .. => false
  | _ => true

/-- Where a part can lead: past a token and on, or just on if the part can be empty. -/
def Part.Leads (R : Feed → Feed → Prop) (p : Part) (f g : Feed) : Prop :=
  if p.consumes then f.Over R g else R f g

variable {R : Feed → Feed → Prop} {p : Part} {f g : Feed} {v : Value}

theorem Feed.rank?_some {rank : Nat} (ranked : f.rank? = some rank) :
    f.current.kind.rank? = some rank := by
  unfold Feed.rank? at ranked
  split at ranked
  · cases ranked
  · exact ranked

theorem Item.part_consumes (e : Item) : e.part.consumes = true := by
  cases e <;> rfl

theorem Item.leads {e : Item} : e.part.Leads R f g ↔ f.Over R g := by
  rw [Part.Leads, if_pos e.part_consumes]

theorem kind_ne {k l m : TokenKind} (is : k = l) (apart : l ≠ m) : k ≠ m :=
  is ▸ apart

/-- A class of tokens tells those in it from those that are not. -/
theorem kind_apart {k l : TokenKind} {q : TokenKind → Bool} (inside : q k)
    (outside : q l = false) : k ≠ l := by
  rintro rfl
  rw [outside] at inside
  cases inside

theorem word_within {k : TokenKind} (word : k = .ident ∨ k.isKeyword) : k ≠ .endOfInput :=
  word.elim (kind_ne · (by decide)) (kind_apart · rfl)

theorem Feed.rank?_ne {rank : Nat} {k : TokenKind} (ranked : f.rank? = some rank)
    (outside : k.rank? = none) : f.current.kind ≠ k := by
  rintro rfl
  cases outside.symm.trans (rank?_some ranked)

/-- Reading takes its course from where a part begins to where it ends. -/
theorem Reads.leads (course : Feed.Course R) (read : Reads p f v g) : p.Leads R f g := by
  have pass {f g : Feed} {k : TokenKind} (kind : f.current.kind = k) (other : k ≠ .endOfInput)
      (more : R f.next g) : R f g := course.trans (course.next (kind_ne kind other)) more
  induction read with
    (try simp only [Item.leads] at *
     simp only [Part.Leads, Part.consumes, ↓reduceIte, Bool.false_eq_true] at *)
  | commasLast _ _ ih | single _ _ ih | arrowFunction _ _ ih | unassigned _ _ _ ih | arrowName _ ih
  | arrowNames _ _ ih | untested _ _ ih | unsigned _ _ _ ih | unstepped _ _ ih | headNew _ _ ih
  | headPrimary _ _ ih | functionExpression _ ih | declaratorBare _ _ ih | blockStatement _ ih
  | functionDeclaration _ ih | loopInitDeclaration _ _ ih | loopInitExpression _ _ ih => exact ih
  | closedNone | elementsNone | operationsStop | membersStop | accessesStop | statementsNone
  | optionalNone | handlerNone | finalizerNone | labelNone => exact course.refl
  | closedLast _ _ _ ih | elementsLast _ _ _ _ ih | optionalSome _ _ ih | labelSome _ _ ih =>
    exact ih.onward course course.refl
  | binding kind | name kind | wordTrue kind | wordFalse kind | wordNull kind | wordThis kind
  | propertyShort kind | emptyStatement kind => exact ⟨kind_ne kind (by decide), course.refl⟩
  | propertyName name => exact ⟨word_within name, course.refl⟩
  | numberOrString scalar =>
    rcases scalar with kind | kind
    · exact ⟨kind_ne kind (by decide), course.refl⟩
    · exact ⟨kind_ne kind (by decide), course.refl⟩
  | nested _ ih | group _ ih => exact (ih.lifted course).then course (course.same _)
  | commasMore _ comma _ first more | sequence _ comma _ first more =>
    exact first.then course (pass comma (by decide) (more.onward course course.refl))
  | closedMore _ _ comma _ first more | elementsMore _ _ _ comma _ first more =>
    exact first.onward course (pass comma (by decide) more)
  | assigned _ _ operator _ _ left right =>
    have next := course.next (kind_apart operator rfl)
    exact left.then course (course.trans next (right.onward course course.refl))
  | arrowBlock _ arrow _ _ params body | arrowValue _ arrow _ _ params body =>
    exact params.then course (pass arrow (by decide) (body.onward course course.refl))
  | tested _ question _ colon _ test left right =>
    exact test.then course (pass question (by decide)
      (left.onward course (pass colon (by decide) (right.onward course course.refl))))
  | binary _ _ first more | access _ _ first more => exact first.then course more
  | membersMore _ _ first more | accessesMember _ _ first more | accessesCall _ _ first more
  | statementsMore _ _ _ _ first more => exact first.onward course more
  | @operationsMore _ _ _ f _ _ _ _ _ ranked _ _ _ right more =>
    have within : f.current.kind ≠ .endOfInput := Feed.rank?_ne ranked rfl
    exact course.trans (course.next within) (right.onward course more)
  | unaryOperator operator _ ih => exact ⟨kind_apart operator rfl, ih.onward course course.refl⟩
  | stepBefore _ operator _ _ ih => exact ⟨kind_apart operator rfl, ih.onward course course.refl⟩
  | stepAfter _ operator _ _ ih => exact ih.then course (course.next (kind_apart operator rfl))
  | memberNamed word _ ih => exact ⟨kind_ne word (by decide), ih.onward course course.refl⟩
  | elementsHole comma _ ih => exact pass comma (by decide) ih
  | memberIndexed opening _ close ih | parenthesized opening _ close ih =>
    exact ⟨kind_ne opening (by decide), ih.onward course (pass close (by decide) course.refl)⟩
  | array opening _ close ih | arguments opening _ close ih | parameters opening _ close ih
  | object opening _ close ih =>
    exact ⟨kind_ne opening (by decide), course.trans ih (pass close (by decide) course.refl)⟩
  | constructionCall new _ _ _ first more args =>
    exact ⟨kind_ne new (by decide),
      first.onward course (course.trans more (args.onward course course.refl))⟩
  | constructionBare new _ _ _ first more =>
    exact ⟨kind_ne new (by decide), first.onward course more⟩
  | propertyComputed opening _ close colon _ key value =>
    exact ⟨kind_ne opening (by decide), key.onward course (pass close (by decide)
      (pass colon (by decide) (value.onward course course.refl)))⟩
  | propertyLiteral key colon _ value =>
    have rest := pass colon (by decide) (value.onward course course.refl)
    rcases key with kind | kind
    · exact ⟨kind_ne kind (by decide), rest⟩
    · exact ⟨kind_ne kind (by decide), rest⟩
  | propertyNamed _ colon _ key value =>
    exact key.then course (pass colon (by decide) (value.onward course course.refl))
  | functionNamed word _ _ _ name params body =>
    exact ⟨kind_ne word (by decide),
      name.onward course (params.onward course (body.onward course course.refl))⟩
  | functionUnnamed word _ _ _ params body =>
    exact ⟨kind_ne word (by decide), params.onward course (body.onward course course.refl)⟩
  | blockEmpty opening close =>
    exact ⟨kind_ne opening (by decide), pass close (by decide) course.refl⟩
  | @block f g _ _ opening _ close ih =>
    have closing : R g (g.resume f).next :=
      course.trans (course.same _) (pass (f := g.resume f) close (by decide) course.refl)
    exact ⟨kind_ne opening (by decide), course.trans (course.trans (course.same _) ih) closing⟩
  | declaratorInit _ assign _ name init =>
    exact name.then course (pass assign (by decide) (init.onward course course.refl))
  | declaration word _ ih => exact ⟨kind_apart word rfl, ih.onward course course.refl⟩
  | variableDeclaration _ stop ih | expressionStatement _ _ stop ih =>
    exact ih.then course (course.ends stop)
  | ifShort word opening _ close _ _ test left =>
    exact ⟨kind_ne word (by decide), pass opening (by decide)
      (test.onward course (pass close (by decide) (left.onward course course.refl)))⟩
  | ifElse word opening _ close _ els _ test left right =>
    exact ⟨kind_ne word (by decide), pass opening (by decide)
      (test.onward course (pass close (by decide)
        (left.onward course (pass els (by decide) (right.onward course course.refl)))))⟩
  | counted first _ second _ close _ test update body =>
    exact ⟨kind_ne first (by decide), course.trans test (pass second (by decide)
      (course.trans update (pass close (by decide) (body.onward course course.refl))))⟩
  | forBare word opening _ _ rest =>
    exact ⟨kind_ne word (by decide), pass opening (by decide) (rest.onward course course.refl)⟩
  | forCounted word opening _ _ _ _ init rest =>
    exact ⟨kind_ne word (by decide), pass opening (by decide) (course.trans (course.same _)
      (init.onward course (course.trans (course.same _) (rest.onward course course.refl))))⟩
  | @forIn _ g _ _ _ _ _ word opening _ _ loop _ _ close _ init right body
  | @forOf _ g _ _ _ _ _ word opening _ _ loop _ _ _ close _ init right body =>
    have loop : R g g.lift.next :=
      course.trans (course.same _) (pass (f := g.lift) loop (by decide) course.refl)
    exact ⟨kind_ne word (by decide), pass opening (by decide) (course.trans (course.same _)
      (init.onward course (course.trans loop (right.onward course
        (pass close (by decide) (body.onward course course.refl))))))⟩
  | whileStatement word opening _ close _ test body =>
    exact ⟨kind_ne word (by decide), pass opening (by decide)
      (test.onward course (pass close (by decide) (body.onward course course.refl)))⟩
  | doWhile word _ tail opening _ close stop body test =>
    have loop := body.onward course (pass tail (by decide) (pass opening (by decide)
      (test.onward course (pass close (by decide) course.refl))))
    refine ⟨kind_ne word (by decide), ?_⟩
    subst stop
    split
    · exact course.trans loop (pass ‹_› (by decide) course.refl)
    · exact loop
  | handlerBare word _ _ body | finalizerSome word _ body =>
    exact pass word (by decide) (body.onward course course.refl)
  | handlerNamed word opening _ close _ name body =>
    exact pass word (by decide) (pass opening (by decide)
      (name.onward course (pass close (by decide) (body.onward course course.refl))))
  | tryStatement word _ _ _ _ guarded handler finalizer =>
    exact ⟨kind_ne word (by decide), guarded.onward course (course.trans handler finalizer)⟩
  | returnBare word _ stop => exact ⟨kind_ne word (by decide), course.ends stop⟩
  | returnValue word _ _ stop value | throwStatement word _ _ stop value =>
    exact ⟨kind_ne word (by decide), value.onward course (course.ends stop)⟩
  | breakStatement word _ stop label | continueStatement word _ stop label =>
    exact ⟨kind_ne word (by decide), course.trans label (course.ends stop)⟩

theorem Reads.carries (course : Feed.Course R) (read : Reads p f v g) : R f g := by
  have leads := read.leads course
  unfold Part.Leads at leads
  split at leads
  · exact leads.onward course course.refl
  · exact leads

theorem Reads.upto (read : Reads p f v g) : f.Upto g := read.carries Feed.course_upto

theorem Reads.past (read : Reads p f v g) (consumes : p.consumes = true) : f.Past g := by
  have leads := read.leads Feed.course_upto
  rwa [Part.Leads, if_pos consumes] at leads

/-- The parts in which statements stand that are not in brackets of their own. -/
def Part.holdsStatements : Part → Bool
  | statement | statements _ | counted .. => true
  | _ => false

theorem Item.part_holdsStatements (e : Item) : e.part.holdsStatements = false := by
  cases e <;> rfl

/-- After a part the word `in` is what it was before it, where statements are at stake only if it
was an operator. -/
def Part.Restores (p : Part) (f : Feed) (_ : Value) (g : Feed) : Prop :=
  p.holdsStatements = false ∨ f.noIn = false → g.noIn = f.noIn

theorem Item.restores {e : Item} (item : e.part.Restores f v g) : g.noIn = f.noIn :=
  item (.inl e.part_holdsStatements)

theorem restores_lists : Part.Family.lists.Keeps Part.Restores := by
  intro p f v g read rule family plain
  induction rule using Reads.below.casesOn with cases family
  | commasLast _ _ _ item | closedLast _ _ _ _ item => exact Item.restores item
  | commasMore _ _ _ _ item _ more | closedMore _ _ _ _ _ item _ more =>
    rw [more (.inl rfl), Feed.next_noIn, Item.restores item]
  | closedNone | elementsNone | statementsNone => rfl
  | elementsHole _ _ _ more => rw [more (.inl rfl), Feed.next_noIn]
  | elementsLast _ _ _ _ _ item => exact item (.inl rfl)
  | elementsMore _ _ _ _ _ _ item _ more => rw [more (.inl rfl), Feed.next_noIn, item (.inl rfl)]
  | statementsMore _ _ _ _ _ first _ more =>
    have down := plain.resolve_left nofun
    have same := first (.inr down)
    rw [more (.inr (same.trans down)), same]

theorem restores_names : Part.Family.names.Keeps Part.Restores := by
  intro p f v g read rule family plain
  induction rule using Reads.below.casesOn with cases family
  | binding | propertyName => exact Feed.next_noIn
  | nested | group => exact Feed.resume_noIn
  | arguments _ _ _ _ items | parameters _ _ _ _ items =>
    rw [Feed.next_noIn, items (.inl rfl), Feed.next_noIn]
  | optionalNone => rfl
  | optionalSome _ _ _ inner => exact inner (.inl rfl)

theorem restores_assignments : Part.Family.assignments.Keeps Part.Restores := by
  intro p f v g read rule family plain
  induction rule using Reads.below.casesOn with cases family
  | single _ _ _ inner | arrowFunction _ _ _ inner | unassigned _ _ _ _ inner | arrowName _ _ inner
  | arrowNames _ _ _ inner | untested _ _ _ inner => exact inner (.inl rfl)
  | sequence _ _ _ _ first _ more | assigned _ _ _ _ _ _ first _ more
  | arrowBlock _ _ _ _ _ first _ more | arrowValue _ _ _ _ _ first _ more =>
    rw [more (.inl rfl), Feed.next_noIn, first (.inl rfl)]
  | tested _ _ _ _ _ _ test _ left _ right =>
    rw [right (.inl rfl), Feed.next_noIn, left (.inl rfl), Feed.next_noIn, test (.inl rfl)]

theorem restores_operations : Part.Family.operations.Keeps Part.Restores := by
  intro p f v g read rule family plain
  induction rule using Reads.below.casesOn with cases family
  | binary _ _ _ first _ more => rw [more (.inl rfl), first (.inl rfl)]
  | operationsStop => rfl
  | operationsMore _ _ _ _ _ operand _ more =>
    rw [more (.inl rfl), operand (.inl rfl), Feed.next_noIn]
  | unaryOperator _ _ _ operand | stepBefore _ _ _ _ _ operand =>
    rw [operand (.inl rfl), Feed.next_noIn]
  | unsigned _ _ _ _ inner | unstepped _ _ _ inner => exact inner (.inl rfl)
  | stepAfter _ _ _ _ _ inner => rw [Feed.next_noIn, inner (.inl rfl)]

theorem restores_accesses : Part.Family.accesses.Keeps Part.Restores := by
  intro p f v g read rule family plain
  induction rule using Reads.below.casesOn with cases family
  | access _ _ _ first _ more | membersMore _ _ _ first _ more | accessesMember _ _ _ first _ more
  | accessesCall _ _ _ first _ more => rw [more (.inl rfl), first (.inl rfl)]
  | headNew _ _ _ inner | headPrimary _ _ _ inner => exact inner (.inl rfl)
  | memberNamed _ _ _ name => rw [name (.inl rfl), Feed.next_noIn]
  | memberIndexed _ _ _ _ index => rw [Feed.next_noIn, index (.inl rfl), Feed.next_noIn]
  | membersStop | accessesStop => rfl
  | constructionCall _ _ _ _ _ first _ more _ args =>
    rw [args (.inl rfl), more (.inl rfl), first (.inl rfl), Feed.next_noIn]
  | constructionBare _ _ _ _ _ first _ more =>
    rw [more (.inl rfl), first (.inl rfl), Feed.next_noIn]

theorem restores_primaries : Part.Family.primaries.Keeps Part.Restores := by
  intro p f v g read rule family plain
  induction rule using Reads.below.casesOn with cases family
  | name | numberOrString | wordTrue | wordFalse | wordNull | wordThis | propertyShort =>
    exact Feed.next_noIn
  | functionExpression _ _ inner => exact inner (.inl rfl)
  | parenthesized _ _ _ _ inner | array _ _ _ _ inner | object _ _ _ _ inner =>
    rw [Feed.next_noIn, inner (.inl rfl), Feed.next_noIn]
  | propertyComputed _ _ _ _ _ _ key _ value =>
    rw [value (.inl rfl), Feed.next_noIn, Feed.next_noIn, key (.inl rfl), Feed.next_noIn]
  | propertyLiteral _ _ _ _ value | propertyNamed _ _ _ _ _ _ value =>
    rw [value (.inl rfl), Feed.next_noIn, Feed.next_noIn]

theorem restores_functions : Part.Family.functions.Keeps Part.Restores := by
  intro p f v g read rule family plain
  induction rule using Reads.below.casesOn with cases family
  | functionNamed _ _ _ _ _ name _ params _ body =>
    rw [body (.inl rfl), params (.inl rfl), name (.inl rfl), Feed.next_noIn]
  | functionUnnamed _ _ _ _ _ params _ body =>
    rw [body (.inl rfl), params (.inl rfl), Feed.next_noIn]
  | blockEmpty => rw [Feed.next_noIn, Feed.next_noIn]
  | block => rw [Feed.next_noIn, Feed.resume_noIn]
  | declaratorBare _ _ _ name => exact name (.inl rfl)
  | declaratorInit _ _ _ _ name _ init => rw [init (.inl rfl), Feed.next_noIn, name (.inl rfl)]
  | declaration _ _ _ items => rw [items (.inl rfl), Feed.next_noIn]

theorem restores_clauses : Part.Family.clauses.Keeps Part.Restores := by
  intro p f v g read rule family plain
  induction rule using Reads.below.casesOn with cases family
  | loopInitDeclaration _ _ _ inner | loopInitExpression _ _ _ inner | labelSome _ _ _ inner =>
    exact inner (.inl rfl)
  | counted _ _ _ _ _ _ _ test _ update _ body =>
    have down := plain.resolve_left nofun
    have before := (update (.inl rfl)).trans (Feed.next_noIn.trans
      ((test (.inl rfl)).trans Feed.next_noIn))
    have same := Feed.next_noIn.trans before
    rw [body (.inr (same.trans down)), same]
  | handlerNone | finalizerNone | labelNone => rfl
  | handlerBare _ _ _ _ body | finalizerSome _ _ _ body => rw [body (.inl rfl), Feed.next_noIn]
  | handlerNamed _ _ _ _ _ _ name _ body =>
    rw [body (.inl rfl), Feed.next_noIn, name (.inl rfl), Feed.next_noIn, Feed.next_noIn]

/-- The head of a loop with a condition in parentheses leaves the word `in` as it was. -/
theorem restores_head {p : Part} {v : Value} (plain : p.holdsStatements = false)
    (inner : p.Restores f.next.next v g) : g.next.noIn = f.noIn := by
  rw [Feed.next_noIn, inner (.inl plain), Feed.next_noIn, Feed.next_noIn]

theorem restores_statements : Part.Family.statements.Keeps Part.Restores := by
  intro p f v g read rule family plain
  have down : f.noIn = false := by
    cases p with
    | statement => exact plain.resolve_left nofun
    | _ => cases family
  induction rule using Reads.below.casesOn with cases family
  | blockStatement _ _ inner | functionDeclaration _ _ inner => exact inner (.inl rfl)
  | emptyStatement => exact Feed.next_noIn
  | variableDeclaration _ stop _ inner | expressionStatement _ _ stop _ inner =>
    rw [stop.noIn, inner (.inl rfl)]
  | ifShort _ _ _ _ _ _ _ test _ left =>
    have head := restores_head rfl test
    rw [left (.inr (head.trans down)), head]
  | ifElse _ _ _ _ _ _ _ _ test _ left _ right =>
    have head := restores_head rfl test
    have first := (left (.inr (head.trans down))).trans head
    rw [right (.inr (Feed.next_noIn.trans (first.trans down))), Feed.next_noIn, first]
  | @forBare f _ _ _ _ _ _ _ rest =>
    have head : f.next.next.noIn = f.noIn := by rw [Feed.next_noIn, Feed.next_noIn]
    rw [rest (.inr (head.trans down)), head]
  | forCounted _ _ _ _ _ _ _ _ _ rest => rw [rest (.inr Feed.lift_noIn), Feed.lift_noIn, down]
  | forIn _ _ _ _ _ _ _ _ _ _ _ _ collection _ body
  | forOf _ _ _ _ _ _ _ _ _ _ _ _ _ collection _ body =>
    have head := Feed.next_noIn.trans ((collection (.inl rfl)).trans
      (Feed.next_noIn.trans Feed.lift_noIn))
    rw [body (.inr head), head, down]
  | whileStatement _ _ _ _ _ _ test _ body =>
    have head := restores_head rfl test
    rw [body (.inr (head.trans down)), head]
  | doWhile _ _ _ _ _ _ stop _ body _ test =>
    have first := (body (.inr (Feed.next_noIn.trans down))).trans Feed.next_noIn
    have head := restores_head rfl test
    rw [stop]
    split
    · rw [Feed.next_noIn, head, first]
    · rw [head, first]
  | tryStatement _ _ _ _ _ _ guarded _ handler _ finalizer =>
    rw [finalizer (.inl rfl), handler (.inl rfl), guarded (.inl rfl), Feed.next_noIn]
  | returnBare _ _ stop => rw [stop.noIn, Feed.next_noIn]
  | returnValue _ _ _ stop _ inner | breakStatement _ _ stop _ inner
  | continueStatement _ _ stop _ inner | throwStatement _ _ _ stop _ inner =>
    rw [stop.noIn, inner (.inl rfl), Feed.next_noIn]

theorem Reads.noIn_eq (read : Reads p f v g) (plain : p.holdsStatements = false ∨ f.noIn = false) :
    g.noIn = f.noIn := by
  have restores : p.Restores f v g := read.byFamily fun
    | .lists => restores_lists
    | .names => restores_names
    | .assignments => restores_assignments
    | .operations => restores_operations
    | .accesses => restores_accesses
    | .primaries => restores_primaries
    | .functions => restores_functions
    | .clauses => restores_clauses
    | .statements => restores_statements
  exact restores plain

/-- What is left of closed tokens is closed. -/
theorem closed_suffix {whole part : List Token} (closed : Closed whole) (suffix : part <:+ whole)
    (some : part ≠ []) : Closed part := by
  induction whole with
  | nil => exact closed.elim
  | cons t rest ih =>
    rcases List.suffix_cons_iff.mp suffix with rfl | inner
    · exact closed
    · match rest with
      | [] => exact absurd (List.suffix_nil.mp inner) some
      | u :: rest => exact ih closed.2 inner

namespace Feed

/-- The tokens that are left end in their only end of input. -/
def Closed (f : Feed) : Prop := ScriptTree.Closed f.tokens

theorem Upto.closed (upto : f.Upto g) (closed : f.Closed) : g.Closed :=
  closed_suffix closed upto (by simp [tokens])

theorem Upto.length_le (upto : f.Upto g) : g.rest.length ≤ f.rest.length := by
  have := List.IsSuffix.length_le upto
  simpa [tokens] using this

/-- Before the end of input there is a next token. -/
theorem Closed.next_eq (closed : f.Closed) (within : f.current.kind ≠ .endOfInput) :
    ∃ t rest, f.rest = t :: rest ∧ f.next = ⟨f.current, t, rest, f.noIn⟩ := by
  obtain ⟨_, _, _ | ⟨t, rest⟩, _⟩ := f
  · exact absurd closed within
  · exact ⟨t, rest, rfl, rfl⟩

/-- At the end of input no other token is left. -/
theorem Closed.tokens_end (closed : f.Closed) (ending : f.current.kind = .endOfInput) :
    f.tokens = [f.current] := by
  obtain ⟨_, _, _ | ⟨u, rest⟩, _⟩ := f
  · rfl
  · exact absurd ending closed.1

theorem Past.length_lt (past : f.Past g) (closed : f.Closed) :
    g.rest.length < f.rest.length := by
  obtain ⟨t, rest, more, next⟩ := closed.next_eq past.1
  have := past.2.length_le
  simp only [next, more, List.length_cons] at this ⊢
  omega

end Feed

theorem Reads.closed (read : Reads p f v g) (closed : f.Closed) : g.Closed :=
  read.upto.closed closed

end ScriptTree.Grammar
