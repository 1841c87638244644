import ScriptTree.Proofs.Grammar.Progress
import ScriptTree.Proofs.Grammar.Soundness
import ScriptTree.Proofs.Tree.Conforming

/-!
Whatever is read follows the grammar of trees. A choice without an `else` takes every `else` that
stands after it, so a statement that is left open is not followed by one.
-/
namespace ScriptTree

namespace Grammar

namespace Feed

/-- The tokens that are left are such as come from a source. -/
def Faithful (f : Feed) : Prop := ∀ t ∈ f.tokens, t.Faithful

variable {f g : Feed} {p : Part} {v : Value}

theorem Faithful.upto (faithful : f.Faithful) (upto : f.Upto g) : g.Faithful :=
  fun t mem => faithful t (List.IsSuffix.mem mem upto)

theorem Faithful.next (faithful : f.Faithful) : f.next.Faithful := faithful.upto upto_next

theorem Faithful.lift (faithful : f.Faithful) : f.lift.Faithful := faithful

theorem Faithful.bar (faithful : f.Faithful) : f.bar.Faithful := faithful

theorem Faithful.after (faithful : f.Faithful) (read : Reads p f v g) : g.Faithful :=
  faithful.upto read.upto

theorem Faithful.current (faithful : f.Faithful) : f.current.Faithful :=
  faithful f.current List.mem_cons_self

end Feed

def Item.role : Item → Role
  | binding => .binding
  | nested | assignment => .expression
  | property => .property
  | declarator => .declarator

structure Stated (v : Value) (g : Feed) : Prop where
  conforms : Conforms .parsed .statement v
  alone : v.Alone
  closed : v.endsOpen → g.current.kind ≠ .kwElse

def ListOf (r : Role) (v : Value) : Prop := ∃ vs, v = .list vs ∧ ∀ e ∈ vs, Conforms .parsed r e

def Blocked (v : Value) : Prop := Conforms .parsed .block v ∧ v.Alone

/-- Statements with the comments before them, up to a closing token. -/
def Led (v : Value) : Prop :=
  ∃ vs, v = .list vs ∧ (∀ e ∈ vs, Conforms .parsed .statement e) ∧
    ∀ e ∈ vs, e.isHollow = false → ∀ c ∈ e.comments, c.Before

/-- What is known of the value that a part reads. -/
def Part.Yields (p : Part) (v : Value) (g : Feed) : Prop :=
  match p with
  | statement => Stated v g
  | binding => Conforms .parsed .binding v
  | propertyName => Conforms .parsed .word v
  | property => Conforms .parsed .property v
  | declarator => Conforms .parsed .declarator v
  | declaration => Conforms .parsed .declaration v ∧ v.comments = []
  | loopInit => Conforms .parsed .loopInit v
  | block => Blocked v
  | function true => Stated v g
  | arrowParameters | parameters => ListOf .binding v
  | arguments => ListOf .expression v
  | commas e => ListOf e.role v ∧ v ≠ .list []
  | closed _ e => ListOf e.role v
  | elements => ∃ vs, v = .list vs ∧ ∀ e ∈ vs, e ≠ .null → Conforms .parsed .expression e
  | statements _ => Led v
  | label => v ≠ .null → Conforms .parsed .binding v
  | handler => v ≠ .null → Conforms .parsed .handler v
  | finalizer => v ≠ .null → Blocked v
  | optional _ => v ≠ .null → Conforms .parsed .expression v
  | counted _ init => (init ≠ .null → Conforms .parsed .loopInit init) → Stated v g
  | member _ base | members _ base | accesses _ base | operations _ _ base =>
    Conforms .parsed .expression base → Conforms .parsed .expression v
  | _ => Conforms .parsed .expression v

def Part.Honours (p : Part) (f : Feed) (v : Value) (g : Feed) : Prop :=
  f.Faithful → p.Yields v g

variable {f g : Feed} {p : Part} {v w : Value} {vs : List Value}

theorem Item.yields {e : Item} : e.part.Yields v g ↔ Conforms .parsed e.role v := by
  cases e <;> rfl

theorem alone_of_silent (silent : v.comments = []) : v.Alone := by
  unfold Value.Alone
  split
  · simp [silent]
  · exact silent

/-- The comments of a statement do not bear on its grammar. -/
theorem conforms_mapNotes {s : Convention} {change : Notes → Notes}
    (conforms : Conforms s .statement v) : Conforms s .statement (v.mapNotes change) := by
  cases conforms with
  | blockStatement inner =>
    cases inner with
    | block items listed => exact .blockStatement (.block items listed)
  | declarationStatement inner =>
    cases inner with
    | declaration word some items => exact .declarationStatement (.declaration word some items)
  | emptyStatement => exact .emptyStatement
  | expressionStatement inner => exact .expressionStatement inner
  | functionDeclaration name params body alone =>
    exact .functionDeclaration name params body alone
  | returnStatement value => exact .returnStatement value
  | breakStatement label => exact .breakStatement label
  | continueStatement label => exact .continueStatement label
  | throwStatement value => exact .throwStatement value
  | ifShort test left alone => exact .ifShort test left alone
  | ifElse test left right closed first second =>
    exact .ifElse test left right closed first second
  | forStatement init test update body alone => exact .forStatement init test update body alone
  | forIn left right body alone => exact .forIn left right body alone
  | forOf left right body alone => exact .forOf left right body alone
  | whileStatement test body alone => exact .whileStatement test body alone
  | doWhile body test alone => exact .doWhile body test alone
  | tryStatement guarded handler finalizer both first last =>
    exact .tryStatement guarded handler finalizer both first last

theorem mapNotes_isHollow {change : Notes → Notes} :
    (v.mapNotes change).isHollow = v.isHollow := by
  cases v with
  | node kind children notes =>
    simp only [Value.mapNotes, Value.isHollow]
    split <;> split <;> simp_all
  | _ => rfl

theorem mapNotes_comments {change : Notes → Notes} (node : v.isNode) :
    (v.mapNotes change).comments = (change v.notes).comments := by
  cases v with
  | node => rfl
  | _ => cases node

/-- The last statement of a list with the comments that stand after it. -/
theorem arranged_mapLast {t : Token} (faithful : t.Faithful)
    (items : ∀ e ∈ vs, e.isNode)
    (led : ∀ e ∈ vs, e.isHollow = false → ∀ c ∈ e.comments, c.Before) :
    Arranged (mapLast (attachTrailing t) vs) := by
  induction vs with
  | nil => trivial
  | cons v rest ih =>
    simp only [List.forall_mem_cons] at items led
    cases rest with
    | nil =>
      intro solid
      rw [attachTrailing, mapNotes_isHollow] at solid
      refine ⟨v.comments, _, mapNotes_comments items.1, led.1 solid, ?_⟩
      simp only [List.mem_map]
      rintro c ⟨old, mem, rfl⟩
      exact ⟨(faithful.comments old mem).1, rfl⟩
    | cons w rest =>
      have later := ih items.2 led.2
      cases rest with
      | nil => exact ⟨led.1, later⟩
      | cons => exact ⟨led.1, later⟩

theorem mapLast_conforms {t : Token} (items : ∀ e ∈ vs, Conforms .parsed .statement e) :
    ∀ e ∈ mapLast (attachTrailing t) vs, Conforms .parsed .statement e := by
  induction vs with
  | nil => exact items
  | cons v rest ih =>
    obtain ⟨first, later⟩ := List.forall_mem_cons.mp items
    cases rest with
    | nil => simpa [mapLast, attachTrailing] using conforms_mapNotes first
    | cons w rest => exact List.forall_mem_cons.mpr ⟨first, ih later⟩

theorem endsOpen_ifElse {test left right : Value} {n : Notes} (node : right.isNode) :
    (Value.node .ifStatement [test, left, right] n).endsOpen = right.endsOpen := by
  cases right with
  | node => rfl
  | _ => cases node

theorem Token.word_of_value {t : Token} {w : Text} (value : t.value = .text w) (raw : t.raw = w) :
    t.word = w := by
  unfold Token.word
  split
  · rw [value]
    rfl
  · exact raw

theorem Feed.Faithful.name (faithful : f.Faithful) (ident : f.current.kind = .ident) :
    ∃ w, isName w ∧ f.current.value = .text w ∧ f.spelled = .text w := by
  obtain ⟨w, name, value, raw⟩ := faithful.current.name ident
  exact ⟨w, name, value, congrArg Value.text (Token.word_of_value value raw)⟩

theorem keyword_isWord {k : TokenKind} (keyword : k.isKeyword) : isWord (text k.spelling) := by
  have : ∀ k ∈ TokenKind.keywords, isWord (text k.spelling) := by decide
  exact this k (List.contains_iff_mem.mp keyword)

theorem Feed.Faithful.word (faithful : f.Faithful)
    (word : f.current.kind = .ident ∨ f.current.kind.isKeyword) :
    ∃ w, isWord w ∧ f.spelled = .text w := by
  rcases word with ident | keyword
  · obtain ⟨w, name, _, spelled⟩ := faithful.name ident
    exact ⟨w, (Bool.and_eq_true_iff.mp name).1, spelled⟩
  · obtain ⟨value, raw⟩ := faithful.current.word keyword
    exact ⟨_, keyword_isWord keyword, congrArg Value.text (Token.word_of_value value raw)⟩

/-- The classes of tokens that are operators somewhere. -/
theorem operators_spelled {k : TokenKind}
    (operator : k.isUnary ∨ k.isUpdate ∨ k.isAssignment ∨ k.rank?.isSome) :
    k ∈ TokenKind.operators ∨ k.isKeyword := by
  rcases operator with unary | update | assignment | rank
  · exact TokenKind.holds_of_contains unary (by decide)
  · rcases TokenKind.update_cases update with rfl | rfl <;> decide
  · exact TokenKind.holds_of_contains assignment (by decide)
  · obtain ⟨_, ranked⟩ := Option.isSome_iff_exists.mp rank
    exact TokenKind.holds_of_rank ranked (by decide)

theorem Feed.Faithful.operator (faithful : f.Faithful)
    (operator : f.current.kind.isUnary ∨ f.current.kind.isUpdate ∨ f.current.kind.isAssignment ∨
      f.current.kind.rank?.isSome) :
    f.current.value = .text (text f.current.kind.spelling) := by
  rcases operators_spelled operator with operator | keyword
  · exact faithful.current.operator operator
  · exact (faithful.current.word keyword).1

/-- A statement that is no block and has no comments. -/
theorem Stated.silent (conforms : Conforms .parsed .statement v) (silent : v.comments = [])
    (closed : v.endsOpen → g.current.kind ≠ .kwElse) : Stated v g :=
  ⟨conforms, alone_of_silent silent, closed⟩

theorem ListOf.cons {r : Role} (first : Conforms .parsed r v) (rest : ListOf r (.list vs)) :
    ListOf r (.list (v :: vs)) := by
  obtain ⟨_, same, items⟩ := rest
  cases same
  exact ⟨_, rfl, List.forall_mem_cons.mpr ⟨first, items⟩⟩

theorem ListOf.single {r : Role} (first : Conforms .parsed r v) : ListOf r (.list [v]) :=
  ⟨_, rfl, by simpa using first⟩

theorem ListOf.nil {r : Role} : ListOf r (.list []) := ⟨_, rfl, by simp⟩

theorem ListOf.items {r : Role} (all : ListOf r (.list vs)) : ∀ e ∈ vs, Conforms .parsed r e := by
  obtain ⟨_, same, items⟩ := all
  cases same
  exact items

/-- A declaration that a loop over a collection can bind has one variable without a value. -/
theorem loopTarget_conforms (conforms : Conforms .parsed .loopInit v) (target : isLoopTarget v) :
    Conforms .parsed .loopTarget v := by
  cases conforms with
  | loopDeclaration inner silent =>
    cases inner with
    | declaration word some items =>
      unfold isLoopTarget at target
      split at target
      · rename_i same
        cases same
        cases items _ List.mem_cons_self with
        | declarator name init quiet => exact .loopVariable word name quiet silent
      · rename_i same
        cases same
      · rename_i same
        cases same
      · cases target
  | loopExpression inner =>
    refine .loopPlace ?_ inner
    unfold isLoopTarget at target
    split at target
    · cases inner.isKind rfl
    · rfl
    · rfl
    · cases target

theorem Led.cons {close : TokenKind} {h : Feed} (faithful : f.Faithful) (first : Stated v h)
    (rest : (Part.statements close).Yields (.list vs) g) :
    Led (.list (attachLeading f.current.comments v :: vs)) := by
  obtain ⟨_, same, items, led⟩ := rest
  cases same
  refine ⟨_, rfl, List.forall_mem_cons.mpr ⟨?_, items⟩, List.forall_mem_cons.mpr ⟨?_, led⟩⟩
  · unfold attachLeading
    split
    · exact first.conforms
    · exact conforms_mapNotes first.conforms
  · unfold attachLeading
    split
    · intro solid
      have alone := first.alone
      rw [Value.Alone, if_neg (by simp [solid])] at alone
      simp [alone]
    · intro _ c mem
      rw [mapNotes_comments first.conforms.isNode] at mem
      exact faithful.current.comments c mem

theorem yields_lists : Part.Family.lists.Keeps Part.Honours := by
  intro p f v g read rule family faithful
  induction rule using Reads.below.casesOn with cases family
  | commasLast item _ _ ih => exact ⟨.single (Item.yields.mp (ih faithful)), by simp⟩
  | commasMore item _ _ _ ih _ more =>
    exact ⟨.cons (Item.yields.mp (ih faithful)) (more (faithful.after item).next).1, by simp⟩
  | closedNone => exact .nil
  | closedLast _ item _ _ ih => exact .single (Item.yields.mp (ih faithful))
  | closedMore _ item _ _ _ ih _ more =>
    exact .cons (Item.yields.mp (ih faithful)) (more (faithful.after item).next)
  | elementsNone => exact ⟨_, rfl, by simp⟩
  | elementsHole _ _ _ ih =>
    obtain ⟨_, same, items⟩ := ih faithful.next
    cases same
    exact ⟨_, rfl, by simpa using items⟩
  | elementsLast _ _ _ _ _ ih =>
    exact ⟨_, rfl, List.forall_mem_cons.mpr ⟨fun _ => ih faithful, by simp⟩⟩
  | elementsMore _ _ item _ _ _ ih _ more =>
    obtain ⟨_, same, items⟩ := more (faithful.after item).next
    cases same
    exact ⟨_, rfl, List.forall_mem_cons.mpr ⟨fun _ => ih faithful, items⟩⟩
  | statementsNone => exact ⟨_, rfl, by simp, by simp⟩
  | statementsMore _ _ first _ _ ih _ more =>
    exact .cons faithful (ih faithful) (more (faithful.after first))

theorem yields_names : Part.Family.names.Keeps Part.Honours := by
  intro p f v g read rule family faithful
  induction rule using Reads.below.casesOn with cases family
  | binding ident =>
    obtain ⟨w, name, value, _⟩ := faithful.name ident
    rw [value]
    exact .binding name rfl
  | propertyName word =>
    obtain ⟨w, word, spelled⟩ := faithful.word word
    rw [spelled]
    exact .word word rfl
  | nested _ _ ih | group _ _ ih => exact ih faithful.lift
  | arguments _ _ _ _ ih | parameters _ _ _ _ ih => exact ih faithful.next
  | optionalNone => exact nofun
  | optionalSome _ _ _ ih => exact fun _ => ih faithful

theorem yields_assignments : Part.Family.assignments.Keeps Part.Honours := by
  intro p f v g read rule family faithful
  induction rule using Reads.below.casesOn with cases family
  | single _ _ _ ih | arrowFunction _ _ _ ih | unassigned _ _ _ _ ih | arrowNames _ _ _ ih
  | untested _ _ _ ih => exact ih faithful
  | @sequence _ _ _ _ vs first _ _ _ ih _ more =>
    obtain ⟨items, some⟩ := more (faithful.after first).next
    have all := ListOf.cons (ih faithful) items
    refine .sequence ?_ all.items rfl
    cases vs with
    | nil => exact absurd rfl some
    | cons => simp
  | assigned _ inner operator target _ _ left _ right =>
    have later := faithful.after inner
    rw [later.operator (.inr (.inr (.inl operator)))]
    exact .assignment operator target (left faithful) (right later.next) rfl
  | arrowName _ _ ih => exact .single (ih faithful)
  | arrowBlock params _ _ _ _ listed _ body =>
    obtain ⟨_, rfl, items⟩ := listed faithful
    obtain ⟨inner, alone⟩ := body (faithful.after params).next
    exact .arrowBlock items inner alone rfl
  | arrowValue params _ _ _ _ listed _ body =>
    obtain ⟨_, rfl, items⟩ := listed faithful
    exact .arrowValue items (body (faithful.after params).next) rfl
  | tested condition _ consequent _ _ _ test _ left _ right =>
    have later := (faithful.after condition).next
    exact .conditional (test faithful) (left later) (right (later.after consequent).next) rfl

theorem yields_operations : Part.Family.operations.Keeps Part.Honours := by
  intro p f v g read rule family faithful
  induction rule using Reads.below.casesOn with cases family
  | binary first _ _ ih _ more => exact more (faithful.after first) (ih faithful)
  | operationsStop => exact id
  | @operationsMore _ _ rank f _ _ _ _ _ ranked _ operand _ _ right _ more =>
    intro left
    have known : f.current.kind.rank? = some rank := by
      unfold Feed.rank? at ranked
      split at ranked
      · cases ranked
      · exact ranked
    refine more (faithful.next.after operand) ?_
    rw [faithful.operator (.inr (.inr (.inr (by simp [known]))))]
    exact .operation known left (right faithful.next) rfl
  | unaryOperator operator _ _ ih =>
    rw [faithful.operator (.inl operator)]
    exact .unary operator (ih faithful.next) rfl
  | stepBefore _ operator _ target _ ih =>
    rw [faithful.operator (.inr (.inl operator))]
    exact .update operator target (ih faithful.next) rfl
  | unsigned _ _ _ _ ih | unstepped _ _ _ ih => exact ih faithful
  | stepAfter inner operator _ target _ ih =>
    rw [(faithful.after inner).operator (.inr (.inl operator))]
    exact .update operator target (ih faithful) rfl

theorem yields_accesses : Part.Family.accesses.Keeps Part.Honours := by
  intro p f v g read rule family faithful
  induction rule using Reads.below.casesOn with cases family
  | access first _ _ ih _ more => exact more (faithful.after first) (ih faithful)
  | headNew _ _ _ ih | headPrimary _ _ _ ih => exact ih faithful
  | memberNamed _ _ _ ih => exact fun base => .memberNamed base (ih faithful.next) rfl
  | memberIndexed _ _ _ _ ih => exact fun base => .memberIndexed base (ih faithful.next) rfl
  | membersMore first _ _ ih _ more | accessesMember first _ _ ih _ more =>
    exact fun base => more (faithful.after first) (ih faithful base)
  | membersStop | accessesStop => exact id
  | accessesCall args _ _ listed _ more =>
    intro base
    obtain ⟨_, rfl, items⟩ := listed faithful
    exact more (faithful.after args) (.call base items rfl)
  | constructionCall _ first callee _ _ ih _ more _ listed =>
    have later := faithful.next.after first
    obtain ⟨_, rfl, items⟩ := listed (later.after callee)
    exact .construction (more later (ih faithful.next)) items rfl
  | constructionBare _ first _ _ _ ih _ more =>
    exact .construction (more (faithful.next.after first) (ih faithful.next)) (by simp) rfl

theorem yields_primaries : Part.Family.primaries.Keeps Part.Honours := by
  intro p f v g read rule family faithful
  induction rule using Reads.below.casesOn with cases family
  | name ident =>
    obtain ⟨w, name, value, _⟩ := faithful.name ident
    rw [value]
    exact .name (.binding name rfl)
  | numberOrString scalar =>
    refine .literal ?_ rfl
    rcases scalar with number | string
    · exact .inr (.inr (.inr (faithful.current.number number)))
    · exact .inr (.inr (.inl (faithful.current.string string)))
  | wordTrue => exact .literal (.inr (.inl ⟨true, rfl⟩)) rfl
  | wordFalse => exact .literal (.inr (.inl ⟨false, rfl⟩)) rfl
  | wordNull => exact .literal (.inl rfl) rfl
  | wordThis => exact .this rfl
  | functionExpression _ _ ih => exact ih faithful
  | parenthesized _ _ _ _ ih => exact ih faithful.next
  | array _ _ _ _ ih =>
    obtain ⟨_, rfl, items⟩ := ih faithful.next
    exact .array items rfl
  | object _ _ _ _ ih =>
    obtain ⟨_, rfl, items⟩ := ih faithful.next
    exact .object items rfl
  | propertyComputed _ key _ _ _ _ ih _ value =>
    exact .computed (ih faithful.next) (value (faithful.next.after key).next.next) rfl
  | propertyLiteral scalar _ _ _ value =>
    refine .keyed ?_ (value faithful.next.next) rfl
    rcases scalar with string | number
    · obtain ⟨t, same⟩ := faithful.current.string string
      rw [same]
      exact .keyLiteral rfl (.inr (.inr (.inl ⟨t, rfl⟩))) rfl
    · have number := faithful.current.number number
      refine .keyLiteral ?_ (.inr (.inr (.inr number))) rfl
      rcases number with ⟨_, same⟩ | ⟨_, same⟩ <;> rw [same] <;> rfl
  | propertyNamed _ _ _ _ key _ value =>
    exact .keyed (.keyWord (key faithful)) (value faithful.next.next) rfl
  | propertyShort ident _ =>
    obtain ⟨w, name, value, spelled⟩ := faithful.name ident
    rw [value, spelled]
    exact .shorthand name rfl rfl rfl

theorem yields_functions : Part.Family.functions.Keeps Part.Honours := by
  intro p f v g read rule family faithful
  induction rule using Reads.below.casesOn with cases family
  | @functionNamed declared _ _ _ _ _ _ _ _ name params _ _ named _ listed _ body =>
    have later := faithful.next.after name
    obtain ⟨_, rfl, items⟩ := listed later
    obtain ⟨inner, alone⟩ := body (later.after params)
    cases declared with
    | true =>
      exact .silent (.functionDeclaration (named faithful.next) items inner alone) rfl nofun
    | false => exact .functionExpression (fun _ => named faithful.next) items inner alone rfl
  | functionUnnamed _ _ params _ _ listed _ body =>
    obtain ⟨_, rfl, items⟩ := listed faithful.next
    obtain ⟨inner, alone⟩ := body (faithful.next.after params)
    exact .functionExpression nofun items inner alone rfl
  | blockEmpty _ _ =>
    refine ⟨.block (by simp) trivial, ?_⟩
    intro c mem
    obtain ⟨old, inside, rfl⟩ := List.mem_map.mp mem
    exact ⟨(faithful.next.current.comments old inside).1, rfl⟩
  | block _ body _ _ ih =>
    have inner := faithful.next.lift
    obtain ⟨_, same, items, led⟩ := ih inner
    cases same
    have last := (inner.after body).current
    exact ⟨.block (mapLast_conforms items)
      (arranged_mapLast last (fun e mem => (items e mem).isNode) led), alone_of_silent rfl⟩
  | declaratorBare _ _ _ ih => exact .declarator (ih faithful) nofun rfl
  | declaratorInit name _ _ _ ih _ init =>
    exact .declarator (ih faithful) (fun _ => init (faithful.after name).next) rfl
  | declaration word _ _ ih =>
    obtain ⟨⟨_, rfl, items⟩, some⟩ := ih faithful.next
    exact ⟨.declaration word (by simpa using some) items, rfl⟩

theorem yields_clauses : Part.Family.clauses.Keeps Part.Honours := by
  intro p f v g read rule family faithful
  induction rule using Reads.below.casesOn with cases family
  | loopInitDeclaration _ _ _ ih =>
    obtain ⟨inner, silent⟩ := ih faithful
    exact .loopDeclaration inner silent
  | loopInitExpression _ _ _ ih => exact .loopExpression (ih faithful)
  | counted _ condition _ update _ _ _ test _ updated _ body =>
    intro init
    have later := (faithful.next.after condition).next
    have last := body (later.after update).next
    exact .silent (.forStatement init (test faithful.next) (updated later) last.conforms last.alone)
      rfl last.closed
  | handlerNone | finalizerNone | labelNone => exact nofun
  | handlerBare _ _ _ _ body =>
    obtain ⟨inner, alone⟩ := body faithful.next
    exact fun _ => .handler nofun inner alone rfl
  | handlerNamed _ _ name _ _ _ named _ body =>
    obtain ⟨inner, alone⟩ := body (faithful.next.next.after name).next
    exact fun _ => .handler (fun _ => named faithful.next.next) inner alone rfl
  | finalizerSome _ _ _ body => exact fun _ => body faithful.next
  | labelSome _ _ _ ih => exact fun _ => ih faithful

theorem yields_statements : Part.Family.statements.Keeps Part.Honours := by
  intro p f v g read rule family faithful
  induction rule using Reads.below.casesOn with cases family
  | blockStatement _ _ ih =>
    obtain ⟨inner, alone⟩ := ih faithful
    refine ⟨.blockStatement inner, alone, ?_⟩
    cases inner
    nofun
  | emptyStatement => exact .silent .emptyStatement rfl nofun
  | variableDeclaration _ _ _ ih =>
    obtain ⟨inner, silent⟩ := ih faithful
    refine .silent (.declarationStatement inner) silent ?_
    cases inner
    nofun
  | functionDeclaration _ _ ih => exact ih faithful
  | ifShort _ _ condition _ _ stop _ test _ left =>
    have later := (faithful.next.next.after condition).next
    have first := left later
    exact .silent (.ifShort (test faithful.next.next) first.conforms first.alone) rfl fun _ => stop
  | ifElse _ _ condition _ consequent els _ _ test _ left _ right =>
    have later := (faithful.next.next.after condition).next
    have first := left later
    have second := right (later.after consequent).next
    have closed : Value.endsOpen _ = false :=
      Bool.eq_false_iff.mpr fun opened => first.closed opened els
    refine .silent (.ifElse (test faithful.next.next) first.conforms second.conforms closed
      first.alone second.alone) rfl ?_
    exact fun opened => second.closed (endsOpen_ifElse second.conforms.isNode ▸ opened)
  | forBare _ _ _ _ _ ih => exact ih faithful.next.next nofun
  | forCounted _ _ _ init _ _ _ first _ ih =>
    exact ih (faithful.next.next.bar.after init).lift fun _ => first faithful.next.next.bar
  | forIn _ _ _ init _ target collection _ _ _ left _ right _ body =>
    have later := (faithful.next.next.bar.after init).lift.next
    have last := body (later.after collection).next
    have bound := loopTarget_conforms (left faithful.next.next.bar) target
    exact .silent (.forIn bound (right later) last.conforms last.alone) rfl last.closed
  | forOf _ _ _ init _ _ target collection _ _ _ left _ right _ body =>
    have later := (faithful.next.next.bar.after init).lift.next
    have last := body (later.after collection).next
    have bound := loopTarget_conforms (left faithful.next.next.bar) target
    exact .silent (.forOf bound (right later) last.conforms last.alone) rfl last.closed
  | whileStatement _ _ condition _ _ _ test _ body =>
    have last := body (faithful.next.next.after condition).next
    exact .silent (.whileStatement (test faithful.next.next) last.conforms last.alone) rfl
      last.closed
  | doWhile _ inner _ _ _ _ _ _ body _ test =>
    have first := body faithful.next
    exact .silent (.doWhile first.conforms (test (faithful.next.after inner).next.next)
      first.alone) rfl nofun
  | tryStatement _ inner caught _ both _ guarded _ handled _ last =>
    have later := faithful.next.after inner
    have ending := last (later.after caught)
    obtain ⟨first, alone⟩ := guarded faithful.next
    exact .silent (.tryStatement first (handled later) (fun some => (ending some).1) both alone
      fun some => (ending some).2) rfl nofun
  | returnBare => exact .silent (.returnStatement nofun) rfl nofun
  | returnValue _ _ _ _ _ ih =>
    exact .silent (.returnStatement fun _ => ih faithful.next) rfl nofun
  | breakStatement _ _ _ _ ih => exact .silent (.breakStatement (ih faithful.next)) rfl nofun
  | continueStatement _ _ _ _ ih => exact .silent (.continueStatement (ih faithful.next)) rfl nofun
  | throwStatement _ _ _ _ _ ih => exact .silent (.throwStatement (ih faithful.next)) rfl nofun
  | expressionStatement _ _ _ _ ih => exact .silent (.expressionStatement (ih faithful)) rfl nofun

theorem Reads.honours (read : Reads p f v g) : p.Honours f v g :=
  read.byFamily fun
    | .lists => yields_lists
    | .names => yields_names
    | .assignments => yields_assignments
    | .operations => yields_operations
    | .accesses => yields_accesses
    | .primaries => yields_primaries
    | .functions => yields_functions
    | .clauses => yields_clauses
    | .statements => yields_statements

theorem Reads.yields (read : Reads p f v g) (faithful : f.Faithful) : p.Yields v g :=
  read.honours faithful

end Grammar

theorem Convention.parsed_scalar {v : Value} (literal : Convention.parsed.literal v) :
    v.isScalar := by
  rcases literal with rfl | ⟨_, rfl⟩ | ⟨_, rfl⟩ | ⟨_, rfl⟩ | ⟨_, rfl⟩ <;> rfl

/-- Whatever a source is parsed to follows the grammar of trees. -/
theorem parse_program {source : Text} {v : Value} (parsed : parse source = .ok v) :
    Conforms .parsed .program v := by
  obtain ⟨tokens, scanned, ran⟩ := parse_ok.mp parsed
  obtain ⟨vs, g, read, made⟩ := Grammar.program_sound ran
  have faithful : (Grammar.Feed.ofTokens tokens).Faithful := by
    cases tokens with
    | nil => exact (tokenize_closed scanned).elim
    | cons t rest => exact tokenize_faithful scanned
  obtain ⟨_, same, items, led⟩ := read.yields faithful
  cases same
  have last := (faithful.after read).current
  rw [made]
  cases vs with
  | nil =>
    refine .program items trivial ?_
    intro c mem
    obtain ⟨old, inside, rfl⟩ := List.mem_map.mp mem
    exact ⟨(last.comments old inside).1, rfl⟩
  | cons w ws =>
    exact .program (Grammar.mapLast_conforms items)
      (Grammar.arranged_mapLast last (fun e mem => (items e mem).isNode) led)
      (Grammar.alone_of_silent rfl)

/-- Whatever a source is parsed to has the fields of its kinds and follows the grammar. -/
theorem parse_conforms {source : Text} {v : Value} (parsed : parse source = .ok v) :
    v.validate true = .ok () ∧ Conforms .parsed .program v :=
  have conforms := parse_program parsed
  ⟨conforms.valid Convention.parsed_scalar, conforms⟩

theorem parse_conforms_choice : ∃ v, parse (text "if (a) b; else c;") = .ok v ∧
    v.validate true = .ok () ∧ Conforms .parsed .program v := by
  have parses : (parse (text "if (a) b; else c;")).toOption.any (fun _ => true) = true := by
    decide +kernel
  obtain ⟨v, parsed, -⟩ := ok_of_any parses
  exact ⟨v, parsed, parse_conforms parsed⟩

end ScriptTree
