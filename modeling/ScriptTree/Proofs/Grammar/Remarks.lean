import ScriptTree.Proofs.Grammar.Conservation
import ScriptTree.Proofs.Grammar.Numeric
import ScriptTree.Proofs.Token.Lossless

/-!
Where the comments of a source go. A list of statements takes the comments before each of its
statements and those before the token at which it stops; every other comment is dropped. A block
without statements keeps the comments inside it itself, unless there is a comment before it: the one
before it then takes the place of those inside.
-/
namespace ScriptTree

/-- A token whose comments a list of statements takes, as the tree knows it: one at which a
statement begins, or the one at which the list stops, which ends the node around the list. It is
muffled if that node has no statement and a comment before it. -/
inductive Edge
  | first (start : Option Mark)
  | last (kind : TokenKind) (stop : Option Mark) (muffled : Bool)
  deriving DecidableEq

def Notes.edge (n : Notes) (kind : TokenKind) (statements : List Value) : Edge :=
  .last kind (n.span.bind Span.stop) (statements.isEmpty && n.comments.any Comment.leading)

def Token.trailing (t : Token) : List Comment := t.comments.map ({ · with leading := false })

namespace Value

def start? (v : Value) : Option Mark := v.notes.span.map Span.start

mutual
/-- The edges of the lists of statements in a value, in the order of the source. -/
def edges : Value → List Edge
  | .node .blockStatement [.list vs] n => statementEdges vs ++ [n.edge .rightBrace vs]
  | .node .program [.list vs] n => statementEdges vs ++ [n.edge .endOfInput vs]
  | .node _ children _ => edgesOf children
  | .list vs => edgesOf vs
  | _ => []

def edgesOf : List Value → List Edge
  | [] => []
  | v :: vs => edges v ++ edgesOf vs

/-- The edges of a list of statements, but for its last one, and those in it. -/
def statementEdges : List Value → List Edge
  | [] => []
  | v :: vs => .first v.start? :: (edges v ++ statementEdges vs)
end

mutual
/-- The comments of all nodes in a value, in the order of the source. -/
def remarks : Value → List Comment
  | .node _ children n =>
    n.comments.filter (·.leading) ++ remarksOf children ++ n.comments.filter (!·.leading)
  | .list vs => remarksOf vs
  | _ => []

def remarksOf : List Value → List Comment
  | [] => []
  | v :: vs => remarks v ++ remarksOf vs
end

section

variable {kind : Kind} {children vs : List Value} {n : Notes} {b : Bool} {t : Text}

@[simp] theorem edges_null : Value.null.edges = [] := rfl

@[simp] theorem edges_bool : (Value.bool b).edges = [] := rfl

@[simp] theorem edges_text : (Value.text t).edges = [] := rfl

@[simp] theorem edges_list : (Value.list vs).edges = edgesOf vs := rfl

@[simp] theorem remarks_null : Value.null.remarks = [] := rfl

@[simp] theorem remarks_bool : (Value.bool b).remarks = [] := rfl

@[simp] theorem remarks_text : (Value.text t).remarks = [] := rfl

@[simp] theorem remarks_list : (Value.list vs).remarks = remarksOf vs := rfl

/-- A node that encloses no list of statements has the edges of its children. -/
theorem edges_node
    (plain : ∀ vs, children = [.list vs] → kind ≠ .blockStatement ∧ kind ≠ .program) :
    (Value.node kind children n).edges = edgesOf children := by
  generalize made : Value.node kind children n = v
  unfold edges
  split <;> cases made
  · exact absurd rfl (plain _ rfl).1
  · exact absurd rfl (plain _ rfl).2
  · rfl
  · rename_i other _
    exact (other _ _ _ rfl).elim

end

/-- The comments before a token that a list of statements in a tree should take. -/
def carries (v : Value) (t : Token) : List Comment :=
  if .first (some t.start) ∈ v.edges then t.comments
  else if ∃ muffled, .last t.kind (some t.stop) muffled ∈ v.edges then t.trailing
  else []

/-- Whether a token ends a block that drops the comments inside it. -/
def muffles (v : Value) (t : Token) : Bool := .last t.kind (some t.stop) true ∈ v.edges

/-- The comments before a token that a list of statements in a tree takes. -/
def hears (v : Value) (t : Token) : List Comment := if v.muffles t then [] else v.carries t

end Value

namespace Grammar

open Value

variable {f g h : Feed} {p : Part} {v w : Value} {vs : List Value} {t : Token} {n : Notes}

/-- A token whose comments a list of statements takes. -/
inductive Border
  | first (t : Token)
  | last (t : Token) (muffled : Bool)

namespace Border

def token : Border → Token
  | first t | last t _ => t

def edge : Border → Edge
  | first t => .first (some t.start)
  | last t muffled => .last t.kind (some t.stop) muffled

def heard : Border → List Comment
  | first t => t.comments
  | last t muffled => if muffled then [] else t.trailing

end Border

theorem scalar_silent (scalar : v.isScalar) : v.edges = [] ∧ v.remarks = [] := by
  cases v <;> first | exact ⟨rfl, rfl⟩ | cases scalar

namespace Feed

/-- Some edges and comments are those of the borders among the tokens from a feed on up to another.
The borders stand where a third feed stands or after it. -/
def Gathers (f i g : Feed) (es : List Edge) (cs : List Comment) : Prop :=
  f.Genuine → f.Upto i ∧ i.Upto g ∧ ∃ bs : List Border,
    (bs.map Border.token ++ g.tokens).Sublist i.tokens ∧
      bs.map Border.edge = es ∧ bs.flatMap Border.heard = cs

variable {e i j : Feed} {es es' : List Edge} {cs cs' : List Comment}

theorem Gathers.none (before : f.Upto i) (after : i.Upto g) : f.Gathers i g [] [] :=
  fun _ => ⟨before, after, [], after.sublist, rfl, rfl⟩

theorem Gathers.link (first : f.Gathers i j es cs) (second : f.Gathers j h es' cs') :
    f.Gathers i h (es ++ es') (cs ++ cs') := by
  intro genuine
  obtain ⟨before, between, bs, front, rfl, rfl⟩ := first genuine
  obtain ⟨_, after, bs', back, rfl, rfl⟩ := second genuine
  refine ⟨before, between.trans after, bs ++ bs', ?_, List.map_append, List.flatMap_append⟩
  rw [List.map_append, List.append_assoc]
  exact (back.append_left _).trans front

/-- The borders are looked for among more tokens. -/
theorem Gathers.widen (gathers : e.Gathers i g es cs) (before : f.Upto e)
    (inside : e.Upto i → f.Upto j ∧ j.Upto i) (after : g.Upto h) : f.Gathers j h es cs := by
  intro genuine
  obtain ⟨within, between, bs, front, edges, heard⟩ := gathers (genuine.upto before)
  obtain ⟨first, inner⟩ := inside within
  refine ⟨first, inner.trans (between.trans after), bs, ?_, edges, heard⟩
  exact ((after.sublist.append_left _).trans front).trans inner.sublist

theorem Gathers.trans (first : f.Gathers i g es cs) (second : g.Gathers j h es' cs') :
    f.Gathers i h (es ++ es') (cs ++ cs') := by
  intro genuine
  obtain ⟨before, between, _⟩ := first genuine
  have upto := before.trans between
  exact first.link (second.widen upto (fun within => ⟨upto, within⟩) .refl) genuine

/-- A token is taken before. -/
theorem Gathers.step (gathers : f.next.Gathers i g es cs) : f.Gathers f.next g es cs :=
  gathers.widen upto_next (fun within => ⟨upto_next, within⟩) .refl

theorem Gathers.whole (gathers : f.Gathers i g es cs) : f.Gathers f g es cs :=
  gathers.widen .refl (fun within => ⟨.refl, within⟩) .refl

theorem Gathers.to (gathers : f.Gathers i g es cs) (after : g.Upto h) : f.Gathers i h es cs :=
  gathers.widen .refl (fun within => ⟨within, .refl⟩) after

/-- Whether `in` is an operator does not bear on the borders. -/
theorem Gathers.lift (gathers : f.lift.Gathers f.lift.next g es cs) : f.Gathers f.next g es cs :=
  gathers.widen upto_lift (fun _ => ⟨upto_next, next_upto_lift_next⟩) .refl

theorem Gathers.bar (gathers : f.bar.Gathers f.bar.next g es cs) : f.Gathers f.next g es cs :=
  gathers.widen upto_bar (fun _ => ⟨upto_next, by simp [Upto]⟩) .refl

theorem Genuine.scalar (genuine : f.Genuine) (within : f.current.kind ≠ .endOfInput) :
    f.current.value.isScalar := by
  have faithful := genuine.faithful.current
  have kinds : ∀ k : TokenKind, k = .endOfInput ∨ k = .ident ∨ k.isKeyword ∨
      k ∈ TokenKind.operators ∨ k = .number ∨ k = .string := by
    intro k
    cases k <;> decide
  obtain stop | name | word | operator | number := kinds f.current.kind
  · exact absurd stop within
  · obtain ⟨_, _, value, _⟩ := faithful.name name
    rw [value]
    rfl
  · rw [(faithful.word word).1]
    rfl
  · rw [faithful.operator operator]
    rfl
  · exact genuine.faithful.scalar number

/-- The value of a token has no borders. -/
theorem Gathers.value (gathers : f.Gathers i g es cs) (within : f.current.kind ≠ .endOfInput) :
    f.Gathers i g (f.current.value.edges ++ es) (f.current.value.remarks ++ cs) := by
  intro genuine
  obtain ⟨edges, remarks⟩ := scalar_silent (genuine.scalar within)
  rw [edges, remarks]
  exact gathers genuine

theorem gathers_value (within : f.current.kind ≠ .endOfInput) :
    f.Gathers f.next f.next f.current.value.edges f.current.value.remarks := by
  simpa using (Gathers.none upto_next .refl).value within

theorem gathers_spelled : f.Gathers f.next f.next f.spelled.edges f.spelled.remarks :=
  .none upto_next .refl

theorem gathers_literal (within : f.current.kind ≠ .endOfInput) :
    f.Gathers f.next f.next (f.literal f.current.value).edges
      (f.literal f.current.value).remarks := by
  simpa [literal, node, mapNotes, edges, edgesOf, remarks, remarksOf] using gathers_value within

/-- An operator and what it stands between. -/
theorem Gathers.operator (left : f.Gathers i g es cs) (right : g.next.Gathers j h es' cs')
    (within : g.current.kind ≠ .endOfInput) :
    f.Gathers i h (g.current.value.edges ++ (es ++ es'))
      (g.current.value.remarks ++ (cs ++ cs')) := by
  intro genuine
  have whole := left.trans right.step genuine
  obtain ⟨before, between, _⟩ := left genuine
  obtain ⟨edges, remarks⟩ :=
    scalar_silent ((genuine.upto (before.trans between)).scalar within)
  rw [edges, remarks]
  exact whole

/-- A border is the current token. -/
theorem gathers_border (b : Border) (current : b.token = f.current)
    (within : f.current.kind ≠ .endOfInput) : f.Gathers f f.next [b.edge] b.heard := by
  intro genuine
  refine ⟨.refl, upto_next, [b], ?_, rfl, by simp⟩
  rw [(genuine.closed.next within).2, List.map_singleton, current, List.singleton_append]

end Feed

/-- Where the first border in a part can stand. -/
def Part.inside (p : Part) (f : Feed) : Feed := if p.consumes then f.next else f

def Part.Gathers (p : Part) (f : Feed) (v : Value) (g : Feed) : Prop :=
  match p with
  | statements _ => ∀ vs, v = .list vs → f.Gathers f g (statementEdges vs) (remarksOf vs)
  | counted _ base | member _ base | members _ base | accesses _ base | operations _ _ base =>
    ∀ {e i : Feed}, e.Gathers i f base.edges base.remarks → e.Gathers i g v.edges v.remarks
  | _ => f.Gathers (p.inside f) g v.edges v.remarks

theorem Item.gathers {e : Item} :
    e.part.Gathers f v g ↔ f.Gathers f.next g v.edges v.remarks := by
  cases e <;> rfl

/-- Notes of the same reach, and of comments that muffle the same, leave the edges as they are. -/
theorem edges_mapNotes {change : Notes → Notes} (reach : (change v.notes).span = v.notes.span)
    (same : v.isHollow → (change v.notes).comments.any Comment.leading =
      v.notes.comments.any Comment.leading) : (v.mapNotes change).edges = v.edges := by
  cases v with
  | node kind children n =>
    simp only [mapNotes, notes] at reach same ⊢
    have same (vs : List Value) (hollow : (Value.node kind children n).isHollow = vs.isEmpty)
        (last : TokenKind) : (change n).edge last vs = n.edge last vs := by
      cases vs with
      | nil => simp [Notes.edge, reach, same hollow]
      | cons => simp [Notes.edge, reach]
    by_cases enclosure : ∃ vs, children = [.list vs] ∧ (kind = .blockStatement ∨ kind = .program)
    · obtain ⟨vs, rfl, rfl | rfl⟩ := enclosure <;>
        simp only [edges, same vs (by cases vs <;> rfl)]
    · have plain (vs : List Value) (list : children = [.list vs]) :
          kind ≠ .blockStatement ∧ kind ≠ .program :=
        not_or.mp fun closes => enclosure ⟨vs, list, closes⟩
      rw [edges_node plain, edges_node plain]
  | _ => rfl

theorem trailing_after {c : Comment} (mem : c ∈ t.trailing) : c.leading = false := by
  obtain ⟨_, _, rfl⟩ := List.mem_map.mp mem
  rfl

theorem trailing_any : t.trailing.any Comment.leading = false := by
  simpa using fun c mem => trailing_after mem

theorem trailing_before : t.trailing.filter (·.leading) = [] := by
  simpa using fun c mem => trailing_after mem

theorem trailing_filter : t.trailing.filter (!·.leading) = t.trailing := by
  simpa using fun c mem => trailing_after mem

theorem edges_attachTrailing : (attachTrailing t v).edges = v.edges := by
  refine edges_mapNotes rfl fun _ => ?_
  change (v.notes.comments ++ t.trailing).any _ = _
  rw [List.any_append, trailing_any, Bool.or_false]

theorem remarks_attachTrailing (node : v.isNode) :
    (attachTrailing t v).remarks = v.remarks ++ t.trailing := by
  cases v with
  | node kind children n =>
    have made : (attachTrailing t (Value.node kind children n)).remarks =
        (n.comments ++ t.trailing).filter (·.leading) ++ remarksOf children ++
          (n.comments ++ t.trailing).filter (!·.leading) := rfl
    rw [made, List.filter_append, List.filter_append, trailing_before, trailing_filter,
      List.append_nil, remarks, List.append_assoc, List.append_assoc, List.append_assoc]
  | _ => cases node

theorem start?_mapNotes {change : Notes → Notes} (reach : (change v.notes).span = v.notes.span) :
    (v.mapNotes change).start? = v.start? := by
  cases v with
  | node kind children n => exact congrArg (Option.map Span.start) reach
  | _ => rfl

/-- The comments after the last statement of a list are added to its remarks. -/
theorem listed_mapLast (nodes : ∀ e ∈ vs, e.isNode) (some : vs ≠ []) :
    statementEdges (mapLast (attachTrailing t) vs) = statementEdges vs ∧
      remarksOf (mapLast (attachTrailing t) vs) = remarksOf vs ++ t.trailing := by
  induction vs with
  | nil => exact absurd rfl some
  | cons v vs ih =>
    obtain ⟨node, nodes⟩ := List.forall_mem_cons.mp nodes
    cases vs with
    | nil =>
      have start : (attachTrailing t v).start? = v.start? := start?_mapNotes rfl
      simp [mapLast, statementEdges, remarksOf, start, edges_attachTrailing,
        remarks_attachTrailing node]
    | cons w vs =>
      obtain ⟨edges, remarks⟩ := ih nodes (List.cons_ne_nil w vs)
      constructor
      · simp only [mapLast, statementEdges] at edges ⊢
        rw [edges]
      · simp only [mapLast, remarksOf] at remarks ⊢
        rw [remarks]
        simp only [List.append_assoc]

/-- A node around a list of statements ends at a border, whose comments go to the last statement or,
without one, to the node. -/
theorem enclosed {kind : Kind} (start : Mark)
    (closer : kind = .blockStatement ∧ t.kind = .rightBrace ∨
      kind = .program ∧ t.kind = .endOfInput) (nodes : ∀ e ∈ vs, e.isNode) :
    let bare vs := Value.node kind [.list vs] { span := some ⟨start, some t.stop⟩ }
    let v := if vs.isEmpty then attachTrailing t (bare [])
      else bare (mapLast (attachTrailing t) vs)
    v.edges = statementEdges vs ++ [(Border.last t false).edge] ∧
      v.remarks = remarksOf vs ++ (Border.last t false).heard := by
  intro bare v
  have edges (ws : List Value) : (bare ws).edges =
      statementEdges ws ++ [(Border.last t false).edge] := by
    obtain ⟨rfl, kind⟩ | ⟨rfl, kind⟩ := closer <;>
      simp [bare, Value.edges, Notes.edge, Border.edge, kind]
  have remarks (ws : List Value) : (bare ws).remarks = remarksOf ws := by
    simp [bare, Value.remarks, remarksOf]
  cases vs with
  | nil =>
    constructor
    · exact edges_attachTrailing.trans (edges [])
    · exact (remarks_attachTrailing rfl).trans (congrArg (· ++ t.trailing) (remarks []))
  | cons w ws =>
    obtain ⟨listed, heard⟩ := listed_mapLast (t := t) nodes nofun
    constructor
    · exact (edges _).trans (congrArg (· ++ _) listed)
    · exact (remarks _).trans heard

theorem edges_made {kind : Kind} {children : List Value} {start : Mark}
    (block : kind ≠ .blockStatement) (program : kind ≠ .program) :
    (f.node kind children start).edges = edgesOf children :=
  edges_node fun _ _ => ⟨block, program⟩

theorem remarks_made {kind : Kind} {children : List Value} {start : Mark} :
    (f.node kind children start).remarks = remarksOf children :=
  List.append_nil _

/-- A statement starts at the token at which it is read. -/
theorem Reads.statement_start (read : Reads .statement f v g) :
    v.start? = some f.current.start := by
  cases read with
  | blockStatement inner => cases inner <;> rfl
  | functionDeclaration inner =>
    cases inner
    rfl
  | variableDeclaration inner =>
    cases inner
    rfl
  | forBare _ _ _ rest | forCounted _ _ _ _ _ rest =>
    cases rest
    rfl
  | _ => rfl

/-- A statement that is hollow is a block of two braces. -/
theorem Reads.statement_hollow (read : Reads .statement f v g) (hollow : v.isHollow) :
    f.next.current.kind = .rightBrace ∧ g = f.next.next ∧
      v = attachTrailing f.next.current
        (f.next.next.node .blockStatement [.list []] f.current.start) := by
  cases read with
  | blockStatement inner =>
    cases inner with
    | blockEmpty _ close => exact ⟨close, rfl, rfl⟩
    | @block _ _ w ws => cases ws <;> cases hollow
  | functionDeclaration inner =>
    cases inner
    cases hollow
  | variableDeclaration inner =>
    cases inner
    cases hollow
  | forBare _ _ _ rest | forCounted _ _ _ _ _ rest =>
    cases rest
    cases hollow
  | _ => cases hollow

theorem Feed.Genuine.leading (genuine : f.Genuine) :
    f.current.comments.filter (·.leading) = f.current.comments ∧
      f.current.comments.filter (!·.leading) = [] := by
  have leading : ∀ c ∈ f.current.comments, c.leading :=
    fun c mem => (genuine.faithful.current.comments c mem).2
  constructor
  · simpa using leading
  · simpa using leading

/-- A statement in a list, with the comments before it: they take the place of those inside a block
without statements. -/
theorem Feed.Gathers.led (read : Reads .statement f v g)
    (gathers : f.Gathers f.next g v.edges v.remarks) (within : f.current.kind ≠ .endOfInput) :
    f.Gathers f g (.first (attachLeading f.current.comments v).start? ::
        (attachLeading f.current.comments v).edges)
      (attachLeading f.current.comments v).remarks := by
  intro genuine
  have start : (attachLeading f.current.comments v).start? = some f.current.start := by
    rw [← read.statement_start, attachLeading]
    split
    · rfl
    · exact start?_mapNotes rfl
  have first := Feed.gathers_border (.first f.current) rfl within
  rw [start]
  cases comments : f.current.comments.isEmpty with
  | true =>
    have plain : attachLeading f.current.comments v = v := if_pos comments
    have none : f.current.comments = [] := List.isEmpty_iff.mp comments
    have whole := first.link gathers genuine
    rw [Border.heard, none] at whole
    rwa [plain]
  | false =>
    have led : attachLeading f.current.comments v =
        v.mapNotes ({ · with comments := f.current.comments }) := if_neg (by simp [comments])
    rw [led]
    have stated := read.yields genuine.faithful
    cases hollow : v.isHollow with
    | true =>
      obtain ⟨close, rfl, rfl⟩ := read.statement_hollow hollow
      have last := Feed.gathers_border (.last f.next.current true) rfl (kind_ne close (by decide))
      have whole := first.trans last genuine
      obtain ⟨c, mem⟩ := List.exists_mem_of_ne_nil f.current.comments (by simpa using comments)
      have any : f.current.comments.any Comment.leading :=
        List.any_eq_true.mpr ⟨c, mem, (genuine.faithful.current.comments c mem).2⟩
      simpa [attachTrailing, Feed.node, mapNotes, edges, statementEdges, remarks, remarksOf,
        Notes.edge, Border.edge, Border.heard, genuine.leading, any, close] using whole
    | false =>
      have silent : v.comments = [] := by
        have alone := stated.alone
        rwa [Value.Alone, if_neg (by simp [hollow])] at alone
      have whole := first.link gathers genuine
      have edges : (v.mapNotes ({ · with comments := f.current.comments })).edges = v.edges :=
        edges_mapNotes rfl (by simp [hollow])
      have remarks : (v.mapNotes ({ · with comments := f.current.comments })).remarks =
          f.current.comments ++ v.remarks := by
        cases v with
        | node kind children n =>
          have none : n.comments = [] := silent
          simp [mapNotes, Value.remarks, genuine.leading, none]
        | _ => cases stated.conforms.isNode
      rwa [edges, remarks]

theorem Reads.gathers (read : Reads p f v g) : p.Gathers f v g := by
  induction read with
    simp only [Part.Gathers, Part.inside, Part.consumes, ↓reduceIte, Bool.false_eq_true, edges_made,
      remarks_made, ne_eq, reduceCtorEq, not_false_eq_true, edges_list, edges_null, edges_bool,
      edges_text, remarks_list, remarks_null, remarks_bool, remarks_text, edgesOf, remarksOf,
      List.append_nil, List.nil_append] at *
  | commasLast _ _ ih => exact Item.gathers.mp ih
  | commasMore _ _ _ ih more => exact (Item.gathers.mp ih).trans more.step
  | closedNone | elementsNone | optionalNone | handlerNone | finalizerNone | labelNone =>
    exact .none .refl .refl
  | closedLast _ _ _ ih => exact (Item.gathers.mp ih).whole
  | closedMore _ _ _ _ ih more => exact (Item.gathers.mp ih).whole.trans more.step.whole
  | operationsStop | membersStop | accessesStop => exact id
  | nested _ ih | group _ ih => exact ih.lift
  | single _ _ ih | arrowFunction _ _ ih | unassigned _ _ _ ih
  | arrowName _ ih | arrowNames _ _ ih | untested _ _ ih | unsigned _ _ _ ih | unstepped _ _ ih
  | headNew _ _ ih | headPrimary _ _ ih | functionExpression _ ih | declaratorBare _ _ ih
  | blockStatement _ ih | functionDeclaration _ ih | loopInitDeclaration _ _ ih
  | loopInitExpression _ _ ih => exact ih
  | optionalSome _ _ ih | labelSome _ _ ih => exact ih.whole
  | sequence _ _ _ first more => exact first.trans more.step
  | arrowBlock _ _ _ _ params body | arrowValue _ _ _ _ params body => exact params.trans body.step
  | assigned _ _ operator _ _ left right =>
    exact left.operator right (kind_apart operator rfl)
  | tested _ _ _ _ _ test left right => exact test.trans (left.step.trans right.step)
  | binary _ _ first more | access _ _ first more => exact more first
  | membersMore _ _ first more
  | accessesMember _ _ first more => exact fun base => more (first base)
  | accessesCall _ _ args more => exact fun base => more (base.trans args)
  | binding ident | name ident => exact Feed.gathers_value (kind_ne ident (by decide))
  | propertyName => exact Feed.gathers_spelled
  | operationsMore ranked _ _ _ right more =>
    intro e i base
    refine more ?_
    rw [edges_made (by unfold operationKind; split <;> simp)
      (by unfold operationKind; split <;> simp)]
    simpa [edgesOf] using base.operator right (Feed.rank?_ne ranked rfl)
  | unaryOperator operator _ ih => exact ih.step.value (kind_apart operator rfl)
  | stepBefore _ operator _ _ ih =>
    exact ih.step.value (kind_apart operator rfl)
  | stepAfter _ operator _ _ ih =>
    simpa using ih.operator (.none .refl .refl) (kind_apart operator rfl)
  | memberNamed _ _ ih => exact fun base => base.trans ih.step
  | memberIndexed _ _ _ ih => exact fun base => (base.trans ih.step).to Feed.upto_next
  | constructionCall _ _ _ _ first more args => exact (more first.step).trans args
  | constructionBare _ _ _ _ first more => exact more first.step
  | arguments _ _ _ ih | parenthesized _ _ _ ih | array _ _ _ ih | object _ _ _ ih
  | parameters _ _ _ ih => exact ih.step.to Feed.upto_next
  | numberOrString scalar =>
    exact Feed.gathers_literal (scalar.elim (kind_ne · (by decide)) (kind_ne · (by decide)))
  | wordTrue | wordFalse | wordNull | wordThis | emptyStatement =>
    exact .none Feed.upto_next .refl
  | elementsHole _ _ ih => exact ih.step.whole
  | elementsLast _ _ _ _ ih => exact ih.whole
  | elementsMore _ _ _ _ _ item more => exact item.whole.trans more.step
  | propertyComputed _ _ _ _ _ key value => exact key.step.trans value.step.step
  | propertyLiteral key _ _ value =>
    exact (Feed.gathers_literal (key.elim (kind_ne · (by decide)) (kind_ne · (by decide)))).trans
      value.step
  | propertyNamed _ _ _ key value => exact key.trans value.step
  | propertyShort key =>
    exact Feed.gathers_spelled.link
      (Feed.gathers_value (kind_ne key (by decide)))
  | functionNamed _ _ _ _ name params body =>
    rw [edges_made (by split <;> simp) (by split <;> simp)]
    simpa [edgesOf] using name.step.trans (params.trans body)
  | functionUnnamed _ _ _ _ params body => exact params.step.trans body
  | statementsNone =>
    rintro _ ⟨⟩
    exact .none .refl .refl
  | statementsMore _ within first _ ih more =>
    rintro _ ⟨⟩
    exact (Feed.Gathers.led first ih within).trans (more _ rfl)
  | @blockEmpty f _ close =>
    have nodes : ∀ e ∈ ([] : List Value), e.isNode := List.forall_mem_nil _
    obtain ⟨edges, remarks⟩ := enclosed f.current.start (.inl ⟨rfl, close⟩) nodes
    have last := Feed.gathers_border (.last f.next.current false) rfl (kind_ne close (by decide))
    rw [Feed.node, Feed.next_prev]
    exact edges ▸ remarks ▸ last.step
  | @block f g v vs _ body close ih =>
    intro genuine
    obtain ⟨_, ⟨⟩, items, _⟩ := body.yields genuine.next.lift.faithful
    have nodes : ∀ e ∈ v :: vs, e.isNode := fun e mem => (items e mem).isNode
    have edges := (enclosed f.current.start (.inl ⟨rfl, close⟩) nodes).1
    have remarks : remarksOf (mapLast (attachTrailing g.current) (v :: vs)) =
        remarksOf (v :: vs) ++ (Border.last g.current false).heard :=
      (listed_mapLast nodes (List.cons_ne_nil v vs)).2
    have last := Feed.gathers_border (.last g.current false) rfl (kind_ne close (by decide))
    have whole := ((ih _ rfl).trans last).widen (f := f) (j := f.next) (h := (g.resume f).next)
      Feed.upto_next (fun _ => ⟨Feed.upto_next, Feed.upto_lift⟩) Feed.next_upto_resume_next
    rw [← edges, ← remarks] at whole
    rw [Feed.node, Feed.next_prev]
    exact whole genuine
  | declaratorInit _ _ _ name init => exact name.trans init.step
  | declaration _ _ ih => exact ih.step
  | variableDeclaration _ stop ih | expressionStatement _ _ stop ih => exact ih.to stop.upto
  | ifShort _ _ _ _ _ _ test left => exact test.step.step.trans left.step
  | ifElse _ _ _ _ _ _ _ test left right =>
    exact test.step.step.trans (left.step.trans right.step)
  | counted _ _ _ _ _ _ test update body =>
    exact fun base => base.trans (test.step.trans (update.step.trans body.step))
  | forBare _ _ _ _ rest => exact rest (.none Feed.upto_next Feed.upto_next)
  | forCounted _ _ _ _ _ _ init rest => exact rest init.bar.step.step
  | forIn _ _ _ _ _ _ _ _ _ left right body
  | forOf _ _ _ _ _ _ _ _ _ _ left right body =>
    exact left.bar.step.step.trans (right.step.lift.trans body.step)
  | whileStatement _ _ _ _ _ test body => exact test.step.step.trans body.step
  | doWhile _ _ _ _ _ _ stop body test =>
    subst stop
    have loop := (body.step.trans test.step.step).to Feed.upto_next
    split
    · exact loop.to Feed.upto_next
    · exact loop
  | handlerBare _ _ _ ih | finalizerSome _ _ ih => exact ih.step.whole
  | handlerNamed _ _ _ _ _ name body => exact (name.step.step.trans body.step).whole
  | tryStatement _ _ _ _ _ guarded handler finalizer =>
    exact guarded.step.trans (handler.trans finalizer)
  | returnBare _ _ stop => exact .none Feed.upto_next stop.upto
  | returnValue _ _ _ stop ih | throwStatement _ _ _ stop ih | breakStatement _ _ stop ih
  | continueStatement _ _ stop ih => exact ih.step.to stop.upto

/-- The borders of a program are among its tokens. -/
theorem programOf_gathers (read : Reads (.statements .endOfInput) f (.list vs) g)
    (genuine : f.Genuine) : ∃ bs : List Border, (bs.map Border.token).Sublist f.tokens ∧
      bs.map Border.edge = (programOf f g vs).edges ∧
      bs.flatMap Border.heard = (programOf f g vs).remarks := by
  obtain ⟨_, ⟨⟩, items, _⟩ := read.yields genuine.faithful
  obtain ⟨edges, remarks⟩ := enclosed f.current.start
    (.inr ⟨rfl, read.statements_stop⟩) fun e mem => (items e mem).isNode
  obtain ⟨_, _, bs, sub, inside, heard⟩ := read.gathers _ rfl genuine
  refine ⟨bs ++ [.last g.current false], ?_, ?_, ?_⟩
  · have last : [g.current].Sublist g.tokens := (List.nil_sublist _).cons_cons _
    rw [List.map_append]
    exact (last.append_left _).trans sub
  · rw [List.map_append, inside]
    exact edges.symm
  · rw [List.flatMap_append, heard, List.flatMap_singleton]
    exact remarks.symm

end Grammar

/-- A token is before another one. Their ends tell them apart if they are of one class; the end of
input ends where the last token before it may end too. -/
def Token.Before (t u : Token) : Prop :=
  t.start.offset < u.start.offset ∧ (t.kind = u.kind → t.stop.offset < u.stop.offset)

section

variable {source : Text} {before : Nat} {tokens : List Token} {t u : Token}

theorem Covers.beyond (covers : Covers source before tokens) (mem : t ∈ tokens) :
    before ≤ t.start.offset ∧ (t.kind ≠ .endOfInput → t.start.offset < t.stop.offset) := by
  induction covers with
  | last stands kind =>
    rw [List.mem_singleton.mp mem]
    exact ⟨stands.order, absurd kind⟩
  | more stands _ some _ ih =>
    rcases List.mem_cons.mp mem with rfl | later
    · exact ⟨stands.order, fun _ => some⟩
    · have order := stands.order
      have beyond := ih later
      exact ⟨by omega, beyond.2⟩

theorem Covers.ordered (covers : Covers source before tokens) : tokens.Pairwise Token.Before := by
  induction covers with
  | last => exact List.pairwise_singleton ..
  | more _ kind some rest ih =>
    refine List.pairwise_cons.mpr ⟨fun u mem => ?_, ih⟩
    obtain ⟨beyond, length⟩ := rest.beyond mem
    refine ⟨by omega, fun same => ?_⟩
    have := length (same ▸ kind)
    omega

theorem tokenize_ordered (scanned : tokenize source = .ok tokens) :
    tokens.Pairwise Token.Before :=
  (tokenize_runs scanned).covers_source.ordered

theorem start_inj (ordered : tokens.Pairwise Token.Before) (left : t ∈ tokens) (right : u ∈ tokens)
    (same : t.start = u.start) : t = u := by
  refine List.inj_on_of_nodup_map (List.Pairwise.map _ ?_ ordered) left right same
  rintro x y ⟨start, _⟩ same
  exact absurd (congrArg Mark.offset same) start.ne

theorem stop_inj (ordered : tokens.Pairwise Token.Before) (left : t ∈ tokens) (right : u ∈ tokens)
    (kind : t.kind = u.kind) (same : t.stop = u.stop) : t = u := by
  have pair : (t.kind, t.stop) = (u.kind, u.stop) := by rw [kind, same]
  refine List.inj_on_of_nodup_map (f := fun t : Token => (t.kind, t.stop))
    (List.Pairwise.map _ ?_ ordered) left right pair
  rintro x y ⟨_, stop⟩ same
  obtain ⟨kind, same⟩ := Prod.mk.inj same
  exact absurd (congrArg Mark.offset same) (stop kind).ne

end

section

variable {α β : Type} {xs ys : List α} {f g : α → List β}

/-- Items of a list for which a function gives nothing can be left out. -/
theorem flatMap_sublist (sub : xs.Sublist ys) (nodup : ys.Nodup)
    (silent : ∀ y ∈ ys, y ∉ xs → f y = []) : ys.flatMap f = xs.flatMap f := by
  induction sub with
  | slnil => rfl
  | cons y sub ih =>
    obtain ⟨fresh, nodup⟩ := List.nodup_cons.mp nodup
    obtain ⟨here, silent⟩ := List.forall_mem_cons.mp silent
    rw [List.flatMap_cons, here fun mem => fresh (sub.subset mem), ih nodup silent, List.nil_append]
  | cons_cons y sub ih =>
    obtain ⟨fresh, nodup⟩ := List.nodup_cons.mp nodup
    rw [List.flatMap_cons, List.flatMap_cons, ih nodup]
    intro z mem other
    refine silent z (List.mem_cons_of_mem _ mem) fun inside => ?_
    rcases List.mem_cons.mp inside with rfl | inside
    · exact fresh mem
    · exact other inside

/-- What gives less everywhere gives as much in all only if it gives the same everywhere. -/
theorem flatMap_eq_iff (short : ∀ x, (f x).length ≤ (g x).length) :
    xs.flatMap f = xs.flatMap g ↔ ∀ x ∈ xs, f x = g x := by
  have shorter (xs : List α) : (xs.flatMap f).length ≤ (xs.flatMap g).length := by
    induction xs with
    | nil => exact Nat.le_refl _
    | cons x xs ih =>
      have := short x
      simp only [List.flatMap_cons, List.length_append]
      omega
  induction xs with
  | nil => simp
  | cons x xs ih =>
    rw [List.flatMap_cons, List.flatMap_cons, List.forall_mem_cons]
    constructor
    · intro same
      have length := congrArg List.length same
      have := short x
      have := shorter xs
      simp only [List.length_append] at length
      obtain ⟨here, rest⟩ := List.append_inj same (by omega)
      exact ⟨here, ih.mp rest⟩
    · rintro ⟨here, rest⟩
      rw [here, ih.mpr rest]

end

namespace Grammar

open Value

structure Bounds (v : Value) (tokens : List Token) (bs : List Border) : Prop where
  ordered : tokens.Pairwise Token.Before
  sub : (bs.map Border.token).Sublist tokens
  edges : bs.map Border.edge = v.edges

namespace Bounds

variable {v : Value} {tokens : List Token} {t : Token} {bs : List Border} {b c : Border}

theorem nodup (bounds : Bounds v tokens bs) : tokens.Nodup :=
  bounds.ordered.imp fun before same => absurd (congrArg (·.start.offset) same) before.1.ne

theorem mem_tokens (bounds : Bounds v tokens bs) (mem : b ∈ bs) : b.token ∈ tokens :=
  bounds.sub.subset (List.mem_map_of_mem mem)

theorem alone (bounds : Bounds v tokens bs) (left : b ∈ bs) (right : c ∈ bs)
    (same : b.token = c.token) : b = c :=
  List.inj_on_of_nodup_map (bounds.nodup.sublist bounds.sub) left right same

theorem first_mem (bounds : Bounds v tokens bs) (mem : t ∈ tokens) :
    .first (some t.start) ∈ v.edges ↔ .first t ∈ bs := by
  rw [← bounds.edges]
  constructor
  · intro edge
    obtain ⟨b, inside, same⟩ := List.mem_map.mp edge
    cases b with
    | last => cases same
    | first u =>
      have start : u.start = t.start := by simpa [Border.edge] using same
      rwa [start_inj bounds.ordered mem (bounds.mem_tokens inside) start.symm]
  · exact fun inside => List.mem_map_of_mem (f := Border.edge) inside

theorem last_mem (bounds : Bounds v tokens bs) (mem : t ∈ tokens) {muffled : Bool} :
    .last t.kind (some t.stop) muffled ∈ v.edges ↔ .last t muffled ∈ bs := by
  rw [← bounds.edges]
  constructor
  · intro edge
    obtain ⟨b, inside, same⟩ := List.mem_map.mp edge
    cases b with
    | first => cases same
    | last u m =>
      obtain ⟨kind, stop, rfl⟩ : u.kind = t.kind ∧ u.stop = t.stop ∧ m = muffled := by
        simpa [Border.edge] using same
      rwa [stop_inj bounds.ordered mem (bounds.mem_tokens inside) kind.symm stop.symm]
  · exact fun inside => List.mem_map_of_mem (f := Border.edge) inside

theorem muffles_iff (bounds : Bounds v tokens bs) (mem : t ∈ tokens) :
    v.muffles t ↔ .last t true ∈ bs := by
  rw [muffles, decide_eq_true_eq, bounds.last_mem mem]

/-- What is heard at a border is what the tree hears of its token. -/
theorem hears (bounds : Bounds v tokens bs) (mem : b ∈ bs) : v.hears b.token = b.heard := by
  have only {c : Border} (apart : c ≠ b) (same : c.token = b.token) : c ∉ bs :=
    fun other => apart (bounds.alone other mem same)
  cases b with
  | first t =>
    have inside : t ∈ tokens := bounds.mem_tokens mem
    have loud : ¬v.muffles t := (bounds.muffles_iff inside).not.mpr (only nofun rfl)
    change v.hears t = _
    rw [Value.hears, if_neg loud, carries, if_pos ((bounds.first_mem inside).mpr mem)]
    rfl
  | last t muffled =>
    have inside : t ∈ tokens := bounds.mem_tokens mem
    have later : .first (some t.start) ∉ v.edges :=
      (bounds.first_mem inside).not.mpr (only nofun rfl)
    change v.hears t = _
    cases muffled with
    | true =>
      rw [Value.hears, if_pos ((bounds.muffles_iff inside).mpr mem)]
      rfl
    | false =>
      have loud : ¬v.muffles t := (bounds.muffles_iff inside).not.mpr (only nofun rfl)
      rw [Value.hears, if_neg loud, carries, if_neg later,
        if_pos ⟨false, (bounds.last_mem inside).mpr mem⟩]
      rfl

/-- Nothing is heard of other tokens. -/
theorem silent (bounds : Bounds v tokens bs) (mem : t ∈ tokens)
    (other : t ∉ bs.map Border.token) : v.hears t = [] := by
  have apart {b : Border} (same : b.token = t) : b ∉ bs :=
    fun inside => other (List.mem_map.mpr ⟨b, inside, same⟩)
  have first : .first (some t.start) ∉ v.edges := (bounds.first_mem mem).not.mpr (apart rfl)
  have last : ¬∃ muffled, .last t.kind (some t.stop) muffled ∈ v.edges := by
    rintro ⟨muffled, edge⟩
    exact apart rfl ((bounds.last_mem mem).mp edge)
  rw [Value.hears, carries, if_neg first, if_neg last, ite_self]

theorem flatMap_heard (bounds : Bounds v tokens bs) :
    bs.flatMap Border.heard = tokens.flatMap v.hears := by
  rw [flatMap_sublist bounds.sub bounds.nodup fun t mem => bounds.silent mem, List.flatMap_map]
  exact List.flatMap_congr fun b mem => (bounds.hears mem).symm

end Bounds

end Grammar

open Grammar Value

variable {source : Text} {v : Value} {tokens : List Token} {t : Token}

theorem Value.hears_length_le : (v.hears t).length ≤ (v.carries t).length := by
  unfold hears
  split
  · exact Nat.zero_le _
  · exact Nat.le_refl _

theorem Value.hears_eq_iff : v.hears t = v.carries t ↔ (v.muffles t → t.comments = []) := by
  cases muffled : v.muffles t with
  | false => simp [hears, muffled]
  | true =>
    have last : ∃ muffled, .last t.kind (some t.stop) muffled ∈ v.edges :=
      ⟨true, of_decide_eq_true muffled⟩
    rw [hears, if_pos muffled, carries, if_pos last, eq_comm]
    split <;> simp [Token.trailing]

/-- The comments in a tree are those that its lists of statements hear, token by token and in the
order of the source. None that they should take is lost just if no block without statements has both
a comment before it and one inside. -/
theorem parse_hears (parsed : parse source = .ok v) (scanned : tokenize source = .ok tokens) :
    v.remarks = tokens.flatMap v.hears ∧
      (v.remarks = tokens.flatMap v.carries ↔ ∀ t ∈ tokens, v.muffles t → t.comments = []) := by
  obtain ⟨_, vs, g, scan, read, rfl⟩ := parse_reads.mp parsed
  cases scanned.symm.trans scan
  have closed := tokenize_closed scanned
  have genuine : (Feed.ofTokens tokens).Genuine := by
    constructor
    · rwa [Feed.Closed, tokens_ofTokens closed]
    · rw [Feed.Faithful, tokens_ofTokens closed]
      exact tokenize_faithful scanned
  obtain ⟨bs, sub, edges, heard⟩ := programOf_gathers read genuine
  rw [tokens_ofTokens closed] at sub
  have bounds : Bounds _ tokens bs := ⟨tokenize_ordered scanned, sub, edges⟩
  have remarks := heard.symm.trans bounds.flatMap_heard
  refine ⟨remarks, ?_⟩
  rw [remarks, flatMap_eq_iff fun _ => hears_length_le]
  exact forall₂_congr fun t _ => hears_eq_iff

/-- A block with one comment before it and one inside loses the one inside. -/
theorem parse_muffles : ∃ tokens v, tokenize (text "/*a*/ {/*b*/}") = .ok tokens ∧
    parse (text "/*a*/ {/*b*/}") = .ok v ∧ v.remarks ≠ tokens.flatMap v.carries := by
  have lost : ((tokenize (text "/*a*/ {/*b*/}")).toOption.any fun tokens =>
      (parse (text "/*a*/ {/*b*/}")).toOption.any fun v =>
        decide (v.remarks ≠ tokens.flatMap v.carries)) = true := by decide +kernel
  cases scanned : tokenize (text "/*a*/ {/*b*/}") with
  | error e => rw [scanned] at lost; cases lost
  | ok tokens =>
    cases parsed : parse (text "/*a*/ {/*b*/}") with
    | error e => rw [scanned, parsed] at lost; cases lost
    | ok v =>
      rw [scanned, parsed] at lost
      exact ⟨tokens, v, rfl, rfl, of_decide_eq_true lost⟩

/-- Comments before a statement, in a block without statements, and at the end of the source. -/
theorem parse_hears_block : ∃ tokens v, tokenize (text "/*a*/ a; {/*b*/} /*c*/") = .ok tokens ∧
    parse (text "/*a*/ a; {/*b*/} /*c*/") = .ok v ∧ v.remarks = tokens.flatMap v.hears ∧
      (v.remarks = tokens.flatMap v.carries ↔ ∀ t ∈ tokens, v.muffles t → t.comments = []) := by
  have accepted : (parse (text "/*a*/ a; {/*b*/} /*c*/")).toOption.isSome = true := by
    decide +kernel
  cases parsed : parse (text "/*a*/ a; {/*b*/} /*c*/") with
  | error e => rw [parsed] at accepted; cases accepted
  | ok v =>
    obtain ⟨tokens, scanned, _⟩ := parse_ok.mp parsed
    exact ⟨tokens, v, scanned, rfl, parse_hears parsed scanned⟩

end ScriptTree
