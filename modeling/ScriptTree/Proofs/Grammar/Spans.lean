import ScriptTree.Proofs.Grammar.Remarks
import ScriptTree.Proofs.Path.Extents

/-!
The spans of parsed trees. Every node reaches from the token at which its part begins to the last
token that has been taken for it. Tokens stand in their source one after the other, so that the
nodes in the fields of a node lie within it, in turn.
-/
namespace ScriptTree

open Value

/-- Tokens stand one after the other, each before the next one; the last one is empty. -/
def InOrder : List Token → Prop
  | [] => True
  | [t] => t.stop.offset = t.start.offset
  | t :: u :: rest =>
    t.start.offset ≤ t.stop.offset ∧ t.stop.offset ≤ u.start.offset ∧ InOrder (u :: rest)

theorem Covers.inOrder {source : Text} {before : Nat} {tokens : List Token}
    (covers : Covers source before tokens) : InOrder tokens := by
  induction covers with
  | last _ _ start stop => exact stop.trans start.symm
  | @more _ _ rest _ _ some covers ih =>
    cases rest with
    | nil => cases covers
    | cons u rest => exact ⟨some.le, (covers.beyond List.mem_cons_self).1, ih⟩

theorem InOrder.suffix {tokens ts : List Token} (order : InOrder tokens) (after : ts <:+ tokens) :
    InOrder ts := by
  induction tokens with
  | nil =>
    rw [List.suffix_nil.mp after]
    trivial
  | cons t tokens ih =>
    rcases List.suffix_cons_iff.mp after with rfl | after
    · exact order
    · cases tokens with
      | nil => exact ih trivial after
      | cons => exact ih order.2.2 after

theorem Covers.stop_le {source : Text} {before : Nat} {tokens : List Token} {t : Token}
    (covers : Covers source before tokens) (mem : t ∈ tokens) (last : t.kind = .endOfInput) :
    t.stop.offset = source.length := by
  induction covers with
  | last _ _ _ stop =>
    rw [List.mem_singleton.mp mem]
    exact stop
  | more _ kind _ _ ih =>
    rcases List.mem_cons.mp mem with rfl | mem
    · exact absurd last kind
    · exact ih mem

namespace Grammar

variable {e f g h : Feed} {p : Part} {lo hi : Nat} {v w : Value} {vs ws us : List Value}

namespace Feed

theorem next_lift : f.lift.next = f.next.lift := by
  obtain ⟨_, _, _ | ⟨_, _⟩, _⟩ := f <;> rfl

theorem next_resume : (f.resume g).next = f.next.resume g := by
  obtain ⟨_, _, _ | ⟨_, _⟩, _⟩ := f <;> rfl

structure Ready (f : Feed) : Prop where
  genuine : f.Genuine
  order : InOrder f.tokens

structure Steady (f : Feed) : Prop extends f.Ready where
  before : f.prev.stop.offset ≤ f.current.start.offset

theorem Ready.start_le (ready : f.Ready) : f.current.start.offset ≤ f.current.stop.offset := by
  obtain ⟨_, _, _ | ⟨_, _⟩, _⟩ := f
  · exact ready.order.ge
  · exact ready.order.1

theorem Ready.next (ready : f.Ready) : f.next.Steady := by
  refine ⟨⟨ready.genuine.next, ?_⟩, ?_⟩ <;> obtain ⟨_, order⟩ := ready <;>
    obtain ⟨_, _, _ | ⟨_, _⟩, _⟩ := f
  · exact order
  · exact order.2.2
  · exact Nat.le_of_eq order
  · exact order.2.1

/-- From an offset on up to the last token that has been taken between two feeds, the nodes in some
values lie in turn. -/
def Holds (f g : Feed) (lo : Nat) (vs : List Value) : Prop :=
  f.Ready → g.Steady ∧ InTurn lo g.prev.stop.offset vs

/-- The nodes in some values lie in turn between the last tokens taken before two feeds. -/
def Adds (f g : Feed) (vs : List Value) : Prop :=
  f.Steady → g.Steady ∧ InTurn f.prev.stop.offset g.prev.stop.offset vs

theorem Ready.same (ready : f.Ready) (same : g.tokens = f.tokens) : g.Ready :=
  ⟨ready.genuine.upto (same ▸ List.suffix_rfl : g.tokens <:+ f.tokens), same ▸ ready.order⟩

theorem ready_lift : f.lift.Ready ↔ f.Ready := ⟨(·.same rfl), (·.same rfl)⟩

theorem ready_bar : f.bar.Ready ↔ f.Ready := ⟨(·.same rfl), (·.same rfl)⟩

theorem steady_lift : f.lift.Steady ↔ f.Steady :=
  ⟨fun steady => ⟨ready_lift.1 steady.toReady, steady.before⟩,
    fun steady => ⟨ready_lift.2 steady.toReady, steady.before⟩⟩

theorem steady_resume : (f.resume g).Steady ↔ f.Steady :=
  ⟨fun steady => ⟨steady.toReady.same rfl, steady.before⟩,
    fun steady => ⟨steady.toReady.same rfl, steady.before⟩⟩

theorem holds_lift : f.lift.Holds g lo vs ↔ f.Holds g lo vs := by rw [Holds, Holds, ready_lift]

theorem holds_bar : f.bar.Holds g lo vs ↔ f.Holds g lo vs := by rw [Holds, Holds, ready_bar]

theorem holds_to_lift : f.Holds g.lift lo vs ↔ f.Holds g lo vs := by
  rw [Holds, Holds, steady_lift, lift_prev]

theorem holds_to_resume : f.Holds (g.resume h) lo vs ↔ f.Holds g lo vs := by
  rw [Holds, Holds, steady_resume, resume_prev]

theorem adds_lift : f.lift.Adds g vs ↔ f.Adds g vs := by rw [Adds, Adds, steady_lift, lift_prev]

theorem node_resume {kind : Kind} {start : Mark} :
    (f.resume g).node kind vs start = f.node kind vs start := rfl

theorem Adds.nil : f.Adds f [] := fun steady => ⟨steady, Nat.le_refl _⟩

theorem Holds.adds (holds : f.Holds g f.current.start.offset vs) : f.Adds g vs := by
  intro steady
  obtain ⟨after, lie⟩ := holds steady.toReady
  exact ⟨after, InTurn.wider vs lie steady.before (Nat.le_refl _)⟩

/-- A token is taken before. -/
theorem Adds.step (adds : f.next.Adds g vs) : f.Holds g f.current.start.offset vs := by
  intro ready
  obtain ⟨after, lie⟩ := adds ready.next
  rw [next_prev] at lie
  exact ⟨after, InTurn.wider vs lie ready.start_le (Nat.le_refl _)⟩

theorem Adds.skip (adds : f.next.Adds g vs) : f.Adds g vs := adds.step.adds

theorem Holds.step (holds : f.next.Holds g f.next.current.start.offset vs) :
    f.Holds g f.current.start.offset vs :=
  holds.adds.step

theorem Holds.skip (holds : f.next.Holds g f.next.current.start.offset vs) : f.Adds g vs :=
  holds.step.adds

theorem Holds.trans (first : f.Holds g lo vs) (second : g.Adds h ws) :
    f.Holds h lo (vs ++ ws) := by
  intro ready
  obtain ⟨steady, before⟩ := first ready
  obtain ⟨after, behind⟩ := second steady
  exact ⟨after, inTurn_append.mpr ⟨_, before, behind⟩⟩

theorem Adds.trans (first : f.Adds g vs) (second : g.Adds h ws) : f.Adds h (vs ++ ws) := by
  intro steady
  obtain ⟨steady, before⟩ := first steady
  obtain ⟨after, behind⟩ := second steady
  exact ⟨after, inTurn_append.mpr ⟨_, before, behind⟩⟩

/-- One more token is taken after. -/
theorem Holds.to (holds : f.Holds g lo vs) : f.Holds g.next lo vs := by
  intro ready
  obtain ⟨steady, lie⟩ := holds ready
  refine ⟨steady.next, InTurn.wider vs lie (Nat.le_refl _) ?_⟩
  rw [next_prev]
  exact steady.before.trans steady.start_le

theorem Holds.ends (holds : f.Holds g lo vs) (stop : g.Ends h) : f.Holds h lo vs := by
  obtain ⟨_, rfl⟩ | ⟨_, _, rfl⟩ := stop
  · exact holds.to
  · exact holds

theorem holds_next : f.Holds f.next f.current.start.offset [] := Adds.nil.step

/-- The value of a token has no nodes. -/
theorem Holds.value (holds : f.Holds g lo vs) (within : f.current.kind ≠ .endOfInput) :
    f.Holds g lo (f.current.value.heads ++ vs) := by
  intro ready
  rw [heads_scalar (ready.genuine.scalar within)]
  exact holds ready

/-- The token between two values has no nodes. -/
theorem Holds.operator (left : f.Holds g lo vs) (right : g.Adds h ws)
    (within : g.current.kind ≠ .endOfInput) :
    f.Holds h lo (g.current.value.heads ++ (vs ++ ws)) := by
  intro ready
  rw [heads_scalar ((left ready).1.genuine.scalar within)]
  exact left.trans right ready

theorem inShortForm_of_ne {kind : Kind} (other : kind ≠ .property) :
    inShortForm kind vs = false := by
  unfold inShortForm
  split
  · contradiction
  · rfl

/-- A node that is made at a feed lies where the nodes in its fields lie. -/
theorem lies_made {kind : Kind} {start : Mark} (long : inShortForm kind vs = false) :
    Lies start.offset f.prev.stop.offset (f.node kind vs start) ↔
      InTurn start.offset f.prev.stop.offset vs := by
  constructor
  · rintro ⟨_, _, ⟨⟩, _, _, _, inside⟩
    rwa [long] at inside
  · intro lie
    refine ⟨_, _, rfl, Nat.le_refl _, Nat.le_refl _, lie.lieAll, ?_⟩
    rwa [long]

theorem lies_name (ready : f.Ready) (scalar : v.isScalar) :
    Lies f.current.start.offset f.next.prev.stop.offset
      (f.next.node .identifier [v] f.current.start) := by
  refine (lies_made rfl).mpr (inTurn_single.mpr ((lies_scalar scalar).mpr ?_))
  rw [next_prev]
  exact ready.start_le

theorem holds_made {kind : Kind} {start : Mark} (other : kind ≠ .property) :
    f.Holds g start.offset (g.node kind vs start).heads ↔ f.Holds g start.offset (headsOf vs) := by
  rw [Holds, Holds, inTurn_heads, inTurn_headsOf, lies_made (inShortForm_of_ne other)]

theorem holds_property {start : Mark} {computed : Bool} :
    f.Holds g start.offset
        (g.node .property [v, w, .bool computed, .bool false] start).heads ↔
      f.Holds g start.offset (v.heads ++ w.heads) := by
  rw [Holds, Holds, inTurn_heads, lies_made rfl, ← inTurn_headsOf]
  simp only [headsOf, heads, List.append_nil]

theorem holds_mapNotes {change : Notes → Notes} (reach : ∀ n, (change n).span = n.span) :
    f.Holds g lo (v.mapNotes change).heads ↔ f.Holds g lo v.heads := by
  rw [Holds, Holds, inTurn_heads, inTurn_heads, lies_mapNotes reach]

theorem holds_attachLeading {comments : List Comment} :
    f.Holds g lo (attachLeading comments v).heads ↔ f.Holds g lo v.heads := by
  unfold attachLeading
  split
  · exact Iff.rfl
  · exact holds_mapNotes fun _ => rfl

theorem holds_attachTrailing {t : Token} :
    f.Holds g lo (attachTrailing t v).heads ↔ f.Holds g lo v.heads :=
  holds_mapNotes fun _ => rfl

theorem inTurn_mapLast {t : Token} :
    InTurn lo hi (mapLast (attachTrailing t) vs) ↔ InTurn lo hi vs := by
  induction vs generalizing lo with
  | nil => exact Iff.rfl
  | cons v vs ih =>
    cases vs with
    | nil =>
      change InTurn lo hi [attachTrailing t v] ↔ _
      rw [inTurn_single, inTurn_single]
      exact lies_mapNotes fun _ => rfl
    | cons w vs => exact exists_congr fun mid => and_congr_right fun _ => ih

theorem holds_mapLast {t : Token} :
    f.Holds g lo (headsOf (mapLast (attachTrailing t) vs)) ↔ f.Holds g lo (headsOf vs) := by
  rw [Holds, Holds, inTurn_headsOf, inTurn_headsOf, inTurn_mapLast]

theorem holds_literal (scalar : f.Ready → v.isScalar) :
    f.Holds f.next f.current.start.offset (f.literal v).heads := by
  intro ready
  have fields : f.Holds f.next f.current.start.offset (headsOf [v]) := by
    rw [headsOf, heads_scalar (scalar ready)]
    exact holds_next
  have made : f.Holds f.next f.current.start.offset
      (f.next.node .literal [v] f.current.start).heads := by
    refine (holds_made ?_).mpr fields
    nofun
  exact (holds_mapNotes fun _ => rfl).mpr made ready

end Feed

/-- Where the nodes of what a part reads lie. A part that takes a token begins at the current one;
one that may take none goes on from the last token taken, and one that goes on from a value from
where that begins. -/
def Part.Lays (p : Part) (f : Feed) (v : Value) (g : Feed) : Prop :=
  match p with
  | counted start base | member start base | members start base | accesses start base
  | operations start _ base =>
    ∀ e : Feed, e.Holds f start.offset base.heads → e.Holds g start.offset v.heads
  | p => if p.consumes then f.Holds g f.current.start.offset v.heads else f.Adds g v.heads

theorem Item.lays {i : Item} : i.part.Lays f v g ↔ f.Holds g f.current.start.offset v.heads := by
  cases i <;> exact Iff.rfl

theorem Reads.lays (read : Reads p f v g) : p.Lays f v g := by
  induction read with
    simp only [Part.Lays, Part.consumes, ↓reduceIte, Bool.false_eq_true, Feed.next_lift,
      Feed.next_resume, Feed.lift_current, Feed.bar_current, Feed.node_resume, Feed.holds_lift,
      Feed.holds_bar, Feed.holds_to_lift, Feed.holds_to_resume, Feed.adds_lift, Feed.holds_made,
      Feed.holds_property, ne_eq, reduceCtorEq, not_false_eq_true, heads, headsOf, List.append_nil,
      List.nil_append] at *
  | commasLast _ _ ih => exact Item.lays.1 ih
  | commasMore _ _ _ ih more => exact (Item.lays.1 ih).trans more.skip
  | closedNone | elementsNone | optionalNone | handlerNone | finalizerNone | labelNone
  | statementsNone => exact .nil
  | closedLast _ _ _ ih => exact (Item.lays.1 ih).adds
  | closedMore _ _ _ _ ih more => exact (Item.lays.1 ih).adds.trans more.skip
  | operationsStop | membersStop | accessesStop => exact fun _ base => base
  | nested _ ih | group _ ih => exact ih
  | single _ _ ih | arrowFunction _ _ ih | unassigned _ _ _ ih
  | arrowName _ ih | arrowNames _ _ ih | untested _ _ ih | unsigned _ _ _ ih | unstepped _ _ ih
  | headNew _ _ ih | headPrimary _ _ ih | functionExpression _ ih | declaratorBare _ _ ih
  | blockStatement _ ih | functionDeclaration _ ih | loopInitDeclaration _ _ ih
  | loopInitExpression _ _ ih => exact ih
  | optionalSome _ _ ih | labelSome _ _ ih => exact ih.adds
  | sequence _ _ _ first more => exact first.trans more.skip
  | arrowBlock _ _ _ _ params body | arrowValue _ _ _ _ params body => exact params.trans body.skip
  | assigned _ _ operator _ _ left right =>
    exact left.operator right.skip (kind_apart operator rfl)
  | tested _ _ _ _ _ test left right => exact test.trans (left.skip.trans right.skip)
  | binary _ _ first more | access _ _ first more => exact more _ first
  | membersMore _ _ first more
  | accessesMember _ _ first more => exact fun e base => more e (first e base)
  | accessesCall _ _ args more => exact fun e base => more e (base.trans args.adds)
  | binding ident | name ident => simpa using Feed.holds_next.value (kind_ne ident (by decide))
  | propertyName word =>
    intro ready
    rw [heads_scalar rfl]
    exact Feed.holds_next ready
  | operationsMore ranked _ _ _ right more =>
    intro e base
    refine more e ((Feed.holds_made (by unfold operationKind; split <;> simp)).mpr ?_)
    simpa [headsOf] using base.operator right.skip (Feed.rank?_ne ranked rfl)
  | unaryOperator operator _ ih => exact ih.step.value (kind_apart operator rfl)
  | stepBefore _ operator _ _ ih =>
    exact ih.step.value (kind_apart operator rfl)
  | stepAfter _ operator _ _ ih =>
    simpa using ih.operator Feed.Adds.nil.skip (kind_apart operator rfl)
  | memberNamed _ _ ih => exact fun e base => base.trans ih.skip
  | memberIndexed _ _ _ ih => exact fun e base => (base.trans ih.skip).to
  | @constructionCall f _ _ _ _ _ _ _ _ _ _ first more args =>
    exact (more f first.step).trans args.adds
  | @constructionBare f _ _ _ _ _ _ _ _ first more => exact more f first.step
  | arguments _ _ _ ih | parenthesized _ _ _ ih | array _ _ _ ih | object _ _ _ ih
  | parameters _ _ _ ih => exact ih.step.to
  | numberOrString scalar =>
    exact Feed.holds_literal fun ready => ready.genuine.scalar (scalar.elim (kind_ne · (by decide))
      (kind_ne · (by decide)))
  | wordTrue | wordFalse | wordNull => exact Feed.holds_literal fun _ => rfl
  | wordThis | emptyStatement => exact Feed.holds_next
  | elementsHole _ _ ih => exact ih.skip
  | elementsLast _ _ _ _ ih => exact ih.adds
  | elementsMore _ _ _ _ _ item more => exact item.adds.trans more.skip
  | propertyComputed _ _ _ _ _ key value => exact key.step.trans value.skip.skip
  | propertyLiteral key _ _ value =>
    have literal := Feed.holds_literal fun ready =>
      ready.genuine.scalar (key.elim (kind_ne · (by decide)) (kind_ne · (by decide)))
    exact literal.trans value.skip
  | propertyNamed _ _ _ key value => exact key.trans value.skip
  | propertyShort key =>
    intro ready
    have within := kind_ne (m := .endOfInput) key (by decide)
    have first := Feed.lies_name (v := f.spelled) ready rfl
    have second := Feed.lies_name ready (ready.genuine.scalar within)
    have le := Lies.le _ first
    refine ⟨ready.next, (inTurn_heads _).mpr ⟨_, _, rfl, Nat.le_refl _, Nat.le_refl _, ?_⟩⟩
    exact ⟨⟨first, second, le, le, le⟩, _, _, rfl, rfl, rfl, rfl⟩
  | functionNamed _ _ _ _ name params body =>
    refine (Feed.holds_made (by split <;> simp)).mpr ?_
    simpa [headsOf] using name.step.trans (params.adds.trans body.adds)
  | functionUnnamed _ _ _ _ params body => exact params.step.trans body.adds
  | statementsMore _ _ _ _ ih more =>
    exact (Feed.holds_attachLeading.mpr ih).adds.trans more
  | blockEmpty =>
    exact Feed.holds_attachTrailing.mpr ((Feed.holds_made (by simp)).mpr Feed.holds_next.to)
  | block _ _ _ ih => exact Feed.holds_mapLast.mpr ih.step.to
  | declaratorInit _ _ _ name init => exact name.trans init.skip
  | declaration _ _ ih => exact ih.step
  | variableDeclaration _ stop ih | expressionStatement _ _ stop ih => exact ih.ends stop
  | ifShort _ _ _ _ _ _ test left => exact test.step.step.trans left.skip
  | ifElse _ _ _ _ _ _ _ test left right =>
    exact test.step.step.trans (left.skip.trans right.skip)
  | counted _ _ _ _ _ _ test update body =>
    exact fun e base => base.trans (test.skip.trans (update.skip.trans body.skip))
  | forBare _ _ _ _ rest => exact rest _ Feed.holds_next.to
  | forCounted _ _ _ _ _ _ init rest => exact rest _ init.step.step
  | forIn _ _ _ _ _ _ _ _ _ left right body
  | forOf _ _ _ _ _ _ _ _ _ _ left right body =>
    exact left.step.step.trans (right.skip.trans body.skip)
  | whileStatement _ _ _ _ _ test body => exact test.step.step.trans body.skip
  | doWhile _ _ _ _ _ _ stop body test =>
    subst stop
    have loop := (body.step.trans test.skip.skip).to
    split
    · exact loop.to
    · exact loop
  | handlerBare _ _ _ ih =>
    refine ((Feed.holds_made (by simp)).mpr ?_).adds
    simpa [headsOf, heads] using ih.step
  | handlerNamed _ _ _ _ _ name body =>
    refine ((Feed.holds_made (by simp)).mpr ?_).adds
    simpa [headsOf] using name.step.step.trans body.skip
  | finalizerSome _ _ ih => exact ih.skip
  | tryStatement _ _ _ _ _ guarded handler finalizer =>
    exact guarded.step.trans (handler.trans finalizer)
  | returnBare _ _ stop => exact Feed.holds_next.ends stop
  | returnValue _ _ _ stop ih | throwStatement _ _ _ stop ih => exact ih.step.ends stop
  | breakStatement _ _ stop ih
  | continueStatement _ _ stop ih => exact ih.step.ends stop

/-- Statements lie between the token at which their list begins and the one at which it stops. -/
theorem Reads.statements_lie {k : TokenKind} (read : Reads (.statements k) f (.list vs) g)
    (ready : f.Ready) : InTurn f.current.start.offset g.current.stop.offset vs := by
  generalize list : Value.list vs = v at read
  cases read with
  | statementsNone =>
    cases list
    exact ready.start_le
  | @statementsMore _ _ mid _ w _ _ _ first more =>
    cases list
    have led : f.Holds mid f.current.start.offset (attachLeading f.current.comments w).heads :=
      Feed.holds_attachLeading.mpr first.lays
    obtain ⟨steady, lie⟩ := led.trans more.lays ready
    refine InTurn.wider _ ((inTurn_headsOf _).mp lie) (Nat.le_refl _) ?_
    exact steady.before.trans steady.start_le

theorem programOf_made (f g : Feed) (vs : List Value) : ∃ n,
    programOf f g vs = .node .program [.list (mapLast (attachTrailing g.current) vs)] n ∧
      n.extent? = some (f.current.start.offset, g.current.stop.offset) := by
  cases vs <;> exact ⟨_, rfl, rfl⟩

end Grammar

open Grammar

variable {source : Text} {v : Value}

/-- In a parsed tree everything lies in the source, in turn. -/
theorem parse_lies (parsed : parse source = .ok v) : Lies 0 source.length v := by
  obtain ⟨tokens, vs, g, scanned, read, rfl⟩ := parse_reads.mp parsed
  have closed := tokenize_closed scanned
  have covers := (tokenize_runs scanned).covers_source
  have whole := tokens_ofTokens closed
  have ready : (Feed.ofTokens tokens).Ready := by
    refine ⟨⟨?_, ?_⟩, ?_⟩
    · rw [Feed.Closed, whole]
      exact closed
    · rw [Feed.Faithful, whole]
      exact tokenize_faithful scanned
    · rw [whole]
      exact covers.inOrder
  have mem : g.current ∈ tokens := whole ▸ read.upto.subset List.mem_cons_self
  have lie : InTurn (Feed.ofTokens tokens).current.start.offset g.current.stop.offset
      [.list (mapLast (attachTrailing g.current) vs)] :=
    inTurn_single.mpr (Feed.inTurn_mapLast.mpr (read.statements_lie ready))
  obtain ⟨n, made, extent⟩ := programOf_made (Feed.ofTokens tokens) g vs
  rw [made]
  exact ⟨_, _, extent, Nat.zero_le _, (covers.stop_le mem read.statements_stop).le,
    lie.lieAll, lie⟩

/-- Every node of a parsed tree reaches from one offset of the source to another that is no smaller.
The nodes right below it lie within it, and each of them ends before the next one starts, fields and
the items in them taken in order; only the key and the value of a property in short form reach from
and to the same offsets. -/
theorem parse_spans_nest (source : Text) (v : Value) (parsed : parse source = .ok v) (tree : Nat) :
    let top := Path.root tree v
    ∀ p ∈ top :: top.descendants.paths, ∃ x y,
      p.value.extent? = some (x, y) ∧ x ≤ y ∧ y ≤ source.length ∧
      (∀ q ∈ p.children, ∃ x' y', q.value.extent? = some (x', y') ∧ x ≤ x' ∧ y' ≤ y) ∧
      if p.value.isShorthand then
        ∃ key value, p.children = [key, value] ∧ key.field? = some "key" ∧
          value.field? = some "value" ∧ key.value.extent? = value.value.extent?
      else p.children.Pairwise fun q r => q.value.Before r.value := by
  intro top p mem
  have valid : top.value.validate true = .ok () :=
    (parse_program parsed).valid Convention.parsed_scalar
  have whole : Lies 0 source.length top.value := parse_lies parsed
  have lies : Lies 0 source.length p.value ∧ p.value.validate true = .ok () := by
    rcases List.mem_cons.mp mem with rfl | mem
    · exact ⟨whole, valid⟩
    · have under := (Path.mem_descendants_iff valid).mp mem
      exact ⟨under.lies whole valid, under.valid valid⟩
  obtain ⟨lies, valid⟩ := lies
  obtain ⟨_, _, _, node⟩ := node_of_validate valid
  obtain ⟨x, y, extent, _, le, last, inside⟩ := lies.parts (node ▸ rfl)
  refine ⟨x, y, extent, le, last, fun q mem => ?_, ?_⟩
  · obtain ⟨part, held, rfl⟩ := List.mem_map.mp mem
    obtain ⟨x', y', extent', first, _, last⟩ :=
      (inside part held).extent (isNode_of_mem_parts held)
    exact ⟨x', y', extent', first, last⟩
  · split
    · rename_i short
      obtain ⟨key, value, parts, same⟩ := lies.parts_twins short
      rw [Path.children, parts]
      exact ⟨_, _, rfl, rfl, rfl, same⟩
    · rename_i long
      have before := lies.parts_before (Bool.eq_false_of_not_eq_true long)
      rw [Path.children]
      exact List.pairwise_map.mpr (List.pairwise_map.mp before)

/-- The tree of a source with a property in short form, whose key and value are one word. -/
theorem parse_spans_nest_short : ∃ v, parse (text "({a, b: new c.d(e)});") = .ok v ∧
    ∀ p ∈ Path.root 0 v :: (Path.root 0 v).descendants.paths, ∃ x y,
      p.value.extent? = some (x, y) ∧ x ≤ y ∧ y ≤ 21 ∧
      ∀ q ∈ p.children, ∃ x' y', q.value.extent? = some (x', y') ∧ x ≤ x' ∧ y' ≤ y := by
  have accepted : (parse (text "({a, b: new c.d(e)});")).toOption.isSome = true := by
    decide +kernel
  cases parsed : parse (text "({a, b: new c.d(e)});") with
  | error e => rw [parsed] at accepted; cases accepted
  | ok v =>
    refine ⟨v, rfl, fun p mem => ?_⟩
    obtain ⟨x, y, extent, le, last, inside, _⟩ := parse_spans_nest _ v parsed 0 p mem
    exact ⟨x, y, extent, le, last, inside⟩

end ScriptTree
