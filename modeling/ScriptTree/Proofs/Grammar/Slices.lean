import ScriptTree.Proofs.Grammar.Quoting

/-!
How the nodes that are read stand in their source. Whatever part of the language is read, all
expressions in it are what their slices hold. The callee of a construction is the exception: a
member expression in it is said to begin at the word `new`, so that its slice holds a construction
of it.
-/
namespace ScriptTree

open Grammar Value

/-- A keyword where a name stands, as only the name of a property can be. -/
def Value.isKeyword : Value → Bool
  | .node .identifier [.text w] _ => !isName w
  | _ => false

variable {source : Text} {x : Option Nat} {v w : Value} {vs : List Value} {n : Notes}

/-- The slice of a node holds that node. -/
def Spelled (source : Text) (v : Value) : Prop := ∃ w, Quotes source v w ∧ Like false w v

/-- The slice of a member expression holds a construction whose callee is that expression. -/
def Misread (source : Text) (v : Value) : Prop :=
  v.isKind .memberExpression ∧
    ∃ w n, Quotes source v w ∧ Like false w (.node .newExpression [v, .list []] n)

/-- An expression is what its slice holds, unless it is a keyword that names a property. -/
def Quoted (source : Text) (v : Value) : Prop :=
  v.isKind .expression → Spelled source v ∨ v.isKeyword

/-- How the nodes of a tree stand in their source, if only those that begin at `x` can belong to the
callee of a construction around the tree. -/
inductive Sliced (source : Text) : Option Nat → Value → Prop
  | quoted {x : Option Nat} {v : Value} (quoted : Quoted source v)
      (other : x = none ∨ v.origin? ≠ x)
      (parts : ∀ part ∈ v.parts,
        Sliced source (if v.isKind .newExpression then v.origin? else none) part.2) :
      Sliced source x v
  | misread {x : Nat} {v : Value} (misread : Misread source v) (start : v.origin? = some x)
      (parts : ∀ part ∈ v.parts, Sliced source (some x) part.2) : Sliced source (some x) v

/-- The nodes in a value stand in their source as they should. -/
def Clear (source : Text) (x : Option Nat) (v : Value) : Prop := ∀ w ∈ v.heads, Sliced source x w

theorem clear_null : Clear source x .null := nofun

theorem clear_bool {b : Bool} : Clear source x (.bool b) := nofun

theorem clear_text {t : Text} : Clear source x (.text t) := nofun

theorem clear_nil : Clear source x (.list []) := nofun

theorem clear_cons :
    Clear source x (.list (v :: vs)) ↔ Clear source x v ∧ Clear source x (.list vs) := by
  simp [Clear, heads, headsOf, or_imp, forall_and]

theorem Clear.one (first : Clear source x v) : Clear source x (.list [v]) :=
  clear_cons.2 ⟨first, clear_nil⟩

theorem Clear.two (first : Clear source x v) (second : Clear source x w) :
    Clear source x (.list [v, w]) :=
  clear_cons.2 ⟨first, second.one⟩

theorem Clear.three {u : Value} (first : Clear source x v) (second : Clear source x w)
    (third : Clear source x u) : Clear source x (.list [v, w, u]) :=
  clear_cons.2 ⟨first, second.two third⟩

theorem Clear.four {t u : Value} (first : Clear source x v) (second : Clear source x w)
    (third : Clear source x u) (fourth : Clear source x t) :
    Clear source x (.list [v, w, u, t]) :=
  clear_cons.2 ⟨first, second.three third fourth⟩

theorem clear_node {kind : Kind} :
    Clear source x (.node kind vs n) ↔ Sliced source x (.node kind vs n) := by
  simp [Clear, heads]

theorem clear_scalar (scalar : v.isScalar) : Clear source x v := by
  rw [Clear, heads_scalar scalar]
  nofun

/-- What begins elsewhere is no part of the callee. -/
theorem Clear.elsewhere {y : Nat} (clear : Clear source none v)
    (other : ∀ w ∈ v.heads, w.origin? ≠ some y) : Clear source (some y) v := by
  intro w mem
  cases clear w mem with
  | quoted quoted _ parts => exact .quoted quoted (.inr (other w mem)) parts

/-- A node is clear if it is quoted and its fields are clear. -/
theorem Clear.made {kind : Kind} (fields : Clear source none (.list vs))
    (other : kind ≠ .newExpression) (quoted : Quoted source (.node kind vs n)) :
    Clear source none (.node kind vs n) := by
  refine clear_node.2 (.quoted quoted (.inl rfl) fun part mem => ?_)
  have plain : (Value.node kind vs n).isKind .newExpression = false := by
    cases kind <;> first | rfl | exact absurd rfl other
  rw [plain]
  exact fields _ (mem_heads_of_part mem)

/-- A construction is clear if it is quoted and its fields are, its callee as one. -/
theorem Clear.construction {y : Nat} (fields : Clear source (some y) (.list vs))
    (quoted : Quoted source (.node .newExpression vs n))
    (start : (Value.node .newExpression vs n).origin? = some y) :
    Clear source none (.node .newExpression vs n) := by
  refine clear_node.2 (.quoted quoted (.inl rfl) fun part mem => ?_)
  rw [start]
  exact fields _ (mem_heads_of_part mem)

theorem Clear.misread {y : Nat} {kind : Kind} (fields : Clear source (some y) (.list vs))
    (misread : Misread source (.node kind vs n))
    (start : (Value.node kind vs n).origin? = some y) :
    Clear source (some y) (.node kind vs n) :=
  clear_node.2 (.misread misread start fun _ mem => fields _ (mem_heads_of_part mem))

section Notes

variable {change : Notes → Notes} {t : Token} {comments : List Comment}

/-- Comments do not bear on slices. -/
theorem Clear.mapNotes (reach : ∀ n, (change n).span = n.span) (clear : Clear source none v) :
    Clear source none (v.mapNotes change) := by
  cases v with
  | node kind vs n =>
    have extent := extent?_mapNotes (v := .node kind vs n) reach
    cases clear_node.1 clear with
    | quoted quoted _ parts =>
      refine clear_node.2 (.quoted (fun expression => ?_) (.inl rfl) ?_)
      · refine (quoted expression).imp ?_ ?_
        · rintro ⟨w, ⟨x, y, held, read⟩, like⟩
          exact ⟨w, ⟨x, y, extent.trans held, read⟩, like.trans strip_mapNotes.symm⟩
        · intro word
          unfold isKeyword at word ⊢
          split at word
          · simp_all
          · cases word
      · rw [origin?, ← Value.mapNotes, extent]
        exact parts
  | _ => exact clear

theorem Clear.lead (clear : Clear source none v) :
    Clear source none (attachLeading comments v) := by
  unfold Grammar.attachLeading
  split
  · exact clear
  · exact clear.mapNotes fun _ => rfl

theorem Clear.trail (clear : Clear source none v) :
    Clear source none (attachTrailing t v) :=
  clear.mapNotes fun _ => rfl

theorem Clear.trailLast (clear : Clear source none (.list vs)) :
    Clear source none (.list (mapLast (attachTrailing t) vs)) := by
  induction vs with
  | nil => exact clear
  | cons v vs ih =>
    obtain ⟨first, rest⟩ := clear_cons.1 clear
    cases vs with
    | nil => exact clear_cons.2 ⟨first.trail, rest⟩
    | cons w vs => exact clear_cons.2 ⟨first, ih rest⟩

end Notes

namespace Grammar

variable {e f g h : Feed} {p : Part} {start : Mark} {object : Value} {y : Nat}

namespace Feed

/-- The tokens that are left are the last ones of a source. -/
def From (source : Text) (f : Feed) : Prop :=
  ∃ tokens, tokenize source = .ok tokens ∧ f.tokens <:+ tokens

theorem From.upto (fed : f.From source) (upto : f.Upto g) : g.From source := by
  obtain ⟨tokens, scan, within⟩ := fed
  exact ⟨tokens, scan, List.IsSuffix.trans upto within⟩

theorem From.next (fed : f.From source) : f.next.From source := fed.upto upto_next

theorem from_lift : f.lift.From source ↔ f.From source := Iff.rfl

theorem from_bar : f.bar.From source ↔ f.From source := Iff.rfl

theorem From.ready (fed : f.From source) : f.Ready := by
  obtain ⟨tokens, scan, within⟩ := fed
  exact ⟨⟨closed_suffix (tokenize_closed scan) within (List.cons_ne_nil _ _),
    fun t mem => tokenize_faithful scan t (within.subset mem)⟩,
    (tokenize_runs scan).covers_source.inOrder.suffix within⟩

theorem From.clear (fed : f.From source) (within : f.current.kind ≠ .endOfInput) :
    Clear source x f.current.value :=
  clear_scalar (fed.ready.genuine.scalar within)

/-- What has not been taken begins after what has. -/
theorem From.lt (fed : e.From source) (past : e.Past f) :
    e.current.start.offset < f.current.start.offset := by
  obtain ⟨tokens, scan, within⟩ := fed
  have closed : e.Closed := closed_suffix (tokenize_closed scan) within (List.cons_ne_nil _ _)
  obtain ⟨_, tokens'⟩ := closed.next past.1
  have ordered := (tokenize_ordered scan).sublist within.sublist
  rw [tokens'] at ordered
  have mem : f.current ∈ e.next.tokens := past.2.subset List.mem_cons_self
  exact ((List.pairwise_cons.mp ordered).1 _ mem).1

/-- The nodes that are read from a feed on begin no earlier. -/
theorem Holds.elsewhere (holds : f.Holds g f.current.start.offset v.heads) (fed : f.From source)
    (before : y < f.current.start.offset) : ∀ w ∈ v.heads, w.origin? ≠ some y := by
  intro w mem same
  obtain ⟨_, lie⟩ := holds fed.ready
  have lies := lie.lies_of_mem mem
  cases w with
  | node =>
    obtain ⟨x, _, extent, le, _⟩ := lies.extent rfl
    rw [origin?, extent] at same
    cases same
    exact absurd before (Nat.not_lt.mpr le)
  | _ => cases same

end Feed

/-- What a part of the language reads whole is what its slice holds. -/
theorem Reads.spelled (read : Reads p f v g) (whole : p.isWhole) (fed : f.From source)
    (extent : v.extent? = some (f.current.start.offset, g.prev.stop.offset)) :
    Spelled source v := by
  obtain ⟨tokens, scan, within⟩ := fed
  exact (read.rereads whole).quotes whole scan within read.moves
    (read.past (p.isWhole_open whole).2.2) extent

/-- A node that is read whole is clear if its fields are. -/
theorem Reads.clear {kind : Kind} (read : Reads p f (.node kind vs n) g) (whole : p.isWhole)
    (fed : f.From source) (extent : n.extent? = some (f.current.start.offset, g.prev.stop.offset))
    (other : kind ≠ .newExpression) (fields : Clear source none (.list vs)) :
    Clear source none (.node kind vs n) :=
  fields.made other fun _ => .inl (read.spelled whole fed extent)

section End

variable {least : Nat} (ending : f.current.kind = .endOfInput)
include ending

theorem Reads.accesses_end : Reads (.accesses start v) f v f :=
  .accessesStop (by simp [ending]) (by simp [ending]) (by simp [ending])

theorem Reads.members_end : Reads (.members start v) f v f :=
  .membersStop (by simp [ending]) (by simp [ending])

theorem Reads.operations_end : Reads (.operations start least v) f v f :=
  .operationsStop (by simp [Feed.rank?, ending, TokenKind.rank?])

end End

/-- A chain of accesses or operators that has been read from one feed to another. -/
structure Chain (source : Text) (q : Feed → Value → Feed → Prop) (loop : Mark → Value → Part)
    (e f : Feed) (v : Value) : Prop where
  fed : e.From source
  moves : e.Moves f
  past : e.Past f
  grows : Grows q loop e f v

namespace Chain

variable {q : Feed → Value → Feed → Prop} {loop : Mark → Value → Part}

theorem extend (chain : Chain source q loop e f object) (moves : f.Moves g) (upto : f.Upto g)
    (grows : Grows q loop e g v) : Chain source q loop e g v :=
  ⟨chain.fed, chain.moves.trans moves, chain.past.trans upto, grows⟩

theorem member (chain : Chain source q loop e f object) (read : Reads (.member start object) f v g)
    (goesOn : ∀ {start : Mark} {object v w : Value} {f g h : Feed},
      Reads (.member start object) f v g → Reads (loop start v) g w h →
        Reads (loop start object) f w h) : Chain source q loop e g v :=
  chain.extend read.moves read.upto (chain.grows.member read goesOn)

/-- What a chain has come to is what its slice holds. -/
theorem spelled (chain : Chain source (Reads p) loop e f v) (whole : p.isWhole)
    (stop : ∀ {f : Feed} {start : Mark} {v : Value}, f.current.kind = .endOfInput →
      Reads (loop start v) f v f)
    (extent : v.extent? = some (e.current.start.offset, f.prev.stop.offset)) :
    Spelled source v := by
  obtain ⟨tokens, scan, within⟩ := chain.fed
  exact (chain.grows.rereads stop).quotes whole scan within chain.moves chain.past extent

/-- What the callee of a construction has come to has the word `new` in its slice. -/
theorem misread (chain : Chain source Calls .members e f v) (member : v.isKind .memberExpression)
    (extent : v.extent? = some (e.current.start.offset, f.prev.stop.offset)) :
    Misread source v := by
  obtain ⟨tokens, scan, within⟩ := chain.fed
  have again := chain.grows.rereads .members_end
  obtain ⟨w, held, like⟩ :=
    again.construction.quotes rfl scan within chain.moves chain.past extent
  exact ⟨member, w, _, held, like⟩

end Chain

/-- The head of a callee is the first link of a chain, and it begins after the word `new`. -/
theorem Feed.From.callee (fed : f.From source) (new : f.current.kind = .kwNew)
    (first : Reads .head f.next object g) (clear : Clear source none object) :
    Chain source Calls .members f g object ∧ Clear source (some f.current.start.offset) object := by
  have past := Feed.past (kind_ne new (by decide)) first.upto
  have before := fed.lt (Feed.past (kind_ne new (by decide)) .refl)
  exact ⟨⟨fed, (Feed.moves_next (kind_ne new (by decide))).trans first.moves, past, .callee_head new
    first⟩,
    clear.elsewhere (Feed.Holds.elsewhere first.lays fed.next before)⟩

/-- How the nodes that a part reads stand in their source. A part that goes on from a value has to
know how that value has been read. -/
def Part.Sorts (source : Text) (p : Part) (f : Feed) (v : Value) (g : Feed) : Prop :=
  match p with
  | arrow => f.startsArrow → Clear source none v
  | counted _ init => Clear source none init → Clear source none v
  | member start object => ∃ name computed,
      v = g.node .memberExpression [object, name, .bool computed] start ∧ Clear source none name ∧
        ∀ y < f.current.start.offset, ∀ w ∈ name.heads, w.origin? ≠ some y
  | members start object => ∀ e, e.current.start = start → Chain source Calls .members e f object →
      Clear source (some start.offset) object → Clear source (some start.offset) v
  | accesses start object => ∀ e, e.current.start = start →
      Chain source (Reads .access) .accesses e f object → Clear source none object →
        Clear source none v
  | operations start least object => ∀ e, e.current.start = start →
      Chain source (Reads (.binary least)) (fun start v => .operations start least v) e f object →
        Clear source none object → Clear source none v
  | _ => Clear source none v

theorem Item.sorts {i : Item} : i.part.Sorts source f v g ↔ Clear source none v := by
  cases i <;> exact Iff.rfl

theorem Feed.From.name (fed : f.From source) (ident : f.current.kind = .ident) :
    Clear source none (f.next.node .identifier [f.current.value] f.current.start) :=
  (Reads.name ident).clear rfl fed rfl nofun
    (clear_cons.2 ⟨fed.clear (kind_ne ident (by decide)), clear_nil⟩)

theorem keyword_not_name {k : TokenKind} (keyword : k.isKeyword) :
    isName (text k.spelling) = false := by
  have : ∀ k ∈ TokenKind.keywords, isName (text k.spelling) = false := by decide
  exact this k (List.contains_iff_mem.mp keyword)

theorem Feed.From.word (fed : f.From source)
    (word : f.current.kind = .ident ∨ f.current.kind.isKeyword) :
    Clear source none (f.next.node .identifier [f.spelled] f.current.start) := by
  have faithful := fed.ready.genuine.faithful
  rcases word with ident | keyword
  · obtain ⟨w, _, value, spelled⟩ := faithful.name ident
    rw [spelled, ← value]
    exact fed.name ident
  · obtain ⟨value, raw⟩ := faithful.current.word keyword
    rw [Feed.spelled, Token.word_of_value value raw]
    refine Clear.made (clear_cons.2 ⟨clear_text, clear_nil⟩) (by decide) fun _ => .inr ?_
    simp [Value.isKeyword, keyword_not_name keyword]

theorem Feed.From.literal (fed : f.From source) {value : Value}
    (read : Reads .primary f (f.literal value) f.next) (clear : Clear source none value) :
    Clear source none (f.literal value) :=
  Reads.clear read rfl fed rfl nofun (clear_cons.2 ⟨clear, clear_nil⟩)

/-- Whatever is read from a source stands in it as it should. -/
def Part.SortsIn (source : Text) (p : Part) (f : Feed) (v : Value) (g : Feed) : Prop :=
  f.From source → p.Sorts source f v g

theorem sorts_lists : Part.Family.lists.Keeps (Part.SortsIn source) := by
  intro p f v g read rule family fed
  induction rule using Reads.below.casesOn with cases family
  | commasLast item _ _ ih | closedLast _ item _ _ ih => exact (Item.sorts.1 (ih fed)).one
  | commasMore item _ more _ ih₁ _ ih₂ | closedMore _ item _ more _ ih₁ _ ih₂ =>
    exact clear_cons.2 ⟨Item.sorts.1 (ih₁ fed), ih₂ (fed.upto item.upto).next⟩
  | closedNone | elementsNone | statementsNone => exact clear_nil
  | elementsHole _ _ _ ih => exact clear_cons.2 ⟨clear_null, ih fed.next⟩
  | elementsLast _ _ _ _ _ ih => exact (ih fed).one
  | elementsMore _ _ item _ _ _ ih₁ _ ih₂ =>
    exact clear_cons.2 ⟨ih₁ fed, ih₂ (fed.upto item.upto).next⟩
  | statementsMore _ _ first _ _ ih₁ _ ih₂ =>
    exact clear_cons.2 ⟨.lead (ih₁ fed), ih₂ (fed.upto first.upto)⟩

theorem sorts_names : Part.Family.names.Keeps (Part.SortsIn source) := by
  intro p f v g read rule family fed
  induction rule using Reads.below.casesOn with cases family
  | binding ident => exact fed.name ident
  | propertyName word => exact fed.word word
  | nested _ _ ih | group _ _ ih => exact ih (Feed.from_lift.mpr fed)
  | arguments _ _ _ _ ih | parameters _ _ _ _ ih => exact ih fed.next
  | optionalNone => exact clear_null
  | optionalSome _ _ _ ih => exact ih fed

theorem sorts_assignments : Part.Family.assignments.Keeps (Part.SortsIn source) := by
  intro p f v g read rule family fed
  induction rule using Reads.below.casesOn with cases family
  | single _ _ _ ih | unassigned _ _ _ _ ih | arrowNames _ _ _ ih | untested _ _ _ ih =>
    exact ih fed
  | arrowName _ _ ih => exact (ih fed).one
  | arrowFunction starts _ _ ih => exact ih fed starts
  | sequence first comma more _ ih₁ _ ih₂ =>
    have items := clear_cons.2 ⟨ih₁ fed, ih₂ (fed.upto first.upto).next⟩
    exact (Reads.sequence first comma more).clear rfl fed rfl nofun items.one
  | assigned starts inner operator target value _ ih₁ _ ih₂ =>
    have after := fed.upto inner.upto
    have token := after.clear (x := none) (kind_apart operator rfl)
    exact (Reads.assigned starts inner operator target value).clear rfl fed rfl nofun
      (token.three (ih₁ fed) (ih₂ after.next))
  | arrowBlock params arrow brace body _ ih₁ _ ih₂ =>
    have block := ih₂ (fed.upto params.upto).next
    exact fun starts => (Reads.arrowFunction starts (.arrowBlock params arrow brace body)).clear rfl
      fed rfl nofun (.three (ih₁ fed) block clear_bool)
  | arrowValue params arrow brace body _ ih₁ _ ih₂ =>
    have value := ih₂ (fed.upto params.upto).next
    exact fun starts => (Reads.arrowFunction starts (.arrowValue params arrow brace body)).clear rfl
      fed rfl nofun (.three (ih₁ fed) value clear_bool)
  | tested condition question consequent colon alternate _ ih₁ _ ih₂ _ ih₃ =>
    have after := (fed.upto condition.upto).next
    have right := ih₃ (after.upto consequent.upto).next
    exact (Reads.tested condition question consequent colon alternate).clear rfl fed rfl nofun
      (.three (ih₁ fed) (ih₂ after) right)

/-- What a chain comes to is read again from the feed at which the chain begins. -/
theorem sorts_operations : Part.Family.operations.Keeps (Part.SortsIn source) := by
  intro p f v g read rule family fed
  induction rule using Reads.below.casesOn with cases family
  | binary first more _ ih₁ _ ih₂ =>
    exact ih₂ (fed.upto first.upto) _ rfl ⟨fed, first.moves, first.past rfl, .binary_unary first⟩
      (ih₁ fed)
  | operationsStop => exact fun _ _ _ clear => clear
  | @operationsMore start least rank f g h v left right ranked tighter operand more _ ih₁ _ ih₂ =>
    rintro e rfl chain clear
    have within : f.current.kind ≠ .endOfInput := Feed.rank?_ne ranked rfl
    have after := fed.next.upto operand.upto
    have longer : Chain source (Reads (.binary least))
        (fun start v => .operations start least v) e g (g.node (operationKind f.current.kind)
          [f.current.value, left, right] e.current.start) :=
      chain.extend ((Feed.moves_next within).trans operand.moves)
        (Feed.upto_next.trans operand.upto) (chain.grows.operation ranked tighter operand)
    refine ih₂ after e rfl longer (.made ?_ ?_ fun _ => .inl ?_)
    · exact (fed.clear within).three clear (ih₁ fed.next)
    · unfold operationKind
      split <;> nofun
    · exact longer.spelled rfl .operations_end rfl
  | unaryOperator operator operand _ ih =>
    have token := fed.clear (x := none) (kind_apart operator rfl)
    exact (Reads.unaryOperator operator operand).clear rfl fed rfl nofun (token.two (ih fed.next))
  | stepBefore plain operator operand target _ ih =>
    have token := fed.clear (x := none) (kind_apart operator rfl)
    exact (Reads.stepBefore plain operator operand target).clear rfl fed rfl nofun
      (token.three clear_bool (ih fed.next))
  | stepAfter inner operator line target _ ih =>
    have token := (fed.upto inner.upto).clear (x := none)
      (kind_apart operator rfl)
    exact (Reads.stepAfter inner operator line target).clear rfl fed rfl nofun
      (token.three clear_bool (ih fed))
  | unsigned _ _ _ _ ih | unstepped _ _ _ ih => exact ih fed

theorem sorts_accesses : Part.Family.accesses.Keeps (Part.SortsIn source) := by
  intro p f v g read rule family fed
  induction rule using Reads.below.casesOn with cases family
  | access first more _ ih₁ _ ih₂ =>
    exact ih₂ (fed.upto first.upto) _ rfl ⟨fed, first.moves, first.past rfl, .access_head first⟩
      (ih₁ fed)
  | headNew _ _ _ ih | headPrimary _ _ _ ih => exact ih fed
  | accessesStop | membersStop => exact fun _ _ _ clear => clear
  | memberNamed dot name _ ih =>
    have before := fed.lt (Feed.past (kind_ne dot (by decide)) .refl)
    exact ⟨_, _, rfl, ih fed.next, fun y less =>
      Feed.Holds.elsewhere name.lays fed.next (less.trans before)⟩
  | memberIndexed bracket index close _ ih =>
    have before := fed.lt (Feed.past (kind_ne bracket (by decide)) .refl)
    exact ⟨_, _, rfl, ih fed.next, fun y less =>
      Feed.Holds.elsewhere index.lays fed.next (less.trans before)⟩
  | accessesMember first more _ ih₁ _ ih₂ =>
    rintro e rfl chain clear
    obtain ⟨name, computed, rfl, clear', _⟩ := ih₁ fed
    have longer := chain.member first .accessesMember
    refine ih₂ (fed.upto first.upto) e rfl longer (.made ?_ nofun fun _ => .inl ?_)
    · exact clear.three clear' clear_bool
    · exact longer.spelled rfl .accesses_end rfl
  | @accessesCall start f g h v w object args more _ ih₁ _ ih₂ =>
    rintro e rfl chain clear
    have longer : Chain source (Reads .access) .accesses e g
        (g.node .callExpression [object, v] e.current.start) :=
      chain.extend args.moves args.upto (chain.grows.call args)
    refine ih₂ (fed.upto args.upto) e rfl longer (.made ?_ nofun fun _ => .inl ?_)
    · exact clear.two (ih₁ fed)
    · exact longer.spelled rfl .accesses_end rfl
  | membersMore first more _ ih₁ _ ih₂ =>
    rintro e rfl chain clear
    obtain ⟨name, computed, rfl, clear', apart⟩ := ih₁ fed
    have longer := chain.member first .membersMore
    have name' := clear'.elsewhere (apart _ (chain.fed.lt chain.past))
    exact ih₂ (fed.upto first.upto) e rfl longer
      (.misread (clear.three name' clear_bool) (longer.misread rfl rfl) rfl)
  | @constructionCall f g h i v w object new first more args _ ih₁ _ ih₂ _ ih₃ =>
    obtain ⟨chain, head⟩ := fed.callee new first (ih₁ fed.next)
    have past := chain.past.trans more.upto
    have callee := ih₂ (fed.upto chain.past.upto) f rfl chain head
    have behind : Clear source (some f.current.start.offset) w :=
      (ih₃ (fed.upto past.upto)).elsewhere
        (Feed.Holds.elsewhere args.lays (fed.upto past.upto) (fed.lt past))
    exact .construction (callee.two behind)
      (fun _ => .inl ((Reads.constructionCall new first more args).spelled rfl fed rfl)) rfl
  | @constructionBare f g h v object new first more stop _ ih₁ _ ih₂ =>
    obtain ⟨chain, head⟩ := fed.callee new first (ih₁ fed.next)
    have callee := ih₂ (fed.upto chain.past.upto) f rfl chain head
    exact .construction (callee.two clear_nil)
      (fun _ => .inl ((Reads.constructionBare new first more stop).spelled rfl fed rfl)) rfl

theorem sorts_primaries : Part.Family.primaries.Keeps (Part.SortsIn source) := by
  intro p f v g read rule family fed
  induction rule using Reads.below.casesOn with cases family
  | name ident => exact fed.name ident
  | numberOrString scalar =>
    exact fed.literal (.numberOrString scalar)
      (fed.clear (scalar.elim (kind_ne · (by decide)) (kind_ne · (by decide))))
  | wordTrue word => exact fed.literal (.wordTrue word) clear_bool
  | wordFalse word => exact fed.literal (.wordFalse word) clear_bool
  | wordNull word => exact fed.literal (.wordNull word) clear_null
  | wordThis word => exact (Reads.wordThis word).clear rfl fed rfl nofun clear_nil
  | functionExpression _ _ ih => exact ih fed
  | parenthesized _ _ _ _ ih => exact ih fed.next
  | array opening items close _ ih =>
    exact (Reads.array opening items close).clear rfl fed rfl nofun (ih fed.next).one
  | object opening items close _ ih =>
    exact (Reads.object opening items close).clear rfl fed rfl nofun (ih fed.next).one
  | propertyComputed _ key _ _ _ _ ih₁ _ ih₂ =>
    have value := ih₂ (fed.next.upto key.upto).next.next
    exact .made ((ih₁ fed.next).four value clear_bool clear_bool) nofun nofun
  | propertyLiteral key colon value _ ih =>
    have name := fed.literal (.numberOrString key.symm)
      (fed.clear (key.elim (kind_ne · (by decide)) (kind_ne · (by decide))))
    exact .made (name.four (ih fed.next.next) clear_bool clear_bool) nofun nofun
  | propertyNamed _ _ _ _ ih₁ _ ih₂ =>
    exact .made ((ih₁ fed).four (ih₂ fed.next.next) clear_bool clear_bool) nofun nofun
  | propertyShort key =>
    have name := fed.word (.inl key)
    exact .made (name.four (fed.name key) clear_bool clear_bool) nofun nofun

theorem sorts_functions : Part.Family.functions.Keeps (Part.SortsIn source) := by
  intro p f v g read rule family fed
  induction rule using Reads.below.casesOn with cases family
  | @functionNamed declared f g h i v w object word name params body _ ih₁ _ ih₂ _ ih₃ =>
    have names := ih₂ (fed.next.upto name.upto)
    have block := ih₃ ((fed.next.upto name.upto).upto params.upto)
    have fields := (ih₁ fed.next).three names block
    cases declared with
    | true => exact .made fields nofun nofun
    | false =>
      exact (Reads.functionExpression (.functionNamed word name params body)).clear rfl fed rfl
        nofun fields
  | functionUnnamed word name params body _ ih₁ _ ih₂ =>
    have block := ih₂ (fed.next.upto params.upto)
    exact (Reads.functionExpression (.functionUnnamed word name params body)).clear rfl fed rfl
      nofun (clear_null.three (ih₁ fed.next) block)
  | blockEmpty => exact .trail (.made clear_nil.one nofun nofun)
  | block _ _ _ _ ih => exact .made (Clear.trailLast (ih fed.next)).one nofun nofun
  | declaratorBare _ _ _ ih => exact .made ((ih fed).two clear_null) nofun nofun
  | declaratorInit name _ _ _ ih₁ _ ih₂ =>
    exact .made ((ih₁ fed).two (ih₂ (fed.upto name.upto).next)) nofun nofun
  | declaration _ _ _ ih => exact .made (clear_text.two (ih fed.next)) nofun nofun

theorem sorts_clauses : Part.Family.clauses.Keeps (Part.SortsIn source) := by
  intro p f v g read rule family fed
  induction rule using Reads.below.casesOn with cases family
  | loopInitDeclaration _ _ _ ih | loopInitExpression _ _ _ ih => exact ih fed
  | counted _ condition _ update _ _ _ ih₁ _ ih₂ _ ih₃ =>
    have second := (fed.next.upto condition.upto).next
    have last := (second.upto update.upto).next
    exact fun init => .made (init.four (ih₁ fed.next) (ih₂ second) (ih₃ last)) nofun nofun
  | handlerNone | finalizerNone | labelNone => exact clear_null
  | handlerBare _ _ _ _ ih => exact .made (clear_null.two (ih fed.next)) nofun nofun
  | handlerNamed _ _ name _ _ _ ih₁ _ ih₂ =>
    have inner := fed.next.next
    exact .made ((ih₁ inner).two (ih₂ (inner.upto name.upto).next)) nofun nofun
  | finalizerSome _ _ _ ih => exact ih fed.next
  | labelSome _ _ _ ih => exact ih fed

/-- Statements are no expressions: they have no slices to be read by themselves. -/
theorem sorts_statements : Part.Family.statements.Keeps (Part.SortsIn source) := by
  intro p f v g read rule family fed
  induction rule using Reads.below.casesOn with cases family
  | blockStatement _ _ ih | variableDeclaration _ _ _ ih | functionDeclaration _ _ ih =>
    exact ih fed
  | emptyStatement => exact .made clear_nil nofun nofun
  | ifShort _ _ condition _ _ _ _ ih₁ _ ih₂ =>
    have inner := fed.next.next
    have left := ih₂ (inner.upto condition.upto).next
    exact .made ((ih₁ inner).three left clear_null) nofun nofun
  | ifElse _ _ condition _ consequent _ _ _ ih₁ _ ih₂ _ ih₃ =>
    have inner := fed.next.next
    have after := (inner.upto condition.upto).next
    have right := ih₃ (after.upto consequent.upto).next
    exact .made ((ih₁ inner).three (ih₂ after) right) nofun nofun
  | forBare _ _ _ _ _ ih => exact ih fed.next.next clear_null
  | forCounted _ _ _ init _ _ _ ih₁ _ ih₂ =>
    have inner := Feed.from_bar.mpr fed.next.next
    exact ih₂ (Feed.from_lift.mpr (inner.upto init.upto)) (ih₁ inner)
  | forIn _ _ _ init _ _ collection _ _ _ ih₁ _ ih₂ _ ih₃
  | forOf _ _ _ init _ _ _ collection _ _ _ ih₁ _ ih₂ _ ih₃ =>
    have inner := Feed.from_bar.mpr fed.next.next
    have after := (Feed.from_lift.mpr (inner.upto init.upto)).next
    have body := ih₃ (after.upto collection.upto).next
    exact .made ((ih₁ inner).three (ih₂ after) body) nofun nofun
  | whileStatement _ _ condition _ _ _ ih₁ _ ih₂ =>
    have inner := fed.next.next
    exact .made ((ih₁ inner).two (ih₂ (inner.upto condition.upto).next)) nofun nofun
  | doWhile _ body _ _ _ _ _ _ ih₁ _ ih₂ =>
    have after := (fed.next.upto body.upto).next.next
    exact .made ((ih₁ fed.next).two (ih₂ after)) nofun nofun
  | tryStatement _ guarded handler _ _ _ ih₁ _ ih₂ _ ih₃ =>
    have after := fed.next.upto guarded.upto
    have last := ih₃ (after.upto handler.upto)
    exact .made ((ih₁ fed.next).three (ih₂ after) last) nofun nofun
  | returnBare => exact .made clear_null.one nofun nofun
  | returnValue _ _ _ _ _ ih | breakStatement _ _ _ _ ih | continueStatement _ _ _ _ ih
  | throwStatement _ _ _ _ _ ih => exact .made (ih fed.next).one nofun nofun
  | expressionStatement _ _ _ _ ih => exact .made (ih fed).one nofun nofun

theorem Reads.sorts (read : Reads p f v g) : p.SortsIn source f v g :=
  read.byFamily fun
    | .lists => sorts_lists
    | .names => sorts_names
    | .assignments => sorts_assignments
    | .operations => sorts_operations
    | .accesses => sorts_accesses
    | .primaries => sorts_primaries
    | .functions => sorts_functions
    | .clauses => sorts_clauses
    | .statements => sorts_statements

end Grammar

/-- A program is clear: so are its statements. -/
theorem parse_clear (parsed : parse source = .ok v) : Sliced source none v := by
  obtain ⟨tokens, vs, g, scan, read, rfl⟩ := parse_reads.mp parsed
  have fed : (Feed.ofTokens tokens).From source := by
    have whole := tokens_ofTokens (tokenize_closed scan)
    exact ⟨tokens, scan, whole ▸ List.suffix_rfl⟩
  obtain ⟨n, made, _⟩ := programOf_made (Feed.ofTokens tokens) g vs
  rw [made]
  have items : Clear source none (.list vs) := read.sorts fed
  exact clear_node.1 (.made (clear_cons.2 ⟨items.trailLast, clear_nil⟩) nofun nofun)

end ScriptTree
