import ScriptTree.Proofs.Print.Writing

/-!
Every tree that follows the grammar is written somehow. The rank of an expression is fixed, and what
stands around it decides on its parentheses.
-/
namespace ScriptTree

open Print

structure Murmurs (aloud keep : Bool) (comments : List Comment) : Prop where
  silent : keep → comments = []
  beside : aloud → ∀ x ∈ comments, x.Beside

/-- The comments of a node can be printed on lines of their own; where they are kept, those of a
hollow block are inside it. -/
structure Value.Speaks (aloud keep : Bool) (v : Value) : Prop where
  inside : keep → v.isHollow → v.Alone
  legible : aloud → ∀ x ∈ v.comments, x.legible

/-- What a convention has to say for trees to be printed, and read again with the comments that are
kept. -/
structure Convention.Suits (s : Convention) (aloud keep : Bool) : Prop where
  literal : ∀ {v}, s.literal v → v.isPlain
  silent : ∀ {n}, s.silent n → Murmurs aloud keep n.comments
  alone : ∀ {v}, s.alone v → (keep → v.Alone) ∧ v.Speaks aloud keep ∧
    (aloud → v.isHollow = false → ∀ x ∈ v.comments, x.leading)
  listed : ∀ {vs}, s.listed vs → (keep → Arranged vs ∧ ∀ e ∈ vs, e.isHollow = false) ∧
    ∀ e ∈ vs, e.Speaks aloud keep

/-- An expression is written in all circumstances, though bare only where its `in` is no part of a
loop head. -/
def Expressible (aloud keep : Bool) (v : Value) : Prop :=
  Murmurs aloud keep v.comments ∧ ∃ rank, ∀ c : Context, c.comments = keep →
    (c.noIn → v.isIn = false) → ∃ ls, Writes aloud (.bare c rank) v ls

/-- A part of a tree is written in a form in all circumstances. -/
def Writable (aloud keep : Bool) (form : Context → Form) (v : Value) : Prop :=
  ∀ c : Context, c.comments = keep → ∃ ls, Writes aloud (form c) v ls

def Role.Written (aloud keep : Bool) : Role → Value → Prop
  | expression => Expressible aloud keep
  | binding => Writable aloud keep .binding
  | word => Writable aloud keep .word
  | key => Writable aloud keep .key
  | property => Writable aloud keep .property
  | block => fun v => v.Speaks aloud keep → Writable aloud keep .block v
  | declarator => Writable aloud keep .declarator
  | declaration => Writable aloud keep .declaration
  | loopInit => Writable aloud keep .loopInit
  | loopTarget => Writable aloud keep .loopTarget
  | handler => Writable aloud keep .handler
  | statement => fun v => v.Speaks aloud keep → Writable aloud keep .own v ∧
      (v.isKind .blockStatement → Writable aloud keep .block v) ∧
      (v.isKind .ifStatement → Writable aloud keep .choice v)
  | program => Writable aloud keep .program

variable {aloud keep : Bool} {v : Value} {vs : List Value} {s : Convention}

theorem Murmurs.kept {comments : List Comment} (murmurs : Murmurs aloud keep comments)
    {c : Context} (kept : c.comments = keep) (some : c.comments) : comments = [] :=
  murmurs.silent (kept ▸ some)

/-- Where comments are kept, what stands alone has none but those inside. -/
theorem Convention.Suits.kept (suits : s.Suits aloud keep) (alone : s.alone v) {c : Context}
    (kept : c.comments = keep) (some : c.comments) : v.Alone :=
  (suits.alone alone).1 (kept ▸ some)

/-- What is printed and read again as it was suits. -/
theorem Convention.tidy_suits (keep : Bool) : (Convention.tidy keep).Suits false keep where
  literal := id
  silent silent := ⟨silent, nofun⟩
  alone alone := ⟨alone, ⟨fun kept _ => alone kept, nofun⟩, nofun⟩
  listed listed := ⟨listed, fun e mem => ⟨fun kept hollow => by
    simp [(listed kept).2 e mem] at hollow, nofun⟩⟩

theorem Expressible.written (expressible : Expressible aloud keep v) (least : Nat) :
    Writable aloud keep (.expression · least) v := by
  obtain ⟨quiet, rank, bare⟩ := expressible
  intro c kept
  have silent (some : c.comments) : v.comments = [] := quiet.silent (kept ▸ some)
  by_cases loose : rank < least ∨ c.noIn ∧ v.isIn
  · obtain ⟨ls, inner⟩ := bare c.lifted kept nofun
    exact ⟨_, .closed inner loose silent quiet.beside⟩
  · rw [not_or, not_and, Nat.not_lt, Bool.not_eq_true] at loose
    obtain ⟨ls, inner⟩ := bare c kept loose.2
    exact ⟨_, .opened inner loose.1 silent quiet.beside⟩

theorem Writable.commas {form : Context → Form} (items : ∀ v ∈ vs, Writable aloud keep form v) :
    Writable aloud keep (fun c => .commas (form c)) (.list vs) := by
  intro c kept
  induction vs with
  | nil => exact ⟨_, .commasNone⟩
  | cons v vs ih =>
    obtain ⟨first, later⟩ := List.forall_mem_cons.mp items
    obtain ⟨ls, item⟩ := first c kept
    cases vs with
    | nil => exact ⟨_, .commasLast item⟩
    | cons w vs =>
      obtain ⟨ms, more⟩ := ih later
      exact ⟨_, .commasMore item more⟩

theorem Writable.elements (items : ∀ v ∈ vs, v ≠ .null → Expressible aloud keep v) :
    Writable aloud keep .elements (.list vs) := by
  intro c kept
  induction vs with
  | nil => exact ⟨_, .elementsNone⟩
  | cons v vs ih =>
    obtain ⟨first, later⟩ := List.forall_mem_cons.mp items
    cases vs with
    | nil =>
      by_cases hole : v = .null
      · exact hole ▸ ⟨_, .elementsHole⟩
      · obtain ⟨ls, item⟩ := (first hole).written assignmentRank c kept
        exact ⟨_, .elementsLast item⟩
    | cons w vs =>
      obtain ⟨ms, more⟩ := ih later
      by_cases hole : v = .null
      · exact hole ▸ ⟨_, .elementsSkip more⟩
      · obtain ⟨ls, item⟩ := (first hole).written assignmentRank c kept
        exact ⟨_, .elementsMore item more⟩

theorem Writable.arguments (items : ∀ v ∈ vs, Expressible aloud keep v) :
    Writable aloud keep .arguments (.list vs) := by
  intro c kept
  obtain ⟨ls, inner⟩ := Writable.commas (fun v mem => (items v mem).written assignmentRank)
    c.lifted kept
  exact ⟨_, .arguments inner⟩

theorem Expressible.object (expressible : Expressible aloud keep v) :
    Writable aloud keep .object v := by
  intro c kept
  obtain ⟨ls, inner⟩ := expressible.written callRank c kept
  cases number : isNumberLiteral v with
  | true => exact ⟨_, .objectNumber number inner⟩
  | false => exact ⟨_, .objectPlain number inner⟩

theorem rankOf?_spelling {o : TokenKind} {rank : Nat} (ranked : o.rank? = some rank) :
    TokenKind.rankOf? (text o.spelling) = some rank :=
  TokenKind.holds_of_rank ranked (by decide)

/-- The rank of an operation with an operator of a known rank. -/
theorem rank_operation {o : TokenKind} {rank : Nat} {l r : Value} {n : Notes}
    (ranked : o.rank? = some rank) :
    Print.rank (.node (Grammar.operationKind o) [.text (text o.spelling), l, r] n) =
      .ok (conditionalRank + rank) := by
  have known : operatorRank (.text (text o.spelling)) = .ok (conditionalRank + rank) := by
    simp only [operatorRank, rankOf?_spelling ranked]
  unfold Grammar.operationKind
  split <;> exact known

theorem mixesNullish_logical {op : Text} {own : Nat} {inner l r : Value} {n : Notes} :
    mixesNullish op own (.node .logicalExpression [inner, l, r] n) =
      if isLogicalWord op then
        if (op == text "??") == isOperator inner (text "??") then .ok false
        else (Print.rank (.node .logicalExpression [inner, l, r] n)).map fun r => decide (own ≤ r)
      else .ok false := by
  unfold mixesNullish
  cases isLogicalWord op with
  | false => rfl
  | true =>
    rw [if_pos rfl]
    change (if ((op == text "??") == isOperator inner (text "??")) = true then _ else _) = _
    split <;> rfl

/-- Of every expression it is known whether it mixes logical operators with another. -/
theorem Conforms.mixes (conforms : Conforms s .expression v) (op : Text)
    (own : Nat) : ∃ mixed, mixesNullish op own v = .ok mixed := by
  cases conforms with
  | name inner =>
    cases inner
    exact ⟨_, rfl⟩
  | @operation o rank l r n ranked =>
    have known := rank_operation (l := l) (r := r) (n := n) ranked
    unfold Grammar.operationKind at known ⊢
    split
    next logical =>
      rw [if_pos logical] at known
      rw [mixesNullish_logical, known]
      split
      · split <;> exact ⟨_, rfl⟩
      · exact ⟨_, rfl⟩
    next => exact ⟨_, rfl⟩
  | _ => exact ⟨_, rfl⟩

theorem Expressible.operand (expressible : Expressible aloud keep v)
    (conforms : Conforms s .expression v) (o : TokenKind) (rank least : Nat) :
    Writable aloud keep (.operand · o rank least) v := by
  intro c kept
  obtain ⟨ls, inner⟩ := expressible.written least c kept
  obtain ⟨mixed, known⟩ := conforms.mixes (text o.spelling) (conditionalRank + rank)
  cases mixed with
  | true => exact ⟨_, .operandMixed known inner⟩
  | false => exact ⟨_, .operandPlain known inner⟩

/-- The comments of a statement: some before it, then some after it. -/
def Value.Arranges (v : Value) (before after : List Comment) : Prop :=
  v.comments = before ++ after ∧ (∀ c ∈ before, c.Before) ∧ ∀ c ∈ after, c.After

theorem filter_arranged {before after : List Comment} (first : ∀ c ∈ before, c.Before)
    (last : ∀ c ∈ after, c.After) :
    (before ++ after).filter (·.leading) = before ∧
      (before ++ after).filter (!·.leading) = after := by
  have leading : ∀ c ∈ before, c.leading = true := fun c mem => (first c mem).2
  have trailing : ∀ c ∈ after, c.leading = false := fun c mem => (last c mem).2
  constructor
  · rw [List.filter_append, List.filter_eq_self.mpr leading,
      List.filter_eq_nil_iff.mpr (by simpa using trailing), List.append_nil]
  · rw [List.filter_append, List.filter_eq_nil_iff.mpr (by simpa using leading),
      List.filter_eq_self.mpr (by simpa using trailing), List.nil_append]

theorem Value.Arranges.comments {before after : List Comment} (arranges : v.Arranges before after)
    {c : Context} (kept : c.comments) :
    leadingComments c v = before ∧ trailingComments c v = after := by
  obtain ⟨split, first, last⟩ := arranges
  rw [leadingComments, trailingComments, if_pos kept, if_pos kept, split]
  exact filter_arranged first last

theorem Writable.statement (own : Writable aloud keep .own v) (solid : keep → v.isHollow = false)
    (arranged : keep → ∃ before after, v.Arranges before after)
    (legible : aloud → ∀ x ∈ v.comments, x.legible) : Writable aloud keep .statement v := by
  intro c kept
  obtain ⟨ls, inner⟩ := own c kept
  refine ⟨_, .statement inner (fun some => solid (kept ▸ some)) ?_ ?_⟩
  · intro printed x mem
    rcases (Bool.or_eq_true _ _).mp printed with loud | some
    · exact legible loud x mem
    · obtain ⟨before, after, split, first, last⟩ := arranged (kept ▸ some)
      rw [split, List.mem_append] at mem
      exact mem.elim (fun mem => (first x mem).1) fun mem => (last x mem).1
  · intro some
    obtain ⟨before, after, arranges⟩ := arranged (kept ▸ some)
    obtain ⟨leading, trailing⟩ := arranges.comments some
    rw [leading, trailing]
    exact arranges.1

theorem Writable.lines (some : vs ≠ []) (items : ∀ v ∈ vs, Writable aloud keep .own v)
    (listed : keep → Arranged vs ∧ ∀ e ∈ vs, e.isHollow = false)
    (speaks : ∀ e ∈ vs, e.Speaks aloud keep) : Writable aloud keep .lines (.list vs) := by
  intro c kept
  induction vs with
  | nil => exact absurd rfl some
  | cons v vs ih =>
    obtain ⟨first, later⟩ := List.forall_mem_cons.mp items
    obtain ⟨⟨_, legible⟩, others⟩ := List.forall_mem_cons.mp speaks
    have solid (keeps : keep) : v.isHollow = false := (listed keeps).2 v List.mem_cons_self
    cases vs with
    | nil =>
      have arranged (keeps : keep) : ∃ before after, v.Arranges before after :=
        (listed keeps).1 (solid keeps)
      obtain ⟨ls, item⟩ := first.statement solid arranged legible c kept
      exact ⟨_, .linesLast item⟩
    | cons w vs =>
      have arranged (keeps : keep) : v.Arranges v.comments [] :=
        ⟨(List.append_nil _).symm, (listed keeps).1.1 (solid keeps), nofun⟩
      obtain ⟨ls, item⟩ := first.statement solid (fun keeps => ⟨_, _, arranged keeps⟩) legible c
        kept
      obtain ⟨ms, more⟩ := ih nofun later (fun keeps =>
        ⟨(listed keeps).1.2, fun e mem => (listed keeps).2 e (List.mem_cons_of_mem _ mem)⟩) others
      refine ⟨_, .linesMore item ?_ more⟩
      cases keep with
      | true => exact ((arranged rfl).comments kept).2
      | false => simp [trailingComments, kept]

theorem Conforms.hollow (conforms : Conforms s .statement v)
    (hollow : v.isHollow) : v.isKind .blockStatement := by
  unfold Value.isHollow at hollow
  split at hollow
  · rfl
  · cases conforms.isKind rfl
  · cases hollow

theorem Writable.body (conforms : Conforms s .statement v)
    (written : Role.Written aloud keep .statement v) (suits : s.Suits aloud keep)
    (alone : s.alone v) : Writable aloud keep .body v := by
  intro c kept
  obtain ⟨alone, speaks, _⟩ := suits.alone alone
  obtain ⟨own, block, _⟩ := written speaks
  have alone (some : c.comments) : v.Alone := alone (kept ▸ some)
  cases isBlock : v.isKind .blockStatement with
  | true =>
    obtain ⟨ls, inner⟩ := block isBlock c kept
    exact ⟨_, .bodyBlock inner alone⟩
  | false =>
    have solid : v.isHollow = false := by
      cases hollow : v.isHollow with
      | true => exact isBlock ▸ (conforms.hollow hollow).symm
      | false => rfl
    have silent (keeps : keep) : v.comments = [] := by
      have := alone (kept ▸ keeps)
      rwa [Value.Alone, if_neg (by simp [solid])] at this
    have arranged (keeps : keep) : ∃ before after, v.Arranges before after :=
      ⟨[], [], silent keeps, nofun, nofun⟩
    obtain ⟨ls, inner⟩ := own.statement (fun _ => solid) arranged speaks.legible c.deeper kept
    exact ⟨_, .bodyLine isBlock inner alone⟩

theorem Writable.part (value : v ≠ .null → Expressible aloud keep v) :
    Writable aloud keep .loopPart v := by
  intro c kept
  by_cases none : v = .null
  · exact none ▸ ⟨_, .partNone⟩
  · obtain ⟨ls, inner⟩ := (value none).written sequenceRank c kept
    exact ⟨_, .partSome inner⟩

theorem Writable.own (choice : Writable aloud keep .choice v) : Writable aloud keep .own v := by
  intro c kept
  obtain ⟨ls, inner⟩ := choice c kept
  exact ⟨_, .ownChoice inner⟩

theorem Value.Speaks.trailing {c : Context} (speaks : v.Speaks aloud keep) (hollow : v.isHollow)
    (kept : c.comments = keep) : ∀ x ∈ trailingComments (c.aloud aloud) v, x.legible := by
  intro x mem
  unfold trailingComments at mem
  split at mem
  next printed =>
    have mem := (List.mem_filter.mp mem).1
    rcases (Bool.or_eq_true _ _).mp printed with loud | some
    · exact speaks.legible loud x mem
    · have alone := speaks.inside (kept ▸ some) hollow
      rw [Value.Alone, if_pos hollow] at alone
      exact (alone x mem).1
  next => cases mem

/-- A block without statements has its comments inside. -/
theorem Writable.hollow {n : Notes}
    (speaks : Value.Speaks aloud keep (.node .blockStatement [.list []] n)) :
    Writable aloud keep .block (.node .blockStatement [.list []] n) := by
  intro c kept
  cases some : trailingComments (c.aloud aloud) (.node .blockStatement [.list []] n) with
  | nil => exact ⟨_, .blockNone some⟩
  | cons x xs =>
    refine ⟨_, .blockRemarks some fun y mem => ?_⟩
    rw [← some] at mem
    exact speaks.trailing rfl kept y mem

theorem Expressible.function {i b : Value} {ps : List Value} {n : Notes}
    (suits : s.Suits aloud keep) (silent : s.silent n) (alone : s.alone b)
    (name : i ≠ .null → Writable aloud keep .binding i)
    (params : ∀ p ∈ ps, Writable aloud keep .binding p) (body : Role.Written aloud keep .block b) :
    Expressible aloud keep (.node .functionExpression [i, .list ps, b] n) := by
  refine ⟨suits.silent silent, primaryRank, fun c kept _ => ?_⟩
  obtain ⟨ms, params⟩ := Writable.commas params c kept
  obtain ⟨ns, body⟩ := body (suits.alone alone).2.1 c kept
  by_cases none : i = .null
  · exact none ▸ ⟨_, .functionExpression (.functionUnnamed params body (suits.kept alone kept))⟩
  · obtain ⟨ls, name⟩ := name none c kept
    exact ⟨_, .functionExpression (.functionNamed name params body (suits.kept alone kept))⟩

theorem Writable.init (init : v ≠ .null → Writable aloud keep .loopInit v) :
    Writable aloud keep .loopInit v := by
  intro c kept
  by_cases none : v = .null
  · exact none ▸ ⟨_, .initNone⟩
  · exact init none c kept

theorem Writable.choiceShort {t l : Value} {n : Notes} (suits : s.Suits aloud keep)
    (consequent : Conforms s .statement l) (alone : s.alone l) (test : Expressible aloud keep t)
    (left : Role.Written aloud keep .statement l) :
    Writable aloud keep .choice (.node .ifStatement [t, l, .null] n) := by
  intro c kept
  obtain ⟨ls, test⟩ := test.written sequenceRank c kept
  obtain ⟨ms, left⟩ := Writable.body consequent left suits alone c kept
  exact ⟨_, .choiceShort test left⟩

/-- An `if` after an `else` stands on the same line, any other statement is a body. -/
theorem Writable.choiceElse {t l r : Value} {n : Notes} (suits : s.Suits aloud keep)
    (consequent : Conforms s .statement l) (alternate : Conforms s .statement r)
    (closed : l.endsOpen = false) (first : s.alone l) (second : s.alone r)
    (test : Expressible aloud keep t) (left : Role.Written aloud keep .statement l)
    (right : Role.Written aloud keep .statement r) :
    Writable aloud keep .choice (.node .ifStatement [t, l, r] n) := by
  intro c kept
  obtain ⟨ls, test⟩ := test.written sequenceRank c kept
  obtain ⟨ms, left⟩ := Writable.body consequent left suits first c kept
  cases chain : r.isKind .ifStatement with
  | true =>
    obtain ⟨ns, right⟩ := (right (suits.alone second).2.1).2.2 chain c kept
    exact ⟨_, .choiceChain test left closed right (suits.kept second kept)⟩
  | false =>
    obtain ⟨ns, right⟩ := Writable.body alternate right suits second c kept
    exact ⟨_, .choiceElse test left closed chain right⟩

theorem Writable.guarded {b h z : Value} {n : Notes} (suits : s.Suits aloud keep)
    (both : (h.isNull && z.isNull) = false) (first : s.alone b) (last : z ≠ .null → s.alone z)
    (guarded : Role.Written aloud keep .block b)
    (handler : h ≠ .null → Writable aloud keep .handler h)
    (finalizer : z ≠ .null → Role.Written aloud keep .block z) :
    Writable aloud keep .own (.node .tryStatement [b, h, z] n) := by
  intro c kept
  obtain ⟨ls, guarded⟩ := guarded (suits.alone first).2.1 c kept
  have first (some : c.comments) := suits.kept first kept some
  by_cases noHandler : h = .null
  · have finally' : z ≠ .null := by
      rintro rfl
      simp [noHandler, Value.isNull] at both
    obtain ⟨ns, finalizer⟩ := finalizer finally' (suits.alone (last finally')).2.1 c kept
    exact noHandler ▸ ⟨_, .tryFinal guarded first finalizer (suits.kept (last finally') kept)⟩
  · obtain ⟨ms, handler⟩ := handler noHandler c kept
    by_cases noFinally : z = .null
    · exact noFinally ▸ ⟨_, .tryHandled guarded first handler⟩
    · obtain ⟨ns, finalizer⟩ := finalizer noFinally (suits.alone (last noFinally)).2.1 c kept
      exact ⟨_, .tryBoth guarded first handler finalizer (suits.kept (last noFinally) kept)⟩

/-- A program with statements has no comments after them. -/
theorem Convention.Suits.trailing {es : List Value} {n : Notes} {c : Context}
    (suits : s.Suits aloud keep) (alone : s.alone (.node .program [.list es] n)) (some : es ≠ [])
    (kept : c.comments = keep) :
    trailingComments (c.aloud aloud) (.node .program [.list es] n) = [] := by
  obtain ⟨single, _, leads⟩ := suits.alone alone
  have solid : (Value.node .program [.list es] n).isHollow = false := by
    cases es with
    | nil => exact absurd rfl some
    | cons => rfl
  unfold trailingComments
  split
  next printed =>
    rw [List.filter_eq_nil_iff]
    intro x mem
    rcases (Bool.or_eq_true _ _).mp printed with loud | keeps
    · simp [leads loud solid x mem]
    · have quiet := single (kept ▸ keeps)
      rw [Value.Alone, if_neg (by simp [solid])] at quiet
      rw [quiet] at mem
      cases mem
  next => rfl

theorem written_names (suits : s.Suits aloud keep) :
    Role.Family.names.Keeps s (Role.Written aloud keep) := by
  intro r v conforms rule family
  induction rule using Conforms.below.casesOn with cases family
  | binding name silent =>
    obtain ⟨silent, beside⟩ := suits.silent silent
    exact fun c kept => ⟨_, .binding name (fun some => silent (kept ▸ some)) beside⟩
  | word word silent =>
    obtain ⟨silent, beside⟩ := suits.silent silent
    exact fun c kept => ⟨_, .word word (fun some => silent (kept ▸ some)) beside⟩
  | keyWord _ _ ih =>
    intro c kept
    obtain ⟨ls, inner⟩ := ih c kept
    exact ⟨_, .keyWord inner⟩
  | keyLiteral key plain silent =>
    obtain ⟨silent, beside⟩ := suits.silent silent
    exact fun c kept => ⟨_, .keyLiteral key (suits.literal plain)
      (fun some => silent (kept ▸ some)) beside⟩

theorem written_expressions (suits : s.Suits aloud keep) :
    Role.Family.expressions.Keeps s (Role.Written aloud keep) := by
  intro r v conforms rule family
  induction rule using Conforms.below.casesOn with cases family
  | name inner =>
    cases inner with
    | binding name silent => exact ⟨suits.silent silent, _, fun c _ _ => ⟨_, .name name⟩⟩
  | literal plain silent =>
    exact ⟨suits.silent silent, _, fun c _ _ => ⟨_, .literal (suits.literal plain)⟩⟩
  | this silent => exact ⟨suits.silent silent, _, fun c _ _ => ⟨_, .this⟩⟩
  | array _ silent _ ih =>
    refine ⟨suits.silent silent, primaryRank, fun c kept _ => ?_⟩
    obtain ⟨ls, inner⟩ := Writable.elements ih c.lifted kept
    exact ⟨_, .array inner⟩
  | @object es _ _ silent _ ih =>
    refine ⟨suits.silent silent, primaryRank, fun c kept _ => ?_⟩
    cases es with
    | nil => exact ⟨_, .objectNone⟩
    | cons e es =>
      obtain ⟨ls, inner⟩ := Writable.commas ih c.lifted kept
      exact ⟨_, .objectSome inner⟩
  | functionExpression _ _ _ alone silent _ name _ params _ body =>
    exact .function suits silent alone name params body
  | arrowBlock _ _ alone silent _ params _ body =>
    refine ⟨suits.silent silent, assignmentRank, fun c kept _ => ?_⟩
    obtain ⟨ms, params⟩ := Writable.commas params c kept
    obtain ⟨ns, body⟩ := body (suits.alone alone).2.1 c kept
    exact ⟨_, .arrowBlock params body (suits.kept alone kept)⟩
  | arrowValue _ _ silent _ params _ body =>
    refine ⟨suits.silent silent, assignmentRank, fun c kept _ => ?_⟩
    obtain ⟨ms, params⟩ := Writable.commas params c kept
    obtain ⟨ns, body⟩ := body.written assignmentRank c.lifted kept
    cases brace : (layout ns).startsWith (text "\x7b") with
    | true => exact ⟨_, .arrowObject params body brace⟩
    | false => exact ⟨_, .arrowValue params body brace⟩
  | unary operator _ silent _ operand =>
    refine ⟨suits.silent silent, unaryRank, fun c kept _ => ?_⟩
    obtain ⟨ls, operand⟩ := operand.written unaryRank c kept
    exact ⟨_, .unary operator operand⟩
  | @update o before v n operator target _ silent _ operand =>
    cases before with
    | true =>
      refine ⟨suits.silent silent, unaryRank, fun c kept _ => ?_⟩
      obtain ⟨ls, operand⟩ := operand.written postfixRank c kept
      exact ⟨_, .stepBefore operator target operand⟩
    | false =>
      refine ⟨suits.silent silent, postfixRank, fun c kept _ => ?_⟩
      obtain ⟨ls, operand⟩ := operand.written callRank c kept
      exact ⟨_, .stepAfter operator target operand⟩
  | @operation o rank l r n ranked first second silent _ left _ right =>
    refine ⟨suits.silent silent, conditionalRank + rank, fun c kept bare => ?_⟩
    have bar (noIn : c.noIn) : o ≠ .kwIn := by
      rintro rfl
      cases bare noIn
    obtain ⟨ls, left⟩ := left.operand first o rank (leftLeast o rank) c kept
    obtain ⟨ms, right⟩ := right.operand second o rank (rightLeast o rank) c kept
    exact ⟨_, .operation ranked bar left right⟩
  | assignment operator target _ _ silent _ left _ right =>
    refine ⟨suits.silent silent, assignmentRank, fun c kept _ => ?_⟩
    obtain ⟨ls, left⟩ := left.written callRank c kept
    obtain ⟨ms, right⟩ := right.written assignmentRank c kept
    exact ⟨_, .assignment operator target left right⟩
  | conditional _ _ _ silent _ test _ left _ right =>
    refine ⟨suits.silent silent, conditionalRank, fun c kept _ => ?_⟩
    obtain ⟨ls, test⟩ := test.written (conditionalRank + 1) c kept
    obtain ⟨ms, left⟩ := left.written assignmentRank c.lifted kept
    obtain ⟨ns, right⟩ := right.written assignmentRank c kept
    exact ⟨_, .conditional test left right⟩
  | call _ _ silent _ callee _ args =>
    refine ⟨suits.silent silent, callRank, fun c kept _ => ?_⟩
    obtain ⟨ls, callee⟩ := callee.written callRank c kept
    obtain ⟨ms, args⟩ := Writable.arguments args c kept
    exact ⟨_, .call callee args⟩
  | @construction callee _ _ _ _ silent _ ih _ args =>
    refine ⟨suits.silent silent, callRank, fun c kept _ => ?_⟩
    obtain ⟨ls, inner⟩ := ih.written callRank c kept
    obtain ⟨ms, args⟩ := Writable.arguments args c kept
    cases call : startsWithCall callee with
    | true => exact ⟨_, .construction (.calleeCall call inner) args⟩
    | false => exact ⟨_, .construction (.calleePlain call inner) args⟩
  | memberNamed _ _ silent _ object _ name =>
    refine ⟨suits.silent silent, callRank, fun c kept _ => ?_⟩
    obtain ⟨ls, object⟩ := object.object c kept
    obtain ⟨ms, name⟩ := name c kept
    exact ⟨_, .memberNamed object name⟩
  | memberIndexed _ _ silent _ object _ index =>
    refine ⟨suits.silent silent, callRank, fun c kept _ => ?_⟩
    obtain ⟨ls, object⟩ := object.object c kept
    obtain ⟨ms, index⟩ := index.written sequenceRank c.lifted kept
    exact ⟨_, .memberIndexed object index⟩
  | @sequence es _ many _ silent _ items =>
    refine ⟨suits.silent silent, sequenceRank, fun c kept _ => ?_⟩
    obtain ⟨ls, items⟩ := Writable.commas (fun e mem => (items e mem).written assignmentRank) c kept
    match es with
    | v :: w :: vs => exact ⟨_, .sequence items⟩

theorem written_parts (suits : s.Suits aloud keep) :
    Role.Family.parts.Keeps s (Role.Written aloud keep) := by
  intro r v conforms rule family
  induction rule using Conforms.below.casesOn with cases family
  | computed _ _ silent _ key _ value =>
    intro c kept
    obtain ⟨ls, key⟩ := key.written assignmentRank c kept
    obtain ⟨ms, value⟩ := value.written assignmentRank c kept
    exact ⟨_, .computed key value ((suits.silent silent).kept kept)⟩
  | keyed _ _ silent _ key _ value =>
    intro c kept
    obtain ⟨ls, key⟩ := key c kept
    obtain ⟨ms, value⟩ := value.written assignmentRank c kept
    exact ⟨_, .keyed key value ((suits.silent silent).kept kept)⟩
  | shorthand name key value silent =>
    exact fun c kept => ⟨_, .shorthand name ((suits.silent key).kept kept)
      ((suits.silent value).kept kept) ((suits.silent silent).kept kept)
      (suits.silent value).beside⟩
  | @declarator i v n _ _ silent _ name _ init =>
    intro c kept
    obtain ⟨ls, name⟩ := name c kept
    by_cases none : v = .null
    · exact none ▸ ⟨_, .declaratorBare name ((suits.silent silent).kept kept)⟩
    · obtain ⟨ms, init⟩ := (init none).written assignmentRank c kept
      exact ⟨_, .declaratorInit name init ((suits.silent silent).kept kept)⟩
  | @declaration k es n word some _ _ items =>
    intro c kept
    obtain ⟨ls, inner⟩ := Writable.commas items c kept
    cases es with
    | nil => exact absurd rfl some
    | cons e es => exact ⟨_, .declaration word inner⟩
  | loopDeclaration _ silent _ ih =>
    intro c kept
    obtain ⟨ls, inner⟩ := ih c.loopHead kept
    exact ⟨_, .initDeclaration inner ((suits.silent silent).kept kept)⟩
  | loopExpression _ _ ih =>
    intro c kept
    obtain ⟨ls, inner⟩ := ih.written sequenceRank c.loopHead kept
    exact ⟨_, .initExpression inner⟩
  | loopVariable word _ inner silent _ name =>
    intro c kept
    obtain ⟨ls, name⟩ := name c kept
    exact ⟨_, .targetVariable word name fun some =>
      ⟨(suits.silent inner).kept kept some, (suits.silent silent).kept kept some⟩⟩
  | loopPlace target _ _ ih =>
    intro c kept
    obtain ⟨ls, inner⟩ := ih.written callRank c kept
    exact ⟨_, .targetPlace target inner⟩

theorem written_blocks (suits : s.Suits aloud keep) :
    Role.Family.blocks.Keeps s (Role.Written aloud keep) := by
  intro r v conforms rule family
  induction rule using Conforms.below.casesOn with cases family
  | @block es n _ listed _ items =>
    intro alone
    cases es with
    | nil => exact .hollow alone
    | cons e es =>
      intro c kept
      obtain ⟨listed, speaks⟩ := suits.listed listed
      have own (v : Value) (mem : v ∈ e :: es) : Writable aloud keep .own v :=
        (items v mem (speaks v mem)).1
      obtain ⟨ls, inner⟩ := Writable.lines (List.cons_ne_nil e es) own listed speaks c.lifted.deeper
        kept
      exact ⟨_, .block inner⟩
  | @handler p b n _ _ alone silent _ param _ body =>
    intro c kept
    obtain ⟨ms, body⟩ := body (suits.alone alone).2.1 c kept
    have alone (some : c.comments) := suits.kept alone kept some
    have silent (some : c.comments) := (suits.silent silent).kept kept some
    by_cases none : p = .null
    · exact none ▸ ⟨_, .handlerBare body alone silent⟩
    · obtain ⟨ls, param⟩ := param none c kept
      exact ⟨_, .handlerNamed param body alone silent⟩
  | @program es n _ listed alone _ items =>
    intro c kept
    cases es with
    | nil =>
      have speaks := (suits.alone alone).2.1
      cases some : trailingComments (c.aloud aloud) (.node .program [.list []] n) with
      | nil => exact ⟨_, .programNone some⟩
      | cons x xs =>
        refine ⟨_, .programRemarks some fun y mem => ?_⟩
        rw [← some] at mem
        exact speaks.trailing rfl kept y mem
    | cons e es =>
      obtain ⟨listed, speak⟩ := suits.listed listed
      have own (v : Value) (mem : v ∈ e :: es) : Writable aloud keep .own v :=
        (items v mem (speak v mem)).1
      obtain ⟨ls, inner⟩ := Writable.lines (List.cons_ne_nil e es) own listed speak c kept
      exact ⟨_, .program inner (suits.trailing alone nofun kept)⟩

theorem written_statements (suits : s.Suits aloud keep) :
    Role.Family.statements.Keeps s (Role.Written aloud keep) := by
  intro r v conforms rule family
  induction rule using Conforms.below.casesOn with cases family
  | blockStatement inner _ ih =>
    intro alone
    have block := ih alone
    refine ⟨fun c kept => ?_, fun _ => block, ?_⟩
    · obtain ⟨ls, inner⟩ := block c kept
      exact ⟨_, .ownBlock inner⟩
    · cases inner
      nofun
  | declarationStatement inner _ ih =>
    intro _
    refine ⟨fun c kept => ?_, ?_⟩
    · obtain ⟨ls, inner⟩ := ih c kept
      exact ⟨_, .ownDeclaration inner⟩
    · cases inner
      exact ⟨nofun, nofun⟩
  | emptyStatement => exact fun _ => ⟨fun c _ => ⟨_, .ownEmpty⟩, nofun, nofun⟩
  | expressionStatement _ _ ih =>
    refine fun _ => ⟨fun c kept => ?_, nofun, nofun⟩
    obtain ⟨ls, inner⟩ := ih.written sequenceRank c kept
    cases clash : clashes (layout ls) with
    | true => exact ⟨_, .ownClash inner clash⟩
    | false => exact ⟨_, .ownExpression inner clash⟩
  | functionDeclaration _ _ _ alone _ name _ params _ body =>
    refine fun _ => ⟨fun c kept => ?_, nofun, nofun⟩
    obtain ⟨ls, name⟩ := name c kept
    obtain ⟨ms, params⟩ := Writable.commas params c kept
    obtain ⟨ns, body⟩ := body (suits.alone alone).2.1 c kept
    exact ⟨_, .ownFunction (.functionNamed name params body (suits.kept alone kept))⟩
  | @returnStatement v n _ _ ih =>
    refine fun _ => ⟨fun c kept => ?_, nofun, nofun⟩
    by_cases none : v = .null
    · exact none ▸ ⟨_, .returnBare⟩
    · obtain ⟨ls, value⟩ := (ih none).written sequenceRank c kept
      exact ⟨_, .returnValue value⟩
  | @breakStatement v n _ _ ih =>
    refine fun _ => ⟨fun c kept => ?_, nofun, nofun⟩
    by_cases none : v = .null
    · exact none ▸ ⟨_, .breakBare⟩
    · obtain ⟨ls, label⟩ := ih none c kept
      exact ⟨_, .breakLabel label⟩
  | @continueStatement v n _ _ ih =>
    refine fun _ => ⟨fun c kept => ?_, nofun, nofun⟩
    by_cases none : v = .null
    · exact none ▸ ⟨_, .continueBare⟩
    · obtain ⟨ls, label⟩ := ih none c kept
      exact ⟨_, .continueLabel label⟩
  | throwStatement _ _ ih =>
    refine fun _ => ⟨fun c kept => ?_, nofun, nofun⟩
    obtain ⟨ls, value⟩ := ih.written sequenceRank c kept
    exact ⟨_, .throwValue value⟩
  | @ifShort _ _ n _ consequent alone _ test _ left =>
    have choice := Writable.choiceShort (n := n) suits consequent alone test left
    exact fun _ => ⟨choice.own, nofun, fun _ => choice⟩
  | @ifElse _ _ _ n _ consequent alternate closed first second _ test _ left _ right =>
    have choice :=
      Writable.choiceElse (n := n) suits consequent alternate closed first second test left right
    exact fun _ => ⟨choice.own, nofun, fun _ => choice⟩
  | forStatement _ _ _ inner alone _ init _ test _ update _ body =>
    refine fun _ => ⟨fun c kept => ?_, nofun, nofun⟩
    obtain ⟨ls, init⟩ := Writable.init init c kept
    obtain ⟨ms, test⟩ := Writable.part test c kept
    obtain ⟨ns, update⟩ := Writable.part update c kept
    obtain ⟨os, body⟩ := Writable.body inner body suits alone c kept
    exact ⟨_, .forCounted init test update body⟩
  | forIn _ _ inner alone _ left _ right _ body =>
    refine fun _ => ⟨fun c kept => ?_, nofun, nofun⟩
    obtain ⟨ls, left⟩ := left c kept
    obtain ⟨ms, right⟩ := right.written assignmentRank c kept
    obtain ⟨ns, body⟩ := Writable.body inner body suits alone c kept
    exact ⟨_, .forIn left right body⟩
  | forOf _ _ inner alone _ left _ right _ body =>
    refine fun _ => ⟨fun c kept => ?_, nofun, nofun⟩
    obtain ⟨ls, left⟩ := left c kept
    obtain ⟨ms, right⟩ := right.written assignmentRank c kept
    obtain ⟨ns, body⟩ := Writable.body inner body suits alone c kept
    exact ⟨_, .forOf left right body⟩
  | whileStatement _ inner alone _ test _ body =>
    refine fun _ => ⟨fun c kept => ?_, nofun, nofun⟩
    obtain ⟨ls, test⟩ := test.written sequenceRank c kept
    obtain ⟨ms, body⟩ := Writable.body inner body suits alone c kept
    exact ⟨_, .whileLoop test body⟩
  | doWhile inner _ alone _ body _ test =>
    refine fun _ => ⟨fun c kept => ?_, nofun, nofun⟩
    obtain ⟨ls, body⟩ := Writable.body inner body suits alone c kept
    obtain ⟨ms, test⟩ := test.written sequenceRank c kept
    exact ⟨_, .doLoop body test⟩
  | tryStatement _ _ _ both first last _ guarded _ handler _ finalizer =>
    exact fun _ => ⟨.guarded suits both first last guarded handler finalizer, nofun, nofun⟩

/-- A tree of a convention that suits is written. -/
theorem Conforms.written {r : Role} (suits : s.Suits aloud keep) (conforms : Conforms s r v) :
    r.Written aloud keep v :=
  conforms.byFamily fun
    | .names => written_names suits
    | .expressions => written_expressions suits
    | .parts => written_parts suits
    | .blocks => written_blocks suits
    | .statements => written_statements suits

end ScriptTree
