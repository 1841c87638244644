import ScriptTree.Proofs.Grammar.Spans

/-!
Expressions by themselves. Where the word `in` is no operator, an expression that it does not follow
is read as elsewhere. Before the end of input, an operand or an operation of any rank is a whole
expression.
-/
namespace ScriptTree.Grammar

open Value

variable {f g h : Feed} {p : Part} {v w : Value}

@[simp] theorem Feed.node_lift {kind : Kind} {vs : List Value} {start : Mark} :
    f.lift.node kind vs start = f.node kind vs start := rfl

@[simp] theorem Feed.spelled_lift : f.lift.spelled = f.spelled := rfl

@[simp] theorem Feed.literal_lift : f.lift.literal v = f.literal v := by
  simp only [Feed.literal, Feed.next_lift, Feed.node_lift, Feed.lift_current]

@[simp] theorem Feed.startsArrow_lift : f.lift.startsArrow = f.startsArrow := rfl

def Part.isInline : Part → Bool
  | commas .assignment | nested | group | sequence | assignment | arrow | arrowParameters
  | conditional | binary _ | operations .. | unary | stepped | access | head | member ..
  | members .. | accesses .. | construction | arguments | primary | elements | property
  | parameters | function _ | block | binding | propertyName => true
  | closed _ .nested | closed _ .property | closed _ .binding => true
  | _ => false

/-- Whether the word `in` is an operator at a feed, should it stand there. -/
def Feed.IsFree (f : Feed) : Prop := f.noIn → f.current.kind ≠ .kwIn

theorem Feed.IsFree.of_kind {k : TokenKind} (kind : f.current.kind = k)
    (other : k ≠ .kwIn) : f.IsFree := fun _ => kind ▸ other

theorem Feed.IsFree.rank? (free : f.IsFree) : f.lift.rank? = f.rank? := by
  unfold Feed.rank?
  by_cases word : f.current.kind = .kwIn <;> cases barred : f.noIn <;>
    simp_all [Feed.IsFree]

theorem Feed.IsFree.of_rank {rank : Nat} (ranked : f.rank? = some rank) : f.IsFree := by
  intro barred word
  simp [Feed.rank?, barred, word] at ranked

def Part.Lifts (p : Part) (f : Feed) (v : Value) (g : Feed) : Prop :=
  p.isInline → g.IsFree → Reads p f.lift v g.lift

/-- What goes on with a chain, or stops after it, is not the word `in` where that is no operator. -/
theorem Reads.free (more : Reads p g w h) (chain : p.fresh = false) (free : h.IsFree) :
    g.IsFree := by
  cases more with
  | operationsStop | membersStop | accessesStop => exact free
  | operationsMore ranked => exact .of_rank ranked
  | counted semicolon => exact .of_kind semicolon nofun
  | memberNamed dot => exact .of_kind dot nofun
  | memberIndexed bracket => exact .of_kind bracket nofun
  | membersMore first | accessesMember first =>
    cases first with
    | memberNamed dot => exact .of_kind dot nofun
    | memberIndexed bracket => exact .of_kind bracket nofun
  | accessesCall args =>
    cases args with
    | arguments paren => exact .of_kind paren nofun
  | commasLast | commasMore | closedNone | closedLast | closedMore => cases chain
  | _ => cases chain

theorem lifts_lists : Part.Family.lists.Keeps Part.Lifts := by
  intro p f v g read rule family inline free
  induction rule using Reads.below.casesOn with cases family
  | @commasLast e f g v item stop _ ih =>
    have only := ih (by cases e <;> first | rfl | cases inline) free
    exact .commasLast (f := f.lift) (g := g.lift) only stop
  | @commasMore e f g h v vs item comma more _ ih₁ _ ih₂ =>
    have first := ih₁ (by cases e <;> first | rfl | cases inline) (.of_kind comma nofun)
    exact .commasMore (g := g.lift) first comma (Feed.next_lift ▸ ih₂ inline free)
  | @closedNone k e f close => exact .closedNone (f := f.lift) close
  | @closedLast k e f g v start item stop _ ih =>
    have first := ih (by cases e <;> first | rfl | cases inline) free
    exact .closedLast (f := f.lift) (g := g.lift) start first stop
  | @closedMore k e f g h v vs start item comma more _ ih₁ _ ih₂ =>
    have first := ih₁ (by cases e <;> first | rfl | cases inline) (.of_kind comma nofun)
    exact .closedMore (f := f.lift) (g := g.lift) start first comma
      (Feed.next_lift ▸ ih₂ inline free)
  | @elementsNone f close => exact .elementsNone (f := f.lift) close
  | @elementsHole f g vs comma more _ ih =>
    exact .elementsHole (f := f.lift) comma (Feed.next_lift ▸ ih rfl free)
  | @elementsLast f g v close comma item stop _ ih =>
    exact .elementsLast (f := f.lift) (g := g.lift) close comma (ih rfl free) stop
  | @elementsMore f g h v vs close comma item next more _ ih₁ _ ih₂ =>
    exact .elementsMore (f := f.lift) (g := g.lift) close comma (ih₁ rfl (.of_kind next nofun)) next
      (Feed.next_lift ▸ ih₂ rfl free)
  | _ => cases inline

theorem lifts_names : Part.Family.names.Keeps Part.Lifts := by
  intro p f v g read rule family inline free
  induction rule using Reads.below.casesOn with cases family
  | @binding f name => simpa [Feed.next_lift] using Reads.binding (f := f.lift) name
  | @propertyName f name => simpa [Feed.next_lift] using Reads.propertyName (f := f.lift) name
  | @nested f g v inner =>
    have again : Reads .nested f.lift v (g.resume f.lift) := .nested inner
    exact again
  | @group f g v inner =>
    have again : Reads .group f.lift v (g.resume f.lift) := .group inner
    exact again
  | @arguments f g v opening items close _ ih =>
    have inner : Reads (.closed .rightParen .nested) f.lift.next v g.lift :=
      Feed.next_lift ▸ ih rfl (.of_kind close nofun)
    simpa [Feed.next_lift] using Reads.arguments (f := f.lift) (g := g.lift) opening inner close
  | @parameters f g v opening items close _ ih =>
    have inside : Reads (.closed .rightParen .binding) f.lift.next v g.lift :=
      Feed.next_lift ▸ ih rfl (.of_kind close nofun)
    simpa [Feed.next_lift] using Reads.parameters (f := f.lift) (g := g.lift) opening inside close
  | _ => cases inline

theorem lifts_assignments : Part.Family.assignments.Keeps Part.Lifts := by
  intro p f v g read rule family inline free
  induction rule using Reads.below.casesOn with cases family
  | @single f g v item stop _ ih => exact .single (g := g.lift) (ih rfl free) stop
  | @sequence f g h v vs first comma more _ ih₁ _ ih₂ =>
    exact .sequence (f := f.lift) (g := g.lift) (h := h.lift)
      (ih₁ rfl (.of_kind comma nofun)) comma (Feed.next_lift ▸ ih₂ rfl free)
  | @arrowFunction f g v starts inner _ ih =>
    exact .arrowFunction (f := f.lift) starts (ih rfl free)
  | @unassigned f g v starts inner stop _ ih =>
    exact .unassigned (f := f.lift) (g := g.lift) starts (ih rfl free) stop
  | @assigned f g h left right starts inner operator target value _ ih₁ _ ih₂ =>
    have here : g.IsFree := by
      rintro _ word
      rw [word] at operator
      cases operator
    exact .assigned (f := f.lift) (g := g.lift) (h := h.lift) starts (ih₁ rfl here) operator target
      (Feed.next_lift ▸ ih₂ rfl free)
  | @arrowName f g v name _ ih => exact .arrowName (f := f.lift) (ih rfl free)
  | @arrowNames f g v opening names _ ih => exact .arrowNames (f := f.lift) opening (ih rfl free)
  | @arrowBlock f g h v w params arrow brace body _ ih₁ _ ih₂ =>
    exact .arrowBlock (f := f.lift) (g := g.lift) (h := h.lift) (ih₁ rfl (.of_kind arrow nofun))
      arrow (Feed.next_lift ▸ brace) (Feed.next_lift ▸ ih₂ rfl free)
  | @arrowValue f g h v w params arrow brace body _ ih₁ _ ih₂ =>
    exact .arrowValue (f := f.lift) (g := g.lift) (h := h.lift) (ih₁ rfl (.of_kind arrow nofun))
      arrow (Feed.next_lift ▸ brace) (Feed.next_lift ▸ ih₂ rfl free)
  | @untested f g v inner stop _ ih => exact .untested (g := g.lift) (ih rfl free) stop
  | @tested f g h i left right test _ question _ colon _ _ ih₁ _ ih₂ _ ih₃ =>
    exact .tested (f := f.lift) (g := g.lift) (h := h.lift) (i := i.lift)
      (ih₁ rfl (.of_kind question nofun)) question (Feed.next_lift ▸ ih₂ rfl (.of_kind colon nofun))
      colon (Feed.next_lift ▸ ih₃ rfl free)

theorem lifts_operations : Part.Family.operations.Keeps Part.Lifts := by
  intro p f v g read rule family inline free
  induction rule using Reads.below.casesOn with cases family
  | @binary least f g h v left first more _ ih₁ _ ih₂ =>
    exact .binary (f := f.lift) (ih₁ rfl (more.free rfl free)) (ih₂ rfl free)
  | @operationsStop start least f left stop =>
    exact .operationsStop (f := f.lift) (by rwa [free.rank?])
  | @operationsMore start least rank f g h v left right ranked tighter operand more _ ih₁ _ ih₂ =>
    have right := ih₁ rfl (more.free rfl free)
    exact .operationsMore (f := f.lift) (g := g.lift)
      ((Feed.IsFree.of_rank ranked).rank?.trans ranked) tighter (Feed.next_lift ▸ right)
      (ih₂ rfl free)
  | @unaryOperator f g v operator operand _ ih =>
    exact .unaryOperator (f := f.lift) (g := g.lift) operator (Feed.next_lift ▸ ih rfl free)
  | @stepBefore f g v plain operator operand target _ ih =>
    exact .stepBefore (f := f.lift) (g := g.lift) plain operator (Feed.next_lift ▸ ih rfl free)
      target
  | @unsigned f g v plain still inner _ ih =>
    exact .unsigned (f := f.lift) plain still (ih rfl free)
  | @unstepped f g v inner stop _ ih => exact .unstepped (g := g.lift) (ih rfl free) stop
  | @stepAfter f g v inner operator line target _ ih =>
    have here : g.IsFree := by
      rintro _ word
      rw [word] at operator
      cases operator
    simpa [Feed.next_lift] using
      Reads.stepAfter (f := f.lift) (g := g.lift) (ih rfl here) operator line target

theorem lifts_accesses : Part.Family.accesses.Keeps Part.Lifts := by
  intro p f v g read rule family inline free
  induction rule using Reads.below.casesOn with cases family
  | @access f g h v w first more _ ih₁ _ ih₂ =>
    exact .access (f := f.lift) (ih₁ rfl (more.free rfl free)) (ih₂ rfl free)
  | @headNew f g v new inner _ ih => exact .headNew (f := f.lift) new (ih rfl free)
  | @headPrimary f g v plain inner _ ih => exact .headPrimary (f := f.lift) plain (ih rfl free)
  | @memberNamed start f g v object dot name _ ih =>
    exact .memberNamed (f := f.lift) (g := g.lift) dot (Feed.next_lift ▸ ih rfl free)
  | @memberIndexed start f g v object bracket index close _ ih =>
    have inner : Reads .group f.lift.next v g.lift := Feed.next_lift ▸ ih rfl (.of_kind close nofun)
    simpa [Feed.next_lift] using
      Reads.memberIndexed (f := f.lift) (g := g.lift) bracket inner close
  | @membersMore start f g h v w object first more _ ih₁ _ ih₂ =>
    exact .membersMore (f := f.lift) (ih₁ rfl (more.free rfl free)) (ih₂ rfl free)
  | @membersStop start f object dot bracket => exact .membersStop (f := f.lift) dot bracket
  | @accessesMember start f g h v w object first more _ ih₁ _ ih₂ =>
    exact .accessesMember (f := f.lift) (ih₁ rfl (more.free rfl free)) (ih₂ rfl free)
  | @accessesCall start f g h v w object args more _ ih₁ _ ih₂ =>
    exact .accessesCall (f := f.lift) (g := g.lift) (ih₁ rfl (more.free rfl free)) (ih₂ rfl free)
  | @accessesStop start f object dot bracket paren =>
    exact .accessesStop (f := f.lift) dot bracket paren
  | @constructionCall f g h i v w object new first more args _ ih₁ _ ih₂ _ ih₃ =>
    have paren : h.IsFree := by
      cases args with
      | arguments paren => exact .of_kind paren nofun
    have head := ih₁ rfl (more.free rfl paren)
    exact .constructionCall (f := f.lift) (g := g.lift) (i := i.lift) new (Feed.next_lift ▸ head)
      (ih₂ rfl paren) (ih₃ rfl free)
  | @constructionBare f g h v object new first more stop _ ih₁ _ ih₂ =>
    have head := ih₁ rfl (more.free rfl free)
    exact .constructionBare (f := f.lift) (g := g.lift) (h := h.lift) new (Feed.next_lift ▸ head)
      (ih₂ rfl free) stop

theorem lifts_primaries : Part.Family.primaries.Keeps Part.Lifts := by
  intro p f v g read rule family inline free
  induction rule using Reads.below.casesOn with cases family
  | @name f ident => simpa [Feed.next_lift] using Reads.name (f := f.lift) ident
  | @numberOrString f scalar =>
    simpa [Feed.next_lift] using Reads.numberOrString (f := f.lift) scalar
  | @wordTrue f word => simpa [Feed.next_lift] using Reads.wordTrue (f := f.lift) word
  | @wordFalse f word => simpa [Feed.next_lift] using Reads.wordFalse (f := f.lift) word
  | @wordNull f word => simpa [Feed.next_lift] using Reads.wordNull (f := f.lift) word
  | @wordThis f word => simpa [Feed.next_lift] using Reads.wordThis (f := f.lift) word
  | @functionExpression f g v inner _ ih => exact .functionExpression (f := f.lift) (ih rfl free)
  | @parenthesized f g v opening inner close _ ih =>
    have inside : Reads .group f.lift.next v g.lift :=
      Feed.next_lift ▸ ih rfl (.of_kind close nofun)
    simpa [Feed.next_lift] using
      Reads.parenthesized (f := f.lift) (g := g.lift) opening inside close
  | @array f g v opening items close _ ih =>
    have inside : Reads .elements f.lift.next v g.lift :=
      Feed.next_lift ▸ ih rfl (.of_kind close nofun)
    simpa [Feed.next_lift] using Reads.array (f := f.lift) (g := g.lift) opening inside close
  | @object f g v opening items close _ ih =>
    have inside : Reads (.closed .rightBrace .property) f.lift.next v g.lift :=
      Feed.next_lift ▸ ih rfl (.of_kind close nofun)
    simpa [Feed.next_lift] using Reads.object (f := f.lift) (g := g.lift) opening inside close
  | @propertyComputed f g h v w opening key close colon value _ ih₁ _ ih₂ =>
    have inside : Reads .nested f.lift.next v g.lift :=
      Feed.next_lift ▸ ih₁ rfl (.of_kind close nofun)
    have after : Reads .nested g.lift.next.next w h.lift := by
      simpa [Feed.next_lift] using ih₂ rfl free
    exact .propertyComputed (f := f.lift) (g := g.lift) (h := h.lift) opening inside close
      (Feed.next_lift ▸ colon) after
  | @propertyLiteral f h w key colon value _ ih =>
    have after : Reads .nested f.lift.next.next w h.lift := by
      simpa [Feed.next_lift] using ih rfl free
    simpa using
      Reads.propertyLiteral (f := f.lift) (h := h.lift) key (Feed.next_lift ▸ colon) after
  | @propertyNamed f h v w key colon value _ ih₁ _ ih₂ =>
    have after : Reads .nested f.lift.next.next w h.lift := by
      simpa [Feed.next_lift] using ih₂ rfl free
    exact .propertyNamed (f := f.lift) (h := h.lift)
      (Feed.next_lift ▸ ih₁ rfl (.of_kind colon nofun))
      (Feed.next_lift ▸ colon) after
  | @propertyShort f key stop =>
    simpa [Feed.next_lift] using
      Reads.propertyShort (f := f.lift) key (by simpa [Feed.next_lift] using stop)

theorem lifts_functions : Part.Family.functions.Keeps Part.Lifts := by
  intro p f v g read rule family inline free
  induction rule using Reads.below.casesOn with cases family
  | @functionNamed declared f g h i v w object word name params body _ ih₁ _ ih₂ _ ih₃ =>
    have paren : g.IsFree := by
      cases params with
      | parameters paren => exact .of_kind paren nofun
    have brace : h.IsFree := by
      cases body with
      | blockEmpty brace | block brace => exact .of_kind brace nofun
    exact .functionNamed (f := f.lift) (g := g.lift) (h := h.lift) (i := i.lift) word
      (Feed.next_lift ▸ ih₁ rfl paren) (ih₂ rfl brace) (ih₃ rfl free)
  | @functionUnnamed f h i w object word name params body _ ih₁ _ ih₂ =>
    have brace : h.IsFree := by
      cases body with
      | blockEmpty brace | block brace => exact .of_kind brace nofun
    exact .functionUnnamed (f := f.lift) (h := h.lift) (i := i.lift) word (Feed.next_lift ▸ name)
      (Feed.next_lift ▸ ih₁ rfl brace) (ih₂ rfl free)
  | @blockEmpty f opening close =>
    simpa [Feed.next_lift] using
      Reads.blockEmpty (f := f.lift) opening (by simpa [Feed.next_lift] using close)
  | @block f g v vs opening body close =>
    have inside : Reads (.statements .rightBrace) f.lift.next.lift (.list (v :: vs)) g := by
      rw [Feed.next_lift]
      exact body
    have again := Reads.block (f := f.lift) opening inside close
    rw [Feed.next_resume] at again ⊢
    exact again
  | _ => cases inline

theorem Part.family_of_isInline (inline : p.isInline) :
    p.family ≠ .clauses ∧ p.family ≠ .statements := by
  cases p with
  | loopInit | counted | label | handler | finalizer | statement => cases inline
  | _ => exact ⟨nofun, nofun⟩

/-- Where the word `in` is no operator an expression is read as elsewhere, unless that word follows
it. -/
theorem Reads.lifted (read : Reads p f v g) : p.Lifts f v g :=
  read.byFamily fun
    | .lists => lifts_lists
    | .names => lifts_names
    | .assignments => lifts_assignments
    | .operations => lifts_operations
    | .accesses => lifts_accesses
    | .primaries => lifts_primaries
    | .functions => lifts_functions
    | .clauses => fun _ family inline => absurd family (Part.family_of_isInline inline).1
    | .statements => fun _ family inline => absurd family (Part.family_of_isInline inline).2

theorem Reads.loosen {start : Mark} {least tight : Nat} {left : Value}
    (read : Reads (.operations start tight left) f v g) (none : g.rank? = none)
    (le : least ≤ tight) : Reads (.operations start least left) f v g := by
  generalize part : Part.operations start tight left = p at read
  induction read generalizing left with
  | operationsStop =>
    cases part
    exact .operationsStop (by simp [none])
  | operationsMore ranked tighter operand more _ ih =>
    cases part
    exact .operationsMore ranked (le.trans_lt tighter) operand (ih none rfl)
  | _ => cases part

def Part.isWhole : Part → Bool
  | primary | construction | access | stepped | unary | binary _ | conditional | assignment
  | sequence => true
  | _ => false

/-- Before the end of input, what is read as an expression of one sort is read as any. -/
theorem Reads.widen (read : Reads p f v g) (whole : p.isWhole) (closed : f.Closed)
    (ending : g.current.kind = .endOfInput) : Reads .sequence f v g := by
  have none : g.rank? = none := by simp [Feed.rank?, ending, TokenKind.rank?]
  have single (read : Reads .assignment f v g) : Reads .sequence f v g :=
    .single read (by simp [ending])
  have conditional (read : Reads .conditional f v g) : Reads .sequence f v g := by
    refine single (.unassigned (Bool.eq_false_iff.mpr fun starts => ?_) read (by rw [ending]; rfl))
    have arrow := read.conditional_arrow closed starts
    rw [ending] at arrow
    cases arrow
  have binary {least : Nat} (read : Reads (.binary least) f v g) : Reads .sequence f v g := by
    cases read with
    | binary first more =>
      exact conditional (.untested (.binary first (more.loosen none (Nat.zero_le _)))
        (by simp [ending]))
  have unary (read : Reads .unary f v g) : Reads .sequence f v g := by
    have alone : Reads (.binary 0) f v g := .binary read (.operationsStop (by simp [none]))
    exact binary alone
  have stepped (read : Reads .stepped f v g) : Reads .sequence f v g := by
    have starts := read.starts
    refine unary (.unsigned ?_ ?_ read) <;>
      cases kind : f.current.kind <;> rw [kind] at starts <;> first | rfl | cases starts
  have access (read : Reads .access f v g) : Reads .sequence f v g :=
    stepped (.unstepped read (by rw [ending]; rfl))
  have head (read : Reads .head f v g) : Reads .sequence f v g :=
    access (.access read (.accessesStop (by simp [ending]) (by simp [ending]) (by simp [ending])))
  cases p with
  | primary =>
    refine head (.headPrimary ?_ read)
    cases read with
    | numberOrString scalar => exact scalar.elim (kind_ne · (by decide)) (kind_ne · (by decide))
    | functionExpression inner => exact inner.start_ne rfl
    | _ => simp [*]
  | construction =>
    have new : f.current.kind = .kwNew := by cases read <;> assumption
    exact head (.headNew new read)
  | access => exact access read
  | stepped => exact stepped read
  | unary => exact unary read
  | binary => exact binary read
  | conditional => exact conditional read
  | assignment => exact single read
  | sequence => exact read
  | _ => cases whole

/-- What is read as an expression before the end of input is one wherever the word `in` is an
operator. -/
theorem Reads.settle (read : Reads p f v g) (whole : p.isWhole) (closed : f.Closed)
    (ending : g.current.kind = .endOfInput) : Reads .sequence f.lift v g.lift := by
  have inline : p.isInline := by cases p <;> first | rfl | cases whole
  have free : g.IsFree := .of_kind ending nofun
  exact (read.lifted inline free).widen whole closed ending

end ScriptTree.Grammar
