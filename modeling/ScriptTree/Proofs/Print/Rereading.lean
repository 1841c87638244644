import ScriptTree.Proofs.Grammar.Completeness
import ScriptTree.Proofs.Print.Rereading.Statement

/-!
What is written for a tree is read again as that tree. Statements get the comments around them from
the tokens before and after them; the rest follows from what holds of each way of writing.
-/
namespace ScriptTree

open Grammar Print Value Rereading

/-- The forms whose lexemes end with a token where comments are kept; a statement's do without
comments after it. -/
def Form.Settles (v : Value) (ls : List Lexeme) : Form → Prop
  | own c | choice c | block c | function c _ | handler c | body c => c.comments → Ended ls
  | statement c => c.comments → trailingComments c v = [] → Ended ls
  | _ => True

variable {width : Int} {aloud : Bool} {c : Context} {form : Form} {n : Notes} {v w : Value}
  {us vs : List Value}
  {ls ms : List Lexeme} {σ : Stage} {f : Feed} {t : Token} {ts rest : List Token}

/-- A statement that stands alone has no comments after it. -/
theorem trailing_alone (kept : c.comments) (solid : v.isHollow = false) (alone : v.Alone) :
    trailingComments c v = [] := by
  rw [Value.Alone, if_neg (by simp [solid])] at alone
  rw [trailingComments, if_pos kept, alone]
  rfl

/-- The comments that are kept are printed around a statement. -/
theorem around_aloud (kept : c.comments) (solid : v.isHollow = false) :
    leadingComments (c.aloud aloud) v = leadingComments c v ∧
      followingComments (c.aloud aloud) v = trailingComments c v := by
  rw [followingComments, if_neg (by simp [solid]), trailing_aloud kept]
  simp only [leadingComments, Context.aloud, kept, Bool.or_true, and_self]

theorem Writes.settles (writes : Writes aloud form v ls) : form.Settles v ls := by
  induction writes with
  | functionNamed _ _ _ _ _ _ body =>
    exact fun kept => .cons (.cons (.prepend (.prepend (.cons (body kept)))))
  | functionUnnamed _ _ _ _ body => exact fun kept => .cons (.prepend (.cons (body kept)))
  | blockNone => exact fun _ => .cons (.single rfl)
  | blockRemarks => exact fun _ => .cons (.prepend (.cons (.single rfl)))
  | block => exact fun _ => .cons (.cons (.prepend (.cons (.single rfl))))
  | ownExpression | ownClash | ownDeclaration => exact fun _ => .prepend (.single rfl)
  | ownBlock _ ih | ownFunction _ ih | ownChoice _ ih => exact ih
  | ownEmpty => exact fun _ => .single rfl
  | returnBare | breakBare | continueBare => exact fun _ => .cons (.single rfl)
  | returnValue | breakLabel | continueLabel | throwValue =>
    exact fun _ => .cons (.cons (.prepend (.single rfl)))
  | bodyBlock _ _ ih => exact fun kept => .cons (ih kept)
  | bodyLine _ inner alone ih =>
    cases inner with
    | statement _ solid =>
      exact fun kept => .cons (ih kept (trailing_alone kept (solid kept) (alone kept)))
  | choiceShort _ _ _ left => exact fun kept => .cons (.cons (.prepend (left kept)))
  | choiceElse _ _ _ _ _ _ _ right =>
    exact fun kept => .cons (.cons (.prepend (.prepend (.cons (.cons (right kept))))))
  | choiceChain _ _ _ _ _ _ _ right =>
    exact fun kept => .cons (.cons (.prepend (.prepend (.cons (.cons (.cons (right kept)))))))
  | forCounted _ _ _ _ _ _ _ body => exact fun kept => .cons (.cons (.prepend (body kept)))
  | forIn _ _ _ _ _ body | forOf _ _ _ _ _ body =>
    exact fun kept => .cons (.cons (.prepend (body kept)))
  | whileLoop _ _ _ body => exact fun kept => .cons (.cons (.prepend (body kept)))
  | doLoop => exact fun _ => .cons (.prepend (.cons (.cons (.cons (.prepend (.single rfl))))))
  | handlerBare _ _ _ body => exact fun kept => .cons (.cons (body kept))
  | handlerNamed _ _ _ _ _ body => exact fun kept => .cons (.cons (.prepend (.cons (body kept))))
  | tryHandled _ _ _ _ handler =>
    exact fun kept => .cons (.cons (.prepend (.cons (handler kept))))
  | tryFinal _ _ _ _ _ last =>
    exact fun kept => .cons (.cons (.prepend (.cons (.cons (.cons (last kept))))))
  | tryBoth _ _ _ _ _ _ _ last =>
    exact fun kept =>
      .cons (.cons (.prepend (.cons (.prepend (.cons (.cons (.cons (last kept))))))))
  | statement _ solid _ _ own =>
    intro kept quiet
    rw [(around_aloud kept (solid kept)).2, quiet, remarksAfter, List.flatMap_nil, List.append_nil]
    exact .prepend (own kept)
  | _ => trivial

/-- Where comments are kept, the lexemes of a statement without its own begin with a token. -/
theorem Writes.solid (writes : Writes aloud (.own c) v ls) (kept : c.comments) : Solid ls := by
  have mark {k : TokenKind} {ls : List Lexeme} : Solid (.mark k :: ls) := ⟨_, _, rfl, rfl⟩
  cases writes with
  | ownExpression inner => exact (solid_of_begins inner.opens kept).append
  | ownBlock inner => cases inner <;> exact mark
  | ownDeclaration inner =>
    cases inner
    exact mark
  | ownFunction inner =>
    cases inner
    exact mark
  | ownChoice inner => cases inner <;> exact mark
  | _ => exact mark

namespace Rereading

theorem statement {xs ys : List Comment} (own : (Form.own c).Rereads width v ls)
    (solid : c.comments → v.isHollow = false) :
    (Form.statement c).Rereads width v (remarksBefore c.depth xs ++
      (ls ++ remarksAfter c.depth ys)) := by
  intro σ f b t ts stands ok
  rw [Stage.tokens_append, tokens_remarksBefore, List.nil_append, Stage.tokens_append,
    tokens_remarksAfter, List.append_nil] at stands
  obtain ⟨w, g, read, like, after⟩ := own stands ok
  refine ⟨w, g, read, like.rebearing fun kept => ?_, after⟩
  rw [innerComments, if_neg (by simp [solid kept])]

/-- Where comments are kept, the first token of a statement has those before it, and those after it
are pending. -/
theorem statement_comments (writes : Writes aloud (.statement c) v ls)
    (stands : f.At false (σ.tokens width ls ++ rest)) (kept : c.comments)
    (fresh : σ.pending.comments = []) :
    f.current.comments = leadingComments c v ∧ (σ.after width ls).pending.comments =
      (trailingComments c v).map ({ · with leading := true }) := by
  cases writes with
  | statement own solid =>
    have around : leadingComments (c.aloud aloud) v = leadingComments c v ∧
        followingComments (c.aloud aloud) v = trailingComments c v :=
      around_aloud kept (solid kept)
    constructor
    · rw [Stage.tokens_append, tokens_remarksBefore, List.nil_append] at stands
      rw [((own.solid kept).append.first stands).2, pending_remarksBefore, fresh, around.1,
        map_leading]
      rfl
    · rw [Stage.after_append, Stage.after_append, pending_remarksAfter, around.2,
        (own.settles kept).settled]
      rfl

/-- A statement with the comments of its tokens is the statement as it was. -/
theorem like_attached {comments : List Comment} (writes : Writes aloud (.statement c) v ls)
    (like : Like c.comments w (v.bearing []))
    (before : c.comments → comments = leadingComments c v)
    (after : c.comments →
      t.comments = (trailingComments c v).map ({ · with leading := true })) :
    Like c.comments (attachTrailing t (attachLeading comments w)) v := by
  refine like.leading.trailing.unbearing fun kept => ?_
  rw [before kept, after kept, map_trailing]
  cases writes with
  | statement _ _ _ ordered => exact (ordered kept).symm

theorem linesLast (writes : Writes aloud (.statement c) v ls)
    (item : (Form.statement c).Rereads width v ls) :
    (Form.lines c).Rereads width (.list [v]) ls := by
  refine ⟨_, rfl, fun {σ f t ts close} stands kind closes fresh comments => ?_⟩
  have follows : Follows v t.kind := by
    rcases closes with rfl | rfl <;> rw [kind] <;> exact ⟨nofun, fun _ => nofun⟩
  have around (kept : c.comments) := statement_comments writes stands kept (fresh kept)
  obtain ⟨w, g, read, like, after⟩ := item stands ⟨rfl, follows⟩
  have start : f.current.kind ≠ close := by
    rcases closes with rfl | rfl <;> exact read.start_ne rfl
  refine ⟨_, g, .statementsMore start (read.start_ne rfl) read
    (.statementsNone (after.kind.trans kind)), after, .cons ?_ .nil⟩
  exact like_attached writes like (fun kept => (around kept).1)
    fun kept => (comments kept).trans (around kept).2

/-- What follows a statement in a list begins with no word that would go on with it. -/
theorem lines_follow (lines : LinesTaken width c (v :: vs) ls) {close : TokenKind}
    (closed : Closed (σ.tokens width ls ++ t :: ts)) (kind : t.kind = close)
    (closes : close = .rightBrace ∨ close = .endOfInput)
    (fresh : c.comments → σ.pending.comments = [])
    (comments : c.comments → t.comments = (σ.after width ls).pending.comments) :
    ∃ u us, σ.tokens width ls ++ t :: ts = u :: us ∧ ∀ w, Follows w u.kind := by
  obtain ⟨u, us, same⟩ : ∃ u us, σ.tokens width ls ++ t :: ts = u :: us :=
    List.exists_cons_of_ne_nil (by simp)
  refine ⟨u, us, same, ?_⟩
  have stands : (⟨u, u, us, false⟩ : Feed).At false (σ.tokens width ls ++ t :: ts) :=
    ⟨same.symm, by rwa [Feed.Closed, Feed.tokens, ← same], rfl⟩
  obtain ⟨ws, g, read, _, likes⟩ := lines stands kind closes fresh comments
  obtain ⟨w, ws, rfl⟩ := lines_cons likes
  cases read with
  | statementsMore _ _ first =>
    exact fun w => ⟨first.start_ne rfl, fun _ => first.start_ne rfl⟩

theorem linesMore (writes : Writes aloud (.statement c) v ls)
    (item : (Form.statement c).Rereads width v ls) (quiet : trailingComments c v = [])
    (more : (Form.lines c).Rereads width (.list (w :: vs)) ms) :
    (Form.lines c).Rereads width (.list (v :: w :: vs)) (ls ++ .line c.depth :: ms) := by
  obtain ⟨us, same, more⟩ := more
  cases same
  refine ⟨_, rfl, fun {σ f t ts close} stands kind closes fresh comments => ?_⟩
  have stands := stands.append
  have around (kept : c.comments) := statement_comments writes stands kept (fresh kept)
  rw [Stage.tokens_line] at stands
  rw [Stage.after_append, Stage.after_cons] at comments
  have settled (kept : c.comments) :
      ((σ.after width ls).step width (.line c.depth)).pending.comments = [] := by
    have pending := (around kept).2
    rw [quiet] at pending
    exact pending
  have closed : Closed (((σ.after width ls).step width (.line c.depth)).tokens width ms ++
      t :: ts) := by
    refine closed_suffix stands.closed ?_ (by simp)
    rw [stands.tokens]
    exact List.suffix_append _ _
  obtain ⟨u, us, next, follows⟩ := lines_follow more closed kind closes settled comments
  rw [next] at stands
  obtain ⟨x, g, read, like, after⟩ := item stands ⟨rfl, follows v⟩
  rw [← next] at after
  obtain ⟨ws, h, others, last, likes⟩ := more after kind closes settled comments
  obtain ⟨y, ws, rfl⟩ := lines_cons likes
  have start : f.current.kind ≠ close := by
    rcases closes with rfl | rfl <;> exact read.start_ne rfl
  refine ⟨_, h, .statementsMore start (read.start_ne rfl) read others, last, .cons ?_ likes⟩
  refine like.leading.unbearing fun kept => ?_
  rw [(around kept).1]
  cases writes with
  | statement _ _ _ ordered =>
    have all := ordered kept
    rw [quiet, List.append_nil] at all
    exact all.symm

/-- The tokens of lexemes that stay apart end in their only end of input. -/
theorem closed_tokens (spaced : Spaced ls) :
    Closed (Stage.first.tokens width ls ++ [(Stage.first.after width ls).last]) :=
  tokenize_closed (tokenize_spaced spaced)

theorem first_stands (spaced : Spaced ls) :
    (Feed.ofTokens (Stage.first.tokens width ls ++ [(Stage.first.after width ls).last])).At false
      (Stage.first.tokens width ls ++ [(Stage.first.after width ls).last]) := by
  have closed : Closed (Stage.first.tokens width ls ++ _) := closed_tokens spaced
  cases all : Stage.first.tokens width ls ++ [(Stage.first.after width ls).last] with
  | nil => simp at all
  | cons t ts =>
    rw [all] at closed
    exact ⟨rfl, closed, rfl⟩

/-- A program without statements keeps the comments before the end of input. -/
theorem program_hollow (spaced : Spaced ls) (none : Stage.first.tokens width ls = [])
    (comments : c.comments → (Stage.first.after width ls).pending.comments =
      (trailingComments c (.node .program [.list []] n)).map ({ · with leading := true })) :
    (Form.program c).Rereads width (.node .program [.list []] n) ls := by
  have stands : (Feed.ofTokens (Stage.first.tokens width ls ++ _)).At false _ := first_stands spaced
  rw [none, List.nil_append] at stands
  have current := stands.current
  have read : Reads (.statements .endOfInput) (Feed.ofTokens (Stage.first.tokens width ls ++ _))
      (.list []) _ :=
    .statementsNone (by rw [none, List.nil_append, current]; rfl)
  refine ⟨_, program_complete (closed_tokens spaced) read, ?_⟩
  rw [none, List.nil_append, current]
  refine Like.node (.cons .refl .nil) fun kept => ?_
  change [] ++ (Stage.first.after width ls).pending.comments.map _ = trailingComments c _
  rw [comments kept, List.nil_append, map_trailing]

theorem program (spaced : Spaced ls) (body : (Form.lines c).Rereads width (.list (v :: vs)) ls) :
    (Form.program c).Rereads width (.node .program [.list (v :: vs)] n) ls := by
  obtain ⟨us, same, body⟩ := body
  cases same
  obtain ⟨ws, g, read, after, likes⟩ := body (first_stands spaced) rfl (.inr rfl) (fun _ => rfl)
    fun _ => rfl
  obtain ⟨w, ws, rfl⟩ := lines_cons likes
  refine ⟨_, program_complete (closed_tokens spaced) read, ?_⟩
  rw [after.current]
  exact Like.node (.cons (like_list.mpr ⟨_, rfl, likes⟩) .nil) fun _ => rfl

end Rereading

/-- What is written is read again, if no comment hides the start of an expression. -/
theorem Writes.rereads (writes : Writes aloud form v ls) (shown : v.all (unveiled aloud)) :
    form.Rereads width v ls := by
  -- all nodes of a tree: the node itself, then those of its children from left to right
  induction writes with
    (try simp only [Value.all, Value.allOf, Bool.and_eq_true, and_true, true_and] at *)
  | commasNone => exact ⟨_, rfl, .none⟩
  | commasLast _ item => exact ⟨_, rfl, .last (item shown)⟩
  | commasMore _ _ item more =>
    obtain ⟨us, same, more⟩ := more shown.2
    cases same
    exact ⟨_, rfl, .more (item shown.1) more⟩
  | binding name silent => exact Taken.beside (Rereading.binding name silent)
  | word word silent => exact Taken.beside (Rereading.word word silent)
  | keyWord | keyLiteral => trivial
  | opened _ fits silent _ inner =>
    obtain ⟨rank, tight, ranked⟩ := Rereading.opened (inner shown) fits silent
    exact ⟨rank, tight, ranked.beside⟩
  | closed _ _ silent _ inner =>
    obtain ⟨rank, tight, ranked⟩ := Rereading.closed (inner shown) silent
    exact ⟨rank, tight, ranked.beside⟩
  | name name => exact fun silent => bare_name (Rereading.binding name silent) silent
  | literal plain => exact Rereading.literal plain
  | this => exact Rereading.this
  | array _ inner => exact Rereading.array (inner shown.2)
  | elementsNone => exact Rereading.elementsNone
  | elementsHole => exact Rereading.elementsHole
  | elementsLast _ item => exact Rereading.elementsLast (item shown)
  | elementsSkip _ more => exact Rereading.elementsSkip (more shown)
  | elementsMore _ _ item more => exact Rereading.elementsMore (item shown.1) (more shown.2)
  | objectNone => exact Rereading.objectNone
  | objectSome _ inner => exact Rereading.objectSome (inner shown.2)
  | computed _ _ silent key value =>
    exact Rereading.computed (key shown.2.1) (value shown.2.2) silent
  | keyed key _ silent _ value => exact Rereading.keyed key (value shown.2.2) silent
  | shorthand name key value silent =>
    intro σ f b t ts stands
    rw [Stage.tokens_beside] at stands
    exact Rereading.shorthand name key value silent stands
  | functionNamed _ _ _ alone name params body =>
    exact Rereading.functionNamed (name shown.2.1) (params shown.2.2.1) (body shown.2.2.2) alone
  | functionUnnamed _ _ alone params body =>
    exact Rereading.functionUnnamed (params shown.2.1) (body shown.2.2) alone
  | functionExpression _ inner => exact Rereading.functionExpression (inner shown)
  | arrowBlock _ _ alone params body =>
    exact Rereading.arrowBlock (params shown.2.1) (body shown.2.2) alone
  | arrowValue _ writes plain params body =>
    exact Rereading.arrowValue (params shown.2.1) writes (body shown.2.2) plain
      ((Bool.not_eq_true' _).mp shown.1)
  | arrowObject _ _ _ params body =>
    exact Rereading.arrowObject (params shown.2.1) (body shown.2.2)
  | unary operator _ operand => exact Rereading.unary operator (operand shown.2)
  | stepBefore operator target _ operand =>
    exact Rereading.stepBefore operator target (operand shown.2)
  | stepAfter operator target writes operand =>
    exact Rereading.stepAfter operator target writes (operand shown.2)
  | operation ranked bar _ _ left right =>
    exact Rereading.operation ranked bar (left shown.2.1) (right shown.2.2)
  | operandPlain _ _ inner => exact inner shown
  | operandMixed _ _ inner => exact Rereading.operandMixed (inner shown)
  | assignment operator target _ _ left right =>
    exact Rereading.assignment operator target (left shown.2.1) (right shown.2.2)
  | conditional _ _ _ test left right =>
    exact Rereading.conditional (test shown.2.1) (left shown.2.2.1) (right shown.2.2.2)
  | sequence _ items => exact Rereading.sequence (items shown.2)
  | arguments _ items => exact Rereading.arguments (items shown)
  | call _ _ callee args => exact Rereading.call (callee shown.2.1) (args shown.2.2)
  | calleePlain plain _ inner => exact Rereading.calleePlain plain (inner shown)
  | calleeCall _ _ inner => exact Rereading.calleeCall (inner shown)
  | construction _ writes callee args =>
    exact Rereading.construction (callee shown.2.1) (args shown.2.2) (arguments_head writes)
  | objectPlain _ _ inner => exact inner shown
  | objectNumber _ _ inner => exact Rereading.objectNumber (inner shown)
  | memberNamed _ _ object name =>
    exact Rereading.memberNamed (object shown.2.1) (name shown.2.2)
  | memberIndexed _ _ object index =>
    exact Rereading.memberIndexed (object shown.2.1) (index shown.2.2)
  | blockNone none => exact Rereading.blockNone none
  | blockRemarks some => exact Rereading.blockRemarks some
  | block _ body => exact Rereading.block (body shown.2)
  | declaratorBare _ silent name => exact Rereading.declaratorBare (name shown.2) silent
  | declaratorInit _ _ silent name init =>
    exact Rereading.declaratorInit (name shown.2.1) (init shown.2.2) silent
  | declaration word _ items => exact Rereading.declaration word (items shown.2)
  | ownExpression writes plain inner =>
    exact Rereading.ownExpression writes (inner shown.2) plain
      ((Bool.not_eq_true' _).mp shown.1)
  | ownClash _ _ inner => exact Rereading.ownClash (inner shown.2)
  | ownBlock _ inner => exact Rereading.ownBlock (inner shown)
  | ownEmpty => exact Rereading.ownEmpty
  | ownDeclaration writes inner =>
    refine Rereading.ownDeclaration (inner shown) ?_
    cases writes
    rfl
  | ownFunction writes inner =>
    refine Rereading.ownFunction (inner shown) ?_
    cases writes
    rfl
  | returnBare => exact Rereading.returnBare
  | returnValue writes value => exact Rereading.returnValue (value shown.2) writes.opens
  | breakBare => exact Rereading.breakBare
  | breakLabel writes label => exact Rereading.breakLabel (label shown.2) writes.opens
  | continueBare => exact Rereading.continueBare
  | continueLabel writes label => exact Rereading.continueLabel (label shown.2) writes.opens
  | throwValue writes value => exact Rereading.throwValue (value shown.2) writes.opens
  | ownChoice _ inner => exact inner shown
  | bodyBlock _ alone inner => exact Rereading.bodyBlock (inner shown) alone
  | bodyLine other writes alone inner =>
    refine Rereading.bodyLine (inner shown) fun kept => ?_
    cases writes with
    | statement _ solid =>
      have quiet := alone kept
      rwa [Value.Alone, if_neg (by simp [solid kept])] at quiet
  | choiceShort _ _ test left => exact Rereading.choiceShort (test shown.2.1) (left shown.2.2)
  | choiceElse _ _ closed _ _ test left right =>
    exact choice_else (test shown.2.1) (left shown.2.2.1) closed (right shown.2.2.2)
  | choiceChain _ _ closed _ alone test left right =>
    exact Rereading.choiceChain (test shown.2.1) (left shown.2.2.1) closed (right shown.2.2.2)
      alone
  | initNone => exact .inl ⟨rfl, rfl⟩
  | initDeclaration _ silent inner => exact Rereading.initDeclaration (inner shown) silent
  | initExpression _ inner => exact Rereading.initExpression (inner shown)
  | partNone => exact Rereading.partNone
  | partSome _ inner => exact Rereading.partSome (inner shown)
  | forCounted _ _ _ _ init test update body =>
    exact Rereading.forCounted (init shown.2.1) (test shown.2.2.1) (update shown.2.2.2.1)
      (body shown.2.2.2.2)
  | targetVariable word _ silent name =>
    exact Rereading.targetVariable word (name shown.2.2) silent
  | targetPlace target _ inner => exact Rereading.targetPlace target (inner shown)
  | forIn _ _ _ left right body =>
    exact Rereading.forIn (left shown.2.1) (right shown.2.2.1) (body shown.2.2.2)
  | forOf _ _ _ left right body =>
    exact Rereading.forOf (left shown.2.1) (right shown.2.2.1) (body shown.2.2.2)
  | whileLoop _ _ test body => exact Rereading.whileLoop (test shown.2.1) (body shown.2.2)
  | doLoop _ _ body test => exact Rereading.doLoop (body shown.2.1) (test shown.2.2)
  | handlerBare _ alone silent body => exact Rereading.handlerBare (body shown.2) alone silent
  | handlerNamed _ _ alone silent param body =>
    exact Rereading.handlerNamed (param shown.2.1) (body shown.2.2) alone silent
  | tryHandled _ first writes guarded handler =>
    refine Rereading.tryHandled (guarded shown.2.1) first (handler shown.2.2) ?_
    cases writes <;> rfl
  | tryFinal _ first writes last guarded final =>
    refine Rereading.tryFinal (guarded shown.2.1) first (final shown.2.2) last ?_
    cases writes <;> rfl
  | tryBoth _ first _ writes last guarded handler final =>
    refine Rereading.tryBoth (guarded shown.2.1) first (handler shown.2.2.1) (final shown.2.2.2)
      last ?_
    cases writes <;> rfl
  | statement _ solid _ _ own => exact Rereading.statement (own shown) solid
  | linesLast writes item => exact Rereading.linesLast writes (item shown)
  | linesMore writes quiet _ item more =>
    exact Rereading.linesMore writes (item shown.1) quiet (more shown.2)
  | programNone none =>
    refine program_hollow trivial rfl fun kept => ?_
    rw [trailing_aloud kept] at none
    rw [none]
    rfl
  | @programRemarks c x xs n some legible =>
    have writes : Writes aloud (.program c) _ _ := .programRemarks some legible
    have spaced := writes.fits rfl [] trivial rfl
    rw [List.append_nil] at spaced
    refine program_hollow spaced tokens_remarksAfter fun kept => ?_
    rw [trailing_aloud kept] at some
    rw [some, Stage.after_cons, pending_remarksAfter]
    rfl
  | @program c e es n ls lines quiet body =>
    have writes : Writes aloud (.program c) (.node .program [.list (e :: es)] n) ls :=
      .program lines quiet
    have spaced := writes.fits rfl [] trivial rfl
    rw [List.append_nil] at spaced
    exact Rereading.program spaced (body shown.2)

end ScriptTree
