import ScriptTree.Proofs.Grammar.Reading

/-!
What the parsers return, the grammar reads. Each lemma follows one parser under the assumption that
the rules it is given are sound; the rules of every depth are sound by induction on the depth.
-/
namespace ScriptTree

namespace Grammar

structure Rules.Sound (r : Rules) : Prop where
  statement : ∀ {f v g}, r.statement f = .ok (v, g) → Reads .statement f v g
  assignment : ∀ {f v g}, r.assignment f = .ok (v, g) → Reads .assignment f v g
  unary : ∀ {f v g}, r.unary f = .ok (v, g) → Reads .unary f v g
  binary : ∀ {least f v g}, r.binary least f = .ok (v, g) → Reads (.binary least) f v g
  construction : ∀ {f v g}, r.construction f = .ok (v, g) → Reads .construction f v g

variable {r : Rules} {f g : Feed} {v : Value} {vs : List Value} {e : Item} {k : TokenKind}
  {start : Mark} {base left init : Value} {least : Nat}

theorem commaList_sound {item : Parser Value}
    (sound : ∀ {f v g}, item f = .ok (v, g) → Reads e.part f v g) {steps : Nat}
    (run : commaList item steps f = .ok (vs, g)) : Reads (.commas e) f (.list vs) g := by
  induction steps generalizing f vs with
  | zero => simp [commaList, refuse_ok] at run
  | succ steps ih =>
    obtain ⟨v, h, first, rest⟩ := bind_ok.mp run
    simp only [accept_ite] at rest
    split at rest
    next comma =>
      obtain ⟨ws, h', more, rest⟩ := bind_ok.mp rest
      cases rest
      exact .commasMore (sound first) comma (ih more)
    next stop =>
      cases rest
      exact .commasLast (sound first) stop

theorem closedList_sound {item : Parser Value}
    (sound : ∀ {f v g}, item f = .ok (v, g) → Reads e.part f v g) {steps : Nat}
    (run : closedList k item steps f = .ok (vs, g)) : Reads (.closed k e) f (.list vs) g := by
  induction steps generalizing f vs with
  | zero => simp [closedList, refuse_ok] at run
  | succ steps ih =>
    simp only [closedList, check_ite] at run
    split at run
    next close =>
      cases run
      exact .closedNone close
    next close =>
      obtain ⟨v, h, first, rest⟩ := bind_ok.mp run
      simp only [accept_ite] at rest
      split at rest
      next comma =>
        obtain ⟨ws, h', more, rest⟩ := bind_ok.mp rest
        cases rest
        exact .closedMore close (sound first) comma (ih more)
      next stop =>
        cases rest
        exact .closedLast close (sound first) stop

theorem bindingIdentifier_sound (run : bindingIdentifier f = .ok (v, g)) :
    Reads .binding f v g := by
  simp only [bindingIdentifier, check_ite] at run
  split at run
  next name =>
    cases run
    exact .binding name
  next => simp [get_bind, refuse_ok] at run

theorem propertyName_sound (run : propertyName f = .ok (v, g)) :
    Reads .propertyName f v g ∧ g = f.next := by
  simp only [propertyName, get_bind, ite_run, Bool.or_eq_true, beq_iff_eq] at run
  split at run
  next name =>
    cases run
    exact ⟨.propertyName name, rfl⟩
  next => simp [refuse_ok] at run

theorem literal_ok {value : Value} :
    literal value f = .ok (v, g) ↔ f.literal value = v ∧ f.next = g := by
  simp only [literal, advance_bind, build_bind, pure_ok, Prod.mk.injEq, Feed.literal]

theorem sequence_sound {part : Parser Value}
    (sound : ∀ {f v g}, part f = .ok (v, g) → Reads .assignment f v g)
    (run : sequence part f = .ok (v, g)) : Reads .sequence f v g := by
  simp only [sequence, here_bind] at run
  obtain ⟨w, h, first, rest⟩ := bind_ok.mp run
  simp only [accept_ite] at rest
  split at rest
  next comma =>
    simp only [get_bind] at rest
    obtain ⟨ws, h', more, rest⟩ := bind_ok.mp rest
    cases build_ok.mp rest
    exact .sequence (sound first) comma (commaList_sound (e := .assignment) sound more)
  next stop =>
    cases rest
    exact .single (sound first) stop

theorem nestedExpression_sound (hr : r.Sound) (run : nestedExpression r f = .ok (v, g)) :
    Reads .group f v g := by
  obtain ⟨h, inner, rfl⟩ := allowingIn_ok.mp run
  exact .group (sequence_sound hr.assignment inner)

theorem nestedAssignment_sound (hr : r.Sound) (run : nestedAssignment r f = .ok (v, g)) :
    Reads .nested f v g := by
  obtain ⟨h, inner, rfl⟩ := allowingIn_ok.mp run
  exact .nested (hr.assignment inner)

theorem statements_sound (hr : r.Sound) {steps : Nat}
    (run : statements r k steps f = .ok (vs, g)) : Reads (.statements k) f (.list vs) g := by
  induction steps generalizing f vs with
  | zero => simp [statements, refuse_ok] at run
  | succ steps ih =>
    simp only [statements, check_ite, get_bind] at run
    split at run
    next close =>
      cases run
      exact .statementsNone close
    next close =>
      split at run
      next => simp [refuse_bind_ok] at run
      next input =>
        obtain ⟨w, h, first, rest⟩ := bind_ok.mp run
        obtain ⟨ws, h', more, rest⟩ := bind_ok.mp rest
        cases rest
        exact .statementsMore close input (hr.statement first) (ih more)

theorem Reads.statements_stop (read : Reads (.statements k) f v g) : g.current.kind = k := by
  generalize hp : Part.statements k = p at read
  induction read <;> simp_all

theorem block_sound (hr : r.Sound) (run : block r f = .ok (v, g)) : Reads .block f v g := by
  obtain ⟨opening, run⟩ := expect_bind_ok.mp run
  obtain ⟨body, h, lifted, rest⟩ := bind_ok.mp run
  obtain ⟨h', listed, rfl⟩ := allowingIn_ok.mp lifted
  simp only [statementList, get_bind] at listed
  obtain ⟨items, h'', inner, done⟩ := bind_ok.mp listed
  cases done
  obtain ⟨close, rest⟩ := expect_bind_ok.mp rest
  simp only [build_bind, pure_ok] at rest
  cases rest
  have read := statements_sound hr inner
  have stop := read.statements_stop
  cases items with
  | nil =>
    cases read
    exact .blockEmpty opening stop
  | cons w ws =>
    have := Reads.block opening read stop
    cases ws <;> simpa [mapLast] using this

theorem parameters_sound (run : parameters f = .ok (v, g)) : Reads .parameters f v g := by
  obtain ⟨opening, run⟩ := expect_bind_ok.mp run
  simp only [get_bind] at run
  obtain ⟨items, h, inner, rest⟩ := bind_ok.mp run
  obtain ⟨close, rest⟩ := expect_bind_ok.mp rest
  cases rest
  exact .parameters opening (closedList_sound (e := .binding) bindingIdentifier_sound inner) close

theorem functionRule_sound (hr : r.Sound) {declared : Bool}
    (run : functionRule r declared f = .ok (v, g)) : Reads (.function declared) f v g := by
  obtain ⟨word, run⟩ := expect_bind_ok.mp run
  simp only [check_ite] at run
  split at run
  next =>
    obtain ⟨name, h, named, run⟩ := bind_ok.mp run
    obtain ⟨params, h', listed, run⟩ := bind_ok.mp run
    obtain ⟨body, h'', inner, rest⟩ := bind_ok.mp run
    cases build_ok.mp rest
    exact .functionNamed word (bindingIdentifier_sound named) (parameters_sound listed)
      (block_sound hr inner)
  next unnamed =>
    cases declared with
    | true => simp [refuse_bind_ok] at run
    | false =>
      simp only [Bool.false_eq_true, if_false, pure_bind] at run
      obtain ⟨params, h', listed, run⟩ := bind_ok.mp run
      obtain ⟨body, h'', inner, rest⟩ := bind_ok.mp run
      cases build_ok.mp rest
      exact .functionUnnamed word unnamed (parameters_sound listed) (block_sound hr inner)

theorem elements_sound (hr : r.Sound) {steps : Nat} (run : elements r steps f = .ok (vs, g)) :
    Reads .elements f (.list vs) g := by
  induction steps generalizing f vs with
  | zero => simp [elements, refuse_ok] at run
  | succ steps ih =>
    simp only [elements, check_ite, accept_ite] at run
    split at run
    next close =>
      cases run
      exact .elementsNone close
    next close =>
      split at run
      next comma =>
        obtain ⟨ws, h, more, done⟩ := bind_ok.mp run
        cases done
        exact .elementsHole comma (ih more)
      next comma =>
        obtain ⟨w, h, first, rest⟩ := bind_ok.mp run
        simp only [check_ite] at rest
        split at rest
        next stop =>
          cases rest
          exact .elementsLast close comma (nestedAssignment_sound hr first) stop
        next =>
          obtain ⟨again, rest⟩ := expect_bind_ok.mp rest
          obtain ⟨ws, h', more, done⟩ := bind_ok.mp rest
          cases done
          exact .elementsMore close comma (nestedAssignment_sound hr first) again (ih more)

theorem array_sound (hr : r.Sound) (run : array r f = .ok (v, g)) : Reads .primary f v g := by
  obtain ⟨opening, run⟩ := expect_bind_ok.mp run
  simp only [get_bind] at run
  obtain ⟨items, h, inner, rest⟩ := bind_ok.mp run
  obtain ⟨close, rest⟩ := expect_bind_ok.mp rest
  cases build_ok.mp rest
  exact .array opening (elements_sound hr inner) close

theorem objectProperty_sound (hr : r.Sound) (run : objectProperty r f = .ok (v, g)) :
    Reads .property f v g := by
  simp only [objectProperty, objectProperty.valued, get_bind, accept_ite] at run
  split at run
  next opening =>
    obtain ⟨key, h, first, rest⟩ := bind_ok.mp run
    obtain ⟨close, rest⟩ := expect_bind_ok.mp rest
    obtain ⟨colon, rest⟩ := expect_bind_ok.mp rest
    obtain ⟨value, h', second, rest⟩ := bind_ok.mp rest
    cases build_ok.mp rest
    exact .propertyComputed opening (nestedAssignment_sound hr first) close colon
      (nestedAssignment_sound hr second)
  next =>
    simp only [ite_run] at run
    split at run
    next scalar =>
      obtain ⟨key, h, first, rest⟩ := bind_ok.mp run
      obtain ⟨rfl, rfl⟩ := literal_ok.mp first
      obtain ⟨colon, rest⟩ := expect_bind_ok.mp rest
      obtain ⟨value, h', second, rest⟩ := bind_ok.mp rest
      cases build_ok.mp rest
      exact .propertyLiteral (by simpa using scalar) colon (nestedAssignment_sound hr second)
    next =>
      split at run
      next name =>
        obtain ⟨key, h, first, rest⟩ := bind_ok.mp run
        obtain ⟨spelled, rfl⟩ := propertyName_sound first
        simp only [check_bind, ite_run] at rest
        split at rest
        next short =>
          cases rest
          cases spelled
          have : f.current.kind = .ident ∧
              (f.next.current.kind = .comma ∨ f.next.current.kind = .rightBrace) := by
            simpa [Feed.sees] using short
          exact .propertyShort this.1 this.2
        next =>
          obtain ⟨colon, rest⟩ := expect_bind_ok.mp rest
          obtain ⟨value, h', second, rest⟩ := bind_ok.mp rest
          cases build_ok.mp rest
          exact .propertyNamed spelled colon (nestedAssignment_sound hr second)
      next => simp [refuse_ok] at run

theorem object_sound (hr : r.Sound) (run : object r f = .ok (v, g)) : Reads .primary f v g := by
  obtain ⟨opening, run⟩ := expect_bind_ok.mp run
  simp only [get_bind] at run
  obtain ⟨items, h, inner, rest⟩ := bind_ok.mp run
  obtain ⟨close, rest⟩ := expect_bind_ok.mp rest
  cases build_ok.mp rest
  exact .object opening (closedList_sound (e := .property) (objectProperty_sound hr) inner) close

theorem primary_sound (hr : r.Sound) (run : primary r f = .ok (v, g)) : Reads .primary f v g := by
  simp only [primary, get_bind] at run
  cases kind : f.current.kind
  case ident =>
    simp only [kind] at run
    cases run
    exact .name kind
  case number =>
    simp only [kind] at run
    obtain ⟨rfl, rfl⟩ := literal_ok.mp run
    exact .numberOrString (.inl kind)
  case string =>
    simp only [kind] at run
    obtain ⟨rfl, rfl⟩ := literal_ok.mp run
    exact .numberOrString (.inr kind)
  case kwTrue =>
    simp only [kind] at run
    obtain ⟨rfl, rfl⟩ := literal_ok.mp run
    exact .wordTrue kind
  case kwFalse =>
    simp only [kind] at run
    obtain ⟨rfl, rfl⟩ := literal_ok.mp run
    exact .wordFalse kind
  case kwNull =>
    simp only [kind] at run
    obtain ⟨rfl, rfl⟩ := literal_ok.mp run
    exact .wordNull kind
  case kwThis =>
    simp only [kind] at run
    cases run
    exact .wordThis kind
  case kwFunction =>
    simp only [kind] at run
    exact .functionExpression (functionRule_sound hr run)
  case leftParen =>
    simp only [kind, advance_bind] at run
    obtain ⟨w, h, inner, rest⟩ := bind_ok.mp run
    obtain ⟨close, rest⟩ := expect_bind_ok.mp rest
    cases rest
    exact .parenthesized kind (nestedExpression_sound hr inner) close
  case leftBracket =>
    simp only [kind] at run
    exact array_sound hr run
  case leftBrace =>
    simp only [kind] at run
    exact object_sound hr run
  all_goals simp [kind, refuse_ok] at run

theorem arguments_sound (hr : r.Sound) (run : arguments r f = .ok (v, g)) :
    Reads .arguments f v g := by
  obtain ⟨opening, run⟩ := expect_bind_ok.mp run
  simp only [get_bind] at run
  obtain ⟨items, h, inner, rest⟩ := bind_ok.mp run
  obtain ⟨close, rest⟩ := expect_bind_ok.mp rest
  cases rest
  exact .arguments opening (closedList_sound (e := .nested) (nestedAssignment_sound hr) inner) close

theorem member?_sound (hr : r.Sound) {made : Option Value}
    (run : member? r start base f = .ok (made, g)) :
    (∃ v, made = some v ∧ Reads (.member start base) f v g) ∨
      made = none ∧ g = f ∧ f.current.kind ≠ .dot ∧ f.current.kind ≠ .leftBracket := by
  simp only [member?, accept_ite] at run
  split at run
  next dot =>
    obtain ⟨name, h, named, rest⟩ := bind_ok.mp run
    cases rest
    exact .inl ⟨_, rfl, .memberNamed dot (propertyName_sound named).1⟩
  next dot =>
    split at run
    next bracket =>
      obtain ⟨index, h, inner, rest⟩ := bind_ok.mp run
      obtain ⟨close, rest⟩ := expect_bind_ok.mp rest
      cases rest
      exact .inl ⟨_, rfl, .memberIndexed bracket (nestedExpression_sound hr inner) close⟩
    next bracket =>
      cases run
      exact .inr ⟨rfl, rfl, dot, bracket⟩

theorem members_sound (hr : r.Sound) {steps : Nat}
    (run : members r start steps base f = .ok (v, g)) :
    Reads (.members start base) f v g := by
  induction steps generalizing f base with
  | zero => simp [members, refuse_ok] at run
  | succ steps ih =>
    obtain ⟨made, h, first, rest⟩ := bind_ok.mp run
    rcases member?_sound hr first with ⟨w, rfl, read⟩ | ⟨rfl, rfl, dot, bracket⟩
    · exact .membersMore read (ih rest)
    · cases rest
      exact .membersStop dot bracket

theorem construction_sound (hr : r.Sound) (run : construction r f = .ok (v, g)) :
    Reads .construction f v g := by
  obtain ⟨new, run⟩ := expect_bind_ok.mp run
  have tail : ∀ {made h}, Reads .head f.next made h →
      (members r f.current.start h.steps made >>= fun callee => check .leftParen >>= fun opening =>
        if opening then arguments r >>= fun args =>
          build .newExpression [callee, args] f.current.start
        else pure (.list []) >>= fun args =>
          build .newExpression [callee, args] f.current.start) h = .ok (v, g) →
      Reads .construction f v g := by
    intro made h first rest
    obtain ⟨callee, h', more, rest⟩ := bind_ok.mp rest
    simp only [check_ite, pure_bind] at rest
    split at rest
    next =>
      obtain ⟨args, h'', listed, rest⟩ := bind_ok.mp rest
      cases build_ok.mp rest
      exact .constructionCall new first (members_sound hr more) (arguments_sound hr listed)
    next stop =>
      cases build_ok.mp rest
      exact .constructionBare new first (members_sound hr more) stop
  simp only [check_ite] at run
  split at run
  next again =>
    obtain ⟨made, h, first, rest⟩ := bind_ok.mp run
    exact tail (.headNew again (hr.construction first)) rest
  next plain =>
    obtain ⟨made, h, first, rest⟩ := bind_ok.mp run
    exact tail (.headPrimary plain (primary_sound hr first)) rest

theorem accesses_sound (hr : r.Sound) {steps : Nat}
    (run : accesses r start steps base f = .ok (v, g)) :
    Reads (.accesses start base) f v g := by
  induction steps generalizing f base with
  | zero => simp [accesses, refuse_ok] at run
  | succ steps ih =>
    obtain ⟨made, h, first, rest⟩ := bind_ok.mp run
    rcases member?_sound hr first with ⟨w, rfl, read⟩ | ⟨rfl, rfl, dot, bracket⟩
    · exact .accessesMember read (ih rest)
    · simp only [check_ite] at rest
      split at rest
      next =>
        obtain ⟨args, h', listed, rest⟩ := bind_ok.mp rest
        exact .accessesCall (arguments_sound hr listed) (ih rest)
      next paren =>
        cases rest
        exact .accessesStop dot bracket paren

theorem access_sound (hr : r.Sound) (run : access r f = .ok (v, g)) : Reads .access f v g := by
  simp only [access, here_bind, check_ite] at run
  split at run
  next new =>
    obtain ⟨w, h, first, rest⟩ := bind_ok.mp run
    exact .access (.headNew new (construction_sound hr first)) (accesses_sound hr rest)
  next plain =>
    obtain ⟨w, h, first, rest⟩ := bind_ok.mp run
    exact .access (.headPrimary plain (primary_sound hr first)) (accesses_sound hr rest)

theorem stepped_sound (hr : r.Sound) (run : stepped r f = .ok (v, g)) : Reads .stepped f v g := by
  simp only [stepped, here_bind] at run
  obtain ⟨target, h, inner, rest⟩ := bind_ok.mp run
  simp only [get_bind, ite_run] at rest
  split at rest
  next step =>
    simp only [Bool.and_eq_true, Bool.not_eq_true'] at step
    split at rest
    next => simp [refuse_bind_ok] at rest
    next assignable =>
      cases rest
      exact .stepAfter (access_sound hr inner) step.1 step.2 (by simpa using assignable)
  next still =>
    cases rest
    exact .unstepped (access_sound hr inner) (by simpa using still)

theorem unary_sound (hr : r.Sound) (run : unary r f = .ok (v, g)) : Reads .unary f v g := by
  simp only [unary, get_bind, ite_run] at run
  split at run
  next operator =>
    simp only [advance_bind] at run
    obtain ⟨w, h, inner, rest⟩ := bind_ok.mp run
    cases build_ok.mp rest
    exact .unaryOperator operator (hr.unary inner)
  next plain =>
    split at run
    next operator =>
      simp only [advance_bind] at run
      obtain ⟨w, h, inner, rest⟩ := bind_ok.mp run
      simp only [ite_run] at rest
      split at rest
      next => simp [refuse_bind_ok] at rest
      next assignable =>
        cases build_ok.mp rest
        exact .stepBefore (by simpa using plain) operator (hr.unary inner)
          (by simpa using assignable)
    next still =>
      exact .unsigned (by simpa using plain) (by simpa using still) (stepped_sound hr run)

theorem operations_sound (hr : r.Sound) {steps : Nat}
    (run : operations r start least steps left f = .ok (v, g)) :
    Reads (.operations start least left) f v g := by
  induction steps generalizing f left with
  | zero => simp [operations, refuse_ok] at run
  | succ steps ih =>
    simp only [operations, operatorRank_bind] at run
    cases ranked : f.rank? with
    | none =>
      simp only [ranked] at run
      cases run
      exact .operationsStop (by simp [ranked])
    | some rank =>
      simp only [ranked, ite_run] at run
      split at run
      next loose =>
        cases run
        exact .operationsStop (by simp [ranked, loose])
      next tight =>
        simp only [advance_bind, beq_iff_eq] at run
        obtain ⟨right, h, operand, rest⟩ := bind_ok.mp run
        simp only [build_bind] at rest
        exact .operationsMore ranked (by omega) (hr.binary operand) (ih rest)

theorem binary_sound (hr : r.Sound) (run : binary r least f = .ok (v, g)) :
    Reads (.binary least) f v g := by
  simp only [binary, here_bind] at run
  obtain ⟨left, h, first, rest⟩ := bind_ok.mp run
  exact .binary (unary_sound hr first) (operations_sound hr rest)

theorem conditional_sound (hr : r.Sound) (run : conditional r f = .ok (v, g)) :
    Reads .conditional f v g := by
  simp only [conditional, here_bind] at run
  obtain ⟨test, h, condition, rest⟩ := bind_ok.mp run
  simp only [accept_ite] at rest
  split at rest
  next question =>
    obtain ⟨left, h', lifted, rest⟩ := bind_ok.mp rest
    obtain ⟨h'', consequent, rfl⟩ := allowingIn_ok.mp lifted
    obtain ⟨colon, rest⟩ := expect_bind_ok.mp rest
    obtain ⟨right, h''', alternate, rest⟩ := bind_ok.mp rest
    cases build_ok.mp rest
    exact .tested (binary_sound hr condition) question (.nested (hr.assignment consequent)) colon
      (hr.assignment alternate)
  next stop =>
    cases rest
    exact .untested (binary_sound hr condition) stop

theorem arrow_sound (hr : r.Sound) (run : arrow r f = .ok (v, g)) : Reads .arrow f v g := by
  have tail : ∀ {params h}, Reads .arrowParameters f params h →
      (expect .arrow >>= fun _ => check .leftBrace >>= fun brace =>
        if brace then block r >>= fun body =>
          build .arrowFunctionExpression [params, body, .bool false] f.current.start
        else allowingIn r.assignment >>= fun body =>
          build .arrowFunctionExpression [params, body, .bool true] f.current.start) h =
        .ok (v, g) → Reads .arrow f v g := by
    intro params h listed rest
    obtain ⟨sign, rest⟩ := expect_bind_ok.mp rest
    simp only [check_ite] at rest
    split at rest
    next brace =>
      obtain ⟨body, h', inner, rest⟩ := bind_ok.mp rest
      cases build_ok.mp rest
      exact .arrowBlock listed sign brace (block_sound hr inner)
    next brace =>
      obtain ⟨body, h', lifted, rest⟩ := bind_ok.mp rest
      cases build_ok.mp rest
      exact .arrowValue listed sign brace (nestedAssignment_sound hr lifted)
  simp only [arrow, here_bind, check_ite] at run
  split at run
  next =>
    obtain ⟨params, h, listed, rest⟩ := bind_ok.mp run
    simp only [map_eq_pure_bind] at listed
    obtain ⟨name, h', named, done⟩ := bind_ok.mp listed
    cases done
    exact tail (.arrowName (bindingIdentifier_sound named)) rest
  next names =>
    obtain ⟨params, h, listed, rest⟩ := bind_ok.mp run
    exact tail (.arrowNames names (parameters_sound listed)) rest

theorem assignment_sound (hr : r.Sound) (run : assignment r f = .ok (v, g)) :
    Reads .assignment f v g := by
  simp only [assignment, get_bind, ite_run] at run
  split at run
  next starts => exact .arrowFunction starts (arrow_sound hr run)
  next starts =>
    simp only [here_bind] at run
    obtain ⟨left, h, inner, rest⟩ := bind_ok.mp run
    simp only [get_bind, ite_run] at rest
    split at rest
    next operator =>
      split at rest
      next => simp [refuse_bind_ok] at rest
      next assignable =>
        simp only [advance_bind] at rest
        obtain ⟨right, h', value, rest⟩ := bind_ok.mp rest
        cases build_ok.mp rest
        exact .assigned (by simpa using starts) (conditional_sound hr inner) operator
          (by simpa using assignable) (hr.assignment value)
    next stop =>
      cases rest
      exact .unassigned (by simpa using starts) (conditional_sound hr inner) (by simpa using stop)

theorem expression_sound (hr : r.Sound) (run : expression r f = .ok (v, g)) :
    Reads .sequence f v g :=
  sequence_sound (assignment_sound hr) run

theorem declarator_sound (hr : r.Sound) (run : declarator r f = .ok (v, g)) :
    Reads .declarator f v g := by
  simp only [declarator, here_bind] at run
  obtain ⟨name, h, named, rest⟩ := bind_ok.mp run
  simp only [accept_ite, pure_bind] at rest
  split at rest
  next assign =>
    obtain ⟨init, h', value, rest⟩ := bind_ok.mp rest
    cases build_ok.mp rest
    exact .declaratorInit (bindingIdentifier_sound named) assign (assignment_sound hr value)
  next stop =>
    cases build_ok.mp rest
    exact .declaratorBare (bindingIdentifier_sound named) stop

theorem declaration_sound (hr : r.Sound) (word : f.current.kind.declares)
    (run : declaration r f = .ok (v, g)) : Reads .declaration f v g := by
  simp only [declaration, advance_bind, get_bind] at run
  obtain ⟨items, h, inner, rest⟩ := bind_ok.mp run
  cases build_ok.mp rest
  exact .declaration word (commaList_sound (e := .declarator) (declarator_sound hr) inner)

theorem condition_sound (hr : r.Sound) (run : condition r f = .ok (v, g)) :
    ∃ h, f.current.kind = .leftParen ∧ Reads .sequence f.next v h ∧
      h.current.kind = .rightParen ∧ g = h.next := by
  obtain ⟨opening, run⟩ := expect_bind_ok.mp run
  obtain ⟨test, h, inner, rest⟩ := bind_ok.mp run
  obtain ⟨close, rest⟩ := expect_bind_ok.mp rest
  cases rest
  exact ⟨h, opening, expression_sound hr inner, close, rfl⟩

theorem ifRule_sound (hr : r.Sound) (run : ifRule r f = .ok (v, g)) : Reads .statement f v g := by
  obtain ⟨word, run⟩ := expect_bind_ok.mp run
  obtain ⟨test, h, tested, run⟩ := bind_ok.mp run
  obtain ⟨h', opening, condition, close, rfl⟩ := condition_sound hr tested
  obtain ⟨consequent, h'', first, rest⟩ := bind_ok.mp run
  simp only [accept_ite, pure_bind] at rest
  split at rest
  next els =>
    obtain ⟨alternate, h''', second, rest⟩ := bind_ok.mp rest
    cases build_ok.mp rest
    exact .ifElse word opening condition close (hr.statement first) els (hr.statement second)
  next stop =>
    cases build_ok.mp rest
    exact .ifShort word opening condition close (hr.statement first) stop

theorem optional_sound {p : Parser Value}
    (sound : ∀ {f v g}, p f = .ok (v, g) → Reads .sequence f v g) {q : Value → Parser Value}
    (run : (check k >>= fun close => if close then pure .null >>= q else p >>= q) f =
      .ok (v, g)) : ∃ w h, Reads (.optional k) f w h ∧ q w h = .ok (v, g) := by
  simp only [check_ite, pure_bind] at run
  split at run
  next close => exact ⟨_, _, .optionalNone close, run⟩
  next close =>
    obtain ⟨w, h, inner, rest⟩ := bind_ok.mp run
    exact ⟨w, h, .optionalSome close (sound inner), rest⟩

theorem countedLoop_sound (hr : r.Sound) (run : countedLoop r start init f = .ok (v, g)) :
    Reads (.counted start init) f v g := by
  obtain ⟨first, run⟩ := expect_bind_ok.mp run
  obtain ⟨test, h, condition, run⟩ := optional_sound (expression_sound hr) run
  obtain ⟨second, run⟩ := expect_bind_ok.mp run
  obtain ⟨update, h', updated, run⟩ := optional_sound (expression_sound hr) run
  obtain ⟨close, run⟩ := expect_bind_ok.mp run
  obtain ⟨body, h'', inner, rest⟩ := bind_ok.mp run
  cases build_ok.mp rest
  exact .counted first condition second updated close (hr.statement inner)

theorem atLoopWord_iff : f.atLoopWord ↔ f.current.kind = .kwIn ∨
    f.current.kind = .ident ∧ f.current.value = .text (text "of") := by
  unfold Feed.atLoopWord
  split <;> simp_all [Feed.sees]

theorem forRule_sound (hr : r.Sound) (run : forRule r f = .ok (v, g)) :
    Reads .statement f v g := by
  obtain ⟨word, run⟩ := expect_bind_ok.mp run
  obtain ⟨opening, run⟩ := expect_bind_ok.mp run
  simp only [check_ite] at run
  split at run
  next semicolon => exact .forBare word opening semicolon (countedLoop_sound hr run)
  next semicolon =>
    obtain ⟨init, h, barred, rest⟩ := bind_ok.mp run
    obtain ⟨h', inner, rfl⟩ := withoutIn_ok.mp barred
    have first : Reads .loopInit f.next.next.bar init h' := by
      simp only [get_bind, ite_run] at inner
      split at inner
      next declares => exact .loopInitDeclaration declares (declaration_sound hr declares inner)
      next declares =>
        exact .loopInitExpression (by simpa using declares) (expression_sound hr inner)
    simp only [get_bind, ite_run] at rest
    split at rest
    next loop =>
      simp only [loopOver, check_bind, ite_run] at rest
      split at rest
      next => simp [refuse_bind_ok] at rest
      next target =>
        simp only [Bool.not_eq_true, Bool.not_eq_false'] at target
        simp only [advance_bind, ite_run] at rest
        split at rest
        next names =>
          obtain ⟨right, h'', collection, rest⟩ := bind_ok.mp rest
          obtain ⟨close, rest⟩ := expect_bind_ok.mp rest
          obtain ⟨body, h''', inner, rest⟩ := bind_ok.mp rest
          cases build_ok.mp rest
          exact .forIn word opening semicolon first (by simpa [Feed.sees] using names) target
            (expression_sound hr collection) close (hr.statement inner)
        next names =>
          obtain ⟨right, h'', collection, rest⟩ := bind_ok.mp rest
          obtain ⟨close, rest⟩ := expect_bind_ok.mp rest
          obtain ⟨body, h''', inner, rest⟩ := bind_ok.mp rest
          cases build_ok.mp rest
          have of := (atLoopWord_iff.mp loop).resolve_left (by simpa [Feed.sees] using names)
          exact .forOf word opening semicolon first of.1 of.2 target
            (assignment_sound hr collection) close (hr.statement inner)
    next loop =>
      exact .forCounted word opening semicolon first (by simpa using loop)
        (countedLoop_sound hr rest)

theorem whileRule_sound (hr : r.Sound) (run : whileRule r f = .ok (v, g)) :
    Reads .statement f v g := by
  obtain ⟨word, run⟩ := expect_bind_ok.mp run
  obtain ⟨test, h, tested, run⟩ := bind_ok.mp run
  obtain ⟨h', opening, condition, close, rfl⟩ := condition_sound hr tested
  obtain ⟨body, h'', inner, rest⟩ := bind_ok.mp run
  cases build_ok.mp rest
  exact .whileStatement word opening condition close (hr.statement inner)

theorem doRule_sound (hr : r.Sound) (run : doRule r f = .ok (v, g)) : Reads .statement f v g := by
  obtain ⟨word, run⟩ := expect_bind_ok.mp run
  obtain ⟨body, h, inner, run⟩ := bind_ok.mp run
  obtain ⟨tail, run⟩ := expect_bind_ok.mp run
  obtain ⟨test, h', tested, rest⟩ := bind_ok.mp run
  obtain ⟨h'', opening, condition, close, rfl⟩ := condition_sound hr tested
  simp only [accept_bind, Feed.sees, beq_iff_eq] at rest
  have stop : g = if h''.next.current.kind = .semicolon then h''.next.next else h''.next := by
    split at rest <;> cases build_ok.mp rest <;> simp [*]
  have made : v = g.node .doWhileStatement [body, test] f.current.start := by
    split at rest <;> cases build_ok.mp rest <;> rfl
  rw [made]
  exact .doWhile word (hr.statement inner) tail opening condition close stop

theorem handler_sound (hr : r.Sound) (run : handler r f = .ok (v, g)) : Reads .handler f v g := by
  obtain ⟨word, run⟩ := expect_bind_ok.mp run
  simp only [accept_ite, pure_bind] at run
  split at run
  next opening =>
    obtain ⟨name, h, named, run⟩ := bind_ok.mp run
    obtain ⟨close, run⟩ := expect_bind_ok.mp run
    obtain ⟨body, h', inner, rest⟩ := bind_ok.mp run
    cases build_ok.mp rest
    exact .handlerNamed word opening (bindingIdentifier_sound named) close (block_sound hr inner)
  next paren =>
    obtain ⟨body, h', inner, rest⟩ := bind_ok.mp run
    cases build_ok.mp rest
    exact .handlerBare word paren (block_sound hr inner)

theorem tryRule_sound (hr : r.Sound) (run : tryRule r f = .ok (v, g)) : Reads .statement f v g := by
  obtain ⟨word, run⟩ := expect_bind_ok.mp run
  obtain ⟨guarded, h, inner, run⟩ := bind_ok.mp run
  have tail : ∀ {handled h'}, Reads .handler h handled h' →
      (accept .kwFinally >>= fun last => if last then
        block r >>= fun finalizer =>
          if (handled.isNull && finalizer.isNull) = true then
            refuse .bareTry >>= fun _ : PUnit =>
              build .tryStatement [guarded, handled, finalizer] f.current.start
          else build .tryStatement [guarded, handled, finalizer] f.current.start
        else pure .null >>= fun finalizer =>
          if (handled.isNull && finalizer.isNull) = true then
            refuse .bareTry >>= fun _ : PUnit =>
              build .tryStatement [guarded, handled, finalizer] f.current.start
          else build .tryStatement [guarded, handled, finalizer] f.current.start) h' =
        .ok (v, g) → Reads .statement f v g := by
    intro handled h' read rest
    simp only [accept_ite, pure_bind] at rest
    split at rest
    next last =>
      obtain ⟨finalizer, h'', closing, rest⟩ := bind_ok.mp rest
      simp only [ite_run] at rest
      split at rest
      next => simp [refuse_bind_ok] at rest
      next both =>
        cases build_ok.mp rest
        exact .tryStatement word (block_sound hr inner) read
          (.finalizerSome last (block_sound hr closing)) (by simpa using both)
    next last =>
      simp only [ite_run] at rest
      split at rest
      next => simp [refuse_bind_ok] at rest
      next both =>
        cases build_ok.mp rest
        exact .tryStatement word (block_sound hr inner) read (.finalizerNone last)
          (by simpa using both)
  simp only [check_ite] at run
  split at run
  next =>
    obtain ⟨handled, h', caught, rest⟩ := bind_ok.mp run
    exact tail (handler_sound hr caught) rest
  next stop => exact tail (.handlerNone stop) run

theorem returnRule_sound (hr : r.Sound) (run : returnRule r f = .ok (v, g)) :
    Reads .statement f v g := by
  obtain ⟨word, run⟩ := expect_bind_ok.mp run
  simp only [get_bind, ite_run] at run
  split at run
  next bare =>
    simp only [pure_bind] at run
    obtain ⟨h, stop, rest⟩ := endStatement_bind_ok.mp run
    cases build_ok.mp rest
    exact .returnBare word bare stop
  next bare =>
    obtain ⟨argument, h, inner, rest⟩ := bind_ok.mp run
    obtain ⟨h', stop, rest⟩ := endStatement_bind_ok.mp rest
    cases build_ok.mp rest
    exact .returnValue word (by simpa using bare) (expression_sound hr inner) stop

theorem jumpRule_sound {kind : Kind} (run : jumpRule kind f = .ok (v, g)) :
    ∃ label h, Reads .label f.next label h ∧ h.Ends g ∧
      v = g.node kind [label] f.current.start := by
  simp only [jumpRule, advance_bind, get_bind, ite_run] at run
  split at run
  next labelled =>
    simp only [Bool.and_eq_true, Bool.not_eq_true'] at labelled
    obtain ⟨label, h, named, rest⟩ := bind_ok.mp run
    obtain ⟨h', stop, rest⟩ := endStatement_bind_ok.mp rest
    cases build_ok.mp rest
    exact ⟨label, h, .labelSome labelled.2 (bindingIdentifier_sound named), stop, rfl⟩
  next bare =>
    simp only [pure_bind] at run
    obtain ⟨h', stop, rest⟩ := endStatement_bind_ok.mp run
    cases build_ok.mp rest
    exact ⟨.null, f.next, .labelNone (by simpa using bare), stop, rfl⟩

theorem throwRule_sound (hr : r.Sound) (run : throwRule r f = .ok (v, g)) :
    Reads .statement f v g := by
  obtain ⟨word, run⟩ := expect_bind_ok.mp run
  simp only [get_bind, ite_run] at run
  split at run
  next => simp [refuse_bind_ok] at run
  next line =>
    obtain ⟨argument, h, inner, rest⟩ := bind_ok.mp run
    obtain ⟨h', stop, rest⟩ := endStatement_bind_ok.mp rest
    cases build_ok.mp rest
    exact .throwStatement word (by simpa using line) (expression_sound hr inner) stop

theorem expressionRule_sound (hr : r.Sound) (word : opensStatement f.current.kind = false)
    (run : expressionRule r f = .ok (v, g)) : Reads .statement f v g := by
  simp only [expressionRule, here_bind] at run
  obtain ⟨inner, h, read, rest⟩ := bind_ok.mp run
  obtain ⟨h', stop, rest⟩ := endStatement_bind_ok.mp rest
  cases build_ok.mp rest
  exact .expressionStatement word (expression_sound hr read) stop

theorem variableStatement_sound (hr : r.Sound) (word : f.current.kind.declares)
    (run : (declaration r >>= fun made => endStatement >>= fun _ => pure made) f = .ok (v, g)) :
    Reads .statement f v g := by
  obtain ⟨made, h, inner, rest⟩ := bind_ok.mp run
  obtain ⟨h', stop, rest⟩ := endStatement_bind_ok.mp rest
  cases rest
  exact .variableDeclaration (declaration_sound hr word inner) stop

theorem statement_sound (hr : r.Sound) (run : statement r f = .ok (v, g)) :
    Reads .statement f v g := by
  simp only [statement, get_bind] at run
  cases kind : f.current.kind <;> simp only [kind] at run
  case leftBrace => exact .blockStatement (block_sound hr run)
  case semicolon =>
    cases run
    exact .emptyStatement kind
  case kwVar => exact variableStatement_sound hr (by rw [kind]; rfl) run
  case kwLet => exact variableStatement_sound hr (by rw [kind]; rfl) run
  case kwConst => exact variableStatement_sound hr (by rw [kind]; rfl) run
  case kwFunction => exact .functionDeclaration (functionRule_sound hr run)
  case kwIf => exact ifRule_sound hr run
  case kwFor => exact forRule_sound hr run
  case kwWhile => exact whileRule_sound hr run
  case kwDo => exact doRule_sound hr run
  case kwTry => exact tryRule_sound hr run
  case kwReturn => exact returnRule_sound hr run
  case kwBreak =>
    obtain ⟨label, h, read, stop, rfl⟩ := jumpRule_sound run
    exact .breakStatement kind read stop
  case kwContinue =>
    obtain ⟨label, h, read, stop, rfl⟩ := jumpRule_sound run
    exact .continueStatement kind read stop
  case kwThrow => exact throwRule_sound hr run
  all_goals exact expressionRule_sound hr (by rw [kind]; rfl) run

theorem rules_sound (depth : Nat) : (rules depth).Sound := by
  induction depth with
  | zero => constructor <;> intros <;> simp_all [rules, refuse_ok]
  | succ depth ih =>
    exact ⟨statement_sound ih, assignment_sound ih, unary_sound ih, binary_sound ih,
      construction_sound ih⟩

/-- A program is a list of statements up to the end of input; if there are none, it has the comments
of the end of input itself. -/
theorem program_sound {tokens : List Token} (run : Grammar.run program tokens = .ok v) :
    ∃ vs g, Reads (.statements .endOfInput) (Feed.ofTokens tokens) (.list vs) g ∧
      v = if vs.isEmpty then
          attachTrailing g.current (.node .program [.list []]
            { span := some ⟨(Feed.ofTokens tokens).current.start, some g.current.stop⟩ })
        else .node .program [.list (mapLast (attachTrailing g.current) vs)]
          { span := some ⟨(Feed.ofTokens tokens).current.start, some g.current.stop⟩ } := by
  unfold Grammar.run at run
  cases ran : program (rules (tokens.length + 1)) (Feed.ofTokens tokens) with
  | error e => simp [ran, Except.map] at run
  | ok made =>
    obtain ⟨w, g⟩ := made
    simp only [ran, Except.map, Except.ok.injEq] at run
    subst run
    simp only [program, here_bind] at ran
    obtain ⟨body, h, listed, rest⟩ := bind_ok.mp ran
    simp only [statementList, get_bind] at listed
    obtain ⟨items, h', inner, done⟩ := bind_ok.mp listed
    cases done
    cases rest
    refine ⟨items, _, statements_sound (rules_sound _) inner, ?_⟩
    match items with
    | [] => rfl
    | [w] => rfl
    | w :: w' :: ws => rfl

end Grammar

/-- A source is parsed by cutting it into tokens and reading them. -/
theorem parse_ok {source : Text} {v : Value} :
    parse source = .ok v ↔
      ∃ tokens, tokenize source = .ok tokens ∧ Grammar.run Grammar.program tokens = .ok v := by
  rw [parse]
  cases tokenize source with
  | error e => simp [bind, Except.bind]
  | ok tokens =>
    change programOfTokens tokens = .ok v ↔ _
    rw [programOfTokens]
    cases ran : Grammar.run Grammar.program tokens with
    | error e =>
      constructor
      · intro parsed
        cases parsed
      · rintro ⟨_, same, run⟩
        cases same
        rw [ran] at run
        cases run
    | ok w =>
      constructor
      · intro parsed
        cases parsed
        exact ⟨tokens, rfl, ran⟩
      · rintro ⟨_, same, run⟩
        cases same
        cases ran.symm.trans run
        rfl

end ScriptTree
