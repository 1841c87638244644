import ScriptTree.Proofs.Grammar.Rounds

/-!
Rules in accord. Two sets of rules are in accord to a depth if they concur at every feed that fits
it, for statements only where the word `in` is an operator. Then all that is built from them concurs
too: a rule hands on to the next depth after a token of its own, and to a statement only where `in`
is an operator.
-/
namespace ScriptTree.Grammar

structure Rules.Accord (r s : Rules) (depth : Nat) : Prop where
  sound : r.Sound
  statement : ∀ {f}, f.Fits depth → f.noIn = false → Concurs r.statement s.statement f
  assignment : ∀ {f}, f.Fits depth → Concurs r.assignment s.assignment f
  unary : ∀ {f}, f.Fits depth → Concurs r.unary s.unary f
  binary : ∀ {least f}, f.Fits depth → Concurs (r.binary least) (s.binary least) f
  construction : ∀ {f}, f.Fits depth → Concurs r.construction s.construction f

variable {r s : Rules} {f g : Feed} {v : Value} {e : Item} {k : TokenKind} {start : Mark}
  {base left init : Value} {least depth steps : Nat} {item item' : Parser Value}

/-- What is refused without regard to depth stops whatever would follow. -/
theorem refused_concur {α β : Type} {fault : GrammarFault} {q q' : α → Parser β}
    (reason : fault ≠ .tooDeep) : Concurs (refuse fault >>= q) (refuse fault >>= q') f :=
  (Concurs.refuse reason).bind fun run => (refuse_ok.mp run).elim

theorem commaList_concur (sound : ∀ {f v g}, item f = .ok (v, g) → Reads e.part f v g)
    (concur : ∀ {f}, f.Fits depth → Concurs item item' f) (fits : f.Fits depth)
    (enough : f.Fits steps) : Concurs (commaList item steps) (commaList item' steps) f := by
  have listed : ∀ p : Parser Value, commaList p steps = rounds (commaRound p) steps [] := by
    intro p
    rw [← commaList_rounds]
    simp
  rw [listed, listed]
  apply rounds_concur depth fun _ => True
  · intro f items fits _
    refine (concur fits).read sound fun _ => ?_
    exact .accept (fun _ => .pure) (fun _ => .pure)
  · intro f items _
    exact commaRound_moves sound
  · exact fits
  · exact enough
  · trivial

theorem closedList_concur (sound : ∀ {f v g}, item f = .ok (v, g) → Reads e.part f v g)
    (concur : ∀ {f}, f.Fits depth → Concurs item item' f) (fits : f.Fits depth)
    (enough : f.Fits steps) : Concurs (closedList k item steps) (closedList k item' steps) f := by
  have listed : ∀ p : Parser Value, closedList k p steps = rounds (closedRound k p) steps [] := by
    intro p
    rw [← closedList_rounds]
    simp
  rw [listed, listed]
  apply rounds_concur depth fun _ => True
  · intro f items fits _
    refine .check (fun _ => .pure) fun _ => ?_
    refine (concur fits).read sound fun _ => ?_
    exact .accept (fun _ => .pure) (fun _ => .pure)
  · intro f items _
    exact closedRound_moves sound
  · exact fits
  · exact enough
  · trivial

theorem bindingIdentifier_concur : Concurs bindingIdentifier bindingIdentifier f :=
  .check (fun _ => .advance .build) (fun _ => .get (.refuse (by simp)))

theorem propertyName_concur : Concurs propertyName propertyName f :=
  .get (.ite (fun _ => .advance .build) (fun _ => .refuse (by simp)))

theorem literal_concur {value : Value} : Concurs (literal value) (literal value) f :=
  .advance (.built .pure)

theorem sequence_concur (sound : ∀ {f v g}, item f = .ok (v, g) → Reads .assignment f v g)
    (concur : ∀ {f}, f.Fits depth → Concurs item item' f) (fits : f.Fits depth) :
    Concurs (sequence item) (sequence item') f := by
  apply Concurs.here
  refine (concur fits).read sound fun read => ?_
  apply Concurs.accept
  · intro _
    apply Concurs.get
    have later := (fits.after read).next
    refine (commaList_concur (e := .assignment) sound concur later later.steps).bind fun run => ?_
    exact ⟨(commaList_sound (e := .assignment) sound run).upto, .build⟩
  · intro _
    exact .pure

theorem nestedExpression_concur (hr : r.Accord s depth) (fits : f.Fits depth) :
    Concurs (nestedExpression r) (nestedExpression s) f :=
  .allowingIn (sequence_concur hr.sound.assignment hr.assignment fits.lift)

theorem nestedAssignment_concur (hr : r.Accord s depth) (fits : f.Fits depth) :
    Concurs (nestedAssignment r) (nestedAssignment s) f :=
  .allowingIn (hr.assignment fits.lift)

theorem statements_concur (hr : r.Accord s depth) (fits : f.Fits depth) (enough : f.Fits steps)
    (plain : f.noIn = false) : Concurs (statements r k steps) (statements s k steps) f := by
  have listed : ∀ r, statements r k steps = rounds (statementRound r k) steps [] := by
    intro r
    rw [← statements_rounds]
    simp
  rw [listed, listed]
  apply rounds_concur depth (· = false)
  · intro f body fits plain
    refine .check (fun _ => .pure) fun _ => ?_
    refine .check (fun _ => refused_concur (by simp)) fun _ => ?_
    apply Concurs.get
    exact (hr.statement fits plain).read hr.sound.statement fun _ => .pure
  · intro f body plain
    exact statementRound_moves hr.sound plain
  · exact fits
  · exact enough
  · exact plain

theorem statementList_concur (hr : r.Accord s depth) (fits : f.Fits depth)
    (plain : f.noIn = false) : Concurs (statementList r k) (statementList s k) f := by
  apply Concurs.get
  refine (statements_concur hr fits fits.steps plain).bind fun run => ?_
  exact ⟨(statements_sound hr.sound run).upto, .get .pure⟩

/-- Where reading stands after the statements of a block, tokens are left as before. -/
theorem allowingIn_upto {α : Type} {p : Parser α} {a : α}
    (upto : ∀ {a g}, p f.lift = .ok (a, g) → f.lift.Upto g) (run : allowingIn p f = .ok (a, g)) :
    f.Upto g := by
  obtain ⟨h, inner, rfl⟩ := allowingIn_ok.mp run
  exact (Feed.upto_lift.trans (upto inner)).trans Feed.upto_resume

theorem statementList_upto (hr : r.Sound) {vs : List Value}
    (run : statementList r k f = .ok (vs, g)) : f.Upto g := by
  simp only [statementList, get_bind] at run
  obtain ⟨body, h, inner, rest⟩ := bind_ok.mp run
  rw [get_bind] at rest
  cases pure_ok.mp rest
  exact (statements_sound hr inner).upto

theorem block_concur (hr : r.Accord s depth) (fits : f.Fits (depth + 1)) :
    Concurs (block r) (block s) f := by
  apply Concurs.expect
  intro opening
  have inner := fits.take opening (by decide)
  refine (statementList_concur hr inner.lift rfl).allowingIn.bind fun run => ?_
  refine ⟨allowingIn_upto (statementList_upto hr.sound) run, ?_⟩
  apply Concurs.expect
  intro _
  exact .built .pure

theorem parameters_concur (fits : f.Fits depth) : Concurs parameters parameters f := by
  apply Concurs.expect
  intro _
  apply Concurs.get
  refine (closedList_concur (e := .binding) bindingIdentifier_sound
    (fun _ => bindingIdentifier_concur) fits.next fits.next.steps).bind fun run => ?_
  refine ⟨(closedList_sound (e := .binding) bindingIdentifier_sound run).upto, ?_⟩
  exact .expect fun _ => .pure

theorem functionRule_concur (hr : r.Accord s depth) {declared : Bool} (fits : f.Fits (depth + 1)) :
    Concurs (functionRule r declared) (functionRule s declared) f := by
  -- what follows the name is the same with and without one
  have tail : ∀ {name : Value} {g : Feed}, g.Fits (depth + 1) → Concurs
      (parameters >>= fun params => block r >>= fun body => build
        (if declared then .functionDeclaration else .functionExpression) [name, params, body]
          f.current.start)
      (parameters >>= fun params => block s >>= fun body => build
        (if declared then .functionDeclaration else .functionExpression) [name, params, body]
          f.current.start) g := by
    intro name g fits
    refine (parameters_concur fits).read parameters_sound fun params => ?_
    exact (block_concur hr (fits.after params)).read (block_sound hr.sound) fun _ => .build
  apply Concurs.expect
  intro _
  apply Concurs.check
  · intro _
    exact bindingIdentifier_concur.read bindingIdentifier_sound fun name =>
      tail (fits.next.after name)
  · intro _
    apply Concurs.ite
    · intro _
      exact refused_concur (by simp)
    · intro _
      exact tail fits.next

theorem elements_concur (hr : r.Accord s depth) (fits : f.Fits depth) (enough : f.Fits steps) :
    Concurs (elements r steps) (elements s steps) f := by
  have listed : ∀ r, elements r steps = rounds (elementRound r) steps [] := by
    intro r
    rw [← elements_rounds]
    simp
  rw [listed, listed]
  apply rounds_concur depth fun _ => True
  · intro f items fits _
    refine .check (fun _ => .pure) fun _ => ?_
    refine .accept (fun _ => .pure) fun _ => ?_
    refine (nestedAssignment_concur hr fits).read (nestedAssignment_sound hr.sound) fun _ => ?_
    exact .check (fun _ => .pure) fun _ => .expect fun _ => .pure
  · intro f items _
    exact elementRound_moves hr.sound
  · exact fits
  · exact enough
  · trivial

theorem array_concur (hr : r.Accord s depth) (fits : f.Fits (depth + 1)) :
    Concurs (array r) (array s) f := by
  apply Concurs.expect
  intro opening
  have inner := fits.take opening (by decide)
  apply Concurs.get
  refine (elements_concur hr inner inner.steps).bind fun run => ?_
  exact ⟨(elements_sound hr.sound run).upto, .expect fun _ => .build⟩

theorem objectProperty_concur (hr : r.Accord s depth) (fits : f.Fits depth) :
    Concurs (objectProperty r) (objectProperty s) f := by
  have valued : ∀ {t : Token} {key : Value} {g : Feed}, g.Fits depth →
      Concurs (objectProperty.valued r t key) (objectProperty.valued s t key) g := by
    intro t key g fits
    apply Concurs.expect
    intro _
    exact (nestedAssignment_concur hr fits.next).read (nestedAssignment_sound hr.sound)
      fun _ => .build
  apply Concurs.get
  apply Concurs.accept
  · intro _
    refine (nestedAssignment_concur hr fits.next).read (nestedAssignment_sound hr.sound)
      fun key => ?_
    apply Concurs.expect
    intro _
    apply Concurs.expect
    intro _
    exact (nestedAssignment_concur hr (fits.next.after key).next.next).read
      (nestedAssignment_sound hr.sound) fun _ => .build
  · intro _
    apply Concurs.ite
    · intro _
      refine literal_concur.bind fun run => ?_
      obtain ⟨_, rfl⟩ := literal_ok.mp run
      exact ⟨Feed.upto_next, valued fits.next⟩
    · intro _
      apply Concurs.ite
      · intro _
        refine propertyName_concur.bind fun run => ?_
        obtain ⟨read, rfl⟩ := propertyName_sound run
        refine ⟨read.upto, ?_⟩
        apply Concurs.checked
        apply Concurs.checked
        apply Concurs.ite
        · intro _
          exact .built .build
        · intro _
          exact valued fits.next
      · intro _
        exact .refuse (by simp)

theorem object_concur (hr : r.Accord s depth) (fits : f.Fits (depth + 1)) :
    Concurs (object r) (object s) f := by
  apply Concurs.expect
  intro opening
  have inner := fits.take opening (by decide)
  apply Concurs.get
  refine (closedList_concur (e := .property) (objectProperty_sound hr.sound)
    (objectProperty_concur hr) inner inner.steps).bind fun run => ?_
  exact ⟨(closedList_sound (e := .property) (objectProperty_sound hr.sound) run).upto,
    .expect fun _ => .build⟩

theorem primary_concur (hr : r.Accord s depth) (fits : f.Fits (depth + 1)) :
    Concurs (primary r) (primary s) f := by
  apply Concurs.get
  cases kind : f.current.kind <;> simp only [kind]
  case ident | kwThis => exact .advance .build
  case number | string | kwTrue | kwFalse | kwNull => exact literal_concur
  case kwFunction => exact functionRule_concur hr fits
  case leftParen =>
    apply Concurs.advance
    have inner := fits.take kind (by decide)
    exact (nestedExpression_concur hr inner).read (nestedExpression_sound hr.sound)
      fun _ => .expect fun _ => .pure
  case leftBracket => exact array_concur hr fits
  case leftBrace => exact object_concur hr fits
  all_goals exact .refuse (by simp)

theorem arguments_concur (hr : r.Accord s depth) (fits : f.Fits (depth + 1)) :
    Concurs (arguments r) (arguments s) f := by
  apply Concurs.expect
  intro opening
  have inner := fits.take opening (by decide)
  apply Concurs.get
  refine (closedList_concur (e := .nested) (nestedAssignment_sound hr.sound)
    (nestedAssignment_concur hr) inner inner.steps).bind fun run => ?_
  exact ⟨(closedList_sound (e := .nested) (nestedAssignment_sound hr.sound) run).upto,
    .expect fun _ => .pure⟩

theorem member?_concur (hr : r.Accord s depth) (fits : f.Fits (depth + 1)) :
    Concurs (member? r start base) (member? s start base) f := by
  apply Concurs.accept
  · intro _
    refine propertyName_concur.bind fun run => ?_
    exact ⟨(propertyName_sound run).1.upto, .built .pure⟩
  · intro _
    apply Concurs.accept
    · intro opening
      have inner := fits.take opening (by decide)
      refine (nestedExpression_concur hr inner).read (nestedExpression_sound hr.sound) fun _ => ?_
      exact .expect fun _ => .built .pure
    · intro _
      exact .pure

theorem member?_upto (hr : r.Sound) {made : Option Value}
    (run : member? r start base f = .ok (made, g)) : f.Upto g := by
  obtain ⟨v, _, read⟩ | ⟨_, rfl, _⟩ := member?_sound hr run
  · exact read.upto
  · exact .refl

theorem members_concur (hr : r.Accord s depth) (fits : f.Fits (depth + 1)) (enough : f.Fits steps) :
    Concurs (members r start steps base) (members s start steps base) f := by
  rw [members_rounds, members_rounds]
  apply rounds_concur (depth + 1) fun _ => True
  · intro f object fits _
    refine (member?_concur hr fits).bind fun {made _} run => ⟨member?_upto hr.sound run, ?_⟩
    cases made <;> exact .pure
  · intro f object _
    exact memberRound_moves hr.sound
  · exact fits
  · exact enough
  · trivial

theorem construction_concur (hr : r.Accord s depth) (fits : f.Fits (depth + 1)) :
    Concurs (construction r) (construction s) f := by
  -- what follows the head of the callee is the same for both sorts of heads
  have tail : ∀ {head : Value} {g : Feed}, g.Fits (depth + 1) → Concurs
      (get >>= fun g => members r f.current.start g.steps head >>= fun callee =>
        check .leftParen >>= fun opening => if opening then
            arguments r >>= fun args => build .newExpression [callee, args] f.current.start
          else build .newExpression [callee, .list []] f.current.start)
      (get >>= fun g => members s f.current.start g.steps head >>= fun callee =>
        check .leftParen >>= fun opening => if opening then
            arguments s >>= fun args => build .newExpression [callee, args] f.current.start
          else build .newExpression [callee, .list []] f.current.start) g := by
    intro head g fits
    apply Concurs.get
    refine (members_concur hr fits fits.steps).read (members_sound hr.sound) fun more => ?_
    apply Concurs.check
    · intro _
      exact (arguments_concur hr (fits.after more)).read (arguments_sound hr.sound) fun _ => .build
    · intro _
      exact .build
  apply Concurs.expect
  intro new
  have inner := fits.take new (by decide)
  apply Concurs.check
  · intro _
    exact (hr.construction inner).read hr.sound.construction fun head =>
      tail (fits.next.after head)
  · intro _
    exact (primary_concur hr fits.next).read (primary_sound hr.sound) fun head =>
      tail (fits.next.after head)

theorem accesses_concur (hr : r.Accord s depth) (fits : f.Fits (depth + 1))
    (enough : f.Fits steps) :
    Concurs (accesses r start steps base) (accesses s start steps base) f := by
  rw [accesses_rounds, accesses_rounds]
  apply rounds_concur (depth + 1) fun _ => True
  · intro f object fits _
    refine (member?_concur hr fits).bind fun {made _} run => ⟨member?_upto hr.sound run, ?_⟩
    cases made with
    | some _ => exact .pure
    | none =>
      have later := fits.upto (member?_upto hr.sound run)
      refine .check (fun _ => ?_) fun _ => .pure
      exact (arguments_concur hr later).read (arguments_sound hr.sound) fun _ => .built .pure
  · intro f object _
    exact accessRound_moves hr.sound
  · exact fits
  · exact enough
  · trivial

theorem access_concur (hr : r.Accord s depth) (fits : f.Fits (depth + 1)) :
    Concurs (access r) (access s) f := by
  apply Concurs.here
  apply Concurs.check
  · intro _
    refine (construction_concur hr fits).read (construction_sound hr.sound) fun head => ?_
    exact .get (accesses_concur hr (fits.after head) (fits.after head).steps)
  · intro _
    refine (primary_concur hr fits).read (primary_sound hr.sound) fun head => ?_
    exact .get (accesses_concur hr (fits.after head) (fits.after head).steps)

theorem stepped_concur (hr : r.Accord s depth) (fits : f.Fits (depth + 1)) :
    Concurs (stepped r) (stepped s) f := by
  apply Concurs.here
  refine (access_concur hr fits).read (access_sound hr.sound) fun _ => ?_
  apply Concurs.get
  apply Concurs.ite
  · intro _
    apply Concurs.ite
    · intro _
      exact refused_concur (by simp)
    · intro _
      exact .advance .build
  · intro _
    exact .pure

theorem unary_concur (hr : r.Accord s depth) (fits : f.Fits (depth + 1)) :
    Concurs (unary r) (unary s) f := by
  apply Concurs.get
  apply Concurs.ite
  · intro operator
    apply Concurs.advance
    have later := fits.take rfl (kind_apart operator rfl)
    exact (hr.unary later).read hr.sound.unary fun _ => .build
  · intro _
    apply Concurs.ite
    · intro operator
      apply Concurs.advance
      have within : f.current.kind ≠ .endOfInput := by
        intro last
        simp [last, TokenKind.isUpdate] at operator
      refine (hr.unary (fits.take rfl within)).read hr.sound.unary fun _ => ?_
      exact .ite (fun _ => refused_concur (by simp)) fun _ => .build
    · intro _
      exact stepped_concur hr fits

theorem operations_concur (hr : r.Accord s depth) (fits : f.Fits (depth + 1))
    (enough : f.Fits steps) :
    Concurs (operations r start least steps left) (operations s start least steps left) f := by
  rw [operations_rounds, operations_rounds]
  apply rounds_concur (depth + 1) fun _ => True
  · intro f left fits _
    apply Concurs.operatorRank
    cases ranked : f.rank? with
    | none => exact .pure
    | some rank =>
      refine .ite (fun _ => .pure) fun _ => ?_
      apply Concurs.advance
      have later := fits.take rfl (Feed.rank?_ne ranked rfl)
      exact (hr.binary later).read hr.sound.binary fun _ => .built .pure
  · intro f left _
    exact operationRound_moves hr.sound
  · exact fits
  · exact enough
  · trivial

theorem binary_concur (hr : r.Accord s depth) (fits : f.Fits (depth + 1)) :
    Concurs (binary r least) (binary s least) f := by
  apply Concurs.here
  refine (unary_concur hr fits).read (unary_sound hr.sound) fun first => ?_
  exact .get (operations_concur hr (fits.after first) (fits.after first).steps)

theorem conditional_concur (hr : r.Accord s depth) (fits : f.Fits (depth + 1)) :
    Concurs (conditional r) (conditional s) f := by
  apply Concurs.here
  refine (binary_concur hr fits).read (binary_sound hr.sound) fun test => ?_
  apply Concurs.accept
  · intro _
    have later := (fits.beyond test rfl).next
    refine (nestedAssignment_concur hr later).read (nestedAssignment_sound hr.sound)
      fun consequent => ?_
    apply Concurs.expect
    intro _
    exact (hr.assignment (later.after consequent).next).read hr.sound.assignment fun _ => .build
  · intro _
    exact .pure

theorem arrow_concur (hr : r.Accord s depth) (fits : f.Fits (depth + 1)) :
    Concurs (arrow r) (arrow s) f := by
  -- what follows the parameters is the same for one name and for names in parentheses
  have tail : ∀ {params : Value} {g : Feed}, g.Fits depth → Concurs
      (expect .arrow >>= fun _ => check .leftBrace >>= fun brace => if brace then
          block r >>= fun body =>
            build .arrowFunctionExpression [params, body, .bool false] f.current.start
        else allowingIn r.assignment >>= fun body =>
            build .arrowFunctionExpression [params, body, .bool true] f.current.start)
      (expect .arrow >>= fun _ => check .leftBrace >>= fun brace => if brace then
          block s >>= fun body =>
            build .arrowFunctionExpression [params, body, .bool false] f.current.start
        else allowingIn s.assignment >>= fun body =>
            build .arrowFunctionExpression [params, body, .bool true] f.current.start) g := by
    intro params g fits
    apply Concurs.expect
    intro _
    apply Concurs.check
    · intro _
      exact (block_concur hr fits.next.more).read (block_sound hr.sound) fun _ => .build
    · intro _
      exact (nestedAssignment_concur hr fits.next).read (nestedAssignment_sound hr.sound)
        fun _ => .build
  apply Concurs.here
  apply Concurs.check
  · intro _
    simp only [map_eq_pure_bind, bind_assoc, pure_bind]
    exact bindingIdentifier_concur.read bindingIdentifier_sound fun name =>
      tail (fits.beyond name rfl)
  · intro _
    exact (parameters_concur fits).read parameters_sound fun names =>
      tail (fits.beyond names rfl)

theorem assignment_concur (hr : r.Accord s depth) (fits : f.Fits (depth + 1)) :
    Concurs (assignment r) (assignment s) f := by
  apply Concurs.get
  apply Concurs.ite
  · intro _
    exact arrow_concur hr fits
  · intro _
    apply Concurs.here
    refine (conditional_concur hr fits).read (conditional_sound hr.sound) fun first => ?_
    apply Concurs.get
    apply Concurs.ite
    · intro _
      apply Concurs.ite
      · intro _
        exact refused_concur (by simp)
      · intro _
        apply Concurs.advance
        exact (hr.assignment (fits.beyond first rfl).next).read hr.sound.assignment fun _ => .build
    · intro _
      exact .pure

theorem expression_concur (hr : r.Accord s depth) (fits : f.Fits (depth + 1)) :
    Concurs (expression r) (expression s) f :=
  sequence_concur (assignment_sound hr.sound) (assignment_concur hr) fits

theorem declarator_concur (hr : r.Accord s depth) (fits : f.Fits (depth + 1)) :
    Concurs (declarator r) (declarator s) f := by
  apply Concurs.here
  refine bindingIdentifier_concur.read bindingIdentifier_sound fun name => ?_
  apply Concurs.accept
  · intro _
    exact (assignment_concur hr (fits.after name).next).read (assignment_sound hr.sound)
      fun _ => .build
  · intro _
    exact .build

theorem declaration_upto (hr : r.Sound) (run : declaration r f = .ok (v, g)) : f.next.Upto g := by
  simp only [declaration, advance_bind, get_bind] at run
  obtain ⟨items, h, inner, rest⟩ := bind_ok.mp run
  cases build_ok.mp rest
  exact (commaList_sound (e := .declarator) (declarator_sound hr) inner).upto

theorem declaration_concur (hr : r.Accord s depth) (fits : f.Fits (depth + 1)) :
    Concurs (declaration r) (declaration s) f := by
  apply Concurs.advance
  apply Concurs.get
  refine (commaList_concur (e := .declarator) (declarator_sound hr.sound) (declarator_concur hr)
    fits.next fits.next.steps).bind fun run => ?_
  exact ⟨(commaList_sound (e := .declarator) (declarator_sound hr.sound) run).upto, .build⟩

theorem condition_concur (hr : r.Accord s depth) (fits : f.Fits (depth + 1)) :
    Concurs (condition r) (condition s) f := by
  apply Concurs.expect
  intro _
  exact (expression_concur hr fits.next).read (expression_sound hr.sound)
    fun _ => .expect fun _ => .pure

/-- A condition leads onward. -/
theorem condition_onward (hr : r.Sound) (run : condition r f = .ok (v, g)) : f.Onward g := by
  obtain ⟨h, opening, read, _, rfl⟩ := condition_sound hr run
  have inner := (Feed.onward_next opening (by decide)).trans read.upto (read.noIn_eq (.inl rfl))
  exact inner.next

theorem ifRule_concur (hr : r.Accord s depth) (fits : f.Fits (depth + 1)) (plain : f.noIn = false) :
    Concurs (ifRule r) (ifRule s) f := by
  apply Concurs.expect
  intro word
  have inner := fits.take word (by decide)
  refine (condition_concur hr inner.more).bind fun run => ?_
  have tested := condition_onward hr.sound run
  have later := inner.upto tested.1.upto
  have noIn := (tested.2.trans Feed.next_noIn).trans plain
  refine ⟨tested.1.upto, (hr.statement later noIn).read hr.sound.statement fun consequent => ?_⟩
  apply Concurs.accept
  · intro _
    have still := (consequent.noIn_eq (.inr noIn)).trans noIn
    exact (hr.statement (later.after consequent).next (Feed.next_noIn.trans still)).read
      hr.sound.statement fun _ => .build
  · intro _
    exact .build

/-- A part that may be missing is followed by the same, whether it is there or not. -/
theorem optional_concur {α : Type} {p p' : Parser Value} {q q' : Value → Parser α}
    (concur : Concurs p p' f) (sound : ∀ {f v g}, p f = .ok (v, g) → Reads .sequence f v g)
    (later : ∀ {w g}, Reads (.optional k) f w g → Concurs (q w) (q' w) g) :
    Concurs (check k >>= fun close => if close then pure .null >>= q else p >>= q)
      (check k >>= fun close => if close then pure .null >>= q' else p' >>= q') f := by
  apply Concurs.check
  · intro close
    simp only [pure_bind]
    exact later (.optionalNone close)
  · intro close
    exact concur.read sound fun inner => later (.optionalSome close inner)

theorem countedLoop_concur (hr : r.Accord s depth) (fits : f.Fits (depth + 1))
    (plain : f.noIn = false) :
    Concurs (countedLoop r start init) (countedLoop s start init) f := by
  apply Concurs.expect
  intro first
  have inner := fits.take first (by decide)
  refine optional_concur (expression_concur hr inner.more) (expression_sound hr.sound)
    fun test => ?_
  apply Concurs.expect
  intro _
  have later := (inner.after test).next
  refine optional_concur (expression_concur hr later.more) (expression_sound hr.sound)
    fun update => ?_
  apply Concurs.expect
  intro _
  have noIn := ((update.noIn_eq (.inl rfl)).trans Feed.next_noIn).trans
    ((test.noIn_eq (.inl rfl)).trans (Feed.next_noIn.trans plain))
  exact (hr.statement (later.after update).next (Feed.next_noIn.trans noIn)).read hr.sound.statement
    fun _ => .build

theorem loopOver_concur (hr : r.Accord s depth) (fits : f.Fits depth) (plain : f.noIn = false) :
    Concurs (loopOver r start left) (loopOver s start left) f := by
  -- what follows the word is the same for names and for items
  have tail : ∀ {p p' : Parser Value} {part : Part} {kind : Kind}, Concurs p p' f.next →
      (∀ {f v g}, p f = .ok (v, g) → Reads part f v g) → part.holdsStatements = false → Concurs
        (p >>= fun right => expect .rightParen >>= fun _ => r.statement >>= fun body =>
          build kind [left, right, body] start)
        (p' >>= fun right => expect .rightParen >>= fun _ => s.statement >>= fun body =>
          build kind [left, right, body] start) f.next := by
    intro p p' part kind concur sound expr
    refine concur.read sound fun right => ?_
    apply Concurs.expect
    intro _
    have noIn := (right.noIn_eq (.inl expr)).trans (Feed.next_noIn.trans plain)
    exact (hr.statement (fits.next.after right).next (Feed.next_noIn.trans noIn)).read
      hr.sound.statement fun _ => .build
  apply Concurs.checked
  apply Concurs.ite
  · intro _
    exact refused_concur (by simp)
  · intro _
    apply Concurs.advance
    cases f.sees .kwIn
    · exact tail (assignment_concur hr fits.next.more) (assignment_sound hr.sound) rfl
    · exact tail (expression_concur hr fits.next.more) (expression_sound hr.sound) rfl

theorem forRule_concur (hr : r.Accord s depth) (fits : f.Fits (depth + 1))
    (plain : f.noIn = false) : Concurs (forRule r) (forRule s) f := by
  apply Concurs.expect
  intro word
  have inner := fits.take word (by decide)
  apply Concurs.expect
  intro _
  apply Concurs.check
  · intro _
    exact countedLoop_concur hr inner.next.more (Feed.next_noIn.trans (Feed.next_noIn.trans plain))
  · intro _
    have head := inner.next
    have first : Concurs
        (withoutIn (get >>= fun f =>
          if f.current.kind.declares then declaration r else expression r))
        (withoutIn (get >>= fun f =>
          if f.current.kind.declares then declaration s else expression s))
        f.next.next := by
      apply Concurs.withoutIn
      apply Concurs.get
      apply Concurs.ite
      · intro _
        exact declaration_concur hr head.more
      · intro _
        exact expression_concur hr head.more
    refine first.bind fun run => ?_
    obtain ⟨h, barred, rfl⟩ := withoutIn_ok.mp run
    have upto : f.next.next.bar.Upto h := by
      rw [get_bind, ite_run] at barred
      split at barred
      · exact Feed.upto_next.trans (declaration_upto hr.sound barred)
      · exact (expression_sound hr.sound barred).upto
    refine ⟨(Feed.upto_bar.trans upto).trans Feed.upto_lift, ?_⟩
    have later : h.lift.Fits depth := (head.upto (Feed.upto_bar.trans upto)).lift
    apply Concurs.get
    apply Concurs.ite
    · intro _
      exact loopOver_concur hr later rfl
    · intro _
      exact countedLoop_concur hr later.more rfl

theorem whileRule_concur (hr : r.Accord s depth) (fits : f.Fits (depth + 1))
    (plain : f.noIn = false) : Concurs (whileRule r) (whileRule s) f := by
  apply Concurs.expect
  intro word
  have inner := fits.take word (by decide)
  refine (condition_concur hr inner.more).bind fun run => ?_
  have tested := condition_onward hr.sound run
  have noIn := (tested.2.trans Feed.next_noIn).trans plain
  exact ⟨tested.1.upto, (hr.statement (inner.upto tested.1.upto) noIn).read hr.sound.statement
    fun _ => .build⟩

theorem doRule_concur (hr : r.Accord s depth) (fits : f.Fits (depth + 1))
    (plain : f.noIn = false) : Concurs (doRule r) (doRule s) f := by
  apply Concurs.expect
  intro word
  have inner := fits.take word (by decide)
  refine (hr.statement inner (Feed.next_noIn.trans plain)).read hr.sound.statement fun body => ?_
  apply Concurs.expect
  intro _
  refine (condition_concur hr (inner.after body).next.more).bind fun run => ?_
  exact ⟨(condition_onward hr.sound run).1.upto, .taken .build .build⟩

theorem handler_concur (hr : r.Accord s depth) (fits : f.Fits (depth + 1)) :
    Concurs (handler r) (handler s) f := by
  apply Concurs.expect
  intro _
  apply Concurs.accept
  · intro _
    refine bindingIdentifier_concur.read bindingIdentifier_sound fun name => ?_
    apply Concurs.expect
    intro _
    simp only [pure_bind]
    exact (block_concur hr (fits.next.next.after name).next).read (block_sound hr.sound)
      fun _ => .build
  · intro _
    simp only [pure_bind]
    exact (block_concur hr fits.next).read (block_sound hr.sound) fun _ => .build

theorem tryRule_concur (hr : r.Accord s depth) (fits : f.Fits (depth + 1)) :
    Concurs (tryRule r) (tryRule s) f := by
  -- what follows the blocks is the same whichever of them there are
  have made : ∀ {guarded handled finalizer : Value} {g : Feed}, Concurs
      (if (handled.isNull && finalizer.isNull) = true then
          refuse .bareTry >>= fun _ : PUnit =>
            build .tryStatement [guarded, handled, finalizer] f.current.start
        else build .tryStatement [guarded, handled, finalizer] f.current.start)
      (if (handled.isNull && finalizer.isNull) = true then
          refuse .bareTry >>= fun _ : PUnit =>
            build .tryStatement [guarded, handled, finalizer] f.current.start
        else build .tryStatement [guarded, handled, finalizer] f.current.start) g :=
    .ite (fun _ => refused_concur (by simp)) fun _ => .build
  have tail : ∀ {guarded handled : Value} {g : Feed}, g.Fits (depth + 1) → Concurs
      (accept .kwFinally >>= fun last => if last then
        block r >>= fun finalizer =>
          if (handled.isNull && finalizer.isNull) = true then
            refuse .bareTry >>= fun _ : PUnit =>
              build .tryStatement [guarded, handled, finalizer] f.current.start
          else build .tryStatement [guarded, handled, finalizer] f.current.start
        else pure .null >>= fun finalizer =>
          if (handled.isNull && finalizer.isNull) = true then
            refuse .bareTry >>= fun _ : PUnit =>
              build .tryStatement [guarded, handled, finalizer] f.current.start
          else build .tryStatement [guarded, handled, finalizer] f.current.start)
      (accept .kwFinally >>= fun last => if last then
        block s >>= fun finalizer =>
          if (handled.isNull && finalizer.isNull) = true then
            refuse .bareTry >>= fun _ : PUnit =>
              build .tryStatement [guarded, handled, finalizer] f.current.start
          else build .tryStatement [guarded, handled, finalizer] f.current.start
        else pure .null >>= fun finalizer =>
          if (handled.isNull && finalizer.isNull) = true then
            refuse .bareTry >>= fun _ : PUnit =>
              build .tryStatement [guarded, handled, finalizer] f.current.start
          else build .tryStatement [guarded, handled, finalizer] f.current.start) g := by
    intro guarded handled g fits
    apply Concurs.accept
    · intro _
      exact (block_concur hr fits.next).read (block_sound hr.sound) fun _ => made
    · intro _
      simp only [pure_bind]
      exact made
  apply Concurs.expect
  intro _
  refine (block_concur hr fits.next).read (block_sound hr.sound) fun guarded => ?_
  have later := fits.next.after guarded
  apply Concurs.check
  · intro _
    exact (handler_concur hr later).read (handler_sound hr.sound) fun handled =>
      tail (later.after handled)
  · intro _
    exact tail later

theorem returnRule_concur (hr : r.Accord s depth) (fits : f.Fits (depth + 1)) :
    Concurs (returnRule r) (returnRule s) f := by
  apply Concurs.expect
  intro _
  apply Concurs.get
  apply Concurs.ite
  · intro _
    simp only [pure_bind]
    exact .endStatement fun _ => .build
  · intro _
    exact (expression_concur hr fits.next).read (expression_sound hr.sound)
      fun _ => .endStatement fun _ => .build

theorem jumpRule_concur {kind : Kind} : Concurs (jumpRule kind) (jumpRule kind) f := by
  apply Concurs.advance
  apply Concurs.get
  apply Concurs.ite
  · intro _
    exact bindingIdentifier_concur.read bindingIdentifier_sound
      fun _ => .endStatement fun _ => .build
  · intro _
    simp only [pure_bind]
    exact .endStatement fun _ => .build

theorem throwRule_concur (hr : r.Accord s depth) (fits : f.Fits (depth + 1)) :
    Concurs (throwRule r) (throwRule s) f := by
  apply Concurs.expect
  intro _
  apply Concurs.get
  apply Concurs.ite
  · intro _
    exact refused_concur (by simp)
  · intro _
    exact (expression_concur hr fits.next).read (expression_sound hr.sound)
      fun _ => .endStatement fun _ => .build

theorem expressionRule_concur (hr : r.Accord s depth) (fits : f.Fits (depth + 1)) :
    Concurs (expressionRule r) (expressionRule s) f := by
  apply Concurs.here
  exact (expression_concur hr fits).read (expression_sound hr.sound)
    fun _ => .endStatement fun _ => .build

theorem statement_concur (hr : r.Accord s depth) (fits : f.Fits (depth + 1))
    (plain : f.noIn = false) : Concurs (statement r) (statement s) f := by
  apply Concurs.get
  cases kind : f.current.kind <;> simp only
  case leftBrace => exact block_concur hr fits
  case semicolon => exact .advance .build
  case kwVar | kwLet | kwConst =>
    refine (declaration_concur hr fits).bind fun run => ?_
    exact ⟨Feed.upto_next.trans (declaration_upto hr.sound run), .endStatement fun _ => .pure⟩
  case kwFunction => exact functionRule_concur hr fits
  case kwIf => exact ifRule_concur hr fits plain
  case kwFor => exact forRule_concur hr fits plain
  case kwWhile => exact whileRule_concur hr fits plain
  case kwDo => exact doRule_concur hr fits plain
  case kwTry => exact tryRule_concur hr fits
  case kwReturn => exact returnRule_concur hr fits
  case kwBreak | kwContinue => exact jumpRule_concur
  case kwThrow => exact throwRule_concur hr fits
  all_goals exact expressionRule_concur hr fits

theorem program_concur (hr : r.Accord s depth) (fits : f.Fits depth) (plain : f.noIn = false) :
    Concurs (program r) (program s) f := by
  apply Concurs.here
  refine (statementList_concur hr fits plain).bind fun run => ?_
  exact ⟨statementList_upto hr.sound run, .get .pure⟩

end ScriptTree.Grammar
