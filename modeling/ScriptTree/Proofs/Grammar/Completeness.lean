import ScriptTree.Proofs.Grammar.Progress
import ScriptTree.Proofs.Grammar.Soundness

/-!
What the grammar reads, the parsers return. A rule hands on to the rules of the next depth only
after a token of its own, so rules of a depth beyond the number of tokens that are left never run
out of depth, and a loop that takes a token in each round never runs out of steps.
-/
namespace ScriptTree.Grammar

namespace Feed

/-- Fewer tokens than a number are left beside the current one, and they are closed. -/
def Fits (f : Feed) (depth : Nat) : Prop := f.Closed ∧ f.rest.length < depth

variable {f g : Feed} {p : Part} {v : Value} {depth : Nat}

theorem Fits.upto (fits : f.Fits depth) (upto : f.Upto g) : g.Fits depth :=
  ⟨upto.closed fits.1, Nat.lt_of_le_of_lt upto.length_le fits.2⟩

theorem Fits.past (fits : f.Fits (depth + 1)) (past : f.Past g) : g.Fits depth := by
  have shorter := past.length_lt fits.1
  have bound := fits.2
  exact ⟨past.upto.closed fits.1, by omega⟩

theorem Fits.next (fits : f.Fits depth) : f.next.Fits depth := fits.upto upto_next

theorem Fits.lift (fits : f.Fits depth) : f.lift.Fits depth := fits

theorem Fits.take (fits : f.Fits (depth + 1)) {k : TokenKind} (seen : f.current.kind = k)
    (within : k ≠ .endOfInput) : f.next.Fits depth :=
  fits.past ⟨by rwa [seen], .refl⟩

theorem Fits.after (fits : f.Fits depth) (read : Reads p f v g) : g.Fits depth :=
  fits.upto read.upto

theorem Fits.beyond (fits : f.Fits (depth + 1)) (read : Reads p f v g)
    (consumes : p.consumes = true) : g.Fits depth :=
  fits.past (read.past consumes)

theorem Fits.more (fits : f.Fits depth) : f.Fits (depth + 1) := ⟨fits.1, Nat.lt_succ_of_lt fits.2⟩

end Feed

structure Rules.Complete (r : Rules) (depth : Nat) : Prop where
  statement : ∀ {f v g}, f.Fits depth → Reads .statement f v g → r.statement f = .ok (v, g)
  assignment : ∀ {f v g}, f.Fits depth → Reads .assignment f v g → r.assignment f = .ok (v, g)
  unary : ∀ {f v g}, f.Fits depth → Reads .unary f v g → r.unary f = .ok (v, g)
  binary : ∀ {least f v g}, f.Fits depth → Reads (.binary least) f v g →
    r.binary least f = .ok (v, g)
  construction : ∀ {f v g}, f.Fits depth → Reads .construction f v g →
    r.construction f = .ok (v, g)

variable {r : Rules} {f g : Feed} {v : Value} {vs : List Value} {e : Item} {k : TokenKind}
  {start : Mark} {base left init : Value} {least depth : Nat}

theorem commaList_complete {item : Parser Value}
    (complete : ∀ {f v g}, f.Fits depth → Reads e.part f v g → item f = .ok (v, g)) {steps : Nat}
    (fits : f.Fits depth) (enough : f.Fits steps) (read : Reads (.commas e) f (.list vs) g) :
    commaList item steps f = .ok (vs, g) := by
  induction steps generalizing f vs with
  | zero => exact absurd enough.2 (Nat.not_lt_zero _)
  | succ steps ih =>
    rw [commaList]
    cases read with
    | commasLast first stop =>
      rw [bind_run (complete fits first), accept_ite, if_neg stop]
      rfl
    | commasMore first comma more =>
      have later := enough.beyond first e.part_consumes
      rw [bind_run (complete fits first), accept_ite, if_pos comma,
        bind_run (ih (fits.after first).next later.next more)]
      rfl

theorem closedList_complete {item : Parser Value}
    (complete : ∀ {f v g}, f.Fits depth → Reads e.part f v g → item f = .ok (v, g)) {steps : Nat}
    (fits : f.Fits depth) (enough : f.Fits steps) (read : Reads (.closed k e) f (.list vs) g) :
    closedList k item steps f = .ok (vs, g) := by
  induction steps generalizing f vs with
  | zero => exact absurd enough.2 (Nat.not_lt_zero _)
  | succ steps ih =>
    rw [closedList, check_ite]
    cases read with
    | closedNone close =>
      rw [if_pos close]
      rfl
    | closedLast close first stop =>
      rw [if_neg close, bind_run (complete fits first), accept_ite, if_neg stop]
      rfl
    | closedMore close first comma more =>
      have later := enough.beyond first e.part_consumes
      rw [if_neg close, bind_run (complete fits first), accept_ite, if_pos comma,
        bind_run (ih (fits.after first).next later.next more)]
      rfl

/-- The steps that a loop is given are enough for it. -/
theorem Feed.Fits.steps (fits : f.Fits depth) : f.Fits f.steps := ⟨fits.1, Nat.lt_succ_self _⟩

theorem bindingIdentifier_complete (read : Reads .binding f v g) :
    bindingIdentifier f = .ok (v, g) := by
  cases read with
  | binding name =>
    rw [bindingIdentifier, check_ite, if_pos name]
    rfl

theorem propertyName_complete (read : Reads .propertyName f v g) :
    propertyName f = .ok (v, g) := by
  cases read with
  | propertyName name =>
    rw [propertyName, get_bind, ite_run, if_pos (by simpa using name)]
    rfl

/-- The items of a list are read as one value; this is the list in it. -/
theorem Reads.commas_list (read : Reads (.commas e) f v g) : ∃ vs, v = .list vs := by
  cases read <;> exact ⟨_, rfl⟩

theorem Reads.closed_list (read : Reads (.closed k e) f v g) : ∃ vs, v = .list vs := by
  cases read <;> exact ⟨_, rfl⟩

theorem sequence_complete {part : Parser Value}
    (complete : ∀ {f v g}, f.Fits depth → Reads .assignment f v g → part f = .ok (v, g))
    (fits : f.Fits depth) (read : Reads .sequence f v g) : sequence part f = .ok (v, g) := by
  rw [sequence, here_bind]
  cases read with
  | single first stop =>
    rw [bind_run (complete fits first), accept_ite, if_neg stop]
    rfl
  | sequence first comma more =>
    have later := (fits.after first).next
    rw [bind_run (complete fits first), accept_ite, if_pos comma, get_bind,
      bind_run (commaList_complete (e := .assignment) complete later later.steps more)]
    rfl

theorem nestedExpression_complete (hr : r.Complete depth) (fits : f.Fits depth)
    (read : Reads .group f v g) : nestedExpression r f = .ok (v, g) := by
  cases read with
  | group inner => exact allowingIn_run (sequence_complete hr.assignment fits inner)

theorem nestedAssignment_complete (hr : r.Complete depth) (fits : f.Fits depth)
    (read : Reads .nested f v g) : nestedAssignment r f = .ok (v, g) := by
  cases read with
  | nested inner => exact allowingIn_run (hr.assignment fits inner)

theorem statements_complete (hr : r.Complete depth) {steps : Nat} (fits : f.Fits depth)
    (enough : f.Fits steps) (read : Reads (.statements k) f (.list vs) g) :
    statements r k steps f = .ok (vs, g) := by
  induction steps generalizing f vs with
  | zero => exact absurd enough.2 (Nat.not_lt_zero _)
  | succ steps ih =>
    rw [statements, check_ite]
    cases read with
    | statementsNone close =>
      rw [if_pos close]
      rfl
    | statementsMore close input first more =>
      simp only [if_neg close, check_ite, if_neg input, get_bind]
      rw [bind_run (hr.statement fits first),
        bind_run (ih (fits.after first) (enough.beyond first rfl) more)]
      rfl

theorem statementList_complete (hr : r.Complete depth) (fits : f.Fits depth)
    (read : Reads (.statements k) f (.list vs) g) :
    statementList r k f = .ok (mapLast (attachTrailing g.current) vs, g) := by
  rw [statementList, get_bind, bind_run (statements_complete hr fits fits.steps read)]
  rfl

theorem block_complete (hr : r.Complete depth) (fits : f.Fits (depth + 1))
    (read : Reads .block f v g) : block r f = .ok (v, g) := by
  rw [block]
  cases read with
  | blockEmpty opening close =>
    have none := statementList_complete hr (f := f.next.lift) (fits.take opening (by decide))
      (.statementsNone close)
    rw [expect_bind opening, bind_run (allowingIn_run none),
      expect_bind (f := f.next.lift.resume f.next) close]
    rfl
  | @block _ h w ws opening body close =>
    have items := statementList_complete hr (f := f.next.lift) (fits.take opening (by decide)) body
    rw [expect_bind opening, bind_run (allowingIn_run items),
      expect_bind (f := h.resume f.next) close]
    cases ws <;> simp [build_bind, pure_ok, mapLast]

theorem parameters_complete (fits : f.Fits depth) (read : Reads .parameters f v g) :
    parameters f = .ok (v, g) := by
  rw [parameters]
  cases read with
  | parameters opening items close =>
    obtain ⟨vs, rfl⟩ := items.closed_list
    rw [expect_bind opening, get_bind, bind_run (closedList_complete (e := .binding)
      (fun _ => bindingIdentifier_complete) fits.next fits.next.steps items), expect_bind close]
    rfl

theorem functionRule_complete (hr : r.Complete depth) {declared : Bool}
    (fits : f.Fits (depth + 1)) (read : Reads (.function declared) f v g) :
    functionRule r declared f = .ok (v, g) := by
  rw [functionRule]
  cases read with
  | functionNamed word name params body =>
    have ident : f.next.current.kind = .ident := by cases name; assumption
    have later := fits.next.after name
    simp only [expect_bind word, check_ite, if_pos ident]
    rw [bind_run (bindingIdentifier_complete name), bind_run (parameters_complete later params),
      bind_run (block_complete hr (later.after params) body)]
    rfl
  | functionUnnamed word name params body =>
    simp only [expect_bind word, check_ite, if_neg name, Bool.false_eq_true, if_false, pure_bind]
    rw [bind_run (parameters_complete fits.next params),
      bind_run (block_complete hr (fits.next.after params) body)]
    rfl

theorem elements_complete (hr : r.Complete depth) {steps : Nat} (fits : f.Fits depth)
    (enough : f.Fits steps) (read : Reads .elements f (.list vs) g) :
    elements r steps f = .ok (vs, g) := by
  induction steps generalizing f vs with
  | zero => exact absurd enough.2 (Nat.not_lt_zero _)
  | succ steps ih =>
    rw [elements, check_ite]
    cases read with
    | elementsNone close =>
      rw [if_pos close]
      rfl
    | elementsHole comma more =>
      rw [if_neg (by simp [comma]), accept_ite, if_pos comma,
        bind_run (ih fits.next (enough.take comma (by decide)) more)]
      rfl
    | elementsLast close comma first stop =>
      rw [if_neg close, accept_ite, if_neg comma,
        bind_run (nestedAssignment_complete hr fits first), check_ite, if_pos stop]
      rfl
    | elementsMore close comma first again more =>
      have later := enough.beyond first rfl
      rw [if_neg close, accept_ite, if_neg comma,
        bind_run (nestedAssignment_complete hr fits first), check_ite, if_neg (by simp [again]),
        expect_bind again, bind_run (ih (fits.after first).next later.next more)]
      rfl

theorem Reads.elements_list (read : Reads .elements f v g) : ∃ vs, v = .list vs := by
  cases read <;> exact ⟨_, rfl⟩

/-- A name is neither a bracket nor a literal. -/
theorem name_plain {k : TokenKind} (name : k = .ident ∨ k.isKeyword) :
    k ≠ .leftBracket ∧ ¬(k = .string ∨ k = .number) := by
  rcases name with rfl | word
  · decide
  · exact TokenKind.holds_of_contains word (by decide)

theorem objectProperty_complete (hr : r.Complete depth) (fits : f.Fits depth)
    (read : Reads .property f v g) : objectProperty r f = .ok (v, g) := by
  rw [objectProperty, get_bind, accept_ite]
  cases read with
  | propertyComputed opening key close colon value =>
    have later := fits.next.after key
    rw [if_pos opening, bind_run (nestedAssignment_complete hr fits.next key), expect_bind close,
      expect_bind colon, bind_run (nestedAssignment_complete hr later.next.next value)]
    rfl
  | propertyLiteral key colon value =>
    rw [if_neg (by rcases key with h | h <;> simp [h]), ite_run, if_pos (by simpa using key),
      bind_run (literal_ok.mpr ⟨rfl, rfl⟩), objectProperty.valued, expect_bind colon,
      bind_run (nestedAssignment_complete hr fits.next.next value)]
    rfl
  | propertyNamed key colon value =>
    have word : f.current.kind = .ident ∨ f.current.kind.isKeyword := by cases key; assumption
    rw [if_neg (name_plain word).1, ite_run, if_neg (by simpa using (name_plain word).2), ite_run,
      if_pos (by simpa using word), bind_run (propertyName_complete key)]
    simp only [check_bind, ite_run, Feed.sees, colon]
    rw [if_neg (by simp), objectProperty.valued, expect_bind colon,
      bind_run (nestedAssignment_complete hr fits.next.next value)]
    rfl
  | propertyShort key stop =>
    rw [if_neg (by simp [key]), ite_run, if_neg (by simp [key]), ite_run, if_pos (by simp [key]),
      bind_run (propertyName_complete (.propertyName (.inl key)))]
    simp only [check_bind, ite_run]
    rw [if_pos (by simpa [key, Feed.sees] using stop)]
    rfl

theorem primary_complete (hr : r.Complete depth) (fits : f.Fits (depth + 1))
    (read : Reads .primary f v g) : primary r f = .ok (v, g) := by
  rw [primary, get_bind]
  cases read with
  | name kind =>
    simp only [kind]
    rfl
  | numberOrString kind =>
    rcases kind with kind | kind <;> simp only [kind] <;> exact literal_ok.mpr ⟨rfl, rfl⟩
  | wordTrue kind | wordFalse kind | wordNull kind =>
    simp only [kind]
    exact literal_ok.mpr ⟨rfl, rfl⟩
  | wordThis kind =>
    simp only [kind]
    rfl
  | functionExpression inner =>
    have kind : f.current.kind = .kwFunction := by cases inner <;> assumption
    simp only [kind]
    exact functionRule_complete hr fits inner
  | parenthesized kind inner close =>
    simp only [kind, advance_bind]
    rw [bind_run (nestedExpression_complete hr (fits.take kind (by decide)) inner),
      expect_bind close]
    rfl
  | array kind items close =>
    obtain ⟨vs, rfl⟩ := items.elements_list
    have later := fits.take kind (by decide)
    simp only [kind]
    rw [array, expect_bind kind, get_bind,
      bind_run (elements_complete hr later later.steps items), expect_bind close]
    rfl
  | object kind items close =>
    obtain ⟨vs, rfl⟩ := items.closed_list
    have later := fits.take kind (by decide)
    simp only [kind]
    rw [object, expect_bind kind, get_bind, bind_run (closedList_complete (e := .property)
      (objectProperty_complete hr) later later.steps items), expect_bind close]
    rfl

theorem arguments_complete (hr : r.Complete depth) (fits : f.Fits (depth + 1))
    (read : Reads .arguments f v g) : arguments r f = .ok (v, g) := by
  rw [arguments]
  cases read with
  | arguments opening items close =>
    obtain ⟨vs, rfl⟩ := items.closed_list
    have later := fits.take opening (by decide)
    rw [expect_bind opening, get_bind, bind_run (closedList_complete (e := .nested)
      (nestedAssignment_complete hr) later later.steps items), expect_bind close]
    rfl

theorem member?_complete (hr : r.Complete depth) (fits : f.Fits (depth + 1))
    (read : Reads (.member start base) f v g) :
    member? r start base f = .ok (some v, g) := by
  rw [member?, accept_ite]
  cases read with
  | memberNamed dot name =>
    rw [if_pos dot, bind_run (propertyName_complete name)]
    rfl
  | memberIndexed bracket index close =>
    rw [if_neg (by simp [bracket]), accept_ite, if_pos bracket,
      bind_run (nestedExpression_complete hr (fits.take bracket (by decide)) index),
      expect_bind close]
    rfl

theorem member?_none (dot : f.current.kind ≠ .dot) (bracket : f.current.kind ≠ .leftBracket) :
    member? r start base f = .ok (none, f) := by
  rw [member?, accept_ite, if_neg dot, accept_ite, if_neg bracket]
  rfl

theorem members_complete (hr : r.Complete depth) {steps : Nat} (fits : f.Fits (depth + 1))
    (enough : f.Fits steps) (read : Reads (.members start base) f v g) :
    members r start steps base f = .ok (v, g) := by
  induction steps generalizing f base with
  | zero => exact absurd enough.2 (Nat.not_lt_zero _)
  | succ steps ih =>
    rw [members]
    cases read with
    | membersMore first more =>
      rw [bind_run (member?_complete hr fits first)]
      exact ih (fits.after first) (enough.beyond first rfl) more
    | membersStop dot bracket =>
      rw [bind_run (member?_none dot bracket)]
      rfl

theorem construction_complete (hr : r.Complete depth) (fits : f.Fits (depth + 1))
    (read : Reads .construction f v g) : construction r f = .ok (v, g) := by
  -- the callee up to its arguments; what follows is the same with and without them
  have callee : ∀ {made h w i} {q : Value → Parser Value}, f.current.kind = .kwNew →
      Reads .head f.next made h → Reads (.members f.current.start made) h w i →
      (check .kwNew >>= fun new =>
        if new then r.construction >>= fun head =>
          get >>= fun at' => members r f.current.start at'.steps head >>= q
        else primary r >>= fun head =>
          get >>= fun at' => members r f.current.start at'.steps head >>= q) f.next = q w i := by
    intro made h w i q new first more
    have later := fits.next.after first
    have all := members_complete hr later later.steps more
    rw [check_ite]
    cases first with
    | headNew again inner =>
      rw [if_pos again, bind_run (hr.construction (fits.take new (by decide)) inner), get_bind,
        bind_run all]
    | headPrimary plain inner =>
      rw [if_neg plain, bind_run (primary_complete hr fits.next inner), get_bind, bind_run all]
  rw [construction]
  cases read with
  | @constructionCall _ _ h _ _ _ _ new first more args =>
    have later := (fits.next.after first).after more
    have opening : h.current.kind = .leftParen := by cases args; assumption
    rw [expect_bind new, callee new first more, check_ite, if_pos opening,
      bind_run (arguments_complete hr later args)]
    rfl
  | constructionBare new first more stop =>
    rw [expect_bind new, callee new first more, check_ite, if_neg stop]
    rfl

theorem accesses_complete (hr : r.Complete depth) {steps : Nat} (fits : f.Fits (depth + 1))
    (enough : f.Fits steps) (read : Reads (.accesses start base) f v g) :
    accesses r start steps base f = .ok (v, g) := by
  induction steps generalizing f base with
  | zero => exact absurd enough.2 (Nat.not_lt_zero _)
  | succ steps ih =>
    rw [accesses]
    cases read with
    | accessesMember first more =>
      rw [bind_run (member?_complete hr fits first)]
      exact ih (fits.after first) (enough.beyond first rfl) more
    | accessesCall args more =>
      have opening : f.current.kind = .leftParen := by cases args; assumption
      rw [bind_run (member?_none (by simp [opening]) (by simp [opening]))]
      simp only [check_ite, if_pos opening]
      rw [bind_run (arguments_complete hr fits args), build_bind]
      exact ih (fits.after args) (enough.beyond args rfl) more
    | accessesStop dot bracket paren =>
      rw [bind_run (member?_none dot bracket)]
      simp only [check_ite, if_neg paren]
      rfl

theorem access_complete (hr : r.Complete depth) (fits : f.Fits (depth + 1))
    (read : Reads .access f v g) : access r f = .ok (v, g) := by
  simp only [access, here_bind, check_ite]
  cases read with
  | access first more =>
    have later := fits.after first
    cases first with
    | headNew new inner =>
      rw [if_pos new, bind_run (construction_complete hr fits inner), get_bind]
      exact accesses_complete hr later later.steps more
    | headPrimary plain inner =>
      rw [if_neg plain, bind_run (primary_complete hr fits inner), get_bind]
      exact accesses_complete hr later later.steps more

theorem stepped_complete (hr : r.Complete depth) (fits : f.Fits (depth + 1))
    (read : Reads .stepped f v g) : stepped r f = .ok (v, g) := by
  rw [stepped, here_bind]
  cases read with
  | unstepped inner stop =>
    rw [bind_run (access_complete hr fits inner), get_bind, ite_run, if_neg (by simpa using stop)]
    rfl
  | stepAfter inner operator line target =>
    rw [bind_run (access_complete hr fits inner), get_bind, ite_run,
      if_pos (by simp [operator, line]), ite_run, if_neg (by simp [target])]
    rfl

theorem unary_complete (hr : r.Complete depth) (fits : f.Fits (depth + 1))
    (read : Reads .unary f v g) : unary r f = .ok (v, g) := by
  rw [unary, get_bind, ite_run]
  cases read with
  | unaryOperator operator operand =>
    have later := fits.take rfl (kind_apart operator rfl)
    rw [if_pos operator, advance_bind, bind_run (hr.unary later operand)]
    rfl
  | stepBefore plain operator operand target =>
    have within : f.current.kind ≠ .endOfInput := by
      intro last
      simp [last, TokenKind.isUpdate] at operator
    rw [if_neg (by simp [plain]), ite_run, if_pos operator, advance_bind,
      bind_run (hr.unary (fits.take rfl within) operand), ite_run, if_neg (by simp [target])]
    rfl
  | unsigned plain still inner =>
    rw [if_neg (by simp [plain]), ite_run, if_neg (by simp [still])]
    exact stepped_complete hr fits inner

theorem operations_complete (hr : r.Complete depth) {steps : Nat} (fits : f.Fits (depth + 1))
    (enough : f.Fits steps) (read : Reads (.operations start least left) f v g) :
    operations r start least steps left f = .ok (v, g) := by
  induction steps generalizing f left with
  | zero => exact absurd enough.2 (Nat.not_lt_zero _)
  | succ steps ih =>
    rw [operations, operatorRank_bind]
    cases read with
    | operationsStop stop =>
      cases ranked : g.rank? with
      | none => rfl
      | some rank =>
        simp only [ite_run]
        rw [if_pos (stop rank ranked)]
        rfl
    | operationsMore ranked tighter operand more =>
      have within : f.current.kind ≠ .endOfInput := by
        intro last
        simp [Feed.rank?, last, TokenKind.rank?] at ranked
      have later := enough.take rfl within
      simp only [ranked, ite_run]
      rw [if_neg (by omega), advance_bind]
      simp only [beq_iff_eq]
      rw [bind_run (hr.binary (fits.take rfl within) operand), build_bind]
      exact ih (fits.next.after operand) (later.after operand) more

theorem binary_complete (hr : r.Complete depth) (fits : f.Fits (depth + 1))
    (read : Reads (.binary least) f v g) : binary r least f = .ok (v, g) := by
  rw [binary, here_bind]
  cases read with
  | binary first more =>
    have later := fits.after first
    rw [bind_run (unary_complete hr fits first), get_bind]
    exact operations_complete hr later later.steps more

theorem conditional_complete (hr : r.Complete depth) (fits : f.Fits (depth + 1))
    (read : Reads .conditional f v g) : conditional r f = .ok (v, g) := by
  rw [conditional, here_bind]
  cases read with
  | untested inner stop =>
    rw [bind_run (binary_complete hr fits inner), accept_ite, if_neg stop]
    rfl
  | tested condition question consequent colon alternate =>
    have later := (fits.beyond condition rfl).next
    have last := (later.after consequent).next
    have lifted := nestedAssignment_complete hr later consequent
    rw [nestedAssignment] at lifted
    rw [bind_run (binary_complete hr fits condition), accept_ite, if_pos question,
      bind_run lifted, expect_bind colon, bind_run (hr.assignment last alternate)]
    rfl

theorem arrow_complete (hr : r.Complete depth) (fits : f.Fits (depth + 1))
    (read : Reads .arrow f v g) : arrow r f = .ok (v, g) := by
  -- the parameters; what follows them is the same for one name and for names in parentheses
  have listed : ∀ {params h} {q : Value → Parser Value}, Reads .arrowParameters f params h →
      (check .ident >>= fun name =>
        if name then ((fun p => .list [p]) <$> bindingIdentifier) >>= q
        else parameters >>= q) f = q params h := by
    intro params h q read
    rw [check_ite]
    cases read with
    | arrowName name =>
      have ident : f.current.kind = .ident := by cases name; assumption
      rw [if_pos ident, map_eq_pure_bind, bind_assoc, bind_run (bindingIdentifier_complete name),
        pure_bind]
    | arrowNames opening names =>
      rw [if_neg opening, bind_run (parameters_complete fits names)]
  rw [arrow, here_bind]
  cases read with
  | arrowBlock params sign brace body =>
    simp only [listed params, expect_bind sign, check_ite, if_pos brace]
    rw [bind_run (block_complete hr (fits.after params).next body)]
    rfl
  | arrowValue params sign brace body =>
    have later := (fits.beyond params rfl).next
    have lifted := nestedAssignment_complete hr later body
    rw [nestedAssignment] at lifted
    simp only [listed params, expect_bind sign, check_ite, if_neg brace]
    rw [bind_run lifted]
    rfl

theorem assignment_complete (hr : r.Complete depth) (fits : f.Fits (depth + 1))
    (read : Reads .assignment f v g) : assignment r f = .ok (v, g) := by
  rw [assignment, get_bind, ite_run]
  cases read with
  | arrowFunction starts inner =>
    rw [if_pos starts]
    exact arrow_complete hr fits inner
  | unassigned starts inner stop =>
    rw [if_neg (by simp [starts]), here_bind, bind_run (conditional_complete hr fits inner),
      get_bind, ite_run, if_neg (by simp [stop])]
    rfl
  | assigned starts inner operator target value =>
    have later := (fits.beyond inner rfl).next
    rw [if_neg (by simp [starts]), here_bind, bind_run (conditional_complete hr fits inner),
      get_bind, ite_run, if_pos operator]
    simp only [target, Bool.not_true, Bool.false_eq_true, if_false, advance_bind]
    rw [bind_run (hr.assignment later value)]
    rfl

theorem expression_complete (hr : r.Complete depth) (fits : f.Fits (depth + 1))
    (read : Reads .sequence f v g) : expression r f = .ok (v, g) :=
  sequence_complete (assignment_complete hr) fits read

theorem declarator_complete (hr : r.Complete depth) (fits : f.Fits (depth + 1))
    (read : Reads .declarator f v g) : declarator r f = .ok (v, g) := by
  simp only [declarator, here_bind]
  cases read with
  | declaratorBare name stop =>
    rw [bind_run (bindingIdentifier_complete name)]
    simp only [accept_ite, if_neg stop, pure_bind]
    rfl
  | declaratorInit name assign init =>
    rw [bind_run (bindingIdentifier_complete name)]
    simp only [accept_ite, if_pos assign]
    rw [bind_run (assignment_complete hr (fits.after name).next init)]
    rfl

theorem declaration_complete (hr : r.Complete depth) (fits : f.Fits (depth + 1))
    (read : Reads .declaration f v g) : declaration r f = .ok (v, g) := by
  rw [declaration, advance_bind, get_bind]
  cases read with
  | declaration word items =>
    obtain ⟨vs, rfl⟩ := items.commas_list
    rw [bind_run (commaList_complete (e := .declarator) (declarator_complete hr) fits.next
      fits.next.steps items)]
    rfl

theorem condition_complete (hr : r.Complete depth) (fits : f.Fits (depth + 1))
    (opening : f.current.kind = .leftParen) (read : Reads .sequence f.next v g)
    (close : g.current.kind = .rightParen) : condition r f = .ok (v, g.next) := by
  rw [condition, expect_bind opening, bind_run (expression_complete hr fits.next read),
    expect_bind close]
  rfl

theorem optional_complete {p : Parser Value} {q : Value → Parser Value}
    (complete : ∀ {v g}, Reads .sequence f v g → p f = .ok (v, g))
    (read : Reads (.optional k) f v g) :
    (check k >>= fun close => if close then pure .null >>= q else p >>= q) f = q v g := by
  rw [check_ite]
  cases read with
  | optionalNone close => rw [if_pos close, pure_bind]
  | optionalSome close inner => rw [if_neg close, bind_run (complete inner)]

theorem countedLoop_complete (hr : r.Complete depth) (fits : f.Fits (depth + 1))
    (read : Reads (.counted start init) f v g) : countedLoop r start init f = .ok (v, g) := by
  rw [countedLoop]
  cases read with
  | counted first condition second update close body =>
    have tested := fits.take first (by decide)
    have updated := (tested.after condition).next
    rw [expect_bind first, optional_complete (expression_complete hr tested.more) condition]
    simp only [expect_bind second]
    rw [optional_complete (expression_complete hr updated.more) update]
    simp only [expect_bind close]
    rw [bind_run (hr.statement (updated.after update).next body)]
    rfl

theorem loopInit_complete (hr : r.Complete depth) (fits : f.Fits (depth + 1))
    (read : Reads .loopInit f.bar v g) :
    withoutIn (get >>= fun f => if f.current.kind.declares then declaration r else expression r) f =
      .ok (v, g.lift) := by
  refine withoutIn_ok.mpr ⟨g, ?_, rfl⟩
  rw [get_bind, ite_run]
  cases read with
  | loopInitDeclaration word inner =>
    rw [if_pos word]
    exact declaration_complete hr fits inner
  | loopInitExpression word inner =>
    rw [if_neg (by simpa using word)]
    exact expression_complete hr fits inner

/-- A choice up to the end of its first branch. -/
theorem ifRule_head (hr : r.Complete depth) (fits : f.Fits (depth + 1)) {test : Value}
    {h i : Feed} (word : f.current.kind = .kwIf) (opening : f.next.current.kind = .leftParen)
    (condition : Reads .sequence f.next.next test h) (close : h.current.kind = .rightParen)
    (consequent : Reads .statement h.next left i) :
    ifRule r f = (accept .kwElse >>= fun els => if els then
        r.statement >>= fun right => build .ifStatement [test, left, right] f.current.start
      else build .ifStatement [test, left, .null] f.current.start) i := by
  have inner := (fits.take word (by decide)).next.after condition
  simp only [ifRule, expect_bind word]
  rw [bind_run (condition_complete hr fits.next opening condition close),
    bind_run (hr.statement inner.next consequent)]
  rfl

/-- A loop up to the end of what it does first. -/
theorem forRule_head (hr : r.Complete depth) (fits : f.Fits (depth + 1))
    (word : f.current.kind = .kwFor) (opening : f.next.current.kind = .leftParen)
    (semicolon : f.next.next.current.kind ≠ .semicolon) {h : Feed}
    (init : Reads .loopInit f.next.next.bar left h) :
    forRule r f = (if h.lift.atLoopWord then loopOver r f.current.start left
      else countedLoop r f.current.start left) h.lift := by
  simp only [forRule, expect_bind word, expect_bind opening, check_ite, if_neg semicolon]
  rw [bind_run (loopInit_complete hr fits.next.next init), get_bind]

theorem jumpRule_complete {kind : Kind} {h : Feed} (label : Reads .label f.next v g)
    (stop : g.Ends h) : jumpRule kind f = .ok (h.node kind [v] f.current.start, h) := by
  simp only [jumpRule, advance_bind, get_bind, ite_run]
  cases label with
  | labelNone bare =>
    rw [if_neg (by simpa using bare), pure_bind]
    exact endStatement_bind_ok.mpr ⟨h, stop, rfl⟩
  | labelSome line name =>
    have ident : f.next.current.kind = .ident := by cases name; assumption
    rw [if_pos (by simp [Feed.sees, ident, line]), bind_run (bindingIdentifier_complete name)]
    exact endStatement_bind_ok.mpr ⟨h, stop, rfl⟩

theorem handler_complete (hr : r.Complete depth) (fits : f.Fits (depth + 1))
    (word : f.current.kind = .kwCatch) (read : Reads .handler f v g) :
    handler r f = .ok (v, g) := by
  simp only [handler, expect_bind word, accept_ite]
  cases read with
  | handlerNone stop => exact absurd word stop
  | handlerBare _ paren body =>
    rw [if_neg paren, pure_bind, bind_run (block_complete hr fits.next body)]
    rfl
  | handlerNamed _ opening name close body =>
    have later := fits.next.next.after name
    simp only [if_pos opening]
    rw [bind_run (bindingIdentifier_complete name), expect_bind close, pure_bind,
      bind_run (block_complete hr later.next body)]
    rfl

theorem tryRule_complete (hr : r.Complete depth) (fits : f.Fits (depth + 1)) {h i : Feed}
    {guarded handled last : Value} (word : f.current.kind = .kwTry)
    (inner : Reads .block f.next guarded h) (caught : Reads .handler h handled i)
    (finalizer : Reads .finalizer i last g) (both : (handled.isNull && last.isNull) = false) :
    tryRule r f = .ok (g.node .tryStatement [guarded, handled, last] f.current.start, g) := by
  have later := fits.next.after inner
  -- the last block; what follows it is the same with and without one
  have closing : ∀ {q : Value → Parser Value},
      (accept .kwFinally >>= fun some => if some then block r >>= q else pure .null >>= q) i =
        q last g := by
    intro q
    rw [accept_ite]
    cases finalizer with
    | finalizerNone stop => rw [if_neg stop, pure_bind]
    | finalizerSome seen body =>
      rw [if_pos seen, bind_run (block_complete hr (later.after caught).next body)]
  simp only [tryRule, expect_bind word]
  rw [bind_run (block_complete hr fits.next inner), check_ite]
  have tail : ∀ made : Parser Value, (if (handled.isNull && last.isNull) = true then
      refuse .bareTry >>= fun _ : PUnit => made else made) = made := by
    intro made
    rw [both]
    rfl
  by_cases seen : h.current.kind = .kwCatch
  · rw [if_pos seen, bind_run (handler_complete hr later seen caught), closing, tail]
    rfl
  · have none : handled = .null ∧ i = h := by
      cases caught with
      | handlerNone => exact ⟨rfl, rfl⟩
      | handlerBare word => exact absurd word seen
      | handlerNamed word => exact absurd word seen
    obtain ⟨rfl, rfl⟩ := none
    rw [if_neg seen, pure_bind, closing, tail]
    rfl

theorem expressionRule_complete (hr : r.Complete depth) (fits : f.Fits (depth + 1)) {h : Feed}
    (inner : Reads .sequence f v g) (stop : g.Ends h) :
    expressionRule r f = .ok (h.node .expressionStatement [v] f.current.start, h) := by
  rw [expressionRule, here_bind, bind_run (expression_complete hr fits inner)]
  exact endStatement_bind_ok.mpr ⟨h, stop, rfl⟩

/-- Tokens that begin no other statement begin an expression. -/
theorem statement_expression (word : opensStatement f.current.kind = false) :
    statement r f = expressionRule r f := by
  rw [statement, get_bind]
  cases kind : f.current.kind <;> first | rfl | (rw [kind] at word; cases word)

theorem statement_complete (hr : r.Complete depth) (fits : f.Fits (depth + 1))
    (read : Reads .statement f v g) : statement r f = .ok (v, g) := by
  cases read with
  | expressionStatement word inner stop =>
    rw [statement_expression word]
    exact expressionRule_complete hr fits inner stop
  | blockStatement inner =>
    have word : f.current.kind = .leftBrace := by cases inner <;> assumption
    simp only [statement, get_bind, word]
    exact block_complete hr fits inner
  | emptyStatement word =>
    simp only [statement, get_bind, word]
    rfl
  | variableDeclaration inner stop =>
    have word : f.current.kind.declares := by cases inner; assumption
    have declared : statement r f =
        (declaration r >>= fun made => endStatement >>= fun _ => pure made) f := by
      simp only [TokenKind.declares, Bool.or_eq_true, beq_iff_eq] at word
      rcases word with (word | word) | word <;> simp only [statement, get_bind, word]
    rw [declared, bind_run (declaration_complete hr fits inner)]
    exact endStatement_bind_ok.mpr ⟨g, stop, rfl⟩
  | functionDeclaration inner =>
    have word : f.current.kind = .kwFunction := by cases inner; assumption
    simp only [statement, get_bind, word]
    exact functionRule_complete hr fits inner
  | ifShort word opening condition close consequent stop =>
    simp only [statement, get_bind, word]
    rw [ifRule_head hr fits word opening condition close consequent, accept_ite, if_neg stop]
    rfl
  | ifElse word opening condition close consequent els alternate =>
    have later := ((fits.take word (by decide)).next.after condition).next.after consequent
    simp only [statement, get_bind, word]
    rw [ifRule_head hr fits word opening condition close consequent, accept_ite, if_pos els,
      bind_run (hr.statement later.next alternate)]
    rfl
  | forBare word opening semicolon rest =>
    simp only [statement, get_bind, word]
    simp only [forRule, expect_bind word, expect_bind opening, check_ite, if_pos semicolon]
    exact countedLoop_complete hr fits.next.next rest
  | forCounted word opening semicolon init loop rest =>
    simp only [statement, get_bind, word]
    rw [forRule_head hr fits word opening semicolon init, if_neg (by simp [loop])]
    have head := (fits.next.next.after (f := f.next.next.bar) init).lift
    exact countedLoop_complete hr head rest
  | forIn word opening semicolon init loop target collection close body =>
    have head := ((fits.take word (by decide)).next.after (f := f.next.next.bar) init).lift
    have within := head.next.after collection
    simp only [statement, get_bind, word]
    rw [forRule_head hr fits word opening semicolon init,
      if_pos (atLoopWord_iff (f := Feed.lift _) |>.mpr (.inl loop))]
    simp only [loopOver, check_bind, Feed.sees, Feed.lift_current, loop, target, advance_bind,
      Bool.not_true, Bool.false_eq_true, if_false, beq_self_eq_true, if_true]
    rw [bind_run (expression_complete hr head.next.more collection), expect_bind close,
      bind_run (hr.statement within.next body)]
    rfl
  | forOf word opening semicolon init loop of target collection close body =>
    have head := ((fits.take word (by decide)).next.after (f := f.next.next.bar) init).lift
    have within := head.next.after collection
    simp only [statement, get_bind, word]
    rw [forRule_head hr fits word opening semicolon init,
      if_pos (atLoopWord_iff (f := Feed.lift _) |>.mpr (.inr ⟨loop, of⟩))]
    simp only [loopOver, check_bind, Feed.sees, Feed.lift_current, loop, target, advance_bind,
      Bool.not_true, Bool.false_eq_true, if_false]
    rw [if_neg (by decide), bind_run (assignment_complete hr head.next.more collection),
      expect_bind close, bind_run (hr.statement within.next body)]
    rfl
  | whileStatement word opening condition close body =>
    have later := (fits.take word (by decide)).next.after condition
    simp only [statement, get_bind, word]
    rw [whileRule, expect_bind word,
      bind_run (condition_complete hr fits.next opening condition close),
      bind_run (hr.statement later.next body)]
    rfl
  | doWhile word body tail opening condition close stop =>
    have first := fits.take word (by decide)
    have later := first.after body
    simp only [statement, get_bind, word]
    rw [doRule, expect_bind word, bind_run (hr.statement first body), expect_bind tail,
      bind_run (condition_complete hr later.next.more opening condition close), accept_bind]
    simp only [Feed.sees, beq_iff_eq]
    subst stop
    split <;> rfl
  | tryStatement word inner caught finalizer both =>
    simp only [statement, get_bind, word]
    exact tryRule_complete hr fits word inner caught finalizer both
  | returnBare word bare stop =>
    simp only [statement, get_bind, word]
    simp only [returnRule, expect_bind word, get_bind, ite_run]
    rw [if_pos bare, pure_bind]
    exact endStatement_bind_ok.mpr ⟨g, stop, rfl⟩
  | returnValue word bare value stop =>
    simp only [statement, get_bind, word]
    simp only [returnRule, expect_bind word, get_bind, ite_run]
    rw [if_neg (by simpa using bare), bind_run (expression_complete hr fits.next value)]
    exact endStatement_bind_ok.mpr ⟨g, stop, rfl⟩
  | breakStatement word label stop =>
    simp only [statement, get_bind, word]
    exact jumpRule_complete label stop
  | continueStatement word label stop =>
    simp only [statement, get_bind, word]
    exact jumpRule_complete label stop
  | throwStatement word line value stop =>
    simp only [statement, get_bind, word]
    simp only [throwRule, expect_bind word, get_bind, line, Bool.false_eq_true, if_false]
    rw [bind_run (expression_complete hr fits.next value)]
    exact endStatement_bind_ok.mpr ⟨g, stop, rfl⟩

theorem rules_complete (depth : Nat) : (rules depth).Complete depth := by
  induction depth with
  | zero => constructor <;> intro _ _ _ <;> intros <;> rename_i fits _ <;>
      exact absurd fits.2 (Nat.not_lt_zero _)
  | succ depth ih =>
    exact ⟨statement_complete ih, assignment_complete ih, unary_complete ih, binary_complete ih,
      construction_complete ih⟩

/-- Statements up to the end of closed tokens are a program. -/
theorem program_complete {tokens : List Token} (closed : Closed tokens)
    (read : Reads (.statements .endOfInput) (Feed.ofTokens tokens) (.list vs) g) :
    run program tokens = .ok (if vs.isEmpty then
        attachTrailing g.current (.node .program [.list []]
          { span := some ⟨(Feed.ofTokens tokens).current.start, some g.current.stop⟩ })
      else .node .program [.list (mapLast (attachTrailing g.current) vs)]
        { span := some ⟨(Feed.ofTokens tokens).current.start, some g.current.stop⟩ }) := by
  have fits : (Feed.ofTokens tokens).Fits (tokens.length + 1) := by
    cases tokens with
    | nil => exact closed.elim
    | cons t rest =>
      have shorter : rest.length < (t :: rest).length + 1 := by
        rw [List.length_cons]
        omega
      exact ⟨closed, shorter⟩
  have listed := statementList_complete (rules_complete _) fits read
  rw [run, program, here_bind, bind_run listed]
  cases vs with
  | nil => rfl
  | cons w ws => cases ws <;> rfl

end ScriptTree.Grammar
