import ScriptTree.Callee
import ScriptTree.Proofs.Print.Solo

/-!
The text of what is called. It stays on one line unless a function with statements is part of it.
-/
namespace ScriptTree

open Print Value

def Value.isFlat : Value → Bool
  | .node .blockStatement [.list (_ :: _)] _ => false
  | _ => true

def Form.isInline : Form → Bool
  | bare .. | expression .. | operand .. | object _ | callee _ | arguments _ | elements _
  | property _ | key _ | word _ | binding _ | function .. | block _ => true
  | commas item => item.isInline
  | _ => false

def Lexeme.turns : Lexeme → Bool
  | line _ | remark _ => true
  | _ => false

variable {f : Form} {v : Value} {ls ms : List Lexeme} {width : Int}

@[simp] theorem any_enclosed {p : Lexeme → Bool} : (enclosed ls).any p =
    (p (.mark .leftParen) || (ls.any p || p (.mark .rightParen))) := by
  simp [enclosed]

theorem mem_textOf {c : Point} : c ∈ textOf width ls ↔ ∃ l ∈ ls, c ∈ l.text width := by
  induction ls with
  | nil => simp
  | cons l ls ih => simp [ih]

theorem plain_flat {n : Notes} (plain : v.isPlain) :
    (Value.node .literal [v] n).all isFlat = true := by
  cases v with
  | list | node => cases plain
  | _ => rfl

/-- Without comments, an expression is written on one line unless a block in it has statements. -/
theorem Writes.flat {p : Lexeme → Bool} (line : ∀ d, p (.line d) = true) (blank : p .blank = false)
    (solid : ∀ l : Lexeme, l.isSolid → p l = false) (writes : Writes false f v ls)
    (isInline : f.isInline) (quiet : f.context.comments = false) :
    ls.any p = !v.all isFlat := by
  have mark (k : TokenKind) : p (.mark k) = false := solid _ rfl
  have word (w : Text) : p (.word w) = false := solid _ rfl
  induction writes with
  | block => simp [line, Value.all, isFlat]
  | blockRemarks some =>
    have kept : _ = false := quiet
    simp only [Form.context] at kept
    simp [trailingComments, Context.aloud, kept] at some
  | commasNone | elementsNone => rfl
  | elementsHole | objectNone | blockNone => simp [Value.all, Value.allOf, isFlat, mark]
  | binding | word | name | shorthand | this =>
    simp [Value.all, Value.allOf, isFlat, remarksBeside, word, mark]
  | keyLiteral _ plain | literal plain =>
    rw [plain_flat plain]
    simp [solid _ (literal_plain plain).1, remarksBeside]
  | keyWord _ ih | functionExpression _ ih | operandPlain _ _ ih | calleePlain _ _ ih
  | objectPlain _ _ ih => exact ih rfl quiet
  | commasLast _ ih => simpa [Value.all, Value.allOf, isFlat] using ih isInline quiet
  | commasMore _ _ item more =>
    simp [Value.all, Value.allOf, mark, blank, item isInline quiet, more isInline quiet]
  | opened _ _ _ _ ih | closed _ _ _ _ ih | array _ ih | elementsLast _ ih | elementsSkip _ ih
  | objectSome _ ih | stepBefore _ _ _ ih | stepAfter _ _ _ ih | operandMixed _ _ ih
  | sequence _ ih | arguments _ ih | calleeCall _ _ ih | objectNumber _ _ ih =>
    simp [Value.all, Value.allOf, isFlat, remarksBeside, mark, blank, ih rfl quiet]
  | elementsMore _ _ first second | computed _ _ _ first second | keyed _ _ _ first second
  | functionUnnamed _ _ _ first second | arrowBlock _ _ _ first second
  | arrowValue _ _ _ first second | arrowObject _ _ _ first second
  | assignment _ _ _ _ first second | call _ _ first second | construction _ _ first second
  | memberNamed _ _ first second | memberIndexed _ _ first second =>
    simp [Value.all, Value.allOf, isFlat, mark, blank, first rfl quiet, second rfl quiet]
  | conditional _ _ _ test left right =>
    simp [Value.all, Value.allOf, isFlat, mark, blank, test rfl quiet, left rfl quiet,
      right rfl quiet]
  | @functionNamed _ declared _ _ _ _ _ _ _ _ _ _ _ name params body =>
    cases declared <;>
      simp [Value.all, Value.allOf, isFlat, mark, blank, name rfl quiet, params rfl quiet,
        body rfl quiet]
  | @unary _ o _ _ ls _ _ ih =>
    have gap : (unaryGap o (layout ls)).any p = false := by
      rcases unaryGap_cases o (layout ls) with none | one
      · simp [none]
      · simp [one, blank]
    rw [List.any_cons, List.any_append, mark, gap, ih rfl quiet]
    simp [Value.all, Value.allOf, isFlat]
  | operation _ _ _ _ left right =>
    unfold Grammar.operationKind
    split <;>
      simp [Value.all, Value.allOf, isFlat, mark, blank, left rfl quiet, right rfl quiet]
  | _ => cases isInline

theorem Spaced.valid (spaced : Spaced ls) : ∀ l ∈ ls, l.valid := by
  induction ls with
  | nil => nofun
  | cons l ls ih => exact List.forall_mem_cons.mpr ⟨spaced.1, ih spaced.2.2⟩

/-- Without comments, the text of an expression has line ends only if a block in it has
statements. -/
theorem Writes.lineFeed_iff (writes : Writes false f v ls) (isInline : f.isInline)
    (quiet : f.context.comments = false) (spaced : Spaced ls) :
    Point.lineFeed ∈ textOf width ls ↔ v.all isFlat = false := by
  have turns : ls.any Lexeme.turns = !v.all isFlat := by
    refine writes.flat (fun _ => rfl) rfl (fun l solid => ?_) isInline quiet
    cases l <;> first | rfl | cases solid
  have lines : ls.any Lexeme.isLine = !v.all isFlat := by
    refine writes.flat (fun _ => rfl) rfl (fun l solid => ?_) isInline quiet
    cases l <;> first | rfl | cases solid
  rw [mem_textOf]
  constructor
  · rintro ⟨l, mem, inside⟩
    rw [← Bool.not_eq_true', ← turns, List.any_eq_true]
    refine ⟨l, mem, ?_⟩
    cases solid : l.isSolid with
    | true => exact absurd rfl (Lexeme.flat solid (spaced.valid l mem) _ inside)
    | false =>
      cases l with
      | blank => simp [Point.lineFeed] at inside
      | line | remark => rfl
      | _ => cases solid
  · intro broken
    rw [← Bool.not_eq_true', ← lines, List.any_eq_true] at broken
    obtain ⟨l, mem, line⟩ := broken
    refine ⟨l, mem, ?_⟩
    cases l with
    | line => simp [Point.lineFeed]
    | _ => cases line

theorem Conforms.called {s : Convention} {r : Role} {k : Kind} {vs : List Value} {n : Notes}
    (conforms : Conforms s r v) (spoken : r.isSpoken) (same : v = .node k vs n)
    (calls : k = .callExpression ∨ k = .newExpression) :
    ∃ c es, vs = [c, .list es] ∧ Conforms s .expression c := by
  cases conforms with
  | call callee | construction callee =>
    cases same
    exact ⟨_, _, rfl, callee⟩
  | name inner | keyWord inner =>
    cases inner
    rcases calls with rfl | rfl <;> cases same
  | operation =>
    unfold Grammar.operationKind at same
    split at same <;> rcases calls with rfl | rfl <;> cases same
  | _ => first | (cases spoken; done) | (rcases calls with rfl | rfl <;> cases same)

/-- The text of what is called or constructed has a line end exactly if a block in it has
statements, unless an integer in it is too long. -/
theorem callee_breaks_iff {source : Text} {tree : Value} {p : Path}
    (parsed : parse source = .ok tree) (mem : p ∈ (Path.root 0 tree).descendants.paths)
    (calls : p.value.isKind .callExpression || p.value.isKind .newExpression)
    (floatless : p.value.all isFloatless) :
    ∃ callee, p.value.callee = .ok callee ∧ Answers callee.isShort
      (fun t => Point.lineFeed ∈ t ↔ callee.all isFlat = false) p.value.calleeText := by
  have legible := parse_legible_under parsed mem
  obtain ⟨role, conforms, _⟩ := parse_sits parsed mem
  cases value : p.value with
  | node k vs n =>
    rw [value] at calls floatless legible conforms
    have calling : Value.callee (.node k vs n) = (Value.node k vs n).field "callee" := if_pos calls
    rw [isKind_leaf (by decide), isKind_leaf (by decide), Bool.or_eq_true, beq_iff_eq,
      beq_iff_eq] at calls
    have kind : (Value.node k vs n).isKind .expression := by rcases calls with rfl | rfl <;> rfl
    obtain ⟨role, spoken, conforms⟩ := conforms.spoken_of_kind kind
    obtain ⟨callee, es, rfl, inner⟩ := conforms.called spoken rfl calls
    have found : Value.callee (.node k [callee, .list es] n) = .ok callee := by
      rw [calling]
      rcases calls with rfl | rfl <;> rfl
    simp only [Value.all, Value.allOf, Bool.and_eq_true] at floatless legible
    refine ⟨callee, found, ?_⟩
    rw [calleeText, found, ok_bind]
    refine (inner.print_spoken rfl _).sharpen fun short => ?_
    have heard := inner.heard_of_parsed legible.2.1 floatless.2.1 short
    obtain ⟨ls, solo⟩ := heard.solo rfl false
    refine ⟨textOf 4 ls, solo.print inner rfl 4, ?_⟩
    rcases solo with writes | writes
    · exact writes.lineFeed_iff rfl rfl (Solo.spaced (.inl writes))
    · exact writes.lineFeed_iff rfl rfl (Solo.spaced (.inr writes))
  | _ => rw [value] at calls; cases calls

/-- What is called is a member that takes a string, and its text is one line. -/
theorem callee_breaks_iff_member :
    let source := text "new a['\\n'](0x1F);"
    ∃ tree p callee t, parse source = .ok tree ∧ p ∈ (Path.root 0 tree).descendants.paths ∧
      p.value.isKind .newExpression ∧ p.value.all isFloatless ∧ p.value.callee = .ok callee ∧
      callee.isShort ∧ callee.all isFlat ∧ p.value.calleeText = .ok t ∧
      Point.lineFeed ∉ t := by
  intro source
  have suits : (parse source).toOption.any (fun tree =>
      (Path.root 0 tree).descendants.paths.any fun p => p.value.isKind .newExpression &&
        p.value.all isFloatless && p.value.callee.toOption.any fun callee =>
          callee.isShort && callee.all isFlat) = true := by decide +kernel
  obtain ⟨tree, parsed, suits⟩ := ok_of_any suits
  obtain ⟨p, mem, suits⟩ := List.any_eq_true.mp suits
  simp only [Bool.and_eq_true] at suits
  obtain ⟨⟨construction, floatless⟩, suits⟩ := suits
  obtain ⟨callee, found, suits⟩ := ok_of_any suits
  obtain ⟨short, flat⟩ := Bool.and_eq_true_iff.mp suits
  have calls : p.value.isKind .callExpression || p.value.isKind .newExpression := by
    rw [construction, Bool.or_true]
  obtain ⟨same, found', answers⟩ := callee_breaks_iff parsed mem calls floatless
  cases found.symm.trans found'
  rcases answers with ⟨_, t, done, breaks⟩ | ⟨fails, _⟩
  · refine ⟨tree, p, callee, t, parsed, mem, construction, floatless, found, short, flat, done, ?_⟩
    rw [breaks, flat]
    decide
  · exact absurd short fails

/-- A function that is called where it stands: its text takes three lines. -/
theorem callee_breaks :
    let source := text "(function () \x7b x; \x7d)();"
    ∃ tree p t, parse source = .ok tree ∧ p ∈ (Path.root 0 tree).descendants.paths ∧
      p.value.isKind .callExpression ∧ tree.all isFloatless ∧ p.value.calleeText = .ok t ∧
      Point.lineFeed ∈ t := by
  intro source
  have breaks : (parse source).toOption.any (fun tree => tree.all isFloatless &&
      (Path.root 0 tree).descendants.paths.any fun p => p.value.isKind .callExpression &&
        p.value.calleeText.toOption.any (·.contains Point.lineFeed)) = true := by decide +kernel
  obtain ⟨tree, parsed, breaks⟩ := ok_of_any breaks
  obtain ⟨floatless, breaks⟩ := Bool.and_eq_true_iff.mp breaks
  obtain ⟨p, mem, breaks⟩ := List.any_eq_true.mp breaks
  obtain ⟨call, breaks⟩ := Bool.and_eq_true_iff.mp breaks
  obtain ⟨t, printed, breaks⟩ := ok_of_any breaks
  exact ⟨tree, p, t, parsed, mem, call, floatless, printed, List.contains_iff_mem.mp breaks⟩

end ScriptTree
