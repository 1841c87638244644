import ScriptTree.Proofs.Print.Solo

/-!
The parentheses around an expression that is a statement. The printer looks at the text that the
expression begins with, where the grammar looks at its first token.
-/
namespace ScriptTree

open Print Value

variable {f : Form} {s : Convention} {r : Role} {v : Value} {aloud : Bool} {c : Context}
  {rank least : Nat} {o : TokenKind} {l : Lexeme} {ls ms : List Lexeme} {w rest head : Text}
  {width : Int}

def Headed (ls : List Lexeme) : Prop := ∃ l rest, ls = l :: rest ∧ l.isSolid

namespace Headed

theorem cons (solid : l.isSolid) : Headed (l :: ls) := ⟨l, ls, rfl, solid⟩

theorem append (headed : Headed ls) : Headed (ls ++ ms) := by
  obtain ⟨l, rest, rfl, solid⟩ := headed
  exact ⟨l, rest ++ ms, rfl, solid⟩

end Headed

/-- Whether an expression has no comments, nor what it begins with. -/
@[simp] def Value.startsSilent : Value → Bool
  | .node .memberExpression [v, _, _] n | .node .callExpression [v, _] n
  | .node .updateExpression [_, .bool false, v] n | .node .binaryExpression [_, v, _] n
  | .node .logicalExpression [_, v, _] n | .node .assignmentExpression [_, v, _] n
  | .node .conditionalExpression [v, _, _] n | .node .sequenceExpression [.list (v :: _)] n =>
    n.comments.isEmpty && v.startsSilent
  | v => v.comments.isEmpty

/-- What is written in the form of an expression begins with a token. -/
def Form.Heads (v : Value) (ls : List Lexeme) : Form → Prop
  | bare .. | expression .. | operand .. | object _ | function _ false => v.startsSilent → Headed ls
  | commas (expression ..) => ∀ w ws, v = .list (w :: ws) → w.startsSilent → Headed ls
  | _ => True

/-- In what is read from a source, no expression has comments. -/
theorem Conforms.startsSilent (conforms : Conforms .parsed r v) (spoken : r.isSpoken) :
    v.startsSilent := by
  have empty {n : Notes} (silent : Convention.parsed.silent n) : n.comments.isEmpty :=
    List.isEmpty_iff.mpr silent
  induction conforms with
  | name inner =>
    cases inner with
    | binding _ silent => exact empty silent
  | keyWord _ ih => exact ih rfl
  | @update _ before _ _ _ _ _ silent ih =>
    cases before with
    | true => exact empty silent
    | false => simp [Value.startsSilent, empty silent, ih rfl]
  | operation _ _ _ silent ih =>
    unfold Grammar.operationKind
    split <;> simp [Value.startsSilent, empty silent, ih rfl]
  | assignment _ _ _ _ silent ih | conditional _ _ _ silent ih | call _ _ silent ih
  | memberNamed _ _ silent ih | memberIndexed _ _ silent ih =>
    simp [Value.startsSilent, empty silent, ih rfl]
  | @sequence es _ many _ silent ih =>
    match es with
    | v :: w :: vs => simp [Value.startsSilent, empty silent, ih v List.mem_cons_self rfl]
  | literal _ silent | this silent | array _ silent | object _ silent
  | functionExpression _ _ _ _ silent | arrowBlock _ _ _ silent | arrowValue _ _ silent
  | unary _ _ silent | construction _ _ silent | word _ silent | keyLiteral _ _ silent =>
    exact empty silent
  | _ => cases spoken

theorem Value.comments_of_startsSilent (silent : v.startsSilent) : v.comments = [] := by
  unfold startsSilent at silent
  split at silent
  all_goals simp only [Bool.and_eq_true, List.isEmpty_iff] at silent
  all_goals first | exact silent.1 | exact silent

/-- An expression without comments in it is written with a token first. -/
theorem Writes.headed (writes : Writes aloud f v ls) : f.Heads v ls := by
  induction writes with
  | commasNone =>
    rename_i f
    cases f <;> first | exact True.intro | exact nofun
  | commasLast _ ih =>
    rename_i f _ _ _
    cases f with
    | expression => exact fun _ _ same => by cases same; exact ih
    | _ => exact True.intro
  | commasMore _ _ ih =>
    rename_i f _ _ _ _ _ _ _ _
    cases f with
    | expression => exact fun _ _ same silent => by cases same; exact (ih silent).append
    | _ => exact True.intro
  | opened _ _ _ _ ih =>
    intro silent
    rw [comments_of_startsSilent silent, remarksBeside_nil]
    exact ih silent
  | closed =>
    intro silent
    rw [comments_of_startsSilent silent, remarksBeside_nil]
    exact .cons rfl
  | literal plain => exact fun _ => .cons (literal_plain plain).1
  | @functionNamed _ declared =>
    cases declared with
    | true => exact True.intro
    | false => exact fun _ => .cons rfl
  | functionExpression _ ih => exact ih
  | stepAfter _ _ _ ih =>
    intro silent
    rw [Value.startsSilent, Bool.and_eq_true] at silent
    exact (ih silent.2).append
  | operation _ _ _ _ left =>
    intro silent
    refine (left ?_).append
    unfold Grammar.operationKind at silent
    split at silent
    all_goals
      rw [Value.startsSilent, Bool.and_eq_true] at silent
      exact silent.2
  | assignment _ _ _ _ ih | conditional _ _ _ ih | call _ _ ih | memberNamed _ _ ih
  | memberIndexed _ _ ih =>
    intro silent
    rw [Value.startsSilent, Bool.and_eq_true] at silent
    exact (ih silent.2).append
  | sequence _ ih =>
    intro silent
    rw [Value.startsSilent, Bool.and_eq_true] at silent
    exact ih _ _ rfl silent.2
  | operandPlain _ _ ih | objectPlain _ _ ih => exact ih
  | _ => first | exact True.intro | exact fun _ => .cons rfl

theorem Solo.headed (solo : Solo aloud v ls) (silent : v.startsSilent) : Headed ls := by
  rcases solo with writes | writes
  · exact writes.headed silent
  · cases writes with
    | keyWord inner =>
      cases inner with
      | word =>
        have none : _ = [] := comments_of_startsSilent silent
        rw [Value.comments, Value.notes] at none
        rw [none, remarksBeside_nil]
        exact .cons rfl
    | keyLiteral _ plain =>
      have none : _ = [] := comments_of_startsSilent silent
      rw [Value.comments, Value.notes] at none
      rw [none, remarksBeside_nil]
      exact .cons (literal_plain plain).1

/-- A layout begins with a text of one line exactly if it does so with its indentation chosen. -/
theorem startsWith_render (width : Int) {head : Text} {l : Layout} (flat : Point.lineFeed ∉ head) :
    l.startsWith head = head.isPrefixOf (l.render width) := by
  induction head generalizing l with
  | nil => rfl
  | cons c head ih =>
    simp only [List.mem_cons, not_or] at flat
    cases l with
    | nil => rfl
    | cons g l =>
      cases g with
      | point d =>
        change (Glyph.point c == Glyph.point d && Layout.startsWith l head) =
          (c == d && head.isPrefixOf (Layout.render width l))
        rw [ih flat.2]
        by_cases same : c = d
        · rw [same, beq_self_eq_true, beq_self_eq_true]
        · rw [beq_false_of_ne same, beq_false_of_ne fun equal => same (Glyph.point.inj equal)]
      | line d =>
        have other : (c == Point.lineFeed) = false := beq_false_of_ne (Ne.symm flat.1)
        change false = (c == Point.lineFeed &&
          head.isPrefixOf (Text.spaces (width * d).toNat ++ Layout.render width l))
        rw [other, Bool.false_and]

/-- What a word begins with is known from the word, where no longer word begins with it. -/
theorem prefix_word {head : Text} (word : isWord w) (heads : head.all Scan.continuesWord)
    (stop : ∀ p ∈ rest.head?, Scan.continuesWord p = false) :
    head.isPrefixOf (w ++ rest) = head.isPrefixOf w := by
  rw [Bool.eq_iff_iff, List.isPrefixOf_iff_prefix, List.isPrefixOf_iff_prefix]
  refine ⟨fun begins => ?_, fun begins => begins.trans (List.prefix_append w rest)⟩
  obtain ⟨more, same⟩ := begins
  have taken := congrArg (List.takeWhile Scan.continuesWord) same
  rw [Scan.takeWhile_append (Scan.isWord_all word) stop,
    List.takeWhile_append_of_pos (List.all_eq_true.mp heads)] at taken
  exact ⟨_, taken⟩

/-- A word clashes with a statement exactly if it begins as the word for a function does. -/
theorem word_clashes (word : isWord w) (stop : ∀ p ∈ rest.head?, Scan.continuesWord p = false) :
    ((text "\x7b").isPrefixOf (w ++ rest) || (text "function").isPrefixOf (w ++ rest)) =
      (((TokenKind.keyword? w).getD .ident).clashes ||
        ((TokenKind.keyword? w).getD .ident == .ident && (text "function").isPrefixOf w)) := by
  have brace : (text "\x7b").isPrefixOf (w ++ rest) = false := by
    cases w with
    | nil => cases word
    | cons p w =>
      have starts := ((Bool.and_eq_true _ _).mp word).1
      have other : p ≠ 123 := by
        rintro rfl
        revert starts
        decide
      have differs : ((123 : Point) == p) = false := beq_false_of_ne (Ne.symm other)
      change ((123 : Point) == p && ([] : Text).isPrefixOf (w ++ rest)) = false
      rw [differs, Bool.false_and]
  rw [brace, Bool.false_or, prefix_word word (by decide) stop]
  cases found : TokenKind.keyword? w with
  | none => rfl
  | some k =>
    obtain ⟨keyword, rfl⟩ := Scan.keyword?_some found
    have known : ∀ k ∈ TokenKind.keywords, (text "function").isPrefixOf (text k.spelling) =
        (k.clashes || (k == .ident && (text "function").isPrefixOf (text k.spelling))) := by decide
    exact known k (List.contains_iff_mem.mp keyword)

/-- Whether a token at the start of an expression makes the printer put parentheses around it. -/
def Token.alarms (t : Token) : Bool :=
  t.kind.clashes || (t.kind == .ident && (text "function").isPrefixOf t.raw)

theorem operator_clashes {k : TokenKind} (operator : k ∈ TokenKind.operators) (rest : Text) :
    ((text "\x7b").isPrefixOf (text k.spelling ++ rest) ||
      (text "function").isPrefixOf (text k.spelling ++ rest)) =
      (k.clashes || (k == .ident && (text "function").isPrefixOf (text k.spelling))) := by
  cases k <;> first | rfl | exact absurd operator (by decide)

/-- Text that begins with a token clashes with a statement exactly if the token says so. -/
theorem text_clashes {σ : Stage} (solid : l.isSolid) (valid : l.valid)
    (ends : ∀ p ∈ rest.head?, l.Ends p) :
    ((text "\x7b").isPrefixOf (l.text width ++ rest) ||
      (text "function").isPrefixOf (l.text width ++ rest)) = (σ.token width l).alarms := by
  have apart {p : Point} (t : Text) (brace : p ≠ 123) (letter : p ≠ 102) :
      ((text "\x7b").isPrefixOf (p :: t ++ rest) ||
        (text "function").isPrefixOf (p :: t ++ rest)) = false := by
    have first : ((123 : Point) == p) = false := beq_false_of_ne brace.symm
    have second : ((102 : Point) == p) = false := beq_false_of_ne letter.symm
    change (((123 : Point) == p && ([] : Text).isPrefixOf (t ++ rest)) ||
      ((102 : Point) == p && (text "unction").isPrefixOf (t ++ rest))) = false
    rw [first, second]
    rfl
  rw [Token.alarms, Stage.token]
  cases l with
  | blank | line | remark => cases solid
  | word w =>
    rw [Lexeme.text_word]
    exact word_clashes valid ends
  | mark k =>
    rw [Lexeme.text_mark]
    cases keyword : k.isKeyword with
    | true =>
      simp only [Lexeme.Ends, keyword, if_true] at ends
      have clashes := word_clashes (Grammar.keyword_isWord keyword) ends
      rwa [keyword?_spelling keyword] at clashes
    | false =>
      simp only [Lexeme.valid, keyword, Bool.false_or, List.contains_iff_mem] at valid
      exact operator_clashes valid rest
  | number n =>
    obtain ⟨p, t, spelled, _, low⟩ := Lexeme.first width valid
    rw [spelled]
    have other (q : Nat) (high : 57 < q) : p ≠ q := Nat.ne_of_lt (Nat.lt_of_le_of_lt low high)
    exact apart t (other 123 (by decide)) (other 102 (by decide))
  | quoted t =>
    obtain ⟨p, t, spelled, rfl⟩ := Lexeme.first width valid
    rw [spelled]
    exact apart t (by decide) (by decide)

theorem render_append {l m : Layout} :
    Layout.render width (l ++ m) = Layout.render width l ++ Layout.render width m :=
  List.flatMap_append

/-- An expression that is a statement prints in parentheses exactly if its layout clashes. -/
theorem Solo.statement (solo : Solo aloud v ls) :
    (Value.node .expressionStatement [v] {}).print { tabWidth := width, comments := aloud } =
      .ok (if clashes (layout ls) then text "(" ++ textOf width ls ++ text ");"
        else textOf width ls ++ text ";") := by
  have deep : v.depth ≤ depthOfList [v] + 1 := by
    rw [depthOfList]
    omega
  have rule : (rules (depthOfList [v] + 1)).expression { comments := aloud } sequenceRank v =
      .ok (.source (layout ls)) := solo.expression deep
  have none leading : commentLines { comments := aloud }
      (.node .expressionStatement [v] {}) leading = [] := by
    cases aloud <;> rfl
  have keeps : keepsTrailing (.node .expressionStatement [v] {}) = .ok true := rfl
  have isStatement : (Value.node .expressionStatement [v] {}).isKind .statement = true := rfl
  have noProgram : (Value.node .expressionStatement [v] {}).isKind .program = false := rfl
  have own : bareStatement (rules (depthOfList [v] + 1)) { comments := aloud }
      (.node .expressionStatement [v] {}) = .ok ((if clashes (layout ls) then
        Layout.parens (layout ls) else layout ls) ++ Layout.lay ";") := by
    simp only [bareStatement, Value.kind?, expressionStatement, fields_of .expressionStatement,
      ok_bind, rule, Phrase.begun, pure_ok]
    rfl
  simp only [Value.print, Value.layout, Value.phrase, Print.node, Value.isNode, Bool.not_true,
    Bool.false_eq_true, if_false, noProgram, isStatement, if_true, Value.depth, Print.statement,
    own, keeps, none, ok_bind, List.nil_append, List.append_nil, join_single, pure_ok, map_ok,
    Phrase.strict, render_append]
  split
  · simp only [Layout.parens, Layout.lay, render_append, render_ofText, List.append_assoc]
    rfl
  · simp only [Layout.lay, render_ofText]
    rfl

/-- An expression of a source that is made a statement prints in parentheses exactly if its first
token is a brace, the word for a function, or a name that begins with that word. -/
theorem statement_parens_iff {source : Text} {tree : Value} {p : Path}
    (parsed : parse source = .ok tree) (mem : p ∈ (Path.root 0 tree).descendants.paths)
    (kind : p.value.isKind .expression) (floatless : p.value.all isFloatless)
    (options : PrintOptions) :
    Answers p.value.isShort (fun printed => ∃ t ts, tokenize printed = .ok (t :: ts) ∧
      (Value.node .expressionStatement [p.value] {}).print options = .ok
        (if t.alarms then text "(" ++ printed ++ text ");" else printed ++ text ";"))
      (p.value.print options) := by
  obtain ⟨role, conforms, _⟩ := parse_sits parsed mem
  obtain ⟨role, spoken, conforms⟩ := conforms.spoken_of_kind kind
  refine (conforms.print_spoken spoken options).sharpen fun short => ?_
  have heard := conforms.heard_of_parsed (parse_legible_under parsed mem) floatless short
  obtain ⟨ls, solo⟩ := heard.solo spoken options.comments
  obtain ⟨l, rest, rfl, solid⟩ := solo.headed (conforms.startsSilent spoken)
  have spaced := solo.spaced
  have scanned : tokenize (textOf options.tabWidth (l :: rest)) = _ := tokenize_spaced spaced
  rw [Stage.tokens_solid solid, List.cons_append] at scanned
  refine ⟨_, solo.print conforms spoken options.tabWidth, _, _, scanned, ?_⟩
  have alarms : clashes (layout (l :: rest)) = (Stage.first.token options.tabWidth l).alarms := by
    rw [clashes, startsWith_render options.tabWidth (by decide),
      startsWith_render options.tabWidth (by decide),
      ← text_clashes solid spaced.1 spaced.ends, ← textOf_cons]
    rfl
  rw [← alarms]
  exact solo.statement

/-- A function at the bottom of a call, a member and a sum: the sum stands in parentheses. -/
theorem statement_parens_iff_sum :
    let source := text "(function () \x7b x; \x7d).a(1) + 2;"
    ∃ tree p printed t ts, parse source = .ok tree ∧
      p ∈ (Path.root 0 tree).descendants.paths ∧ p.value.isKind .binaryExpression ∧
      p.value.isKind .expression ∧ p.value.all isFloatless ∧ p.value.print {} = .ok printed ∧
      tokenize printed = .ok (t :: ts) ∧ t.kind = .kwFunction ∧
      (Value.node .expressionStatement [p.value] {}).print {} =
        .ok (text "(" ++ printed ++ text ");") := by
  intro source
  have suits : (parse source).toOption.any (fun tree =>
      (Path.root 0 tree).descendants.paths.any fun p => p.value.isKind .binaryExpression &&
        p.value.isKind .expression && p.value.all isFloatless && p.value.isShort &&
        (p.value.print {}).toOption.any fun printed => (tokenize printed).toOption.any fun ts =>
          ts.head?.any (·.kind == .kwFunction)) = true := by decide +kernel
  obtain ⟨tree, parsed, suits⟩ := ok_of_any suits
  obtain ⟨p, mem, suits⟩ := List.any_eq_true.mp suits
  simp only [Bool.and_eq_true] at suits
  obtain ⟨⟨⟨⟨sum, kind⟩, floatless⟩, short⟩, suits⟩ := suits
  obtain ⟨printed, prints, suits⟩ := ok_of_any suits
  obtain ⟨ts, scanned, suits⟩ := ok_of_any suits
  rcases statement_parens_iff parsed mem kind floatless {} with
    ⟨_, printed', prints', t, rest, scanned', stated⟩ | ⟨fails, _⟩
  · cases prints.symm.trans prints'
    cases scanned.symm.trans scanned'
    have word : t.kind = .kwFunction := by simpa using suits
    have alarms : t.alarms = true := by rw [Token.alarms, word]; rfl
    rw [if_pos alarms] at stated
    exact ⟨tree, p, printed, t, rest, parsed, mem, sum, kind, floatless, prints, scanned, word,
      stated⟩
  · exact absurd short fails

/-- A name that begins with the word for a function stands in parentheses. -/
theorem statement_parens :
    let source := text "functions;"
    ∃ tree p t ts, parse source = .ok tree ∧ p ∈ (Path.root 0 tree).descendants.paths ∧
      p.value.isKind .expression ∧ tree.all isFloatless ∧
      p.value.print {} = .ok (text "functions") ∧
      tokenize (text "functions") = .ok (t :: ts) ∧ t.kind ≠ .leftBrace ∧ t.kind ≠ .kwFunction ∧
      (Value.node .expressionStatement [p.value] {}).print {} = .ok (text "(functions);") := by
  intro source
  have differs : (parse source).toOption.any (fun tree => tree.all isFloatless &&
      (Path.root 0 tree).descendants.paths.any fun p => p.value.isKind .expression &&
        ((p.value.print {}).toOption.any (· == text "functions")) &&
        ((Value.node .expressionStatement [p.value] {}).print {}).toOption.any
          (· == text "(functions);")) = true := by decide +kernel
  have named : (tokenize (text "functions")).toOption.any (fun ts =>
      ts.head?.any (·.kind == .ident)) = true := by decide +kernel
  obtain ⟨tree, parsed, differs⟩ := ok_of_any differs
  obtain ⟨floatless, differs⟩ := Bool.and_eq_true_iff.mp differs
  obtain ⟨p, mem, differs⟩ := List.any_eq_true.mp differs
  simp only [Bool.and_eq_true] at differs
  obtain ⟨⟨kind, alone⟩, stated⟩ := differs
  obtain ⟨printed, prints, same⟩ := ok_of_any alone
  cases eq_of_beq same
  obtain ⟨statement, states, same⟩ := ok_of_any stated
  cases eq_of_beq same
  obtain ⟨ts, scanned, named⟩ := ok_of_any named
  cases ts with
  | nil => cases named
  | cons t ts =>
    have name : t.kind = .ident := by simpa using named
    exact ⟨tree, p, t, ts, parsed, mem, kind, floatless, prints, scanned, by simp [name],
      by simp [name], states⟩

end ScriptTree
