import ScriptTree.Proofs.Print.Rereading.Basic
import ScriptTree.Proofs.Print.Veiled

/-!
Expressions are read again from what is written for them: one lemma for each way of writing an
expression, which takes what holds of its parts.
-/
namespace ScriptTree.Rereading

open Grammar Print Value

variable {width : Int} {c : Context} {k o : TokenKind} {rank least : Nat} {n : Notes}
  {u v w x : Value} {us vs : List Value} {ls ms ns : List Lexeme} {σ : Stage} {f : Feed} {b : Bool}
  {t : Token} {ts rest : List Token} {name : Text} {aloud : Bool}

theorem keyword?_isKeyword (found : TokenKind.keyword? name = some k) : k.isKeyword :=
  List.contains_iff_mem.mpr (List.mem_of_find?_eq_some found)

theorem word_kind :
    (Lexeme.word name).kind = .ident ∨ (Lexeme.word name).kind.isKeyword := by
  rw [Lexeme.kind]
  cases found : TokenKind.keyword? name with
  | none => exact .inl rfl
  | some k => exact .inr (keyword?_isKeyword found)

theorem binding (isName : isName name) (silent : c.comments → n.comments = []) :
    (Form.binding c).Rereads width (.node .identifier [.text name] n) [.word name] := by
  intro σ f b rest stands
  have kind : f.current.kind = .ident := (Feed.At.kind stands).trans (name_kind isName)
  have value : f.current.value = .text name := Feed.At.value stands
  have after : f.next.At b rest := by
    refine Feed.At.next stands ?_
    rw [← Feed.At.kind stands, kind]
    decide
  exact ⟨_, _, .binding kind, like_built (.cons (like_text.mpr value) .nil) silent, after⟩

theorem word (isWord : isWord name) (silent : c.comments → n.comments = []) :
    (Form.word c).Rereads width (.node .identifier [.text name] n) [.word name] := by
  intro σ f b rest stands
  have kind : f.current.kind = .ident ∨ f.current.kind.isKeyword := by
    rw [Feed.At.kind stands]
    exact word_kind
  have spelled : f.spelled = .text name := by
    have raw : f.current.raw = name := by
      rw [Feed.At.current stands]
      exact Lexeme.text_word
    rw [Feed.spelled, Token.word, raw]
    cases name with
    | nil => cases isWord
    | cons => rfl
  have after : f.next.At b rest := by
    refine Feed.At.next stands ?_
    rw [← Feed.At.kind stands]
    exact word_within kind
  exact ⟨_, _, .propertyName kind, like_built (.cons (like_text.mpr spelled) .nil) silent, after⟩

theorem head_of_primary (read : Rereads c.comments .primary f b v rest)
    (plain : f.current.kind ≠ .kwNew) : Rereads c.comments .head f b v rest := by
  obtain ⟨w, g, inner, like, after⟩ := read
  exact ⟨w, g, .headPrimary plain inner, like, after⟩

/-- What is read at once is an expression of any rank. -/
theorem ranked_of_head (tight : callRank ≤ rank) (read : Taken width c.comments .head v ls) :
    Ranked width c v ls rank :=
  .ofAccess tight fun stands => .of_head (read stands)

theorem enclosed_head (ranked : Ranked width c v ls rank) :
    Taken width c.comments .head v (enclosed ls) := by
  intro σ f b rest stands
  obtain ⟨opening, τ, υ, stands⟩ := stands.parens
  obtain ⟨w, g, inner, like, after⟩ := ranked.group stands (.of_inert rfl)
  obtain ⟨closing, after⟩ := after.token (by decide)
  exact head_of_primary ⟨w, _, .parenthesized opening inner closing, like, after⟩
    (by simp [opening])

theorem opened (inner : (Form.bare c rank).Rereads width v ls) (fits : least ≤ rank)
    (silent : c.comments → v.comments = []) : (Form.expression c least).Rereads width v ls :=
  ⟨rank, fits, inner silent⟩

/-- Parentheses make an expression as tight as need be. -/
theorem ranked_enclosed (least : Nat) (read : Taken width c.comments .head v (enclosed ls)) :
    ∃ rank, least ≤ rank ∧ Ranked width c v (enclosed ls) rank :=
  ⟨max least callRank, Nat.le_max_left _ _, ranked_of_head (Nat.le_max_right _ _) read⟩

theorem closed (inner : (Form.bare c.lifted rank).Rereads width v ls)
    (silent : c.comments → v.comments = []) :
    (Form.expression c least).Rereads width v (enclosed ls) :=
  ranked_enclosed least (enclosed_head (c := c.lifted) (inner silent))

theorem bare_name (inner : (Form.binding c).Rereads width v ls) :
    (Form.bare c primaryRank).Rereads width v ls := by
  intro _
  refine ranked_of_head (by decide) fun stands => ?_
  obtain ⟨w, g, read, like, after⟩ := inner stands
  cases read with
  | binding kind => exact head_of_primary ⟨_, _, .name kind, like, after⟩ (by simp [kind])

theorem literal (plain : v.isPlain) :
    (Form.bare c primaryRank).Rereads width (.node .literal [v] n) [.literal v] := by
  intro silent
  refine ranked_of_head (by decide) fun {σ f b rest} stands => ?_
  have like {w : Value} (same : Like c.comments w v) :
      Like c.comments (f.literal w) (.node .literal [v] n) :=
    .node (.cons same .nil) fun kept => (silent kept).symm
  cases v with
  | null =>
    obtain ⟨kind, after⟩ := Feed.At.mark stands (by decide)
    exact head_of_primary ⟨_, _, .wordNull kind, like .refl, after⟩ (by simp [kind])
  | bool value =>
    cases value with
    | true =>
      obtain ⟨kind, after⟩ := Feed.At.mark stands (by decide)
      exact head_of_primary ⟨_, _, .wordTrue kind, like .refl, after⟩ (by simp [kind])
    | false =>
      obtain ⟨kind, after⟩ := Feed.At.mark stands (by decide)
      exact head_of_primary ⟨_, _, .wordFalse kind, like .refl, after⟩ (by simp [kind])
  | text t =>
    have kind : f.current.kind = .string := Feed.At.kind stands
    have value : f.current.value = .text t := Feed.At.value stands
    exact head_of_primary ⟨_, _, .numberOrString (.inr kind), like (like_text.mpr value),
      Feed.At.next stands (by rintro ⟨⟩)⟩ (by simp [kind])
  | int i =>
    have kind : f.current.kind = .number := Feed.At.kind stands
    have value : f.current.value = .int i := by
      have positive : 0 ≤ i := by
        simp only [Value.isPlain, Bool.and_eq_true, decide_eq_true_eq] at plain
        exact plain.1
      rw [Feed.At.value stands]
      exact congrArg Value.int (Int.natAbs_of_nonneg positive)
    exact head_of_primary ⟨_, _, .numberOrString (.inl kind), like (like_int.mpr value),
      Feed.At.next stands (by rintro ⟨⟩)⟩ (by simp [kind])
  | float | list | node => cases plain

theorem this : (Form.bare c primaryRank).Rereads width (.node .thisExpression [] n)
    [.mark .kwThis] := by
  intro silent
  refine ranked_of_head (by decide) fun stands => ?_
  obtain ⟨kind, after⟩ := Feed.At.mark stands (by decide)
  exact head_of_primary ⟨_, _, .wordThis kind, like_built .nil silent, after⟩ (by simp [kind])

theorem array (inner : (Form.elements c.lifted).Rereads width (.list vs) ls) :
    (Form.bare c primaryRank).Rereads width (.node .arrayExpression [.list vs] n)
      (.mark .leftBracket :: (ls ++ [.mark .rightBracket])) := by
  intro silent
  refine ranked_of_head (by decide) fun stands => ?_
  obtain ⟨opening, stands⟩ := Feed.At.mark stands (by decide)
  obtain ⟨τ, υ, stands⟩ := stands.before
  obtain ⟨w, g, read, like, after⟩ := inner stands rfl
  obtain ⟨closing, after⟩ := after.token (by decide)
  exact head_of_primary ⟨_, _, .array opening read closing, like_built (.cons like .nil) silent,
    after⟩ (by simp [opening])

theorem elementsNone : (Form.elements c).Rereads width (.list []) [] :=
  fun stands close => ⟨_, _, .elementsNone (stands.kind.trans close), .refl, stands⟩

theorem elementsHole : (Form.elements c).Rereads width (.list [.null]) [.mark .comma] := by
  intro σ f b t ts stands close
  obtain ⟨comma, stands⟩ := Feed.At.mark stands (by decide)
  exact ⟨_, _, .elementsHole comma (.elementsNone (stands.kind.trans close)), .refl, stands⟩

theorem elements_start {g : Feed} (read : Reads .nested f v g) :
    f.current.kind ≠ .rightBracket ∧ f.current.kind ≠ .comma := by
  constructor
  · exact read.start_ne rfl
  · exact read.start_ne rfl

theorem elementsLast (item : (Form.expression c assignmentRank).Rereads width v ls) :
    (Form.elements c).Rereads width (.list [v]) ls := by
  intro σ f b t ts stands close
  obtain ⟨rank, tight, ranked⟩ := item
  obtain ⟨w, g, read, like, after⟩ := ranked.nested tight stands (close ▸ .of_inert rfl)
  obtain ⟨bracket, comma⟩ := elements_start read
  exact ⟨_, _, .elementsLast bracket comma read (after.kind.trans close),
    like_list.mpr ⟨_, rfl, .cons like .nil⟩, after⟩

theorem elementsSkip (more : (Form.elements c).Rereads width (.list (v :: vs)) ls) :
    (Form.elements c).Rereads width (.list (.null :: v :: vs)) (.mark .comma :: .blank :: ls) := by
  intro σ f b t ts stands close
  obtain ⟨comma, stands⟩ := Feed.At.mark stands (by decide)
  obtain ⟨w, g, read, likes, after⟩ := more stands close
  obtain ⟨ws, rfl, others⟩ := like_list.mp likes
  exact ⟨_, _, .elementsHole comma read, like_list.mpr ⟨_, rfl, .cons .refl others⟩, after⟩

theorem elementsMore (item : (Form.expression c assignmentRank).Rereads width v ls)
    (more : (Form.elements c).Rereads width (.list (w :: vs)) ms) :
    (Form.elements c).Rereads width (.list (v :: w :: vs))
      (ls ++ .mark .comma :: .blank :: ms) := by
  intro σ f b t ts stands close
  obtain ⟨rank, tight, ranked⟩ := item
  obtain ⟨τ, υ, stands⟩ := stands.before
  obtain ⟨x, g, read, like, after⟩ := ranked.nested tight stands (.of_comma (by decide))
  obtain ⟨next, after⟩ := after.token (by decide)
  obtain ⟨bracket, comma⟩ := elements_start read
  obtain ⟨y, h, others, likes, after⟩ := more after close
  obtain ⟨ws, rfl, alike⟩ := like_list.mp likes
  exact ⟨_, _, .elementsMore bracket comma read next others,
    like_list.mpr ⟨_, rfl, .cons like alike⟩, after⟩

theorem objectNone : (Form.bare c primaryRank).Rereads width (.node .objectExpression [.list []] n)
    [.mark .leftBrace, .mark .rightBrace] := by
  intro silent
  refine ranked_of_head (by decide) fun stands => ?_
  obtain ⟨opening, stands⟩ := Feed.At.mark stands (by decide)
  obtain ⟨closing, after⟩ := stands.mark (by decide)
  exact head_of_primary ⟨_, _, .object opening (.closedNone closing) closing,
    like_built (.cons .refl .nil) silent, after⟩ (by simp [opening])

theorem objectSome (inner : (Form.commas (.property c.lifted)).Rereads width (.list vs) ls) :
    (Form.bare c primaryRank).Rereads width (.node .objectExpression [.list vs] n)
      (.mark .leftBrace :: .blank :: (ls ++ [.blank, .mark .rightBrace])) := by
  intro silent
  refine ranked_of_head (by decide) fun {σ f b rest} stands => ?_
  obtain ⟨opening, stands⟩ := Feed.At.mark stands (by decide)
  rw [Stage.tokens_blank, Stage.tokens_append, List.append_assoc] at stands
  obtain ⟨vs, same, separated⟩ := inner
  cases same
  obtain ⟨w, g, read, like, after⟩ := separated.closed (k := .rightBrace) (e := .property)
    (fun item => item) (fun read => read.start_ne rfl) (by decide) stands rfl
  obtain ⟨closing, after⟩ := after.token (by decide)
  exact head_of_primary ⟨_, _, .object opening read closing, like_built (.cons like .nil) silent,
    after⟩ (by simp [opening])

/-- A value after a colon. -/
theorem property_value (value : (Form.expression c assignmentRank).Rereads width v ls)
    (stands : f.At b (σ.tokens width ls ++ t :: ts))
    (stop : t.kind = .comma ∨ t.kind = .rightBrace) :
    Rereads c.comments .nested f b v (t :: ts) := by
  obtain ⟨rank, tight, ranked⟩ := value
  refine ranked.nested tight stands ?_
  rcases stop with comma | brace
  · exact comma ▸ .of_comma (by decide)
  · exact brace ▸ .of_inert rfl

theorem computed (key : (Form.expression c assignmentRank).Rereads width v ls)
    (value : (Form.expression c assignmentRank).Rereads width w ms)
    (silent : c.comments → n.comments = []) :
    (Form.property c).Rereads width (.node .property [v, w, .bool true, .bool false] n)
      (.mark .leftBracket :: (ls ++ .mark .rightBracket :: .mark .colon :: .blank :: ms)) := by
  intro σ f b t ts stands stop
  obtain ⟨opening, stands⟩ := Feed.At.mark stands (by decide)
  obtain ⟨τ, υ, stands⟩ := stands.before
  obtain ⟨rank, tight, ranked⟩ := key
  obtain ⟨x, g, key, first, after⟩ := ranked.nested tight stands (.of_inert rfl)
  obtain ⟨closing, after⟩ := after.token (by decide)
  obtain ⟨colon, after⟩ := after.mark (by decide)
  obtain ⟨y, h, value, second, after⟩ := property_value value after stop
  exact ⟨_, _, .propertyComputed opening key closing colon value,
    like_built (.cons first (.cons second (.cons .refl (.cons .refl .nil)))) silent, after⟩

theorem keyed (key : Writes aloud (.key c) v ls)
    (value : (Form.expression c assignmentRank).Rereads width w ms)
    (silent : c.comments → n.comments = []) :
    (Form.property c).Rereads width (.node .property [v, w, .bool false, .bool false] n)
      (ls ++ .mark .colon :: .blank :: ms) := by
  intro σ f b t ts stands stop
  obtain ⟨τ, υ, stands⟩ := stands.before
  cases key with
  | keyWord inner =>
    cases inner with
    | word isWord quiet =>
      rw [Stage.tokens_beside] at stands
      obtain ⟨x, g, key, first, after⟩ := word isWord quiet stands
      cases key with
      | propertyName kind =>
        obtain ⟨colon, after⟩ := after.token (by decide)
        obtain ⟨y, h, value, second, after⟩ := property_value value after stop
        exact ⟨_, _, .propertyNamed (.propertyName kind) colon value,
          like_built (.cons first (.cons second (.cons .refl (.cons .refl .nil)))) silent, after⟩
  | @keyLiteral _ v m key plain quiet =>
    rw [Stage.tokens_beside] at stands
    have literal (kind : f.current.kind = .string ∨ f.current.kind = .number)
        (same : f.current.value = v)
        (after : f.next.At b
          (τ.token width (.mark .colon) :: (υ.tokens width (.blank :: ms) ++ t :: ts))) :
        Rereads c.comments .property f b (.node .property [.node .literal [v] m, w, .bool false,
          .bool false] n) (t :: ts) := by
      obtain ⟨colon, after⟩ := after.token (by decide)
      obtain ⟨y, h, value, second, after⟩ := property_value value after stop
      have first : Like c.comments (f.literal f.current.value) (.node .literal [v] m) :=
        .node (.cons (same ▸ .refl) .nil) fun kept => (quiet kept).symm
      exact ⟨_, _, .propertyLiteral kind colon value,
        like_built (.cons first (.cons second (.cons .refl (.cons .refl .nil)))) silent, after⟩
    cases v with
    | text t => exact literal (.inl stands.kind) stands.value (stands.next (by rintro ⟨⟩))
    | int i =>
      have positive : 0 ≤ i := by
        simp only [Value.isPlain, Bool.and_eq_true, decide_eq_true_eq] at plain
        exact plain.1
      exact literal (.inr stands.kind)
        (stands.value.trans (congrArg Value.int (Int.natAbs_of_nonneg positive)))
        (stands.next (by rintro ⟨⟩))
    | float => cases plain
    | _ => cases key

theorem shorthand {m o : Notes} (isName : isName name) (key : c.comments → m.comments = [])
    (value : c.comments → n.comments = []) (silent : c.comments → o.comments = []) :
    (Form.property c).Rereads width (.node .property [.node .identifier [.text name] m,
      .node .identifier [.text name] n, .bool false, .bool true] o) [.word name] := by
  intro σ f b t ts stands stop
  have kind : f.current.kind = .ident := (Feed.At.kind stands).trans (name_kind isName)
  obtain ⟨x, g, read, first, after⟩ := word ((Bool.and_eq_true _ _).mp isName).1 key stands
  obtain ⟨y, h, other, second, _⟩ := binding isName value stands
  cases read
  cases other
  rw [← after.kind] at stop
  exact ⟨_, _, .propertyShort kind stop,
    like_built (.cons first (.cons second (.cons .refl (.cons .refl .nil)))) silent, after⟩

/-- Parameters are read again, and nothing is pending after them. -/
theorem parameters (params : (Form.commas (.binding c)).Rereads width (.list vs) ls)
    (stands : f.At b (σ.tokens width (enclosed ls ++ ms) ++ rest)) :
    ∃ w g, Reads .parameters f w g ∧ Like c.comments w (.list vs) ∧
      ∃ ρ : Stage, ρ.pending = {} ∧ g.At b (ρ.tokens width ms ++ rest) := by
  obtain ⟨vs, same, separated⟩ := params
  cases same
  obtain ⟨opening, τ, υ, ρ, fresh, stands⟩ := stands.enclosed
  obtain ⟨w, g, read, like, after⟩ := separated.closed (k := .rightParen) (e := .binding)
    (fun item _ _ _ _ _ stands _ => item stands)
    (fun read => read.start_ne rfl) (by decide) stands rfl
  obtain ⟨closing, after⟩ := after.token (by decide)
  exact ⟨w, _, .parameters opening read closing, like, ρ, fresh, after⟩

theorem functionNamed {declared : Bool} (id : (Form.binding c).Rereads width u ls)
    (params : (Form.commas (.binding c)).Rereads width (.list vs) ms)
    (body : (Form.block c).Rereads width v ns) (alone : c.comments → v.Alone) :
    (Form.function c declared).Rereads width
      (.node (if declared then .functionDeclaration else .functionExpression) [u, .list vs, v] n)
      (.mark .kwFunction :: .blank :: (ls ++ (enclosed ms ++ .blank :: ns))) := by
  intro σ f b rest stands
  obtain ⟨word, stands⟩ := Feed.At.mark stands (by decide)
  obtain ⟨x, g, id, first, after⟩ := id (Feed.At.append stands)
  obtain ⟨y, h, params, second, ρ, _, after⟩ := parameters params after
  obtain ⟨z, i, body, third, after⟩ := body after
  exact ⟨_, _, .functionNamed word id params body,
    like_built (.cons first (.cons second (.cons (third.of_alone alone) .nil))) fun _ => rfl, after⟩

theorem functionUnnamed (params : (Form.commas (.binding c)).Rereads width (.list vs) ms)
    (body : (Form.block c).Rereads width v ns) (alone : c.comments → v.Alone) :
    (Form.function c false).Rereads width (.node .functionExpression [.null, .list vs, v] n)
      (.mark .kwFunction :: (enclosed ms ++ .blank :: ns)) := by
  intro σ f b rest stands
  obtain ⟨word, stands⟩ := Feed.At.mark stands (by decide)
  have opening := stands.enclosed.1
  obtain ⟨y, h, params, second, ρ, _, after⟩ := parameters params stands
  obtain ⟨z, i, body, third, after⟩ := body after
  exact ⟨_, _, .functionUnnamed word (by simp [opening]) params body,
    like_built (.cons .refl (.cons second (.cons (third.of_alone alone) .nil))) fun _ => rfl, after⟩

theorem functionExpression (inner : (Form.function c false).Rereads width v ls) :
    (Form.bare c primaryRank).Rereads width v ls := by
  intro silent
  refine ranked_of_head (by decide) fun {σ f b rest} stands => ?_
  obtain ⟨w, g, read, like, after⟩ := inner stands
  have word : f.current.kind = .kwFunction := beq_iff_eq.mp read.starts
  exact head_of_primary ⟨w, g, .functionExpression read, like.unbearing fun kept =>
    (silent kept).symm, after⟩ (by simp [word])

/-- Parameters with an arrow after them are read again, up to the body. -/
theorem arrow_head (params : (Form.commas (.binding c)).Rereads width (.list vs) ls)
    (stands : f.At b (σ.tokens width (enclosed ls ++ .blank :: .mark .arrow :: .blank :: ms) ++
      rest)) :
    f.startsArrow ∧ ∃ w g, Reads .arrowParameters f w g ∧ Like c.comments w (.list vs) ∧
      g.current.kind = .arrow ∧ ∃ ρ : Stage, g.next.At b (ρ.tokens width ms ++ rest) := by
  have opening := stands.enclosed.1
  have closed := stands.closed
  obtain ⟨w, g, params, like, ρ, fresh, stands⟩ := parameters params stands
  have line : g.current.newlineBefore = false := by
    rw [Feed.At.current stands]
    exact congrArg Scan.Pending.newline fresh
  obtain ⟨arrow, after⟩ := Feed.At.mark stands (by decide)
  refine ⟨?_, w, g, .arrowNames (by simp [opening]) params, like, arrow, _, after⟩
  rw [params.parameters_arrow closed, arrow, line]
  rfl

theorem arrowBlock (params : (Form.commas (.binding c)).Rereads width (.list vs) ls)
    (body : (Form.block c).Rereads width v ms) (alone : c.comments → v.Alone) :
    (Form.bare c assignmentRank).Rereads width
      (.node .arrowFunctionExpression [.list vs, v, .bool false] n)
      (enclosed ls ++ .blank :: .mark .arrow :: .blank :: ms) := by
  refine fun silent => .ofAssignment fun stands _ _ => ?_
  obtain ⟨starts, w, g, params, first, arrow, ρ, after⟩ := arrow_head params stands
  obtain ⟨x, h, body, second, after⟩ := body after
  have brace : g.next.current.kind = .leftBrace := beq_iff_eq.mp body.starts
  exact ⟨_, _, .arrowFunction starts (.arrowBlock params arrow brace body),
    like_built (.cons first (.cons (second.of_alone alone) (.cons .refl .nil))) silent, after⟩

theorem text_keyword? (found : TokenKind.keyword? name = some k) : name = text k.spelling := by
  unfold TokenKind.keyword? at found
  have same := List.find?_some found
  exact (beq_iff_eq.mp same).symm

/-- What begins with a brace or a word is spelled so. -/
theorem spelled_start {l : Lexeme} (kind : l.kind = k) (clash : k.clashes) :
    (layout (l :: ls)).startsWith (text k.spelling) := by
  have spelled : l.layout = Layout.ofText (text k.spelling) := by
    cases l with
    | mark j => exact congrArg (fun j => Layout.lay (TokenKind.spelling j)) kind
    | word name =>
      simp only [Lexeme.kind] at kind
      cases found : TokenKind.keyword? name with
      | none =>
        rw [found] at kind
        cases kind
        cases clash
      | some j =>
        rw [found, Option.getD_some] at kind
        rw [text_keyword? found, kind]
        rfl
    | _ =>
      cases kind
      cases clash
  rw [layout_cons, spelled]
  exact List.isPrefixOf_iff_prefix.mpr (List.prefix_append _ _)

/-- An expression does not begin with a token that its text does not begin with and that no comment
hides. -/
theorem unveiled_start (writes : Writes aloud (.expression c least) v ls) (clash : k.clashes)
    (plain : (layout ls).startsWith (text k.spelling) = false)
    (shown : (aloud && v.veils k least) = false) (stands : f.At b (σ.tokens width ls ++ rest)) :
    f.current.kind ≠ k := by
  intro start
  obtain ⟨xs, l, ms, rfl, solid, hidden⟩ := writes.front
  rw [Stage.tokens_beside, Stage.tokens_solid solid] at stands
  have kind : l.kind = k := stands.kind.symm.trans start
  have spelled : (layout (l :: ms)).startsWith (text k.spelling) := spelled_start kind clash
  cases aloud with
  | false => exact Bool.false_ne_true (plain.symm.trans spelled)
  | true =>
    cases xs with
    | nil => exact Bool.false_ne_true (plain.symm.trans spelled)
    | cons x xs =>
      have hides : v.veils k least := hidden k clash kind false (.inl nofun)
      exact Bool.false_ne_true (shown.symm.trans hides)

/-- The expression that is the body of an arrow function. -/
theorem arrow_value (params : (Form.commas (.binding c)).Rereads width (.list vs) ls)
    (body : Ranked width c.lifted v ms rank) (tight : assignmentRank ≤ rank)
    (plain : ∀ {σ : Stage} {f : Feed} {b : Bool} {rest : List Token},
      f.At b (σ.tokens width ms ++ rest) → f.current.kind ≠ .leftBrace) :
    (Form.bare c assignmentRank).Rereads width
      (.node .arrowFunctionExpression [.list vs, v, .bool true] n)
      (enclosed ls ++ .blank :: .mark .arrow :: .blank :: ms) := by
  refine fun silent => .ofAssignment fun stands _ halts => ?_
  obtain ⟨starts, w, g, params, first, arrow, ρ, after⟩ := arrow_head params stands
  have brace := plain after
  obtain ⟨x, h, body, second, after⟩ := body.nested tight after halts
  exact ⟨_, _, .arrowFunction starts (.arrowValue params arrow brace body),
    like_built (.cons first (.cons second (.cons .refl .nil))) silent, after⟩

theorem arrowValue (params : (Form.commas (.binding c)).Rereads width (.list vs) ls)
    (writes : Writes aloud (.expression c.lifted assignmentRank) v ms)
    (body : (Form.expression c.lifted assignmentRank).Rereads width v ms)
    (plain : (layout ms).startsWith (text "\x7b") = false)
    (shown : (aloud && v.veils .leftBrace assignmentRank) = false) :
    (Form.bare c assignmentRank).Rereads width
      (.node .arrowFunctionExpression [.list vs, v, .bool true] n)
      (enclosed ls ++ .blank :: .mark .arrow :: .blank :: ms) := by
  obtain ⟨rank, tight, body⟩ := body
  exact arrow_value params body tight (unveiled_start writes rfl plain shown)

theorem arrowObject (params : (Form.commas (.binding c)).Rereads width (.list vs) ls)
    (body : (Form.expression c.lifted assignmentRank).Rereads width v ms) :
    (Form.bare c assignmentRank).Rereads width
      (.node .arrowFunctionExpression [.list vs, v, .bool true] n)
      (enclosed ls ++ .blank :: .mark .arrow :: .blank :: enclosed ms) := by
  obtain ⟨rank, _, body⟩ := body
  have ranked : Ranked width c.lifted v (enclosed ms) primaryRank :=
    ranked_of_head (by decide) (enclosed_head body)
  refine arrow_value params ranked (by decide) fun stands brace => ?_
  rw [stands.parens.1] at brace
  cases brace

theorem unary (operator : o.isUnary) (operand : (Form.expression c unaryRank).Rereads width v ls) :
    (Form.bare c unaryRank).Rereads width (.node .unaryExpression [.text (text o.spelling), v] n)
      (.mark o :: (unaryGap o (layout ls) ++ ls)) := by
  refine fun silent => .ofUnary (Nat.le_refl _) (by decide) fun {σ f b t ts} stands bar halts => ?_
  obtain ⟨rank, tight, ranked⟩ := operand
  have value : f.current.value = .text (text o.spelling) := Feed.At.value stands
  obtain ⟨kind, stands⟩ := Feed.At.mark stands (kind_apart operator rfl)
  obtain ⟨τ, stands⟩ : ∃ τ : Stage, f.next.At b (τ.tokens width ls ++ t :: ts) := by
    rcases unaryGap_cases o (layout ls) with gap | gap
    · rw [gap] at stands
      exact ⟨_, stands⟩
    · rw [gap] at stands
      exact ⟨_, stands⟩
  obtain ⟨w, g, read, like, after⟩ := ranked.unary tight stands bar halts
  exact ⟨_, _, .unaryOperator (kind ▸ operator) read,
    like_built (.cons (like_text.mpr value) (.cons like .nil)) silent, after⟩

theorem update_within (operator : k.isUpdate) : k.isUnary = false ∧ k ≠ .endOfInput := by
  rcases TokenKind.update_cases operator with rfl | rfl <;> decide

theorem stepBefore (operator : o.isUpdate) (target : isTarget v)
    (operand : (Form.expression c postfixRank).Rereads width v ls) :
    (Form.bare c unaryRank).Rereads width
      (.node .updateExpression [.text (text o.spelling), .bool true, v] n) (.mark o :: ls) := by
  refine fun silent => .ofUnary (Nat.le_refl _) (by decide) fun {σ f b t ts} stands bar halts => ?_
  obtain ⟨rank, tight, ranked⟩ := operand
  obtain ⟨plain, within⟩ := update_within operator
  have value : f.current.value = .text (text o.spelling) := Feed.At.value stands
  obtain ⟨kind, stands⟩ := Feed.At.mark stands within
  obtain ⟨w, g, read, like, after⟩ := ranked.unary (Nat.le_trans (by decide) tight) stands bar halts
  exact ⟨_, _, .stepBefore (kind ▸ plain) (kind ▸ operator) read (like.isTarget.trans target),
    like_built (.cons (like_text.mpr value) (.cons .refl (.cons like .nil))) silent, after⟩

/-- Nothing is pending after what can be assigned to. -/
theorem target_settled (target : isTarget v) (writes : Writes aloud (.expression c callRank) v ls) :
    (σ.after width ls).pending = {} := by
  cases writes with
  | closed => simp [enclosed, Stage.step, Stage.held]
  | opened inner =>
    cases inner with
    | name => simp [Stage.step, Stage.held]
    | memberNamed _ name =>
      cases name
      simp [Stage.step, Stage.held]
    | memberIndexed => simp [Stage.step, Stage.held]
    | functionExpression inner => cases inner <;> simp [isTarget, Value.kind?] at target
    | operation =>
      revert target
      unfold operationKind
      split <;> exact (absurd · Bool.false_ne_true)
    | _ => cases target

theorem stepAfter (operator : o.isUpdate) (target : isTarget v)
    (writes : Writes aloud (.expression c callRank) v ls)
    (operand : (Form.expression c callRank).Rereads width v ls) :
    (Form.bare c postfixRank).Rereads width
      (.node .updateExpression [.text (text o.spelling), .bool false, v] n) (ls ++ [.mark o]) := by
  refine fun silent => .ofUnary (by decide) (by decide) fun {σ f b t ts} stands bar halts => ?_
  obtain ⟨rank, tight, ranked⟩ := operand
  have tail : o ≠ .dot ∧ o ≠ .leftBracket ∧ o ≠ .leftParen := by
    rcases TokenKind.update_cases operator with rfl | rfl <;> decide
  obtain ⟨w, g, access, like, after⟩ := (ranked.accessed tight stands.append).access tail
  have line : g.current.newlineBefore = false := by
    rw [after.current]
    exact congrArg Scan.Pending.newline (target_settled target writes)
  have value : g.current.value = .text (text o.spelling) := after.value
  have plain := startsOperand_plain access.starts
  obtain ⟨kind, after⟩ := after.token (update_within operator).2
  exact ⟨_, _, .unsigned plain.1 plain.2
      (.stepAfter access (kind ▸ operator) line (like.isTarget.trans target)),
    like_built (.cons (like_text.mpr value) (.cons .refl (.cons like .nil))) silent, after⟩

theorem operandMixed (inner : (Form.expression c least).Rereads width v ls) :
    (Form.operand c o rank least).Rereads width v (enclosed ls) := by
  obtain ⟨_, _, ranked⟩ := inner
  exact ranked_enclosed least (enclosed_head ranked)

/-- The part that reads the right operand of an operator. -/
theorem right_least (ranked : o.rank? = some rank) :
    conditionalRank + (if o = .power then rank - 1 else rank) + 1 = rightLeast o rank := by
  unfold rightLeast
  split
  next power =>
    subst power
    cases ranked
    rfl
  next => rfl

/-- What follows an operation follows its right operand; after a power that is no power. -/
theorem halts_right (ranked : o.rank? = some rank) (power : k ≠ .power)
    (halts : Halts false (conditionalRank + rank + 1) k) : Halts false (rightLeast o rank) k := by
  unfold rightLeast
  split
  next same =>
    subst same
    cases ranked
    refine ⟨halts.tail, fun r bar some => ?_, fun low => absurd low (by decide),
      fun low => absurd low (by decide), fun low => absurd low (by decide)⟩
    have := halts.ranked r bar some
    have : r ≠ 12 := by
      rintro rfl
      revert some
      cases k <;> simp [TokenKind.rank?] at power ⊢
    omega
  next => exact halts

theorem operation (ranked : o.rank? = some rank) (bar : c.noIn → o ≠ .kwIn)
    (left : (Form.operand c o rank (leftLeast o rank)).Rereads width v ls)
    (right : (Form.operand c o rank (rightLeast o rank)).Rereads width w ms) :
    (Form.bare c (conditionalRank + rank)).Rereads width
      (.node (operationKind o) [.text (text o.spelling), v, w] n)
      (ls ++ .blank :: .mark o :: .blank :: ms) := by
  have range : 0 < rank ∧ rank ≤ 12 ∧ o ≠ .endOfInput ∧ (o = .power → rank = 12) :=
    TokenKind.holds_of_rank ranked (by decide)
  obtain ⟨positive, most, within, twelve⟩ := range
  obtain ⟨first, high, left⟩ := left
  obtain ⟨second, low, right⟩ := right
  have least : conditionalRank + rank ≤ first ∧ (o = .power → unaryRank ≤ first) := by
    unfold leftLeast at high
    split at high
    next power =>
      have := twelve power
      exact ⟨by omega, fun _ => by subst this; exact high⟩
    next other => exact ⟨high, fun power => absurd power other⟩
  have tight : conditionalRank + (if o = .power then rank - 1 else rank) < second := by
    have := right_least ranked
    omega
  intro silent
  refine .ofOperation (by omega) (by have := Ranked.ranks; omega) fun {σ f b t ts} stands free halts
    power => ?_
  obtain ⟨τ, υ, stands⟩ := stands.between
  obtain ⟨x, f', y, g, unary, likeLeft, after, go⟩ := left.operated (by omega) stands free
    (.of_operator ranked (by omega)) least.2
  have rank? : g.rank? = some rank := by
    rw [Feed.rank?, after.kind, after.noIn, if_neg]
    · exact ranked
    · rintro ⟨loop, outside⟩
      exact bar (free outside) loop
  have value : g.current.value = .text (text o.spelling) := after.value
  have kind : g.current.kind = o := after.kind
  obtain ⟨_, after⟩ := after.token within
  obtain ⟨z, h, operand, likeRight, after⟩ := right.binary tight after free
    (right_least ranked ▸ halts_right ranked power halts)
  refine ⟨x, f', h.node (operationKind o) [g.current.value, y, z] f.current.start, h, unary, ?_,
    after, fun least u i loose more => ?_⟩
  · exact like_built (.cons (like_text.mpr value) (.cons likeLeft (.cons likeRight .nil))) silent
  refine go least u i (by omega) (.operationsMore rank? (by omega) (kind ▸ operand) ?_)
  rw [kind]
  exact more

theorem assignment (operator : o.isAssignment) (target : isTarget v)
    (left : (Form.expression c callRank).Rereads width v ls)
    (right : (Form.expression c assignmentRank).Rereads width w ms) :
    (Form.bare c assignmentRank).Rereads width
      (.node .assignmentExpression [.text (text o.spelling), v, w] n)
      (ls ++ .blank :: .mark o :: .blank :: ms) := by
  refine fun silent => .ofAssignment fun {σ f b t ts} stands bar halts => ?_
  obtain ⟨_, high, left⟩ := left
  obtain ⟨_, low, right⟩ := right
  have closed := stands.closed
  obtain ⟨τ, υ, stands⟩ := stands.between
  obtain ⟨x, g, inner, first, after⟩ := left.target high stands
    (.of_assignment operator (by decide))
  have plain : o ≠ .arrow ∧ o ≠ .endOfInput := TokenKind.holds_of_contains operator (by decide)
  have value : g.current.value = .text (text o.spelling) := after.value
  obtain ⟨kind, after⟩ := after.token plain.2
  have starts : f.startsArrow = false := by
    rw [Bool.eq_false_iff]
    intro starts
    have arrow := inner.conditional_arrow closed starts
    rw [kind] at arrow
    exact plain.1 arrow
  obtain ⟨y, h, value', second, after⟩ := right.assignment low after bar halts
  exact ⟨_, _, .assigned starts inner (kind ▸ operator) (first.isTarget.trans target) value',
    like_built (.cons (like_text.mpr value) (.cons first (.cons second .nil))) silent, after⟩

theorem conditional (test : (Form.expression c (conditionalRank + 1)).Rereads width u ls)
    (consequent : (Form.expression c.lifted assignmentRank).Rereads width v ms)
    (alternate : (Form.expression c assignmentRank).Rereads width w ns) :
    (Form.bare c conditionalRank).Rereads width (.node .conditionalExpression [u, v, w] n)
      (ls ++ .blank :: .mark .question :: .blank ::
        (ms ++ .blank :: .mark .colon :: .blank :: ns)) := by
  refine fun silent => .ofConditional fun {σ f b t ts} stands bar halts => ?_
  obtain ⟨_, high, test⟩ := test
  obtain ⟨_, middle, consequent⟩ := consequent
  obtain ⟨_, low, alternate⟩ := alternate
  obtain ⟨τ, υ, stands⟩ := stands.between
  have read : Rereads c.comments (.binary 0) f b u _ :=
    test.binary high stands bar (.of_question (by decide))
  obtain ⟨x, g, test, first, after⟩ := read
  obtain ⟨question, after⟩ := after.token (by decide)
  obtain ⟨ρ, φ, after⟩ := after.between
  obtain ⟨y, h, consequent, second, after⟩ := consequent.nested middle after (.of_inert rfl)
  obtain ⟨colon, after⟩ := after.token (by decide)
  obtain ⟨z, i, alternate, third, after⟩ := alternate.assignment low after bar halts
  exact ⟨_, _, .tested test question consequent colon alternate,
    like_built (.cons first (.cons second (.cons third .nil))) silent, after⟩

theorem sequence (items : (Form.commas (.expression c assignmentRank)).Rereads width
      (.list (v :: w :: vs)) ls) :
    (Form.bare c sequenceRank).Rereads width
      (.node .sequenceExpression [.list (v :: w :: vs)] n) ls := by
  refine fun silent => .ofSequence fun {σ f b t ts} stands bar halts => ?_
  obtain ⟨us, same, separated⟩ := items
  cases same
  have item {v : Value} {ls : List Lexeme}
      (item : (Form.expression c assignmentRank).Rereads width v ls) :
      TakenBefore width c.comments (fun a j => a = b ∧ Halts false assignmentRank j) .assignment
        v ls := by
    obtain ⟨rank, tight, ranked⟩ := item
    exact fun stands ok => ranked.assignment tight stands (ok.1 ▸ bar) ok.2
  cases separated with
  | more one more =>
    obtain ⟨τ, υ, stands⟩ := stands.before
    obtain ⟨x, g, read, like, after⟩ := item one stands ⟨rfl, .of_comma (by decide)⟩
    obtain ⟨comma, after⟩ := after.token (by decide)
    obtain ⟨y, h, others, likes, after⟩ := more.commas (e := .assignment) item after halts
    obtain ⟨ws, rfl, alike⟩ := like_list.mp likes
    exact ⟨_, _, .sequence read comma others,
      like_built (.cons (like_list.mpr ⟨_, rfl, .cons like alike⟩) .nil) silent, after⟩

theorem arguments (items : (Form.commas (.expression c.lifted assignmentRank)).Rereads width
    (.list vs) ls) : (Form.arguments c).Rereads width (.list vs) (enclosed ls) := by
  intro σ f b rest stands
  obtain ⟨us, same, separated⟩ := items
  cases same
  obtain ⟨opening, τ, υ, stands⟩ := stands.parens
  have item {v : Value} {ls : List Lexeme}
      (item : (Form.expression c.lifted assignmentRank).Rereads width v ls) :
      TakenBefore width c.comments (fun _ j => j = .comma ∨ j = .rightParen) .nested v ls := by
    obtain ⟨rank, tight, ranked⟩ := item
    intro σ f b t ts stands stop
    refine ranked.nested tight stands ?_
    rcases stop with comma | paren
    · exact comma ▸ .of_comma (by decide)
    · exact paren ▸ .of_inert rfl
  obtain ⟨w, g, read, like, after⟩ := separated.closed (k := .rightParen) (e := .nested) item
    (fun read => read.start_ne rfl) (by decide) stands rfl
  obtain ⟨closing, after⟩ := after.token (by decide)
  exact ⟨w, _, .arguments opening read closing, like, after⟩

theorem call (callee : (Form.expression c callRank).Rereads width v ls)
    (args : (Form.arguments c).Rereads width (.list vs) ms) :
    (Form.bare c callRank).Rereads width (.node .callExpression [v, .list vs] n) (ls ++ ms) := by
  refine fun silent => .ofAccess (Nat.le_refl _) fun stands => ?_
  obtain ⟨_, tight, callee⟩ := callee
  obtain ⟨first, f', head, go⟩ := callee.accessed tight stands.append
  refine ⟨first, f', head, fun start => ?_⟩
  obtain ⟨w, g, like, stands, more, _⟩ := go start
  obtain ⟨x, h, args, likes, after⟩ := args stands
  exact ⟨h.node .callExpression [w, x] start, h, like_built (.cons like (.cons likes .nil)) silent,
    after, fun y i rest => more y i (.accessesCall args rest), nofun⟩

theorem calleePlain (plain : startsWithCall v = false)
    (inner : (Form.expression c callRank).Rereads width v ls) :
    (Form.callee c).Rereads width v ls := by
  intro σ f b rest stands
  obtain ⟨_, tight, ranked⟩ := inner
  obtain ⟨first, f', head, go⟩ := ranked.accessed tight stands
  refine ⟨first, f', head, fun start => ?_⟩
  obtain ⟨w, g, like, stands, more, members⟩ := go start
  exact ⟨w, g, like, stands, more, fun _ => members plain⟩

theorem calleeCall (inner : (Form.expression c callRank).Rereads width v ls) :
    (Form.callee c).Rereads width v (enclosed ls) := by
  intro σ f b rest stands
  obtain ⟨_, _, ranked⟩ := inner
  exact .of_head (enclosed_head ranked stands)

theorem construction (callee : (Form.callee c).Rereads width v ls)
    (args : (Form.arguments c).Rereads width (.list vs) ms) (opens : ∃ ns, ms = enclosed ns) :
    (Form.bare c callRank).Rereads width (.node .newExpression [v, .list vs] n)
      (.mark .kwNew :: .blank :: (ls ++ ms)) := by
  intro silent
  refine ranked_of_head (Nat.le_refl _) fun {σ f b rest} stands => ?_
  obtain ⟨new, stands⟩ := Feed.At.mark stands (by decide)
  obtain ⟨first, f', head, go⟩ := callee (Feed.At.append stands)
  obtain ⟨w, g, like, stands, _, members⟩ := go f.current.start
  have opening : g.current.kind = .leftParen := by
    obtain ⟨ns, rfl⟩ := opens
    exact stands.parens.1
  obtain ⟨x, h, args, likes, after⟩ := args stands
  have stop : Reads (.members f.current.start w) g w g :=
    .membersStop (by simp [opening]) (by simp [opening])
  exact ⟨_, _, .headNew new (.constructionCall new head (members trivial w g stop) args),
    like_built (.cons like (.cons likes .nil)) silent, after⟩

theorem objectNumber (inner : (Form.expression c callRank).Rereads width v ls) :
    (Form.object c).Rereads width v (enclosed ls) := by
  obtain ⟨_, _, ranked⟩ := inner
  exact ranked_enclosed callRank (enclosed_head ranked)

/-- A member of an object goes on with the object's chain. -/
theorem member (object : (Form.object c).Rereads width v ls)
    (access : ∀ {σ : Stage} {f : Feed} {b : Bool} {rest : List Token},
      f.At b (σ.tokens width ms ++ rest) → ∀ start object, Like c.comments object v →
        Rereads c.comments (.member start object) f b (.node .memberExpression [v, w, x] n) rest) :
    Ranked width c (.node .memberExpression [v, w, x] n) (ls ++ ms) callRank := by
  refine .ofAccess (Nat.le_refl _) fun stands => ?_
  obtain ⟨_, tight, ranked⟩ := object
  obtain ⟨first, f', head, go⟩ := ranked.accessed tight stands.append
  refine ⟨first, f', head, fun start => ?_⟩
  obtain ⟨y, g, like, stands, more, members⟩ := go start
  obtain ⟨z, h, member, likes, after⟩ := access stands start y like
  exact ⟨z, h, likes, after, fun u i rest => more u i (.accessesMember member rest),
    fun plain u i rest => members plain u i (.membersMore member rest)⟩

theorem memberNamed (object : (Form.object c).Rereads width v ls)
    (word : (Form.word c).Rereads width w ms) :
    (Form.bare c callRank).Rereads width (.node .memberExpression [v, w, .bool false] n)
      (ls ++ .mark .dot :: ms) := by
  refine fun silent => member object fun stands start object like => ?_
  obtain ⟨dot, stands⟩ := Feed.At.mark stands (by decide)
  obtain ⟨x, g, read, name, after⟩ := word stands
  exact ⟨_, _, .memberNamed dot read,
    like_built (.cons like (.cons name (.cons .refl .nil))) silent, after⟩

theorem memberIndexed (object : (Form.object c).Rereads width v ls)
    (index : (Form.expression c.lifted sequenceRank).Rereads width w ms) :
    (Form.bare c callRank).Rereads width (.node .memberExpression [v, w, .bool true] n)
      (ls ++ .mark .leftBracket :: (ms ++ [.mark .rightBracket])) := by
  refine fun silent => member object fun stands start object like => ?_
  obtain ⟨_, _, index⟩ := index
  obtain ⟨opening, stands⟩ := Feed.At.mark stands (by decide)
  obtain ⟨τ, υ, stands⟩ := stands.before
  obtain ⟨x, g, read, second, after⟩ := index.group stands (.of_inert rfl)
  obtain ⟨closing, after⟩ := after.token (by decide)
  exact ⟨_, _, .memberIndexed opening read closing,
    like_built (.cons like (.cons second (.cons .refl .nil))) silent, after⟩

end ScriptTree.Rereading
