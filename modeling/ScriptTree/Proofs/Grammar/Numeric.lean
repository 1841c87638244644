import ScriptTree.Proofs.Grammar.Conformance
import ScriptTree.Proofs.Print.RoundTrip
import ScriptTree.Proofs.Grammar.Echo

/-!
No number that is read from a source is NaN, so what is read from two sources is equivalent as soon
as it is alike.
-/
namespace ScriptTree

theorem Binary64.ofRatio_ne_nan {negative : Bool} {num den : Nat} :
    Binary64.ofRatio negative num den ≠ .nan := by
  unfold Binary64.ofRatio
  split
  · nofun
  · dsimp only
    generalize (if roundQuotient _ _ = twoTo 53 then _ else _ : Nat × Int) = scaled
    split <;> nofun

theorem Binary64.ofDecimal_ne_nan {negative : Bool} {digits : Nat} {exponent : Int} :
    Binary64.ofDecimal negative digits exponent ≠ .nan := by
  unfold Binary64.ofDecimal
  dsimp only
  split
  · nofun
  · split
    · nofun
    · split <;> exact ofRatio_ne_nan

theorem Numeral.readFraction?_ne_nan {negative : Bool} {t : Text} {x : Binary64}
    (read : Numeral.readFraction? negative t = some x) : x ≠ .nan := by
  simp only [Numeral.readFraction?, bind, Option.bind_eq_some_iff, pure, Option.some.injEq] at read
  obtain ⟨_, _, _, _, _, _, rfl⟩ := read
  exact Binary64.ofDecimal_ne_nan

namespace Scan

variable {c after : Cursor} {v : Value}

theorem decimal_numeric (read : number.decimal c = .ok (v, after)) : v.isNumeric := by
  simp only [number.decimal] at read
  generalize (if headIs _ (· == 46) = true then (_ : Text) else []) = part at read
  split at read
  · cases read
  split at read
  · cases read
  split at read
  next made worth =>
    cases read
    split at worth
    · obtain ⟨n, _, rfl⟩ := Option.map_eq_some_iff.mp worth
      rfl
    · obtain ⟨x, fraction, rfl⟩ := Option.map_eq_some_iff.mp worth
      have number := Numeral.readFraction?_ne_nan fraction
      cases x with
      | nan => exact absurd rfl number
      | infinite | finite => rfl
  · cases read

theorem number_numeric (read : number c = .ok (v, after)) : v.isNumeric := by
  unfold number at read
  split at read
  · split at read
    · dsimp only at read
      split at read
      · cases read
      · cases read
        rfl
    · exact decimal_numeric read
  · exact decimal_numeric read

/-- The value of a token is no NaN: the only floating-point numbers are those of numerals. -/
theorem piece_numeric {kind : TokenKind} (read : piece c = .ok (.token kind v, after)) :
    v.isNumeric := by
  unfold piece at read
  split at read
  · cases read
  · cases read
  · cases read
  · obtain ⟨_, _, made⟩ := bind_ok.mp read
    cases made
  split at read
  · cases read
  split at read
  · cases read
  split at read
  · obtain ⟨_, _, made⟩ := bind_ok.mp read
    cases made
    rfl
  split at read
  · obtain ⟨_, worth, made⟩ := bind_ok.mp read
    cases made
    exact number_numeric worth
  split at read
  · cases read
    rfl
  split at read
  · cases read
    rfl
  · cases read

theorem Cuts.numeric {t : Text} {line : Bool} {cuts : List Cut} (cut : Cuts t line cuts) :
    ∀ c ∈ cuts, c.value.isNumeric := by
  induction cut with
  | last => simp [Value.isNumeric]
  | gap _ _ ih => exact ih
  | token front _ ih =>
    obtain ⟨n, read⟩ := front.2 Mark.first
    exact List.forall_mem_cons.mpr ⟨piece_numeric read, ih⟩

end Scan

theorem tokenize_numeric {source : Text} {tokens : List Token}
    (scan : tokenize source = .ok tokens) {t : Token} (mem : t ∈ tokens) : t.value.isNumeric :=
  (tokenize_scans scan).cut.numeric t.cut (List.mem_map_of_mem mem)

namespace Grammar

open Value

variable {f g : Feed} {p : Part} {v : Value}

/-- No value of the tokens that are left is NaN. -/
def Feed.Numeric (f : Feed) : Prop := ∀ t ∈ f.tokens, t.value.isNumeric

theorem Feed.Numeric.upto (numeric : f.Numeric) (upto : f.Upto g) : g.Numeric :=
  fun t mem => numeric t (upto.subset mem)

theorem Feed.Numeric.next (numeric : f.Numeric) : f.next.Numeric := numeric.upto Feed.upto_next

theorem Feed.Numeric.lift (numeric : f.Numeric) : f.lift.Numeric := numeric

theorem Feed.Numeric.bar (numeric : f.Numeric) : f.bar.Numeric := numeric

theorem Feed.Numeric.after (numeric : f.Numeric) (read : Reads p f v g) : g.Numeric :=
  numeric.upto read.upto

theorem Feed.Numeric.current (numeric : f.Numeric) : f.current.value.isNumeric :=
  numeric _ List.mem_cons_self

theorem isNumeric_mapNotes {change : Notes → Notes} :
    (v.mapNotes change).isNumeric = v.isNumeric := by
  cases v <;> rfl

theorem isNumeric_node {kind : Kind} {vs : List Value} {start : Mark} :
    (f.node kind vs start).isNumeric = areNumeric vs := rfl

theorem areNumeric_cons {vs : List Value} :
    areNumeric (v :: vs) = true ↔ v.isNumeric = true ∧ areNumeric vs = true := by
  rw [areNumeric, Bool.and_eq_true]

theorem isNumeric_literal : (f.literal v).isNumeric = v.isNumeric := by
  rw [Feed.literal, isNumeric_mapNotes, isNumeric_node, areNumeric, areNumeric, Bool.and_true]

theorem isNumeric_attachLeading {comments : List Comment} :
    (attachLeading comments v).isNumeric = v.isNumeric := by
  unfold attachLeading
  split
  · rfl
  · exact isNumeric_mapNotes

theorem isNumeric_attachTrailing {t : Token} : (attachTrailing t v).isNumeric = v.isNumeric :=
  isNumeric_mapNotes

theorem areNumeric_mapLast {t : Token} {vs : List Value} :
    areNumeric (mapLast (attachTrailing t) vs) = areNumeric vs := by
  induction vs with
  | nil => rfl
  | cons v vs ih =>
    cases vs with
    | nil => simp [mapLast, areNumeric, isNumeric_attachTrailing]
    | cons w vs =>
      change areNumeric (v :: mapLast _ (w :: vs)) = _
      rw [areNumeric, ih]
      rfl

theorem Item.part_numeric {e : Item} : e.part.base.isNumeric := by
  cases e <;> rfl

theorem Reads.numeric (read : Reads p f v g) (numeric : f.Numeric) (base : p.base.isNumeric) :
    v.isNumeric := by
  have one {v : Value} (h : v.isNumeric) : areNumeric [v] := areNumeric_cons.mpr ⟨h, rfl⟩
  have two {v w : Value} (h : v.isNumeric) (i : w.isNumeric) : areNumeric [v, w] :=
    areNumeric_cons.mpr ⟨h, one i⟩
  have three {u v w : Value} (h : u.isNumeric) (i : v.isNumeric) (j : w.isNumeric) :
      areNumeric [u, v, w] := areNumeric_cons.mpr ⟨h, two i j⟩
  have four {u v w x : Value} (h : u.isNumeric) (i : v.isNumeric) (j : w.isNumeric)
      (k : x.isNumeric) : areNumeric [u, v, w, x] := areNumeric_cons.mpr ⟨h, three i j k⟩
  induction read with
  | commasLast _ _ ih | closedLast _ _ _ ih => exact one (ih numeric Item.part_numeric)
  | commasMore read _ _ first more | closedMore _ read _ _ first more =>
    exact areNumeric_cons.mpr
      ⟨first numeric Item.part_numeric, more (numeric.after read).next rfl⟩
  | closedNone | elementsNone | statementsNone | optionalNone | handlerNone | finalizerNone
  | emptyStatement | wordTrue | wordFalse | wordNull | wordThis | propertyName | blockEmpty
  | labelNone | returnBare => rfl
  | binding | name => exact one numeric.current
  | numberOrString => exact isNumeric_literal.trans numeric.current
  | propertyShort => exact four rfl (one numeric.current) rfl rfl
  | nested _ ih | group _ ih => exact ih numeric.lift rfl
  | single _ _ ih | arrowFunction _ _ ih | unassigned _ _ _ ih
  | arrowNames _ _ ih | untested _ _ ih | unsigned _ _ _ ih | unstepped _ _ ih | headNew _ _ ih
  | headPrimary _ _ ih | functionExpression _ ih | blockStatement _ ih | variableDeclaration _ _ ih
  | functionDeclaration _ ih | loopInitDeclaration _ _ ih | loopInitExpression _ _ ih
  | optionalSome _ _ ih | labelSome _ _ ih => exact ih numeric rfl
  | arrowName _ ih | elementsLast _ _ _ _ ih | expressionStatement _ _ _ ih =>
    exact one (ih numeric rfl)
  | sequence read _ _ first more =>
    exact one (areNumeric_cons.mpr ⟨first numeric rfl, more (numeric.after read).next rfl⟩)
  | elementsMore _ _ read _ _ first more =>
    exact areNumeric_cons.mpr ⟨first numeric rfl, more (numeric.after read).next rfl⟩
  | elementsHole _ _ ih => exact areNumeric_cons.mpr ⟨rfl, ih numeric.next rfl⟩
  | statementsMore _ _ read _ first more =>
    exact areNumeric_cons.mpr ⟨isNumeric_attachLeading.trans (first numeric rfl),
      more (numeric.after read) rfl⟩
  | assigned _ read _ _ _ left right =>
    have after := numeric.after read
    exact three after.current (left numeric rfl) (right after.next rfl)
  | arrowBlock read _ _ _ params body | arrowValue read _ _ _ params body =>
    exact three (params numeric rfl) (body (numeric.after read).next rfl) rfl
  | tested condition _ consequent _ _ test left right =>
    have after := (numeric.after condition).next
    exact three (test numeric rfl) (left after rfl) (right (after.after consequent).next rfl)
  | binary read _ first more | access read _ first more =>
    exact more (numeric.after read) (first numeric rfl)
  | membersMore read _ first more | accessesMember read _ first more =>
    exact more (numeric.after read) (first numeric base)
  | accessesCall read _ args more => exact more (numeric.after read) (two base (args numeric rfl))
  | operationsStop | membersStop | accessesStop => exact base
  | operationsMore _ _ read _ right more =>
    exact more (numeric.next.after read) (three numeric.current base (right numeric.next rfl))
  | unaryOperator _ _ ih => exact two numeric.current (ih numeric.next rfl)
  | stepBefore _ _ _ _ ih => exact three numeric.current rfl (ih numeric.next rfl)
  | stepAfter read _ _ _ ih => exact three (numeric.after read).current rfl (ih numeric rfl)
  | memberNamed _ _ ih | memberIndexed _ _ _ ih => exact three base (ih numeric.next rfl) rfl
  | constructionCall _ first more _ object last args =>
    have after := numeric.next.after first
    exact two (last after (object numeric.next rfl)) (args (after.after more) rfl)
  | constructionBare _ first _ _ object last =>
    exact two (last (numeric.next.after first) (object numeric.next rfl)) rfl
  | arguments _ _ _ ih | parameters _ _ _ ih | parenthesized _ _ _ ih | finalizerSome _ _ ih =>
    exact ih numeric.next rfl
  | array _ _ _ ih | object _ _ _ ih => exact one (ih numeric.next rfl)
  | propertyComputed _ read _ _ _ key value =>
    exact four (key numeric.next rfl) (value (numeric.next.after read).next.next rfl) rfl rfl
  | propertyLiteral _ _ _ value =>
    exact four (isNumeric_literal.trans numeric.current) (value numeric.next.next rfl) rfl rfl
  | propertyNamed _ _ _ key value =>
    exact four (key numeric rfl) (value numeric.next.next rfl) rfl rfl
  | functionNamed _ read params _ name items body =>
    have after := numeric.next.after read
    exact three (name numeric.next rfl) (items after rfl) (body (after.after params) rfl)
  | functionUnnamed _ _ params _ items body =>
    exact three rfl (items numeric.next rfl) (body (numeric.next.after params) rfl)
  | block _ _ _ ih => exact one (areNumeric_mapLast.trans (ih numeric.next.lift rfl))
  | declaratorBare _ _ ih => exact two (ih numeric rfl) rfl
  | declaratorInit read _ _ name init =>
    exact two (name numeric rfl) (init (numeric.after read).next rfl)
  | declaration _ _ ih => exact two rfl (ih numeric.next rfl)
  | ifShort _ _ condition _ _ _ test left =>
    exact three (test numeric.next.next rfl)
      (left (numeric.next.next.after condition).next rfl) rfl
  | ifElse _ _ condition _ consequent _ _ test left right =>
    have after := (numeric.next.next.after condition).next
    exact three (test numeric.next.next rfl) (left after rfl)
      (right (after.after consequent).next rfl)
  | counted _ condition _ change _ _ test update body =>
    have after := (numeric.next.after condition).next
    exact four base (test numeric.next rfl) (update after rfl) (body (after.after change).next rfl)
  | forBare _ _ _ _ ih => exact ih numeric.next.next rfl
  | forCounted _ _ _ init _ _ first rest =>
    exact rest (numeric.next.next.bar.after init).lift (first numeric.next.next.bar rfl)
  | forIn _ _ _ init _ _ collection _ _ left right body
  | forOf _ _ _ init _ _ _ collection _ _ left right body =>
    have after := (numeric.next.next.bar.after init).lift.next
    exact three (left numeric.next.next.bar rfl) (right after rfl)
      (body (after.after collection).next rfl)
  | whileStatement _ _ condition _ _ test body =>
    exact two (test numeric.next.next rfl) (body (numeric.next.next.after condition).next rfl)
  | doWhile _ read _ _ _ _ _ body test =>
    exact two (body numeric.next rfl) (test (numeric.next.after read).next.next rfl)
  | handlerBare _ _ _ ih => exact two rfl (ih numeric.next rfl)
  | handlerNamed _ _ read _ _ name body =>
    exact two (name numeric.next.next rfl) (body (numeric.next.next.after read).next rfl)
  | tryStatement _ guarded handler _ _ block caught last =>
    have after := numeric.next.after guarded
    exact three (block numeric.next rfl) (caught after rfl) (last (after.after handler) rfl)
  | returnValue _ _ _ _ ih | throwStatement _ _ _ _ ih | breakStatement _ _ _ ih
  | continueStatement _ _ _ ih => exact one (ih numeric.next rfl)

theorem tokens_ofTokens {tokens : List Token} (closed : Closed tokens) :
    (Feed.ofTokens tokens).tokens = tokens := by
  cases tokens with
  | nil => exact closed.elim
  | cons => rfl

end Grammar

open Grammar Value

variable {source : Text} {tokens : List Token} {u v w : Value}

section Start

variable (scanned : tokenize source = .ok tokens)

include scanned

theorem Grammar.closed_ofTokens : (Feed.ofTokens tokens).Closed := by
  have closed := tokenize_closed scanned
  rwa [Feed.Closed, tokens_ofTokens closed]

theorem Grammar.faithful_ofTokens : (Feed.ofTokens tokens).Faithful := by
  rw [Feed.Faithful, tokens_ofTokens (tokenize_closed scanned)]
  exact tokenize_faithful scanned

theorem Grammar.numeric_ofTokens : (Feed.ofTokens tokens).Numeric := by
  rw [Feed.Numeric, tokens_ofTokens (tokenize_closed scanned)]
  exact fun t mem => tokenize_numeric scanned mem

end Start

def Grammar.programOf (f g : Feed) (vs : List Value) : Value :=
  if vs.isEmpty then
    attachTrailing g.current
      (.node .program [.list []] { span := some ⟨f.current.start, some g.current.stop⟩ })
  else .node .program [.list (mapLast (attachTrailing g.current) vs)]
    { span := some ⟨f.current.start, some g.current.stop⟩ }

variable {f g f' g' : Feed} {vs ws : List Value}

theorem Grammar.programOf_body :
    ∃ n, programOf f g vs = .node .program [.list (mapLast (attachTrailing g.current) vs)] n := by
  cases vs <;> exact ⟨_, rfl⟩

theorem Grammar.like_programOf (like : AllLike false ws vs) :
    Like false (programOf f' g' ws) (programOf f g vs) := by
  obtain ⟨_, left⟩ := programOf_body (f := f') (g := g')
  obtain ⟨_, right⟩ := programOf_body (f := f) (g := g)
  rw [left, right]
  exact Like.node (.cons (like_items (like_mapLast like)) rfl) nofun

/-- A source is parsed by reading statements up to the end of its tokens. -/
theorem parse_reads : parse source = .ok v ↔
    ∃ tokens vs g, tokenize source = .ok tokens ∧
      Reads (.statements .endOfInput) (Feed.ofTokens tokens) (.list vs) g ∧
      v = programOf (Feed.ofTokens tokens) g vs := by
  constructor
  · intro parsed
    obtain ⟨tokens, scanned, ran⟩ := parse_ok.mp parsed
    obtain ⟨vs, g, read, made⟩ := program_sound ran
    exact ⟨tokens, vs, g, scanned, read, made⟩
  · rintro ⟨tokens, vs, g, scanned, read, rfl⟩
    exact parse_ok.mpr ⟨tokens, scanned, program_complete (tokenize_closed scanned) read⟩

theorem parse_numeric (parsed : parse source = .ok v) : v.isNumeric := by
  obtain ⟨tokens, vs, g, scanned, read, rfl⟩ := parse_reads.mp parsed
  have items := read.numeric (numeric_ofTokens scanned) rfl
  rw [isNumeric] at items
  obtain ⟨n, made⟩ := programOf_body (f := Feed.ofTokens tokens) (g := g)
  rw [made, isNumeric, areNumeric, isNumeric, areNumeric_mapLast, items]
  rfl

/-- What is read in one role from two sources is equivalent if it is alike. -/
theorem Value.Like.equivalent_parsed {r s : Role} (like : Like false w v)
    (left : Conforms .parsed r w) (right : Conforms .parsed s v) (numeric : v.isNumeric) :
    w.equivalent v = .ok true :=
  like.equivalent (left.valid Convention.parsed_scalar) (right.valid Convention.parsed_scalar)
    numeric

end ScriptTree
