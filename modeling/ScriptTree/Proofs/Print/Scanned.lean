import ScriptTree.Proofs.Grammar.Conformance
import ScriptTree.Proofs.Print.Spacing

/-!
Lexemes that stay apart are scanned as the tokens that they are: the text of each of them is one
piece of the scan, whatever lexeme comes after it, and a line is a line end with blanks after it.
-/
namespace ScriptTree

open Scan

/-- The text of lexemes with a width of indentation. -/
def textOf (width : Int) (ls : List Lexeme) : Text := (layout ls).render width

variable {width : Int} {p : Point} {t : Text} {k : TokenKind} {l m : Lexeme} {ls : List Lexeme}
  {rest : Text} {here : Mark}

theorem render_ofText : (Layout.ofText t).render width = t := by
  induction t with
  | nil => rfl
  | cons c t ih => exact congrArg (c :: ·) ih

@[simp] theorem textOf_nil : textOf width [] = [] := rfl

@[simp] theorem textOf_cons : textOf width (l :: ls) = l.text width ++ textOf width ls := by
  simp only [textOf, layout_cons, Layout.render, List.flatMap_append, Lexeme.text]

namespace Lexeme

@[simp] theorem text_blank : blank.text width = [32] := rfl

@[simp] theorem text_line {d : Nat} :
    (line d).text width = 10 :: Text.spaces (width * d).toNat := by
  simp only [text, layout, Layout.render, List.flatMap_cons, List.flatMap_nil, List.append_nil]

@[simp] theorem text_remark {c : Comment} : (remark c).text width = c.render := render_ofText

@[simp] theorem text_mark : (mark k).text width = ScriptTree.text k.spelling := render_ofText

@[simp] theorem text_word : (word t).text width = t := render_ofText

@[simp] theorem text_number {n : Nat} : (number n).text width = Text.decimal n := render_ofText

@[simp] theorem text_quoted : (quoted t).text width = Literal.quoted t := render_ofText

end Lexeme

/-- Whether a code point is part of no operator. -/
def Plain (p : Point) : Prop := ∀ i ∈ TokenKind.operators, p ∉ text i.spelling

/-- The code points that operators are made of begin no word and no number. -/
theorem operator_points {i : TokenKind} (operator : i ∈ TokenKind.operators)
    (mem : p ∈ text i.spelling) : startsWord p = false ∧ continuesWord p = false ∧
      ¬(48 ≤ p ∧ p ≤ 57) ∧ p.isDigit = false ∧ p ∉ [32, 10, 39] := by
  have all : (TokenKind.operators.all fun i => (text i.spelling).all fun p =>
      !startsWord p && !continuesWord p && !decide (48 ≤ p ∧ p ≤ 57) && !p.isDigit &&
        !decide (p ∈ [32, 10, 39])) = true := by decide
  have this := List.all_eq_true.mp (List.all_eq_true.mp all i operator) p mem
  simp only [Bool.and_eq_true, Bool.not_eq_true', decide_eq_false_iff_not] at this
  exact ⟨this.1.1.1.1, this.1.1.1.2, this.1.1.2, this.1.2, this.2⟩

theorem plain_of_startsWord (starts : startsWord p) : Plain p := fun i operator mem => by
  rw [(operator_points operator mem).1] at starts
  cases starts

theorem plain_of_digit (digit : 48 ≤ p ∧ p ≤ 57) : Plain p := fun _ operator mem =>
  (operator_points operator mem).2.2.1 digit

theorem plain_of_gap (gap : p ∈ [32, 10, 39]) : Plain p := fun _ operator mem =>
  (operator_points operator mem).2.2.2.2 gap

/-- No operator goes on with a code point that is part of none. -/
theorem Plain.stop (plain : Plain p) :
    ∀ i ∈ TokenKind.operators, ¬(text k.spelling ++ [p]) <+: text i.spelling :=
  fun i operator front => plain i operator (front.subset (by simp))

/-- The comment marks are parts of operators. -/
theorem Plain.uncommented (plain : Plain p) : p ≠ 47 ∧ p ≠ 42 := by
  constructor
  · rintro rfl
    exact plain .slash (by decide) (by decide)
  · rintro rfl
    exact plain .star (by decide) (by decide)

/-- An operator is taken whole before a code point. -/
def Stops (k : TokenKind) (p : Point) : Prop :=
  (∀ i ∈ TokenKind.operators, ¬(text k.spelling ++ [p]) <+: text i.spelling) ∧
    (k = .slash → p ≠ 47 ∧ p ≠ 42) ∧ (k = .dot → p.isDigit = false)

/-- What a lexeme asks of the code point after it. -/
def Lexeme.Ends : Lexeme → Point → Prop
  | word _, p => continuesWord p = false
  | number _, p => continuesWord p = false ∧ p ≠ 46
  | mark k, p => if k.isKeyword then continuesWord p = false else Stops k p
  | remark c, p => c.block ∨ p = 10
  | _, _ => True

def Lexeme.Starts : Lexeme → Point → Prop
  | blank, p => p = 32
  | line _, p => p = 10
  | remark _, p => p = 47
  | quoted _, p => p = 39
  | word _, p => startsWord p
  | number _, p => 48 ≤ p ∧ p ≤ 57
  | mark k, p => if k.isKeyword then startsWord p = true else k ∈ TokenKind.operators ∧
      p ∈ ScriptTree.text k.spelling ∧ (ScriptTree.text k.spelling).take 1 = [p]

theorem Lexeme.first (width : Int) (valid : m.valid) :
    ∃ p t, m.text width = p :: t ∧ m.Starts p := by
  cases m with
  | blank => exact ⟨32, [], rfl, rfl⟩
  | line d => exact ⟨10, _, text_line, rfl⟩
  | remark c =>
    rw [text_remark, Comment.render]
    split <;> exact ⟨47, _, rfl, rfl⟩
  | quoted t => exact ⟨39, _, text_quoted, rfl⟩
  | word w =>
    cases w with
    | nil => cases valid
    | cons p w => exact ⟨p, w, text_word, ((Bool.and_eq_true _ _).mp valid).1⟩
  | number n =>
    rw [text_number]
    cases digits : Text.decimal n with
    | nil => exact absurd (List.map_eq_nil_iff.mp digits) Nat.toDigits_ne_nil
    | cons p t => exact ⟨p, t, rfl, decimal_digits (digits ▸ List.mem_cons_self)⟩
  | mark k =>
    rw [text_mark]
    cases keyword : k.isKeyword with
    | true =>
      have word := Grammar.keyword_isWord keyword
      cases spelled : ScriptTree.text k.spelling with
      | nil =>
        rw [spelled] at word
        cases word
      | cons p t =>
        rw [spelled] at word
        refine ⟨p, t, rfl, ?_⟩
        rw [Lexeme.Starts, if_pos keyword]
        exact ((Bool.and_eq_true _ _).mp word).1
    | false =>
      have operator : k ∈ TokenKind.operators := by
        simpa only [Lexeme.valid, keyword, Bool.false_or, List.contains_iff_mem] using valid
      obtain ⟨p, t, spelled, _⟩ := operator_first operator
      refine ⟨p, t, spelled, ?_⟩
      simp only [Lexeme.Starts, keyword, Bool.false_eq_true, if_false, spelled]
      exact ⟨operator, List.mem_cons_self, rfl⟩

/-- Before a lexeme that begins with no letter or digit, a word ends. -/
theorem Lexeme.first_unwordy (valid : m.valid) (wordy : m.isWordy = false) :
    ∃ p t, m.text width = p :: t ∧ continuesWord p = false ∧ (m.isDot = false → p ≠ 46) := by
  obtain ⟨p, t, spelled, first⟩ := m.first width valid
  refine ⟨p, t, spelled, ?_⟩
  cases m with
  | word | number => cases wordy
  | mark k =>
    have operator : k.isKeyword = false := wordy
    simp only [Lexeme.Starts, operator, Bool.false_eq_true, if_false] at first
    obtain ⟨operator, mem, front⟩ := first
    refine ⟨(operator_points operator mem).2.1, ?_⟩
    rintro other rfl
    obtain ⟨q, u, same, _, _, _, _, _, _, dot, _⟩ := operator_first operator
    rw [same] at front
    cases front
    cases dot rfl
    cases other
  | _ =>
    simp only [Lexeme.Starts] at first
    subst first
    exact ⟨by decide, fun _ => by decide⟩

theorem stops_plain (plain : Plain p) (digit : k = .dot → p.isDigit = false) : Stops k p :=
  ⟨plain.stop, fun _ => plain.uncommented, digit⟩

theorem startsWord_digit (starts : startsWord p) : p.isDigit = false :=
  (startsWord_only starts).2.2.2.2.2.1

/-- An operator is taken whole before a lexeme that may touch it. -/
theorem Lexeme.first_touched (valid : m.valid) (touches : Lexeme.touches k m) :
    ∃ p t, m.text width = p :: t ∧ Stops k p := by
  obtain ⟨p, t, spelled, first⟩ := m.first width valid
  refine ⟨p, t, spelled, ?_⟩
  have apart (j : TokenKind) (apart : k.apart j) (front : (ScriptTree.text j.spelling).take 1 = [p])
      (digit : p.isDigit = false) : Stops k p := by
    simp only [TokenKind.apart, Bool.and_eq_true, bne_iff_ne, List.all_eq_true, Bool.not_eq_true',
      front] at apart
    refine ⟨fun i other long => ?_, fun slash => absurd slash apart.1, fun _ => digit⟩
    have short := apart.2 i other
    rw [List.isPrefixOf_iff_prefix.mpr long] at short
    cases short
  cases m with
  | remark =>
    cases first
    exact apart .slash touches rfl (by decide)
  | word w => exact stops_plain (plain_of_startsWord first) fun _ => startsWord_digit first
  | number n =>
    refine stops_plain (plain_of_digit first) fun dot => ?_
    simp [Lexeme.touches, dot] at touches
  | mark j =>
    cases keyword : j.isKeyword with
    | true =>
      simp only [Lexeme.Starts, keyword, if_true] at first
      exact stops_plain (plain_of_startsWord first) fun _ => startsWord_digit first
    | false =>
      simp only [Lexeme.Starts, keyword, Bool.false_eq_true, if_false] at first
      obtain ⟨operator, mem, front⟩ := first
      simp only [Lexeme.touches, keyword, Bool.false_or] at touches
      exact apart j touches front (operator_points operator mem).2.2.2.1
  | _ =>
    simp only [Lexeme.Starts] at first
    subst first
    exact stops_plain (plain_of_gap (by decide)) fun _ => by decide

theorem stands_operator (stands : k.stands) : k ∈ TokenKind.operators :=
  TokenKind.holds_of_contains stands (by decide)

/-- No operator is longer than a bracket or a separator and begins with it. -/
theorem stops_stands (stands : k.stands) : Stops k p := by
  have alone : (TokenKind.operators.all fun k => !k.stands || (k != .slash && k != .dot &&
      TokenKind.operators.all fun i => !(text k.spelling).isPrefixOf (text i.spelling) ||
        (text i.spelling).length == (text k.spelling).length)) = true := by decide
  have this := List.all_eq_true.mp alone k (stands_operator stands)
  simp only [stands, Bool.not_true, Bool.false_or, Bool.and_eq_true, bne_iff_ne,
    List.all_eq_true, Bool.or_eq_true, Bool.not_eq_true', beq_iff_eq] at this
  refine ⟨fun i other long => ?_, fun slash => absurd slash this.1.1,
    fun dot => absurd dot this.1.2⟩
  have front : text k.spelling <+: text i.spelling := (List.prefix_append _ _).trans long
  rcases this.2 i other with apart | same
  · rw [List.isPrefixOf_iff_prefix.mpr front] at apart
    cases apart
  · have := long.length_le
    simp only [List.length_append, List.length_singleton] at this
    omega

/-- A lexeme that another may follow ends before its first code point. -/
theorem joins_ends (valid : m.valid) (joins : l.joins m) :
    ∀ p ∈ (m.text width ++ rest).head?, l.Ends p := by
  intro p head
  cases l with
  | word w =>
    have unwordy : m.isWordy = false := by simpa only [Lexeme.joins, Bool.not_eq_true'] using joins
    obtain ⟨q, t, spelled, ends, _⟩ := m.first_unwordy valid unwordy
    rw [spelled] at head
    cases head
    exact ends
  | number n =>
    simp only [Lexeme.joins, Bool.and_eq_true, Bool.not_eq_true'] at joins
    obtain ⟨q, t, spelled, ends, dot⟩ := m.first_unwordy valid joins.1
    rw [spelled] at head
    cases head
    exact ⟨ends, dot joins.2⟩
  | remark c =>
    rcases (Bool.or_eq_true _ _).mp joins with block | line
    · exact .inl block
    · cases m with
      | line d =>
        rw [Lexeme.text_line] at head
        cases head
        exact .inr rfl
      | _ => cases line
  | mark k =>
    simp only [Lexeme.Ends]
    simp only [Lexeme.joins] at joins
    cases stands : k.stands with
    | true =>
      have operator : k.isKeyword = false := TokenKind.holds_of_contains stands (by decide)
      rw [if_neg (by simp [operator])]
      exact stops_stands stands
    | false =>
      rw [stands, Bool.false_or] at joins
      split at joins
      · obtain ⟨q, t, spelled, ends, _⟩ := m.first_unwordy valid (by simpa using joins)
        rw [spelled] at head
        cases head
        rwa [if_pos ‹_›]
      · obtain ⟨q, t, spelled, stops⟩ := m.first_touched valid joins
        rw [spelled] at head
        cases head
        rwa [if_neg ‹_›]
  | _ => trivial

/-- A keyword is found by its spelling. -/
theorem keyword?_spelling (keyword : k.isKeyword) :
    TokenKind.keyword? (text k.spelling) = some k := by
  have all : ∀ k ∈ TokenKind.keywords, TokenKind.keyword? (text k.spelling) = some k := by
    decide +kernel
  exact all k (List.contains_iff_mem.mp keyword)

/-- The text of a token stays on its line. -/
theorem Lexeme.flat (solid : l.isSolid) (valid : l.valid) :
    ∀ p ∈ l.text width, p ≠ Point.lineFeed := by
  rintro _ mem rfl
  cases l with
  | blank | line | remark => cases solid
  | word w =>
    rw [text_word] at mem
    have continues := List.all_eq_true.mp (isWord_all valid) _ mem
    revert continues
    decide
  | number n =>
    rw [text_number] at mem
    have digit := decimal_digits mem
    revert digit
    decide
  | mark k =>
    rw [text_mark] at mem
    have none : ((TokenKind.keywords ++ TokenKind.operators).all fun k =>
      !(ScriptTree.text k.spelling).contains Point.lineFeed) = true := by decide
    have known : k ∈ TokenKind.keywords ++ TokenKind.operators := by
      simpa only [Lexeme.valid, TokenKind.isKeyword, Bool.or_eq_true, List.contains_iff_mem,
        List.mem_append] using valid
    have this := List.all_eq_true.mp none k known
    rw [Bool.not_eq_true', Bool.eq_false_iff] at this
    exact this (List.contains_iff_mem.mpr mem)
  | quoted t =>
    rw [text_quoted] at mem
    have printable := Literal.quoted_printable mem
    revert printable
    decide

/-- A token is taken whole by the scan. -/
theorem piece_solid (solid : l.isSolid) (valid : l.valid) (ends : ∀ p ∈ rest.head?, l.Ends p) :
    piece ⟨l.text width ++ rest, here⟩ =
      .ok (.token l.kind l.value, ⟨rest, here.past (l.text width)⟩) := by
  rw [Mark.past_flat (l.flat solid valid)]
  cases l with
  | blank | line | remark => cases solid
  | word w =>
    rw [Lexeme.text_word]
    exact piece_word valid ends
  | number n =>
    rw [Lexeme.text_number]
    exact piece_number (of_decide_eq_true valid) ends
  | quoted t =>
    rw [Lexeme.text_quoted]
    exact piece_quoted
  | mark k =>
    rw [Lexeme.text_mark]
    cases keyword : k.isKeyword with
    | true =>
      have found : TokenKind.keyword? (text k.spelling) = some k := keyword?_spelling keyword
      have stop (q : Point) (head : q ∈ rest.head?) : continuesWord q = false := by
        simpa only [Lexeme.Ends, keyword, if_true] using ends q head
      have taken := piece_word (m := here) (Grammar.keyword_isWord keyword) stop
      rw [taken, found]
      rfl
    | false =>
      have operator : k ∈ TokenKind.operators := by
        simpa only [Lexeme.valid, keyword, Bool.false_or, List.contains_iff_mem] using valid
      have stops (q : Point) (head : q ∈ rest.head?) : Stops k q := by
        simpa only [Lexeme.Ends, keyword, Bool.false_eq_true, if_false] using ends q head
      exact piece_operator operator (fun q head => (stops q head).1)
        (fun slash q head => (stops q head).2.1 slash) fun dot q head => (stops q head).2.2 dot

def Stage.last (σ : Stage) : Token :=
  ⟨.endOfInput, .null, σ.mark, σ.mark, [], σ.pending.newline, σ.pending.comments⟩

variable {σ : Stage} {steps : Nat} {pending : Pending}

theorem tokensFrom_gap {newline : Bool} {comments : List Comment} {after : Cursor}
    (taken : piece ⟨p :: rest, here⟩ = .ok (.gap newline comments, after)) :
    tokensFrom (steps + 1) ⟨p :: rest, here⟩ pending =
      tokensFrom steps after ⟨pending.newline || newline, pending.comments ++ comments⟩ := by
  simp only [tokensFrom, List.isEmpty_cons, Bool.false_eq_true, if_false, taken]

/-- Indentation goes by without a trace. -/
theorem tokensFrom_spaces {count : Nat} (enough : count ≤ steps) :
    tokensFrom steps ⟨Text.spaces count ++ rest, here⟩ pending =
      tokensFrom (steps - count) ⟨rest, here.past (Text.spaces count)⟩ pending := by
  induction count generalizing steps here with
  | zero => rfl
  | succ count ih =>
    obtain ⟨steps, rfl⟩ : ∃ n, steps = n + 1 := ⟨steps - 1, by omega⟩
    have spelled : Text.spaces (count + 1) = 32 :: Text.spaces count := rfl
    rw [spelled, List.cons_append, tokensFrom_gap piece_blank, Bool.or_false, List.append_nil,
      ih (by omega), Nat.add_sub_add_right]
    rfl

/-- A gap is scanned without a token. -/
theorem tokensFrom_lexeme_gap (gap : l.isSolid = false) (valid : l.valid)
    (ends : ∀ p ∈ rest.head?, l.Ends p) (enough : (l.text width ++ rest).length ≤ steps) :
    ∃ left, rest.length ≤ left ∧ tokensFrom steps ⟨l.text width ++ rest, σ.mark⟩ σ.pending =
      tokensFrom left ⟨rest, (σ.step width l).mark⟩ (σ.step width l).pending := by
  rw [List.length_append] at enough
  cases l with
  | blank =>
    rw [Lexeme.text_blank, List.length_singleton] at enough
    obtain ⟨steps, rfl⟩ : ∃ n, steps = n + 1 := ⟨steps - 1, by omega⟩
    refine ⟨steps, by omega, ?_⟩
    rw [Lexeme.text_blank, List.singleton_append, tokensFrom_gap piece_blank, Bool.or_false,
      List.append_nil]
    rfl
  | line d =>
    rw [Lexeme.text_line, List.length_cons, Text.spaces, List.length_replicate] at enough
    obtain ⟨steps, rfl⟩ : ∃ n, steps = n + 1 := ⟨steps - 1, by omega⟩
    refine ⟨steps - (width * d).toNat, by omega, ?_⟩
    rw [Stage.step, Lexeme.text_line, List.cons_append, tokensFrom_gap piece_lineFeed,
      tokensFrom_spaces (by omega), Bool.or_true, List.append_nil]
    rfl
  | remark c =>
    obtain ⟨q, u, spelled, _⟩ := (Lexeme.remark c).first width valid
    rw [spelled, List.length_cons] at enough
    obtain ⟨steps, rfl⟩ : ∃ n, steps = n + 1 := ⟨steps - 1, by omega⟩
    refine ⟨steps, by omega, ?_⟩
    have taken : piece ⟨(Lexeme.remark c).text width ++ rest, σ.mark⟩ =
        .ok (.gap (c.block && c.text.contains Point.lineFeed) [{ c with leading := true }],
          ⟨rest, σ.mark.past ((Lexeme.remark c).text width)⟩) := by
      obtain ⟨inner, block, leading⟩ := c
      rw [Lexeme.text_remark]
      cases block with
      | true =>
        simp only [Lexeme.valid, Comment.legible, if_true, Bool.not_eq_true'] at valid
        exact piece_blockComment valid
      | false =>
        simp only [Lexeme.valid, Comment.legible, Bool.false_eq_true, if_false] at valid
        exact piece_lineComment valid fun q head => (ends q head).resolve_left Bool.false_ne_true
    rw [spelled, List.cons_append] at taken ⊢
    rw [tokensFrom_gap taken, Stage.step, spelled]
    rfl
  | _ => cases gap

/-- A token is scanned as the one that its lexeme is. -/
theorem tokensFrom_lexeme_solid (solid : l.isSolid) (valid : l.valid)
    (ends : ∀ p ∈ rest.head?, l.Ends p) (enough : (l.text width ++ rest).length ≤ steps) :
    ∃ left, rest.length ≤ left ∧ tokensFrom steps ⟨l.text width ++ rest, σ.mark⟩ σ.pending =
      (tokensFrom left ⟨rest, (σ.step width l).mark⟩ (σ.step width l).pending).map
        (σ.token width l :: ·) := by
  have taken : piece ⟨l.text width ++ rest, σ.mark⟩ = _ := piece_solid solid valid ends
  have pending : (σ.step width l).pending = {} := by cases l <;> first | rfl | cases solid
  have made : tokenAt ⟨l.text width ++ rest, σ.mark⟩ ⟨rest, σ.mark.past (l.text width)⟩ σ.pending
      l.kind l.value = σ.token width l := by
    simp only [tokenAt, Mark.past_offset, Nat.add_sub_cancel_left, List.take_left]
    rfl
  obtain ⟨q, u, spelled, _⟩ := l.first width valid
  rw [spelled, List.cons_append, List.length_cons, List.length_append] at enough
  obtain ⟨steps, rfl⟩ : ∃ n, steps = n + 1 := ⟨steps - 1, by omega⟩
  refine ⟨steps, by omega, ?_⟩
  have some : (l.text width ++ rest).isEmpty = false := by rw [spelled]; rfl
  simp only [tokensFrom, some, Bool.false_eq_true, if_false, taken, pending, made]
  split <;> simp_all [Except.map, Stage.step]

/-- Of lexemes that stay apart, the first ends before the text of the others. -/
theorem Spaced.ends (spaced : Spaced (l :: ls)) : ∀ p ∈ (textOf width ls).head?, l.Ends p := by
  cases ls with
  | nil => exact fun _ head => absurd head (Option.not_mem_none _)
  | cons m ls =>
    rw [textOf_cons]
    exact joins_ends spaced.2.2.1 spaced.2.1

/-- Lexemes that stay apart are scanned as their tokens and the end of input. -/
theorem tokensFrom_spaced (spaced : Spaced ls) (enough : (textOf width ls).length ≤ steps) :
    tokensFrom steps ⟨textOf width ls, σ.mark⟩ σ.pending =
      .ok (σ.tokens width ls ++ [(σ.after width ls).last]) := by
  induction ls generalizing σ steps with
  | nil => cases steps <;> simp [tokensFrom, tokenAt, Stage.last]
  | cons l ls ih =>
    have ends : ∀ p ∈ (textOf width ls).head?, l.Ends p := spaced.ends
    obtain ⟨valid, joins, spaced⟩ := spaced
    rw [textOf_cons] at enough ⊢
    cases solid : l.isSolid with
    | true =>
      obtain ⟨left, bound, scan⟩ := tokensFrom_lexeme_solid (σ := σ) solid valid ends enough
      rw [scan, ih spaced bound, Stage.tokens_solid solid]
      rfl
    | false =>
      obtain ⟨left, bound, scan⟩ := tokensFrom_lexeme_gap (σ := σ) solid valid ends enough
      rw [scan, ih spaced bound, Stage.tokens_gap solid]
      rfl

def Stage.first : Stage := ⟨Mark.first, {}⟩

/-- The text of lexemes that stay apart is cut into the tokens that they are. -/
theorem tokenize_spaced (spaced : Spaced ls) : tokenize (textOf width ls) =
    .ok (Stage.first.tokens width ls ++ [(Stage.first.after width ls).last]) :=
  tokensFrom_spaced (σ := Stage.first) spaced (Nat.le_refl _)

end ScriptTree
