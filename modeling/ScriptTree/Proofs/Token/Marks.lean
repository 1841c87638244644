import ScriptTree.Proofs.Token.Breaks
import ScriptTree.Proofs.Token.Hazards
import Mathlib.Data.List.Induction

/-!
The places of tokens. Where lines end with line feeds only, a token begins and ends at the line and
the column that its offset has in the source, if no escape of a string runs over a line feed: after
those the columns go on as if the line did.
-/
namespace ScriptTree

variable {t u x y following source : Text} {c p : Point}

namespace Text

/-- The line and the column of an offset, both counted from one. -/
def place (t : Text) (offset : Nat) : Mark where
  line := 1 + (t.take offset).count Point.lineFeed
  column := 1 + (lastLine (t.take offset)).length
  offset := offset

theorem lastLine_append :
    lastLine (t ++ [c]) = if c = Point.lineFeed then [] else lastLine t ++ [c] := by
  rw [lastLine, List.reverse_append, List.reverse_singleton, List.singleton_append,
    List.takeWhile_cons]
  by_cases line : c = Point.lineFeed <;> simp [line, lastLine]

/-- The place after a text is that of its length, whatever follows it. -/
theorem place_append : (t ++ u).place t.length = Mark.first.past t := by
  rw [place, List.take_left]
  induction t using List.reverseRecOn with
  | nil => rfl
  | append_singleton t c ih =>
    rw [Mark.past_append, ← ih, List.count_append, lastLine_append]
    by_cases line : c = Point.lineFeed
    · simp [line, Mark.past, Mark.nextLine, Nat.add_assoc, lastLine]
    · simp [line, Mark.past, Mark.right, Nat.add_assoc]

mutual
/-- Whether an escape by hexadecimal digits has a line feed in it. -/
@[simp] def escapesLine : Text → Bool
  | [] => false
  | 92 :: 120 :: a :: b :: t => [a, b].contains Point.lineFeed || escapesLine t
  | 92 :: 117 :: 123 :: t => bracesLine t
  | 92 :: 117 :: a :: b :: c :: d :: t => [a, b, c, d].contains Point.lineFeed || escapesLine t
  | 92 :: _ :: t => escapesLine t
  | _ :: t => escapesLine t

@[simp] def bracesLine : Text → Bool
  | [] => false
  | 125 :: t => escapesLine t
  | p :: t => p == Point.lineFeed || bracesLine t
end

theorem escapesLine_plain (plain : p ≠ 92) : escapesLine (p :: t) = escapesLine t := by
  apply escapesLine.eq_6 <;> intros <;> contradiction

theorem escapesLine_short (hex : p ≠ 120) (unicode : p ≠ 117) :
    escapesLine (92 :: p :: t) = escapesLine t := by
  apply escapesLine.eq_5 <;> intros <;> contradiction

theorem bracesLine_append {digits : Text} (within : 125 ∉ digits) :
    bracesLine (digits ++ 125 :: t) = (digits.contains Point.lineFeed || escapesLine t) := by
  induction digits with
  | nil => rfl
  | cons d digits ih =>
    obtain ⟨other, within⟩ := List.ne_and_not_mem_of_not_mem_cons within
    rw [List.cons_append, bracesLine.eq_3 _ _ (fun same => other same.symm), ih within,
      List.contains_cons, Bool.or_assoc, Bool.beq_comm]

end Text

namespace Scan

open Text

variable {quote : Point} {vs value digits : Text} {start here m n : Mark} {v : Value}

/-- An escape without a line feed in it stays on its line. -/
theorem Escape.flat (escape : Escape u digits) (flat : escapesLine (u ++ x) = false) :
    Point.lineFeed ∉ u ∧ escapesLine x = false := by
  have marked (mark : Text) (clear : Point.lineFeed ∉ mark)
      (both : (digits.contains Point.lineFeed || escapesLine x) = false) :
      Point.lineFeed ∉ mark ++ digits ∧ escapesLine x = false := by
    rw [Bool.or_eq_false_iff, List.contains_eq_mem, decide_eq_false_iff_not] at both
    exact ⟨fun mem => (List.mem_append.mp mem).elim clear both.1, both.2⟩
  cases escape with
  | hex => exact marked [Point.backslash, 120] (by decide) flat
  | @unicode a b c d plain =>
    have same : [Point.backslash, 117, a, b, c, d] ++ x = 92 :: 117 :: a :: b :: c :: d :: x := rfl
    rw [same, escapesLine.eq_4 _ _ _ _ _ plain] at flat
    exact marked [Point.backslash, 117] (by decide) flat
  | @braced digits within =>
    have same : [Point.backslash, 117, 123] ++ digits ++ [125] ++ x =
        92 :: 117 :: 123 :: (digits ++ 125 :: x) := by simp
    rw [same, escapesLine, bracesLine_append within] at flat
    obtain ⟨none, flat⟩ := marked [Point.backslash, 117, 123] (by decide) flat
    refine ⟨fun mem => (List.mem_append.mp mem).elim none (by decide), flat⟩

/-- The place after a stroke is the place after its text, if it is no escape over a line feed. -/
theorem Stroke.past (stroke : Stroke quote u vs) (flat : escapesLine (u ++ x) = false) :
    across here u vs = here.past u ∧ escapesLine x = false := by
  have short {e : Point} (other : e ≠ 120 ∧ e ≠ 117 ∧ e ≠ Point.lineFeed)
      (flat : escapesLine (92 :: e :: x) = false) :
      here.right 2 = here.past [92, e] ∧ escapesLine x = false := by
    rw [escapesLine_short other.1 other.2.1] at flat
    have inline : ∀ p ∈ [92, e], p ≠ Point.lineFeed :=
      List.forall_mem_cons.mpr ⟨by decide, List.forall_mem_singleton.mpr other.2.2⟩
    exact ⟨(Mark.past_flat inline).symm, flat⟩
  cases stroke with
  | plain line _ escape =>
    rw [List.singleton_append, escapesLine_plain escape] at flat
    exact ⟨(Mark.past_flat (List.forall_mem_singleton.mpr (not_or.mp line).1)).symm, flat⟩
  | @simple e _ simple =>
    refine short ⟨?_, ?_, ?_⟩ flat
    all_goals
      rintro rfl
      cases simple
  | self _ other => exact short other flat
  | named escape =>
    obtain ⟨none, flat⟩ := escape.flat flat
    exact ⟨(Mark.past_flat fun p mem same => none (same ▸ mem)).symm, flat⟩
  | lineFeed => exact ⟨rfl, flat⟩
  | lineEnd => exact ⟨rfl, flat⟩

/-- A string ends at the place after its text. -/
theorem Quoted.past (quoted : Quoted quote x value) (escape : quote ≠ Point.backslash)
    (line : ¬(quote = Point.lineFeed ∨ quote = Point.carriageReturn))
    (flat : escapesLine x = false) :
    stringRest quote start here (x ++ t) = .ok (value, ⟨t, here.past x⟩) := by
  induction quoted generalizing here with
  | close =>
    rw [List.singleton_append, stringRest.eq_def]
    simp only [line, if_false, if_true]
    rw [Mark.past_flat (List.forall_mem_singleton.mpr (not_or.mp line).1)]
    rfl
  | @more u vs x value stroke apart rest ih =>
    have apart : u = [Point.backslash, Point.carriageReturn] →
        (x ++ t).head? ≠ some Point.lineFeed := by
      rwa [rest.head?]
    obtain ⟨moved, flat⟩ : across here u vs = here.past u ∧ escapesLine x = false :=
      stroke.past flat
    rw [List.append_assoc, stroke.reads escape apart, moved, ih flat, Mark.past_append]
    rfl

theorem digits_flat (all : t.all Point.isDigit) : Point.lineFeed ∉ t := fun mem => by
  have digit := List.all_eq_true.mp all _ mem
  revert digit
  decide

theorem IsExponent.flat (exponent : IsExponent t) : Point.lineFeed ∉ t := by
  cases exponent with
  | none => exact List.not_mem_nil
  | some marks signs _ all =>
    intro mem
    rcases List.mem_cons.mp mem with rfl | more
    · revert marks
      decide
    rcases List.mem_append.mp more with sign | digit
    · rcases signs with rfl | rfl | rfl
      all_goals
        revert sign
        decide
    · exact digits_flat all digit

theorem Decimal.flat {w part e : Text} (decimal : Decimal x y w part e) : Point.lineFeed ∉ x := by
  obtain ⟨digits, shape, all⟩ := decimal.part_shape
  rw [decimal.written, List.mem_append, List.mem_append, not_or, not_or]
  refine ⟨⟨digits_flat decimal.whole_digits, ?_⟩, (exponentText?_shape decimal.power).flat⟩
  rcases shape with ⟨rfl, _⟩ | rfl
  · exact List.not_mem_nil
  · exact List.not_mem_cons_of_ne_of_not_mem (by decide) (digits_flat all)

/-- A number has no line feed in it. -/
theorem number_flat (read : number ⟨x ++ y, m⟩ = .ok (v, ⟨y, n⟩)) : Point.lineFeed ∉ x := by
  by_cases hex : marksHex (x ++ y)
  · obtain ⟨k, digits, rfl, mark, taken, _⟩ := hex_written hex read
    have inside : Point.lineFeed ∉ digits := fun mem => by
      have digit := List.all_eq_true.mp (takeWhile_stop taken).1 _ mem
      revert digit
      decide
    have second : Point.lineFeed ≠ k := by
      rcases mark with rfl | rfl <;> decide
    exact List.not_mem_cons_of_ne_of_not_mem (by decide)
      (List.not_mem_cons_of_ne_of_not_mem second inside)
  · rw [number_decimal_of (Bool.eq_false_iff.mpr hex)] at read
    obtain ⟨_, _, _, decimal, _⟩ := decimal_written read
    exact decimal.flat

/-- A piece ends at the place after its text. -/
theorem Stretch.past {p : Piece} (stretch : Stretch here following t p m)
    (ends : ∀ c ∈ t, c.isLineEnd → c = Point.lineFeed)
    (flat : ∀ s, p = .token .string s → escapesLine t = false) : m = here.past t := by
  have flatly {t : Text} (none : Point.lineFeed ∉ t) : here.right t.length = here.past t :=
    (Mark.past_flat fun p mem same => none (same ▸ mem)).symm
  cases stretch with
  | @blank p blank =>
    refine flatly (t := [p]) fun mem => ?_
    cases List.mem_singleton.mp mem
    cases blank
  | @lineEnd p line =>
    cases ends p List.mem_cons_self line
    rfl
  | lineEnds => cases ends Point.carriageReturn List.mem_cons_self rfl
  | @lineComment inner within =>
    refine flatly (t := 47 :: 47 :: inner) ?_
    refine List.not_mem_cons_of_ne_of_not_mem (by decide)
      (List.not_mem_cons_of_ne_of_not_mem (by decide) fun mem => ?_)
    cases List.all_eq_true.mp within _ mem
  | @blockComment inner =>
    have opening : here.past [47, 42] = here.right 2 := rfl
    have whole : 47 :: 42 :: (inner ++ [42, 47]) = [47, 42] ++ inner ++ [42, 47] := by simp
    rw [whole, Mark.past_append, Mark.past_append, opening]
    rfl
  | @string q x value there mark read =>
    obtain ⟨z, quoted, split, _⟩ := stringRest_ok read
    cases List.append_cancel_right split
    have other : q ≠ Point.backslash ∧ ¬(q = Point.lineFeed ∨ q = Point.carriageReturn) := by
      rcases mark with rfl | rfl <;> decide
    have inline := flat _ rfl
    rw [escapesLine_plain other.1] at inline
    rw [quoted.past other.1 other.2 inline] at read
    cases read
    have opening : here.past [q] = here.right 1 :=
      Mark.past_flat (List.forall_mem_singleton.mpr (not_or.mp other.2).1)
    rw [← List.singleton_append, Mark.past_append, opening]
  | number _ read => exact flatly (number_flat read)
  | word word =>
    refine flatly fun mem => ?_
    have part := List.all_eq_true.mp (isWord_all word) _ mem
    revert part
    decide
  | operator operator => exact flatly (operators_break rfl _ operator)

variable {c : Cursor} {pending : Pending} {tokens : List Token} {front : Text}

/-- Every token stands where its offsets are in the source. -/
theorem Runs.placed (runs : Runs c pending tokens) (whole : source = front ++ c.rest)
    (mark : c.mark = Mark.first.past front)
    (ends : ∀ c ∈ source, c.isLineEnd → c = Point.lineFeed)
    (flat : ∀ t ∈ tokens, t.kind = .string → t.raw.escapesLine = false) :
    ∀ t ∈ tokens, t.start = source.place t.start.offset ∧ t.stop = source.place t.stop.offset := by
  have here {front rest : Text} (whole : source = front ++ rest) :
      Mark.first.past front = source.place (Mark.first.past front).offset := by
    rw [Mark.past_offset, whole, show Mark.first.offset = 0 from rfl, Nat.zero_add, place_append]
  induction runs generalizing front with
  | last =>
    intro t mem
    cases List.mem_singleton.mp mem
    cases mark
    exact ⟨here whole, here whole⟩
  | @gap c after pending newline comments tokens some read _ ih =>
    obtain ⟨taken, split, stretch⟩ := piece_stretch read some
    have within : source = front ++ taken ++ after.rest := by
      rw [whole, split, List.append_assoc]
    refine ih within ?_ flat
    rw [Mark.past_append, ← mark]
    exact stretch.past (fun c mem => ends c (by simp [within, mem])) nofun
  | @token c after pending kind value tokens some read _ ih =>
    obtain ⟨taken, split, stretch⟩ := piece_stretch read some
    have within : source = front ++ taken ++ after.rest := by
      rw [whole, split, List.append_assoc]
    have raw : (tokenAt c after pending kind value).raw = taken := by
      simp [tokenAt, stretch.offset, split]
    obtain ⟨first, later⟩ := List.forall_mem_cons.mp flat
    have moved : after.mark = Mark.first.past (front ++ taken) := by
      rw [Mark.past_append, ← mark]
      refine stretch.past (fun c mem => ends c (by simp [within, mem])) ?_
      rintro s ⟨⟩
      rw [← raw]
      exact first rfl
    refine List.forall_mem_cons.mpr ⟨⟨?_, ?_⟩, ih within moved later⟩
    · change c.mark = source.place c.mark.offset
      rw [mark]
      exact here whole
    · change after.mark = source.place after.mark.offset
      rw [moved]
      exact here within

end Scan

/-- Lines, columns and line ends are exact in a source whose lines end with line feeds only, if no
escape of a string runs over a line feed. -/
theorem tokenize_placed {tokens : List Token} (scan : tokenize source = .ok tokens)
    (ends : ∀ c ∈ source, c.isLineEnd → c = Point.lineFeed)
    (flat : ∀ t ∈ tokens, t.kind = .string → t.raw.escapesLine = false) :
    (∀ t ∈ tokens, t.start = source.place t.start.offset ∧ t.stop = source.place t.stop.offset) ∧
    ∀ earlier t later, tokens = earlier ++ t :: later →
      (t.newlineBefore ↔ Point.lineFeed ∈ source.slice (endOf 0 earlier) t.start.offset) := by
  have whole : source = [] ++ source := rfl
  refine ⟨(tokenize_runs scan).placed whole rfl ends flat, ?_⟩
  intro earlier t later split
  obtain ⟨⟨_, gap⟩, known⟩ := tokenize_broken scan split
  have among {c : Point} (mem : c ∈ source.slice (endOf 0 earlier) t.start.offset) : c ∈ source :=
    List.mem_of_mem_drop (List.mem_of_mem_take mem)
  have plain : ∀ x ∈ t.comments, ∀ c ∈ x.text, c.isLineEnd → c = Point.lineFeed :=
    fun x mem c inside line =>
      ends c (among ((gap.mem_isLineEnd line).mpr (.inr ⟨x, mem, inside⟩))) line
  rw [known, gap.broken_iff plain]
  constructor
  · rintro ⟨c, mem, line⟩
    cases ends c (among mem) line
    exact mem
  · intro mem
    exact ⟨_, mem, rfl⟩

/-- Line feeds after a backslash in a string, in a comment and at the end of a line comment. -/
theorem tokenize_placed_string :
    let source := text "a /*\n*/ = '\\\n\\x41' // b\n + 1"
    ∃ tokens, tokenize source = .ok tokens ∧ tokens.length = 6 ∧
      ∀ t ∈ tokens, t.start = source.place t.start.offset ∧
        t.stop = source.place t.stop.offset := by
  intro source
  have known : (tokenize source).toOption.any (fun tokens => tokens.length == 6 &&
      tokens.all fun t => t.kind != .string || !t.raw.escapesLine) = true := by
    decide +kernel
  cases scan : tokenize source with
  | error e => rw [scan] at known; cases known
  | ok tokens =>
    rw [scan] at known
    obtain ⟨count, flat⟩ := Bool.and_eq_true_iff.mp known
    refine ⟨tokens, rfl, beq_iff_eq.mp count, (tokenize_placed scan (by decide) ?_).1⟩
    intro t mem string
    simpa [string] using List.all_eq_true.mp flat t mem

end ScriptTree
