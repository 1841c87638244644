import ScriptTree.Proofs.Token.Lossless

/-!
Line ends between two tokens. A token knows of those that stand by themselves in the gap before it,
and of line feeds in the block comments there. All other line ends in comments are lost on it.
-/
namespace ScriptTree

variable {t u following inner : Text} {comments others : List Comment} {p : Point}

namespace Text

mutual
/-- What of a gap stands outside its comments. -/
def outside : Text → Text
  | [] => []
  | 47 :: 47 :: t => pastRemark t
  | 47 :: 42 :: t => pastComment t
  | p :: t => p :: outside t

def pastRemark : Text → Text
  | [] => []
  | p :: t => if p.isRemark then pastRemark t else p :: outside t

def pastComment : Text → Text
  | [] => []
  | 42 :: 47 :: t => outside t
  | _ :: t => pastComment t
end

theorem outside_cons (other : p ≠ 47) : outside (p :: t) = p :: outside t := by
  rw [outside.eq_def]
  split <;> simp_all

theorem outside_blank (blank : Scan.isGap p) : outside (p :: t) = p :: outside t := by
  refine outside_cons ?_
  rintro rfl
  cases blank

theorem outside_lineEnd (ends : p.isLineEnd) : outside (p :: t) = p :: outside t := by
  refine outside_cons ?_
  rintro rfl
  cases ends

/-- What holds of the first code point of a text holds of that of its front. -/
theorem head_front {q : Point → Prop} (all : ∀ p ∈ (t ++ u).head?, q p) : ∀ p ∈ t.head?, q p := by
  intro p first
  obtain ⟨t, rfl⟩ := List.head?_eq_some_iff.mp first
  exact all p rfl

/-- A line comment ends before the first code point that does not belong to it. -/
theorem pastRemark_append (within : inner.all Point.isRemark)
    (ends : ∀ p ∈ t.head?, p.isRemark = false) : pastRemark (inner ++ t) = outside t := by
  induction inner with
  | nil =>
    cases t with
    | nil => rfl
    | cons p t =>
      have last := ends p rfl
      have other : p ≠ 47 := by
        rintro rfl
        cases last
      rw [List.nil_append, pastRemark, last, outside_cons other]
      rfl
  | cons p inner ih =>
    rw [List.all_cons, Bool.and_eq_true] at within
    rw [List.cons_append, pastRemark, if_pos within.1, ih within.2]

/-- A block comment ends with the first asterisk that a slash follows. -/
theorem pastComment_append (within : closesComment inner = false) :
    pastComment (inner ++ 42 :: 47 :: t) = outside t := by
  induction inner with
  | nil => rfl
  | cons p inner ih =>
    obtain ⟨rest, other⟩ := @Scan.closesComment_cons _ _ t within
    rw [List.cons_append, pastComment.eq_3 _ _ other, ih rest]

end Text

namespace Gap

open Text

/-- A gap may be read in two parts. -/
theorem outside_append (gap : Gap (u ++ following) t comments) :
    outside (t ++ u) = outside t ++ outside u := by
  induction gap with
  | none => rfl
  | blank blank _ ih =>
    rw [List.cons_append, outside_blank blank, outside_blank blank, ih, List.cons_append]
  | lineEnd ends _ ih =>
    rw [List.cons_append, outside_lineEnd ends, outside_lineEnd ends, ih, List.cons_append]
  | lineComment within ends _ ih =>
    rw [← List.append_assoc] at ends
    have first := head_front ends
    simp only [List.cons_append, List.append_assoc, outside]
    rw [pastRemark_append within first, pastRemark_append within (head_front first), ih]
  | blockComment within _ ih =>
    simp only [List.cons_append, List.append_assoc, outside]
    rw [pastComment_append within, pastComment_append within, ih]

/-- A line end in a gap stands by itself or in one of the comments. -/
theorem mem_isLineEnd (gap : Gap following t comments) (ends : p.isLineEnd) :
    p ∈ t ↔ p ∈ outside t ∨ ∃ c ∈ comments, p ∈ c.text := by
  have slash : p ≠ 47 := by
    rintro rfl
    cases ends
  have star : p ≠ 42 := by
    rintro rfl
    cases ends
  induction gap with
  | none => simp [outside]
  | blank blank _ ih => simp [outside_blank blank, ih, or_assoc]
  | lineEnd ends _ ih => simp [outside_lineEnd ends, ih, or_assoc]
  | lineComment within stop _ ih =>
    rw [outside, pastRemark_append within (head_front stop)]
    simp [slash, ih, or_left_comm]
  | blockComment within _ ih =>
    rw [outside, pastComment_append within]
    simp [slash, star, ih, or_left_comm]

/-- A line comment has no line feed in it. -/
theorem not_lineFeed (gap : Gap following t comments) {c : Comment} (mem : c ∈ comments)
    (line : c.block = false) : Point.lineFeed ∉ c.text := by
  induction gap with
  | none => cases mem
  | blank _ _ ih => exact ih mem
  | lineEnd _ _ ih => exact ih mem
  | lineComment within _ _ ih =>
    rcases List.mem_cons.mp mem with rfl | later
    · intro inside
      cases List.all_eq_true.mp within _ inside
    · exact ih later
  | blockComment _ _ ih =>
    rcases List.mem_cons.mp mem with rfl | later
    · cases line
    · exact ih later

end Gap

/-- What a token knows of the line ends in the gap before it. -/
def Broken (gap : Text) (comments : List Comment) : Prop :=
  (∃ p ∈ gap.outside, p.isLineEnd) ∨ ∃ c ∈ comments, c.block ∧ Point.lineFeed ∈ c.text

theorem Gap.broken_append (gap : Gap (u ++ following) t comments) :
    Broken (t ++ u) (comments ++ others) ↔ Broken t comments ∨ Broken u others := by
  simp only [Broken, gap.outside_append, List.mem_append, or_and_right, exists_or]
  exact or_or_or_comm

/-- It knows of all of them if no comment has a line end in it that is no line feed. -/
theorem Gap.broken_iff (gap : Gap following t comments)
    (plain : ∀ c ∈ comments, ∀ p ∈ c.text, p.isLineEnd → p = Point.lineFeed) :
    Broken t comments ↔ ∃ p ∈ t, p.isLineEnd := by
  constructor
  · rintro (⟨p, alone, ends⟩ | ⟨c, mem, _, inside⟩)
    · exact ⟨p, (gap.mem_isLineEnd ends).mpr (.inl alone), ends⟩
    · exact ⟨_, (gap.mem_isLineEnd rfl).mpr (.inr ⟨c, mem, inside⟩), rfl⟩
  · rintro ⟨p, within, ends⟩
    rcases (gap.mem_isLineEnd ends).mp within with alone | ⟨c, mem, inside⟩
    · exact .inl ⟨p, alone, ends⟩
    · cases plain c mem p inside ends
      cases block : c.block with
      | true => exact .inr ⟨c, mem, block, inside⟩
      | false => exact absurd inside (gap.not_lineFeed mem block)

/-- Where the last of some tokens ends, or another place if there are none. -/
def endOf (before : Nat) (tokens : List Token) : Nat :=
  (tokens.getLast?.map fun t => t.stop.offset).getD before

theorem endOf_cons {a : Token} {before : Nat} {tokens : List Token} :
    endOf before (a :: tokens) = endOf a.stop.offset tokens := by
  rw [endOf, endOf, List.getLast?_cons, Option.map_some, Option.getD_some, Option.getD_map]

namespace Scan

variable {here m : Mark} {newline : Bool} {source : Text} {before : Nat} {c : Cursor}
  {pending : Pending} {tokens earlier later : List Token} {a : Token}

/-- A gap is marked with what is known of the line ends in it. -/
theorem Stretch.broken (stretch : Stretch here following t (.gap newline comments) m) :
    newline ↔ Broken t comments := by
  cases stretch with
  | @blank p blank =>
    have line : p.isLineEnd = false := by
      simp only [isGap, Bool.or_eq_true, beq_iff_eq] at blank
      rcases blank with ((rfl | rfl) | rfl) | rfl <;> rfl
    simp [Broken, Text.outside_blank blank, Text.outside, line]
  | lineEnd ends => simp [Broken, Text.outside_lineEnd ends, Text.outside, ends]
  | lineEnds => simp [Broken, Text.outside, Point.isLineEnd]
  | @lineComment inner within =>
    have none := Text.pastRemark_append (t := []) within (by simp)
    rw [List.append_nil] at none
    simp [Broken, Text.outside, none]
  | @blockComment inner within =>
    have none := Text.pastComment_append (t := []) within
    simp [Broken, Text.outside, none]

/-- Each token knows of the line ends since the token before it. -/
theorem Runs.broken (runs : Runs c pending tokens)
    (reached : Reached source before c pending.comments)
    (known : pending.newline ↔ Broken (source.slice before c.mark.offset) pending.comments)
    (split : tokens = earlier ++ a :: later) :
    (∃ following, Gap following (source.slice (endOf before earlier) a.start.offset) a.comments) ∧
      (a.newlineBefore ↔
        Broken (source.slice (endOf before earlier) a.start.offset) a.comments) := by
  induction runs generalizing before earlier with
  | last =>
    obtain ⟨rfl, same⟩ := List.append_eq_singleton_iff.mp split.symm |>.resolve_right (by simp)
    cases same
    exact ⟨⟨_, reached.gap⟩, known⟩
  | @gap c after pending newline comments tokens some read _ ih =>
    refine ih (reached.skip some read) ?_ split
    obtain ⟨taken, front, stretch⟩ := piece_stretch read some
    have dropped : source.drop c.mark.offset = taken ++ after.rest := reached.rest.trans front
    have gap := reached.gap
    rw [front] at gap
    rw [stretch.offset, Text.slice_append reached.order dropped, gap.broken_append,
      Bool.or_eq_true, known, stretch.broken]
  | @token c after pending kind value tokens some read _ ih =>
    cases earlier with
    | nil =>
      obtain ⟨rfl, _⟩ := List.cons.inj split
      exact ⟨⟨_, reached.gap⟩, known⟩
    | cons u earlier =>
      obtain ⟨rfl, further⟩ := List.cons.inj split
      obtain ⟨_, _, fresh⟩ : (tokenAt c after pending kind value).Stands source before ∧ _ :=
        reached.take some read
      have clear : ¬Broken (source.slice after.mark.offset after.mark.offset) [] := by
        simp [Text.slice_self, Broken, Text.outside]
      rw [endOf_cons]
      exact ih fresh (iff_of_false Bool.false_ne_true clear) further

end Scan

theorem tokenize_broken {source : Text} {tokens earlier later : List Token} {t : Token}
    (scan : tokenize source = .ok tokens) (split : tokens = earlier ++ t :: later) :
    (∃ following, Gap following (source.slice (endOf 0 earlier) t.start.offset) t.comments) ∧
      (t.newlineBefore ↔ Broken (source.slice (endOf 0 earlier) t.start.offset) t.comments) := by
  refine (tokenize_runs scan).broken ⟨rfl, Nat.zero_le _, Nat.le_refl _, .none⟩ ?_ split
  simp [Text.slice, Broken, Text.outside, Mark.first]

/-- A token knows of the line ends that stand by themselves in the gap before it and of the line
feeds in its block comments. So it knows whether there is any line end in the gap, unless one that
is no line feed stands in a comment. -/
theorem tokenize_breaks_iff {source : Text} {tokens earlier later : List Token} {t : Token}
    (scan : tokenize source = .ok tokens) (split : tokens = earlier ++ t :: later) :
    let gap := source.slice (endOf 0 earlier) t.start.offset
    (t.newlineBefore ↔ (∃ p ∈ gap.outside, p.isLineEnd) ∨
      ∃ c ∈ t.comments, c.block ∧ Point.lineFeed ∈ c.text) ∧
    ((∀ c ∈ t.comments, ∀ p ∈ c.text, p.isLineEnd → p = Point.lineFeed) →
      (t.newlineBefore ↔ ∃ p ∈ gap, p.isLineEnd)) := by
  obtain ⟨⟨_, gap⟩, known⟩ := tokenize_broken scan split
  exact ⟨known, fun plain => known.trans (gap.broken_iff plain)⟩

/-- A line feed in the second of two block comments is known. -/
theorem tokenize_breaks_iff_comment :
    ∃ a b e, tokenize (text "a /* */ /*\n*/b") = .ok [a, b, e] ∧ b.newlineBefore ∧
      ∃ p ∈ (text "a /* */ /*\n*/b").slice (endOf 0 [a]) b.start.offset, p.isLineEnd := by
  refine ⟨_, _, _, rfl, rfl, ?_⟩
  exact ((tokenize_breaks_iff rfl List.singleton_append.symm).2 (by decide)).mp rfl

/-- A carriage return in a block comment goes unseen, though it is a line end outside of it. -/
theorem tokenize_misses_break :
    ∃ a b e, tokenize (text "a/*\r*/b") = .ok [a, b, e] ∧
      ¬(b.newlineBefore ↔
        ∃ p ∈ (text "a/*\r*/b").slice (endOf 0 [a]) b.start.offset, p.isLineEnd) := by
  refine ⟨_, _, _, rfl, ?_⟩
  decide

end ScriptTree
