import ScriptTree.Proofs.Token.Scanning
import ScriptTree.Proofs.Token.Strings

/-!
Nothing of a source is lost when it is cut into tokens: the tokens stand in it one after the other,
each with its own text, and what stands between them is blanks, line ends and comments.
-/
namespace ScriptTree

/-- The code points of a text from one place to another. -/
def Text.slice (t : Text) (first last : Nat) : Text := (t.drop first).take (last - first)

def Point.isRemark (p : Point) : Bool := p != lineFeed && p != carriageReturn && p != 0

/-- What stands between two tokens, and the comments in it: blanks, line ends, comments up to the
end of a line, and comments that are closed. Text that follows it ends the last comment. -/
inductive Gap (following : Text) : Text → List Comment → Prop
  | none : Gap following [] []
  | blank {c : Point} {t : Text} {comments : List Comment} (blank : Scan.isGap c)
      (more : Gap following t comments) : Gap following (c :: t) comments
  | lineEnd {c : Point} {t : Text} {comments : List Comment} (ends : c.isLineEnd)
      (more : Gap following t comments) : Gap following (c :: t) comments
  | lineComment {inner t : Text} {comments : List Comment} (within : inner.all Point.isRemark)
      (ends : ∀ p ∈ (t ++ following).head?, p.isRemark = false)
      (more : Gap following t comments) :
      Gap following (47 :: 47 :: (inner ++ t)) (⟨inner, false, true⟩ :: comments)
  | blockComment {inner t : Text} {comments : List Comment} (within : closesComment inner = false)
      (more : Gap following t comments) :
      Gap following (47 :: 42 :: (inner ++ 42 :: 47 :: t)) (⟨inner, true, true⟩ :: comments)

theorem Gap.append {following t u : Text} {first second : List Comment}
    (gap : Gap (u ++ following) t first) (later : Gap following u second) :
    Gap following (t ++ u) (first ++ second) := by
  induction gap with
  | none => exact later
  | blank blank _ ih => exact .blank blank ih
  | lineEnd ends _ ih => exact .lineEnd ends ih
  | lineComment within ends _ ih =>
    rw [← List.append_assoc] at ends
    simpa using Gap.lineComment within ends ih
  | blockComment within _ ih => simpa using Gap.blockComment within ih

namespace Scan

def Takes (t : Text) (here : Mark) (taken : Text) (after : Cursor) : Prop :=
  t = taken ++ after.rest ∧ after.mark.offset = here.offset + taken.length

variable {t r : Text} {here m : Mark} {after : Cursor}

theorem Takes.skip {taken : Text} {m : Mark} (x : Text) (takes : Takes r m taken after)
    (moved : m.offset = here.offset + x.length) : Takes (x ++ r) here (x ++ taken) after := by
  obtain ⟨rfl, offset⟩ := takes
  refine ⟨(List.append_assoc ..).symm, ?_⟩
  rw [offset, moved, List.length_append, Nat.add_assoc]

theorem right_prefix {c : Cursor} {taken : Text} (begins : taken <+: c.rest) :
    ∃ y, c.rest = taken ++ y ∧ c.right taken.length = ⟨y, c.mark.right taken.length⟩ := by
  obtain ⟨y, same⟩ := begins
  refine ⟨y, same.symm, ?_⟩
  rw [Cursor.right, ← same, List.drop_left]

theorem prefix_append {s t u : Text} (first : s <+: u) (second : t <+: u.drop s.length) :
    s ++ t <+: u := by
  obtain ⟨rest, rfl⟩ := first
  rw [List.drop_left] at second
  exact (List.prefix_append_right_inj s).mpr second

theorem exponentText?_prefix {e : Text} (read : exponentText? t = some e) : e <+: t := by
  match t with
  | [] =>
    cases read
    exact List.nil_prefix
  | mark :: r =>
    simp only [exponentText?] at read
    have sign : (if headIs r (fun c => c == 43 || c == 45) = true then r.take 1 else []) <+: r := by
      split
      · exact List.take_prefix ..
      · exact List.nil_prefix
    generalize (if headIs r (fun c => c == 43 || c == 45) = true then r.take 1 else []) = written
      at read sign
    split at read
    · split at read
      · cases read
      · cases read
        rw [List.cons_append, List.cons_prefix_cons]
        exact ⟨rfl, prefix_append sign (List.takeWhile_prefix _)⟩
    · cases read
      exact List.nil_prefix

theorem point_taken : (if headIs t (· == 46) = true then
    46 :: (t.drop 1).takeWhile Point.isDigit else []) <+: t := by
  split
  · rename_i point
    cases t with
    | nil => cases point
    | cons p r =>
      cases beq_iff_eq.mp point
      exact List.cons_prefix_cons.mpr ⟨rfl, List.takeWhile_prefix _⟩
  · exact List.nil_prefix

/-- What begins with a digit or a point has digits or a point. -/
theorem decimal_some (starts : headIs t fun p => p.isDigit || p == 46) :
    t.takeWhile Point.isDigit ++ (if headIs (t.drop (t.takeWhile Point.isDigit).length) (· == 46)
      then 46 :: ((t.drop (t.takeWhile Point.isDigit).length).drop 1).takeWhile Point.isDigit
      else []) ≠ [] := by
  cases t with
  | nil => cases starts
  | cons p r =>
    by_cases digit : p.isDigit
    · simp [digit]
    · have point : p == 46 := (Bool.or_eq_true_iff.mp starts).resolve_left digit
      rw [List.takeWhile_cons_of_neg digit]
      simp [headIs, beq_iff_eq.mp point]

theorem decimal_takes {c : Cursor} {v : Value} (read : number.decimal c = .ok (v, after))
    (starts : headIs c.rest fun p => p.isDigit || p == 46) :
    ∃ taken, taken ≠ [] ∧ taken <+: c.rest ∧ after = c.right taken.length := by
  simp only [number.decimal] at read
  have whole : c.rest.takeWhile Point.isDigit <+: c.rest := List.takeWhile_prefix _
  have some := decimal_some starts
  generalize c.rest.takeWhile Point.isDigit = digits at read whole some
  have point := @point_taken (c.rest.drop digits.length)
  -- with or without a point, the cases are the same
  generalize (if headIs _ (· == 46) = true then (_ : Text) else []) = part
    at read point some
  split at read
  · cases read
  · rename_i exponent found
    have written : digits ++ part ++ exponent <+: c.rest := by
      refine prefix_append (prefix_append whole point) ?_
      rw [List.length_append, ← List.drop_drop]
      exact exponentText?_prefix found
    split at read
    · cases read
    · split at read
      · cases read
        exact ⟨_, List.append_ne_nil_of_left_ne_nil some _, written, rfl⟩
      · cases read

theorem number_takes {c : Cursor} {v : Value} (read : number c = .ok (v, after))
    (starts : headIs c.rest fun p => p.isDigit || p == 46) :
    ∃ taken, taken ≠ [] ∧ taken <+: c.rest ∧ after = c.right taken.length := by
  unfold number at read
  split at read
  · rename_i x r rest
    split at read
    · dsimp only at read
      split at read
      · cases read
      · cases read
        have written : 48 :: x :: r.takeWhile (·.hexValue?.isSome) <+: c.rest := by
          rw [rest, List.cons_prefix_cons, List.cons_prefix_cons]
          exact ⟨rfl, rfl, List.takeWhile_prefix _⟩
        refine ⟨_, by simp, written, ?_⟩
        rw [List.length_cons, List.length_cons, Nat.add_assoc, Nat.add_comm]
    · exact decimal_takes read starts
  · exact decimal_takes read starts

/-- What each piece is, by the text that it takes before another text, and the place after it. -/
inductive Stretch (m : Mark) (following : Text) : Text → Piece → Mark → Prop
  | blank {p : Point} (blank : isGap p) : Stretch m following [p] (.gap false []) (m.right 1)
  | lineEnd {p : Point} (ends : p.isLineEnd) :
      Stretch m following [p] (.gap true []) (m.nextLine 1)
  | lineEnds : Stretch m following [Point.carriageReturn, Point.lineFeed] (.gap true [])
      (m.nextLine 2)
  | lineComment {inner : Text} (within : inner.all Point.isRemark)
      (ends : ∀ p ∈ following.head?, p.isRemark = false) :
      Stretch m following (47 :: 47 :: inner) (.gap false [⟨inner, false, true⟩])
        (m.right (inner.length + 2))
  | blockComment {inner : Text} (within : closesComment inner = false) :
      Stretch m following (47 :: 42 :: (inner ++ [42, 47]))
        (.gap (inner.contains Point.lineFeed) [⟨inner, true, true⟩])
        (((m.right 2).past inner).right 2)
  | string {q : Point} {x value : Text} {there : Mark}
      (mark : q = Point.doubleQuote ∨ q = Point.apostrophe)
      (read : stringRest q m (m.right 1) (x ++ following) = .ok (value, ⟨following, there⟩)) :
      Stretch m following (q :: x) (.token .string (.text value)) there
  | number {x : Text} {v : Value} (some : x ≠ [])
      (read : Scan.number ⟨x ++ following, m⟩ = .ok (v, ⟨following, m.right x.length⟩)) :
      Stretch m following x (.token .number v) (m.right x.length)
  | word {w : Text} (word : isWord w) :
      Stretch m following w (.token ((TokenKind.keyword? w).getD .ident) (.text w))
        (m.right w.length)
  | operator {k : TokenKind} (operator : k ∈ TokenKind.operators) :
      Stretch m following (text k.spelling) (.token k (.text (text k.spelling)))
        (m.right (text k.spelling).length)

/-- Every piece is one of these. -/
theorem piece_stretch {c : Cursor} {p : Piece} (read : piece c = .ok (p, after))
    (some : c.rest ≠ []) :
    ∃ taken, c.rest = taken ++ after.rest ∧ Stretch c.mark after.rest taken p after.mark := by
  obtain ⟨rest, here⟩ := c
  unfold piece at read
  split at read
  · exact absurd ‹_› some
  · rename_i rest whole
    cases whole
    cases read
    exact ⟨_, rfl, .lineEnds⟩
  · rename_i r whole
    cases whole
    obtain ⟨rfl, moving⟩ := Prod.mk.inj (Except.ok.inj read)
    have begins : 47 :: 47 :: r.takeWhile Point.isRemark <+: 47 :: 47 :: r := by
      simp [List.takeWhile_prefix]
    obtain ⟨y, split, moved⟩ := right_prefix (c := ⟨47 :: 47 :: r, here⟩) begins
    have place : after = ⟨y, here.right (47 :: 47 :: r.takeWhile Point.isRemark).length⟩ := by
      rw [← moving, Nat.add_comm 2]
      exact moved
    have split' : r = r.takeWhile Point.isRemark ++ y :=
      (List.cons.inj (List.cons.inj split).2).2
    have taken := congrArg (List.takeWhile Point.isRemark) split'
    subst place
    exact ⟨_, split, .lineComment List.all_takeWhile (takeWhile_stop taken.symm).2⟩
  · rename_i r whole
    cases whole
    obtain ⟨⟨inner, newline, ⟨y, there⟩⟩, closed, made⟩ := bind_ok.mp read
    cases made
    obtain ⟨rfl, within⟩ : r = inner ++ 42 :: 47 :: y ∧ _ := commentRest_ok closed
    rw [commentRest_closed within] at closed
    cases closed
    exact ⟨47 :: 42 :: (inner ++ [42, 47]), by simp, .blockComment within⟩
  rename_i q r _ _ _ whole
  cases whole
  split at read
  · cases read
    exact ⟨[q], rfl, .blank ‹_›⟩
  split at read
  · cases read
    exact ⟨[q], rfl, .lineEnd ‹_›⟩
  split at read
  · obtain ⟨⟨value, after⟩, more, made⟩ := bind_ok.mp read
    cases made
    obtain ⟨x, _, rfl, _⟩ := stringRest_ok more
    exact ⟨q :: x, rfl, .string ‹_› more⟩
  split at read
  · rename_i starts
    obtain ⟨⟨value, after⟩, worth, made⟩ := bind_ok.mp read
    cases made
    obtain ⟨x, present, begins, rfl⟩ := number_takes worth (by
      rcases Bool.or_eq_true_iff.mp starts with digit | point
      · exact Bool.or_eq_true_iff.mpr (.inl digit)
      · exact Bool.or_eq_true_iff.mpr (.inr (Bool.and_eq_true_iff.mp point).1))
    obtain ⟨y, split, moved⟩ := right_prefix begins
    rw [moved] at worth ⊢
    refine ⟨x, split, .number present ?_⟩
    rw [← split]
    exact worth
  split at read
  · rename_i starts
    cases read
    obtain ⟨y, split, moved⟩ := right_prefix (c := ⟨q :: r, here⟩)
      (List.takeWhile_prefix continuesWord)
    rw [moved]
    exact ⟨_, split, .word (isWord_takeWhile starts)⟩
  split at read
  · rename_i kind found
    cases read
    have begins := List.find?_some found
    obtain ⟨y, split, moved⟩ := right_prefix (c := ⟨q :: r, here⟩)
      (List.isPrefixOf_iff_prefix.mp begins)
    rw [moved]
    exact ⟨_, split, .operator (List.mem_of_find?_eq_some found)⟩
  · cases read

theorem Stretch.ne_nil {p : Piece} (stretch : Stretch here r t p m) : t ≠ [] := by
  cases stretch with
  | word word =>
    rintro rfl
    cases word
  | operator operator =>
    obtain ⟨_, _, spelled, _⟩ := operator_first operator
    simp [spelled]
  | number some => exact some
  | _ => simp

theorem Stretch.offset {p : Piece} (stretch : Stretch here r t p m) :
    m.offset = here.offset + t.length := by
  cases stretch with
  | string _ read =>
    obtain ⟨x, _, split, offset⟩ := stringRest_ok read
    cases List.append_cancel_right split
    rw [offset, Mark.right, List.length_cons, Nat.add_assoc, Nat.add_comm 1]
  | blockComment =>
    simp only [Mark.right, Mark.past_offset, List.length_cons, List.length_append, List.length_nil]
    omega
  | _ => rfl

/-- Text between two tokens is taken as blanks, line ends and comments. -/
theorem Stretch.gap {newline : Bool} {comments : List Comment}
    (stretch : Stretch here r t (.gap newline comments) m) : Gap r t comments := by
  cases stretch with
  | blank blank => exact .blank blank .none
  | lineEnd ends => exact .lineEnd ends .none
  | lineEnds => exact .lineEnd rfl (.lineEnd rfl .none)
  | @lineComment inner within ends =>
    have gap := Gap.lineComment within (t := []) ends .none
    rwa [List.append_nil] at gap
  | blockComment within => exact .blockComment within .none

/-- Every piece takes some code points, and what a gap takes is blanks, line ends and comments. -/
theorem piece_takes {c : Cursor} {p : Piece} (read : piece c = .ok (p, after))
    (some : c.rest ≠ []) : ∃ taken, taken ≠ [] ∧ Takes c.rest c.mark taken after ∧
      ∀ newline comments, p = .gap newline comments → Gap after.rest taken comments := by
  obtain ⟨taken, split, stretch⟩ := piece_stretch read some
  refine ⟨taken, stretch.ne_nil, ⟨split, stretch.offset⟩, fun newline comments same => ?_⟩
  subst same
  exact stretch.gap

end Scan

namespace Text

variable {t taken rest : Text} {i j k : Nat}

theorem slice_self : t.slice i i = [] := by simp [slice]

theorem slice_append (first : i ≤ j) (drop : t.drop j = taken ++ rest) :
    t.slice i (j + taken.length) = t.slice i j ++ taken := by
  have split : j + taken.length - i = (j - i) + taken.length := by omega
  rw [slice, slice, split, List.take_add, List.drop_drop, Nat.add_sub_cancel' first, drop,
    List.take_left]

end Text

/-- A token stands in a source after a place: between them is a gap with the token's comments, and
the token's text is what stands in its place. -/
structure Token.Stands (source : Text) (before : Nat) (t : Token) : Prop where
  order : before ≤ t.start.offset
  gap : Gap (source.drop t.start.offset) (source.slice before t.start.offset) t.comments
  raw : t.raw = source.slice t.start.offset t.stop.offset

/-- Tokens stand in a source one after the other from a place on. The last one, and no other, is the
end of input, which is empty and stands at the end of the source. -/
inductive Covers (source : Text) : Nat → List Token → Prop
  | last {before : Nat} {t : Token} (stands : t.Stands source before)
      (kind : t.kind = .endOfInput) (start : t.start.offset = source.length)
      (stop : t.stop.offset = source.length) : Covers source before [t]
  | more {before : Nat} {t : Token} {rest : List Token} (stands : t.Stands source before)
      (kind : t.kind ≠ .endOfInput) (some : t.start.offset < t.stop.offset)
      (more : Covers source t.stop.offset rest) : Covers source before (t :: rest)

namespace Scan

structure Reached (source : Text) (before : Nat) (c : Cursor) (comments : List Comment) : Prop where
  rest : source.drop c.mark.offset = c.rest
  within : c.mark.offset ≤ source.length
  order : before ≤ c.mark.offset
  gap : Gap c.rest (source.slice before c.mark.offset) comments

variable {source : Text} {before : Nat} {c : Cursor} {comments : List Comment} {p : Piece}

theorem Reached.moved (reached : Reached source before c comments) {taken : Text}
    (takes : Takes c.rest c.mark taken after) : source.drop after.mark.offset = after.rest ∧
      after.mark.offset ≤ source.length := by
  obtain ⟨split, offset⟩ := takes
  have length : source.length = c.mark.offset + c.rest.length := by
    rw [← reached.rest, List.length_drop]
    have := reached.within
    omega
  constructor
  · rw [offset, ← List.drop_drop, reached.rest, split, List.drop_left]
  · rw [length, offset, split, List.length_append]
    omega

/-- A gap goes on. -/
theorem Reached.skip {newline : Bool} {more : List Comment}
    (reached : Reached source before c comments) (some : c.rest ≠ [])
    (read : piece c = .ok (.gap newline more, after)) :
    Reached source before after (comments ++ more) := by
  obtain ⟨taken, _, takes, gap⟩ := piece_takes read some
  obtain ⟨rest, within⟩ := reached.moved takes
  obtain ⟨split, offset⟩ := takes
  have dropped : source.drop c.mark.offset = taken ++ after.rest := reached.rest.trans split
  refine ⟨rest, within, ?_, ?_⟩
  · have := reached.order
    omega
  · rw [offset, Text.slice_append reached.order dropped]
    exact Gap.append (split ▸ reached.gap) (gap newline more rfl)

/-- A token is taken, and a new gap begins after it. -/
theorem Reached.take {kind : TokenKind} {value : Value} {newline : Bool}
    (reached : Reached source before c comments) (some : c.rest ≠ [])
    (read : piece c = .ok (.token kind value, after)) :
    (tokenAt c after ⟨newline, comments⟩ kind value).Stands source before ∧
      c.mark.offset < after.mark.offset ∧ Reached source after.mark.offset after [] := by
  obtain ⟨taken, nonempty, takes, _⟩ := piece_takes read some
  obtain ⟨rest, within⟩ := reached.moved takes
  obtain ⟨split, offset⟩ := takes
  have dropped : source.drop c.mark.offset = taken ++ after.rest := reached.rest.trans split
  have length := List.length_pos_iff.mpr nonempty
  refine ⟨⟨reached.order, ?_, ?_⟩, by omega, ⟨rest, within, Nat.le_refl _, ?_⟩⟩
  · simpa only [tokenAt, reached.rest] using reached.gap
  · simp only [tokenAt, Text.slice, reached.rest]
  · rw [Text.slice_self]
    exact .none

/-- The end of input stands at the end. -/
theorem Reached.last {newline : Bool} (reached : Reached source before c comments)
    (none : c.rest = []) :
    Covers source before [tokenAt c c ⟨newline, comments⟩ .endOfInput .null] := by
  have length : c.mark.offset = source.length := by
    have dropped := reached.rest
    rw [none, List.drop_eq_nil_iff] at dropped
    exact Nat.le_antisymm reached.within dropped
  refine .last ⟨reached.order, ?_, ?_⟩ rfl length length
  · simpa only [tokenAt, reached.rest] using reached.gap
  · simp only [tokenAt, Text.slice, reached.rest]

theorem piece_shorter (some : c.rest ≠ []) (read : piece c = .ok (p, after)) :
    after.rest.length < c.rest.length := by
  obtain ⟨taken, present, ⟨split, _⟩, _⟩ := piece_takes read some
  have := List.length_pos_iff.mpr present
  rw [split, List.length_append]
  omega

/-- The scan from a place on, piece by piece, with the tokens that it makes. -/
inductive Runs : Cursor → Pending → List Token → Prop
  | last {m : Mark} {pending : Pending} :
      Runs ⟨[], m⟩ pending [tokenAt ⟨[], m⟩ ⟨[], m⟩ pending .endOfInput .null]
  | gap {c after : Cursor} {pending : Pending} {newline : Bool} {comments : List Comment}
      {tokens : List Token} (some : c.rest ≠ [])
      (read : piece c = .ok (.gap newline comments, after))
      (rest : Runs after ⟨pending.newline || newline, pending.comments ++ comments⟩ tokens) :
      Runs c pending tokens
  | token {c after : Cursor} {pending : Pending} {kind : TokenKind} {value : Value}
      {tokens : List Token} (some : c.rest ≠ [])
      (read : piece c = .ok (.token kind value, after)) (rest : Runs after {} tokens) :
      Runs c pending (tokenAt c after pending kind value :: tokens)

variable {pending : Pending} {tokens : List Token}

theorem tokensFrom_runs {steps : Nat} (enough : c.rest.length ≤ steps)
    (scan : tokensFrom steps c pending = .ok tokens) : Runs c pending tokens := by
  induction steps generalizing c pending tokens with
  | zero =>
    obtain ⟨rest, m⟩ := c
    cases List.length_eq_zero_iff.mp (Nat.le_zero.mp enough)
    cases scan
    exact .last
  | succ steps ih =>
    unfold tokensFrom at scan
    split at scan
    · rename_i none
      obtain ⟨rest, m⟩ := c
      cases List.isEmpty_iff.mp none
      cases scan
      exact .last
    · rename_i some
      have some : c.rest ≠ [] := fun none => some (List.isEmpty_iff.mpr none)
      split at scan
      · cases scan
      · rename_i read
        have := piece_shorter some read
        exact .gap some read (ih (by omega) scan)
      · rename_i read
        have := piece_shorter some read
        split at scan
        · cases scan
        · cases scan
          exact .token some read (ih (by omega) ‹_›)

/-- The scan covers what is left of a source. -/
theorem Runs.covers (runs : Runs c pending tokens)
    (reached : Reached source before c pending.comments) : Covers source before tokens := by
  induction runs generalizing before with
  | last => exact reached.last rfl
  | gap some read _ ih => exact ih (reached.skip some read)
  | token some read _ ih =>
    obtain ⟨stands, moved, fresh⟩ := reached.take some read
    have noPending : ∀ x ∈ ({} : Pending).comments, x.legible ∧ x.leading :=
      List.forall_mem_nil _
    exact .more stands (piece_faithful read noPending).2 moved (ih fresh)

theorem Runs.covers_source (runs : Runs ⟨source, Mark.first⟩ {} tokens) : Covers source 0 tokens :=
  runs.covers ⟨rfl, Nat.zero_le _, Nat.le_refl _, .none⟩

end Scan

theorem tokenize_runs {source : Text} {tokens : List Token} (scan : tokenize source = .ok tokens) :
    Scan.Runs ⟨source, Mark.first⟩ {} tokens :=
  Scan.tokensFrom_runs (Nat.le_refl _) scan

/-- The tokens of a source lose nothing of it. -/
theorem tokenize_lossless {source : Text} {tokens : List Token}
    (scan : tokenize source = .ok tokens) : Covers source 0 tokens :=
  (tokenize_runs scan).covers_source

/-- Comments of both sorts, a line end in an escape, and a comment that the input ends. -/
theorem tokenize_lossless_comments :
    let source := text "/* a\n */ x = '\\\n\\u\x7b41\x7d' // b\r\n;// c"
    ∃ tokens, tokenize source = .ok tokens ∧ tokens.length = 5 ∧ Covers source 0 tokens := by
  intro source
  have count : (tokenize source).toOption.any (·.length == 5) = true := by decide +kernel
  cases scan : tokenize source with
  | error e => rw [scan] at count; cases count
  | ok tokens =>
    rw [scan] at count
    exact ⟨tokens, rfl, beq_iff_eq.mp count, tokenize_lossless scan⟩

end ScriptTree
