import ScriptTree.Proofs.Token.Locality

/-!
How a source is cut into tokens, apart from the places of the tokens and from comments. Blanks and
comments before a token leave the cuts as they are.
-/
namespace ScriptTree

structure Cut where
  kind : TokenKind
  value : Value
  raw : Text
  newlineBefore : Bool

def Token.cut (t : Token) : Cut := ⟨t.kind, t.value, t.raw, t.newlineBefore⟩

namespace Scan

/-- A text is a piece before another text, wherever it begins. -/
def Front (x y : Text) (p : Piece) : Prop :=
  x ≠ [] ∧ ∀ m, ∃ n, piece ⟨x ++ y, m⟩ = .ok (p, ⟨y, n⟩)

/-- A text is cut in a way, with or without a line end before it. -/
inductive Cuts : Text → Bool → List Cut → Prop
  | last {line : Bool} : Cuts [] line [⟨.endOfInput, .null, [], line⟩]
  | gap {x y : Text} {line newline : Bool} {comments : List Comment} {cuts : List Cut}
      (front : Front x y (.gap newline comments)) (rest : Cuts y (line || newline) cuts) :
      Cuts (x ++ y) line cuts
  | token {x y : Text} {line : Bool} {kind : TokenKind} {value : Value} {cuts : List Cut}
      (front : Front x y (.token kind value)) (rest : Cuts y false cuts) :
      Cuts (x ++ y) line (⟨kind, value, x, line⟩ :: cuts)

variable {x y z t : Text} {made : Piece} {c after : Cursor} {cuts : List Cut} {line : Bool}
  {pending : Pending} {tokens : List Token} {steps : Nat}

theorem Front.follows (front : Front x y made) (follows : Follows x y z) : Front x z made := by
  refine ⟨front.1, fun m => ?_⟩
  obtain ⟨n, read⟩ := front.2 m
  exact piece_follows front.1 read follows

/-- What the scan takes is a piece before what is left. -/
theorem front_of_piece (read : piece c = .ok (made, after)) (some : c.rest ≠ []) :
    ∃ x, Takes c.rest c.mark x after ∧ Front x after.rest made := by
  obtain ⟨x, present, takes, _⟩ := piece_takes read some
  refine ⟨x, takes, present, fun m => ?_⟩
  obtain ⟨rest, mark⟩ := c
  cases takes.1
  exact piece_follows present read .refl

/-- A piece is taken whole. -/
theorem Front.takes (front : Front x y made) (m : Mark) :
    ∃ n, piece ⟨x ++ y, m⟩ = .ok (made, ⟨y, n⟩) ∧ n.offset = m.offset + x.length := by
  obtain ⟨n, read⟩ := front.2 m
  obtain ⟨taken, _, takes, _⟩ := piece_takes read (by simp [front.1])
  cases List.append_cancel_right takes.1
  exact ⟨n, read, takes.2⟩

theorem Takes.cut {kind : TokenKind} {value : Value} (takes : Takes c.rest c.mark x after) :
    (tokenAt c after pending kind value).cut = ⟨kind, value, x, pending.newline⟩ := by
  obtain ⟨split, offset⟩ := takes
  simp only [Token.cut, tokenAt, offset, Nat.add_sub_cancel_left, split, List.take_left]

inductive Scans : Cursor → Pending → List Token → Prop
  | last {m : Mark} {pending : Pending} :
      Scans ⟨[], m⟩ pending [tokenAt ⟨[], m⟩ ⟨[], m⟩ pending .endOfInput .null]
  | gap {c after : Cursor} {x : Text} {pending : Pending} {newline : Bool}
      {comments : List Comment} {tokens : List Token}
      (front : Front x after.rest (.gap newline comments)) (takes : Takes c.rest c.mark x after)
      (rest : Scans after ⟨pending.newline || newline, pending.comments ++ comments⟩ tokens) :
      Scans c pending tokens
  | token {c after : Cursor} {x : Text} {pending : Pending} {kind : TokenKind} {value : Value}
      {tokens : List Token}
      (front : Front x after.rest (.token kind value)) (takes : Takes c.rest c.mark x after)
      (rest : Scans after {} tokens) :
      Scans c pending (tokenAt c after pending kind value :: tokens)

theorem Runs.scans (runs : Runs c pending tokens) : Scans c pending tokens := by
  induction runs with
  | last => exact .last
  | gap some read _ ih =>
    obtain ⟨x, takes, front⟩ := front_of_piece read some
    exact .gap front takes ih
  | token some read _ ih =>
    obtain ⟨x, takes, front⟩ := front_of_piece read some
    exact .token front takes ih

theorem Scans.cut (scans : Scans c pending tokens) :
    Cuts c.rest pending.newline (tokens.map Token.cut) := by
  induction scans with
  | @last m pending =>
    have cut : (tokenAt ⟨[], m⟩ ⟨[], m⟩ pending .endOfInput .null).cut =
        ⟨.endOfInput, .null, [], pending.newline⟩ := Takes.cut ⟨rfl, rfl⟩
    rw [List.map_singleton, cut]
    exact .last
  | gap front takes _ ih =>
    rw [takes.1]
    exact .gap front ih
  | token front takes _ ih =>
    rw [List.map_cons, takes.cut, takes.1]
    exact .token front ih

/-- A text that is cut in a way is scanned so, wherever it begins. -/
theorem Cuts.tokensFrom (cut : Cuts t line cuts) (m : Mark) (steps : Nat) (pending : Pending)
    (enough : t.length ≤ steps) (same : pending.newline = line) :
    ∃ tokens, tokensFrom steps ⟨t, m⟩ pending = .ok tokens ∧ tokens.map Token.cut = cuts := by
  induction cut generalizing m steps pending with
  | last =>
    have cut : (tokenAt ⟨[], m⟩ ⟨[], m⟩ pending .endOfInput .null).cut = _ :=
      Takes.cut (x := []) ⟨rfl, rfl⟩
    subst same
    refine ⟨[tokenAt ⟨[], m⟩ ⟨[], m⟩ pending .endOfInput .null], ?_, ?_⟩
    · cases steps <;> rfl
    · rw [List.map_singleton, cut]
  | @gap x y line newline comments cuts front _ ih =>
    obtain ⟨n, read, _⟩ := front.takes m
    have length := List.length_pos_iff.mpr front.1
    rw [List.length_append] at enough
    obtain ⟨steps, rfl⟩ : ∃ k, steps = k + 1 := ⟨steps - 1, by omega⟩
    obtain ⟨tokens, scan, made⟩ := ih n steps
      ⟨pending.newline || newline, pending.comments ++ comments⟩ (by omega) (by rw [same])
    refine ⟨tokens, ?_, made⟩
    rw [Scan.tokensFrom, if_neg (by simp [front.1]), read]
    exact scan
  | @token x y line kind value cuts front _ ih =>
    obtain ⟨n, read, offset⟩ := front.takes m
    have length := List.length_pos_iff.mpr front.1
    rw [List.length_append] at enough
    obtain ⟨steps, rfl⟩ : ∃ k, steps = k + 1 := ⟨steps - 1, by omega⟩
    obtain ⟨tokens, scan, made⟩ := ih n steps {} (by omega) rfl
    refine ⟨tokenAt ⟨x ++ y, m⟩ ⟨y, n⟩ pending kind value :: tokens, ?_, ?_⟩
    · rw [Scan.tokensFrom, if_neg (by simp [front.1]), read]
      simp only [scan]
    · rw [List.map_cons, Takes.cut ⟨rfl, offset⟩, made, same]

section Spaces

theorem front_blank {p : Point} (blank : p = 32 ∨ p = 9) : Front [p] y (.gap false []) := by
  refine ⟨by simp, fun m => ⟨m.right 1, ?_⟩⟩
  rcases blank with rfl | rfl
  · exact piece_blank
  · rw [List.singleton_append, piece_cons (by decide) (.inl (by decide))]
    rfl

theorem front_blockComment {inner : Text} (within : closesComment inner = false) :
    Front (text "/*" ++ inner ++ text "*/") y
      (.gap (inner.contains Point.lineFeed) [⟨inner, true, true⟩]) :=
  ⟨by simp [text], fun _ => ⟨_, piece_blockComment within⟩⟩

theorem front_remark {inner : Text} (within : inner.all Point.isRemark)
    (stop : ∀ q ∈ y.head?, q.isRemark = false) :
    Front (47 :: 47 :: inner) y (.gap false [⟨inner, false, true⟩]) :=
  ⟨by simp, fun _ => ⟨_, piece_remark within stop⟩⟩

/-- A piece that begins as a comment up to the end of its line is one. -/
theorem Front.remark {inner : Text} (front : Front (47 :: 47 :: inner) y made) :
    inner.all Point.isRemark ∧ (∀ q ∈ y.head?, q.isRemark = false) ∧
      made = .gap false [⟨inner, false, true⟩] := by
  obtain ⟨n, read⟩ := front.2 Mark.first
  have read : Except.ok (Piece.gap false [⟨(inner ++ y).takeWhile Point.isRemark, false, true⟩],
    (⟨47 :: 47 :: (inner ++ y), Mark.first⟩ : Cursor).right
      (2 + ((inner ++ y).takeWhile Point.isRemark).length)) = Except.ok (made, ⟨y, n⟩) := read
  simp only [Except.ok.injEq, Prod.mk.injEq, Cursor.right, Cursor.mk.injEq, Nat.add_comm 2,
    List.drop_succ_cons] at read
  obtain ⟨rfl, moved, _⟩ := read
  have taken := taken_of_drop (List.takeWhile_prefix Point.isRemark) moved
  obtain ⟨within, stop⟩ := takeWhile_stop taken
  rw [taken]
  exact ⟨within, stop, rfl⟩

/-- A token begins with no code point that ends a comment before it. -/
theorem Front.first {kind : TokenKind} {value : Value} (front : Front x y (.token kind value)) :
    ∀ q ∈ (x ++ y).head?, q.isRemark := by
  intro q first
  obtain ⟨t, whole⟩ := List.head?_eq_some_iff.mp first
  obtain ⟨n, read⟩ := front.2 Mark.first
  rw [whole] at read
  cases remark : q.isRemark with
  | true => rfl
  | false =>
    simp only [Point.isRemark, Bool.and_eq_false_iff, bne_eq_false_iff_eq] at remark
    rcases remark with (rfl | rfl) | rfl
    · rw [piece_lineFeed] at read
      cases read
    · by_cases pair : Point.lineFeed ∈ t.head?
      · obtain ⟨t, rfl⟩ := List.head?_eq_some_iff.mp pair
        cases read
      · rw [piece_carriageReturn fun q first same => pair (same ▸ first)] at read
        cases read
    · cases read

theorem Front.apart {kind : TokenKind} {value : Value} {q : Point}
    (front : Front x y (.token kind value)) : goesOn x q = false :=
  have ⟨_, read⟩ := front.2 Mark.first
  token_apart read (List.prefix_append x y)

/-- What may be put before a token: blanks, or a comment of one line between two of them. -/
inductive Spacing : Text → Prop
  | blanks {t : Text} (some : t ≠ []) (all : ∀ p ∈ t, p = 32 ∨ p = 9) : Spacing t
  | comment {inner : Text} (flat : ∀ p ∈ inner, p.isRemark)
      (within : closesComment inner = false) :
      Spacing (text " /*" ++ inner ++ text "*/ ")

theorem Spacing.cut (spacing : Spacing x) (cut : Cuts t line cuts) : Cuts (x ++ t) line cuts := by
  cases spacing with
  | blanks some all =>
    clear some
    induction x with
    | nil => exact cut
    | cons p x ih =>
      obtain ⟨first, rest⟩ := List.forall_mem_cons.mp all
      have more := ih rest
      rw [← Bool.or_false line] at more
      exact .gap (x := [p]) (front_blank first) more
  | @comment inner flat within =>
    have newline : inner.contains Point.lineFeed = false := by
      rw [Bool.eq_false_iff, ne_eq, List.contains_iff_mem]
      intro mem
      cases flat _ mem
    have last := Cuts.gap (x := [32]) (front_blank (.inl rfl))
      (by rwa [Bool.or_false])
    have middle := Cuts.gap (front_blockComment within)
      (by rw [newline, Bool.or_false]; exact last)
    have first := Cuts.gap (x := [32]) (front_blank (.inl rfl))
      (by rw [Bool.or_false]; exact middle)
    simpa [text] using first

theorem Spacing.first (spacing : Spacing x) : ∃ p r, x = p :: r ∧ (p = 32 ∨ p = 9) := by
  cases spacing with
  | blanks some all =>
    obtain ⟨p, r, rfl⟩ := List.exists_cons_of_ne_nil some
    exact ⟨p, r, rfl, all p List.mem_cons_self⟩
  | comment => exact ⟨_, _, rfl, .inl rfl⟩

theorem Spacing.remark (spacing : Spacing x) : x.all Point.isRemark := by
  rw [List.all_eq_true]
  cases spacing with
  | blanks _ all =>
    intro p mem
    rcases all p mem with rfl | rfl <;> rfl
  | @comment inner flat within =>
    intro p mem
    rcases List.mem_append.mp mem with front | close
    · rcases List.mem_append.mp front with opening | inside
      · exact List.all_eq_true.mp (by decide : (text " /*").all Point.isRemark) p opening
      · exact flat p inside
    · exact List.all_eq_true.mp (by decide : (text "*/ ").all Point.isRemark) p close

theorem Spacing.follows {k : Nat} (spacing : Spacing z)
    (apart : y.take k = [] → ∀ p, p = 32 ∨ p = 9 → goesOn x p = false) :
    Follows x y (y.take k ++ z ++ y.drop k) := by
  intro q first
  cases taken : y.take k with
  | nil =>
    obtain ⟨p, r, rfl, blank⟩ := spacing.first
    rw [taken] at first
    obtain rfl : p = q := Option.some.inj first
    have ends : isBreak p := by rcases blank with rfl | rfl <;> rfl
    exact .inr ⟨ends, apart taken p blank⟩
  | cons p r =>
    rw [taken] at first
    cases first
    have front := List.take_prefix k y
    rw [taken] at front
    obtain ⟨rest, rfl⟩ := front
    exact .inl rfl

/-- Every token begins where the scan stands or further on. -/
theorem Scans.start_le (scans : Scans c pending tokens) {u : Token} (mem : u ∈ tokens) :
    c.mark.offset ≤ u.start.offset := by
  induction scans with
  | last =>
    cases List.mem_singleton.mp mem
    exact Nat.le_refl _
  | gap _ takes _ ih =>
    have := takes.2
    have := ih mem
    omega
  | token _ takes _ ih =>
    rcases List.mem_cons.mp mem with rfl | later
    · exact Nat.le_refl _
    · have := takes.2
      have := ih later
      omega

/-- No code point that ends a comment stands where a token begins. -/
theorem Scans.first (scans : Scans c pending tokens) {u : Token} (mem : u ∈ tokens)
    (start : u.start.offset = c.mark.offset) : ∀ q ∈ c.rest.head?, q.isRemark := by
  cases scans with
  | last => nofun
  | gap front takes rest =>
    have := List.length_pos_iff.mpr front.1
    have := takes.2
    have := rest.start_le mem
    omega
  | token front takes _ =>
    rw [takes.1]
    exact front.first

/-- What may be put before a token leaves the cuts as they are. -/
theorem Scans.insert (scans : Scans c pending tokens) {u : Token} (mem : u ∈ tokens)
    (spacing : Spacing x) : ∃ k, u.start.offset = c.mark.offset + k ∧
      Cuts (c.rest.take k ++ x ++ c.rest.drop k) pending.newline (tokens.map Token.cut) := by
  induction scans with
  | @last m pending =>
    cases List.mem_singleton.mp mem
    exact ⟨0, rfl, spacing.cut (Scans.last (m := m)).cut⟩
  | @gap c after w pending newline comments tokens front takes rest ih =>
    obtain ⟨k, place, cut⟩ := ih mem
    refine ⟨w.length + k, ?_, ?_⟩
    · rw [place, takes.2, Nat.add_assoc]
    rw [takes.1, List.take_length_add_append, List.drop_length_add_append, List.append_assoc,
      List.append_assoc, ← List.append_assoc (after.rest.take k)]
    by_cases remark : [47, 47] <+: w ∧ after.rest.take k = []
    · -- a comment up to the end of the source takes in what is put after it
      obtain ⟨⟨inner, rfl⟩, none⟩ := remark
      change Front (47 :: 47 :: inner) after.rest _ at front
      obtain ⟨within, stop, made⟩ := Front.remark front
      cases made
      have last : after.rest = [] := by
        cases left : after.rest with
        | nil => rfl
        | cons q r =>
          have zero : k = 0 := by
            rw [left] at none
            exact (List.take_eq_nil_iff.mp none).resolve_right (by simp)
          rw [zero, Nat.add_zero] at place
          have goes := rest.first mem place q (by rw [left]; rfl)
          rw [stop q (by rw [left]; rfl)] at goes
          cases goes
      have cut := rest.cut
      rw [last] at cut ⊢
      have more : (inner ++ x).all Point.isRemark := by
        rw [List.all_append, within, spacing.remark]
        rfl
      have whole := Cuts.gap (front_remark (y := []) more nofun) cut
      simpa using whole
    · refine .gap (front.follows (spacing.follows fun none p blank => ?_)) cut
      have other : ¬[47, 47] <+: w := fun slashes => remark ⟨slashes, none⟩
      rw [← List.isPrefixOf_iff_prefix] at other
      have line : p ≠ Point.lineFeed := by rcases blank with rfl | rfl <;> decide
      simp [goesOn, other, line]
  | @token c after w pending kind value tokens front takes rest ih =>
    rcases List.mem_cons.mp mem with rfl | later
    · exact ⟨0, rfl, spacing.cut (Scans.token front takes rest).cut⟩
    · obtain ⟨k, place, cut⟩ := ih later
      refine ⟨w.length + k, ?_, ?_⟩
      · rw [place, takes.2, Nat.add_assoc]
      rw [takes.1, List.take_length_add_append, List.drop_length_add_append, List.append_assoc,
        List.append_assoc, ← List.append_assoc (after.rest.take k), List.map_cons, takes.cut]
      exact .token (front.follows (spacing.follows fun _ _ _ => front.apart)) cut

end Spaces

end Scan

/-- A source is scanned as it is cut. -/
theorem tokenize_scans {source : Text} {tokens : List Token} (scan : tokenize source = .ok tokens) :
    Scan.Scans ⟨source, Mark.first⟩ {} tokens :=
  (tokenize_runs scan).scans

theorem tokenize_cuts {source : Text} {cuts : List Cut} :
    Scan.Cuts source false cuts ↔
      ∃ tokens, tokenize source = .ok tokens ∧ tokens.map Token.cut = cuts := by
  constructor
  · intro cut
    exact cut.tokensFrom _ _ _ (Nat.le_refl _) rfl
  · rintro ⟨tokens, scan, rfl⟩
    exact (tokenize_scans scan).cut

/-- What may be put before a token of a source leaves the cuts of the source as they are. -/
theorem tokenize_insert {source spacing : Text} {tokens : List Token} {t : Token}
    (scan : tokenize source = .ok tokens) (mem : t ∈ tokens) (spaces : Scan.Spacing spacing) :
    ∃ others, tokenize (source.take t.start.offset ++ spacing ++ source.drop t.start.offset) =
      .ok others ∧ others.map Token.cut = tokens.map Token.cut := by
  obtain ⟨k, place, cut⟩ := (tokenize_scans scan).insert mem spaces
  rw [place, show Mark.first.offset = 0 from rfl, Nat.zero_add]
  exact tokenize_cuts.1 cut

end ScriptTree
