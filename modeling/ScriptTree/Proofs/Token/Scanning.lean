import ScriptTree.Print.Literal
import ScriptTree.Proofs.Token.Faithful

/-!
What the scan takes from the front of a text, class by class: a word, an operator, a number in
decimal, a quoted string and a comment are each taken whole if the text after them does not go on.
-/
namespace ScriptTree

namespace Ranges

variable {a : Point × Point} {r s above : Ranges} {c : Point} {n m : Nat}

/-- Whether the ranges of a table begin one after another, the first of them from a point on. -/
def ascend (least : Nat) : Ranges → Bool
  | [] => true
  | a :: r => Nat.ble least a.1 && ascend a.1 r

/-- What an ascending table has above a range, unless one of its own ranges meets that range. -/
def above? (a : Point × Point) : Ranges → Option Ranges
  | [] => some []
  | b :: s =>
    if Nat.blt b.2 a.1 then above? a s
    else if Nat.blt a.2 b.1 then some (b :: s)
    else none

/-- Whether two ascending tables have nothing in common, by one pass over both. -/
def apart : Ranges → Ranges → Bool
  | [], _ => true
  | a :: r, s =>
    match s.above? a with
    | none => false
    | some above => apart r above

theorem has_cons : Ranges.has (a :: r) c ↔ (a.1 ≤ c ∧ c ≤ a.2) ∨ r.has c := by
  simp [has]

theorem le_of_ascend (up : r.ascend n) (mem : r.has c) : n ≤ c := by
  induction r generalizing n with
  | nil => cases mem
  | cons a r ih =>
    simp only [ascend, Bool.and_eq_true, Nat.ble_eq] at up
    rcases has_cons.1 mem with ⟨low, _⟩ | mem
    · exact Nat.le_trans up.1 low
    · exact Nat.le_trans up.1 (ih up.2 mem)

theorem above?_has (found : s.above? a = some above) (up : s.ascend n) (mem : s.has c)
    (reached : a.1 ≤ c) : a.2 < c ∧ above.has c ∧ ∃ m, above.ascend m := by
  induction s generalizing n with
  | nil => cases mem
  | cons b s ih =>
    simp only [ascend, Bool.and_eq_true] at up
    simp only [above?, Nat.blt_eq] at found
    split at found
    · rename_i below
      rcases has_cons.1 mem with ⟨_, high⟩ | mem
      · exact absurd (Nat.le_trans reached high) (Nat.not_le.2 below)
      · exact ih found up.2 mem
    · split at found
      · rename_i beyond
        cases found
        have whole : ascend b.1 (b :: s) := by simp [ascend, up.2]
        exact ⟨Nat.lt_of_lt_of_le beyond (le_of_ascend whole mem), mem, _, whole⟩
      · cases found

theorem apart_has (apart : r.apart s) (up : r.ascend n) (up' : s.ascend m) (first : r.has c)
    (second : s.has c) : False := by
  induction r generalizing s n m with
  | nil => cases first
  | cons a r ih =>
    simp only [ascend, Bool.and_eq_true] at up
    rw [Ranges.apart] at apart
    split at apart
    · cases apart
    · rename_i above found
      have reached : a.1 ≤ c := le_of_ascend (n := a.1) (by simp [ascend, up.2]) first
      obtain ⟨beyond, mem, _, rest⟩ := above?_has found up' second reached
      rcases has_cons.1 first with ⟨_, high⟩ | first
      · exact absurd high (Nat.not_le.2 beyond)
      · exact ih apart up.2 rest first mem

end Ranges

namespace Point

def widerDigits : Ranges := (zeros.drop 1).map fun z => (z, z + 9)

theorem decimalValue?_wider {c : Point} (wide : ¬c < 128) (digit : (decimalValue? c).isSome) :
    widerDigits.has c := by
  rw [decimalValue?, if_neg wide, Option.isSome_map] at digit
  obtain ⟨z, found⟩ := Option.isSome_iff_exists.mp digit
  have inside := List.find?_some found
  have mem := List.mem_of_find?_eq_some found
  simp only [Bool.and_eq_true, decide_eq_true_eq] at inside
  refine List.any_eq_true.mpr ⟨(z, z + 9), List.mem_map.mpr ⟨z, ?_, rfl⟩, ?_⟩
  · rcases List.mem_cons.mp (show z ∈ 48 :: zeros.drop 1 from mem) with rfl | mem
    · grind
    · exact mem
  · simp only [Bool.and_eq_true, decide_eq_true_eq]
    grind

theorem letters_ascend : letters.ascend 128 := by decide +kernel

theorem otherDigits_ascend : otherDigits.ascend 128 := by decide

/-- No letter is a digit. -/
theorem letter_not_digit {c : Point} (letter : isLetter c) : isDigit c = false := by
  rw [Bool.eq_false_iff]
  intro digit
  rcases (Bool.or_eq_true _ _).mp digit with decimal | other
  · by_cases low : c < 128
    · rw [isLetter, if_pos low] at letter
      rw [decimalValue?, if_pos low] at decimal
      split at decimal
      · simp only [Bool.or_eq_true, Bool.and_eq_true, decide_eq_true_eq] at letter
        grind
      · cases decimal
    · rw [isLetter, if_neg low] at letter
      exact Ranges.apart_has (by decide +kernel : letters.apart widerDigits) letters_ascend
        (by decide : widerDigits.ascend 128) letter (decimalValue?_wider low decimal)
  · by_cases low : c < 128
    · exact absurd (Ranges.le_of_ascend otherDigits_ascend other) (Nat.not_le.2 low)
    · rw [isLetter, if_neg low] at letter
      exact Ranges.apart_has (by decide +kernel : letters.apart otherDigits) letters_ascend
        otherDigits_ascend letter other

end Point

namespace Mark

def past (m : Mark) (t : Text) : Mark :=
  t.foldl (fun m c => if c = Point.lineFeed then m.nextLine 1 else m.right 1) m

variable {m : Mark} {t u : Text}

theorem past_append : m.past (t ++ u) = (m.past t).past u := List.foldl_append

theorem right_right {i j : Nat} : (m.right i).right j = m.right (i + j) := by
  simp [Mark.right, Nat.add_assoc]

/-- A text without line feeds stays on its line. -/
theorem past_flat (flat : ∀ p ∈ t, p ≠ Point.lineFeed) : m.past t = m.right t.length := by
  induction t generalizing m with
  | nil => rfl
  | cons p t ih =>
    rw [past, List.foldl_cons, if_neg (flat p List.mem_cons_self)]
    change (m.right 1).past t = _
    rw [ih fun q mem => flat q (List.mem_cons_of_mem p mem), right_right, Nat.add_comm]
    rfl

theorem past_offset : (m.past t).offset = m.offset + t.length := by
  induction t generalizing m with
  | nil => rfl
  | cons p t ih =>
    change ((if p = Point.lineFeed then m.nextLine 1 else m.right 1).past t).offset = _
    rw [ih]
    split <;> simp [nextLine, right] <;> omega

end Mark

namespace Scan

open Mark

variable {c p : Point} {t w rest : Text} {m : Mark} {k : TokenKind}

/-- A first point that begins neither a line end of two points nor a comment. -/
theorem piece_cons (line : p ≠ 13) (comment : p ≠ 47 ∨ ∀ q ∈ rest.head?, q ≠ 47 ∧ q ≠ 42) :
    piece ⟨p :: rest, m⟩ =
      if isGap p then .ok (.gap false [], ⟨rest, m.right 1⟩)
      else if p.isLineEnd then .ok (.gap true [], ⟨rest, m.nextLine 1⟩)
      else if p = Point.doubleQuote ∨ p = Point.apostrophe then do
        let (value, after) ← stringRest p m (m.right 1) rest
        return (.token .string (.text value), after)
      else if p.isDigit || (p == 46 && headIs rest Point.isDigit) then do
        let (value, after) ← number ⟨p :: rest, m⟩
        return (.token .number value, after)
      else if startsWord p then
        let word := (p :: rest).takeWhile continuesWord
        .ok (.token ((TokenKind.keyword? word).getD .ident) (.text word),
          ⟨(p :: rest).drop word.length, m.right word.length⟩)
      else
        match TokenKind.operator? (p :: rest) with
        | some kind =>
          let spelled := text kind.spelling
          .ok (.token kind (.text spelled),
            ⟨(p :: rest).drop spelled.length, m.right spelled.length⟩)
        | none => fail (.unexpected p) m := by
  unfold piece
  split
  · rename_i same
    cases same
  · rename_i same
    cases same
    exact absurd rfl line
  · rename_i same
    cases same
    rcases comment with other | other
    · exact absurd rfl other
    · exact absurd rfl (other 47 rfl).1
  · rename_i same
    cases same
    rcases comment with other | other
    · exact absurd rfl other
    · exact absurd rfl (other 42 rfl).2
  · rename_i same
    cases same
    rfl

theorem piece_blank : piece ⟨32 :: rest, m⟩ = .ok (.gap false [], ⟨rest, m.right 1⟩) := by
  rw [piece_cons (by decide) (.inl (by decide))]
  rfl

theorem piece_lineFeed : piece ⟨10 :: rest, m⟩ = .ok (.gap true [], ⟨rest, m.nextLine 1⟩) := by
  rw [piece_cons (by decide) (.inl (by decide))]
  rfl

/-- What starts a word starts nothing else. -/
theorem startsWord_only (starts : startsWord p) :
    p ≠ 13 ∧ p ≠ 47 ∧ isGap p = false ∧ p.isLineEnd = false ∧
      ¬(p = Point.doubleQuote ∨ p = Point.apostrophe) ∧ p.isDigit = false ∧ p ≠ 46 := by
  have other : ∀ q ∈ [13, 47, 32, 9, 0xFEFF, 0xA0, 10, 0x2028, 0x2029, 34, 39, 46], p ≠ q := by
    intro q mem same
    subst same
    have none : ([13, 47, 32, 9, 0xFEFF, 0xA0, 10, 0x2028, 0x2029, 34, 39, 46].all fun q =>
      !startsWord q) = true := by decide +kernel
    have := List.all_eq_true.mp none p mem
    simp [starts] at this
  have digit : p.isDigit = false := by
    simp only [startsWord, Bool.or_eq_true, beq_iff_eq] at starts
    rcases starts with (letter | rfl) | rfl
    · exact Point.letter_not_digit letter
    · decide
    · decide
  simp only [List.mem_cons, List.not_mem_nil, or_false, forall_eq_or_imp, forall_eq] at other
  obtain ⟨h13, h47, h32, h9, hBom, hNbsp, h10, h2028, h2029, h34, h39, h46⟩ := other
  refine ⟨h13, h47, ?_, ?_, ?_, digit, h46⟩
  · simp [isGap, h32, h9, hBom, hNbsp]
  · simp [Point.isLineEnd, h10, h13, h2028, h2029]
  · simp [h34, h39]

theorem takeWhile_append {q : Point → Bool} (all : t.all q)
    (stop : ∀ p ∈ rest.head?, q p = false) : (t ++ rest).takeWhile q = t := by
  rw [List.takeWhile_append_of_pos (List.all_eq_true.mp all)]
  cases rest with
  | nil => rw [List.takeWhile_nil, List.append_nil]
  | cons p rest => rw [List.takeWhile_cons_of_neg (by simp [stop p rfl]), List.append_nil]

/-- What is taken stops before a code point out of its class. -/
theorem takeWhile_stop {x y : Text} {c : Point → Bool} (taken : (x ++ y).takeWhile c = x) :
    x.all c ∧ ∀ q ∈ y.head?, c q = false := by
  have all : x.all c := by
    rw [← taken]
    exact List.all_takeWhile
  refine ⟨all, fun q first => ?_⟩
  obtain ⟨y, rfl⟩ := List.head?_eq_some_iff.mp first
  rw [List.takeWhile_append_of_pos (List.all_eq_true.mp all), List.takeWhile_cons] at taken
  split at taken
  · exact absurd (List.append_right_eq_self.mp taken) (by simp)
  · exact Bool.eq_false_iff.mpr ‹_›

theorem isWord_all (word : isWord w) : w.all continuesWord := by
  cases w with
  | nil => cases word
  | cons p w =>
    obtain ⟨starts, all⟩ := (Bool.and_eq_true _ _).mp word
    rw [List.all_cons, startsWord_continues starts, all]
    rfl

/-- A word is taken whole if no letter or digit comes after it. -/
theorem piece_word (word : isWord w) (stop : ∀ q ∈ rest.head?, continuesWord q = false) :
    piece ⟨w ++ rest, m⟩ =
      .ok (.token ((TokenKind.keyword? w).getD .ident) (.text w), ⟨rest, m.right w.length⟩) := by
  have taken := takeWhile_append (isWord_all word) stop
  cases w with
  | nil => cases word
  | cons p w =>
    have starts : startsWord p := ((Bool.and_eq_true _ _).mp word).1
    obtain ⟨h13, h47, gap, line, quote, digit, dot⟩ := startsWord_only starts
    rw [List.cons_append] at taken ⊢
    rw [piece_cons h13 (.inl h47)]
    simp only [gap, line, quote, digit, dot, starts, taken, beq_iff_eq, Bool.false_eq_true,
      Bool.false_or, Bool.and_eq_true, false_and, if_false, if_true]
    rw [← List.cons_append, List.drop_left]

/-- What begins an operator begins nothing else, but a point may begin a number and a slash a
comment. -/
theorem operator_first (operator : k ∈ TokenKind.operators) :
    ∃ p t, text k.spelling = p :: t ∧ p ≠ 13 ∧ (p = 47 → k = .slash ∨ k = .slashAssign) ∧
      isGap p = false ∧ p.isLineEnd = false ∧ ¬(p = Point.doubleQuote ∨ p = Point.apostrophe) ∧
      p.isDigit = false ∧ (p = 46 → k = .dot) ∧ startsWord p = false := by
  have all : TokenKind.operators.all (fun k => (text k.spelling).head?.any fun p =>
      p != 13 && (p != 47 || k == .slash || k == .slashAssign) && !isGap p &&
        !p.isLineEnd && p != Point.doubleQuote && p != Point.apostrophe && !p.isDigit &&
        (p != 46 || k == .dot) && !startsWord p) = true := by decide
  obtain ⟨p, first, this⟩ := (Option.any_eq_true ..).mp (List.all_eq_true.mp all k operator)
  obtain ⟨t, spelled⟩ := List.head?_eq_some_iff.mp first
  simp only [Bool.and_eq_true, Bool.or_eq_true, bne_iff_ne, beq_iff_eq, Bool.not_eq_true'] at this
  obtain ⟨⟨⟨⟨⟨⟨⟨⟨feed, slash⟩, gap⟩, line⟩, double⟩, single⟩, digit⟩, dot⟩, word⟩ := this
  exact ⟨p, t, spelled, feed, fun same => (or_assoc.mp slash).resolve_left (absurd same), gap, line,
    not_or.mpr ⟨double, single⟩, digit, fun same => dot.resolve_left (absurd same), word⟩

/-- Operators stand before those that they begin with. -/
theorem operators_ordered : TokenKind.operators.Pairwise fun i j =>
    (text i.spelling).isPrefixOf (text j.spelling) = false := by
  decide

/-- The longest operator is taken if no longer one goes on with the text after it. -/
theorem operator?_append (operator : k ∈ TokenKind.operators)
    (stop : ∀ p ∈ rest.head?, ∀ i ∈ TokenKind.operators,
      ¬(text k.spelling ++ [p]) <+: text i.spelling) :
    TokenKind.operator? (text k.spelling ++ rest) = some k := by
  obtain ⟨before, after, split⟩ := List.append_of_mem operator
  refine List.find?_eq_some_iff_append.mpr ⟨?_, before, after, split, ?_⟩
  · exact List.isPrefixOf_iff_prefix.mpr (List.prefix_append _ _)
  · intro i mem
    rw [Bool.not_eq_true', Bool.eq_false_iff]
    intro starts
    have ordered := operators_ordered
    rw [split] at ordered
    have apart := (List.pairwise_append.mp ordered).2.2 i mem k List.mem_cons_self
    have front : text i.spelling <+: text k.spelling ++ rest :=
      List.isPrefixOf_iff_prefix.mp starts
    rcases List.prefix_or_prefix_of_prefix front (List.prefix_append _ _) with short | long
    · rw [List.isPrefixOf_iff_prefix.mpr short] at apart
      cases apart
    · obtain ⟨more, longer⟩ := long
      rw [← longer, List.prefix_append_right_inj] at front
      cases more with
      | nil =>
        rw [List.append_nil] at longer
        rw [longer, List.isPrefixOf_iff_prefix.mpr (List.prefix_refl _)] at apart
        cases apart
      | cons p more =>
        obtain ⟨tail, rfl⟩ := front
        refine stop p rfl i (split ▸ List.mem_append_left _ mem) ⟨more, ?_⟩
        rw [← longer, List.append_assoc]
        rfl

theorem piece_operator (operator : k ∈ TokenKind.operators)
    (stop : ∀ p ∈ rest.head?, ∀ i ∈ TokenKind.operators,
      ¬(text k.spelling ++ [p]) <+: text i.spelling)
    (comment : k = .slash → ∀ q ∈ rest.head?, q ≠ 47 ∧ q ≠ 42)
    (point : k = .dot → ∀ q ∈ rest.head?, q.isDigit = false) :
    piece ⟨text k.spelling ++ rest, m⟩ =
      .ok (.token k (.text (text k.spelling)), ⟨rest, m.right (text k.spelling).length⟩) := by
  have found := operator?_append operator stop
  have dropped : (text k.spelling ++ rest).drop (text k.spelling).length = rest := List.drop_left
  obtain ⟨p, t, spelled, h13, slash, gap, line, quote, digit, dot, word⟩ :=
    operator_first operator
  have clear : p ≠ 47 ∨ ∀ q ∈ (t ++ rest).head?, q ≠ 47 ∧ q ≠ 42 := by
    by_cases h47 : p = 47
    · right
      rcases slash h47 with rfl | rfl
      · cases spelled
        exact comment rfl
      · cases spelled
        intro q first
        cases first
        decide
    · exact .inl h47
  have number : (p == 46 && headIs (t ++ rest) Point.isDigit) = false := by
    by_cases h46 : p = 46
    · cases dot h46
      cases spelled
      rw [Bool.and_eq_false_iff]
      right
      cases rest with
      | nil => rfl
      | cons q rest => exact point rfl q rfl
    · simp [h46]
  rw [spelled, List.cons_append] at found dropped ⊢
  rw [piece_cons h13 clear]
  simp only [gap, line, quote, digit, number, word, Bool.false_eq_true, Bool.or_self, if_false,
    found, spelled, dropped]

theorem decimal_digits {n : Nat} (mem : p ∈ Text.decimal n) : 48 ≤ p ∧ p ≤ 57 := by
  obtain ⟨c, inside, rfl⟩ := List.mem_map.mp mem
  have digit := Nat.isDigit_of_mem_toDigits (by decide) (by decide) inside
  rw [Char.isDigit_iff_toNat] at digit
  exact digit

theorem ascii_digit (digit : 48 ≤ p ∧ p ≤ 57) : p.decimalValue? = some (p - 48) := by
  have low : p < 128 := by grind
  rw [Point.decimalValue?, if_pos low, if_pos digit]

theorem decimal_isDigit {n : Nat} (mem : p ∈ Text.decimal n) : p.isDigit := by
  rw [Point.isDigit, ascii_digit (decimal_digits mem)]
  rfl

theorem decimalDigits?_ascii (all : ∀ p ∈ t, 48 ≤ p ∧ p ≤ 57) :
    Numeral.decimalDigits? t = some (t.map (· - 48)) := by
  induction t with
  | nil => rfl
  | cons p t ih =>
    have rest := ih fun q mem => all q (List.mem_cons_of_mem p mem)
    rw [Numeral.decimalDigits?] at rest ⊢
    rw [List.mapM_cons, ascii_digit (all p List.mem_cons_self), rest]
    rfl

/-- What is written in decimal is read as the number that it was. -/
theorem readNat?_decimal {n : Nat} (short : (Text.decimal n).length ≤ Numeral.digitLimit) :
    Numeral.readNat? (Text.decimal n) = some n := by
  have value : Numeral.ofDigits 10 ((Text.decimal n).map (· - 48)) = n := by
    have round := Nat.ofDigitChars_ten_toDigits (n := n)
    rw [Nat.ofDigitChars_eq_foldl] at round
    rw [Numeral.ofDigits, Text.decimal, List.map_map, List.foldl_map]
    simp only [Nat.mul_comm] at round
    exact round
  rw [Numeral.readNat?, if_pos short, decimalDigits?_ascii fun p => decimal_digits, Option.map_some,
    value]

/-- A number in decimal is taken whole if neither a word nor a point comes after it. -/
theorem number_decimal {n : Nat} (short : (Text.decimal n).length ≤ Numeral.digitLimit)
    (stop : ∀ q ∈ rest.head?, continuesWord q = false ∧ q ≠ 46) :
    number.decimal ⟨Text.decimal n ++ rest, m⟩ =
      .ok (.int n, ⟨rest, m.right (Text.decimal n).length⟩) := by
  have digits : (Text.decimal n ++ rest).takeWhile Point.isDigit = Text.decimal n := by
    refine takeWhile_append (List.all_eq_true.mpr fun p => decimal_isDigit) fun q first => ?_
    have word := (stop q first).1
    simp only [continuesWord, Point.isAlphanumeric, Bool.or_eq_false_iff] at word
    exact word.1.1.1.2
  have dot : headIs rest (· == 46) = false := by
    cases rest with
    | nil => rfl
    | cons q rest => exact beq_false_of_ne (stop q rfl).2
  have word : headIs rest startsWord = false := by
    cases rest with
    | nil => rfl
    | cons q rest =>
      have other := (stop q rfl).1
      exact Bool.eq_false_iff.mpr fun starts => by simp [startsWord_continues starts] at other
  have exponent : exponentText? rest = some [] := by
    cases rest with
    | nil => rfl
    | cons q rest =>
      have other : ¬(q = 101 ∨ q = 69) := by
        rintro (rfl | rfl)
        · cases (stop 101 rfl).1
        · cases (stop 69 rfl).1
      rw [exponentText?, if_neg other]
  simp only [number.decimal, digits, List.drop_left, dot, Bool.false_eq_true, if_false,
    List.length_nil, List.drop_zero, exponent, List.append_nil, Cursor.right, word,
    List.isEmpty_nil, Bool.and_self, if_true, readNat?_decimal short]
  rfl

/-- After its first digit a number in decimal has no mark of another base. -/
theorem decimal_second {n : Nat} {x : Point} {t : Text}
    (stop : ∀ q ∈ rest.head?, continuesWord q = false ∧ q ≠ 46)
    (split : Text.decimal n ++ rest = p :: x :: t) : ¬(x = 120 ∨ x = 88) := by
  intro mark
  cases digits : Text.decimal n with
  | nil => exact Nat.toDigits_ne_nil (List.map_eq_nil_iff.mp digits)
  | cons d ds =>
    rw [digits] at split
    cases ds with
    | nil =>
      cases split
      rcases mark with rfl | rfl
      · cases (stop 120 rfl).1
      · cases (stop 88 rfl).1
    | cons e ds =>
      cases split
      have digit := decimal_digits (p := x) (n := n) (by simp [digits])
      grind

theorem piece_number {n : Nat} (short : (Text.decimal n).length ≤ Numeral.digitLimit)
    (stop : ∀ q ∈ rest.head?, continuesWord q = false ∧ q ≠ 46) :
    piece ⟨Text.decimal n ++ rest, m⟩ =
      .ok (.token .number (.int n), ⟨rest, m.right (Text.decimal n).length⟩) := by
  have whole : number ⟨Text.decimal n ++ rest, m⟩ =
      .ok (.int n, ⟨rest, m.right (Text.decimal n).length⟩) := by
    rw [← number_decimal (m := m) short stop]
    unfold number
    split
    · rename_i split
      rw [if_neg (decimal_second stop split)]
    · rfl
  cases digits : Text.decimal n with
  | nil => exact absurd (List.map_eq_nil_iff.mp digits) Nat.toDigits_ne_nil
  | cons p t =>
    have mem : p ∈ Text.decimal n := by simp [digits]
    obtain ⟨low, high⟩ := decimal_digits mem
    have gap : isGap p = false := by
      simp only [isGap, Bool.or_eq_false_iff, beq_eq_false_iff_ne]
      grind
    have line : p.isLineEnd = false := by
      simp only [Point.isLineEnd, Bool.or_eq_false_iff, beq_eq_false_iff_ne]
      grind
    have quote : ¬(p = Point.doubleQuote ∨ p = Point.apostrophe) := by grind
    rw [digits, List.cons_append] at whole
    rw [List.cons_append, piece_cons (by grind) (.inl (by grind))]
    simp only [gap, line, quote, decimal_isDigit mem, Bool.true_or, Bool.false_eq_true, if_false,
      if_true, whole]
    rfl

/-- A control code in an escape is read as it was. -/
theorem readHex?_hex : ∀ c < 32, Numeral.readHex? (Text.hex 2 c) = some (c : Int) := by
  decide

theorem stringRest_simple {start here : Mark} {e p : Point} (simple : simpleEscape? e = some p) :
    stringRest 39 start here (92 :: e :: rest) = (do
      let (value, after) ← stringRest 39 start (here.right 2) rest
      return (p :: value, after)) := by
  rw [stringRest.eq_def]
  dsimp only
  rw [if_neg (by decide), if_neg (by decide), if_neg (by decide)]
  simp only [simple]

theorem stringRest_self {start here : Mark} {e : Point} (self : e = 92 ∨ e = 39) :
    stringRest 39 start here (92 :: e :: rest) = (do
      let (value, after) ← stringRest 39 start (here.right 2) rest
      return (e :: value, after)) := by
  rcases self with rfl | rfl <;> rw [stringRest.eq_def] <;> rfl

theorem stringRest_plain {start here : Mark} (h10 : c ≠ 10) (h13 : c ≠ 13) (h39 : c ≠ 39)
    (h92 : c ≠ 92) :
    stringRest 39 start here (c :: rest) = (do
      let (value, after) ← stringRest 39 start (here.right 1) rest
      return (c :: value, after)) := by
  rw [stringRest.eq_def]
  dsimp only
  rw [if_neg (by simp [h10, h13]), if_neg h39, if_pos h92]

theorem namedPoint_hex (low : c < 32) : namedPoint (Text.hex 2 c) m = .ok c := by
  rw [namedPoint, readHex?_hex c low]
  have small : ¬((c : Int) < -2147483648 ∨ 2147483647 < (c : Int)) := by grind
  have known : ¬((c : Int) < 0 ∨ 0x10FFFF < (c : Int)) := by grind
  simp only [small, known, if_false, Int.toNat_natCast]

theorem stringRest_hex {start here : Mark} (low : c < 32) :
    stringRest 39 start here (text "\\x" ++ Text.hex 2 c ++ rest) = (do
      let (value, after) ← stringRest 39 start (here.right 4) rest
      return (c :: value, after)) := by
  have named := namedPoint_hex (m := here.right 4) low
  change namedPoint [_, _] _ = _ at named
  change stringRest 39 start here (92 :: 120 :: _ :: _ :: rest) = _
  rw [stringRest.eq_def]
  dsimp only
  rw [if_neg (by decide), if_neg (by decide), if_neg (by decide)]
  simp only [simpleEscape?, if_true, named]
  rfl

/-- A point inside a quoted string is read as it was. -/
theorem stringRest_quotedPoint {start here : Mark} :
    stringRest 39 start here (Literal.quotedPoint c ++ rest) = (do
      let (value, after) ← stringRest 39 start (here.right (Literal.quotedPoint c).length) rest
      return (c :: value, after)) := by
  unfold Literal.quotedPoint
  split
  · exact stringRest_self (.inl rfl)
  · exact stringRest_self (.inr rfl)
  iterate 7 exact stringRest_simple rfl
  · split
    · rename_i low
      exact stringRest_hex low
    · rename_i h92 h39 h10 h13 _ _ _ _ _ _
      exact stringRest_plain h10 h13 h39 h92

/-- The inside of a quoted string is read as it was, up to its last quote. -/
theorem stringRest_quoted {start here : Mark} :
    stringRest 39 start here (t.flatMap Literal.quotedPoint ++ 39 :: rest) =
      .ok (t, ⟨rest, here.right ((t.flatMap Literal.quotedPoint).length + 1)⟩) := by
  induction t generalizing here with
  | nil =>
    rw [List.flatMap_nil, List.nil_append, stringRest.eq_def]
    rfl
  | cons c t ih =>
    rw [List.flatMap_cons, List.append_assoc, stringRest_quotedPoint, ih, right_right,
      List.length_append, Nat.add_assoc]
    rfl

theorem piece_quoted : piece ⟨Literal.quoted t ++ rest, m⟩ =
    .ok (.token .string (.text t), ⟨rest, m.right (Literal.quoted t).length⟩) := by
  have spelled : Literal.quoted t = 39 :: (t.flatMap Literal.quotedPoint ++ [39]) := rfl
  rw [spelled, List.cons_append, List.append_assoc, piece_cons (by decide) (.inl (by decide))]
  change (do
    let (value, after) ← stringRest 39 m (m.right 1)
      (t.flatMap Literal.quotedPoint ++ 39 :: rest)
    return (Piece.token .string (.text value), after)) = _
  rw [stringRest_quoted, right_right, List.length_cons, List.length_append, Nat.add_comm 1]
  rfl

/-- Inside a block comment no slash comes after an asterisk. -/
theorem closesComment_cons (opened : closesComment (c :: t) = false) :
    closesComment t = false ∧ ∀ r, c = 42 → t ++ 42 :: 47 :: rest = 47 :: r → False := by
  constructor
  · unfold closesComment at opened
    split at opened
    · cases opened
    · rename_i same
      cases same
      exact opened
    · rename_i same
      cases same
  · rintro r rfl same
    cases t with
    | nil => cases same
    | cons d t =>
      cases same
      cases opened

/-- The inside of a block comment is read as it was, up to its end. -/
theorem commentRest_closed {line : Nat} {here : Mark} (opened : closesComment t = false) :
    commentRest line here (t ++ 42 :: 47 :: rest) =
      .ok (t, t.contains Point.lineFeed, ⟨rest, (here.past t).right 2⟩) := by
  induction t generalizing here with
  | nil => rfl
  | cons c t ih =>
    obtain ⟨inner, other⟩ := @closesComment_cons _ _ rest opened
    rw [List.cons_append, commentRest.eq_3 _ _ _ _ other, ih inner]
    simp only [Mark.past, List.foldl_cons, List.contains_cons]
    rw [Bool.beq_comm]
    rfl

theorem piece_blockComment (opened : closesComment t = false) :
    piece ⟨text "/*" ++ t ++ text "*/" ++ rest, m⟩ =
      .ok (.gap (t.contains Point.lineFeed) [⟨t, true, true⟩],
        ⟨rest, m.past (text "/*" ++ t ++ text "*/")⟩) := by
  have read : commentRest m.line (m.right 2) (t ++ 42 :: 47 :: rest) = _ :=
    commentRest_closed opened
  have place : m.past (text "/*" ++ t ++ text "*/") = ((m.right 2).past t).right 2 := by
    rw [past_append, past_append]
    rfl
  rw [place, List.append_assoc, List.append_assoc]
  change (commentRest m.line (m.right 2) (t ++ 42 :: 47 :: rest) >>= fun r =>
    return (Piece.gap r.2.1 [⟨r.1, true, true⟩], r.2.2)) = _
  rw [read]
  rfl

theorem piece_lineComment
    (flat : t.all fun p => p != Point.lineFeed && p != Point.carriageReturn && p != 0)
    (stop : ∀ q ∈ rest.head?, q = Point.lineFeed) :
    piece ⟨text "//" ++ t ++ rest, m⟩ =
      .ok (.gap false [⟨t, false, true⟩], ⟨rest, m.past (text "//" ++ t)⟩) := by
  have ends : ∀ q ∈ rest.head?,
      (q != Point.lineFeed && q != Point.carriageReturn && q != 0) = false := fun q first => by
    rw [stop q first]
    rfl
  have taken := takeWhile_append flat ends
  have place : m.past (text "//" ++ t) = m.right (2 + t.length) := by
    refine (past_flat fun p mem => ?_).trans ?_
    · rcases List.mem_append.mp mem with mark | inner
      · rintro rfl
        revert mark
        decide
      · have legible := List.all_eq_true.mp flat p inner
        simp only [Bool.and_eq_true, bne_iff_ne] at legible
        exact legible.1.1
    · rw [List.length_append]
      rfl
  rw [place, List.append_assoc]
  change Except.ok (Piece.gap false [⟨(t ++ rest).takeWhile _, false, true⟩],
    (⟨47 :: 47 :: (t ++ rest), m⟩ : Cursor).right (2 + ((t ++ rest).takeWhile _).length)) = _
  rw [taken]
  simp [Cursor.right, Nat.add_comm 2]

end Scan

section Printable

variable {p : Point} {t : Text}

theorem hexDigit_printable {n : Nat} : 32 ≤ Point.hexDigit n := by
  unfold Point.hexDigit
  split <;> grind

theorem hex_printable {digits n : Nat} (mem : p ∈ Text.hex digits n) : 32 ≤ p := by
  induction digits generalizing n with
  | zero => cases mem
  | succ digits ih =>
    rcases List.mem_append.mp mem with high | low
    · exact ih high
    · cases List.mem_singleton.mp low
      exact hexDigit_printable

/-- A quoted string has no control characters in it. -/
theorem Literal.quoted_printable (mem : p ∈ Literal.quoted t) : 32 ≤ p := by
  have inner {c : Point} (mem : p ∈ Literal.quotedPoint c) : 32 ≤ p := by
    have fixed (s : Text) (all : s.all (32 ≤ ·)) (mem : p ∈ s) : 32 ≤ p :=
      of_decide_eq_true (List.all_eq_true.mp all p mem)
    unfold Literal.quotedPoint at mem
    split at mem
    case h_10 =>
      split at mem
      · rcases List.mem_append.mp mem with mark | digits
        · exact fixed _ (by decide) mark
        · exact hex_printable digits
      · cases List.mem_singleton.mp mem
        exact Nat.le_of_not_lt ‹_›
    all_goals exact fixed _ (by decide) mem
  simp only [Literal.quoted, List.mem_append, List.mem_flatMap] at mem
  rcases mem with (mark | ⟨c, _, mem⟩) | mark
  · cases List.mem_singleton.mp mark
    decide
  · exact inner mem
  · cases List.mem_singleton.mp mark
    decide

end Printable

end ScriptTree
