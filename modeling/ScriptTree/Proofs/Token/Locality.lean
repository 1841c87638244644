import ScriptTree.Proofs.Token.Lossless

/-!
A piece of a source depends on its own text, and on what stands after it only as far as its first
code point does not go on with the piece. So the text after a piece may be replaced by one that
begins in the same way, or with a blank or a line feed.
-/
namespace ScriptTree.Scan

/-- The code points that end a piece, unless it is a comment up to the end of a line. -/
def isBreak (q : Point) : Bool := q == 32 || q == 9 || q == Point.lineFeed

/-- A text that begins as another one does, or with a break. -/
def Near (y z : Text) : Prop := ∀ q ∈ z.head?, q ∈ y.head? ∨ isBreak q

/-- Whether a code point goes on with a piece that breaks do not end: it makes a line end of two
code points, or it belongs to a comment up to the end of its line. -/
def goesOn (x : Text) (q : Point) : Bool :=
  (x == [Point.carriageReturn] && q == Point.lineFeed) || ([47, 47].isPrefixOf x && q.isRemark)

/-- A text that may stand after a piece in place of another one. -/
def Follows (x y z : Text) : Prop := ∀ q ∈ z.head?, q ∈ y.head? ∨ (isBreak q ∧ goesOn x q = false)

variable {x y z t : Text} {p q : Point}

theorem Follows.near (follows : Follows x y z) : Near y z := fun q first =>
  (follows q first).imp_right And.left

theorem Follows.refl : Follows x y y := fun _ first => .inl first

/-- A class without breaks in it ends before a near text where it ends before the text. -/
theorem Near.stop (near : Near y z) {c : Point → Bool} (breaks : ∀ q, isBreak q → c q = false)
    (stop : ∀ q ∈ y.head?, c q = false) : ∀ q ∈ z.head?, c q = false := fun q first =>
  (near q first).elim (stop q) (breaks q)

theorem Near.append (near : Near y z) : Near (x ++ y) (x ++ z) := by
  cases x with
  | nil => exact near
  | cons p x => exact fun q first => .inl first

theorem headIs_false {c : Point → Bool} : headIs t c = false ↔ ∀ q ∈ t.head?, c q = false := by
  cases t <;> simp [headIs]

/-- A point is a break if and only if it is one of three. -/
theorem isBreak_iff : isBreak q ↔ q = 32 ∨ q = 9 ∨ q = 10 := by
  simp [isBreak, or_assoc]

theorem break_outside : ∀ q, isBreak q →
    continuesWord q = false ∧ startsWord q = false ∧ q.isDigit = false ∧
      q.hexValue?.isSome = false ∧ q ≠ 46 ∧ q ≠ 101 ∧ q ≠ 69 ∧ q ≠ 43 ∧ q ≠ 45 ∧ q ≠ 47 ∧
      q ≠ 42 := by
  intro q isBreak
  rcases isBreak_iff.1 isBreak with rfl | rfl | rfl <;> decide +kernel

section Numbers

theorem takeWhile_near {c : Point → Bool} (breaks : ∀ q, isBreak q → c q = false)
    (near : Near y z) (taken : (x ++ y).takeWhile c = x) : (x ++ z).takeWhile c = x :=
  have ⟨all, stop⟩ := takeWhile_stop taken
  takeWhile_append all (near.stop breaks stop)

def signText (t : Text) : Text := if headIs t (fun c => c == 43 || c == 45) then t.take 1 else []

theorem signText_append (some : x ≠ []) : signText (x ++ y) = signText x := by
  cases x with
  | nil => exact absurd rfl some
  | cons p x => rfl

theorem exponentText?_cons : exponentText? (p :: t) =
    if p = 101 ∨ p = 69 then
      if ((t.drop (signText t).length).takeWhile Point.isDigit).isEmpty then none
      else some (p :: signText t ++ (t.drop (signText t).length).takeWhile Point.isDigit)
    else some [] := rfl

/-- An exponent is read as it is before a near text. -/
theorem exponentText?_near {e : Text} (near : Near y z) (read : exponentText? (e ++ y) = some e) :
    exponentText? (e ++ z) = some e := by
  cases e with
  | nil =>
    cases z with
    | nil => rfl
    | cons q z =>
      have mark : ¬(q = 101 ∨ q = 69) := by
        rcases near q rfl with first | isBreak
        · cases y with
          | nil => cases first
          | cons p y =>
            cases first
            intro mark
            rw [List.nil_append, exponentText?_cons, if_pos mark] at read
            split at read <;> cases read
        · obtain ⟨_, _, _, _, _, small, capital, _⟩ := break_outside q isBreak
          exact not_or.mpr ⟨small, capital⟩
      rw [List.nil_append, exponentText?_cons, if_neg mark]
  | cons p r =>
    rw [List.cons_append, exponentText?_cons] at read ⊢
    split at read
    · rename_i mark
      rw [if_pos mark]
      split at read
      · cases read
      · rename_i some
        have same := (List.cons.inj (Option.some.inj read)).2
        have present : r ≠ [] := by
          rintro rfl
          exact some (by rw [(List.append_eq_nil_iff.mp same).2]; rfl)
        rw [signText_append present] at same some ⊢
        generalize signText r = sign at same some
        obtain ⟨digits, rfl⟩ : ∃ digits, r = sign ++ digits := ⟨_, same.symm⟩
        rw [List.append_assoc, List.drop_left] at same some ⊢
        have taken := List.append_cancel_left same
        have again := takeWhile_near (fun q h => (break_outside q h).2.2.1) near taken
        rw [taken] at some
        rw [again, if_neg some]
        rfl
    · cases read

def pointText (t : Text) : Text :=
  if headIs t (· == 46) then 46 :: (t.drop 1).takeWhile Point.isDigit else []

theorem pointText_near (near : Near y z) (taken : pointText (x ++ y) = x) :
    pointText (x ++ z) = x := by
  cases x with
  | nil =>
    rw [List.nil_append, pointText] at taken ⊢
    split at taken
    · cases taken
    · rename_i other
      have stop := near.stop (c := (· == 46))
        (fun q h => beq_false_of_ne (break_outside q h).2.2.2.2.1)
        (headIs_false.mp (Bool.eq_false_iff.mpr other))
      rw [if_neg (Bool.eq_false_iff.mp (headIs_false.mpr stop))]
  | cons p x =>
    rw [pointText] at taken
    split at taken
    · rename_i point
      have taken : 46 :: (x ++ y).takeWhile Point.isDigit = p :: x := taken
      obtain ⟨rfl, digits⟩ := List.cons.inj taken
      have again := takeWhile_near (fun q h => (break_outside q h).2.2.1) near digits
      change 46 :: (x ++ z).takeWhile Point.isDigit = _
      rw [again]
    · cases taken

/-- What a number in decimal is worth: digits, a part after a point and an exponent. -/
def decimalWorth? (whole part exponent : Text) : Option Value :=
  if part.isEmpty && exponent.isEmpty then
    (Numeral.readNat? (whole ++ part ++ exponent)).map fun n => Value.int n
  else (Numeral.readFraction? false (whole ++ part ++ exponent)).map Value.float

/-- A text is a number in decimal up to some place: its digits, a part after a point and an
exponent, and no word after them. -/
structure Decimal (x y : Text) (whole part exponent : Text) : Prop where
  written : x = whole ++ part ++ exponent
  digits : (whole ++ (part ++ (exponent ++ y))).takeWhile Point.isDigit = whole
  point : pointText (part ++ (exponent ++ y)) = part
  power : exponentText? (exponent ++ y) = some exponent
  word : headIs y startsWord = false

variable {m n : Mark} {v : Value} {w part e : Text}

theorem Decimal.near (decimal : Decimal x y w part e) (near : Near y z) :
    Decimal x z w part e where
  written := decimal.written
  digits := takeWhile_near (fun q h => (break_outside q h).2.2.1) near.append.append decimal.digits
  point := pointText_near near.append decimal.point
  power := exponentText?_near near decimal.power
  word := headIs_false.mpr
    (near.stop (fun q h => (break_outside q h).2.1) (headIs_false.mp decimal.word))

/-- A number in decimal is worth something or cannot be read. -/
theorem Decimal.result (decimal : Decimal x y w part e) :
    number.decimal ⟨x ++ y, m⟩ =
      match decimalWorth? w part e with
      | some v => .ok (v, ⟨y, m.right x.length⟩)
      | none => .error .unreadableNumber := by
  obtain ⟨rfl, digits, point, power, word⟩ := decimal
  have dropped : (w ++ part ++ e ++ y).drop (w ++ part ++ e).length = y := List.drop_left
  have inner : (w ++ part ++ e ++ y).drop w.length = part ++ (e ++ y) := by
    simp only [List.append_assoc, List.drop_left]
  rw [← List.append_assoc, ← List.append_assoc] at digits
  rw [pointText] at point
  simp only [number.decimal, digits, inner, point, List.drop_left, power, Cursor.right, dropped,
    word, Bool.false_eq_true, if_false]
  rfl

theorem Decimal.reads (decimal : Decimal x y w part e) (worth : decimalWorth? w part e = some v) :
    number.decimal ⟨x ++ y, m⟩ = .ok (v, ⟨y, m.right x.length⟩) := by
  rw [decimal.result, worth]

/-- What stands where a number is read is a number in decimal, or a fault. -/
theorem decimal_cases (t : Text) (m : Mark) :
    (∃ fault n, number.decimal ⟨t, m⟩ = fail fault n) ∨
      ∃ w part e y, t = w ++ part ++ e ++ y ∧ Decimal (w ++ part ++ e) y w part e := by
  unfold number.decimal
  dsimp only
  have first : t.takeWhile Point.isDigit <+: t := List.takeWhile_prefix _
  generalize whole : t.takeWhile Point.isDigit = w at first ⊢
  have second : pointText (t.drop w.length) <+: t.drop w.length := point_taken
  rw [← pointText]
  generalize pointed : pointText (t.drop w.length) = part at second ⊢
  split
  · exact .inl ⟨_, _, rfl⟩
  · rename_i e found
    have third := exponentText?_prefix found
    rw [List.drop_drop, ← List.length_append] at third
    obtain ⟨y, rfl⟩ := prefix_append (prefix_append first second) third
    simp only [Cursor.right, List.drop_left]
    split
    · exact .inl ⟨_, _, rfl⟩
    · rename_i word
      simp only [List.append_assoc, List.drop_left] at whole pointed found
      exact .inr ⟨w, part, e, y, rfl, rfl, by simpa using whole, pointed, found,
        Bool.eq_false_iff.mpr word⟩

theorem decimal_written (read : number.decimal ⟨x ++ y, m⟩ = .ok (v, ⟨y, n⟩)) :
    ∃ w part e, Decimal x y w part e ∧ decimalWorth? w part e = some v := by
  rcases decimal_cases (x ++ y) m with ⟨fault, n, failed⟩ | ⟨w, part, e, r, split, decimal⟩
  · rw [failed] at read
    cases read
  · rw [split, decimal.result] at read
    cases worth : decimalWorth? w part e with
    | none =>
      rw [worth] at read
      cases read
    | some u =>
      rw [worth] at read
      cases read
      cases List.append_cancel_right split
      exact ⟨w, part, e, decimal, worth⟩

def marksHex : Text → Bool
  | 48 :: k :: _ => k == 120 || k == 88
  | _ => false

theorem number_decimal_of {c : Cursor} (plain : marksHex c.rest = false) :
    number c = number.decimal c := by
  unfold number
  split
  · rename_i k r rest
    simp only [marksHex, rest, Bool.or_eq_false_iff, beq_eq_false_iff_ne] at plain
    rw [if_neg (not_or.mpr plain)]
  · rfl

theorem marksHex_iff : marksHex t ↔ ∃ k r, t = 48 :: k :: r ∧ (k = 120 ∨ k = 88) := by
  unfold marksHex
  split
  · simp
  · rename_i other
    refine ⟨nofun, ?_⟩
    rintro ⟨k, r, rfl, _⟩
    exact absurd rfl (other k r)

theorem marksHex_near (near : Near y z) (some : x ≠ []) (hex : marksHex (x ++ z)) :
    marksHex (x ++ y) := by
  match x, some with
  | [p], _ =>
    obtain ⟨k, r, same, mark⟩ := marksHex_iff.1 hex
    obtain ⟨rfl, rfl⟩ := List.cons.inj same
    rcases near k rfl with first | isBreak
    · obtain ⟨r, rfl⟩ := List.head?_eq_some_iff.mp first
      exact marksHex_iff.2 ⟨k, r, rfl, mark⟩
    · rcases mark with rfl | rfl <;> cases isBreak
  | p :: q :: x, _ =>
    obtain ⟨k, r, same, mark⟩ := marksHex_iff.1 hex
    cases same
    exact marksHex_iff.2 ⟨q, x ++ y, rfl, mark⟩

/-- A hexadecimal number is its mark with digits after it. -/
theorem hex_written (hex : marksHex (x ++ y))
    (read : number ⟨x ++ y, m⟩ = .ok (v, ⟨y, n⟩)) : ∃ k digits, x = 48 :: k :: digits ∧
      (k = 120 ∨ k = 88) ∧ (digits ++ y).takeWhile (·.hexValue?.isSome) = digits ∧
      digits.isEmpty = false ∧ v = .int (Numeral.readHexDigits digits) := by
  obtain ⟨k, r, rest, mark⟩ := marksHex_iff.1 hex
  simp only [number, rest, if_pos mark] at read
  have first : r.takeWhile (·.hexValue?.isSome) <+: r := List.takeWhile_prefix _
  generalize taken : r.takeWhile (·.hexValue?.isSome) = digits at read first
  split at read
  · cases read
  · rename_i present
    obtain ⟨more, rfl⟩ := first
    simp only [Except.ok.injEq, Prod.mk.injEq, Cursor.right, Cursor.mk.injEq, Nat.add_comm 2,
      List.drop_succ_cons, List.drop_left] at read
    obtain ⟨rfl, rfl, _⟩ := read
    have whole : x ++ more = 48 :: k :: digits ++ more := rest
    cases List.append_cancel_right whole
    exact ⟨k, digits, rfl, mark, taken, Bool.eq_false_iff.mpr present, rfl⟩

theorem number_near (near : Near y z) (some : x ≠ [])
    (read : number ⟨x ++ y, m⟩ = .ok (v, ⟨y, n⟩)) (m' : Mark) :
    ∃ there, number ⟨x ++ z, m'⟩ = .ok (v, ⟨z, there⟩) := by
  by_cases hex : marksHex (x ++ y)
  · obtain ⟨k, digits, rfl, mark, taken, present, rfl⟩ := hex_written hex read
    have again : (digits ++ z).takeWhile (·.hexValue?.isSome) = digits :=
      takeWhile_near (fun q h => (break_outside q h).2.2.2.1) near taken
    refine ⟨m'.right (2 + digits.length), ?_⟩
    simp only [number, List.cons_append, if_pos mark, again, present, Cursor.right,
      Nat.add_comm 2, List.drop_succ_cons, List.drop_left]
    rfl
  · have plain : marksHex (x ++ z) = false :=
      Bool.eq_false_iff.mpr fun other => hex (marksHex_near near some other)
    rw [number_decimal_of (Bool.eq_false_iff.mpr hex)] at read
    rw [number_decimal_of plain]
    obtain ⟨w, part, e, decimal, worth⟩ := decimal_written read
    exact ⟨_, (decimal.near near).reads worth⟩

end Numbers

section Operators

variable {k : TokenKind}

/-- What begins an operator is one. -/
theorem operators_closed : ∀ i ∈ TokenKind.operators, ∀ n < (text i.spelling).length,
    ∃ j ∈ TokenKind.operators, text j.spelling = (text i.spelling).take (n + 1) := by
  decide +kernel

/-- The longest operator is taken, so no longer one goes on with the text after it. -/
theorem operator?_stop (found : TokenKind.operator? (text k.spelling ++ y) = some k) :
    ∀ p ∈ y.head?, ∀ i ∈ TokenKind.operators, ¬(text k.spelling ++ [p]) <+: text i.spelling := by
  intro p first i mem front
  obtain ⟨y, rfl⟩ := List.head?_eq_some_iff.mp first
  have length : (text k.spelling).length < (text i.spelling).length := by
    simpa [Nat.succ_le_iff] using front.length_le
  obtain ⟨j, operator, spelled⟩ := operators_closed i mem _ length
  have spelled : text j.spelling = text k.spelling ++ [p] := by
    rw [spelled, List.prefix_iff_eq_take.mp front, List.length_append]
    rfl
  obtain ⟨_, before, after, split, earlier⟩ := List.find?_eq_some_iff_append.mp found
  have begins : text j.spelling <+: text k.spelling ++ p :: y := by
    rw [spelled]
    exact (List.prefix_append_right_inj _).mpr (List.cons_prefix_cons.mpr ⟨rfl, List.nil_prefix⟩)
  rw [split] at operator
  rcases List.mem_append.mp operator with sooner | later
  · have not := earlier j sooner
    rw [Bool.not_eq_true', Bool.eq_false_iff] at not
    exact not (List.isPrefixOf_iff_prefix.mpr begins)
  · rcases List.mem_cons.mp later with rfl | later
    · simp at spelled
    · have ordered := operators_ordered
      rw [split] at ordered
      have apart := (List.pairwise_cons.mp (List.pairwise_append.mp ordered).2.1).1 j later
      rw [spelled, List.isPrefixOf_iff_prefix.mpr (List.prefix_append _ _)] at apart
      cases apart

/-- No operator goes on with a break. -/
theorem operators_break (isBreak : isBreak q) : ∀ i ∈ TokenKind.operators, q ∉ text i.spelling := by
  rcases isBreak_iff.1 isBreak with rfl | rfl | rfl <;> decide

/-- An operator is the longest one before a near text too. -/
theorem operator?_near (near : Near y z)
    (found : TokenKind.operator? (text k.spelling ++ y) = some k) :
    TokenKind.operator? (text k.spelling ++ z) = some k := by
  have stop := operator?_stop found
  refine operator?_append (List.mem_of_find?_eq_some found) fun q first i operator front => ?_
  rcases near q first with old | isBreak
  · exact stop q old i operator front
  · exact operators_break isBreak i operator (front.subset (by simp))

end Operators

theorem piece_carriageReturn {m : Mark} (apart : ∀ q ∈ t.head?, q ≠ Point.lineFeed) :
    piece ⟨Point.carriageReturn :: t, m⟩ = .ok (.gap true [], ⟨t, m.nextLine 1⟩) := by
  unfold piece
  split <;> rename_i same
  · cases same
  · cases same
    exact absurd rfl (apart 10 rfl)
  · cases same
  · cases same
  · cases same
    rfl

theorem piece_remark {m : Mark} {inner : Text} (within : inner.all Point.isRemark)
    (stop : ∀ q ∈ t.head?, q.isRemark = false) :
    piece ⟨47 :: 47 :: (inner ++ t), m⟩ =
      .ok (.gap false [⟨inner, false, true⟩], ⟨t, m.right (2 + inner.length)⟩) := by
  have taken : (inner ++ t).takeWhile Point.isRemark = inner := takeWhile_append within stop
  change Except.ok (Piece.gap false [⟨(inner ++ t).takeWhile Point.isRemark, false, true⟩],
    (⟨47 :: 47 :: (inner ++ t), m⟩ : Cursor).right
      (2 + ((inner ++ t).takeWhile Point.isRemark).length)) = _
  rw [taken]
  simp [Cursor.right, Nat.add_comm 2]

/-- Whether two code points make a line end or open a comment. -/
def pairs (p q : Point) : Bool :=
  (p == Point.carriageReturn && q == Point.lineFeed) || (p == 47 && (q == 47 || q == 42))

def beginsPair : Text → Bool
  | p :: q :: _ => pairs p q
  | _ => false

theorem beginsPair_near (near : Near y z) (apart : beginsPair (p :: x ++ y) = false)
    (line : p = 13 → x = [] → ∀ q ∈ z.head?, q ≠ 10) : beginsPair (p :: x ++ z) = false := by
  match x with
  | q :: x => exact apart
  | [] =>
    match z with
    | [] => rfl
    | q :: z =>
      rcases near q rfl with first | isBreak
      · obtain ⟨y, rfl⟩ := List.head?_eq_some_iff.mp first
        exact apart
      · obtain ⟨_, _, _, _, _, _, _, _, _, slash, star⟩ := break_outside q isBreak
        simp only [List.cons_append, List.nil_append, beginsPair, pairs, Bool.or_eq_false_iff,
          Bool.and_eq_false_iff, beq_eq_false_iff_ne]
        refine ⟨?_, .inr ⟨slash, star⟩⟩
        by_cases return' : p = 13
        · exact .inr (line return' rfl q rfl)
        · exact .inl return'

/-- A piece that no pair of code points begins is told by its first one. -/
theorem piece_single {m : Mark} (plain : beginsPair (p :: t) = false) :
    piece ⟨p :: t, m⟩ =
      if isGap p then .ok (.gap false [], ⟨t, m.right 1⟩)
      else if p.isLineEnd then .ok (.gap true [], ⟨t, m.nextLine 1⟩)
      else if p = Point.doubleQuote ∨ p = Point.apostrophe then do
        let (value, after) ← stringRest p m (m.right 1) t
        return (.token .string (.text value), after)
      else if p.isDigit || (p == 46 && headIs t Point.isDigit) then do
        let (value, after) ← number ⟨p :: t, m⟩
        return (.token .number value, after)
      else if startsWord p then
        let word := (p :: t).takeWhile continuesWord
        .ok (.token ((TokenKind.keyword? word).getD .ident) (.text word),
          (⟨p :: t, m⟩ : Cursor).right word.length)
      else
        match TokenKind.operator? (p :: t) with
        | some kind =>
          let spelled := text kind.spelling
          .ok (.token kind (.text spelled), (⟨p :: t, m⟩ : Cursor).right spelled.length)
        | none => fail (.unexpected p) m := by
  unfold piece
  split <;> rename_i same <;> cases same
  · cases plain
  · cases plain
  · cases plain
  · rfl

theorem taken_of_drop {w : Text} (begins : w <+: x ++ y) (moved : (x ++ y).drop w.length = y) :
    w = x := by
  obtain ⟨rest, whole⟩ := begins
  rw [← whole, List.drop_left] at moved
  subst moved
  exact List.append_cancel_right whole

theorem pair_follows {m n m' : Mark} {made : Piece} (pair : beginsPair (x ++ y))
    (some : x ≠ []) (read : piece ⟨x ++ y, m⟩ = .ok (made, ⟨y, n⟩)) (follows : Follows x y z) :
    ∃ there, piece ⟨x ++ z, m'⟩ = .ok (made, ⟨z, there⟩) := by
  unfold piece at read
  split at read
  · rename_i whole
    exact absurd (List.append_eq_nil_iff.mp whole).1 some
  · rename_i r whole
    have whole : x ++ y = [13, 10] ++ r := whole
    simp only [Except.ok.injEq, Prod.mk.injEq, Cursor.nextLine, Cursor.mk.injEq] at read
    obtain ⟨rfl, moved, _⟩ := read
    cases taken_of_drop (w := [13, 10]) ⟨r, whole.symm⟩ moved
    exact ⟨_, rfl⟩
  · rename_i r whole
    have whole : x ++ y = 47 :: 47 :: r := whole
    simp only [Except.ok.injEq, Prod.mk.injEq, Cursor.right, Cursor.mk.injEq] at read
    obtain ⟨rfl, moved, _⟩ := read
    have begins : 47 :: 47 :: r.takeWhile Point.isRemark <+: x ++ y := by
      rw [whole, List.cons_prefix_cons, List.cons_prefix_cons]
      exact ⟨rfl, rfl, List.takeWhile_prefix _⟩
    have taken := taken_of_drop begins (by rw [Nat.add_comm] at moved; exact moved)
    rw [← taken] at whole
    generalize inside : r.takeWhile Point.isRemark = inner at taken whole
    subst taken
    obtain rfl : r = inner ++ y := (List.cons.inj (List.cons.inj whole).2).2.symm
    obtain ⟨within, stop⟩ := takeWhile_stop inside
    refine ⟨m'.right (2 + inner.length), ?_⟩
    change _ = Except.ok
      (Piece.gap false [⟨(inner ++ y).takeWhile Point.isRemark, false, true⟩], _)
    rw [inside]
    refine piece_remark within fun q first => ?_
    rcases follows q first with old | ⟨_, ends⟩
    · exact stop q old
    · simpa [goesOn] using ends
  · rename_i r whole
    have whole : x ++ y = 47 :: 42 :: r := whole
    obtain ⟨⟨inner, newline, after⟩, closed, same⟩ := bind_ok.mp read
    cases same
    obtain ⟨rfl, within⟩ := commentRest_ok closed
    rw [commentRest_closed within] at closed
    cases closed
    have taken : x = 47 :: 42 :: (inner ++ [42, 47]) := by
      refine (List.append_left_inj y).mp ?_
      simpa using whole
    have again : commentRest m'.line (m'.right 2) (inner ++ 42 :: 47 :: z) = _ :=
      commentRest_closed within
    refine ⟨((m'.right 2).past inner).right 2, ?_⟩
    have next : x ++ z = 47 :: 42 :: (inner ++ 42 :: 47 :: z) := by simp [taken]
    rw [next]
    change (commentRest m'.line (m'.right 2) (inner ++ 42 :: 47 :: z) >>= fun r =>
      return (Piece.gap r.2.1 [⟨r.1, true, true⟩], r.2.2)) = _
    rw [again]
    rfl
  · rename_i p r line remark comment whole
    have whole : x ++ y = p :: r := whole
    rw [whole] at pair
    unfold beginsPair at pair
    split at pair
    · rename_i q t same
      cases same
      simp only [pairs, Bool.or_eq_true, Bool.and_eq_true, beq_iff_eq] at pair
      rcases pair with ⟨rfl, rfl⟩ | ⟨rfl, rfl | rfl⟩
      · exact (line t rfl rfl).elim
      · exact (remark t rfl rfl).elim
      · exact (comment t rfl rfl).elim
    · cases pair

/-- A point that begins a number has a digit after it, which is part of the number. -/
theorem Decimal.point_digits (decimal : Decimal [46] y w part e) :
    headIs y Point.isDigit = false := by
  obtain ⟨written, digits, point, _, _⟩ := decimal
  have whole : w ++ (part ++ (e ++ y)) = 46 :: y := by
    rw [← List.append_assoc, ← List.append_assoc, ← written]
    rfl
  have none : w = [] := by
    rw [whole] at digits
    rw [← digits]
    rfl
  subst none
  rw [List.nil_append] at whole
  rw [whole] at point
  have point : 46 :: y.takeWhile Point.isDigit = part := point
  rw [List.nil_append, ← point, List.cons_append] at written
  have none := (List.append_eq_nil_iff.mp (List.cons.inj written).2.symm).1
  cases y with
  | nil => rfl
  | cons q y =>
    rw [List.takeWhile_cons] at none
    split at none
    · cases none
    · exact Bool.eq_false_iff.mpr ‹_›

/-- What has been read as a number begins one before any other text. -/
theorem number_begins {m n : Mark} {v : Value}
    (begins : p.isDigit || p == 46 && headIs (x ++ y) Point.isDigit)
    (read : number ⟨p :: x ++ y, m⟩ = .ok (v, ⟨y, n⟩)) :
    p.isDigit || p == 46 && headIs (x ++ z) Point.isDigit := by
  simp only [Bool.or_eq_true, Bool.and_eq_true, beq_iff_eq] at begins ⊢
  refine begins.imp_right ?_
  rintro ⟨rfl, digits⟩
  refine ⟨rfl, ?_⟩
  cases x with
  | nil =>
    rw [number_decimal_of rfl] at read
    obtain ⟨w, part, e, decimal, _⟩ := decimal_written read
    rw [List.nil_append, decimal.point_digits] at digits
    cases digits
  | cons q x => exact digits

/-- No number begins before a near text if none does before the text. -/
theorem number_apart (near : Near y z)
    (other : ¬(p.isDigit || p == 46 && headIs (x ++ y) Point.isDigit) = true) :
    ¬(p.isDigit || p == 46 && headIs (x ++ z) Point.isDigit) = true := by
  simp only [Bool.or_eq_true, Bool.and_eq_true, beq_iff_eq] at other ⊢
  refine fun begins => other (begins.imp_right ?_)
  rintro ⟨rfl, digits⟩
  refine ⟨rfl, ?_⟩
  cases none : headIs (x ++ y) Point.isDigit with
  | true => rfl
  | false =>
    have none := near.append.stop (fun q h => (break_outside q h).2.2.1) (headIs_false.mp none)
    rw [headIs_false.mpr none] at digits
    cases digits

theorem single_follows {m n m' : Mark} {made : Piece} (first : beginsPair (p :: x ++ y) = false)
    (second : beginsPair (p :: x ++ z) = false) (near : Near y z)
    (read : piece ⟨p :: x ++ y, m⟩ = .ok (made, ⟨y, n⟩)) :
    ∃ there, piece ⟨p :: x ++ z, m'⟩ = .ok (made, ⟨z, there⟩) := by
  rw [List.cons_append] at first second read ⊢
  rw [piece_single first] at read
  rw [piece_single second]
  split at read
  · rename_i gap
    simp only [Except.ok.injEq, Prod.mk.injEq, Cursor.mk.injEq] at read
    obtain ⟨rfl, moved, _⟩ := read
    cases List.append_left_eq_self.mp moved
    exact ⟨m'.right 1, by rw [if_pos gap]; rfl⟩
  rename_i gap
  rw [if_neg gap]
  split at read
  · rename_i lineEnd
    simp only [Except.ok.injEq, Prod.mk.injEq, Cursor.mk.injEq] at read
    obtain ⟨rfl, moved, _⟩ := read
    cases List.append_left_eq_self.mp moved
    exact ⟨m'.nextLine 1, by rw [if_pos lineEnd]; rfl⟩
  rename_i lineEnd
  rw [if_neg lineEnd]
  split at read
  · rename_i quote
    obtain ⟨⟨value, after⟩, more, same⟩ := bind_ok.mp read
    cases same
    obtain ⟨u, quoted, rest, _⟩ := stringRest_ok more
    cases List.append_cancel_right rest
    obtain ⟨there, again⟩ := quoted.reads (t := z)
      (by rcases quote with rfl | rfl <;> decide) (by rcases quote with rfl | rfl <;> decide)
    refine ⟨there, ?_⟩
    rw [if_pos quote, again]
    rfl
  rename_i quote
  rw [if_neg quote]
  split at read
  · rename_i digit
    obtain ⟨⟨value, after⟩, worth, same⟩ := bind_ok.mp read
    cases same
    have worth : number ⟨p :: x ++ y, m⟩ = .ok (value, ⟨y, n⟩) := worth
    obtain ⟨there, again⟩ := number_near near (by simp) worth m'
    refine ⟨there, ?_⟩
    rw [if_pos (number_begins digit worth), ← List.cons_append, again]
    rfl
  rename_i digit
  rw [if_neg (number_apart near digit)]
  split at read
  · rename_i starts
    rw [if_pos starts]
    simp only [Except.ok.injEq, Prod.mk.injEq, Cursor.right, Cursor.mk.injEq] at read
    obtain ⟨rfl, moved, _⟩ := read
    have taken := taken_of_drop (x := p :: x) (List.takeWhile_prefix continuesWord) moved
    have again : (p :: x ++ z).takeWhile continuesWord = p :: x :=
      takeWhile_near (fun q h => (break_outside q h).1) near taken
    refine ⟨m'.right (p :: x).length, ?_⟩
    rw [List.cons_append] at again taken
    simp only [again, taken, Cursor.right]
    rw [← List.cons_append, List.drop_left]
  rename_i starts
  rw [if_neg starts]
  split at read
  · rename_i kind found
    simp only [Except.ok.injEq, Prod.mk.injEq, Cursor.right, Cursor.mk.injEq] at read
    obtain ⟨rfl, moved, _⟩ := read
    have begins := List.find?_some found
    have begins := List.isPrefixOf_iff_prefix.mp begins
    have taken := taken_of_drop (x := p :: x) begins moved
    rw [← List.cons_append, ← taken] at found
    have again := operator?_near near found
    refine ⟨m'.right (p :: x).length, ?_⟩
    rw [taken] at again
    rw [← List.cons_append, again]
    simp only [taken, Cursor.right, List.drop_left]
  · cases read

/-- A piece is the same before a text that may stand in place of what follows it. -/
theorem piece_follows {m n m' : Mark} {made : Piece} (some : x ≠ [])
    (read : piece ⟨x ++ y, m⟩ = .ok (made, ⟨y, n⟩)) (follows : Follows x y z) :
    ∃ there, piece ⟨x ++ z, m'⟩ = .ok (made, ⟨z, there⟩) := by
  by_cases pair : beginsPair (x ++ y)
  · exact pair_follows pair some read follows
  · obtain ⟨p, x, rfl⟩ := List.exists_cons_of_ne_nil some
    have pair := Bool.eq_false_iff.mpr pair
    refine single_follows pair (beginsPair_near follows.near pair ?_) follows.near read
    rintro rfl rfl q first rfl
    rcases follows 10 first with old | ⟨_, ends⟩
    · obtain ⟨y, rfl⟩ := List.head?_eq_some_iff.mp old
      cases pair
    · cases ends

/-- No code point after a token is a line feed or a remark that its text goes on with. -/
theorem token_apart {c after : Cursor} {k : TokenKind} {v : Value} {q : Point}
    (read : piece c = .ok (.token k v, after)) (front : x <+: c.rest) : goesOn x q = false := by
  unfold piece at read
  split at read
  · cases read
  · cases read
  · cases read
  · obtain ⟨_, _, made⟩ := bind_ok.mp read
    cases made
  · rename_i p r line remark comment whole
    have lineEnd : p ≠ Point.carriageReturn := by
      rintro rfl
      cases read
    rw [whole] at front
    refine Bool.eq_false_iff.mpr fun more => ?_
    simp only [goesOn, Bool.or_eq_true, Bool.and_eq_true, beq_iff_eq,
      List.isPrefixOf_iff_prefix] at more
    rcases more with ⟨rfl, _⟩ | ⟨slashes, _⟩
    · exact lineEnd (List.cons_prefix_cons.mp front).1.symm
    · obtain ⟨t, same⟩ := slashes.trans front
      cases same
      exact remark t rfl rfl

end ScriptTree.Scan
