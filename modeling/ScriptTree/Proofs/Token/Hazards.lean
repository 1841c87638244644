import Mathlib.Data.Option.Basic
import ScriptTree.Proofs.Token.Locality

/-!
Where the scan of a source stops without a fault that it reports: at an escape that names no code
point, and at a number with a digit that is not decimal or with too many digits.
-/
namespace ScriptTree

/-- A failure of the scan that it reports. -/
def Error.IsScan : Error → Prop
  | .scan .. => True
  | _ => False

namespace Scan

section Numbers

variable {t w part e x y : Text} {v : Value} {m : Mark} {p : Point}

/-- The digits of a number cannot be read: one of them is not decimal, or an integer has too many
of them. -/
def Unreadable (whole part exponent : Text) : Prop :=
  (∃ c ∈ whole ++ part ++ exponent, c.isDigit ∧ c.decimalValue? = none) ∨
    (part = [] ∧ exponent = [] ∧ Numeral.digitLimit < whole.length)

theorem decimalDigits?_none :
    Numeral.decimalDigits? t = none ↔ ∃ c ∈ t, c.decimalValue? = none := by
  induction t with
  | nil => simp [Numeral.decimalDigits?]
  | cons c t ih =>
    rw [Numeral.decimalDigits?] at ih ⊢
    rw [List.mapM_cons]
    cases first : c.decimalValue? with
    | none => simp [first]
    | some d =>
      cases rest : t.mapM Point.decimalValue? with
      | none => simpa [first, rest] using ih
      | some ds => simpa [first, rest] using ih

theorem exists_undecided (all : t.all Point.isDigit) :
    (∃ c ∈ t, c.isDigit ∧ c.decimalValue? = none) ↔ Numeral.decimalDigits? t = none := by
  rw [decimalDigits?_none]
  exact exists_congr fun c => and_congr_right fun mem =>
    and_iff_right (List.all_eq_true.mp all c mem)

theorem decimalDigits?_nil {digits : List Nat} (read : Numeral.decimalDigits? t = some digits)
    (some : t ≠ []) : digits ≠ [] := by
  cases t with
  | nil => exact absurd rfl some
  | cons c t =>
    rw [Numeral.decimalDigits?, List.mapM_cons] at read
    rintro rfl
    cases first : c.decimalValue? with
    | none => simp [first] at read
    | some d => cases rest : t.mapM Point.decimalValue? <;> simp [first, rest] at read

theorem signText_cases (t : Text) : signText t = [] ∨ signText t = [43] ∨ signText t = [45] := by
  unfold signText
  split
  · rename_i sign
    cases t with
    | nil => cases sign
    | cons c t =>
      rcases Bool.or_eq_true_iff.mp sign with plus | minus
      · exact .inr (.inl (by rw [eq_of_beq plus]; rfl))
      · exact .inr (.inr (by rw [eq_of_beq minus]; rfl))
  · exact .inl rfl

inductive IsExponent : Text → Prop
  | none : IsExponent []
  | some {mark : Point} {sign digits : Text} (marks : mark = 101 ∨ mark = 69)
      (signs : sign = [] ∨ sign = [43] ∨ sign = [45]) (present : digits ≠ [])
      (all : digits.all Point.isDigit) : IsExponent (mark :: (sign ++ digits))

theorem exponentText?_shape (read : exponentText? (e ++ y) = some e) : IsExponent e := by
  cases e with
  | nil => exact .none
  | cons p r =>
    rw [List.cons_append, exponentText?_cons] at read
    split at read
    · rename_i mark
      split at read
      · cases read
      · rename_i present
        rw [← (List.cons.inj (Option.some.inj read)).2]
        exact .some mark (signText_cases _) (fun none => present (List.isEmpty_iff.mpr none))
          List.all_takeWhile
    · cases read

/-- The sign of an exponent is told from its digits. -/
theorem readExponent?_signed {mark : Point} {sign digits : Text} (marks : mark = 101 ∨ mark = 69)
    (signs : sign = [] ∨ sign = [43] ∨ sign = [45]) (all : digits.all Point.isDigit) :
    Numeral.readExponent? (mark :: (sign ++ digits)) =
      match Numeral.decimalDigits? digits with
      | some (d :: ds) =>
        let n : Int := Numeral.ofDigits 10 (d :: ds)
        some (if sign == [45] then -n else n)
      | _ => none := by
  unfold Numeral.readExponent?
  simp only [if_pos marks]
  rcases signs with rfl | rfl | rfl
  · cases digits with
    | nil => rfl
    | cons c more =>
      have first : Point.isDigit c := List.all_eq_true.mp all c List.mem_cons_self
      have plus : c ≠ 43 := by
        rintro rfl
        cases (by decide : Point.isDigit 43 = false).symm.trans first
      have minus : c ≠ 45 := by
        rintro rfl
        cases (by decide : Point.isDigit 45 = false).symm.trans first
      cases read : Numeral.decimalDigits? (c :: more) with
      | none => simp [plus, minus, read]
      | some ds => cases ds <;> simp [plus, minus, read]
  · rfl
  · rfl

/-- An exponent is read unless one of its digits is not decimal. -/
theorem readExponent?_none (exponent : IsExponent e) : Numeral.readExponent? e = none ↔
    ∃ c ∈ e, c.isDigit ∧ c.decimalValue? = none := by
  cases exponent with
  | none => simp [Numeral.readExponent?]
  | @some mark sign digits marks signs present all =>
    have mark' : Point.isDigit mark = false := by rcases marks with rfl | rfl <;> decide
    have signs' : ∀ c ∈ sign, Point.isDigit c = false := by
      rcases signs with rfl | rfl | rfl <;> simp <;> decide
    have rest : (∃ c ∈ mark :: (sign ++ digits), c.isDigit ∧ c.decimalValue? = none) ↔
        ∃ c ∈ digits, c.isDigit ∧ c.decimalValue? = none := by
      constructor
      · rintro ⟨c, mem, digit, none⟩
        rcases List.mem_cons.mp mem with rfl | mem
        · rw [mark'] at digit
          cases digit
        · rcases List.mem_append.mp mem with sign | here
          · rw [signs' c sign] at digit
            cases digit
          · exact ⟨c, here, digit, none⟩
      · rintro ⟨c, mem, found⟩
        exact ⟨c, List.mem_cons_of_mem _ (List.mem_append_right _ mem), found⟩
    rw [rest, exists_undecided all, readExponent?_signed marks signs all]
    cases read : Numeral.decimalDigits? digits with
    | none => simp
    | some ds =>
      cases ds with
      | nil => exact absurd rfl (decimalDigits?_nil read present)
      | cons d ds => simp

theorem IsExponent.stop (exponent : IsExponent e) : ∀ q ∈ e.head?, Point.isDigit q = false := by
  cases exponent with
  | none => simp
  | some marks => rcases marks with rfl | rfl <;> simp <;> decide

/-- What the reading of a fraction makes of its three parts. -/
theorem readFraction?_parts {negative : Bool} {digits : Text} (whole : w.all Point.isDigit)
    (point : part = [] ∧ digits = [] ∨ part = 46 :: digits) (inner : digits.all Point.isDigit)
    (exponent : IsExponent e) : Numeral.readFraction? negative (w ++ part ++ e) = (do
      let ds ← Numeral.decimalDigits? (w ++ digits)
      guard (ds ≠ [])
      let n ← Numeral.readExponent? e
      return Binary64.ofDecimal negative (Numeral.ofDigits 10 ds) (n - digits.length)) := by
  have stop : ∀ q ∈ (part ++ e).head?, Point.isDigit q = false := by
    rcases point with ⟨rfl, rfl⟩ | rfl
    · exact exponent.stop
    · simp
      decide
  have first := takeWhile_append whole stop
  have rest : (w ++ (part ++ e)).dropWhile Point.isDigit = part ++ e := by
    refine (List.append_right_inj w).mp ?_
    have split := List.takeWhile_append_dropWhile (p := Point.isDigit) (l := w ++ (part ++ e))
    rwa [first] at split
  rw [List.append_assoc, Numeral.readFraction?, first, rest]
  rcases point with ⟨rfl, rfl⟩ | rfl
  · cases exponent with
    | none => rfl
    | some marks => rcases marks with rfl | rfl <;> rfl
  · have second := takeWhile_append inner exponent.stop
    have last : (digits ++ e).dropWhile Point.isDigit = e := by
      refine (List.append_right_inj digits).mp ?_
      have split := List.takeWhile_append_dropWhile (p := Point.isDigit) (l := digits ++ e)
      rwa [second] at split
    simp only [List.cons_append, second, last]

theorem Decimal.whole_digits (decimal : Decimal x y w part e) : w.all Point.isDigit := by
  rw [← decimal.digits]
  exact List.all_takeWhile

/-- The part after the whole digits is nothing, or a point with digits after it. -/
theorem Decimal.part_shape (decimal : Decimal x y w part e) :
    ∃ digits, (part = [] ∧ digits = [] ∨ part = 46 :: digits) ∧ digits.all Point.isDigit := by
  have point := decimal.point
  rw [pointText] at point
  split at point
  · exact ⟨_, .inr point.symm, List.all_takeWhile⟩
  · exact ⟨[], .inl ⟨point.symm, rfl⟩, rfl⟩

/-- A number in decimal is read unless one of its digits is not decimal or it is too long. -/
theorem Decimal.worth_none (decimal : Decimal x y w part e) (some : ∃ c ∈ w ++ part, c.isDigit) :
    decimalWorth? w part e = none ↔ Unreadable w part e := by
  have whole := decimal.whole_digits
  have exponent := exponentText?_shape decimal.power
  obtain ⟨digits, point, inner⟩ := decimal.part_shape
  have among : (∃ c ∈ w ++ part ++ e, c.isDigit ∧ c.decimalValue? = none) ↔
      Numeral.decimalDigits? (w ++ digits) = none ∨ Numeral.readExponent? e = none := by
    have dot : Point.isDigit 46 = false := by decide
    rw [← exists_undecided (by simp [whole, inner]), readExponent?_none exponent]
    rcases point with ⟨rfl, rfl⟩ | rfl <;> simp [or_and_right, exists_or, dot, or_assoc]
  have present : w ++ digits ≠ [] := by
    rintro none
    obtain ⟨rfl, rfl⟩ := List.append_eq_nil_iff.mp none
    obtain ⟨c, mem, digit⟩ := some
    rcases point with ⟨rfl, _⟩ | rfl
    · cases mem
    · cases List.mem_singleton.mp mem
      cases (by decide : Point.isDigit 46 = false).symm.trans digit
  rw [decimalWorth?, Unreadable, among]
  split
  · rename_i integer
    obtain ⟨rfl, rfl⟩ : part = [] ∧ e = [] := by simpa using integer
    rcases point with ⟨_, rfl⟩ | nonempty
    · simp only [List.append_nil, Option.map_eq_none_iff, Numeral.readNat?, Numeral.readExponent?]
      split
      · rename_i short
        cases Numeral.decimalDigits? w <;> simp [Nat.not_lt.mpr short]
      · rename_i long
        simp [Nat.not_le.mp long]
    · cases nonempty
  · rename_i fraction
    have noInteger : ¬(part = [] ∧ e = [] ∧ Numeral.digitLimit < w.length) := by
      rintro ⟨rfl, rfl, _⟩
      exact fraction rfl
    rw [or_iff_left noInteger, Option.map_eq_none_iff,
      readFraction?_parts whole point inner exponent]
    cases read : Numeral.decimalDigits? (w ++ digits) with
    | none => simp
    | some ds =>
      have found := decimalDigits?_nil read present
      have counted : guard (ds ≠ []) = (pure () : Option Unit) := if_pos found
      rw [Option.bind_eq_bind, Option.bind_some, counted]
      cases Numeral.readExponent? e <;> simp

end Numbers

/-- A text begins with a token that the scan gives up on without reporting a fault: a string with
an escape in it that names no code point, or a number in decimal that cannot be read. -/
inductive Hazard : Text → Prop
  | string {quote : Point} {t : Text}
      (quotes : quote = Point.doubleQuote ∨ quote = Point.apostrophe)
      (strayed : Strayed quote t) : Hazard (quote :: t)
  | number {w part e y : Text}
      (starts : headIs (w ++ part ++ e ++ y) Point.isDigit ∨
        headIs (w ++ part ++ e ++ y) (· == 46) ∧
          headIs ((w ++ part ++ e ++ y).drop 1) Point.isDigit)
      (plain : marksHex (w ++ part ++ e ++ y) = false)
      (decimal : Decimal (w ++ part ++ e) y w part e) (unreadable : Unreadable w part e) :
      Hazard (w ++ part ++ e ++ y)

variable {c d : Cursor} {e : Error} {t : Text} {m : Mark} {v : Value}

theorem error_of_map {α β : Type} {x : Except Error α} {f : α → β}
    (failed : (do let a ← x; return f a) = .error e) : x = .error e := by
  cases x <;> cases failed
  rfl

theorem commentRest_error {line : Nat} (failed : commentRest line m t = .error e) :
    e.IsScan := by
  induction t generalizing m with
  | nil =>
    cases failed
    trivial
  | cons p t ih =>
    unfold commentRest at failed
    split at failed
    · rename_i same
      cases same
    · cases failed
    · rename_i same
      cases same
      exact ih (error_of_map failed)

/-- A number that is no hazard fails only with a fault. -/
theorem number_error {f : Error} (failed : number c = .error f) : f.IsScan ∨
    marksHex c.rest = false ∧ ∃ w part e y, c.rest = w ++ part ++ e ++ y ∧
      Decimal (w ++ part ++ e) y w part e ∧ decimalWorth? w part e = none ∧
        f = .unreadableNumber := by
  by_cases hex : marksHex c.rest
  · obtain ⟨k, r, rest, mark⟩ := marksHex_iff.mp hex
    simp only [number, rest, if_pos mark] at failed
    split at failed
    · cases failed
      exact .inl trivial
    · cases failed
  · have plain := Bool.eq_false_iff.mpr hex
    rw [number_decimal_of plain] at failed
    rcases decimal_cases c.rest c.mark with ⟨fault, n, faulty⟩ | ⟨w, part, e, y, split, decimal⟩
    · cases faulty.symm.trans failed
      exact .inl trivial
    · have whole : c = ⟨w ++ part ++ e ++ y, c.mark⟩ := by rw [← split]
      rw [whole, decimal.result] at failed
      cases worth : decimalWorth? w part e with
      | none =>
        rw [worth] at failed
        cases failed
        exact .inr ⟨plain, w, part, e, y, split, decimal, worth, rfl⟩
      | some v =>
        rw [worth] at failed
        cases failed

/-- What begins as a number has a digit before its exponent. -/
theorem Decimal.some_digit {w part f y : Text} (decimal : Decimal (w ++ part ++ f) y w part f)
    (starts : headIs (w ++ part ++ f ++ y) Point.isDigit ∨
      headIs (w ++ part ++ f ++ y) (· == 46) ∧
        headIs ((w ++ part ++ f ++ y).drop 1) Point.isDigit) :
    ∃ c ∈ w ++ part, c.isDigit := by
  have digits := decimal.digits
  have point := decimal.point
  rw [List.append_assoc, List.append_assoc] at starts
  cases w with
  | cons p w =>
    have all : (p :: w).all Point.isDigit := by
      rw [← digits]
      exact List.all_takeWhile
    exact ⟨p, List.mem_append_left _ List.mem_cons_self,
      List.all_eq_true.mp all p List.mem_cons_self⟩
  | nil =>
    rw [List.nil_append] at starts digits ⊢
    rcases starts with first | ⟨dot, second⟩
    · cases rest : part ++ (f ++ y) with
      | nil =>
        rw [rest] at first
        cases first
      | cons q r =>
        rw [rest] at digits first
        rw [List.takeWhile_cons_of_pos (show q.isDigit from first)] at digits
        cases digits
    · rw [pointText, if_pos dot] at point
      cases rest : (part ++ (f ++ y)).drop 1 with
      | nil =>
        rw [rest] at second
        cases second
      | cons q r =>
        rw [rest] at point second
        rw [List.takeWhile_cons_of_pos (show q.isDigit from second)] at point
        exact ⟨q, by rw [← point]; simp, second⟩

/-- The scan stops with a fault, or at a hazard and without a notice. -/
theorem piece_error (failed : piece c = .error e) :
    e.IsScan ∨ Hazard c.rest ∧ e.notice? = none := by
  unfold piece at failed
  split at failed
  · cases failed
  · cases failed
  · cases failed
  · exact .inl (commentRest_error (error_of_map failed))
  rename_i p r _ _ _ whole
  split at failed
  · cases failed
  split at failed
  · cases failed
  split at failed
  · rename_i quotes
    rcases stringRest_error (error_of_map failed) with ⟨strayed, error⟩ | ⟨_, _, _, rfl⟩
    · rw [whole]
      exact .inr ⟨.string quotes strayed, by rcases error with rfl | rfl <;> rfl⟩
    · exact .inl trivial
  split at failed
  · rename_i starts
    refine (number_error (error_of_map failed)).imp_right ?_
    rintro ⟨plain, w, part, f, y, split, decimal, worth, rfl⟩
    have starts : headIs (w ++ part ++ f ++ y) Point.isDigit ∨
        headIs (w ++ part ++ f ++ y) (· == 46) ∧
          headIs ((w ++ part ++ f ++ y).drop 1) Point.isDigit := by
      rw [← split, whole]
      simpa [headIs] using starts
    rw [split] at plain ⊢
    exact ⟨.number starts plain decimal ((decimal.worth_none (decimal.some_digit starts)).mp worth),
      rfl⟩
  split at failed
  · cases failed
  split at failed
  · cases failed
  · cases failed
    exact .inl trivial

/-- What begins a number begins nothing else. -/
theorem number_only {p : Point} (starts : p.isDigit ∨ p = 46) :
    isGap p = false ∧ p.isLineEnd = false ∧ ¬(p = Point.doubleQuote ∨ p = Point.apostrophe) ∧
      beginsPair (p :: t) = false := by
  have other : ∀ q ∈ [13, 47, 32, 9, 0xFEFF, 0xA0, 10, 0x2028, 0x2029, 34, 39], p ≠ q := by
    intro q mem same
    subst same
    have none : ([13, 47, 32, 9, 0xFEFF, 0xA0, 10, 0x2028, 0x2029, 34, 39].all fun q =>
      !Point.isDigit q && q != 46) = true := by decide +kernel
    have neither := List.all_eq_true.mp none p mem
    rcases starts with digit | rfl
    · simp [digit] at neither
    · cases neither
  simp only [List.mem_cons, List.not_mem_nil, or_false, forall_eq_or_imp, forall_eq] at other
  obtain ⟨h13, h47, h32, h9, hBom, hNbsp, h10, h2028, h2029, h34, h39⟩ := other
  refine ⟨?_, ?_, ?_, ?_⟩
  · simp [isGap, h32, h9, hBom, hNbsp]
  · simp [Point.isLineEnd, h10, h13, h2028, h2029]
  · simp [h34, h39]
  · cases t <;> simp [beginsPair, pairs, h13, h47]

/-- At a hazard the scan stops without a fault. -/
theorem Hazard.fails (hazard : Hazard t) : ∃ e, piece ⟨t, m⟩ = .error e ∧ ¬e.IsScan := by
  cases hazard with
  | @string quote t quotes strayed =>
    have single : beginsPair (quote :: t) = false := by
      cases t with
      | nil => rfl
      | cons => rcases quotes with rfl | rfl <;> rfl
    have others : isGap quote = false ∧ quote.isLineEnd = false ∧ quote ≠ Point.backslash := by
      rcases quotes with rfl | rfl <;> decide
    obtain ⟨gap, line, inside⟩ := others
    obtain ⟨e, failed, error⟩ := strayed.fails m (m.right 1) inside
    refine ⟨e, ?_, by rcases error with rfl | rfl <;> exact not_false⟩
    simp only [piece_single single, gap, line, Bool.false_eq_true, if_false, if_pos quotes, failed]
    rfl
  | @number w part f y starts plain decimal unreadable =>
    have worth := (decimal.worth_none (decimal.some_digit starts)).mpr unreadable
    have failed := number_decimal_of (c := ⟨w ++ part ++ f ++ y, m⟩) plain
    rw [decimal.result, worth] at failed
    refine ⟨.unreadableNumber, ?_, not_false⟩
    generalize w ++ part ++ f ++ y = text at starts failed
    cases text with
    | nil => rcases starts with starts | ⟨starts, _⟩ <;> cases starts
    | cons p t =>
      have starts : (p.isDigit || p == 46 && headIs t Point.isDigit) = true := by
        simpa [headIs] using starts
      obtain ⟨gap, line, quote, single⟩ := number_only (p := p) (t := t) <| by
        simp only [Bool.or_eq_true, Bool.and_eq_true, beq_iff_eq] at starts
        exact starts.imp_right And.left
      simp only [piece_single single, gap, line, Bool.false_eq_true, if_false, if_neg quote,
        if_pos starts, failed]
      rfl

inductive Advances : Cursor → Cursor → Prop
  | here {c : Cursor} : Advances c c
  | further {c d e : Cursor} {p : Piece} (some : c.rest ≠ []) (read : piece c = .ok (p, d))
      (more : Advances d e) : Advances c e

/-- The scan fails exactly as it does at a piece that it comes to. -/
theorem tokensFrom_error {steps : Nat} {pending : Pending} (enough : c.rest.length ≤ steps) :
    tokensFrom steps c pending = .error e ↔
      ∃ d, Advances c d ∧ d.rest ≠ [] ∧ piece d = .error e := by
  induction steps generalizing c pending with
  | zero =>
    have none : c.rest = [] := List.length_eq_zero_iff.mp (Nat.le_zero.mp enough)
    refine ⟨nofun, ?_⟩
    rintro ⟨d, advances, some, failed⟩
    cases advances with
    | here => exact absurd none some
    | further some => exact absurd none some
  | succ steps ih =>
    by_cases none : c.rest = []
    · rw [tokensFrom, if_pos (List.isEmpty_iff.mpr none)]
      refine ⟨nofun, ?_⟩
      rintro ⟨d, advances, some, failed⟩
      cases advances with
      | here => exact absurd none some
      | further some => exact absurd none some
    rw [tokensFrom, if_neg (by simpa using none)]
    cases taken : piece c with
    | error f =>
      refine ⟨fun same => ⟨c, .here, none, taken.trans (by rw [Except.error.inj same])⟩, ?_⟩
      rintro ⟨d, advances, some, failed⟩
      cases advances with
      | here => exact congrArg _ (Except.error.inj (taken.symm.trans failed))
      | further _ read => cases taken.symm.trans read
    | ok made =>
      obtain ⟨p, d⟩ := made
      have less := piece_shorter none taken
      have onward : (∃ f, Advances c f ∧ f.rest ≠ [] ∧ piece f = .error e) ↔
          ∃ f, Advances d f ∧ f.rest ≠ [] ∧ piece f = .error e := by
        constructor
        · rintro ⟨f, advances, some, failed⟩
          cases advances with
          | here => cases taken.symm.trans failed
          | further _ read more =>
            cases taken.symm.trans read
            exact ⟨f, more, some, failed⟩
        · rintro ⟨f, more, found⟩
          exact ⟨f, .further none taken more, found⟩
      rw [onward]
      cases p with
      | gap newline comments => exact ih (by omega)
      | token kind value =>
        rw [← ih (by omega)]
        cases rest : tokensFrom steps d {} <;> simp [rest]

end Scan

/-- The scan of a text comes to a hazard. -/
def Hazardous (source : Text) : Prop :=
  ∃ c, Scan.Advances ⟨source, Mark.first⟩ c ∧ Scan.Hazard c.rest

variable {source : Text} {e : Error}

/-- The scan fails with a fault, or at a hazard and without a notice. -/
theorem tokenize_error (failed : tokenize source = .error e) :
    e.IsScan ∨ Hazardous source ∧ e.notice? = none := by
  obtain ⟨c, advances, _, failed⟩ := (Scan.tokensFrom_error (Nat.le_refl source.length)).mp failed
  exact (Scan.piece_error failed).imp_right fun ⟨hazard, silent⟩ => ⟨⟨c, advances, hazard⟩, silent⟩

theorem Hazardous.fails (hazardous : Hazardous source) :
    ∃ e, tokenize source = .error e ∧ ¬e.IsScan := by
  obtain ⟨c, advances, hazard⟩ := hazardous
  obtain ⟨e, failed, silent⟩ := hazard.fails (m := c.mark)
  have some : c.rest ≠ [] := by
    intro none
    rw [none] at failed
    cases failed
  exact ⟨e, (Scan.tokensFrom_error (Nat.le_refl source.length)).mpr ⟨c, advances, some, failed⟩,
    silent⟩

end ScriptTree
