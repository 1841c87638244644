import ScriptTree.Proofs.Token.Faithful

/-!
What the reading of a string does from some place inside it: it comes to the closing quote, takes a
stroke, or stops there, at an escape that names no code point or at a fault.
-/
namespace ScriptTree.Scan

variable {quote p : Point} {t u r vs value digits : Text} {start here m n : Mark} {after : Cursor}

/-- An escape that names a code point by hexadecimal digits. -/
inductive Escape : Text → Text → Prop
  | hex {a b : Point} : Escape [Point.backslash, 120, a, b] [a, b]
  | unicode {a b c d : Point} (plain : a ≠ 123) :
      Escape [Point.backslash, 117, a, b, c, d] [a, b, c, d]
  | braced {digits : Text} (within : 125 ∉ digits) :
      Escape ([Point.backslash, 117, 123] ++ digits ++ [125]) digits

/-- What stands in a string for one code point, or for none where a line goes on in the next. -/
inductive Stroke (quote : Point) : Text → Text → Prop
  | plain {c : Point} (line : ¬(c = Point.lineFeed ∨ c = Point.carriageReturn))
      (inside : c ≠ quote) (escape : c ≠ Point.backslash) : Stroke quote [c] [c]
  | simple {e p : Point} (simple : simpleEscape? e = some p) :
      Stroke quote [Point.backslash, e] [p]
  | self {e : Point} (simple : simpleEscape? e = none)
      (other : e ≠ 120 ∧ e ≠ 117 ∧ e ≠ Point.lineFeed) : Stroke quote [Point.backslash, e] [e]
  | named {u digits : Text} {p : Point} (escape : Escape u digits)
      (named : namedPoint digits Mark.first = .ok p) : Stroke quote u [p]
  | lineFeed : Stroke quote [Point.backslash, Point.lineFeed] []
  | lineEnd : Stroke quote [Point.backslash, Point.carriageReturn, Point.lineFeed] []

/-- Digits are those of a number, but no code point has that number. -/
def Astray (digits : Text) : Prop :=
  ∃ n, Numeral.readHex? digits = some n ∧ (n < 0 ∨ 0x10FFFF < n)

theorem namedPoint_mark (named : namedPoint digits m = .ok p) : namedPoint digits n = .ok p := by
  unfold namedPoint at *
  split at named <;> simp_all [fail]

/-- Digits go astray exactly if the failure at them is none of the scan's faults. -/
theorem namedPoint_astray : Astray digits ↔
    ∃ e, namedPoint digits m = .error e ∧ (e = .hugePoint ∨ e = .noSuchPoint) := by
  rw [Astray, namedPoint]
  cases Numeral.readHex? digits with
  | none => simp [fail]
  | some n =>
    simp only [Option.some.injEq, exists_eq_left']
    split
    · rename_i huge
      refine iff_of_true (by omega) ⟨_, rfl, .inl rfl⟩
    · split
      · rename_i outside
        exact iff_of_true outside ⟨_, rfl, .inr rfl⟩
      · rename_i inside
        exact iff_of_false inside (by simp)

/-- What becomes of the digits of an escape. -/
theorem namedPoint_cases (digits : Text) (m : Mark) :
    (∃ p, namedPoint digits m = .ok p) ∨
    (Astray digits ∧ ∃ e, namedPoint digits m = .error e ∧ (e = .hugePoint ∨ e = .noSuchPoint)) ∨
    ∃ fault, namedPoint digits m = fail fault m := by
  by_cases astray : Astray digits
  · exact .inr (.inl ⟨astray, namedPoint_astray.1 astray⟩)
  · unfold namedPoint
    split
    · exact .inr (.inr ⟨_, rfl⟩)
    · rename_i n read
      have inside : ¬(n < 0 ∨ 0x10FFFF < n) := fun outside => astray ⟨n, read, outside⟩
      rw [if_neg (by omega), if_neg inside]
      exact .inl ⟨_, rfl⟩

theorem Stroke.ne_nil (stroke : Stroke quote u vs) : u ≠ [] := by
  cases stroke with
  | named escape => cases escape <;> simp
  | _ => simp

def pushed (vs : Text) (x : Except Error (Text × Cursor)) : Except Error (Text × Cursor) := do
  let (value, after) ← x
  return (vs ++ value, after)

theorem pushed_nil (x : Except Error (Text × Cursor)) : pushed [] x = x := by
  cases x <;> rfl

theorem pushed_ok {x : Except Error (Text × Cursor)} :
    pushed vs x = .ok (value, after) ↔ ∃ rest, x = .ok (rest, after) ∧ value = vs ++ rest := by
  rw [pushed, bind_ok]
  constructor
  · rintro ⟨⟨rest, _⟩, read, same⟩
    cases same
    exact ⟨rest, read, rfl⟩
  · rintro ⟨rest, read, rfl⟩
    exact ⟨_, read, rfl⟩

theorem pushed_error {x : Except Error (Text × Cursor)} {e : Error} :
    pushed vs x = .error e ↔ x = .error e := by
  cases x <;> simp [pushed, bind, Except.bind, pure, Except.pure]

/-- What is read from inside a braced escape up to its closing brace. -/
theorem bracedEscape_closed {more : Text} (quote : Point) (start here : Mark) (digits t : Text)
    (within : 125 ∉ more) :
    ∃ m, bracedEscape quote start here digits (more ++ 125 :: t) =
      (namedPoint (digits ++ more) m >>= fun p =>
        pushed [p] (stringRest quote start (here.right (more.length + 1)) t)) := by
  induction more generalizing digits here with
  | nil =>
    refine ⟨here.right 1, ?_⟩
    rw [List.nil_append, bracedEscape.eq_def, List.append_nil]
    simp only [if_true]
    rfl
  | cons c more ih =>
    obtain ⟨other, within⟩ := List.ne_and_not_mem_of_not_mem_cons within
    obtain ⟨m, read⟩ := ih (here.right 1) (digits ++ [c]) within
    have moved : (here.right 1).right (more.length + 1) = here.right (more.length + 1 + 1) := by
      simp only [Mark.right, Mark.mk.injEq, true_and]
      omega
    refine ⟨m, ?_⟩
    rw [List.cons_append, bracedEscape.eq_def]
    simp only [other.symm, if_false, read, moved, List.append_assoc, List.singleton_append,
      List.length_cons]

theorem bracedEscape_open (quote : Point) (start here : Mark) (digits : Text) (within : 125 ∉ t) :
    ∃ m, bracedEscape quote start here digits t = fail .openEscape m := by
  induction t generalizing digits here with
  | nil => exact ⟨here, by rw [bracedEscape.eq_def]⟩
  | cons c t ih =>
    obtain ⟨other, within⟩ := List.ne_and_not_mem_of_not_mem_cons within
    obtain ⟨m, read⟩ := ih (here.right 1) (digits ++ [c]) within
    refine ⟨m, ?_⟩
    rw [bracedEscape.eq_def]
    simp only [other.symm, if_false, read]

/-- The place after a braced escape is the place after its closing brace. -/
theorem braced_right : (here.right 3).right (digits.length + 1) =
    here.right ([Point.backslash, 117, 123] ++ digits ++ [125]).length := by
  simp only [Mark.right, List.length_append, List.length_cons, List.length_nil, Mark.mk.injEq,
    true_and]
  omega

theorem backslash_inline :
    ¬(Point.backslash = Point.lineFeed ∨ Point.backslash = Point.carriageReturn) := by
  decide

/-- An escape is read by its digits, and the string goes on after it. -/
theorem Escape.reads (escape : Escape u digits) (inside : quote ≠ Point.backslash) :
    ∃ m, stringRest quote start here (u ++ t) = (namedPoint digits m >>= fun p =>
      pushed [p] (stringRest quote start (here.right u.length) t)) := by
  cases escape with
  | hex =>
    refine ⟨here.right 4, ?_⟩
    change stringRest quote start here (Point.backslash :: 120 :: _ :: _ :: t) = _
    rw [stringRest.eq_def]
    simp only [backslash_inline, inside.symm, if_false, ne_eq, not_true, simpleEscape?, if_true]
    rfl
  | unicode other =>
    refine ⟨here.right 6, ?_⟩
    change stringRest quote start here (Point.backslash :: 117 :: _ :: _ :: _ :: _ :: t) = _
    rw [stringRest.eq_def]
    simp only [backslash_inline, inside.symm, if_false, ne_eq, not_true, simpleEscape?, if_true]
    rw [if_neg (by decide)]
    rfl
  | @braced digits within =>
    obtain ⟨m, read⟩ := bracedEscape_closed quote start (here.right 3) [] t within
    refine ⟨m, ?_⟩
    have whole : [Point.backslash, 117, 123] ++ digits ++ [125] ++ t =
        Point.backslash :: 117 :: 123 :: (digits ++ 125 :: t) := by simp
    rw [whole, stringRest.eq_def]
    simp only [backslash_inline, inside.symm, if_false, ne_eq, not_true, simpleEscape?, if_true,
      read, braced_right]
    rfl

/-- The place after a stroke: one that stands for no code point ends the line. -/
def across (m : Mark) (u vs : Text) : Mark :=
  if vs.isEmpty then m.nextLine u.length else m.right u.length

/-- A stroke is read as what it stands for, and the string goes on after it. -/
theorem Stroke.reads (stroke : Stroke quote u vs) (inside : quote ≠ Point.backslash)
    (apart : u = [Point.backslash, Point.carriageReturn] → t.head? ≠ some Point.lineFeed) :
    stringRest quote start here (u ++ t) =
      pushed vs (stringRest quote start (across here u vs) t) := by
  cases stroke with
  | plain line close escape =>
    rw [List.singleton_append, stringRest.eq_def]
    simp only [line, close, if_false, escape, ne_eq, not_false_eq_true, if_true]
    rfl
  | simple simple =>
    change stringRest quote start here (Point.backslash :: _ :: t) = _
    rw [stringRest.eq_def]
    simp only [backslash_inline, inside.symm, if_false, ne_eq, not_true, simple]
    rfl
  | @self e simple other =>
    change stringRest quote start here (Point.backslash :: e :: t) = _
    rw [stringRest.eq_def]
    simp only [backslash_inline, inside.symm, if_false, ne_eq, not_true, simple, other]
    split
    · exact absurd rfl (apart rfl)
    · rfl
  | named escape named =>
    obtain ⟨m, read⟩ := escape.reads (t := t) inside
    rw [read, namedPoint_mark named]
    rfl
  | lineFeed =>
    change stringRest quote start here (Point.backslash :: Point.lineFeed :: t) = _
    rw [stringRest.eq_def]
    simp only [backslash_inline, inside.symm, if_false, ne_eq, not_true, simpleEscape?, if_true]
    exact (pushed_nil _).symm
  | lineEnd =>
    change stringRest quote start here
      (Point.backslash :: Point.carriageReturn :: Point.lineFeed :: t) = _
    rw [stringRest.eq_def]
    simp only [backslash_inline, inside.symm, if_false, ne_eq, not_true, simpleEscape?]
    exact (pushed_nil _).symm

inductive Strides (quote : Point) (start here : Mark) :
    Text → Except Error (Text × Cursor) → Prop
  | close {r : Text} : Strides quote start here (quote :: r) (.ok ([], ⟨r, here.right 1⟩))
  | stroke {u vs r : Text} {there : Mark} (stroke : Stroke quote u vs)
      (apart : u = [Point.backslash, Point.carriageReturn] → r.head? ≠ some Point.lineFeed)
      (moved : there.offset = here.offset + u.length) :
      Strides quote start here (u ++ r) (pushed vs (stringRest quote start there r))
  | astray {u digits r : Text} {e : Error} (escape : Escape u digits) (astray : Astray digits)
      (error : e = .hugePoint ∨ e = .noSuchPoint) : Strides quote start here (u ++ r) (.error e)
  | fault {t : Text} {fault : ScanFault} {m : Mark} : Strides quote start here t (fail fault m)

/-- What an escape does depends on what its digits name. -/
theorem Escape.strides (escape : Escape u digits) : Strides quote start here (u ++ r)
    (namedPoint digits m >>= fun p =>
      pushed [p] (stringRest quote start (here.right u.length) r)) := by
  rcases namedPoint_cases digits m with ⟨p, named⟩ | ⟨astray, e, named, error⟩ | ⟨fault, named⟩
  · rw [named]
    refine .stroke (.named escape (namedPoint_mark named)) ?_ rfl
    rintro rfl
    cases escape
  · rw [named]
    exact .astray escape astray error
  · rw [named]
    exact .fault

theorem stringRest_strides : Strides quote start here t (stringRest quote start here t) := by
  match t with
  | [] =>
    rw [stringRest.eq_def]
    exact .fault
  | c :: r =>
    rw [stringRest.eq_def]
    simp only
    split
    · exact .fault
    rename_i line
    split
    · rename_i close
      subst close
      exact .close
    rename_i inside
    split
    · rename_i escape
      exact .stroke (.plain line inside escape) nofun rfl
    rename_i escape
    cases Decidable.not_not.mp escape
    match r with
    | [] => exact .fault
    | e :: r =>
      simp only
      split
      · rename_i p simple
        refine .stroke (.simple simple) ?_ rfl
        rintro same
        cases same
        cases simple
      rename_i simple
      split
      · rename_i hex
        subst hex
        split
        · exact Escape.hex.strides
        · exact .fault
      rename_i hex
      split
      · rename_i unicode
        subst unicode
        split
        · rename_i r
          by_cases closed : 125 ∈ r
          · obtain ⟨digits, rest, rfl, within⟩ := List.eq_append_cons_of_mem closed
            obtain ⟨m, read⟩ := bracedEscape_closed quote start (here.right 3) [] rest within
            have strides : Strides quote start here _ _ :=
              (Escape.braced within).strides (m := m) (r := rest)
            rw [read, braced_right]
            simpa using strides
          · obtain ⟨m, read⟩ := bracedEscape_open quote start (here.right 3) [] closed
            rw [read]
            exact .fault
        · rename_i plain
          exact (Escape.unicode plain).strides
        · exact .fault
      rename_i unicode
      split
      · rename_i line
        subst line
        rw [← pushed_nil (stringRest ..)]
        exact .stroke .lineFeed nofun rfl
      rename_i line
      split
      · rw [← pushed_nil (stringRest ..)]
        exact .stroke .lineEnd nofun rfl
      · rename_i apart
        refine .stroke (.self simple ⟨hex, unicode, line⟩) ?_ rfl
        intro same first
        cases same
        obtain ⟨r, rfl⟩ := List.head?_eq_some_iff.mp first
        exact apart r rfl rfl

/-- What stands in a string up to its closing quote, and its value. A carriage return after a
backslash is taken with the line feed after it. -/
inductive Quoted (quote : Point) : Text → Text → Prop
  | close : Quoted quote [quote] []
  | more {u vs x value : Text} (stroke : Stroke quote u vs)
      (apart : u = [Point.backslash, Point.carriageReturn] → x.head? ≠ some Point.lineFeed)
      (rest : Quoted quote x value) : Quoted quote (u ++ x) (vs ++ value)

theorem Quoted.ne_nil {x : Text} (quoted : Quoted quote x value) : x ≠ [] := by
  cases quoted with
  | close => simp
  | more stroke => exact List.append_ne_nil_of_left_ne_nil stroke.ne_nil _

theorem Quoted.head? {x : Text} (quoted : Quoted quote x value) : (x ++ t).head? = x.head? := by
  cases x with
  | nil => exact absurd rfl quoted.ne_nil
  | cons p x => rfl

/-- Whatever stands after the closing quote, a string is read up to it. -/
theorem Quoted.reads {x : Text} (quoted : Quoted quote x value) (escape : quote ≠ Point.backslash)
    (line : ¬(quote = Point.lineFeed ∨ quote = Point.carriageReturn)) :
    ∃ there, stringRest quote start here (x ++ t) = .ok (value, ⟨t, there⟩) := by
  induction quoted generalizing here with
  | close =>
    refine ⟨here.right 1, ?_⟩
    rw [List.singleton_append, stringRest.eq_def]
    simp only [line, if_false, if_true]
  | @more u vs x value stroke apart rest ih =>
    have apart : u = [Point.backslash, Point.carriageReturn] →
        (x ++ t).head? ≠ some Point.lineFeed := by
      rwa [rest.head?]
    obtain ⟨last, more⟩ := ih
    refine ⟨last, ?_⟩
    rw [List.append_assoc, stroke.reads escape apart, more]
    rfl

/-- What has been read as a string has been written as one. -/
theorem stringRest_ok (read : stringRest quote start here t = .ok (value, after)) :
    ∃ x, Quoted quote x value ∧ t = x ++ after.rest ∧
      after.mark.offset = here.offset + x.length := by
  induction n : t.length using Nat.strongRecOn generalizing here t value with
  | ind n ih =>
    subst n
    have strides : Strides quote start here t _ := stringRest_strides
    rw [read] at strides
    generalize made : Except.ok (value, after) = x at strides
    cases strides with
    | close =>
      cases made
      exact ⟨[quote], .close, rfl, rfl⟩
    | @stroke u vs r there stroke apart moved =>
      obtain ⟨rest, more, rfl⟩ := pushed_ok.mp made.symm
      have less : r.length < (u ++ r).length := by
        have := List.length_pos_iff.mpr stroke.ne_nil
        simp
        omega
      obtain ⟨x, quoted, rfl, offset⟩ := ih _ less more rfl
      rw [quoted.head?] at apart
      refine ⟨u ++ x, .more stroke apart quoted, (List.append_assoc ..).symm, ?_⟩
      rw [offset, moved, List.length_append, Nat.add_assoc]
    | astray => cases made
    | fault => cases made

/-- What stands in a string up to an escape that names no code point. -/
inductive Strayed (quote : Point) : Text → Prop
  | here {u digits r : Text} (escape : Escape u digits) (astray : Astray digits) :
      Strayed quote (u ++ r)
  | more {u vs r : Text} (stroke : Stroke quote u vs)
      (apart : u = [Point.backslash, Point.carriageReturn] → r.head? ≠ some Point.lineFeed)
      (rest : Strayed quote r) : Strayed quote (u ++ r)

/-- The only failures at a string besides faults are at escapes that name no code point. -/
theorem stringRest_error {e : Error} (failed : stringRest quote start here t = .error e) :
    (Strayed quote t ∧ (e = .hugePoint ∨ e = .noSuchPoint)) ∨
      ∃ fault line column, e = .scan fault line column := by
  induction n : t.length using Nat.strongRecOn generalizing here t with
  | ind n ih =>
    subst n
    have strides : Strides quote start here t _ := stringRest_strides
    rw [failed] at strides
    generalize made : Except.error e = x at strides
    cases strides with
    | close => cases made
    | @stroke u vs r there stroke apart =>
      have less : r.length < (u ++ r).length := by
        have := List.length_pos_iff.mpr stroke.ne_nil
        simp
        omega
      exact (ih _ less (pushed_error.mp made.symm) rfl).imp_left
        fun ⟨strayed, error⟩ => ⟨.more stroke apart strayed, error⟩
    | astray escape astray error =>
      cases made
      exact .inl ⟨.here escape astray, error⟩
    | fault =>
      cases made
      exact .inr ⟨_, _, _, rfl⟩

/-- A string with such an escape in it fails there. -/
theorem Strayed.fails (strayed : Strayed quote t) (start here : Mark)
    (inside : quote ≠ Point.backslash) :
    ∃ e, stringRest quote start here t = .error e ∧ (e = .hugePoint ∨ e = .noSuchPoint) := by
  induction strayed generalizing here with
  | here escape astray =>
    obtain ⟨m, read⟩ := escape.reads inside
    obtain ⟨e, failed, error⟩ := namedPoint_astray.1 astray
    exact ⟨e, by rw [read, failed]; rfl, error⟩
  | more stroke apart _ ih =>
    obtain ⟨e, failed, error⟩ := ih (across here _ _)
    exact ⟨e, by rw [stroke.reads inside apart, failed]; rfl, error⟩

end ScriptTree.Scan
