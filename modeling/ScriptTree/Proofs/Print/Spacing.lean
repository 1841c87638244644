import ScriptTree.Proofs.Print.Writing

/-!
Lexemes that stay apart. Text is scanned as the lexemes that it was put together from if each of
them can be scanned and none runs into the one after it; what the printer writes is such text.
-/
namespace ScriptTree

open Print

namespace TokenKind

/-- Whether no operator is longer than a token and begins with it. -/
def stands (k : TokenKind) : Bool :=
  [leftParen, rightParen, leftBracket, rightBracket, leftBrace, rightBrace, comma, semicolon,
    colon].contains k

/-- Whether no operator begins with a token and the first code point of another. -/
def apart (k j : TokenKind) : Bool :=
  k != slash && operators.all fun i =>
    !(text k.spelling ++ (text j.spelling).take 1).isPrefixOf (text i.spelling)

end TokenKind

namespace Lexeme

def valid : Lexeme → Bool
  | blank | line _ | quoted _ => true
  | remark c => c.legible
  | mark k => k.isKeyword || TokenKind.operators.contains k
  | word w => isWord w
  | number n => (Text.decimal n).length ≤ Numeral.digitLimit

def isWordy : Lexeme → Bool
  | word _ | number _ => true
  | mark k => k.isKeyword
  | _ => false

def isDot : Lexeme → Bool
  | mark .dot => true
  | _ => false

def isLine : Lexeme → Bool
  | line _ => true
  | _ => false

def touches (k : TokenKind) : Lexeme → Bool
  | remark _ => k.apart .slash
  | number _ => k != .dot
  | mark j => j.isKeyword || k.apart j
  | _ => true

/-- Whether a lexeme can be scanned with another directly after it. -/
def joins : Lexeme → Lexeme → Bool
  | blank, _ | line _, _ | quoted _, _ => true
  | remark c, m => c.block || m.isLine
  | word _, m => !m.isWordy
  | number _, m => !m.isWordy && !m.isDot
  | mark k, m => k.stands || if k.isKeyword then !m.isWordy else touches k m

/-- Whether an expression ends before a lexeme. -/
def breaks : Lexeme → Bool
  | blank | line _ => true
  | mark k => k.stands || k.isUpdate
  | _ => false

def begins : Lexeme → Bool
  | word _ | number _ | quoted _ => true
  | mark k => k.isKeyword || [.leftParen, .leftBracket, .leftBrace, .bang, .tilde, .plus, .minus,
      .increment, .decrement].contains k
  | _ => false

end Lexeme

/-- Each of some lexemes can be scanned with the next one after it. -/
def Spaced : List Lexeme → Prop
  | [] => True
  | l :: ls => l.valid ∧ ls.head?.all l.joins ∧ Spaced ls

/-- Lexemes with which an expression can begin. Where comments are kept, there are none on its
line. -/
def Begins (keep : Bool) (ls : List Lexeme) : Prop :=
  ∃ xs l rest, ls = remarksBeside true xs ++ l :: rest ∧ (∀ x ∈ xs, x.Beside) ∧ l.begins ∧
    (keep → xs = [])

def Form.Opens (v : Value) (ls : List Lexeme) : Form → Prop
  | bare c _ | expression c _ | operand c .. | object c | callee c | binding c | function c _ =>
    Begins c.comments ls
  | commas (expression c _) => (∃ w ws, v = .list (w :: ws)) → Begins c.comments ls
  | _ => True

/-- Whether what is written in a form ends before a lexeme. After a number no dot can stand. -/
def Form.ends (v : Value) : Form → Lexeme → Bool
  | bare _ rank, m => m.breaks || m.isDot && callRank ≤ rank && !isNumberLiteral v
  | expression _ least, m => m.breaks || m.isDot && callRank ≤ least && !isNumberLiteral v
  | object _, m | word _, m | binding _, m => m.breaks || m.isDot
  | own _, m | choice _, m | statement _, m | lines _, m | program _, m => m.isLine
  | body _, m => m.isLine || v.isKind .blockStatement && m.breaks
  | arguments _, _ | block _, _ | function .., _ | handler _, _ => true
  | _, m => m.breaks

/-- Whether a form is that of something, not that of a list of what is never listed with commas. -/
def Form.isProper : Form → Bool
  | commas item => item.isItem
  | _ => true

/-- What is written in a form stays apart from all before which it ends. -/
def Fits (f : Form) (v : Value) (ls : List Lexeme) : Prop :=
  f.isProper → ∀ rest, Spaced rest → rest.head?.all (f.ends v) → Spaced (ls ++ rest)

variable {aloud keep : Bool} {f g : Form} {c : Context} {u v w : Value} {l m : Lexeme}
  {ls ms ns rest : List Lexeme} {k : TokenKind} {xs : List Comment}

theorem head_any {p : Lexeme → Bool} (any : ∀ m, p m) : rest.head?.all p :=
  (Option.all_eq_true _ _).mpr fun m _ => any m

theorem head_imp {p q : Lexeme → Bool} (head : rest.head?.all p) (imp : ∀ m, p m → q m) :
    rest.head?.all q :=
  (Option.all_eq_true _ _).mpr fun m first => imp m ((Option.all_eq_true _ _).mp head m first)

theorem spaced_blank (spaced : Spaced rest) : Spaced (.blank :: rest) :=
  ⟨rfl, head_any fun _ => rfl, spaced⟩

theorem spaced_line {d : Nat} (spaced : Spaced rest) : Spaced (.line d :: rest) :=
  ⟨rfl, head_any fun _ => rfl, spaced⟩

/-- What no longer operator begins with stays apart from everything. -/
theorem spaced_stands (spaced : Spaced rest) (valid : (Lexeme.mark k).valid)
    (stands : k.stands) : Spaced (.mark k :: rest) := by
  refine ⟨valid, head_any fun m => ?_, spaced⟩
  simp only [Lexeme.joins, stands, Bool.true_or]

theorem joins_gap (gap : m = .blank ∨ ∃ d, m = .line d) : (Lexeme.mark k).joins m := by
  rcases gap with rfl | ⟨d, rfl⟩ <;> simp [Lexeme.joins, Lexeme.isWordy, Lexeme.touches]

/-- A mark before a blank stays apart. -/
theorem spaced_mark (spaced : Spaced rest) (valid : (Lexeme.mark k).valid) :
    Spaced (.mark k :: .blank :: rest) :=
  ⟨valid, joins_gap (.inl rfl), spaced_blank spaced⟩

/-- A mark between blanks stays apart. -/
theorem spaced_between (spaced : Spaced rest) (valid : (Lexeme.mark k).valid) :
    Spaced (.blank :: .mark k :: .blank :: rest) :=
  spaced_blank (spaced_mark spaced valid)

theorem spaced_enclosed (spaced : Spaced (ls ++ .mark .rightParen :: rest)) :
    Spaced (enclosed ls ++ rest) := by
  rw [enclosed, List.cons_append, List.append_assoc]
  exact spaced_stands spaced (by rfl) (by rfl)

theorem breaks_plain (ends : m.breaks) : m.isWordy = false ∧ m.isDot = false := by
  cases m with
  | mark k =>
    rcases (Bool.or_eq_true _ _).mp ends with stands | update
    · exact TokenKind.holds_of_contains stands (by decide)
    · rcases TokenKind.update_cases update with rfl | rfl <;> exact ⟨rfl, rfl⟩
  | blank => exact ⟨rfl, rfl⟩
  | line => exact ⟨rfl, rfl⟩
  | _ => cases ends

theorem dot_plain (dot : m.isDot) : m.isWordy = false := by
  unfold Lexeme.isDot at dot
  split at dot
  · rfl
  · cases dot

/-- After a word a dot can stand too. -/
theorem plain_of_ends (ends : m.breaks || m.isDot) : m.isWordy = false := by
  rcases (Bool.or_eq_true _ _).mp ends with ends | dot
  · exact (breaks_plain ends).1
  · exact dot_plain dot

theorem word_joins {w : Text} (ends : m.breaks || m.isDot) : (Lexeme.word w).joins m := by
  simp only [Lexeme.joins, plain_of_ends ends, Bool.not_false]

theorem keyword_joins (keyword : k.isKeyword) (ends : m.breaks || m.isDot) :
    (Lexeme.mark k).joins m := by
  simp only [Lexeme.joins, keyword, if_true, plain_of_ends ends, Bool.not_false, Bool.or_true]

theorem number_joins {n : Nat} (ends : m.breaks) : (Lexeme.number n).joins m := by
  obtain ⟨word, dot⟩ := breaks_plain ends
  simp only [Lexeme.joins, word, dot, Bool.not_false, Bool.and_self]

theorem breaks_update (update : k.isUpdate) (ends : m.breaks) :
    (Lexeme.mark k).joins m := by
  have known := TokenKind.update_cases update
  cases m with
  | mark j =>
    rcases (Bool.or_eq_true _ _).mp ends with stands | again
    · rcases known with rfl | rfl <;> exact TokenKind.holds_of_contains stands (by decide)
    · rcases known with rfl | rfl <;> rcases TokenKind.update_cases again with rfl | rfl <;> rfl
  | blank => exact joins_gap (.inl rfl)
  | line => exact joins_gap (.inr ⟨_, rfl⟩)
  | _ => cases ends

theorem begins_first (first : l.begins) : Begins keep (l :: ls) :=
  ⟨[], l, ls, rfl, nofun, first, fun _ => rfl⟩

theorem Begins.append (begins : Begins keep ls) : Begins keep (ls ++ ms) := by
  obtain ⟨xs, l, rest, rfl, beside, first, quiet⟩ := begins
  exact ⟨xs, l, rest ++ ms, by simp, beside, first, quiet⟩

theorem Begins.beside (begins : Begins keep ls) (silent : keep → xs = [])
    (beside : aloud → ∀ x ∈ xs, x.Beside) : Begins keep (remarksBeside aloud xs ++ ls) := by
  obtain ⟨ys, l, rest, rfl, others, first, quiet⟩ := begins
  cases aloud with
  | false => exact ⟨ys, l, rest, rfl, others, first, quiet⟩
  | true =>
    refine ⟨xs ++ ys, l, rest, by simp [remarksBeside], fun x mem => ?_, first, fun kept => ?_⟩
    · exact (List.mem_append.mp mem).elim (beside rfl x) (others x)
    · rw [silent kept, quiet kept, List.append_nil]

theorem Begins.head (begins : Begins keep ls) :
    ∃ l rest, ls = l :: rest ∧ (l.begins ∨ ∃ x, l = .remark x) := by
  obtain ⟨xs, l, rest, rfl, _, first, _⟩ := begins
  cases xs with
  | nil => exact ⟨l, rest, rfl, .inl first⟩
  | cons x xs => exact ⟨_, _, rfl, .inr ⟨_, rfl⟩⟩

/-- Comments on the line stay apart from what follows. -/
theorem spaced_beside (beside : aloud → ∀ x ∈ xs, x.Beside) (spaced : Spaced rest) :
    Spaced (remarksBeside aloud xs ++ rest) := by
  cases aloud with
  | false => exact spaced
  | true =>
    induction xs with
    | nil => exact spaced
    | cons x xs ih =>
      have more := ih fun _ y mem => beside rfl y (List.mem_cons_of_mem x mem)
      exact ⟨(beside rfl x List.mem_cons_self).1, rfl, spaced_blank more⟩

theorem unary_begins (operator : k.isUnary) : (Lexeme.mark k).begins :=
  TokenKind.holds_of_contains operator (by decide)

theorem update_begins (operator : k.isUpdate) : (Lexeme.mark k).begins := by
  rcases TokenKind.update_cases operator with rfl | rfl <;> rfl

theorem literal_begins (plain : v.isPlain) : (Lexeme.literal v).begins := by
  cases v with
  | bool b => cases b <;> rfl
  | _ => rfl

theorem Writes.opens (writes : Writes aloud f v ls) : f.Opens v ls := by
  induction writes with
  | commasNone =>
    rename_i f
    cases f <;> first | exact True.intro | exact nofun
  | commasLast _ ih =>
    rename_i f _ _ _
    cases f <;> first | exact True.intro | exact fun _ => ih
  | commasMore _ _ ih =>
    rename_i f _ _ _ _ _ _ _ _
    cases f <;> first | exact True.intro | exact fun _ => ih.append
  | binding _ silent beside => exact (begins_first rfl).beside silent beside
  | name => exact begins_first rfl
  | literal plain => exact begins_first (literal_begins plain)
  | opened _ _ silent beside ih => exact ih.beside silent beside
  | closed _ _ silent beside => exact (begins_first rfl).beside silent beside
  | functionExpression _ ih => exact ih
  | operandPlain _ _ ih => exact ih
  | calleePlain _ _ ih => exact ih
  | objectPlain _ _ ih => exact ih
  | unary operator => exact begins_first (unary_begins operator)
  | stepBefore operator => exact begins_first (update_begins operator)
  | stepAfter _ _ _ ih => exact ih.append
  | operation _ _ _ _ left => exact left.append
  | assignment _ _ _ _ left => exact left.append
  | conditional _ _ _ test => exact test.append
  | sequence _ ih => exact ih ⟨_, _, rfl⟩
  | call _ _ callee => exact callee.append
  | memberNamed _ _ object => exact object.append
  | memberIndexed _ _ object => exact object.append
  | _ => first | exact True.intro | exact begins_first rfl

theorem item_breaks (isItem : f.isItem) (ends : m.breaks) : f.ends v m := by
  cases f <;> cases isItem <;> simp [Form.ends, ends]

theorem bare_breaks {rank : Nat} (loose : rank < callRank) (ends : (Form.bare c rank).ends v m) :
    m.breaks := by
  have low : decide (callRank ≤ rank) = false := decide_eq_false (by omega)
  simpa only [Form.ends, low, Bool.and_false, Bool.false_and, Bool.or_false] using ends

theorem breaks_or {b : Bool} (ends : m.breaks) : (m.breaks || b) = true := by
  rw [ends, Bool.true_or]

/-- What ends an expression that has to bind tightly ends one that binds as tightly. -/
theorem opened_ends {least rank : Nat} (fits : least ≤ rank)
    (ends : (Form.expression c least).ends v m) : (Form.bare c rank).ends v m := by
  simp only [Form.ends, Bool.or_eq_true, Bool.and_eq_true, decide_eq_true_eq] at ends ⊢
  exact ends.imp_right fun ⟨⟨dot, tight⟩, other⟩ => ⟨⟨dot, by omega⟩, other⟩

/-- A dot ends what a member is taken of. -/
theorem object_ends (plain : isNumberLiteral v = false) (ends : m.breaks || m.isDot) :
    (Form.expression c callRank).ends v m := by
  simp only [Form.ends, plain, Bool.or_eq_true, Bool.and_eq_true] at ends ⊢
  exact ends.imp_right fun dot => ⟨⟨dot, rfl⟩, rfl⟩

theorem body_ends : (Form.body c).ends v (bodyGap c v) := by
  unfold bodyGap
  split <;> simp_all [Form.ends, Lexeme.breaks, Lexeme.isLine]

theorem operator_valid {rank : Nat} (ranked : k.rank? = some rank) : (Lexeme.mark k).valid :=
  TokenKind.holds_of_rank ranked (by decide)

theorem assignment_valid (operator : k.isAssignment) : (Lexeme.mark k).valid :=
  TokenKind.holds_of_contains operator (by decide)

theorem unary_valid (operator : k.isUnary) : (Lexeme.mark k).valid :=
  TokenKind.holds_of_contains operator (by decide)

theorem update_valid (operator : k.isUpdate) : (Lexeme.mark k).valid := by
  rcases TokenKind.update_cases operator with rfl | rfl <;> rfl

theorem declares_valid (word : k.declares) : (Lexeme.mark k).valid := by
  rcases TokenKind.declares_cases word with rfl | rfl | rfl <;> rfl

/-- An operator stays apart from a keyword. -/
theorem keyword_apart {j : TokenKind} (plain : k.isKeyword = false) (keyword : j.isKeyword) :
    (Lexeme.mark k).joins (.mark j) := by
  simp [Lexeme.joins, Lexeme.touches, plain, keyword]

/-- A step operator stays apart from an expression. -/
theorem update_joins (operator : k.isUpdate) (begins : l.begins ∨ ∃ x, l = .remark x) :
    (Lexeme.mark k).joins l := by
  have known := TokenKind.update_cases operator
  rcases begins with begins | ⟨x, rfl⟩
  case inr => rcases known with rfl | rfl <;> rfl
  cases l with
  | mark j =>
    rcases (Bool.or_eq_true _ _).mp begins with keyword | opens
    · exact keyword_apart (by rcases known with rfl | rfl <;> rfl) keyword
    · rcases known with rfl | rfl <;> exact TokenKind.holds_of_contains opens (by decide)
  | word => rcases known with rfl | rfl <;> rfl
  | number => rcases known with rfl | rfl <;> rfl
  | quoted => rcases known with rfl | rfl <;> rfl
  | _ => cases begins

/-- A unary operator without a blank after it stays apart from its operand. -/
theorem unary_joins (operator : k.isUnary) (begins : l.begins ∨ ∃ x, l = .remark x)
    (gap : unaryGap k (layout (l :: rest)) = []) : (Lexeme.mark k).joins l := by
  have sign : isWordOperator (text k.spelling) = false := by
    unfold unaryGap at gap
    split at gap
    · cases gap
    · simp_all
  have known : k ∈ [.bang, .tilde, .plus, .minus] := by
    revert sign
    exact TokenKind.holds_of_contains operator (by decide)
  simp only [List.mem_cons, List.not_mem_nil, or_false] at known
  rcases begins with begins | ⟨x, rfl⟩
  case inr => rcases known with rfl | rfl | rfl | rfl <;> rfl
  cases l with
  | mark j =>
    rcases (Bool.or_eq_true _ _).mp begins with keyword | opens
    · exact keyword_apart (by rcases known with rfl | rfl | rfl | rfl <;> rfl) keyword
    · have listed := List.contains_iff_mem.mp opens
      simp only [List.mem_cons, List.not_mem_nil, or_false] at listed
      rcases known with rfl | rfl | rfl | rfl
      all_goals
        rcases listed with rfl | rfl | rfl | rfl | rfl | rfl | rfl | rfl | rfl <;>
          first | rfl | cases gap
  | word => rcases known with rfl | rfl | rfl | rfl <;> rfl
  | number => rcases known with rfl | rfl | rfl | rfl <;> rfl
  | quoted => rcases known with rfl | rfl | rfl | rfl <;> rfl
  | _ => cases begins

theorem spaced_remarksAfter {d : Nat} {xs : List Comment} (legible : ∀ x ∈ xs, x.legible)
    (spaced : Spaced rest) (ends : rest.head?.all Lexeme.isLine) :
    Spaced (remarksAfter d xs ++ rest) ∧ (remarksAfter d xs ++ rest).head?.all Lexeme.isLine := by
  induction xs with
  | nil => exact ⟨spaced, ends⟩
  | cons x xs ih =>
    obtain ⟨more, ends⟩ := ih fun y mem => legible y (List.mem_cons_of_mem x mem)
    refine ⟨spaced_line ⟨legible x List.mem_cons_self, head_imp ends fun m line => ?_, more⟩, rfl⟩
    simp only [Lexeme.joins, line, Bool.or_true]

theorem spaced_remarksBefore {d : Nat} {xs : List Comment} (legible : ∀ x ∈ xs, x.legible)
    (spaced : Spaced rest) : Spaced (remarksBefore d xs ++ rest) := by
  induction xs with
  | nil => exact spaced
  | cons x xs ih =>
    have more := ih fun y mem => legible y (List.mem_cons_of_mem x mem)
    have line : (Lexeme.remark x).joins (.line d) := by
      simp only [Lexeme.joins, Lexeme.isLine, Bool.or_true]
    exact ⟨legible x List.mem_cons_self, line, spaced_line more⟩

/-- A word before a body stays apart from it. -/
theorem spaced_body (writes : Writes aloud (.body c) v ls) (spaced : Spaced (ls ++ rest))
    (valid : (Lexeme.mark k).valid) : Spaced (.mark k :: (ls ++ rest)) := by
  refine ⟨valid, ?_, spaced⟩
  cases writes with
  | bodyBlock => exact joins_gap (.inl rfl)
  | bodyLine => exact joins_gap (.inr ⟨_, rfl⟩)

theorem spaced_bodyGap (spaced : Spaced rest) : Spaced (bodyGap c v :: rest) := by
  unfold bodyGap
  split
  · exact spaced_blank spaced
  · exact spaced_line spaced

theorem item_proper (isItem : f.isItem) : f.isProper := by
  cases f <;> first | rfl | cases isItem

theorem rank_low {rank : Nat} (ranked : k.rank? = some rank) :
    conditionalRank + rank < callRank :=
  TokenKind.holds_of_rank ranked (by decide)

theorem bare_ends {rank : Nat} (ends : (Form.bare c rank).ends v m) : m.breaks || m.isDot := by
  cases breaks : m.breaks <;> cases dot : m.isDot <;> simp_all [Form.ends]

theorem literal_valid (plain : v.isPlain) : (Lexeme.literal v).valid := by
  cases v with
  | bool b => cases b <;> rfl
  | int i =>
    simp only [Value.isPlain, Bool.and_eq_true] at plain
    exact plain.2
  | _ => rfl

theorem literal_joins {n : Notes} (plain : v.isPlain)
    (ends : (Form.bare c primaryRank).ends (.node .literal [v] n) m) :
    (Lexeme.literal v).joins m := by
  cases v with
  | bool b => cases b <;> exact keyword_joins rfl (bare_ends ends)
  | null => exact keyword_joins rfl (bare_ends ends)
  | text => rfl
  | int i =>
    refine number_joins ?_
    simpa only [Form.ends, isNumberLiteral, Bool.not_true, Bool.and_false, Bool.or_false] using ends
  | _ => cases plain

theorem unaryGap_cases (o : TokenKind) (l : Layout) :
    unaryGap o l = [] ∨ unaryGap o l = [.blank] := by
  unfold unaryGap
  split
  · exact .inr rfl
  · exact .inl rfl

theorem arguments_head (writes : Writes aloud (.arguments c) v ls) : ∃ ms, ls = enclosed ms := by
  cases writes
  exact ⟨_, rfl⟩

theorem line_ends (line : m.isLine) : (Form.body c).ends v m := by
  simp only [Form.ends, line, Bool.true_or]

theorem comments_legible (legible : c.comments → ∀ x ∈ v.comments, x.legible) :
    (∀ x ∈ leadingComments c v, x.legible) ∧ ∀ x ∈ followingComments c v, x.legible := by
  have filtered {p : Comment → Bool} (kept : c.comments) (x : Comment)
      (mem : x ∈ v.comments.filter p) : x.legible := legible kept x (List.mem_filter.mp mem).1
  unfold leadingComments followingComments trailingComments
  constructor
  · split
    · exact filtered ‹_›
    · exact nofun
  · split
    · exact nofun
    · split
      · exact filtered ‹_›
      · exact nofun

/-- A dot stays apart from the name of a property. -/
theorem spaced_dot (name : Writes aloud (.word c) v ls) (spaced : Spaced (ls ++ rest)) :
    Spaced (.mark .dot :: (ls ++ rest)) := by
  refine ⟨rfl, ?_, spaced⟩
  cases name with
  | @word _ w n =>
    cases aloud with
    | false => rfl
    | true => cases n.comments <;> rfl

theorem fits_lists : Form.Family.lists.Keeps aloud Fits := by
  intro f v ls writes rule family proper rest spaced ends
  induction rule using Writes.below.casesOn with
    (cases family
     try simp only [List.append_assoc, List.cons_append, List.nil_append])
  | commasNone | elementsNone => exact spaced
  | commasLast _ _ item =>
    exact item (item_proper proper) rest spaced (head_imp ends fun m => item_breaks proper)
  | commasMore _ _ _ item _ more =>
    exact item (item_proper proper) _
      (spaced_stands (spaced_blank (more proper rest spaced ends)) (by rfl) (by rfl))
      (item_breaks proper rfl)
  | elementsHole => exact spaced_stands spaced (by rfl) (by rfl)
  | elementsLast _ _ item => exact item rfl rest spaced (head_imp ends fun m => breaks_or)
  | elementsSkip _ _ more =>
    exact spaced_stands (spaced_blank (more rfl rest spaced ends)) (by rfl) (by rfl)
  | elementsMore _ _ _ item _ more =>
    exact item rfl _ (spaced_stands (spaced_blank (more rfl rest spaced ends)) (by rfl) (by rfl))
      rfl
  | arguments _ _ items =>
    exact spaced_enclosed (items rfl _ (spaced_stands spaced (by rfl) (by rfl)) rfl)
  | linesLast _ _ item => exact item rfl rest spaced ends
  | linesMore _ _ _ _ item _ more =>
    exact item rfl _ (spaced_line (more rfl rest spaced ends)) rfl

theorem fits_names : Form.Family.names.Keeps aloud Fits := by
  intro f v ls writes rule family proper rest spaced ends
  induction rule using Writes.below.casesOn with
    (cases family
     try simp only [List.append_assoc, List.cons_append, List.nil_append])
  | binding name _ beside =>
    exact spaced_beside beside
      ⟨((Bool.and_eq_true _ _).mp name).1, head_imp ends fun m => word_joins, spaced⟩
  | word word _ beside =>
    exact spaced_beside beside ⟨word, head_imp ends fun m => word_joins, spaced⟩
  | keyWord _ _ inner =>
    exact inner rfl rest spaced (head_imp ends fun m => breaks_or)
  | keyLiteral _ plain _ beside =>
    exact spaced_beside beside ⟨literal_valid plain, head_imp ends fun m ends =>
      literal_joins (c := {}) (n := {}) plain (breaks_or ends), spaced⟩

theorem fits_places : Form.Family.places.Keeps aloud Fits := by
  intro f v ls writes rule family proper rest spaced ends
  induction rule using Writes.below.casesOn with
    (cases family
     try simp only [List.append_assoc])
  | opened _ fits _ beside _ inner =>
    exact spaced_beside beside (inner rfl rest spaced (head_imp ends fun m => opened_ends fits))
  | closed _ _ _ beside _ inner =>
    exact spaced_beside beside
      (spaced_enclosed (inner rfl _ (spaced_stands spaced (by rfl) (by rfl)) rfl))
  | operandPlain _ _ _ inner | calleePlain _ _ _ inner =>
    exact inner rfl rest spaced (head_imp ends fun m => breaks_or)
  | operandMixed _ _ _ inner | calleeCall _ _ _ inner | objectNumber _ _ _ inner =>
    exact spaced_enclosed (inner rfl _ (spaced_stands spaced (by rfl) (by rfl)) rfl)
  | objectPlain plain _ _ inner =>
    exact inner rfl rest spaced (head_imp ends fun m => object_ends plain)

theorem fits_expressions : Form.Family.expressions.Keeps aloud Fits := by
  intro f v ls writes rule family proper rest spaced ends
  induction rule using Writes.below.casesOn with
    (cases family
     try simp only [List.append_assoc, List.cons_append, List.nil_append])
  | name name =>
    exact ⟨((Bool.and_eq_true _ _).mp name).1,
      head_imp ends fun m ends => word_joins (bare_ends ends), spaced⟩
  | literal plain =>
    exact ⟨literal_valid plain, head_imp ends fun m => literal_joins plain, spaced⟩
  | this => exact ⟨rfl, head_imp ends fun m ends => keyword_joins rfl (bare_ends ends), spaced⟩
  | array _ _ inner =>
    exact spaced_stands (inner rfl _ (spaced_stands spaced (by rfl) (by rfl)) rfl) (by rfl) (by rfl)
  | objectNone => exact spaced_stands (spaced_stands spaced (by rfl) (by rfl)) (by rfl) (by rfl)
  | objectSome _ _ inner =>
    exact spaced_stands
      (spaced_blank (inner rfl _ (spaced_blank (spaced_stands spaced (by rfl) (by rfl))) rfl))
      (by rfl) (by rfl)
  | functionNamed _ _ _ _ _ name _ params _ body =>
    exact spaced_mark (name rfl _ (spaced_enclosed (params rfl _ (spaced_stands (spaced_blank
      (body rfl rest spaced (head_any fun _ => rfl))) (by rfl) (by rfl)) rfl)) rfl) (by rfl)
  | functionUnnamed _ _ _ _ params _ body =>
    exact ⟨rfl, rfl, spaced_enclosed (params rfl _ (spaced_stands (spaced_blank
      (body rfl rest spaced (head_any fun _ => rfl))) (by rfl) (by rfl)) rfl)⟩
  | functionExpression _ _ inner => exact inner rfl rest spaced (head_any fun _ => rfl)
  | arrowBlock _ _ _ _ params _ body =>
    exact spaced_enclosed (params rfl _ (spaced_stands (spaced_between
      (body rfl rest spaced (head_any fun _ => rfl)) (by rfl)) (by rfl) (by rfl)) rfl)
  | arrowValue _ _ _ _ params _ body =>
    refine spaced_enclosed (params rfl _ (spaced_stands (spaced_between (body rfl rest spaced
      (head_imp ends fun m ends => breaks_or (bare_breaks (by decide) ends))) (by rfl)) (by rfl)
      (by rfl)) rfl)
  | arrowObject _ _ _ _ params _ body =>
    exact spaced_enclosed (params rfl _ (spaced_stands (spaced_between
      (spaced_enclosed (body rfl _ (spaced_stands spaced (by rfl) (by rfl)) rfl)) (by rfl)) (by rfl)
      (by rfl)) rfl)
  | @unary _ o _ _ _ operator operand _ inner =>
    have more := inner rfl rest spaced
      (head_imp ends fun m ends => breaks_or (bare_breaks (by decide) ends))
    obtain ⟨l, ls, rfl, begins⟩ := operand.opens.head
    rcases unaryGap_cases o (layout (l :: ls)) with gap | gap
    · rw [gap]
      exact ⟨unary_valid operator, unary_joins operator begins gap, more⟩
    · rw [gap]
      exact spaced_mark more (unary_valid operator)
  | stepBefore operator _ operand _ inner =>
    have more := inner rfl rest spaced
      (head_imp ends fun m ends => breaks_or (bare_breaks (by decide) ends))
    obtain ⟨l, ls, rfl, begins⟩ := operand.opens.head
    exact ⟨update_valid operator, update_joins operator begins, more⟩
  | stepAfter operator _ _ _ inner =>
    refine inner rfl _ ⟨update_valid operator, head_imp ends fun m ends =>
      breaks_update operator (bare_breaks (by decide) ends), spaced⟩ ?_
    exact breaks_or (by simp only [Lexeme.breaks, operator, Bool.or_true])
  | operation ranked _ _ _ _ left _ right =>
    exact left rfl _ (spaced_between (right rfl rest spaced
      (head_imp ends fun m => bare_breaks (rank_low ranked))) (operator_valid ranked)) rfl
  | assignment operator _ _ _ _ left _ right =>
    exact left rfl _ (spaced_between (right rfl rest spaced
      (head_imp ends fun m ends => breaks_or (bare_breaks (by decide) ends)))
      (assignment_valid operator)) rfl
  | conditional _ _ _ _ test _ consequent _ alternate =>
    exact test rfl _ (spaced_between (consequent rfl _ (spaced_between (alternate rfl rest spaced
      (head_imp ends fun m ends => breaks_or (bare_breaks (by decide) ends))) (by rfl)) rfl)
      (by rfl)) rfl
  | sequence _ _ items =>
    exact items rfl rest spaced (head_imp ends fun m => bare_breaks (by decide))
  | call _ args _ callee _ items =>
    have more := items rfl rest spaced (head_any fun _ => rfl)
    obtain ⟨ms, rfl⟩ := arguments_head args
    exact callee rfl _ more rfl
  | construction _ args _ callee _ items =>
    have more := items rfl rest spaced (head_any fun _ => rfl)
    obtain ⟨ms, rfl⟩ := arguments_head args
    exact spaced_mark (callee rfl _ more rfl) (by rfl)
  | memberNamed _ name _ object _ inner =>
    have more := inner rfl rest spaced (head_imp ends fun m => bare_ends)
    exact object rfl _ (spaced_dot name more) rfl
  | memberIndexed _ _ _ object _ index =>
    exact object rfl _ (spaced_stands (index rfl _ (spaced_stands spaced (by rfl) (by rfl)) rfl)
      (by rfl) (by rfl)) rfl

theorem fits_parts : Form.Family.parts.Keeps aloud Fits := by
  intro f v ls writes rule family proper rest spaced ends
  induction rule using Writes.below.casesOn with
    (cases family
     try simp only [List.append_assoc, List.cons_append, List.nil_append])
  | computed _ _ _ _ key _ value =>
    exact spaced_stands (key rfl _ (spaced_stands (spaced_stands (spaced_blank
      (value rfl rest spaced (head_imp ends fun m => breaks_or))) (by rfl) (by rfl)) (by rfl)
      (by rfl)) rfl) (by rfl) (by rfl)
  | keyed _ _ _ _ key _ value =>
    exact key rfl _ (spaced_stands (spaced_blank
      (value rfl rest spaced (head_imp ends fun m => breaks_or))) (by rfl) (by rfl)) rfl
  | shorthand name _ _ _ beside =>
    exact spaced_beside beside ⟨((Bool.and_eq_true _ _).mp name).1,
      head_imp ends fun m ends => word_joins (breaks_or ends), spaced⟩
  | declaratorBare _ _ _ name => exact name rfl rest spaced (head_imp ends fun m => breaks_or)
  | declaratorInit _ _ _ _ name _ init =>
    exact name rfl _ (spaced_between (init rfl rest spaced (head_imp ends fun m => breaks_or))
      (by rfl)) rfl
  | declaration word _ _ items =>
    exact spaced_mark (items rfl rest spaced ends) (declares_valid word)
  | initNone | partNone => exact spaced
  | initDeclaration _ _ _ inner => exact inner rfl rest spaced ends
  | initExpression _ _ inner | targetPlace _ _ _ inner =>
    exact inner rfl rest spaced (head_imp ends fun m => breaks_or)
  | partSome _ _ inner =>
    exact spaced_blank (inner rfl rest spaced (head_imp ends fun m => breaks_or))
  | targetVariable word _ _ _ name =>
    exact spaced_mark (name rfl rest spaced (head_imp ends fun m => breaks_or))
      (declares_valid word)

theorem fits_blocks : Form.Family.blocks.Keeps aloud Fits := by
  intro f v ls writes rule family proper rest spaced ends
  induction rule using Writes.below.casesOn with
    (cases family
     try simp only [List.append_assoc, List.cons_append, List.nil_append])
  | blockNone => exact spaced_stands (spaced_stands spaced (by rfl) (by rfl)) (by rfl) (by rfl)
  | blockRemarks _ legible =>
    exact spaced_stands
      (spaced_remarksAfter legible (spaced_line (spaced_stands spaced (by rfl) (by rfl))) rfl).1
      (by rfl) (by rfl)
  | block _ _ body =>
    exact spaced_stands
      (spaced_line (body rfl _ (spaced_line (spaced_stands spaced (by rfl) (by rfl))) rfl)) (by rfl)
      (by rfl)
  | bodyBlock _ _ _ inner =>
    exact spaced_blank (inner rfl rest spaced (head_any fun _ => rfl))
  | bodyLine other _ _ _ inner =>
    refine spaced_line (inner rfl rest spaced (head_imp ends fun m ends => ?_))
    simpa only [Form.ends, other, Bool.false_and, Bool.or_false] using ends
  | handlerBare _ _ _ _ body =>
    exact spaced_mark (body rfl rest spaced (head_any fun _ => rfl)) (by rfl)
  | handlerNamed _ _ _ _ _ param _ body =>
    exact spaced_mark (spaced_enclosed (param rfl _ (spaced_stands (spaced_blank
      (body rfl rest spaced (head_any fun _ => rfl))) (by rfl) (by rfl)) rfl)) (by rfl)
  | statement _ _ legible _ _ own =>
    obtain ⟨before, after⟩ := comments_legible legible
    obtain ⟨more, line⟩ := spaced_remarksAfter after spaced ends
    exact spaced_remarksBefore before (own rfl _ more line)
  | programNone => exact spaced
  | programRemarks _ legible =>
    obtain ⟨more, line⟩ := spaced_remarksAfter
      (fun y mem => legible y (List.mem_cons_of_mem _ mem)) spaced ends
    refine ⟨legible _ List.mem_cons_self, head_imp line fun m line => ?_, more⟩
    simp only [Lexeme.joins, line, Bool.or_true]
  | program _ _ _ body => exact body rfl rest spaced ends

theorem fits_statements : Form.Family.statements.Keeps aloud Fits := by
  intro f v ls writes rule family proper rest spaced ends
  induction rule using Writes.below.casesOn with
    (cases family
     try simp only [List.append_assoc, List.cons_append, List.nil_append])
  | ownExpression _ _ _ inner | ownDeclaration _ _ inner =>
    exact inner rfl _ (spaced_stands spaced (by rfl) (by rfl)) rfl
  | ownClash _ _ _ inner =>
    exact spaced_enclosed
      (inner rfl _ (spaced_stands (spaced_stands spaced (by rfl) (by rfl)) (by rfl) (by rfl)) rfl)
  | ownBlock _ _ inner | ownFunction _ _ inner =>
    exact inner rfl rest spaced (head_any fun _ => rfl)
  | ownEmpty => exact spaced_stands spaced (by rfl) (by rfl)
  | returnBare | breakBare | continueBare =>
    exact ⟨rfl, rfl, spaced_stands spaced (by rfl) (by rfl)⟩
  | returnValue _ _ value | throwValue _ _ value =>
    exact spaced_mark (value rfl _ (spaced_stands spaced (by rfl) (by rfl)) rfl) (by rfl)
  | breakLabel _ _ label | continueLabel _ _ label =>
    exact spaced_mark (label rfl _ (spaced_stands spaced (by rfl) (by rfl)) rfl) (by rfl)
  | ownChoice _ _ inner => exact inner rfl rest spaced ends
  | choiceShort _ _ _ test _ left =>
    exact spaced_mark (spaced_enclosed (test rfl _ (spaced_stands
      (left rfl rest spaced (head_imp ends fun m => line_ends)) (by rfl) (by rfl)) rfl)) (by rfl)
  | choiceElse _ _ _ _ body _ test _ left _ right =>
    exact spaced_mark (spaced_enclosed (test rfl _ (spaced_stands (left rfl _ (spaced_bodyGap
      (spaced_body body (right rfl rest spaced (head_imp ends fun m => line_ends)) (by rfl)))
      body_ends) (by rfl) (by rfl)) rfl)) (by rfl)
  | choiceChain _ _ _ _ _ _ test _ left _ right =>
    exact spaced_mark (spaced_enclosed (test rfl _ (spaced_stands (left rfl _ (spaced_bodyGap
      (spaced_mark (right rfl rest spaced ends) (by rfl))) body_ends) (by rfl) (by rfl)) rfl))
      (by rfl)
  | forCounted _ _ _ _ _ init _ test _ update _ body =>
    refine spaced_mark (spaced_enclosed ?_) (by rfl)
    have after := spaced_stands (k := .rightParen)
      (body rfl rest spaced (head_imp ends fun m => line_ends)) (by rfl) (by rfl)
    simp only [List.append_assoc, List.cons_append]
    exact init rfl _
      (spaced_stands (test rfl _ (spaced_stands (update rfl _ after rfl) (by rfl) (by rfl)) rfl)
      (by rfl) (by rfl)) rfl
  | forIn _ _ _ _ left _ right _ body =>
    refine spaced_mark (spaced_enclosed ?_) (by rfl)
    have after := spaced_stands (k := .rightParen)
      (body rfl rest spaced (head_imp ends fun m => line_ends)) (by rfl) (by rfl)
    simp only [List.append_assoc, List.cons_append]
    exact left rfl _ (spaced_between (right rfl _ after rfl) (by rfl)) rfl
  | forOf _ _ _ _ left _ right _ body =>
    refine spaced_mark (spaced_enclosed ?_) (by rfl)
    have after := spaced_stands (k := .rightParen)
      (body rfl rest spaced (head_imp ends fun m => line_ends)) (by rfl) (by rfl)
    simp only [List.append_assoc, List.cons_append]
    exact left rfl _ (spaced_blank ⟨rfl, rfl, spaced_blank (right rfl _ after rfl)⟩) rfl
  | whileLoop _ _ _ test _ body =>
    exact spaced_mark (spaced_enclosed (test rfl _ (spaced_stands
      (body rfl rest spaced (head_imp ends fun m => line_ends)) (by rfl) (by rfl)) rfl)) (by rfl)
  | doLoop body _ _ inner _ test =>
    exact spaced_body body (inner rfl _ (spaced_bodyGap (spaced_mark (spaced_enclosed
      (test rfl _ (spaced_stands (spaced_stands spaced (by rfl) (by rfl)) (by rfl) (by rfl)) rfl))
      (by rfl))) body_ends) (by rfl)
  | tryHandled _ _ _ _ guarded _ handler =>
    exact spaced_mark (guarded rfl _ (spaced_blank
      (handler rfl rest spaced (head_any fun _ => rfl))) rfl) (by rfl)
  | tryFinal _ _ _ _ _ guarded _ finalizer =>
    exact spaced_mark (guarded rfl _ (spaced_between
      (finalizer rfl rest spaced (head_any fun _ => rfl)) (by rfl)) rfl) (by rfl)
  | tryBoth _ _ _ _ _ _ guarded _ handler _ finalizer =>
    exact spaced_mark (guarded rfl _ (spaced_blank (handler rfl _ (spaced_between
      (finalizer rfl rest spaced (head_any fun _ => rfl)) (by rfl)) rfl)) rfl) (by rfl)

/-- What the printer writes stays apart. -/
theorem Writes.fits (writes : Writes aloud f v ls) : Fits f v ls :=
  writes.byFamily fun
    | .lists => fits_lists
    | .names => fits_names
    | .places => fits_places
    | .expressions => fits_expressions
    | .parts => fits_parts
    | .blocks => fits_blocks
    | .statements => fits_statements

end ScriptTree
