import ScriptTree.Proofs.Print.Writable
import ScriptTree.Proofs.Tree.Likeness
import ScriptTree.Proofs.Tree.Lookup

/-!
The printer prints what the relation of writing says: a tree, and every tree that is like it, prints
as the text of the lexemes that it is written with.
-/
namespace ScriptTree

open Print Layout Value

def Form.context : Form → Context
  | bare c _ | expression c _ | operand c _ _ _ | object c | callee c | arguments c | elements c
  | property c | key c | word c | binding c | function c _ | block c | declarator c | declaration c
  | loopInit c | loopPart c | loopTarget c | handler c | body c | choice c | own c | statement c
  | lines c | program c => c
  | commas item => item.context

def Form.printItem (n : Nat) : Form → Value → Except Error Phrase
  | expression c least => (rules n).expression c least
  | binding c => (rules n).expression c sequenceRank
  | property c => Print.property (rules n) c
  | declarator c => Print.declarator (rules n) c
  | _ => fun _ => .error .wrongType

/-- A value prints in a form as the text of lexemes, with rules of a depth. -/
def Form.Prints (n : Nat) (w : Value) (ls : List Lexeme) : Form → Prop
  | bare c rank => Print.rank w = .ok rank ∧ ∃ kind, w.kind? = some kind ∧
      Print.bare (rules n) c w kind = .ok (.source (layout ls))
  | expression c least => Print.expression (rules n) c least w = .ok (.source (layout ls))
  | binding c | word c | key c => ∀ least ≤ primaryRank,
      Print.expression (rules n) c least w = .ok (.source (layout ls))
  | operand c o rank least => ∃ inner, Print.expression (rules n) c least w = .ok inner ∧
      Print.operand (text o.spelling) (conditionalRank + rank) w inner = .ok (.source (layout ls))
  | object c => ∃ inner, Print.expression (rules n) c callRank w = .ok (.source inner) ∧
      layout ls = if isNumberLiteral w then parens inner else inner
  | callee c => ∃ inner, Print.expression (rules n) c callRank w = .ok (.source inner) ∧
      layout ls = if startsWithCall w then parens inner else inner
  | arguments c => ∃ ws inner, w = .list ws ∧
      commaSeparated (rules n) c.lifted assignmentRank ws = .ok inner ∧ layout ls = parens inner
  | elements c => ∃ ws parts, w = .list ws ∧ ws.mapM (fun e => if e.isNull then
      .ok (.source []) else (rules n).expression c assignmentRank e) =
        .ok (parts.map Phrase.source) ∧
      layout ls = join (lay ", ") parts ++ if ws.getLast?.any Value.isNull then lay "," else []
  | property c => Print.property (rules n) c w = .ok (.source (layout ls))
  | function c _ => Print.function (rules n) c w = .ok (layout ls)
  | block c => Print.block (rules n) c w = .ok (layout ls)
  | declarator c => Print.declarator (rules n) c w = .ok (.source (layout ls))
  | declaration c => Print.declaration (rules n) c w = .ok (layout ls)
  | loopInit c => Print.loopInit (rules (n + 1)) c w = .ok (.source (layout ls))
  | loopPart c => Print.loopPart (rules (n + 1)) c w = .ok (layout ls)
  | loopTarget c => Print.loopTarget (rules (n + 1)) c w = .ok (.source (layout ls))
  | handler c => Print.handler (rules n) c w = .ok (layout ls)
  | body c => Print.body (rules (n + 1)) c w = .ok (layout ls)
  | choice c => Print.choice (rules n) c w = .ok (layout ls)
  | own c => Print.bareStatement (rules n) c w = .ok (layout ls)
  | statement c => Print.statement (rules n) c w = .ok (layout ls)
  | lines c => ∃ ws parts, w = .list ws ∧ ws.mapM ((rules n).statement c) = .ok parts ∧
      parts ≠ [] ∧ layout ls = join [.line c.depth] parts
  | program c => Print.program (rules n) c w = .ok (layout ls)
  | commas item => item.isItem → ∃ ws parts, w = .list ws ∧
      ws.mapM (item.printItem n) = .ok (parts.map Phrase.source) ∧
      layout ls = join (lay ", ") parts

/-- All that is like a value prints in a form as the text of lexemes. -/
def Printed (f : Form) (v : Value) (ls : List Lexeme) : Prop :=
  ∀ w n, Like f.context.comments w v → w.depth ≤ n + 1 → f.Prints n w ls

variable {c : Context} {f : Form} {u v w x : Value} {vs ws : List Value}
  {ls ms ns os : List Lexeme} {least least₁ n : Nat} {o : Notes}

theorem depth_pos (v : Value) : 0 < v.depth := by
  cases v <;> simp [Value.depth]

/-- A name binds tightly enough for every place. -/
theorem print_name (printed : ∀ w n, Like c.comments w v → w.depth ≤ n + 1 →
      ∀ least ≤ primaryRank, Print.expression (rules n) c least w = .ok (.source (layout ls)))
    (like : Like c.comments u v) (deep : u.depth ≤ n) (fits : least ≤ primaryRank) :
    (rules n).expression c least u = .ok (.source (layout ls)) := by
  cases n with
  | zero => exact absurd (depth_pos u) (by omega)
  | succ n => exact printed u n like deep least fits

/-- What prints as an expression is a node. -/
theorem rule_node {p : Phrase} (printed : (rules n).expression c least u = .ok p) :
    ∃ k vs m, u = .node k vs m := by
  cases u with
  | node k vs m => exact ⟨k, vs, m, rfl⟩
  | _ => cases n <;> cases printed

namespace Printed

/-- What is no deeper than its rules is printed by rules for what is below it. -/
theorem under (printed : Printed f v ls) (like : Like f.context.comments u v)
    (deep : u.depth ≤ n) : ∃ m, n = m + 1 ∧ f.Prints m u ls := by
  cases n with
  | zero => exact absurd (depth_pos u) (by omega)
  | succ n => exact ⟨n, rfl, printed u n like deep⟩

theorem rule (printed : Printed (.expression c least) v ls) (like : Like c.comments u v)
    (deep : u.depth ≤ n) : (rules n).expression c least u = .ok (.source (layout ls)) := by
  obtain ⟨n, rfl, done⟩ := printed.under like deep
  exact done

theorem statementRule (printed : Printed (.statement c) v ls) (like : Like c.comments u v)
    (deep : u.depth ≤ n) : (rules n).statement c u = .ok (layout ls) := by
  obtain ⟨n, rfl, done⟩ := printed.under like deep
  exact done

theorem choiceRule (printed : Printed (.choice c) v ls) (like : Like c.comments u v)
    (deep : u.depth ≤ n) : (rules n).choice c u = .ok (layout ls) := by
  obtain ⟨n, rfl, done⟩ := printed.under like deep
  exact done

theorem calleeRule (printed : Printed (.callee c) v ls) (like : Like c.comments u v)
    (deep : u.depth ≤ n) : ∃ inner, (rules n).expression c callRank u = .ok (.source inner) ∧
      layout ls = if startsWithCall u then parens inner else inner := by
  obtain ⟨n, rfl, done⟩ := printed.under like deep
  exact done

theorem objectRule (printed : Printed (.object c) v ls) (like : Like c.comments u v)
    (deep : u.depth ≤ n) : ∃ inner, (rules n).expression c callRank u = .ok (.source inner) ∧
      layout ls = if isNumberLiteral u then parens inner else inner := by
  obtain ⟨n, rfl, done⟩ := printed.under like deep
  exact done

theorem item (isItem : f.isItem) (printed : Printed f v ls) (like : Like f.context.comments u v)
    (deep : u.depth ≤ n) : f.printItem n u = .ok (.source (layout ls)) := by
  cases f with
  | expression => exact printed.rule like deep
  | binding => exact print_name printed like deep (by decide)
  | property => exact printed u n like (by omega)
  | declarator => exact printed u n like (by omega)
  | _ => cases isItem

end Printed

theorem join_single {separator l : Layout} : join separator [l] = l := by
  simp [join, List.intercalate]

theorem join_cons {separator l : Layout} {parts : List Layout} (some : parts ≠ []) :
    join separator (l :: parts) = l ++ (separator ++ join separator parts) := by
  cases parts with
  | nil => contradiction
  | cons => simp [join, List.intercalate]

theorem mapM_cons {α β : Type} {f : α → Except Error β} {a : α} {as : List α} {b : β}
    {bs : List β} (first : f a = .ok b) (rest : as.mapM f = .ok bs) :
    (a :: as).mapM f = .ok (b :: bs) := by
  rw [List.mapM_cons, first, rest]
  rfl

theorem mapM_ne_nil {α β : Type} {f : α → Except Error β} {a : α} {as : List α} {bs : List β}
    (done : (a :: as).mapM f = .ok bs) : bs ≠ [] := by
  rintro rfl
  rw [List.mapM_cons] at done
  cases first : f a <;> rw [first] at done
  · cases done
  · cases rest : as.mapM f <;> rw [rest] at done <;> cases done

theorem separated_source (parts : List Layout) :
    Phrase.separated (parts.map Phrase.source) = .ok (join (lay ", ") parts) := by
  have strict : (parts.map Phrase.source).mapM Phrase.strict = .ok parts := by
    induction parts with
    | nil => rfl
    | cons l parts ih => exact mapM_cons rfl ih
  rw [Phrase.separated, strict]
  rfl

theorem layout_beside {b : Bool} {xs : List Comment} : layout (remarksBeside b xs) =
    if b then xs.flatMap fun x => Layout.ofText { x with block := true }.render ++ lay " "
    else [] := by
  cases b with
  | false => rfl
  | true =>
    simp only [remarksBeside, if_true, layout, List.flatMap_assoc]
    rfl

/-- The comments of an expression stand before it. -/
theorem commented_beside {l : Layout} (like : Like c.comments w v) :
    commented c w (.source l) =
      .ok (.source (layout (remarksBeside c.comments v.comments) ++ l)) := by
  have text : inlineComments c w = layout (remarksBeside c.comments v.comments) := by
    rw [inlineComments, layout_beside]
    split
    · rw [like.comments ‹_›]
    · rfl
  rw [commented, text]
  cases layout (remarksBeside c.comments v.comments) <;> rfl

/-- The text of an expression that binds tightly enough is bare. -/
theorem expression_opened {kind : Kind} {rank : Nat} (like : Like c.comments w v)
    (ranked : Print.rank w = .ok rank) (isNode : w.kind? = some kind)
    (inner : bare (rules n) c w kind = .ok (.source (layout ls))) (fits : least ≤ rank) :
    Print.expression (rules n) c least w =
      .ok (.source (layout (remarksBeside c.comments v.comments ++ ls))) := by
  simp only [Print.expression, isNode, ranked, ok_bind, inner]
  rw [if_neg (by omega), commented_beside like, layout_append]

/-- The text of an expression that binds too loosely stands in parentheses. -/
theorem expression_closed {kind : Kind} {rank : Nat} (like : Like c.comments w v)
    (ranked : Print.rank w = .ok rank) (isNode : w.kind? = some kind)
    (inner : bare (rules n) c.lifted w kind = .ok (.source (layout ls))) (loose : rank < least) :
    Print.expression (rules n) c least w =
      .ok (.source (layout (remarksBeside c.comments v.comments) ++ parens (layout ls))) := by
  simp only [Print.expression, isNode, ranked, ok_bind, inner]
  rw [if_pos loose]
  exact commented_beside like

theorem Value.isIn_node (isIn : v.isIn) :
    ∃ a b m, v = .node .binaryExpression [.text (ScriptTree.text "in"), a, b] m := by
  unfold Value.isIn at isIn
  split at isIn
  · cases eq_of_beq isIn
    exact ⟨_, _, _, rfl⟩
  · cases isIn

/-- No other kind belongs to one that is nobody's supertype. -/
theorem Value.isKind_leaf {wider kind : Kind}
    (leaf : Vocabulary.standard.all fun d => !d.supertypes.contains wider) :
    (Value.node kind vs o).isKind wider = (kind == wider) := by
  change (kind == wider || (Vocabulary.standard.groups kind).contains wider) = _
  unfold Vocabulary.groups
  split
  · rename_i d found
    have other := List.all_eq_true.mp leaf d (List.mem_of_find?_eq_some found)
    rw [Bool.not_eq_true'] at other
    rw [List.contains_cons, other, Bool.or_false, Bool.beq_comm (a := wider), Bool.or_self]
  · rw [List.contains_cons, Bool.beq_comm (a := wider)]
    simp

section likeness

variable {keep : Bool}

theorem Value.Like.isOperator {op : Text} (like : Like keep w v) :
    Print.isOperator w op = Print.isOperator v op := by
  cases v with
  | text => rw [like_text.mp like]
  | _ => cases w <;> simp_all [Like, strip, Print.isOperator]

theorem Value.Like.operatorRank {k : Nat} (like : Like keep w v)
    (ranked : Print.operatorRank v = .ok k) : Print.operatorRank w = .ok k := by
  cases v with
  | text => rwa [like_text.mp like]
  | _ => cases ranked

/-- Alike expressions have the same rank. -/
theorem Value.Like.rank {k : Nat} (like : Like keep w v)
    (ranked : Print.rank v = .ok k) : Print.rank w = .ok k := by
  unfold Print.rank at ranked ⊢
  rw [like.kind?]
  split at ranked <;> try exact ranked
  · cases found : v.field "operator" with
    | error => rw [found] at ranked; cases ranked
    | ok a =>
      rw [found, ok_bind] at ranked
      obtain ⟨b, found', same⟩ := like.field found
      rw [found', ok_bind, same.operatorRank ranked]
  · cases found : v.field "operator" with
    | error => rw [found] at ranked; cases ranked
    | ok a =>
      rw [found, ok_bind] at ranked
      obtain ⟨b, found', same⟩ := like.field found
      rw [found', ok_bind, same.operatorRank ranked]
  · cases found : v.field "prefix" with
    | error => rw [found] at ranked; cases ranked
    | ok a =>
      rw [found, ok_bind] at ranked
      obtain ⟨b, found', same⟩ := like.field found
      rw [found', ok_bind, same.isTruthy]
      exact ranked

theorem Value.Like.mixes {op : Text} {r : Nat} {b : Bool} (like : Like keep w v)
    (mixes : mixesNullish op r v = .ok b) : mixesNullish op r w = .ok b := by
  unfold mixesNullish at mixes ⊢
  rw [like.isKind]
  split at mixes
  · rw [if_pos ‹_›]
    cases found : v.field "operator" with
    | error => rw [found] at mixes; cases mixes
    | ok a =>
      rw [found, ok_bind] at mixes
      obtain ⟨b, found', same⟩ := like.field found
      rw [found', ok_bind, same.isOperator]
      split at mixes
      · rw [if_pos ‹_›]
        exact mixes
      · rw [if_neg ‹_›]
        cases ranked : Print.rank v with
        | error => rw [ranked] at mixes; cases mixes
        | ok k => rwa [like.rank ranked, ← ranked]
  · rw [if_neg ‹_›]
    exact mixes

theorem Value.Like.startsWithCall (like : Like keep w v) :
    Print.startsWithCall w = Print.startsWithCall v := by
  induction v using startsWithCall.induct generalizing w with
  | case1 =>
    obtain ⟨ws, m', rfl, _⟩ := like_node.mp like
    rfl
  | case2 a _ _ _ ih =>
    obtain ⟨a', _, _, _, rfl, same, _⟩ := like.three
    rw [Print.startsWithCall, Print.startsWithCall, ih same]
  | case3 v noCall noMember =>
    rw [Print.startsWithCall.eq_3 v noCall noMember]
    unfold Print.startsWithCall
    split
    · obtain ⟨_, _, same, _⟩ := like_node.mp like.symm
      exact absurd same (noCall _ _)
    · obtain ⟨_, _, _, _, same, _⟩ := like.symm.three
      exact absurd same (noMember _ _ _ _)
    · rfl

theorem Value.Like.number (like : Like keep w v) (number : Print.isNumberLiteral v) :
    Print.isNumberLiteral w := by
  unfold Print.isNumberLiteral at number
  split at number
  · obtain ⟨_, _, rfl, same, _⟩ := like.one
    cases like_int.mp same
    rfl
  · obtain ⟨_, _, rfl, same, _⟩ := like.one
    cases like_float.mp same
    rfl
  · cases number

theorem Value.Like.isNumberLiteral (like : Like keep w v) :
    Print.isNumberLiteral w = Print.isNumberLiteral v :=
  Bool.eq_iff_iff.mpr ⟨like.symm.number, like.number⟩

end likeness

theorem Value.kind?_node {k : Kind} (kind : v.kind? = some k) : ∃ vs m, v = .node k vs m := by
  cases v with
  | node =>
    cases kind
    exact ⟨_, _, rfl⟩
  | _ => cases kind

theorem layout_enclosed : layout (enclosed ls) = parens (layout ls) := by
  rw [enclosed, layout_cons, layout_append, parens, List.append_assoc]
  rfl

theorem layout_single {l : Lexeme} : layout [l] = l.layout := by
  rw [layout_cons, layout_nil, List.append_nil]

theorem commentLines_trailing (like : Like c.comments w v) :
    commentLines c w false = (trailingComments c v).map fun x => (Lexeme.remark x).layout := by
  have flag : (fun x : Comment => x.leading == false) = fun x => !x.leading := by
    funext x
    cases x.leading <;> rfl
  rw [commentLines, trailingComments, flag]
  split
  · rw [like.comments ‹_›]
    rfl
  · rfl

theorem commentLines_leading (like : Like c.comments w v) :
    commentLines c w true = (leadingComments c v).map fun x => (Lexeme.remark x).layout := by
  have flag : (fun x : Comment => x.leading == true) = fun x => x.leading := by
    funext x
    cases x.leading <;> rfl
  rw [commentLines, leadingComments, flag]
  split
  · rw [like.comments ‹_›]
    rfl
  · rfl

/-- Lines that end in comments. -/
theorem join_after {d : Nat} {l : Layout} {xs : List Comment} :
    join [.line d] (l :: xs.map fun x => (Lexeme.remark x).layout) =
      l ++ layout (remarksAfter d xs) := by
  induction xs generalizing l with
  | nil => simp [join, List.intercalate, remarksAfter]
  | cons x xs ih =>
    rw [List.map_cons, join_cons (by simp), ih, remarksAfter, remarksAfter, List.flatMap_cons,
      layout_append]
    simp [Lexeme.layout]

/-- Lines that begin with comments. -/
theorem join_before {d : Nat} {parts : List Layout} {xs : List Comment} (some : parts ≠ []) :
    join [.line d] ((xs.map fun x => (Lexeme.remark x).layout) ++ parts) =
      layout (remarksBefore d xs) ++ join [.line d] parts := by
  induction xs with
  | nil => rfl
  | cons x xs ih =>
    rw [List.map_cons, List.cons_append, join_cons (by simp [some]), ih, remarksBefore,
      remarksBefore, List.flatMap_cons, layout_append]
    simp [Lexeme.layout]

namespace Printed

theorem commasNone : Printed (.commas f) (.list []) [] := by
  intro w n like _ _
  obtain ⟨ws, rfl, items⟩ := like_list.mp like
  cases allLike_nil.mp items
  exact ⟨[], [], rfl, rfl, rfl⟩

theorem commasLast (item : Printed f v ls) : Printed (.commas f) (.list [v]) ls := by
  intro w n like deep isItem
  obtain ⟨ws, rfl, items⟩ := like_list.mp like
  obtain ⟨u, us, rfl, first, rest⟩ := allLike_cons.mp items
  cases allLike_nil.mp rest
  simp only [Value.depth, depthOfList] at deep
  exact ⟨[u], [layout ls], rfl, mapM_cons (item.item isItem first (by omega)) rfl,
    join_single.symm⟩

theorem commasMore (item : Printed f v ls) (more : Printed (.commas f) (.list (x :: vs)) ms) :
    Printed (.commas f) (.list (v :: x :: vs)) (ls ++ .mark .comma :: .blank :: ms) := by
  intro w n like deep isItem
  obtain ⟨ws, rfl, items⟩ := like_list.mp like
  obtain ⟨u, us, rfl, first, rest⟩ := allLike_cons.mp items
  simp only [Value.depth, depthOfList] at deep
  obtain ⟨_, parts, same, printed, text⟩ := more (.list us) n (like_list.mpr ⟨us, rfl, rest⟩)
    (by simp only [Value.depth]; omega) isItem
  cases same
  obtain ⟨u', us, rfl, _, _⟩ := allLike_cons.mp rest
  have some : parts ≠ [] := by simpa using mapM_ne_nil printed
  refine ⟨_, layout ls :: parts, rfl, mapM_cons (item.item isItem first (by omega)) printed, ?_⟩
  rw [join_cons some, layout_append, ← text]
  rfl

/-- Items that are expressions are printed with commas between them. -/
theorem separated (printed : Printed (.commas f) (.list vs) ls)
    (rule : ∀ n, f.printItem n = (rules n).expression f.context least)
    (like : Like f.context.comments w (.list vs)) (deep : w.depth ≤ n + 1)
    (isItem : f.isItem) :
    ∃ ws, w = .list ws ∧ commaSeparated (rules n) f.context least ws = .ok (layout ls) := by
  obtain ⟨ws, parts, rfl, done, text⟩ := printed w n like deep isItem
  refine ⟨ws, rfl, ?_⟩
  rw [rule] at done
  rw [commaSeparated, done, ok_bind, separated_source, text]

theorem name {t : Text} :
    Printed (.bare c primaryRank) (.node .identifier [.text t] o) [.word t] := by
  intro w n like _
  obtain ⟨_, m, rfl, name, _⟩ := like.one
  cases like_text.mp name
  refine ⟨rfl, .identifier, rfl, ?_⟩
  rw [layout_single]
  simp only [bare, fields_of .identifier, ok_bind, pure_ok, Phrase.ofValue]
  rfl

theorem named {t : Text} (like : Like c.comments w (.node .identifier [.text t] o))
    (deep : w.depth ≤ n + 1) (fits : least ≤ primaryRank) : Print.expression (rules n) c least w =
      .ok (.source (layout (remarksBeside c.comments o.comments ++ [.word t]))) := by
  obtain ⟨ranked, kind, isNode, inner⟩ := name w n like deep
  exact expression_opened like ranked isNode inner fits

theorem literal (plain : v.isPlain) :
    Printed (.bare c primaryRank) (.node .literal [v] o) [.literal v] := by
  intro w n like _
  obtain ⟨u, m, rfl, same, _⟩ := like.one
  refine ⟨rfl, .literal, rfl, ?_⟩
  rw [layout_single]
  simp only [bare, fields_of .literal, ok_bind]
  cases v with
  | null =>
    cases like_null.mp same
    rfl
  | bool b =>
    cases like_bool.mp same
    cases b <;> rfl
  | text =>
    cases like_text.mp same
    rfl
  | int i =>
    cases like_int.mp same
    simp only [Value.isPlain, Bool.and_eq_true, decide_eq_true_eq] at plain
    obtain ⟨i, rfl⟩ := Int.eq_ofNat_of_zero_le plain.1
    rw [Literal.write, writeInteger, Numeral.writeInt?, if_pos plain.2]
    rfl
  | _ => cases plain

theorem keyLiteral (plain : v.isPlain) : Printed (.key c) (.node .literal [v] o)
    (remarksBeside c.comments o.comments ++ [.literal v]) := by
  intro w n like deep least fits
  obtain ⟨ranked, kind, isNode, inner⟩ := literal plain w n like deep
  exact expression_opened like ranked isNode inner fits

theorem opened {rank : Nat} (inner : Printed (.bare c rank) v ls) (fits : least ≤ rank) :
    Printed (.expression c least) v (remarksBeside c.comments v.comments ++ ls) := by
  intro w n like deep
  obtain ⟨ranked, kind, isNode, inner⟩ := inner w n like deep
  exact expression_opened like ranked isNode inner fits

theorem closed {rank : Nat} (inner : Printed (.bare c.lifted rank) v ls)
    (loose : rank < least ∨ c.noIn ∧ v.isIn) :
    Printed (.expression c least) v (remarksBeside c.comments v.comments ++ enclosed ls) := by
  intro w n like deep
  obtain ⟨ranked, kind, isNode, inner⟩ := inner w n like deep
  rcases Nat.lt_or_ge rank least with loose | fits
  · rw [Form.Prints, layout_append, layout_enclosed]
    exact expression_closed like ranked isNode inner loose
  · -- an operation with `in` makes its own parentheses in the head of a loop
    obtain ⟨noIn, isIn⟩ := loose.resolve_left (by omega)
    obtain ⟨a, b, m, rfl⟩ := isIn_node isIn
    obtain ⟨_, a, b, m, rfl, name, _⟩ := like.three
    cases like_text.mp name
    cases isNode
    refine expression_opened like ranked rfl ?_ fits
    have lifted : c.lifted.noIn = false := rfl
    have isIn : isOperator (.text (text "in")) (text "in") = true := rfl
    simp only [bare, Print.binary, fields_of .binaryExpression, ok_bind, lifted, Bool.and_false,
      Bool.false_eq_true, if_false, noIn, isIn, Bool.and_true, if_true] at inner ⊢
    cases done : operation (rules n) c.lifted (.node .binaryExpression
      [.text (text "in"), a, b] m) with
    | error => simp [done, Functor.map, Except.map] at inner
    | ok l =>
      rw [done] at inner
      cases inner
      rw [layout_enclosed]
      rfl

theorem notNull (printed : Printed (.expression c least) v ls) : v.isNull = false := by
  cases v with
  | null => cases printed .null 0 rfl (by decide)
  | _ => rfl

theorem this : Printed (.bare c primaryRank) (.node .thisExpression [] o) [.mark .kwThis] := by
  intro w n like _
  obtain ⟨ws, m, rfl, children, _⟩ := like_node.mp like
  cases allLike_nil.mp children
  exact ⟨rfl, .thisExpression, rfl, rfl⟩

theorem elementsNone : Printed (.elements c) (.list []) [] := by
  intro w n like _
  obtain ⟨ws, rfl, items⟩ := like_list.mp like
  cases allLike_nil.mp items
  exact ⟨[], [], rfl, rfl, rfl⟩

theorem elementsHole : Printed (.elements c) (.list [.null]) [.mark .comma] := by
  intro w n like _
  obtain ⟨ws, rfl, items⟩ := like_list.mp like
  obtain ⟨u, us, rfl, first, rest⟩ := allLike_cons.mp items
  cases allLike_nil.mp rest
  cases like_null.mp first
  exact ⟨[.null], [[]], rfl, rfl, rfl⟩

theorem elementsLast (item : Printed (.expression c assignmentRank) v ls) :
    Printed (.elements c) (.list [v]) ls := by
  intro w n like deep
  obtain ⟨ws, rfl, items⟩ := like_list.mp like
  obtain ⟨u, us, rfl, first, rest⟩ := allLike_cons.mp items
  cases allLike_nil.mp rest
  simp only [Value.depth, depthOfList] at deep
  have solid : u.isNull = false := first.isNull.trans item.notNull
  refine ⟨[u], [layout ls], rfl, mapM_cons ?_ rfl, ?_⟩
  · rw [if_neg (by simp [solid])]
    exact item.rule first (by omega)
  · simp [solid, join_single]

/-- One more element before others. -/
theorem elements_cons (more : Printed (.elements c) (.list (x :: vs)) ms)
    (rest : AllLike c.comments ws (x :: vs)) (deep : depthOfList ws ≤ n)
    (item : (if u.isNull then .ok (.source []) else (rules n).expression c assignmentRank u) =
      .ok (.source (layout ls))) :
    (Form.elements c).Prints n (.list (u :: ws)) (ls ++ .mark .comma :: .blank :: ms) := by
  obtain ⟨_, parts, same, printed, text⟩ := more (.list ws) n (like_list.mpr ⟨ws, rfl, rest⟩)
    (by simp only [Value.depth]; omega)
  cases same
  obtain ⟨u', us, rfl, _, _⟩ := allLike_cons.mp rest
  have some : parts ≠ [] := by simpa using mapM_ne_nil printed
  refine ⟨_, layout ls :: parts, rfl, mapM_cons item printed, ?_⟩
  rw [join_cons some, layout_append, List.getLast?_cons_cons, List.append_assoc,
    List.append_assoc, ← text]
  rfl

theorem elementsSkip (more : Printed (.elements c) (.list (v :: vs)) ls) :
    Printed (.elements c) (.list (.null :: v :: vs)) (.mark .comma :: .blank :: ls) := by
  intro w n like deep
  obtain ⟨ws, rfl, items⟩ := like_list.mp like
  obtain ⟨u, us, rfl, first, rest⟩ := allLike_cons.mp items
  cases like_null.mp first
  simp only [Value.depth, depthOfList] at deep
  have empty : (if Value.null.isNull then .ok (.source []) else
      (rules n).expression c assignmentRank .null) = .ok (.source (layout [])) := rfl
  exact elements_cons more rest (by omega) empty

theorem elementsMore (item : Printed (.expression c assignmentRank) v ls)
    (more : Printed (.elements c) (.list (x :: vs)) ms) :
    Printed (.elements c) (.list (v :: x :: vs)) (ls ++ .mark .comma :: .blank :: ms) := by
  intro w n like deep
  obtain ⟨ws, rfl, items⟩ := like_list.mp like
  obtain ⟨u, us, rfl, first, rest⟩ := allLike_cons.mp items
  simp only [Value.depth, depthOfList] at deep
  have solid : u.isNull = false := first.isNull.trans item.notNull
  refine elements_cons more rest (by omega) ?_
  rw [if_neg (by simp [solid])]
  exact item.rule first (by omega)

theorem array (inner : Printed (.elements c.lifted) (.list vs) ls) :
    Printed (.bare c primaryRank) (.node .arrayExpression [.list vs] o)
      (.mark .leftBracket :: (ls ++ [.mark .rightBracket])) := by
  intro w n like deep
  obtain ⟨u, m, rfl, same, _⟩ := like.one
  simp only [Value.depth, depthOfList] at deep
  obtain ⟨ws, parts, rfl, printed, text⟩ := inner u n same (by omega)
  refine ⟨rfl, .arrayExpression, rfl, ?_⟩
  simp only [bare, Print.array, items, fields_of .arrayExpression, ok_bind, pure_ok, printed,
    separated_source, map_ok, layout_cons, layout_append, layout_nil, List.append_nil, text]
  simp only [List.append_assoc]
  rfl

theorem objectNone : Printed (.bare c primaryRank) (.node .objectExpression [.list []] o)
    [.mark .leftBrace, .mark .rightBrace] := by
  intro w n like _
  obtain ⟨u, m, rfl, same, _⟩ := like.one
  obtain ⟨ws, rfl, items⟩ := like_list.mp same
  cases allLike_nil.mp items
  exact ⟨rfl, .objectExpression, rfl, rfl⟩

theorem objectSome (inner : Printed (.commas (.property c.lifted)) (.list (v :: vs)) ls) :
    Printed (.bare c primaryRank) (.node .objectExpression [.list (v :: vs)] o)
      (.mark .leftBrace :: .blank :: (ls ++ [.blank, .mark .rightBrace])) := by
  intro w n like deep
  obtain ⟨u, m, rfl, same, _⟩ := like.one
  simp only [Value.depth, depthOfList] at deep
  obtain ⟨ws, parts, rfl, printed, text⟩ := inner u n same (by omega) rfl
  simp only [Form.printItem] at printed
  obtain ⟨_, some, items⟩ := like_list.mp same
  cases some
  obtain ⟨u, us, rfl, _, _⟩ := allLike_cons.mp items
  have truthy : (Value.list (u :: us)).isTruthy = true := rfl
  refine ⟨rfl, .objectExpression, rfl, ?_⟩
  simp only [bare, Print.object, Print.items, fields_of .objectExpression, ok_bind, pure_ok, truthy,
    Bool.not_true, Bool.false_eq_true, if_false, printed, separated_source, map_ok, layout_cons,
    layout_append, layout_nil, List.append_nil, text]
  simp only [List.append_assoc]
  rfl

theorem computed (key : Printed (.expression c assignmentRank) v ls)
    (value : Printed (.expression c assignmentRank) x ms) :
    Printed (.property c) (.node .property [v, x, .bool true, .bool false] o)
      (.mark .leftBracket :: (ls ++ .mark .rightBracket :: .mark .colon :: .blank :: ms)) := by
  intro w n like deep
  obtain ⟨a, b, _, _, m, rfl, first, second, isComputed, isShort, _⟩ := like.four
  cases like_bool.mp isComputed
  cases like_bool.mp isShort
  simp only [Value.depth, depthOfList] at deep
  simp only [Form.Prints, Print.property, fields_of .property, ok_bind, pure_ok, Value.isTruthy,
    Bool.false_eq_true, if_false, if_true, key.rule first (n := n) (by omega),
    value.rule second (n := n) (by omega), Phrase.spoken, layout_cons, layout_append]
  simp only [List.append_assoc]
  rfl

theorem keyed (key : Printed (.key c) v ls) (value : Printed (.expression c assignmentRank) x ms) :
    Printed (.property c) (.node .property [v, x, .bool false, .bool false] o)
      (ls ++ .mark .colon :: .blank :: ms) := by
  intro w n like deep
  obtain ⟨a, b, _, _, m, rfl, first, second, isComputed, isShort, _⟩ := like.four
  cases like_bool.mp isComputed
  cases like_bool.mp isShort
  simp only [Value.depth, depthOfList] at deep
  have name : (rules n).expression c assignmentRank a = .ok (.source (layout ls)) :=
    print_name key first (by omega) (by decide)
  simp only [Form.Prints, Print.property, fields_of .property, ok_bind, pure_ok, Value.isTruthy,
    Bool.false_eq_true, if_false, name, value.rule second (n := n) (by omega), Phrase.spoken,
    layout_cons, layout_append]
  simp only [List.append_assoc]
  rfl

theorem shorthand {t : Text} {o₁ o₂ : Notes} :
    Printed (.property c) (.node .property [.node .identifier [.text t] o₁,
      .node .identifier [.text t] o₂, .bool false, .bool true] o)
      (remarksBeside c.comments o₂.comments ++ [.word t]) := by
  intro w n like deep
  obtain ⟨a, b, _, _, m, rfl, first, second, isComputed, isShort, _⟩ := like.four
  cases like_bool.mp isComputed
  cases like_bool.mp isShort
  simp only [Value.depth, depthOfList] at deep
  have name : (rules n).expression c assignmentRank b = _ :=
    print_name (fun w n like deep least fits => named like deep fits) second (by omega) (by decide)
  simp only [Form.Prints, Print.property, fields_of .property, ok_bind, Value.isTruthy, if_true,
    name]

theorem functionNamed {declared : Bool} (name : Printed (.binding c) v ls)
    (params : Printed (.commas (.binding c)) (.list vs) ms) (body : Printed (.block c) x ns) :
    Printed (.function c declared)
      (.node (if declared then .functionDeclaration else .functionExpression) [v, .list vs, x] o)
      (.mark .kwFunction :: .blank :: (ls ++ (enclosed ms ++ .blank :: ns))) := by
  intro w n like deep
  obtain ⟨i, ps, b, m, rfl, first, second, third, _⟩ := like.three
  simp only [Value.depth, depthOfList] at deep
  have named : (rules n).expression c sequenceRank i = .ok (.source (layout ls)) :=
    print_name name first (by omega) (by decide)
  obtain ⟨ps, rfl, parameters⟩ := params.separated (fun _ => rfl) second (n := n) (by omega) rfl
  have block : Print.block (rules n) c b = .ok (layout ns) := body b n third (by omega)
  simp only [Form.context] at parameters
  obtain ⟨k, is, q, rfl⟩ := rule_node named
  cases declared <;>
    simp only [Form.Prints, Print.function, Print.parameters, items, fields_of .functionDeclaration,
      fields_of .functionExpression, ok_bind, pure_ok, Bool.false_eq_true, if_false, if_true, named,
      Phrase.strict, parameters, block, layout_cons, layout_append, layout_enclosed,
      List.append_assoc] <;> rfl

theorem functionUnnamed (params : Printed (.commas (.binding c)) (.list vs) ms)
    (body : Printed (.block c) x ns) :
    Printed (.function c false) (.node .functionExpression [.null, .list vs, x] o)
      (.mark .kwFunction :: (enclosed ms ++ .blank :: ns)) := by
  intro w n like deep
  obtain ⟨_, ps, b, m, rfl, first, second, third, _⟩ := like.three
  cases like_null.mp first
  simp only [Value.depth, depthOfList] at deep
  obtain ⟨ps, rfl, parameters⟩ := params.separated (fun _ => rfl) second (n := n) (by omega) rfl
  simp only [Form.context] at parameters
  have block : Print.block (rules n) c b = .ok (layout ns) := body b n third (by omega)
  simp only [Form.Prints, Print.function, Print.parameters, items, fields_of .functionExpression,
    ok_bind, pure_ok, parameters, block, layout_cons, layout_append, layout_enclosed]
  simp only [List.append_assoc]
  rfl

theorem functionExpression
    (inner : Printed (.function c false) (.node .functionExpression vs o) ls) :
    Printed (.bare c primaryRank) (.node .functionExpression vs o) ls := by
  intro w n like deep
  have done : Print.function (rules n) c w = .ok (layout ls) := inner w n like deep
  obtain ⟨ws, m, rfl, _⟩ := like_node.mp like
  refine ⟨rfl, .functionExpression, rfl, ?_⟩
  simp only [bare, done, map_ok]

/-- What prints as an expression is of no kind that is refused as one. -/
theorem notKind {kind : Kind} (printed : Printed (.expression c least) v ls)
    (refused : ∀ r c v, bare r c v kind = malformedAt .notExpression kind)
    (leaf : Vocabulary.standard.all fun d => !d.supertypes.contains kind) :
    v.isKind kind = false := by
  have done := printed v v.depth rfl (by omega)
  cases v with
  | node k vs m =>
    rw [isKind_leaf leaf]
    apply beq_false_of_ne
    rintro rfl
    simp only [Form.Prints, Print.expression, Value.kind?, refused] at done
    cases ranked : Print.rank (.node k vs m) with
    | error => rw [ranked] at done; cases done
    | ok rank =>
      rw [ranked, ok_bind] at done
      split at done <;> cases done
  | _ => rfl

theorem arrowBlock (params : Printed (.commas (.binding c)) (.list vs) ls)
    (body : Printed (.block c) v ms) (isBlock : v.isKind .blockStatement) :
    Printed (.bare c assignmentRank) (.node .arrowFunctionExpression [.list vs, v, .bool false] o)
      (enclosed ls ++ .blank :: .mark .arrow :: .blank :: ms) := by
  intro w n like deep
  obtain ⟨ps, b, _, m, rfl, first, second, third, _⟩ := like.three
  cases like_bool.mp third
  simp only [Value.depth, depthOfList] at deep
  obtain ⟨ps, rfl, parameters⟩ := params.separated (fun _ => rfl) first (n := n) (by omega) rfl
  simp only [Form.context] at parameters
  have block : Print.block (rules n) c b = .ok (layout ms) := body b n second (by omega)
  refine ⟨rfl, .arrowFunctionExpression, rfl, ?_⟩
  simp only [bare, Print.arrow, Print.parameters, items, fields_of .arrowFunctionExpression,
    ok_bind, pure_ok, second.isKind.trans isBlock, if_true, parameters, block, layout_cons,
    layout_append, layout_enclosed, List.append_assoc]
  rfl

/-- An arrow function with an expression as its body, in parentheses or not. -/
theorem arrowOther (params : Printed (.commas (.binding c)) (.list vs) ls)
    (body : Printed (.expression c.lifted assignmentRank) v ms)
    (text : layout ns = if (layout ms).startsWith (text "\x7b") then parens (layout ms)
      else layout ms) :
    Printed (.bare c assignmentRank) (.node .arrowFunctionExpression [.list vs, v, .bool true] o)
      (enclosed ls ++ .blank :: .mark .arrow :: .blank :: ns) := by
  intro w n like deep
  obtain ⟨ps, b, _, m, rfl, first, second, third, _⟩ := like.three
  cases like_bool.mp third
  simp only [Value.depth, depthOfList] at deep
  obtain ⟨ps, rfl, parameters⟩ := params.separated (fun _ => rfl) first (n := n) (by omega) rfl
  simp only [Form.context] at parameters
  have other : v.isKind .blockStatement = false := body.notKind (fun _ _ _ => rfl) (by decide)
  refine ⟨rfl, .arrowFunctionExpression, rfl, ?_⟩
  simp only [bare, Print.arrow, Print.parameters, items, fields_of .arrowFunctionExpression,
    ok_bind, pure_ok, second.isKind.trans other, Bool.false_eq_true, if_false,
    body.rule second (n := n) (by omega), Phrase.begun, parameters, layout_cons, layout_append,
    layout_enclosed, text, List.append_assoc]
  rfl

theorem unary {k : TokenKind} (operand : Printed (.expression c unaryRank) v ls) :
    Printed (.bare c unaryRank) (.node .unaryExpression [.text (text k.spelling), v] o)
      (.mark k :: (unaryGap k (layout ls) ++ ls)) := by
  intro w n like deep
  obtain ⟨_, u, m, rfl, name, same, _⟩ := like.two
  cases like_text.mp name
  simp only [Value.depth, depthOfList] at deep
  refine ⟨rfl, .unaryExpression, rfl, ?_⟩
  simp only [bare, Print.unary, fields_of .unaryExpression, ok_bind, pure_ok,
    operand.rule same (n := n) (by omega), Phrase.spoken, Phrase.begun, Phrase.plus, layout_cons,
    layout_append, unaryGap]
  by_cases isWord : isWordOperator (text k.spelling)
  · simp only [isWord, Bool.true_or, if_true, List.append_assoc]
    rfl
  · by_cases sign : isSign (text k.spelling)
    · simp only [isWord, sign, Bool.false_or, Bool.true_and, Bool.false_eq_true, if_false, if_true]
      split <;> simp only [List.append_assoc] <;> rfl
    · simp only [isWord, sign, Bool.false_and, Bool.or_self, Bool.false_eq_true, if_false]
      rfl

theorem stepBefore {k : TokenKind} (operand : Printed (.expression c postfixRank) v ls) :
    Printed (.bare c unaryRank) (.node .updateExpression [.text (text k.spelling), .bool true, v] o)
      (.mark k :: ls) := by
  intro w n like deep
  obtain ⟨_, _, u, m, rfl, name, flag, same, _⟩ := like.three
  cases like_text.mp name
  cases like_bool.mp flag
  simp only [Value.depth, depthOfList] at deep
  refine ⟨rfl, .updateExpression, rfl, ?_⟩
  simp only [bare, Print.update, fields_of .updateExpression, ok_bind, Value.isTruthy, if_true,
    operand.rule same (n := n) (by omega), Phrase.ofValue, Phrase.plus, layout_cons]
  rfl

theorem stepAfter {k : TokenKind} (operand : Printed (.expression c callRank) v ls) :
    Printed (.bare c postfixRank)
      (.node .updateExpression [.text (text k.spelling), .bool false, v] o) (ls ++ [.mark k]) := by
  intro w n like deep
  obtain ⟨_, _, u, m, rfl, name, flag, same, _⟩ := like.three
  cases like_text.mp name
  cases like_bool.mp flag
  simp only [Value.depth, depthOfList] at deep
  refine ⟨rfl, .updateExpression, rfl, ?_⟩
  simp only [bare, Print.update, fields_of .updateExpression, ok_bind, Value.isTruthy,
    Bool.false_eq_true, if_false, operand.rule same (n := n) (by omega), Phrase.ofValue,
    Phrase.plus, layout_append, layout_single]
  rfl

theorem operandPlain {k : TokenKind} {rank : Nat}
    (apart : mixesNullish (text k.spelling) (conditionalRank + rank) v = .ok false)
    (inner : Printed (.expression c least) v ls) : Printed (.operand c k rank least) v ls := by
  intro w n like deep
  refine ⟨_, inner w n like deep, ?_⟩
  rw [Print.operand, like.mixes apart]
  rfl

theorem operandMixed {k : TokenKind} {rank : Nat}
    (mixed : mixesNullish (text k.spelling) (conditionalRank + rank) v = .ok true)
    (inner : Printed (.expression c least) v ls) :
    Printed (.operand c k rank least) v (enclosed ls) := by
  intro w n like deep
  refine ⟨_, inner w n like deep, ?_⟩
  rw [Print.operand, like.mixes mixed, layout_enclosed]
  rfl

/-- An operand, as the rules of the next depth print it. -/
theorem operandRule {k : TokenKind} {rank : Nat} (operand : Printed (.operand c k rank least) v ls)
    (like : Like c.comments u v) (deep : u.depth ≤ n) :
    ∃ inner, (rules n).expression c least u = .ok inner ∧
      Print.operand (text k.spelling) (conditionalRank + rank) u inner =
        .ok (.source (layout ls)) := by
  obtain ⟨n, rfl, done⟩ := operand.under like deep
  exact done

theorem operation {k : TokenKind} {rank : Nat} (ranked : k.rank? = some rank)
    (bar : c.noIn → k ≠ .kwIn) (left : Printed (.operand c k rank (leftLeast k rank)) v ls)
    (right : Printed (.operand c k rank (rightLeast k rank)) x ms) :
    Printed (.bare c (conditionalRank + rank))
      (.node (Grammar.operationKind k) [.text (text k.spelling), v, x] o)
      (ls ++ .blank :: .mark k :: .blank :: ms) := by
  intro w n like deep
  obtain ⟨_, a, b, m, rfl, name, first, second, _⟩ := like.three
  cases like_text.mp name
  simp only [Value.depth, depthOfList] at deep
  obtain ⟨leftInner, leftPrinted, leftText⟩ := left.operandRule first (n := n) (by omega)
  obtain ⟨rightInner, rightPrinted, rightText⟩ := right.operandRule second (n := n) (by omega)
  have known : operatorRank (.text (text k.spelling)) = .ok (conditionalRank + rank) := by
    rw [operatorRank, rankOf?_spelling ranked]
  have power : (text k.spelling == text "**") = decide (k = .power) :=
    TokenKind.holds_of_rank ranked (by decide)
  have inWord : (isOperator (.text (text k.spelling)) (text "in") && c.noIn) = false := by
    cases noIn : c.noIn with
    | false => rw [Bool.and_false]
    | true => cases k <;> cases ranked <;> first | rfl | exact absurd rfl (bar noIn)
  refine ⟨rank_operation ranked, Grammar.operationKind k, rfl, ?_⟩
  simp only [leftLeast, rightLeast] at leftPrinted rightPrinted
  rcases (by cases k <;> cases ranked <;> simp [Grammar.operationKind] :
    Grammar.operationKind k = .binaryExpression ∨ Grammar.operationKind k = .logicalExpression)
    with kind | kind <;> rw [kind] <;>
    simp only [bare, binary, Print.operation, fields_of .binaryExpression,
      fields_of .logicalExpression, ok_bind, pure_ok, inWord, known, word, power,
      decide_eq_true_eq, Bool.false_eq_true, if_false, leftPrinted, rightPrinted, leftText,
      rightText, Phrase.spoken, map_ok, layout_append, layout_cons, List.append_assoc] <;> rfl

theorem assignment {k : TokenKind} (left : Printed (.expression c callRank) v ls)
    (right : Printed (.expression c assignmentRank) x ms) :
    Printed (.bare c assignmentRank)
      (.node .assignmentExpression [.text (text k.spelling), v, x] o)
      (ls ++ .blank :: .mark k :: .blank :: ms) := by
  intro w n like deep
  obtain ⟨_, a, b, m, rfl, name, first, second, _⟩ := like.three
  cases like_text.mp name
  simp only [Value.depth, depthOfList] at deep
  refine ⟨rfl, .assignmentExpression, rfl, ?_⟩
  simp only [bare, Print.assignment, fields_of .assignmentExpression, ok_bind, pure_ok, map_ok,
    left.rule first (n := n) (by omega), right.rule second (n := n) (by omega), Phrase.spoken,
    Value.spoken, layout_append, layout_cons, List.append_assoc]
  rfl

theorem conditional {t : Value} (test : Printed (.expression c (conditionalRank + 1)) t ls)
    (consequent : Printed (.expression c.lifted assignmentRank) v ms)
    (alternate : Printed (.expression c assignmentRank) x ns) :
    Printed (.bare c conditionalRank) (.node .conditionalExpression [t, v, x] o)
      (ls ++ .blank :: .mark .question :: .blank ::
        (ms ++ .blank :: .mark .colon :: .blank :: ns)) := by
  intro w n like deep
  obtain ⟨a, b, d, m, rfl, first, second, third, _⟩ := like.three
  simp only [Value.depth, depthOfList] at deep
  refine ⟨rfl, .conditionalExpression, rfl, ?_⟩
  simp only [bare, Print.conditional, fields_of .conditionalExpression, ok_bind, pure_ok, map_ok,
    test.rule first (n := n) (by omega), consequent.rule second (n := n) (by omega),
    alternate.rule third (n := n) (by omega), Phrase.spoken, layout_append, layout_cons,
    List.append_assoc]
  rfl

theorem sequence (items : Printed (.commas (.expression c assignmentRank)) (.list vs) ls) :
    Printed (.bare c sequenceRank) (.node .sequenceExpression [.list vs] o) ls := by
  intro w n like deep
  obtain ⟨u, m, rfl, same, _⟩ := like.one
  simp only [Value.depth, depthOfList] at deep
  obtain ⟨ws, rfl, printed⟩ := items.separated (fun _ => rfl) same (n := n) (by omega) rfl
  refine ⟨rfl, .sequenceExpression, rfl, ?_⟩
  simp only [Form.context] at printed
  simp only [bare, Print.items, fields_of .sequenceExpression, ok_bind, pure_ok, printed]

theorem arguments (items : Printed (.commas (.expression c.lifted assignmentRank)) (.list vs) ls) :
    Printed (.arguments c) (.list vs) (enclosed ls) := by
  intro w n like deep
  obtain ⟨ws, rfl, printed⟩ := items.separated (fun _ => rfl) like (n := n) deep rfl
  exact ⟨ws, _, rfl, printed, layout_enclosed⟩

theorem call (callee : Printed (.expression c callRank) v ls)
    (args : Printed (.arguments c) (.list vs) ms) :
    Printed (.bare c callRank) (.node .callExpression [v, .list vs] o) (ls ++ ms) := by
  intro w n like deep
  obtain ⟨a, b, m, rfl, first, second, _⟩ := like.two
  simp only [Value.depth, depthOfList] at deep
  obtain ⟨ws, inner, rfl, printed, text⟩ := args b n second (by omega)
  refine ⟨rfl, .callExpression, rfl, ?_⟩
  simp only [bare, Print.call, Print.arguments, items, fields_of .callExpression, ok_bind, pure_ok,
    map_ok, callee.rule first (n := n) (by omega), Phrase.spoken, printed, layout_append, text]

theorem calleePlain (plain : startsWithCall v = false)
    (inner : Printed (.expression c callRank) v ls) : Printed (.callee c) v ls := by
  intro w n like deep
  exact ⟨_, inner w n like deep, by rw [like.startsWithCall, plain, if_neg (by decide)]⟩

theorem calleeCall (call : startsWithCall v) (inner : Printed (.expression c callRank) v ls) :
    Printed (.callee c) v (enclosed ls) := by
  intro w n like deep
  exact ⟨_, inner w n like deep, by rw [like.startsWithCall, if_pos call, layout_enclosed]⟩

theorem objectPlain (plain : isNumberLiteral v = false)
    (inner : Printed (.expression c callRank) v ls) : Printed (.object c) v ls := by
  intro w n like deep
  exact ⟨_, inner w n like deep, by rw [like.isNumberLiteral, plain, if_neg (by decide)]⟩

theorem objectNumber (number : isNumberLiteral v) (inner : Printed (.expression c callRank) v ls) :
    Printed (.object c) v (enclosed ls) := by
  intro w n like deep
  exact ⟨_, inner w n like deep, by rw [like.isNumberLiteral, if_pos number, layout_enclosed]⟩

theorem construction (callee : Printed (.callee c) v ls)
    (args : Printed (.arguments c) (.list vs) ms) :
    Printed (.bare c callRank) (.node .newExpression [v, .list vs] o)
      (.mark .kwNew :: .blank :: (ls ++ ms)) := by
  intro w n like deep
  obtain ⟨a, b, m, rfl, first, second, _⟩ := like.two
  simp only [Value.depth, depthOfList] at deep
  obtain ⟨ws, inner, rfl, printed, argsText⟩ := args b n second (by omega)
  obtain ⟨plain, named, calleeText⟩ := callee.calleeRule first (n := n) (by omega)
  refine ⟨rfl, .newExpression, rfl, ?_⟩
  simp only [bare, Print.construction, Print.arguments, items, fields_of .newExpression, ok_bind,
    pure_ok, map_ok, named, Phrase.spoken, printed, layout_append, layout_cons, argsText,
    calleeText, List.append_assoc]
  rfl

theorem memberNamed (object : Printed (.object c) v ls) (name : Printed (.word c) x ms) :
    Printed (.bare c callRank) (.node .memberExpression [v, x, .bool false] o)
      (ls ++ .mark .dot :: ms) := by
  intro w n like deep
  obtain ⟨a, b, _, m, rfl, first, second, flag, _⟩ := like.three
  cases like_bool.mp flag
  simp only [Value.depth, depthOfList] at deep
  obtain ⟨plain, whole, objectText⟩ := object.objectRule first (n := n) (by omega)
  have named : (rules n).expression c sequenceRank b = .ok (.source (layout ms)) :=
    print_name name second (by omega) (by decide)
  refine ⟨rfl, .memberExpression, rfl, ?_⟩
  simp only [bare, Print.member, fields_of .memberExpression, ok_bind, pure_ok, map_ok, whole,
    named, Value.isTruthy, Bool.false_eq_true, if_false, Phrase.spoken, layout_append, layout_cons,
    objectText, List.append_assoc]
  rfl

theorem memberIndexed (object : Printed (.object c) v ls)
    (index : Printed (.expression c.lifted sequenceRank) x ms) :
    Printed (.bare c callRank) (.node .memberExpression [v, x, .bool true] o)
      (ls ++ .mark .leftBracket :: (ms ++ [.mark .rightBracket])) := by
  intro w n like deep
  obtain ⟨a, b, _, m, rfl, first, second, flag, _⟩ := like.three
  cases like_bool.mp flag
  simp only [Value.depth, depthOfList] at deep
  obtain ⟨plain, whole, objectText⟩ := object.objectRule first (n := n) (by omega)
  refine ⟨rfl, .memberExpression, rfl, ?_⟩
  simp only [bare, Print.member, fields_of .memberExpression, ok_bind, pure_ok, map_ok, whole,
    index.rule second (n := n) (by omega), Value.isTruthy, if_true, Phrase.spoken, layout_append,
    layout_cons, layout_nil, List.append_nil, objectText, List.append_assoc]
  rfl

theorem blockNone (none : trailingComments c (.node .blockStatement [.list []] o) = []) :
    Printed (.block c) (.node .blockStatement [.list []] o)
      [.mark .leftBrace, .mark .rightBrace] := by
  intro w n like _
  have lines : commentLines c w false = [] := by
    rw [commentLines_trailing (c := c) like, none]
    rfl
  obtain ⟨u, m, rfl, same, _⟩ := like.one
  obtain ⟨ws, rfl, items⟩ := like_list.mp same
  cases allLike_nil.mp items
  simp only [Form.Prints, Print.block, fields_of .blockStatement, ok_bind, Value.isTruthy,
    List.isEmpty_nil, Bool.not_true, Bool.false_eq_true, if_false, lines, pure_ok, if_true]
  rfl

theorem blockRemarks {x : Comment} {xs : List Comment}
    (some : trailingComments c (.node .blockStatement [.list []] o) = x :: xs) :
    Printed (.block c) (.node .blockStatement [.list []] o) (.mark .leftBrace ::
      (remarksAfter (c.depth + 1) (x :: xs) ++ [.line c.depth, .mark .rightBrace])) := by
  intro w n like _
  have lines := commentLines_trailing (c := c) like
  rw [some] at lines
  obtain ⟨u, m, rfl, same, _⟩ := like.one
  obtain ⟨ws, rfl, items⟩ := like_list.mp same
  cases allLike_nil.mp items
  simp only [Form.Prints, Print.block, fields_of .blockStatement, ok_bind, Value.isTruthy,
    List.isEmpty_nil, Bool.not_true, Bool.false_eq_true, if_false, lines, pure_ok, List.map_cons,
    List.isEmpty_cons, join_after, layout_cons, layout_append]
  simp only [remarksAfter, List.flatMap_cons, layout_append, layout_cons, layout_nil,
    List.append_assoc, List.append_nil]
  rfl

theorem block (body : Printed (.lines c.lifted.deeper) (.list (v :: vs)) ls) :
    Printed (.block c) (.node .blockStatement [.list (v :: vs)] o)
      (.mark .leftBrace :: .line (c.depth + 1) :: (ls ++ [.line c.depth, .mark .rightBrace])) := by
  intro w n like deep
  obtain ⟨u, m, rfl, same, _⟩ := like.one
  simp only [Value.depth, depthOfList] at deep
  obtain ⟨ws, parts, rfl, printed, some, text⟩ := body u n same (by omega)
  obtain ⟨_, wrapped, items⟩ := like_list.mp same
  cases wrapped
  obtain ⟨u, us, rfl, _, _⟩ := allLike_cons.mp items
  have truthy : (Value.list (u :: us)).isTruthy = true := rfl
  have several : parts.isEmpty = false := by simpa using some
  simp only [Form.Prints, Print.block, Print.items, fields_of .blockStatement, ok_bind, pure_ok,
    truthy, if_true, printed, several, Bool.false_eq_true, if_false, layout_cons, layout_append,
    text]
  simp only [List.append_assoc]
  rfl

theorem declaratorBare (name : Printed (.binding c) v ls) :
    Printed (.declarator c) (.node .variableDeclarator [v, .null] o) ls := by
  intro w n like deep
  obtain ⟨a, _, m, rfl, first, second, _⟩ := like.two
  cases like_null.mp second
  simp only [Value.depth, depthOfList] at deep
  have named : (rules n).expression c sequenceRank a = .ok (.source (layout ls)) :=
    print_name name first (by omega) (by decide)
  simp only [Form.Prints, Print.declarator, fields_of .variableDeclarator, ok_bind, named, pure_ok]

theorem declaratorInit (name : Printed (.binding c) v ls)
    (init : Printed (.expression c assignmentRank) x ms) :
    Printed (.declarator c) (.node .variableDeclarator [v, x] o)
      (ls ++ .blank :: .mark .assign :: .blank :: ms) := by
  intro w n like deep
  obtain ⟨a, b, m, rfl, first, second, _⟩ := like.two
  simp only [Value.depth, depthOfList] at deep
  have named : (rules n).expression c sequenceRank a = .ok (.source (layout ls)) :=
    print_name name first (by omega) (by decide)
  have value := init.rule second (n := n) (by omega)
  obtain ⟨k, bs, q, rfl⟩ := rule_node value
  simp only [Form.Prints, Print.declarator, fields_of .variableDeclarator, ok_bind, named, pure_ok,
    Phrase.spoken, value, layout_append, layout_cons, List.append_assoc]
  rfl

theorem declaration {k : TokenKind} (items : Printed (.commas (.declarator c)) (.list vs) ls) :
    Printed (.declaration c) (.node .variableDeclaration [.text (text k.spelling), .list vs] o)
      (.mark k :: .blank :: ls) := by
  intro w n like deep
  obtain ⟨_, u, m, rfl, name, same, _⟩ := like.two
  cases like_text.mp name
  simp only [Value.depth, depthOfList] at deep
  obtain ⟨ws, parts, rfl, printed, text⟩ := items u n same (by omega) rfl
  simp only [Form.printItem] at printed
  simp only [Form.Prints, Print.declaration, Print.items, fields_of .variableDeclaration, ok_bind,
    pure_ok, printed, separated_source, Value.spoken, layout_cons, text, List.append_assoc]
  rfl

/-- An expression as a statement, in parentheses or not. -/
theorem ownExpression (inner : Printed (.expression c sequenceRank) v ls)
    (text : layout ms = if clashes (layout ls) then parens (layout ls) else layout ls) :
    Printed (.own c) (.node .expressionStatement [v] o) (ms ++ [.mark .semicolon]) := by
  intro w n like deep
  obtain ⟨u, m, rfl, same, _⟩ := like.one
  simp only [Value.depth, depthOfList] at deep
  simp only [clashes] at text
  simp only [Form.Prints, bareStatement, Value.kind?, expressionStatement,
    fields_of .expressionStatement, ok_bind, pure_ok, inner.rule same (n := n) (by omega),
    Phrase.begun, layout_append, layout_single, text]
  rfl

theorem ownBlock (inner : Printed (.block c) v ls) (kind : v.kind? = some .blockStatement) :
    Printed (.own c) v ls := by
  intro w n like deep
  simp only [Form.Prints, bareStatement, like.kind?.trans kind]
  exact inner w n like deep

theorem ownEmpty : Printed (.own c) (.node .emptyStatement [] o) [.mark .semicolon] := by
  intro w n like _
  obtain ⟨ws, m, rfl, _⟩ := like_node.mp like
  rfl

theorem ownDeclaration (inner : Printed (.declaration c) v ls)
    (kind : v.kind? = some .variableDeclaration) :
    Printed (.own c) v (ls ++ [.mark .semicolon]) := by
  intro w n like deep
  have done : Print.declaration (rules n) c w = .ok (layout ls) := inner w n like deep
  simp only [Form.Prints, bareStatement, like.kind?.trans kind, done, ok_bind, pure_ok,
    layout_append, layout_single]
  rfl

theorem ownFunction (inner : Printed (.function c true) v ls)
    (kind : v.kind? = some .functionDeclaration) : Printed (.own c) v ls := by
  intro w n like deep
  simp only [Form.Prints, bareStatement, like.kind?.trans kind]
  exact inner w n like deep

theorem ownChoice (inner : Printed (.choice c) v ls) (kind : v.kind? = some .ifStatement) :
    Printed (.own c) v ls := by
  intro w n like deep
  simp only [Form.Prints, bareStatement, like.kind?.trans kind]
  exact inner w n like deep

/-- A word as a statement. -/
theorem simpleBare {kind : Kind} {k : TokenKind} {field : String}
    (prints : ∀ r m, bareStatement r c (.node kind [.null] m) =
      simple r c k.spelling field (.node kind [.null] m))
    (holds : ∀ m, (Value.node kind [.null] m).field field = .ok .null) :
    Printed (.own c) (.node kind [.null] o) [.mark k, .mark .semicolon] := by
  intro w n like _
  obtain ⟨_, m, rfl, same, _⟩ := like.one
  cases like_null.mp same
  simp only [Form.Prints, prints, simple, holds, ok_bind, pure_ok, layout_cons]
  rfl

theorem wordWith {k : TokenKind} (value : Printed (.expression c sequenceRank) v ls)
    (like : Like c.comments u v) (deep : u.depth ≤ n) :
    Print.wordWith (rules n) c k.spelling u =
      .ok (layout (.mark k :: .blank :: (ls ++ [.mark .semicolon]))) := by
  simp only [Print.wordWith, value.rule like deep, ok_bind, pure_ok, Phrase.spoken, layout_cons,
    layout_append, layout_nil, List.append_nil, List.append_assoc]
  rfl

/-- A word with an expression as a statement. -/
theorem simpleValue {kind : Kind} {k : TokenKind} {field : String}
    (value : Printed (.expression c sequenceRank) v ls)
    (prints : ∀ r a m, bareStatement r c (.node kind [a] m) =
      simple r c k.spelling field (.node kind [a] m))
    (holds : ∀ a m, (Value.node kind [a] m).field field = .ok a) :
    Printed (.own c) (.node kind [v] o) (.mark k :: .blank :: (ls ++ [.mark .semicolon])) := by
  intro w n like deep
  obtain ⟨u, m, rfl, same, _⟩ := like.one
  simp only [Value.depth, depthOfList] at deep
  obtain ⟨_, _, _, rfl⟩ := rule_node (value.rule same (n := n) (by omega))
  have done := wordWith (k := k) value same (n := n) (by omega)
  simp only [Form.Prints, prints, simple, holds, ok_bind, done]

theorem throwValue (value : Printed (.expression c sequenceRank) v ls) :
    Printed (.own c) (.node .throwStatement [v] o)
      (.mark .kwThrow :: .blank :: (ls ++ [.mark .semicolon])) := by
  intro w n like deep
  obtain ⟨u, m, rfl, same, _⟩ := like.one
  simp only [Value.depth, depthOfList] at deep
  simp only [Form.Prints, bareStatement, Value.kind?, fields_of .throwStatement, ok_bind]
  exact wordWith (k := .kwThrow) value same (by omega)

/-- A name is an expression of every rank. -/
theorem ofBinding (name : Printed (.binding c) v ls) (fits : least ≤ primaryRank) :
    Printed (.expression c least) v ls :=
  fun w n like deep => name w n like deep least fits

theorem bodyBlock (inner : Printed (.block c) v ls) (kind : v.isKind .blockStatement) :
    Printed (.body c) v (.blank :: ls) := by
  intro w n like deep
  have done : Print.block (rules (n + 1)) c w = .ok (layout ls) := inner w (n + 1) like (by omega)
  simp only [Form.Prints, Print.body, like.isKind.trans kind, if_true, done, ok_bind, pure_ok,
    layout_cons]
  rfl

theorem bodyLine (other : v.isKind .blockStatement = false)
    (inner : Printed (.statement c.deeper) v ls) :
    Printed (.body c) v (.line (c.depth + 1) :: ls) := by
  intro w n like deep
  simp only [Form.Prints, Print.body, like.isKind.trans other, Bool.false_eq_true, if_false,
    inner.statementRule (c := c.deeper) like deep, ok_bind, pure_ok, layout_cons]
  rfl

theorem bodyRule (printed : Printed (.body c) v ls) (like : Like c.comments u v)
    (deep : u.depth ≤ n) : Print.body (rules n) c u = .ok (layout ls) := by
  obtain ⟨n, rfl, done⟩ := printed.under like deep
  exact done

theorem layout_bodyGap : joiner c v = (bodyGap c v).layout := by
  rw [joiner, bodyGap]
  split <;> rfl

theorem joiner_like {keep : Bool} (like : Like keep u v) : joiner c u = (bodyGap c v).layout := by
  rw [← layout_bodyGap, joiner, joiner, like.isKind]

theorem choiceShort {t : Value} (test : Printed (.expression c sequenceRank) t ls)
    (left : Printed (.body c) v ms) :
    Printed (.choice c) (.node .ifStatement [t, v, .null] o)
      (.mark .kwIf :: .blank :: (enclosed ls ++ ms)) := by
  intro w n like deep
  obtain ⟨a, b, _, m, rfl, first, second, third, _⟩ := like.three
  cases like_null.mp third
  simp only [Value.depth, depthOfList] at deep
  simp only [Form.Prints, Print.choice, fields_of .ifStatement, ok_bind, pure_ok,
    test.rule first (n := n) (by omega), left.bodyRule second (n := n) (by omega), Phrase.spoken,
    Value.isNull, if_true, layout_cons, layout_append, layout_enclosed, List.append_assoc]
  rfl

theorem choiceElse {t : Value} (test : Printed (.expression c sequenceRank) t ls)
    (left : Printed (.body c) v ms) (other : x.isKind .ifStatement = false)
    (some : x.isNull = false) (right : Printed (.body c) x ns) :
    Printed (.choice c) (.node .ifStatement [t, v, x] o)
      (.mark .kwIf :: .blank :: (enclosed ls ++ (ms ++ bodyGap c v :: .mark .kwElse :: ns))) := by
  intro w n like deep
  obtain ⟨a, b, d, m, rfl, first, second, third, _⟩ := like.three
  simp only [Value.depth, depthOfList] at deep
  simp only [Form.Prints, Print.choice, fields_of .ifStatement, ok_bind, pure_ok,
    test.rule first (n := n) (by omega), left.bodyRule second (n := n) (by omega),
    right.bodyRule third (n := n) (by omega), Phrase.spoken, third.isNull.trans some,
    third.isKind.trans other, joiner_like second, Bool.false_eq_true, if_false, layout_cons,
    layout_append, layout_enclosed, List.append_assoc]
  rfl

theorem choiceChain {t : Value} (test : Printed (.expression c sequenceRank) t ls)
    (left : Printed (.body c) v ms) (kind : x.isKind .ifStatement) (some : x.isNull = false)
    (right : Printed (.choice c) x ns) :
    Printed (.choice c) (.node .ifStatement [t, v, x] o)
      (.mark .kwIf :: .blank ::
        (enclosed ls ++ (ms ++ bodyGap c v :: .mark .kwElse :: .blank :: ns))) := by
  intro w n like deep
  obtain ⟨a, b, d, m, rfl, first, second, third, _⟩ := like.three
  simp only [Value.depth, depthOfList] at deep
  simp only [Form.Prints, Print.choice, fields_of .ifStatement, ok_bind, pure_ok,
    test.rule first (n := n) (by omega), left.bodyRule second (n := n) (by omega),
    right.choiceRule third (n := n) (by omega), Phrase.spoken, third.isNull.trans some,
    third.isKind.trans kind, joiner_like second, Bool.false_eq_true, if_false, if_true,
    layout_cons, layout_append, layout_enclosed, List.append_assoc]
  rfl

theorem initNone : Printed (.loopInit c) .null [] := by
  intro w n like _
  cases like_null.mp like
  rfl

theorem initDeclaration (inner : Printed (.declaration c.loopHead) v ls)
    (kind : v.kind? = some .variableDeclaration) : Printed (.loopInit c) v ls := by
  intro w n like deep
  have done : Print.declaration (rules (n + 1)) c.loopHead w = .ok (layout ls) :=
    inner w (n + 1) like (by omega)
  obtain ⟨ws, m, rfl⟩ := kind?_node (like.kind?.trans kind)
  have declares : (Value.node .variableDeclaration ws m).isKind .variableDeclaration = true := rfl
  simp only [Form.Prints, Print.loopInit, Value.isNull, declares, done, Bool.false_eq_true,
    if_false, if_true, map_ok]

theorem initExpression (inner : Printed (.expression c.loopHead sequenceRank) v ls) :
    Printed (.loopInit c) v ls := by
  intro w n like deep
  have other : v.isKind .variableDeclaration = false :=
    inner.notKind (fun _ _ _ => rfl) (by decide)
  have done : (rules (n + 1)).expression c.loopHead sequenceRank w = .ok (.source (layout ls)) :=
    inner w n like deep
  simp only [Form.Prints, Print.loopInit, like.isNull.trans inner.notNull,
    like.isKind.trans other, done, Bool.false_eq_true, if_false]

theorem partNone : Printed (.loopPart c) .null [] := by
  intro w n like _
  cases like_null.mp like
  rfl

theorem partSome (inner : Printed (.expression c sequenceRank) v ls) :
    Printed (.loopPart c) v (.blank :: ls) := by
  intro w n like deep
  have done : (rules (n + 1)).expression c sequenceRank w = .ok (.source (layout ls)) :=
    inner w n like deep
  simp only [Form.Prints, Print.loopPart, like.isNull.trans inner.notNull, done, ok_bind, pure_ok,
    Phrase.strict, Bool.false_eq_true, if_false, layout_cons]
  rfl

theorem loopInitRule (printed : Printed (.loopInit c) v ls) (like : Like c.comments u v)
    (deep : u.depth ≤ n) : Print.loopInit (rules n) c u = .ok (.source (layout ls)) := by
  obtain ⟨n, rfl, done⟩ := printed.under like deep
  exact done

theorem loopPartRule (printed : Printed (.loopPart c) v ls) (like : Like c.comments u v)
    (deep : u.depth ≤ n) : Print.loopPart (rules n) c u = .ok (layout ls) := by
  obtain ⟨n, rfl, done⟩ := printed.under like deep
  exact done

theorem loopTargetRule (printed : Printed (.loopTarget c) v ls) (like : Like c.comments u v)
    (deep : u.depth ≤ n) : Print.loopTarget (rules n) c u = .ok (.source (layout ls)) := by
  obtain ⟨n, rfl, done⟩ := printed.under like deep
  exact done

theorem forCounted {i t u₁ b : Value} (init : Printed (.loopInit c) i ls)
    (test : Printed (.loopPart c) t ms) (update : Printed (.loopPart c) u₁ ns)
    (body : Printed (.body c) b os) :
    Printed (.own c) (.node .forStatement [i, t, u₁, b] o)
      (.mark .kwFor :: .blank :: (enclosed
        (ls ++ .mark .semicolon :: (ms ++ .mark .semicolon :: ns)) ++ os)) := by
  intro w n like deep
  obtain ⟨i, t, u, b, m, rfl, first, second, third, fourth, _⟩ := like.four
  simp only [Value.depth, depthOfList] at deep
  simp only [Form.Prints, bareStatement, Value.kind?, countedLoop, fields_of .forStatement, ok_bind,
    pure_ok, init.loopInitRule first (n := n) (by omega),
    test.loopPartRule second (n := n) (by omega), update.loopPartRule third (n := n) (by omega),
    body.bodyRule fourth (n := n) (by omega), Phrase.spoken, layout_cons, layout_append,
    layout_enclosed, List.append_assoc]
  rfl

theorem targetVariable {k : TokenKind} {o₁ : Notes} (name : Printed (.binding c) v ls) :
    Printed (.loopTarget c) (.node .variableDeclaration
      [.text (text k.spelling), .list [.node .variableDeclarator [v, .null] o₁]] o)
      (.mark k :: .blank :: ls) := by
  intro w n like deep
  have items : Printed (.commas (.declarator c)) (.list [.node .variableDeclarator [v, .null] o₁])
      ls := commasLast (declaratorBare name)
  have done : Print.declaration (rules (n + 1)) c w = .ok (layout (.mark k :: .blank :: ls)) :=
    declaration items w (n + 1) like (by omega)
  obtain ⟨ws, m, rfl, _⟩ := like_node.mp like
  have declares : (Value.node .variableDeclaration ws m).isKind .variableDeclaration = true := rfl
  simp only [Form.Prints, Print.loopTarget, declares, if_true, done, map_ok]

theorem targetPlace (inner : Printed (.expression c callRank) v ls) :
    Printed (.loopTarget c) v ls := by
  intro w n like deep
  have done : (rules (n + 1)).expression c callRank w = .ok (.source (layout ls)) :=
    inner w n like deep
  have other : v.isKind .variableDeclaration = false :=
    inner.notKind (fun _ _ _ => rfl) (by decide)
  simp only [Form.Prints, Print.loopTarget, like.isKind.trans other, Bool.false_eq_true, if_false,
    done]

/-- A loop over a collection, by either preposition. -/
theorem loopOver {kind : Kind} {preposition : String} {l : Lexeme} {b : Value}
    (left : Printed (.loopTarget c) v ls) (right : Printed (.expression c assignmentRank) x ms)
    (body : Printed (.body c) b ns)
    (prints : ∀ r a b d m, bareStatement r c (.node kind [a, b, d] m) =
      Print.loopOver r c preposition (.node kind [a, b, d] m))
    (holds : ∀ a b d m, (Value.node kind [a, b, d] m).field "left" = .ok a ∧
      (Value.node kind [a, b, d] m).field "right" = .ok b ∧
      (Value.node kind [a, b, d] m).field "body" = .ok d)
    (spelled : lay preposition = layout [.blank, l, .blank]) :
    Printed (.own c) (.node kind [v, x, b] o)
      (.mark .kwFor :: .blank :: (enclosed (ls ++ .blank :: l :: .blank :: ms) ++ ns)) := by
  intro w n like deep
  obtain ⟨a, b, d, m, rfl, first, second, third, _⟩ := like.three
  simp only [Value.depth, depthOfList] at deep
  simp only [Form.Prints, prints, Print.loopOver, holds, ok_bind, pure_ok,
    left.loopTargetRule first (n := n) (by omega), right.rule second (n := n) (by omega),
    body.bodyRule third (n := n) (by omega), Phrase.spoken, spelled, layout_cons, layout_append,
    layout_enclosed, layout_nil, List.append_nil, List.append_assoc]
  rfl

theorem whileLoop {t : Value} (test : Printed (.expression c sequenceRank) t ls)
    (body : Printed (.body c) v ms) :
    Printed (.own c) (.node .whileStatement [t, v] o)
      (.mark .kwWhile :: .blank :: (enclosed ls ++ ms)) := by
  intro w n like deep
  obtain ⟨a, b, m, rfl, first, second, _⟩ := like.two
  simp only [Value.depth, depthOfList] at deep
  simp only [Form.Prints, bareStatement, Value.kind?, testedLoop, fields_of .whileStatement,
    ok_bind, pure_ok, test.rule first (n := n) (by omega), body.bodyRule second (n := n) (by omega),
    Phrase.spoken, layout_cons, layout_append, layout_enclosed, List.append_assoc]
  rfl

theorem doLoop {t : Value} (body : Printed (.body c) v ls)
    (test : Printed (.expression c sequenceRank) t ms) :
    Printed (.own c) (.node .doWhileStatement [v, t] o)
      (.mark .kwDo :: (ls ++ bodyGap c v :: .mark .kwWhile :: .blank ::
        (enclosed ms ++ [.mark .semicolon]))) := by
  intro w n like deep
  obtain ⟨a, b, m, rfl, first, second, _⟩ := like.two
  simp only [Value.depth, depthOfList] at deep
  simp only [Form.Prints, bareStatement, Value.kind?, repeatedLoop, fields_of .doWhileStatement,
    ok_bind, pure_ok, body.bodyRule first (n := n) (by omega),
    test.rule second (n := n) (by omega), Phrase.spoken, joiner_like first, layout_cons,
    layout_append, layout_enclosed, layout_nil, List.append_nil, List.append_assoc]
  rfl

theorem handlerBare (body : Printed (.block c) v ls) :
    Printed (.handler c) (.node .catchClause [.null, v] o) (.mark .kwCatch :: .blank :: ls) := by
  intro w n like deep
  obtain ⟨_, b, m, rfl, first, second, _⟩ := like.two
  cases like_null.mp first
  simp only [Value.depth, depthOfList] at deep
  have block : Print.block (rules n) c b = .ok (layout ls) := body b n second (by omega)
  simp only [Form.Prints, Print.handler, fields_of .catchClause, ok_bind, pure_ok, block,
    layout_cons, List.append_assoc]
  rfl

theorem handlerNamed (param : Printed (.binding c) v ls) (body : Printed (.block c) x ms) :
    Printed (.handler c) (.node .catchClause [v, x] o)
      (.mark .kwCatch :: .blank :: (enclosed ls ++ .blank :: ms)) := by
  intro w n like deep
  obtain ⟨a, b, m, rfl, first, second, _⟩ := like.two
  simp only [Value.depth, depthOfList] at deep
  have block : Print.block (rules n) c b = .ok (layout ms) := body b n second (by omega)
  have named : (rules n).expression c sequenceRank a = .ok (.source (layout ls)) :=
    print_name param first (by omega) (by decide)
  obtain ⟨_, _, _, rfl⟩ := rule_node named
  simp only [Form.Prints, Print.handler, fields_of .catchClause, ok_bind, pure_ok, block, named,
    Phrase.spoken, layout_cons, layout_append, layout_enclosed, List.append_assoc]
  rfl

theorem isNull_null : Value.null.isNull = true := rfl

theorem tryHandled (guarded : Printed (.block c) v ls) (handler : Printed (.handler c) x ms)
    (some : x.isNull = false) :
    Printed (.own c) (.node .tryStatement [v, x, .null] o)
      (.mark .kwTry :: .blank :: (ls ++ .blank :: ms)) := by
  intro w n like deep
  obtain ⟨a, b, _, m, rfl, first, second, third, _⟩ := like.three
  cases like_null.mp third
  simp only [Value.depth, depthOfList] at deep
  have block : Print.block (rules n) c a = .ok (layout ls) := guarded a n first (by omega)
  have clause : Print.handler (rules n) c b = .ok (layout ms) := handler b n second (by omega)
  simp only [Form.Prints, bareStatement, Value.kind?, Print.guarded, fields_of .tryStatement,
    ok_bind, pure_ok, block, clause, second.isNull.trans some, isNull_null, Bool.false_eq_true,
    if_false, if_true, layout_cons, layout_append, List.append_assoc]
  rfl

theorem tryFinal (guarded : Printed (.block c) v ls) (finalizer : Printed (.block c) x ms)
    (some : x.isNull = false) :
    Printed (.own c) (.node .tryStatement [v, .null, x] o)
      (.mark .kwTry :: .blank :: (ls ++ .blank :: .mark .kwFinally :: .blank :: ms)) := by
  intro w n like deep
  obtain ⟨a, _, d, m, rfl, first, second, third, _⟩ := like.three
  cases like_null.mp second
  simp only [Value.depth, depthOfList] at deep
  have block : Print.block (rules n) c a = .ok (layout ls) := guarded a n first (by omega)
  have final : Print.block (rules n) c d = .ok (layout ms) := finalizer d n third (by omega)
  simp only [Form.Prints, bareStatement, Value.kind?, Print.guarded, fields_of .tryStatement,
    ok_bind, pure_ok, block, final, third.isNull.trans some, isNull_null, Bool.false_eq_true,
    if_false, if_true, layout_cons, layout_append, List.append_assoc]
  rfl

theorem tryBoth {z : Value} (guarded : Printed (.block c) v ls)
    (handler : Printed (.handler c) x ms) (finalizer : Printed (.block c) z ns)
    (some : x.isNull = false) (last : z.isNull = false) :
    Printed (.own c) (.node .tryStatement [v, x, z] o)
      (.mark .kwTry :: .blank ::
        (ls ++ .blank :: (ms ++ .blank :: .mark .kwFinally :: .blank :: ns))) := by
  intro w n like deep
  obtain ⟨a, b, d, m, rfl, first, second, third, _⟩ := like.three
  simp only [Value.depth, depthOfList] at deep
  have block : Print.block (rules n) c a = .ok (layout ls) := guarded a n first (by omega)
  have clause : Print.handler (rules n) c b = .ok (layout ms) := handler b n second (by omega)
  have final : Print.block (rules n) c d = .ok (layout ns) := finalizer d n third (by omega)
  simp only [Form.Prints, bareStatement, Value.kind?, Print.guarded, fields_of .tryStatement,
    ok_bind, pure_ok, block, clause, final, second.isNull.trans some, third.isNull.trans last,
    Bool.false_eq_true, if_false, layout_cons, layout_append, List.append_assoc]
  rfl

/-- The comments after a statement are printed there, unless they are inside of a hollow block. -/
theorem trailing_kept (shape : v.isKind .blockStatement → ∃ vs m, v = .node .blockStatement
      [.list vs] m) (solid : v.isKind .blockStatement = false → v.isHollow = false)
    (like : Like c.comments w v) :
    ∃ kept, keepsTrailing w = .ok kept ∧ (if kept then commentLines c w false else []) =
      (followingComments c v).map fun x => (Lexeme.remark x).layout := by
  by_cases isBlock : w.isKind .blockStatement
  · obtain ⟨vs, m, rfl⟩ := shape (like.isKind.symm.trans isBlock)
    have lines := commentLines_trailing like
    obtain ⟨u, m, rfl, same, _⟩ := like.one
    refine ⟨u.isTruthy, ?_, ?_⟩
    · rw [keepsTrailing, if_pos isBlock, fields_of .blockStatement]
      rfl
    · rw [same.isTruthy]
      cases vs with
      | cons => exact lines
      | nil => rfl
  · have other : v.isKind .blockStatement = false :=
      like.isKind.symm.trans (Bool.eq_false_iff.mpr isBlock)
    refine ⟨true, by rw [keepsTrailing, if_neg isBlock]; rfl, ?_⟩
    rw [followingComments, solid other, if_neg Bool.false_ne_true]
    exact commentLines_trailing like

theorem statement (own : Printed (.own c) v ls)
    (shape : v.isKind .blockStatement → ∃ vs m, v = .node .blockStatement [.list vs] m)
    (solid : v.isKind .blockStatement = false → v.isHollow = false) :
    Printed (.statement c) v (remarksBefore c.depth (leadingComments c v) ++
      (ls ++ remarksAfter c.depth (followingComments c v))) := by
  intro w n like deep
  have done : bareStatement (rules n) c w = .ok (layout ls) := own w n like deep
  obtain ⟨kept, keeps, trailing⟩ := trailing_kept (c := c) shape solid like
  simp only [Form.Prints, Print.statement, done, keeps, ok_bind, pure_ok, trailing,
    commentLines_leading (c := c) like, List.append_assoc]
  rw [join_before (by simp), List.singleton_append, join_after, layout_append, layout_append]

theorem linesLast (item : Printed (.statement c) v ls) : Printed (.lines c) (.list [v]) ls := by
  intro w n like deep
  obtain ⟨ws, rfl, items⟩ := like_list.mp like
  obtain ⟨u, us, rfl, first, rest⟩ := allLike_cons.mp items
  cases allLike_nil.mp rest
  simp only [Value.depth, depthOfList] at deep
  exact ⟨[u], [layout ls], rfl, mapM_cons (item.statementRule first (by omega)) rfl, by simp,
    join_single.symm⟩

theorem linesMore (item : Printed (.statement c) v ls)
    (more : Printed (.lines c) (.list (x :: vs)) ms) :
    Printed (.lines c) (.list (v :: x :: vs)) (ls ++ .line c.depth :: ms) := by
  intro w n like deep
  obtain ⟨ws, rfl, items⟩ := like_list.mp like
  obtain ⟨u, us, rfl, first, rest⟩ := allLike_cons.mp items
  simp only [Value.depth, depthOfList] at deep
  obtain ⟨_, parts, same, printed, some, text⟩ := more (.list us) n (like_list.mpr ⟨us, rfl, rest⟩)
    (by simp only [Value.depth]; omega)
  cases same
  refine ⟨_, layout ls :: parts, rfl, mapM_cons (item.statementRule first (by omega)) printed,
    by simp, ?_⟩
  rw [join_cons some, layout_append, ← text]
  rfl

theorem programNone (none : trailingComments c (.node .program [.list []] o) = []) :
    Printed (.program c) (.node .program [.list []] o) [] := by
  intro w n like _
  have lines := commentLines_trailing (c := c) like
  rw [none] at lines
  obtain ⟨u, m, rfl, same, _⟩ := like.one
  obtain ⟨ws, rfl, items⟩ := like_list.mp same
  cases allLike_nil.mp items
  simp only [Form.Prints, Print.program, Print.items, fields_of .program, ok_bind, pure_ok,
    List.mapM_nil, lines, List.map_nil, List.append_nil]
  rfl

theorem programRemarks {y : Comment} {ys : List Comment}
    (some : trailingComments c (.node .program [.list []] o) = y :: ys) :
    Printed (.program c) (.node .program [.list []] o) (.remark y :: remarksAfter c.depth ys) := by
  intro w n like _
  have lines := commentLines_trailing (c := c) like
  rw [some] at lines
  obtain ⟨u, m, rfl, same, _⟩ := like.one
  obtain ⟨ws, rfl, items⟩ := like_list.mp same
  cases allLike_nil.mp items
  simp only [Form.Prints, Print.program, Print.items, fields_of .program, ok_bind, pure_ok,
    List.mapM_nil, lines, List.map_cons, List.nil_append, join_after, layout_cons]

theorem program (body : Printed (.lines c) (.list vs) ls)
    (quiet : trailingComments c (.node .program [.list vs] o) = []) :
    Printed (.program c) (.node .program [.list vs] o) ls := by
  intro w n like deep
  have lines : commentLines c w false = [] := by
    rw [commentLines_trailing (c := c) like, quiet]
    rfl
  obtain ⟨u, m, rfl, same, _⟩ := like.one
  simp only [Value.depth, depthOfList] at deep
  obtain ⟨ws, parts, rfl, printed, some, text⟩ := body u n same (by omega)
  simp only [Form.Prints, Print.program, Print.items, fields_of .program, ok_bind, pure_ok, printed,
    lines, List.append_nil, text]

end Printed

def Form.aloud (aloud : Bool) : Form → Form
  | bare c rank => bare (c.aloud aloud) rank
  | expression c least => expression (c.aloud aloud) least
  | operand c o rank least => operand (c.aloud aloud) o rank least
  | object c => object (c.aloud aloud)
  | callee c => callee (c.aloud aloud)
  | arguments c => arguments (c.aloud aloud)
  | elements c => elements (c.aloud aloud)
  | property c => property (c.aloud aloud)
  | key c => key (c.aloud aloud)
  | word c => word (c.aloud aloud)
  | binding c => binding (c.aloud aloud)
  | function c declared => function (c.aloud aloud) declared
  | block c => block (c.aloud aloud)
  | declarator c => declarator (c.aloud aloud)
  | declaration c => declaration (c.aloud aloud)
  | loopInit c => loopInit (c.aloud aloud)
  | loopPart c => loopPart (c.aloud aloud)
  | loopTarget c => loopTarget (c.aloud aloud)
  | handler c => handler (c.aloud aloud)
  | body c => body (c.aloud aloud)
  | choice c => choice (c.aloud aloud)
  | own c => own (c.aloud aloud)
  | statement c => statement (c.aloud aloud)
  | lines c => lines (c.aloud aloud)
  | program c => program (c.aloud aloud)
  | commas item => commas (item.aloud aloud)

/-- Where comments are read again only if there are none, those on the line are printed aloud. -/
theorem beside_silent {aloud : Bool} {xs : List Comment} (silent : c.comments → xs = []) :
    remarksBeside (c.aloud aloud).comments xs = remarksBeside aloud xs := by
  cases aloud with
  | true => rfl
  | false =>
    change remarksBeside c.comments xs = []
    cases kept : c.comments with
    | false => rfl
    | true => rw [silent kept]; rfl

namespace Writes

variable {aloud : Bool}

theorem block_shape (writes : Writes aloud (.block c) v ls) :
    ∃ vs m, v = .node .blockStatement [.list vs] m := by
  cases writes <;> exact ⟨_, _, rfl⟩

theorem declaration_kind (writes : Writes aloud (.declaration c) v ls) :
    v.kind? = some .variableDeclaration := by
  cases writes
  rfl

theorem function_kind (writes : Writes aloud (.function c true) v ls) :
    v.kind? = some .functionDeclaration := by
  cases writes
  rfl

theorem choice_kind (writes : Writes aloud (.choice c) v ls) : v.kind? = some .ifStatement := by
  cases writes <;> rfl

theorem handler_kind (writes : Writes aloud (.handler c) v ls) : v.kind? = some .catchClause := by
  cases writes <;> rfl

/-- A statement that is a block has the shape of one. -/
theorem own_shape (writes : Writes aloud (.own c) v ls) (isBlock : v.isKind .blockStatement) :
    ∃ vs m, v = .node .blockStatement [.list vs] m := by
  cases writes with
  | ownBlock inner => exact inner.block_shape
  | ownDeclaration inner =>
    cases inner
    cases isBlock
  | ownFunction inner =>
    cases inner
    cases isBlock
  | ownChoice inner => cases inner <;> cases isBlock
  | _ => cases isBlock

theorem notNull_of_kind {k : Kind} (kind : v.kind? = some k) : v.isNull = false := by
  obtain ⟨_, _, rfl⟩ := kind?_node kind
  rfl

theorem own_notNull (writes : Writes aloud (.own c) v ls) : v.isNull = false := by
  cases writes with
  | ownBlock inner =>
    obtain ⟨_, _, rfl⟩ := inner.block_shape
    rfl
  | ownDeclaration inner => exact notNull_of_kind inner.declaration_kind
  | ownFunction inner => exact notNull_of_kind inner.function_kind
  | ownChoice inner => exact notNull_of_kind inner.choice_kind
  | _ => rfl

theorem body_notNull (writes : Writes aloud (.body c) v ls) : v.isNull = false := by
  cases writes with
  | bodyBlock inner =>
    obtain ⟨_, _, rfl⟩ := inner.block_shape
    rfl
  | bodyLine _ inner =>
    cases inner with
    | statement own => exact own.own_notNull

/-- Among statements, only blocks are hollow. -/
theorem own_solid (writes : Writes aloud (.own c) v ls) (other : v.isKind .blockStatement = false) :
    v.isHollow = false := by
  cases writes with
  | ownBlock inner =>
    obtain ⟨_, _, rfl⟩ := inner.block_shape
    cases other
  | ownDeclaration inner =>
    cases inner
    rfl
  | ownFunction inner =>
    cases inner
    rfl
  | ownChoice inner => cases inner <;> rfl
  | _ => rfl

/-- What is written with lexemes prints as their text. -/
theorem printed (writes : Writes aloud f v ls) : Printed (f.aloud aloud) v ls := by
  induction writes with
  | commasNone => exact .commasNone
  | commasLast _ item => exact .commasLast item
  | commasMore _ _ item more => exact .commasMore item more
  | binding _ silent =>
    rw [← beside_silent silent]
    exact fun w n like deep least fits => Printed.named like deep fits
  | word _ silent =>
    rw [← beside_silent silent]
    exact fun w n like deep least fits => Printed.named like deep fits
  | keyWord _ inner => exact inner
  | keyLiteral _ plain silent =>
    rw [← beside_silent silent]
    exact .keyLiteral plain
  | opened _ fits silent _ inner =>
    rw [← beside_silent silent]
    exact .opened inner fits
  | closed _ loose silent _ inner =>
    rw [← beside_silent silent]
    exact .closed inner loose
  | name => exact .name
  | literal plain => exact .literal plain
  | this => exact .this
  | array _ inner => exact .array inner
  | elementsNone => exact .elementsNone
  | elementsHole => exact .elementsHole
  | elementsLast _ item => exact .elementsLast item
  | elementsSkip _ more => exact .elementsSkip more
  | elementsMore _ _ item more => exact .elementsMore item more
  | objectNone => exact .objectNone
  | objectSome _ inner => exact .objectSome inner
  | computed _ _ _ key value => exact .computed key value
  | keyed _ _ _ key value => exact .keyed key value
  | shorthand _ _ value =>
    rw [← beside_silent value]
    exact .shorthand
  | functionNamed _ _ _ _ name params body => exact .functionNamed name params body
  | functionUnnamed _ _ _ params body => exact .functionUnnamed params body
  | functionExpression inner ih =>
    cases inner with
    | functionNamed => exact .functionExpression ih
    | functionUnnamed => exact .functionExpression ih
  | arrowBlock _ body _ params block =>
    obtain ⟨_, _, rfl⟩ := body.block_shape
    exact .arrowBlock params block rfl
  | arrowValue _ _ plain params body =>
    exact .arrowOther params body (by rw [plain, if_neg (by decide)])
  | arrowObject _ _ brace params body =>
    exact .arrowOther params body (by rw [if_pos brace, layout_enclosed])
  | unary _ _ operand => exact .unary operand
  | stepBefore _ _ _ operand => exact .stepBefore operand
  | stepAfter _ _ _ operand => exact .stepAfter operand
  | operation ranked bar _ _ left right => exact .operation ranked bar left right
  | operandPlain apart _ inner => exact .operandPlain apart inner
  | operandMixed mixed _ inner => exact .operandMixed mixed inner
  | assignment _ _ _ _ left right => exact .assignment left right
  | conditional _ _ _ test consequent alternate => exact .conditional test consequent alternate
  | sequence _ items => exact .sequence items
  | arguments _ items => exact .arguments items
  | call _ _ callee args => exact .call callee args
  | calleePlain plain _ inner => exact .calleePlain plain inner
  | calleeCall call _ inner => exact .calleeCall call inner
  | construction _ _ callee args => exact .construction callee args
  | objectPlain plain _ inner => exact .objectPlain plain inner
  | objectNumber number _ inner => exact .objectNumber number inner
  | memberNamed _ _ object name => exact .memberNamed object name
  | memberIndexed _ _ object index => exact .memberIndexed object index
  | blockNone none => exact .blockNone none
  | blockRemarks some _ => exact .blockRemarks some
  | block _ body => exact .block body
  | declaratorBare _ _ name => exact .declaratorBare name
  | declaratorInit _ _ _ name init => exact .declaratorInit name init
  | declaration _ _ items => exact .declaration items
  | ownExpression _ plain inner =>
    exact .ownExpression inner (by rw [plain, if_neg (by decide)])
  | ownClash _ clash inner => exact .ownExpression inner (by rw [if_pos clash, layout_enclosed])
  | ownBlock inner ih =>
    obtain ⟨_, _, rfl⟩ := inner.block_shape
    exact .ownBlock ih rfl
  | ownEmpty => exact .ownEmpty
  | ownDeclaration inner ih => exact .ownDeclaration ih inner.declaration_kind
  | ownFunction inner ih => exact .ownFunction ih inner.function_kind
  | returnBare => exact .simpleBare (k := .kwReturn) (fun _ _ => rfl) fun _ => rfl
  | returnValue _ value =>
    exact .simpleValue (k := .kwReturn) value (fun _ _ _ => rfl) fun _ _ => rfl
  | breakBare => exact .simpleBare (k := .kwBreak) (fun _ _ => rfl) fun _ => rfl
  | breakLabel _ label =>
    exact .simpleValue (k := .kwBreak) (.ofBinding label (by decide)) (fun _ _ _ => rfl)
      fun _ _ => rfl
  | continueBare => exact .simpleBare (k := .kwContinue) (fun _ _ => rfl) fun _ => rfl
  | continueLabel _ label =>
    exact .simpleValue (k := .kwContinue) (.ofBinding label (by decide)) (fun _ _ _ => rfl)
      fun _ _ => rfl
  | throwValue _ value => exact .throwValue value
  | ownChoice inner ih => exact .ownChoice ih inner.choice_kind
  | bodyBlock inner _ ih =>
    obtain ⟨_, _, rfl⟩ := inner.block_shape
    exact .bodyBlock ih rfl
  | bodyLine other _ _ inner => exact .bodyLine other inner
  | choiceShort _ _ test left => exact .choiceShort test left
  | choiceElse _ _ _ other body test left right =>
    exact .choiceElse test left other body.body_notNull right
  | choiceChain _ _ _ chain _ test left right =>
    obtain ⟨_, _, rfl⟩ := kind?_node chain.choice_kind
    exact .choiceChain test left rfl rfl right
  | initNone => exact .initNone
  | initDeclaration inner _ ih => exact .initDeclaration ih inner.declaration_kind
  | initExpression _ inner => exact .initExpression inner
  | partNone => exact .partNone
  | partSome _ inner => exact .partSome inner
  | forCounted _ _ _ _ init test update body => exact .forCounted init test update body
  | targetVariable _ _ _ name => exact .targetVariable name
  | targetPlace _ _ inner => exact .targetPlace inner
  | forIn _ _ _ left right body =>
    exact .loopOver left right body (fun _ _ _ _ _ => rfl)
      (fun _ _ _ _ => fields_of .forInStatement) rfl
  | forOf _ _ _ left right body =>
    exact .loopOver left right body (fun _ _ _ _ _ => rfl)
      (fun _ _ _ _ => fields_of .forOfStatement) rfl
  | whileLoop _ _ test body => exact .whileLoop test body
  | doLoop _ _ body test => exact .doLoop body test
  | handlerBare _ _ _ body => exact .handlerBare body
  | handlerNamed _ _ _ _ param body => exact .handlerNamed param body
  | tryHandled _ _ clause guarded handler =>
    exact .tryHandled guarded handler (notNull_of_kind clause.handler_kind)
  | tryFinal _ _ final _ guarded finalizer =>
    obtain ⟨_, _, rfl⟩ := final.block_shape
    exact .tryFinal guarded finalizer rfl
  | tryBoth _ _ clause final _ guarded handler finalizer =>
    obtain ⟨_, _, rfl⟩ := final.block_shape
    exact .tryBoth guarded handler finalizer (notNull_of_kind clause.handler_kind) rfl
  | statement own _ _ _ ih => exact .statement ih own.own_shape own.own_solid
  | linesLast _ item => exact .linesLast item
  | linesMore _ _ _ item more => exact .linesMore item more
  | programNone none => exact .programNone none
  | programRemarks some _ => exact .programRemarks some
  | program _ quiet body => exact .program body quiet

/-- A program that is written with lexemes, and all that is like it, prints as their text. -/
theorem print {keep : Bool} {width : Int}
    (writes : Writes aloud (.program { comments := keep }) v ls) (like : Like (aloud || keep) w v) :
    w.print { tabWidth := width, comments := aloud || keep } = .ok ((layout ls).render width) := by
  have done : Print.program (rules w.depth) { comments := aloud || keep } w = .ok (layout ls) :=
    writes.printed w w.depth like (by omega)
  have kind : v.kind? = some .program := by cases writes <;> rfl
  obtain ⟨ws, m, rfl⟩ := kind?_node (like.kind?.trans kind)
  have isProgram : (Value.node .program ws m).isKind .program = true := rfl
  simp only [Value.print, Value.layout, Value.phrase, Print.node, Value.isNode, Bool.not_true,
    Bool.false_eq_true, if_false, isProgram, if_true, done, map_ok, ok_bind, Phrase.strict, pure_ok]

end Writes

end ScriptTree
