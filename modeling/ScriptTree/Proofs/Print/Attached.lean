import ScriptTree.Proofs.Grammar.Remarks
import ScriptTree.Proofs.Print.Renoted

/-!
Comments that are attached to nodes of a tree that was read from a source. The tree prints, all
comments included, to a text that is read as an equivalent program, unless a comment hides from the
printer the start of an expression that has to stand in parentheses.
-/
namespace ScriptTree

open Grammar Value

/-- A comment that can be attached to any node: no line ends in it, no zero stands in it, and no
block comment ends in it. -/
structure Comment.Attachable (c : Comment) : Prop where
  line : { c with block := false }.legible
  block : { c with block := true }.legible
  leading : c.leading

def Notes.add (n : Notes) (c : Comment) : Notes := { n with comments := n.comments ++ [c] }

/-- Notes have comments that can be attached, after those that other notes have. -/
def Notes.Extends (m n : Notes) : Prop :=
  ∃ more, m.comments = n.comments ++ more ∧ ∀ c ∈ more, c.Attachable

/-- What is printed with all comments, and read again without them. -/
def Convention.noted : Convention where
  literal := (·.isPlain)
  silent n := ∀ c ∈ n.comments, c.Beside
  alone v := (∀ c ∈ v.comments, c.legible) ∧ (v.isHollow = false → ∀ c ∈ v.comments, c.leading)
  listed vs := ∀ v ∈ vs, ∀ c ∈ v.comments, c.legible

variable {c : Comment} {m n : Notes} {v w : Value} {vs : List Value} {source : Text}

namespace Comment.Attachable

theorem legible (fit : c.Attachable) : c.legible := by
  obtain ⟨text, block, leading⟩ := c
  cases block with
  | true => exact fit.block
  | false => exact fit.line

theorem beside (fit : c.Attachable) : c.Beside := by
  refine ⟨fit.block, ?_⟩
  have line := fit.line
  simp only [Comment.legible, Bool.false_eq_true, if_false, List.all_eq_true, Bool.and_eq_true,
    bne_iff_ne] at line
  rw [Bool.eq_false_iff]
  intro inside
  exact (line _ (List.contains_iff_mem.mp inside)).1.1 rfl

end Comment.Attachable

namespace Notes.Extends

theorem of_same (same : m.comments = n.comments) : m.Extends n :=
  ⟨[], by rw [same, List.append_nil], nofun⟩

theorem refl (n : Notes) : n.Extends n := of_same rfl

theorem add (fit : c.Attachable) (n : Notes) : (n.add c).Extends n :=
  ⟨[c], rfl, by simpa using fit⟩

/-- What holds of comments, and of all that can be attached, holds after some are attached. -/
theorem each {p : Comment → Prop} (longer : m.Extends n) (all : ∀ c ∈ n.comments, p c)
    (fit : ∀ c : Comment, c.Attachable → p c) : ∀ c ∈ m.comments, p c := by
  obtain ⟨more, same, attached⟩ := longer
  intro c mem
  rw [same] at mem
  exact (List.mem_append.mp mem).elim (all c) fun mem => fit c (attached c mem)

end Notes.Extends

namespace Convention

theorem noted_suits : noted.Suits true false where
  literal := id
  silent silent := ⟨(absurd · Bool.false_ne_true), fun _ => silent⟩
  alone alone :=
    ⟨(absurd · Bool.false_ne_true), ⟨(absurd · Bool.false_ne_true), fun _ => alone.1⟩,
      fun _ => alone.2⟩
  listed listed := ⟨(absurd · Bool.false_ne_true), fun v mem =>
    ⟨(absurd · Bool.false_ne_true), fun _ => listed v mem⟩⟩

/-- Comments can be attached anywhere. -/
theorem noted_allows : noted.Allows Notes.Extends where
  scalar := plain_scalar
  silent silent longer := longer.each silent fun _ => Comment.Attachable.beside
  alone alone renoted := by
    have longer := renoted.notes Notes.Extends.refl
    refine ⟨longer.each alone.1 fun _ => Comment.Attachable.legible, fun solid => ?_⟩
    refine longer.each (alone.2 ?_) fun _ => Comment.Attachable.leading
    rw [Bool.eq_false_iff]
    intro hollow
    rw [renoted.hollow hollow] at solid
    cases solid
  listed listed renoted := forall₂_each renoted fun v mem _ renoted =>
    (renoted.notes Notes.Extends.refl).each (listed v mem) fun _ => Comment.Attachable.legible

end Convention

mutual
/-- What holds of all comments in a value holds of those of each node. -/
theorem Value.all_of_remarks {p : Comment → Bool} : (v : Value) → (∀ c ∈ v.remarks, p c) →
    v.all fun w => w.comments.all p
  | .list vs, all => Value.all_of_remarksOf vs all
  | .node k vs n, all => by
    simp only [Value.remarks, List.forall_mem_append] at all
    obtain ⟨⟨first, inside⟩, last⟩ := all
    rw [Value.all, Value.all_of_remarksOf vs inside, Bool.and_true, List.all_eq_true]
    intro c mem
    cases leads : c.leading with
    | true => exact first c (List.mem_filter.mpr ⟨mem, leads⟩)
    | false => exact last c (List.mem_filter.mpr ⟨mem, by rw [leads]; rfl⟩)
  | .null, _ | .bool _, _ | .int _, _ | .float _, _ | .text _, _ => rfl

theorem Value.all_of_remarksOf {p : Comment → Bool} : (vs : List Value) →
    (∀ c ∈ remarksOf vs, p c) → Value.allOf (fun w => w.comments.all p) vs
  | [], _ => rfl
  | v :: vs, all => by
    simp only [Value.remarksOf, List.forall_mem_append] at all
    rw [Value.allOf, Value.all_of_remarks v all.1, Value.all_of_remarksOf vs all.2]
    rfl
end

/-- The comments that a source is read with can be printed as they are. -/
theorem parse_legible (parsed : parse source = .ok v) :
    v.all fun w => w.comments.all Comment.legible := by
  obtain ⟨tokens, vs, g, scanned, read, rfl⟩ := parse_reads.mp parsed
  have closed := tokenize_closed scanned
  have faithful : ∀ t ∈ tokens, t.Faithful := tokenize_faithful scanned
  have genuine : (Feed.ofTokens tokens).Genuine := by
    constructor
    · rwa [Feed.Closed, tokens_ofTokens closed]
    · rwa [Feed.Faithful, tokens_ofTokens closed]
  obtain ⟨bs, sub, _, heard⟩ := programOf_gathers read genuine
  rw [tokens_ofTokens closed] at sub
  refine Value.all_of_remarks _ fun c mem => ?_
  rw [← heard] at mem
  obtain ⟨b, border, mem⟩ := List.mem_flatMap.mp mem
  have known := (faithful b.token (sub.subset (List.mem_map_of_mem border))).comments
  cases b with
  | first t => exact (known c mem).1
  | last t muffled =>
    cases muffled with
    | true => cases mem
    | false =>
      obtain ⟨d, inside, rfl⟩ := List.mem_map.mp mem
      exact (known d inside).1

/-- Whether the items of the lists that a node has carry comments that can be printed. -/
def Value.listsLegible : Value → Bool
  | .node _ [.list vs] _ => vs.all fun v => v.comments.all Comment.legible
  | _ => true

theorem Value.legible_of_all (all : v.all fun w => w.comments.all Comment.legible) :
    v.comments.all Comment.legible := by
  cases v with
  | node =>
    rw [Value.all, Bool.and_eq_true] at all
    exact all.1
  | _ => rfl

mutual
theorem Value.all_listsLegible : (v : Value) → (v.all fun w => w.comments.all Comment.legible) →
    v.all listsLegible
  | .list vs, all => Value.allOf_listsLegible vs all
  | .node k vs n, all => by
    simp only [Value.all, Bool.and_eq_true] at all
    rw [Value.all, Value.allOf_listsLegible vs all.2, Bool.and_true]
    unfold listsLegible
    split
    next same =>
      cases same
      simp only [Value.allOf, Value.all, Value.allOf_iff, Bool.and_true] at all
      exact List.all_eq_true.mpr fun v mem => Value.legible_of_all (all.2 v mem)
    next => rfl
  | .null, _ | .bool _, _ | .int _, _ | .float _, _ | .text _, _ => rfl

theorem Value.allOf_listsLegible : (vs : List Value) →
    Value.allOf (fun w => w.comments.all Comment.legible) vs → Value.allOf listsLegible vs
  | [], _ => rfl
  | v :: vs, all => by
    simp only [Value.allOf, Bool.and_eq_true] at all
    rw [Value.allOf, Value.all_listsLegible v all.1, Value.allOf_listsLegible vs all.2]
    rfl
end

theorem Value.Alone.noted (alone : v.Alone) : Convention.noted.alone v := by
  unfold Value.Alone at alone
  split at alone
  next hollow => exact ⟨fun c mem => (alone c mem).1, fun solid => by simp [solid] at hollow⟩
  next => simp [Convention.noted, alone]

theorem parse_noted (parsed : parse source = .ok v) (plain : v.all isPlainLiteral) :
    Conforms .noted .program v := by
  have both : v.all fun w => w.isPlainLiteral && w.listsLegible := by
    rw [all_and, plain, Value.all_listsLegible v (parse_legible parsed)]
    rfl
  refine (parse_program parsed).weaken ⟨?_, ?_, ?_, ?_⟩ both
  · exact fun holds _ => (Bool.and_eq_true_iff.mp holds).1
  · intro n silent
    have none : n.comments = [] := silent
    simp [Convention.noted, none]
  · exact Value.Alone.noted
  · intro k es n holds _ _ v mem c inside
    have lists := List.all_eq_true.mp (Bool.and_eq_true_iff.mp holds).2 v mem
    exact List.all_eq_true.mp lists c inside

/-- A program prints with all of its comments to a text that is read as one that is like it, if no
comment hides the start of an expression. -/
theorem Conforms.reprinted (conforms : Conforms .noted .program v) (shown : v.all (unveiled true))
    (width : Int) : ∃ printed u, v.print { tabWidth := width } = .ok printed ∧
      parse printed = .ok u ∧ Like false u v := by
  obtain ⟨ls, u, writes, parsed, like⟩ :=
    conforms.reread_written Convention.noted_suits shown width
  exact ⟨textOf width ls, u, writes.print Like.refl, parsed, like⟩

theorem lookup_map_snd {α : Type} {f : α → α} {key : String} {x : α} {xs : List (String × α)}
    (found : xs.lookup key = some x) :
    (xs.map fun (name, y) => (name, f y)).lookup key = some (f x) := by
  induction xs with
  | nil => cases found
  | cons pair xs ih =>
    obtain ⟨name, y⟩ := pair
    cases same : key == name with
    | true =>
      simp only [List.lookup_cons, same] at found
      cases found
      simp only [List.map_cons, List.lookup_cons, same]
    | false =>
      simp only [List.lookup_cons, same] at found
      simp only [List.map_cons, List.lookup_cons, same]
      exact ih found

namespace Session

variable {s : Session} {name tree : String} {g h : Handle}

/-- A change of a node reaches every handle. -/
theorem get_amend {change : Value → Value} (held : s.get tree = .ok g) (node : v.isNode) :
    (s.amend v change).get tree = .ok (g.amend v.notes.label change) := by
  unfold get at held ⊢
  split at held
  next kept found =>
    cases held
    have amended := lookup_map_snd
      (f := fun h : Held => { h with handle := h.handle.amend v.notes.label change }) found
    simp only [amend, node, if_true, amended]
  next => cases held

theorem value_amend {label : Nat} {change : Value → Value} :
    (g.amend label change).value = g.value.amend label change := by
  cases g with
  | bare => rfl
  | path p => cases p <;> rfl

theorem appendComment_ok (named : s.get name = .ok h) (node : h.value.isNode) :
    s.appendComment name c = .ok (s.amend h.value (mapNotes (·.add c))) := by
  rw [appendComment, named]
  simp only [ok_bind, node, if_true, pure_ok]
  rfl

/-- A comment that is attached to a node of a tree that was read from a source makes no difference
to what the tree is read as from its printed text, if it does not hide the start of an expression
that has to stand in parentheses. -/
theorem attached_reads_back {t : Value} (parsed : parse source = .ok t)
    (plain : t.all isPlainLiteral) (held : s.get tree = .ok g) (same : Like true g.value t)
    (named : s.get name = .ok h) (node : h.value.isNode) (fit : c.Attachable) :
    ∃ s' u, s.appendComment name c = .ok s' ∧ (s'.get tree).map Handle.value = .ok u ∧
      (u.all (unveiled true) → ∀ width, ∃ printed v, u.print { tabWidth := width } = .ok printed ∧
        parse printed = .ok v ∧ v.equivalent t = .ok true) := by
  have amended : ((s.amend h.value (mapNotes (·.add c))).get tree).map Handle.value =
      .ok (g.value.amend h.value.notes.label (mapNotes (·.add c))) := by
    rw [get_amend held node]
    exact congrArg Except.ok value_amend
  refine ⟨_, _, appendComment_ok named node, amended, fun shown width => ?_⟩
  have read : Conforms .noted .program t := parse_noted parsed plain
  have shared : Renoted Notes.Extends g.value t :=
    .of_like (fun _ _ => Notes.Extends.of_same) t same
  have changed : Renoted Notes.Extends
      (g.value.amend h.value.notes.label (mapNotes (·.add c))) g.value :=
    amend_renoted Notes.Extends.refl (Notes.Extends.add fit) g.value
  have conforms := (read.renoted Convention.noted_allows shared).renoted Convention.noted_allows
    changed
  obtain ⟨printed, v, text, again, like⟩ := conforms.reprinted shown width
  have whole : Like false v t := like.trans ((changed.like _).trans (shared.like _))
  exact ⟨printed, v, text, again, whole.equivalent_parsed (parse_program again)
    (parse_program parsed) (read.isNumeric isNumeric_of_isPlain)⟩

def showing (t : Value) (kind : Kind) : Except Error Session := do
  let (tree, s) := ({} : Session).adopt t
  let (first, s) ← s.load { kind := some kind } (.bare tree)
  return (s.bind "tree" (.bare tree)).bind "node" first

theorem showing_tree {t : Value} {kind : Kind} (shows : showing t kind = .ok s) :
    s.get "tree" = .ok (.bare (t.stamp 1).1) := by
  unfold showing at shows
  obtain ⟨⟨first, s'⟩, _, bound⟩ := Scan.bind_ok.mp shows
  cases bound
  rfl

/-- A comment on the first name of a program in which parentheses keep a function and an object from
the start of a statement and of the expression of an arrow function. -/
theorem attached_reads_back_name :
    let source := text "(function () \x7b\x7d)(x => (\x7b\x7d));"
    let c : Comment := ⟨text "(\x7b", false, true⟩
    ∃ t s g h s' u printed v, parse source = .ok t ∧ t.all isPlainLiteral ∧
      showing t .identifier = .ok s ∧ s.get "tree" = .ok g ∧ Like true g.value t ∧
      s.get "node" = .ok h ∧ h.value.isNode ∧ c.Attachable ∧ s.appendComment "node" c = .ok s' ∧
      (s'.get "tree").map Handle.value = .ok u ∧ u.all (unveiled true) ∧
      u.print { tabWidth := 2 } = .ok printed ∧ parse printed = .ok v ∧
      v.equivalent t = .ok true := by
  intro source c
  have suits : (parse source).toOption.any (fun t => t.all isPlainLiteral &&
      (showing t .identifier).toOption.any fun s =>
        (s.get "node").toOption.any (·.value.isNode) &&
        (s.appendComment "node" c).toOption.any fun s' =>
          (s'.get "tree").toOption.any (·.value.all (unveiled true))) = true := by decide +kernel
  have fit : c.Attachable := ⟨by decide, by decide, rfl⟩
  obtain ⟨t, parsed, suits⟩ := ok_of_any suits
  obtain ⟨plain, suits⟩ := Bool.and_eq_true_iff.mp suits
  obtain ⟨s, shows, suits⟩ := ok_of_any suits
  obtain ⟨named, suits⟩ := Bool.and_eq_true_iff.mp suits
  obtain ⟨h, named, node⟩ := ok_of_any named
  obtain ⟨s₁, appended₁, suits⟩ := ok_of_any suits
  obtain ⟨g₁, held₁, shown⟩ := ok_of_any suits
  have held := showing_tree shows
  have same : Like true (Handle.bare (t.stamp 1).1).value t := like_stamp t 1
  obtain ⟨s', u, appended, held', again⟩ :=
    attached_reads_back parsed plain held same named node fit
  cases appended.symm.trans appended₁
  rw [held₁] at held'
  cases held'
  obtain ⟨printed, v, text, read, whole⟩ := again shown 2
  exact ⟨t, s, _, h, _, _, printed, v, parsed, plain, shows, held, same, named, node, fit, appended,
    congrArg (·.map Handle.value) held₁, shown, text, read, whole⟩

/-- A comment on an object at the start of a statement: the text that is printed is read as a block
and an empty statement. -/
theorem attached_veils :
    let source := text "(\x7b\x7d);"
    let c : Comment := ⟨text "c", false, true⟩
    ∃ t s g h s' u v, parse source = .ok t ∧ t.all isPlainLiteral ∧
      showing t .objectExpression = .ok s ∧ s.get "tree" = .ok g ∧ Like true g.value t ∧
      s.get "node" = .ok h ∧ h.value.isNode ∧ c.Attachable ∧ s.appendComment "node" c = .ok s' ∧
      (s'.get "tree").map Handle.value = .ok u ∧
      u.print {} = .ok (text "/*c*/ \x7b\x7d;") ∧ parse (text "/*c*/ \x7b\x7d;") = .ok v ∧
      v.equivalent t = .ok false := by
  intro source c
  have fails : (parse source).toOption.any (fun t => t.all isPlainLiteral &&
      (showing t .objectExpression).toOption.any fun s =>
        (s.get "node").toOption.any (·.value.isNode) &&
        (s.appendComment "node" c).toOption.any fun s' =>
          (s'.get "tree").toOption.any fun g => (g.value.print {}).toOption.any fun printed =>
            printed == text "/*c*/ \x7b\x7d;" &&
            (parse (text "/*c*/ \x7b\x7d;")).toOption.any fun v =>
              (v.equivalent t).toOption.any (! ·)) = true := by decide +kernel
  obtain ⟨t, parsed, fails⟩ := ok_of_any fails
  obtain ⟨plain, fails⟩ := Bool.and_eq_true_iff.mp fails
  obtain ⟨s, shows, fails⟩ := ok_of_any fails
  obtain ⟨named, fails⟩ := Bool.and_eq_true_iff.mp fails
  obtain ⟨h, named, node⟩ := ok_of_any named
  obtain ⟨s', appended, fails⟩ := ok_of_any fails
  obtain ⟨g, held, fails⟩ := ok_of_any fails
  obtain ⟨printed, prints, fails⟩ := ok_of_any fails
  obtain ⟨exactly, fails⟩ := Bool.and_eq_true_iff.mp fails
  obtain ⟨v, read, fails⟩ := ok_of_any fails
  obtain ⟨whole, compared, differs⟩ := ok_of_any fails
  cases eq_of_beq exactly
  cases whole with
  | true => cases differs
  | false =>
    exact ⟨t, s, _, h, s', g.value, v, parsed, plain, shows, showing_tree shows, like_stamp t 1,
      named, node, ⟨by decide, by decide, rfl⟩, appended, congrArg (·.map Handle.value) held,
      prints, read, compared⟩

end Session

end ScriptTree
