import ScriptTree.Print.Layout
import ScriptTree.Proofs.Token.Scanning

/-!
Printed text as a list of lexemes: tokens by what they spell, and the blanks, line ends and comments
between them. The tokens that a list of lexemes stands for are computed without scanning its text.
-/
namespace ScriptTree

/-- A piece of printed text. -/
inductive Lexeme
  | blank
  | line (depth : Nat)
  | remark (comment : Comment)
  | mark (kind : TokenKind)
  | word (name : Text)
  | number (value : Nat)
  | quoted (value : Text)

namespace Lexeme

def layout : Lexeme → Layout
  | blank => Layout.lay " "
  | line depth => [.line depth]
  | remark comment => Layout.ofText comment.render
  | mark kind => Layout.lay kind.spelling
  | word name => Layout.ofText name
  | number value => Layout.ofText (Text.decimal value)
  | quoted value => Layout.ofText (Literal.quoted value)

def text (width : Int) (l : Lexeme) : Text := l.layout.render width

def isSolid : Lexeme → Bool
  | blank | line _ | remark _ => false
  | _ => true

def kind : Lexeme → TokenKind
  | mark kind => kind
  | word name => (TokenKind.keyword? name).getD .ident
  | number _ => .number
  | quoted _ => .string
  | _ => .endOfInput

def value : Lexeme → Value
  | mark kind => .text (ScriptTree.text kind.spelling)
  | word name => .text name
  | number value => .int value
  | quoted value => .text value
  | _ => .null

def literal : Value → Lexeme
  | .bool true => mark .kwTrue
  | .bool false => mark .kwFalse
  | .text t => quoted t
  | .int n => number n.natAbs
  | _ => mark .kwNull

end Lexeme

def layout (ls : List Lexeme) : Layout := ls.flatMap Lexeme.layout

@[simp] theorem layout_nil : layout [] = [] := rfl

@[simp] theorem layout_cons (l : Lexeme) (ls : List Lexeme) :
    layout (l :: ls) = l.layout ++ layout ls := rfl

@[simp] theorem layout_append (ls ms : List Lexeme) :
    layout (ls ++ ms) = layout ls ++ layout ms := List.flatMap_append

structure Stage where
  mark : Mark
  pending : Scan.Pending := {}

namespace Stage

/-- What has gone by after a lexeme. -/
def held (pending : Scan.Pending) : Lexeme → Scan.Pending
  | .blank => pending
  | .line _ => ⟨true, pending.comments⟩
  | .remark c =>
    ⟨pending.newline || c.block && c.text.contains Point.lineFeed,
      pending.comments ++ [{ c with leading := true }]⟩
  | _ => {}

def step (width : Int) (σ : Stage) (l : Lexeme) : Stage :=
  ⟨σ.mark.past (l.text width), held σ.pending l⟩

def after (width : Int) (σ : Stage) (ls : List Lexeme) : Stage := ls.foldl (step width) σ

def token (width : Int) (σ : Stage) (l : Lexeme) : Token :=
  ⟨l.kind, l.value, σ.mark, (σ.step width l).mark, l.text width, σ.pending.newline,
    σ.pending.comments⟩

/-- The tokens that lexemes are from a stage on. -/
def tokens (width : Int) (σ : Stage) : List Lexeme → List Token
  | [] => []
  | l :: ls =>
    if l.isSolid then σ.token width l :: (σ.step width l).tokens width ls
    else (σ.step width l).tokens width ls

variable {width : Int} {σ : Stage} {l : Lexeme} {ls ms : List Lexeme}

@[simp] theorem after_nil : σ.after width [] = σ := rfl

@[simp] theorem after_cons : σ.after width (l :: ls) = (σ.step width l).after width ls := rfl

@[simp] theorem after_append : σ.after width (ls ++ ms) = (σ.after width ls).after width ms :=
  List.foldl_append

@[simp] theorem tokens_nil : σ.tokens width [] = [] := rfl

theorem tokens_solid (solid : l.isSolid) :
    σ.tokens width (l :: ls) = σ.token width l :: (σ.step width l).tokens width ls := by
  rw [tokens, if_pos solid]

theorem tokens_gap (gap : l.isSolid = false) :
    σ.tokens width (l :: ls) = (σ.step width l).tokens width ls := by
  rw [tokens, if_neg (by simp [gap])]

@[simp] theorem tokens_mark {k : TokenKind} : σ.tokens width (.mark k :: ls) =
    σ.token width (.mark k) :: (σ.step width (.mark k)).tokens width ls := rfl

@[simp] theorem tokens_word {w : Text} : σ.tokens width (.word w :: ls) =
    σ.token width (.word w) :: (σ.step width (.word w)).tokens width ls := rfl

@[simp] theorem tokens_blank :
    σ.tokens width (.blank :: ls) = (σ.step width .blank).tokens width ls := rfl

@[simp] theorem tokens_line {d : Nat} :
    σ.tokens width (.line d :: ls) = (σ.step width (.line d)).tokens width ls := rfl

@[simp] theorem tokens_append :
    σ.tokens width (ls ++ ms) = σ.tokens width ls ++ (σ.after width ls).tokens width ms := by
  induction ls generalizing σ with
  | nil => rfl
  | cons l ls ih =>
    rw [List.cons_append]
    cases solid : l.isSolid with
    | true => rw [tokens_solid solid, tokens_solid solid, ih, after_cons, List.cons_append]
    | false => rw [tokens_gap solid, tokens_gap solid, ih, after_cons]

end Stage

end ScriptTree
