import ScriptTree.Proofs.Token.Scanning

/-!
Quoting is undone by the scan. Whatever a string holds, its quoted form is one token with that
string as its value, and no text after the closing quote changes this; what is quoted has no
control codes in it, so it stays on its line.
-/
namespace ScriptTree

variable {t rest : Text} {c p : Point} {tokens : List Token}

namespace Literal

/-- The token that a quoted string is at the start of a source. -/
def quotedToken (t : Text) : Token :=
  { kind := .string
    value := .text t
    start := Mark.first
    stop := Mark.first.right (quoted t).length
    raw := quoted t }

def quotedEnd (t : Text) : Token :=
  { kind := .endOfInput
    start := Mark.first.right (quoted t).length
    stop := Mark.first.right (quoted t).length }

theorem quoted_ne_nil : quoted t ≠ [] := nofun

/-- What the scan makes of a quoted string at the start of a source. -/
theorem quotedToken_at : Scan.tokenAt ⟨quoted t ++ rest, Mark.first⟩
    ⟨rest, Mark.first.right (quoted t).length⟩ {} .string (.text t) = quotedToken t := by
  have raw : (quoted t ++ rest).take (quoted t).length = quoted t := List.take_left
  simp [Scan.tokenAt, quotedToken, Mark.right, raw]

end Literal

open Literal

/-- A quoted string is the first token of a source that begins with it, if the scan goes on. -/
theorem tokenize_quoted_append (scan : tokenize (quoted t ++ rest) = .ok tokens) :
    ∃ later, tokens = quotedToken t :: later := by
  have read : Scan.piece ⟨quoted t ++ rest, Mark.first⟩ = _ := Scan.piece_quoted
  obtain ⟨steps, length⟩ : ∃ steps, (quoted t ++ rest).length = steps + 1 := ⟨_, rfl⟩
  rw [tokenize, length, Scan.tokensFrom, if_neg (by simp [quoted_ne_nil]), read] at scan
  dsimp only at scan
  split at scan
  · cases scan
  · rename_i later _
    cases scan
    refine ⟨later, ?_⟩
    rw [quotedToken_at]

/-- A quoted string by itself is one token. -/
theorem tokenize_quoted_alone : tokenize (quoted t) = .ok [quotedToken t, quotedEnd t] := by
  have read : Scan.piece ⟨quoted t ++ [], Mark.first⟩ = _ := Scan.piece_quoted
  rw [List.append_nil] at read
  obtain ⟨steps, length⟩ : ∃ steps, (quoted t).length = steps + 1 := ⟨_, rfl⟩
  have last : Scan.tokensFrom steps ⟨[], Mark.first.right (quoted t).length⟩ {} =
      .ok [quotedEnd t] := by
    cases steps <;> simp [Scan.tokensFrom, Scan.tokenAt, quotedEnd]
  rw [tokenize, length, Scan.tokensFrom, if_neg (by simp [quoted_ne_nil]), read]
  simp only [last]
  have first : Scan.tokenAt ⟨quoted t ++ [], Mark.first⟩ _ {} .string (.text t) = quotedToken t :=
    quotedToken_at
  rw [← first, List.append_nil]

/-- Quoting is undone by the scan: what follows a quoted string does not change how it is read, by
itself it is one token, and there is no control code in it. -/
theorem tokenize_quoted (t : Text) :
    (∀ rest tokens, tokenize (quoted t ++ rest) = .ok tokens →
      ∃ later, tokens = quotedToken t :: later) ∧
    tokenize (quoted t) = .ok [quotedToken t, quotedEnd t] ∧ ∀ c ∈ quoted t, 32 ≤ c :=
  ⟨fun _ _ => tokenize_quoted_append, tokenize_quoted_alone, fun _ => quoted_printable⟩

/-- A zero before a digit, a backslash before a quote, a line feed, a surrogate and a separator,
with digits and another string right after the closing quote. -/
theorem tokenize_quoted_zero :
    let t : Text := [0, 49, 31, 102, 92, 39, 10, 0xD800, 0x2028]
    ∃ later, tokenize (quoted t ++ text "41'\\''") = .ok (quotedToken t :: later) ∧
      later.length = 3 := by
  intro t
  have count : (tokenize (quoted t ++ text "41'\\''")).toOption.any (·.length == 4) = true := by
    decide +kernel
  cases scan : tokenize (quoted t ++ text "41'\\''") with
  | error e => rw [scan] at count; cases count
  | ok tokens =>
    obtain ⟨later, rfl⟩ := (tokenize_quoted t).1 _ _ scan
    rw [scan] at count
    exact ⟨later, rfl, by simpa using beq_iff_eq.mp count⟩

end ScriptTree
