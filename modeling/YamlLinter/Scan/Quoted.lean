import YamlLinter.Scan.Folding
import YamlLinter.Scan.LineTail
import YamlLinter.Text.Hex
import YamlLinter.Token

/-!
# Quoted scalars

In single quotes a quote is written twice and nothing else is special. In double quotes a backslash
starts an escape: a letter, a code point in hexadecimal, or a line break that is dropped. In both
styles line breaks are folded and a document marker at the start of a line is an error.

## Contents

* `escapeLetter`, `escapeLength`, `escapeCode`: the escapes of double quotes;
* `Cursor.quotedGap`: blanks and line breaks inside quotes;
* `Cursor.quotedUnit`: one step of either style;
* `Cursor.quoted`: reads a quoted scalar.
-/

namespace YamlLinter

open Text

/-! ## Escapes -/

/-- The character that a one-letter escape stands for. -/
def escapeLetter (c : Char) : Option Char :=
  match c with
  | '0' => some '\x00'
  | 'a' => some '\x07'
  | 'b' => some '\x08'
  | 't' => some '\t'
  | '\t' => some '\t'
  | 'n' => some '\n'
  | 'v' => some '\x0b'
  | 'f' => some '\x0c'
  | 'r' => some '\r'
  | 'e' => some '\x1b'
  | ' ' => some ' '
  | '\x22' => some '\x22'
  | '/' => some '/'
  | '\\' => some '\\'
  | 'N' => some '\u0085'
  | '_' => some '\u00a0'
  | 'L' => some '\u2028'
  | 'P' => some '\u2029'
  | _ => none

/-- The number of digits behind the letter of a numeric escape. -/
def escapeLength (c : Char) : Option Nat :=
  match c with
  | 'x' => some 2
  | 'u' => some 4
  | 'U' => some 8
  | _ => none

/-- The number that hexadecimal digits denote behind a number `acc` read before. -/
def hexNumber (acc : Nat) : List Char → Option Nat
  | [] => some acc
  | c :: cs =>
    match hexValue c with
    | some d => hexNumber (acc * 16 + d) cs
    | none => none

/-- The number that a text denotes: hexadecimal digits, at least one, behind an optional `+`. -/
def signedHex : List Char → Option Nat
  | [] => none
  | '+' :: c :: cs => hexNumber 0 (c :: cs)
  | c :: cs => hexNumber 0 (c :: cs)

/-- The character of a code point: surrogates and numbers beyond the last plane have none. -/
def charOfCode (n : Nat) : Option Char :=
  if h : n.isValidChar then some (Char.ofNatAux n h) else none

/-- The character that the text behind a numeric escape of `length` digits stands for. -/
def escapeCode (length : Nat) (digits : List Char) : Option Char :=
  if digits.length == length then (signedHex digits).bind charOfCode else none

/-! ## Reading -/

/-- A step inside quotes: the text it contributes and the cursor behind it. -/
structure QuotedPart where
  text : List Char
  cursor : Cursor

namespace Cursor

/-- Reads empty lines and leading blanks and gives the breaks. A document marker is an error. -/
def quotedBreaks (c : Cursor) : Except ScanError QuotedPart :=
  if c.atSeparator then
    c.fail .markerInQuote
  else
    match _h : (c.skipWhile isBlank).lineBreak? with
    | none => .ok ⟨[], c.skipWhile isBlank⟩
    | some (ch, c') =>
      match c'.quotedBreaks with
      | .error e => .error e
      | .ok more => .ok ⟨ch :: more.text, more.cursor⟩
termination_by c.rest.length
decreasing_by
  have h₁ := length_rest_lineBreak? _h
  have h₂ := c.length_rest_skipWhile_le isBlank
  omega

/-- Reads blanks and line breaks: blanks inside a line stay, breaks are folded. -/
def quotedGap (c : Cursor) : Except ScanError QuotedPart :=
  let blanks := c.rest.takeWhile isBlank
  let c₁ := c.forward blanks.length
  if c₁.peek == nul then
    c₁.fail .unclosedQuote
  else
    match c₁.lineBreak? with
    | none => .ok ⟨blanks, c₁⟩
    | some (ch, c₂) =>
      match c₂.quotedBreaks with
      | .error e => .error e
      | .ok more => .ok ⟨foldedBreak ch more.text, more.cursor⟩

/-- Reads an escape of double quotes behind its backslash. -/
def escape (c : Cursor) : Except ScanError QuotedPart :=
  let ch := c.peek
  match escapeLetter ch with
  | some decoded => .ok ⟨[decoded], c.forward 1⟩
  | none =>
    match escapeLength ch with
    | some length =>
      let c₁ := c.forward 1
      let digits := c₁.rest.take length
      match escapeCode length digits with
      | some decoded => .ok ⟨[decoded], c₁.forward length⟩
      | none => c₁.fail (.badEscapeCode length digits)
    | none =>
      match c.lineBreak? with
      | some (_, c₁) => c₁.quotedBreaks
      | none => c.fail (.unknownEscape ch)

/-- Reads one step of a quoted scalar, or finds its closing quote and gives none. -/
def quotedUnit (c : Cursor) (double : Bool) : Except ScanError (Option QuotedPart) :=
  let ch := c.peek
  if isBlankOrEnd ch then
    c.quotedGap.map some
  else if double then
    if ch == '\x22' then .ok none
    else if ch == '\\' then (c.forward 1).escape.map some
    else .ok (some ⟨[ch], c.forward 1⟩)
  else if ch == '\x27' then
    if c.peekAt 1 == '\x27' then .ok (some ⟨['\x27'], c.forward 2⟩) else .ok none
  else
    .ok (some ⟨[ch], c.forward 1⟩)

/-! ### What is left -/

theorem length_rest_quotedBreaks_le {c : Cursor} {part : QuotedPart}
    (h : c.quotedBreaks = .ok part) : part.cursor.rest.length ≤ c.rest.length := by
  fun_induction quotedBreaks c generalizing part with
  | case1 => simp [fail] at h
  | case2 c =>
    cases h
    exact c.length_rest_skipWhile_le isBlank
  | case3 => cases h
  | case4 c _ ch c' hb more hm ih =>
    cases h
    have h₁ := length_rest_lineBreak? hb
    have h₂ := c.length_rest_skipWhile_le isBlank
    have h₃ := ih hm
    simp only
    omega

theorem peek_ne_nul_of_not_blankOrEnd {c : Cursor} (h : isBlankOrEnd c.peek = false) :
    c.peek ≠ nul := by
  intro hn
  simp [hn, isBlankOrEnd, isLineEnd] at h

theorem length_rest_forward_lt {c : Cursor} (h : c.peek ≠ nul) {n : Nat} (hn : 0 < n) :
    (c.forward n).rest.length < c.rest.length := by
  have hpos : 0 < c.rest.length := List.length_pos_iff.2 (rest_ne_nil_of_peek_ne_nul h)
  rw [length_rest_forward]
  omega

/-- A gap that starts at a blank or a line break takes at least one character. -/
theorem length_rest_quotedGap_lt {c : Cursor} {part : QuotedPart}
    (hc : isBlankOrEnd c.peek = true) (h : c.quotedGap = .ok part) :
    part.cursor.rest.length < c.rest.length := by
  unfold quotedGap at h
  simp only at h
  split at h
  · simp [fail] at h
  · rename_i hnul
    have hle := c.length_rest_forward_le (c.rest.takeWhile isBlank).length
    split at h
    · -- without a break the gap is blanks, and there is at least the one that it starts with
      rename_i hb
      cases h
      simp only
      cases hr : c.rest with
      | nil => simp [hr, forward, peek, peekAt] at hnul
      | cons ch rest =>
        have hch : c.peek = ch := by simp [peek, peekAt, hr]
        by_cases hbl : isBlank ch = true
        · rw [length_rest_forward, hr]
          have htake : 0 < ((ch :: rest).takeWhile isBlank).length := by simp [hbl]
          have hrest : 0 < (ch :: rest).length := Nat.zero_lt_succ _
          omega
        · exfalso
          have htake : c.rest.takeWhile isBlank = [] := by simp [hr, hbl]
          rw [htake] at hb hnul
          simp only [List.length_nil, forward] at hb hnul
          rw [hch] at hnul hc
          simp only [isBlankOrEnd, isLineEnd, isBreak, lineBreak?, hch] at hc hb
          grind
    · rename_i c₂ hb
      have h₁ := length_rest_lineBreak? hb
      split at h
      · cases h
      · rename_i more hm
        cases h
        have h₂ := length_rest_quotedBreaks_le hm
        simp only
        omega

theorem length_rest_escape_le {c : Cursor} {part : QuotedPart} (h : c.escape = .ok part) :
    part.cursor.rest.length ≤ c.rest.length := by
  unfold escape at h
  simp only at h
  split at h
  · cases h
    exact c.length_rest_forward_le 1
  · split at h
    · rename_i length _
      split at h
      · cases h
        exact Nat.le_trans ((c.forward 1).length_rest_forward_le length)
          (c.length_rest_forward_le 1)
      · simp [fail] at h
    · split at h
      · rename_i hb
        have h₁ := length_rest_lineBreak? hb
        have h₂ := length_rest_quotedBreaks_le h
        omega
      · simp [fail] at h

/-- Every step inside quotes takes at least one character. -/
theorem length_rest_quotedUnit_lt {c : Cursor} {double : Bool} {part : QuotedPart}
    (h : c.quotedUnit double = .ok (some part)) : part.cursor.rest.length < c.rest.length := by
  unfold quotedUnit at h
  simp only at h
  split at h
  · rename_i hc
    cases hg : c.quotedGap with
    | error e => simp [hg, Except.map] at h
    | ok gap =>
      simp [hg, Except.map] at h
      subst h
      exact length_rest_quotedGap_lt hc hg
  · rename_i hc
    have hne : c.peek ≠ nul := peek_ne_nul_of_not_blankOrEnd (by simpa using hc)
    split at h
    · split at h
      · cases h
      · split at h
        · cases he : (c.forward 1).escape with
          | error e => simp [he, Except.map] at h
          | ok unit =>
            simp [he, Except.map] at h
            subst h
            exact Nat.lt_of_le_of_lt (length_rest_escape_le he)
              (length_rest_forward_lt hne (by omega))
        · cases h
          exact length_rest_forward_lt hne (by omega)
    · split at h
      · split at h
        · cases h
          exact length_rest_forward_lt hne (by omega)
        · cases h
      · cases h
        exact length_rest_forward_lt hne (by omega)

/-! ### The scalar -/

/-- Reads the inside of a quoted scalar up to its closing quote. -/
def quotedBody (c : Cursor) (double : Bool) : Except ScanError QuotedPart :=
  match _h : c.quotedUnit double with
  | .error e => .error e
  | .ok none => .ok ⟨[], c⟩
  | .ok (some part) =>
    match part.cursor.quotedBody double with
    | .error e => .error e
    | .ok more => .ok ⟨part.text ++ more.text, more.cursor⟩
termination_by c.rest.length
decreasing_by exact length_rest_quotedUnit_lt _h

/-- Reads a quoted scalar with its quotes. -/
def quoted (c : Cursor) (double : Bool) : Except ScanError (Token × Cursor) :=
  match (c.forward 1).quotedBody double with
  | .error e => .error e
  | .ok body =>
    let style : ScalarStyle := if double then .doubleQuoted else .singleQuoted
    let c₁ := body.cursor.forward 1
    .ok (⟨.scalar (String.ofList body.text) style, c.mark, c₁.mark⟩, c₁)

end Cursor

end YamlLinter
