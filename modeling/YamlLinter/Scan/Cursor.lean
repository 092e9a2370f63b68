import YamlLinter.Comment
import YamlLinter.Text.Class

/-!
# Cursors

A cursor walks over a source one character at a time and knows where it is. It only moves forward,
and what it has not read yet is all it can see.

## Contents

* `Cursor`: the text to come, the number of characters read, and the mark;
* looking ahead: `peek`, `peekAt`, `atEnd`, `atMarker`, `atSeparator`;
* moving: `advance`, `forward`, `skipWhile`;
* lexemes with their own rules: `lineBreak?`, `comment`, `ignoredLine`;
* how much of the text is left after each of them.
-/

namespace YamlLinter

open Text

/-- A place in a source together with the text behind it. -/
structure Cursor where
  /-- The characters not read yet. -/
  rest : List Char
  /-- The number of characters read. -/
  pos : Nat
  /-- Where the cursor stands. -/
  mark : Mark
  /-- Whether something other than white space was read since the last line feed. -/
  inked : Bool
  deriving Repr, DecidableEq, Inhabited

namespace Cursor

/-- The cursor in front of a text. -/
def ofText (text : List Char) : Cursor :=
  { rest := text, pos := 0, mark := .origin, inked := false }

/-! ## Looking ahead -/

/-- The column of the cursor. -/
def column (c : Cursor) : Nat := c.mark.column

/-- The line of the cursor. -/
def line (c : Cursor) : Nat := c.mark.line

/-- The character `n` places ahead, NUL past the end. -/
def peekAt (c : Cursor) (n : Nat) : Char := c.rest.getD n nul

/-- The next character, NUL at the end. -/
def peek (c : Cursor) : Char := c.peekAt 0

/-- Whether everything has been read. -/
def atEnd (c : Cursor) : Bool := c.rest.isEmpty

/-- Whether a document marker, `ch` three times, stands here at the start of a line. -/
def atMarker (c : Cursor) (ch : Char) : Bool :=
  c.column == 0 && c.rest.take 3 == [ch, ch, ch] && isBlankOrEnd (c.peekAt 3)

/-- Whether a line that ends or starts a document stands here. -/
def atSeparator (c : Cursor) : Bool := c.atMarker '-' || c.atMarker '.'

/-! ## Moving -/

/-- Reads one character, if there is one. -/
def advance (c : Cursor) : Cursor :=
  match c.rest with
  | [] => c
  | ch :: rest =>
    { rest
      pos := c.pos + 1
      mark := c.mark.after ch (rest.headD nul)
      inked := ch != '\n' && (c.inked || !isSpace ch) }

/-- Reads `n` characters, or all that are left. -/
def forward (c : Cursor) : Nat → Cursor
  | 0 => c
  | n + 1 => c.advance.forward n

/-- Reads as long as the characters satisfy `p`. -/
def skipWhile (c : Cursor) (p : Char → Bool) : Cursor :=
  c.forward (c.rest.takeWhile p).length

/-! ## Line breaks, comments and the ends of lines -/

/-- Reads a line break and gives the character it stands for: the line and paragraph separators
stand for themselves, every other break, and CR LF as one break, for a line feed. -/
def lineBreak? (c : Cursor) : Option (Char × Cursor) :=
  let ch := c.peek
  if ch == '\r' && c.peekAt 1 == '\n' then some ('\n', c.forward 2)
  else if ch == '\r' || ch == '\n' || ch == '\u0085' then some ('\n', c.forward 1)
  else if ch == '\u2028' || ch == '\u2029' then some (ch, c.forward 1)
  else none

/-- Reads to the end of the line. -/
def skipLine (c : Cursor) : Cursor := c.skipWhile (!isLineEnd ·)

/-- The comment that starts here. -/
def comment (c : Cursor) : Comment :=
  { start := c.mark
    stop := c.skipLine.mark
    text := String.ofList (c.rest.takeWhile (!isLineEnd ·))
    inline := c.inked }

/-! ## What is left -/

theorem length_rest_advance (c : Cursor) : c.advance.rest.length = c.rest.length - 1 := by
  unfold advance
  split <;> simp_all

theorem rest_forward (c : Cursor) (n : Nat) : (c.forward n).rest = c.rest.drop n := by
  induction n generalizing c with
  | zero => rfl
  | succ n ih =>
    rw [forward, ih]
    unfold advance
    split <;> simp_all

theorem length_rest_forward (c : Cursor) (n : Nat) :
    (c.forward n).rest.length = c.rest.length - n := by
  rw [rest_forward, List.length_drop]

theorem length_rest_forward_le (c : Cursor) (n : Nat) :
    (c.forward n).rest.length ≤ c.rest.length := by
  rw [length_rest_forward]
  omega

theorem length_rest_skipWhile_le (c : Cursor) (p : Char → Bool) :
    (c.skipWhile p).rest.length ≤ c.rest.length :=
  length_rest_forward_le c _

theorem rest_ne_nil_of_peek_ne_nul {c : Cursor} (h : c.peek ≠ nul) : c.rest ≠ [] := by
  intro hr
  simp [peek, peekAt, hr] at h

/-- A line break takes at least one character. -/
theorem length_rest_lineBreak? {c c' : Cursor} {ch : Char} (h : c.lineBreak? = some (ch, c')) :
    c'.rest.length < c.rest.length := by
  have hne : c.rest ≠ [] := by
    intro hr
    simp [lineBreak?, peek, peekAt, hr, nul] at h
  have hpos : 0 < c.rest.length := List.length_pos_iff.2 hne
  unfold lineBreak? at h
  simp only at h
  split at h
  · cases h
    rw [length_rest_forward]
    omega
  · split at h
    · cases h
      rw [length_rest_forward]
      omega
    · split at h
      · cases h
        rw [length_rest_forward]
        omega
      · cases h

end Cursor

end YamlLinter
