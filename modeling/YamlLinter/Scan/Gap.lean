import YamlLinter.Scan.LineTail
import YamlLinter.Scan.State

/-!
# Between tokens

In front of every token the scanner skips spaces, comments and line breaks. Tabs are skipped where
no key may start, since a key cannot be indented by a tab. Outside flow collections a line break
allows a key again.

## Contents

* `Gap`: what was skipped;
* `Cursor.gap`: skips to the next token;
* `ScanState.skipGap`: the same on the state of a scan.
-/

namespace YamlLinter

open Text

/-- What lies in front of a token: the comments in it, whether a key may start behind it, and the
cursor at the token. -/
structure Gap where
  comments : List Comment
  allowKey : Bool
  cursor : Cursor

namespace Cursor

/-- The blanks that may be skipped: tabs only inside flow collections or where no key may start. -/
def isSkipped (flow allowKey : Bool) (ch : Char) : Bool :=
  ch == ' ' || (ch == '\t' && (flow || !allowKey))

/-- Skips blanks on a line and the comment behind them. -/
def lineGap (c : Cursor) (flow allowKey : Bool) : List Comment × Cursor :=
  let c := c.skipWhile (isSkipped flow allowKey)
  if c.peek == '#' then ([c.comment], c.skipLine) else ([], c)

theorem length_rest_lineGap_le (c : Cursor) (flow allowKey : Bool) :
    (c.lineGap flow allowKey).2.rest.length ≤ c.rest.length := by
  have h := c.length_rest_skipWhile_le (isSkipped flow allowKey)
  unfold lineGap
  simp only
  split
  · exact Nat.le_trans (length_rest_skipWhile_le _ _) h
  · exact h

/-- Skips lines that hold no token. -/
def gap (c : Cursor) (flow allowKey : Bool) : Gap :=
  match _h : (c.lineGap flow allowKey).2.lineBreak? with
  | none => ⟨(c.lineGap flow allowKey).1, allowKey, (c.lineGap flow allowKey).2⟩
  | some (_, c') =>
    let more := c'.gap flow (allowKey || !flow)
    { more with comments := (c.lineGap flow allowKey).1 ++ more.comments }
termination_by c.rest.length
decreasing_by
  have h₁ := length_rest_lineBreak? _h
  have h₂ := c.length_rest_lineGap_le flow allowKey
  omega

/-- Skips a byte order mark at the very start of the text. -/
def skipByteOrderMark (c : Cursor) : Cursor :=
  if c.pos == 0 && c.peek == '\ufeff' then c.forward 1 else c

end Cursor

/-- Moves the scanner in front of the next token. -/
def ScanState.skipGap (s : ScanState) : ScanState :=
  let gap := s.cursor.skipByteOrderMark.gap s.inFlow s.allowKey
  { s with
    cursor := gap.cursor
    allowKey := gap.allowKey
    comments := s.comments ++ gap.comments }

end YamlLinter
