import YamlLinter.Scan.LineTail
import YamlLinter.Token

/-!
# Block scalars

A block scalar is a header line and the lines indented below it. The header gives the style, how
trailing line breaks are kept, and possibly the indentation; without it, the indentation is that of
the deepest leading space before the first line with text.

## Contents

* `Chomping`, `BlockHeader`: what the header says;
* `Cursor.blockHeader`: reads the header;
* `Cursor.leadingBreaks`, `Cursor.indentedBreaks`: empty lines before and between the lines of text;
* `blockJoint`: what stands between two lines of text;
* `Cursor.blockBody`: reads the lines of text;
* `Cursor.block`: reads a block scalar.
-/

namespace YamlLinter

open Text

/-- What becomes of the line breaks at the end of a block scalar. -/
inductive Chomping where
  /-- The last line keeps its break, empty lines behind it are dropped. -/
  | clip
  /-- All are dropped. -/
  | strip
  /-- All are kept. -/
  | keep
  deriving Repr, DecidableEq, Inhabited

/-- The header of a block scalar. -/
structure BlockHeader where
  chomping : Chomping
  /-- The indentation that the header asks for, relative to the parent. -/
  increment : Option Nat
  deriving Repr, DecidableEq, Inhabited

/-- Empty lines: their breaks, the end of the last of them, and the cursor at the next text. -/
structure EmptyLines where
  breaks : List Char
  stop : Mark
  cursor : Cursor

/-- The lines of text of a block scalar. -/
structure BlockBody where
  /-- The text without the last line break. -/
  text : List Char
  /-- The break of the last line, if it has one. -/
  lastBreak : Option Char
  /-- The breaks of the empty lines behind the text. -/
  breaks : List Char
  stop : Mark
  cursor : Cursor

/-- The chomping that a character of the header asks for. -/
def chompingOf (c : Char) : Option Chomping :=
  if c == '+' then some .keep
  else if c == '-' then some .strip
  else none

/-- The text between two lines: in the folded style a line feed between two lines that start with
no blank becomes a space, or nothing if empty lines follow it. -/
def blockJoint (folded : Bool) (first next lineBreak : Char) (breaks : List Char) : List Char :=
  if folded && lineBreak == '\n' && !isBlank first && !isBlank next then
    if breaks.isEmpty then [' '] else []
  else
    [lineBreak]

namespace Cursor

/-! ## The header -/

/-- Reads an indentation indicator, if there is one. -/
def blockIncrement (c : Cursor) : Except ScanError (Option Nat × Cursor) :=
  if c.peek.isDigit then
    if c.peek == '0' then c.fail .zeroIndentation
    else .ok (some (c.peek.toNat - '0'.toNat), c.forward 1)
  else
    .ok (none, c)

/-- Reads the indicators of a header in either order. -/
def blockIndicators (c : Cursor) : Except ScanError (BlockHeader × Cursor) :=
  match chompingOf c.peek with
  | some chomping =>
    match (c.forward 1).blockIncrement with
    | .error e => .error e
    | .ok (increment, c₁) => .ok (⟨chomping, increment⟩, c₁)
  | none =>
    match c.blockIncrement with
    | .error e => .error e
    | .ok (none, c₁) => .ok (⟨.clip, none⟩, c₁)
    | .ok (some increment, c₁) =>
      match chompingOf c₁.peek with
      | some chomping => .ok (⟨chomping, some increment⟩, c₁.forward 1)
      | none => .ok (⟨.clip, some increment⟩, c₁)

/-- Reads the indicators of a header and the rest of its line. -/
def blockHeader (c : Cursor) : Except ScanError (BlockHeader × Option Comment × Cursor) :=
  match c.blockIndicators with
  | .error e => .error e
  | .ok (header, c₁) =>
    if isBlankOrEnd c₁.peek then
      match c₁.lineTail with
      | .error e => .error e
      | .ok (comment, c₂) => .ok (header, comment, c₂)
    else
      c₁.fail (.badBlockHeader c₁.peek)

/-! ## Empty lines -/

/-- Reads empty lines and leading spaces before the first line of text, and gives the deepest
column that a space reached. -/
def leadingBreaks (c : Cursor) (deepest : Nat) (stop : Mark) : EmptyLines × Nat :=
  let deepest' := if c.peek == ' ' then max deepest (c.skipWhile (· == ' ')).column else deepest
  match _h : (c.skipWhile (· == ' ')).lineBreak? with
  | none => (⟨[], stop, c.skipWhile (· == ' ')⟩, deepest')
  | some (ch, c') =>
    let (lines, deepest'') := c'.leadingBreaks deepest' c'.mark
    (⟨ch :: lines.breaks, lines.stop, lines.cursor⟩, deepest'')
termination_by c.rest.length
decreasing_by
  have h₁ := length_rest_lineBreak? _h
  have h₂ := c.length_rest_skipWhile_le (· == ' ')
  omega

/-- Reads spaces up to the given column. -/
def skipIndent (c : Cursor) (indent : Nat) : Cursor :=
  c.forward (min (c.rest.takeWhile (· == ' ')).length (indent - c.column))

/-- Reads empty lines and the indentation of the line behind them. -/
def indentedBreaks (c : Cursor) (indent : Nat) (stop : Mark) : EmptyLines :=
  match _h : (c.skipIndent indent).lineBreak? with
  | none => ⟨[], stop, c.skipIndent indent⟩
  | some (ch, c') =>
    let lines := c'.indentedBreaks indent c'.mark
    ⟨ch :: lines.breaks, lines.stop, lines.cursor⟩
termination_by c.rest.length
decreasing_by
  have h₁ := length_rest_lineBreak? _h
  have h₂ := c.length_rest_forward_le (min (c.rest.takeWhile (· == ' ')).length (indent - c.column))
  unfold skipIndent at h₁
  omega

theorem length_rest_indentedBreaks_le (c : Cursor) (indent : Nat) (stop : Mark) :
    (c.indentedBreaks indent stop).cursor.rest.length ≤ c.rest.length := by
  fun_induction indentedBreaks c indent stop with
  | case1 c => exact c.length_rest_forward_le _
  | case2 c _ ch c' h lines ih =>
    have h₁ := length_rest_lineBreak? h
    have h₂ : (c.skipIndent indent).rest.length ≤ c.rest.length := c.length_rest_forward_le _
    exact Nat.le_of_lt (Nat.lt_of_le_of_lt ih (Nat.lt_of_lt_of_le h₁ h₂))

/-! ## The text -/

/-- Whether a line of text starts here: the cursor stands at the indentation and not at the end. -/
def atBlockLine (c : Cursor) (indent : Nat) : Bool :=
  c.column == indent && c.peek != nul

/-- Reads lines of text, from a cursor at the first of them. -/
def blockLines (c : Cursor) (folded : Bool) (indent : Nat) : BlockBody :=
  match _h : c.skipLine.lineBreak? with
  | none => ⟨c.rest.takeWhile (!isLineEnd ·), none, [], c.skipLine.mark, c.skipLine⟩
  | some (ch, c₁) =>
    let text := c.rest.takeWhile (!isLineEnd ·)
    let lines := c₁.indentedBreaks indent c₁.mark
    if lines.cursor.atBlockLine indent then
      let more := lines.cursor.blockLines folded indent
      let joint := blockJoint folded c.peek lines.cursor.peek ch lines.breaks
      { more with text := text ++ joint ++ lines.breaks ++ more.text }
    else
      ⟨text, some ch, lines.breaks, lines.stop, lines.cursor⟩
termination_by c.rest.length
decreasing_by
  have h₁ := length_rest_lineBreak? _h
  have h₂ : c.skipLine.rest.length ≤ c.rest.length := c.length_rest_skipWhile_le _
  have h₃ := c₁.length_rest_indentedBreaks_le indent c₁.mark
  omega

/-- Reads the lines of text behind some empty lines. -/
def blockBody (lines : EmptyLines) (folded : Bool) (indent : Nat) : BlockBody :=
  if lines.cursor.atBlockLine indent then
    let body := lines.cursor.blockLines folded indent
    { body with text := lines.breaks ++ body.text }
  else
    ⟨[], none, lines.breaks, lines.stop, lines.cursor⟩

/-- The value of a block scalar: its text and the line breaks that the chomping keeps. -/
def blockValue (body : BlockBody) : Chomping → List Char
  | .clip => body.text ++ body.lastBreak.toList
  | .strip => body.text
  | .keep => body.text ++ body.lastBreak.toList ++ body.breaks

/-- Reads a block scalar below a parent that is indented by `parent`. -/
def block (c : Cursor) (folded : Bool) (parent : Int) :
    Except ScanError (Token × Option Comment × Cursor) :=
  match (c.forward 1).blockHeader with
  | .error e => .error e
  | .ok (header, comment, c₁) =>
    let least := max (parent + 1).toNat 1
    let body :=
      match header.increment with
      | none =>
        let (lines, deepest) := c₁.leadingBreaks 0 c₁.mark
        blockBody lines folded (max least deepest)
      | some increment =>
        let indent := least + increment - 1
        blockBody (c₁.indentedBreaks indent c₁.mark) folded indent
    let value := String.ofList (blockValue body header.chomping)
    let style : ScalarStyle := if folded then .folded else .literal
    .ok (⟨.scalar value style, c.mark, body.stop⟩, comment, body.cursor)

end Cursor

end YamlLinter
