import YamlLinter.Scan.Folding
import YamlLinter.Token

/-!
# Plain scalars

A plain scalar is a run of chunks without blanks, joined by blanks or folded line breaks. It ends in
front of a comment, of a `:` that marks a value, of a document marker, in flow collections of a flow
mark, and outside them of a line that is not indented enough.

## Contents

* `plainChunk`: the longest chunk at the front of a text;
* `Cursor.plainGap`: what lies between two chunks;
* `Cursor.plain`: reads a plain scalar.
-/

namespace YamlLinter

open Text

/-- Whether `c`, with `next` behind it, ends a chunk of a plain scalar. -/
def endsPlainChunk (flow : Bool) (c next : Char) : Bool :=
  isBlankOrEnd c ||
    (c == ':' && (isBlankOrEnd next || (flow && isFlowMark next))) ||
    (flow && (isFlowMark c || c == '?'))

/-- The longest chunk at the front of a text. -/
def plainChunk (flow : Bool) : List Char → List Char
  | [] => []
  | c :: cs => if endsPlainChunk flow c (cs.headD nul) then [] else c :: plainChunk flow cs

/-- What follows a chunk of a plain scalar. -/
structure PlainGap where
  /-- The text that joins the next chunk to the last, or none in front of a document marker. -/
  joint : Option (List Char)
  /-- Whether a line break was read. -/
  broken : Bool
  /-- The cursor behind the gap. -/
  cursor : Cursor

/-- A plain scalar that has been read. -/
structure PlainScalar where
  /-- The text of the scalar. -/
  value : List Char
  /-- The end of the last chunk. -/
  stop : Mark
  /-- Whether a line break follows the last chunk, so that a key may start here. -/
  broken : Bool
  /-- The cursor behind the gap after the last chunk. -/
  cursor : Cursor

namespace Cursor

/-- Reads empty lines and leading spaces and gives the breaks, or none in front of a document
marker. -/
def plainBreaks (c : Cursor) : Option (List Char) × Cursor :=
  match _h : (c.skipWhile (· == ' ')).lineBreak? with
  | none => (some [], c.skipWhile (· == ' '))
  | some (ch, c') =>
    if c'.atSeparator then (none, c')
    else
      let (breaks, c'') := c'.plainBreaks
      (breaks.map (ch :: ·), c'')
termination_by c.rest.length
decreasing_by
  have h₁ := length_rest_lineBreak? _h
  have h₂ := c.length_rest_skipWhile_le (· == ' ')
  omega

/-- Reads the blanks and line breaks behind a chunk. -/
def plainGap (c : Cursor) : PlainGap :=
  let blanks := c.rest.takeWhile isBlank
  let c₁ := c.forward blanks.length
  match c₁.lineBreak? with
  | none => ⟨some blanks, false, c₁⟩
  | some (ch, c₂) =>
    if c₂.atSeparator then ⟨none, true, c₂⟩
    else
      let (breaks, c₃) := c₂.plainBreaks
      ⟨breaks.map (foldedBreak ch), true, c₃⟩

theorem length_rest_plainBreaks_le (c : Cursor) :
    c.plainBreaks.2.rest.length ≤ c.rest.length := by
  fun_induction plainBreaks c with
  | case1 c => exact c.length_rest_skipWhile_le _
  | case2 c ch c' h =>
    have h₁ := length_rest_lineBreak? h
    have h₂ := c.length_rest_skipWhile_le (· == ' ')
    simp only
    omega
  | case3 c ch c' h _ breaks c'' heq ih =>
    have h₁ := length_rest_lineBreak? h
    have h₂ := c.length_rest_skipWhile_le (· == ' ')
    rw [heq] at ih
    simp only at ih ⊢
    omega

theorem length_rest_plainGap_le (c : Cursor) :
    c.plainGap.cursor.rest.length ≤ c.rest.length := by
  have h₀ := c.length_rest_forward_le (c.rest.takeWhile isBlank).length
  unfold plainGap
  simp only
  split
  · exact h₀
  · rename_i ch c₂ h
    have h₁ := length_rest_lineBreak? h
    split
    · simp only
      omega
    · have h₂ := c₂.length_rest_plainBreaks_le
      simp only
      omega

/-- A chunk that is not empty and the gap behind it take at least one character. -/
theorem length_rest_plainGap_lt (c : Cursor) (flow : Bool) (h : plainChunk flow c.rest ≠ []) :
    (c.forward (plainChunk flow c.rest).length).plainGap.cursor.rest.length < c.rest.length := by
  have hne : c.rest ≠ [] := by
    intro hr
    simp [hr, plainChunk] at h
  have hchunk : 0 < (plainChunk flow c.rest).length := List.length_pos_iff.2 h
  have hrest : 0 < c.rest.length := List.length_pos_iff.2 hne
  have hgap := (c.forward (plainChunk flow c.rest).length).length_rest_plainGap_le
  have hfwd := c.length_rest_forward (plainChunk flow c.rest).length
  omega

/-- Whether the next chunk belongs to the scalar: no comment starts here, and outside flow
collections the line is indented by more than `indent`. -/
def continuesPlain (c : Cursor) (flow : Bool) (indent : Int) : Bool :=
  c.peek != '#' && (flow || indent < c.column)

/-- Reads a plain scalar chunk by chunk. -/
def plain (c : Cursor) (flow : Bool) (indent : Int) : PlainScalar :=
  let chunk := plainChunk flow c.rest
  if _h : chunk = [] then
    ⟨[], c.mark, false, c⟩
  else
    let c₁ := c.forward chunk.length
    let gap := c₁.plainGap
    match gap.joint with
    | none | some [] => ⟨chunk, c₁.mark, gap.broken, gap.cursor⟩
    | some joint =>
      if gap.cursor.continuesPlain flow indent then
        let more := gap.cursor.plain flow indent
        if more.value.isEmpty then
          ⟨chunk, c₁.mark, gap.broken, more.cursor⟩
        else
          ⟨chunk ++ joint ++ more.value, more.stop, more.broken, more.cursor⟩
      else
        ⟨chunk, c₁.mark, gap.broken, gap.cursor⟩
termination_by c.rest.length
decreasing_by exact c.length_rest_plainGap_lt flow _h

end Cursor

end YamlLinter
