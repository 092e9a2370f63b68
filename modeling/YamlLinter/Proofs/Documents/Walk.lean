import Mathlib.Data.List.TakeWhile
import YamlLinter.Proofs.Tandem.Lexeme

/-!
# Cursors in front of a document marker

A text of whole lines reads the same when a document marker and more text follow it. The marker is
seen only behind the last line: where the text alone ends, the longer one has a line that no lexeme
goes beyond.

## Contents

* `Cursor.before`: the cursor when a document marker and more text follow;
* `Cursor.AtLines`, `Cursor.Whole`: a cursor in front of whole lines, and one that may also stand
  behind the last of them;
* moving: `Whole.forward_before`, `AtLines.read`, `AtLines.skipWhile_before`;
* looking ahead: `AtLines.peek_before`, `Whole.test_before`, `Whole.lineBreak?_before`,
  `AtLines.atMarker_before`.
-/

namespace YamlLinter

open Text

namespace Cursor

variable {c c' : Cursor} {u v : List Char} {p : Char → Bool} {ch : Char} {n : Nat}

/-- The cursor when a line with a document marker, and `v` behind it, follow the text. -/
def before (c : Cursor) (v : List Char) : Cursor :=
  { c with rest := c.rest ++ '-' :: '-' :: '-' :: '\n' :: v }

/-- A line feed ends what is left of the text. -/
def AtLines (c : Cursor) : Prop := c.rest.getLast? = some '\n'

/-- Whole lines are left of the text, or the cursor stands behind the last of them. -/
def Whole (c : Cursor) : Prop := c.AtLines ∨ c.rest = [] ∧ c.column = 0

/-! ## Moving -/

/-- In front of a whole line the text has not ended. -/
theorem AtLines.rest_ne_nil (h : c.AtLines) : c.rest ≠ [] := by
  intro hr
  simp [AtLines, hr] at h

theorem AtLines.whole (h : c.AtLines) : c.Whole := .inl h

/-- As long as the text has not ended, whole lines are left. -/
theorem Whole.atLines (h : c.Whole) (hne : c.rest ≠ []) : c.AtLines := by
  rcases h with h | ⟨hr, -⟩
  · exact h
  · exact absurd hr hne

/-- What is left without some characters that are no line feed. -/
theorem AtLines.drop (h : c.AtLines) (hu : u <+: c.rest) (hn : '\n' ∉ u) :
    (c.forward u.length).AtLines := by
  obtain ⟨v, hv⟩ := hu
  rw [AtLines, ← hv, List.getLast?_append] at h
  rw [AtLines, rest_forward, ← hv, List.drop_left]
  cases hlast : v.getLast? with
  | some x =>
    rw [hlast] at h
    exact h
  | none =>
    rw [hlast, Option.none_or] at h
    exact absurd (List.mem_of_getLast? h) hn

/-- No other character than the last looks at what follows the text. -/
theorem AtLines.advance_before (h : c.AtLines) :
    (c.before v).advance = c.advance.before v ∧ c.advance.Whole := by
  cases hr : c.rest with
  | nil => exact absurd hr h.rest_ne_nil
  | cons x rest =>
    rw [AtLines, hr] at h
    cases rest with
    | nil =>
      obtain rfl : x = '\n' := by simpa using h
      constructor
      · simp [advance, before, hr, Mark.after, Mark.endsLine]
      · exact .inr (by simp [advance, hr, column, Mark.after, Mark.endsLine])
    | cons y rest =>
      constructor
      · simp [advance, before, hr]
      · refine .inl ?_
        rw [List.getLast?_cons_cons] at h
        simpa [AtLines, advance, hr] using h

/-- Behind some characters of whole lines there are whole lines, or the text has ended. -/
theorem Whole.forward (h : c.Whole) (n : Nat) : (c.forward n).Whole := by
  induction n generalizing c with
  | zero => exact h
  | succ n ih =>
    refine ih ?_
    rcases h with h | ⟨hr, hcol⟩
    · exact (h.advance_before (v := [])).2
    · simp [advance, hr, Whole, hcol]

theorem Whole.ahead (h : c.Whole) (hc : c.Ahead c') : c'.Whole := by
  obtain ⟨n, rfl⟩ := hc
  exact h.forward n

/-- Moving on within the text does not see the marker. -/
theorem Whole.forward_before (h : c.Whole) (hn : n ≤ c.rest.length) :
    (c.before v).forward n = (c.forward n).before v := by
  induction n generalizing c with
  | zero => rfl
  | succ n ih =>
    have hne : c.rest ≠ [] := by
      intro hr
      simp [hr] at hn
    obtain ⟨hadvance, hw⟩ := (h.atLines hne).advance_before (v := v)
    have hlen : n ≤ c.advance.rest.length := by
      rw [length_rest_advance]
      omega
    rw [Cursor.forward, Cursor.forward, hadvance, ih hw hlen]

/-- Characters without a line feed are read alike, and lines are left behind them. -/
theorem AtLines.read (h : c.AtLines) (hu : u <+: c.rest) (hn : '\n' ∉ u) :
    (c.before v).forward u.length = (c.forward u.length).before v ∧
      (c.forward u.length).AtLines :=
  ⟨h.whole.forward_before hu.length_le, h.drop hu hn⟩

/-! ## Looking ahead -/

theorem peekAt_before (hn : n < c.rest.length) : (c.before v).peekAt n = c.peekAt n := by
  simp [peekAt, before, List.getD_eq_getElem?_getD, List.getElem?_append_left hn]

/-- The next character is the same with the marker and without. -/
theorem AtLines.peek_before (h : c.AtLines) : (c.before v).peek = c.peek :=
  peekAt_before (List.length_pos_iff.2 h.rest_ne_nil)

/-- A character that ends no line is passed, with whole lines behind it. -/
theorem AtLines.forward_one (h : c.AtLines) (hc : c.peek ≠ '\n') :
    (c.before v).forward 1 = (c.forward 1).before v ∧ (c.forward 1).AtLines := by
  cases hr : c.rest with
  | nil => exact absurd hr h.rest_ne_nil
  | cons x rest =>
    refine h.read (u := [x]) ⟨rest, hr.symm⟩ ?_
    simpa [peek, peekAt, hr, eq_comm] using hc

theorem AtLines.peekAt_one_before (h : c.AtLines) (hc : c.peek ≠ '\n') :
    (c.before v).peekAt 1 = c.peekAt 1 := by
  obtain ⟨hone, hlines⟩ := h.forward_one (v := v) hc
  rw [← Tandem.Passes.peek_forward, ← Tandem.Passes.peek_forward, hone, hlines.peek_before]

/-- What may not be taken ends the taking, whatever follows. -/
theorem takeWhile_append_cons (hp : p ch = false) (s t : List Char) :
    (s ++ ch :: t).takeWhile p = s.takeWhile p := by
  induction s with
  | nil => simp [hp]
  | cons x s ih => simp only [List.cons_append, List.takeWhile_cons, ih]

theorem not_mem_takeWhile (hp : p ch = false) (s : List Char) : ch ∉ s.takeWhile p := by
  intro hmem
  exact absurd (List.mem_takeWhile_imp hmem) (by simp [hp])

/-- What does not go beyond a line feed does not go beyond the text. -/
theorem AtLines.takeWhile_before (h : c.AtLines) (hp : p '\n' = false) :
    (c.before v).rest.takeWhile p = c.rest.takeWhile p := by
  obtain ⟨s, hs⟩ := List.getLast?_eq_some_iff.1 h
  rw [before, hs, List.append_assoc, List.singleton_append, takeWhile_append_cons hp,
    takeWhile_append_cons hp]

/-- Characters of a class without the line feed are passed, with whole lines behind them. -/
theorem AtLines.forward_takeWhile (h : c.AtLines) (hp : p '\n' = false) :
    (c.before v).forward (c.rest.takeWhile p).length =
        (c.forward (c.rest.takeWhile p).length).before v ∧
      (c.forward (c.rest.takeWhile p).length).AtLines :=
  h.read (List.takeWhile_prefix p) (not_mem_takeWhile hp _)

/-- Skipping ends on the line if it does not skip line feeds. -/
theorem AtLines.skipWhile_before (h : c.AtLines) (hp : p '\n' = false) :
    (c.before v).skipWhile p = (c.skipWhile p).before v ∧ (c.skipWhile p).AtLines := by
  rw [skipWhile, skipWhile, h.takeWhile_before hp]
  exact h.forward_takeWhile hp

/-- A line is passed up to its end. -/
theorem AtLines.skipLine_before (h : c.AtLines) :
    (c.before v).skipLine = c.skipLine.before v ∧ c.skipLine.AtLines :=
  h.skipWhile_before (by decide)

/-- Behind the last line, too, the marker is not taken for blanks. -/
theorem Whole.takeWhile_before (h : c.Whole) (hp : p '\n' = false) (hp' : p '-' = false) :
    (c.before v).rest.takeWhile p = c.rest.takeWhile p := by
  rcases h with h | ⟨hr, -⟩
  · exact h.takeWhile_before hp
  · simp [before, hr, hp']

theorem Whole.forward_takeWhile (h : c.Whole) (p : Char → Bool) :
    (c.before v).forward (c.rest.takeWhile p).length =
        (c.forward (c.rest.takeWhile p).length).before v :=
  h.forward_before (List.takeWhile_prefix p).length_le

/-- Skipping that may start behind the last line must not skip the marker either. -/
theorem Whole.skipWhile_before (h : c.Whole) (hp : p '\n' = false) (hp' : p '-' = false) :
    (c.before v).skipWhile p = (c.skipWhile p).before v ∧ (c.skipWhile p).Whole := by
  rw [skipWhile, skipWhile, h.takeWhile_before hp hp']
  exact ⟨h.forward_takeWhile p, h.forward _⟩

/-- A test that takes the marker for the end of the text. -/
theorem Whole.test_before (h : c.Whole) {α : Type} (f : Char → α) (hf : f '-' = f nul) :
    f (c.before v).peek = f c.peek := by
  rcases h with h | ⟨hr, -⟩
  · rw [h.peek_before]
  · simpa [peek, peekAt, before, hr] using hf

theorem lineBreak?_nil (h : c.rest = []) : c.lineBreak? = none := by
  simp [lineBreak?, peek, peekAt, h, nul]

/-- The same break stands at the cursor. -/
theorem Whole.lineBreak?_before (h : c.Whole) :
    (c.before v).lineBreak? = c.lineBreak?.map fun b => (b.1, b.2.before v) := by
  rcases h with h | ⟨hr, -⟩
  · have hpos : 0 < c.rest.length := List.length_pos_iff.2 h.rest_ne_nil
    have hone : (c.before v).forward 1 = (c.forward 1).before v :=
      h.whole.forward_before hpos
    have hpair : (c.peek == '\r' && (c.before v).peekAt 1 == '\n') =
        (c.peek == '\r' && c.peekAt 1 == '\n') := by
      by_cases hc : c.peek = '\n'
      · rw [hc]
        rfl
      · rw [h.peekAt_one_before hc]
    unfold lineBreak?
    simp only [h.peek_before, hpair, hone]
    split
    · rename_i hreturn
      simp only [Bool.and_eq_true, beq_iff_eq] at hreturn
      have hlines := (h.forward_one (v := v) (by rw [hreturn.1]; decide)).2
      have hlen : 2 ≤ c.rest.length := by
        have := List.length_pos_iff.2 hlines.rest_ne_nil
        rw [length_rest_forward] at this
        omega
      rw [h.whole.forward_before hlen]
      rfl
    · split
      · rfl
      · split <;> rfl
  · rw [lineBreak?_nil hr]
    simp [lineBreak?, peek, peekAt, before, hr]

/-- Behind a line break there are whole lines, or the text has ended. -/
theorem Whole.lineBreak? (h : c.Whole) (hb : c.lineBreak? = some (ch, c')) : c'.Whole :=
  h.ahead (.lineBreak? hb)

theorem Whole.skipBreak_before (h : c.Whole) :
    (c.before v).skipBreak = c.skipBreak.before v := by
  unfold skipBreak
  rw [h.lineBreak?_before]
  cases c.lineBreak? <;> rfl

/-- A document marker within the text is the same. -/
theorem AtLines.atMarker_before (h : c.AtLines) (hch : ch ≠ '\n') :
    (c.before v).atMarker ch = c.atMarker ch := by
  have hfeed : ('\n' == ch) = false := beq_eq_false_iff_ne.2 (Ne.symm hch)
  rw [AtLines] at h
  unfold atMarker
  -- fewer than four characters end in a line feed, so they are no marker
  match hr : c.rest with
  | [] => simp [hr] at h
  | [x] =>
    obtain rfl : x = '\n' := by simpa [hr] using h
    simp [before, hr, hfeed]
  | [x, y] =>
    obtain rfl : y = '\n' := by simpa [hr] using h
    simp [before, hr, hfeed]
  | [x, y, z] =>
    obtain rfl : z = '\n' := by simpa [hr] using h
    simp [before, hr, hfeed]
  | x :: y :: z :: v :: rest =>
    simp [before, hr, peekAt, column]

theorem AtLines.atSeparator_before (h : c.AtLines) :
    (c.before v).atSeparator = c.atSeparator := by
  rw [atSeparator, atSeparator, h.atMarker_before (by decide), h.atMarker_before (by decide)]

/-- Behind the last line stands the marker that follows. -/
theorem atMarker_before_nil (hr : c.rest = []) (hcol : c.column = 0) :
    (c.before v).atMarker '-' = true := by
  have hbefore : (c.before v).column = 0 := hcol
  simp [atMarker, before, hr, peekAt, isBlankOrEnd, isLineEnd, isBreak, column] at hbefore ⊢
  exact hbefore

end Cursor

end YamlLinter
