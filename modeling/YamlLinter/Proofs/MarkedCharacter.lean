import YamlLinter.Proofs.Spelling.Scan
import YamlLinter.Report.Span

/-!
# Problems point at marks

The scanner turns the characters that it has read into lines and columns, and a report turns the line
and the column of a problem back into a place of the source. The two go opposite ways: the scanner
counts line ends and characters as it reads, the report drops lines and then characters. They agree
on every mark of a source in which line feeds alone end lines and every character takes a column.

## Contents

* `dropLines_dropLines`, `dropLines_one`: texts without their first lines;
* `PlainLines`: sources in which both sides count alike;
* `Cursor.Pinned`: the line of a cursor, from its start on;
* `pinned_advance`, `pinned_ahead`: what reading keeps;
* `span_eq`: the bytes that a problem points at;
* `Scan.starts`: the marks at which a scan places its tokens, comments and error;
* `span_points_at_mark`: the character of a mark.
-/

namespace YamlLinter

open Text

/-! ## Texts without their first lines -/

theorem dropLines_zero (cs : List Char) : dropLines cs 0 = cs := by
  rw [dropLines]

theorem dropLines_dropLines (cs : List Char) (m n : Nat) :
    dropLines (dropLines cs m) n = dropLines cs (m + n) := by
  fun_induction dropLines cs m with
  | case1 cs => rw [Nat.zero_add]
  | case2 m =>
    rw [Nat.succ_add]
    cases n <;> rfl
  | case3 c cs m hc ih =>
    rw [ih, Nat.succ_add, dropLines, if_pos hc]
  | case4 c cs m hc ih =>
    rw [ih, Nat.succ_add, dropLines, if_neg hc]

/-- The first line ends at its first line feed. -/
theorem dropLines_one {front rest : List Char} (h : '\n' ∉ front) :
    dropLines (front ++ '\n' :: rest) 1 = rest := by
  induction front with
  | nil =>
    show dropLines ('\n' :: rest) 1 = rest
    cases rest <;> rfl
  | cons c front ih =>
    rw [List.mem_cons, not_or] at h
    have hc : ¬(c == '\n') = true := by
      rw [beq_iff_eq]
      exact Ne.symm h.1
    rw [List.cons_append, dropLines, if_neg hc, ih h.2]

theorem dropLines_suffix (cs : List Char) (n : Nat) : dropLines cs n <:+ cs := by
  fun_induction dropLines cs n with
  | case1 cs => exact List.suffix_refl cs
  | case2 n => exact List.suffix_refl []
  | case3 c cs n hc ih => exact ih.trans (List.suffix_cons c cs)
  | case4 c cs n hc ih => exact ih.trans (List.suffix_cons c cs)

theorem pointedText_suffix (source : List Char) (line column : Nat) :
    pointedText source line column <:+ source :=
  (List.drop_suffix _ _).trans (dropLines_suffix source _)

/-! ## Lines and columns on the way -/

/-- Line feeds, alone or behind a carriage return, are all that ends lines in a text, and it has no
byte order marks. -/
structure PlainLines (text : List Char) : Prop where
  chars : ∀ c ∈ text, c ≠ '\ufeff' ∧ c ≠ '\u0085' ∧ c ≠ '\u2028' ∧ c ≠ '\u2029'
  returns : ∀ i < text.length, text[i]? = some '\r' → text[i + 1]? = some '\n'

namespace Cursor

variable {text : List Char} {c : Cursor}

/-- In front of the cursor, its line holds as many characters as its column says, and no line feed. -/
def Pinned (text : List Char) (c : Cursor) : Prop :=
  ∃ front, dropLines text c.line = front ++ c.rest ∧ front.length = c.column ∧ '\n' ∉ front

/-- In such a text a character other than a line feed takes a column, and a line feed ends the line. -/
theorem mark_advance (htext : PlainLines text) (hc : (ofText text).Ahead c) {ch : Char}
    {rest : List Char} (hrest : c.rest = ch :: rest) :
    (ch = '\n' → c.advance.line = c.line + 1 ∧ c.advance.column = 0) ∧
      (ch ≠ '\n' → c.advance.line = c.line ∧ c.advance.column = c.column + 1) := by
  have hch := hc.getElem?_pos hrest
  obtain ⟨hbom, hnel, hls, hps⟩ := htext.chars ch (List.mem_of_getElem? hch)
  have hreturn : ch = '\r' → rest.headD nul = '\n' := by
    rintro rfl
    have hnext := htext.returns c.pos (List.getElem?_eq_some_iff.1 hch).1 hch
    rw [← List.head?_drop, ← List.tail_drop, ← hc.rest_eq, hrest, List.tail_cons] at hnext
    rw [List.headD_eq_head?_getD, hnext]
    rfl
  have hends : Mark.endsLine ch (rest.headD nul) = (ch == '\n') := by
    by_cases hcr : ch = '\r'
    · rw [hreturn hcr, hcr]
      rfl
    · rw [Mark.endsLine, beq_false_of_ne hnel, beq_false_of_ne hls, beq_false_of_ne hps,
        beq_false_of_ne hcr]
      simp
  simp only [advance, hrest, line, column, Mark.after, hends]
  constructor
  · rintro rfl
    exact ⟨rfl, rfl⟩
  · intro hne
    simp [hne, hbom]

theorem pinned_advance (htext : PlainLines text) (hc : (ofText text).Ahead c) (h : Pinned text c) :
    Pinned text c.advance := by
  cases hrest : c.rest with
  | nil =>
    have hstay : c.advance = c := by simp [advance, hrest]
    rwa [hstay]
  | cons ch rest =>
    obtain ⟨front, hline, hcolumn, hfeed⟩ := h
    have hnext : c.advance.rest = rest := by simp [advance, hrest]
    obtain ⟨hends, hstays⟩ := mark_advance htext hc hrest
    unfold Pinned
    rw [hnext]
    by_cases hch : ch = '\n'
    · -- the line is over, and the next one starts behind its line feed
      obtain ⟨hline', hcolumn'⟩ := hends hch
      refine ⟨[], ?_, hcolumn'.symm, List.not_mem_nil⟩
      rw [hline', ← dropLines_dropLines, hline, hrest, hch, dropLines_one hfeed]
      rfl
    · obtain ⟨hline', hcolumn'⟩ := hstays hch
      refine ⟨front ++ [ch], ?_, ?_, ?_⟩
      · rw [hline', hline, hrest, List.append_assoc]
        rfl
      · rw [hcolumn', List.length_append, hcolumn]
        rfl
      · rw [List.mem_append, List.mem_singleton]
        rintro (hmem | heq)
        · exact hfeed hmem
        · exact hch heq.symm

/-- Every cursor of such a text stands where its line and its column say. -/
theorem pinned_ahead (htext : PlainLines text) (hc : (ofText text).Ahead c) : Pinned text c := by
  obtain ⟨n, rfl⟩ := hc
  induction n with
  | zero => exact ⟨[], dropLines_zero text, rfl, List.not_mem_nil⟩
  | succ n ih =>
    rw [forward_succ]
    exact pinned_advance htext (.forward _ n) ih

theorem Pinned.pointedText_eq (h : Pinned text c) :
    pointedText text (c.line + 1) (c.column + 1) = c.rest := by
  obtain ⟨front, hline, hcolumn, -⟩ := h
  unfold pointedText
  rw [Nat.add_sub_cancel, Nat.add_sub_cancel, hline, ← hcolumn, List.drop_left]

end Cursor

/-! ## The bytes of a problem -/

/-- A problem that points at the text behind some characters points at the first one of it. -/
theorem span_eq {source before behind : List Char} {p : Problem} (hsplit : source = before ++ behind)
    (h : pointedText source p.line p.column = behind) :
    p.span source = ⟨byteCount before, byteCount before + byteCount (behind.take 1)⟩ := by
  have hstart : byteCount source - byteCount behind = byteCount before := by
    rw [hsplit, byteCount_append, Nat.add_sub_cancel]
  unfold Problem.span
  rw [h]
  simp only [hstart]
  cases behind with
  | nil => rfl
  | cons c behind => rfl

/-- A place behind some characters of a source is a boundary between characters. -/
theorem isValid_byteCount {source : String} {before behind : List Char}
    (h : source.toList = before ++ behind) :
    (⟨byteCount before⟩ : String.Pos.Raw).IsValid source := by
  rw [← String.ofList_toList (s := source), String.Pos.Raw.isValid_ofList]
  refine ⟨before.length, ?_⟩
  rw [h, List.take_left, String.utf8ByteSize_ofList, ← byteCount_eq_utf8Len]

/-- The marks at which tokens and comments start and at which an error is noticed. -/
def Scan.starts (s : Scan) : List Mark :=
  s.tokens.map Token.start ++ s.comments.map Comment.start ++ s.error.toList.map ScanError.mark

/-- They all are marks of cursors. -/
theorem exists_ahead_of_mem_starts {text : List Char} {m : Mark} (h : m ∈ (scanText text).starts) :
    ∃ c, (Cursor.ofText text).Ahead c ∧ m = c.mark := by
  obtain ⟨⟨c, htokens⟩, d, hcomments⟩ := laid_scan text
  simp only [Scan.starts, List.mem_append, List.mem_map, Option.mem_toList] at h
  rcases h with (⟨t, ht, rfl⟩ | ⟨k, hk, rfl⟩) | ⟨e, he, rfl⟩
  · obtain ⟨c, -, hc, -, -, hstart, -⟩ := htokens.mem ht
    exact ⟨c, hc, hstart⟩
  · obtain ⟨c, -, hc, -, -, hstart, -⟩ := hcomments.mem hk
    exact ⟨c, hc, hstart⟩
  · obtain ⟨s, hrun, hends⟩ := ScanState.run_scanText text
    unfold ScanState.Ends at hends
    rw [he] at hends
    obtain ⟨s', hfault, -⟩ := hends
    obtain ⟨-, c, hc, hmark, -⟩ := ScanState.placed_fault hrun hfault
    exact ⟨c, hc, hmark⟩

/-- A problem points at bytes of the source, between two boundaries of characters. If line feeds,
alone or behind a carriage return, are all that ends lines in the source, and it has no byte order
marks, a problem with the line and the column of a token, a comment or an error points at the
character at which that starts: its bytes start at the offset of the mark, and they are just those of
the one character there. There are none if and only if the mark is at the end of the source. -/
theorem span_points_at_mark (source : String) :
    (∀ p : Problem, (p.span source.toList).start ≤ (p.span source.toList).stop ∧
        (p.span source.toList).stop ≤ source.utf8ByteSize ∧
        (⟨(p.span source.toList).start⟩ : String.Pos.Raw).IsValid source ∧
        (⟨(p.span source.toList).stop⟩ : String.Pos.Raw).IsValid source) ∧
      (PlainLines source.toList → ∀ m ∈ (scan source).starts, ∀ p : Problem, p.line = m.line + 1 →
        p.column = m.column + 1 →
        (∃ before behind, source.toList = before ++ behind ∧ byteCount before = m.index ∧
          p.span source.toList = ⟨m.index, m.index + byteCount (behind.take 1)⟩) ∧
        ((p.span source.toList).stop = (p.span source.toList).start ↔
          m.index = source.utf8ByteSize)) := by
  have hsize : source.utf8ByteSize = byteCount source.toList := by
    rw [byteCount_eq_utf8Len, String.utf8Len_toList]
  constructor
  · intro p
    obtain ⟨before, hsplit⟩ := pointedText_suffix source.toList p.line p.column
    generalize hbehind : pointedText source.toList p.line p.column = behind at hsplit
    have hspan := span_eq hsplit.symm hbehind
    have hparts : source.toList = (before ++ behind.take 1) ++ behind.drop 1 := by
      rw [List.append_assoc, List.take_append_drop, hsplit]
    rw [hspan]
    refine ⟨Nat.le_add_right _ _, ?_, isValid_byteCount hsplit.symm, ?_⟩
    · rw [hsize, hparts, byteCount_append, byteCount_append]
      exact Nat.le_add_right _ _
    · rw [← byteCount_append]
      exact isValid_byteCount hparts
  · intro htext m hm p hline hcolumn
    obtain ⟨c, hc, rfl⟩ := exists_ahead_of_mem_starts hm
    have hrest : pointedText source.toList p.line p.column = c.rest := by
      rw [hline, hcolumn]
      exact (Cursor.pinned_ahead htext hc).pointedText_eq
    have hsplit : source.toList = source.toList.take c.pos ++ c.rest := by
      rw [hc.rest_eq, List.take_append_drop]
    have hspan := span_eq hsplit hrest
    rw [← hc.at_pos.index] at hspan
    refine ⟨⟨_, _, hsplit, hc.at_pos.index.symm, hspan⟩, ?_⟩
    -- a character takes at least one byte
    rw [hspan, hsize, hsplit, byteCount_append, ← hc.at_pos.index]
    cases c.rest with
    | nil => simp [byteCount]
    | cons ch rest =>
      have hpos := ch.utf8Size_pos
      simp only [List.take_succ_cons, List.take_zero, byteCount]
      omega

/-- The character that no token starts with, behind letters of two bytes and a carriage return. -/
theorem span_points_at_mark_strayCharacter :
    let source := "é: 1 # ö\r\nb: @"
    let p : Problem := ⟨2, 4, "", none, .error⟩
    PlainLines source.toList ∧ (⟨15, 1, 3⟩ : Mark) ∈ (scan source).starts ∧
      (p.span source.toList).start = 15 ∧
      (p.span source.toList).stop ≠ (p.span source.toList).start := by
  intro source p
  have hchars : source.toList.all (fun c => decide
      (c ≠ '\ufeff' ∧ c ≠ '\u0085' ∧ c ≠ '\u2028' ∧ c ≠ '\u2029')) = true := by decide +kernel
  have htext : PlainLines source.toList :=
    ⟨fun c hc => of_decide_eq_true (List.all_eq_true.1 hchars c hc), by decide +kernel⟩
  have hmark : (⟨15, 1, 3⟩ : Mark) ∈ (scan source).starts := by decide +kernel
  obtain ⟨⟨before, behind, -, -, hspan⟩, hempty⟩ :=
    (span_points_at_mark source).2 htext _ hmark p rfl rfl
  refine ⟨htext, hmark, congrArg Span.start hspan, fun hstop => ?_⟩
  have hend := hempty.1 hstop
  exact absurd hend (by decide +kernel)

end YamlLinter
