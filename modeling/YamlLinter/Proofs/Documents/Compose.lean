import YamlLinter.Proofs.Documents.Scan
import YamlLinter.Proofs.Tandem.Shift

/-!
# Documents one behind the other

A document marker starts anew: nothing that the scanner keeps from the text in front of it is seen
behind it. So the scan of two texts with a marker between them is put together from the scans of the
two texts.

## Contents

* `lineBreaks`, `mark_of_end`: the place behind a whole text;
* `forward_marker`, `forward_markerLine`: behind the marker, and behind its line;
* `documentTandem`, `shifts_documentTandem`: a text, and the same text behind the marker;
* `scanText_marker`, `scan_append_document`: the scan of both texts.
-/

namespace YamlLinter

open Text ScanState

variable {text v : List Char} {c d : Cursor} {n : Nat} {ks : List Comment}

/-- The number of line breaks in a text. -/
def lineBreaks (text : List Char) : Nat := (List.range text.length).countP (endsLineAt text)

/-! ## Places -/

/-- Behind whole lines all bytes and all lines have been counted. -/
theorem mark_of_end (h : (Cursor.ofText text).Ahead c) (hr : c.rest = []) (hcol : c.column = 0) :
    c.mark = ⟨byteCount text, lineBreaks text, 0⟩ := by
  have hat := h.at_pos
  have hpos : c.pos = text.length := by
    have hrest := h.rest_eq
    rw [hr] at hrest
    have hle := List.drop_eq_nil_iff.1 hrest.symm
    have hge := hat.le
    omega
  show Mark.mk c.mark.index c.mark.line c.column = _
  rw [hat.index, hat.line, hcol, hpos, List.take_length]
  rfl

theorem forward_marker (hr : c.rest = []) (hcol : c.column = 0) :
    (c.before v).forward 3 =
      ⟨'\n' :: v, c.pos + 3, ⟨c.mark.index + 3, c.mark.line, 3⟩, true⟩ := by
  have hcol : c.mark.column = 0 := hcol
  simp [Cursor.before, Cursor.forward, Cursor.advance, hr, hcol, Mark.after, Mark.endsLine,
    Char.utf8Size, isSpace]

theorem forward_markerLine (hr : c.rest = []) (hcol : c.column = 0) :
    ((c.before v).forward 3).forward 1 =
      ⟨v, c.pos + 4, ⟨c.mark.index + 4, c.mark.line + 1, 0⟩, false⟩ := by
  rw [forward_marker hr hcol]
  simp [Cursor.forward, Cursor.advance, Mark.after, Mark.endsLine, Char.utf8Size]

/-! ## The line of the marker -/

theorem skipByteOrderMark_of_pos (h : d.pos ≠ 0) : d.skipByteOrderMark = d := by
  simp [Cursor.skipByteOrderMark, h]

/-- A gap that starts with a line feed goes on behind it, where a key may start. -/
theorem gap_feed (hr : d.rest = '\n' :: v) :
    d.gap false false = (d.forward 1).gap false true := by
  have hline : d.lineGap false false = ([], d) := by
    simp [Cursor.lineGap, Cursor.skipWhile, hr, Cursor.isSkipped, Cursor.forward, Cursor.peek,
      Cursor.peekAt]
  have hbreak : d.lineBreak? = some ('\n', d.forward 1) := by
    simp [Cursor.lineBreak?, Cursor.peek, Cursor.peekAt, hr]
  rw [Cursor.gap_eq, hline]
  simp only [hbreak]
  rfl

/-- A scanner behind a marker fetches what one on the next line does. -/
theorem fetch_feed (hr : d.rest = '\n' :: v) (hpos : d.pos ≠ 0) :
    (fresh d false n ks).fetch = (fresh (d.forward 1) true n ks).fetch := by
  have hpos' : (d.forward 1).pos ≠ 0 := by
    have hle := (Cursor.Ahead.forward d 1).pos_le
    omega
  have hgap : (fresh d false n ks).skipGap = (fresh (d.forward 1) true n ks).skipGap := by
    have hfeed := gap_feed hr
    unfold skipGap
    show ({ fresh d false n ks with
      cursor := (d.skipByteOrderMark.gap false false).cursor
      allowKey := (d.skipByteOrderMark.gap false false).allowKey
      comments := ks ++ (d.skipByteOrderMark.gap false false).comments } : ScanState) =
      { fresh (d.forward 1) true n ks with
        cursor := ((d.forward 1).skipByteOrderMark.gap false true).cursor
        allowKey := ((d.forward 1).skipByteOrderMark.gap false true).allowKey
        comments := ks ++ ((d.forward 1).skipByteOrderMark.gap false true).comments }
    rw [skipByteOrderMark_of_pos hpos, skipByteOrderMark_of_pos hpos', hfeed]
    rfl
  unfold ScanState.fetch
  rw [hgap]

/-! ## Behind the marker -/

/-- A cursor at the start of a text, and one in front of the same text behind the line of a marker. -/
def documentTandem (c : Cursor) (v : List Char) (given : Nat) (noted : List Comment)
    (hr : c.rest = []) (hcol : c.column = 0) (hv : v.head? ≠ some '\ufeff') : Tandem where
  left := .ofText v
  right := ((c.before v).forward 3).forward 1
  returns := false
  text := by
    rw [forward_markerLine hr hcol, respell_false]
    rfl
  clean := clean_ofText v
  column := by
    rw [forward_markerLine hr hcol]
    rfl
  mark := fun hpeek => absurd hpeek (peek_ofText_ne hv)
  given
  noted

theorem shifts_documentTandem (hr : c.rest = []) (hcol : c.column = 0)
    (hv : v.head? ≠ some '\ufeff') :
    (documentTandem c v n ks hr hcol hv).Shifts (c.mark.index + 4) (c.mark.line + 1) := by
  have hright : (documentTandem c v n ks hr hcol hv).right = _ := forward_markerLine hr hcol
  constructor
  · rfl
  · rfl
  · rw [hright]
  · rw [hright]
  · rw [hright]
    rfl

theorem inStep_documentTandem (hr : c.rest = []) (hcol : c.column = 0)
    (hv : v.head? ≠ some '\ufeff') :
    (documentTandem c v n ks hr hcol hv).InStep (started v)
      (fresh (((c.before v).forward 3).forward 1) true (n + 1) ks) where
  cursor := (documentTandem c v n ks hr hcol hv).start
  done := rfl
  flowLevel := rfl
  queue := .nil
  taken := Nat.add_comm n 1
  indent := rfl
  indents := rfl
  allowKey := rfl
  keys := .nil
  comments := ⟨[], (List.append_nil ks).symm, .nil⟩

/-- The scan of whole lines, a marker and more text. -/
theorem scanText_marker (hw : (Cursor.ofText text).Whole) (herror : (scanText text).error = none)
    (hdepth : Indentation.flowDepth 0 (scanText text).tokens = 0)
    (hv : v.head? ≠ some '\ufeff') :
    ∃ ts us, (scanText text).tokens =
        ts ++ [.empty .streamEnd ⟨byteCount text, lineBreaks text, 0⟩] ∧
      (scanText v).tokens = .empty .streamStart .origin :: us ∧
      scanText (text ++ '-' :: '-' :: '-' :: '\n' :: v) =
        ⟨ts ++ ⟨.documentStart, ⟨byteCount text, lineBreaks text, 0⟩,
            ⟨byteCount text + 3, lineBreaks text, 3⟩⟩ ::
            us.map (·.shift (byteCount text + 4) (lineBreaks text + 1)),
          (scanText text).comments ++
            (scanText v).comments.map (·.shift (byteCount text + 4) (lineBreaks text + 1)),
          (scanText v).error.map (·.shift (byteCount text + 4) (lineBreaks text + 1))⟩ := by
  obtain ⟨ts, c, hahead, hr, hcol, htokens, hrun⟩ := run_marker hw herror hdepth
  have hmark := mark_of_end hahead hr hcol
  have hmarker := forward_marker (v := v) hr hcol
  have hfetch : (fresh ((c.before v).forward 3) false (ts.length + 1)
      (scanText text).comments).fetch = _ :=
    fetch_feed (v := v) (by rw [hmarker]) (by rw [hmarker]; exact Nat.succ_ne_zero _)
  have hpair := Tandem.scanPair_started (inStep_documentTandem hr hcol hv) hfetch rfl (hrun v)
  obtain ⟨us, hus, hscan⟩ := (shifts_documentTandem hr hcol hv).scan hpair
  rw [hmarker, hmark] at hscan
  refine ⟨ts, us, hmark ▸ htokens, hus, ?_⟩
  rw [hscan, List.append_assoc]
  rfl

/-- Scanning goes document by document. Take whole lines that scan without an error and leave no flow
collection open, then a line with a document marker, then any text that does not start with a byte
order mark. The tokens are those of the lines without the end of the stream, the marker, and those of
the text without the start of the stream, the latter moved by the bytes and lines in front of the
text. So are its comments, which follow those of the lines, and its error. -/
theorem scan_append_document {first second : String}
    (hlines : first.toList = [] ∨ first.toList.getLast? = some '\n')
    (herror : (scan first).error = none)
    (hdepth : Indentation.flowDepth 0 (scan first).tokens = 0)
    (hmark : second.toList.head? ≠ some '\ufeff') :
    let stop : Mark := ⟨byteCount first.toList, lineBreaks first.toList, 0⟩
    let bytes := byteCount first.toList + 4
    let lines := lineBreaks first.toList + 1
    ∃ ts us, (scan first).tokens = ts ++ [.empty .streamEnd stop] ∧
      (scan second).tokens = .empty .streamStart .origin :: us ∧
      scan (first ++ "---\n" ++ second) =
        { tokens := ts ++ ⟨.documentStart, stop, ⟨stop.index + 3, stop.line, 3⟩⟩ ::
            us.map (·.shift bytes lines)
          comments := (scan first).comments ++ (scan second).comments.map (·.shift bytes lines)
          error := (scan second).error.map (·.shift bytes lines) } := by
  have hw : (Cursor.ofText first.toList).Whole := by
    rcases hlines with hnil | hlast
    · exact .inr ⟨hnil, rfl⟩
    · exact .inl hlast
  have htext : (first ++ "---\n" ++ second).toList =
      first.toList ++ '-' :: '-' :: '-' :: '\n' :: second.toList := by
    simp [String.toList_append]
  unfold scan
  rw [htext]
  exact scanText_marker hw herror hdepth hmark

/-- The block collections in front of the marker are closed by it, and the error is found behind it. -/
theorem scan_append_document_unclosedQuote :
    let first := "a:\n- b # é\n"
    let second := "c: # d\n 'e\n"
    let both := scan (first ++ "---\n" ++ second)
    first.toList.getLast? = some '\n' ∧ (scan first).error = none ∧
      Indentation.flowDepth 0 (scan first).tokens = 0 ∧
      second.toList.head? ≠ some '\ufeff' ∧
      both.tokens.map Token.kind =
        [.streamStart, .blockMappingStart, .key, .scalar "a" .plain, .value, .blockEntry,
          .scalar "b" .plain, .blockEnd, .documentStart, .blockMappingStart, .key,
          .scalar "c" .plain, .value] ∧
      both.comments.map Comment.start = [⟨7, 1, 4⟩, ⟨19, 3, 3⟩] ∧
      both.error = some ⟨.unclosedQuote, ⟨27, 5, 0⟩⟩ := by
  intro first second both
  have hlast : first.toList.getLast? = some '\n' := by decide +kernel
  have herror : (scan first).error = none := by decide +kernel
  have hdepth : Indentation.flowDepth 0 (scan first).tokens = 0 := by decide +kernel
  have hmark : second.toList.head? ≠ some '\ufeff' := by decide +kernel
  obtain ⟨ts, us, hts, hus, hboth⟩ := scan_append_document (.inr hlast) herror hdepth hmark
  have hlead : ts = (scan first).tokens.dropLast := by rw [hts, List.dropLast_concat]
  have htail : us = (scan second).tokens.tail := by rw [hus, List.tail_cons]
  refine ⟨hlast, herror, hdepth, hmark, ?_⟩
  show (scan (first ++ "---\n" ++ second)).tokens.map Token.kind = _ ∧ _
  rw [hboth, hlead, htail]
  decide +kernel

end YamlLinter
