import YamlLinter.Proofs.Scalars.Escapes

/-!
# Quoted scalars decode what they encode

In single quotes a text without line breaks is written with its quotes doubled. In double quotes
every text can be written, each character in one of several ways. Reading what was written gives the
text back, whichever way each character was written.

The reader takes blanks by runs, and the writer writes them one by one. So the induction over the
characters goes by a step for one character, `quotedBody_written`, which holds for a blank because
the blanks behind it and the rest are read alike with it and without it.

## Contents

* `Encodes`: the ways to write a character in double quotes;
* `Written`: the ways to write a character in either style;
* `quotedBody_blank`, `quotedBody_written`: a character in front of others;
* `quotedBody_flatten`: a text up to its closing quote;
* `quoted_scalars_decode`: the scan of a quoted text.
-/

namespace YamlLinter

open Text

/-! ## Writing characters -/

/-- The ways to write a character in double quotes. -/
inductive Encodes (ch : Char) : List Char → Prop where
  /-- As it is, unless it is special in double quotes. -/
  | plain : ch ≠ '\x22' → ch ≠ '\\' → ch ≠ nul → isBreak ch = false → Encodes ch [ch]
  /-- By a letter that stands for it. -/
  | letter {l : Char} : (l, ch) ∈ letterEscapes → Encodes ch ['\\', l]
  /-- By the digits of its code point. -/
  | code {l : Char} {digits : List Char} : (l, digits.length) ∈ codeEscapes →
      HexDenotes digits ch.toNat → Encodes ch ('\\' :: l :: digits)

/-- The ways to write a character in double or in single quotes. -/
def Written (double : Bool) (ch : Char) (w : List Char) : Prop :=
  if double then Encodes ch w else Inline ch ∧ w = doubleQuotes [ch]

variable {ch l : Char} {w r digits : List Char} {n : Nat} {double : Bool} {c : Cursor}

theorem inline_of_mem_letterEscapes (h : (l, ch) ∈ letterEscapes) : Inline l := by
  have hall : ∀ p ∈ letterEscapes, Inline p.1 := by decide
  exact hall (l, ch) h

theorem inline_of_mem_codeEscapes (h : (l, n) ∈ codeEscapes) : Inline l := by
  have hall : ∀ p ∈ codeEscapes, Inline p.1 := by decide
  exact hall (l, n) h

/-- A digit is on a line. -/
theorem inline_of_hexValue (h : hexValue ch = some n) : Inline ch := by
  refine ⟨ne_nul_of_eq_some (f := hexValue) (by decide) h, ?_⟩
  rw [Bool.eq_false_iff]
  intro hbreak
  simp only [isBreak, Bool.or_eq_true, beq_iff_eq] at hbreak
  rcases hbreak with (((rfl | rfl) | rfl) | rfl) | rfl <;> cases h

theorem HexDenotes.inline (h : HexDenotes digits n) : ∀ x ∈ digits, Inline x := by
  obtain ⟨ds, hds, -⟩ := h
  induction hds with
  | nil => simp
  | cons hx _ ih =>
    intro y hy
    rcases List.mem_cons.1 hy with rfl | hy
    · exact inline_of_hexValue hx
    · exact ih y hy

/-- What stands for a character is on one line, whatever the character is. -/
theorem Written.inline (h : Written double ch w) : ∀ x ∈ w, Inline x := by
  have hslash : Inline '\\' := by decide
  cases double with
  | true =>
    cases h with
    | plain _ _ hnul hbreak =>
      intro x hx
      rw [List.mem_singleton.1 hx]
      exact ⟨hnul, hbreak⟩
    | letter hl =>
      intro x hx
      rcases List.mem_pair.1 hx with rfl | rfl
      · exact hslash
      · exact inline_of_mem_letterEscapes hl
    | code hl hdigits =>
      intro x hx
      rcases List.mem_cons.1 hx with rfl | hx
      · exact hslash
      · rcases List.mem_cons.1 hx with rfl | hx
        · exact inline_of_mem_codeEscapes hl
        · exact hdigits.inline x hx
  | false =>
    obtain ⟨hch, rfl⟩ := h
    intro x hx
    simp only [doubleQuotes, List.flatMap_singleton] at hx
    split at hx
    · rcases List.mem_pair.1 hx with rfl | rfl <;> decide
    · rw [List.mem_singleton.1 hx]
      exact hch

theorem inline_flatten {v : List Char} {ws : List (List Char)}
    (h : List.Forall₂ (Written double) v ws) : ∀ x ∈ ws.flatten, Inline x := by
  induction h with
  | nil => simp
  | cons hw _ ih =>
    intro x hx
    rcases List.mem_append.1 hx with hx | hx
    · exact hw.inline x hx
    · exact ih x hx

/-! ## Reading characters -/

/-- The part with one more character in front of its text. -/
def QuotedPart.cons (ch : Char) (part : QuotedPart) : QuotedPart := ⟨ch :: part.text, part.cursor⟩

namespace Cursor

/-- A step of one character. -/
theorem quotedBody_of_unit (h : c.quotedUnit double = .ok (some ⟨[ch], c.forward n⟩)) :
    c.quotedBody double = ((c.forward n).quotedBody double).map (.cons ch) := by
  rw [quotedBody_eq, h]
  simp only
  cases (c.forward n).quotedBody double <;> rfl

/-- A run of blanks in front of a character of the same line. -/
theorem quotedBody_blanks {bs : List Char} {x : Char} (hc : c.rest = bs ++ x :: r)
    (hbs : ∀ b ∈ bs, isBlank b = true) (hx : isBlank x = false) (hline : Inline x) :
    c.quotedBody double = ((c.forward bs.length).quotedBody double).map
      fun part => ⟨bs ++ part.text, part.cursor⟩ := by
  cases bs with
  | nil =>
    show c.quotedBody double = (c.quotedBody double).map fun part => part
    cases c.quotedBody double <;> rfl
  | cons b bs =>
    have htake : c.rest.takeWhile isBlank = b :: bs := by
      rw [hc, List.takeWhile_append_of_pos hbs, List.takeWhile_cons_of_neg (by simp [hx]),
        List.append_nil]
    have hpeek : c.peek = b := Canonical.peek_eq hc
    have hend : isBlankOrEnd b = true := by simp [isBlankOrEnd, hbs b List.mem_cons_self]
    generalize hd : c.forward (b :: bs).length = d
    have hnext : d.peek = x := by
      rw [← hd]
      exact Canonical.peek_eq (by rw [rest_forward, hc, List.drop_left])
    have hbreak : d.lineBreak? = none := lineBreak?_of_not_break (by rw [hnext]; exact hline.2)
    have hgap : c.quotedGap = .ok ⟨b :: bs, d⟩ := by
      simp only [quotedGap, htake, hd, hnext, hbreak]
      rw [if_neg (by simpa using hline.1)]
    have hunit : c.quotedUnit double = .ok (some ⟨b :: bs, d⟩) := by
      simp only [quotedUnit, hpeek, hend, if_true, hgap]
      rfl
    rw [quotedBody_eq, hunit]
    simp only
    cases d.quotedBody double <;> rfl

/-- The text goes on, on the same line, with blanks and something else. -/
def GoesOn (text : List Char) : Prop :=
  ∃ bs x r, text = bs ++ x :: r ∧ (∀ b ∈ bs, isBlank b = true) ∧ isBlank x = false ∧ Inline x

theorem goesOn_quote (h : ∀ x ∈ w, Inline x) : GoesOn (w ++ quoteMark double :: r) := by
  induction w with
  | nil =>
    refine ⟨[], quoteMark double, r, rfl, by simp, ?_, ?_⟩
    · cases double <;> decide
    · cases double <;> decide
  | cons y w ih =>
    cases hy : isBlank y with
    | false => exact ⟨[], y, w ++ quoteMark double :: r, rfl, by simp, hy, h y List.mem_cons_self⟩
    | true =>
      obtain ⟨bs, x, r', hsplit, hbs, hx⟩ := ih fun x hx => h x (List.mem_cons_of_mem y hx)
      refine ⟨y :: bs, x, r', by rw [List.cons_append, hsplit, List.cons_append], ?_, hx⟩
      intro b hb
      rcases List.mem_cons.1 hb with rfl | hb
      · exact hy
      · exact hbs b hb

/-- A blank adds itself, whatever blanks are read in one run with it. -/
theorem quotedBody_blank (hc : c.rest = ch :: w) (hch : isBlank ch = true) (hw : GoesOn w) :
    c.quotedBody double = ((c.forward 1).quotedBody double).map (.cons ch) := by
  obtain ⟨bs, x, r, rfl, hbs, hx, hline⟩ := hw
  have hall : ∀ b ∈ ch :: bs, isBlank b = true := by
    intro b hb
    rcases List.mem_cons.1 hb with rfl | hb
    · exact hch
    · exact hbs b hb
  -- the run with the blank and the run without it end at the same place
  have hwith := @quotedBody_blanks r double c (ch :: bs) x hc hall hx hline
  have hnext : (c.forward 1).rest = bs ++ x :: r := by
    rw [rest_forward, hc]
    rfl
  have hwithout := @quotedBody_blanks r double (c.forward 1) bs x hnext hbs hx hline
  have hsame : (c.forward 1).forward bs.length = c.forward (ch :: bs).length := rfl
  rw [hwith, hwithout, hsame]
  cases (c.forward (ch :: bs).length).quotedBody double <;> rfl

/-- A character that is written in front of a text adds itself to what is read of the text. -/
theorem quotedBody_written (h : Written double ch w) (hc : c.rest = w ++ r) (hr : GoesOn r) :
    c.quotedBody double = ((c.forward w.length).quotedBody double).map (.cons ch) := by
  cases double with
  | true =>
    cases h with
    | plain hquote hslash hnul hbreak =>
      have hpeek : c.peek = ch := Canonical.peek_eq hc
      -- a blank is read as a part of the gap that it starts
      cases hch : isBlank ch with
      | true => exact quotedBody_blank hc hch hr
      | false =>
        have hend : isBlankOrEnd ch = false := by
          simp [isBlankOrEnd, hch, isLineEnd_of_inline ⟨hnul, hbreak⟩]
        refine quotedBody_of_unit ?_
        simp [quotedUnit, hpeek, hend, hquote, hslash]
    | @letter l hl =>
      have hpeek : c.peek = '\\' := Canonical.peek_eq hc
      have hnext : (c.forward 1).peek = l := by
        exact Canonical.peek_eq (r := r) (by rw [rest_forward, hc]; rfl)
      refine quotedBody_of_unit ?_
      rw [quotedUnit_backslash hpeek]
      simp only [escape, hnext, escapeLetter_eq_some_iff.2 hl, forward_forward]
      rfl
    | @code l digits hl hdigits =>
      have hcode : escapeCode digits.length ((digits ++ r).take digits.length) = some ch := by
        rw [List.take_left]
        exact (escapeCode_eq_some_iff (two_le_of_mem_codeEscapes hl)).2 (.digits rfl hdigits)
      have hrest : c.rest = '\\' :: l :: (digits ++ r) := hc
      refine quotedBody_of_unit ?_
      rw [quotedUnit_code hrest hl, hcode]
      rfl
  | false =>
    obtain ⟨⟨hnul, hbreak⟩, rfl⟩ := h
    by_cases hquote : ch = '\x27'
    · subst hquote
      have hpeek : c.peek = '\x27' := Canonical.peek_eq hc
      have hnext : c.peekAt 1 = '\x27' := by
        simp [peekAt, hc, doubleQuotes]
      refine quotedBody_of_unit ?_
      simp [quotedUnit, hpeek, hnext, isBlankOrEnd, isBlank, isLineEnd, isBreak, nul, doubleQuotes]
    · have hwritten : doubleQuotes [ch] = [ch] := by simp [doubleQuotes, hquote]
      rw [hwritten] at hc ⊢
      have hpeek : c.peek = ch := Canonical.peek_eq hc
      cases hch : isBlank ch with
      | true => exact quotedBody_blank hc hch hr
      | false =>
        have hend : isBlankOrEnd ch = false := by
          simp [isBlankOrEnd, hch, isLineEnd_of_inline ⟨hnul, hbreak⟩]
        refine quotedBody_of_unit ?_
        simp [quotedUnit, hpeek, hend, hquote]

/-- The closing quote, at the end of the text. -/
theorem quotedBody_quote (hc : c.rest = [quoteMark double]) :
    c.quotedBody double = .ok ⟨[], c⟩ := by
  have hpeek : c.peek = quoteMark double := Canonical.peek_eq hc
  have hnext : c.peekAt 1 = nul := by simp [peekAt, hc]
  have hunit : c.quotedUnit double = .ok none := by
    simp only [quotedUnit, hpeek, hnext]
    cases double <;> rfl
  rw [quotedBody_eq, hunit]

/-- A text that is written up to the closing quote is read. -/
theorem quotedBody_flatten {v : List Char} {ws : List (List Char)}
    (h : List.Forall₂ (Written double) v ws) (hc : c.rest = ws.flatten ++ [quoteMark double]) :
    c.quotedBody double = .ok ⟨v, c.forward ws.flatten.length⟩ := by
  induction h generalizing c with
  | nil => exact quotedBody_quote hc
  | @cons ch w v ws hw hws ih =>
    rw [List.flatten_cons, List.append_assoc] at hc
    have hnext : (c.forward w.length).rest = ws.flatten ++ [quoteMark double] := by
      rw [rest_forward, hc, List.drop_left]
    rw [quotedBody_written hw hc (goesOn_quote (inline_flatten hws)), ih hnext, forward_forward,
      List.flatten_cons, List.length_append]
    rfl

end Cursor

/-! ## The scan -/

/-- A text that is written between quotes is scanned as one scalar. -/
theorem scan_written {source v : String} {ws : List (List Char)}
    (h : List.Forall₂ (Written double) v.toList ws)
    (hsource : source.toList = quoteMark double :: (ws.flatten ++ [quoteMark double])) :
    scan source = .ofScalar source v (if double then .doubleQuoted else .singleQuoted) := by
  have hinside : ((Cursor.ofText source.toList).forward 1).rest =
      ws.flatten ++ [quoteMark double] := by
    rw [Cursor.rest_forward]
    exact congrArg (List.drop 1) hsource
  have hbody := Cursor.quotedBody_flatten h hinside
  generalize hd : ((Cursor.ofText source.toList).forward 1).forward ws.flatten.length = d at hbody
  have hrest : d.rest = [quoteMark double] := by
    rw [← hd, Cursor.rest_forward, hinside, List.drop_left]
  refine ScanState.scan_of_quoted (d := d.forward 1) (Canonical.peek_eq hsource) ?_ ?_
  · rw [Cursor.quoted, hbody]
    simp only [String.ofList_toList]
    rfl
  · rw [Cursor.rest_forward, hrest]
    rfl

/-- A text in single quotes is written with its quotes doubled. -/
theorem forall₂_doubleQuotes {v : List Char} (h : ∀ ch ∈ v, Inline ch) :
    List.Forall₂ (Written false) v (v.map fun ch => doubleQuotes [ch]) := by
  induction v with
  | nil => exact .nil
  | cons ch v ih =>
    refine .cons ⟨h ch List.mem_cons_self, rfl⟩ (ih ?_)
    intro x hx
    exact h x (List.mem_cons_of_mem ch hx)

theorem flatten_doubleQuotes (v : List Char) :
    (v.map fun ch => doubleQuotes [ch]).flatten = doubleQuotes v := by
  induction v with
  | nil => rfl
  | cons ch v ih =>
    rw [List.map_cons, List.flatten_cons, ih]
    exact (doubleQuotes_append [ch] v).symm

/-- Quoted scalars decode what they encode: in single quotes a text of one line with its quotes
doubled, in double quotes any text in any mixture of encodings. -/
theorem quoted_scalars_decode :
    (∀ v : String, (∀ ch ∈ v.toList, Inline ch) →
      let source := String.ofList ('\x27' :: (doubleQuotes v.toList ++ ['\x27']))
      scan source = .ofScalar source v .singleQuoted) ∧
    ∀ (v : String) (ws : List (List Char)), List.Forall₂ Encodes v.toList ws →
      let source := String.ofList ('\x22' :: (ws.flatten ++ ['\x22']))
      scan source = .ofScalar source v .doubleQuoted := by
  constructor
  · intro v hv source
    have hsource : source.toList = quoteMark false ::
        ((v.toList.map fun ch => doubleQuotes [ch]).flatten ++ [quoteMark false]) := by
      rw [flatten_doubleQuotes]
      exact String.toList_ofList
    exact scan_written (forall₂_doubleQuotes hv) hsource
  · intro v ws hws source
    have hwritten : List.Forall₂ (Written true) v.toList ws := hws
    exact scan_written hwritten String.toList_ofList

/-- Quotes and blanks in single quotes. In double quotes a blank, a line break by its letter, the
same by its code point, a blank behind it, and a character beyond the first plane. -/
theorem quoted_scalars_decode_mixed :
    (scan "'it''s  '''" = .ofScalar "'it''s  '''" "it's  '" .singleQuoted) ∧
      scan "\" \\n\\u000A\\x20\t\\U0001f600\"" =
        .ofScalar "\" \\n\\u000A\\x20\t\\U0001f600\"" " \n\n \t😀" .doubleQuoted := by
  constructor
  · exact quoted_scalars_decode.1 "it's  '" (by simp [Inline, isBreak, nul])
  · refine quoted_scalars_decode.2 " \n\n \t😀"
      [[' '], ['\\', 'n'], ['\\', 'u', '0', '0', '0', 'A'], ['\\', 'x', '2', '0'], ['\t'],
        '\\' :: 'U' :: "0001f600".toList] ?_
    have hfeed : HexDenotes ['0', '0', '0', 'A'] '\n'.toNat := hexNumber_eq_some_iff.1 rfl
    have hspace : HexDenotes ['2', '0'] ' '.toNat := hexNumber_eq_some_iff.1 rfl
    have hface : HexDenotes "0001f600".toList '😀'.toNat := hexNumber_eq_some_iff.1 rfl
    have hblank : Encodes ' ' [' '] := .plain (by decide) (by decide) (by decide) rfl
    have htab : Encodes '\t' ['\t'] := .plain (by decide) (by decide) (by decide) rfl
    exact .cons hblank (.cons (.letter (by decide)) (.cons (.code (by decide) hfeed)
      (.cons (.code (by decide) hspace) (.cons htab (.cons (.code (by decide) hface) .nil)))))

end YamlLinter
