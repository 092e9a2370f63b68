import YamlLinter.Proofs.Documents.Walk

/-!
# Readers in front of a document marker

What a reader finds in a text of whole lines, it finds when a document marker follows the text. Only
two readers come to look at the marker. Empty lines behind a plain scalar end at it, where they would
end with the text. In quotes it is an error, but so is the end of the text.

## Contents

* gaps and line tails, names, tags, directives: `Whole.gap_before`, `AtLines.tag_before`, ...;
* quoted, plain and block scalars: `AtLines.quoted_before`, `AtLines.plain_before`,
  `AtLines.block_before`.
-/

namespace YamlLinter

open Text

namespace Cursor

variable {c c' : Cursor} {v : List Char}

/-! ## Gaps and line tails -/

/-- A comment ends with its line, and does not see the marker. -/
theorem AtLines.comment_before (h : c.AtLines) : (c.before v).comment = c.comment := by
  unfold comment
  rw [h.skipLine_before.1, h.takeWhile_before (by decide)]
  rfl

/-- What stands in front of a token on its line does not see the marker. -/
theorem Whole.lineGap_before (h : c.Whole) (flow allowKey : Bool) :
    (c.before v).lineGap flow allowKey =
      ((c.lineGap flow allowKey).1, (c.lineGap flow allowKey).2.before v) := by
  obtain ⟨hskip, hw⟩ := h.skipWhile_before (v := v) (p := isSkipped flow allowKey) rfl rfl
  unfold lineGap
  simp only [hskip]
  have hhash := hw.test_before (v := v) (· == '#') (by decide)
  rw [hhash]
  split
  · rename_i hc
    have hlines := hw.atLines (rest_ne_nil_of_peek_ne_nul (by
      rw [beq_iff_eq.1 hc]
      decide))
    rw [hlines.comment_before, hlines.skipLine_before.1]
  · rfl

/-- Behind a gap on a line there are still whole lines. -/
theorem Whole.lineGap (h : c.Whole) (flow allowKey : Bool) : (c.lineGap flow allowKey).2.Whole := by
  unfold Cursor.lineGap
  simp only
  split
  · exact (h.forward _).forward _
  · exact h.forward _

/-- The gap in front of the marker is the one at the end of the text. -/
theorem Whole.gap_before (h : c.Whole) (flow allowKey : Bool) :
    (c.before v).gap flow allowKey =
      { c.gap flow allowKey with cursor := (c.gap flow allowKey).cursor.before v } := by
  induction hn : c.rest.length using Nat.strongRecOn generalizing c allowKey with
  | ind n ih =>
  have hw := h.lineGap flow allowKey
  rw [gap_eq c, gap_eq (c.before v), h.lineGap_before, hw.lineBreak?_before]
  cases hb : (c.lineGap flow allowKey).2.lineBreak? with
  | none => rfl
  | some b =>
    have hlt := length_rest_lineBreak? hb
    have hle := c.length_rest_lineGap_le flow allowKey
    simp only [Option.map_some, ih _ (by omega) (hw.lineBreak? hb) (allowKey || !flow) rfl]

/-- The tail of a line ends with the line. -/
theorem AtLines.lineTail_before {k : Option Comment} (h : c.AtLines) (hx : c.lineTail = .ok (k, c')) :
    (c.before v).lineTail = .ok (k, c'.before v) := by
  obtain ⟨hskip, hlines⟩ := h.skipWhile_before (v := v) (p := isBlank) rfl
  obtain ⟨hline, hend⟩ := hlines.skipLine_before (v := v)
  unfold lineTail at hx ⊢
  simp only [hskip, hlines.peek_before, hlines.comment_before, hline,
    hend.whole.skipBreak_before, hlines.whole.skipBreak_before] at hx ⊢
  split at hx
  · cases hx
    rw [if_pos ‹_›]
  · rw [if_neg ‹_›]
    split at hx
    · cases hx
      rw [if_pos ‹_›]
    · simp [fail] at hx

/-! ## Names and tags -/

/-- A name ends on its line. -/
theorem AtLines.name_before {missing : Char → ScanError.Cause} {kind : String → TokenKind}
    {t : Token} (h : c.AtLines) (hc : c.peek ≠ '\n') (hx : c.name missing kind = .ok (t, c')) :
    (c.before v).name missing kind = .ok (t, c'.before v) := by
  obtain ⟨hone, h₁⟩ := h.forward_one (v := v) hc
  unfold name at hx ⊢
  simp only [hone, h₁.takeWhile_before (p := isNameChar) (by decide),
    (h₁.forward_takeWhile (p := isNameChar) (by decide)).1] at hx ⊢
  split at hx
  · simp [fail] at hx
  · cases hx
    rw [if_neg ‹_›]
    rfl

theorem AtLines.tagSuffix_before {flow : Bool} {text : List Char} (h : c.AtLines)
    (hx : c.tagSuffix flow = .ok (text, c')) :
    (c.before v).tagSuffix flow = .ok (text, c'.before v) ∧ c'.AtLines := by
  have hp : (isUriChar '\n' && !(flow && isFlowMark '\n')) = false := by cases flow <;> decide
  obtain ⟨hread, hlines⟩ := h.forward_takeWhile (v := v)
    (p := fun ch => isUriChar ch && !(flow && isFlowMark ch)) hp
  unfold tagSuffix at hx ⊢
  simp only [h.takeWhile_before (p := fun ch => isUriChar ch && !(flow && isFlowMark ch)) hp,
    hread] at hx ⊢
  split at hx
  · simp [fail] at hx
  · cases hx
    rw [if_neg ‹_›]
    exact ⟨rfl, hlines⟩

theorem AtLines.tagHandle_before {handle : List Char} (h : c.AtLines) (hc : c.peek ≠ '\n')
    (hx : c.tagHandle = .ok (handle, c')) :
    (c.before v).tagHandle = .ok (handle, c'.before v) ∧ c'.AtLines := by
  obtain ⟨hone, h₁⟩ := h.forward_one (v := v) hc
  have hword : ((c.before v).rest.drop 1).takeWhile isWordChar =
      (c.rest.drop 1).takeWhile isWordChar := by
    rw [← rest_forward, ← rest_forward, hone, h₁.takeWhile_before (by decide)]
  obtain ⟨hread, h₂⟩ := h₁.forward_takeWhile (v := v) (p := isWordChar) (by decide)
  rw [← hone, rest_forward, forward_forward, forward_forward] at hread
  rw [rest_forward, forward_forward] at h₂
  unfold tagHandle at hx ⊢
  simp only [hword, Nat.add_comm _ 1, hread, h₂.peek_before] at hx ⊢
  split at hx
  · rename_i hbang
    cases hx
    rw [if_pos hbang]
    obtain ⟨hthird, h₃⟩ := h₂.forward_one (v := v) (by rw [beq_iff_eq.1 hbang]; decide)
    have hlen := List.length_pos_iff.2 h₂.rest_ne_nil
    rw [length_rest_forward] at hlen
    rw [hthird, before, List.take_append_of_le_length (by omega)]
    exact ⟨rfl, h₃⟩
  · simp [fail] at hx

theorem AtLines.verbatimTag_before {flow : Bool} {text : List Char} (h : c.AtLines)
    (hc : c.peek ≠ '\n') (hc' : c.peekAt 1 ≠ '\n') (hx : c.verbatimTag flow = .ok (text, c')) :
    (c.before v).verbatimTag flow = .ok (text, c'.before v) ∧ c'.AtLines := by
  obtain ⟨hone, h₁⟩ := h.forward_one (v := v) hc
  obtain ⟨htwo, h₂⟩ := h₁.forward_one (v := v) (by rwa [Tandem.Passes.peek_forward])
  rw [← hone, forward_forward, forward_forward] at htwo
  rw [forward_forward] at h₂
  unfold verbatimTag at hx ⊢
  rw [htwo]
  split at hx
  · cases hx
  · rename_i suffix c₁ hs
    obtain ⟨hsuffix, h₃⟩ := h₂.tagSuffix_before (v := v) hs
    simp only [hsuffix, h₃.peek_before]
    split at hx
    · rename_i hclose
      cases hx
      obtain ⟨hlast, h₄⟩ := h₃.forward_one (v := v) (by rw [beq_iff_eq.1 hclose]; decide)
      rw [if_pos hclose, hlast]
      exact ⟨rfl, h₄⟩
    · simp [fail] at hx

/-- A shorthand ends on its line, with a handle of any length. -/
theorem AtLines.shorthandTag_before {flow : Bool} {handle suffix : List Char} (h : c.AtLines)
    (hc : c.peek ≠ '\n') (hx : c.shorthandTag flow = .ok (handle, suffix, c')) :
    (c.before v).shorthandTag flow = .ok (handle, suffix, c'.before v) ∧ c'.AtLines := by
  obtain ⟨hone, h₁⟩ := h.forward_one (v := v) hc
  have hlong : (c.before v).hasLongHandle = c.hasLongHandle := by
    rw [hasLongHandle, hasLongHandle, ← rest_forward, ← rest_forward, hone,
      h₁.takeWhile_before (by decide)]
  have hhandle : ∀ {handle c₁}, (if c.hasLongHandle then c.tagHandle else .ok (['!'], c.forward 1)) =
        .ok (handle, c₁) →
      (if c.hasLongHandle then (c.before v).tagHandle
        else .ok (['!'], (c.before v).forward 1)) = .ok (handle, c₁.before v) ∧
        c₁.AtLines := by
    intro handle c₁ hx
    split at hx
    · rw [if_pos ‹_›]
      exact h.tagHandle_before hc hx
    · cases hx
      rw [if_neg ‹_›, hone]
      exact ⟨rfl, h₁⟩
  unfold shorthandTag at hx ⊢
  simp only [hlong] at hx ⊢
  split at hx
  · cases hx
  · rename_i handle' c₁ hh
    obtain ⟨hh', h₂⟩ := hhandle hh
    simp only [hh']
    split at hx
    · cases hx
    · rename_i suffix' c₂ hs
      cases hx
      obtain ⟨hs', h₃⟩ := h₂.tagSuffix_before (v := v) hs
      rw [hs']
      exact ⟨rfl, h₃⟩

theorem AtLines.tagParts_before {flow : Bool} {handle suffix : List Char} (h : c.AtLines)
    (hc : c.peek ≠ '\n') (hx : c.tagParts flow = .ok (handle, suffix, c')) :
    (c.before v).tagParts flow = .ok (handle, suffix, c'.before v) ∧ c'.AtLines := by
  unfold tagParts at hx ⊢
  rw [h.peekAt_one_before hc]
  split at hx
  · rename_i hangle
    rw [if_pos hangle]
    split at hx
    · cases hx
    · rename_i hv
      cases hx
      obtain ⟨hv', h₁⟩ := h.verbatimTag_before (v := v) hc
        (by rw [beq_iff_eq.1 hangle]; decide) hv
      rw [hv']
      exact ⟨rfl, h₁⟩
  · rw [if_neg ‹_›]
    split at hx
    · cases hx
      obtain ⟨hone, h₁⟩ := h.forward_one (v := v) hc
      rw [if_pos ‹_›, hone]
      exact ⟨rfl, h₁⟩
    · rw [if_neg ‹_›]
      exact h.shorthandTag_before hc hx

/-- A tag that can be read is read in front of a marker too. -/
theorem AtLines.tag_before {flow : Bool} {t : Token} (h : c.AtLines) (hc : c.peek ≠ '\n')
    (hx : c.tag flow = .ok (t, c')) : (c.before v).tag flow = .ok (t, c'.before v) := by
  unfold tag at hx ⊢
  split at hx
  · cases hx
  · rename_i hp
    obtain ⟨hp', h₁⟩ := h.tagParts_before (v := v) hc hp
    simp only [hp', h₁.peek_before]
    split at hx
    · cases hx
      rw [if_pos ‹_›]
      rfl
    · simp [fail] at hx

/-! ## Directives -/

/-- The text of a directive ends at a line feed, whatever follows. -/
theorem directiveText_append_feed (afterBlank : Bool) (s t : List Char) :
    directiveText afterBlank (s ++ '\n' :: t) = directiveText afterBlank s := by
  induction s generalizing afterBlank with
  | nil => simp [directiveText, isLineEnd, isBreak]
  | cons x s ih => simp only [List.cons_append, directiveText, ih]

theorem AtLines.directiveText_before (h : c.AtLines) (afterBlank : Bool) :
    directiveText afterBlank (c.before v).rest = directiveText afterBlank c.rest := by
  obtain ⟨s, hs⟩ := List.getLast?_eq_some_iff.1 h
  rw [before, hs, List.append_assoc, List.singleton_append, directiveText_append_feed,
    directiveText_append_feed]

/-- A directive that can be read is read in front of a marker too. -/
theorem AtLines.directive_before {t : Token} {k : Option Comment} (h : c.AtLines)
    (hc : c.peek ≠ '\n') (hx : c.directive = .ok (t, k, c')) :
    (c.before v).directive = .ok (t, k, c'.before v) := by
  obtain ⟨hone, h₁⟩ := h.forward_one (v := v) hc
  obtain ⟨hname, h₂⟩ := h₁.forward_takeWhile (v := v) (p := isWordChar) (by decide)
  obtain ⟨hskip, h₃⟩ := h₂.skipWhile_before (v := v) (p := isBlank) rfl
  obtain ⟨hvalue, h₄⟩ := h₃.read (v := v) (isPrefix_directiveText false _)
    (Tandem.not_mem_directiveText false _)
  unfold directive at hx ⊢
  simp only [hone, h₁.takeWhile_before (p := isWordChar) (by decide), hname, h₂.peek_before, hskip,
    h₃.directiveText_before, hvalue] at hx ⊢
  split at hx
  · simp [fail] at hx
  · rw [if_neg ‹_›]
    split at hx
    · simp [fail] at hx
    · rw [if_neg ‹_›]
      split at hx
      · cases hx
      · rename_i ht
        cases hx
        simp only [h₄.lineTail_before ht]
        rfl

/-! ## Quoted scalars -/

/-- Breaks behind which some text is left do not see the marker. -/
theorem Whole.quotedBreaks_before {part : QuotedPart} (h : c.Whole)
    (hx : c.quotedBreaks = .ok part) (hne : part.cursor.rest ≠ []) :
    (c.before v).quotedBreaks = .ok ⟨part.text, part.cursor.before v⟩ := by
  induction hn : c.rest.length using Nat.strongRecOn generalizing c part with
  | ind n ih =>
  have hlines : c.AtLines := by
    refine h.atLines fun hr => hne ?_
    have hle := length_rest_quotedBreaks_le hx
    rw [hr] at hle
    exact List.length_eq_zero_iff.1 (Nat.le_zero.1 hle)
  obtain ⟨hskip, h₁⟩ := hlines.skipWhile_before (v := v) (p := isBlank) rfl
  rw [quotedBreaks_eq] at hx ⊢
  rw [hlines.atSeparator_before, hskip, h₁.whole.lineBreak?_before]
  split at hx
  · simp [fail] at hx
  · rw [if_neg ‹_›]
    cases hb : (c.skipWhile isBlank).lineBreak? with
    | none =>
      rw [hb] at hx
      cases hx
      rfl
    | some b =>
      rw [hb] at hx
      simp only at hx
      split at hx
      · cases hx
      · rename_i rest hrest
        cases hx
        have hlt := length_rest_lineBreak? hb
        have hle := c.length_rest_skipWhile_le isBlank
        simp only [Option.map_some, ih _ (by omega) (h₁.whole.lineBreak? hb) hrest hne rfl]

/-- Blanks and breaks inside quotes, if text follows them. -/
theorem AtLines.quotedGap_before {part : QuotedPart} (h : c.AtLines) (hx : c.quotedGap = .ok part)
    (hne : part.cursor.rest ≠ []) :
    (c.before v).quotedGap = .ok ⟨part.text, part.cursor.before v⟩ := by
  obtain ⟨hread, h₁⟩ := h.forward_takeWhile (v := v) (p := isBlank) rfl
  unfold quotedGap at hx ⊢
  simp only [h.takeWhile_before (p := isBlank) rfl, hread, h₁.peek_before,
    h₁.whole.lineBreak?_before] at hx ⊢
  split at hx
  · simp [fail] at hx
  · rw [if_neg ‹_›]
    cases hb : (c.forward (c.rest.takeWhile isBlank).length).lineBreak? with
    | none =>
      rw [hb] at hx
      cases hx
      rfl
    | some b =>
      rw [hb] at hx
      simp only at hx
      split at hx
      · cases hx
      · rename_i rest hrest
        cases hx
        have hbreaks := (h₁.whole.lineBreak? hb).quotedBreaks_before (v := v) hrest hne
        simp only [Option.map_some, hbreaks]

/-- An escape, if text follows it. -/
theorem AtLines.escape_before {part : QuotedPart} (h : c.AtLines) (hx : c.escape = .ok part)
    (hne : part.cursor.rest ≠ []) :
    (c.before v).escape = .ok ⟨part.text, part.cursor.before v⟩ := by
  unfold escape at hx ⊢
  simp only [h.peek_before, h.whole.lineBreak?_before] at hx ⊢
  split at hx
  · rename_i hletter
    cases hx
    have hc : c.peek ≠ '\n' := fun hn => by simp [hn, escapeLetter] at hletter
    rw [(h.forward_one hc).1]
  · split at hx
    · rename_i length hlength
      have hc : c.peek ≠ '\n' := fun hn => by simp [hn, escapeLength] at hlength
      obtain ⟨hone, h₁⟩ := h.forward_one (v := v) hc
      simp only [hone] at hx ⊢
      split at hx
      · rename_i hcode
        cases hx
        -- a line feed is no digit, so the digits stand on the line
        have hfeed : '\n' ∉ (c.forward 1).rest.take length := by
          intro hmem
          rw [Tandem.escapeCode_eq_none hmem (by decide) (by decide)] at hcode
          cases hcode
        have hlen := Tandem.length_of_escapeCode hcode
        have hread := (h₁.read (v := v) (List.take_prefix length _) hfeed).1
        rw [List.length_take] at hlen
        rw [List.length_take, hlen] at hread
        have hdigits : ((c.forward 1).before v).rest.take length =
            (c.forward 1).rest.take length :=
          List.take_append_of_le_length (by omega)
        simp only [hdigits, hcode, hread]
      · simp [fail] at hx
    · split at hx
      · rename_i hb
        rw [hb]
        exact (h.whole.lineBreak? hb).quotedBreaks_before hx hne
      · simp [fail] at hx

/-- A step inside quotes, behind which some text is left, does not see the marker. -/
theorem AtLines.quotedUnit_before {double : Bool} {part : Option QuotedPart} (h : c.AtLines)
    (hx : c.quotedUnit double = .ok part) (hne : ∀ a ∈ part, a.cursor.rest ≠ []) :
    (c.before v).quotedUnit double =
      .ok (part.map fun a => ⟨a.text, a.cursor.before v⟩) := by
  -- a gap between words, then what double quotes hold, then what single ones do
  unfold quotedUnit at hx ⊢
  simp only [h.peek_before] at hx ⊢
  split at hx
  · rw [if_pos ‹_›]
    cases hgap : c.quotedGap with
    | error e => simp [hgap, Except.map] at hx
    | ok a =>
      rw [hgap] at hx
      cases hx
      rw [h.quotedGap_before hgap (hne a rfl)]
      rfl
  · rename_i hblank
    have hc : c.peek ≠ '\n' := by
      intro hn
      rw [hn] at hblank
      exact hblank (by decide)
    obtain ⟨hone, h₁⟩ := h.forward_one (v := v) hc
    rw [if_neg hblank, h.peekAt_one_before hc]
    simp only [hone]
    split at hx
    · rw [if_pos ‹_›]
      split at hx
      · cases hx
        rw [if_pos ‹_›]
        rfl
      · rw [if_neg ‹_›]
        split at hx
        · rw [if_pos ‹_›]
          cases hescape : (c.forward 1).escape with
          | error e => simp [hescape, Except.map] at hx
          | ok a =>
            rw [hescape] at hx
            cases hx
            rw [h₁.escape_before hescape (hne a rfl)]
            rfl
        · cases hx
          rw [if_neg ‹_›]
          rfl
    · rw [if_neg ‹_›]
      split at hx
      · rw [if_pos ‹_›]
        split at hx
        · rename_i hquote
          cases hx
          obtain ⟨htwo, -⟩ := h₁.forward_one (v := v)
            (by rw [Tandem.Passes.peek_forward, beq_iff_eq.1 hquote]; decide)
          rw [← hone, forward_forward, forward_forward] at htwo
          rw [if_pos hquote, htwo]
          rfl
        · cases hx
          rw [if_neg ‹_›]
          rfl
      · cases hx
        rw [if_neg ‹_›]
        rfl

/-- A quote is not closed at the end of the text. -/
theorem rest_ne_nil_of_quotedBody {double : Bool} {body : QuotedPart}
    (hx : c.quotedBody double = .ok body) : c.rest ≠ [] := by
  intro hr
  have hunit : c.quotedUnit double = .error ⟨.unclosedQuote, c.mark⟩ := by
    simp [quotedUnit, quotedGap, peek, peekAt, hr, isBlankOrEnd, isLineEnd, fail, Except.map,
      Cursor.forward]
  rw [quotedBody_eq, hunit] at hx
  cases hx

/-- The inside of a quoted scalar does not see the marker, and the closing quote stands behind it. -/
theorem Whole.quotedBody_before {double : Bool} {body : QuotedPart} (h : c.Whole)
    (hx : c.quotedBody double = .ok body) :
    (c.before v).quotedBody double = .ok ⟨body.text, body.cursor.before v⟩ ∧
      body.cursor.AtLines ∧ body.cursor.peek ≠ '\n' := by
  induction hn : c.rest.length using Nat.strongRecOn generalizing c body with
  | ind n ih =>
  have hlines := h.atLines (rest_ne_nil_of_quotedBody hx)
  rw [quotedBody_eq] at hx ⊢
  cases hunit : c.quotedUnit double with
  | error e =>
    rw [hunit] at hx
    cases hx
  | ok part =>
    rw [hunit] at hx
    cases part with
    | none =>
      cases hx
      rw [hlines.quotedUnit_before hunit (by simp)]
      exact ⟨rfl, hlines, Tandem.peek_of_quotedUnit_none hunit⟩
    | some part =>
      simp only at hx
      split at hx
      · cases hx
      · rename_i rest hrest
        cases hx
        have hlt := length_rest_quotedUnit_lt hunit
        have hw : part.cursor.Whole := h.ahead (ahead_quotedUnit hunit)
        obtain ⟨hbody, hend⟩ := ih _ (by omega) hw hrest rfl
        rw [hlines.quotedUnit_before hunit (by
          rintro a ⟨⟩
          exact rest_ne_nil_of_quotedBody hrest)]
        refine ⟨?_, hend⟩
        simp only [Option.map_some, hbody]

/-- A quoted scalar that ends does so in front of the marker. -/
theorem AtLines.quoted_before {double : Bool} {t : Token} (h : c.AtLines) (hc : c.peek ≠ '\n')
    (hx : c.quoted double = .ok (t, c')) :
    (c.before v).quoted double = .ok (t, c'.before v) := by
  obtain ⟨hone, h₁⟩ := h.forward_one (v := v) hc
  unfold quoted at hx ⊢
  rw [hone]
  split at hx
  · cases hx
  · rename_i body hbody
    cases hx
    obtain ⟨hbody', hlines, hquote⟩ := h₁.whole.quotedBody_before (v := v) hbody
    rw [hbody']
    simp only [(hlines.forward_one (v := v) hquote).1]
    rfl

/-! ## Plain scalars -/

/-- A chunk of a plain scalar ends at a line feed, whatever follows. -/
theorem plainChunk_append_feed (flow : Bool) (s t : List Char) :
    plainChunk flow (s ++ '\n' :: t) = plainChunk flow s := by
  induction s with
  | nil => simp [plainChunk, endsPlainChunk, isBlankOrEnd, isLineEnd, isBreak]
  | cons x s ih =>
    -- a line feed behind a chunk says the same as the end of the text
    have hnext : endsPlainChunk flow x ((s ++ '\n' :: t).headD nul) =
        endsPlainChunk flow x (s.headD nul) := by
      cases s with
      | nil => simp [endsPlainChunk, isBlankOrEnd, isLineEnd, isBreak, isFlowMark]
      | cons y s => rfl
    simp only [List.cons_append, plainChunk, hnext, ih]

theorem AtLines.plainChunk_before (h : c.AtLines) (flow : Bool) :
    plainChunk flow (c.before v).rest = plainChunk flow c.rest := by
  obtain ⟨s, hs⟩ := List.getLast?_eq_some_iff.1 h
  rw [before, hs, List.append_assoc, List.singleton_append, plainChunk_append_feed,
    plainChunk_append_feed]

theorem plainBreaks_nil (hr : c.rest = []) : c.plainBreaks = (some [], c) := by
  have hskip : c.skipWhile (· == ' ') = c := by simp [skipWhile, hr, Cursor.forward]
  rw [plainBreaks_eq, hskip, lineBreak?_nil hr]

theorem atSeparator_nil (hr : c.rest = []) : c.atSeparator = false := by
  simp [atSeparator, atMarker, hr]

/-- Where the text alone ends, the marker is seen. -/
theorem atSeparator_before_nil (hr : c.rest = []) (hcol : c.column = 0) :
    (c.before v).atSeparator = true := by
  rw [atSeparator, atMarker_before_nil hr hcol, Bool.true_or]

/-- The breaks in a plain scalar are the same, but those at the end of the text come before the
marker. -/
theorem AtLines.plainBreaks_before (h : c.AtLines) :
    (c.before v).plainBreaks =
      (if c.plainBreaks.2.rest = [] then none else c.plainBreaks.1,
        c.plainBreaks.2.before v) := by
  induction hn : c.rest.length using Nat.strongRecOn generalizing c with
  | ind n ih =>
  obtain ⟨hskip, h₁⟩ := h.skipWhile_before (v := v) (p := (· == ' ')) rfl
  rw [plainBreaks_eq c, plainBreaks_eq (c.before v), hskip, h₁.whole.lineBreak?_before]
  cases hb : (c.skipWhile (· == ' ')).lineBreak? with
  | none =>
    simp only [Option.map_none, if_neg h₁.rest_ne_nil]
  | some b =>
    obtain ⟨ch, c₂⟩ := b
    have hlt := length_rest_lineBreak? hb
    have hle := c.length_rest_skipWhile_le (· == ' ')
    simp only [Option.map_some]
    rcases h₁.whole.lineBreak? hb with h₂ | ⟨hr, hcol⟩
    · rw [h₂.atSeparator_before, ih _ (by omega) h₂ rfl]
      split
      · rw [if_neg h₂.rest_ne_nil]
      · simp only
        split <;> rfl
    · rw [atSeparator_before_nil hr hcol, atSeparator_nil hr, plainBreaks_nil hr]
      simp [hr]

/-- A plain scalar does not go on behind a gap that ends at the marker, nor at the end of the text.
-/
theorem AtLines.plainGap_before (h : c.AtLines) :
    (c.before v).plainGap =
      ⟨if c.plainGap.cursor.rest = [] then none else c.plainGap.joint, c.plainGap.broken,
        c.plainGap.cursor.before v⟩ := by
  obtain ⟨hread, h₁⟩ := h.forward_takeWhile (v := v) (p := isBlank) rfl
  unfold plainGap
  simp only [h.takeWhile_before (p := isBlank) rfl, hread, h₁.whole.lineBreak?_before]
  cases hb : (c.forward (c.rest.takeWhile isBlank).length).lineBreak? with
  | none => simp only [Option.map_none, if_neg h₁.rest_ne_nil]
  | some b =>
    obtain ⟨ch, c₂⟩ := b
    simp only [Option.map_some]
    rcases h₁.whole.lineBreak? hb with h₂ | ⟨hr, hcol⟩
    · rw [h₂.atSeparator_before, h₂.plainBreaks_before]
      split
      · rw [if_neg h₂.rest_ne_nil]
      · simp only
        split <;> rfl
    · rw [atSeparator_before_nil hr hcol, atSeparator_nil hr, plainBreaks_nil hr]
      simp [hr]

/-- At the end of the text there is nothing more of a plain scalar. -/
theorem plain_nil (hr : c.rest = []) (flow : Bool) (indent : Int) :
    c.plain flow indent = ⟨[], c.mark, false, c⟩ := by
  rw [plain]
  simp [hr, plainChunk]

/-- A plain scalar does not see the marker: a line that holds it ends the scalar like the end of the
text. -/
theorem AtLines.plain_before (h : c.AtLines) (flow : Bool) (indent : Int) :
    (c.before v).plain flow indent =
      { c.plain flow indent with cursor := (c.plain flow indent).cursor.before v } := by
  -- a scalar is read chunk by chunk, and every chunk shortens the text
  induction hn : c.rest.length using Nat.strongRecOn generalizing c with
  | ind n ih =>
  obtain ⟨hread, h₁⟩ := h.read (v := v) (isPrefix_plainChunk flow c.rest)
    (Tandem.not_mem_plainChunk flow c.rest)
  have hw : (c.forward (plainChunk flow c.rest).length).plainGap.cursor.Whole :=
    h₁.whole.ahead (ahead_plainGap _)
  have hshorter := c.length_rest_plainGap_lt flow
  rw [plain, plain]
  simp only [h.plainChunk_before, hread, h₁.plainGap_before]
  by_cases hnil : plainChunk flow c.rest = []
  · simp only [hnil, dite_true]
    rfl
  · specialize hshorter hnil
    simp only [hnil, dite_false]
    generalize (c.forward (plainChunk flow c.rest).length).plainGap = gap at hw hshorter ⊢
    rcases hw with hlines | ⟨hr, -⟩
    · have hcont : (gap.cursor.before v).continuesPlain flow indent =
          gap.cursor.continuesPlain flow indent := by
        rw [continuesPlain, continuesPlain, hlines.peek_before]
        rfl
      simp only [if_neg hlines.rest_ne_nil, hcont, ih _ (by omega) hlines rfl]
      split
      · rfl
      · rfl
      · split
        · split <;> rfl
        · rfl
    · -- behind the end of the text there is no chunk, whatever the joint is
      simp only [if_pos hr, plain_nil hr]
      split
      · rfl
      · rfl
      · split <;> rfl

/-! ## Block scalars -/

theorem AtLines.blockIncrement_before {increment : Option Nat} (h : c.AtLines)
    (hx : c.blockIncrement = .ok (increment, c')) :
    (c.before v).blockIncrement = .ok (increment, c'.before v) ∧ c'.AtLines := by
  unfold blockIncrement at hx ⊢
  rw [h.peek_before]
  split at hx
  · rename_i hdigit
    have hc : c.peek ≠ '\n' := fun hn => by simp [hn] at hdigit
    obtain ⟨hone, h₁⟩ := h.forward_one (v := v) hc
    rw [if_pos hdigit]
    split at hx
    · simp [fail] at hx
    · cases hx
      rw [if_neg ‹_›, hone]
      exact ⟨rfl, h₁⟩
  · cases hx
    rw [if_neg ‹_›]
    exact ⟨rfl, h⟩

theorem AtLines.blockIndicators_before {header : BlockHeader} (h : c.AtLines)
    (hx : c.blockIndicators = .ok (header, c')) :
    (c.before v).blockIndicators = .ok (header, c'.before v) ∧ c'.AtLines := by
  unfold blockIndicators at hx ⊢
  rw [h.peek_before]
  split at hx
  · rename_i hchomping
    obtain ⟨hone, h₁⟩ := h.forward_one (v := v) (Tandem.peek_of_chompingOf hchomping)
    rw [hone]
    split at hx
    · cases hx
    · rename_i hincrement
      cases hx
      obtain ⟨hincrement', h₂⟩ := h₁.blockIncrement_before (v := v) hincrement
      rw [hincrement']
      exact ⟨rfl, h₂⟩
  · split at hx
    · cases hx
    · rename_i hincrement
      cases hx
      obtain ⟨hincrement', h₁⟩ := h.blockIncrement_before (v := v) hincrement
      rw [hincrement']
      exact ⟨rfl, h₁⟩
    · rename_i hincrement
      obtain ⟨hincrement', h₁⟩ := h.blockIncrement_before (v := v) hincrement
      simp only [hincrement', h₁.peek_before]
      split at hx
      · rename_i hchomping
        cases hx
        obtain ⟨hone, h₂⟩ := h₁.forward_one (v := v) (Tandem.peek_of_chompingOf hchomping)
        rw [hone]
        exact ⟨rfl, h₂⟩
      · cases hx
        exact ⟨rfl, h₁⟩

/-- A header ends with its line. -/
theorem AtLines.blockHeader_before {header : BlockHeader} {k : Option Comment} (h : c.AtLines)
    (hx : c.blockHeader = .ok (header, k, c')) :
    (c.before v).blockHeader = .ok (header, k, c'.before v) := by
  unfold blockHeader at hx ⊢
  split at hx
  · cases hx
  · rename_i hindicators
    obtain ⟨hindicators', h₁⟩ := h.blockIndicators_before (v := v) hindicators
    simp only [hindicators', h₁.peek_before]
    split at hx
    · rw [if_pos ‹_›]
      split at hx
      · cases hx
      · rename_i htail
        cases hx
        rw [h₁.lineTail_before htail]
    · simp [fail] at hx

/-- Empty lines in front of the first line of text end at the marker at the latest. -/
theorem Whole.leadingBreaks_before (h : c.Whole) (deepest : Nat) (stop : Mark) :
    (c.before v).leadingBreaks deepest stop =
      ({ (c.leadingBreaks deepest stop).1 with
          cursor := (c.leadingBreaks deepest stop).1.cursor.before v },
        (c.leadingBreaks deepest stop).2) := by
  induction hn : c.rest.length using Nat.strongRecOn generalizing c deepest stop with
  | ind n ih =>
  obtain ⟨hskip, hw⟩ := h.skipWhile_before (v := v) (p := (· == ' ')) rfl rfl
  have hspace := h.test_before (v := v) (· == ' ') (by decide)
  rw [leadingBreaks_eq c, leadingBreaks_eq (c.before v)]
  simp only [hspace, hskip, hw.lineBreak?_before]
  cases hb : (c.skipWhile (· == ' ')).lineBreak? with
  | none => rfl
  | some b =>
    have hlt := length_rest_lineBreak? hb
    have hle := c.length_rest_skipWhile_le (· == ' ')
    simp only [Option.map_some]
    rw [ih _ (by omega) (hw.lineBreak? hb) _ _ rfl]
    rfl

theorem Whole.skipIndent_before (h : c.Whole) (indent : Nat) :
    (c.before v).skipIndent indent = (c.skipIndent indent).before v ∧
      (c.skipIndent indent).Whole := by
  have hle := (List.takeWhile_prefix (l := c.rest) (· == ' ')).length_le
  rw [skipIndent, skipIndent, h.takeWhile_before rfl rfl]
  exact ⟨h.forward_before (by omega), h.forward _⟩

theorem Whole.indentedBreaks_before (h : c.Whole) (indent : Nat) (stop : Mark) :
    (c.before v).indentedBreaks indent stop =
      { c.indentedBreaks indent stop with
        cursor := (c.indentedBreaks indent stop).cursor.before v } := by
  induction hn : c.rest.length using Nat.strongRecOn generalizing c stop with
  | ind n ih =>
  obtain ⟨hskip, hw⟩ := h.skipIndent_before (v := v) indent
  rw [indentedBreaks_eq c, indentedBreaks_eq (c.before v), hskip, hw.lineBreak?_before]
  cases hb : (c.skipIndent indent).lineBreak? with
  | none => rfl
  | some b =>
    have hlt := length_rest_lineBreak? hb
    have hle : (c.skipIndent indent).rest.length ≤ c.rest.length := c.length_rest_forward_le _
    simp only [Option.map_some]
    rw [ih _ (by omega) (hw.lineBreak? hb) _ rfl]
    rfl

/-- The marker is not indented. -/
theorem Whole.atBlockLine_before {indent : Nat} (h : c.Whole) (hi : 0 < indent) :
    (c.before v).atBlockLine indent = c.atBlockLine indent := by
  rcases h with h | ⟨-, hcol⟩
  · rw [atBlockLine, atBlockLine, h.peek_before]
    rfl
  · have hcol' : (c.before v).column = 0 := hcol
    have hne : (0 == indent) = false := beq_eq_false_iff_ne.2 (Nat.ne_of_lt hi)
    rw [atBlockLine, atBlockLine, hcol, hcol', hne, Bool.false_and, Bool.false_and]

/-- A line of text is a whole line. -/
theorem atLines_of_atBlockLine {indent : Nat} (h : c.Whole) (hb : c.atBlockLine indent = true) :
    c.AtLines := by
  refine h.atLines (rest_ne_nil_of_peek_ne_nul ?_)
  simp only [atBlockLine, Bool.and_eq_true, bne_iff_ne] at hb
  exact hb.2

/-- The lines of text are indented, which the marker is not. -/
theorem AtLines.blockLines_before {indent : Nat} (h : c.AtLines) (folded : Bool)
    (hi : 0 < indent) :
    (c.before v).blockLines folded indent =
      { c.blockLines folded indent with
        cursor := (c.blockLines folded indent).cursor.before v } := by
  induction hn : c.rest.length using Nat.strongRecOn generalizing c with
  | ind n ih =>
  obtain ⟨hskip, h₁⟩ := h.skipLine_before (v := v)
  rw [blockLines_eq c, blockLines_eq (c.before v), hskip, h₁.whole.lineBreak?_before,
    h.takeWhile_before (by decide), h.peek_before]
  cases hb : c.skipLine.lineBreak? with
  | none => rfl
  | some b =>
    obtain ⟨ch, c₂⟩ := b
    have hlt := length_rest_lineBreak? hb
    have hle : c.skipLine.rest.length ≤ c.rest.length := c.length_rest_skipWhile_le _
    have hle' := c₂.length_rest_indentedBreaks_le indent c₂.mark
    have h₂ := h₁.whole.lineBreak? hb
    have hw : (c₂.indentedBreaks indent c₂.mark).cursor.Whole :=
      h₂.ahead (c₂.between_indentedBreaks indent).ahead
    simp only [Option.map_some]
    rw [show (c₂.before v).mark = c₂.mark from rfl, h₂.indentedBreaks_before]
    simp only [hw.atBlockLine_before hi]
    split
    · rename_i hline
      have hlines := atLines_of_atBlockLine hw hline
      rw [ih _ (by omega) hlines rfl, hlines.peek_before]
    · rfl

theorem blockBody_before {lines : EmptyLines} {indent : Nat} (h : lines.cursor.Whole)
    (folded : Bool) (hi : 0 < indent) :
    blockBody { lines with cursor := lines.cursor.before v } folded indent =
      { blockBody lines folded indent with
        cursor := (blockBody lines folded indent).cursor.before v } := by
  unfold blockBody
  simp only [h.atBlockLine_before hi]
  split
  · rename_i hline
    rw [(atLines_of_atBlockLine h hline).blockLines_before folded hi]
  · rfl

/-- The indentation that a header asks for is not zero. -/
theorem pos_of_blockIncrement {increment : Nat}
    (hx : c.blockIncrement = .ok (some increment, c')) : 0 < increment := by
  unfold blockIncrement at hx
  split at hx
  · rename_i hdigit
    split at hx
    · simp [fail] at hx
    · rename_i hzero
      cases hx
      have hle : '0'.toNat ≤ c.peek.toNat := by
        simp only [Char.isDigit, Bool.and_eq_true, decide_eq_true_eq] at hdigit
        exact hdigit.1
      have hne : c.peek.toNat ≠ '0'.toNat := fun heq => hzero (beq_iff_eq.2 (Char.toNat_inj.1 heq))
      omega
  · cases hx

/-- An indentation indicator is not zero. -/
theorem pos_of_blockHeader {header : BlockHeader} {k : Option Comment} {increment : Nat}
    (hx : c.blockHeader = .ok (header, k, c')) (hi : header.increment = some increment) :
    0 < increment := by
  have hindicators : ∀ {header c₁}, c.blockIndicators = .ok (header, c₁) →
      header.increment = some increment → 0 < increment := by
    intro header c₁ hx hi
    unfold blockIndicators at hx
    split at hx
    · split at hx
      · cases hx
      · rename_i hincrement
        cases hx
        subst hi
        exact pos_of_blockIncrement hincrement
    · split at hx
      · cases hx
      · cases hx
        cases hi
      · rename_i hincrement
        split at hx <;> cases hx <;> cases hi <;> exact pos_of_blockIncrement hincrement
  unfold blockHeader at hx
  split at hx
  · cases hx
  · rename_i hheader
    split at hx
    · split at hx
      · cases hx
      · cases hx
        exact hindicators hheader hi
    · simp [fail] at hx

/-- A block scalar that can be read is read in front of a marker too. -/
theorem AtLines.block_before {folded : Bool} {parent : Int} {t : Token} {k : Option Comment}
    (h : c.AtLines) (hc : c.peek ≠ '\n') (hx : c.block folded parent = .ok (t, k, c')) :
    (c.before v).block folded parent = .ok (t, k, c'.before v) := by
  obtain ⟨hone, h₁⟩ := h.forward_one (v := v) hc
  unfold block at hx ⊢
  rw [hone]
  split at hx
  · cases hx
  · rename_i header k' c₁ hheader
    have h₂ : c₁.Whole := h₁.whole.ahead (notes_blockHeader hheader).laid.ahead
    have hmark : (c₁.before v).mark = c₁.mark := rfl
    cases hx
    rw [h₁.blockHeader_before hheader]
    simp only [hmark, h₂.leadingBreaks_before, h₂.indentedBreaks_before]
    cases hincrement : header.increment with
    | none =>
      have hw : (c₁.leadingBreaks 0 c₁.mark).1.cursor.Whole :=
        h₂.ahead (c₁.between_leadingBreaks 0).ahead
      simp only [blockBody_before hw folded (show 0 < max (max (parent + 1).toNat 1)
        (c₁.leadingBreaks 0 c₁.mark).2 by omega)]
      rfl
    | some increment =>
      have hpos := pos_of_blockHeader hheader hincrement
      have hindent : 0 < max (parent + 1).toNat 1 + increment - 1 := by omega
      have hw : (c₁.indentedBreaks (max (parent + 1).toNat 1 + increment - 1) c₁.mark).cursor.Whole :=
        h₂.ahead (c₁.between_indentedBreaks _).ahead
      simp only [blockBody_before hw folded hindent]
      rfl

end Cursor

end YamlLinter
