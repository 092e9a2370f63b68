import YamlLinter.Proofs.Documents.Lexeme
import YamlLinter.Proofs.Nesting
import YamlLinter.Proofs.Tandem.Scan

/-!
# Scans in front of a document marker

A scan of whole lines goes the same way when a document marker follows them, up to the fetch that
would end the stream. That fetch reads the marker instead, which closes all block collections too. If
no flow collection is open, it leaves nothing behind that the next document could see.

## Contents

* `ScanState.before`: the state when a document marker and more text follow;
* keys, indents and the queue in front of the marker;
* `fetchLead_before`, `fetch_before`: a fetch in front of the marker;
* `fetch_marker`: the fetch of the marker in place of the end of the stream;
* `run_before`, `Run.lastFetch`, `Run.giveAll`: runs up to the marker and behind it;
* `Closing`, `exists_closing`: the state in which the stream would end;
* `run_marker`: a run that has given the marker.
-/

namespace YamlLinter

open Text

namespace ScanState

variable {s s' s₁ : ScanState} {text v : List Char} {out : List Token} {n : Nat}

/-- The state when a line with a document marker, and `v` behind it, follow the text. -/
def before (s : ScanState) (v : List Char) : ScanState := { s with cursor := s.cursor.before v }

/-! ## Keys, indents and the queue

None of these looks at the text. -/

/-- Keys are dropped alike. -/
theorem removeKey_before (s : ScanState) (v : List Char) :
    (s.before v).removeKey = s.removeKey.map (·.before v) := by
  have hcurrent : (s.before v).currentKey? = s.currentKey? := rfl
  have hforget : (s.before v).forgetKey = s.forgetKey.before v := rfl
  unfold removeKey
  rw [hcurrent, hforget]
  cases s.currentKey? with
  | none => rfl
  | some k => cases hk : k.required <;> simp [hk, Except.map]

/-- Keys are saved alike. -/
theorem saveKey_before (s : ScanState) (v : List Char) :
    (s.before v).saveKey = s.saveKey.map (·.before v) := by
  have hallow : (s.before v).allowKey = s.allowKey := rfl
  unfold saveKey
  rw [hallow, removeKey_before]
  split
  · cases s.removeKey <;> rfl
  · rfl

/-- Keys that have ended are dropped alike. -/
theorem dropStaleKeys_before (s : ScanState) (v : List Char) :
    (s.before v).dropStaleKeys = s.dropStaleKeys.map (·.before v) := by
  have hfind : (s.before v).keys.find? (fun k => (s.before v).staleKey k && k.required) =
      s.keys.find? fun k => s.staleKey k && k.required := rfl
  unfold dropStaleKeys
  rw [hfind]
  cases s.keys.find? fun k => s.staleKey k && k.required <;> rfl

/-- Both scanners ask for more at the same time. -/
theorem needsMore_before (s : ScanState) (v : List Char) :
    (s.before v).needsMore = s.needsMore.map fun b => (b.1, b.2.before v) := by
  have hdone : (s.before v).done = s.done := rfl
  have hqueue : (s.before v).queue = s.queue := rfl
  unfold needsMore
  rw [hdone, hqueue, dropStaleKeys_before]
  split
  · rfl
  · split
    · rfl
    · cases s.dropStaleKeys <;> rfl

theorem unwind_before (s : ScanState) (v : List Char) (column : Int) :
    (s.before v).unwind column = (s.unwind column).before v := by
  have hflow : (s.before v).inFlow = s.inFlow := rfl
  unfold unwind
  rw [hflow]
  split <;> rfl

theorem openBlock_before (s : ScanState) (v : List Char) (kind : TokenKind) :
    (s.before v).openBlock kind = (s.openBlock kind).before v := by
  have hnests : (s.before v).nests (s.before v).cursor.column = s.nests s.cursor.column := rfl
  unfold openBlock
  rw [hnests]
  split <;> rfl

theorem openBlockOr_before (s : ScanState) (v : List Char) (kind : TokenKind)
    (cause : ScanError.Cause) :
    (s.before v).openBlockOr kind cause = (s.openBlockOr kind cause).map (·.before v) := by
  have hflow : (s.before v).inFlow = s.inFlow := rfl
  have hallow : (s.before v).allowKey = s.allowKey := rfl
  unfold openBlockOr
  rw [hflow, hallow, openBlock_before]
  split
  · rfl
  · split <;> rfl

/-- A key gets its tokens alike. -/
theorem insertKey_before (s : ScanState) (v : List Char) (k : SimpleKey) :
    (s.before v).insertKey k = (s.insertKey k).before v := by
  have hflow : (s.before v).inFlow = s.inFlow := rfl
  have hnests : (s.before v).nests k.mark.column = s.nests k.mark.column := rfl
  unfold insertKey
  simp only [hflow, hnests]
  split <;> rfl

/-- A mark within the text is passed alike. -/
theorem pushMark_before (h : s.cursor.Whole) (kind : TokenKind) (hn : n ≤ s.cursor.rest.length) :
    (s.before v).pushMark kind n = (s.pushMark kind n).before v := by
  have hread : (s.before v).cursor.forward n = (s.cursor.forward n).before v := h.forward_before hn
  unfold pushMark
  rw [hread]
  rfl

/-! ## Fetching in front of the marker -/

/-- The gap in front of a token ends at the marker at the latest. -/
theorem skipGap_before (h : s.cursor.Whole) (v : List Char) :
    (s.before v).skipGap = s.skipGap.before v := by
  have hmark : (s.before v).cursor.skipByteOrderMark = s.cursor.skipByteOrderMark.before v := by
    have htest := h.test_before (v := v) (· == '\ufeff') (by decide)
    have hpos : (s.before v).cursor.pos = s.cursor.pos := rfl
    unfold Cursor.skipByteOrderMark
    rw [hpos]
    show (if s.cursor.pos == 0 && (s.cursor.before v).peek == '\ufeff' then _ else _) = _
    rw [htest]
    split
    · rename_i hbom
      have hne : s.cursor.rest ≠ [] := by
        refine Cursor.rest_ne_nil_of_peek_ne_nul ?_
        rw [beq_iff_eq.1 (Bool.and_eq_true_iff.1 hbom).2]
        decide
      exact h.forward_before (List.length_pos_iff.2 hne)
    · rfl
  have hw : s.cursor.skipByteOrderMark.Whole := h.ahead (Cursor.ahead_skipByteOrderMark _)
  have hgap := hw.gap_before (v := v) s.inFlow s.allowKey
  unfold skipGap
  rw [hmark]
  show ({ s.before v with
    cursor := ((s.cursor.skipByteOrderMark.before v).gap s.inFlow s.allowKey).cursor
    allowKey := ((s.cursor.skipByteOrderMark.before v).gap s.inFlow s.allowKey).allowKey
    comments := s.comments ++
      ((s.cursor.skipByteOrderMark.before v).gap s.inFlow s.allowKey).comments } : ScanState) = _
  rw [hgap]
  rfl

/-- Both scanners are made ready for a lexeme alike. -/
theorem readied_before (h : s.cursor.Whole) (hr : Readied s s₁) :
    Readied (s.before v) (s₁.before v) := by
  constructor
  · rw [skipGap_before h]
    exact hr.ended
  · rw [skipGap_before h, hr.eq, ← unwind_before]
    rfl

/-- On a line of the text, both scanners see the same lead. -/
theorem lead_before (h : s.cursor.AtLines) (hc : s.cursor.peek ≠ '\n') :
    (s.before v).lead = s.lead := by
  have hend : (s.before v).cursor.atEnd = s.cursor.atEnd := by
    have hne : s.cursor.rest.isEmpty = false := by simpa using h.rest_ne_nil
    rw [Cursor.atEnd, Cursor.atEnd, hne]
    simp [before, Cursor.before]
  have hpeek : (s.before v).cursor.peek = s.cursor.peek := h.peek_before
  have hnext : (s.before v).cursor.peekAt 1 = s.cursor.peekAt 1 := h.peekAt_one_before hc
  have hstart : (s.before v).cursor.atMarker '-' = s.cursor.atMarker '-' :=
    h.atMarker_before (by decide)
  have hstop : (s.before v).cursor.atMarker '.' = s.cursor.atMarker '.' :=
    h.atMarker_before (by decide)
  have hcolumn : (s.before v).cursor.column = s.cursor.column := rfl
  have hflow : (s.before v).inFlow = s.inFlow := rfl
  unfold lead
  simp only [hend, hpeek, hnext, hstart, hstop, hcolumn, hflow]

theorem cursor_of_removeKey (h : s.removeKey = .ok s') : s'.cursor = s.cursor := by
  rw [removeKey_ok h]
  rfl

theorem cursor_of_saveKey (h : s.saveKey = .ok s') : s'.cursor = s.cursor := by
  cases saveKey_ok h <;> rfl

/-- One character is read as without what follows the text. -/
theorem pushOne_before {t : ScanState} (ht : t.cursor = s.cursor) (h : s.cursor.AtLines)
    (kind : TokenKind) : (t.before v).pushMark kind 1 = (t.pushMark kind 1).before v := by
  rw [← ht] at h
  exact pushMark_before h.whole kind (List.length_pos_iff.2 h.rest_ne_nil)

/-- A directive that can be fetched is fetched in front of a marker too. -/
theorem fetchDirective_before (h : s.cursor.AtLines) (hc : s.cursor.peek ≠ '\n')
    (hx : s.fetchDirective = .ok s') : (s.before v).fetchDirective = .ok (s'.before v) := by
  unfold fetchDirective at hx ⊢
  rw [unwind_before, removeKey_before]
  cases hr : (s.unwind (-1)).removeKey with
  | error e =>
    rw [hr] at hx
    cases hx
  | ok s₁ =>
    have hcursor : s₁.cursor = s.cursor := (cursor_of_removeKey hr).trans (unwind_cursor s (-1))
    rw [hr] at hx
    simp only [hcursor] at hx
    split at hx
    · cases hx
    · rename_i t k c hd
      cases hx
      have hd' : (s₁.before v).cursor.directive = .ok (t, k, c.before v) := by
        show (s₁.cursor.before v).directive = _
        rw [hcursor]
        exact h.directive_before hc hd
      simp only [Except.map, hd']
      rfl

/-- A marker within the text is fetched alike. -/
theorem fetchMarker_before {ch : Char} (h : s.cursor.AtLines) (hm : s.cursor.atMarker ch = true)
    (kind : TokenKind) :
    (s.before v).fetchMarker kind = (s.fetchMarker kind).map (·.before v) := by
  have hlen : 3 ≤ s.cursor.rest.length := by
    simp only [Cursor.atMarker, Bool.and_eq_true, beq_iff_eq] at hm
    have := congrArg List.length hm.1.2
    simp only [List.length_take, List.length_cons, List.length_nil] at this
    omega
  unfold fetchMarker
  rw [unwind_before, removeKey_before]
  cases hr : (s.unwind (-1)).removeKey with
  | error e => rfl
  | ok s₁ =>
    have hcursor : s₁.cursor = s.cursor := (cursor_of_removeKey hr).trans (unwind_cursor s (-1))
    rw [← hcursor] at h hlen
    exact congrArg Except.ok (pushMark_before (s := { s₁ with allowKey := false }) h.whole kind hlen)

theorem fetchFlowStart_before (h : s.cursor.AtLines) (kind : TokenKind) :
    (s.before v).fetchFlowStart kind = (s.fetchFlowStart kind).map (·.before v) := by
  unfold fetchFlowStart
  rw [saveKey_before]
  cases hs : s.saveKey with
  | error e => rfl
  | ok s₁ =>
    have hcursor := cursor_of_saveKey hs
    exact congrArg Except.ok (pushOne_before
      (t := { s₁ with flowLevel := s₁.flowLevel + 1, allowKey := true }) hcursor h kind)

theorem fetchFlowEnd_before (h : s.cursor.AtLines) (kind : TokenKind) :
    (s.before v).fetchFlowEnd kind = (s.fetchFlowEnd kind).map (·.before v) := by
  unfold fetchFlowEnd
  rw [removeKey_before]
  cases hr : s.removeKey with
  | error e => rfl
  | ok s₁ =>
    have hcursor := cursor_of_removeKey hr
    exact congrArg Except.ok (pushOne_before
      (t := { s₁ with flowLevel := s₁.flowLevel - 1, allowKey := false }) hcursor h kind)

theorem fetchFlowEntry_before (h : s.cursor.AtLines) :
    (s.before v).fetchFlowEntry = s.fetchFlowEntry.map (·.before v) := by
  unfold fetchFlowEntry
  rw [removeKey_before]
  cases hr : s.removeKey with
  | error e => rfl
  | ok s₁ =>
    have hcursor := cursor_of_removeKey hr
    exact congrArg Except.ok (pushOne_before (t := { s₁ with allowKey := true }) hcursor h _)

theorem fetchBlockEntry_before (h : s.cursor.AtLines) :
    (s.before v).fetchBlockEntry = s.fetchBlockEntry.map (·.before v) := by
  unfold fetchBlockEntry
  rw [openBlockOr_before]
  cases ho : s.openBlockOr .blockSequenceStart .misplacedEntry with
  | error e => rfl
  | ok s₁ =>
    simp only [Except.map, removeKey_before]
    cases hr : s₁.removeKey with
    | error e => rfl
    | ok s₂ =>
      have hcursor := (cursor_of_removeKey hr).trans (opened_cursor (openBlockOr_ok ho))
      exact congrArg Except.ok (pushOne_before (t := { s₂ with allowKey := true }) hcursor h _)

theorem fetchKey_before (h : s.cursor.AtLines) :
    (s.before v).fetchKey = s.fetchKey.map (·.before v) := by
  unfold fetchKey
  rw [openBlockOr_before]
  cases ho : s.openBlockOr .blockMappingStart .misplacedKey with
  | error e => rfl
  | ok s₁ =>
    simp only [Except.map, removeKey_before]
    cases hr : s₁.removeKey with
    | error e => rfl
    | ok s₂ =>
      have hcursor := (cursor_of_removeKey hr).trans (opened_cursor (openBlockOr_ok ho))
      exact congrArg Except.ok (pushOne_before (t := { s₂ with allowKey := !s₂.inFlow }) hcursor h _)

/-- A `:` is fetched alike, with or without a key in front of it. -/
theorem fetchValue_before (h : s.cursor.AtLines) :
    (s.before v).fetchValue = s.fetchValue.map (·.before v) := by
  have hcurrent : (s.before v).currentKey? = s.currentKey? := rfl
  have hforget : (s.before v).forgetKey = s.forgetKey.before v := rfl
  unfold fetchValue
  rw [hcurrent, hforget, openBlockOr_before]
  cases s.currentKey? with
  | some k =>
    have hcursor : (s.forgetKey.insertKey k).cursor = s.cursor := insertKey_cursor _ _
    simp only [insertKey_before]
    exact congrArg Except.ok
      (pushOne_before (t := { s.forgetKey.insertKey k with allowKey := false }) hcursor h _)
  | none =>
    cases ho : s.openBlockOr .blockMappingStart .misplacedValue with
    | error e => rfl
    | ok s₁ =>
      have hcursor : s₁.cursor = s.cursor := opened_cursor (openBlockOr_ok ho)
      exact congrArg Except.ok
        (pushOne_before (t := { s₁.forgetKey with allowKey := !s₁.inFlow }) hcursor h _)

/-- A lexeme that can be a key is fetched alike if it is read alike. -/
theorem fetchKeyable_before {f : Cursor → Except ScanError (Token × Cursor)}
    (hx : s.fetchKeyable f = .ok s')
    (hread : ∀ {t c}, f s.cursor = .ok (t, c) → f (s.cursor.before v) = .ok (t, c.before v)) :
    (s.before v).fetchKeyable f = .ok (s'.before v) := by
  unfold fetchKeyable at hx ⊢
  rw [saveKey_before]
  cases hs : s.saveKey with
  | error e =>
    rw [hs] at hx
    cases hx
  | ok s₁ =>
    have hcursor := cursor_of_saveKey hs
    rw [hs] at hx
    simp only [hcursor] at hx
    split at hx
    · cases hx
    · rename_i t c hr
      cases hx
      have hr' : f (s₁.before v).cursor = .ok (t, c.before v) := by
        show f (s₁.cursor.before v) = _
        rw [hcursor]
        exact hread hr
      simp only [Except.map, hr']
      rfl

/-- A block scalar that can be fetched is fetched in front of a marker too. -/
theorem fetchBlock_before {folded : Bool} (h : s.cursor.AtLines) (hc : s.cursor.peek ≠ '\n')
    (hx : s.fetchBlock folded = .ok s') : (s.before v).fetchBlock folded = .ok (s'.before v) := by
  unfold fetchBlock at hx ⊢
  rw [removeKey_before]
  cases hr : s.removeKey with
  | error e =>
    rw [hr] at hx
    cases hx
  | ok s₁ =>
    have hcursor := cursor_of_removeKey hr
    rw [hr] at hx
    simp only [hcursor] at hx
    split at hx
    · cases hx
    · rename_i t k c hb
      cases hx
      have hb' : (s₁.before v).cursor.block folded (s₁.before v).indent = .ok (t, k, c.before v) := by
        show (s₁.cursor.before v).block folded s₁.indent = _
        rw [hcursor]
        exact h.block_before hc hb
      simp only [Except.map, hb']
      rfl

/-- A plain scalar is fetched alike. -/
theorem fetchPlain_before (h : s.cursor.AtLines) :
    (s.before v).fetchPlain = s.fetchPlain.map (·.before v) := by
  unfold fetchPlain
  rw [saveKey_before]
  cases hs : s.saveKey with
  | error e => rfl
  | ok s₁ =>
    rw [← cursor_of_saveKey hs] at h
    have hplain : (s₁.before v).cursor.plain (s₁.before v).inFlow (s₁.before v).indent =
        { s₁.cursor.plain s₁.inFlow s₁.indent with
          cursor := (s₁.cursor.plain s₁.inFlow s₁.indent).cursor.before v } :=
      h.plain_before s₁.inFlow s₁.indent
    simp only [Except.map, hplain]
    rfl

theorem ok_of_map {x y : Except ScanError ScanState} (hy : y = x.map (·.before v))
    (hx : x = .ok s') : y = .ok (s'.before v) := by
  rw [hy, hx]
  rfl

/-- A lexeme in front of the marker is read as without it. -/
theorem fetchLead_before {lead : Lead} (h : s.cursor.AtLines) (hc : s.cursor.peek ≠ '\n')
    (hfits : s.Fits lead) (hx : s.fetchLead lead = .ok s') :
    (s.before v).fetchLead lead = .ok (s'.before v) := by
  cases lead with
  | streamEnd => exact absurd hfits h.rest_ne_nil
  | directive => exact fetchDirective_before h hc hx
  | documentStart => exact ok_of_map (fetchMarker_before h hfits.2 _) hx
  | documentEnd => exact ok_of_map (fetchMarker_before h hfits.2 _) hx
  | flowStart kind => exact ok_of_map (fetchFlowStart_before h kind) hx
  | flowEnd kind => exact ok_of_map (fetchFlowEnd_before h kind) hx
  | flowEntry => exact ok_of_map (fetchFlowEntry_before h) hx
  | blockEntry => exact ok_of_map (fetchBlockEntry_before h) hx
  | key => exact ok_of_map (fetchKey_before h) hx
  | value => exact ok_of_map (fetchValue_before h) hx
  | aliasRef => exact fetchKeyable_before hx (h.name_before hc)
  | anchor => exact fetchKeyable_before hx (h.name_before hc)
  | tag => exact fetchKeyable_before (f := (·.tag s.inFlow)) hx (h.tag_before hc)
  | block folded => exact fetchBlock_before h hc hx
  | quoted double =>
    exact fetchKeyable_before (f := (·.quoted double)) hx (h.quoted_before hc)
  | plain => exact ok_of_map (fetchPlain_before h) hx
  | stray found => cases hx

/-- Behind the last line the text alone ends. -/
theorem lead_nil (hr : s.cursor.rest = []) : s.lead = .streamEnd := by
  simp [lead, Cursor.atEnd, hr]

/-- A fetch that does not end the stream is the same in front of the marker. -/
theorem fetch_before (h : s.cursor.Whole) (hx : s.fetch = (none, s')) (hd : s'.done = false) :
    (s.before v).fetch = (none, s'.before v) := by
  obtain ⟨s₁, hr, hf⟩ := fetch_lead hx
  have hne : s₁.cursor.rest ≠ [] := by
    intro hnil
    rw [lead_nil hnil] at hf
    rw [(fetchStreamEnd_ok hf).2] at hd
    cases hd
  have hlines : s₁.cursor.AtLines := by
    refine Cursor.Whole.atLines ?_ hne
    rw [hr.cursor]
    exact h.ahead s.ahead_skipGap
  have hc : s₁.cursor.peek ≠ '\n' := by
    rw [hr.cursor]
    exact Tandem.InStep.peek_gap _ _ _
  refine fetch_of_readied (readied_before h hr) ?_
  rw [lead_before hlines hc]
  exact fetchLead_before hlines hc (fits_lead s₁) hf

/-! ## The marker -/

/-- A scanner at `c`, outside of all collections, that has given all tokens it has read. -/
def fresh (c : Cursor) (allowKey : Bool) (taken : Nat) (comments : List Comment) : ScanState :=
  { cursor := c
    done := false
    failed := false
    flowLevel := 0
    queue := []
    taken
    indent := -1
    indents := []
    allowKey
    keys := []
    comments }

/-- There the longer text has its marker. -/
theorem lead_marker (hr : s.cursor.rest = []) (hcol : s.cursor.column = 0) :
    (s.before v).lead = .documentStart := by
  have hmarker : (s.before v).cursor.atMarker '-' = true := Cursor.atMarker_before_nil hr hcol
  have hpeek : (s.before v).cursor.peek = '-' := by
    simp [before, Cursor.before, Cursor.peek, Cursor.peekAt, hr]
  have hend : (s.before v).cursor.atEnd = false := by
    simp [before, Cursor.before, Cursor.atEnd]
  simp [lead, hend, hpeek, hmarker]

/-- Only the end of the stream stops a scan. -/
theorem rest_of_done (hd : s.done = false) (hx : s.fetchLead s.lead = .ok s')
    (hd' : s'.done = true) : s.cursor.rest = [] := by
  cases fetched_of_fetchLead hx with
  | streamEnd hr => exact hr
  | flowStart _ hs => cases hs <;> simp [forgetKey, pushMark, hd] at hd'
  | entry _ _ ho => cases ho <;> simp [forgetKey, pushMark, hd] at hd'
  | keyable hs => cases hs <;> simp [forgetKey, hd] at hd'
  | _ => simp [forgetKey, pushMark, hd] at hd'

/-- The fetch that would end the stream reads the marker instead. -/
theorem fetch_marker (h : s.cursor.Whole) (hd : s.done = false) (hx : s.fetch = (none, s'))
    (hd' : s'.done = true) :
    ∃ s₁ : ScanState, Readied s s₁ ∧ s₁.cursor.rest = [] ∧ s₁.cursor.column = 0 ∧
      s' = { s₁.unwind (-1) with
        allowKey := false
        keys := []
        queue := (s₁.unwind (-1)).queue ++ [.empty .streamEnd s₁.cursor.mark]
        done := true } ∧
      ∀ v, (s.before v).fetch =
        (none, { (s₁.unwind (-1)).forgetKey.before v with allowKey := false }.pushMark
          .documentStart 3) := by
  obtain ⟨s₁, hr, hf⟩ := fetch_lead hx
  have hrest := rest_of_done (hr.done.trans hd) hf hd'
  have hcol : s₁.cursor.column = 0 := by
    have hw : s₁.cursor.Whole := by
      rw [hr.cursor]
      exact h.ahead s.ahead_skipGap
    rcases hw with hlines | ⟨-, hcol⟩
    · exact absurd hrest hlines.rest_ne_nil
    · exact hcol
  rw [lead_nil hrest] at hf
  obtain ⟨hremove, hs'⟩ := fetchStreamEnd_ok hf
  refine ⟨s₁, hr, hrest, hcol, hs', fun v => ?_⟩
  refine fetch_of_readied (readied_before h hr) ?_
  rw [lead_marker hrest hcol]
  show (s₁.before v).fetchMarker .documentStart = _
  rw [fetchMarker, unwind_before, removeKey_before, hremove]
  rfl

/-! ## Runs -/

/-- A run that has not come to the end of the stream is one in front of the marker, too. -/
theorem run_before (hw : (Cursor.ofText text).Whole) (h : Run text out s) (hd : s.done = false) :
    Run (text ++ '-' :: '-' :: '-' :: '\n' :: v) out (s.before v) := by
  induction h with
  | start => exact .start
  | @fetch out s s₁ s' hrun hn hf ih =>
    have hneeds := needsMore_ok hn
    have hdone := hneeds.not_done rfl
    have hmore : (s.before v).needsMore = .ok (true, s₁.before v) := by
      rw [needsMore_before, hn]
      rfl
    obtain ⟨keys, -, rfl⟩ := hneeds.eq_keys
    have hcursor : s.cursor.Whole := hw.ahead (placed_run hrun).tokens.ahead
    exact (ih hdone).fetch hmore (fetch_before (s := { s with keys }) hcursor hf hd)
  | @give out queue t s s₁ hrun hn hq ih =>
    have hmore : (s.before v).needsMore = .ok (false, s₁.before v) := by
      rw [needsMore_before, hn]
      rfl
    obtain ⟨keys, -, rfl⟩ := (needsMore_ok hn).eq_keys
    exact (ih hd).give hmore hq

/-- A run to the end of the stream has one fetch that comes to it, and then only gives tokens. -/
theorem Run.lastFetch (h : Run text out s) (hd : s.done = true) :
    ∃ out₀ s₀ s₁ s', Run text out₀ s₀ ∧ s₀.needsMore = .ok (true, s₁) ∧ s₁.fetch = (none, s') ∧
      s'.done = true ∧ out ++ s.queue = out₀ ++ s'.queue ∧ s.comments = s'.comments := by
  induction h with
  | start => cases hd
  | @fetch out s s₁ s' hrun hn hf ih => exact ⟨out, s, s₁, s', hrun, hn, hf, hd, rfl, rfl⟩
  | @give out queue t s s₁ hrun hn hq ih =>
    obtain ⟨keys, -, rfl⟩ := (needsMore_ok hn).eq_keys
    obtain ⟨out₀, s₀, s₁, s', hrun₀, hn₀, hf₀, hd₀, htokens, hcomments⟩ := ih hd
    refine ⟨out₀, s₀, s₁, s', hrun₀, hn₀, hf₀, hd₀, ?_, hcomments⟩
    rw [← htokens, show s.queue = t :: queue from hq, List.append_assoc]
    rfl

/-- If no key can be put in front of them, all queued tokens are given. -/
theorem Run.giveAll (h : Run text out s) (hk : s.keys = []) (hd : s.done = false) :
    Run text (out ++ s.queue) { s with queue := [], taken := s.taken + s.queue.length } := by
  generalize hq : s.queue = queue
  induction queue generalizing out s with
  | nil =>
    rw [List.append_nil, List.length_nil, Nat.add_zero, ← hq]
    exact h
  | cons t queue ih =>
    have hn : s.needsMore = .ok (false, s) := by
      have hstale : s.dropStaleKeys = .ok s := by
        rw [dropStaleKeys_of_forall (by simp [hk]), hk, List.filter_nil, ← hk]
      simp [needsMore, hd, hq, hstale, awaitsKey, hk]
    have hall := ih (h.give hn hq) hk hd rfl
    rw [List.append_assoc, List.singleton_append, Nat.add_assoc, Nat.add_comm 1] at hall
    exact hall

/-- Outside of flow collections no other key is remembered than the one of that level. -/
theorem keys_forgetKey (h : s.KeysInPlace) (hz : s.flowLevel = 0) : s.forgetKey.keys = [] := by
  show s.keys.filter (·.level != s.flowLevel) = []
  rw [List.filter_eq_nil_iff]
  intro k hk
  have hle := h.level_le k hk
  have hlevel : k.level = s.flowLevel := by omega
  simp [hlevel]

/-- In front of the end of the stream all block collections are closed. -/
theorem NestedWith.indent_of_streamEnd {ts : List Token} {m : Mark} (h : NestedWith out s)
    (hz : s.flowLevel = 0) (htokens : out ++ s.queue = ts ++ [.empty .streamEnd m]) :
    s.indent = -1 ∧ s.indents = [] := by
  obtain ⟨hnested, hlevel, hstack⟩ := h
  rw [htokens] at hnested hlevel hstack
  have hdepth : Indentation.flowDepth 0 ts = 0 := by
    rw [Indentation.flowDepth_append] at hlevel
    exact hlevel.trans hz
  have hbare : openBlocks [] ts = [] := (nested_append.1 hnested).2.1.bare rfl hdepth
  rw [openBlocks_append, hbare] at hstack
  exact List.cons.inj hstack.symm

/-- A scanner behind the last line that has closed all collections and can forget all keys. -/
structure Closing (text : List Char) (out : List Token) (s : ScanState) : Prop where
  ahead : (Cursor.ofText text).Ahead s.cursor
  rest : s.cursor.rest = []
  column : s.cursor.column = 0
  done : s.done = false
  failed : s.failed = false
  flowLevel : s.flowLevel = 0
  indent : s.indent = -1 ∧ s.indents = []
  keys : s.forgetKey.keys = []
  taken : s.taken = out.length

/-- Behind the marker such a scanner is a fresh one. -/
theorem Closing.eq_fresh (h : Closing text out s) :
    { { s.forgetKey.before v with allowKey := false }.pushMark .documentStart 3 with
      queue := []
      taken := n } = fresh ((s.cursor.before v).forward 3) false n s.comments := by
  have hkeys := h.keys
  simp only [forgetKey] at hkeys
  simp only [fresh, pushMark, before, forgetKey, h.done, h.failed, h.flowLevel, h.indent.1,
    h.indent.2] at hkeys ⊢
  rw [hkeys]

/-- A scan that finds no error and leaves no flow collection open is in such a state before it ends the
stream, and would read the marker there. -/
theorem exists_closing (hw : (Cursor.ofText text).Whole) (herror : (scanText text).error = none)
    (hdepth : Indentation.flowDepth 0 (scanText text).tokens = 0) :
    ∃ out s s₁ u, Run text out s ∧ s.needsMore = .ok (true, s₁) ∧ Closing text out u ∧
      (scanText text).tokens = out ++ u.queue ++ [.empty .streamEnd u.cursor.mark] ∧
      (scanText text).comments = u.comments ∧
      ∀ v, (s₁.before v).fetch =
        (none, { u.forgetKey.before v with allowKey := false }.pushMark .documentStart 3) := by
  obtain ⟨s, hrun, hends⟩ := run_scanText text
  unfold Ends at hends
  rw [herror] at hends
  obtain ⟨hd, hq, hcomments⟩ := hends
  obtain ⟨out, s₀, s₁, s', hrun₀, hn, hf, hd', htokens, hcomments'⟩ := hrun.lastFetch hd
  rw [hq, List.append_nil] at htokens
  have hrun' : Run text out s' := hrun₀.fetch hn hf
  have hneeds := needsMore_ok hn
  have hw₁ : s₁.cursor.Whole := by
    obtain ⟨keys, -, rfl⟩ := hneeds.eq_keys
    exact hw.ahead (placed_run hrun₀).tokens.ahead
  obtain ⟨s₂, hr, hrest, hcol, rfl, hmarker⟩ := fetch_marker hw₁ (hneeds.not_done rfl) hf hd'
  -- what is known of all states of a run holds of the one that has ended the stream
  have hnested := (nestedWith_run hrun').1
  have hlevel : (s₂.unwind (-1)).flowLevel = 0 := by
    have hlevel := hnested.level
    rw [← htokens, hdepth] at hlevel
    exact hlevel.symm
  have hend : (scanText text).tokens =
      out ++ (s₂.unwind (-1)).queue ++ [.empty .streamEnd s₂.cursor.mark] := by
    rw [htokens, List.append_assoc]
  have hclosing : Closing text out (s₂.unwind (-1)) := by
    constructor
    · exact (placed_run hrun').tokens.ahead
    · rwa [unwind_cursor]
    · rwa [unwind_cursor]
    · simpa using hr.done.trans (hneeds.not_done rfl)
    · exact hrun'.not_failed
    · exact hlevel
    · exact hnested.indent_of_streamEnd hlevel (htokens.symm.trans hend)
    · refine keys_forgetKey (inPlace_unwind (inPlace_readied ?_ hr)) hlevel
      exact inPlace_needs (inPlace_run hrun₀).1 hneeds
    · exact (inPlace_run hrun').2.2
  refine ⟨out, s₀, s₁, s₂.unwind (-1), hrun₀, hn, hclosing, ?_, ?_, hmarker⟩
  · rw [hend, unwind_cursor]
  · rw [hcomments, hcomments']

/-- A run in front of the marker that has given it: the scanner has given what it gives for the text
alone, but for the end of the stream, and is outside of all collections. -/
theorem run_marker (hw : (Cursor.ofText text).Whole) (herror : (scanText text).error = none)
    (hdepth : Indentation.flowDepth 0 (scanText text).tokens = 0) :
    ∃ ts c, (Cursor.ofText text).Ahead c ∧ c.rest = [] ∧ c.column = 0 ∧
      (scanText text).tokens = ts ++ [.empty .streamEnd c.mark] ∧
      ∀ v, Run (text ++ '-' :: '-' :: '-' :: '\n' :: v)
        (ts ++ [⟨.documentStart, c.mark, ((c.before v).forward 3).mark⟩])
        (fresh ((c.before v).forward 3) false (ts.length + 1) (scanText text).comments) := by
  obtain ⟨out, s, s₁, u, hrun, hn, hclosing, htokens, hcomments, hmarker⟩ :=
    exists_closing hw herror hdepth
  refine ⟨out ++ u.queue, u.cursor, hclosing.ahead, hclosing.rest, hclosing.column, htokens, ?_⟩
  intro v
  have hdone : s.done = false := by
    have hneeds := needsMore_ok hn
    obtain ⟨keys, -, rfl⟩ := hneeds.eq_keys
    exact hneeds.not_done rfl
  have hmore : (s.before v).needsMore = .ok (true, s₁.before v) := by
    rw [needsMore_before, hn]
    rfl
  have hfetched := (run_before (v := v) hw hrun hdone).fetch hmore (hmarker v)
  have hgiven := hfetched.giveAll hclosing.keys hclosing.done
  rw [hclosing.eq_fresh, ← hcomments] at hgiven
  simp only [pushMark, before, forgetKey, hclosing.taken, List.length_append] at hgiven
  rw [List.append_assoc, List.length_append, Nat.add_assoc]
  exact hgiven

end ScanState

end YamlLinter
