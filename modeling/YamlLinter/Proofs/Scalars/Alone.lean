import YamlLinter.Proofs.Canonical.Scan
import YamlLinter.Proofs.Spelling.Lexeme

/-!
# A scalar and nothing else

The scan of a source that holds a single scalar is told by the reader of that scalar: the scanner
fetches the scalar, then the end of the stream. The key that a quoted scalar may have been is
forgotten at the end, since no key is required outside of all collections.

## Contents

* `Scan.ofScalar`: the scan of a source with one scalar;
* `Inline`: the characters of a line;
* `mark_forward`, `mark_end`: the mark behind a text;
* `scan_of_fetched`: one fetch to the end of the source makes the scan;
* `scan_of_quoted`, `scan_of_block`: the scans of quoted scalars and of block scalars.
-/

namespace YamlLinter

open Text

/-- What the scan of a source is that holds one scalar, from its first character to its last. -/
def Scan.ofScalar (source value : String) (style : ScalarStyle) : Scan :=
  let stop := Mark.ofText source.toList nul
  { tokens := [.empty .streamStart .origin, ⟨.scalar value style, .origin, stop⟩,
      .empty .streamEnd stop]
    comments := []
    error := none }

/-- The character that starts a block scalar. -/
def blockMark (folded : Bool) : Char := if folded then '>' else '|'

variable {text : List Char} {c d : Cursor}

/-! ## Characters of a line -/

/-- The character is on a line: it neither ends one nor is the end of the text. -/
def Inline (ch : Char) : Prop := ch ≠ nul ∧ isBreak ch = false

instance (ch : Char) : Decidable (Inline ch) := inferInstanceAs (Decidable (_ ∧ _))

theorem isLineEnd_of_inline {ch : Char} (h : Inline ch) : isLineEnd ch = false := by
  simp [isLineEnd, h.1, h.2]

theorem Cursor.lineBreak?_of_not_break (h : isBreak c.peek = false) : c.lineBreak? = none := by
  simp only [isBreak, Bool.or_eq_false_iff] at h
  obtain ⟨⟨⟨⟨hcr, hlf⟩, hnel⟩, hls⟩, hps⟩ := h
  simp [Cursor.lineBreak?, hcr, hlf, hnel, hls, hps]

/-! ## The mark behind a text -/

/-- A cursor that reads a text advances its mark over it. -/
theorem Cursor.mark_forward {word rest : List Char} (hc : c.rest = word ++ rest) :
    (c.forward word.length).mark = c.mark.advance word (rest.headD nul) := by
  induction word generalizing c with
  | nil => rfl
  | cons ch word ih =>
    have hadvance : c.advance.rest = word ++ rest ∧
        c.advance.mark = c.mark.after ch (word.headD (rest.headD nul)) := by
      unfold Cursor.advance
      rw [hc]
      refine ⟨rfl, ?_⟩
      cases word <;> rfl
    rw [List.length_cons, Cursor.forward, ih hadvance.1, hadvance.2, Mark.advance]

/-- The mark of a cursor that has read all of a text. -/
theorem Cursor.mark_end (hd : (Cursor.ofText text).Ahead d) (hrest : d.rest = []) :
    d.mark = Mark.ofText text nul := by
  obtain ⟨n, rfl⟩ := hd
  have hle : (Cursor.ofText text).rest.length ≤ n := by
    rw [Cursor.rest_forward] at hrest
    exact List.drop_eq_nil_iff.1 hrest
  have hall : (Cursor.ofText text).rest = text ++ [] := (List.append_nil text).symm
  rw [Cursor.forward_length _ hle]
  exact Cursor.mark_forward hall

namespace ScanState

variable {s s' : ScanState} {keys : List SimpleKey} {q : List Token} {allowKey : Bool}
  {source value : String} {style : ScalarStyle}

/-! ## Two fetches -/

/-- A key that is not required is forgotten without an error. -/
theorem removeKey_of_forall (h : ∀ k ∈ s.keys, k.required = false) :
    s.removeKey = .ok s.forgetKey := by
  unfold removeKey
  split
  · rename_i k hk
    have hfree := h k (mem_keys_of_currentKey? hk).1
    rw [hfree]
    rfl
  · rfl

/-- A scanner at the end of its text, outside of all collections. -/
def spent (d : Cursor) (q : List Token) (allowKey : Bool) (keys : List SimpleKey) : ScanState :=
  { Canonical.scanner allowKey d q (-1) [] with keys }

/-- The end of the stream is fetched at the end of the text. -/
theorem fetch_spent (hd : d.rest = []) (hkeys : ∀ k ∈ keys, k.required = false) :
    ∃ s', (spent d q allowKey keys).fetch = (none, s') ∧ s'.done = true ∧
      s'.queue = q ++ [.empty .streamEnd d.mark] ∧ s'.comments = [] := by
  have hstill : Canonical.Still d := Canonical.still_of_starts hd (.inl rfl)
  have hskip : (spent d q allowKey keys).skipGap = spent d q allowKey keys :=
    Canonical.skipGap_eq (s := spent d q allowKey keys) hstill.bom rfl
      (Canonical.gap_still allowKey hstill)
  -- the keys that are left are among those that were there
  let left := keys.filter (!(spent d q allowKey keys).staleKey ·)
  have hready : Readied (spent d q allowKey keys) (spent d q allowKey left) := by
    refine ⟨fun k hk _ => hkeys k hk, ?_⟩
    rw [hskip, unwind_of_le]
    · rfl
    · show (-1 : Int) ≤ (d.column : Int)
      omega
  have hunwind : (spent d q allowKey left).unwind (-1) = spent d q allowKey left :=
    unwind_of_le (Int.le_refl (-1))
  have hremove : (spent d q allowKey left).removeKey = .ok (spent d q allowKey left).forgetKey :=
    removeKey_of_forall fun k hk => hkeys k (List.mem_filter.1 hk).1
  have hlead : (spent d q allowKey left).lead = .streamEnd := Canonical.lead_end hd rfl
  have hfetch : (spent d q allowKey left).fetchLead (spent d q allowKey left).lead =
      .ok { (spent d q allowKey left).forgetKey with
        allowKey := false
        keys := []
        queue := q ++ [.empty .streamEnd d.mark]
        done := true } := by
    rw [hlead]
    simp only [fetchLead, fetchStreamEnd, hunwind, hremove]
    rfl
  exact ⟨_, fetch_of_readied hready hfetch, rfl, rfl, rfl⟩

/-- If the first lexeme of a source is a scalar and takes all of it, there is nothing else. -/
theorem scan_of_fetched (hstill : Canonical.Still (.ofText source.toList))
    (hf : (ofText source.toList).fetchLead (ofText source.toList).lead =
      .ok (spent d [.empty .streamStart .origin, ⟨.scalar value style, .origin, d.mark⟩] allowKey
        keys))
    (hkeys : ∀ k ∈ keys, k.required = false) (hahead : (Cursor.ofText source.toList).Ahead d)
    (hd : d.rest = []) : scan source = .ofScalar source value style := by
  have hready : Readied (ofText source.toList) (ofText source.toList) := by
    have h : Readied (ofText source.toList) ((ofText source.toList).unwind 0) :=
      Canonical.readied_gap hstill.bom (Canonical.gap_still true hstill)
    rwa [unwind_of_le (by show (-1 : Int) ≤ 0; decide)] at h
  obtain ⟨last, hlast, hdone, hqueue, hcomments⟩ := fetch_spent hd hkeys
  have hfetches : Fetches (ofText source.toList) last :=
    .step rfl (fetch_of_readied hready hf) (.step rfl hlast .refl)
  rw [scan, scanText_of_fetches hfetches hdone, hqueue, hcomments, Cursor.mark_end hahead hd]
  rfl

/-! ## Scalars -/

/-- Neither the end of the text nor a document marker is at a cursor in front of another
character. -/
theorem lead_elsewhere (hnul : c.peek ≠ nul) :
    c.atEnd = false ∧ ∀ ch, c.peek ≠ ch → c.atMarker ch = false := by
  obtain ⟨x, rest, hrest⟩ := List.exists_cons_of_ne_nil (Cursor.rest_ne_nil_of_peek_ne_nul hnul)
  refine ⟨by simp [Cursor.atEnd, hrest], fun ch hch => ?_⟩
  have hx : x ≠ ch := by rwa [← Canonical.peek_eq hrest]
  simp [Cursor.atMarker, hrest, hx]

theorem lead_quote {double : Bool} (h : s.cursor.peek = quoteMark double) :
    s.lead = .quoted double := by
  obtain ⟨hend, hmarker⟩ := lead_elsewhere (c := s.cursor) (by rw [h]; cases double <;> decide)
  have hdash := hmarker '-' (by rw [h]; cases double <;> decide)
  have hdot := hmarker '.' (by rw [h]; cases double <;> decide)
  unfold lead
  cases double <;> simp [h, hend, hdash, hdot, quoteMark]

theorem lead_block {folded : Bool} (h : s.cursor.peek = blockMark folded)
    (hflow : s.inFlow = false) : s.lead = .block folded := by
  obtain ⟨hend, hmarker⟩ := lead_elsewhere (c := s.cursor) (by rw [h]; cases folded <;> decide)
  have hdash := hmarker '-' (by rw [h]; cases folded <;> decide)
  have hdot := hmarker '.' (by rw [h]; cases folded <;> decide)
  unfold lead
  cases folded <;> simp [h, hend, hdash, hdot, hflow, blockMark]

/-- A quoted scalar. It may be a key up to the end of the text, but is never required to be one. -/
theorem scan_of_quoted {double : Bool}
    (hpeek : (Cursor.ofText source.toList).peek = quoteMark double)
    (h : (Cursor.ofText source.toList).quoted double =
      .ok (⟨.scalar value style, .origin, d.mark⟩, d))
    (hd : d.rest = []) : scan source = .ofScalar source value style := by
  have hnul : (Cursor.ofText source.toList).peek ≠ nul := by
    rw [hpeek]
    cases double <;> decide
  have hreads := (Cursor.reads_quoted (Cursor.rest_ne_nil_of_peek_ne_nul hnul) h).1
  have hstill : Canonical.Still (.ofText source.toList) := by
    constructor <;> rw [hpeek] <;> cases double <;> decide
  have hlead : (ofText source.toList).lead = .quoted double := lead_quote hpeek
  let key := (ofText source.toList).keyHere
  have hsave : (ofText source.toList).saveKey = .ok { ofText source.toList with keys := [key] } :=
    rfl
  have hread : (ofText source.toList).cursor.quoted double = _ := h
  have hfetch : (ofText source.toList).fetchLead (ofText source.toList).lead =
      .ok (spent d [.empty .streamStart .origin, ⟨.scalar value style, .origin, d.mark⟩] false
        [key]) := by
    rw [hlead]
    simp only [fetchLead, fetchKeyable, hsave]
    rw [hread]
    rfl
  refine scan_of_fetched hstill hfetch ?_ hreads.ahead hd
  intro k hk
  rw [List.mem_singleton.1 hk]
  rfl

/-- A block scalar whose header holds no comment. -/
theorem scan_of_block {folded : Bool}
    (hpeek : (Cursor.ofText source.toList).peek = blockMark folded)
    (h : (Cursor.ofText source.toList).block folded (-1) =
      .ok (⟨.scalar value style, .origin, d.mark⟩, none, d))
    (hd : d.rest = []) : scan source = .ofScalar source value style := by
  have hnul : (Cursor.ofText source.toList).peek ≠ nul := by
    rw [hpeek]
    cases folded <;> decide
  have hreads := (Cursor.reads_block (Cursor.rest_ne_nil_of_peek_ne_nul hnul) h).1
  have hstill : Canonical.Still (.ofText source.toList) := by
    constructor <;> rw [hpeek] <;> cases folded <;> decide
  have hlead : (ofText source.toList).lead = .block folded := lead_block hpeek rfl
  have hremove : (ofText source.toList).removeKey = .ok (ofText source.toList) := rfl
  have hread : (ofText source.toList).cursor.block folded (ofText source.toList).indent = _ := h
  have hfetch : (ofText source.toList).fetchLead (ofText source.toList).lead =
      .ok (spent d [.empty .streamStart .origin, ⟨.scalar value style, .origin, d.mark⟩] true
        []) := by
    rw [hlead]
    simp only [fetchLead, fetchBlock, hremove]
    rw [hread]
    rfl
  exact scan_of_fetched hstill hfetch (by simp) hreads.ahead hd

end ScanState

end YamlLinter
