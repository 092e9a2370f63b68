import YamlLinter.Proofs.Positions

/-!
# Fetching ahead

The scanner gives tokens as soon as it can. What it gives does not depend on that: fetching to the
end of the stream, and giving all tokens then, gives the same ones. So the tokens of a text are found
by following the fetches alone.

## Contents

* `ScanState.giveBack`: the state in which the tokens given are still queued;
* `giveBack_*`: the small steps of the scanner with and without them;
* `Fetches`: fetching again and again;
* `Given`: a state of a run beside a state that has given nothing;
* `scanText_of_fetches`: the tokens of a text.
-/

namespace YamlLinter

namespace ScanState

variable {s s' s₁ e e₁ e' : ScanState} {text : List Char} {out : List Token}

/-! ## Tokens given back -/

/-- The state in which the tokens `out`, which have been given, are still queued. -/
def giveBack (out : List Token) (s : ScanState) : ScanState :=
  { s with queue := out ++ s.queue, taken := 0 }

/-- Keys are dropped alike. -/
theorem removeKey_giveBack (s : ScanState) :
    (s.giveBack out).removeKey = s.removeKey.map (giveBack out) := by
  have hcurrent : (s.giveBack out).currentKey? = s.currentKey? := rfl
  have hforget : (s.giveBack out).forgetKey = s.forgetKey.giveBack out := rfl
  unfold removeKey
  rw [hcurrent, hforget]
  cases s.currentKey? with
  | none => rfl
  | some k => cases hk : k.required <;> simp [hk, Except.map]

/-- A key is numbered by the tokens in front of it, given or queued. -/
theorem saveKey_giveBack (ht : s.taken = out.length) :
    (s.giveBack out).saveKey = s.saveKey.map (giveBack out) := by
  have hallow : (s.giveBack out).allowKey = s.allowKey := rfl
  have hkey : (s.giveBack out).keyHere = s.keyHere := by
    simp [keyHere, giveBack, inFlow, ht]
  have hsave : ∀ s : ScanState, s.saveKey =
      if s.allowKey then s.removeKey.map fun s' => { s' with keys := s'.keys ++ [s.keyHere] }
      else .ok s := by
    intro s
    unfold saveKey
    cases s.removeKey <;> rfl
  rw [hsave, hsave, hallow, hkey, removeKey_giveBack]
  split
  · cases s.removeKey <;> rfl
  · rfl

theorem unwind_giveBack (s : ScanState) (column : Int) :
    (s.giveBack out).unwind column = (s.unwind column).giveBack out := by
  have hflow : (s.giveBack out).inFlow = s.inFlow := rfl
  unfold unwind
  rw [hflow]
  split
  · rfl
  · simp [giveBack]

theorem openBlock_giveBack (s : ScanState) (kind : TokenKind) :
    (s.giveBack out).openBlock kind = (s.openBlock kind).giveBack out := by
  have hnests : (s.giveBack out).nests (s.giveBack out).cursor.column =
      s.nests s.cursor.column := rfl
  unfold openBlock
  rw [hnests]
  split
  · simp [giveBack, openIndent, push]
  · rfl

theorem openBlockOr_giveBack (s : ScanState) (kind : TokenKind) (cause : ScanError.Cause) :
    (s.giveBack out).openBlockOr kind cause = (s.openBlockOr kind cause).map (giveBack out) := by
  have hflow : (s.giveBack out).inFlow = s.inFlow := rfl
  have hallow : (s.giveBack out).allowKey = s.allowKey := rfl
  unfold openBlockOr
  rw [hflow, hallow, openBlock_giveBack]
  split
  · rfl
  · split <;> rfl

/-- The tokens of a key are put in front of a token that has not been given. -/
theorem insertAt_giveBack {number : Nat} {ts : List Token} (ht : s.taken = out.length)
    (hn : s.taken ≤ number) :
    (s.giveBack out).insertAt number ts = (s.insertAt number ts).giveBack out := by
  have hlen : out.length ≤ number := ht ▸ hn
  simp only [insertAt, giveBack, Nat.sub_zero, ht]
  rw [List.take_append, List.drop_append, List.take_of_length_le hlen,
    List.drop_eq_nil_of_le hlen]
  simp

/-- The key in front of a `:` is put in its place alike. -/
theorem insertKey_giveBack {k : SimpleKey} (ht : s.taken = out.length)
    (hk : s.taken ≤ k.tokenNumber) :
    (s.giveBack out).insertKey k = (s.insertKey k).giveBack out := by
  have hnests : (!(s.giveBack out).inFlow && (s.giveBack out).nests k.mark.column) =
      (!s.inFlow && s.nests k.mark.column) := rfl
  unfold insertKey
  simp only [hnests]
  split
  · exact insertAt_giveBack (s := s.openIndent k.mark.column) ht hk
  · exact insertAt_giveBack ht hk

/-- A lexeme that can be a key is read alike. -/
theorem fetchKeyable_giveBack (read : Cursor → Except ScanError (Token × Cursor))
    (ht : s.taken = out.length) :
    (s.giveBack out).fetchKeyable read = (s.fetchKeyable read).map (giveBack out) := by
  unfold fetchKeyable
  rw [saveKey_giveBack ht]
  cases s.saveKey with
  | error e => rfl
  | ok s₁ =>
    have hcursor : (s₁.giveBack out).cursor = s₁.cursor := rfl
    simp only [Except.map, hcursor]
    cases read s₁.cursor with
    | error e => rfl
    | ok r => simp [giveBack]

theorem fetchStreamEnd_giveBack (s : ScanState) :
    (s.giveBack out).fetchStreamEnd = s.fetchStreamEnd.map (giveBack out) := by
  simp only [fetchStreamEnd, unwind_giveBack, removeKey_giveBack]
  cases (s.unwind (-1)).removeKey with
  | error e => rfl
  | ok s₁ => simp [Except.map, giveBack]

theorem fetchDirective_giveBack (s : ScanState) :
    (s.giveBack out).fetchDirective = s.fetchDirective.map (giveBack out) := by
  simp only [fetchDirective, unwind_giveBack, removeKey_giveBack]
  cases (s.unwind (-1)).removeKey with
  | error e => rfl
  | ok s₁ =>
    have hcursor : (s₁.giveBack out).cursor = s₁.cursor := rfl
    simp only [Except.map, hcursor]
    cases s₁.cursor.directive with
    | error e => rfl
    | ok r => simp [giveBack]

theorem fetchMarker_giveBack (s : ScanState) (kind : TokenKind) :
    (s.giveBack out).fetchMarker kind = (s.fetchMarker kind).map (giveBack out) := by
  simp only [fetchMarker, unwind_giveBack, removeKey_giveBack]
  cases (s.unwind (-1)).removeKey with
  | error e => rfl
  | ok s₁ => simp [Except.map, giveBack, pushMark]

theorem fetchFlowStart_giveBack (kind : TokenKind) (ht : s.taken = out.length) :
    (s.giveBack out).fetchFlowStart kind = (s.fetchFlowStart kind).map (giveBack out) := by
  simp only [fetchFlowStart, saveKey_giveBack ht]
  cases s.saveKey with
  | error e => rfl
  | ok s₁ => simp [Except.map, giveBack, pushMark]

theorem fetchFlowEnd_giveBack (s : ScanState) (kind : TokenKind) :
    (s.giveBack out).fetchFlowEnd kind = (s.fetchFlowEnd kind).map (giveBack out) := by
  simp only [fetchFlowEnd, removeKey_giveBack]
  cases s.removeKey with
  | error e => rfl
  | ok s₁ => simp [Except.map, giveBack, pushMark]

theorem fetchFlowEntry_giveBack (s : ScanState) :
    (s.giveBack out).fetchFlowEntry = s.fetchFlowEntry.map (giveBack out) := by
  simp only [fetchFlowEntry, removeKey_giveBack]
  cases s.removeKey with
  | error e => rfl
  | ok s₁ => simp [Except.map, giveBack, pushMark]

theorem fetchBlockEntry_giveBack (s : ScanState) :
    (s.giveBack out).fetchBlockEntry = s.fetchBlockEntry.map (giveBack out) := by
  simp only [fetchBlockEntry, openBlockOr_giveBack]
  cases s.openBlockOr .blockSequenceStart .misplacedEntry with
  | error e => rfl
  | ok s₁ =>
    simp only [Except.map, removeKey_giveBack]
    cases s₁.removeKey with
    | error e => rfl
    | ok s₂ => simp [giveBack, pushMark]

theorem fetchKey_giveBack (s : ScanState) :
    (s.giveBack out).fetchKey = s.fetchKey.map (giveBack out) := by
  simp only [fetchKey, openBlockOr_giveBack]
  cases s.openBlockOr .blockMappingStart .misplacedKey with
  | error e => rfl
  | ok s₁ =>
    simp only [Except.map, removeKey_giveBack]
    cases s₁.removeKey with
    | error e => rfl
    | ok s₂ => simp [giveBack, pushMark, inFlow]

/-- A `:` puts the tokens of its key behind all that have been given. -/
theorem fetchValue_giveBack (ht : s.taken = out.length)
    (hk : ∀ k ∈ s.keys, s.taken ≤ k.tokenNumber) :
    (s.giveBack out).fetchValue = s.fetchValue.map (giveBack out) := by
  have hcurrent : (s.giveBack out).currentKey? = s.currentKey? := rfl
  have hforget : (s.giveBack out).forgetKey = s.forgetKey.giveBack out := rfl
  simp only [fetchValue, hcurrent, hforget, openBlockOr_giveBack]
  cases hkey : s.currentKey? with
  | some k =>
    have hplace := hk k (mem_keys_of_currentKey? hkey).1
    simp only [insertKey_giveBack (s := s.forgetKey) ht hplace]
    simp [Except.map, giveBack, pushMark]
  | none =>
    cases s.openBlockOr .blockMappingStart .misplacedValue with
    | error e => rfl
    | ok s₁ => simp [Except.map, giveBack, pushMark, forgetKey, inFlow]

theorem fetchBlock_giveBack (s : ScanState) (folded : Bool) :
    (s.giveBack out).fetchBlock folded = (s.fetchBlock folded).map (giveBack out) := by
  simp only [fetchBlock, removeKey_giveBack]
  cases s.removeKey with
  | error e => rfl
  | ok s₁ =>
    have hcursor : (s₁.giveBack out).cursor.block folded (s₁.giveBack out).indent =
        s₁.cursor.block folded s₁.indent := rfl
    simp only [Except.map, hcursor]
    cases s₁.cursor.block folded s₁.indent with
    | error e => rfl
    | ok r => simp [giveBack]

theorem fetchPlain_giveBack (ht : s.taken = out.length) :
    (s.giveBack out).fetchPlain = s.fetchPlain.map (giveBack out) := by
  simp only [fetchPlain, saveKey_giveBack ht]
  cases s.saveKey with
  | error e => rfl
  | ok s₁ => simp [Except.map, giveBack, inFlow]

/-- Reading a lexeme does not depend on the tokens that have been given. They count only where a key
is inserted, and its place is behind them. -/
theorem fetchLead_giveBack (lead : Lead) (ht : s.taken = out.length)
    (hk : ∀ k ∈ s.keys, s.taken ≤ k.tokenNumber) :
    (s.giveBack out).fetchLead lead = (s.fetchLead lead).map (giveBack out) := by
  cases lead with
  | streamEnd => exact fetchStreamEnd_giveBack s
  | directive => exact fetchDirective_giveBack s
  | documentStart => exact fetchMarker_giveBack s _
  | documentEnd => exact fetchMarker_giveBack s _
  | flowStart kind => exact fetchFlowStart_giveBack kind ht
  | flowEnd kind => exact fetchFlowEnd_giveBack s kind
  | flowEntry => exact fetchFlowEntry_giveBack s
  | blockEntry => exact fetchBlockEntry_giveBack s
  | key => exact fetchKey_giveBack s
  | value => exact fetchValue_giveBack ht hk
  | aliasRef => exact fetchKeyable_giveBack _ ht
  | anchor => exact fetchKeyable_giveBack _ ht
  | tag => exact fetchKeyable_giveBack (·.tag s.inFlow) ht
  | quoted double => exact fetchKeyable_giveBack (·.quoted double) ht
  | block folded => exact fetchBlock_giveBack s folded
  | plain => exact fetchPlain_giveBack ht
  | stray found => rfl

/-! ## Keys that have ended -/

/-- A key that cannot be one any more, wherever the scanner goes from here. -/
def Ended (c : Cursor) (k : SimpleKey) : Prop :=
  k.mark.line < c.line ∨ longestSimpleKey < c.pos - k.pos

/-- A key that has ended stays so while the scanner goes on. -/
theorem Ended.mono {c d : Cursor} {k : SimpleKey} (h : Ended c k) (hd : c.Ahead d) : Ended d k := by
  have hline := hd.line_le
  have hpos := hd.pos_le
  rcases h with h | h
  · exact .inl (Nat.lt_of_lt_of_le h hline)
  · exact .inr (by omega)

/-- A key that has ended is dropped at the next look at the keys. -/
theorem Ended.staleKey {k : SimpleKey} (h : Ended s.cursor k) : s.staleKey k = true := by
  unfold ScanState.staleKey
  rcases h with h | h
  · have hne : k.mark.line ≠ s.cursor.line := by omega
    simp [hne]
  · simp [h]

/-- A key starts at a token, and so not behind the cursor. -/
theorem Placed.line_le {k : SimpleKey} (h : Placed text out s) (hp : s.KeysInPlace)
    (hk : k ∈ s.keys) : k.mark.line ≤ s.cursor.line := by
  obtain ⟨t, ht, hstart⟩ := hp.starts k hk
  have hmem : t ∈ out ++ s.queue := List.mem_append_right out (List.mem_of_getElem? ht)
  obtain ⟨c, d, -, hcd, hd, hs, -⟩ := h.tokens.mem hmem
  rw [← hstart, hs]
  exact (hcd.trans hd).line_le

/-- A key that is dropped somewhere has ended for good. -/
theorem Placed.ended {k : SimpleKey} (h : Placed text out s) (hp : s.KeysInPlace) (hk : k ∈ s.keys)
    (hs : s.staleKey k = true) : Ended s.cursor k := by
  have hle := h.line_le hp hk
  simp only [staleKey, Bool.or_eq_true, bne_iff_ne, decide_eq_true_eq] at hs
  rcases hs with hs | hs
  · exact .inl (by omega)
  · exact .inr hs

/-! ## Fetching again and again -/

/-- Fetching again and again, until the stream has ended at most. -/
inductive Fetches : ScanState → ScanState → Prop where
  | refl {s : ScanState} : Fetches s s
  | step {s s₁ s' : ScanState} : s.done = false → s.fetch = (none, s₁) → Fetches s₁ s' →
      Fetches s s'

/-- The state `e` has given nothing, and is otherwise like `s`, which has given `out` and may have
forgotten keys that have ended. -/
structure Given (out : List Token) (s e : ScanState) : Prop where
  same : e = { s.giveBack out with keys := e.keys }
  taken : s.taken = out.length
  keys : ∃ p : SimpleKey → Bool, s.keys = e.keys.filter p ∧
    ∀ k ∈ e.keys, p k = false → Ended s.cursor k

/-- Both states are made ready for a lexeme alike: the keys that only one of the two remembers have
ended, and are forgotten here. -/
theorem Given.readied (h : Given out s e) (hr : Readied e e₁) :
    ∃ s₁, Readied s s₁ ∧ e₁ = s₁.giveBack out := by
  obtain ⟨hsame, -, p, hkeys, hended⟩ := h
  generalize hall : e.keys = keys at hsame hkeys hended
  subst hsame
  have hleft : s.keys.filter (!s.skipGap.staleKey ·) = keys.filter (!s.skipGap.staleKey ·) := by
    rw [hkeys, List.filter_filter]
    refine List.filter_congr fun k hk => ?_
    cases hpk : p k with
    | true => simp
    | false =>
      have hstale : s.skipGap.staleKey k = true := ((hended k hk hpk).mono s.ahead_skipGap).staleKey
      simp [hstale]
  refine ⟨_, ⟨fun k hk hs => ?_, rfl⟩, ?_⟩
  · rw [hkeys] at hk
    exact hr.ended k (List.mem_filter.1 hk).1 hs
  · rw [hr.eq, hleft, ← unwind_giveBack]
    rfl

/-- Both states fetch the same. -/
theorem Given.fetch (h : Given out s e) (hp : s.KeysInPlace) (he : e.fetch = (none, e')) :
    ∃ s', s.fetch = (none, s') ∧ Given out s' e' := by
  obtain ⟨e₁, hready, hfetched⟩ := fetch_lead he
  obtain ⟨s₁, hr, rfl⟩ := h.readied hready
  have htaken : s₁.taken = out.length := hr.taken.trans h.taken
  have hplace : ∀ k ∈ s₁.keys, s₁.taken ≤ k.tokenNumber := by
    intro k hk
    rw [hr.keys] at hk
    rw [hr.taken]
    exact hp.taken_le k (List.mem_filter.1 hk).1
  have hlead : (s₁.giveBack out).lead = s₁.lead := rfl
  rw [hlead, fetchLead_giveBack _ htaken hplace] at hfetched
  cases hs' : s₁.fetchLead s₁.lead with
  | error f =>
    rw [hs'] at hfetched
    cases hfetched
  | ok s' =>
    rw [hs'] at hfetched
    cases hfetched
    have hfetch := fetch_of_readied hr hs'
    refine ⟨s', hfetch, rfl, by rw [taken_fetch hfetch, h.taken], fun _ => true, ?_, by simp⟩
    exact (List.filter_eq_self.2 fun _ _ => rfl).symm

/-- Both states reach the end of the stream together. -/
theorem Given.done (h : Given out s e) : e.done = s.done := by
  rw [h.same]
  rfl

/-- The question for more tokens at most forgets keys that have ended. -/
theorem Given.needs {b : Bool} (h : Given out s e) (hplaced : Placed text out s)
    (hp : s.KeysInPlace) (hn : Needs s b s₁) : Given out s₁ e := by
  cases hn with
  | done => exact h
  | empty => exact h
  | keys _ _ hdrop =>
    obtain ⟨rfl, -⟩ := dropStaleKeys_ok hdrop
    obtain ⟨hsame, htaken, p, hkeys, hended⟩ := h
    refine ⟨hsame, htaken, fun k => p k && !s.staleKey k, ?_, ?_⟩
    · show s.keys.filter _ = _
      rw [hkeys, List.filter_filter]
      exact List.filter_congr fun k _ => Bool.and_comm _ _
    · intro k hk hpk
      cases hp' : p k with
      | false => exact hended k hk hp'
      | true =>
        have hmem : k ∈ s.keys := by
          rw [hkeys]
          exact List.mem_filter.2 ⟨hk, hp'⟩
        exact hplaced.ended hp hmem (by simpa [hp'] using hpk)

/-- Every state of a run has its place among the fetches that lead to the end of the stream. -/
theorem given_run (hend : Fetches (ofText text) e) (hdone : e.done = true) (h : Run text out s) :
    ∃ e₀, Fetches e₀ e ∧ Given out s e₀ := by
  induction h with
  | start =>
    refine ⟨ofText text, hend, rfl, rfl, fun _ => true, ?_, by simp⟩
    exact (List.filter_eq_self.2 fun _ _ => rfl).symm
  | fetch hrun hn hf ih =>
    obtain ⟨e₀, hmore, hgiven⟩ := ih
    have hp := (inPlace_run hrun).1
    have hneeds := needsMore_ok hn
    have hgiven := hgiven.needs (placed_run hrun) hp hneeds
    cases hmore with
    | refl =>
      have hnot := hneeds.not_done rfl
      rw [← hgiven.done, hdone] at hnot
      cases hnot
    | step _ he hmore =>
      obtain ⟨s', hf', hgiven'⟩ := hgiven.fetch (inPlace_needs hp hneeds) he
      rw [hf] at hf'
      cases hf'
      exact ⟨_, hmore, hgiven'⟩
  | give hrun hn hq ih =>
    obtain ⟨e₀, hmore, hgiven⟩ := ih
    obtain ⟨hsame, htaken, hkeys⟩ :=
      hgiven.needs (placed_run hrun) (inPlace_run hrun).1 (needsMore_ok hn)
    refine ⟨e₀, hmore, ?_, ?_, hkeys⟩
    · rw [hsame]
      simp [giveBack, hq]
    · simp [htaken]

/-- No step of a run fails where the same step does not fail among the fetches. -/
theorem Given.no_fault {f : ScanError} (h : Given out s e) (hplaced : Placed text out s)
    (hp : s.KeysInPlace) (he : e.done = false → ∃ e', e.fetch = (none, e')) : ¬s.Fault f s' := by
  rintro (⟨hneeds, -⟩ | ⟨s₁, hneeds, hf⟩)
  · -- a required key that has ended would stop the fetch too
    have hd : s.done = false := by
      cases hd : s.done with
      | false => rfl
      | true => simp [needsMore, hd] at hneeds
    obtain ⟨e', he⟩ := he (h.done.trans hd)
    obtain ⟨s₂, hf, -⟩ := h.fetch hp he
    obtain ⟨s₁, hready, -⟩ := fetch_ok hf
    have hdrop := dropStaleKeys_of_forall (s := s) fun k hk hs =>
      hready.ended k hk ((hplaced.ended hp hk hs).mono s.ahead_skipGap).staleKey
    unfold needsMore at hneeds
    rw [hd, hdrop] at hneeds
    split at hneeds
    · cases hneeds
    · split at hneeds <;> cases hneeds
  · have hneeds := needsMore_ok hneeds
    have hgiven := h.needs hplaced hp hneeds
    obtain ⟨e', he⟩ := he (hgiven.done.trans (hneeds.not_done rfl))
    obtain ⟨s₂, hf', -⟩ := hgiven.fetch (inPlace_needs hp hneeds) he
    rw [hf] at hf'
    cases hf'

/-- If the fetches lead to the end of the stream, the scan gives what is queued there. -/
theorem scanText_of_fetches (hend : Fetches (ofText text) e) (hdone : e.done = true) :
    scanText text = ⟨e.queue, e.comments, none⟩ := by
  obtain ⟨s, hrun, hends⟩ := run_scanText text
  obtain ⟨e₀, hmore, hgiven⟩ := given_run hend hdone hrun
  unfold Ends at hends
  split at hends
  · rename_i hnone
    obtain ⟨hs, hq, hc⟩ := hends
    cases hmore with
    | step hd =>
      rw [hgiven.done, hs] at hd
      cases hd
    | refl =>
      have hqueue : e.queue = (scanText text).tokens := by
        rw [hgiven.same]
        simp [giveBack, hq]
      have hcomments : e.comments = (scanText text).comments := by
        rw [hc, hgiven.same]
        rfl
      rw [hqueue, hcomments, ← hnone]
  · obtain ⟨s', hfault, -⟩ := hends
    refine absurd hfault (hgiven.no_fault (placed_run hrun) (inPlace_run hrun).1 fun hd => ?_)
    cases hmore with
    | refl =>
      rw [hdone] at hd
      cases hd
    | step _ he => exact ⟨_, he⟩

end ScanState

end YamlLinter
