import YamlLinter.Proofs.Positions
import YamlLinter.Proofs.Through

/-!
# No text is skipped

A scan that succeeds has an account of every character: it belongs to a token or a comment, or it is
a blank or a line break, or it is the byte order mark at the start. Since NUL is none of these, a
text that holds one cannot be scanned. The stream is framed by its start and end, and the end is
missing after an error.

## Contents

* `Within`: a character between two marks;
* `Accounted`: what a character of a text may be;
* `takes_fetchLead`: everything that a fetch reads is accounted for;
* `accounted_run`: in all states of a run the text in front of the cursor is;
* `Framed`, `framed_run`, `framed_scanText`: the start and the end of the stream;
* `no_text_skipped`: the characters and the frame of a scan.
-/

namespace YamlLinter

open Text

/-! ## Characters between marks -/

/-- The character number `i` of a text lies between the two marks. -/
def Within (text : List Char) (i : Nat) (start stop : Mark) : Prop :=
  start.index ≤ byteCount (text.take i) ∧ byteCount (text.take (i + 1)) ≤ stop.index

namespace Cursor

variable {text : List Char} {c c' : Cursor}

/-- The characters passed on the way between two cursors lie between their marks. -/
theorem Through.within {p : Char → Bool} (h : c.Through p c') (hc : (ofText text).Ahead c) {i : Nat}
    (hi : c.pos ≤ i) (hi' : i < c'.pos) :
    (∃ ch, text[i]? = some ch ∧ p ch = true) ∧ Within text i c.mark c'.mark := by
  induction h with
  | refl => omega
  | @step c c' ch rest hr hp hmore ih =>
    have hnext : (ofText text).Ahead c.advance := hc.then_forward 1
    have hpos : c.advance.pos = c.pos + 1 := by simp [advance, hr]
    by_cases heq : i = c.pos
    · rw [heq]
      refine ⟨⟨ch, hc.getElem?_pos hr, hp⟩, Nat.le_of_eq hc.at_pos.index, ?_⟩
      rw [← hpos, ← hnext.at_pos.index]
      exact hmore.ahead.index_le
    · obtain ⟨hchar, hstart, hstop⟩ := ih hnext (by omega) hi'
      refine ⟨hchar, Nat.le_trans ?_ hstart, hstop⟩
      exact (Ahead.forward c 1).index_le

end Cursor

/-! ## Accounts -/

/-- The character number `i` of a text is no NUL. It is a blank or a line break, or a byte order mark
at the start, or it lies inside a token or a comment. -/
def Accounted (text : List Char) (ts : List Token) (ks : List Comment) (i : Nat) : Prop :=
  ∃ ch, text[i]? = some ch ∧ ch ≠ nul ∧
    (isBlank ch = true ∨ isBreak ch = true ∨ (i = 0 ∧ ch = '\ufeff') ∨
      (∃ t ∈ ts, Within text i t.start t.stop) ∨ ∃ k ∈ ks, Within text i k.start k.stop)

variable {text : List Char} {c c' : Cursor} {ts ts' : List Token} {ks ks' : List Comment}

/-- More tokens and comments account for no fewer characters. -/
theorem Accounted.mono {i : Nat} (h : Accounted text ts ks i) (hts : ts ⊆ ts') (hks : ks ⊆ ks') :
    Accounted text ts' ks' i := by
  obtain ⟨ch, hch, hne, h | h | h | ⟨t, ht, hw⟩ | ⟨k, hk, hw⟩⟩ := h
  · exact ⟨ch, hch, hne, .inl h⟩
  · exact ⟨ch, hch, hne, .inr (.inl h)⟩
  · exact ⟨ch, hch, hne, .inr (.inr (.inl h))⟩
  · exact ⟨ch, hch, hne, .inr (.inr (.inr (.inl ⟨t, hts ht, hw⟩)))⟩
  · exact ⟨ch, hch, hne, .inr (.inr (.inr (.inr ⟨k, hks hk, hw⟩)))⟩

theorem accounted_of_isLayout {i : Nat} (h : ∃ ch, text[i]? = some ch ∧ isLayout ch = true) :
    Accounted text ts ks i := by
  obtain ⟨ch, hch, hl⟩ := h
  refine ⟨ch, hch, ne_nul_of_isLayout hl, ?_⟩
  rcases Bool.or_eq_true_iff.1 hl with hb | hb
  · exact .inl hb
  · exact .inr (.inl hb)

theorem ne_nul_of_isReal {ch : Char} (h : isReal ch = true) : ch ≠ nul := by
  simpa [isReal] using h

/-- Blanks, line breaks and comments account for what lies between two cursors. -/
theorem Cursor.Clear.accounted (h : Clear c ks c') (hc : (ofText text).Ahead c) {i : Nat}
    (hi : c.pos ≤ i) (hi' : i < c'.pos) : Accounted text ts ks i := by
  induction h with
  | nil h => exact accounted_of_isLayout (h.within hc hi hi').1
  | @cons c c₁ c₂ c' k ks h₁ hs h₂ ht _ ih =>
    have hc₁ := hc.trans h₁.ahead
    by_cases hi₁ : i < c₁.pos
    · exact accounted_of_isLayout (h₁.within hc hi hi₁).1
    · by_cases hi₂ : i < c₂.pos
      · obtain ⟨⟨ch, hch, hr⟩, hw⟩ := h₂.within hc₁ (by omega) hi₂
        rw [← hs, ← ht] at hw
        exact ⟨ch, hch, ne_nul_of_isReal hr, .inr (.inr (.inr (.inr ⟨k, List.mem_cons_self, hw⟩)))⟩
      · have hrest := ih (hc₁.trans h₂.ahead) (by omega) hi'
        exact hrest.mono (fun _ => id) (List.subset_cons_self k ks)

/-- A token and what stands behind it account for what its reader passes. -/
theorem Cursor.Takes.accounted {t : Token} (h : Takes c t ks c') (hc : (ofText text).Ahead c)
    {i : Nat} (hi : c.pos ≤ i) (hi' : i < c'.pos) : Accounted text [t] ks i := by
  obtain ⟨c₁, h₁, ht, h₂⟩ := h.stop
  by_cases hi₁ : i < c₁.pos
  · obtain ⟨⟨ch, hch, hr⟩, hw⟩ := h₁.within hc hi hi₁
    rw [← h.start, ← ht] at hw
    exact ⟨ch, hch, ne_nul_of_isReal hr, .inr (.inr (.inr (.inl ⟨t, List.mem_cons_self, hw⟩)))⟩
  · exact h₂.accounted (hc.trans h₁.ahead) (by omega) hi'

/-! ## Along a scan -/

namespace ScanState

variable {s s' s₁ : ScanState} {out : List Token} {e : ScanError}

/-- A NUL inside a text starts no token. -/
theorem lead_of_nul (hne : s.cursor.rest ≠ []) (hp : s.cursor.peek = nul) : s.lead = .stray nul := by
  have hend : s.cursor.atEnd = false := by simpa [Cursor.atEnd] using hne
  have hmarker : ∀ ch, ch ≠ nul → s.cursor.atMarker ch = false := by
    intro ch hch
    cases hr : s.cursor.rest with
    | nil => exact absurd hr hne
    | cons d rest =>
      have hd : d = nul := by simpa [Cursor.peek, Cursor.peekAt, hr] using hp
      simp [Cursor.atMarker, hr, hd, Ne.symm hch]
  have hplain : startsPlain s.inFlow nul (s.cursor.peekAt 1) = false := by
    have hend : isBlankOrEnd nul = true := by decide
    have hdash : (nul == '-') = false := by decide
    have hmark : (nul == '?') = false := by decide
    have hcolon : (nul == ':') = false := by decide
    simp [startsPlain, hend, hdash, hmark, hcolon]
  unfold lead
  simp only [hend, hp, hmarker '-' (by decide), hmarker '.' (by decide), hplain]
  simp [nul]

/-- Where a token starts the next character is no NUL. -/
theorem peek_ne_nul_of_fetchLead (hne : s.cursor.rest ≠ []) (h : s.fetchLead s.lead = .ok s') :
    s.cursor.peek ≠ nul := by
  intro hp
  rw [lead_of_nul hne hp] at h
  simp [fetchLead, Cursor.fail] at h

/-- A mark of the text as the last token of the queue. -/
theorem takes_pushMark {kind : TokenKind} {n : Nat} (hc : s₁.cursor = s.cursor)
    (h : s.cursor.Through isReal (s.cursor.forward n)) :
    ∃ t ∈ (s₁.pushMark kind n).queue, ∃ ks ⊆ (s₁.pushMark kind n).comments,
      s.cursor.Takes t ks (s₁.pushMark kind n).cursor := by
  refine ⟨⟨kind, s₁.cursor.mark, (s₁.cursor.forward n).mark⟩, by simp [pushMark], [],
    List.nil_subset _, ?_⟩
  simp only [pushMark, hc]
  exact .of_through h

theorem through_marker {ch : Char} (hch : ch ≠ nul) (h : s.cursor.atMarker ch = true) :
    s.cursor.Through isReal (s.cursor.forward 3) := by
  simp only [Cursor.atMarker, Bool.and_eq_true, beq_iff_eq] at h
  have hchars : [ch, ch, ch] <+: s.cursor.rest := h.1.2 ▸ List.take_prefix 3 _
  exact Cursor.Through.chars hchars (by simpa [isReal] using hch)

theorem takes_fetchKeyable {read : Cursor → Except ScanError (Token × Cursor)}
    (h : s.fetchKeyable read = .ok s')
    (hread : ∀ t c, read s.cursor = .ok (t, c) → s.cursor.Takes t [] c) :
    ∃ t ∈ s'.queue, ∃ ks ⊆ s'.comments, s.cursor.Takes t ks s'.cursor := by
  obtain ⟨s₁, t, c, -, ht, rfl⟩ := fetchKeyable_ok h
  exact ⟨t, by simp, [], List.nil_subset _, hread t c ht⟩

/-- Everything that reading a lexeme passes belongs to a token, or to comments behind it, or is a
blank or a line break. -/
theorem takes_fetchLead (h : s.fetchLead s.lead = .ok s') :
    ∃ t ∈ s'.queue, ∃ ks ⊆ s'.comments, s.cursor.Takes t ks s'.cursor := by
  have hunwind : (s.unwind (-1)).cursor = s.cursor := unwind_cursor s (-1)
  by_cases hend : s.cursor.rest = []
  · -- at the end of the text nothing is read
    have hlead : s.lead = .streamEnd := by simp [lead, Cursor.atEnd, hend]
    rw [hlead] at h
    obtain ⟨-, rfl⟩ := fetchStreamEnd_ok h
    refine ⟨.empty .streamEnd s.cursor.mark, by simp, [], List.nil_subset _, ?_⟩
    simp only [hunwind]
    exact .of_through (.refl _)
  -- a NUL starts no lexeme, so the first character is a real one
  have hpeek := peek_ne_nul_of_fetchLead hend h
  have hone := Cursor.Through.real hpeek
  have hl := s.fits_lead
  generalize s.lead = lead at h hl
  cases lead with
  | streamEnd => exact absurd hl hend
  | directive =>
    obtain ⟨t, k, c, hd, rfl⟩ := fetchDirective_ok h
    exact ⟨t, by simp, k.toList, List.subset_append_right _ _, Cursor.takes_directive hpeek hd⟩
  | documentStart =>
    obtain rfl := fetchMarker_ok h
    exact takes_pushMark hunwind (through_marker (by decide) hl.2)
  | documentEnd =>
    obtain rfl := fetchMarker_ok h
    exact takes_pushMark hunwind (through_marker (by decide) hl.2)
  | flowStart kind =>
    obtain ⟨s₁, hs, rfl⟩ := fetchFlowStart_ok h
    exact takes_pushMark hs.same.1 hone
  | flowEnd kind =>
    obtain rfl := fetchFlowEnd_ok h
    exact takes_pushMark rfl hone
  | flowEntry =>
    obtain rfl := fetchFlowEntry_ok h
    exact takes_pushMark rfl hone
  | blockEntry =>
    obtain ⟨s₁, ho, rfl⟩ := fetchBlockEntry_ok h
    have hcursor := opened_cursor ho
    exact takes_pushMark hcursor hone
  | key =>
    obtain ⟨s₁, allowKey, ho, rfl⟩ := fetchKey_ok h
    have hcursor := opened_cursor ho
    exact takes_pushMark hcursor hone
  | value =>
    obtain ⟨k, -, rfl⟩ | ⟨-, s₁, allowKey, ho, rfl⟩ := fetchValue_ok h
    · exact takes_pushMark (insertKey_cursor _ _) hone
    · have hcursor := opened_cursor ho
      exact takes_pushMark hcursor hone
  | aliasRef => exact takes_fetchKeyable h fun t c ht => Cursor.takes_name hpeek ht
  | anchor => exact takes_fetchKeyable h fun t c ht => Cursor.takes_name hpeek ht
  | tag =>
    simp only [fetchLead] at h
    exact takes_fetchKeyable h fun t c ht => Cursor.takes_tag hpeek ht
  | quoted double =>
    simp only [fetchLead] at h
    exact takes_fetchKeyable h fun t c ht => Cursor.takes_quoted hpeek ht
  | block folded =>
    obtain ⟨t, k, c, hb, rfl⟩ := fetchBlock_ok h
    exact ⟨t, by simp, [], List.nil_subset _, Cursor.takes_block hpeek hb⟩
  | plain =>
    obtain ⟨s₁, -, rfl⟩ := fetchPlain_ok h
    refine ⟨_, List.mem_append_right _ List.mem_cons_self, [], List.nil_subset _, ?_⟩
    exact .of_trails rfl (Cursor.trails_plain _ _ _)
  | stray found => cases h

/-- No token leaves the queue when a lexeme is read. -/
theorem queue_subset_fetched (hf : Fetched s s') : s.queue ⊆ s'.queue := by
  have hunwind : s.queue ⊆ (s.unwind (-1)).queue := by
    obtain ⟨n, hq⟩ := s.queue_unwind (-1)
    rw [hq]
    exact List.subset_append_left _ _
  cases hf with
  | streamEnd => exact List.Subset.trans hunwind (List.subset_append_left _ _)
  | directive => exact List.Subset.trans hunwind (List.subset_append_left _ _)
  | marker => exact List.Subset.trans hunwind (List.subset_append_left _ _)
  | flowStart _ hs => cases hs <;> exact List.subset_append_left _ _
  | flowEnd => exact List.subset_append_left _ _
  | flowEntry => exact List.subset_append_left _ _
  | @entry s₁ kind opens allowKey _ _ ho =>
    refine List.Subset.trans ?_ (List.subset_append_left s₁.queue _)
    cases ho with
    | flow => exact fun _ => id
    | block =>
      rcases s.queue_openBlock opens with hq | hq
      · rw [hq]
        exact fun _ => id
      · rw [hq]
        exact List.subset_append_left _ _
  | @value k _ _ =>
    -- the inserted tokens stand in the middle of the queue
    obtain ⟨us, hq, -⟩ := s.forgetKey.queue_insertKey k
    refine List.Subset.trans ?_ (List.subset_append_left (s.forgetKey.insertKey k).queue _)
    rw [hq]
    intro t ht
    have hsplit : t ∈ s.queue.take (k.tokenNumber - s.taken) ++
        s.queue.drop (k.tokenNumber - s.taken) := by rwa [List.take_append_drop]
    rcases List.mem_append.1 hsplit with ht | ht
    · exact List.mem_append_left _ (List.mem_append_left _ ht)
    · exact List.mem_append_right _ ht
  | keyable hs => cases hs <;> exact List.subset_append_left _ _
  | block => exact List.subset_append_left _ _

theorem comments_subset_fetched (hf : Fetched s s') : s.comments ⊆ s'.comments := by
  cases hf with
  | directive => exact List.subset_append_left _ _
  | block => exact List.subset_append_left _ _
  | flowStart _ hs => cases hs <;> exact fun _ => id
  | entry _ _ ho => cases ho <;> simp [pushMark, forgetKey]
  | keyable hs => cases hs <;> exact fun _ => id
  | _ => simp [pushMark, forgetKey]

/-- The text in front of the cursor is accounted for by the tokens given and queued and by the
comments. -/
def AccountsFor (text : List Char) (out : List Token) (s : ScanState) : Prop :=
  ∀ i < s.cursor.pos, Accounted text (out ++ s.queue) s.comments i

theorem accounted_skipGap (h : AccountsFor text out s) (hc : (Cursor.ofText text).Ahead s.cursor) :
    AccountsFor text out s.skipGap := by
  intro i hi
  have hcomments : s.comments ⊆ s.skipGap.comments := List.subset_append_left _ _
  have hgap : Cursor.Clear s.cursor.skipByteOrderMark _ s.skipGap.cursor :=
    Cursor.clear_gap _ s.inFlow s.allowKey
  by_cases hi₀ : i < s.cursor.pos
  · exact (h i hi₀).mono (fun _ => id) hcomments
  by_cases hi₁ : i < s.cursor.skipByteOrderMark.pos
  · -- the only character skipped in front of the gap is a byte order mark at the start
    unfold Cursor.skipByteOrderMark at hi₁
    split at hi₁
    · rename_i hb
      obtain ⟨hpos, hbom⟩ := Bool.and_eq_true_iff.1 hb
      have hpos : s.cursor.pos = 0 := beq_iff_eq.1 hpos
      cases hr : s.cursor.rest with
      | nil => simp [Cursor.peek, Cursor.peekAt, hr, nul] at hbom
      | cons ch rest =>
        have hch := hc.getElem?_pos hr
        have hch' : ch = '\ufeff' := by simpa [Cursor.peek, Cursor.peekAt, hr] using hbom
        have hi₀ : i = 0 := by
          have hnext := s.cursor.pos_forward (n := 1) (by simp [hr])
          omega
        rw [hpos] at hch
        exact ⟨ch, hi₀ ▸ hch, by rw [hch']; decide, .inr (.inr (.inl ⟨hi₀, hch'⟩))⟩
    · exact absurd hi₁ hi₀
  · have hbom := hc.trans (Cursor.ahead_skipByteOrderMark _)
    exact (hgap.accounted hbom (by omega) hi).mono (List.nil_subset _)
      (List.subset_append_right _ _)

/-- A whole fetch accounts for all that it reads. -/
theorem accounted_fetch (h : AccountsFor text out s) (hc : (Cursor.ofText text).Ahead s.cursor)
    (hf : s.fetch = (none, s')) : AccountsFor text out s' := by
  obtain ⟨s₁, hr, hl⟩ := fetch_lead hf
  have hgap := accounted_skipGap h hc
  have hc₁ : (Cursor.ofText text).Ahead s₁.cursor := by
    rw [hr.cursor]
    exact hc.trans s.ahead_skipGap
  have hready : AccountsFor text out s₁ := by
    intro i hi
    rw [hr.cursor] at hi
    obtain ⟨n, hq⟩ := queue_readied hr
    rw [hr.comments, hq, ← List.append_assoc]
    exact (hgap i hi).mono (List.subset_append_left _ _) (fun _ => id)
  have hfetched := fetched_of_fetchLead hl
  obtain ⟨t, ht, ks, hks, htakes⟩ := takes_fetchLead hl
  intro i hi
  by_cases hi₁ : i < s₁.cursor.pos
  · exact (hready i hi₁).mono
      (List.append_subset.2 ⟨List.subset_append_left _ _,
        List.subset_append_of_subset_right _ (queue_subset_fetched hfetched)⟩)
      (comments_subset_fetched hfetched)
  · refine (htakes.accounted hc₁ (by omega) hi).mono ?_ hks
    intro u hu
    rw [List.mem_singleton.1 hu]
    exact List.mem_append_right out ht

/-- In all states of a run the text in front of the cursor is accounted for. -/
theorem accounted_run (h : Run text out s) : AccountsFor text out s := by
  induction h with
  | start =>
    intro i hi
    exact absurd hi (Nat.not_lt_zero i)
  | @fetch out s s₁ s' hrun hn hf ih =>
    have hahead := (placed_run hrun).tokens.ahead
    obtain ⟨keys, -, rfl⟩ := (needsMore_ok hn).eq_keys
    have hneeds : AccountsFor text out { s with keys } := ih
    exact accounted_fetch hneeds hahead hf
  | give _ hn hq ih =>
    obtain ⟨keys, -, rfl⟩ := (needsMore_ok hn).eq_keys
    intro i hi
    have hi := ih i hi
    simp only at hq
    rw [hq] at hi
    simpa using hi

/-! ## The frame of the stream -/

/-- The start or the end of the stream. -/
def isStreamMark : TokenKind → Bool
  | .streamStart | .streamEnd => true
  | _ => false

/-- The tokens start with the only start of the stream, and do not end it. -/
def Started (ts : List Token) : Prop :=
  ∃ first inner, ts = first :: inner ∧ first.kind = .streamStart ∧
    ∀ t ∈ inner, isStreamMark t.kind = false

namespace Started

variable {us xs ys : List Token}

theorem push (h : Started ts) (hus : ∀ u ∈ us, isStreamMark u.kind = false) :
    Started (ts ++ us) := by
  obtain ⟨first, inner, rfl, hfirst, hinner⟩ := h
  refine ⟨first, inner ++ us, by simp, hfirst, fun t ht => ?_⟩
  rcases List.mem_append.1 ht with ht | ht
  · exact hinner t ht
  · exact hus t ht

/-- Tokens may be put in front of any token but the first. -/
theorem insert (h : Started (xs ++ ys)) (hxs : xs ≠ [])
    (hus : ∀ u ∈ us, isStreamMark u.kind = false) : Started (xs ++ us ++ ys) := by
  obtain ⟨first, inner, he, hfirst, hinner⟩ := h
  cases xs with
  | nil => exact absurd rfl hxs
  | cons x xs =>
    obtain ⟨rfl, rfl⟩ : x = first ∧ xs ++ ys = inner := by simpa using he
    refine ⟨x, xs ++ us ++ ys, by simp, hfirst, fun t ht => ?_⟩
    rcases List.mem_append.1 ht with ht | ht
    · rcases List.mem_append.1 ht with ht | ht
      · exact hinner t (List.mem_append_left ys ht)
      · exact hus t ht
    · exact hinner t (List.mem_append_right xs ht)

end Started

/-- The frame of all tokens given and queued: the end of the stream is the last token once the
stream is done. No possible key starts at the first token. -/
structure Framed (out : List Token) (s : ScanState) : Prop where
  started : s.done = false → Started (out ++ s.queue)
  ended : s.done = true → ∃ ts last, out ++ s.queue = ts ++ [last] ∧ Started ts ∧
    last.kind = .streamEnd
  keys_pos : ∀ k ∈ s.keys, 0 < k.tokenNumber

/-- Tokens other than the start and the end of the stream may come at the end of the queue. -/
theorem Framed.push (h : Framed out s) (hd : s.done = false) (us : List Token)
    (hus : ∀ u ∈ us, isStreamMark u.kind = false)
    (hs : s'.queue = s.queue ++ us ∧ s'.done = s.done ∧ ∀ k ∈ s'.keys, 0 < k.tokenNumber) :
    Framed out s' := by
  obtain ⟨hq, hdone, hkeys⟩ := hs
  refine ⟨fun _ => ?_, fun hd' => ?_, hkeys⟩
  · rw [hq, ← List.append_assoc]
    exact (h.started hd).push hus
  · rw [hdone, hd] at hd'
    cases hd'

theorem isStreamMark_of_replicate {n : Nat} {m : Mark} :
    ∀ u ∈ List.replicate n (Token.empty .blockEnd m), isStreamMark u.kind = false := by
  intro u hu
  rw [List.eq_of_mem_replicate hu]
  rfl

theorem framed_unwind {column : Int} (h : Framed out s) (hd : s.done = false) :
    Framed out (s.unwind column) := by
  obtain ⟨n, hq⟩ := s.queue_unwind column
  exact h.push hd _ isStreamMark_of_replicate ⟨hq, unwind_done s column, by
    simpa using h.keys_pos⟩

/-- A key that is saved starts behind the start of the stream. -/
theorem keys_pos_saved (h : Framed out s) (hd : s.done = false) (ht : s.taken = out.length)
    (hs : Saved s s₁) : ∀ k ∈ s₁.keys, 0 < k.tokenNumber := by
  cases hs with
  | kept => exact h.keys_pos
  | saved =>
    intro k hk
    rcases List.mem_append.1 hk with hk | hk
    · exact h.keys_pos k (List.mem_filter.1 hk).1
    · obtain rfl : k = s.keyHere := by simpa using hk
      obtain ⟨first, inner, he, -⟩ := h.started hd
      have hlen := congrArg List.length he
      simp only [List.length_append, List.length_cons] at hlen
      simp only [keyHere]
      omega

theorem framed_value {k : SimpleKey} (h : Framed out s) (hd : s.done = false) (hp : s.KeysInPlace)
    (ht : s.taken = out.length) (hk : s.currentKey? = some k) :
    Framed out ({ s.forgetKey.insertKey k with allowKey := false }.pushMark .value 1) := by
  have hmem := (mem_keys_of_currentKey? hk).1
  have hpos := h.keys_pos k hmem
  obtain ⟨xs, vs, hsplit, hlen⟩ := exists_split_of_mem_keys hp ht hmem
  obtain ⟨us, hinsert, hus⟩ :=
    tokens_insertKey (s := s.forgetKey) ht (hp.taken_le k hmem) hsplit hlen
  have hkeys : ∀ l ∈ (s.forgetKey.insertKey k).keys, 0 < l.tokenNumber := by
    intro l hl
    rw [insertKey_keys] at hl
    exact h.keys_pos l (List.mem_filter.1 hl).1
  have hdone : (s.forgetKey.insertKey k).done = false := by
    rw [insertKey_done]
    exact hd
  have hinserted : Framed out (s.forgetKey.insertKey k) := by
    refine ⟨fun _ => ?_, fun hd' => ?_, hkeys⟩
    · rw [hinsert]
      refine (hsplit ▸ h.started hd).insert ?_ ?_
      · exact List.ne_nil_of_length_pos (by omega)
      · rcases hus with rfl | rfl <;> simp [Token.empty, isStreamMark]
    · rw [hdone] at hd'
      cases hd'
  exact hinserted.push hdone [⟨.value, _, _⟩] (by simp [isStreamMark]) ⟨rfl, rfl, hkeys⟩

/-- Reading a lexeme keeps the frame, and ends it only with the stream. -/
theorem framed_fetched (h : Framed out s) (hd : s.done = false) (hp : s.KeysInPlace)
    (ht : s.taken = out.length) (hf : Fetched s s') : Framed out s' := by
  have hu : Framed out (s.unwind (-1)) := framed_unwind h hd
  have hdu : (s.unwind (-1)).done = false := by rw [unwind_done, hd]
  have hforget : ∀ {s₁ : ScanState}, Framed out s₁ →
      ∀ k ∈ s₁.keys.filter (·.level != s₁.flowLevel), 0 < k.tokenNumber :=
    fun h k hk => h.keys_pos k (List.mem_filter.1 hk).1
  -- only the end of the stream ends the frame, and no other lexeme pushes a mark of the stream
  cases hf with
  | streamEnd =>
    refine ⟨fun hd' => (by cases hd'), fun _ => ?_, by simp⟩
    exact ⟨_, _, (List.append_assoc _ _ _).symm, hu.started hdu, rfl⟩
  | directive hc hr =>
    obtain ⟨-, -, name, value, hk⟩ := Cursor.reads_directive hc hr
    exact hu.push hdu _ (by simp [hk, isStreamMark]) ⟨rfl, rfl, hforget hu⟩
  | marker _ _ hk =>
    refine hu.push hdu [⟨_, _, _⟩] ?_ ⟨rfl, rfl, hforget hu⟩
    rcases hk with ⟨-, rfl⟩ | ⟨-, rfl⟩ <;> simp [isStreamMark]
  | @flowStart s₁ kind _ hs hk =>
    have hkeys := keys_pos_saved h hd ht hs
    have hsame : s₁.queue = s.queue ∧ s₁.done = s.done := by cases hs <;> exact ⟨rfl, rfl⟩
    refine h.push hd [⟨kind, s₁.cursor.mark, (s₁.cursor.forward 1).mark⟩] ?_
      ⟨by simp [pushMark, hsame], hsame.2, hkeys⟩
    rcases hk with rfl | rfl <;> simp [isStreamMark]
  | flowEnd _ hk =>
    refine h.push hd [⟨_, _, _⟩] ?_ ⟨rfl, rfl, hforget h⟩
    rcases hk with rfl | rfl <;> simp [isStreamMark]
  | flowEntry => exact h.push hd [⟨_, _, _⟩] (by simp [isStreamMark]) ⟨rfl, rfl, hforget h⟩
  | @entry s₁ kind opens allowKey _ hm ho =>
    have hopened : Framed out s₁ ∧ s₁.done = false := by
      cases ho with
      | flow => exact ⟨h, hd⟩
      | block =>
        refine ⟨?_, by rw [openBlock_done, hd]⟩
        rcases s.queue_openBlock opens with hq | hq
        · exact h.push hd [] (by simp) ⟨by simp [hq], openBlock_done s _, by simpa using h.keys_pos⟩
        · refine h.push hd _ ?_ ⟨hq, openBlock_done s _, by simpa using h.keys_pos⟩
          cases hm <;> simp [Token.empty, isStreamMark]
    refine hopened.1.push hopened.2 [⟨_, _, _⟩] ?_ ⟨rfl, rfl, hforget hopened.1⟩
    cases hm <;> simp [isStreamMark]
  | value _ hk => exact framed_value h hd hp ht hk
  | @keyable s₁ t c allowKey hs _ hk =>
    have hkeys := keys_pos_saved h hd ht hs
    have hsame : s₁.queue = s.queue ∧ s₁.done = s.done := by cases hs <;> exact ⟨rfl, rfl⟩
    refine h.push hd [t] ?_ ⟨by simp [hsame], hsame.2, hkeys⟩
    obtain ⟨_, hk⟩ | ⟨_, hk⟩ | ⟨_, _, hk⟩ | ⟨_, _, hk⟩ := kind_of_startsKey hk <;>
      simp [hk, isStreamMark]
  | @block t _ _ _ _ _ hscalar =>
    obtain ⟨value, style, hk⟩ := kind_of_isScalar hscalar
    exact h.push hd [t] (by simp [hk, isStreamMark]) ⟨rfl, rfl, hforget h⟩

/-- The end of the stream is fetched at the end of the text. -/
theorem rest_of_done_fetched (hf : Fetched s s') (hd : s.done = false) (hd' : s'.done = true) :
    s'.cursor.rest = [] := by
  have hne : s'.done ≠ s.done := by simp [hd, hd']
  cases hf with
  | streamEnd hr => simpa [forgetKey] using hr
  | flowStart _ hs => cases hs <;> exact absurd rfl hne
  | entry _ _ ho => cases ho <;> simp [forgetKey, pushMark] at hne
  | keyable hs => cases hs <;> exact absurd rfl hne
  | _ => simp [forgetKey, pushMark] at hne

/-- In all states of a run the tokens are framed, and a stream is done at the end of its text. -/
theorem framed_run (h : Run text out s) :
    Framed out s ∧ (s.done = true → s.cursor.rest = []) := by
  induction h with
  | start =>
    refine ⟨⟨fun _ => ?_, fun hd => (by cases hd), by simp [ofText]⟩, fun hd => (by cases hd)⟩
    exact ⟨_, [], rfl, rfl, by simp⟩
  | @fetch out s s₁ s' hrun hn hf ih =>
    obtain ⟨s₂, hpoised, hf⟩ := hrun.poised hn hf
    obtain ⟨keys, hkeys, hr⟩ := hpoised.ready
    obtain ⟨n, hq⟩ := queue_readied hr
    have hready : Framed out s₂ := by
      have hd : s.done = false := hr.done.symm.trans hpoised.done
      refine ih.1.push hd _ isStreamMark_of_replicate ⟨hq, hr.done, fun k hk => ?_⟩
      rw [hr.keys] at hk
      exact ih.1.keys_pos k (hkeys.mem (List.mem_filter.1 hk).1)
    exact ⟨framed_fetched hready hpoised.done hpoised.inPlace hpoised.taken hf,
      rest_of_done_fetched hf hpoised.done⟩
  | @give out queue t s s₁ _ hn hq ih =>
    obtain ⟨keys, hkeys, rfl⟩ := (needsMore_ok hn).eq_keys
    obtain ⟨⟨hstarted, hended, hpos⟩, hrest⟩ := ih
    have hsame : out ++ [t] ++ queue = out ++ s.queue := by
      simp only at hq
      simp [hq]
    refine ⟨⟨?_, ?_, fun k hk => hpos k (hkeys.mem hk)⟩, hrest⟩
    · rw [hsame]
      exact hstarted
    · rw [hsame]
      exact hended

/-- The tokens of a scan without an error start with the only start of the stream and end with its
only end. -/
theorem framed_scanText (h : (scanText text).error = none) :
    ∃ ts last, (scanText text).tokens = ts ++ [last] ∧ Started ts ∧ last.kind = .streamEnd := by
  obtain ⟨s, hrun, hends⟩ := run_scanText text
  unfold Ends at hends
  rw [h] at hends
  obtain ⟨hdone, hqueue, -⟩ := hends
  obtain ⟨ts, last, he, hts, hlast⟩ := (framed_run hrun).1.ended hdone
  rw [hqueue, List.append_nil] at he
  exact ⟨ts, last, he, hts, hlast⟩

/-- A step can fail only while the stream is not done. -/
theorem not_done_of_fault (h : s.Fault e s') : s.done = false := by
  rcases h with ⟨hn, -⟩ | ⟨s₁, hn, -⟩
  · cases hd : s.done with
    | false => rfl
    | true => simp [needsMore, hd] at hn
  · have hneeds := needsMore_ok hn
    have hd := hneeds.not_done rfl
    obtain ⟨keys, -, rfl⟩ := hneeds.eq_keys
    exact hd

end ScanState

/-- A scan without an error skips nothing. The text holds no NUL, the tokens run from the only start
to the only end of the stream, and every character lies inside a token or a comment, or is a blank or
a line break, or is a byte order mark in front of everything. A scan with an error gives no end of
the stream. -/
theorem no_text_skipped (text : List Char) :
    ((scanText text).error = none →
        nul ∉ text ∧
        (∃ first inner last, (scanText text).tokens = first :: (inner ++ [last]) ∧
          first.kind = .streamStart ∧ last.kind = .streamEnd ∧
          ∀ t ∈ inner, t.kind ≠ .streamStart ∧ t.kind ≠ .streamEnd) ∧
        ∀ i ch, text[i]? = some ch →
          isBlank ch = true ∨ isBreak ch = true ∨ (i = 0 ∧ ch = '\ufeff') ∨
            (∃ t ∈ (scanText text).tokens, Within text i t.start t.stop) ∨
            ∃ k ∈ (scanText text).comments, Within text i k.start k.stop) ∧
      ∀ e, (scanText text).error = some e → ∀ t ∈ (scanText text).tokens, t.kind ≠ .streamEnd := by
  obtain ⟨s, hrun, hends⟩ := ScanState.run_scanText text
  obtain ⟨hframed, hrest⟩ := ScanState.framed_run hrun
  have haccounts := ScanState.accounted_run hrun
  have hahead := (ScanState.placed_run hrun).tokens.ahead
  constructor
  · intro hnone
    unfold ScanState.Ends at hends
    rw [hnone] at hends
    obtain ⟨hdone, hqueue, hcomments⟩ := hends
    -- all of the text has been read
    have hlen : text.length ≤ s.cursor.pos := by
      rw [← List.drop_eq_nil_iff, ← hahead.rest_eq]
      exact hrest hdone
    have hall : ∀ i ch, text[i]? = some ch →
        Accounted text (scanText text).tokens (scanText text).comments i := by
      intro i ch hch
      have hi := (List.getElem?_eq_some_iff.1 hch).1
      have haccount := haccounts i (by omega)
      rwa [hqueue, List.append_nil, ← hcomments] at haccount
    refine ⟨?_, ?_, ?_⟩
    · intro hnul
      obtain ⟨i, hi⟩ := List.getElem?_of_mem hnul
      obtain ⟨ch, hch, hne, -⟩ := hall i nul hi
      rw [hi] at hch
      exact hne (Option.some.inj hch).symm
    · obtain ⟨ts, last, he, ⟨first, inner, rfl, hfirst, hinner⟩, hlast⟩ := hframed.ended hdone
      rw [hqueue, List.append_nil] at he
      refine ⟨first, inner, last, he, hfirst, hlast, fun t ht => ?_⟩
      have hmark := hinner t ht
      constructor
      · intro hk
        simp [hk, ScanState.isStreamMark] at hmark
      · intro hk
        simp [hk, ScanState.isStreamMark] at hmark
    · intro i ch hch
      obtain ⟨d, hd, -, haccount⟩ := hall i ch hch
      rw [hch] at hd
      cases hd
      exact haccount
  · intro e he t ht hk
    unfold ScanState.Ends at hends
    rw [he] at hends
    obtain ⟨s', hfault, -⟩ := hends
    obtain ⟨first, inner, hsplit, hfirst, hinner⟩ :=
      hframed.started (ScanState.not_done_of_fault hfault)
    have hmem : t ∈ first :: inner := hsplit ▸ List.mem_append_left s.queue ht
    rcases List.mem_cons.1 hmem with rfl | hmem
    · rw [hk] at hfirst
      cases hfirst
    · have hmark := hinner t hmem
      simp [hk, ScanState.isStreamMark] at hmark

/-- The last character of `a #b` belongs to the comment, as no token reaches it. -/
theorem no_text_skipped_comment :
    (scanText "a #b".toList).error = none ∧ nul ∉ "a #b".toList ∧
      ∃ k ∈ (scanText "a #b".toList).comments, Within "a #b".toList 3 k.start k.stop := by
  have herror : (scanText "a #b".toList).error = none := by decide +kernel
  obtain ⟨hnul, -, hchars⟩ := (no_text_skipped "a #b".toList).1 herror
  refine ⟨herror, hnul, ?_⟩
  -- every token stops in front of the comment or starts behind it
  have htokens : (scanText "a #b".toList).tokens.all
      (fun t => t.stop.index < 4 || 3 < t.start.index) = true := by decide +kernel
  rcases hchars 3 'b' rfl with hblank | hbreak | ⟨hzero, -⟩ | ⟨t, ht, hstart, hstop⟩ | hcomment
  · cases hblank
  · cases hbreak
  · cases hzero
  · have hapart := List.all_eq_true.1 htokens t ht
    have hle : t.start.index ≤ 3 := hstart
    have hge : 4 ≤ t.stop.index := hstop
    simp only [Bool.or_eq_true, decide_eq_true_eq] at hapart
    omega
  · exact hcomment

end YamlLinter
