import Mathlib.Data.String.Basic
import YamlLinter.Proofs.Coverage
import YamlLinter.Proofs.Spelling.Lexeme

/-!
# Tokens agree with their text

What a token holds can be checked against the source: the bytes between its marks spell it. The same
goes for comments. Neither an error further on nor a character of several bytes changes that.

## Contents

* `toList_extract`, `Cursor.Spans.extract`: the part of a source between two places, and between the
  marks of two cursors;
* `ScanState.announced_lead`: the first character of a lexeme;
* `spelled_fetchLead`: the tokens of a lexeme stand for their text;
* `spelled_run`: in all states of a run the tokens do;
* `tokens_spell_their_text`: the tokens and the comments of a scan.
-/

namespace YamlLinter

open Text

/-! ## Parts of a source -/

theorem byteCount_eq_utf8Len (text : List Char) : byteCount text = String.utf8Len text := by
  induction text with
  | nil => rfl
  | cons ch text ih => rw [byteCount, String.utf8Len_cons, ih, Nat.add_comm]

/-- The part of a source between two places, told by the characters in front of it and behind it. -/
theorem toList_extract {source : String} {before word behind : List Char}
    (h : source.toList = before ++ (word ++ behind)) :
    (String.Pos.Raw.extract source ⟨byteCount before⟩
      ⟨byteCount before + byteCount word⟩).toList = word := by
  have hsource : source = String.ofList (before ++ word ++ behind) := by
    rw [List.append_assoc, ← h, String.ofList_toList]
  rw [byteCount_eq_utf8Len, byteCount_eq_utf8Len]
  nth_rewrite 1 [hsource]
  rw [String.extract_of_valid, String.toList_ofList]

namespace Cursor

variable {source : String} {c d : Cursor} {word : List Char}

/-- The text between two cursors is the part of the source between their marks. -/
theorem Spans.extract (h : c.Spans word d) (hc : (ofText source.toList).Ahead c) :
    (String.Pos.Raw.extract source ⟨c.mark.index⟩ ⟨d.mark.index⟩).toList = word := by
  have hd : (ofText source.toList).Ahead d := hc.trans h.ahead
  have hpos : d.pos = c.pos + word.length := by
    rw [h.stop]
    exact pos_forward c h.front.length_le
  have hrest : source.toList.drop c.pos = word ++ d.rest := by rw [← hc.rest_eq, h.rest_eq]
  have hread : source.toList.take d.pos = source.toList.take c.pos ++ word := by
    rw [hpos, List.take_add, hrest, List.take_left]
  have hsplit : source.toList = source.toList.take c.pos ++ (word ++ d.rest) := by
    rw [← hrest, List.take_append_drop]
  rw [hc.at_pos.index, hd.at_pos.index, hread, byteCount_append]
  exact toList_extract hsplit

end Cursor

/-- The token is read at some place of the text, and stands for what lies between its marks. -/
def Token.SpelledIn (text : List Char) (t : Token) : Prop :=
  ∃ c, (Cursor.ofText text).Ahead c ∧ c.Spelled t

namespace ScanState

variable {s s' s₁ : ScanState} {text : List Char} {out ts : List Token} {t : Token} {c : Cursor}
  {kind : TokenKind}

/-! ## First characters -/

/-- The first character of a lexeme, where its lead tells more of it than `Fits`. -/
def Announced (s : ScanState) : Lead → Prop
  | .directive => s.cursor.peek = '%'
  | .flowStart kind | .flowEnd kind => Spells kind [s.cursor.peek]
  | .flowEntry => s.cursor.peek = ','
  | .aliasRef => s.cursor.peek = '*'
  | .anchor => s.cursor.peek = '&'
  | .tag => s.cursor.peek = '!'
  | .block folded => s.cursor.peek = if folded then '>' else '|'
  | .quoted double => s.cursor.peek = quoteMark double
  | _ => True

theorem announced_lead (s : ScanState) : s.Announced s.lead := by
  have hflow : ∀ {ch : Char}, (s.cursor.peek == ch) = true → [s.cursor.peek] = [ch] :=
    fun h => congrArg (fun ch => [ch]) (beq_iff_eq.1 h)
  unfold lead
  -- one line for each test of `lead`, in its order
  refine iteInduction (fun _ => trivial) fun _ => ?_
  refine iteInduction (fun h => beq_iff_eq.1 (Bool.and_eq_true_iff.1 h).1) fun _ => ?_
  refine iteInduction (fun _ => trivial) fun _ => ?_
  refine iteInduction (fun _ => trivial) fun _ => ?_
  refine iteInduction (fun h => hflow h) fun _ => ?_
  refine iteInduction (fun h => hflow h) fun _ => ?_
  refine iteInduction (fun h => hflow h) fun _ => ?_
  refine iteInduction (fun h => hflow h) fun _ => ?_
  refine iteInduction (fun h => beq_iff_eq.1 h) fun _ => ?_
  refine iteInduction (fun _ => trivial) fun _ => ?_
  refine iteInduction (fun _ => trivial) fun _ => ?_
  refine iteInduction (fun _ => trivial) fun _ => ?_
  refine iteInduction (fun h => beq_iff_eq.1 h) fun _ => ?_
  refine iteInduction (fun h => beq_iff_eq.1 h) fun _ => ?_
  refine iteInduction (fun h => beq_iff_eq.1 h) fun _ => ?_
  refine iteInduction (fun h => beq_iff_eq.1 (Bool.and_eq_true_iff.1 h).1) fun _ => ?_
  refine iteInduction (fun h => beq_iff_eq.1 (Bool.and_eq_true_iff.1 h).1) fun _ => ?_
  refine iteInduction (fun h => beq_iff_eq.1 h) fun _ => ?_
  refine iteInduction (fun h => beq_iff_eq.1 h) fun _ => ?_
  exact iteInduction (fun _ => trivial) fun _ => trivial

theorem spans_marker {ch : Char} (h : c.atMarker ch = true) :
    c.Spans [ch, ch, ch] (c.forward 3) := by
  simp only [Cursor.atMarker, Bool.and_eq_true, beq_iff_eq] at h
  exact ⟨h.1.2 ▸ List.take_prefix 3 _, rfl⟩

/-! ## The queue -/

/-- All tokens stand for their text. -/
def AllSpelled (text : List Char) (ts : List Token) : Prop := ∀ t ∈ ts, t.SpelledIn text

theorem AllSpelled.push (h : AllSpelled text ts) (hc : (Cursor.ofText text).Ahead c)
    (ht : c.Spelled t) : AllSpelled text (ts ++ [t]) := by
  intro u hu
  rcases List.mem_append.1 hu with hu | hu
  · exact h u hu
  · rw [List.mem_singleton.1 hu]
    exact ⟨c, hc, ht⟩

theorem AllSpelled.closed (h : AllSpelled text ts) (hc : (Cursor.ofText text).Ahead c) (n : Nat) :
    AllSpelled text (ts ++ List.replicate n (.empty .blockEnd c.mark)) := by
  intro u hu
  rcases List.mem_append.1 hu with hu | hu
  · exact h u hu
  · rw [List.eq_of_mem_replicate hu]
    exact ⟨c, hc, .empty rfl⟩

theorem allSpelled_unwind (h : AllSpelled text s.queue)
    (hc : (Cursor.ofText text).Ahead s.cursor) (column : Int) :
    AllSpelled text (s.unwind column).queue := by
  obtain ⟨n, hq⟩ := s.queue_unwind column
  rw [hq]
  exact h.closed hc n

theorem allSpelled_opened (h : AllSpelled text s.queue) (hc : (Cursor.ofText text).Ahead s.cursor)
    (hkind : Spells kind []) (ho : Opened s kind s₁) : AllSpelled text s₁.queue := by
  cases ho with
  | flow => exact h
  | block =>
    rcases s.queue_openBlock kind with hq | hq
    · rw [hq]
      exact h
    · rw [hq]
      exact h.push hc (.empty hkind)

/-- A key without `?` stands for no text, in front of its first token. -/
theorem allSpelled_insertKey {k : SimpleKey} (h : AllSpelled text s.queue) (hp : s.KeysInPlace)
    (hk : k ∈ s.keys) : AllSpelled text (s.forgetKey.insertKey k).queue := by
  obtain ⟨us, hq, hus⟩ := s.forgetKey.queue_insertKey k
  obtain ⟨first, hfirst, hmark⟩ := hp.starts k hk
  obtain ⟨c, hc, word, d, -, hstart, -⟩ := h first (List.mem_of_getElem? hfirst)
  have hcursor : k.mark = c.mark := hmark.symm.trans hstart
  have hkey : AllSpelled text us := by
    intro u hu
    refine ⟨c, hc, ?_⟩
    rw [hcursor] at hus
    rcases hus with rfl | rfl
    · rw [List.mem_singleton.1 hu]
      exact .empty (.inl rfl)
    · rcases List.mem_pair.1 hu with rfl | rfl
      · exact .empty rfl
      · exact .empty (.inl rfl)
  rw [hq]
  intro u hu
  rcases List.mem_append.1 hu with hu | hu
  · rcases List.mem_append.1 hu with hu | hu
    · exact h u (List.mem_of_mem_take hu)
    · exact hkey u hu
  · exact h u (List.mem_of_mem_drop hu)

/-- A mark at the cursor as the last token of the queue. -/
theorem allSpelled_pushMark {word : List Char} {n : Nat} (h : AllSpelled text s₁.queue)
    (hc : (Cursor.ofText text).Ahead c) (hcursor : s₁.cursor = c)
    (hword : c.Spans word (c.forward n)) (hkind : Spells kind word) :
    AllSpelled text (s₁.pushMark kind n).queue := by
  subst hcursor
  exact h.push hc ⟨word, _, hword, rfl, rfl, hkind⟩

theorem allSpelled_fetchMarker {ch : Char} (hq : AllSpelled text s.queue)
    (hc : (Cursor.ofText text).Ahead s.cursor) (hmarker : s.cursor.atMarker ch = true)
    (h : s.fetchMarker kind = .ok s') (hkind : Spells kind [ch, ch, ch]) :
    AllSpelled text s'.queue := by
  have hunwind := allSpelled_unwind hq hc (-1)
  obtain rfl := fetchMarker_ok h
  exact allSpelled_pushMark hunwind hc (unwind_cursor s (-1)) (spans_marker hmarker) hkind

/-- The mark of an entry, a key or a value, behind the start of the collection that it opens. -/
theorem allSpelled_entry {opens : TokenKind} {allowKey : Bool} {ch : Char}
    (h : AllSpelled text s.queue) (hc : (Cursor.ofText text).Ahead s.cursor)
    (ho : Opened s opens s₁) (hopens : Spells opens [])
    (hch : s.cursor.Spans [ch] (s.cursor.forward 1)) (hkind : Spells kind [ch]) :
    AllSpelled text ({ s₁.forgetKey with allowKey }.pushMark kind 1).queue := by
  have hcursor : s₁.cursor = s.cursor := opened_cursor ho
  have hopened : AllSpelled text s₁.queue := allSpelled_opened h hc hopens ho
  exact allSpelled_pushMark hopened hc hcursor hch hkind

theorem allSpelled_fetchKeyable {read : Cursor → Except ScanError (Token × Cursor)}
    (hq : AllSpelled text s.queue) (hc : (Cursor.ofText text).Ahead s.cursor)
    (h : s.fetchKeyable read = .ok s')
    (hread : ∀ t d, read s.cursor = .ok (t, d) → s.cursor.Spelled t) :
    AllSpelled text s'.queue := by
  obtain ⟨s₁, t, d, hs, ht, rfl⟩ := fetchKeyable_ok h
  obtain ⟨-, hqueue, -⟩ := hs.same
  rw [hqueue]
  exact hq.push hc (hread t d ht)

/-! ## Lexemes -/

/-- The tokens of a lexeme stand for their text, those put in front of an earlier token included. -/
theorem spelled_fetchLead (hq : AllSpelled text s.queue) (hc : (Cursor.ofText text).Ahead s.cursor)
    (hp : s.KeysInPlace) (h : s.fetchLead s.lead = .ok s') : AllSpelled text s'.queue := by
  have hl := s.fits_lead
  have ha := s.announced_lead
  have hpeek : s.cursor.rest ≠ [] → s.cursor.peek ≠ nul := fun hne => peek_ne_nul_of_fetchLead hne h
  have hunwind := allSpelled_unwind hq hc (-1)
  -- the lead says which characters the lexeme starts with
  generalize s.lead = lead at h hl ha
  cases lead with
  | streamEnd =>
    obtain ⟨-, rfl⟩ := fetchStreamEnd_ok h
    exact hunwind.push hc (.empty rfl)
  | directive =>
    obtain ⟨t, k, d, hd, rfl⟩ := fetchDirective_ok h
    exact hunwind.push hc (Cursor.spelled_directive ha hd)
  | documentStart => exact allSpelled_fetchMarker hq hc hl.2 h rfl
  | documentEnd => exact allSpelled_fetchMarker hq hc hl.2 h rfl
  | flowStart kind =>
    obtain ⟨s₁, hs, rfl⟩ := fetchFlowStart_ok h
    obtain ⟨hcursor, hqueue, -⟩ := hs.same
    exact allSpelled_pushMark (hqueue ▸ hq) hc hcursor (.one rfl (hpeek hl.1)) ha
  | flowEnd kind =>
    obtain rfl := fetchFlowEnd_ok h
    exact allSpelled_pushMark hq hc rfl (.one rfl (hpeek hl.1)) ha
  | flowEntry =>
    obtain rfl := fetchFlowEntry_ok h
    exact allSpelled_pushMark hq hc rfl (.one ha (by decide)) rfl
  | blockEntry =>
    obtain ⟨s₁, ho, rfl⟩ := fetchBlockEntry_ok h
    exact allSpelled_entry hq hc ho rfl (.one hl.2 (by decide)) rfl
  | key =>
    obtain ⟨s₁, allowKey, ho, rfl⟩ := fetchKey_ok h
    exact allSpelled_entry hq hc ho rfl (.one hl.2 (by decide)) (.inr rfl)
  | value =>
    obtain ⟨k, hk, rfl⟩ | ⟨-, s₁, allowKey, ho, rfl⟩ := fetchValue_ok h
    · have hkey := allSpelled_insertKey hq hp (mem_keys_of_currentKey? hk).1
      exact allSpelled_pushMark hkey hc (insertKey_cursor _ _) (.one hl.2 (by decide)) rfl
    · exact allSpelled_entry hq hc ho rfl (.one hl.2 (by decide)) rfl
  | aliasRef => exact allSpelled_fetchKeyable hq hc h fun _ _ ht => Cursor.spelled_aliasRef ha ht
  | anchor => exact allSpelled_fetchKeyable hq hc h fun _ _ ht => Cursor.spelled_anchor ha ht
  | tag =>
    simp only [fetchLead] at h
    exact allSpelled_fetchKeyable hq hc h fun _ _ ht => Cursor.spelled_tag ha ht
  | quoted double =>
    simp only [fetchLead] at h
    exact allSpelled_fetchKeyable hq hc h fun _ _ ht => Cursor.spelled_quoted ha ht
  | block folded =>
    obtain ⟨t, k, d, hb, rfl⟩ := fetchBlock_ok h
    exact hq.push hc (Cursor.spelled_block ha hb)
  | plain =>
    obtain ⟨s₁, hs, rfl⟩ := fetchPlain_ok h
    obtain ⟨-, hqueue, -⟩ := hs.same
    simp only [hqueue]
    exact hq.push hc (Cursor.spelled_plain hl.1 hl.2)
  | stray found => cases h

/-- In all states of a run the tokens given and queued stand for their text. -/
theorem spelled_run (h : Run text out s) : AllSpelled text (out ++ s.queue) := by
  induction h with
  | start =>
    intro t ht
    rw [List.mem_singleton.1 ht]
    exact ⟨.ofText text, .refl _, .empty rfl⟩
  | @fetch out s s₁ s' hrun hn hf ih =>
    have hneeds := needsMore_ok hn
    have hkeys := inPlace_needs (inPlace_run hrun).1 hneeds
    obtain ⟨keys, -, rfl⟩ := hneeds.eq_keys
    obtain ⟨s₂, hr, hl⟩ := fetch_lead hf
    have hc : (Cursor.ofText text).Ahead s₂.cursor := by
      rw [hr.cursor]
      exact (placed_run hrun).tokens.ahead.trans (ahead_skipGap _)
    have hready : AllSpelled text s₂.queue := by
      obtain ⟨n, hq⟩ := queue_readied hr
      rw [hq]
      exact AllSpelled.closed (fun t ht => ih t (List.mem_append_right out ht)) hc n
    have hfetched := spelled_fetchLead hready hc (inPlace_readied hkeys hr) hl
    intro t ht
    rcases List.mem_append.1 ht with ht | ht
    · exact ih t (List.mem_append_left s.queue ht)
    · exact hfetched t ht
  | @give out queue t s s₁ _ hn hq ih =>
    obtain ⟨keys, -, rfl⟩ := (needsMore_ok hn).eq_keys
    intro u hu
    apply ih u
    simp only at hq
    simpa [hq] using hu

/-- Every comment of a scan is the one that starts at a `#` of the text. -/
theorem written_scanText (text : List Char) {k : Comment} (hk : k ∈ (scanText text).comments) :
    ∃ c, (Cursor.ofText text).Ahead c ∧ c.peek = '#' ∧ k = c.comment := by
  obtain ⟨s, hrun, hends⟩ := run_scanText text
  unfold Ends at hends
  split at hends
  · rw [hends.2.2] at hk
    exact (placed_run hrun).comments.written k hk
  · obtain ⟨s', hfault, hcomments⟩ := hends
    rw [hcomments] at hk
    exact (placed_fault hrun hfault).1.comments.written k hk

end ScanState

/-- The source between the marks of a token spells the token, and the source between the marks of a
comment is its text, which starts with `#` and holds neither a line break nor NUL. -/
theorem tokens_spell_their_text (source : String) :
    (∀ t ∈ (scan source).tokens,
        Spells t.kind (String.Pos.Raw.extract source ⟨t.start.index⟩ ⟨t.stop.index⟩).toList) ∧
      ∀ k ∈ (scan source).comments,
        String.Pos.Raw.extract source ⟨k.start.index⟩ ⟨k.stop.index⟩ = k.text ∧
          k.text.toList.head? = some '#' ∧ ∀ ch ∈ k.text.toList, isBreak ch = false ∧ ch ≠ nul := by
  constructor
  · intro t ht
    obtain ⟨s, hrun, -⟩ := ScanState.run_scanText source.toList
    obtain ⟨c, hc, word, d, hword, hstart, hstop, hspells⟩ :=
      ScanState.spelled_run hrun t (List.mem_append_left s.queue ht)
    rw [hstart, hstop, hword.extract hc]
    exact hspells
  · intro k hk
    obtain ⟨c, hc, hmark, rfl⟩ := ScanState.written_scanText source.toList hk
    obtain ⟨htext, hfirst, hchars⟩ := Cursor.spans_comment hmark
    exact ⟨String.toList_inj.1 (htext.extract hc), hfirst, hchars⟩

/-- A quote inside a scalar behind a character of two bytes, and a comment. -/
theorem tokens_spell_their_text_quoted :
    let source := "é: 'it''s' # ü"
    let token : Token := ⟨.scalar "it's" .singleQuoted, ⟨4, 0, 3⟩, ⟨11, 0, 10⟩⟩
    let comment : Comment := ⟨⟨12, 0, 11⟩, ⟨16, 0, 14⟩, "# ü", true⟩
    token ∈ (scan source).tokens ∧ comment ∈ (scan source).comments ∧
      (String.Pos.Raw.extract source ⟨4⟩ ⟨11⟩).toList =
        '\x27' :: (doubleQuotes "it's".toList ++ ['\x27']) ∧
      String.Pos.Raw.extract source ⟨12⟩ ⟨16⟩ = "# ü" := by
  intro source token comment
  have htoken : token ∈ (scan source).tokens := by decide +kernel
  have hcomment : comment ∈ (scan source).comments := by decide +kernel
  obtain ⟨htokens, hcomments⟩ := tokens_spell_their_text source
  obtain ⟨inner, htext, hvalue⟩ := htokens token htoken
  have hline : OneLine (String.Pos.Raw.extract source ⟨4⟩ ⟨11⟩).toList := by decide +kernel
  rw [hvalue hline] at htext
  exact ⟨htoken, hcomment, htext, (hcomments comment hcomment).1⟩

end YamlLinter
