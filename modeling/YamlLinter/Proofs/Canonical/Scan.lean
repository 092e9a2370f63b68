import YamlLinter.Proofs.Canonical.Lexeme
import YamlLinter.Proofs.Eager

/-!
# Scanning a canonical document

The fetches of a canonical document follow its tree: a word and a colon make a key, a dash opens an
item, and the gap behind the last word of a tree closes its collections. So the scan of the text of a
tree gives the tokens of the tree.

## Contents

* `Steps`: fetches between states that stand in front of a token;
* `scanner`, `landed`: the states in front of the tokens of a canonical document;
* `steps_leaf`, `steps_key`, `steps_dash`: what stands on one line;
* `steps_tree`, `steps_entries`, `steps_items`: the fetches of a tree;
* `scanText_text`: the scan of a canonical document.
-/

namespace YamlLinter.Canonical

open Text ScanState

variable {s s' s₁ s₂ : ScanState} {d : Cursor} {ch : Char} {w r : List Char} {n : Nat}
  {q : List Token} {i : Int} {is : List Int} {allowKey : Bool}

/-! ## Fetches between tokens -/

/-- Fetches that start and end in front of a token, where the gap has been skipped, the keys that
have ended are forgotten and the collections that the column has left are closed. -/
inductive Steps : ScanState → ScanState → Prop where
  | refl {s : ScanState} : Steps s s
  | step {s s₁ s₂ s' : ScanState} : s.done = false → s.fetchLead s.lead = .ok s₁ → Readied s₁ s₂ →
      Steps s₂ s' → Steps s s'

theorem Steps.trans (h₁ : Steps s s₁) (h₂ : Steps s₁ s') : Steps s s' := by
  induction h₁ with
  | refl => exact h₂
  | step hd hf hr _ ih => exact .step hd hf hr (ih h₂)

theorem Steps.single (hd : s.done = false) (hf : s.fetchLead s.lead = .ok s₁)
    (hr : Readied s₁ s₂) : Steps s s₂ :=
  .step hd hf hr .refl

/-- Fetches between tokens, and one more, are fetches. -/
theorem fetches_of_steps (hr : Readied s s₁) (h : Steps s₁ s₂) (hd : s₂.done = false)
    (hf : s₂.fetchLead s₂.lead = .ok s') : Fetches s s' := by
  induction h generalizing s with
  | refl => exact .step (hr.done ▸ hd) (fetch_of_readied hr hf) .refl
  | step hd₁ hf₁ hr₁ _ ih =>
    exact .step (hr.done ▸ hd₁) (fetch_of_readied hr hf₁) (ih hr₁ hd hf)

/-! ## States -/

/-- A scanner at `d`, outside of flow collections, that has read `q` and waits for no key. -/
def scanner (allowKey : Bool) (d : Cursor) (q : List Token) (i : Int) (is : List Int) : ScanState :=
  { cursor := d
    done := false
    failed := false
    flowLevel := 0
    queue := q
    taken := 0
    indent := i
    indents := is
    allowKey
    keys := []
    comments := [] }

/-- A scanner behind the last word of a line, at the next token: the collections that the column of
that token has left are closed. -/
def landed (d : Cursor) (q : List Token) (i : Int) (is : List Int) : ScanState :=
  (scanner true d q i is).unwind d.column

/-- Nothing is closed at the column of the innermost collection. -/
theorem landed_of_le (h : i ≤ d.column) : landed d q i is = scanner true d q i is :=
  unwind_of_le h

/-- A collection is closed in front of a token further left. -/
theorem landed_of_lt {j : Int} (h : (d.column : Int) < i) :
    landed d q i (j :: is) = landed d (q ++ [.empty .blockEnd d.mark]) j is := by
  have hclose : closeIndents d.column i (j :: is) =
      ((closeIndents d.column j is).1 + 1, (closeIndents d.column j is).2) := by
    rw [closeIndents, if_pos h]
  unfold landed unwind
  simp only [scanner, inFlow, bne_self_eq_false, Bool.false_eq_true, if_false, hclose]
  simp [List.replicate_succ]

/-! ## Leads -/

theorem lead_word (hd : d.rest = ch :: r) (hch : ch.isAlphanum = true) (hs : s.cursor = d)
    (hf : s.inFlow = false) : s.lead = .plain := by
  have hpeek : s.cursor.peek = ch := by rw [hs, peek_eq hd]
  have hmarker : ∀ x, x.isAlphanum = false → s.cursor.atMarker x = false := by
    intro x hx
    have hne : ch ≠ x := beq_eq_false_iff_ne.1 (beq_eq_false_of_isAlphanum hch hx)
    simp [Cursor.atMarker, hs, hd, hne]
  have hstarts : ∀ next, startsPlain false ch next = true := by
    intro next
    simp [startsPlain, isBlankOrEnd_of_isAlphanum hch, isIndicator_of_isAlphanum hch]
  have hend : s.cursor.atEnd = false := by simp [Cursor.atEnd, hs, hd]
  unfold lead
  simp (disch := decide) only [hpeek, hmarker, hend, hf, hstarts, beq_eq_false_of_isAlphanum hch,
    Bool.false_and, Bool.false_eq_true, if_false, if_true]

theorem lead_colon (hd : d.rest = ':' :: r) (hr : isBlankOrEnd (r.headD nul) = true)
    (hs : s.cursor = d) : s.lead = .value := by
  have hpeek : s.cursor.peek = ':' := by rw [hs, peek_eq hd]
  have hblank : isBlankOrEnd (s.cursor.peekAt 1) = true := by
    have hnext : s.cursor.peekAt 1 = r.headD nul := by
      simp [Cursor.peekAt, hs, hd, List.headD_eq_head?_getD, List.head?_eq_getElem?]
    rw [hnext, hr]
  have hmarker : ∀ x, x ≠ ':' → s.cursor.atMarker x = false := by
    intro x hx
    simp [Cursor.atMarker, hs, hd, hx.symm]
  have hend : s.cursor.atEnd = false := by simp [Cursor.atEnd, hs, hd]
  unfold lead
  simp [hpeek, hblank, hmarker, hend]

theorem lead_dash (hd : d.rest = '-' :: ' ' :: r) (hs : s.cursor = d) : s.lead = .blockEntry := by
  have hpeek : s.cursor.peek = '-' := by rw [hs, peek_eq hd]
  have hnext : s.cursor.peekAt 1 = ' ' := by simp [Cursor.peekAt, hs, hd]
  have hmarker : ∀ x, s.cursor.atMarker x = false := by
    intro x
    have htake : d.rest.take 3 ≠ [x, x, x] := by
      rw [hd]
      intro h
      obtain ⟨rfl, h⟩ := List.cons.inj h
      cases (List.cons.inj h).1
    simp [Cursor.atMarker, hs, htake]
  have hend : s.cursor.atEnd = false := by simp [Cursor.atEnd, hs, hd]
  unfold lead
  simp [hpeek, hnext, hmarker, hend, isBlankOrEnd, isBlank]

theorem lead_end (hd : d.rest = []) (hs : s.cursor = d) : s.lead = .streamEnd := by
  have hend : s.cursor.atEnd = true := by simp [Cursor.atEnd, hs, hd]
  unfold lead
  simp [hend]

/-! ## One line -/

/-- A gap of spaces, or a line break and spaces, in front of the next token. -/
theorem skipGap_eq {d' : Cursor} {allowKey' : Bool} (hb : s.cursor.peek ≠ '\ufeff')
    (hf : s.flowLevel = 0) (hgap : s.cursor.gap false s.allowKey = ⟨[], allowKey', d'⟩) :
    s.skipGap = { s with cursor := d', allowKey := allowKey' } := by
  have hbom : s.cursor.skipByteOrderMark = s.cursor := by
    rw [Cursor.skipByteOrderMark, if_neg (by simp [hb])]
  simp [skipGap, hbom, inFlow, hf, hgap]

/-- The gap is skipped where no key is waited for. -/
theorem readied_gap {d d' : Cursor} {allowKey' : Bool} (hb : d.peek ≠ '\ufeff')
    (hgap : d.gap false allowKey = ⟨[], allowKey', d'⟩) :
    Readied (scanner allowKey d q i is) ((scanner allowKey' d' q i is).unwind d'.column) := by
  have hskip : (scanner allowKey d q i is).skipGap = scanner allowKey' d' q i is :=
    skipGap_eq hb rfl hgap
  refine ⟨by simp [scanner], ?_⟩
  rw [hskip]
  rfl

/-- The key that may start at the cursor, where a key is allowed. -/
def keysHere (allowKey : Bool) (d : Cursor) (q : List Token) (i : Int) (is : List Int) :
    List SimpleKey :=
  if allowKey then [(scanner allowKey d q i is).keyHere] else []

theorem saveKey_scanner :
    (scanner allowKey d q i is).saveKey =
      .ok { scanner allowKey d q i is with keys := keysHere allowKey d q i is } := by
  cases allowKey with
  | false => rfl
  | true => rfl

/-- A word is read as a plain scalar, which may be a key. -/
theorem fetchLead_word {broken : Bool} {d' : Cursor} {stop : Mark} (word : Word)
    (hd : d.rest = word.chars ++ r) (hplain : d.plain false i = ⟨word.chars, stop, broken, d'⟩)
    (hstop : stop = d.mark.right word.chars.length) :
    (scanner allowKey d q i is).fetchLead (scanner allowKey d q i is).lead =
      .ok { scanner broken d' (q ++ [word.token d.mark]) i is with
        keys := keysHere allowKey d q i is } := by
  obtain ⟨ch, rest, hchars⟩ := List.exists_cons_of_ne_nil word.ne_nil
  have hch : ch.isAlphanum = true := word.alphanum ch (by rw [hchars]; exact List.mem_cons_self)
  rw [lead_word (d := d) (by rw [hd, hchars]; rfl) hch rfl rfl]
  simp only [fetchLead, fetchPlain, saveKey_scanner]
  simp only [scanner, inFlow, bne_self_eq_false, hplain, hstop, Word.token]

/-- A word at the end of a line. The key that it may have been is forgotten on the next line. -/
theorem steps_leaf (allowKey : Bool) (word : Word) (hd : d.rest = word.chars ++ '\n' :: (spaces n ++ r))
    (hr : Follows i n r) (ha : allowKey = true → i ≠ d.column) :
    ∃ d', d'.rest = r ∧ d'.mark = (d.mark.right word.chars.length).down.right n ∧
      Steps (scanner allowKey d q i is) (landed d' (q ++ [word.token d.mark]) i is) := by
  obtain ⟨hrest₁, hmark₁, -⟩ := forward_narrow hd fun x hx =>
    narrow_of_isAlphanum (word.alphanum x hx)
  obtain ⟨hrest₂, hmark₂, -⟩ := forward_newline hrest₁
  obtain ⟨hrest₃, hmark₃, -⟩ := forward_narrow hrest₂ fun x hx => narrow_of_mem_spaces hx
  have hlen : (spaces n).length = n := List.length_replicate ..
  rw [hlen] at hrest₃ hmark₃
  have hplain := plain_newline hd word.ne_nil word.alphanum hr
  generalize hd₁ : d.forward word.chars.length = d₁ at *
  generalize hd' : (d₁.forward 1).forward n = d' at *
  rw [hmark₂, hmark₁] at hmark₃
  refine ⟨d', hrest₃, hmark₃, ?_⟩
  have hstill := still_of_starts hrest₃ hr.1
  -- the state behind the word, at the next token
  have hfetch : (scanner allowKey d q i is).fetchLead (scanner allowKey d q i is).lead =
      .ok { scanner true d' (q ++ [word.token d.mark]) i is with
        keys := keysHere allowKey d q i is } := fetchLead_word word hd hplain hmark₁
  have hskip := skipGap_eq (s := { scanner true d' (q ++ [word.token d.mark]) i is with
    keys := keysHere allowKey d q i is }) hstill.bom rfl (gap_still true hstill)
  refine .single rfl hfetch ⟨?_, ?_⟩
  · intro k hk _
    cases allowKey with
    | false => cases hk
    | true =>
      obtain rfl : k = (scanner true d q i is).keyHere := by simpa [keysHere] using hk
      simp [keyHere, scanner, ha rfl]
  · have hstale : (keysHere allowKey d q i is).filter (fun k => !(ScanState.staleKey
        { scanner true d' (q ++ [word.token d.mark]) i is with
          keys := keysHere allowKey d q i is } k)) = [] := by
      rw [List.filter_eq_nil_iff]
      intro k hk
      cases allowKey with
      | false => cases hk
      | true =>
        obtain rfl : k = (scanner true d q i is).keyHere := by simpa [keysHere] using hk
        simp [staleKey, keyHere, scanner, Cursor.line, hmark₃, Mark.right, Mark.down]
    rw [hskip]
    simp only [scanner] at hstale ⊢
    rw [hstale]
    rfl

/-- What a collection at `column` puts in front of its first token: its start token if it is nested
deeper than the collection around it, and nothing if it is open already or stands at the column of
its key. -/
def Opens (kind : TokenKind) (m : Mark) (column : Nat) (i : Int) (is : List Int) (pre : List Token)
    (outer : List Int) : Prop :=
  i < column ∧ pre = [.empty kind m] ∧ outer = i :: is ∨ i = column ∧ pre = [] ∧ outer = is

variable {pre : List Token} {outer : List Int}

theorem Opens.le {kind : TokenKind} {m : Mark} {column : Nat}
    (h : Opens kind m column i is pre outer) : i ≤ column := by
  rcases h with ⟨h, -⟩ | ⟨h, -⟩ <;> omega

/-- A key is put in front of the last token, and in front of it the start of its mapping, if the
mapping is not open. -/
theorem insertKey_scanner {k : SimpleKey} {t : Token} {m : Mark} (hm : k.mark = m)
    (hn : k.tokenNumber = q.length) (ho : Opens .blockMappingStart m m.column i is pre outer) :
    (scanner allowKey d (q ++ [t]) i is).insertKey k =
      scanner allowKey d (q ++ (pre ++ [.empty .key m, t])) m.column outer := by
  have hplace : ∀ {is' : List Int} {i' : Int} (ts : List Token),
      (scanner allowKey d (q ++ [t]) i' is').insertAt k.tokenNumber ts =
        scanner allowKey d (q ++ ts ++ [t]) i' is' := by
    intro is' i' ts
    simp [insertAt, scanner, hn]
  unfold insertKey
  simp only [hm]
  rcases ho with ⟨hlt, hpre, houter⟩ | ⟨heq, hpre, houter⟩
  · have hnests : (scanner allowKey d (q ++ [t]) i is).nests m.column = true :=
      decide_eq_true hlt
    have hopen : (scanner allowKey d (q ++ [t]) i is).openIndent m.column =
        scanner allowKey d (q ++ [t]) m.column (i :: is) := rfl
    have hflow : (scanner allowKey d (q ++ [t]) i is).inFlow = false := rfl
    rw [hnests, hflow, hopen, hplace, hpre, houter]
    simp
  · have hnests : (scanner allowKey d (q ++ [t]) i is).nests m.column = false :=
      decide_eq_false (by show ¬i < (m.column : Int); omega)
    rw [hnests, hplace, hpre, houter, heq]
    simp

/-- A key and its colon. -/
theorem steps_key (key : Key) (hd : d.rest = key.chars ++ ':' :: r)
    (hr : isBlankOrEnd (r.headD nul) = true)
    (ho : Opens .blockMappingStart d.mark d.column i is pre outer) :
    ∃ d', d'.rest = r ∧ d'.mark = d.mark.right (key.chars.length + 1) ∧
      ∀ s', Readied (scanner false d' (q ++ (pre ++ key.tokens d.mark)) d.column outer) s' →
        Steps (scanner true d q i is) s' := by
  obtain ⟨hrest₁, hmark₁, hpos₁⟩ := forward_narrow hd fun x hx =>
    narrow_of_isAlphanum (key.alphanum x hx)
  have hcolon : ∀ x ∈ [':'], Narrow x := by
    intro x hx
    obtain rfl : x = ':' := by simpa using hx
    exact ⟨by decide, by decide, by decide⟩
  obtain ⟨hrest₂, hmark₂, -⟩ := forward_narrow (w := [':']) hrest₁ hcolon
  rw [List.length_singleton] at hrest₂ hmark₂
  have hplain := plain_colon i hd key.ne_nil key.alphanum hr
  generalize hd₁ : d.forward key.chars.length = d₁ at *
  have hstill := still_of_colon hrest₁
  have hkey : key.chars.length ≤ longestSimpleKey := key.short
  have hle := ho.le
  have hmark : (d₁.forward 1).mark = d.mark.right (key.chars.length + 1) := by
    rw [hmark₂, hmark₁]
    simp [Mark.right, Nat.add_assoc]
  refine ⟨d₁.forward 1, hrest₂, hmark, ?_⟩
  intro s' hs'
  -- the word, which may be a key
  let word : ScanState := { scanner false d₁ (q ++ [key.token d.mark]) i is with
    keys := [(scanner true d q i is).keyHere] }
  have hword : (scanner true d q i is).fetchLead (scanner true d q i is).lead = .ok word :=
    fetchLead_word key.toWord hd hplain hmark₁
  have hskip : word.skipGap = word := skipGap_eq hstill.bom rfl (gap_still false hstill)
  have hfresh : word.staleKey (scanner true d q i is).keyHere = false := by
    simp only [staleKey, keyHere, scanner, Cursor.line, hmark₁, Mark.right, word, hpos₁]
    simp
    omega
  have hready : Readied word word := by
    refine ⟨?_, ?_⟩
    · intro k hk hstale
      obtain rfl : k = (scanner true d q i is).keyHere := by simpa [word] using hk
      rw [hskip, hfresh] at hstale
      cases hstale
    · rw [hskip]
      have hkeys : word.keys.filter (!word.staleKey ·) = word.keys := by
        simp [word] at hfresh ⊢
        exact hfresh
      rw [hkeys]
      refine (unwind_of_le ?_).symm
      show i ≤ (d₁.mark.column : Int)
      rw [hmark₁]
      simp only [Mark.right, Cursor.column] at hle ⊢
      omega
  -- the colon, which makes it one
  have hvalue : word.fetchLead word.lead =
      .ok (scanner false (d₁.forward 1) (q ++ (pre ++ key.tokens d.mark)) d.column outer) := by
    have hcurrent : word.currentKey? = some (scanner true d q i is).keyHere := by
      simp [currentKey?, word, keyHere, scanner]
    have hforget : word.forgetKey = scanner false d₁ (q ++ [key.token d.mark]) i is := by
      simp [forgetKey, word, keyHere, scanner]
    have hinsert : (scanner false d₁ (q ++ [key.token d.mark]) i is).insertKey
        (scanner true d q i is).keyHere = scanner false d₁ (q ++ (pre ++
          [.empty .key d.mark, key.token d.mark])) d.column outer :=
      insertKey_scanner rfl (by simp [keyHere, scanner]) ho
    rw [lead_colon hrest₁ hr rfl]
    simp only [fetchLead, fetchValue, hcurrent, hforget, hinsert]
    simp [pushMark, scanner, Key.tokens, hmark₁, hmark]
  exact .step rfl hword hready (.step rfl hvalue hs' .refl)

/-- A space in front of a token. -/
theorem readied_space (hd : d.rest = ' ' :: r) (hr : Starts r) (hi : i ≤ d.column + 1) :
    ∃ d', d'.rest = r ∧ d'.mark = d.mark.right 1 ∧
      Readied (scanner allowKey d q i is) (scanner allowKey d' q i is) := by
  obtain ⟨hrest, hmark, -⟩ := forward_narrow (w := spaces 1) hd fun x hx => narrow_of_mem_spaces hx
  have hlen : (spaces 1).length = 1 := rfl
  rw [hlen] at hrest hmark
  have hready : Readied (scanner allowKey d q i is) ((scanner allowKey (d.forward 1) q i is).unwind
      (d.forward 1).column) := by
    refine readied_gap ?_ (gap_spaces (n := 1) allowKey hd (still_of_starts hrest hr))
    rw [peek_eq hd]
    decide
  rw [unwind_of_le] at hready
  · exact ⟨d.forward 1, hrest, hmark, hready⟩
  · show i ≤ ((d.forward 1).mark.column : Int)
    rw [hmark]
    exact hi

/-- A line break in front of a token. -/
theorem readied_newline (hd : d.rest = '\n' :: (spaces n ++ r)) (hr : Starts r) (hi : i ≤ n) :
    ∃ d', d'.rest = r ∧ d'.mark = d.mark.down.right n ∧
      Readied (scanner allowKey d q i is) (scanner true d' q i is) := by
  obtain ⟨hrest₁, hmark₁, -⟩ := forward_newline hd
  obtain ⟨hrest, hmark, -⟩ := forward_narrow hrest₁ fun x hx => narrow_of_mem_spaces hx
  have hlen : (spaces n).length = n := List.length_replicate ..
  rw [hlen] at hrest hmark
  rw [hmark₁] at hmark
  have hready : Readied (scanner allowKey d q i is)
      ((scanner true ((d.forward 1).forward n) q i is).unwind
        ((d.forward 1).forward n).column) := by
    refine readied_gap ?_ (gap_newline allowKey hd (still_of_starts hrest hr))
    rw [peek_eq hd]
    decide
  rw [unwind_of_le] at hready
  · exact ⟨(d.forward 1).forward n, hrest, hmark, hready⟩
  · show i ≤ (((d.forward 1).forward n).mark.column : Int)
    rw [hmark]
    simpa [Mark.right, Mark.down] using hi

/-- A dash. -/
theorem steps_dash (hd : d.rest = '-' :: ' ' :: r) (hr : Starts r)
    (ho : Opens .blockSequenceStart d.mark d.column i is pre outer) :
    ∃ d', d'.rest = r ∧ d'.mark = d.mark.right 2 ∧
      Steps (scanner true d q i is) (scanner true d' (q ++ (pre ++ [dash d.mark])) d.column outer) := by
  have hnarrow : ∀ x ∈ ['-'], Narrow x := by
    intro x hx
    obtain rfl : x = '-' := by simpa using hx
    exact ⟨by decide, by decide, by decide⟩
  obtain ⟨hrest, hmark, -⟩ := forward_narrow (w := ['-']) hd hnarrow
  rw [List.length_singleton] at hrest hmark
  -- the first dash of a sequence opens it, and the later ones stand at its column
  have hopen : (scanner true d q i is).openBlock .blockSequenceStart =
      scanner true d (q ++ pre) d.column outer := by
    unfold openBlock
    rcases ho with ⟨hlt, rfl, rfl⟩ | ⟨heq, rfl, rfl⟩
    · exact if_pos (decide_eq_true hlt)
    · rw [if_neg]
      · rw [heq, List.append_nil]
      · simp [nests, scanner, heq]
  have hfetch : (scanner true d q i is).fetchLead (scanner true d q i is).lead =
      .ok (scanner true (d.forward 1) (q ++ (pre ++ [dash d.mark])) d.column outer) := by
    have hok : (scanner true d q i is).openBlockOr .blockSequenceStart .misplacedEntry =
        .ok (scanner true d (q ++ pre) d.column outer) := by
      rw [← hopen]
      rfl
    have hremove : (scanner true d (q ++ pre) d.column outer).removeKey =
        .ok (scanner true d (q ++ pre) d.column outer) := rfl
    rw [lead_dash hd rfl]
    simp only [fetchLead, fetchBlockEntry, hok, hremove]
    simp [pushMark, scanner, dash, hmark]
  have hi : (d.column : Int) ≤ (d.forward 1).column + 1 := by
    show (d.mark.column : Int) ≤ ((d.forward 1).mark.column : Int) + 1
    rw [hmark]
    simp only [Mark.right]
    omega
  obtain ⟨d', hrest', hmark', hready⟩ := readied_space hrest hr hi
  refine ⟨d', hrest', ?_, .single rfl hfetch hready⟩
  rw [hmark', hmark]
  simp [Mark.right]

/-! ## Trees -/

variable {layout : Layout}

theorem starts_word (word : Word) (r : List Char) : Starts (word.chars ++ r) := by
  obtain ⟨ch, rest, hchars⟩ := List.exists_cons_of_ne_nil word.ne_nil
  refine .inr ⟨ch, rest ++ r, by rw [hchars]; rfl, .inl ?_⟩
  exact word.alphanum ch (by rw [hchars]; exact List.mem_cons_self)

theorem starts_entries (es : Entries) (column : Nat) (r : List Char) :
    Starts (es.text layout column ++ r) := by
  cases es with
  | last key value =>
    rw [Entries.text, List.append_assoc]
    exact starts_word key.toWord _
  | cons key value rest =>
    rw [Entries.text, List.append_assoc]
    exact starts_word key.toWord _

theorem starts_items (its : Items) (column : Nat) (r : List Char) :
    Starts (its.text layout column ++ r) := by
  cases its with
  | last item => exact .inr ⟨'-', _, by rw [Items.text]; rfl, .inr ⟨rfl, rfl⟩⟩
  | cons item rest => exact .inr ⟨'-', _, by rw [Items.text]; rfl, .inr ⟨rfl, rfl⟩⟩

theorem starts_tree (t : Tree) (column : Nat) (r : List Char) :
    Starts (t.text layout column ++ r) := by
  cases t with
  | leaf word =>
    rw [Tree.text, List.append_assoc]
    exact starts_word word _
  | mapping es =>
    rw [Tree.text]
    exact starts_entries es column r
  | sequence its =>
    rw [Tree.text]
    exact starts_items its column r

/-- Where a tree may stand: beyond the column `i` of the collection around it, and a collection
also beyond the column `n` of the token behind it, so that it is closed there. A bare sequence stands
at the column of the mapping around it. -/
def Tree.Fits (bare : Bool) (column : Nat) (i : Int) (n : Nat) : Tree → Prop
  | .leaf _ => i < column
  | .mapping _ => i < column ∧ n < column
  | .sequence _ => if bare then i = column else i < column ∧ n < column

/-- The fetches of a tree. -/
def TreeSteps (layout : Layout) (t : Tree) : Prop :=
  ∀ (bare : Bool) (d : Cursor) (q : List Token) (i : Int) (is : List Int) (n : Nat) (r : List Char),
    d.rest = t.text layout d.column ++ (spaces n ++ r) → t.Fits bare d.column i n → Follows i n r →
      ∃ d', d'.rest = r ∧ d'.mark = (t.stop layout d.column d.mark).right n ∧
        Steps (scanner true d q i is)
          (landed d' (q ++ t.tokens layout bare d.column d.mark d'.mark) i is)

/-- The fetches of some lines of a collection, which opens with the first of them. -/
def LineSteps (kind : TokenKind) (text : Nat → List Char) (stop : Nat → Mark → Mark)
    (tokens : Nat → Mark → Mark → List Token) : Prop :=
  ∀ (d : Cursor) (q : List Token) (i : Int) (is : List Int) (pre : List Token) (outer : List Int)
    (n : Nat) (r : List Char),
    d.rest = text d.column ++ (spaces n ++ r) → Opens kind d.mark d.column i is pre outer →
      Follows d.column n r →
        ∃ d', d'.rest = r ∧ d'.mark = (stop d.column d.mark).right n ∧
          Steps (scanner true d q i is)
            (landed d' (q ++ (pre ++ tokens d.column d.mark d'.mark)) d.column outer)

/-- Lines of a collection behind each other. -/
theorem LineSteps.append {kind : TokenKind} {text₁ text₂ : Nat → List Char}
    {stop₁ stop₂ : Nat → Mark → Mark} {tokens₁ tokens₂ : Nat → Mark → Mark → List Token}
    (h₁ : LineSteps kind text₁ stop₁ tokens₁) (h₂ : LineSteps kind text₂ stop₂ tokens₂)
    (hstart : ∀ column r, Starts (text₂ column ++ r))
    (hstop : ∀ column m, (stop₁ column m).column = 0) :
    LineSteps kind (fun column => text₁ column ++ (spaces column ++ text₂ column))
      (fun column m => stop₂ column ((stop₁ column m).right column))
      fun column m e => tokens₁ column m ((stop₁ column m).right column) ++
        tokens₂ column ((stop₁ column m).right column) e := by
  intro d q i is pre outer n r hd ho hr
  obtain ⟨d₁, hrest₁, hmark₁, hsteps₁⟩ := h₁ d q i is pre outer d.column
    (text₂ d.column ++ (spaces n ++ r)) (by simpa using hd) ho
    ⟨hstart _ _, .inr (Int.le_refl _)⟩
  have hcolumn : d₁.column = d.column := by
    show d₁.mark.column = d.column
    rw [hmark₁]
    simp [Mark.right, hstop]
  rw [landed_of_le (Int.le_of_eq (by rw [hcolumn]))] at hsteps₁
  obtain ⟨d', hrest', hmark', hsteps'⟩ := h₂ d₁ (q ++ (pre ++ tokens₁ d.column d.mark d₁.mark))
    d.column outer [] outer n r (by rw [hrest₁, hcolumn]) (.inr ⟨by rw [hcolumn], rfl, rfl⟩)
    (by rw [hcolumn]; exact hr)
  rw [hcolumn, hmark₁] at hmark'
  refine ⟨d', hrest', hmark', hsteps₁.trans ?_⟩
  rw [hcolumn] at hsteps'
  dsimp only
  rw [← hmark₁]
  simpa [List.append_assoc] using hsteps'

/-- The first character behind a colon is blank. -/
theorem isBlankOrEnd_lead (t : Tree) (column : Nat) (r : List Char) :
    isBlankOrEnd ((t.lead layout column ++ r).headD nul) = true := by
  cases t <;> rfl

theorem column_le_of_follows {column width : Nat} (hw : 0 < width) (hr : Follows column n r) :
    n < column + width := by
  rcases hr.2 with ⟨-, rfl⟩ | hle <;> omega

/-- A collection below its key. -/
theorem steps_nested (hw : 0 < layout.width) {column : Nat} (value : Tree)
    (h : TreeSteps layout value)
    (hlead : value.lead layout column = '\n' :: spaces (value.inset layout column))
    (hd : d.rest = value.lead layout column ++ (value.text layout (value.inset layout column) ++
      (spaces n ++ r))) (hr : Follows column n r) :
    ∃ d' s', Readied (scanner false d q column is) s' ∧ d'.rest = r ∧
      d'.mark = (value.stop layout (value.inset layout column)
        (d.mark.down.right (value.inset layout column))).right n ∧
      Steps s' (landed d' (q ++ value.tokens layout (!layout.indented) (value.inset layout column)
        (d.mark.down.right (value.inset layout column)) d'.mark) column is) := by
  have hinset : column ≤ value.inset layout column := by
    unfold Tree.inset
    split
    · exact Nat.le_refl _
    · omega
    · split <;> omega
  -- what follows stands at most at the column of the key, so the collection ends in front of it
  have hfits : value.Fits (!layout.indented) (value.inset layout column) column n := by
    have hn := column_le_of_follows hw hr
    cases value with
    | leaf word => cases hlead
    | mapping es =>
      simp only [Tree.Fits, Tree.inset]
      omega
    | sequence its =>
      cases hin : layout.indented with
      | true =>
        simp only [Tree.Fits, Tree.inset, hin]
        simp
        omega
      | false => simp [Tree.Fits, Tree.inset, hin]
  rw [hlead, List.cons_append] at hd
  have hgap : ∃ d₂ : Cursor, d₂.rest = _ ∧ d₂.mark = d.mark.down.right (value.inset layout column) ∧
      Readied (scanner false d q column is) (scanner true d₂ q column is) :=
    readied_newline hd (starts_tree value _ _) (by omega)
  obtain ⟨d₂, hrest₂, hmark₂, hready⟩ := hgap
  have hcolumn : d₂.column = value.inset layout column := by
    show d₂.mark.column = _
    rw [hmark₂]
    simp [Mark.right, Mark.down]
  obtain ⟨d', hrest', hmark', hsteps'⟩ := h (!layout.indented) d₂ q column is n r
    (by rw [hcolumn]; exact hrest₂) (by rw [hcolumn]; exact hfits) hr
  rw [hcolumn, hmark₂] at hmark' hsteps'
  exact ⟨d', _, hready, hrest', hmark', hsteps'⟩

/-- A key with its value. -/
theorem lineSteps_entry (hw : 0 < layout.width) (key : Key) (value : Tree)
    (h : TreeSteps layout value) :
    LineSteps .blockMappingStart
      (fun column => key.chars ++ ':' ::
        (value.lead layout column ++ value.text layout (value.inset layout column)))
      (fun column m => value.stop layout (value.inset layout column)
        (value.place layout column (m.right (key.chars.length + 1))))
      fun column m e => key.tokens m ++ value.tokens layout (!layout.indented)
        (value.inset layout column)
        (value.place layout column (m.right (key.chars.length + 1))) e := by
  intro d q i is pre outer n r hd ho hr
  dsimp only at hd ⊢
  obtain ⟨d₁, hrest₁, hmark₁, hsteps₁⟩ := steps_key (q := q) key
    (r := value.lead layout d.column ++ (value.text layout (value.inset layout d.column) ++
      (spaces n ++ r))) (by simpa using hd) (isBlankOrEnd_lead value _ _) ho
  rw [← hmark₁]
  match value with
  | .leaf word =>
    rw [Tree.lead, Tree.text, List.append_assoc] at hrest₁
    have hcolumn : (d.column : Int) ≤ d₁.column + 1 := by
      show (d.mark.column : Int) ≤ (d₁.mark.column : Int) + 1
      rw [hmark₁]
      simp only [Mark.right]
      omega
    -- the word stands on the line of its key, behind one space
    obtain ⟨d₂, hrest₂, hmark₂, hready⟩ := readied_space hrest₁ (starts_word word _) hcolumn
    obtain ⟨d', hrest', hmark', hsteps'⟩ := steps_leaf false word hrest₂ hr
      (fun h => by cases h)
    refine ⟨d', hrest', ?_, ?_⟩
    · rw [hmark', hmark₂]
      rfl
    · have hall := (hsteps₁ _ hready).trans hsteps'
      rw [hmark₂] at hall
      simpa [Tree.tokens, Tree.place] using hall
  | .mapping es =>
    obtain ⟨d', s', hready, hrest', hmark', hsteps'⟩ := steps_nested hw (.mapping es) h rfl hrest₁ hr
    refine ⟨d', hrest', hmark', ?_⟩
    have hall := (hsteps₁ _ hready).trans hsteps'
    simpa [Tree.place] using hall
  | .sequence its =>
    obtain ⟨d', s', hready, hrest', hmark', hsteps'⟩ := steps_nested hw (.sequence its) h rfl hrest₁
      hr
    refine ⟨d', hrest', hmark', ?_⟩
    have hall := (hsteps₁ _ hready).trans hsteps'
    simpa [Tree.place] using hall

/-- A dash with its item. -/
theorem lineSteps_item (item : Tree) (h : TreeSteps layout item) :
    LineSteps .blockSequenceStart (fun column => '-' :: ' ' :: item.text layout (column + 2))
      (fun column m => item.stop layout (column + 2) (m.right 2))
      fun column m e => dash m :: item.tokens layout false (column + 2) (m.right 2) e := by
  intro d q i is pre outer n r hd ho hr
  dsimp only at hd ⊢
  obtain ⟨d₁, hrest₁, hmark₁, hsteps₁⟩ := steps_dash (q := q) hd (starts_tree item _ _) ho
  have hcolumn : d₁.column = d.column + 2 := by
    show d₁.mark.column = d.mark.column + 2
    rw [hmark₁]
    rfl
  have hfits : item.Fits false d₁.column d.column n := by
    have hn : n < d.column + 2 := column_le_of_follows (by omega) hr
    rw [hcolumn]
    cases item <;> simp [Tree.Fits] <;> omega
  obtain ⟨d', hrest', hmark', hsteps'⟩ := h false d₁ (q ++ (pre ++ [dash d.mark])) d.column outer n r
    (by rw [hcolumn]; exact hrest₁) hfits hr
  rw [hcolumn, hmark₁] at hmark' hsteps'
  refine ⟨d', hrest', hmark', hsteps₁.trans ?_⟩
  simpa using hsteps'

mutual

/-- The fetches of a tree. -/
theorem steps_tree (hw : 0 < layout.width) (t : Tree) : TreeSteps layout t := by
  intro bare d q i is n r hd hfits hr
  match t with
  | .leaf word =>
    rw [Tree.text, List.append_assoc] at hd
    exact steps_leaf true word hd hr fun _ => Int.ne_of_lt hfits
  | .mapping es =>
    rw [Tree.text] at hd
    obtain ⟨hi, hn⟩ := hfits
    have hfollows : Follows d.column n r := ⟨hr.1, hr.2.imp_right fun h => by omega⟩
    obtain ⟨d', hrest', hmark', hsteps'⟩ := lineSteps_entries hw es d q i is
      [.empty .blockMappingStart d.mark] (i :: is) n r hd (.inl ⟨hi, rfl, rfl⟩) hfollows
    have hcolumn : d'.column = n := by
      show d'.mark.column = n
      rw [hmark']
      simp [Mark.right, column_stop_entries]
    -- the next token is further left, so that the mapping is closed in front of it
    rw [landed_of_lt (by omega)] at hsteps'
    refine ⟨d', hrest', by rw [hmark', Tree.stop], ?_⟩
    rw [Tree.tokens]
    simpa using hsteps'
  | .sequence its =>
    rw [Tree.text] at hd
    cases bare with
    | true =>
      -- the items stand at the column of the key: nothing is opened, and nothing closed
      have hi : i = d.column := hfits
      subst hi
      obtain ⟨d', hrest', hmark', hsteps'⟩ := lineSteps_items hw its d q d.column is [] is n r hd
        (.inr ⟨rfl, rfl, rfl⟩) hr
      refine ⟨d', hrest', by rw [hmark', Tree.stop], ?_⟩
      rw [Tree.tokens]
      simpa using hsteps'
    | false =>
      obtain ⟨hi, hn⟩ : i < d.column ∧ n < d.column := hfits
      have hfollows : Follows d.column n r := ⟨hr.1, hr.2.imp_right fun h => by omega⟩
      obtain ⟨d', hrest', hmark', hsteps'⟩ := lineSteps_items hw its d q i is
        [.empty .blockSequenceStart d.mark] (i :: is) n r hd (.inl ⟨hi, rfl, rfl⟩) hfollows
      have hcolumn : d'.column = n := by
        show d'.mark.column = n
        rw [hmark']
        simp [Mark.right, column_stop_items]
      rw [landed_of_lt (by omega)] at hsteps'
      refine ⟨d', hrest', by rw [hmark', Tree.stop], ?_⟩
      rw [Tree.tokens]
      simpa using hsteps'

/-- The fetches of the entries of a mapping. -/
theorem lineSteps_entries (hw : 0 < layout.width) (es : Entries) :
    LineSteps .blockMappingStart (es.text layout) (es.stop layout) (es.tokens layout) := by
  match es with
  | .last key value =>
    have h := lineSteps_entry hw key value (steps_tree hw value)
    simpa only [Entries.text, Entries.stop, Entries.tokens] using h
  | .cons key value rest =>
    have h := (lineSteps_entry hw key value (steps_tree hw value)).append
      (lineSteps_entries hw rest) (starts_entries rest) fun _ _ => column_stop_tree value _ _
    simpa only [Entries.text, Entries.stop, Entries.tokens, List.append_assoc,
      List.cons_append] using h

/-- The fetches of the items of a sequence. -/
theorem lineSteps_items (hw : 0 < layout.width) (its : Items) :
    LineSteps .blockSequenceStart (its.text layout) (its.stop layout) (its.tokens layout) := by
  match its with
  | .last item =>
    have h := lineSteps_item item (steps_tree hw item)
    simpa only [Items.text, Items.stop, Items.tokens] using h
  | .cons item rest =>
    have h := (lineSteps_item item (steps_tree hw item)).append (lineSteps_items hw rest)
      (starts_items rest) fun _ _ => column_stop_tree item _ _
    simpa only [Items.text, Items.stop, Items.tokens, List.append_assoc, List.cons_append] using h

end

/-! ## Whole documents -/

/-- If the fetches of a text lead to its end, its tokens are those read on the way, the end tokens of
the collections that are still open, and the end of the stream. -/
theorem scanText_of_steps (hw : Starts w) (hd : d.rest = [])
    (h : Steps (scanner true (.ofText w) [.empty .streamStart .origin] (-1) [])
      (scanner true d q i is)) :
    scanText w =
      ⟨((scanner true d q i is).unwind (-1)).queue ++ [.empty .streamEnd d.mark], [], none⟩ := by
  have hstill : Still (.ofText w) := still_of_starts rfl hw
  have hready : Readied (ofText w) (scanner true (.ofText w) [.empty .streamStart .origin] (-1) []) := by
    have hready : Readied (ofText w) ((scanner true (.ofText w) [.empty .streamStart .origin]
        (-1) []).unwind (Cursor.ofText w).column) := readied_gap hstill.bom (gap_still true hstill)
    rwa [unwind_of_le (by show (-1 : Int) ≤ 0; decide)] at hready
  let last : ScanState :=
    { (scanner true d q i is).unwind (-1) with
      allowKey := false
      queue := ((scanner true d q i is).unwind (-1)).queue ++ [.empty .streamEnd d.mark]
      done := true }
  have hfetch : (scanner true d q i is).fetchLead (scanner true d q i is).lead = .ok last := by
    rw [lead_end hd rfl]
    rfl
  exact scanText_of_fetches (fetches_of_steps hready h rfl hfetch) rfl

/-- The collection at the first column is closed at the end of the text. -/
theorem scanText_of_lines {kind : TokenKind} {text : Nat → List Char} {stop : Nat → Mark → Mark}
    {tokens : Nat → Mark → Mark → List Token} (h : LineSteps kind text stop tokens)
    (hstart : Starts (text 0)) :
    scanText (text 0) = ⟨.empty .streamStart .origin :: .empty kind .origin ::
      (tokens 0 .origin (stop 0 .origin) ++
        [.empty .blockEnd (stop 0 .origin), .empty .streamEnd (stop 0 .origin)]), [], none⟩ := by
  obtain ⟨d, hrest, hmark, hsteps⟩ := h (.ofText (text 0)) [.empty .streamStart .origin] (-1) []
    [.empty kind .origin] [-1] 0 [] (by simp [Cursor.ofText, Cursor.column, Mark.origin, spaces])
    (.inl ⟨Int.negSucc_lt_zero 0, rfl, rfl⟩) ⟨.inl rfl, .inl ⟨rfl, rfl⟩⟩
  have hd : d.mark = stop 0 .origin := by
    rw [hmark]
    rfl
  rw [landed_of_le (by simp [Cursor.ofText, Cursor.column, Mark.origin])] at hsteps
  rw [scanText_of_steps hstart hrest hsteps, ← hd]
  have hclose : closeIndents (-1) 0 [-1] = (1, -1, []) := by decide
  simp [unwind, scanner, inFlow, Cursor.ofText, Cursor.column, Mark.origin, hclose]

/-- The scan of a canonical document. -/
theorem scanText_text (hw : 0 < layout.width) (t : Tree) :
    scanText (t.text layout 0) = ⟨t.stream layout, [], none⟩ := by
  cases t with
  | leaf word =>
    have hstart : Starts (word.chars ++ ['\n']) := starts_word word _
    obtain ⟨d, hrest, hmark, hsteps⟩ := steps_leaf (d := .ofText (word.chars ++ ['\n']))
      (n := 0) (r := []) (q := [.empty .streamStart .origin]) (i := -1) true word rfl
      ⟨.inl rfl, .inl ⟨rfl, rfl⟩⟩ (fun _ => by show (-1 : Int) ≠ 0; decide)
    rw [landed_of_le (by omega)] at hsteps
    rw [Tree.text, scanText_of_steps hstart hrest hsteps, unwind_of_le (by show (-1 : Int) ≤ -1; decide),
      hmark]
    rfl
  | mapping es =>
    have hstart : Starts (es.text layout 0 ++ []) := starts_entries es 0 []
    rw [List.append_nil] at hstart
    have h := scanText_of_lines (lineSteps_entries hw es) hstart
    rw [Tree.text, h, Tree.stream, Tree.stop, Tree.tokens]
    simp
  | sequence its =>
    have hstart : Starts (its.text layout 0 ++ []) := starts_items its 0 []
    rw [List.append_nil] at hstart
    have h := scanText_of_lines (lineSteps_items hw its) hstart
    rw [Tree.text, h, Tree.stream, Tree.stop, Tree.tokens]
    simp

end YamlLinter.Canonical
