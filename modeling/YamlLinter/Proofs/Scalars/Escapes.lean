import Mathlib.Data.Nat.Digits.Defs
import Mathlib.Tactic.Ring
import YamlLinter.Proofs.Scalars.Alone
import YamlLinter.Proofs.Spelling.Scan

/-!
# Escapes in double quotes

A backslash in double quotes starts an escape. Here the escapes are listed as a table and described
by what their digits denote, and the reader is seen to follow that description: a double-quoted
scalar is a row of pieces, each of which adds to the value what it stands for. An escape by code
point is the only piece that can be begun and not be finished; where it is not, the scan ends with
an error at that place.

The number behind `\x`, `\u` or `\U` may carry a sign, which takes the place of a digit.

## Contents

* `letterEscapes`, `codeEscapes`, `HexDenotes`, `CodePoint`: what escapes stand for;
* `escapeLetter_eq_some_iff`, `escapeLength_eq_some_iff`, `escapeCode_eq_some_iff`: the reader of
  escapes;
* `Piece`: a step inside double quotes;
* `pieces_quotedBody`: the inside of a double-quoted scalar is made of pieces;
* `quotedIn_run`: the double-quoted scalars of a run are read at a quote;
* `WithinQuotes`: the places that the scanner reaches inside double quotes;
* `escapes_by_code_point`: the escapes of all double-quoted scalars of a source.
-/

namespace YamlLinter

open Text

/-! ## What escapes stand for -/

/-- The letters behind a backslash, each with the character that the escape stands for. -/
def letterEscapes : List (Char × Char) :=
  [('0', '\x00'), ('a', '\x07'), ('b', '\x08'), ('t', '\t'), ('\t', '\t'), ('n', '\n'),
    ('v', '\x0b'), ('f', '\x0c'), ('r', '\r'), ('e', '\x1b'), (' ', ' '), ('\x22', '\x22'),
    ('/', '/'), ('\\', '\\'), ('N', '\u0085'), ('_', '\u00a0'), ('L', '\u2028'), ('P', '\u2029')]

/-- The letters that start an escape by code point, each with the number of digits behind it. -/
def codeEscapes : List (Char × Nat) := [('x', 2), ('u', 4), ('U', 8)]

/-- Hexadecimal digits of either case, the most significant first, denote a number. -/
def HexDenotes (digits : List Char) (n : Nat) : Prop :=
  ∃ ds : List Nat, List.Forall₂ (fun c d => hexValue c = some d) digits ds ∧
    Nat.ofDigits 16 ds.reverse = n

/-- The `n` characters behind the letter of an escape denote the code point of `ch`. -/
inductive CodePoint (n : Nat) (ch : Char) : List Char → Prop where
  /-- All of them are digits. -/
  | digits {digits : List Char} : digits.length = n → HexDenotes digits ch.toNat →
      CodePoint n ch digits
  /-- The first of them is a sign. -/
  | signed {digits : List Char} : digits.length + 1 = n → HexDenotes digits ch.toNat →
      CodePoint n ch ('+' :: digits)

variable {l ch : Char} {n : Nat} {digits : List Char}

theorem escapeLetter_eq_some_iff : escapeLetter l = some ch ↔ (l, ch) ∈ letterEscapes := by
  unfold escapeLetter
  split <;> simp_all [letterEscapes, eq_comm]

theorem escapeLength_eq_some_iff : escapeLength l = some n ↔ (l, n) ∈ codeEscapes := by
  unfold escapeLength
  split <;> simp_all [codeEscapes, eq_comm]

theorem two_le_of_mem_codeEscapes (h : (l, n) ∈ codeEscapes) : 2 ≤ n := by
  have hall : ∀ p ∈ codeEscapes, 2 ≤ p.2 := by decide
  exact hall (l, n) h

/-- The letters of the two tables are different. -/
theorem escapeLetter_of_mem_codeEscapes (h : (l, n) ∈ codeEscapes) : escapeLetter l = none := by
  have hall : ∀ p ∈ codeEscapes, escapeLetter p.1 = none := by decide
  exact hall (l, n) h

theorem charOfCode_eq_some_iff : charOfCode n = some ch ↔ ch.toNat = n := by
  unfold charOfCode
  by_cases hvalid : n.isValidChar
  · rw [dif_pos hvalid]
    constructor
    · intro h
      cases h
      rfl
    · rintro rfl
      rfl
  · rw [dif_neg hvalid]
    constructor
    · intro h
      cases h
    · rintro rfl
      exact absurd ch.valid hvalid

theorem hexNumber_of_forall₂ {ds : List Nat}
    (h : List.Forall₂ (fun c d => hexValue c = some d) digits ds) (acc : Nat) :
    hexNumber acc digits = some (acc * 16 ^ ds.length + Nat.ofDigits 16 ds.reverse) := by
  induction h generalizing acc with
  | nil => simp [hexNumber]
  | @cons c d digits ds hc hds ih =>
    rw [hexNumber, hc]
    simp only
    rw [ih, List.reverse_cons, Nat.ofDigits_append, Nat.ofDigits_singleton, List.length_reverse,
      List.length_cons, pow_succ]
    congr 1
    ring

theorem exists_forall₂_of_hexNumber {acc : Nat} (h : hexNumber acc digits = some n) :
    ∃ ds, List.Forall₂ (fun c d => hexValue c = some d) digits ds := by
  induction digits generalizing acc with
  | nil => exact ⟨[], .nil⟩
  | cons c digits ih =>
    rw [hexNumber] at h
    split at h
    · rename_i d hd
      obtain ⟨ds, hds⟩ := ih h
      exact ⟨d :: ds, .cons hd hds⟩
    · cases h

theorem hexNumber_eq_some_iff : hexNumber 0 digits = some n ↔ HexDenotes digits n := by
  constructor
  · intro h
    obtain ⟨ds, hds⟩ := exists_forall₂_of_hexNumber h
    refine ⟨ds, hds, ?_⟩
    rw [hexNumber_of_forall₂ hds, Option.some.injEq] at h
    omega
  · rintro ⟨ds, hds, rfl⟩
    rw [hexNumber_of_forall₂ hds]
    simp

theorem charOfCode_hexNumber :
    (hexNumber 0 digits).bind charOfCode = some ch ↔ HexDenotes digits ch.toNat := by
  simp only [Option.bind_eq_some_iff, hexNumber_eq_some_iff, charOfCode_eq_some_iff]
  constructor
  · rintro ⟨m, hm, rfl⟩
    exact hm
  · intro h
    exact ⟨_, h, rfl⟩

/-- A sign is no digit. -/
theorem not_hexDenotes_sign : ¬HexDenotes ('+' :: digits) n := by
  rintro ⟨ds, hds, -⟩
  cases hds with
  | cons hd _ =>
    have hnone : hexValue '+' = none := by decide
    rw [hnone] at hd
    cases hd

/-- The reader of code points. Where at least two characters are asked for, a sign is followed by a
digit. -/
theorem escapeCode_eq_some_iff (hn : 2 ≤ n) :
    escapeCode n digits = some ch ↔ CodePoint n ch digits := by
  unfold escapeCode
  by_cases hlen : digits.length = n
  · rw [if_pos (beq_iff_eq.2 hlen)]
    constructor
    · intro h
      unfold signedHex at h
      split at h
      · cases h
      · exact .signed hlen (charOfCode_hexNumber.1 h)
      · exact .digits hlen (charOfCode_hexNumber.1 h)
    · intro h
      cases h with
      | digits _ hd =>
        unfold signedHex
        split
        · rw [List.length_nil] at hlen
          omega
        · exact absurd hd not_hexDenotes_sign
        · exact charOfCode_hexNumber.2 hd
      | @signed ds hl hd =>
        -- a sign alone is too short, so it is in front of digits
        cases ds with
        | nil =>
          rw [List.length_nil] at hl
          omega
        | cons c ds => exact charOfCode_hexNumber.2 hd
  · rw [if_neg (by simpa using hlen)]
    constructor
    · intro h
      cases h
    · intro h
      cases h with
      | digits hl => exact absurd hl hlen
      | signed hl => exact absurd hl hlen

/-! ## Pieces -/

/-- The text consists of blanks and line breaks. -/
def IsLayout (text : List Char) : Prop := ∀ ch ∈ text, isLayout ch = true

/-- A step inside double quotes: the text that is read, and what it adds to the value. -/
inductive Piece : List Char → List Char → Prop where
  /-- A character that stands for itself. -/
  | plain {ch : Char} : ch ≠ '\x22' → ch ≠ '\\' → isBlankOrEnd ch = false → Piece [ch] [ch]
  /-- Blanks inside a line. -/
  | blanks {text : List Char} : text ≠ [] → (∀ ch ∈ text, isBlank ch = true) → Piece text text
  /-- Line breaks with the blanks around them, which are folded. -/
  | folded {text value : List Char} : (∃ ch ∈ text, isBreak ch = true) → IsLayout text →
      IsLayout value → Piece text value
  /-- A line break that is escaped, with the blanks and line breaks behind it. -/
  | joined {ch : Char} {text value : List Char} : isBreak ch = true → IsLayout text →
      IsLayout value → Piece ('\\' :: ch :: text) value
  /-- An escape by a letter. -/
  | letter {l ch : Char} : (l, ch) ∈ letterEscapes → Piece ['\\', l] [ch]
  /-- An escape by code point. -/
  | code {l ch : Char} {n : Nat} {digits : List Char} : (l, n) ∈ codeEscapes →
      CodePoint n ch digits → Piece ('\\' :: l :: digits) [ch]

namespace Cursor

variable {c d : Cursor} {part : QuotedPart}

/-- The text that is read by a walk through a class of characters. -/
theorem Through.spans {p : Char → Bool} (h : c.Through p d) :
    ∃ word, c.Spans word d ∧ ∀ ch ∈ word, p ch = true := by
  induction h with
  | refl c => exact ⟨[], .refl c, by simp⟩
  | @step c c' ch rest hrest hp _ ih =>
    obtain ⟨word, hword, hall⟩ := ih
    have hfirst : c.Spans [ch] c.advance := ⟨by rw [hrest]; exact ⟨rest, rfl⟩, rfl⟩
    refine ⟨[ch] ++ word, hfirst.trans hword, ?_⟩
    intro x hx
    rcases List.mem_cons.1 hx with rfl | hx
    · exact hp
    · exact hall x hx

/-- A line break stands for a line break. -/
theorem isBreak_of_lineBreak? (h : c.lineBreak? = some (ch, d)) : isBreak ch = true := by
  unfold lineBreak? at h
  simp only at h
  split at h
  · cases h
    rfl
  · split at h
    · cases h
      rfl
    · split at h
      · rename_i hseparator
        cases h
        rcases Bool.or_eq_true_iff.1 hseparator with hls | hps
        · rw [beq_iff_eq.1 hls]
          rfl
        · rw [beq_iff_eq.1 hps]
          rfl
      · cases h

theorem isLayout_of_lineBreak? (h : c.lineBreak? = some (ch, d)) : isLayout ch = true := by
  rw [isLayout, isBreak_of_lineBreak? h, Bool.or_true]

/-- Empty lines inside quotes are read as blanks and line breaks, and add line breaks. -/
theorem layout_quotedBreaks (h : c.quotedBreaks = .ok part) :
    c.Through isLayout part.cursor ∧ IsLayout part.text := by
  fun_induction quotedBreaks c generalizing part with
  | case1 => simp [fail] at h
  | case2 c =>
    cases h
    exact ⟨.blanks c, by simp [IsLayout]⟩
  | case3 => cases h
  | case4 c _ ch c' hb more hm ih =>
    cases h
    obtain ⟨hthrough, htext⟩ := ih hm
    refine ⟨((Through.blanks c).trans (through_lineBreak? hb)).trans hthrough, ?_⟩
    intro x hx
    rcases List.mem_cons.1 hx with rfl | hx
    · exact isLayout_of_lineBreak? hb
    · exact htext x hx

theorem layout_foldedBreak {first : Char} {more : List Char} (hfirst : isLayout first = true)
    (hmore : IsLayout more) : IsLayout (foldedBreak first more) := by
  unfold foldedBreak
  split
  · intro x hx
    rcases List.mem_cons.1 hx with rfl | hx
    · exact hfirst
    · exact hmore x hx
  · split
    · intro x hx
      rw [List.mem_singleton.1 hx]
      rfl
    · exact hmore

/-- A line break and what is read of the layout behind it. -/
theorem spans_break (h : c.lineBreak? = some (ch, d)) (hd : d.quotedBreaks = .ok part) :
    ∃ word, c.Spans (c.peek :: word) part.cursor ∧ isBreak c.peek = true ∧
      IsLayout (c.peek :: word) := by
  obtain ⟨hthrough, -⟩ := layout_quotedBreaks hd
  obtain ⟨word, hword, hall⟩ := ((through_lineBreak? h).trans hthrough).spans
  have hlt := Nat.lt_of_le_of_lt hthrough.ahead.length_rest_le (length_rest_lineBreak? h)
  obtain ⟨u, rfl⟩ := hword.exists_cons hlt
  exact ⟨u, hword, isBreak_peek h, hall⟩

/-- A gap inside quotes is a piece. -/
theorem piece_quotedGap (hc : isBlankOrEnd c.peek = true) (h : c.quotedGap = .ok part) :
    ∃ word, c.Spans word part.cursor ∧ Piece word part.text := by
  have hlt := length_rest_quotedGap_lt hc h
  have hblanks : ∀ ch ∈ c.rest.takeWhile isBlank, isBlank ch = true :=
    List.all_eq_true.1 List.all_takeWhile
  unfold quotedGap at h
  simp only at h
  split at h
  · simp [fail] at h
  · split at h
    · cases h
      have hspans := Spans.takeWhile c isBlank
      obtain ⟨u, hu⟩ := hspans.exists_cons hlt
      refine ⟨_, hspans, .blanks ?_ hblanks⟩
      rw [hu]
      exact List.cons_ne_nil _ _
    · rename_i first c₂ hbreak
      split at h
      · cases h
      · rename_i more hmore
        cases h
        obtain ⟨word, hword, hfirst, hall⟩ := spans_break hbreak hmore
        refine ⟨_, (Spans.takeWhile c isBlank).trans hword, .folded ?_ ?_ ?_⟩
        · exact ⟨_, List.mem_append_right _ List.mem_cons_self, hfirst⟩
        · intro x hx
          rcases List.mem_append.1 hx with hx | hx
          · exact isLayout_of_isBlank (hblanks x hx)
          · exact hall x hx
        · exact layout_foldedBreak (isLayout_of_lineBreak? hbreak) (layout_quotedBreaks hmore).2

/-- An escape is a piece, together with its backslash. -/
theorem piece_escape (hc : c.peek = '\\') (h : (c.forward 1).escape = .ok part) :
    ∃ word, c.Spans word part.cursor ∧ Piece word part.text := by
  have hslash : c.Spans ['\\'] (c.forward 1) := .one hc (by decide)
  generalize c.forward 1 = e at h hslash
  -- a letter, the digits of a code point, or a line break
  unfold escape at h
  simp only at h
  split at h
  · rename_i decoded hletter
    cases h
    have hone : e.Spans [e.peek] (e.forward 1) :=
      .one rfl (ne_nul_of_eq_some (f := escapeLetter) (by decide) hletter)
    exact ⟨_, hslash.trans hone, .letter (escapeLetter_eq_some_iff.1 hletter)⟩
  · split at h
    · rename_i length hlength
      split at h
      · rename_i decoded hcode
        cases h
        have hone : e.Spans [e.peek] (e.forward 1) :=
          .one rfl (ne_nul_of_eq_some (f := escapeLength) (by decide) hlength)
        have hmem := escapeLength_eq_some_iff.1 hlength
        have hdigits : (e.forward 1).Spans ((e.forward 1).rest.take length)
            ((e.forward 1).forward length) := by
          refine ⟨List.take_prefix _ _, ?_⟩
          rw [(isReal_of_escapeCode hcode).1]
        have hpoint := (escapeCode_eq_some_iff (two_le_of_mem_codeEscapes hmem)).1 hcode
        exact ⟨_, hslash.trans (hone.trans hdigits), .code hmem hpoint⟩
      · simp [fail] at h
    · split at h
      · rename_i first e₁ hbreak
        obtain ⟨word, hword, hfirst, hall⟩ := spans_break hbreak h
        refine ⟨_, hslash.trans hword, .joined hfirst ?_ (layout_quotedBreaks h).2⟩
        exact fun x hx => hall x (List.mem_cons_of_mem _ hx)
      · simp [fail] at h

/-- Every step inside double quotes is a piece. -/
theorem piece_quotedUnit (h : c.quotedUnit true = .ok (some part)) :
    ∃ word, c.Spans word part.cursor ∧ Piece word part.text := by
  unfold quotedUnit at h
  simp only [if_true] at h
  split at h
  · rename_i hc
    cases hgap : c.quotedGap with
    | error e => simp [hgap, Except.map] at h
    | ok gap =>
      obtain rfl : gap = part := by simpa [hgap, Except.map] using h
      exact piece_quotedGap hc hgap
  · rename_i hc
    have hend : isBlankOrEnd c.peek = false := by simpa using hc
    split at h
    · cases h
    · rename_i hquote
      split at h
      · rename_i hslash
        cases hescape : (c.forward 1).escape with
        | error e => simp [hescape, Except.map] at h
        | ok unit =>
          obtain rfl : unit = part := by simpa [hescape, Except.map] using h
          exact piece_escape (beq_iff_eq.1 hslash) hescape
      · rename_i hslash
        cases h
        refine ⟨_, .one rfl (peek_ne_nul_of_not_blankOrEnd hend), .plain ?_ ?_ hend⟩
        · exact mt beq_iff_eq.2 hquote
        · exact mt beq_iff_eq.2 hslash

/-- The inside of a double-quoted scalar is a row of pieces, which make up its value. -/
theorem pieces_quotedBody (h : c.quotedBody true = .ok part) :
    ∃ pieces : List (List Char × List Char), c.Spans (pieces.flatMap Prod.fst) part.cursor ∧
      part.text = pieces.flatMap Prod.snd ∧ ∀ p ∈ pieces, Piece p.1 p.2 := by
  generalize hdouble : true = double at h
  fun_induction quotedBody c double generalizing part with
  | case1 => cases h
  | case2 c =>
    cases h
    exact ⟨[], .refl c, rfl, by simp⟩
  | case3 => cases h
  | case4 c unit hunit more hmore ih =>
    cases h
    subst hdouble
    obtain ⟨pieces, hspans, htext, hall⟩ := ih hmore
    obtain ⟨word, hword, hpiece⟩ := piece_quotedUnit hunit
    refine ⟨(word, unit.text) :: pieces, hword.trans hspans, ?_, ?_⟩
    · rw [List.flatMap_cons, ← htext]
    · intro p hp
      rcases List.mem_cons.1 hp with rfl | hp
      · exact hpiece
      · exact hall p hp

/-- A step that starts with a backslash. -/
theorem quotedUnit_backslash (hc : c.peek = '\\') :
    c.quotedUnit true = (c.forward 1).escape.map some := by
  have hend : isBlankOrEnd '\\' = false := by decide
  simp [quotedUnit, hc, hend]

/-- A step that starts with a backslash and the letter of a code point. -/
theorem quotedUnit_code {rest : List Char} (hc : c.rest = '\\' :: l :: rest)
    (hl : (l, n) ∈ codeEscapes) :
    c.quotedUnit true =
      match escapeCode n (rest.take n) with
      | some ch => .ok (some ⟨[ch], c.forward (n + 2)⟩)
      | none => .error ⟨.badEscapeCode n (rest.take n), (c.forward 2).mark⟩ := by
  have hpeek : c.peek = '\\' := Canonical.peek_eq hc
  have hnext : (c.forward 1).rest = l :: rest := by
    rw [rest_forward, hc]
    rfl
  have hletter : (c.forward 1).peek = l := Canonical.peek_eq hnext
  have hdigits : ((c.forward 1).forward 1).rest = rest := by
    rw [rest_forward, hnext]
    rfl
  have hstop : ((c.forward 1).forward 1).forward n = c.forward (n + 2) := by
    rw [forward_forward, forward_forward, show 1 + (1 + n) = n + 2 by omega]
  rw [quotedUnit_backslash hpeek]
  simp only [escape, hletter, escapeLetter_of_mem_codeEscapes hl, escapeLength_eq_some_iff.2 hl,
    hdigits, hstop]
  cases escapeCode n (rest.take n) <;> rfl

/-- A double-quoted scalar is a row of pieces between quotes. -/
theorem pieces_quoted {t : Token} (hc : c.peek = '\x22') (h : c.quoted true = .ok (t, d)) :
    ∃ pieces : List (List Char × List Char),
      c.Spans ('\x22' :: (pieces.flatMap Prod.fst ++ ['\x22'])) d ∧
        t = ⟨.scalar (String.ofList (pieces.flatMap Prod.snd)) .doubleQuoted, c.mark, d.mark⟩ ∧
          ∀ p ∈ pieces, Piece p.1 p.2 := by
  unfold quoted at h
  split at h
  · cases h
  · rename_i body hbody
    cases h
    obtain ⟨pieces, hspans, htext, hall⟩ := pieces_quotedBody hbody
    have hclose : body.cursor.peek = '\x22' := (spans_quotedBody hbody).1
    refine ⟨pieces, ?_, ?_, hall⟩
    · exact (Spans.one hc (by decide)).trans (hspans.trans (.one hclose (by decide)))
    · rw [htext]
      rfl

end Cursor

namespace ScanState

variable {s s' s₁ : ScanState} {text : List Char} {out ts queue queue' : List Token} {t : Token}
  {c : Cursor}

/-! ## Where scalars are read -/

/-- The scalars of `queue'` are those of `queue`, and others that start at the cursor `c`. -/
def ScalarsAt (c : Cursor) (queue queue' : List Token) : Prop :=
  ∀ t ∈ queue', t.isScalar = true → t ∈ queue ∨ t.start = c.mark

theorem ScalarsAt.refl (c : Cursor) (queue : List Token) : ScalarsAt c queue queue :=
  fun _ ht _ => .inl ht

theorem ScalarsAt.push (h : ScalarsAt c queue queue')
    (hts : ∀ t ∈ ts, t.isScalar = true → t.start = c.mark) : ScalarsAt c queue (queue' ++ ts) := by
  intro t ht hscalar
  rcases List.mem_append.1 ht with ht | ht
  · exact h t ht hscalar
  · exact .inr (hts t ht hscalar)

theorem ScalarsAt.pushOne (h : ScalarsAt c queue queue')
    (ht : t.isScalar = true → t.start = c.mark) : ScalarsAt c queue (queue' ++ [t]) :=
  h.push fun _ hu => (List.mem_singleton.1 hu) ▸ ht

theorem scalarsAt_unwind (s : ScanState) (column : Int) :
    ScalarsAt s.cursor s.queue (s.unwind column).queue := by
  obtain ⟨n, hq⟩ := s.queue_unwind column
  rw [hq]
  refine (ScalarsAt.refl _ _).push fun t ht hscalar => ?_
  rw [List.eq_of_mem_replicate ht] at hscalar
  cases hscalar

/-- The tokens in front of a key are no scalars. -/
theorem scalarsAt_insertKey (s : ScanState) (k : SimpleKey) (c : Cursor) :
    ScalarsAt c s.queue (s.forgetKey.insertKey k).queue := by
  obtain ⟨ts, hq, hts⟩ := s.forgetKey.queue_insertKey k
  rw [hq]
  intro t ht hscalar
  rcases List.mem_append.1 ht with ht | ht
  · rcases List.mem_append.1 ht with ht | ht
    · exact .inl (List.mem_of_mem_take ht)
    · rcases hts with rfl | rfl
      · rw [List.mem_singleton.1 ht] at hscalar
        cases hscalar
      · rcases List.mem_pair.1 ht with rfl | rfl <;> cases hscalar
  · exact .inl (List.mem_of_mem_drop ht)

/-- A scalar that a lexeme brings starts where the lexeme does. -/
theorem scalarsAt_fetched (hf : Fetched s s') : ScalarsAt s.cursor s.queue s'.queue := by
  have hsame := ScalarsAt.refl s.cursor s.queue
  have hunwind := scalarsAt_unwind s (-1)
  cases hf with
  | streamEnd => exact hunwind.pushOne fun _ => rfl
  | directive hc hd => exact hunwind.pushOne fun _ => (Cursor.reads_directive hc hd).1.start
  | marker => exact hunwind.pushOne fun _ => congrArg Cursor.mark (unwind_cursor s _)
  | flowStart _ hs => cases hs <;> exact hsame.pushOne fun _ => rfl
  | flowEnd => exact hsame.pushOne fun _ => rfl
  | flowEntry => exact hsame.pushOne fun _ => rfl
  | @entry s₁ kind opens allowKey _ _ ho =>
    cases ho with
    | flow => exact hsame.pushOne fun _ => rfl
    | block =>
      have hcursor : (s.openBlock opens).cursor = s.cursor := openBlock_cursor s opens
      have hopened : ScalarsAt s.cursor s.queue (s.openBlock opens).queue := by
        rcases s.queue_openBlock opens with hq | hq
        · rw [hq]
          exact hsame
        · rw [hq]
          exact hsame.pushOne fun _ => rfl
      exact hopened.pushOne fun _ => congrArg Cursor.mark hcursor
  | @value k _ hk =>
    have hcursor : (s.forgetKey.insertKey k).cursor = s.cursor := insertKey_cursor _ _
    exact (scalarsAt_insertKey s k s.cursor).pushOne fun _ => congrArg Cursor.mark hcursor
  | keyable hs hr => cases hs <;> exact hsame.pushOne fun _ => hr.start
  | block _ hr => exact hsame.pushOne fun _ => hr.start

/-- The token is a double-quoted scalar that is read at a quote of the text. -/
def QuotedIn (text : List Char) (t : Token) : Prop :=
  ∃ c d, (Cursor.ofText text).Ahead c ∧ c.peek = '\x22' ∧ c.quoted true = .ok (t, d)

/-- A double-quoted scalar that starts at a cursor has its quote there. -/
theorem peek_of_doubleQuoted {value : String} (hc : (Cursor.ofText text).Ahead c)
    (ht : t.SpelledIn text) (hkind : t.kind = .scalar value .doubleQuoted)
    (hstart : t.start = c.mark) : c.peek = '\x22' := by
  obtain ⟨d, hd, word, e, hword, hmark, -, hspells⟩ := ht
  rw [hkind] at hspells
  obtain ⟨inner, rfl⟩ := hspells
  have hsame : d = c := by
    refine Cursor.eq_of_index_eq hd hc ?_
    rw [← hmark, hstart]
  subst hsame
  have hrest := hword.rest_eq
  exact Canonical.peek_eq hrest

/-- Only the reader of double-quoted scalars brings one. -/
theorem quotedIn_fetchLead {value : String} (hc : (Cursor.ofText text).Ahead s.cursor)
    (h : s.fetchLead s.lead = .ok s') (ht : t ∈ s'.queue) (hspelled : t.SpelledIn text)
    (hkind : t.kind = .scalar value .doubleQuoted) : t ∈ s.queue ∨ QuotedIn text t := by
  have hscalar : t.isScalar = true := by simp [Token.isScalar, Token.scalarStyle?, hkind]
  rcases scalarsAt_fetched (fetched_of_fetchLead h) t ht hscalar with hold | hstart
  · exact .inl hold
  · have hpeek := peek_of_doubleQuoted hc hspelled hkind hstart
    have hlead : s.lead = .quoted true := lead_quote hpeek
    rw [hlead] at h
    simp only [fetchLead] at h
    obtain ⟨s₁, u, d, hs, hread, rfl⟩ := fetchKeyable_ok h
    obtain ⟨-, hqueue, -⟩ := hs.same
    rw [hqueue] at ht
    rcases List.mem_append.1 ht with ht | ht
    · exact .inl ht
    · rw [List.mem_singleton.1 ht]
      exact .inr ⟨s.cursor, d, hc, hpeek, hread⟩

/-- All double-quoted scalars of a run are read at a quote. -/
theorem quotedIn_run {value : String} (h : Run text out s) :
    ∀ t ∈ out ++ s.queue, t.kind = .scalar value .doubleQuoted → QuotedIn text t := by
  induction h with
  | start =>
    intro t ht hkind
    rw [List.mem_singleton.1 ht] at hkind
    cases hkind
  | @fetch out s s₁ s' hrun hn hf ih =>
    intro t ht hkind
    have hspelled := spelled_run (hrun.fetch hn hf) t ht
    obtain ⟨keys, -, rfl⟩ := (needsMore_ok hn).eq_keys
    obtain ⟨s₂, hr, hl⟩ := fetch_lead hf
    have hc : (Cursor.ofText text).Ahead s₂.cursor := by
      rw [hr.cursor]
      exact (placed_run hrun).tokens.ahead.trans (ahead_skipGap _)
    -- a token was given before, was in the queue, ends a block, or is new
    rcases List.mem_append.1 ht with ht | ht
    · exact ih t (List.mem_append_left s.queue ht) hkind
    · rcases quotedIn_fetchLead hc hl ht hspelled hkind with hold | hnew
      · obtain ⟨n, hq⟩ := queue_readied hr
        rw [hq] at hold
        rcases List.mem_append.1 hold with hold | hold
        · exact ih t (List.mem_append_right out hold) hkind
        · rw [List.eq_of_mem_replicate hold] at hkind
          cases hkind
      · exact hnew
  | @give out queue t s s₁ _ hn hq ih =>
    obtain ⟨keys, -, rfl⟩ := (needsMore_ok hn).eq_keys
    intro u hu
    refine ih u ?_
    simp only at hq
    simpa [hq] using hu

/-! ## Inside double quotes -/

/-- The scanner of a text comes to a place inside double quotes: it has begun to read a scalar, and
every step in front of the place has succeeded. -/
inductive WithinQuotes (text : List Char) : Cursor → Prop where
  | opened {out : List Token} {s s₁ s₂ s₃ : ScanState} : Run text out s →
      s.needsMore = .ok (true, s₁) → Readied s₁ s₂ → s₂.cursor.peek = '\x22' →
      s₂.saveKey = .ok s₃ → WithinQuotes text (s₂.cursor.forward 1)
  | step {c : Cursor} {part : QuotedPart} : WithinQuotes text c →
      c.quotedUnit true = .ok (some part) → WithinQuotes text part.cursor

/-- A lexeme that cannot be read ends the scan. -/
theorem error_of_readied {e : ScanError} {s₂ : ScanState} (h : Run text out s)
    (hn : s.needsMore = .ok (true, s₁)) (hr : Readied s₁ s₂) (hf : s₂.fetchLead s₂.lead = .error e) :
    (scanText text).error = some e := by
  have hfetch : s₁.fetch = (some e, s₁.skipGap) := by
    have hdrop := dropStaleKeys_of_forall (s := s₁.skipGap) hr.ended
    have heq := hr.eq
    unfold fetch fetchHere
    simp only [hdrop]
    have hkeys : s₁.skipGap.keys = s₁.keys := rfl
    rw [heq] at hf
    simp only [hkeys, hf]
  have hends : s.Ends ⟨out, s₁.skipGap.comments, some e⟩ :=
    ⟨s₁.skipGap, .inr ⟨s₁, hn, hfetch⟩, rfl⟩
  rw [scanText_of_ends h hends]

/-- What fails inside double quotes ends the scan. -/
theorem WithinQuotes.error {e : ScanError} (h : WithinQuotes text c)
    (he : c.quotedBody true = .error e) : (scanText text).error = some e := by
  induction h with
  | @opened out s s₁ s₂ s₃ hrun hn hr hpeek hs =>
    have hlead : s₂.lead = .quoted true := lead_quote hpeek
    refine error_of_readied hrun hn hr ?_
    rw [hlead]
    simp only [fetchLead, fetchKeyable, hs]
    rw [(saveKey_ok hs).same.1, Cursor.quoted, he]
  | step _ hunit ih =>
    refine ih ?_
    rw [Cursor.quotedBody_eq, hunit]
    simp only [he]

end ScanState

/-- A double-quoted scalar is a row of pieces, among them escapes by code point: the digits behind
the letter, or a sign and one digit less, denote the character that is added to the value. Behind the
letter of such an escape anything else ends the scan. -/
theorem escapes_by_code_point (source : String) :
    (∀ t ∈ (scan source).tokens, ∀ value, t.kind = .scalar value .doubleQuoted →
      ∃ pieces : List (List Char × List Char),
        (String.Pos.Raw.extract source ⟨t.start.index⟩ ⟨t.stop.index⟩).toList =
            '\x22' :: (pieces.flatMap Prod.fst ++ ['\x22']) ∧
          value.toList = pieces.flatMap Prod.snd ∧ ∀ p ∈ pieces, Piece p.1 p.2) ∧
      ∀ (c : Cursor) (l : Char) (n : Nat) (rest : List Char),
        ScanState.WithinQuotes source.toList c → c.rest = '\\' :: l :: rest → (l, n) ∈ codeEscapes →
          (∀ ch, ¬CodePoint n ch (rest.take n)) →
            (scan source).error = some ⟨.badEscapeCode n (rest.take n), (c.forward 2).mark⟩ := by
  constructor
  · intro t ht value hkind
    obtain ⟨s, hrun, -⟩ := ScanState.run_scanText source.toList
    obtain ⟨c, d, hc, hpeek, hread⟩ :=
      ScanState.quotedIn_run hrun t (List.mem_append_left s.queue ht) hkind
    obtain ⟨pieces, hspans, rfl, hall⟩ := Cursor.pieces_quoted hpeek hread
    cases hkind
    refine ⟨pieces, hspans.extract hc, ?_, hall⟩
    exact String.toList_ofList
  · intro c l n rest hc hrest hl hnone
    have hcode : escapeCode n (rest.take n) = none := by
      rw [Option.eq_none_iff_forall_ne_some]
      intro ch hch
      exact hnone ch ((escapeCode_eq_some_iff (two_le_of_mem_codeEscapes hl)).1 hch)
    refine hc.error ?_
    rw [Cursor.quotedBody_eq, Cursor.quotedUnit_code hrest hl, hcode]

/-- A sign in place of a digit is accepted, a letter that is no digit is not. -/
theorem escapes_by_code_point_sign :
    (∃ pieces : List (List Char × List Char),
      "\"\\x+1\"".toList = '\x22' :: (pieces.flatMap Prod.fst ++ ['\x22']) ∧
        ['\x01'] = pieces.flatMap Prod.snd ∧ ∀ p ∈ pieces, Piece p.1 p.2) ∧
      (scan "\"\\xg1\"").error = some ⟨.badEscapeCode 2 ['g', '1'], ⟨3, 0, 3⟩⟩ := by
  constructor
  · let token : Token := ⟨.scalar "\x01" .doubleQuoted, ⟨0, 0, 0⟩, ⟨6, 0, 6⟩⟩
    have htoken : token ∈ (scan "\"\\x+1\"").tokens := by decide +kernel
    exact (escapes_by_code_point "\"\\x+1\"").1 token htoken "\x01" rfl
  · let text := "\"\\xg1\"".toList
    let s : ScanState := { ScanState.ofText text with queue := [], taken := 1 }
    have hrun : ScanState.Run text [.empty .streamStart .origin] s := .give .start rfl rfl
    have hready : ScanState.Readied s s := ⟨by simp [s, ScanState.ofText], by decide +kernel⟩
    have hwithin : ScanState.WithinQuotes text (s.cursor.forward 1) :=
      .opened hrun rfl hready (by decide) rfl
    refine (escapes_by_code_point "\"\\xg1\"").2 (s.cursor.forward 1) 'x' 2 "g1\"".toList hwithin
      rfl (by decide) ?_
    intro ch hch
    have hnone : escapeCode 2 ("g1\"".toList.take 2) = none := by decide
    rw [(escapeCode_eq_some_iff (Nat.le_refl 2)).2 hch] at hnone
    cases hnone

end YamlLinter
