import YamlLinter.Proofs.SimpleKeys
import YamlLinter.Text.Utf8

/-!
# Marks are true positions

A mark is computed from the one before it, character by character. Here a place in a text is
described without any such history: by the bytes, the line breaks and the characters in front of it.
Every mark that leaves the scanner is such a place, and tokens and comments follow one another
without overlap.

## Contents

* `endsLineAt`, `Mark.At`: the place behind the first `n` characters of a text;
* `at_forward`, `Ahead.at_pos`, `Ahead.rest_eq`: a cursor knows its place;
* `Placed`: tokens given, tokens queued and comments lie one behind the other up to the cursor;
* `placed_run`: in all states of a run they do;
* `Poised`, `Run.poised`: the states in which the lexemes of a run are read;
* `laid_scan`: tokens and comments of any scan;
* `marks_true_and_disjoint`: the marks of a scan.
-/

namespace YamlLinter

open Text

/-- Whether the character number `i` of a text ends a line. Of a carriage return and a line feed
right behind it, only the line feed does. -/
def endsLineAt (text : List Char) (i : Nat) : Bool :=
  text[i]?.any isBreak && !(text[i]? == some '\r' && text[i + 1]? == some '\n')

/-- Whether no line ends from the character number `i` up to the place behind `n` characters. -/
def onLastLine (text : List Char) (n i : Nat) : Bool :=
  (List.range n).all fun j => j < i || !endsLineAt text j

/-- The mark names the place behind the first `n` characters of a text. -/
structure Mark.At (text : List Char) (n : Nat) (m : Mark) : Prop where
  le : n ≤ text.length
  /-- The bytes in front of the place. -/
  index : m.index = byteCount (text.take n)
  /-- The line breaks in front of the place. -/
  line : m.line = (List.range n).countP (endsLineAt text)
  /-- The characters between the last line break and the place, byte order marks left out. -/
  column : m.column = (List.range n).countP fun i =>
    text[i]? != some '\ufeff' && onLastLine text n i

theorem onLastLine_succ {text : List Char} {n i : Nat} (hi : i ≤ n) :
    onLastLine text (n + 1) i = (onLastLine text n i && !endsLineAt text n) := by
  have hn : ¬n < i := by omega
  simp [onLastLine, List.range_succ, hn]

theorem onLastLine_self (text : List Char) (n : Nat) : onLastLine text n n = true := by
  simp only [onLastLine, List.all_eq_true, List.mem_range]
  intro j hj
  simp [hj]

/-- One more character: the line that it ends, or the column that it takes. -/
theorem Mark.At.after {text rest : List Char} {n : Nat} {m : Mark} {c : Char}
    (h : m.At text n) (hr : text.drop n = c :: rest) :
    (m.after c (rest.headD nul)).At text (n + 1) := by
  have hlt : n < text.length := by
    have := congrArg List.length hr
    simp only [List.length_drop, List.length_cons] at this
    omega
  have hc : text[n]? = some c := by
    rw [← List.head?_drop, hr]
    rfl
  have hn : text[n + 1]? = rest.head? := by
    rw [← List.head?_drop, ← List.tail_drop, hr]
    rfl
  -- the test for a line end looks at the same two characters
  have he : Mark.endsLine c (rest.headD nul) = endsLineAt text n := by
    simp only [Mark.endsLine, endsLineAt, hc, hn, isBreak, Option.any_some]
    cases rest with
    | nil => simp [nul]; grind
    | cons d ds => simp; grind
  constructor
  · exact hlt
  · have htake : text.take (n + 1) = text.take n ++ [c] := by
      rw [List.take_add_one, hc]
      rfl
    rw [htake, byteCount_append, ← h.index]
    simp [Mark.after, byteCount]
  · simp only [Mark.after, he, List.range_succ, List.countP_append, ← h.line]
    cases hb : endsLineAt text n <;> simp [hb]
  · -- a line end leaves no character on the last line, any other character joins those before it
    rw [List.range_succ, List.countP_append]
    cases hb : endsLineAt text n with
    | true =>
      have hnone : ∀ i ∈ List.range n, (text[i]? != some '\ufeff' && onLastLine text (n + 1) i) ≠
          true := by
        intro i hi
        rw [onLastLine_succ (Nat.le_of_lt (List.mem_range.1 hi)), hb]
        simp
      rw [List.countP_eq_zero.2 hnone]
      simp only [Mark.after, he, hb, if_true]
      simp [onLastLine_succ, hb]
    | false =>
      have hsame : (List.range n).countP (fun i =>
          text[i]? != some '\ufeff' && onLastLine text (n + 1) i) = m.column := by
        rw [h.column]
        refine List.countP_congr fun i hi => ?_
        rw [onLastLine_succ (Nat.le_of_lt (List.mem_range.1 hi)), hb]
        simp
      have hself : onLastLine text (n + 1) n = true := by
        rw [onLastLine_succ (Nat.le_refl n), hb, onLastLine_self]
        rfl
      rw [hsame]
      simp only [Mark.after, he, hb, Bool.false_eq_true, if_false]
      by_cases hbom : c = '\ufeff'
      · simp [hc, hbom]
      · simp [hc, hbom, hself]

namespace Cursor

theorem forward_succ (c : Cursor) (n : Nat) : c.forward (n + 1) = (c.forward n).advance :=
  (forward_forward c n 1).symm

/-- A cursor knows its place. -/
theorem at_forward (text : List Char) :
    ∀ n, n ≤ text.length → ((ofText text).forward n).mark.At text n := by
  intro n
  induction n with
  | zero =>
    intro _
    exact ⟨Nat.zero_le _, rfl, rfl, rfl⟩
  | succ n ih =>
    intro hn
    have hplace := ih (by omega)
    have hrest : ((ofText text).forward n).rest = text.drop n := rest_forward _ n
    rw [forward_succ]
    unfold advance
    split
    · rename_i hr
      have := congrArg List.length (hrest.symm.trans hr)
      simp only [List.length_drop, List.length_nil] at this
      omega
    · rename_i c rest hr
      exact hplace.after (hrest.symm.trans hr)

/-- Reading past the end of a text stays there. -/
theorem forward_length (c : Cursor) {n : Nat} (hn : c.rest.length ≤ n) :
    c.forward n = c.forward c.rest.length := by
  obtain ⟨m, rfl⟩ : ∃ m, n = c.rest.length + m := ⟨n - c.rest.length, by omega⟩
  rw [← forward_forward]
  generalize hd : c.forward c.rest.length = d
  have hr : d.rest = [] := by rw [← hd, rest_forward, List.drop_length]
  induction m with
  | zero => rfl
  | succ m ih =>
    rw [forward_succ, ih (by omega)]
    unfold advance
    rw [hr]

theorem pos_forward (c : Cursor) {n : Nat} (hn : n ≤ c.rest.length) :
    (c.forward n).pos = c.pos + n := by
  induction n generalizing c with
  | zero => rfl
  | succ n ih =>
    cases hr : c.rest with
    | nil =>
      rw [hr] at hn
      cases hn
    | cons ch rest =>
      have hadvance : c.advance.pos = c.pos + 1 ∧ c.advance.rest = rest := by simp [advance, hr]
      rw [forward, ih c.advance (by rw [hadvance.2]; simpa [hr] using hn), hadvance.1]
      omega

/-- A cursor ahead of the start of a text has read as many characters as stand in front of it. -/
theorem Ahead.at_pos {text : List Char} {c : Cursor} (h : (ofText text).Ahead c) :
    c.mark.At text c.pos := by
  have hplace : ∀ n, n ≤ text.length →
      ((ofText text).forward n).mark.At text ((ofText text).forward n).pos := by
    intro n hn
    rw [pos_forward (ofText text) hn, show (ofText text).pos + n = n from Nat.zero_add n]
    exact at_forward text n hn
  obtain ⟨n, rfl⟩ := h
  by_cases hn : n ≤ text.length
  · exact hplace n hn
  · rw [forward_length (ofText text) (n := n) (by simp only [ofText]; omega)]
    exact hplace text.length (Nat.le_refl _)

/-- A cursor ahead of the start of a text has the text behind its place in front of it. -/
theorem Ahead.rest_eq {text : List Char} {c : Cursor} (h : (ofText text).Ahead c) :
    c.rest = text.drop c.pos := by
  obtain ⟨n, rfl⟩ := h
  rw [rest_forward]
  by_cases hn : n ≤ text.length
  · rw [pos_forward (ofText text) hn, show (ofText text).pos + n = n from Nat.zero_add n]
    rfl
  · have hend := forward_length (ofText text) (n := n) (by simp only [ofText]; omega)
    rw [hend, pos_forward (ofText text) (Nat.le_refl _)]
    simp only [ofText, Nat.zero_add, List.drop_length]
    exact List.drop_of_length_le (by omega)

theorem Ahead.getElem?_pos {text rest : List Char} {c : Cursor} {ch : Char}
    (h : (ofText text).Ahead c) (hr : c.rest = ch :: rest) : text[c.pos]? = some ch := by
  rw [← List.head?_drop, ← h.rest_eq, hr]
  rfl

/-- Whatever lies ahead of the start of a text has its place in the text. -/
theorem Ahead.at {text : List Char} {c : Cursor} (h : (ofText text).Ahead c) :
    ∃ n, c.mark.At text n :=
  ⟨c.pos, h.at_pos⟩

end Cursor

namespace ScanState

variable {s s' s₁ : ScanState} {text : List Char} {out : List Token} {e : ScanError}

/-- The tokens given and the tokens in the queue lie one behind the other up to the cursor, and so
do the comments. -/
structure Placed (text : List Char) (out : List Token) (s : ScanState) : Prop where
  tokens : Laid Token.start Token.stop (.ofText text) (out ++ s.queue) s.cursor
  comments : Cursor.Notes (.ofText text) s.comments s.cursor

/-- Tokens read at the cursor may come at the end of the queue. -/
theorem Placed.push {ts : List Token} {ks : List Comment} {c : Cursor} (h : Placed text out s)
    (ht : Laid Token.start Token.stop s.cursor ts c) (hk : Cursor.Notes s.cursor ks c)
    (hs : s'.queue = s.queue ++ ts ∧ s'.comments = s.comments ++ ks ∧ s'.cursor = c) :
    Placed text out s' := by
  obtain ⟨hq, hc, rfl⟩ := hs
  refine ⟨?_, ?_⟩
  · rw [hq, ← List.append_assoc]
    exact h.tokens.append ht
  · rw [hc]
    exact h.comments.append hk

/-- A token read at the cursor may come at the end of the queue. -/
theorem Placed.pushRead {t : Token} {c : Cursor} (h : Placed text out s)
    (hr : s.cursor.Reads t c)
    (hs : s'.queue = s.queue ++ [t] ∧ s'.comments = s.comments ∧ s'.cursor = c) :
    Placed text out s' :=
  h.push hr.laid (.none hr.ahead) (by simpa using hs)

/-- Tokens without extent may be put at the cursor. -/
theorem Placed.pushEmpty (ts : List Token) (h : Placed text out s)
    (hts : ∀ t ∈ ts, t.start = s.cursor.mark ∧ t.stop = s.cursor.mark)
    (hs : s'.queue = s.queue ++ ts ∧ s'.comments = s.comments ∧ s'.cursor = s.cursor) :
    Placed text out s' :=
  h.push (.empties hts) (.none (.refl _)) (by simpa using hs)

theorem placed_unwind {column : Int} (h : Placed text out s) :
    Placed text out (s.unwind column) := by
  obtain ⟨n, hq⟩ := s.queue_unwind column
  refine h.pushEmpty _ (fun t ht => ?_) ⟨hq, unwind_comments s column, unwind_cursor s column⟩
  rw [List.eq_of_mem_replicate ht]
  exact ⟨rfl, rfl⟩

theorem placed_opened {kind : TokenKind} (h : Placed text out s) (ho : Opened s kind s₁) :
    Placed text out s₁ := by
  cases ho with
  | flow => exact h
  | block =>
    rcases s.queue_openBlock kind with hq | hq
    · exact h.pushEmpty [] (by simp) (by simp [hq])
    · exact h.pushEmpty [.empty kind s.cursor.mark] (by simp [Token.empty])
        (by simp [hq])

/-- A key is put in front of its first token, which starts where the key does. -/
theorem placed_insertKey {k : SimpleKey} (h : Placed text out s) (hp : s.KeysInPlace)
    (hk : k ∈ s.keys) : Placed text out (s.forgetKey.insertKey k) := by
  obtain ⟨ts, hq, hts⟩ := s.forgetKey.queue_insertKey k
  obtain ⟨t, ht, hm⟩ := hp.starts k hk
  obtain ⟨c, hout, hqueue⟩ := h.tokens.split
  have hempty : ∀ u ∈ ts, u.start = t.start ∧ u.stop = t.start := by
    intro u hu
    rw [hm]
    rcases hts with rfl | rfl
    · obtain rfl : u = .empty .key k.mark := by simpa using hu
      exact ⟨rfl, rfl⟩
    · rcases List.mem_cons.1 hu with rfl | hu
      · exact ⟨rfl, rfl⟩
      · obtain rfl : u = .empty .key k.mark := by simpa using hu
        exact ⟨rfl, rfl⟩
  refine ⟨?_, ?_⟩
  · rw [hq, insertKey_cursor]
    exact hout.append (hqueue.insert ht hempty)
  · rw [insertKey_cursor, insertKey_comments]
    exact h.comments

theorem placed_needs {b : Bool} (h : Placed text out s) (hn : Needs s b s₁) :
    Placed text out s₁ := by
  obtain ⟨keys, -, rfl⟩ := hn.eq_keys
  exact ⟨h.tokens, h.comments⟩

theorem placed_skipGap (h : Placed text out s) : Placed text out s.skipGap := by
  obtain ⟨ks, hn, hc⟩ := s.notes_skipGap
  have ht : Laid Token.start Token.stop s.cursor [] s.skipGap.cursor := .nil hn.laid.ahead
  exact h.push ht hn ⟨by simp [skipGap], hc, rfl⟩

theorem placed_readied (h : Placed text out s) (hr : Readied s s₁) : Placed text out s₁ := by
  have hg := placed_skipGap h
  rw [hr.eq]
  exact placed_unwind ⟨hg.tokens, hg.comments⟩

/-- Reading a lexeme puts its tokens behind all others, and a key in front of its first token. -/
theorem placed_fetched (h : Placed text out s) (hp : s.KeysInPlace) (hf : Fetched s s') :
    Placed text out s' := by
  have hu : Placed text out (s.unwind (-1)) := placed_unwind h
  -- most lexemes are marks: a few characters, and one token around them
  have hmark : ∀ {s₁ : ScanState} {kind : TokenKind} {n : Nat}, s₁.cursor = s.cursor →
      s.cursor.rest ≠ [] → 0 < n → Placed text out s₁ →
      Placed text out (s₁.pushMark kind n) := by
    intro s₁ kind n hc hne hn h₁
    have hr : s₁.cursor.Reads ⟨kind, s₁.cursor.mark, (s₁.cursor.forward n).mark⟩
        (s₁.cursor.forward n) := .of_forward (by rw [hc]; exact hne) hn
    exact h₁.pushRead hr ⟨rfl, rfl, rfl⟩
  cases hf with
  | streamEnd =>
    exact hu.pushEmpty [.empty .streamEnd s.cursor.mark] (by simp [Token.empty])
      ⟨rfl, rfl, rfl⟩
  | directive hc hd =>
    obtain ⟨hr, hn, -⟩ := Cursor.reads_directive hc hd
    refine hu.push (by simpa using hr.laid) (by simpa using hn) ⟨rfl, ?_, rfl⟩
    simp
  | marker hc => exact hmark (unwind_cursor s _) hc (by omega) ⟨hu.tokens, hu.comments⟩
  | flowStart hc hs =>
    cases hs with
    | kept => exact hmark rfl hc Nat.one_pos ⟨h.tokens, h.comments⟩
    | saved => exact hmark rfl hc Nat.one_pos ⟨h.tokens, h.comments⟩
  | flowEnd hc => exact hmark rfl hc Nat.one_pos ⟨h.tokens, h.comments⟩
  | flowEntry hc => exact hmark rfl hc Nat.one_pos ⟨h.tokens, h.comments⟩
  | @entry s₁ kind opens allowKey hc _ ho =>
    have h₁ := placed_opened h ho
    have hcur : s₁.cursor = s.cursor := by
      cases ho with
      | flow => exact rfl
      | block => exact openBlock_cursor s _
    exact hmark hcur hc Nat.one_pos ⟨h₁.tokens, h₁.comments⟩
  | value hc hk =>
    have h₁ := placed_insertKey h hp (mem_keys_of_currentKey? hk).1
    exact hmark (insertKey_cursor _ _) hc Nat.one_pos ⟨h₁.tokens, h₁.comments⟩
  | keyable hs hr =>
    cases hs with
    | kept => exact h.pushRead hr ⟨rfl, rfl, rfl⟩
    | saved => exact h.pushRead hr ⟨rfl, rfl, rfl⟩
  | block _ hr hn => exact h.push hr.laid hn ⟨rfl, rfl, rfl⟩

theorem placed_run (h : Run text out s) : Placed text out s := by
  induction h with
  | start =>
    refine ⟨?_, .none (.refl _)⟩
    exact .single (.refl _) rfl (.refl _) rfl (.refl _)
  | fetch hrun hn hf ih =>
    have hn := needsMore_ok hn
    have hp := inPlace_needs (inPlace_run hrun).1 hn
    obtain ⟨s₁, hr, hf⟩ := fetch_ok hf
    exact placed_fetched (placed_readied (placed_needs ih hn) hr) (inPlace_readied hp hr) hf
  | give _ hn hq ih =>
    obtain ⟨ht, hc⟩ := placed_needs ih (needsMore_ok hn)
    refine ⟨?_, hc⟩
    rw [hq] at ht
    simpa using ht

/-! ## In front of a lexeme -/

/-- What is known of the state in which a fetch from `s` reads its lexeme. -/
structure Poised (text : List Char) (out : List Token) (s s₁ : ScanState) : Prop where
  ready : ∃ keys, List.Sublist keys s.keys ∧ Readied { s with keys } s₁
  inPlace : s₁.KeysInPlace
  taken : s₁.taken = out.length
  placed : Placed text out s₁
  done : s₁.done = false

/-- Every fetch of a run reads its lexeme in such a state. -/
theorem Run.poised (h : Run text out s) (hn : s.needsMore = .ok (true, s₁))
    (hf : s₁.fetch = (none, s')) : ∃ s₂, Poised text out s s₂ ∧ Fetched s₂ s' := by
  obtain ⟨hp, -, htaken⟩ := inPlace_run h
  have hneeds := needsMore_ok hn
  have hp := inPlace_needs hp hneeds
  have hplaced := placed_needs (placed_run h) hneeds
  have hdone := hneeds.not_done rfl
  obtain ⟨keys, hkeys, rfl⟩ := hneeds.eq_keys
  obtain ⟨s₂, hr, hf⟩ := fetch_ok hf
  exact ⟨s₂, ⟨⟨keys, hkeys, hr⟩, inPlace_readied hp hr, hr.taken.trans htaken,
    placed_readied hplaced hr, hr.done.trans hdone⟩, hf⟩

/-! ## Errors -/

/-- An error is noticed at a place of the text behind everything that has been given. -/
theorem placed_faults (h : Placed text out s) (hp : s.KeysInPlace) (he : s.Faults e) :
    ∃ c, (Cursor.ofText text).Ahead c ∧ e.mark = c.mark ∧
      ∀ t ∈ out, t.stop.index ≤ e.mark.index := by
  rcases he with ⟨k, hk, rfl⟩ | ⟨c, hc, hm⟩
  · -- the key starts where its first token does, which has not been given
    obtain ⟨u, hu, hstart⟩ := hp.starts k hk
    have humem : u ∈ s.queue := List.mem_of_getElem? hu
    obtain ⟨c, d, hac, -, -, hs, -⟩ := h.tokens.mem (List.mem_append_right out humem)
    refine ⟨c, hac, hstart.symm.trans hs, fun t ht => ?_⟩
    show t.stop.index ≤ k.mark.index
    rw [← hstart]
    exact (List.pairwise_append.1 h.tokens.pairwise).2.2 t ht u humem
  · refine ⟨c, h.tokens.ahead.trans hc, hm, fun t ht => ?_⟩
    obtain ⟨_, d, -, -, hd, -, hstop⟩ := h.tokens.mem (List.mem_append_left s.queue ht)
    rw [hstop, hm]
    exact (hd.trans hc).index_le

theorem faults_of_fault (h : s.Fault e s') :
    s.Faults e ∧ s' = s ∨
      ∃ s₁, Needs s true s₁ ∧ s' = s₁.skipGap ∧ s₁.skipGap.Faults e := by
  rcases h with ⟨hn, rfl⟩ | ⟨s₁, hn, hf⟩
  · exact .inl ⟨needsMore_error hn, rfl⟩
  · obtain ⟨rfl, he⟩ := fetch_error hf
    exact .inr ⟨s₁, needsMore_ok hn, rfl, he⟩

/-- The state that a failed step leaves is placed too, and its error lies behind all tokens given. -/
theorem placed_fault (h : Run text out s) (hf : s.Fault e s') :
    Placed text out s' ∧ ∃ c, (Cursor.ofText text).Ahead c ∧ e.mark = c.mark ∧
      ∀ t ∈ out, t.stop.index ≤ e.mark.index := by
  have hplaced := placed_run h
  have hkeys := (inPlace_run h).1
  rcases faults_of_fault hf with ⟨he, rfl⟩ | ⟨s₁, hn, rfl, he⟩
  · exact ⟨hplaced, placed_faults hplaced hkeys he⟩
  · have hplaced := placed_skipGap (placed_needs hplaced hn)
    have hkeys := inPlace_needs hkeys hn
    exact ⟨hplaced, placed_faults hplaced (hkeys.read s₁.ahead_skipGap.pos_le) he⟩

end ScanState

/-- The tokens of a scan lie one behind the other, and so do its comments, whether it ends at an error
or not. -/
theorem laid_scan (text : List Char) :
    (∃ c, Laid Token.start Token.stop (.ofText text) (scanText text).tokens c) ∧
      ∃ c, Laid Comment.start Comment.stop (.ofText text) (scanText text).comments c := by
  obtain ⟨s, hrun, hends⟩ := ScanState.run_scanText text
  have hplaced := ScanState.placed_run hrun
  obtain ⟨c, htokens, -⟩ := hplaced.tokens.split
  refine ⟨⟨c, htokens⟩, ?_⟩
  unfold ScanState.Ends at hends
  split at hends
  · obtain ⟨-, -, hcomments⟩ := hends
    exact ⟨s.cursor, hcomments ▸ hplaced.comments.laid⟩
  · obtain ⟨s', hf, hcomments⟩ := hends
    exact ⟨s'.cursor, hcomments ▸ (ScanState.placed_fault hrun hf).1.comments.laid⟩

/-- The marks of a scan. Every mark of a token, of a comment and of the error is a place of the
text. A token does not end before it starts, and starts behind the end of the token before it, those
put in front of a key included. Comments are not empty and start behind the end of the comment before
them. Every token ends at or before the error. -/
theorem marks_true_and_disjoint (text : List Char) :
    (∀ t ∈ (scanText text).tokens, (∃ n, t.start.At text n) ∧ (∃ n, t.stop.At text n) ∧
        t.start.index ≤ t.stop.index) ∧
      ((scanText text).tokens.Pairwise fun t u => t.stop.index ≤ u.start.index) ∧
      (∀ k ∈ (scanText text).comments, (∃ n, k.start.At text n) ∧ (∃ n, k.stop.At text n) ∧
        k.start.index < k.stop.index) ∧
      ((scanText text).comments.Pairwise fun k l => k.stop.index ≤ l.start.index) ∧
      ∀ e, (scanText text).error = some e → (∃ n, e.mark.At text n) ∧
        ∀ t ∈ (scanText text).tokens, t.stop.index ≤ e.mark.index := by
  obtain ⟨s, hrun, hends⟩ := ScanState.run_scanText text
  have hplaced := ScanState.placed_run hrun
  -- the comments of the scan are those of a placed state
  have hcomments : ∃ c, Cursor.Notes (.ofText text) (scanText text).comments c := by
    unfold ScanState.Ends at hends
    split at hends
    · exact ⟨s.cursor, hends.2.2 ▸ hplaced.comments⟩
    · obtain ⟨s', hf, hc⟩ := hends
      exact ⟨s'.cursor, hc ▸ (ScanState.placed_fault hrun hf).1.comments⟩
  obtain ⟨c, hnotes⟩ := hcomments
  refine ⟨?_, ?_, ?_, hnotes.laid.pairwise, ?_⟩
  · intro t ht
    obtain ⟨p, q, hp, hpq, hq, hs, hst⟩ := hplaced.tokens.mem (List.mem_append_left s.queue ht)
    rw [hs, hst]
    exact ⟨hp.at, (hp.trans hpq).at, hpq.index_le⟩
  · exact (List.pairwise_append.1 hplaced.tokens.pairwise).1
  · intro k hk
    obtain ⟨p, q, hp, hpq, hq, hs, hst⟩ := hnotes.laid.mem hk
    refine ⟨?_, ?_, hnotes.inked k hk⟩
    · rw [hs]
      exact hp.at
    · rw [hst]
      exact (hp.trans hpq).at
  · intro e he
    unfold ScanState.Ends at hends
    rw [he] at hends
    obtain ⟨s', hf, -⟩ := hends
    obtain ⟨-, c', hc', hm, hout⟩ := ScanState.placed_fault hrun hf
    exact ⟨hm ▸ hc'.at, hout⟩

end YamlLinter
