import YamlLinter.Proofs.Tandem.Rules
import YamlLinter.Proofs.Tandem.Scan

/-!
# Sources in tandem

The indentation rule searches the raw bytes of a token for line feeds and for the first character of
a line. A carriage return in front of a line feed changes none of its answers, nor does what stands
in front of the whole text, so tokens that belong together look the same to it. Comments say the
same, but one on the first line may count as inline only because of what stands in front.

## Contents

* `respellBytes`: the bytes of a respelled text;
* `Token.Spans`, `seen_of_spans`: the bytes that a token takes, and what they show;
* `MarkPair.index_le_iff`: places keep their order;
* `Beside`, `TokenPair.seen`, `Beside.inked`: tokens and comments of two sources;
* `ScanPair.styleProblems_eq`: the problems of two sources.
-/

namespace YamlLinter

open Text Indentation

variable {returns : Bool} {b : UInt8} {x y z p e e' : List UInt8}

/-! ## Respelled bytes -/

/-- Bytes with a carriage return in front of each line feed, or the bytes themselves. -/
def respellBytes (returns : Bool) (bytes : List UInt8) : List UInt8 :=
  bytes.flatMap fun b => if returns && b == 0x0a then [0x0d, 0x0a] else [b]

@[simp] theorem respellBytes_nil : respellBytes returns [] = [] := rfl

theorem respellBytes_append (x y : List UInt8) :
    respellBytes returns (x ++ y) = respellBytes returns x ++ respellBytes returns y := by
  simp [respellBytes]

theorem respellBytes_cons (b : UInt8) (x : List UInt8) :
    respellBytes returns (b :: x) = respellBytes returns [b] ++ respellBytes returns x :=
  respellBytes_append [b] x

theorem respellBytes_of_not_mem (h : 0x0a ∉ x) : respellBytes returns x = x := by
  induction x with
  | nil => rfl
  | cons b x ih =>
    simp only [List.mem_cons, not_or] at h
    rw [respellBytes_cons, ih h.2]
    simp [respellBytes, Ne.symm h.1]

/-- The two spellings of a byte. -/
theorem respellBytes_singleton (returns : Bool) (b : UInt8) :
    respellBytes returns [b] = [b] ∨ b = 0x0a ∧ respellBytes returns [b] = [0x0d, 0x0a] := by
  by_cases h : b = 0x0a
  · subst h
    cases returns
    · exact .inl rfl
    · exact .inr ⟨rfl, rfl⟩
  · exact .inl (respellBytes_of_not_mem (by simpa using Ne.symm h))

/-- A byte of the lower half stands for one character, alone. -/
theorem toNat_of_mem_utf8EncodeChar {b : UInt8} {ch : Char} (hb : b.toNat < 128)
    (h : b ∈ String.utf8EncodeChar ch) : ch.toNat = b.toNat := by
  have hbyte (n : Nat) : b = UInt8.ofNat n ↔ n % 256 = b.toNat := by
    rw [← UInt8.toNat_inj, UInt8.toNat_ofNat', eq_comm]
  unfold String.utf8EncodeChar at h
  simp only at h
  split at h
  · simp only [List.mem_singleton, hbyte] at h
    show ch.val.toNat = b.toNat
    omega
  · split at h
    · simp only [List.mem_cons, List.not_mem_nil, or_false, hbyte] at h
      omega
    · split at h <;>
      · simp only [List.mem_cons, List.not_mem_nil, or_false, hbyte] at h
        omega

/-- The byte of a line feed stands for nothing else. -/
theorem feed_of_mem_utf8EncodeChar {ch : Char} (h : 0x0a ∈ String.utf8EncodeChar ch) : ch = '\n' :=
  Char.toNat_inj.1 (toNat_of_mem_utf8EncodeChar (by decide) h)

/-- The byte of a space stands for nothing else. -/
theorem space_of_mem_utf8EncodeChar {ch : Char} (h : 0x20 ∈ String.utf8EncodeChar ch) : ch = ' ' :=
  Char.toNat_inj.1 (toNat_of_mem_utf8EncodeChar (by decide) h)

/-- The byte of a carriage return stands for nothing else. -/
theorem return_of_mem_utf8EncodeChar {ch : Char} (h : 0x0d ∈ String.utf8EncodeChar ch) :
    ch = '\r' :=
  Char.toNat_inj.1 (toNat_of_mem_utf8EncodeChar (by decide) h)

theorem bytes_respell (returns : Bool) (s : List Char) :
    bytes (respell returns s) = respellBytes returns (bytes s) := by
  induction s with
  | nil => rfl
  | cons ch s ih =>
    rw [respell_cons, bytes_append, ih, show ch :: s = [ch] ++ s from rfl, bytes_append,
      respellBytes_append]
    congr 1
    by_cases hch : ch = '\n'
    · subst hch
      cases returns <;> decide
    · have hmem : 0x0a ∉ bytes [ch] := by
        simpa [bytes] using fun h => hch (feed_of_mem_utf8EncodeChar h)
      rw [respell_of_ne hch, respellBytes_of_not_mem hmem]

/-! ## The bytes of a token -/

/-- Among the bytes `x ++ (y ++ z)` the token takes `y`. -/
structure Token.Spans (t : Token) (x y z : List UInt8) : Prop where
  start : t.start.index = x.length
  stop : t.stop.index = x.length + y.length

variable {t t' : Token}

theorem Token.Spans.isExplicitKey (h : t.Spans x y z) :
    isExplicitKey (x ++ (y ++ z)) t = (y.head? == some 0x3f) := by
  unfold Indentation.isExplicitKey
  rw [h.start, h.stop, List.getElem?_append_right (Nat.le_refl _), Nat.sub_self]
  cases y with
  | nil => simp
  | cons b y => simp

theorem Token.Spans.trailingSpace (h : t.Spans x y z) :
    trailingSpace (x ++ (y ++ z)) t = (y.reverse ++ x.getLast?.toList).takeWhile isAsciiSpace := by
  unfold Indentation.trailingSpace
  rw [h.start, h.stop]
  rcases List.eq_nil_or_concat x with rfl | ⟨x, b, rfl⟩
  · simp
  · have hpart : ((x ++ [b]) ++ (y ++ z)).drop ((x ++ [b]).length - 1) = (b :: y) ++ z := by simp
    have hlength : (x ++ [b]).length + y.length - ((x ++ [b]).length - 1) = (b :: y).length := by
      simp
      omega
    simp only [List.concat_eq_append] at hpart hlength ⊢
    rw [hpart, hlength, List.take_left]
    simp

theorem Token.Spans.continuationLines (h : t.Spans x y z) :
    continuationLines (x ++ (y ++ z)) t =
      if t.start.line == t.stop.line then []
      else linesBehind (t.start.line + 1) (y.length - 1) (y ++ z) := by
  have hlimit : ¬(x ++ (y ++ z)).length < x.length + y.length - 1 := by
    simp only [List.length_append]
    omega
  have hcount : x.length + y.length - 1 - x.length = y.length - 1 := by omega
  unfold Indentation.continuationLines
  simp only [h.start, h.stop, hlimit, decide_false, Bool.or_false, hcount, List.drop_left]

/-! ## What carriage returns do not change -/

/-- Searching backwards, both spellings show the same line feeds in front of the first byte that is
no space. -/
theorem count_trailing
    (h : (e'.takeWhile isAsciiSpace).count 0x0a = (e.takeWhile isAsciiSpace).count 0x0a) :
    (((respellBytes returns y).reverse ++ e').takeWhile isAsciiSpace).count 0x0a =
      ((y.reverse ++ e).takeWhile isAsciiSpace).count 0x0a := by
  induction y generalizing e e' with
  | nil => simpa using h
  | cons b y ih =>
    rw [respellBytes_cons, List.reverse_append, List.reverse_cons, List.append_assoc,
      List.append_assoc]
    refine ih ?_
    rcases respellBytes_singleton returns b with hb | ⟨rfl, hb⟩
    · rw [hb]
      simp only [List.reverse_singleton, List.singleton_append, List.takeWhile_cons]
      split
      · rw [List.count_cons, List.count_cons, h]
      · rfl
    · rw [hb]
      have hspace : isAsciiSpace 0x0a = true ∧ isAsciiSpace 0x0d = true := by decide
      simp [hspace, h]

/-- The byte in front of a token is the same, or no space on one side and missing on the other. -/
theorem count_last (hp : ∀ b ∈ p.getLast?, isAsciiSpace b = false) :
    ((p ++ respellBytes returns x).getLast?.toList.takeWhile isAsciiSpace).count 0x0a =
      (x.getLast?.toList.takeWhile isAsciiSpace).count 0x0a := by
  rcases List.eq_nil_or_concat x with rfl | ⟨x, b, rfl⟩
  · cases hlast : p.getLast? with
    | none => simp [hlast]
    | some b => simp [hlast, hp b hlast]
  · have hlast : (respellBytes returns [b]).getLast? = some b := by
      rcases respellBytes_singleton returns b with hb | ⟨rfl, hb⟩ <;> rw [hb] <;> rfl
    rw [List.concat_eq_append, respellBytes_append, ← List.append_assoc, List.getLast?_append,
      hlast]
    simp

theorem lineIndent?_space (x : List UInt8) :
    lineIndent? (0x20 :: x) = (lineIndent? x).map (· + 1) := by
  unfold lineIndent?
  simp only [List.takeWhile_cons, beq_self_eq_true, if_true, List.length_cons,
    List.getElem?_cons_succ]
  split
  · rfl
  · split <;> rfl

/-- A character that is no space ends the spaces of a line, which is blank if the line ends there. -/
theorem lineIndent?_encode {ch : Char} (hspace : ch ≠ ' ') (x : List UInt8) :
    lineIndent? (String.utf8EncodeChar ch ++ x) =
      if ch = '\n' ∨ ch = '\r' then none else some 0 := by
  obtain ⟨b, bs, hencode⟩ : ∃ b bs, String.utf8EncodeChar ch = b :: bs := by
    refine List.exists_cons_of_length_pos ?_
    rw [String.length_utf8EncodeChar]
    exact ch.utf8Size_pos
  have hmem : b ∈ String.utf8EncodeChar ch := hencode ▸ List.mem_cons_self
  have hb : b ≠ 0x20 := by
    rintro rfl
    exact hspace (space_of_mem_utf8EncodeChar hmem)
  split
  · rename_i hend
    rcases hend with rfl | rfl <;> rfl
  · rename_i hend
    have hfeed : b ≠ 0x0a := by
      rintro rfl
      exact hend (.inl (feed_of_mem_utf8EncodeChar hmem))
    have hreturn : b ≠ 0x0d := by
      rintro rfl
      exact hend (.inr (return_of_mem_utf8EncodeChar hmem))
    rw [hencode]
    simp [lineIndent?, hb, hfeed, hreturn]

/-- A line is blank in both spellings or indented alike. -/
theorem lineIndent?_respellBytes (returns : Bool) (x : List UInt8) :
    lineIndent? (respellBytes returns x) = lineIndent? x := by
  induction x with
  | nil => rfl
  | cons b x ih =>
    rw [respellBytes_cons]
    rcases respellBytes_singleton returns b with hb | ⟨rfl, hb⟩
    · rw [hb, List.singleton_append]
      by_cases hspace : b = 0x20
      · subst hspace
        rw [lineIndent?_space, lineIndent?_space, ih]
      · simp [lineIndent?, hspace]
    · rw [hb]
      simp [lineIndent?]

/-- A token has the same lines in both spellings. -/
theorem linesBehind_respellBytes (returns : Bool) (number : Nat) (y z : List UInt8) :
    linesBehind number ((respellBytes returns y).length - 1)
        (respellBytes returns y ++ respellBytes returns z) =
      linesBehind number (y.length - 1) (y ++ z) := by
  induction y generalizing number with
  | nil => cases z <;> simp [linesBehind]
  | cons b y ih =>
    cases y with
    | nil =>
      -- the last byte is not looked at
      rcases respellBytes_singleton returns b with hb | ⟨rfl, hb⟩ <;> simp [hb, linesBehind]
    | cons b' y =>
      obtain ⟨n, hn⟩ : ∃ n, (respellBytes returns (b' :: y)).length = n + 1 := by
        rw [respellBytes_cons, List.length_append]
        rcases respellBytes_singleton returns b' with hb | ⟨-, hb⟩ <;> rw [hb]
        · exact ⟨_, Nat.add_comm _ _⟩
        · exact ⟨_, Nat.add_right_comm _ _ _⟩
      have hindent : lineIndent? (respellBytes returns (b' :: y) ++ respellBytes returns z) =
          lineIndent? (b' :: y ++ z) := by
        rw [← respellBytes_append, lineIndent?_respellBytes]
      simp only [hn, Nat.add_sub_cancel, List.length_cons] at ih
      rw [respellBytes_cons]
      rcases respellBytes_singleton returns b with hb | ⟨rfl, hb⟩
      · rw [hb]
        simp [linesBehind, hn, hindent, ih]
      · rw [hb]
        simp [linesBehind, hn, hindent, ih]

/-- What a token looks like does not change. -/
theorem seen_of_spans (halike : t.Alike t') (h : t.Spans x y z)
    (h' : t'.Spans (p ++ respellBytes returns x) (respellBytes returns y) (respellBytes returns z))
    (hp : ∀ b ∈ p.getLast?, isAsciiSpace b = false) :
    Seen (x ++ (y ++ z))
      ((p ++ respellBytes returns x) ++ (respellBytes returns y ++ respellBytes returns z)) t t' where
  toAlike := halike
  isExplicitKey := by
    rw [h.isExplicitKey, h'.isExplicitKey]
    cases y with
    | nil => rfl
    | cons b y =>
      rw [respellBytes_cons]
      rcases respellBytes_singleton returns b with hb | ⟨rfl, hb⟩ <;> rw [hb] <;> rfl
  lastLine := by
    unfold lastLine
    rw [h.trailingSpace, h'.trailingSpace, count_trailing (count_last hp), isScalar_eq halike,
      halike.stopLine]
  continuationLines := by
    rw [h.continuationLines, h'.continuationLines, halike.startLine, halike.stopLine,
      linesBehind_respellBytes]

/-! ## The order of cursors -/

/-- Offsets tell which of two cursors has read more. -/
theorem Cursor.index_forward_le_iff {c : Cursor} {m n : Nat} (hn : n ≤ c.rest.length) :
    (c.forward n).mark.index ≤ (c.forward m).mark.index ↔ n ≤ m := by
  refine ⟨fun hle => ?_, fun hle => ?_⟩
  · by_contra hlt
    have hrest : (c.forward m).rest ≠ [] := by
      rw [← List.length_pos_iff, length_rest_forward]
      omega
    have hindex := index_lt_forward hrest (n := n - m) (by omega)
    rw [forward_forward, Nat.add_sub_cancel' (by omega)] at hindex
    omega
  · rw [← Nat.add_sub_cancel' hle, ← forward_forward]
    exact (Ahead.forward _ _).index_le

theorem length_respell_take_le_iff {s : List Char} {m n : Nat} (hn : n ≤ s.length) :
    (respell returns (s.take n)).length ≤ (respell returns (s.take m)).length ↔ n ≤ m := by
  have hlength (s : List Char) : s.length ≤ (respell returns s).length := by
    induction s with
    | nil => exact Nat.le_refl _
    | cons ch s ih =>
      have := length_respell_pos returns ch
      rw [respell_cons, List.length_append, List.length_cons]
      omega
  have hsplit {i j : Nat} (hij : i ≤ j) : (respell returns (s.take j)).length =
      (respell returns (s.take i)).length + (respell returns ((s.drop i).take (j - i))).length := by
    rw [← List.length_append, ← respell_append, ← List.take_add, Nat.add_sub_cancel' hij]
  refine ⟨fun hle => ?_, fun hle => ?_⟩
  · by_contra hlt
    have hmore := hlength ((s.drop m).take (n - m))
    have := hsplit (i := m) (j := n) (by omega)
    rw [List.length_take, List.length_drop] at hmore
    omega
  · rw [hsplit hle]
    omega

/-- No token of a scan ends before it starts. -/
theorem start_le_stop {text : List Char} {t : Token} (h : t ∈ (scanText text).tokens) :
    t.start.index ≤ t.stop.index := by
  obtain ⟨s, hrun, -⟩ := ScanState.run_scanText text
  obtain ⟨c, d, -, hcd, -, hstart, hstop⟩ :=
    (ScanState.placed_run hrun).tokens.mem (List.mem_append_left s.queue h)
  rw [hstart, hstop]
  exact hcd.index_le

/-- The byte offset of the first line feed of a text, or of its end. -/
def firstFeed (text : List Char) : Nat := byteCount (text.takeWhile (· != '\n'))

/-- The comment of a text when something stands in front of the text that takes part of its first
line, if `ink` is set. -/
def Comment.behind (ink : Bool) (text : List Char) (k : Comment) : Comment :=
  { k with inline := k.inline || (ink && decide (k.start.index ≤ firstFeed text)) }

@[simp] theorem Comment.behind_false (text : List Char) (k : Comment) : k.behind false text = k := by
  simp [behind]

theorem byteCount_take_le_firstFeed (text : List Char) (n : Nat) :
    byteCount (text.take n) ≤ firstFeed text ↔ '\n' ∉ text.take n := by
  unfold firstFeed
  induction text generalizing n with
  | nil => simp [byteCount]
  | cons ch text ih =>
    cases n with
    | zero => simp [byteCount]
    | succ n =>
      have hpos := Char.utf8Size_pos ch
      rw [List.take_succ_cons, List.takeWhile_cons]
      by_cases hch : ch = '\n'
      · subst hch
        simp [byteCount]
        omega
      · rw [if_pos (bne_iff_ne.2 hch)]
        simp only [byteCount, Nat.add_le_add_iff_left, List.mem_cons, Ne.symm hch, false_or]
        exact ih n

namespace Tandem

variable {w : Tandem} {m m' k k' : Mark}

/-- Places keep their order. -/
theorem MarkPair.index_le_iff (hm : w.MarkPair m m') (hk : w.MarkPair k k') :
    m'.index ≤ k'.index ↔ m.index ≤ k.index := by
  obtain ⟨_, _, ⟨i, hi, rfl, rfl⟩, rfl, rfl⟩ := hm
  obtain ⟨_, _, ⟨j, hj, rfl, rfl⟩, rfl, rfl⟩ := hk
  have hright : (respell w.returns (w.left.rest.take i)).length ≤ w.right.rest.length := by
    rw [w.text]
    conv => rhs; rw [← List.take_append_drop i w.left.rest, respell_append, List.length_append]
    omega
  rw [Cursor.index_forward_le_iff hi, rightAt, rightAt, Cursor.index_forward_le_iff hright,
    length_respell_take_le_iff hi]

/-! ## Two sources -/

/-- The left cursor stands at the start of a source. The right one stands in its first line, behind
`front`, which does not end in white space. -/
structure Beside (w : Tandem) (front : List Char) : Prop where
  left : w.left = .ofText w.left.rest
  right : w.right = (Cursor.ofText (front ++ w.right.rest)).forward front.length
  line : w.right.line = 0
  last : ∀ b ∈ (bytes front).getLast?, isAsciiSpace b = false

variable {front : List Char} {n : Nat}

theorem Beside.index_left (hw : w.Beside front) (hn : n ≤ w.left.rest.length) :
    (w.left.forward n).mark.index = (bytes (w.left.rest.take n)).length := by
  rw [length_bytes, hw.left]
  exact (Cursor.at_forward _ n hn).index

theorem Beside.index_right (hw : w.Beside front) :
    (w.rightAt n).mark.index =
      (bytes front ++ respellBytes w.returns (bytes (w.left.rest.take n))).length := by
  have htake : (front ++ w.right.rest).take
      (front.length + (respell w.returns (w.left.rest.take n)).length) =
        front ++ respell w.returns (w.left.rest.take n) := by
    rw [List.take_length_add_append, w.text]
    conv => lhs; rw [← List.take_append_drop n w.left.rest, respell_append]
    rw [List.take_append_drop, List.take_left]
  have hplace : w.rightAt n = (Cursor.ofText (front ++ w.right.rest)).forward
      (front.length + (respell w.returns (w.left.rest.take n)).length) := by
    rw [rightAt, ← Cursor.forward_forward, ← hw.right]
  have hle : front.length + (respell w.returns (w.left.rest.take n)).length ≤
      (front ++ w.right.rest).length := by
    have hprefix := (htake ▸ List.take_prefix _ _ : _ <+: front ++ w.right.rest).length_le
    have hlength : (front ++ respell w.returns (w.left.rest.take n)).length =
        front.length + (respell w.returns (w.left.rest.take n)).length := List.length_append
    rwa [hlength] at hprefix
  rw [hplace, (Cursor.at_forward _ _ hle).index, htake, ← length_bytes, bytes_append, bytes_respell]

theorem Beside.line_eq (hw : w.Beside front) (hm : w.MarkPair m m') : m'.line = m.line := by
  obtain ⟨c, d, hcd, rfl, rfl⟩ := hm
  have hline := hcd.line
  have hleft : w.left.line = 0 := by rw [hw.left]; rfl
  rw [hw.line, hleft] at hline
  exact hline

/-- Tokens that belong together look the same. -/
theorem TokenPair.seen {t t' : Token} (h : w.TokenPair t t') (hw : w.Beside front)
    (hle : t.start.index ≤ t.stop.index) :
    Seen (bytes w.left.rest) (bytes (front ++ w.right.rest)) t t' := by
  have halike : t.Alike t' :=
    ⟨h.kind, hw.line_eq h.start, h.start.column, hw.line_eq h.stop⟩
  obtain ⟨_, _, ⟨i, hi, rfl, rfl⟩, hstart, hstart'⟩ := h.start
  obtain ⟨_, _, ⟨j, hj, rfl, rfl⟩, hstop, hstop'⟩ := h.stop
  have hij : i ≤ j := by rwa [hstart, hstop, Cursor.index_forward_le_iff hi] at hle
  have htake : w.left.rest.take j = w.left.rest.take i ++ (w.left.rest.drop i).take (j - i) := by
    rw [← List.take_add, Nat.add_sub_cancel' hij]
  have hspans : t.Spans (bytes (w.left.rest.take i)) (bytes ((w.left.rest.drop i).take (j - i)))
      (bytes (w.left.rest.drop j)) := by
    refine ⟨by rw [hstart, hw.index_left hi], ?_⟩
    rw [hstop, hw.index_left hj, htake, bytes_append, List.length_append]
  have hspans' : t'.Spans
      (bytes front ++ respellBytes w.returns (bytes (w.left.rest.take i)))
      (respellBytes w.returns (bytes ((w.left.rest.drop i).take (j - i))))
      (respellBytes w.returns (bytes (w.left.rest.drop j))) := by
    refine ⟨by rw [hstart', hw.index_right], ?_⟩
    rw [hstop', hw.index_right, htake, bytes_append, respellBytes_append, ← List.append_assoc,
      List.length_append]
  have hseen := seen_of_spans halike hspans hspans' hw.last
  have hrest : bytes (w.left.rest.take i) ++ (bytes ((w.left.rest.drop i).take (j - i)) ++
      bytes (w.left.rest.drop j)) = bytes w.left.rest := by
    rw [← List.append_assoc, ← bytes_append, ← htake, ← bytes_append, List.take_append_drop]
  rw [List.append_assoc, ← respellBytes_append, ← respellBytes_append, hrest] at hseen
  rwa [bytes_append, w.text, bytes_respell]

/-! ## Comments -/

theorem Beside.advance_le_firstFeed {c d : Cursor} {ch : Char} {cs : List Char}
    (hw : w.Beside front) (h : w.Passes c d) (hc : c.rest = ch :: cs) :
    c.advance.mark.index ≤ firstFeed w.left.rest ↔
      c.mark.index ≤ firstFeed w.left.rest ∧ ch ≠ '\n' := by
  obtain ⟨n, hn, rfl, -⟩ := h
  rw [Cursor.rest_forward] at hc
  have hlt : n + 1 ≤ w.left.rest.length := by
    have := congrArg List.length hc
    simp only [List.length_drop, List.length_cons] at this
    omega
  have htake : w.left.rest.take (n + 1) = w.left.rest.take n ++ [ch] := by
    rw [List.take_add, hc]
    rfl
  rw [← Cursor.forward_succ, hw.index_left hlt, hw.index_left hn, length_bytes, length_bytes,
    byteCount_take_le_firstFeed, byteCount_take_le_firstFeed, htake]
  simp [eq_comm]

/-- What stands in front of the right text shows up to the first line feed. -/
theorem Beside.inked {c d : Cursor} (hw : w.Beside front) (h : w.Passes c d) :
    d.inked = (c.inked || (w.right.inked && decide (c.mark.index ≤ firstFeed w.left.rest))) := by
  refine h.induct (P := fun c d =>
    d.inked = (c.inked || (w.right.inked && decide (c.mark.index ≤ firstFeed w.left.rest)))) ?_ ?_
  · have hindex : w.left.mark.index = 0 := by rw [hw.left]; rfl
    have hink : w.left.inked = false := by rw [hw.left]; rfl
    simp [hindex, hink]
  · intro c d ch cs hcd ih hc
    have hd : d.rest = respell w.returns [ch] ++ respell w.returns cs := by
      rw [hcd.rest, hc, respell_cons]
    by_cases hch : ch = '\n'
    · have hfeed : ¬c.advance.mark.index ≤ firstFeed w.left.rest := by
        rw [hw.advance_le_firstFeed hcd hc]
        simp [hch]
      subst hch
      have hleft : c.advance.inked = false := by simp [Cursor.advance, hc]
      rw [hleft, decide_eq_false hfeed, Bool.and_false, Bool.or_false]
      cases hr : w.returns <;> simp [Cursor.forward, Cursor.advance, hd, hr]
    · have hfeed : c.advance.mark.index ≤ firstFeed w.left.rest ↔
          c.mark.index ≤ firstFeed w.left.rest := by
        rw [hw.advance_le_firstFeed hcd hc]
        simp [hch]
      rw [respell_of_ne hch] at hd ⊢
      have hright : (d.forward 1).inked = (d.inked || !isSpace ch) := by
        simp [Cursor.forward, Cursor.advance, hd, hch]
      have hleft : c.advance.inked = (c.inked || !isSpace ch) := by
        simp [Cursor.advance, hc, hch]
      rw [List.length_singleton, hright, hleft, ih, decide_eq_decide.2 hfeed, Bool.or_right_comm]

theorem CommentPair.start {k k' : Comment} (h : w.CommentPair k k') :
    w.MarkPair k.start k'.start := by
  obtain ⟨c, d, hcd, rfl, rfl⟩ := h
  exact hcd.markPair

theorem CommentPair.stop {k k' : Comment} (h : w.CommentPair k k') : w.MarkPair k.stop k'.stop := by
  obtain ⟨c, d, hcd, rfl, rfl⟩ := h
  exact hcd.skipLine.markPair

theorem CommentPair.text {k k' : Comment} (h : w.CommentPair k k') : k'.text = k.text := by
  obtain ⟨c, d, hcd, rfl, rfl⟩ := h
  exact congrArg String.ofList (hcd.takeWhile (by decide) (by decide))

theorem CommentPair.inline {k k' : Comment} (h : w.CommentPair k k') (hw : w.Beside front) :
    k'.inline = (k.behind w.right.inked w.left.rest).inline := by
  obtain ⟨c, d, hcd, rfl, rfl⟩ := h
  exact hw.inked hcd

/-! ## Problems -/

/-- The problems of the right source are those of the left one, with its comments behind what stands
in front of the right text. -/
theorem ScanPair.styleProblems_eq {l : Linter} {r r' : Scan} {lead : List Token}
    (h : w.ScanPair lead lead r r') (hw : w.Beside front) (hnoted : w.noted = [])
    (hl : l.commentRules = [] ∧ l.lineRules = [] ∧ ∀ rule ∈ l.tokenRules, IsBuiltin rule.1)
    (hlead : ∀ t ∈ lead, t = .empty .streamStart .origin)
    (hle : ∀ t ∈ r.tokens, t.start.index ≤ t.stop.index)
    (hlines : (Line.all (front ++ w.right.rest)).length = (Line.all w.left.rest).length) :
    l.styleProblems (front ++ w.right.rest) r' = l.styleProblems w.left.rest
      { r with comments := r.comments.map (·.behind w.right.inked w.left.rest) } := by
  -- both scans put the start of the stream at the origin, all other tokens are paired
  refine Linter.styleProblems_eq hl (T := fun t t' => w.TokenPair t t' ∧
      t.start.index ≤ t.stop.index ∨ t = .empty .streamStart .origin ∧ t' = t)
    (K := fun k k' => w.MarkPair k.start k'.start ∧ k'.text = k.text ∧ k'.inline = k.inline)
    ?_ ?_ ?_ ?_ ?_ ?_ hlines
  · rintro t t' (⟨ht, hle⟩ | ⟨rfl, rfl⟩)
    · exact ht.seen hw hle
    · exact ⟨⟨rfl, rfl, rfl, rfl⟩, rfl, rfl, rfl⟩
  · rintro k k' ⟨hstart, htext, hinline⟩
    exact .comment (hw.line_eq hstart) htext fun _ => hinline
  · rintro t t' k k' (⟨ht, -⟩ | ⟨rfl, rfl⟩) ⟨hstart, -, -⟩
    · exact ht.start.index_le_iff hstart
    · simp [Token.empty, Mark.origin]
  · obtain ⟨xs, ys, hxs, hys, hxy⟩ := h.tokens
    rw [hxs] at hle
    simp only [hxs, hys]
    refine List.rel_append (List.forall₂_same.2 fun t ht => .inr ⟨hlead t ht, rfl⟩) ?_
    have hboth := (List.forall₂_and_left xs ys).2
      ⟨fun t ht => hle t (List.mem_append_right _ ht), hxy⟩
    exact hboth.imp fun _ _ h => .inl ⟨h.2, h.1⟩
  · obtain ⟨ks, hks, hpair⟩ := h.comments
    rw [hks, hnoted, List.nil_append]
    simp only [List.forall₂_map_left_iff]
    exact hpair.imp fun k k' hk => ⟨hk.start, hk.text, hk.inline hw⟩
  · have herror := h.error
    generalize r.error = e at herror ⊢
    generalize r'.error = e' at herror ⊢
    cases herror <;> rfl

end Tandem

end YamlLinter
