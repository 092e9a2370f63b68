import YamlLinter.Proofs.Directives
import YamlLinter.Proofs.Indentation.Reachable
import YamlLinter.Proofs.Tandem.Sources

/-!
# The first token of a line

The indentation rule remembers on which line the last visible token ended, and takes a visible token
for the first one on its line if it starts on a later line. A scalar ends where its last byte stands
that is no white space, which the rule finds by searching backwards from the end of the token. As
tokens come in order, what is remembered of the last one is enough.

The search may go one byte too far: a scalar that has no other bytes than white space is taken to
end one line too early, if a line feed stands in front of it. What comes behind such a scalar is taken
for the first token of its line, even if a key starts with the scalar.

## Contents

* `inkLine`, `isHollow`: where the text of a token ends, and the scalars without any;
* `Mark.At.line_eq_count`: lines are line feeds, if nothing else ends one;
* `lastLine_eq`, `inkLine_bounds`: the search from the end of a token;
* `line_check_of_opened`, `line_stateBehind`: what the rule remembers behind tokens;
* `first_in_line_iff`: the tokens that are taken for the first of their line.
-/

namespace YamlLinter

open Text

/-! ## Lines are line feeds -/

theorem count_bytes (s : List Char) : (bytes s).count 0x0a = s.count '\n' := by
  induction s with
  | nil => rfl
  | cons ch s ih =>
    have hsplit : bytes (ch :: s) = String.utf8EncodeChar ch ++ bytes s := rfl
    rw [hsplit, List.count_append, ih]
    by_cases hch : ch = '\n'
    · subst hch
      rw [show String.utf8EncodeChar '\n' = [0x0a] by decide, List.count_singleton_self,
        List.count_cons_self, Nat.add_comm]
    · have hmem : 0x0a ∉ String.utf8EncodeChar ch := fun h => hch (feed_of_mem_utf8EncodeChar h)
      rw [List.count_eq_zero.2 hmem, Nat.zero_add, List.count_cons_of_ne hch]

/-- If only line feeds end lines, a place is on the line of as many line feeds as stand in front of
it. -/
theorem Mark.At.line_eq_count {text : List Char} {m : Mark} {n : Nat} (h : m.At text n)
    (hfeed : ∀ i, endsLineAt text i = true → text[i]? = some '\n') :
    m.line = (bytes (text.take n)).count 0x0a := by
  rw [h.line, count_bytes]
  have hle := h.le
  clear h
  induction n with
  | zero => rfl
  | succ n ih =>
    rw [List.range_succ, List.countP_append, ih (by omega), List.take_add_one, List.count_append]
    congr 1
    rw [List.getElem?_eq_getElem (by omega)]
    cases hends : endsLineAt text n with
    | true =>
      have hch := hfeed n hends
      rw [List.getElem?_eq_getElem (by omega)] at hch
      simp [hends, Option.some.inj hch]
    | false =>
      have hn : n < text.length := by omega
      have hch : text[n] ≠ '\n' := by
        intro hch
        simp [endsLineAt, List.getElem?_eq_getElem hn, hch, isBreak] at hends
      simp [hends, hch]

namespace Indentation

variable {buffer x y z : List UInt8} {t : Token}

/-! ## Where the text of a token ends -/

/-- The offsets of the bytes of a token that are no white space. -/
def inkOffsets (buffer : List UInt8) (t : Token) : List Nat :=
  (List.range' t.start.index (t.stop.index - t.start.index)).filter fun i =>
    !buffer[i]?.any isAsciiSpace

/-- The line, counted from zero, on which a token ends; for a scalar, the line of its last byte that
is no white space. The line of a byte is the number of line feeds in front of it. -/
def inkLine (buffer : List UInt8) (t : Token) : Nat :=
  if t.isScalar then
    match (inkOffsets buffer t).getLast? with
    | some i => (buffer.take i).count 0x0a
    | none => t.start.line
  else t.stop.line

/-- A scalar of white space alone, right behind a line feed. -/
def isHollow (buffer : List UInt8) (t : Token) : Bool :=
  t.isScalar && (inkOffsets buffer t).isEmpty && 0 < t.start.index &&
    buffer[t.start.index - 1]? == some 0x0a

/-- Bytes are white space to the end, from the front or behind some byte that is none. -/
theorem exists_last_ink (y : List UInt8) :
    (∀ b ∈ y, isAsciiSpace b = true) ∨
      ∃ front b space, y = front ++ b :: space ∧ isAsciiSpace b = false ∧
        ∀ c ∈ space, isAsciiSpace c = true := by
  induction y with
  | nil => exact .inl (by simp)
  | cons b y ih =>
    rcases ih with hspace | ⟨front, c, space, rfl, hc, hspace⟩
    · cases hb : isAsciiSpace b with
      | true =>
        refine .inl fun c hc => ?_
        rcases List.mem_cons.1 hc with rfl | hc
        · exact hb
        · exact hspace c hc
      | false => exact .inr ⟨[], b, y, rfl, hb, hspace⟩
    · exact .inr ⟨b :: front, c, space, rfl, hc, hspace⟩

theorem count_eq_zero_of_not_isAsciiSpace {b : UInt8} (h : isAsciiSpace b = false) :
    [b].count 0x0a = 0 := by
  rw [List.count_eq_zero, List.mem_singleton]
  rintro rfl
  exact absurd h (by decide)

/-- White space has no offsets. -/
theorem filter_range'_of_space (x z : List UInt8) (hy : ∀ b ∈ y, isAsciiSpace b = true) :
    (List.range' x.length y.length).filter
      (fun i => !(x ++ (y ++ z))[i]?.any isAsciiSpace) = [] := by
  rw [List.filter_eq_nil_iff]
  intro i hi
  obtain ⟨hle, hlt⟩ := List.mem_range'_1.1 hi
  have hbyte : (x ++ (y ++ z))[i]? = some y[i - x.length] := by
    rw [List.getElem?_append_right hle, List.getElem?_append_left (by omega),
      List.getElem?_eq_getElem (by omega)]
  simp [hbyte, hy _ (List.getElem_mem _)]

section Spans

variable (h : t.Spans x y z)
include h

theorem inkOffsets_eq : inkOffsets (x ++ (y ++ z)) t =
    (List.range' x.length y.length).filter fun i => !(x ++ (y ++ z))[i]?.any isAsciiSpace := by
  unfold inkOffsets
  rw [h.start, h.stop, Nat.add_sub_cancel_left]

theorem inkOffsets_of_space (hy : ∀ b ∈ y, isAsciiSpace b = true) :
    inkOffsets (x ++ (y ++ z)) t = [] :=
  (inkOffsets_eq h).trans (filter_range'_of_space x z hy)

theorem getLast?_inkOffsets {front space : List UInt8} {b : UInt8} (hy : y = front ++ b :: space)
    (hb : isAsciiSpace b = false) (hspace : ∀ c ∈ space, isAsciiSpace c = true) :
    (inkOffsets (x ++ (y ++ z)) t).getLast? = some (x.length + front.length) := by
  have hnone := filter_range'_of_space (x ++ front ++ [b]) z hspace
  have hbuffer : x ++ front ++ [b] ++ (space ++ z) = x ++ (y ++ z) := by
    simp [hy]
  have hbyte : (x ++ (y ++ z))[x.length + front.length]? = some b := by
    simp [hy]
  have hrange : List.range' x.length y.length =
      List.range' x.length front.length ++ (x.length + front.length) ::
        List.range' (x ++ front ++ [b]).length space.length := by
    have hlength : (x ++ front ++ [b]).length = x.length + front.length + 1 := by
      simp [Nat.add_assoc]
    rw [hlength, ← List.range'_succ, List.range'_append_1, hy]
    simp
  rw [hbuffer] at hnone
  rw [inkOffsets_eq h, hrange, List.filter_append, List.filter_cons, hbyte, hnone]
  simp [hb]

/-- In a token that is not all white space, the search ends at the last byte that is none. -/
theorem count_trailingSpace {front space : List UInt8} {b : UInt8} (hy : y = front ++ b :: space)
    (hb : isAsciiSpace b = false) (hspace : ∀ c ∈ space, isAsciiSpace c = true) :
    (trailingSpace (x ++ (y ++ z)) t).count 0x0a = space.count 0x0a := by
  have hback : y.reverse ++ x.getLast?.toList =
      space.reverse ++ b :: (front.reverse ++ x.getLast?.toList) := by
    simp [hy]
  rw [h.trailingSpace, hback, List.takeWhile_append_of_pos (by simpa using hspace),
    List.takeWhile_cons_of_neg (by simp [hb]), List.append_nil, List.count_reverse]

/-- In a token that is all white space, the search goes on to the byte in front of it. -/
theorem count_trailingSpace_of_space (hy : ∀ b ∈ y, isAsciiSpace b = true) :
    (trailingSpace (x ++ (y ++ z)) t).count 0x0a =
      y.count 0x0a + if x.getLast? = some 0x0a then 1 else 0 := by
  rw [h.trailingSpace, List.takeWhile_append_of_pos (by simpa using hy), List.count_append,
    List.count_reverse]
  congr 1
  cases x.getLast? with
  | none => rfl
  | some b =>
    by_cases hb : b = 0x0a
    · subst hb
      decide
    · cases hspace : isAsciiSpace b <;> simp [hspace, hb]

theorem getElem?_before_start (hx : x ≠ []) :
    (x ++ (y ++ z))[t.start.index - 1]? = x.getLast? := by
  have := List.length_pos_iff.2 hx
  rw [h.start, List.getElem?_append_left (by omega), List.getLast?_eq_getElem?]

/-- The line feeds in front of the last byte that is no white space. -/
theorem inkLine_of_ink (hscalar : t.isScalar = true) {front space : List UInt8} {b : UInt8}
    (hy : y = front ++ b :: space) (hb : isAsciiSpace b = false)
    (hspace : ∀ c ∈ space, isAsciiSpace c = true) :
    inkLine (x ++ (y ++ z)) t = x.count 0x0a + front.count 0x0a := by
  have hsplit : x ++ (y ++ z) = (x ++ front) ++ (b :: space ++ z) := by simp [hy]
  unfold inkLine
  rw [if_pos hscalar, getLast?_inkOffsets h hy hb hspace]
  simp only
  rw [hsplit, ← List.length_append, List.take_left, List.count_append]

theorem inkLine_of_space (hscalar : t.isScalar = true) (hy : ∀ b ∈ y, isAsciiSpace b = true) :
    inkLine (x ++ (y ++ z)) t = t.start.line := by
  unfold inkLine
  rw [if_pos hscalar, inkOffsets_of_space h hy]
  rfl

variable (hstart : t.start.line = x.count 0x0a)
  (hstop : t.stop.line = x.count 0x0a + y.count 0x0a)
include hstart hstop

/-- Where the search from the end of a token ends. -/
theorem lastLine_of_spans : lastLine (x ++ (y ++ z)) t =
    inkLine (x ++ (y ++ z)) t + if isHollow (x ++ (y ++ z)) t then 0 else 1 := by
  cases hscalar : t.isScalar with
  | false => simp [lastLine, inkLine, isHollow, hscalar]
  | true =>
    unfold lastLine isHollow
    rw [if_pos hscalar, hscalar]
    -- in a scalar that is all white space the search ends one byte in front of its start
    rcases exists_last_ink y with hy | ⟨front, b, space, hy, hb, hspace⟩
    · rw [inkLine_of_space h hscalar hy, inkOffsets_of_space h hy,
        count_trailingSpace_of_space h hy]
      by_cases hx : x = []
      · subst hx
        have hzero : t.start.index = 0 := h.start
        simp [hzero]
        omega
      · have hpos : 0 < t.start.index := by
          rw [h.start]
          exact List.length_pos_iff.2 hx
        rw [getElem?_before_start h hx]
        by_cases hlast : x.getLast? = some 0x0a
        · simp [hlast, hpos]
          omega
        · simp [hlast]
          omega
    · have hink : (inkOffsets (x ++ (y ++ z)) t).isEmpty = false := by
        cases hoffsets : inkOffsets (x ++ (y ++ z)) t with
        | nil => simpa [hoffsets] using getLast?_inkOffsets h hy hb hspace
        | cons i offsets => rfl
      have hcount : y.count 0x0a = front.count 0x0a + space.count 0x0a := by
        have hb := count_eq_zero_of_not_isAsciiSpace hb
        rw [hy, ← List.singleton_append, List.count_append, List.count_append, hb, Nat.zero_add]
      rw [inkLine_of_ink h hscalar hy hb hspace, count_trailingSpace h hy hb hspace, hink]
      simp
      omega

theorem inkLine_bounds_of_spans :
    t.start.line ≤ inkLine (x ++ (y ++ z)) t ∧ inkLine (x ++ (y ++ z)) t ≤ t.stop.line := by
  cases hscalar : t.isScalar with
  | false =>
    simp only [inkLine, hscalar, Bool.false_eq_true, if_false]
    omega
  | true =>
    rcases exists_last_ink y with hy | ⟨front, b, space, hy, hb, hspace⟩
    · rw [inkLine_of_space h hscalar hy]
      omega
    · have hfront : front.count 0x0a ≤ y.count 0x0a :=
        (hy ▸ List.sublist_append_left front (b :: space)).count_le _
      rw [inkLine_of_ink h hscalar hy hb hspace]
      omega

end Spans

/-! ## The tokens of a text -/

section Scanned

variable {text : List Char} (hfeed : ∀ i, endsLineAt text i = true → text[i]? = some '\n')
include hfeed

/-- The bytes that a token takes, and the lines on which it starts and stops. -/
theorem exists_spans (ht : t ∈ (scanText text).tokens) :
    ∃ x y z, bytes text = x ++ (y ++ z) ∧ t.Spans x y z ∧ t.start.line = x.count 0x0a ∧
      t.stop.line = x.count 0x0a + y.count 0x0a := by
  obtain ⟨s, hrun, -⟩ := ScanState.run_scanText text
  obtain ⟨c, d, hc, hcd, -, hstart, hstop⟩ :=
    (ScanState.placed_run hrun).tokens.mem (List.mem_append_left s.queue ht)
  have hd := hc.trans hcd
  have hle := hcd.pos_le
  have hfront : text.take d.pos = text.take c.pos ++ (text.drop c.pos).take (d.pos - c.pos) := by
    rw [← List.take_add, Nat.add_sub_cancel' hle]
  have hsplit : bytes (text.take d.pos) =
      bytes (text.take c.pos) ++ bytes ((text.drop c.pos).take (d.pos - c.pos)) := by
    rw [hfront, bytes_append]
  refine ⟨bytes (text.take c.pos), bytes ((text.drop c.pos).take (d.pos - c.pos)),
    bytes (text.drop d.pos), ?_, ⟨?_, ?_⟩, ?_, ?_⟩
  · rw [← List.append_assoc, ← hsplit, ← bytes_append, List.take_append_drop]
  · rw [hstart, hc.at_pos.index, length_bytes]
  · rw [hstop, hd.at_pos.index, ← length_bytes, hsplit, List.length_append]
  · rw [hstart]
    exact hc.at_pos.line_eq_count hfeed
  · rw [hstop, ← List.count_append, ← hsplit]
    exact hd.at_pos.line_eq_count hfeed

theorem lastLine_eq (ht : t ∈ (scanText text).tokens) : lastLine (bytes text) t =
    inkLine (bytes text) t + if isHollow (bytes text) t then 0 else 1 := by
  obtain ⟨x, y, z, htext, hspans, hstart, hstop⟩ := exists_spans hfeed ht
  rw [htext]
  exact lastLine_of_spans hspans hstart hstop

/-- The text of a token ends between its start and its stop. -/
theorem inkLine_bounds (ht : t ∈ (scanText text).tokens) :
    t.start.line ≤ inkLine (bytes text) t ∧ inkLine (bytes text) t ≤ t.stop.line := by
  obtain ⟨x, y, z, htext, hspans, hstart, hstop⟩ := exists_spans hfeed ht
  rw [htext]
  exact inkLine_bounds_of_spans hspans hstart hstop

end Scanned

/-- A token stops on the line on which a later one starts, or before. -/
theorem pairwise_stop_line (text : List Char) :
    (scanText text).tokens.Pairwise fun t u => t.stop.line ≤ u.start.line := by
  obtain ⟨s, hrun, -⟩ := ScanState.run_scanText text
  have hlaid := (ScanState.placed_run hrun).tokens
  refine ((List.pairwise_append.1 hlaid.pairwise).1).imp_of_mem fun {t u} ht hu hle => ?_
  obtain ⟨c, d, hc, hcd, -, -, hstop⟩ := hlaid.mem (List.mem_append_left s.queue ht)
  obtain ⟨c', -, hc', -, -, hstart, -⟩ := hlaid.mem (List.mem_append_left s.queue hu)
  rw [hstop, hstart] at hle ⊢
  exact Cursor.line_le_of_index_le (hc.trans hcd) hc' hle

/-! ## What the rule remembers -/

variable {config : Config} {tokens : List Token} {s s₁ : State} {w : Window} {n : Nat}

theorem State.Compared.line (h : s.Compared s₁) : s₁.line = s.line := by
  rcases h with rfl | ⟨base, column, rfl⟩
  · rfl
  · exact line_expect s base column

/-- Behind a visible token that fits, the rule remembers where it ends. -/
theorem line_check_of_opened (h : s.opened config w = some s₁) :
    (check config w s).2.line =
      if isVisible w.token then lastLine w.buffer w.token else s.line := by
  rw [check_snd, State.step_of_opened h]
  unfold State.opened at h
  split at h
  · cases h
  · rename_i hstart
    split at h
    · cases h
    · rename_i hscalar
      have hline := (State.checkScalar_cases hscalar).1.line.trans
        (State.checkStart_cases hstart).1.line
      show s₁.line = _
      rw [(grown_openFrames h).2]
      unfold State.moveTo
      split
      · rfl
      · exact hline

/-- The rule has not told of any of the first `n` tokens that they do not fit. -/
def FitsBefore (config : Config) (buffer : List UInt8) (tokens : List Token) (n : Nat) : Prop :=
  ∀ m < n, ∀ fs, ((rule config).run (windows buffer tokens))[m]? = some fs →
    ∀ f ∈ fs, isAnomaly f = false

theorem FitsBefore.mono {m : Nat} (h : FitsBefore config buffer tokens n) (hm : m ≤ n) :
    FitsBefore config buffer tokens m :=
  fun k hk => h k (Nat.lt_of_lt_of_le hk hm)

theorem FitsBefore.opened {m : Nat} (h : FitsBefore config buffer tokens n) (hm : m < n)
    (hw : (windows buffer tokens)[m]? = some w) :
    ∃ s₁, (stateBehind config buffer tokens m).opened config w = some s₁ := by
  have hrun := run_getElem? config buffer tokens m
  rw [hw] at hrun
  have hquiet : (check config w (stateBehind config buffer tokens m)).1.filter isAnomaly = [] := by
    rw [List.filter_eq_nil_iff]
    intro f hf
    simp [h m hm _ hrun f hf]
  rw [filter_isAnomaly_check (shaped_stateBehind m)] at hquiet
  rw [← Option.isSome_iff_exists]
  by_contra hnone
  simp [hnone] at hquiet

/-- The last visible one of the first `n` tokens. -/
def lastVisible? (tokens : List Token) (n : Nat) : Option Token :=
  ((tokens.take n).filter isVisible).getLast?

theorem lastVisible?_succ {t : Token} (h : tokens[n]? = some t) :
    lastVisible? tokens (n + 1) = if isVisible t then some t else lastVisible? tokens n := by
  unfold lastVisible?
  rw [List.take_add_one, h, List.filter_append]
  cases hvisible : isVisible t <;> simp [hvisible]

/-- The rule remembers where the last visible token ends. -/
theorem line_stateBehind (h : FitsBefore config buffer tokens n) (hn : n ≤ tokens.length) :
    (stateBehind config buffer tokens n).line =
      (lastVisible? tokens n).elim (-1) (lastLine buffer) := by
  induction n with
  | zero => rfl
  | succ n ih =>
    have hlt : n < (windows buffer tokens).length := by
      rw [length_windows]
      exact hn
    have hw := List.getElem?_eq_getElem hlt
    obtain ⟨hbuffer, ht, -⟩ := getElem?_windows hw
    obtain ⟨s₁, hopened⟩ := h.opened (Nat.lt_succ_self n) hw
    rw [stateBehind_succ hw, line_check_of_opened hopened, lastVisible?_succ ht, hbuffer]
    split
    · rfl
    · exact ih (h.mono (Nat.le_succ n)) (Nat.le_of_succ_le hn)

/-! ## The first tokens of lines -/

section Sources

variable {text : List Char} {t u v : Token} {m : Nat}

theorem mem_take_of_lastVisible? (h : lastVisible? tokens n = some v) :
    v ∈ tokens.take n ∧ isVisible v = true :=
  List.mem_filter.1 (List.mem_of_getLast? h)

theorem lastVisible?_eq_none (h : lastVisible? tokens n = none) :
    ∀ u ∈ tokens.take n, isVisible u = false := by
  have hnone := List.filter_eq_nil_iff.1 (List.getLast?_eq_none_iff.1 h)
  intro u hu
  exact Bool.eq_false_iff.2 (hnone u hu)

/-- A token does not start before an earlier one stops. -/
theorem stop_line_le (ht : (scanText text).tokens[n]? = some t)
    (hu : u ∈ (scanText text).tokens.take n) : u.stop.line ≤ t.start.line := by
  have hplaces := (pairwise_stop_line text).sublist (List.take_sublist (n + 1) _)
  rw [List.take_add_one, ht, List.pairwise_append] at hplaces
  exact hplaces.2.2 u hu t (List.mem_singleton_self t)

variable (hfeed : ∀ i, endsLineAt text i = true → text[i]? = some '\n')
include hfeed

/-- The text of the last visible token does not end before that of an earlier one. -/
theorem inkLine_le_lastVisible? (hv : lastVisible? (scanText text).tokens n = some v)
    (hu : u ∈ (scanText text).tokens.take n) (hvisible : isVisible u = true) :
    inkLine (bytes text) u ≤ inkLine (bytes text) v := by
  obtain ⟨us, hus⟩ := List.getLast?_eq_some_iff.1 hv
  have hmem := List.mem_filter.2 ⟨hu, hvisible⟩
  have hplaces : ((scanText text).tokens.take n |>.filter isVisible).Pairwise fun t u =>
      t.stop.line ≤ u.start.line :=
    (pairwise_stop_line text).sublist (List.filter_sublist.trans (List.take_sublist n _))
  rw [hus] at hmem hplaces
  rcases List.mem_append.1 hmem with hu' | hu'
  · have hle := (List.pairwise_append.1 hplaces).2.2 u hu' v (List.mem_singleton_self v)
    have hubounds := inkLine_bounds hfeed (List.mem_of_mem_take hu)
    have hvbounds := inkLine_bounds hfeed (List.mem_of_mem_take (mem_take_of_lastVisible? hv).1)
    omega
  · rw [List.mem_singleton.1 hu']

variable (hfits : FitsBefore config (bytes text) (scanText text).tokens n)
include hfits

/-- A visible token is taken for the first of its line if the text of all visible tokens before it
ends on earlier lines; and also if the last of these is hollow. -/
theorem isFirst_iff (ht : (scanText text).tokens[n]? = some t) :
    (stateBehind config (bytes text) (scanText text).tokens n).isFirst t = true ↔
      isVisible t = true ∧
        ((∀ u ∈ (scanText text).tokens.take n, isVisible u = true →
            inkLine (bytes text) u < t.start.line) ∨
          ∃ u, lastVisible? (scanText text).tokens n = some u ∧
            isHollow (bytes text) u = true) := by
  have hn := (List.getElem?_eq_some_iff.1 ht).1
  have hline := line_stateBehind hfits (Nat.le_of_lt hn)
  unfold State.isFirst
  rw [Bool.and_eq_true, decide_eq_true_eq, hline]
  refine and_congr_right fun _ => ?_
  cases hv : lastVisible? (scanText text).tokens n with
  | none =>
    -- nothing visible has come yet, and the state remembers no line of the text
    have hnone := lastVisible?_eq_none hv
    refine iff_of_true ?_ (.inl fun u hu hvisible => ?_)
    · show (-1 : Int) < t.start.line + 1
      omega
    · rw [hnone u hu] at hvisible
      cases hvisible
  | some v =>
    obtain ⟨hmem, hvisible⟩ := mem_take_of_lastVisible? hv
    have hstop := stop_line_le ht hmem
    have hbounds := inkLine_bounds hfeed (List.mem_of_mem_take hmem)
    rw [Option.elim_some, lastLine_eq hfeed (List.mem_of_mem_take hmem)]
    -- behind a hollow token one line too few is remembered, so the next one seems to be first
    by_cases hhollow : isHollow (bytes text) v = true
    · refine iff_of_true ?_ (.inr ⟨v, rfl, hhollow⟩)
      rw [if_pos hhollow]
      omega
    · rw [if_neg hhollow]
      constructor
      · intro hlt
        refine .inl fun u hu hvisible => ?_
        have := inkLine_le_lastVisible? hfeed hv hu hvisible
        omega
      · rintro (hall | ⟨u, hu, hhollow'⟩)
        · have := hall v hmem hvisible
          omega
        · rw [Option.some.inj hu] at hhollow
          exact absurd hhollow' hhollow

variable (hink : ∀ u ∈ (scanText text).tokens.take n, isVisible u = true →
  isHollow (bytes text) u = false)
include hink

/-- Without hollow scalars, the line that is remembered never decreases. -/
theorem line_stateBehind_mono (hm : m ≤ n) (hn : n ≤ (scanText text).tokens.length) :
    (stateBehind config (bytes text) (scanText text).tokens m).line ≤
      (stateBehind config (bytes text) (scanText text).tokens n).line := by
  have hended : ∀ v, lastVisible? (scanText text).tokens n = some v →
      lastLine (bytes text) v = inkLine (bytes text) v + 1 := by
    intro v hv
    obtain ⟨hmem, hvisible⟩ := mem_take_of_lastVisible? hv
    rw [lastLine_eq hfeed (List.mem_of_mem_take hmem), hink v hmem hvisible]
    rfl
  rw [line_stateBehind (hfits.mono hm) (Nat.le_trans hm hn), line_stateBehind hfits hn]
  cases hu : lastVisible? (scanText text).tokens m with
  | none =>
    cases hv : lastVisible? (scanText text).tokens n with
    | none => exact Int.le_refl _
    | some v =>
      have := hended v hv
      simp only [Option.elim_none, Option.elim_some]
      omega
  | some u =>
    obtain ⟨hmem, hvisible⟩ := mem_take_of_lastVisible? hu
    have hmem' : u ∈ (scanText text).tokens.take n := List.take_subset_take_left _ hm hmem
    cases hv : lastVisible? (scanText text).tokens n with
    | none =>
      rw [lastVisible?_eq_none hv u hmem'] at hvisible
      cases hvisible
    | some v =>
      have hle := inkLine_le_lastVisible? hfeed hv hmem' hvisible
      have hlast := hended v hv
      have hlast' := lastLine_eq hfeed (List.mem_of_mem_take hmem)
      rw [hink u hmem' hvisible] at hlast'
      simp only [Bool.false_eq_true, if_false] at hlast'
      simp only [Option.elim_some]
      omega

/-- Without hollow scalars, two tokens that are taken for the first of their lines are on different
lines. -/
theorem start_line_lt_of_isFirst (hm : m < n) (hu : (scanText text).tokens[m]? = some u)
    (ht : (scanText text).tokens[n]? = some t)
    (hfirst : (stateBehind config (bytes text) (scanText text).tokens m).isFirst u = true)
    (hfirst' : (stateBehind config (bytes text) (scanText text).tokens n).isFirst t = true) :
    u.start.line < t.start.line := by
  obtain ⟨hvisible, -⟩ := (isFirst_iff hfeed (hfits.mono (Nat.le_of_lt hm)) hu).1 hfirst
  have hmem : u ∈ (scanText text).tokens.take n := by
    refine List.mem_of_getElem? (i := m) ?_
    rw [List.getElem?_take, if_pos hm, hu]
  obtain ⟨-, hall | ⟨v, hv, hhollow⟩⟩ := (isFirst_iff hfeed hfits ht).1 hfirst'
  · have hlt := hall u hmem hvisible
    have hbounds := inkLine_bounds hfeed (List.mem_of_mem_take hmem)
    omega
  · obtain ⟨hmem', hvisible'⟩ := mem_take_of_lastVisible? hv
    rw [hink v hmem' hvisible'] at hhollow
    cases hhollow

end Sources

/-- The tokens that are taken for the first of their line, in a source in which only line feeds end
lines. A token is found to end where its text does, but for a hollow scalar, which is found to end
one line above. As long as all tokens fit, a token is taken for the first of its line if and only if
it is visible and the text of every visible token before it ends on an earlier line, or the last
visible token before it is hollow. Where no visible token is hollow, the line that is remembered
never decreases, and of two tokens that are taken for the first of their lines the later one is on a
later line. -/
theorem first_in_line_iff {source : String}
    (hfeed : ∀ i, endsLineAt source.toList i = true → source.toList[i]? = some '\n')
    (config : Config) :
    let buffer := bytes source.toList
    let tokens := (scan source).tokens
    let state := stateBehind config buffer tokens
    (∀ t ∈ tokens,
      lastLine buffer t = inkLine buffer t + if isHollow buffer t then 0 else 1) ∧
    ∀ n t, tokens[n]? = some t → FitsBefore config buffer tokens n →
      ((state n).isFirst t = true ↔ isVisible t = true ∧
        ((∀ u ∈ tokens.take n, isVisible u = true → inkLine buffer u < t.start.line) ∨
          ∃ u, lastVisible? tokens n = some u ∧ isHollow buffer u = true)) ∧
      ((∀ u ∈ tokens.take n, isVisible u = true → isHollow buffer u = false) →
        ∀ m < n, (state m).line ≤ (state n).line ∧
          ∀ u, tokens[m]? = some u → (state m).isFirst u = true → (state n).isFirst t = true →
            u.start.line < t.start.line) := by
  intro buffer tokens state
  refine ⟨fun t ht => lastLine_eq hfeed ht, fun n t ht hfits => ⟨isFirst_iff hfeed hfits ht, ?_⟩⟩
  intro hink m hm
  have hn := Nat.le_of_lt (List.getElem?_eq_some_iff.1 ht).1
  refine ⟨line_stateBehind_mono hfeed hfits hink (Nat.le_of_lt hm) hn, ?_⟩
  intro u hu hfirst hfirst'
  exact start_line_lt_of_isFirst hfeed hfits hink hm hu ht hfirst hfirst'

/-- A key that is a form feed, at the start of a line: the `:` behind it is taken for the first
token of the line. -/
theorem first_in_line_iff_formFeed :
    let source := "x: 1\n\x0c: 2\n"
    let buffer := bytes source.toList
    let tokens := (scan source).tokens
    FitsBefore .default buffer tokens 8 ∧
      tokens[6]? = some ⟨.key, ⟨5, 1, 0⟩, ⟨5, 1, 0⟩⟩ ∧
      tokens[8]? = some ⟨.value, ⟨6, 1, 1⟩, ⟨7, 1, 2⟩⟩ ∧
      (stateBehind .default buffer tokens 8).isFirst ⟨.value, ⟨6, 1, 1⟩, ⟨7, 1, 2⟩⟩ = true := by
  intro source buffer tokens
  have hfeed : ∀ i, endsLineAt source.toList i = true → source.toList[i]? = some '\n' :=
    feeds_of_lt (by decide +kernel)
  have hfits : FitsBefore .default buffer tokens 8 := by
    have hquiet : ∀ fs ∈ (rule .default).run (windows buffer tokens), ∀ f ∈ fs,
        isAnomaly f = false := by
      decide +kernel
    exact fun m _ fs hfs => hquiet fs (List.mem_of_getElem? hfs)
  have hvalue : tokens[8]? = some ⟨.value, ⟨6, 1, 1⟩, ⟨7, 1, 2⟩⟩ := by decide +kernel
  refine ⟨hfits, by decide +kernel, hvalue, ?_⟩
  refine (((first_in_line_iff hfeed .default).2 8 _ hvalue hfits).1).2 ⟨rfl, .inr ?_⟩
  exact ⟨⟨.scalar "\x0c" .plain, ⟨5, 1, 0⟩, ⟨6, 1, 1⟩⟩, by decide +kernel, by decide +kernel⟩

end Indentation

end YamlLinter
