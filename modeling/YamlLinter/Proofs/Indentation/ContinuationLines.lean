import YamlLinter.Proofs.Indentation.FirstInLine
import YamlLinter.Proofs.PhysicalLines
import YamlLinter.Proofs.Places
import YamlLinter.Proofs.SkippedLine

/-!
# The lines of scalars are physical lines

The indentation rule finds the lines of a scalar by searching its raw bytes for line feeds. It starts
to search in the middle of a line, counts the lines on its own, stops one byte in front of the end of
the scalar, and looks beyond that for the spaces of the line found last. What it finds are physical
lines of the source nonetheless: those below the one on which the scalar starts that hold a byte of
the scalar, but for blank ones. It compares each of them with one indent.

## Contents

* `Line.indent`, `Line.isBlank`: the spaces of a line;
* `lineIndent?_line`: the spaces of a line, found in its bytes;
* `filter_linesBehind`, `linesBehind_tiled`: the lines found in a text, from its middle or its start;
* `number_eq_count`, `return_not_mem_text`: the lines of a source in which only line feeds end lines;
* `ContinuesOn`, `continuationLines_eq`: the lines of a token;
* `toldBelow_step`, `toldBelow_check`, `toldBelow_run`: what is told of them, at one token and in a run;
* `mem_linesCompared_iff`, `pairwise_linesCompared`: the lines that are told, and their order;
* `continuation_lines_compared`: the lines of the scalars of a source.
-/

namespace YamlLinter

open Text

namespace Line

/-- The number of spaces at the front of a line. -/
def indent (l : Line) : Nat := (l.text.takeWhile (· == ' ')).length

/-- A line without text, or of spaces alone. -/
def isBlank (l : Line) : Bool := l.text.all (· == ' ')

end Line

namespace Indentation

variable {number start count : Nat} {text behind : List Char} {l m : Line} {lines : List Line}
  {ends : List (List Char)}

/-! ## The spaces of a line -/

/-- The bytes of a line, with its end and all that stands behind it, show whether it is blank and the
spaces at its front. -/
theorem lineIndent?_line (htext : ∀ ch ∈ text, ch ≠ '\n' ∧ ch ≠ '\r')
    (hbehind : ∀ ch ∈ behind.head?, ch = '\n' ∨ ch = '\r') :
    lineIndent? (bytes (text ++ behind)) =
      if text.all (· == ' ') then none else some (text.takeWhile (· == ' ')).length := by
  induction text with
  | nil =>
    cases behind with
    | nil => rfl
    | cons ch behind => rcases hbehind ch rfl with rfl | rfl <;> rfl
  | cons ch text ih =>
    have hbytes : bytes (ch :: text ++ behind) =
        String.utf8EncodeChar ch ++ bytes (text ++ behind) := rfl
    rw [hbytes]
    by_cases hspace : ch = ' '
    · subst hspace
      rw [show String.utf8EncodeChar ' ' = [0x20] by decide, List.singleton_append,
        lineIndent?_space, ih fun c hc => htext c (List.mem_cons_of_mem _ hc)]
      by_cases hblank : text.all (· == ' ') = true
      · simp [hblank]
      · simp [hblank]
    · obtain ⟨hfeed, hreturn⟩ := htext ch List.mem_cons_self
      rw [lineIndent?_encode hspace, if_neg (by simp [hfeed, hreturn])]
      simp [hspace]

/-! ## Lines behind line feeds -/

/-- A search that starts behind some bytes finds what a search from their start finds on later
lines. -/
theorem filter_linesBehind (number count : Nat) (x rest : List UInt8) :
    (linesBehind number (x.length + count) (x ++ rest)).filter
        (fun p => number + x.count 0x0a < p.1) =
      linesBehind (number + x.count 0x0a) count rest := by
  induction x generalizing number with
  | nil =>
    rw [List.length_nil, Nat.zero_add, List.nil_append, List.count_nil, Nat.add_zero,
      List.filter_eq_self]
    rintro ⟨line, indent⟩ h
    exact decide_eq_true (lt_of_mem_linesBehind h)
  | cons b x ih =>
    rw [List.length_cons, Nat.succ_add, List.cons_append, linesBehind]
    by_cases hb : b = 0x0a
    · -- the line that starts here is not a later one
      subst hb
      have hnumber : number + (0x0a :: x).count 0x0a = number + 1 + x.count 0x0a := by
        rw [List.count_cons_self]
        omega
      rw [if_pos (beq_self_eq_true _), hnumber]
      split
      · have hearly : ¬number + 1 + x.count 0x0a < number + 1 := by omega
        rw [List.filter_cons_of_neg (by rwa [decide_eq_true_iff]), ih]
      · exact ih (number + 1)
    · rw [if_neg (by simpa using hb), List.count_cons_of_ne hb, ih]

theorem lineIndent?_tiled (h : Tiled number start text (l :: lines) ends) (hreturn : '\r' ∉ l.text) :
    lineIndent? (bytes text) = if l.isBlank then none else some l.indent := by
  obtain ⟨-, hfeed, e, rest, _, -, rfl, hend⟩ := h.uncons
  apply lineIndent?_line
  · intro ch hch
    exact ⟨fun heq => hfeed (heq ▸ hch), fun heq => hreturn (heq ▸ hch)⟩
  · rcases hend with ⟨-, rfl, rfl⟩ | ⟨⟨rfl, -⟩ | rfl, -⟩
    · intro ch hch
      cases hch
    · exact fun ch hch => .inl (Option.some.inj hch).symm
    · exact fun ch hch => .inr (Option.some.inj hch).symm

theorem feed_not_mem_bytes (h : '\n' ∉ text) : 0x0a ∉ bytes text := by
  rw [← List.count_eq_zero, count_bytes, List.count_eq_zero]
  exact h

/-- A search goes on behind the line feed at which the first line ends, if it gets so far. -/
theorem linesBehind_front {front rest : List Char} (h : '\n' ∉ front) (number count : Nat) :
    linesBehind number count (bytes (front ++ '\n' :: rest)) =
      linesBehind number (count - byteCount front) (0x0a :: bytes rest) := by
  rw [bytes_append, linesBehind_of_not_mem (feed_not_mem_bytes h), length_bytes]
  rfl

theorem linesBehind_of_feed_not_mem (h : '\n' ∉ text) (number count : Nat) :
    linesBehind number count (bytes text) = [] := by
  have hnone := linesBehind_of_not_mem (feed_not_mem_bytes h) number count []
  rw [List.append_nil] at hnone
  rw [hnone]
  cases count - (bytes text).length <;> rfl

/-- A search from the start of a text finds its lines behind the first one, as far as it goes, but for
blank ones. -/
theorem linesBehind_tiled (h : Tiled number start text lines ends)
    (hreturn : ∀ l ∈ lines, '\r' ∉ l.text) (count : Nat) :
    linesBehind number count (bytes text) =
      (lines.tail.filter fun l => decide (l.start ≤ start + count) && !l.isBlank).map
        fun l => (l.number, l.indent) := by
  induction h generalizing count with
  | last htext => exact linesBehind_of_feed_not_mem htext _ count
  | @cons number start text e rest lines ends htext hend hrest ih =>
    obtain ⟨front, rfl, hfront⟩ := exists_feed_of_endsLine hend
    have hline : '\n' ∉ text ++ front := by simp [htext, hfront]
    have hnext : byteCount (text ++ (front ++ ['\n'])) = byteCount (text ++ front) + 1 := by
      rw [← List.append_assoc, byteCount_append]
      rfl
    have hsplit : text ++ (front ++ ['\n'] ++ rest) = text ++ front ++ '\n' :: rest := by simp
    rw [hnext] at hrest ih
    rw [hsplit, linesBehind_front hline, List.tail_cons]
    cases hleft : count - byteCount (text ++ front) with
    | zero =>
      -- the search ends in front of the line feed, and all other lines start behind it
      rw [linesBehind, eq_comm, List.map_eq_nil_iff, List.filter_eq_nil_iff]
      intro l hl
      have := hrest.start_le l hl
      simp only [Bool.and_eq_true, decide_eq_true_eq]
      omega
    | succ left =>
      have hstop : start + (byteCount (text ++ front) + 1) + left = start + count := by omega
      have hmore := ih (fun l hl => hreturn l (List.mem_cons_of_mem _ hl)) left
      rw [hstop] at hmore
      cases lines with
      | nil => cases hrest
      | cons m lines =>
        obtain ⟨hm, -⟩ := hrest.uncons
        have hindent := lineIndent?_tiled hrest (hreturn m (by simp))
        have hnumber : m.number = number + 1 := congrArg Line.number hm
        have hstart : m.start = start + (byteCount (text ++ front) + 1) := congrArg Line.start hm
        have hreached : m.start ≤ start + count := by omega
        rw [linesBehind, if_pos (beq_self_eq_true _), hindent, hmore, List.tail_cons]
        by_cases hblank : m.isBlank = true
        · simp [hblank]
        · simp [hblank, hreached, hnumber]

/-! ## The lines of a source -/

/-- The number of a line tells the line feeds in front of it. -/
theorem number_eq_count (hl : l ∈ Line.all text) :
    l.number = ((bytes text).take l.start).count 0x0a + 1 := by
  obtain ⟨before, behind, hlies⟩ := exists_liesIn hl
  have hfront : (bytes text).take l.start = bytes before := by
    rw [hlies.split, bytes_append, hlies.start, ← length_bytes, List.take_left]
  rw [hfront, count_bytes, hlies.number]

/-- No two lines have the same number. -/
theorem eq_of_number_eq (hl : l ∈ Line.all text) (hm : m ∈ Line.all text)
    (h : l.number = m.number) : l = m := by
  have hmem : l ∈ (Line.all text).filter (·.number == m.number) :=
    List.mem_filter.2 ⟨hl, beq_iff_eq.2 h⟩
  rw [filter_number hm] at hmem
  exact List.mem_singleton.1 hmem

/-- The line is below the one on which the token starts, and a byte of the token stands on it. -/
def ContinuesOn (t : Token) (l : Line) : Prop :=
  t.start.line + 1 < l.number ∧
    ∃ i, l.start ≤ i ∧ i < l.stop ∧ t.start.index ≤ i ∧ i < t.stop.index

theorem ContinuesOn.start_lt {t : Token} (h : ContinuesOn t l) : l.start < t.stop.index := by
  obtain ⟨-, i, hle, -, -, hlt⟩ := h
  exact Nat.lt_of_le_of_lt hle hlt

section Scanned

variable {t : Token} (hfeed : ∀ i, endsLineAt text i = true → text[i]? = some '\n')
include hfeed

/-- A carriage return stands only in front of a line feed. -/
theorem head?_behind_return {front rest : List Char} (h : text = front ++ '\r' :: rest) :
    rest.head? = some '\n' := by
  have hchar : text[front.length]? = some '\r' := by
    rw [h, List.getElem?_append_right (Nat.le_refl _), Nat.sub_self]
    rfl
  have hnext : text[front.length + 1]? = rest.head? := by
    rw [h, List.getElem?_append_right (Nat.le_add_right _ _), Nat.add_sub_cancel_left,
      List.getElem?_cons_succ, List.head?_eq_getElem?]
  by_contra hne
  have hends : endsLineAt text front.length = true := by
    simp [endsLineAt, hchar, hnext, hne, isBreak]
  have hfound := hfeed _ hends
  rw [hchar] at hfound
  cases hfound

/-- No line holds a carriage return. -/
theorem return_not_mem_text (hl : l ∈ Line.all text) : '\r' ∉ l.text := by
  obtain ⟨before, behind, hlies⟩ := exists_liesIn hl
  intro hmem
  obtain ⟨front, back, hsplit⟩ := List.append_of_mem hmem
  have htext : text = (before ++ front) ++ '\r' :: (back ++ behind) := by
    rw [hlies.split, hsplit]
    simp
  have hfollows := head?_behind_return hfeed htext
  -- the line feed would stand on the line, or the carriage return be part of the line end
  cases back with
  | cons ch back =>
    refine hlies.feed ?_
    rw [hsplit, ← Option.some.inj hfollows]
    simp
  | nil =>
    have hlast : l.text.getLast? = some '\r' := by rw [hsplit, List.getLast?_concat]
    rcases hlies.behind with rfl | ⟨e, rest, ⟨-, hreturn⟩ | rfl, rfl⟩
    · cases hfollows
    · exact hreturn hlast
    · cases hfollows

/-- The lines of the marks of a token, told by line feeds. -/
theorem lines_eq_count (ht : t ∈ (scanText text).tokens) :
    t.start.line = ((bytes text).take t.start.index).count 0x0a ∧
      t.stop.line = ((bytes text).take t.stop.index).count 0x0a := by
  obtain ⟨x, y, z, htext, hspans, hstart, hstop⟩ := exists_spans hfeed ht
  rw [htext, hspans.start, hspans.stop, List.take_left, ← List.length_append, ← List.append_assoc,
    List.take_left, List.count_append]
  exact ⟨hstart, hstop⟩

/-- A line below the one on which a token starts starts behind the start of the token. -/
theorem start_lt_of_number (ht : t ∈ (scanText text).tokens) (hl : l ∈ Line.all text)
    (h : t.start.line + 1 < l.number) : t.start.index < l.start := by
  by_contra hle
  have hcount := (List.take_sublist_take_left (l := bytes text) (Nat.le_of_not_lt hle)).count_le 0x0a
  rw [number_eq_count hl, (lines_eq_count hfeed ht).1] at h
  omega

/-- A line that starts in front of the end of a token is not below the one on which that ends. -/
theorem number_le_of_start (ht : t ∈ (scanText text).tokens) (hl : l ∈ Line.all text)
    (h : l.start ≤ t.stop.index) : l.number ≤ t.stop.line + 1 := by
  have hcount := (List.take_sublist_take_left (l := bytes text) h).count_le 0x0a
  rw [number_eq_count hl, (lines_eq_count hfeed ht).2]
  omega

/-- The lines of a token that are looked at are the physical lines below the one on which it starts
that start in front of its end, but for blank ones. -/
theorem continuationLines_eq (ht : t ∈ (scanText text).tokens) :
    continuationLines (bytes text) t =
      ((Line.all text).filter fun l => decide (t.start.line + 1 < l.number) &&
        (decide (l.start < t.stop.index) && !l.isBlank)).map fun l => (l.number, l.indent) := by
  obtain ⟨x, y, z, htext, hspans, hstart, hstop⟩ := exists_spans hfeed ht
  rw [htext, hspans.continuationLines]
  by_cases hlines : t.start.line = t.stop.line
  · -- a line below would start behind the end of the token
    rw [if_pos (beq_iff_eq.2 hlines), eq_comm, List.map_eq_nil_iff, List.filter_eq_nil_iff]
    intro l hl
    simp only [Bool.and_eq_true, decide_eq_true_eq]
    rintro ⟨hnumber, hbefore, -⟩
    have := number_le_of_start hfeed ht hl (Nat.le_of_lt hbefore)
    omega
  · -- the search finds what one from the start of the text finds on later lines
    have hy : y ≠ [] := by
      rintro rfl
      exact hlines (by rw [hstart, hstop]; rfl)
    have hpos := List.length_pos_iff.2 hy
    obtain ⟨ends, htiled⟩ := exists_tiled_all text
    have hwhole := linesBehind_tiled htiled (fun l hl => return_not_mem_text hfeed hl)
      (x.length + (y.length - 1))
    have hfrom := filter_linesBehind 1 (y.length - 1) x (y ++ z)
    have hnumber : 1 + x.count 0x0a = t.start.line + 1 := by rw [hstart, Nat.add_comm]
    rw [← htext, hwhole, hnumber, List.filter_map, List.filter_filter] at hfrom
    rw [if_neg (by simpa using hlines), ← hfrom, hspans.stop]
    cases hall : Line.all text with
    | nil => rfl
    | cons first lines =>
      rw [hall] at htiled
      have hfirst : first.number = 1 := congrArg Line.number htiled.uncons.1
      rw [List.tail_cons, List.filter_cons_of_neg (by simp [hfirst])]
      congr 1
      apply List.filter_congr
      intro l _
      have hreached : l.start ≤ 0 + (x.length + (y.length - 1)) ↔ l.start < x.length + y.length := by
        omega
      simp only [Function.comp_apply, hreached]

end Scanned

/-! ## What is told of the lines of a token -/

variable {config : Config} {s s₁ : State} {w : Window} {t : Token} {fs : List Finding}

/-- The indent expected of the lines of a scalar that is no block scalar: the column of its first
character, behind a quote. -/
def flowIndent? (t : Token) : Option Int :=
  match t.scalarStyle? with
  | some .plain => some (columnOf t)
  | some .singleQuoted | some .doubleQuoted => some (columnOf t + 1)
  | _ => none

theorem exists_flowIndent (t : Token) : ∃ expected : Int, ∀ i ∈ flowIndent? t, expected = i := by
  refine ⟨(flowIndent? t).getD 0, ?_⟩
  intro i hi
  rw [hi, Option.getD_some]

/-- The lines of a token compared with one indent. -/
def linesCompared (buffer : List UInt8) (t : Token) (expected : Int) : List Finding :=
  (continuationLines buffer t).flatMap fun x => compareIndent x.1 x.2 expected

/-- What is told of lines below the one on which a token starts. -/
def toldBelow (t : Token) (fs : List Finding) : List Finding :=
  fs.filter fun f => t.start.line + 1 < f.line

theorem expected_of_expectScalar {found expected : Int}
    (h : s.expectScalar t found = some (expected, s₁)) : ∀ i ∈ flowIndent? t, expected = i := by
  unfold flowIndent?
  unfold State.expectScalar at h
  intro i hi
  cases hstyle : t.scalarStyle? with
  | none =>
    rw [hstyle] at h
    cases h
  | some style =>
    rw [hstyle] at h hi
    cases style <;> cases hi <;> cases h <;> rfl

/-- All lines of a scalar that are looked at are compared with one indent. -/
theorem exists_expected_of_checkScalar {buffer : List UInt8} (hasked : config.checkMultiLine = true)
    (hscalar : t.isScalar = true) (h : s.checkScalar config buffer t = some (fs, s₁)) :
    ∃ expected : Int, (∀ i ∈ flowIndent? t, expected = i) ∧
      fs = linesCompared buffer t expected := by
  unfold State.checkScalar at h
  rw [hasked, hscalar] at h
  simp only [Bool.and_self, if_true] at h
  unfold State.checkLines at h
  split at h
  · rename_i hnone
    cases h
    obtain ⟨expected, hflow⟩ := exists_flowIndent t
    refine ⟨expected, hflow, ?_⟩
    rw [linesCompared, hnone]
    rfl
  · rename_i found lines hlines
    split at h
    · cases h
    · rename_i expected _ hexpect
      cases h
      refine ⟨expected, expected_of_expectScalar hexpect, ?_⟩
      rw [linesCompared, hlines]

theorem toldBelow_append (fs gs : List Finding) :
    toldBelow t (fs ++ gs) = toldBelow t fs ++ toldBelow t gs :=
  List.filter_append fs gs

theorem toldBelow_checkStart (h : s.checkStart t = some (fs, s₁)) : toldBelow t fs = [] := by
  unfold toldBelow
  rw [List.filter_eq_nil_iff]
  intro f hf
  rw [(at_of_mem_checkStart h hf).line]
  simp

theorem toldBelow_checkScalar {buffer : List UInt8}
    (h : s.checkScalar config buffer t = some (fs, s₁)) : toldBelow t fs = fs := by
  unfold toldBelow
  rw [List.filter_eq_self]
  intro f hf
  obtain ⟨-, -, indent, hmem, -⟩ := place_of_mem_checkScalar h hf
  exact decide_eq_true (lt_of_mem_continuationLines hmem)

theorem toldBelow_cannotInfer (t : Token) : toldBelow t [cannotInfer t] = [] := by
  simp [toldBelow, cannotInfer]

/-- A token is told not to fit if it does not get so far as to have opened its frames. -/
theorem mem_cannotInfer_iff (hs : Shaped s.stack) :
    cannotInfer w.token ∈ (check config w s).1 ↔ s.opened config w = none := by
  have hfilter : cannotInfer w.token ∈ (check config w s).1 ↔
      cannotInfer w.token ∈ (check config w s).1.filter isAnomaly := by
    rw [List.mem_filter, isAnomaly_cannotInfer, and_iff_left rfl]
  rw [hfilter, filter_isAnomaly_check hs]
  cases s.opened config w <;> simp

theorem opensNone_of_isScalar (h : t.isScalar = true) : opensNone t.kind = true := by
  unfold Token.isScalar Token.scalarStyle? at h
  cases hkind : t.kind <;> simp_all [opensNone]

/-- Below its first line, a scalar is compared line by line with one indent, if it gets so far. -/
theorem toldBelow_step (hasked : config.checkMultiLine = true) (hscalar : w.token.isScalar = true) :
    ∃ expected : Int, (∀ i ∈ flowIndent? w.token, expected = i) ∧
      toldBelow w.token (s.step config w).1 =
        if s.opened config w = none then []
        else linesCompared w.buffer w.token expected := by
  obtain ⟨indent, hindent⟩ := exists_flowIndent w.token
  cases hstart : s.checkStart w.token with
  | none => exact ⟨indent, hindent, by simp [State.opened, State.step, hstart, toldBelow]⟩
  | some first =>
    obtain ⟨starts, s₁⟩ := first
    have hstarts := toldBelow_checkStart hstart
    cases hlines : s₁.checkScalar config w.buffer w.token with
    | none =>
      exact ⟨indent, hindent, by simpa [State.opened, State.step, hstart, hlines] using hstarts⟩
    | some second =>
      obtain ⟨lines, s₂⟩ := second
      obtain ⟨expected, hflow, rfl⟩ := exists_expected_of_checkScalar hasked hscalar hlines
      -- a scalar opens no frames, so nothing stops it behind its lines
      have hopened : s.opened config w ≠ none := by
        simp [State.opened, hstart, hlines, openFrames_of_opensNone (opensNone_of_isScalar hscalar)]
      have hstep : (s.step config w).1 = starts ++ linesCompared w.buffer w.token expected := by
        simp [State.step, hstart, hlines]
      refine ⟨expected, hflow, ?_⟩
      rw [hstep, toldBelow_append, hstarts, toldBelow_checkScalar hlines, if_neg hopened,
        List.nil_append]

/-- What is told of the lines of a scalar: nothing if it is told not to fit, and else the comparison
of each line with one indent. -/
theorem toldBelow_check (hs : Shaped s.stack) (hasked : config.checkMultiLine = true)
    (hscalar : w.token.isScalar = true) :
    ∃ expected : Int, (∀ i ∈ flowIndent? w.token, expected = i) ∧
      toldBelow w.token (check config w s).1 =
        if cannotInfer w.token ∈ (check config w s).1 then []
        else linesCompared w.buffer w.token expected := by
  have htold : toldBelow w.token (check config w s).1 = toldBelow w.token (s.step config w).1 := by
    unfold check
    simp only
    split
    · rfl
    · rw [toldBelow_append, toldBelow_cannotInfer, List.append_nil]
  rw [htold]
  simp only [mem_cannotInfer_iff hs]
  exact toldBelow_step hasked hscalar

/-- What a run over all tokens tells of the lines of a scalar. -/
theorem toldBelow_run {buffer : List UInt8} {tokens : List Token} {n : Nat}
    (hasked : config.checkMultiLine = true) (ht : tokens[n]? = some t) (hscalar : t.isScalar = true) :
    ∃ fs, ((rule config).run (windows buffer tokens))[n]? = some fs ∧
      ∃ expected : Int, (∀ i ∈ flowIndent? t, expected = i) ∧
        toldBelow t fs = if cannotInfer t ∈ fs then [] else linesCompared buffer t expected := by
  have hn : n < (windows buffer tokens).length := by
    rw [length_windows]
    exact (List.getElem?_eq_some_iff.1 ht).1
  have hshaped : Shaped (stateBehind config buffer tokens n).stack := shaped_stateBehind n
  cases hw : (windows buffer tokens)[n]? with
  | none => exact absurd hn (Nat.not_lt.2 (List.getElem?_eq_none_iff.1 hw))
  | some w =>
    obtain ⟨rfl, htoken, -⟩ := getElem?_windows hw
    obtain rfl : w.token = t := Option.some.inj (htoken.symm.trans ht)
    refine ⟨_, ?_, toldBelow_check hshaped hasked hscalar⟩
    rw [run_getElem?, hw]
    rfl

/-! ## The lines that are told -/

theorem mem_compareIndent_iff {line : Nat} {found expected : Int} {f : Finding} :
    f ∈ compareIndent line found expected ↔
      found ≠ expected ∧ f = wrongIndentation line found expected := by
  unfold compareIndent
  by_cases h : found = expected <;> simp [h]

section Told

variable (hfeed : ∀ i, endsLineAt text i = true → text[i]? = some '\n')
  (ht : t ∈ (scanText text).tokens)
include hfeed ht

/-- A line that is not blank holds a byte of a token if it starts in front of its end. -/
theorem continuesOn_iff (hl : l ∈ Line.all text) (hblank : l.isBlank = false) :
    ContinuesOn t l ↔ t.start.line + 1 < l.number ∧ l.start < t.stop.index := by
  constructor
  · intro hcontinues
    exact ⟨hcontinues.1, hcontinues.start_lt⟩
  · rintro ⟨hbelow, hbefore⟩
    have hstart := start_lt_of_number hfeed ht hl hbelow
    have hsize : l.start < l.stop := by
      obtain ⟨before, behind, hlies⟩ := exists_liesIn hl
      rw [hlies.start, hlies.stop]
      cases htext : l.text with
      | nil => simp [Line.isBlank, htext] at hblank
      | cons ch rest =>
        have := ch.utf8Size_pos
        rw [byteCount]
        omega
    exact ⟨hbelow, l.start, Nat.le_refl _, hsize, Nat.le_of_lt hstart, hbefore⟩

theorem mem_continuationLines_iff {x : Nat × Nat} :
    x ∈ continuationLines (bytes text) t ↔
      ∃ l ∈ Line.all text, ContinuesOn t l ∧ l.isBlank = false ∧ x = (l.number, l.indent) := by
  rw [continuationLines_eq hfeed ht, List.mem_map]
  constructor
  · rintro ⟨l, hl, rfl⟩
    obtain ⟨hl, hlooked⟩ := List.mem_filter.1 hl
    simp only [Bool.and_eq_true, decide_eq_true_eq, Bool.not_eq_true'] at hlooked
    obtain ⟨hbelow, hbefore, hblank⟩ := hlooked
    exact ⟨l, hl, (continuesOn_iff hfeed ht hl hblank).2 ⟨hbelow, hbefore⟩, hblank, rfl⟩
  · rintro ⟨l, hl, hcontinues, hblank, rfl⟩
    obtain ⟨hbelow, hbefore⟩ := (continuesOn_iff hfeed ht hl hblank).1 hcontinues
    refine ⟨l, List.mem_filter.2 ⟨hl, ?_⟩, rfl⟩
    simp [hbelow, hbefore, hblank]

/-- The lines of a token come in order. -/
theorem pairwise_continuationLines :
    (continuationLines (bytes text) t).Pairwise fun x y => x.1 < y.1 := by
  rw [continuationLines_eq hfeed ht, List.pairwise_map]
  exact (pairwise_number_all text).sublist List.filter_sublist

theorem pairwise_linesCompared (expected : Int) :
    (linesCompared (bytes text) t expected).Pairwise fun f g => f.line < g.line := by
  rw [linesCompared, List.pairwise_flatMap]
  constructor
  · intro x _
    unfold compareIndent
    split
    · exact .nil
    · exact List.pairwise_singleton _ _
  · refine (pairwise_continuationLines hfeed ht).imp fun hlt f hf g hg => ?_
    rw [(place_of_mem_compareIndent hf).1, (place_of_mem_compareIndent hg).1]
    exact hlt

theorem mem_linesCompared_iff {expected : Int} {f : Finding} :
    f ∈ linesCompared (bytes text) t expected ↔
      ∃ l ∈ Line.all text, ContinuesOn t l ∧ l.isBlank = false ∧ (l.indent : Int) ≠ expected ∧
        f = wrongIndentation l.number l.indent expected := by
  rw [linesCompared, List.mem_flatMap]
  constructor
  · rintro ⟨x, hx, hf⟩
    obtain ⟨l, hl, hcontinues, hblank, rfl⟩ := (mem_continuationLines_iff hfeed ht).1 hx
    obtain ⟨hne, rfl⟩ := mem_compareIndent_iff.1 hf
    exact ⟨l, hl, hcontinues, hblank, hne, rfl⟩
  · rintro ⟨l, hl, hcontinues, hblank, hne, rfl⟩
    exact ⟨_, (mem_continuationLines_iff hfeed ht).2 ⟨l, hl, hcontinues, hblank, rfl⟩,
      mem_compareIndent_iff.2 ⟨hne, rfl⟩⟩

/-- A line of a token is told if its indent is not the expected one. -/
theorem told_line_iff {expected : Int} (hl : l ∈ Line.all text) (hcontinues : ContinuesOn t l)
    (hblank : l.isBlank = false) :
    (∃ f ∈ linesCompared (bytes text) t expected, f.line = l.number) ↔
      (l.indent : Int) ≠ expected := by
  constructor
  · rintro ⟨f, hf, hline⟩
    obtain ⟨m, hm, -, -, hne, rfl⟩ := (mem_linesCompared_iff hfeed ht).1 hf
    rwa [← eq_of_number_eq hm hl hline]
  · intro hne
    exact ⟨_, (mem_linesCompared_iff hfeed ht).2 ⟨l, hl, hcontinues, hblank, hne, rfl⟩, rfl⟩

end Told

/-- The lines of a scalar, in a source in which only line feeds end lines, if the rule is asked to look
at them. What is told of lines below the one on which the scalar starts comes in the order of the
lines. It is told of physical lines that hold a byte of the scalar and do not lie below its end, at the
number of spaces at their front, which is compared with the same indent on all of them: with the
column of the first character of a scalar that is no block scalar. If the scalar is told not to fit,
nothing is told of its lines. Else a line that holds a byte of it and is not blank is told if and only
if it has not as many spaces at its front as expected. -/
theorem continuation_lines_compared {source : String}
    (hfeed : ∀ i, endsLineAt source.toList i = true → source.toList[i]? = some '\n')
    {config : Config} (hasked : config.checkMultiLine = true) {n : Nat} {t : Token}
    (ht : (scan source).tokens[n]? = some t) (hscalar : t.isScalar = true) :
    ∃ fs, ((rule config).run (windows (bytes source.toList) (scan source).tokens))[n]? = some fs ∧
      ∃ expected : Int, (∀ i ∈ flowIndent? t, expected = i) ∧
        (toldBelow t fs).Pairwise (fun f g => f.line < g.line) ∧
        (∀ f ∈ toldBelow t fs, ∃ l ∈ Line.all source.toList, ContinuesOn t l ∧
          l.number ≤ t.stop.line + 1 ∧ f = wrongIndentation l.number l.indent expected) ∧
        (cannotInfer t ∈ fs → toldBelow t fs = []) ∧
        (cannotInfer t ∉ fs → ∀ l ∈ Line.all source.toList, ContinuesOn t l → l.isBlank = false →
          ((∃ f ∈ toldBelow t fs, f.line = l.number) ↔ (l.indent : Int) ≠ expected)) := by
  have hmem : t ∈ (scanText source.toList).tokens := List.mem_of_getElem? ht
  obtain ⟨fs, hrun, expected, hflow, htold⟩ := toldBelow_run hasked ht hscalar
  refine ⟨fs, hrun, expected, hflow, ?_⟩
  by_cases hfits : cannotInfer t ∈ fs
  · rw [if_pos hfits] at htold
    rw [htold]
    exact ⟨.nil, fun f hf => absurd hf List.not_mem_nil, fun _ => rfl,
      fun hnot => absurd hfits hnot⟩
  · rw [if_neg hfits] at htold
    rw [htold]
    refine ⟨pairwise_linesCompared hfeed hmem expected, fun f hf => ?_,
      fun hnot => absurd hnot hfits, fun _ l hl hcontinues hblank =>
        told_line_iff hfeed hmem hl hcontinues hblank⟩
    obtain ⟨l, hl, hcontinues, -, -, rfl⟩ := (mem_linesCompared_iff hfeed hmem).1 hf
    exact ⟨l, hl, hcontinues, number_le_of_start hfeed hmem hl (Nat.le_of_lt hcontinues.start_lt), rfl⟩

/-- A quoted scalar with a blank line and a closing quote that is alone on its line: the line of the
quote is told, the line in front of it has the expected indent. -/
theorem continuation_lines_compared_closingQuote :
    let source := "a: 'é\n   y\r\n\n    z\n  '\n"
    let config : Config := ⟨.consistent, .always, true⟩
    let t : Token := ⟨.scalar "é y\nz " .singleQuoted, ⟨3, 0, 3⟩, ⟨23, 4, 3⟩⟩
    config.checkMultiLine = true ∧ (scan source).tokens[5]? = some t ∧ t.isScalar = true ∧
      ∃ fs, ((rule config).run (windows (bytes source.toList) (scan source).tokens))[5]? = some fs ∧
        (∃ f ∈ toldBelow t fs, f.line = 5) ∧ ¬∃ f ∈ toldBelow t fs, f.line = 4 := by
  intro source config t
  have hfeed : ∀ i, endsLineAt source.toList i = true → source.toList[i]? = some '\n' :=
    feeds_of_lt (by decide +kernel)
  have ht : (scan source).tokens[5]? = some t := by decide +kernel
  obtain ⟨fs, hrun, expected, hflow, -, -, -, hlines⟩ := continuation_lines_compared hfeed
    (show config.checkMultiLine = true from rfl) ht rfl
  have hfits : ∀ fs ∈ ((rule config).run (windows (bytes source.toList) (scan source).tokens))[5]?,
      cannotInfer t ∉ fs := by
    decide +kernel
  obtain rfl : expected = 4 := hflow 4 rfl
  refine ⟨rfl, ht, rfl, fs, hrun, ?_, ?_⟩
  · refine (hlines (hfits fs hrun) ⟨5, 20, 23, "  '".toList⟩ (by decide +kernel) ?_ rfl).2 (by decide)
    exact ⟨by decide, 20, by decide⟩
  · refine mt (hlines (hfits fs hrun) ⟨4, 14, 19, "    z".toList⟩ (by decide +kernel) ?_ rfl).1
      (by decide)
    exact ⟨by decide, 14, by decide⟩

end Indentation

end YamlLinter
