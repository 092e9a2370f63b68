import YamlLinter.Proofs.Canonical.Tree
import YamlLinter.Proofs.Positions

/-!
# Words, marks and gaps

What the scanner does at the words, colons, dashes and gaps of a canonical document.

## Contents

* `beq_eq_false_of_isAlphanum`: letters and digits are in none of the classes that end a word;
* `mark_forward`, `mark_advance_newline`: the marks behind a word and behind a line feed;
* `Starts`, `Follows`: what can stand behind a gap, and behind a word and a line feed;
* `gap_*`, `plain_*`: the gap in front of a token, and plain scalars.
-/

namespace YamlLinter.Canonical

open Text

variable {c d : Cursor} {ch : Char} {w : List Char} {r : List Char} {n : Nat}

/-! ## Letters and digits -/

theorem beq_eq_false_of_isAlphanum (h : ch.isAlphanum = true) {x : Char}
    (hx : x.isAlphanum = false) : (ch == x) = false := by
  rw [beq_eq_false_iff_ne]
  rintro rfl
  rw [h] at hx
  cases hx

/-- The codes of letters and digits. -/
theorem code_of_isAlphanum (h : ch.isAlphanum = true) :
    48 ≤ ch.val.toNat ∧ ch.val.toNat ≤ 122 := by
  change ((decide ((65 : UInt32) ≤ ch.val ∧ ch.val ≤ 90) ||
    (decide ((97 : UInt32) ≤ ch.val) && decide (ch.val ≤ 122))) ||
      (decide ((48 : UInt32) ≤ ch.val) && decide (ch.val ≤ 57))) = true at h
  simp only [Bool.or_eq_true, Bool.and_eq_true, decide_eq_true_eq, UInt32.le_iff_toNat_le,
    UInt32.reduceToNat] at h
  omega

/-- A character that takes one byte and one column. -/
def Narrow (ch : Char) : Prop := ch.utf8Size = 1 ∧ isBreak ch = false ∧ ch ≠ '\ufeff'

/-- Letters and digits are one byte each. -/
theorem narrow_of_isAlphanum (h : ch.isAlphanum = true) : Narrow ch := by
  refine ⟨?_, ?_, ?_⟩
  · rw [Char.utf8Size_eq_one_iff, UInt32.le_iff_toNat_le]
    show ch.val.toNat ≤ 127
    have hcode := code_of_isAlphanum h
    omega
  · simp (disch := decide) only [isBreak, beq_eq_false_of_isAlphanum h, Bool.or_false]
  · exact beq_eq_false_iff_ne.1 (beq_eq_false_of_isAlphanum h (by decide))

/-- So are spaces. -/
theorem narrow_of_mem_spaces (h : ch ∈ spaces n) : Narrow ch := by
  obtain rfl := List.eq_of_mem_replicate h
  exact ⟨by decide, by decide, by decide⟩

theorem isBlankOrEnd_of_isAlphanum (h : ch.isAlphanum = true) : isBlankOrEnd ch = false := by
  simp (disch := decide) only [isBlankOrEnd, isBlank, isLineEnd, isBreak, nul,
    beq_eq_false_of_isAlphanum h, Bool.or_false]

theorem isIndicator_of_isAlphanum (h : ch.isAlphanum = true) : isIndicator ch = false := by
  rw [isIndicator, Bool.eq_false_iff]
  intro hmem
  have hnone : "-?:,[]\x7b\x7d#&*!|>'\"%@\x60".toList.all (!·.isAlphanum) = true := by decide
  have hch := List.all_eq_true.1 hnone ch (List.contains_iff_mem.1 hmem)
  rw [h] at hch
  cases hch

/-! ## Marks -/

/-- Characters that take one byte and one column. -/
theorem forward_narrow (hd : d.rest = w ++ r) (hw : ∀ ch ∈ w, Narrow ch) :
    (d.forward w.length).rest = r ∧ (d.forward w.length).mark = d.mark.right w.length ∧
      (d.forward w.length).pos = d.pos + w.length := by
  induction w generalizing d with
  | nil => exact ⟨hd, rfl, rfl⟩
  | cons ch w ih =>
    obtain ⟨hsize, hbreak, hbom⟩ := hw ch List.mem_cons_self
    have hadvance : d.advance.rest = w ++ r ∧ d.advance.mark = d.mark.right 1 ∧
        d.advance.pos = d.pos + 1 := by
      unfold Cursor.advance
      rw [hd, List.cons_append]
      refine ⟨rfl, ?_, rfl⟩
      have hline : ∀ next, Mark.endsLine ch next = false := by
        intro next
        simp only [isBreak, Bool.or_eq_false_iff] at hbreak
        obtain ⟨⟨⟨⟨hcr, hlf⟩, hnel⟩, hls⟩, hps⟩ := hbreak
        simp [Mark.endsLine, hcr, hlf, hnel, hls, hps]
      simp [Mark.after, Mark.right, hline, hsize, hbom]
    obtain ⟨hrest, hmark, hpos⟩ := ih hadvance.1 fun x hx => hw x (List.mem_cons_of_mem ch hx)
    rw [List.length_cons, Cursor.forward]
    refine ⟨hrest, ?_, ?_⟩
    · rw [hmark, hadvance.2.1]
      simp [Mark.right]
      omega
    · rw [hpos, hadvance.2.2]
      omega

/-- A line feed. -/
theorem forward_newline (hd : d.rest = '\n' :: r) :
    (d.forward 1).rest = r ∧ (d.forward 1).mark = d.mark.down ∧ (d.forward 1).pos = d.pos + 1 := by
  unfold Cursor.forward Cursor.forward Cursor.advance
  rw [hd]
  exact ⟨rfl, rfl, rfl⟩

/-! ## Gaps -/

/-- A cursor at which no gap starts. -/
structure Still (d : Cursor) : Prop where
  space : d.peek ≠ ' '
  tab : d.peek ≠ '\t'
  hash : d.peek ≠ '#'
  bom : d.peek ≠ '\ufeff'
  noBreak : isBreak d.peek = false

/-- A text that starts a token of a canonical document, or has ended. -/
def Starts (r : List Char) : Prop :=
  r = [] ∨ ∃ ch r', r = ch :: r' ∧ (ch.isAlphanum = true ∨ ch = '-' ∧ r'.head? = some ' ')

theorem peek_eq (hd : d.rest = ch :: r) : d.peek = ch := by
  simp [Cursor.peek, Cursor.peekAt, hd]

theorem peek_nil (hd : d.rest = []) : d.peek = nul := by
  simp [Cursor.peek, Cursor.peekAt, hd]

/-- There is no gap in front of a word. -/
theorem still_of_isAlphanum (hd : d.rest = ch :: r) (h : ch.isAlphanum = true) : Still d := by
  have hne : ∀ x : Char, x.isAlphanum = false → d.peek ≠ x := by
    intro x hx
    rw [peek_eq hd]
    exact beq_eq_false_iff_ne.1 (beq_eq_false_of_isAlphanum h hx)
  refine ⟨hne _ (by decide), hne _ (by decide), hne _ (by decide), hne _ (by decide), ?_⟩
  rw [peek_eq hd]
  exact (narrow_of_isAlphanum h).2.1

/-- There is no gap in front of the text of a tree. -/
theorem still_of_starts (hd : d.rest = r) (hr : Starts r) : Still d := by
  rcases hr with rfl | ⟨ch, r', rfl, hch | ⟨rfl, -⟩⟩
  · constructor <;> rw [peek_nil hd] <;> decide
  · exact still_of_isAlphanum hd hch
  · constructor <;> rw [peek_eq hd] <;> decide

/-- There is no gap in front of a colon. -/
theorem still_of_colon (hd : d.rest = ':' :: r) : Still d := by
  constructor <;> rw [peek_eq hd] <;> decide

theorem lineBreak?_of_still (h : Still d) : d.lineBreak? = none := by
  have hb := h.noBreak
  simp only [isBreak, Bool.or_eq_false_iff] at hb
  obtain ⟨⟨⟨⟨hcr, hlf⟩, hnel⟩, hls⟩, hps⟩ := hb
  simp [Cursor.lineBreak?, hcr, hlf, hnel, hls, hps]

/-- Where there is no gap, no blanks are taken. -/
theorem takeWhile_of_still {p : Char → Bool} (h : Still d)
    (hp : ∀ x, p x = true → x = ' ' ∨ x = '\t') : d.rest.takeWhile p = [] := by
  cases hd : d.rest with
  | nil => rfl
  | cons ch r =>
    rw [List.takeWhile_cons_of_neg]
    intro hpx
    rcases hp ch hpx with rfl | rfl
    · exact h.space (peek_eq hd)
    · exact h.tab (peek_eq hd)

/-- Spaces in front of a token. -/
theorem takeWhile_spaces {p : Char → Bool} (hd : d.rest = spaces n ++ r)
    (hn : Still (d.forward n)) (hs : p ' ' = true) (hp : ∀ x, p x = true → x = ' ' ∨ x = '\t') :
    d.rest.takeWhile p = spaces n := by
  have hr : (d.forward n).rest = r := by
    rw [Cursor.rest_forward, hd]
    exact List.drop_left' (List.length_replicate ..)
  have hnone : r.takeWhile p = [] := hr ▸ takeWhile_of_still hn hp
  have hall : ∀ x ∈ spaces n, p x = true := by
    intro x hx
    rw [List.eq_of_mem_replicate hx]
    exact hs
  rw [hd, List.takeWhile_append_of_pos hall, hnone, List.append_nil]

/-- The gap on the line of a token. -/
theorem gap_spaces (allowKey : Bool) (hd : d.rest = spaces n ++ r) (hn : Still (d.forward n)) :
    d.gap false allowKey = ⟨[], allowKey, d.forward n⟩ := by
  have hskip : d.skipWhile (Cursor.isSkipped false allowKey) = d.forward n := by
    rw [Cursor.skipWhile, takeWhile_spaces hd hn (by simp [Cursor.isSkipped]), spaces,
      List.length_replicate]
    intro x hx
    simp only [Cursor.isSkipped, Bool.or_eq_true, Bool.and_eq_true, beq_iff_eq] at hx
    exact hx.imp_right And.left
  have hline : d.lineGap false allowKey = ([], d.forward n) := by
    simp only [Cursor.lineGap, hskip]
    rw [if_neg (by simpa using hn.hash)]
  unfold Cursor.gap
  split
  · rw [hline]
  · rename_i h
    rw [hline, lineBreak?_of_still hn] at h
    cases h

/-- The gap between two lines. Behind a line break a key may start. -/
theorem gap_newline (allowKey : Bool) (hd : d.rest = '\n' :: (spaces n ++ r))
    (hn : Still ((d.forward 1).forward n)) :
    d.gap false allowKey = ⟨[], true, (d.forward 1).forward n⟩ := by
  have hskip : d.skipWhile (Cursor.isSkipped false allowKey) = d := by
    rw [Cursor.skipWhile, hd]
    rfl
  have hline : d.lineGap false allowKey = ([], d) := by
    simp only [Cursor.lineGap, hskip]
    rw [if_neg (by rw [peek_eq hd]; decide)]
  have hbreak : d.lineBreak? = some ('\n', d.forward 1) := by
    simp [Cursor.lineBreak?, peek_eq hd]
  have hmore := gap_spaces (allowKey || !false) (forward_newline hd).1 hn
  unfold Cursor.gap
  split
  · rename_i h
    rw [hline, hbreak] at h
    cases h
  · rename_i h
    rw [hline, hbreak] at h
    cases h
    rw [hmore, hline]
    simp

/-- Where there is no gap, the cursor stays. -/
theorem gap_still (allowKey : Bool) (h : Still d) : d.gap false allowKey = ⟨[], allowKey, d⟩ :=
  gap_spaces (n := 0) allowKey rfl h

/-! ## Words -/

/-- What stands behind a word and a line feed, at column `n`: nothing, or a token that is not
indented beyond `indent`. -/
def Follows (indent : Int) (n : Nat) (r : List Char) : Prop :=
  Starts r ∧ (r = [] ∧ n = 0 ∨ (n : Int) ≤ indent)

/-- A word is a chunk of its own. -/
theorem plainChunk_word (hw : ∀ x ∈ w, x.isAlphanum = true)
    (hch : endsPlainChunk false ch (r.headD nul) = true) :
    plainChunk false (w ++ ch :: r) = w := by
  induction w with
  | nil => simp only [List.nil_append, plainChunk, hch, if_true]
  | cons x w ih =>
    have hx := hw x List.mem_cons_self
    have hgo : ∀ next, endsPlainChunk false x next = false := by
      intro next
      have hcolon := beq_eq_false_of_isAlphanum (x := ':') hx (by decide)
      simp [endsPlainChunk, isBlankOrEnd_of_isAlphanum hx, hcolon]
    rw [List.cons_append, plainChunk, hgo, ih fun y hy => hw y (List.mem_cons_of_mem x hy)]
    simp

/-- A word in front of a colon. -/
theorem plain_colon (indent : Int) (hd : d.rest = w ++ ':' :: r) (hne : w ≠ [])
    (hw : ∀ x ∈ w, x.isAlphanum = true) (hr : isBlankOrEnd (r.headD nul) = true) :
    d.plain false indent = ⟨w, (d.forward w.length).mark, false, d.forward w.length⟩ := by
  have hchunk : plainChunk false d.rest = w := by
    rw [hd]
    exact plainChunk_word hw (by rw [endsPlainChunk, hr]; rfl)
  have hcolon : (d.forward w.length).rest = ':' :: r := by
    rw [Cursor.rest_forward, hd, List.drop_left]
  have hgap : (d.forward w.length).plainGap = ⟨some [], false, d.forward w.length⟩ := by
    have hstill := still_of_colon hcolon
    have hblank : (d.forward w.length).rest.takeWhile isBlank = [] := by
      rw [hcolon]
      rfl
    have hzero : (d.forward w.length).forward 0 = d.forward w.length := rfl
    simp only [Cursor.plainGap, hblank, List.length_nil, hzero, lineBreak?_of_still hstill]
  unfold Cursor.plain
  simp only [hchunk, hne, dite_false, hgap]

/-- No document starts or ends in front of a token of a canonical document. -/
theorem atSeparator_of_starts (hd : d.rest = spaces n ++ r) (hr : Starts r) :
    d.atSeparator = false := by
  have hmarker : ∀ ch, (ch = '-' ∨ ch = '.') → d.rest.take 3 ≠ [ch, ch, ch] := by
    intro ch hch htake
    rw [hd] at htake
    cases n with
    | succ n =>
      rw [spaces, List.replicate_succ, List.cons_append, List.take_succ_cons] at htake
      rcases hch with rfl | rfl <;> cases htake
    | zero =>
      rw [spaces, List.replicate_zero, List.nil_append] at htake
      rcases hr with rfl | ⟨x, r', rfl, hx | ⟨rfl, hspace⟩⟩
      · cases htake
      · obtain rfl : x = ch := by simpa using (List.cons.inj htake).1
        rcases hch with rfl | rfl <;> cases hx
      · obtain ⟨y, r'', rfl⟩ : ∃ y r'', r' = y :: r'' := by
          cases r' with
          | nil => cases hspace
          | cons y r'' => exact ⟨y, r'', rfl⟩
        obtain rfl : y = ' ' := by simpa using hspace
        rcases hch with rfl | rfl <;> simp at htake
  simp [Cursor.atSeparator, Cursor.atMarker, hmarker]

/-- A word at the end of a line. The gap behind it belongs to it, up to the next token. -/
theorem plain_newline {indent : Int} (hd : d.rest = w ++ '\n' :: (spaces n ++ r)) (hne : w ≠ [])
    (hw : ∀ x ∈ w, x.isAlphanum = true) (hr : Follows indent n r) :
    d.plain false indent = ⟨w, (d.forward w.length).mark, true,
      ((d.forward w.length).forward 1).forward n⟩ := by
  have hchunk : plainChunk false d.rest = w := by
    rw [hd]
    exact plainChunk_word hw (by rw [endsPlainChunk]; rfl)
  -- the cursors behind the word and behind the line feed are named, so that each is described once
  generalize hc : d.forward w.length = c
  have hbreak : c.rest = '\n' :: (spaces n ++ r) := by
    rw [← hc, Cursor.rest_forward, hd, List.drop_left]
  obtain ⟨hrest, hmark, -⟩ := forward_newline hbreak
  generalize hc₁ : c.forward 1 = c₁ at hrest hmark
  have hrest₂ : (c₁.forward n).rest = r := by
    rw [Cursor.rest_forward, hrest]
    exact List.drop_left' (List.length_replicate ..)
  have hmark₂ : (c₁.forward n).mark.column = n := by
    have h := (forward_narrow hrest fun x hx => narrow_of_mem_spaces hx).2.1
    rw [spaces, List.length_replicate] at h
    rw [h, hmark]
    simp [Mark.right, Mark.down]
  have hstill := still_of_starts hrest₂ hr.1
  have hbreaks : c₁.plainBreaks = (some [], c₁.forward n) := by
    have hskip : c₁.skipWhile (· == ' ') = c₁.forward n := by
      rw [Cursor.skipWhile, takeWhile_spaces hrest hstill (by simp) (by simp), spaces,
        List.length_replicate]
    unfold Cursor.plainBreaks
    split
    · rw [hskip]
    · rename_i h
      rw [hskip, lineBreak?_of_still hstill] at h
      cases h
  have hgap : c.plainGap = ⟨some [' '], true, c₁.forward n⟩ := by
    have hblank : c.rest.takeWhile isBlank = [] := by
      rw [hbreak]
      rfl
    have hzero : c.forward 0 = c := rfl
    have hfeed : c.lineBreak? = some ('\n', c₁) := by
      simp [Cursor.lineBreak?, peek_eq hbreak, hc₁]
    simp only [Cursor.plainGap, hblank, List.length_nil, hzero, hfeed,
      atSeparator_of_starts hrest hr.1, hbreaks]
    rfl
  unfold Cursor.plain
  simp only [hchunk, hne, dite_false, hc, hgap]
  split
  · -- only at the end of the text does the scalar go on, with nothing
    rename_i hgo
    have hnil : r = [] := by
      rcases hr.2 with ⟨hnil, -⟩ | hle
      · exact hnil
      · simp only [Cursor.continuesPlain, Cursor.column, hmark₂, Bool.false_or,
          Bool.and_eq_true, decide_eq_true_eq] at hgo
        omega
    have hmore : (c₁.forward n).plain false indent =
        ⟨[], (c₁.forward n).mark, false, c₁.forward n⟩ := by
      unfold Cursor.plain
      simp [hrest₂, hnil, plainChunk]
    simp [hmore]
  · rfl

end YamlLinter.Canonical
