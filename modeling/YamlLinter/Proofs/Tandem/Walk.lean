import YamlLinter.Proofs.Positions

/-!
# Two cursors in tandem

Two texts can say the same to a scanner and still differ in their characters: one may write CR LF
for each line feed of the other, and what stands in front of them may differ. Two cursors that walk
over such texts in step see the same characters, breaks and columns, and count the same lines on the
way.

## Contents

* `respell`: a text with its line feeds written as CR LF;
* `Tandem`: two cursors that set out together;
* `Tandem.Passes`: the pairs of cursors that they pass through;
* `Passes.column`, `Passes.line`, `Passes.stale`: where the two are, and which keys have ended;
* `Passes.test`, `Passes.forward`, `Passes.skipWhile`, `Passes.lineBreak?`: looking ahead and moving.
-/

namespace YamlLinter

open Text

variable {returns : Bool} {ch : Char} {s u : List Char}

/-- A text with each line feed written as CR LF, or the text itself. -/
def respell (returns : Bool) (text : List Char) : List Char :=
  text.flatMap fun ch => if returns && ch == '\n' then ['\r', '\n'] else [ch]

@[simp] theorem respell_nil : respell returns [] = [] := rfl

@[simp] theorem respell_false (s : List Char) : respell false s = s := by
  simp [respell]

/-- Line ends are spelled anew part by part. -/
theorem respell_append (s t : List Char) :
    respell returns (s ++ t) = respell returns s ++ respell returns t := by
  simp [respell]

theorem respell_cons (ch : Char) (s : List Char) :
    respell returns (ch :: s) = respell returns [ch] ++ respell returns s :=
  respell_append [ch] s

@[simp] theorem respell_feed : respell true ['\n'] = ['\r', '\n'] := rfl

/-- What is no line feed stays. -/
theorem respell_of_ne (h : ch ≠ '\n') : respell returns [ch] = [ch] := by
  simp [respell, h]

/-- No character is lost. -/
theorem length_respell_pos (returns : Bool) (ch : Char) : 0 < (respell returns [ch]).length := by
  by_cases h : ch = '\n'
  · subst h
    cases returns <;> decide
  · rw [respell_of_ne h]
    exact Nat.one_pos

theorem respell_of_not_mem (h : '\n' ∉ s) : respell returns s = s := by
  induction s with
  | nil => rfl
  | cons ch s ih =>
    simp only [List.mem_cons, not_or] at h
    rw [respell_cons, respell_of_ne (Ne.symm h.1), ih h.2]
    rfl

/-- Characters of a class without line ends are the same in both spellings. -/
theorem takeWhile_respell {p : Char → Bool} (hn : p '\n' = false) (hr : p '\r' = false) :
    (respell returns s).takeWhile p = s.takeWhile p := by
  induction s with
  | nil => rfl
  | cons ch s ih =>
    rw [respell_cons]
    by_cases hch : ch = '\n'
    · subst hch
      cases returns <;> simp [hn, hr]
    · rw [respell_of_ne hch, List.singleton_append, List.takeWhile_cons, List.takeWhile_cons, ih]

/-- A text without breaks stands in front of both spellings or of none. -/
theorem prefix_respell (hn : '\n' ∉ u) (hr : '\r' ∉ u) : u <+: respell returns s ↔ u <+: s := by
  induction u generalizing s with
  | nil => simp
  | cons x u ih =>
    simp only [List.mem_cons, not_or] at hn hr
    cases s with
    | nil => simp
    | cons ch s =>
      rw [respell_cons]
      by_cases hch : ch = '\n'
      · subst hch
        cases returns <;> simp [List.cons_prefix_cons, Ne.symm hn.1, Ne.symm hr.1]
      · rw [respell_of_ne hch, List.singleton_append, List.cons_prefix_cons,
          List.cons_prefix_cons, ih hn.2 hr.2]

/-- Two cursors that set out together. The right one has the text of the left one in front of it,
perhaps with other line ends, and stands at the same column. -/
structure Tandem where
  left : Cursor
  right : Cursor
  /-- Whether the right text ends its lines in CR LF. -/
  returns : Bool
  text : right.rest = respell returns left.rest
  clean : returns = true → '\r' ∉ left.rest
  column : right.column = left.column
  /-- A byte order mark is the first character of both texts or of none. -/
  mark : left.peek = '\ufeff' → (right.pos = 0 ↔ left.pos = 0)
  /-- The number of tokens that the right scan has in advance. -/
  given : Nat := 0
  /-- The comments that the right scan has in advance. -/
  noted : List Comment := []

namespace Tandem

/-- The right cursor when the left one has read `n` characters. -/
def rightAt (w : Tandem) (n : Nat) : Cursor :=
  w.right.forward (respell w.returns (w.left.rest.take n)).length

/-- The two cursors pass through `c` and `d` at the same time. -/
def Passes (w : Tandem) (c d : Cursor) : Prop :=
  ∃ n ≤ w.left.rest.length, c = w.left.forward n ∧ d = w.rightAt n

variable {w : Tandem} {c d k l : Cursor} {cs : List Char} {p : Char → Bool}

/-- Both cursors start in step. -/
theorem start (w : Tandem) : w.Passes w.left w.right :=
  ⟨0, Nat.zero_le _, rfl, by simp [rightAt, Cursor.forward]⟩

namespace Passes

/-- What the left cursor has in front of it, the right one has in its own spelling. -/
theorem rest (h : w.Passes c d) : d.rest = respell w.returns c.rest := by
  obtain ⟨n, -, rfl, rfl⟩ := h
  rw [rightAt, Cursor.rest_forward, Cursor.rest_forward, w.text]
  conv => lhs; rw [← List.take_append_drop n w.left.rest, respell_append]
  simp

/-- The left side has no carriage returns of its own, if the right one gets some. -/
theorem clean (h : w.Passes c d) (hr : w.returns = true) : '\r' ∉ c.rest := by
  obtain ⟨n, -, rfl, -⟩ := h
  rw [Cursor.rest_forward]
  exact fun hmem => w.clean hr (List.mem_of_mem_drop hmem)

/-- Where lines end alike, the same text is left. -/
theorem rest_eq (h : w.Passes c d) (hr : w.returns = false) : d.rest = c.rest := by
  rw [h.rest, hr, respell_false]

/-- Reading a text on the left reads its spelling on the right. -/
theorem read (h : w.Passes c d) (hu : u <+: c.rest) :
    w.Passes (c.forward u.length) (d.forward (respell w.returns u).length) := by
  obtain ⟨n, hn, rfl, rfl⟩ := h
  obtain ⟨v, hv⟩ := hu
  rw [Cursor.rest_forward] at hv
  have hlen := congrArg List.length hv
  simp only [List.length_append, List.length_drop] at hlen
  have htake : w.left.rest.take (n + u.length) = w.left.rest.take n ++ u := by
    rw [List.take_add, ← hv, List.take_left]
  refine ⟨n + u.length, by omega, Cursor.forward_forward _ _ _, ?_⟩
  rw [rightAt, rightAt, Cursor.forward_forward, htake, respell_append, List.length_append]

theorem stride (h : w.Passes c d) (hc : c.rest = ch :: cs) :
    w.Passes c.advance (d.forward (respell w.returns [ch]).length) :=
  h.read (u := [ch]) ⟨cs, hc.symm⟩

/-- What holds where the two set out and is kept by every character holds on the whole way. -/
theorem induct {P : Cursor → Cursor → Prop} (start : P w.left w.right)
    (stride : ∀ {c d ch cs}, w.Passes c d → P c d → c.rest = ch :: cs →
      P c.advance (d.forward (respell w.returns [ch]).length))
    (h : w.Passes c d) : P c d := by
  obtain ⟨n, hn, rfl, rfl⟩ := h
  induction n with
  | zero => simpa [rightAt, Cursor.forward] using start
  | succ n ih =>
    have hpass : w.Passes (w.left.forward n) (w.rightAt n) := ⟨n, by omega, rfl, rfl⟩
    obtain ⟨ch, hch⟩ : ∃ ch, w.left.rest[n]? = some ch := ⟨_, List.getElem?_eq_getElem (by omega)⟩
    have hrest : (w.left.forward n).rest = ch :: w.left.rest.drop (n + 1) := by
      rw [Cursor.rest_forward]
      exact (List.drop_eq_getElem?_toList_append).trans (by rw [hch]; rfl)
    have hright : w.rightAt (n + 1) =
        (w.rightAt n).forward (respell w.returns [ch]).length := by
      rw [rightAt, rightAt, Cursor.forward_forward, List.take_add_one, hch, respell_append,
        List.length_append]
      rfl
    rw [Cursor.forward_succ, hright]
    exact stride hpass (ih (by omega)) hrest

/-! ## Where the two are -/

/-- A character moves both cursors to the next line or none, and to the same column. -/
theorem stride_mark (h : w.Passes c d) (hc : c.rest = ch :: cs) (hcol : d.column = c.column) :
    (d.forward (respell w.returns [ch]).length).line + c.line = c.advance.line + d.line ∧
      (d.forward (respell w.returns [ch]).length).column = c.advance.column := by
  have hd : d.rest = respell w.returns [ch] ++ respell w.returns cs := by
    rw [h.rest, hc, respell_cons]
  simp only [Cursor.line, Cursor.column] at hcol ⊢
  cases hr : w.returns with
  | false =>
    rw [hr] at hd
    simp only [respell_false, List.singleton_append] at hd
    simp only [respell_false, List.length_singleton, Cursor.forward, Cursor.advance, hc, hd,
      Mark.after, hcol]
    split <;> simp <;> omega
  | true =>
    rw [hr] at hd
    have hclean := h.clean hr
    rw [hc] at hclean
    by_cases hch : ch = '\n'
    · subst hch
      simp only [respell_feed, List.cons_append, List.nil_append] at hd
      simp [Cursor.forward, Cursor.advance, hc, hd, Mark.after, Mark.endsLine]
      omega
    · -- no other character asks for the one behind it
      have hne : ch ≠ '\r' := by rintro rfl; simp at hclean
      rw [respell_of_ne hch] at hd ⊢
      have hnext : ∀ next next', Mark.endsLine ch next = Mark.endsLine ch next' := by
        intro next next'
        simp [Mark.endsLine, beq_eq_false_iff_ne.2 hne]
      simp only [List.singleton_append] at hd
      simp only [List.length_singleton, Cursor.forward, Cursor.advance, hc, hd, Mark.after, hcol]
      rw [hnext _ (cs.headD nul)]
      split <;> simp <;> omega

/-- Cursors in step are in one column. -/
theorem column (h : w.Passes c d) : d.column = c.column := by
  refine h.induct (P := fun c d => d.column = c.column) w.column ?_
  intro c d ch cs hcd hcol hc
  exact (hcd.stride_mark hc hcol).2

/-- The two count the same lines. -/
theorem line (h : w.Passes c d) : d.line + w.left.line = c.line + w.right.line := by
  refine h.induct (P := fun c d => d.line + w.left.line = c.line + w.right.line) ?_ ?_
  · omega
  · intro c d ch cs hcd hline hc
    have := (hcd.stride_mark hc hcd.column).1
    omega

end Passes

/-- Between two pairs of cursors the left one reads `u` and the right one its spelling. -/
structure Covers (w : Tandem) (k l : Cursor) (u : List Char) (c d : Cursor) : Prop where
  front : u <+: k.rest
  left : c = k.forward u.length
  right : d = l.forward (respell w.returns u).length

namespace Passes

theorem covers {m n : Nat} (hmn : m ≤ n) (hn : n ≤ w.left.rest.length) :
    w.Covers (w.left.forward m) (w.rightAt m) ((w.left.rest.drop m).take (n - m))
      (w.left.forward n) (w.rightAt n) where
  front := by
    rw [Cursor.rest_forward]
    exact List.take_prefix _ _
  left := by
    rw [Cursor.forward_forward, List.length_take, List.length_drop]
    congr 1
    omega
  right := by
    rw [rightAt, rightAt, Cursor.forward_forward, ← List.length_append, ← respell_append,
      ← List.take_add, Nat.add_sub_cancel' hmn]

/-- Of two pairs of cursors, one is reached from the other. -/
theorem total (hk : w.Passes k l) (h : w.Passes c d) :
    (∃ u, w.Covers k l u c d) ∨ ∃ u, w.Covers c d u k l := by
  obtain ⟨m, hm, rfl, rfl⟩ := hk
  obtain ⟨n, hn, rfl, rfl⟩ := h
  rcases Nat.le_total m n with hmn | hmn
  · exact .inl ⟨_, covers hmn hn⟩
  · exact .inr ⟨_, covers hmn hm⟩

end Passes

namespace Covers

/-- A stretch that is covered leads forwards on both sides. -/
theorem ahead (h : w.Covers k l u c d) : k.Ahead c ∧ l.Ahead d :=
  ⟨⟨_, h.left⟩, ⟨_, h.right⟩⟩

theorem rest (h : w.Covers k l u c d) : k.rest = u ++ c.rest := by
  obtain ⟨v, hv⟩ := h.front
  rw [h.left, Cursor.rest_forward, ← hv, List.drop_left]

/-- On one line there is no line feed. -/
theorem not_mem_of_line (h : w.Covers k l u c d) (hl : c.line = k.line) : '\n' ∉ u := by
  intro hmem
  obtain ⟨a, b, rfl⟩ := List.append_of_mem hmem
  have hrest : (k.forward a.length).rest = '\n' :: (b ++ c.rest) := by
    rw [Cursor.rest_forward, h.rest]
    simp
  have hstep : (k.forward a.length).advance.line = (k.forward a.length).line + 1 := by
    simp [Cursor.advance, hrest, Cursor.line, Mark.after, Mark.endsLine]
  have hbefore : k.line ≤ (k.forward a.length).line := (Cursor.Ahead.forward k _).line_le
  have hbehind : (k.forward a.length).advance.line ≤ c.line := by
    refine (Cursor.Ahead.line_le ⟨b.length, ?_⟩)
    rw [h.left, ← Cursor.forward_succ, Cursor.forward_forward, List.length_append,
      List.length_cons]
    congr 1
    omega
  omega

end Covers

namespace Passes

/-- A key that has ended on the left has ended on the right: on one line the two cursors read the
same number of characters. -/
theorem stale (h : w.Passes c d) (hk : w.Passes k l) :
    (l.line != d.line || longestSimpleKey < d.pos - l.pos) =
      (k.line != c.line || longestSimpleKey < c.pos - k.pos) := by
  have hline : l.line = d.line ↔ k.line = c.line := by
    have := h.line
    have := hk.line
    omega
  by_cases hl : k.line = c.line
  · have hdist : d.pos - l.pos = c.pos - k.pos := by
      rcases hk.total h with ⟨u, hu⟩ | ⟨u, hu⟩
      · have hright : d = l.forward u.length := by
          rw [hu.right, respell_of_not_mem (hu.not_mem_of_line hl.symm)]
        have hlen : u.length ≤ l.rest.length := by
          rw [hk.rest, hu.rest, respell_append, respell_of_not_mem (hu.not_mem_of_line hl.symm)]
          simp
        rw [hright, hu.left, Cursor.pos_forward l hlen, Cursor.pos_forward k hu.front.length_le]
        omega
      · have := hu.ahead.1.pos_le
        have := hu.ahead.2.pos_le
        omega
    simp [hdist, hl, hline.2 hl]
  · simp [bne_iff_ne.2 hl, bne_iff_ne.2 (mt hline.1 hl)]

/-! ## Looking ahead -/

theorem peek_forward (c : Cursor) (n : Nat) : (c.forward n).peek = c.peekAt n := by
  simp [Cursor.peek, Cursor.peekAt, Cursor.rest_forward, List.getD_eq_getElem?_getD]

/-- Both texts end at the same time. -/
theorem atEnd (h : w.Passes c d) : d.atEnd = c.atEnd := by
  rw [Cursor.atEnd, Cursor.atEnd, h.rest]
  cases c.rest with
  | nil => rfl
  | cons ch cs =>
    rw [respell_cons]
    by_cases hch : ch = '\n'
    · subst hch
      cases w.returns <;> rfl
    · rw [respell_of_ne hch]
      rfl

/-- The next characters are the same, but for a line feed on the left. -/
theorem peek (h : w.Passes c d) : d.peek = c.peek ∨ c.peek = '\n' ∧ d.peek = '\r' := by
  simp only [Cursor.peek, Cursor.peekAt, h.rest]
  cases c.rest with
  | nil => exact .inl rfl
  | cons ch cs =>
    rw [respell_cons]
    by_cases hch : ch = '\n'
    · subst hch
      cases w.returns <;> simp
    · rw [respell_of_ne hch]
      exact .inl rfl

/-- The next characters are the same, but for a line end. -/
theorem peek_eq (h : w.Passes c d) (hc : c.peek ≠ '\n') : d.peek = c.peek := by
  rcases h.peek with heq | ⟨hn, -⟩
  · exact heq
  · contradiction

/-- A test that does not tell a line feed from a carriage return has the same answer. -/
theorem test {α : Type} (h : w.Passes c d) (f : Char → α) (hf : f '\n' = f '\r') :
    f d.peek = f c.peek := by
  rcases h.peek with heq | ⟨hn, hr⟩
  · rw [heq]
  · rw [hn, hr, hf]

/-! ## Moving -/

/-- Both read a text without line feeds. -/
theorem forward (h : w.Passes c d) (hu : u <+: c.rest) (hn : '\n' ∉ u) :
    w.Passes (c.forward u.length) (d.forward u.length) := by
  have hread := h.read hu
  rwa [respell_of_not_mem hn] at hread

theorem forward_one (h : w.Passes c d) (hc : c.peek ≠ '\n') :
    w.Passes (c.forward 1) (d.forward 1) := by
  cases hr : c.rest with
  | nil =>
    have hd : d.rest = [] := by rw [h.rest, hr]; rfl
    simpa [Cursor.forward, Cursor.advance, hr, hd] using h
  | cons ch cs =>
    refine h.forward (u := [ch]) ⟨cs, hr.symm⟩ ?_
    simpa [Cursor.peek, Cursor.peekAt, hr, eq_comm] using hc

theorem takeWhile (h : w.Passes c d) (hn : p '\n' = false) (hr : p '\r' = false) :
    d.rest.takeWhile p = c.rest.takeWhile p := by
  rw [h.rest, takeWhile_respell hn hr]

/-- The next characters are the same if no line feed is among them. -/
theorem take {n : Nat} (h : w.Passes c d) (hn : '\n' ∉ c.rest.take n) :
    d.rest.take n = c.rest.take n := by
  rw [h.rest]
  conv => lhs; rw [← List.take_append_drop n c.rest, respell_append, respell_of_not_mem hn]
  rcases Nat.le_total n c.rest.length with hle | hle
  · exact List.take_left' (List.length_take_of_le hle)
  · rw [List.drop_of_length_le hle, respell_nil, List.append_nil, List.take_take, Nat.min_self]

/-- If a line feed is among the next characters on the left, a break is on the right. -/
theorem mem_take {n : Nat} (h : w.Passes c d) (hn : '\n' ∈ c.rest.take n) :
    '\n' ∈ d.rest.take n ∨ '\r' ∈ d.rest.take n := by
  obtain ⟨a, b, hab, ha⟩ := List.eq_append_cons_of_mem hn
  have hlen : a.length < n := by
    have := congrArg List.length hab
    simp only [List.length_take, List.length_append, List.length_cons] at this
    omega
  have hd : d.rest = a ++ respell w.returns ['\n'] ++ respell w.returns (b ++ c.rest.drop n) := by
    rw [h.rest]
    conv => lhs; rw [← List.take_append_drop n c.rest, hab]
    rw [List.append_assoc, respell_append, respell_of_not_mem ha, List.cons_append, respell_cons,
      List.append_assoc]
  obtain ⟨m, rfl⟩ : ∃ m, n = a.length + (m + 1) := ⟨n - a.length - 1, by omega⟩
  cases hr : w.returns <;>
    simp [hd, hr, List.take_length_add_append]

theorem forward_takeWhile (h : w.Passes c d) (hn : p '\n' = false) :
    w.Passes (c.forward (c.rest.takeWhile p).length) (d.forward (c.rest.takeWhile p).length) := by
  refine h.forward (List.takeWhile_prefix p) fun hmem => ?_
  have := List.all_eq_true.1 List.all_takeWhile _ hmem
  simp [hn] at this

/-- Skipping keeps the cursors in step if it does not skip line ends. -/
theorem skipWhile (h : w.Passes c d) (hn : p '\n' = false) (hr : p '\r' = false) :
    w.Passes (c.skipWhile p) (d.skipWhile p) := by
  rw [Cursor.skipWhile, Cursor.skipWhile, h.takeWhile hn hr]
  exact h.forward_takeWhile hn

theorem skipLine (h : w.Passes c d) : w.Passes c.skipLine d.skipLine :=
  h.skipWhile (by decide) (by decide)

/-- Two cursors with the same text in front of them stand at the same break or at none. -/
theorem lineBreak?_of_rest_eq (h : d.rest = c.rest) :
    c.lineBreak? = none ∧ d.lineBreak? = none ∨
      ∃ ch n, n ≤ c.rest.length ∧ c.lineBreak? = some (ch, c.forward n) ∧
        d.lineBreak? = some (ch, d.forward n) := by
  have hpeek (n : Nat) : d.peekAt n = c.peekAt n := by rw [Cursor.peekAt, Cursor.peekAt, h]
  have hlength {n : Nat} (hn : c.peekAt n ≠ nul) : n < c.rest.length := by
    refine Nat.lt_of_not_le fun hge => hn ?_
    simp [Cursor.peekAt, List.getD_eq_getElem?_getD, List.getElem?_eq_none hge]
  unfold Cursor.lineBreak? Cursor.peek
  simp only [hpeek]
  split
  · rename_i hreturn
    simp only [Bool.and_eq_true, beq_iff_eq] at hreturn
    exact .inr ⟨'\n', 2, hlength (by rw [hreturn.2]; decide), rfl, rfl⟩
  · split
    · rename_i hbreak
      refine .inr ⟨'\n', 1, hlength fun hnul => ?_, rfl, rfl⟩
      rw [hnul] at hbreak
      exact absurd hbreak (by decide)
    · split
      · rename_i hbreak
        refine .inr ⟨c.peekAt 0, 1, hlength fun hnul => ?_, rfl, rfl⟩
        rw [hnul] at hbreak
        exact absurd hbreak (by decide)
      · exact .inl ⟨rfl, rfl⟩

/-- Both stand at a break that means the same, or at none. -/
theorem lineBreak? (h : w.Passes c d) :
    c.lineBreak? = none ∧ d.lineBreak? = none ∨
      ∃ ch c' d', c.lineBreak? = some (ch, c') ∧ d.lineBreak? = some (ch, d') ∧ w.Passes c' d' := by
  cases hr : w.returns with
  | false =>
    -- both stand in front of the same text
    rcases lineBreak?_of_rest_eq (h.rest_eq hr) with hnone | ⟨ch, n, hn, hc, hd⟩
    · exact .inl hnone
    · have hread := h.read (List.take_prefix n c.rest)
      rw [hr, respell_false, List.length_take_of_le hn] at hread
      exact .inr ⟨ch, _, _, hc, hd, hread⟩
  | true =>
    have hrest := h.rest
    have hclean := h.clean hr
    cases hc : c.rest with
    | nil =>
      rw [hc, respell_nil] at hrest
      simp [Cursor.lineBreak?, Cursor.peek, Cursor.peekAt, hc, hrest, nul]
    | cons x cs =>
      have hstride := h.stride hc
      rw [hc, respell_cons] at hrest
      by_cases hx : x = '\n'
      · subst hx
        rw [hr] at hrest
        exact .inr ⟨'\n', c.forward 1, _,
          by simp [Cursor.lineBreak?, Cursor.peek, Cursor.peekAt, hc],
          by simp [Cursor.lineBreak?, Cursor.peek, Cursor.peekAt, hrest, hr], hstride⟩
      · -- no carriage return stands on the left, so one character tells what the break is
        have hreturn : x ≠ '\r' := by
          rintro rfl
          simp [hc] at hclean
        rw [respell_of_ne hx] at hrest hstride
        simp only [Cursor.lineBreak?, Cursor.peek, Cursor.peekAt, hc, hrest, List.singleton_append,
          List.getD_cons_zero, beq_eq_false_iff_ne.2 hx, beq_eq_false_iff_ne.2 hreturn,
          Bool.false_and, Bool.false_eq_true, if_false, Bool.false_or]
        split
        · exact .inr ⟨'\n', _, _, rfl, rfl, hstride⟩
        · split
          · exact .inr ⟨x, _, _, rfl, rfl, hstride⟩
          · exact .inl ⟨rfl, rfl⟩

/-- A line end is passed on both sides. -/
theorem skipBreak (h : w.Passes c d) : w.Passes c.skipBreak d.skipBreak := by
  rcases h.lineBreak? with ⟨hc, hd⟩ | ⟨ch, c', d', hc, hd, h'⟩
  · simpa [Cursor.skipBreak, hc, hd] using h
  · simpa [Cursor.skipBreak, hc, hd] using h'

/-- A byte order mark is skipped by both or by none. -/
theorem skipByteOrderMark (h : w.Passes c d) :
    w.Passes c.skipByteOrderMark d.skipByteOrderMark := by
  have hmark : (d.peek == '\ufeff') = (c.peek == '\ufeff') := h.test (· == '\ufeff') (by decide)
  by_cases hc : c.peek = '\ufeff'
  · have hpos : d.pos = 0 ↔ c.pos = 0 := by
      -- behind the first character neither stands at the start of its text
      refine h.induct (P := fun c d => c.peek = '\ufeff' → (d.pos = 0 ↔ c.pos = 0)) w.mark ?_ hc
      intro c d ch cs hcd _ hc _
      have hleft : c.advance.pos = c.pos + 1 := by simp [Cursor.advance, hc]
      have hlen : (respell w.returns [ch]).length ≤ d.rest.length := by
        rw [hcd.rest, hc, respell_cons ch cs, List.length_append]
        omega
      have hpos := length_respell_pos w.returns ch
      rw [Cursor.pos_forward d hlen, hleft]
      omega
    have hone := h.forward_one (by rw [hc]; decide)
    unfold Cursor.skipByteOrderMark
    by_cases h0 : c.pos = 0
    · simpa [hmark, hc, h0, hpos.2 h0] using hone
    · simpa [hmark, hc, h0, mt hpos.1 h0] using h
  · simpa [Cursor.skipByteOrderMark, hmark, hc] using h

/-- Behind a character that is no line feed, the next ones pass the same tests. -/
theorem test_next (h : w.Passes c d) (hc : c.peek ≠ '\n') (p : Char → Bool)
    (hp : p '\n' = p '\r') : p (d.peekAt 1) = p (c.peekAt 1) := by
  rw [← peek_forward, ← peek_forward]
  exact (h.forward_one hc).test p hp

/-- Document markers stand on both sides or on none. -/
theorem atMarker (h : w.Passes c d) (hn : ch ≠ '\n') (hr : ch ≠ '\r') :
    d.atMarker ch = c.atMarker ch := by
  have hmem : ∀ x, ch ≠ x → x ∉ [ch, ch, ch] := by simp [eq_comm]
  have hfront : (d.rest.take 3 == [ch, ch, ch]) = (c.rest.take 3 == [ch, ch, ch]) := by
    have hprefix : [ch, ch, ch] <+: respell w.returns c.rest ↔ [ch, ch, ch] <+: c.rest :=
      prefix_respell (hmem _ hn) (hmem _ hr)
    rw [← h.rest, List.prefix_iff_eq_take, List.prefix_iff_eq_take] at hprefix
    rw [Bool.eq_iff_iff, beq_iff_eq, beq_iff_eq, eq_comm, eq_comm (a := c.rest.take 3)]
    exact hprefix
  unfold Cursor.atMarker
  rw [h.column, hfront]
  by_cases hc : c.rest.take 3 = [ch, ch, ch]
  · have hthree := h.forward (u := [ch, ch, ch]) (List.prefix_iff_eq_take.2 hc.symm) (hmem _ hn)
    have hend : isBlankOrEnd (d.peekAt 3) = isBlankOrEnd (c.peekAt 3) := by
      rw [← peek_forward, ← peek_forward]
      exact hthree.test isBlankOrEnd (by decide)
    rw [hend]
  · rw [beq_eq_false_iff_ne.2 hc, Bool.and_false, Bool.false_and, Bool.false_and]

theorem atSeparator (h : w.Passes c d) : d.atSeparator = c.atSeparator := by
  rw [Cursor.atSeparator, Cursor.atSeparator, h.atMarker (by decide) (by decide),
    h.atMarker (by decide) (by decide)]

end Passes

end Tandem

end YamlLinter
