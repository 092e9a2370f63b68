import YamlLinter.Scan.Cursor

/-!
# Cursors only move forward

Every reader takes a cursor and gives one that lies ahead of it in the same text. Marks only grow on
the way, so what a reader leaves behind keeps its place.

## Contents

* `Cursor.Ahead`: a cursor reached from another by reading;
* what grows on the way: characters read, byte offsets, lines, and columns on one line;
* `Laid`: things with a start and an end that lie one behind the other between two cursors.
-/

namespace YamlLinter

namespace Cursor

/-- `c'` lies ahead of `c`: it is reached from `c` by reading some characters. -/
def Ahead (c c' : Cursor) : Prop := ∃ n, c' = c.forward n

/-- Moving twice is moving once. -/
theorem forward_forward (c : Cursor) (m n : Nat) : (c.forward m).forward n = c.forward (m + n) := by
  induction m generalizing c with
  | zero => rw [Nat.zero_add]; rfl
  | succ m ih =>
    rw [Nat.succ_add]
    exact ih c.advance

namespace Ahead

theorem refl (c : Cursor) : c.Ahead c := ⟨0, rfl⟩

theorem forward (c : Cursor) (n : Nat) : c.Ahead (c.forward n) := ⟨n, rfl⟩

/-- Cursors can be moved on again. -/
theorem trans {a b c : Cursor} (h₁ : a.Ahead b) (h₂ : b.Ahead c) : a.Ahead c := by
  obtain ⟨m, rfl⟩ := h₁
  obtain ⟨n, rfl⟩ := h₂
  exact ⟨m + n, forward_forward a m n⟩

theorem then_forward {a b : Cursor} (h : a.Ahead b) (n : Nat) : a.Ahead (b.forward n) :=
  h.trans (.forward b n)

theorem skipWhile (c : Cursor) (p : Char → Bool) : c.Ahead (c.skipWhile p) := .forward c _

theorem skipLine (c : Cursor) : c.Ahead c.skipLine := .skipWhile c _

/-- Behind a line break is ahead. -/
theorem lineBreak? {c c' : Cursor} {ch : Char} (h : c.lineBreak? = some (ch, c')) :
    c.Ahead c' := by
  unfold Cursor.lineBreak? at h
  simp only at h
  split at h
  · cases h; exact .forward c 2
  · split at h
    · cases h; exact .forward c 1
    · split at h
      · cases h; exact .forward c 1
      · cases h

/-! ## What grows on the way -/

/-- A quantity that one more character never makes smaller grows along the text. -/
theorem mono {f : Cursor → Nat} (hf : ∀ c : Cursor, f c ≤ f c.advance) {c c' : Cursor}
    (h : c.Ahead c') : f c ≤ f c' := by
  obtain ⟨n, rfl⟩ := h
  induction n generalizing c with
  | zero => exact Nat.le_refl _
  | succ n ih => exact Nat.le_trans (hf c) (ih (c := c.advance))

/-- Ahead, no fewer characters have been read. -/
theorem pos_le {c c' : Cursor} (h : c.Ahead c') : c.pos ≤ c'.pos := by
  refine mono (f := Cursor.pos) (fun c => ?_) h
  unfold Cursor.advance
  split <;> simp

theorem index_le {c c' : Cursor} (h : c.Ahead c') : c.mark.index ≤ c'.mark.index := by
  refine mono (f := fun c => c.mark.index) (fun c => ?_) h
  unfold Cursor.advance
  split <;> simp [Mark.after]

theorem line_le {c c' : Cursor} (h : c.Ahead c') : c.line ≤ c'.line := by
  refine mono (f := Cursor.line) (fun c => ?_) h
  unfold Cursor.advance
  split
  · exact Nat.le_refl _
  · simp only [Cursor.line, Mark.after]
    split <;> omega

/-- On one line columns grow. -/
theorem column_le {c c' : Cursor} (h : c.Ahead c') (hl : c'.line = c.line) :
    c.column ≤ c'.column := by
  obtain ⟨n, rfl⟩ := h
  induction n generalizing c with
  | zero => exact Nat.le_refl _
  | succ n ih =>
    have hfirst : c.line ≤ c.advance.line := line_le (.forward c 1)
    have hlast : c.advance.line ≤ (c.forward (n + 1)).line := line_le (.forward c.advance n)
    have hstay : c.advance.line = c.line := by omega
    refine Nat.le_trans ?_ (ih (hl.trans hstay.symm))
    -- a character that ends no line never lowers the column
    cases hr : c.rest with
    | nil => simp [Cursor.advance, hr]
    | cons ch rest =>
      simp only [Cursor.advance, hr, Cursor.line, Cursor.column, Mark.after] at hstay ⊢
      by_cases he : Mark.endsLine ch (rest.headD Text.nul) = true
      · rw [if_pos he] at hstay
        omega
      · rw [if_neg he]
        split <;> omega

/-- Ahead, no more text is left. -/
theorem length_rest_le {c c' : Cursor} (h : c.Ahead c') : c'.rest.length ≤ c.rest.length := by
  obtain ⟨n, rfl⟩ := h
  exact c.length_rest_forward_le n

end Ahead

/-- The mark moves with every character. -/
theorem index_lt_advance {c : Cursor} (h : c.rest ≠ []) : c.mark.index < c.advance.mark.index := by
  unfold advance
  split
  · contradiction
  · have := Char.utf8Size_pos ‹Char›
    simp only [Mark.after]
    omega

theorem index_lt_forward {c : Cursor} (h : c.rest ≠ []) {n : Nat} (hn : 0 < n) :
    c.mark.index < (c.forward n).mark.index := by
  obtain ⟨m, rfl⟩ : ∃ m, n = m + 1 := ⟨n - 1, by omega⟩
  exact Nat.lt_of_lt_of_le (index_lt_advance h) (Ahead.forward c.advance m).index_le

/-- Of two cursors ahead of a third, one lies ahead of the other. -/
theorem Ahead.total {a c d : Cursor} (hc : a.Ahead c) (hd : a.Ahead d) : c.Ahead d ∨ d.Ahead c := by
  obtain ⟨m, rfl⟩ := hc
  obtain ⟨n, rfl⟩ := hd
  rcases Nat.le_total m n with h | h
  · exact .inl ⟨n - m, by rw [forward_forward, Nat.add_sub_cancel' h]⟩
  · exact .inr ⟨m - n, by rw [forward_forward, Nat.add_sub_cancel' h]⟩

/-- Reading on moves the mark, unless there is nothing to read. -/
theorem Ahead.eq_of_index_le {c d : Cursor} (h : c.Ahead d) (hle : d.mark.index ≤ c.mark.index) :
    c = d := by
  obtain ⟨n, rfl⟩ := h
  by_cases hrest : c.rest = []
  · have hstay : ∀ n, c.forward n = c := by
      intro n
      induction n with
      | zero => rfl
      | succ n ih =>
        rw [Cursor.forward, show c.advance = c by simp [advance, hrest]]
        exact ih
    exact (hstay n).symm
  · cases n with
    | zero => rfl
    | succ n =>
      have hlt := index_lt_forward (n := n + 1) hrest (Nat.succ_pos n)
      omega

/-- Two cursors in a text that have read as many bytes are the same. -/
theorem eq_of_index_eq {a c d : Cursor} (hc : a.Ahead c) (hd : a.Ahead d)
    (h : c.mark.index = d.mark.index) : c = d := by
  rcases hc.total hd with hcd | hdc
  · exact hcd.eq_of_index_le (Nat.le_of_eq h.symm)
  · exact (hdc.eq_of_index_le (Nat.le_of_eq h)).symm

/-- Of two cursors in a text, the one with the smaller offset is not on a later line. -/
theorem line_le_of_index_le {a c d : Cursor} (hc : a.Ahead c) (hd : a.Ahead d)
    (h : c.mark.index ≤ d.mark.index) : c.line ≤ d.line := by
  rcases hc.total hd with hcd | hdc
  · exact hcd.line_le
  · exact Nat.le_of_eq (congrArg Cursor.line (hdc.eq_of_index_le h).symm)

end Cursor

/-! ## Things that lie one behind the other -/

/-- The things lie one behind the other between two cursors, each from a cursor to one ahead of it.
The marks of the start and the end of a thing are those of its cursors. -/
inductive Laid {α : Type} (start stop : α → Mark) : Cursor → List α → Cursor → Prop where
  | nil {c c' : Cursor} : c.Ahead c' → Laid start stop c [] c'
  | cons {c c₁ c₂ c' : Cursor} {x : α} {xs : List α} : c.Ahead c₁ → start x = c₁.mark →
      c₁.Ahead c₂ → stop x = c₂.mark → Laid start stop c₂ xs c' → Laid start stop c (x :: xs) c'

namespace Laid

variable {α : Type} {start stop : α → Mark} {a b c d : Cursor} {x : α} {xs ys : List α}

/-- Things that are laid out lead from one cursor to another. -/
theorem ahead (h : Laid start stop a xs b) : a.Ahead b := by
  induction h with
  | nil h => exact h
  | cons h₁ _ h₂ _ _ ih => exact (h₁.trans h₂).trans ih

/-- What stands in front of them makes no difference. -/
theorem behind (h : a.Ahead b) (hl : Laid start stop b xs c) : Laid start stop a xs c := by
  cases hl with
  | nil h' => exact .nil (h.trans h')
  | cons h₁ hs h₂ ht hr => exact .cons (h.trans h₁) hs h₂ ht hr

/-- Nor does what stands behind them. -/
theorem extend (hl : Laid start stop a xs b) (h : b.Ahead c) : Laid start stop a xs c := by
  induction hl with
  | nil h' => exact .nil (h'.trans h)
  | cons h₁ hs h₂ ht _ ih => exact .cons h₁ hs h₂ ht (ih h)

/-- Things laid out behind each other. -/
theorem append (h₁ : Laid start stop a xs b) (h₂ : Laid start stop b ys c) :
    Laid start stop a (xs ++ ys) c := by
  induction h₁ with
  | nil h => exact h₂.behind h
  | cons h hs h' ht _ ih => exact .cons h hs h' ht (ih h₂)

theorem single (h₁ : a.Ahead b) (hs : start x = b.mark) (h₂ : b.Ahead c) (ht : stop x = c.mark)
    (h₃ : c.Ahead d) : Laid start stop a [x] d :=
  .cons h₁ hs h₂ ht (.nil h₃)

/-- Things laid out can be divided anywhere. -/
theorem split (h : Laid start stop a (xs ++ ys) c) :
    ∃ b, Laid start stop a xs b ∧ Laid start stop b ys c := by
  induction xs generalizing a with
  | nil => exact ⟨a, .nil (.refl a), h⟩
  | cons x xs ih =>
    cases h with
    | cons h₁ hs h₂ ht hr =>
      obtain ⟨b, hx, hy⟩ := ih hr
      exact ⟨b, .cons h₁ hs h₂ ht hx, hy⟩

/-- Things without extent can be put at a cursor. -/
theorem empties (h : ∀ x ∈ xs, start x = a.mark ∧ stop x = a.mark) : Laid start stop a xs a := by
  induction xs with
  | nil => exact .nil (.refl a)
  | cons x xs ih =>
    obtain ⟨hs, ht⟩ := h x (.head xs)
    exact .cons (.refl a) hs (.refl a) ht (ih fun y hy => h y (.tail x hy))

/-- Things that start and end where another one starts can be put in front of that one. -/
theorem insert {i : Nat} (h : Laid start stop a xs b) (hi : xs[i]? = some x)
    (hys : ∀ y ∈ ys, start y = start x ∧ stop y = start x) :
    Laid start stop a (xs.take i ++ ys ++ xs.drop i) b := by
  induction h generalizing i with
  | nil => simp at hi
  | @cons c c₁ c₂ c' z zs h₁ hz h₂ hz' hr ih =>
    cases i with
    | zero =>
      obtain rfl : z = x := by simpa using hi
      rw [hz] at hys
      exact (Laid.empties hys).append (.cons (.refl c₁) hz h₂ hz' hr) |>.behind h₁
    | succ i => exact .cons h₁ hz h₂ hz' (ih (by simpa using hi))

/-- Every mark is that of a cursor between the two ends, and nothing ends before it starts. -/
theorem mem (h : Laid start stop a xs b) (hx : x ∈ xs) :
    ∃ c d, a.Ahead c ∧ c.Ahead d ∧ d.Ahead b ∧ start x = c.mark ∧ stop x = d.mark := by
  induction h with
  | nil => cases hx
  | @cons c c₁ c₂ c' z zs h₁ hz h₂ hz' hr ih =>
    rcases List.mem_cons.1 hx with rfl | hx
    · exact ⟨c₁, c₂, h₁, h₂, hr.ahead, hz, hz'⟩
    · obtain ⟨p, q, hp, hpq, hq, hs, ht⟩ := ih hx
      exact ⟨p, q, (h₁.trans h₂).trans hp, hpq, hq, hs, ht⟩

/-- What lies behind a thing starts ahead of its start. -/
theorem behind_start (h : Laid start stop a (xs ++ x :: ys) b) {y : α} (hy : y ∈ x :: ys) :
    ∃ c d : Cursor, start x = c.mark ∧ start y = d.mark ∧ c.Ahead d ∧ d.Ahead b := by
  obtain ⟨e, -, h⟩ := h.split
  cases h with
  | @cons _ c₁ c₂ _ _ _ h₁ hs h₂ ht hr =>
    rcases List.mem_cons.1 hy with rfl | hy
    · exact ⟨c₁, c₁, hs, hs, .refl c₁, h₂.trans hr.ahead⟩
    · obtain ⟨p, q, hp, hpq, hq, hsy, -⟩ := hr.mem hy
      exact ⟨c₁, p, hs, hsy, h₂.trans hp, hpq.trans hq⟩

/-- Nothing overlaps what lies behind it. -/
theorem pairwise (h : Laid start stop a xs b) :
    xs.Pairwise fun x y => (stop x).index ≤ (start y).index := by
  induction h with
  | nil => exact .nil
  | @cons c c₁ c₂ c' z zs h₁ hz h₂ hz' hr ih =>
    refine .cons (fun y hy => ?_) ih
    obtain ⟨p, q, hp, -, -, hs, -⟩ := hr.mem hy
    rw [hz', hs]
    exact hp.index_le

/-- What reading on keeps holds of the starts of two things, one of which lies behind the other. -/
theorem pairwise_ahead (h : Laid start stop a xs b) {R : Mark → Mark → Prop}
    (hR : ∀ {c d : Cursor}, c.Ahead d → R c.mark d.mark) :
    xs.Pairwise fun x y => R (start x) (start y) := by
  induction h with
  | nil => exact .nil
  | @cons c c₁ c₂ c' z zs h₁ hz h₂ hz' hr ih =>
    refine .cons (fun y hy => ?_) ih
    obtain ⟨p, q, hp, -, -, hs, -⟩ := hr.mem hy
    rw [hz, hs]
    exact hR (h₂.trans hp)

/-- Nothing starts before what it lies behind. -/
theorem pairwise_start (h : Laid start stop a xs b) :
    xs.Pairwise fun x y => (start x).index ≤ (start y).index :=
  h.pairwise_ahead (R := fun m n => m.index ≤ n.index) Cursor.Ahead.index_le

/-- Nothing starts on a line before that of what it lies behind. -/
theorem pairwise_line (h : Laid start stop a xs b) :
    xs.Pairwise fun x y => (start x).line ≤ (start y).line :=
  h.pairwise_ahead (R := fun m n => m.line ≤ n.line) Cursor.Ahead.line_le

end Laid

end YamlLinter
