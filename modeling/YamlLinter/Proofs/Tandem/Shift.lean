import YamlLinter.Proofs.Tandem.Sources

/-!
# Shifted scans

Two cursors over the same text that set out at different places stay as far apart as they are. So a
scan of the text behind something else is the scan of the text alone, moved by the bytes and the lines
in front of it.

## Contents

* `Mark.shift`, `Token.shift`, `Comment.shift`, `ScanError.shift`: moved by bytes and lines;
* `Passes.index`, `Passes.inked`: what two cursors over the same text keep;
* `Tandem.Shifts`, `Shifts.scan`: the right scan is the left one, moved.
-/

namespace YamlLinter

variable {bytes lines : Nat}

/-- The place so many bytes and lines further on, at the same column. -/
def Mark.shift (bytes lines : Nat) (m : Mark) : Mark := ⟨m.index + bytes, m.line + lines, m.column⟩

def Token.shift (bytes lines : Nat) (t : Token) : Token :=
  ⟨t.kind, t.start.shift bytes lines, t.stop.shift bytes lines⟩

def Comment.shift (bytes lines : Nat) (k : Comment) : Comment :=
  { k with start := k.start.shift bytes lines, stop := k.stop.shift bytes lines }

def ScanError.shift (bytes lines : Nat) (e : ScanError) : ScanError :=
  { e with mark := e.mark.shift bytes lines }

namespace Tandem

variable {w : Tandem} {c d : Cursor} {m m' : Mark}

/-- One character moves two cursors over the same text by the same number of bytes, and leaves ink
behind both or behind none. -/
theorem Passes.stride_bytes {ch : Char} {cs : List Char} (h : w.Passes c d)
    (hr : w.returns = false) (hc : c.rest = ch :: cs) :
    (d.forward (respell w.returns [ch]).length).mark.index + c.mark.index =
        c.advance.mark.index + d.mark.index ∧
      (d.inked = c.inked →
        (d.forward (respell w.returns [ch]).length).inked = c.advance.inked) := by
  have hd : d.rest = ch :: cs := by rw [h.rest_eq hr, hc]
  have hlen : (respell w.returns [ch]).length = 1 := by rw [hr, respell_false, List.length_singleton]
  rw [hlen]
  constructor
  · simp only [Cursor.forward, Cursor.advance, hc, hd, Mark.after]
    omega
  · intro hink
    simp only [Cursor.forward, Cursor.advance, hc, hd, hink]

/-- Two cursors over the same text stay as many bytes apart as they are. -/
theorem Passes.index (h : w.Passes c d) (hr : w.returns = false) :
    d.mark.index + w.left.mark.index = c.mark.index + w.right.mark.index := by
  refine h.induct
    (P := fun c d => d.mark.index + w.left.mark.index = c.mark.index + w.right.mark.index) ?_ ?_
  · omega
  · intro c d ch cs hcd hindex hc
    have := (hcd.stride_bytes hr hc).1
    omega

/-- Two cursors that set out with ink behind both or behind none go on so. -/
theorem Passes.inked (h : w.Passes c d) (hr : w.returns = false)
    (hink : w.right.inked = w.left.inked) : d.inked = c.inked := by
  refine h.induct (P := fun c d => d.inked = c.inked) hink ?_
  intro c d ch cs hcd hink hc
  exact (hcd.stride_bytes hr hc).2 hink

/-- The left cursor sets out at the start of a source, the right one behind some bytes and lines, over
the same text. -/
structure Shifts (w : Tandem) (bytes lines : Nat) : Prop where
  returns : w.returns = false
  left : w.left.mark = .origin
  index : w.right.mark.index = bytes
  line : w.right.mark.line = lines
  inked : w.right.inked = w.left.inked

namespace Shifts

/-- Marks that belong together are as far apart as the starts are. -/
theorem mark (hw : w.Shifts bytes lines) (h : w.MarkPair m m') : m' = m.shift bytes lines := by
  obtain ⟨c, d, hcd, rfl, rfl⟩ := h
  have hindex := hcd.index hw.returns
  have hline : d.mark.line + w.left.mark.line = c.mark.line + w.right.mark.line := hcd.line
  have hcolumn : d.mark.column = c.mark.column := hcd.column
  rw [hw.left, hw.index] at hindex
  rw [hw.left, hw.line] at hline
  show Mark.mk d.mark.index d.mark.line d.mark.column = Mark.mk _ _ _
  rw [hcolumn, show d.mark.index = c.mark.index + bytes from hindex,
    show d.mark.line = c.mark.line + lines from hline]

/-- So are tokens. -/
theorem token {t t' : Token} (hw : w.Shifts bytes lines) (h : w.TokenPair t t') :
    t' = t.shift bytes lines := by
  show Token.mk t'.kind t'.start t'.stop = Token.mk _ _ _
  rw [h.kind, hw.mark h.start, hw.mark h.stop]

/-- So are comments, which stand behind as much ink. -/
theorem comment {k k' : Comment} (hw : w.Shifts bytes lines) (h : w.CommentPair k k') :
    k' = k.shift bytes lines := by
  have hinline : k'.inline = k.inline := by
    obtain ⟨c, d, hcd, rfl, rfl⟩ := h
    exact hcd.inked hw.returns hw.inked
  show Comment.mk k'.start k'.stop k'.text k'.inline = Comment.mk _ _ _ _
  rw [hw.mark h.start, hw.mark h.stop, h.text, hinline]

/-- So are errors. -/
theorem error {e f : ScanError} (hw : w.Shifts bytes lines) (h : w.ErrorPair e f) :
    f = e.shift bytes lines := by
  show ScanError.mk f.cause f.mark = ScanError.mk _ _
  rw [h.cause hw.returns, hw.mark h.mark]

theorem eq_map {α : Type} {R : α → α → Prop} {f : α → α} {xs ys : List α}
    (hf : ∀ {x y}, R x y → y = f x) (h : List.Forall₂ R xs ys) : ys = xs.map f := by
  have hpairs : List.Forall₂ Eq (xs.map f) ys :=
    List.forall₂_map_left_iff.2 (h.imp fun _ _ hxy => (hf hxy).symm)
  rw [List.forall₂_eq_eq_eq] at hpairs
  exact hpairs.symm

/-- Behind its first tokens the right scan is the left one, moved. -/
theorem scan {r r' : Scan} {lead lead' : List Token} (hw : w.Shifts bytes lines)
    (h : w.ScanPair lead lead' r r') :
    ∃ xs, r.tokens = lead ++ xs ∧
      r' = ⟨lead' ++ xs.map (·.shift bytes lines), w.noted ++ r.comments.map (·.shift bytes lines),
        r.error.map (·.shift bytes lines)⟩ := by
  obtain ⟨xs, ys, hxs, hys, hxy⟩ := h.tokens
  obtain ⟨ks, hks, hcomments⟩ := h.comments
  have herror : r'.error = r.error.map (·.shift bytes lines) := by
    have herror := h.error
    generalize r.error = e at herror ⊢
    generalize r'.error = e' at herror ⊢
    cases herror with
    | none => rfl
    | some he => exact congrArg some (hw.error he)
  have htokens : ys = xs.map (·.shift bytes lines) := eq_map (fun h => hw.token h) hxy
  have hnoted : ks = r.comments.map (·.shift bytes lines) := eq_map (fun h => hw.comment h) hcomments
  refine ⟨xs, hxs, ?_⟩
  rw [← htokens, ← hnoted, ← hys, ← hks, ← herror]

end Shifts

end Tandem

end YamlLinter
