import Mathlib.Data.Prod.Lex
import YamlLinter.Proofs.Positions
import YamlLinter.Proofs.Tandem.Sources

/-!
# Places of tokens and of the lines of scalars

A place is a line and a column. Tokens come in the order of their places, and the lines of a scalar
behind its first lie between the scalar and the token behind it. The lines are counted by line feeds
alone, so there may be fewer of them than marks count; and they are told by the spaces at their
front, which no token starts in.

## Contents

* `Mark.reported`: places, with their order;
* `Cursor.Ahead.behind_spaces`: what lies ahead of some spaces, and not in them, lies behind them;
* `Cursor.peek_gap`, `startsAt_fetched`, `starts_run`: no token starts at a space;
* `exists_of_mem_linesBehind`, `getElem?_of_lineIndent?`: the lines of a scalar in the text;
* `le_reported_of_mem_linesBehind`: where they lie;
* `lt_of_mem_continuationLines`, `le_reported_of_mem_continuationLines`: their places.
-/

namespace YamlLinter

open Text

/-! ## Places -/

/-- The line and the column of a mark, counted from one. Places are ordered by line, then by
column. -/
def Mark.reported (m : Mark) : Nat ×ₗ Nat := toLex (m.line + 1, m.column + 1)

namespace Cursor

variable {c d : Cursor} {n : Nat}

theorem Ahead.reported_le (h : c.Ahead d) : c.mark.reported ≤ d.mark.reported := by
  unfold Mark.reported
  rw [Prod.Lex.toLex_le_toLex]
  rcases Nat.lt_or_eq_of_le h.line_le with hlt | heq
  · exact .inl (Nat.succ_lt_succ hlt)
  · exact .inr ⟨congrArg (· + 1) heq, Nat.succ_le_succ (h.column_le heq.symm)⟩

/-- The bytes behind the place of a cursor are those of the text that it has not read. -/
theorem Ahead.drop_bytes {text : List Char} (h : (ofText text).Ahead c) :
    (bytes text).drop c.mark.index = bytes c.rest := by
  have hlength : c.mark.index = (bytes (text.take c.pos)).length := by
    rw [length_bytes, h.at_pos.index]
  have hsplit : bytes text = bytes (text.take c.pos) ++ bytes (text.drop c.pos) := by
    rw [← bytes_append, List.take_append_drop]
  rw [hlength, h.rest_eq, hsplit, List.drop_left]

/-! ## Spaces -/

/-- Spaces stay on the line and take one column each. -/
theorem line_forward_spaces (h : ∀ i < n, c.rest[i]? = some ' ') :
    (c.forward n).line = c.line ∧ (c.forward n).column = c.column + n := by
  induction n generalizing c with
  | zero => exact ⟨rfl, rfl⟩
  | succ n ih =>
    cases hrest : c.rest with
    | nil =>
      have hnone := h 0 (Nat.succ_pos n)
      rw [hrest] at hnone
      cases hnone
    | cons ch rest =>
      rw [hrest] at h
      obtain rfl : ch = ' ' := Option.some.inj (h 0 (Nat.succ_pos n))
      have hadvance : c.advance.rest = rest ∧ c.advance.line = c.line ∧
          c.advance.column = c.column + 1 := by
        simp [advance, hrest, line, column, Mark.after, Mark.endsLine]
      obtain ⟨hline, hcolumn⟩ := ih (c := c.advance) fun i hi => by
        rw [hadvance.1]
        exact h (i + 1) (Nat.succ_lt_succ hi)
      refine ⟨hline.trans hadvance.2.1, ?_⟩
      rw [forward, hcolumn, hadvance.2.2]
      omega

/-- What lies ahead of some spaces, and not at a space, lies behind them. -/
theorem Ahead.behind_spaces (h : c.Ahead d) (hspaces : ∀ i < n, c.rest[i]? = some ' ')
    (hd : d.peek ≠ ' ') : (c.forward n).Ahead d := by
  obtain ⟨m, rfl⟩ := h
  rcases Nat.lt_or_ge m n with hlt | hge
  · refine absurd ?_ hd
    unfold peek peekAt
    rw [rest_forward, List.getD_eq_getElem?_getD, List.getElem?_drop, Nat.add_zero, hspaces m hlt]
    rfl
  · exact ⟨m - n, by rw [forward_forward, Nat.add_sub_cancel' hge]⟩

/-! ## Where tokens start -/

theorem peek_skipWhile {p : Char → Bool} (hp : p nul = false) (c : Cursor) :
    p (c.skipWhile p).peek = false := by
  unfold skipWhile peek peekAt
  rw [rest_forward]
  generalize c.rest = rest
  induction rest with
  | nil => exact hp
  | cons ch rest ih =>
    cases hch : p ch with
    | true => simpa [List.takeWhile_cons, hch] using ih
    | false => simp [hch]

theorem peek_lineGap (c : Cursor) (flow allowKey : Bool) : (c.lineGap flow allowKey).2.peek ≠ ' ' := by
  unfold lineGap
  simp only
  split
  · intro h
    have hend := peek_skipWhile (p := (!isLineEnd ·)) (by decide)
      (c.skipWhile (isSkipped flow allowKey))
    rw [show (skipWhile _ (!isLineEnd ·)).peek = ' ' from h] at hend
    exact absurd hend (by decide)
  · intro h
    have hskipped := peek_skipWhile (p := isSkipped flow allowKey)
      (by simp [isSkipped, nul]) c
    rw [h] at hskipped
    simp [isSkipped] at hskipped

/-- What is skipped in front of a token includes all spaces. -/
theorem peek_gap (c : Cursor) (flow allowKey : Bool) : (c.gap flow allowKey).cursor.peek ≠ ' ' := by
  fun_induction gap c flow allowKey with
  | case1 c allowKey h => exact peek_lineGap c flow allowKey
  | case2 c allowKey ch c' h more ih => exact ih

end Cursor

namespace ScanState

variable {s s' s₁ : ScanState} {text : List Char} {out : List Token}

/-- The tokens of `queue'` start where tokens of `queue` do, or at the cursor `c`. -/
def StartsAt (c : Cursor) (queue queue' : List Token) : Prop :=
  ∀ t ∈ queue', t.start = c.mark ∨ ∃ u ∈ queue, t.start = u.start

variable {c : Cursor} {queue queue' ts : List Token}

theorem StartsAt.refl (c : Cursor) (queue : List Token) : StartsAt c queue queue :=
  fun t ht => .inr ⟨t, ht, rfl⟩

theorem StartsAt.push (h : StartsAt c queue queue') (hts : ∀ t ∈ ts, t.start = c.mark) :
    StartsAt c queue (queue' ++ ts) := by
  intro t ht
  rcases List.mem_append.1 ht with ht | ht
  · exact h t ht
  · exact .inl (hts t ht)

theorem StartsAt.pushOne {t : Token} (h : StartsAt c queue queue') (ht : t.start = c.mark) :
    StartsAt c queue (queue' ++ [t]) :=
  h.push fun _ hu => (List.mem_singleton.1 hu) ▸ ht

theorem startsAt_unwind (s : ScanState) (column : Int) :
    StartsAt s.cursor s.queue (s.unwind column).queue := by
  obtain ⟨n, hq⟩ := s.queue_unwind column
  rw [hq]
  refine (StartsAt.refl _ _).push fun t ht => ?_
  rw [List.eq_of_mem_replicate ht]
  rfl

/-- A key starts where its first token does. -/
theorem startsAt_insertKey {k : SimpleKey} (hp : s.KeysInPlace) (hk : k ∈ s.keys) (c : Cursor) :
    StartsAt c s.queue (s.forgetKey.insertKey k).queue := by
  obtain ⟨ts, hq, hts⟩ := s.forgetKey.queue_insertKey k
  obtain ⟨u, hu, hmark⟩ := hp.starts k hk
  have hkey : ∀ t ∈ ts, t.start = u.start := by
    intro t ht
    rw [hmark]
    rcases hts with rfl | rfl
    · rw [List.mem_singleton.1 ht]
      rfl
    · rcases List.mem_pair.1 ht with rfl | rfl <;> rfl
  rw [hq]
  intro t ht
  rcases List.mem_append.1 ht with ht | ht
  · rcases List.mem_append.1 ht with ht | ht
    · exact .inr ⟨t, List.mem_of_mem_take ht, rfl⟩
    · exact .inr ⟨u, List.mem_of_getElem? hu, hkey t ht⟩
  · exact .inr ⟨t, List.mem_of_mem_drop ht, rfl⟩

/-- All tokens of a lexeme start where it does, but for a key in front of an earlier token. -/
theorem startsAt_fetched (hp : s.KeysInPlace) (hf : Fetched s s') :
    StartsAt s.cursor s.queue s'.queue := by
  have hsame := StartsAt.refl s.cursor s.queue
  have hunwind := startsAt_unwind s (-1)
  cases hf with
  | streamEnd => exact hunwind.pushOne rfl
  | directive hc hd => exact hunwind.pushOne (Cursor.reads_directive hc hd).1.start
  | marker => exact hunwind.pushOne (congrArg Cursor.mark (unwind_cursor s _))
  | flowStart _ hs => cases hs <;> exact hsame.pushOne rfl
  | flowEnd => exact hsame.pushOne rfl
  | flowEntry => exact hsame.pushOne rfl
  | @entry s₁ kind opens allowKey _ _ ho =>
    cases ho with
    | flow => exact hsame.pushOne rfl
    | block =>
      have hcursor : (s.openBlock opens).cursor = s.cursor := openBlock_cursor s opens
      have hopened : StartsAt s.cursor s.queue (s.openBlock opens).queue := by
        rcases s.queue_openBlock opens with hq | hq
        · rw [hq]
          exact hsame
        · rw [hq]
          exact hsame.pushOne rfl
      exact hopened.pushOne (congrArg Cursor.mark hcursor)
  | @value k _ hk =>
    have hcursor : (s.forgetKey.insertKey k).cursor = s.cursor := insertKey_cursor _ _
    exact (startsAt_insertKey hp (mem_keys_of_currentKey? hk).1 s.cursor).pushOne
      (congrArg Cursor.mark hcursor)
  | keyable hs hr => cases hs <;> exact hsame.pushOne hr.start
  | block _ hr => exact hsame.pushOne hr.start

/-- The token starts at a place of the text where no space stands. -/
def OffSpace (text : List Char) (t : Token) : Prop :=
  ∃ c : Cursor, (Cursor.ofText text).Ahead c ∧ t.start = c.mark ∧ c.peek ≠ ' '

/-- Nothing that a run gives starts at a space, but maybe the start of the stream. -/
theorem starts_run (h : Run text out s) :
    ∀ t ∈ out ++ s.queue, t.start = .origin ∨ OffSpace text t := by
  induction h with
  | start =>
    intro t ht
    rw [List.mem_singleton.1 ht]
    exact .inl rfl
  | @fetch out s s₁ s' hrun hn hf ih =>
    obtain ⟨s₂, hpoised, hf⟩ := hrun.poised hn hf
    obtain ⟨keys, -, hr⟩ := hpoised.ready
    have hspace : s₂.cursor.peek ≠ ' ' := by
      rw [hr.cursor]
      exact Cursor.peek_gap _ _ _
    have hcursor : ∀ t : Token, t.start = s₂.cursor.mark → OffSpace text t :=
      fun t ht => ⟨s₂.cursor, hpoised.placed.tokens.ahead, ht, hspace⟩
    obtain ⟨n, hq⟩ := queue_readied hr
    intro t ht
    rcases List.mem_append.1 ht with ht | ht
    · exact ih t (List.mem_append_left s.queue ht)
    · rcases startsAt_fetched hpoised.inPlace hf t ht with hstart | ⟨u, hu, hstart⟩
      · exact .inr (hcursor t hstart)
      · -- a token of the state in which the lexeme was read is an old one or closes a collection
        rw [hq] at hu
        unfold OffSpace
        rw [hstart]
        rcases List.mem_append.1 hu with hu | hu
        · exact ih u (List.mem_append_right out hu)
        · refine .inr (hcursor u ?_)
          rw [List.eq_of_mem_replicate hu]
          rfl
  | @give out queue t s s₁ _ hn hq ih =>
    obtain ⟨keys, -, rfl⟩ := (needsMore_ok hn).eq_keys
    intro u hu
    refine ih u ?_
    simp only at hq
    simpa [hq] using hu

end ScanState

/-! ## The lines of a scalar -/

section

open Indentation (lineIndent? linesBehind continuationLines)

variable {c : Cursor} {number count line indent : Nat}

theorem linesBehind_of_not_mem {bs : List UInt8} (h : 0x0a ∉ bs) (number count : Nat)
    (rest : List UInt8) :
    linesBehind number count (bs ++ rest) = linesBehind number (count - bs.length) rest := by
  induction bs generalizing count with
  | nil => rfl
  | cons b bs ih =>
    have hb : (b == 0x0a) = false := by
      rw [beq_eq_false_iff_ne]
      rintro rfl
      exact h List.mem_cons_self
    cases count with
    | zero => simp [linesBehind]
    | succ count =>
      rw [List.cons_append, linesBehind, if_neg (by simp [hb]), ih fun hmem => h (.tail b hmem),
        List.length_cons, Nat.succ_sub_succ]

theorem lt_of_mem_linesBehind {bs : List UInt8} (h : (line, indent) ∈ linesBehind number count bs) :
    number < line := by
  fun_induction linesBehind number count bs with
  | case1 => cases h
  | case2 => cases h
  | case3 number count b bs hb first hfirst ih =>
    rcases List.mem_cons.1 h with h | h
    · rw [(Prod.mk.inj h).1]
      exact Nat.lt_succ_self number
    · exact Nat.lt_of_succ_lt (ih h)
  | case4 number count b bs hb hblank ih => exact Nat.lt_of_succ_lt (ih h)
  | case5 number count b bs hb ih => exact ih h

/-- The lines of a token that are looked at stand below its start. -/
theorem lt_of_mem_continuationLines {buffer : List UInt8} {t : Token}
    (h : (line, indent) ∈ continuationLines buffer t) : t.start.line + 1 < line := by
  unfold continuationLines at h
  simp only at h
  split at h
  · cases h
  · exact lt_of_mem_linesBehind h

/-- The spaces that a line is indented by. -/
theorem getElem?_of_lineIndent? {rest : List Char} (h : lineIndent? (bytes rest) = some indent) :
    ∀ i < indent, rest[i]? = some ' ' := by
  induction rest generalizing indent with
  | nil => cases h
  | cons ch rest ih =>
    have hbytes : bytes (ch :: rest) = String.utf8EncodeChar ch ++ bytes rest := rfl
    by_cases hspace : ch = ' '
    · subst hspace
      rw [hbytes, show String.utf8EncodeChar ' ' = [0x20] by decide, List.singleton_append,
        lineIndent?_space] at h
      obtain ⟨inner, hinner, rfl⟩ := Option.map_eq_some_iff.1 h
      intro i hi
      cases i with
      | zero => rfl
      | succ i => exact ih hinner i (Nat.lt_of_succ_lt_succ hi)
    · rw [hbytes, lineIndent?_encode hspace] at h
      split at h
      · cases h
      · cases h
        exact fun i hi => absurd hi (Nat.not_lt_zero i)

/-- A line behind the first starts at a line feed among the bytes that are looked at. -/
theorem exists_of_mem_linesBehind (hnumber : number ≤ c.line + 1)
    (h : (line, indent) ∈ linesBehind number count (bytes c.rest)) :
    ∃ e, c.Ahead e ∧ e.mark.index ≤ c.mark.index + count ∧ line ≤ e.line + 1 ∧
      lineIndent? (bytes e.rest) = some indent := by
  -- the cursor goes through the characters as the search goes through their bytes
  generalize hrest : c.rest = rest at h
  induction rest generalizing c number count with
  | nil => cases count <;> cases h
  | cons ch rest ih =>
    have hadvance : c.advance.rest = rest ∧ c.advance.mark = c.mark.after ch (rest.headD nul) := by
      simp [Cursor.advance, hrest]
    have hbytes : bytes (ch :: rest) = String.utf8EncodeChar ch ++ bytes rest := rfl
    have hahead : c.Ahead c.advance := .forward c 1
    have hline := hahead.line_le
    by_cases hfeed : ch = '\n'
    · -- the line counts if it is not blank, and the lines behind it follow
      subst hfeed
      have hnext : c.advance.line = c.line + 1 ∧ c.advance.mark.index = c.mark.index + 1 := by
        rw [Cursor.line, hadvance.2]
        exact ⟨rfl, rfl⟩
      rw [hbytes, show String.utf8EncodeChar '\n' = [0x0a] by decide, List.singleton_append] at h
      cases count with
      | zero => cases h
      | succ count =>
        have hlater : (line, indent) ∈ linesBehind (number + 1) count (bytes rest) →
            ∃ e, c.Ahead e ∧ e.mark.index ≤ c.mark.index + (count + 1) ∧ line ≤ e.line + 1 ∧
              lineIndent? (bytes e.rest) = some indent := by
          intro h
          obtain ⟨e, he, hindex, hle, hindent⟩ := ih (by omega) hadvance.1 h
          exact ⟨e, hahead.trans he, by omega, hle, hindent⟩
        rw [linesBehind, if_pos (beq_self_eq_true _)] at h
        split at h
        · rename_i first hfirst
          rcases List.mem_cons.1 h with h | h
          · obtain ⟨rfl, rfl⟩ := Prod.mk.inj h
            exact ⟨c.advance, hahead, by omega, by omega, hadvance.1 ▸ hfirst⟩
          · exact hlater h
        · exact hlater h
    · -- no other character has the byte of a line feed, so the search goes on behind its bytes
      have hmem : 0x0a ∉ String.utf8EncodeChar ch := fun h => hfeed (feed_of_mem_utf8EncodeChar h)
      rw [hbytes, linesBehind_of_not_mem hmem] at h
      have hsize : (String.utf8EncodeChar ch).length ≤ count := by
        by_contra hgt
        rw [show count - (String.utf8EncodeChar ch).length = 0 by omega] at h
        simp [linesBehind] at h
      obtain ⟨e, he, hindex, hle, hindent⟩ := ih (by omega) hadvance.1 h
      refine ⟨e, hahead.trans he, ?_, hle, hindent⟩
      rw [hadvance.2, Mark.after] at hindex
      rw [String.length_utf8EncodeChar] at hindex hsize
      simp only at hindex
      omega

/-- Such a line, with its indent, does not lie behind a cursor ahead of the bytes that are looked at, if
that stands at no space. -/
theorem le_reported_of_mem_linesBehind {d : Cursor} (hcd : c.Ahead d) (hspace : d.peek ≠ ' ')
    (hcount : c.mark.index + count ≤ d.mark.index) (hnumber : number ≤ c.line + 1)
    (h : (line, indent) ∈ linesBehind number count (bytes c.rest)) :
    toLex (line, indent + 1) ≤ d.mark.reported := by
  obtain ⟨e, hce, he, hle, hindent⟩ := exists_of_mem_linesBehind hnumber h
  have hed : e.Ahead d := by
    rcases hce.total hcd with hed | hde
    · exact hed
    · rw [hde.eq_of_index_le (by omega)]
      exact .refl e
  have hspaces := getElem?_of_lineIndent? hindent
  obtain ⟨hline, hcolumn⟩ := Cursor.line_forward_spaces hspaces
  -- the line may stand below the one of its number, which counts line feeds alone
  refine le_trans (Prod.Lex.toLex_le_toLex.2 ?_) (hed.behind_spaces hspaces hspace).reported_le
  show line < (e.forward indent).line + 1 ∨
    line = (e.forward indent).line + 1 ∧ indent + 1 ≤ (e.forward indent).column + 1
  omega

/-- The lines of a token that are looked at do not lie behind the next token, since that starts at no
space. -/
theorem le_reported_of_mem_continuationLines {text : List Char} {xs rest : List Token}
    {t next : Token} {b : Cursor}
    (hlaid : Laid Token.start Token.stop (.ofText text) (xs ++ t :: next :: rest) b)
    (hnext : next.start = .origin ∨ ScanState.OffSpace text next)
    (h : (line, indent) ∈ continuationLines (bytes text) t) :
    toLex (line, indent + 1) ≤ next.start.reported := by
  obtain ⟨a, hxs, hlaid⟩ := hlaid.split
  cases hlaid with
  | @cons _ c₁ c₂ _ _ _ h₁ hstart h₂ hstop hlaid =>
    cases hlaid with
    | @cons _ c₃ _ _ _ _ h₃ hstart' _ _ _ =>
      have hc : (Cursor.ofText text).Ahead c₁ := hxs.ahead.trans h₁
      have hstops : c₂.mark.index ≤ next.start.index := by
        rw [hstart']
        exact h₃.index_le
      unfold continuationLines at h
      simp only at h
      split at h
      · cases h
      rw [hstart, hstop, hc.drop_bytes] at h
      rcases hnext with horigin | ⟨d, hd, hmark, hspace⟩
      · -- nothing stands in front of the next token
        have hzero : c₂.mark.index ≤ 0 := by
          rw [horigin] at hstops
          exact hstops
        rw [show c₂.mark.index - 1 - c₁.mark.index = 0 by omega] at h
        simp [linesBehind] at h
      · have hcd : c₁.Ahead d := by
          rw [Cursor.eq_of_index_eq hd ((hc.trans h₂).trans h₃)
            (congrArg Mark.index (hmark.symm.trans hstart'))]
          exact h₂.trans h₃
        have hle := h₂.index_le
        rw [hmark] at hstops ⊢
        exact le_reported_of_mem_linesBehind hcd hspace (by omega) (Nat.le_refl _) h

end

end YamlLinter
