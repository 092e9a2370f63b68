import YamlLinter.Proofs.ByteOrderMark
import YamlLinter.Proofs.MarkedCharacter

/-!
# Physical lines tile the source

The lines of a source are found in one pass that keeps what has been read of a line. Here they are
described by the text alone: a line is what stands in front of a line end, a line end is a line feed
with the carriage return in front of it, if there is one, and the last line has none. Put together,
the lines and the line ends are the source, so every offset of a line is a place between characters.

## Contents

* `EndsLine`: what may end a line;
* `Tiled`: the lines of a text and their ends, one behind the other;
* `exists_tiled_all`: the lines of a source tile it;
* `Tiled.drop`, `Tiled.uncons`: the text from a line on, and its first line;
* `Line.LiesIn`, `exists_liesIn`: a line in its source;
* `exists_endsLine_between`: what stands between a line and the next one;
* `lines_tile_source`: the lines of a source.
-/

namespace YamlLinter

open Text

variable {number start i : Nat} {text e rest : List Char} {l m : Line} {lines : List Line}
  {ends : List (List Char)}

/-! ## Lines one behind the other -/

/-- What may end a line of the given text. A carriage return in front of the line feed is never part
of the line. -/
def EndsLine (text e : List Char) : Prop :=
  e = ['\n'] ∧ text.getLast? ≠ some '\r' ∨ e = ['\r', '\n']

/-- The lines of a text, and what ends each of them. The text starts at the byte `start`, and its
first line has the given number. -/
inductive Tiled : (number start : Nat) → (text : List Char) → List Line → List (List Char) → Prop
  | last {number start : Nat} {text : List Char} (htext : '\n' ∉ text) :
      Tiled number start text [.make number start text] [[]]
  | cons {number start : Nat} {text e rest : List Char} {lines : List Line}
      {ends : List (List Char)} (htext : '\n' ∉ text) (hend : EndsLine text e)
      (hrest : Tiled (number + 1) (start + byteCount (text ++ e)) rest lines ends) :
      Tiled number start (text ++ (e ++ rest)) (.make number start text :: lines) (e :: ends)

theorem count_of_endsLine (h : EndsLine text e) : e.count '\n' = 1 := by
  rcases h with ⟨rfl, -⟩ | rfl <;> rfl

theorem byteCount_of_endsLine (h : EndsLine text e) : byteCount e = e.length := by
  rcases h with ⟨rfl, -⟩ | rfl <;> rfl

/-- What ends a line is a line feed at last. -/
theorem exists_feed_of_endsLine (h : EndsLine text e) :
    ∃ front, e = front ++ ['\n'] ∧ '\n' ∉ front := by
  rcases h with ⟨rfl, -⟩ | rfl
  · exact ⟨[], rfl, List.not_mem_nil⟩
  · exact ⟨['\r'], rfl, by decide⟩

theorem byteCount_reverse (text : List Char) : byteCount text.reverse = byteCount text := by
  induction text with
  | nil => rfl
  | cons ch text ih =>
    rw [List.reverse_cons, byteCount_append, ih, byteCount, byteCount, byteCount, Nat.add_zero,
      Nat.add_comm]

/-- What has been read of a line when its line feed comes, without and with its end. -/
theorem exists_endsLine (read : List Char) :
    ∃ e, EndsLine (Line.dropReturn read).reverse e ∧
      read.reverse ++ ['\n'] = (Line.dropReturn read).reverse ++ e := by
  unfold Line.dropReturn
  split
  · rename_i rest
    exact ⟨['\r', '\n'], .inr rfl, by simp⟩
  · rename_i hreturn
    refine ⟨['\n'], .inl ⟨rfl, ?_⟩, rfl⟩
    rw [List.getLast?_reverse, Ne, List.head?_eq_some_iff]
    rintro ⟨rest, rfl⟩
    exact hreturn rest rfl

theorem exists_tiled_allFrom (number start : Nat) {read : List Char} (hread : '\n' ∉ read)
    (text : List Char) :
    ∃ ends, Tiled number start (read.reverse ++ text) (Line.allFrom number start read text) ends := by
  induction text generalizing number start read with
  | nil =>
    rw [List.append_nil]
    exact ⟨[[]], .last (by simpa using hread)⟩
  | cons ch text ih =>
    rw [Line.allFrom]
    split
    · -- the line is over, and what has been read is the line with a carriage return that may end it
      rename_i hch
      obtain rfl := eq_of_beq hch
      obtain ⟨e, hend, hsplit⟩ := exists_endsLine read
      obtain ⟨ends, hrest⟩ := ih (number + 1) (start + byteCount read + 1) List.not_mem_nil
      have hline : '\n' ∉ (Line.dropReturn read).reverse := by
        intro hmem
        have hcount := congrArg (List.count '\n') hsplit
        rw [List.count_append, List.count_append, count_of_endsLine hend, List.count_reverse,
          List.count_eq_zero.2 hread, List.count_singleton_self] at hcount
        have := List.count_pos_iff.2 hmem
        omega
      have hstart : start + byteCount read + 1 =
          start + byteCount ((Line.dropReturn read).reverse ++ e) := by
        rw [← hsplit, byteCount_append, byteCount_reverse]
        rfl
      have htext : read.reverse ++ '\n' :: text = (Line.dropReturn read).reverse ++ (e ++ text) := by
        rw [← List.append_assoc, ← hsplit, List.append_assoc]
        rfl
      rw [hstart] at hrest ⊢
      rw [htext]
      exact ⟨e :: ends, .cons hline hend hrest⟩
    · rename_i hch
      have hmore : '\n' ∉ ch :: read := by
        rw [List.mem_cons, not_or]
        exact ⟨fun heq => hch (heq ▸ beq_self_eq_true _), hread⟩
      obtain ⟨ends, htiled⟩ := ih number start hmore
      rw [List.reverse_cons, List.append_assoc] at htiled
      exact ⟨ends, htiled⟩

/-- The lines of a source tile it. -/
theorem exists_tiled_all (source : List Char) : ∃ ends, Tiled 1 0 source (Line.all source) ends :=
  exists_tiled_allFrom 1 0 List.not_mem_nil source

namespace Tiled

variable (h : Tiled number start text lines ends)
include h

theorem length_ends : ends.length = lines.length := by
  induction h with
  | last htext => rfl
  | cons htext hend hrest ih => exact congrArg (· + 1) ih

theorem getLast?_ends : ends.getLast? = some [] := by
  induction h with
  | last htext => rfl
  | cons htext hend hrest ih => rw [List.getLast?_cons, ih, Option.getD_some]

/-- Put together, the lines and their ends are the text. -/
theorem flatten_eq : (List.zipWith (fun l e => l.text ++ e) lines ends).flatten = text := by
  induction h with
  | last htext => simp [Line.make]
  | cons htext hend hrest ih =>
    rw [List.zipWith_cons_cons, List.flatten_cons, ih, List.append_assoc]
    rfl

/-- The text from a line on: as many line feeds stand in front of it as lines do. -/
theorem drop (hl : lines[i]? = some l) :
    ∃ before rest, text = before ++ rest ∧ before.count '\n' = i ∧
      Tiled (number + i) (start + byteCount before) rest (l :: lines.drop (i + 1)) (ends.drop i) := by
  induction h generalizing i with
  | @last number start text htext =>
    cases i with
    | zero =>
      cases hl
      exact ⟨[], text, rfl, rfl, .last htext⟩
    | succ i => cases hl
  | @cons number start text e rest lines ends htext hend hrest ih =>
    cases i with
    | zero =>
      cases hl
      exact ⟨[], _, rfl, rfl, .cons htext hend hrest⟩
    | succ i =>
      obtain ⟨before, rest', rfl, hcount, htiled⟩ := ih hl
      refine ⟨text ++ e ++ before, rest', by simp, ?_, ?_⟩
      · rw [List.count_append, List.count_append, List.count_eq_zero.2 htext,
          count_of_endsLine hend, hcount]
        omega
      · rw [byteCount_append, ← Nat.add_assoc, ← Nat.add_assoc, Nat.add_right_comm number i 1]
        exact htiled

/-- No line of a text starts before the text does. -/
theorem start_le : ∀ l ∈ lines, start ≤ l.start := by
  induction h with
  | last htext =>
    intro l hl
    rw [List.mem_singleton.1 hl]
    exact Nat.le_refl _
  | cons htext hend hrest ih =>
    intro l hl
    rcases List.mem_cons.1 hl with rfl | hl
    · exact Nat.le_refl _
    · exact Nat.le_trans (Nat.le_add_right _ _) (ih l hl)

theorem start_head? : lines.head?.map Line.start = some start := by
  cases h <;> rfl

theorem stop_getLast? : lines.getLast?.map Line.stop = some (start + byteCount text) := by
  induction h with
  | last htext => rfl
  | @cons number start text e rest lines ends htext hend hrest ih =>
    obtain ⟨last, hlast, hstop⟩ := Option.map_eq_some_iff.1 ih
    rw [List.getLast?_cons, hlast, Option.getD_some, Option.map_some, hstop, ← List.append_assoc,
      byteCount_append _ rest, Nat.add_assoc]

omit h

/-- The first line, what ends it, and the lines behind it. -/
theorem uncons (h : Tiled number start text (l :: lines) ends) :
    l = .make number start l.text ∧ '\n' ∉ l.text ∧
      ∃ e rest ends', ends = e :: ends' ∧ text = l.text ++ (e ++ rest) ∧
        (lines = [] ∧ e = [] ∧ rest = [] ∨
          EndsLine l.text e ∧ Tiled (number + 1) (l.stop + byteCount e) rest lines ends') := by
  cases h with
  | last htext => exact ⟨rfl, htext, [], [], [], rfl, (List.append_nil _).symm, .inl ⟨rfl, rfl, rfl⟩⟩
  | @cons _ _ line e rest _ ends' htext hend hrest =>
    refine ⟨rfl, htext, e, rest, ends', rfl, rfl, .inr ⟨hend, ?_⟩⟩
    rw [byteCount_append, ← Nat.add_assoc] at hrest
    exact hrest

end Tiled

/-! ## A line in its source -/

/-- The line stands in a text between `before` and `behind`. -/
structure Line.LiesIn (text before behind : List Char) (l : Line) : Prop where
  split : text = before ++ (l.text ++ behind)
  start : l.start = byteCount before
  stop : l.stop = byteCount before + byteCount l.text
  /-- The line feeds in front of the line tell its number. -/
  number : l.number = before.count '\n' + 1
  feed : '\n' ∉ l.text
  behind : behind = [] ∨ ∃ e rest, EndsLine l.text e ∧ behind = e ++ rest

theorem exists_liesIn {source : List Char} (h : l ∈ Line.all source) :
    ∃ before behind, l.LiesIn source before behind := by
  obtain ⟨ends, htiled⟩ := exists_tiled_all source
  obtain ⟨i, hl⟩ := List.getElem?_of_mem h
  obtain ⟨before, text, hsplit, hcount, hfrom⟩ := htiled.drop hl
  obtain ⟨hline, hfeed, e, rest, _, -, htext, hend⟩ := hfrom.uncons
  -- the line is the first one of the text from its own start on
  refine ⟨before, e ++ rest, by rw [hsplit, htext], ?_, ?_, ?_, hfeed, ?_⟩
  · rw [hline, Line.make, Nat.zero_add]
  · rw [hline, Line.make, Nat.zero_add]
  · rw [hline, Line.make, hcount, Nat.add_comm]
  · rcases hend with ⟨-, rfl, rfl⟩ | ⟨hend, -⟩
    · exact .inl rfl
    · exact .inr ⟨e, rest, hend, rfl⟩

/-- The end of a line is what stands between it and the next one. -/
theorem exists_endsLine_between {source : List Char}
    (h : Tiled 1 0 source (Line.all source) ends) (hl : (Line.all source)[i]? = some l)
    (hm : (Line.all source)[i + 1]? = some m) :
    ∃ e, ends[i]? = some e ∧ EndsLine l.text e ∧ m.start = l.stop + byteCount e ∧
      ∃ before rest, source = before ++ (e ++ rest) ∧ byteCount before = l.stop := by
  obtain ⟨before, text, hsplit, -, hfrom⟩ := h.drop hl
  obtain ⟨hline, -, e, rest, ends', hends, htext, hend⟩ := hfrom.uncons
  have htail : ((Line.all source).drop (i + 1)).head? = some m := by rw [List.head?_drop, hm]
  rcases hend with ⟨hnil, -, -⟩ | ⟨hend, hrest⟩
  · rw [hnil] at htail
    cases htail
  · have hstart := hrest.start_head?
    rw [htail, Option.map_some, Option.some_inj] at hstart
    refine ⟨e, ?_, hend, hstart, before ++ l.text, rest, ?_, ?_⟩
    · rw [← List.head?_drop, hends]
      rfl
    · rw [hsplit, htext, List.append_assoc]
    · rw [hline, Line.make, byteCount_append, Nat.zero_add]

/-- The lines of a source tile it. There is one more of them than there are line feeds, and they are
numbered from one on. The first line starts at the start of the source, the last one ends at its end,
and no line holds a line feed. A line is the part of the source between its offsets, which are
boundaries of characters. Between a line and the next one stands its end, and nothing else: a line
feed, or a carriage return and a line feed. Put together, the lines and their ends, of which the last
is empty, are the source. -/
theorem lines_tile_source (source : String) :
    (Line.all source.toList).length = source.toList.count '\n' + 1 ∧
      (Line.all source.toList).map Line.number = List.range' 1 (Line.all source.toList).length ∧
      (Line.all source.toList).head?.map Line.start = some 0 ∧
      (Line.all source.toList).getLast?.map Line.stop = some source.utf8ByteSize ∧
      (∀ l ∈ Line.all source.toList, '\n' ∉ l.text ∧
        (String.Pos.Raw.extract source ⟨l.start⟩ ⟨l.stop⟩).toList = l.text ∧
        (⟨l.start⟩ : String.Pos.Raw).IsValid source ∧
        (⟨l.stop⟩ : String.Pos.Raw).IsValid source) ∧
      ∃ ends : List (List Char), ends.length = (Line.all source.toList).length ∧
        ends.getLast? = some [] ∧
        (List.zipWith (fun l e => l.text ++ e) (Line.all source.toList) ends).flatten =
          source.toList ∧
        ∀ i l m, (Line.all source.toList)[i]? = some l →
          (Line.all source.toList)[i + 1]? = some m →
          ∃ e, ends[i]? = some e ∧ (e = ['\n'] ∧ l.text.getLast? ≠ some '\r' ∨ e = ['\r', '\n']) ∧
            m.start = l.stop + e.length ∧
            (String.Pos.Raw.extract source ⟨l.stop⟩ ⟨m.start⟩).toList = e := by
  obtain ⟨ends, htiled⟩ := exists_tiled_all source.toList
  refine ⟨length_allFrom 1 0 [] source.toList, numbers_all source.toList, htiled.start_head?, ?_, ?_,
    ends, htiled.length_ends, htiled.getLast?_ends, htiled.flatten_eq, ?_⟩
  · rw [htiled.stop_getLast?, Nat.zero_add, byteCount_eq_utf8Len, String.utf8Len_toList]
  · intro l hl
    obtain ⟨before, behind, hlies⟩ := exists_liesIn hl
    have hstop : byteCount before + byteCount l.text = byteCount (before ++ l.text) :=
      (byteCount_append before l.text).symm
    rw [hlies.start, hlies.stop]
    refine ⟨hlies.feed, toList_extract hlies.split, isValid_byteCount hlies.split, ?_⟩
    rw [hstop]
    exact isValid_byteCount (hlies.split.trans (List.append_assoc _ _ _).symm)
  · intro i l m hl hm
    obtain ⟨e, he, hend, hstart, before, rest, hsplit, hstop⟩ :=
      exists_endsLine_between htiled hl hm
    refine ⟨e, he, hend, ?_, ?_⟩
    · rw [hstart, byteCount_of_endsLine hend]
    · rw [hstart, ← hstop]
      exact toList_extract hsplit

end YamlLinter
