import YamlLinter.Proofs.Scalars.Alone
import YamlLinter.Proofs.Tandem.Lexeme

/-!
# Block scalars decode to their lines

A list of lines is written below a header, each line that is not empty indented by the same number
of spaces. Reading it gives the lines back: joined by line feeds in the literal style, folded in the
folded style, and with the line feeds at the end that the header asks for.

The reader goes from one line of text to the next and takes the empty lines between them together.
So the induction over the lines carries the last line of text and the number of empty lines behind
it, as the description of the value does.

## Contents

* `indented`, `blockText`, `HeaderOf`: how lines are written;
* `lineJoint`, `joinFrom`, `joinLines`: the value of lines;
* `joinLines_literal`: in the literal style lines are joined by line feeds;
* `blockLines_lines`: what is read from a line of text on;
* `blockBody_lines`: what is read below a header;
* `blockHeader_of`, `block_of`: what is read of a header, and of a block scalar;
* `block_scalars_decode`: the scan of lines below a header.
-/

namespace YamlLinter

open Text
open Canonical (spaces)

/-! ## Writing lines -/

/-- The given number of line feeds. -/
def feeds (n : Nat) : List Char := List.replicate n '\n'

/-- A line below a header. Empty lines are not indented. -/
def indented (d : Nat) (line : List Char) : List Char :=
  if line = [] then ['\n'] else spaces d ++ line ++ ['\n']

/-- Lines below a header, with some line feeds behind them. -/
def blockText (d k : Nat) (lines : List (List Char)) : List Char :=
  lines.flatMap (indented d) ++ feeds k

/-- The indicator of a chomping in a header. -/
def Chomping.indicator : Chomping → List Char
  | .clip => []
  | .strip => ['-']
  | .keep => ['+']

/-- The first line of text shows the indentation: it has no space of its own at its start. -/
def Detectable (lines : List (List Char)) : Prop :=
  ∀ line, lines.find? (!·.isEmpty) = some line → line.head? ≠ some ' '

/-- The headers of lines that are indented by `d`, without the style. -/
inductive HeaderOf (chomping : Chomping) (d : Nat) (lines : List (List Char)) : List Char → Prop
    where
  | chompingFirst : d ≤ 9 → HeaderOf chomping d lines (chomping.indicator ++ [d.digitChar])
  | digitFirst : d ≤ 9 → HeaderOf chomping d lines (d.digitChar :: chomping.indicator)
  /-- Where no digit tells the indentation, the first line of text shows it. -/
  | detected : Detectable lines → HeaderOf chomping d lines chomping.indicator

/-! ## The value of lines -/

/-- Whether a line of text starts with a blank. -/
def startsBlank (line : List Char) : Bool := isBlank (line.headD nul)

/-- What stands between two lines of text with `e` empty lines between them. -/
def lineJoint (folded : Bool) (first next : List Char) (e : Nat) : List Char :=
  if folded && !startsBlank first && !startsBlank next then
    if e = 0 then [' '] else feeds e
  else
    feeds (e + 1)

/-- The value of lines behind a line of text and `e` empty lines. -/
def joinFrom (folded : Bool) (last : List Char) : Nat → List (List Char) → List Char
  | _, [] => []
  | e, [] :: lines => joinFrom folded last (e + 1) lines
  | e, line :: lines => lineJoint folded last line e ++ line ++ joinFrom folded line 0 lines

/-- The value of lines: those in front of the first line of text are line feeds. -/
def joinLines (folded : Bool) : List (List Char) → List Char
  | [] => []
  | [] :: lines => '\n' :: joinLines folded lines
  | line :: lines => line ++ joinFrom folded line 0 lines

/-- What a chomping leaves of the last line feed and of `k` more. -/
def Chomping.tail (k : Nat) : Chomping → List Char
  | .clip => feeds 1
  | .strip => []
  | .keep => feeds (k + 1)

variable {c : Cursor} {lines : List (List Char)} {u l r : List Char} {x : Char} {d e k : Nat}
  {folded : Bool} {chomping : Chomping} {header : List Char}

/-- A line of text. -/
structure IsText (line : List Char) : Prop where
  ne_nil : line ≠ []
  inline : ∀ ch ∈ line, Inline ch

/-- The last of the lines, if there is one, is a line of text. -/
def EndInText (lines : List (List Char)) : Prop := ∀ line, lines.getLast? = some line → line ≠ []

theorem EndInText.tail (h : EndInText (l :: lines)) : EndInText lines := by
  intro line hline
  refine h line ?_
  rw [List.getLast?_cons, hline]
  rfl

theorem EndInText.tail_ne_nil (h : EndInText ([] :: lines)) : lines ≠ [] := by
  rintro rfl
  exact h [] rfl rfl

/-- Empty lines in front of a line of text. -/
theorem exists_first_text (h : EndInText lines) (hne : lines ≠ []) :
    ∃ e l more, lines = List.replicate e [] ++ l :: more ∧ l ≠ [] ∧ EndInText more := by
  induction lines with
  | nil => exact absurd rfl hne
  | cons l lines ih =>
    by_cases hl : l = []
    · subst hl
      obtain ⟨e, l, more, rfl, hmore⟩ := ih h.tail h.tail_ne_nil
      exact ⟨e + 1, l, more, rfl, hmore⟩
    · exact ⟨0, l, lines, rfl, hl, h.tail⟩

theorem joinFrom_text (hl : l ≠ []) :
    joinFrom folded u e (l :: lines) = lineJoint folded u l e ++ l ++ joinFrom folded l 0 lines := by
  cases l with
  | nil => exact absurd rfl hl
  | cons ch l => rfl

theorem joinLines_empties (hl : l ≠ []) :
    joinLines folded (List.replicate e [] ++ l :: lines) =
      feeds e ++ l ++ joinFrom folded l 0 lines := by
  induction e with
  | zero =>
    cases l with
    | nil => exact absurd rfl hl
    | cons ch l => rfl
  | succ e ih =>
    show '\n' :: joinLines folded (List.replicate e [] ++ l :: lines) = _
    rw [ih]
    rfl

theorem blockText_empties (hl : l ≠ []) :
    blockText d k (List.replicate e [] ++ l :: lines) =
      feeds e ++ (spaces d ++ (l ++ '\n' :: blockText d k lines)) := by
  induction e with
  | zero => simp [blockText, indented, hl, feeds]
  | succ e ih =>
    show '\n' :: blockText d k (List.replicate e [] ++ l :: lines) = _
    rw [ih]
    rfl

/-! ### The literal style -/

theorem intercalate_empties :
    ['\n'].intercalate (u :: (List.replicate e [] ++ l :: lines)) =
      u ++ feeds (e + 1) ++ ['\n'].intercalate (l :: lines) := by
  induction e generalizing u with
  | zero => rw [List.replicate_zero, List.nil_append, List.intercalate_cons_cons]; rfl
  | succ e ih =>
    rw [List.replicate_succ, List.cons_append, List.intercalate_cons_cons, ih]
    simp [feeds, List.replicate_succ]

theorem joinFrom_literal (h : EndInText lines) (he : lines = [] → e = 0) :
    u ++ joinFrom false u e lines = ['\n'].intercalate (u :: (List.replicate e [] ++ lines)) := by
  induction lines generalizing u e with
  | nil =>
    obtain rfl := he rfl
    rw [joinFrom, List.append_nil]
    exact List.intercalate_singleton.symm
  | cons l lines ih =>
    by_cases hl : l = []
    · subst hl
      rw [joinFrom, ih h.tail fun hnil => absurd hnil h.tail_ne_nil, List.replicate_succ',
        List.append_assoc]
      rfl
    · have hrest : l ++ joinFrom false l 0 lines = ['\n'].intercalate (l :: lines) :=
        ih h.tail fun _ => rfl
      rw [joinFrom_text hl, intercalate_empties, ← hrest, List.append_assoc, List.append_assoc]
      rfl

/-- In the literal style the lines are joined by line feeds. -/
theorem joinLines_literal (h : EndInText lines) :
    joinLines false lines = ['\n'].intercalate lines := by
  induction lines with
  | nil => rfl
  | cons l lines ih =>
    by_cases hl : l = []
    · subst hl
      rw [joinLines, ih h.tail, List.intercalate_cons_of_ne_nil h.tail_ne_nil]
      rfl
    · have hjoin : joinLines false (l :: lines) = l ++ joinFrom false l 0 lines :=
        joinLines_empties (e := 0) hl
      rw [hjoin, joinFrom_literal h.tail fun _ => rfl]
      rfl

/-! ## Reading lines -/

namespace Cursor

theorem lineBreak?_feed (hc : c.rest = '\n' :: r) : c.lineBreak? = some ('\n', c.forward 1) := by
  simp [lineBreak?, Canonical.peek_eq hc]

theorem column_feed (hc : c.rest = '\n' :: r) : (c.forward 1).column = 0 := by
  rw [column, (Canonical.forward_newline hc).2.1]
  rfl

/-- The cursor stands in a column, in front of a text. -/
structure At (c : Cursor) (n : Nat) (text : List Char) : Prop where
  column : c.column = n
  rest : c.rest = text

theorem takeWhile_spaces :
    (spaces d ++ r).takeWhile (· == ' ') = spaces d ++ r.takeWhile (· == ' ') := by
  apply List.takeWhile_append_of_pos
  intro ch hch
  rw [List.eq_of_mem_replicate hch]
  rfl

/-- Spaces up to the indentation. Those behind it belong to the text. -/
theorem skipIndent_spaces (hc : c.At 0 (spaces d ++ r)) : (c.skipIndent d).At d r := by
  obtain ⟨hcol, hrest⟩ := hc
  have hmin : min (c.rest.takeWhile (· == ' ')).length (d - c.column) = (spaces d).length := by
    rw [hrest, takeWhile_spaces, hcol, List.length_append, spaces, List.length_replicate]
    omega
  obtain ⟨hafter, hmark, -⟩ :=
    Canonical.forward_narrow hrest fun ch hch => Canonical.narrow_of_mem_spaces hch
  rw [skipIndent, hmin]
  refine ⟨?_, hafter⟩
  show (c.forward (spaces d).length).mark.column = d
  rw [hmark]
  show c.column + (spaces d).length = d
  rw [hcol, spaces, List.length_replicate, Nat.zero_add]

theorem peek_text (hc : c.rest = l ++ r) (hl : l ≠ []) : c.peek = l.headD nul := by
  obtain ⟨x, l, rfl⟩ := List.exists_cons_of_ne_nil hl
  exact Canonical.peek_eq hc

theorem inline_peek (hc : c.rest = l ++ r) (hl : IsText l) : Inline c.peek := by
  obtain ⟨x, l, rfl⟩ := List.exists_cons_of_ne_nil hl.ne_nil
  rw [Canonical.peek_eq hc]
  exact hl.inline x List.mem_cons_self

theorem lineBreak?_text (hc : c.rest = l ++ r) (hl : IsText l) : c.lineBreak? = none :=
  lineBreak?_of_not_break (inline_peek hc hl).2

theorem atBlockLine_text (hc : c.At d (l ++ r)) (hl : IsText l) : c.atBlockLine d = true := by
  simp [atBlockLine, hc.column, (inline_peek hc.rest hl).1]

theorem At.forward_feeds (hc : c.At 0 (feeds e ++ r)) : (c.forward e).At 0 r := by
  induction e generalizing c with
  | zero => exact hc
  | succ e ih =>
    have hrest : c.rest = '\n' :: (feeds e ++ r) := hc.rest
    exact ih (c := c.forward 1) ⟨column_feed hrest, (Canonical.forward_newline hrest).1⟩

/-- Empty lines up to a line that is not empty, or up to the end. -/
theorem indentedBreaks_feeds (hc : c.rest = feeds e ++ r)
    (hend : ((c.forward e).skipIndent d).lineBreak? = none) :
    c.indentedBreaks d c.mark =
      ⟨feeds e, (c.forward e).mark, (c.forward e).skipIndent d⟩ := by
  induction e generalizing c with
  | zero =>
    have hhere : (c.skipIndent d).lineBreak? = none := hend
    rw [indentedBreaks_eq, hhere]
    rfl
  | succ e ih =>
    have hrest : c.rest = '\n' :: (feeds e ++ r) := hc
    have hskip : c.skipIndent d = c := by
      rw [skipIndent, hrest, List.takeWhile_cons_of_neg (by decide), List.length_nil, Nat.zero_min]
      rfl
    have hmore := ih (c := c.forward 1) (Canonical.forward_newline hrest).1 hend
    rw [indentedBreaks_eq, hskip, lineBreak?_feed hrest]
    simp only [hmore]
    rfl

/-- Empty lines in front of a line of text. -/
theorem indentedBreaks_text (hc : c.At 0 (feeds e ++ (spaces d ++ (l ++ r)))) (hl : IsText l) :
    ∃ stop c', c.indentedBreaks d c.mark = ⟨feeds e, stop, c'⟩ ∧ c'.At d (l ++ r) := by
  have htext := skipIndent_spaces hc.forward_feeds
  exact ⟨_, _, indentedBreaks_feeds hc.rest (lineBreak?_text htext.rest hl), htext⟩

/-- Empty lines at the end of the text. -/
theorem indentedBreaks_end (hc : c.At 0 (feeds k)) :
    ∃ c', c.indentedBreaks d c.mark = ⟨feeds k, c'.mark, c'⟩ ∧ c'.rest = [] := by
  have hall : c.At 0 (feeds k ++ []) := by rwa [List.append_nil]
  have hrest : (c.forward k).rest = [] := hall.forward_feeds.rest
  have hskip : (c.forward k).skipIndent d = c.forward k := by
    rw [skipIndent, hrest, List.takeWhile_nil, List.length_nil, Nat.zero_min]
    rfl
  have hbreak : ((c.forward k).skipIndent d).lineBreak? = none := by
    rw [hskip]
    apply lineBreak?_of_not_break
    rw [Canonical.peek_nil hrest]
    rfl
  have hlines := indentedBreaks_feeds hall.rest hbreak
  rw [hskip] at hlines
  exact ⟨c.forward k, hlines, hrest⟩

/-- Empty lines in front of a line of text that shows the indentation. The spaces in front of it are
read together with the empty lines, and the deepest column is theirs. -/
theorem leadingBreaks_text (hc : c.At 0 (feeds e ++ (spaces d ++ (l ++ r)))) (hl : IsText l)
    (hspace : l.head? ≠ some ' ') (hd : 1 ≤ d) :
    ∃ stop c', c.leadingBreaks 0 c.mark = (⟨feeds e, stop, c'⟩, d) ∧ c'.At d (l ++ r) := by
  induction e generalizing c with
  | zero =>
    have hrest : c.rest = spaces d ++ (l ++ r) := hc.rest
    have htake : c.rest.takeWhile (· == ' ') = spaces d := by
      obtain ⟨x, l, rfl⟩ := List.exists_cons_of_ne_nil hl.ne_nil
      have hx : x ≠ ' ' := fun hx => hspace (congrArg some hx)
      rw [hrest, takeWhile_spaces, List.cons_append,
        List.takeWhile_cons_of_neg (by simpa using hx), List.append_nil]
    have hpeek : c.peek = ' ' := by
      obtain ⟨n, rfl⟩ := Nat.exists_eq_add_of_le' hd
      exact Canonical.peek_eq hrest
    -- the skipped spaces are the indentation of the text
    have htext : (c.skipWhile (· == ' ')).At d (l ++ r) := by
      have hsame : c.skipWhile (· == ' ') = c.skipIndent d := by
        rw [skipWhile, skipIndent, htake, hc.column, spaces, List.length_replicate, Nat.sub_zero,
          Nat.min_self]
      rw [hsame]
      exact skipIndent_spaces hc
    refine ⟨c.mark, _, ?_, htext⟩
    rw [leadingBreaks_eq]
    simp only [lineBreak?_text htext.rest hl, hpeek, htext.column]
    simp [feeds]
  | succ e ih =>
    -- an empty line has no spaces, so the deepest column is told by those behind it
    have hrest : c.rest = '\n' :: (feeds e ++ (spaces d ++ (l ++ r))) := hc.rest
    have hskip : c.skipWhile (· == ' ') = c := by
      rw [skipWhile, hrest, List.takeWhile_cons_of_neg (by decide)]
      rfl
    have hnone : (c.peek == ' ') = false := by
      rw [Canonical.peek_eq hrest]
      rfl
    obtain ⟨stop, c', hmore, htext⟩ :=
      ih (c := c.forward 1) ⟨column_feed hrest, (Canonical.forward_newline hrest).1⟩
    refine ⟨stop, c', ?_, htext⟩
    rw [leadingBreaks_eq, hskip, lineBreak?_feed hrest]
    simp only [hnone, Bool.false_eq_true, if_false, hmore]
    rfl

/-- A line of text and its line feed. -/
theorem line_text (hc : c.rest = u ++ '\n' :: r) (hu : ∀ ch ∈ u, Inline ch) :
    c.rest.takeWhile (!isLineEnd ·) = u ∧
      ∃ c₁, c.skipLine.lineBreak? = some ('\n', c₁) ∧ c₁.At 0 r := by
  have hall : ∀ ch ∈ u, (!isLineEnd ch) = true := by
    intro ch hch
    rw [isLineEnd_of_inline (hu ch hch)]
    rfl
  have htake : c.rest.takeWhile (!isLineEnd ·) = u := by
    rw [hc, List.takeWhile_append_of_pos hall, List.takeWhile_cons_of_neg (by decide),
      List.append_nil]
  have hline : c.skipLine.rest = '\n' :: r := by
    rw [skipLine, skipWhile, htake, rest_forward, hc, List.drop_left]
  exact ⟨htake, _, lineBreak?_feed hline, column_feed hline, (Canonical.forward_newline hline).1⟩

/-- The joint that is read between two lines of text, with the empty lines behind it. -/
theorem blockJoint_feeds :
    blockJoint folded (u.headD nul) (l.headD nul) '\n' (feeds e) ++ feeds e =
      lineJoint folded u l e := by
  unfold blockJoint lineJoint startsBlank
  rw [beq_self_eq_true, Bool.and_true]
  split
  · cases e <;> rfl
  · rfl

/-- Lines from a line of text on, with `e` empty lines behind it. -/
theorem blockLines_lines (hc : c.rest = u ++ '\n' :: (feeds e ++ blockText d k lines))
    (hu : IsText u) (hlines : ∀ l ∈ lines, ∀ ch ∈ l, Inline ch) (hlast : EndInText lines)
    (he : lines = [] → e = 0) :
    ∃ c', c.blockLines folded d =
      ⟨u ++ joinFrom folded u e lines, some '\n', feeds k, c'.mark, c'⟩ ∧ c'.rest = [] := by
  induction lines generalizing c u e with
  | nil =>
    obtain rfl := he rfl
    obtain ⟨htake, c₁, hbreak, hnext⟩ := line_text hc hu.inline
    obtain ⟨c', hempty, hend⟩ := indentedBreaks_end (d := d) hnext
    have hover : c'.atBlockLine d = false := by
      simp [atBlockLine, Canonical.peek_nil hend]
    refine ⟨c', ?_, hend⟩
    rw [blockLines_eq, hbreak]
    simp only [hempty, hover, htake, joinFrom, List.append_nil]
    rfl
  | cons l lines ih =>
    have hmore : ∀ l ∈ lines, ∀ ch ∈ l, Inline ch :=
      fun l hl => hlines l (List.mem_cons_of_mem _ hl)
    by_cases hnil : l = []
    · subst hnil
      -- one more empty line behind the same line of text
      have hrest : c.rest = u ++ '\n' :: (feeds (e + 1) ++ blockText d k lines) := by
        rw [hc]
        simp [blockText, indented, feeds, List.replicate_succ']
      exact ih hrest hu hmore hlast.tail fun hnil => absurd hnil hlast.tail_ne_nil
    · have hl : IsText l := ⟨hnil, hlines l List.mem_cons_self⟩
      have htext : blockText d k (l :: lines) = spaces d ++ (l ++ '\n' :: blockText d k lines) :=
        blockText_empties (e := 0) hnil
      obtain ⟨htake, c₁, hbreak, hnext⟩ := line_text hc hu.inline
      rw [htext] at hnext
      obtain ⟨stop, c₂, hempty, hnext⟩ := indentedBreaks_text hnext hl
      obtain ⟨c', hread, hend⟩ := ih hnext.rest hl hmore hlast.tail fun _ => rfl
      refine ⟨c', ?_, hend⟩
      rw [blockLines_eq, hbreak]
      simp only [hempty, atBlockLine_text hnext hl, if_true, hread, htake, joinFrom_text hnil,
        peek_text hc hu.ne_nil, peek_text hnext.rest hnil, ← blockJoint_feeds, List.append_assoc]

/-- Lines below a header, from the first line of text on. -/
theorem blockBody_lines (folded : Bool) (e : Nat) (stop : Mark)
    (hc : c.At d (l ++ '\n' :: blockText d k lines)) (hl : IsText l)
    (hlines : ∀ l ∈ lines, ∀ ch ∈ l, Inline ch) (hlast : EndInText lines) :
    ∃ c', blockBody ⟨feeds e, stop, c⟩ folded d =
      ⟨feeds e ++ (l ++ joinFrom folded l 0 lines), some '\n', feeds k, c'.mark, c'⟩ ∧
        c'.rest = [] := by
  obtain ⟨c', hread, hend⟩ := blockLines_lines (e := 0) hc.rest hl hlines hlast fun _ => rfl
  refine ⟨c', ?_, hend⟩
  rw [blockBody, if_pos (atBlockLine_text hc hl), hread]

/-! ## Reading headers -/

theorem rest_behind (hc : c.rest = x :: r) : (c.forward 1).rest = r := by
  rw [rest_forward, hc]
  rfl

/-- The digit of an indentation. -/
theorem blockIncrement_digit (hc : c.rest = d.digitChar :: r) (hd : 1 ≤ d) (hd' : d ≤ 9) :
    chompingOf c.peek = none ∧ c.blockIncrement = .ok (some d, c.forward 1) := by
  have hdigit : ∀ n < 10, 1 ≤ n → chompingOf n.digitChar = none ∧ n.digitChar.isDigit = true ∧
      (n.digitChar == '0') = false ∧ n.digitChar.toNat - '0'.toNat = n := by decide
  obtain ⟨hchomping, hisDigit, hzero, hvalue⟩ := hdigit d (by omega) hd
  rw [blockIncrement, Canonical.peek_eq hc, hisDigit, hzero, hvalue]
  exact ⟨hchomping, rfl⟩

/-- Behind the indicators the line ends. -/
theorem blockIncrement_feed (hc : c.rest = '\n' :: r) :
    chompingOf c.peek = none ∧ c.blockIncrement = .ok (none, c) := by
  rw [blockIncrement, Canonical.peek_eq hc]
  exact ⟨rfl, rfl⟩

/-- A chomping has an indicator, unless it is to clip. -/
theorem chompingOf_indicator (chomping : Chomping) :
    chomping = .clip ∧ chomping.indicator = [] ∨
      ∃ ch, chomping.indicator = [ch] ∧ chompingOf ch = some chomping := by
  cases chomping with
  | clip => exact .inl ⟨rfl, rfl⟩
  | strip => exact .inr ⟨'-', rfl, rfl⟩
  | keep => exact .inr ⟨'+', rfl, rfl⟩

/-- The indicators of a header. -/
theorem blockIndicators_of (hc : c.rest = header ++ '\n' :: r) (hd : 1 ≤ d)
    (h : HeaderOf chomping d lines header) :
    ∃ increment c₁, c.blockIndicators = .ok (⟨chomping, increment⟩, c₁) ∧ c₁.rest = '\n' :: r ∧
      (increment = some d ∨ increment = none ∧ Detectable lines) := by
  -- the chomping indicator may be missing, and may stand on either side of the digit
  unfold blockIndicators
  rcases chompingOf_indicator chomping with ⟨rfl, hnone⟩ | ⟨ch, hone, hch⟩
  · cases h with
    | chompingFirst hd' | digitFirst hd' =>
      rw [hnone] at hc
      obtain ⟨hfirst, hdigit⟩ := blockIncrement_digit hc hd hd'
      obtain ⟨hsecond, -⟩ := blockIncrement_feed (rest_behind hc)
      simp only [hfirst, hdigit, hsecond]
      exact ⟨_, _, rfl, rest_behind hc, .inl rfl⟩
    | detected hshown =>
      rw [hnone] at hc
      obtain ⟨hfirst, hdigit⟩ := blockIncrement_feed hc
      simp only [hfirst, hdigit]
      exact ⟨_, _, rfl, hc, .inr ⟨rfl, hshown⟩⟩
  · cases h with
    | chompingFirst hd' =>
      rw [hone] at hc
      obtain ⟨-, hdigit⟩ := blockIncrement_digit (rest_behind hc) hd hd'
      simp only [Canonical.peek_eq hc, hch, hdigit]
      exact ⟨_, _, rfl, rest_behind (rest_behind hc), .inl rfl⟩
    | digitFirst hd' =>
      rw [hone] at hc
      obtain ⟨hfirst, hdigit⟩ := blockIncrement_digit hc hd hd'
      simp only [hfirst, hdigit, Canonical.peek_eq (rest_behind hc), hch]
      exact ⟨_, _, rfl, rest_behind (rest_behind hc), .inl rfl⟩
    | detected hshown =>
      rw [hone] at hc
      obtain ⟨-, hdigit⟩ := blockIncrement_feed (rest_behind hc)
      simp only [Canonical.peek_eq hc, hch, hdigit]
      exact ⟨_, _, rfl, rest_behind hc, .inr ⟨rfl, hshown⟩⟩

/-- A header with its line feed. -/
theorem blockHeader_of (hc : c.rest = header ++ '\n' :: r) (hd : 1 ≤ d)
    (h : HeaderOf chomping d lines header) :
    ∃ increment c₁, c.blockHeader = .ok (⟨chomping, increment⟩, none, c₁) ∧ c₁.At 0 r ∧
      (increment = some d ∨ increment = none ∧ Detectable lines) := by
  obtain ⟨increment, c₁, hread, hrest, hincrement⟩ := blockIndicators_of hc hd h
  have htail : c₁.lineTail = .ok (none, c₁.forward 1) := by
    have hskip : c₁.skipWhile isBlank = c₁ := by
      rw [skipWhile, hrest, List.takeWhile_cons_of_neg (by decide)]
      rfl
    simp only [lineTail, hskip, Canonical.peek_eq hrest, skipBreak, lineBreak?_feed hrest]
    rfl
  have hend : isBlankOrEnd c₁.peek = true := by
    rw [Canonical.peek_eq hrest]
    rfl
  refine ⟨increment, c₁.forward 1, ?_, ⟨column_feed hrest, rest_behind hrest⟩, hincrement⟩
  simp only [blockHeader, hread, hend, if_true, htail]

/-! ## Reading block scalars -/

theorem blockValue_feeds (text : List Char) (stop : Mark) (c : Cursor) (chomping : Chomping) :
    blockValue ⟨text, some '\n', feeds k, stop, c⟩ chomping = text ++ chomping.tail k := by
  cases chomping with
  | clip => rfl
  | strip => exact (List.append_nil text).symm
  | keep => exact List.append_assoc text ['\n'] (feeds k)

/-- A block scalar up to the end of the text. -/
theorem block_of (hc : c.rest = blockMark folded :: (header ++ '\n' :: blockText d k lines))
    (hd : 1 ≤ d) (h : HeaderOf chomping d lines header)
    (hlines : ∀ l ∈ lines, ∀ ch ∈ l, Inline ch) (hlast : EndInText lines) (hne : lines ≠ []) :
    ∃ c', c'.rest = [] ∧ c.block folded (-1) = .ok
      (⟨.scalar (String.ofList (joinLines folded lines ++ chomping.tail k))
        (if folded then .folded else .literal), c.mark, c'.mark⟩, none, c') := by
  obtain ⟨increment, c₁, hheader, hbelow, hincrement⟩ := blockHeader_of (rest_behind hc) hd h
  obtain ⟨e, l, more, rfl, hnil, hends⟩ := exists_first_text hlast hne
  have hl : IsText l := ⟨hnil, hlines l (by simp)⟩
  have hmore : ∀ l ∈ more, ∀ ch ∈ l, Inline ch := by
    intro l hl
    exact hlines l (by simp [hl])
  rw [blockText_empties hnil] at hbelow
  rw [joinLines_empties hnil]
  unfold block
  simp only [hheader]
  rcases hincrement with rfl | ⟨rfl, hshown⟩
  -- outside of all collections the header gives the indentation itself
  · obtain ⟨stop, c₂, hempty, htext⟩ := indentedBreaks_text hbelow hl
    obtain ⟨c', hbody, hend⟩ := blockBody_lines folded e stop htext hl hmore hends
    have hindent : max (-1 + 1 : Int).toNat 1 + d - 1 = d := Nat.add_sub_cancel_left 1 d
    refine ⟨c', hend, ?_⟩
    simp only [hindent, hempty, hbody, blockValue_feeds, List.append_assoc]
  -- the first line of text is the deepest of the lines up to it
  · have hfind : (List.replicate e [] ++ l :: more).find? (!·.isEmpty) = some l := by
      rw [List.find?_append, List.find?_replicate_of_neg (by simp), List.find?_cons_of_pos]
      · rfl
      · simpa using hnil
    obtain ⟨stop, c₂, hempty, htext⟩ := leadingBreaks_text hbelow hl (hshown l hfind) hd
    obtain ⟨c', hbody, hend⟩ := blockBody_lines folded e stop htext hl hmore hends
    have hindent : max (max (-1 + 1 : Int).toNat 1) d = d := Nat.max_eq_right hd
    refine ⟨c', hend, ?_⟩
    simp only [hempty, hindent, hbody, blockValue_feeds, List.append_assoc]

end Cursor

/-! ## The scan -/

/-- Block scalars decode to their lines. In the literal style the lines are joined by line feeds, in
the folded style lines of text are folded. The indentation is given or detected. -/
theorem block_scalars_decode (folded : Bool) (chomping : Chomping) (lines : List (List Char))
    (d k : Nat) (header : List Char) (hlines : ∀ line ∈ lines, ∀ ch ∈ line, Inline ch)
    (hne : lines ≠ []) (hlast : lines.getLast hne ≠ []) (hd : 1 ≤ d)
    (hheader : HeaderOf chomping d lines header) :
    let source := String.ofList (blockMark folded :: (header ++ '\n' :: blockText d k lines))
    let body := if folded then joinLines true lines else ['\n'].intercalate lines
    scan source = .ofScalar source (String.ofList (body ++ chomping.tail k))
      (if folded then .folded else .literal) := by
  intro source body
  have hends : EndInText lines := by
    intro line hline
    rw [List.getLast?_eq_some_getLast hne, Option.some.injEq] at hline
    rwa [← hline]
  have hbody : joinLines folded lines = body := by
    cases folded with
    | true => rfl
    | false => exact joinLines_literal hends
  have hsource : (Cursor.ofText source.toList).rest =
      blockMark folded :: (header ++ '\n' :: blockText d k lines) := String.toList_ofList
  obtain ⟨c', hend, hread⟩ := Cursor.block_of hsource hd hheader hlines hends hne
  rw [hbody] at hread
  exact ScanState.scan_of_block (Canonical.peek_eq hsource) hread hend

/-- Empty lines and a deeper line are kept in the folded style; without a digit the first line of
text shows the indentation. -/
theorem block_scalars_decode_deeper :
    scan ">+2\n\n  a\n  b\n\n    c\n  d\n\n" =
        .ofScalar ">+2\n\n  a\n  b\n\n    c\n  d\n\n" "\na b\n\n  c\nd\n\n" .folded ∧
      scan "|-\n   a\n\n    b\n" = .ofScalar "|-\n   a\n\n    b\n" "a\n\n b" .literal := by
  constructor
  · exact block_scalars_decode true .keep [[], ['a'], ['b'], [], [' ', ' ', 'c'], ['d']] 2 1
      ['+', '2'] (by simp [Inline, isBreak, nul]) (by decide) (by decide) (by decide)
      (.chompingFirst (by decide))
  · refine block_scalars_decode false .strip [['a'], [], [' ', 'b']] 3 0 ['-']
      (by simp [Inline, isBreak, nul]) (by decide) (by decide) (by decide) (.detected ?_)
    intro line hline
    obtain rfl : ['a'] = line := by simpa using hline
    decide

end YamlLinter
