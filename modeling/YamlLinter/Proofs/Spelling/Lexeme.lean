import YamlLinter.Proofs.Tandem.Lexeme
import YamlLinter.Proofs.Through

/-!
# How tokens are spelled

A token holds data that were read from the text between its marks. Here the text is described that
a token with given data may stand for, and each reader of lexemes is seen to pass such a text.

## Contents

* `Spells`: the texts that a kind of token stands for;
* `Cursor.Spans`: the text between two cursors;
* `Cursor.Spelled`: a token that is read at a cursor, with the text that it stands for;
* names, tags and directives;
* `spans_quotedBody`, `spans_plain`: scalars that are read step by step;
* `spans_comment`: the text of comments.
-/

namespace YamlLinter

open Text

/-! ## Spellings -/

/-- The text holds no line break. -/
def OneLine (text : List Char) : Prop := ∀ ch ∈ text, isBreak ch = false

instance : DecidablePred OneLine := fun _ => List.decidableBAll _ _

/-- The text with every single quote written twice. -/
def doubleQuotes (text : List Char) : List Char :=
  text.flatMap fun ch => if ch == '\x27' then ['\x27', '\x27'] else [ch]

/-- The quote around a quoted scalar. -/
def quoteMark (double : Bool) : Char := if double then '\x22' else '\x27'

/-- The names of anchors: not empty, and free of blanks, line breaks, NUL and flow indicators. -/
def IsAnchorName (name : List Char) : Prop :=
  name ≠ [] ∧ ∀ ch ∈ name, isBlank ch = false ∧ isBreak ch = false ∧ ch ≠ nul ∧
    ch ∉ [',', '[', ']', '\x7b', '\x7d']

/-- The texts that a kind of token stands for. What the value of a scalar has to do with its text is
told for plain and single-quoted scalars on one line. -/
def Spells : TokenKind → List Char → Prop
  | .streamStart, text | .streamEnd, text | .blockSequenceStart, text | .blockMappingStart, text
  | .blockEnd, text => text = []
  | .documentStart, text => text = ['-', '-', '-']
  | .documentEnd, text => text = ['.', '.', '.']
  | .flowSequenceStart, text => text = ['[']
  | .flowSequenceEnd, text => text = [']']
  | .flowMappingStart, text => text = ['\x7b']
  | .flowMappingEnd, text => text = ['\x7d']
  | .blockEntry, text => text = ['-']
  | .flowEntry, text => text = [',']
  | .key, text => text = [] ∨ text = ['?']
  | .value, text => text = [':']
  | .aliasRef name, text => text = '*' :: name.toList ∧ IsAnchorName name.toList
  | .anchor name, text => text = '&' :: name.toList ∧ IsAnchorName name.toList
  | .tag handle suffix, text =>
    handle.toList.head? = some '!' ∧ text = handle.toList ++ suffix.toList ∨
      handle.toList = [] ∧ text = '!' :: '<' :: (suffix.toList ++ ['>']) ∨
      handle.toList = [] ∧ suffix.toList = ['!'] ∧ text = ['!']
  | .directive name value, text => ∃ blanks space,
    text = '%' :: (name.toList ++ (blanks ++ (value.toList ++ space))) ∧
      (∀ ch ∈ blanks, isBlank ch = true) ∧ ∀ ch ∈ space, isSpace ch = true
  | .scalar value .plain, text => value.toList ≠ [] ∧ (OneLine text → text = value.toList)
  | .scalar value .singleQuoted, text => ∃ inner, text = '\x27' :: (inner ++ ['\x27']) ∧
    (OneLine text → inner = doubleQuotes value.toList)
  | .scalar _ .doubleQuoted, text => ∃ inner, text = '\x22' :: (inner ++ ['\x22'])
  | .scalar _ .literal, text => text.head? = some '|'
  | .scalar _ .folded, text => text.head? = some '>'

theorem OneLine.left {u v : List Char} (h : OneLine (u ++ v)) : OneLine u :=
  fun ch hch => h ch (List.mem_append_left v hch)

theorem OneLine.right {u v : List Char} (h : OneLine (u ++ v)) : OneLine v :=
  fun ch hch => h ch (List.mem_append_right u hch)

/-- Quotes are doubled part by part. -/
theorem doubleQuotes_append (u v : List Char) :
    doubleQuotes (u ++ v) = doubleQuotes u ++ doubleQuotes v :=
  List.flatMap_append

theorem doubleQuotes_of_not_mem {text : List Char} (h : '\x27' ∉ text) :
    doubleQuotes text = text := by
  induction text with
  | nil => rfl
  | cons ch text ih =>
    obtain ⟨hch, htext⟩ := not_or.1 (List.mem_cons.not.1 h)
    show (if ch == '\x27' then ['\x27', '\x27'] else [ch]) ++ doubleQuotes text = ch :: text
    rw [if_neg (by simpa using Ne.symm hch), ih htext]
    rfl

namespace Cursor

/-! ## The text between two cursors -/

/-- The text `word` lies between two cursors. -/
structure Spans (c : Cursor) (word : List Char) (c' : Cursor) : Prop where
  front : word <+: c.rest
  stop : c' = c.forward word.length

variable {c d e : Cursor} {u v word : List Char} {ch : Char}

namespace Spans

theorem refl (c : Cursor) : c.Spans [] c := ⟨List.nil_prefix, rfl⟩

/-- A word that is spanned stands at the cursor. -/
theorem rest_eq (h : c.Spans word d) : c.rest = word ++ d.rest := by
  rw [h.stop, rest_forward]
  exact (List.prefix_iff_eq_append.1 h.front).symm

/-- Two words behind each other. -/
theorem trans (h : c.Spans u d) (h' : d.Spans v e) : c.Spans (u ++ v) e := by
  constructor
  · rw [h.rest_eq]
    exact List.prefix_append_right_inj u |>.2 h'.front
  · rw [h'.stop, h.stop, forward_forward, List.length_append]

theorem takeWhile (c : Cursor) (p : Char → Bool) :
    c.Spans (c.rest.takeWhile p) (c.forward (c.rest.takeWhile p).length) :=
  ⟨List.takeWhile_prefix p, rfl⟩

/-- The next character. -/
theorem one (h : c.peek = ch) (hch : ch ≠ nul) : c.Spans [ch] (c.forward 1) := by
  refine ⟨?_, rfl⟩
  cases hr : c.rest with
  | nil => simp [peek, peekAt, hr, hch.symm] at h
  | cons x rest =>
    obtain rfl : x = ch := by simpa [peek, peekAt, hr] using h
    exact ⟨rest, rfl⟩

/-- Some text lies between a cursor and any other ahead of it. -/
theorem of_ahead (h : c.Ahead d) : ∃ word, c.Spans word d := by
  obtain ⟨n, rfl⟩ := h
  refine ⟨c.rest.take n, List.take_prefix n _, ?_⟩
  rw [List.length_take]
  rcases Nat.le_total n c.rest.length with hle | hle
  · rw [Nat.min_eq_left hle]
  · rw [Nat.min_eq_right hle, forward_length c hle]

theorem ahead (h : c.Spans word d) : c.Ahead d := ⟨word.length, h.stop⟩

end Spans

/-- A text that is not empty starts with the next character. -/
theorem Spans.exists_cons (h : c.Spans word d) (hlt : d.rest.length < c.rest.length) :
    ∃ u, word = c.peek :: u := by
  have hrest := h.rest_eq
  cases word with
  | nil =>
    rw [hrest] at hlt
    exact absurd hlt (Nat.lt_irrefl _)
  | cons ch u =>
    refine ⟨u, ?_⟩
    simp [peek, peekAt, hrest]

/-- A line break starts with a break character. -/
theorem isBreak_peek (h : c.lineBreak? = some (ch, d)) : isBreak c.peek = true := by
  unfold lineBreak? at h
  unfold isBreak
  simp only at h
  split at h
  · rename_i hreturn
    simp [(Bool.and_eq_true_iff.1 hreturn).1]
  · split at h
    · rename_i hbreak
      rw [hbreak]
      rfl
    · split at h
      · rename_i hseparator
        rw [Bool.or_assoc, hseparator, Bool.or_true]
      · cases h

/-- A text with a line break in it is not on one line. -/
theorem exists_broken (h : c.lineBreak? = some (ch, d)) (hde : d.Ahead e) :
    ∃ word, c.Spans word e ∧ ¬OneLine word := by
  obtain ⟨word, hword⟩ := Spans.of_ahead ((Ahead.lineBreak? h).trans hde)
  have hlt := Nat.lt_of_le_of_lt hde.length_rest_le (length_rest_lineBreak? h)
  obtain ⟨u, rfl⟩ := hword.exists_cons hlt
  refine ⟨_, hword, fun hline => ?_⟩
  have hno := hline c.peek List.mem_cons_self
  rw [isBreak_peek h] at hno
  cases hno

/-! ## Tokens with their text -/

/-- The token is read at the cursor, and stands for the text between its marks. -/
def Spelled (c : Cursor) (t : Token) : Prop :=
  ∃ word d, c.Spans word d ∧ t.start = c.mark ∧ t.stop = d.mark ∧ Spells t.kind word

/-- A token without text spells nothing. -/
theorem Spelled.empty {kind : TokenKind} (h : Spells kind []) : c.Spelled (.empty kind c.mark) :=
  ⟨[], c, .refl c, rfl, rfl, h⟩

variable {t : Token} {flow : Bool}

/-- A mark and a name. -/
theorem spans_name {missing : Char → ScanError.Cause} {kind : String → TokenKind} {mark : Char}
    (hc : c.peek = mark) (hmark : mark ≠ nul) (h : c.name missing kind = .ok (t, d)) :
    ∃ name, c.Spans (mark :: name) d ∧ t = ⟨kind (String.ofList name), c.mark, d.mark⟩ ∧
      IsAnchorName name := by
  unfold name at h
  simp only at h
  split at h
  · simp [fail] at h
  · rename_i hne
    cases h
    refine ⟨_, (Spans.one hc hmark).trans (.takeWhile (c.forward 1) isNameChar), rfl, ?_, ?_⟩
    · simpa using hne
    · intro ch hch
      have hname : isNameChar ch = true := List.all_eq_true.1 List.all_takeWhile ch hch
      simpa [isNameChar, isBlankOrEnd, isLineEnd, isFlowMark, and_assoc, and_left_comm] using hname

/-- An alias is spelled with a star and its name. -/
theorem spelled_aliasRef (hc : c.peek = '*') (h : c.aliasRef = .ok (t, d)) : c.Spelled t := by
  obtain ⟨name, hspans, rfl, hname⟩ := spans_name hc (by decide) h
  refine ⟨_, d, hspans, rfl, rfl, ?_⟩
  simpa [Spells] using hname

/-- An anchor is spelled with an ampersand and its name. -/
theorem spelled_anchor (hc : c.peek = '&') (h : c.anchor = .ok (t, d)) : c.Spelled t := by
  obtain ⟨name, hspans, rfl, hname⟩ := spans_name hc (by decide) h
  refine ⟨_, d, hspans, rfl, rfl, ?_⟩
  simpa [Spells] using hname

/-! ## Tags -/

theorem spans_tagSuffix (h : c.tagSuffix flow = .ok (word, d)) : c.Spans word d := by
  unfold tagSuffix at h
  simp only at h
  split at h
  · simp [fail] at h
  · cases h
    exact .takeWhile c _

theorem spans_tagHandle (hc : c.peek = '!') (h : c.tagHandle = .ok (word, d)) :
    c.Spans word d ∧ word.head? = some '!' := by
  unfold tagHandle at h
  simp only at h
  split at h
  · rename_i hbang
    have hword := Tandem.rest_of_handle (c := c) rfl (beq_iff_eq.1 hbang)
    cases h
    rw [forward_forward]
    refine ⟨⟨List.take_prefix _ _, ?_⟩, ?_⟩
    · rw [hword]
      simp
    · rw [hword, hc]
      rfl
  · simp [fail] at h

theorem spans_verbatimTag (hc : c.peek = '!') (hopen : c.peekAt 1 = '<')
    (h : c.verbatimTag flow = .ok (word, d)) : c.Spans ('!' :: '<' :: (word ++ ['>'])) d := by
  unfold verbatimTag at h
  split at h
  · cases h
  · rename_i suffix c₁ hsuffix
    split at h
    · rename_i hclose
      cases h
      have hnext : (c.forward 1).peek = '<' := (Tandem.Passes.peek_forward c 1).trans hopen
      have hmark := (Spans.one hc (by decide)).trans (Spans.one hnext (by decide))
      exact (hmark.trans (spans_tagSuffix hsuffix)).trans (.one (beq_iff_eq.1 hclose) (by decide))
    · simp [fail] at h

/-- A shorthand is its handle and its suffix behind each other. -/
theorem spans_shorthandTag {handle suffix : List Char} (hc : c.peek = '!')
    (h : c.shorthandTag flow = .ok (handle, suffix, d)) :
    c.Spans (handle ++ suffix) d ∧ handle.head? = some '!' := by
  unfold shorthandTag at h
  simp only at h
  split at h
  · cases h
  · rename_i handle' c₁ hhandle
    split at h
    · cases h
    · rename_i suffix' c₂ hsuffix
      cases h
      have hfirst : c.Spans handle c₁ ∧ handle.head? = some '!' := by
        split at hhandle
        · exact spans_tagHandle hc hhandle
        · cases hhandle
          exact ⟨.one hc (by decide), rfl⟩
      exact ⟨hfirst.1.trans (spans_tagSuffix hsuffix), hfirst.2⟩

/-- A tag is spelled in one of its forms. -/
theorem spelled_tag (hc : c.peek = '!') (h : c.tag flow = .ok (t, d)) : c.Spelled t := by
  unfold tag tagParts at h
  split at h
  · cases h
  · rename_i handle suffix c₁ hparts
    split at h
    case isFalse => simp [fail] at h
    cases h
    split at hparts
    · rename_i hopen
      split at hparts
      · cases hparts
      · rename_i hverbatim
        cases hparts
        refine ⟨_, _, spans_verbatimTag hc (beq_iff_eq.1 hopen) hverbatim, rfl, rfl, ?_⟩
        simp [Spells]
    · split at hparts
      · cases hparts
        refine ⟨_, _, .one hc (by decide), rfl, rfl, ?_⟩
        simp [Spells]
      · obtain ⟨hspans, hhandle⟩ := spans_shorthandTag hc hparts
        refine ⟨_, _, hspans, rfl, rfl, ?_⟩
        simpa [Spells] using .inl hhandle

/-! ## Directives -/

/-- What trimming drops is white space. -/
theorem exists_trimEnd (text : List Char) :
    ∃ space, text = trimEnd text ++ space ∧ ∀ ch ∈ space, isSpace ch = true := by
  refine ⟨(text.reverse.takeWhile isSpace).reverse, ?_, ?_⟩
  · unfold trimEnd
    rw [← List.reverse_append, List.takeWhile_append_dropWhile, List.reverse_reverse]
  · intro ch hch
    exact List.all_eq_true.1 List.all_takeWhile ch (List.mem_reverse.1 hch)

/-- A directive is written with blanks in front of its value and white space behind it. -/
theorem spells_directive {name blanks value : List Char} (h : ∀ ch ∈ blanks, isBlank ch = true) :
    Spells (.directive (String.ofList name) (String.ofList (trimEnd value)))
      ('%' :: (name ++ (blanks ++ value))) := by
  obtain ⟨space, hvalue, hspace⟩ := exists_trimEnd value
  refine ⟨blanks, space, ?_, h, hspace⟩
  rw [String.toList_ofList, String.toList_ofList, ← hvalue]

/-- A directive is spelled with a percent sign and its name. -/
theorem spelled_directive {k : Option Comment} (hc : c.peek = '%')
    (h : c.directive = .ok (t, k, d)) : c.Spelled t := by
  unfold directive at h
  simp only at h
  split at h
  · simp [fail] at h
  · split at h
    · simp [fail] at h
    · split at h
      · cases h
      · cases h
        have hname := Spans.takeWhile (c.forward 1) isWordChar
        have hblanks := Spans.takeWhile ((c.forward 1).skipWhile isWordChar) isBlank
        have hvalue : Spans (((c.forward 1).skipWhile isWordChar).skipWhile isBlank) _ _ :=
          ⟨isPrefix_directiveText false _, rfl⟩
        have hmark := Spans.one hc (by decide)
        refine ⟨_, _, hmark.trans (hname.trans (hblanks.trans hvalue)), rfl, rfl, ?_⟩
        exact spells_directive (List.all_eq_true.1 List.all_takeWhile)

/-! ## Quoted scalars -/

/-- A gap inside quotes that stays on its line is part of the value. -/
theorem spans_quotedGap {part : QuotedPart} (h : c.quotedGap = .ok part) :
    ∃ word, c.Spans word part.cursor ∧ (OneLine word → word = doubleQuotes part.text) := by
  unfold quotedGap at h
  simp only at h
  split at h
  · simp [fail] at h
  · split at h
    · cases h
      refine ⟨_, .takeWhile c isBlank, fun _ => (doubleQuotes_of_not_mem fun hmem => ?_).symm⟩
      exact absurd (List.all_eq_true.1 List.all_takeWhile _ hmem) (by decide)
    · rename_i hbreak
      split at h
      · cases h
      · rename_i hmore
        cases h
        obtain ⟨word, hword, hbroken⟩ := exists_broken hbreak (ahead_quotedBreaks hmore)
        exact ⟨_, (Spans.takeWhile c isBlank).trans hword, fun hline => absurd hline.right hbroken⟩

/-- A step inside single quotes passes what its part of the value is written as. -/
theorem spans_quotedUnit {part : QuotedPart} (h : c.quotedUnit false = .ok (some part)) :
    ∃ word, c.Spans word part.cursor ∧ (OneLine word → word = doubleQuotes part.text) := by
  unfold quotedUnit at h
  simp only [Bool.false_eq_true, if_false] at h
  split at h
  · cases hgap : c.quotedGap with
    | error e => simp [hgap, Except.map] at h
    | ok gap =>
      obtain rfl : gap = part := by simpa [hgap, Except.map] using h
      exact spans_quotedGap hgap
  · rename_i hend
    split at h
    · rename_i hquote
      split at h
      · rename_i hnext
        cases h
        have hsecond := (Tandem.Passes.peek_forward c 1).trans (beq_iff_eq.1 hnext)
        refine ⟨_, (Spans.one (beq_iff_eq.1 hquote) (by decide)).trans
          (Spans.one hsecond (by decide)), fun _ => rfl⟩
      · cases h
    · rename_i hquote
      cases h
      refine ⟨_, .one rfl (peek_ne_nul_of_not_blankOrEnd (by simpa using hend)), fun _ => ?_⟩
      exact (doubleQuotes_of_not_mem (by simpa using Ne.symm (mt beq_iff_eq.2 hquote))).symm

/-- The step that finds nothing stands at the closing quote. -/
theorem peek_of_quotedUnit {double : Bool} (h : c.quotedUnit double = .ok none) :
    c.peek = quoteMark double := by
  unfold quotedUnit at h
  simp only at h
  split at h
  · cases hgap : c.quotedGap <;> simp [hgap, Except.map] at h
  · split at h
    · rename_i hdouble
      split at h
      · rename_i hquote
        rw [beq_iff_eq.1 hquote, hdouble]
        rfl
      · split at h
        · cases hescape : (c.forward 1).escape <;> simp [hescape, Except.map] at h
        · cases h
    · rename_i hdouble
      split at h
      · rename_i hquote
        rw [beq_iff_eq.1 hquote, Bool.eq_false_iff.2 hdouble]
        rfl
      · cases h

/-- The inside of single quotes on one line is the value with its quotes doubled. -/
theorem spans_quotedBody {double : Bool} {part : QuotedPart}
    (h : c.quotedBody double = .ok part) :
    part.cursor.peek = quoteMark double ∧ ∃ word, c.Spans word part.cursor ∧
      (double = false → OneLine word → word = doubleQuotes part.text) := by
  fun_induction quotedBody c double generalizing part with
  | case1 => cases h
  | case2 c hunit =>
    cases h
    exact ⟨peek_of_quotedUnit hunit, [], .refl c, fun _ _ => rfl⟩
  | case3 => cases h
  | case4 c unit hunit more hmore ih =>
    cases h
    obtain ⟨hclose, word, hword, hvalue⟩ := ih hmore
    refine ⟨hclose, ?_⟩
    cases double with
    | true =>
      obtain ⟨first, hfirst⟩ := Spans.of_ahead (ahead_quotedUnit hunit)
      exact ⟨first ++ word, hfirst.trans hword, fun hsingle => absurd hsingle (by decide)⟩
    | false =>
      obtain ⟨first, hfirst, htext⟩ := spans_quotedUnit hunit
      refine ⟨first ++ word, hfirst.trans hword, fun hsingle hline => ?_⟩
      rw [doubleQuotes_append, ← htext hline.left, ← hvalue hsingle hline.right]

/-- A quoted scalar is spelled between its quotes. -/
theorem spelled_quoted {double : Bool} (hc : c.peek = quoteMark double)
    (h : c.quoted double = .ok (t, d)) : c.Spelled t := by
  unfold quoted at h
  split at h
  · cases h
  · rename_i body hbody
    cases h
    obtain ⟨hclose, inner, hinner, hvalue⟩ := spans_quotedBody hbody
    have hmark : quoteMark double ≠ nul := by cases double <;> decide
    refine ⟨_, _, (Spans.one hc hmark).trans (hinner.trans (.one hclose hmark)), rfl, rfl, ?_⟩
    cases double with
    | true => exact ⟨inner, rfl⟩
    | false =>
      refine ⟨inner, rfl, fun hline => ?_⟩
      rw [String.toList_ofList]
      have hinside : OneLine (inner ++ ['\x27']) := OneLine.right (u := ['\x27']) hline
      exact hvalue rfl hinside.left

/-! ## Plain scalars -/

/-- A gap behind a chunk stays on its line, where it is part of the value, or holds a break. -/
theorem spans_plainGap (c : Cursor) :
    ∃ word, c.Spans word c.plainGap.cursor ∧ (OneLine word → c.plainGap.joint = some word) := by
  unfold plainGap
  simp only
  split
  · exact ⟨_, .takeWhile c isBlank, fun _ => rfl⟩
  · rename_i ch c₂ hbreak
    split
    · obtain ⟨word, hword, hbroken⟩ := exists_broken hbreak (.refl c₂)
      exact ⟨_, (Spans.takeWhile c isBlank).trans hword, fun hline => absurd hline.right hbroken⟩
    · obtain ⟨word, hword, hbroken⟩ := exists_broken hbreak c₂.ahead_plainBreaks
      exact ⟨_, (Spans.takeWhile c isBlank).trans hword, fun hline => absurd hline.right hbroken⟩

/-- A chunk is read from the front of the text. -/
theorem spans_plainChunk (c : Cursor) (flow : Bool) :
    c.Spans (plainChunk flow c.rest) (c.forward (plainChunk flow c.rest).length) :=
  ⟨isPrefix_plainChunk flow c.rest, rfl⟩

/-- A plain scalar on one line is its value. -/
theorem spans_plain (c : Cursor) (flow : Bool) (indent : Int) :
    ∃ word d, c.Spans word d ∧ (c.plain flow indent).stop = d.mark ∧
      (OneLine word → word = (c.plain flow indent).value) := by
  fun_induction plain c flow indent with
  | case1 c => exact ⟨[], c, .refl c, rfl, fun _ => rfl⟩
  | case2 c chunk _ c₁ gap _ => exact ⟨chunk, c₁, c.spans_plainChunk flow, rfl, fun _ => rfl⟩
  | case3 c chunk _ c₁ gap _ => exact ⟨chunk, c₁, c.spans_plainChunk flow, rfl, fun _ => rfl⟩
  | case4 c chunk _ c₁ gap joint _ _ _ more _ ih =>
    exact ⟨chunk, c₁, c.spans_plainChunk flow, rfl, fun _ => rfl⟩
  | case5 c chunk _ c₁ gap joint _ hjoint _ more _ ih =>
    obtain ⟨blanks, hblanks, hkept⟩ := c₁.spans_plainGap
    obtain ⟨word, d, hword, hstop, hvalue⟩ := ih
    refine ⟨chunk ++ blanks ++ word, d, ((c.spans_plainChunk flow).trans hblanks).trans hword,
      hstop, fun hline => ?_⟩
    have hsame : some joint = some blanks := hjoint.symm.trans (hkept hline.left.right)
    rw [Option.some.inj hsame, hvalue hline.right]
  | case6 c chunk _ c₁ gap joint _ _ _ =>
    exact ⟨chunk, c₁, c.spans_plainChunk flow, rfl, fun _ => rfl⟩

/-- A plain scalar has at least the text of its first chunk. -/
theorem value_plain_ne_nil {indent : Int} (h : plainChunk flow c.rest ≠ []) :
    (c.plain flow indent).value ≠ [] := by
  rw [plain]
  simp only [h, dite_false]
  split
  · exact h
  · exact h
  · split
    · split
      · exact h
      · simp [h]
    · exact h

/-- A plain scalar is spelled as it stands, if on one line. -/
theorem spelled_plain {indent : Int} (hc : c.rest ≠ [])
    (h : ScanState.startsPlain flow c.peek (c.peekAt 1)) :
    c.Spelled ⟨.scalar (String.ofList (c.plain flow indent).value) .plain, c.mark,
      (c.plain flow indent).stop⟩ := by
  obtain ⟨word, d, hword, hstop, hvalue⟩ := c.spans_plain flow indent
  refine ⟨word, d, hword, rfl, hstop, ?_⟩
  simp only [Spells, String.toList_ofList]
  exact ⟨value_plain_ne_nil (plainChunk_ne_nil hc h), hvalue⟩

/-! ## Block scalars -/

/-- A block scalar is spelled with its indicator first. -/
theorem spelled_block {folded : Bool} {parent : Int} {k : Option Comment}
    (hc : c.peek = if folded then '>' else '|') (h : c.block folded parent = .ok (t, k, d)) :
    c.Spelled t := by
  obtain ⟨hstart, ⟨e, he, -, hstop⟩, -, value, hkind⟩ := between_block h
  obtain ⟨word, hword⟩ := Spans.of_ahead he
  have hmark : c.Spans [if folded then '>' else '|'] (c.forward 1) :=
    .one hc (by cases folded <;> decide)
  refine ⟨_, e, hmark.trans hword, hstart, hstop, ?_⟩
  rw [hkind]
  cases folded <;> rfl

/-! ## Comments -/

/-- A comment holds the text between its marks, from its `#` to the end of the line. -/
theorem spans_comment (h : c.peek = '#') :
    c.Spans c.comment.text.toList c.skipLine ∧ c.comment.text.toList.head? = some '#' ∧
      ∀ ch ∈ c.comment.text.toList, isBreak ch = false ∧ ch ≠ nul := by
  have htext : c.comment.text.toList = c.rest.takeWhile (!isLineEnd ·) := String.toList_ofList
  have hspans : c.Spans c.comment.text.toList c.skipLine := htext ▸ .takeWhile c _
  refine ⟨hspans, ?_, fun ch hch => ?_⟩
  · obtain ⟨rest, hrest⟩ := (Spans.one h (by decide)).front
    rw [htext, ← hrest]
    rfl
  · rw [htext] at hch
    have hend := List.all_eq_true.1 List.all_takeWhile ch hch
    simpa [isLineEnd, and_comm] using hend

end Cursor

end YamlLinter
