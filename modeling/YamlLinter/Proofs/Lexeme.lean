import YamlLinter.Proofs.Ahead
import YamlLinter.Scan.Block
import YamlLinter.Scan.Directive
import YamlLinter.Scan.Gap
import YamlLinter.Scan.Lead
import YamlLinter.Scan.Name
import YamlLinter.Scan.Plain
import YamlLinter.Scan.Quoted
import YamlLinter.Scan.Tag

/-!
# What the readers leave behind

One fact about each reader of lexemes: it moves ahead by at least one character, the token starts at
the cursor and ends at a cursor on the way, comments lie on the way too, and an error is noticed on
the way.

## Contents

* `Cursor.Reads`, `Cursor.Fails`: the two sides of a reader's contract;
* comments and gaps;
* names, tags, directives;
* quoted, plain and block scalars.
-/

namespace YamlLinter

open Text

namespace Cursor

/-- The mark is that of a cursor on the way from `c` to `c'`. -/
def Between (c : Cursor) (m : Mark) (c' : Cursor) : Prop :=
  ∃ c₁, c.Ahead c₁ ∧ c₁.Ahead c' ∧ m = c₁.mark

/-- The token `t` is read from `c`, and reading goes on at `c'`. -/
structure Reads (c : Cursor) (t : Token) (c' : Cursor) : Prop where
  start : t.start = c.mark
  stop : c.Between t.stop c'
  shorter : c'.rest.length < c.rest.length

/-- The error is noticed at `c` or ahead of it. -/
def Fails (c : Cursor) (e : ScanError) : Prop := ∃ c', c.Ahead c' ∧ e.mark = c'.mark

namespace Between

variable {a b c : Cursor} {m : Mark}

/-- What lies between two cursors shows that the first can be moved to the second. -/
theorem ahead (h : a.Between m b) : a.Ahead b := by
  obtain ⟨c₁, h₁, h₂, -⟩ := h
  exact h₁.trans h₂

/-- A mark between two cursors lies between any cursor further back and the second. -/
theorem behind (h : a.Ahead b) (hm : b.Between m c) : a.Between m c := by
  obtain ⟨c₁, h₁, h₂, hm⟩ := hm
  exact ⟨c₁, h.trans h₁, h₂, hm⟩

end Between

namespace Reads

variable {c c' : Cursor} {t : Token}

theorem ahead (h : c.Reads t c') : c.Ahead c' := h.stop.ahead

/-- A token that is read is laid out between the cursors around it. -/
theorem laid (h : c.Reads t c') : Laid Token.start Token.stop c [t] c' := by
  obtain ⟨c₁, h₁, h₂, ht⟩ := h.stop
  exact .single (.refl c) h.start h₁ ht h₂

/-- A token that ends where reading goes on. -/
theorem of_forward {kind : TokenKind} {n : Nat} (h : c.rest ≠ []) (hn : 0 < n) :
    c.Reads ⟨kind, c.mark, (c.forward n).mark⟩ (c.forward n) where
  start := rfl
  stop := ⟨c.forward n, .forward c n, .refl _, rfl⟩
  shorter := by
    have := List.length_pos_iff.2 h
    rw [length_rest_forward]
    omega

end Reads

/-- An error raised at a cursor is noticed there. -/
theorem Fails.of_fail {c : Cursor} {α : Type} {cause : ScanError.Cause} {e : ScanError}
    (h : (c.fail cause : Except ScanError α) = .error e) : c.Fails e := by
  cases h
  exact ⟨c, .refl c, rfl⟩

/-- What goes wrong further ahead goes wrong ahead of here too. -/
theorem Fails.behind {c c' : Cursor} {e : ScanError} (h : c.Ahead c') (he : c'.Fails e) :
    c.Fails e := by
  obtain ⟨c₁, h₁, hm⟩ := he
  exact ⟨c₁, h.trans h₁, hm⟩

/-! ## Comments and gaps -/

/-- Skipping moves the cursor if the character there may be skipped. -/
theorem index_lt_skipWhile {c : Cursor} {p : Char → Bool} (h : p c.peek) (hne : c.rest ≠ []) :
    c.mark.index < (c.skipWhile p).mark.index := by
  apply index_lt_forward hne
  cases hr : c.rest with
  | nil => exact absurd hr hne
  | cons ch rest =>
    have hp : p ch := by simpa [peek, peekAt, hr] using h
    simp [hp]

/-- A comment runs from the cursor to the end of the line. -/
theorem laid_comment {c : Cursor} (h : c.peek = '#') :
    Laid Comment.start Comment.stop c [c.comment] c.skipLine ∧
      c.comment.start.index < c.comment.stop.index := by
  refine ⟨.single (.refl c) rfl (.skipLine c) rfl (.refl _), ?_⟩
  refine index_lt_skipWhile (by rw [h]; decide) (rest_ne_nil_of_peek_ne_nul ?_)
  rw [h]
  decide

/-- The comments found on the way from one cursor to another: none is empty, and each is the one
that starts at a `#` on the way. -/
structure Notes (c : Cursor) (ks : List Comment) (c' : Cursor) : Prop where
  laid : Laid Comment.start Comment.stop c ks c'
  inked : ∀ k ∈ ks, k.start.index < k.stop.index
  written : ∀ k ∈ ks, ∃ d, c.Ahead d ∧ d.peek = '#' ∧ k = d.comment

namespace Notes

variable {a b c : Cursor} {ks ls : List Comment}

/-- Without comments, all that counts is that the cursor is moved on. -/
theorem none (h : a.Ahead b) : Notes a [] b := ⟨.nil h, by simp, by simp⟩

/-- What stands in front of the comments makes no difference to them. -/
theorem behind (h : a.Ahead b) (hn : Notes b ks c) : Notes a ks c where
  laid := hn.laid.behind h
  inked := hn.inked
  written k hk := by
    obtain ⟨d, hd, hk⟩ := hn.written k hk
    exact ⟨d, h.trans hd, hk⟩

/-- Nor does what stands behind them. -/
theorem extend (hn : Notes a ks b) (h : b.Ahead c) : Notes a ks c :=
  ⟨hn.laid.extend h, hn.inked, hn.written⟩

/-- Comments of two stretches of the text behind each other. -/
theorem append (h₁ : Notes a ks b) (h₂ : Notes b ls c) : Notes a (ks ++ ls) c where
  laid := h₁.laid.append h₂.laid
  inked k hk := (List.mem_append.1 hk).elim (h₁.inked k) (h₂.inked k)
  written k hk := (List.mem_append.1 hk).elim (h₁.written k) ((h₂.behind h₁.laid.ahead).written k)

/-- A `#` starts a comment that reaches to the end of its line. -/
theorem comment (h : a.peek = '#') : Notes a [a.comment] a.skipLine where
  laid := (laid_comment h).1
  inked := by simpa using (laid_comment h).2
  written k hk := ⟨a, .refl a, h, List.mem_singleton.1 hk⟩

end Notes

/-- The comment on a line without a token, or on the line of the next token, lies where it was read.
-/
theorem notes_lineGap (c : Cursor) (flow allowKey : Bool) :
    Notes c (c.lineGap flow allowKey).1 (c.lineGap flow allowKey).2 := by
  have h := Ahead.skipWhile c (isSkipped flow allowKey)
  unfold lineGap
  simp only
  split
  · rename_i hp
    exact .behind h (.comment (by simpa using hp))
  · exact .none h

/-- All comments in front of a token lie in the gap, in their order. -/
theorem notes_gap (c : Cursor) (flow allowKey : Bool) :
    Notes c (c.gap flow allowKey).comments (c.gap flow allowKey).cursor := by
  fun_induction gap c flow allowKey with
  | case1 c allowKey h => exact c.notes_lineGap flow allowKey
  | case2 c allowKey ch c' h more ih =>
    exact ((c.notes_lineGap flow allowKey).extend (Ahead.lineBreak? h)).append ih

theorem ahead_skipByteOrderMark (c : Cursor) : c.Ahead c.skipByteOrderMark := by
  unfold skipByteOrderMark
  split
  · exact .forward c 1
  · exact .refl c

theorem ahead_skipBreak (c : Cursor) : c.Ahead c.skipBreak := by
  unfold skipBreak
  split
  · exact .lineBreak? ‹_›
  · exact .refl c

/-- The comment behind a directive or a header lies where it was read. -/
theorem notes_lineTail {c c' : Cursor} {k : Option Comment} (h : c.lineTail = .ok (k, c')) :
    Notes c k.toList c' := by
  have hb := Ahead.skipWhile c isBlank
  unfold lineTail at h
  simp only at h
  split at h
  · rename_i hp
    cases h
    exact .behind hb ((Notes.comment (by simpa using hp)).extend (ahead_skipBreak _))
  · split at h
    · cases h
      exact .none (hb.trans (ahead_skipBreak _))
    · simp [fail] at h

/-- Text where the line should end is told of where it starts. -/
theorem fails_lineTail {c : Cursor} {e : ScanError} (h : c.lineTail = .error e) : c.Fails e := by
  have hb := Ahead.skipWhile c isBlank
  unfold lineTail at h
  simp only at h
  split at h
  · cases h
  · split at h
    · cases h
    · exact .behind hb (.of_fail h)

/-! ## Names, tags and directives -/

/-- The name behind a `*` or `&` makes a token that starts at the mark and ends with the name. -/
theorem reads_name {c c' : Cursor} {t : Token} {missing : Char → ScanError.Cause}
    {kind : String → TokenKind} (hc : c.rest ≠ []) (h : c.name missing kind = .ok (t, c')) :
    c.Reads t c' ∧ ∃ s, t.kind = kind s := by
  unfold name at h
  simp only at h
  split at h
  · simp [fail] at h
  · cases h
    rw [forward_forward]
    exact ⟨.of_forward hc (by omega), _, rfl⟩

/-- A missing name is told of where it is missed. -/
theorem fails_name {c : Cursor} {missing : Char → ScanError.Cause} {kind : String → TokenKind}
    {e : ScanError} (h : c.name missing kind = .error e) : c.Fails e := by
  unfold name at h
  simp only at h
  split at h
  · exact .behind (.forward c 1) (.of_fail h)
  · cases h

theorem ahead_tagSuffix {c c' : Cursor} {flow : Bool} {text : List Char}
    (h : c.tagSuffix flow = .ok (text, c')) : c.Ahead c' := by
  unfold tagSuffix at h
  simp only at h
  split at h
  · simp [fail] at h
  · cases h
    exact .forward c _

theorem fails_tagSuffix {c : Cursor} {flow : Bool} {e : ScanError}
    (h : c.tagSuffix flow = .error e) : c.Fails e := by
  unfold tagSuffix at h
  simp only at h
  split at h
  · exact .of_fail h
  · cases h

theorem ahead_tagHandle {c c' : Cursor} {text : List Char} (h : c.tagHandle = .ok (text, c')) :
    (c.forward 1).Ahead c' := by
  unfold tagHandle at h
  simp only at h
  split at h
  · cases h
    rw [Nat.add_comm, ← forward_forward c 1]
    exact (Ahead.forward _ _).then_forward 1
  · simp [fail] at h

/-- A handle without a second `!` is told of where that is missed. -/
theorem fails_tagHandle {c : Cursor} {e : ScanError} (h : c.tagHandle = .error e) : c.Fails e := by
  unfold tagHandle at h
  simp only at h
  split at h
  · cases h
  · exact .behind (.forward c _) (.of_fail h)

theorem ahead_verbatimTag {c c' : Cursor} {flow : Bool} {text : List Char}
    (h : c.verbatimTag flow = .ok (text, c')) : (c.forward 1).Ahead c' := by
  unfold verbatimTag at h
  split at h
  · cases h
  · rename_i c₁ hs
    split at h
    · cases h
      exact ((Ahead.forward (c.forward 1) 1).trans (ahead_tagSuffix hs)).then_forward 1
    · simp [fail] at h

/-- A tag in brackets goes wrong in its text or at a missing bracket. -/
theorem fails_verbatimTag {c : Cursor} {flow : Bool} {e : ScanError}
    (h : c.verbatimTag flow = .error e) : c.Fails e := by
  unfold verbatimTag at h
  split at h
  · rename_i hs
    cases h
    exact .behind (.forward c 2) (fails_tagSuffix hs)
  · rename_i c₁ hs
    split at h
    · cases h
    · exact .behind ((Ahead.forward c 2).trans (ahead_tagSuffix hs)) (.of_fail h)

theorem ahead_shorthandTag {c c' : Cursor} {flow : Bool} {handle suffix : List Char}
    (h : c.shorthandTag flow = .ok (handle, suffix, c')) : (c.forward 1).Ahead c' := by
  unfold shorthandTag at h
  simp only at h
  split at h
  · cases h
  · rename_i c₁ hh
    have h₁ : (c.forward 1).Ahead c₁ := by
      split at hh
      · exact ahead_tagHandle hh
      · cases hh
        exact .refl _
    split at h
    · cases h
    · rename_i hs
      cases h
      exact h₁.trans (ahead_tagSuffix hs)

/-- A shorthand goes wrong in its handle or in its suffix. -/
theorem fails_shorthandTag {c : Cursor} {flow : Bool} {e : ScanError}
    (h : c.shorthandTag flow = .error e) : c.Fails e := by
  unfold shorthandTag at h
  simp only at h
  split at h
  · rename_i hh
    cases h
    split at hh
    · exact fails_tagHandle hh
    · cases hh
  · rename_i c₁ hh
    have h₁ : c.Ahead c₁ := by
      split at hh
      · exact (Ahead.forward c 1).trans (ahead_tagHandle hh)
      · cases hh
        exact .forward c 1
    split at h
    · rename_i hs
      cases h
      exact .behind h₁ (fails_tagSuffix hs)
    · cases h

theorem ahead_tagParts {c c' : Cursor} {flow : Bool} {handle suffix : List Char}
    (h : c.tagParts flow = .ok (handle, suffix, c')) : (c.forward 1).Ahead c' := by
  unfold tagParts at h
  split at h
  · split at h
    · cases h
    · rename_i hv
      cases h
      exact ahead_verbatimTag hv
  · split at h
    · cases h
      exact .refl _
    · exact ahead_shorthandTag h

theorem fails_tagParts {c : Cursor} {flow : Bool} {e : ScanError}
    (h : c.tagParts flow = .error e) : c.Fails e := by
  unfold tagParts at h
  split at h
  · split at h
    · rename_i hv
      cases h
      exact fails_verbatimTag hv
    · cases h
  · split at h
    · cases h
    · exact fails_shorthandTag h

/-- What lies ahead of the next character is shorter than the text. -/
theorem length_rest_lt_of_ahead {c c' : Cursor} {n : Nat} (hc : c.rest ≠ []) (hn : 0 < n)
    (h : (c.forward n).Ahead c') : c'.rest.length < c.rest.length := by
  have h₁ := h.length_rest_le
  have h₂ := List.length_pos_iff.2 hc
  rw [length_rest_forward] at h₁
  omega

/-- A tag of any form makes one token from its first `!` to the end of its suffix. -/
theorem reads_tag {c c' : Cursor} {t : Token} {flow : Bool} (hc : c.rest ≠ [])
    (h : c.tag flow = .ok (t, c')) : c.Reads t c' ∧ ∃ handle suffix, t.kind = .tag handle suffix := by
  unfold tag at h
  split at h
  · cases h
  · rename_i c₁ hp
    have hp := ahead_tagParts hp
    split at h
    · cases h
      exact ⟨⟨rfl, ⟨_, (Ahead.forward c 1).trans hp, .refl _, rfl⟩,
        length_rest_lt_of_ahead hc Nat.one_pos hp⟩, _, _, rfl⟩
    · simp [fail] at h

/-- A tag goes wrong in its parts or at text right behind it. -/
theorem fails_tag {c : Cursor} {flow : Bool} {e : ScanError} (h : c.tag flow = .error e) :
    c.Fails e := by
  unfold tag at h
  split at h
  · rename_i hp
    cases h
    exact fails_tagParts hp
  · rename_i c₁ hp
    split at h
    · cases h
    · exact .behind ((Ahead.forward c 1).trans (ahead_tagParts hp)) (.of_fail h)

/-- A directive makes one token, and a comment behind it lies behind the token. -/
theorem reads_directive {c c' : Cursor} {t : Token} {k : Option Comment} (hc : c.rest ≠ [])
    (h : c.directive = .ok (t, k, c')) :
    c.Reads t c' ∧ Notes c k.toList c' ∧ ∃ name value, t.kind = .directive name value := by
  unfold directive at h
  simp only at h
  split at h
  · simp [fail] at h
  · split at h
    · simp [fail] at h
    · split at h
      · cases h
      · rename_i ht
        have hn := notes_lineTail ht
        cases h
        have h₁ := Ahead.forward c 1
        have h₂ := Ahead.forward (c.forward 1) ((c.forward 1).rest.takeWhile isWordChar).length
        have h₃ := (h₂.trans (.skipWhile _ isBlank)).then_forward (directiveText false
          (((c.forward 1).forward ((c.forward 1).rest.takeWhile isWordChar).length).skipWhile
            isBlank).rest).length
        exact ⟨⟨rfl, ⟨_, h₁.trans h₃, hn.laid.ahead, rfl⟩,
          length_rest_lt_of_ahead hc Nat.one_pos (h₃.trans hn.laid.ahead)⟩,
          .behind (h₁.trans h₃) hn, _, _, rfl⟩

/-- A directive goes wrong in its name or in the rest of its line. -/
theorem fails_directive {c : Cursor} {e : ScanError} (h : c.directive = .error e) : c.Fails e := by
  unfold directive at h
  simp only at h
  have h₁ := Ahead.forward c 1
  have h₂ := h₁.then_forward ((c.forward 1).rest.takeWhile isWordChar).length
  split at h
  · exact .behind h₁ (.of_fail h)
  · split at h
    · exact .behind h₂ (.of_fail h)
    · split at h
      · rename_i ht
        cases h
        exact .behind ((h₂.trans (.skipWhile _ isBlank)).then_forward _) (fails_lineTail ht)
      · cases h

/-! ## Quoted scalars -/

theorem ahead_quotedBreaks {c : Cursor} {part : QuotedPart} (h : c.quotedBreaks = .ok part) :
    c.Ahead part.cursor := by
  fun_induction quotedBreaks c generalizing part with
  | case1 => simp [fail] at h
  | case2 c => cases h; exact .skipWhile c isBlank
  | case3 => cases h
  | case4 c _ ch c' hb more hm ih =>
    cases h
    have h₁ := ih hm
    exact ((Ahead.skipWhile c isBlank).trans (.lineBreak? hb)).trans h₁

/-- A document marker inside quotes is told of where it stands. -/
theorem fails_quotedBreaks {c : Cursor} {e : ScanError} (h : c.quotedBreaks = .error e) :
    c.Fails e := by
  fun_induction quotedBreaks c generalizing e with
  | case1 => exact .of_fail h
  | case2 => cases h
  | case3 c _ ch c' hb e' he ih =>
    cases h
    exact .behind ((Ahead.skipWhile c isBlank).trans (.lineBreak? hb)) (ih he)
  | case4 => cases h

theorem ahead_quotedGap {c : Cursor} {part : QuotedPart} (h : c.quotedGap = .ok part) :
    c.Ahead part.cursor := by
  have h₁ := Ahead.forward c (c.rest.takeWhile isBlank).length
  unfold quotedGap at h
  simp only at h
  split at h
  · simp [fail] at h
  · split at h
    · cases h
      exact h₁
    · rename_i hb
      split at h
      · cases h
      · rename_i hm
        cases h
        have h₂ := ahead_quotedBreaks hm
        exact (h₁.trans (.lineBreak? hb)).trans h₂

/-- A gap inside quotes goes wrong at the end of the text or at a document marker. -/
theorem fails_quotedGap {c : Cursor} {e : ScanError} (h : c.quotedGap = .error e) : c.Fails e := by
  have h₁ := Ahead.forward c (c.rest.takeWhile isBlank).length
  unfold quotedGap at h
  simp only at h
  split at h
  · exact .behind h₁ (.of_fail h)
  · split at h
    · cases h
    · rename_i hb
      split at h
      · rename_i hm
        cases h
        exact .behind (h₁.trans (.lineBreak? hb)) (fails_quotedBreaks hm)
      · cases h

theorem ahead_escape {c : Cursor} {part : QuotedPart} (h : c.escape = .ok part) :
    c.Ahead part.cursor := by
  unfold escape at h
  simp only at h
  split at h
  · cases h
    exact .forward c 1
  · split at h
    · split at h
      · cases h
        exact (Ahead.forward c 1).then_forward _
      · simp [fail] at h
    · split at h
      · rename_i hb
        exact (Ahead.lineBreak? hb).trans (ahead_quotedBreaks h)
      · simp [fail] at h

/-- An escape that stands for no character is told of at its letter or its digits. -/
theorem fails_escape {c : Cursor} {e : ScanError} (h : c.escape = .error e) : c.Fails e := by
  unfold escape at h
  simp only at h
  split at h
  · cases h
  · split at h
    · split at h
      · cases h
      · exact .behind (.forward c 1) (.of_fail h)
    · split at h
      · rename_i hb
        exact .behind (.lineBreak? hb) (fails_quotedBreaks h)
      · exact .of_fail h

theorem ahead_quotedUnit {c : Cursor} {double : Bool} {part : QuotedPart}
    (h : c.quotedUnit double = .ok (some part)) : c.Ahead part.cursor := by
  unfold quotedUnit at h
  simp only at h
  split at h
  · cases hg : c.quotedGap with
    | error e => simp [hg, Except.map] at h
    | ok gap =>
      obtain rfl : gap = part := by simpa [hg, Except.map] using h
      exact ahead_quotedGap hg
  · split at h
    · split at h
      · cases h
      · split at h
        · cases he : (c.forward 1).escape with
          | error e => simp [he, Except.map] at h
          | ok unit =>
            obtain rfl : unit = part := by simpa [he, Except.map] using h
            exact (Ahead.forward c 1).trans (ahead_escape he)
        · cases h
          exact .forward c 1
    · split at h
      · split at h
        · cases h
          exact .forward c 2
        · cases h
      · cases h
        exact .forward c 1

theorem fails_quotedUnit {c : Cursor} {double : Bool} {e : ScanError}
    (h : c.quotedUnit double = .error e) : c.Fails e := by
  unfold quotedUnit at h
  simp only at h
  split at h
  · cases hg : c.quotedGap with
    | error e' =>
      obtain rfl : e' = e := by simpa [hg, Except.map] using h
      exact fails_quotedGap hg
    | ok gap => simp [hg, Except.map] at h
  · split at h
    · split at h
      · cases h
      · split at h
        · cases he : (c.forward 1).escape with
          | error e' =>
            obtain rfl : e' = e := by simpa [he, Except.map] using h
            exact .behind (.forward c 1) (fails_escape he)
          | ok unit => simp [he, Except.map] at h
        · cases h
    · split at h
      · split at h <;> cases h
      · cases h

/-- The inside of a quoted scalar is read forwards, step by step. -/
theorem ahead_quotedBody {c : Cursor} {double : Bool} {part : QuotedPart}
    (h : c.quotedBody double = .ok part) : c.Ahead part.cursor := by
  fun_induction quotedBody c double generalizing part with
  | case1 => cases h
  | case2 c => cases h; exact .refl c
  | case3 => cases h
  | case4 c unit hu more hm ih =>
    cases h
    have h₁ := ih hm
    exact (ahead_quotedUnit hu).trans h₁

/-- The inside of a quoted scalar goes wrong where one of its steps does. -/
theorem fails_quotedBody {c : Cursor} {double : Bool} {e : ScanError}
    (h : c.quotedBody double = .error e) : c.Fails e := by
  fun_induction quotedBody c double generalizing e with
  | case1 c e' hu => cases h; exact fails_quotedUnit hu
  | case2 => cases h
  | case3 c unit hu e' he ih =>
    cases h
    exact .behind (ahead_quotedUnit hu) (ih he)
  | case4 => cases h

/-- A quoted scalar makes one token from its first quote to its last. -/
theorem reads_quoted {c c' : Cursor} {t : Token} {double : Bool} (hc : c.rest ≠ [])
    (h : c.quoted double = .ok (t, c')) :
    c.Reads t c' ∧ ∃ value style, t.kind = .scalar value style ∧ style.isQuoted := by
  unfold quoted at h
  split at h
  · cases h
  · rename_i body hb
    cases h
    have h₁ := (ahead_quotedBody hb).then_forward 1
    refine ⟨⟨rfl, ⟨_, (Ahead.forward c 1).trans h₁, .refl _, rfl⟩,
      length_rest_lt_of_ahead hc Nat.one_pos h₁⟩, _, _, rfl, ?_⟩
    cases double <;> rfl

/-- A quoted scalar goes wrong inside. -/
theorem fails_quoted {c : Cursor} {double : Bool} {e : ScanError}
    (h : c.quoted double = .error e) : c.Fails e := by
  unfold quoted at h
  split at h
  · rename_i hb
    cases h
    exact .behind (.forward c 1) (fails_quotedBody hb)
  · cases h

/-! ## Plain scalars -/

theorem ahead_plainBreaks (c : Cursor) : c.Ahead c.plainBreaks.2 := by
  fun_induction plainBreaks c with
  | case1 c => exact .skipWhile c _
  | case2 c ch c' h => exact (Ahead.skipWhile c _).trans (.lineBreak? h)
  | case3 c ch c' h _ breaks c'' heq ih =>
    rw [heq] at ih
    exact ((Ahead.skipWhile c _).trans (.lineBreak? h)).trans ih

/-- Blanks and line breaks behind a chunk are read forwards, also where the scalar does not go on.
-/
theorem ahead_plainGap (c : Cursor) : c.Ahead c.plainGap.cursor := by
  have h₀ := Ahead.forward c (c.rest.takeWhile isBlank).length
  unfold plainGap
  simp only
  split
  · exact h₀
  · rename_i ch c₂ h
    split
    · exact h₀.trans (.lineBreak? h)
    · exact (h₀.trans (.lineBreak? h)).trans c₂.ahead_plainBreaks

/-- A plain scalar ends at a cursor on the way. -/
theorem between_plain (c : Cursor) (flow : Bool) (indent : Int) :
    c.Between (c.plain flow indent).stop (c.plain flow indent).cursor := by
  fun_induction plain c flow indent with
  | case1 c => exact ⟨c, .refl c, .refl c, rfl⟩
  | case2 c chunk _ c₁ gap _ => exact ⟨c₁, .forward c _, c₁.ahead_plainGap, rfl⟩
  | case3 c chunk _ c₁ gap _ => exact ⟨c₁, .forward c _, c₁.ahead_plainGap, rfl⟩
  | case4 c chunk _ c₁ gap joint _ _ _ more _ ih =>
    exact ⟨c₁, .forward c _, c₁.ahead_plainGap.trans ih.ahead, rfl⟩
  | case5 c chunk _ c₁ gap joint _ _ _ more _ ih =>
    exact ih.behind ((Ahead.forward c _).trans c₁.ahead_plainGap)
  | case6 c chunk _ c₁ gap joint _ _ _ => exact ⟨c₁, .forward c _, c₁.ahead_plainGap, rfl⟩

/-- A plain scalar is read forwards, its first chunk first. -/
theorem ahead_plain (c : Cursor) (flow : Bool) (indent : Int) :
    (c.forward (plainChunk flow c.rest).length).Ahead (c.plain flow indent).cursor := by
  have hgap := (c.forward (plainChunk flow c.rest).length).ahead_plainGap
  rw [plain]
  simp only
  split
  · rename_i h
    rw [h]
    exact .refl c
  · split
    · exact hgap
    · exact hgap
    · split
      · have hmore := hgap.trans (between_plain _ flow indent).ahead
        split
        · exact hmore
        · exact hmore
      · exact hgap

theorem isIndicator_of_isFlowMark {c : Char} (h : isFlowMark c) : isIndicator c := by
  simp only [isFlowMark, Bool.or_eq_true, beq_iff_eq] at h
  rcases h with (((rfl | rfl) | rfl) | rfl) | rfl <;> decide

/-- A character that starts a plain scalar does not end its first chunk. -/
theorem endsPlainChunk_of_startsPlain {flow : Bool} {ch next : Char}
    (h : ScanState.startsPlain flow ch next) : endsPlainChunk flow ch next = false := by
  simp only [ScanState.startsPlain, Bool.or_eq_true, Bool.not_eq_true', Bool.or_eq_false_iff,
    Bool.and_eq_true, beq_iff_eq] at h
  obtain ⟨hb, hi⟩ | ⟨hn, rfl | ⟨rfl, rfl | rfl⟩⟩ := h
  · have hc : ch ≠ ':' := by rintro rfl; exact absurd hi (by decide)
    have hq : ch ≠ '?' := by rintro rfl; exact absurd hi (by decide)
    have hf : isFlowMark ch = false :=
      Bool.eq_false_iff.2 fun hf => by simp [isIndicator_of_isFlowMark hf] at hi
    simp [endsPlainChunk, hb, hc, hq, hf]
  · have hb : isBlankOrEnd '-' = false := by decide
    have hf : isFlowMark '-' = false := by decide
    simp [endsPlainChunk, hb, hf]
  · have hb : isBlankOrEnd '?' = false := by decide
    simp [endsPlainChunk, hb]
  · have hb : isBlankOrEnd ':' = false := by decide
    simp [endsPlainChunk, hb, hn]

/-- A character that can start a plain scalar is part of it. -/
theorem plainChunk_ne_nil {c : Cursor} {flow : Bool} (hc : c.rest ≠ [])
    (h : ScanState.startsPlain flow c.peek (c.peekAt 1)) : plainChunk flow c.rest ≠ [] := by
  cases hr : c.rest with
  | nil => exact absurd hr hc
  | cons ch rest =>
    have h₀ : c.peek = ch := by simp [peek, peekAt, hr]
    have h₁ : c.peekAt 1 = rest.headD nul := by cases rest <;> simp [peekAt, hr]
    rw [h₀, h₁] at h
    rw [plainChunk, endsPlainChunk_of_startsPlain h]
    simp

/-- A plain scalar takes a character at least, and ends behind its last chunk. -/
theorem reads_plain {c : Cursor} {flow : Bool} {indent : Int} {kind : TokenKind}
    (hc : c.rest ≠ []) (h : ScanState.startsPlain flow c.peek (c.peekAt 1)) :
    c.Reads ⟨kind, c.mark, (c.plain flow indent).stop⟩ (c.plain flow indent).cursor where
  start := rfl
  stop := between_plain c flow indent
  shorter := length_rest_lt_of_ahead hc (List.length_pos_iff.2 (plainChunk_ne_nil hc h))
    (ahead_plain c flow indent)

/-! ## Block scalars -/

theorem ahead_blockIncrement {c c' : Cursor} {n : Option Nat}
    (h : c.blockIncrement = .ok (n, c')) : c.Ahead c' := by
  unfold blockIncrement at h
  split at h
  · split at h
    · simp [fail] at h
    · cases h
      exact .forward c 1
  · cases h
    exact .refl c

theorem fails_blockIncrement {c : Cursor} {e : ScanError} (h : c.blockIncrement = .error e) :
    c.Fails e := by
  unfold blockIncrement at h
  split at h
  · split at h
    · exact .of_fail h
    · cases h
  · cases h

theorem ahead_blockIndicators {c c' : Cursor} {header : BlockHeader}
    (h : c.blockIndicators = .ok (header, c')) : c.Ahead c' := by
  unfold blockIndicators at h
  split at h
  · split at h
    · cases h
    · rename_i hi
      cases h
      exact (Ahead.forward c 1).trans (ahead_blockIncrement hi)
  · split at h
    · cases h
    · rename_i hi
      cases h
      exact ahead_blockIncrement hi
    · rename_i hi
      split at h
      · cases h
        exact (ahead_blockIncrement hi).then_forward 1
      · cases h
        exact ahead_blockIncrement hi

theorem fails_blockIndicators {c : Cursor} {e : ScanError} (h : c.blockIndicators = .error e) :
    c.Fails e := by
  unfold blockIndicators at h
  split at h
  · split at h
    · rename_i hi
      cases h
      exact .behind (.forward c 1) (fails_blockIncrement hi)
    · cases h
  · split at h
    · rename_i hi
      cases h
      exact fails_blockIncrement hi
    · cases h
    · split at h <;> cases h

/-- The comment behind the indicators of a header lies where it was read. -/
theorem notes_blockHeader {c c' : Cursor} {header : BlockHeader} {k : Option Comment}
    (h : c.blockHeader = .ok (header, k, c')) : Notes c k.toList c' := by
  unfold blockHeader at h
  split at h
  · cases h
  · rename_i hi
    split at h
    · split at h
      · cases h
      · rename_i ht
        cases h
        exact .behind (ahead_blockIndicators hi) (notes_lineTail ht)
    · simp [fail] at h

/-- A header goes wrong in its indicators or in the rest of its line. -/
theorem fails_blockHeader {c : Cursor} {e : ScanError} (h : c.blockHeader = .error e) :
    c.Fails e := by
  unfold blockHeader at h
  split at h
  · rename_i hi
    cases h
    exact fails_blockIndicators hi
  · rename_i hi
    have h₁ := ahead_blockIndicators hi
    split at h
    · split at h
      · rename_i ht
        cases h
        exact .behind h₁ (fails_lineTail ht)
      · cases h
    · exact .behind h₁ (.of_fail h)

/-- Empty lines in front of the first line of text end at a mark that was passed. -/
theorem between_leadingBreaks (c : Cursor) (deepest : Nat) :
    c.Between (c.leadingBreaks deepest c.mark).1.stop (c.leadingBreaks deepest c.mark).1.cursor := by
  generalize hm : c.mark = stop
  fun_induction leadingBreaks c deepest stop with
  | case1 c deepest stop => exact ⟨c, .refl c, .skipWhile c _, hm.symm⟩
  | case2 c deepest stop deepest' ch c' h lines deepest'' heq ih =>
    have ih := ih rfl
    rw [heq] at ih
    exact ih.behind ((Ahead.skipWhile c _).trans (.lineBreak? h))

theorem between_indentedBreaks (c : Cursor) (indent : Nat) :
    c.Between (c.indentedBreaks indent c.mark).stop (c.indentedBreaks indent c.mark).cursor := by
  generalize hm : c.mark = stop
  fun_induction indentedBreaks c indent stop with
  | case1 c stop => exact ⟨c, .refl c, .forward c _, hm.symm⟩
  | case2 c stop ch c' h lines ih =>
    exact (ih rfl).behind ((Ahead.forward c _).trans (.lineBreak? h))

/-- The lines of text end at a mark that was passed. -/
theorem between_blockLines (c : Cursor) (folded : Bool) (indent : Nat) :
    c.Between (c.blockLines folded indent).stop (c.blockLines folded indent).cursor := by
  fun_induction blockLines c folded indent with
  | case1 c => exact ⟨c.skipLine, .skipLine c, .refl _, rfl⟩
  | case2 c ch c₁ h text lines _ more joint ih =>
    exact ih.behind (((Ahead.skipLine c).trans (.lineBreak? h)).trans
      (c₁.between_indentedBreaks indent).ahead)
  | case3 c ch c₁ h text lines _ =>
    exact (c₁.between_indentedBreaks indent).behind ((Ahead.skipLine c).trans (.lineBreak? h))

/-- A block scalar with or without text ends at a mark that was passed. -/
theorem between_blockBody {c : Cursor} {lines : EmptyLines} (folded : Bool) (indent : Nat)
    (h : c.Between lines.stop lines.cursor) :
    c.Between (blockBody lines folded indent).stop (blockBody lines folded indent).cursor := by
  unfold blockBody
  split
  · exact (lines.cursor.between_blockLines folded indent).behind h.ahead
  · exact h

/-- A block scalar ends behind its first character, and has the style that it is read for. -/
theorem between_block {c c' : Cursor} {t : Token} {folded : Bool} {parent : Int}
    {k : Option Comment} (h : c.block folded parent = .ok (t, k, c')) :
    t.start = c.mark ∧ (c.forward 1).Between t.stop c' ∧ Notes (c.forward 1) k.toList c' ∧
      ∃ value, t.kind = .scalar value (if folded then .folded else .literal) := by
  unfold block at h
  split at h
  · cases h
  · rename_i header k' c₁ hh
    have hn := notes_blockHeader hh
    -- with or without an indicator, the text starts with the empty lines behind the header
    have hbody : c₁.Between t.stop c' := by
      cases h
      simp only
      split
      · exact between_blockBody folded _ (c₁.between_leadingBreaks 0)
      · exact between_blockBody folded _ (c₁.between_indentedBreaks _)
    have hb := hbody.behind hn.laid.ahead
    cases h
    exact ⟨rfl, hb, hn.extend hbody.ahead, _, rfl⟩

/-- A block scalar makes one token, and a comment in its header lies inside. -/
theorem reads_block {c c' : Cursor} {t : Token} {folded : Bool} {parent : Int} {k : Option Comment}
    (hc : c.rest ≠ []) (h : c.block folded parent = .ok (t, k, c')) :
    c.Reads t c' ∧ Notes c k.toList c' ∧ ∃ value style, t.kind = .scalar value style := by
  obtain ⟨hstart, hb, hn, value, hkind⟩ := between_block h
  exact ⟨⟨hstart, hb.behind (.forward c 1), length_rest_lt_of_ahead hc Nat.one_pos hb.ahead⟩,
    hn.behind (.forward c 1), value, _, hkind⟩

/-- A block scalar goes wrong in its header only. -/
theorem fails_block {c : Cursor} {folded : Bool} {parent : Int} {e : ScanError}
    (h : c.block folded parent = .error e) : c.Fails e := by
  unfold block at h
  split at h
  · rename_i hh
    cases h
    exact .behind (.forward c 1) (fails_blockHeader hh)
  · cases h

end Cursor

end YamlLinter
