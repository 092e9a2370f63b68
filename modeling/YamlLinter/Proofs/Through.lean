import YamlLinter.Proofs.Lexeme

/-!
# The characters that readers pass

A cursor that lies ahead of another has passed the characters between them. No reader passes a NUL,
which stands for the end of the text, and behind the end of its token a reader passes only blanks,
line breaks and a comment.

## Contents

* `Cursor.Through`: a cursor reached by reading characters of one kind;
* `Cursor.Trails`, `Cursor.Clear`: what stands behind the end of a token, without and with comments;
* `Cursor.Takes`: a token with everything that its reader passes;
* `takes_*`: one fact for each reader.
-/

namespace YamlLinter

open Text

/-- What may stand between tokens: blanks and line breaks. -/
def isLayout (ch : Char) : Bool := isBlank ch || isBreak ch

/-- Every character but NUL. -/
def isReal (ch : Char) : Bool := ch != nul

theorem isReal_of_ne {ch : Char} (h : ch ≠ nul) : isReal ch = true := by
  simpa [isReal] using h

/-- A class without NUL holds characters of the text only. -/
theorem isReal_of_class {p : Char → Bool} (hp : p nul = false) {ch : Char} (h : p ch = true) :
    isReal ch = true := by
  refine isReal_of_ne ?_
  rintro rfl
  rw [hp] at h
  cases h

/-- What has a meaning where NUL has none is no NUL. -/
theorem ne_nul_of_eq_some {α : Type} {f : Char → Option α} (hf : f nul = none) {ch : Char} {x : α}
    (h : f ch = some x) : ch ≠ nul := by
  rintro rfl
  rw [hf] at h
  cases h

theorem isLayout_of_isBlank {ch : Char} (h : isBlank ch = true) : isLayout ch = true := by
  simp [isLayout, h]

theorem ne_nul_of_isLayout {ch : Char} (h : isLayout ch = true) : ch ≠ nul := by
  rintro rfl
  exact absurd h (by decide)

theorem isLayout_of_space {ch : Char} (h : (ch == ' ') = true) : isLayout ch = true := by
  simp [isLayout, isBlank, h]

namespace Cursor

/-- `c'` is reached from `c` by reading characters that satisfy `p`. -/
inductive Through (p : Char → Bool) : Cursor → Cursor → Prop where
  | refl (c : Cursor) : Through p c c
  | step {c c' : Cursor} {ch : Char} {rest : List Char} : c.rest = ch :: rest → p ch = true →
      Through p c.advance c' → Through p c c'

namespace Through

variable {p q : Char → Bool} {a b c c' : Cursor} {ch : Char}

/-- Two stretches of the text behind each other. -/
theorem trans (h₁ : Through p a b) (h₂ : Through p b c) : Through p a c := by
  induction h₁ with
  | refl => exact h₂
  | step hr hp _ ih => exact .step hr hp (ih h₂)

/-- A stretch of some characters is one of a wider class. -/
theorem mono (hpq : ∀ ch, p ch = true → q ch = true) (h : Through p a b) : Through q a b := by
  induction h with
  | refl => exact .refl _
  | step hr hp _ ih => exact .step hr (hpq _ hp) ih

/-- Reading moves forwards. -/
theorem ahead (h : Through p a b) : a.Ahead b := by
  induction h with
  | refl c => exact .refl c
  | @step c c' ch rest _ _ _ ih => exact (Ahead.forward c 1).trans ih

/-- The characters `cs` come next and satisfy `p`. -/
theorem chars {cs : List Char} (hcs : cs <+: c.rest) (hp : ∀ ch ∈ cs, p ch = true) :
    Through p c (c.forward cs.length) := by
  induction cs generalizing c with
  | nil => exact .refl c
  | cons ch cs ih =>
    obtain ⟨rest, hrest⟩ := hcs
    have hadvance : c.advance.rest = cs ++ rest := by simp [advance, ← hrest]
    refine .step hrest.symm (hp ch List.mem_cons_self) ?_
    exact ih ⟨rest, hadvance.symm⟩ fun d hd => hp d (List.mem_cons_of_mem ch hd)

theorem skipWhile (c : Cursor) (p : Char → Bool) : Through p c (c.skipWhile p) :=
  chars (List.takeWhile_prefix p) (List.all_eq_true.1 List.all_takeWhile)

/-- Skipping characters of a class without NUL. -/
theorem skipReal (c : Cursor) {p : Char → Bool} (hp : p nul = false) :
    Through isReal c (c.skipWhile p) :=
  (skipWhile c p).mono fun _ => isReal_of_class hp

/-- One character is a stretch of its own. -/
theorem one (hp : p c.peek = true) (hne : c.peek ≠ nul) : Through p c (c.forward 1) := by
  cases hr : c.rest with
  | nil => exact absurd hr (rest_ne_nil_of_peek_ne_nul hne)
  | cons ch rest =>
    have hch : c.peek = ch := by simp [peek, peekAt, hr]
    exact .step hr (hch ▸ hp) (.refl _)

/-- The next character is no NUL. -/
theorem real (hne : c.peek ≠ nul) : Through isReal c (c.forward 1) :=
  one (isReal_of_ne hne) hne

theorem layout (h : Through isLayout a b) : Through isReal a b :=
  h.mono fun _ => isReal_of_class (by decide)

theorem blanks (c : Cursor) : Through isLayout c (c.skipWhile isBlank) :=
  (skipWhile c isBlank).mono fun _ => isLayout_of_isBlank

theorem spaces (c : Cursor) : Through isLayout c (c.skipWhile (· == ' ')) :=
  (skipWhile c (· == ' ')).mono fun _ => isLayout_of_space

theorem skipLine (c : Cursor) : Through isReal c c.skipLine :=
  skipReal c (by decide)

end Through

/-- A line break is layout. -/
theorem through_lineBreak? {c c' : Cursor} {ch : Char} (h : c.lineBreak? = some (ch, c')) :
    Through isLayout c c' := by
  unfold lineBreak? at h
  simp only at h
  split at h
  · rename_i hcr
    cases h
    obtain ⟨h₀, h₁⟩ := Bool.and_eq_true_iff.1 hcr
    -- a carriage return and the line feed behind it are two characters of the text
    have hrest : ['\r', '\n'] <+: c.rest := by
      cases hr : c.rest with
      | nil => simp [peek, peekAt, hr, nul] at h₀
      | cons d rest =>
        obtain rfl : d = '\r' := by simpa [peek, peekAt, hr] using h₀
        cases rest with
        | nil => simp [peekAt, hr, nul] at h₁
        | cons e rest =>
          obtain rfl : e = '\n' := by simpa [peekAt, hr] using h₁
          exact ⟨rest, rfl⟩
    exact Through.chars hrest (by simp [isLayout, isBreak])
  · split at h
    · rename_i hb
      cases h
      have hlayout : isLayout c.peek = true := by
        simp only [Bool.or_eq_true, beq_iff_eq] at hb
        rcases hb with (hb | hb) | hb <;> rw [hb] <;> decide
      exact .one hlayout (ne_nul_of_isLayout hlayout)
    · split at h
      · rename_i hb
        cases h
        have hlayout : isLayout c.peek = true := by
          simp only [Bool.or_eq_true, beq_iff_eq] at hb
          rcases hb with hb | hb <;> rw [hb] <;> decide
        exact .one hlayout (ne_nul_of_isLayout hlayout)
      · cases h

theorem through_skipBreak (c : Cursor) : Through isLayout c c.skipBreak := by
  unfold skipBreak
  split
  · exact through_lineBreak? ‹_›
  · exact .refl c

/-! ## Behind a token -/

/-- The mark is that of a cursor on the way from `c` to `c'`, and behind it only blanks and line
breaks are passed. -/
def Trails (c : Cursor) (m : Mark) (c' : Cursor) : Prop :=
  ∃ c₁, c.Through isReal c₁ ∧ m = c₁.mark ∧ c₁.Through isLayout c'

namespace Trails

variable {a b c : Cursor} {m : Mark}

/-- A token that ends where reading goes on. -/
theorem here (h : a.Through isReal b) : a.Trails b.mark b := ⟨b, h, rfl, .refl b⟩

/-- What is read in front of a token belongs to the way. -/
theorem behind (h : a.Through isReal b) (hm : b.Trails m c) : a.Trails m c := by
  obtain ⟨c₁, h₁, hm, h₂⟩ := hm
  exact ⟨c₁, h.trans h₁, hm, h₂⟩

/-- Up to where reading goes on, the text is not left. -/
theorem through (h : a.Trails m b) : a.Through isReal b := by
  obtain ⟨c₁, h₁, -, h₂⟩ := h
  exact h₁.trans h₂.layout

end Trails

/-- Between two cursors stand the comments `ks`, and apart from them only blanks and line breaks. -/
inductive Clear : Cursor → List Comment → Cursor → Prop where
  | nil {c c' : Cursor} : c.Through isLayout c' → Clear c [] c'
  | cons {c c₁ c₂ c' : Cursor} {k : Comment} {ks : List Comment} : c.Through isLayout c₁ →
      k.start = c₁.mark → c₁.Through isReal c₂ → k.stop = c₂.mark → Clear c₂ ks c' →
      Clear c (k :: ks) c'

namespace Clear

variable {a b c : Cursor} {ks ls : List Comment}

/-- Layout in front of comments. -/
theorem behind (h : a.Through isLayout b) (hc : Clear b ks c) : Clear a ks c := by
  cases hc with
  | nil h' => exact .nil (h.trans h')
  | cons h₁ hs h₂ ht hr => exact .cons (h.trans h₁) hs h₂ ht hr

/-- Comments of two stretches of the text behind each other. -/
theorem append (h₁ : Clear a ks b) (h₂ : Clear b ls c) : Clear a (ks ++ ls) c := by
  induction h₁ with
  | nil h => exact h₂.behind h
  | cons h hs h' ht _ ih => exact .cons h hs h' ht (ih h₂)

/-- A comment at the cursor, up to the layout behind it. -/
theorem comment (c : Cursor) (h : c.skipLine.Through isLayout a) : Clear c [c.comment] a :=
  .cons (.refl c) rfl (.skipLine c) rfl (.nil h)

/-- Between comments the text is not left. -/
theorem through (h : Clear a ks b) : a.Through isReal b := by
  induction h with
  | nil h => exact h.layout
  | cons h₁ _ h₂ _ _ ih => exact (h₁.layout.trans h₂).trans ih

end Clear

/-- The token `t` is read from `c`, where reading goes on at `c'`: apart from the token and the
comments `ks`, only blanks and line breaks are passed. -/
structure Takes (c : Cursor) (t : Token) (ks : List Comment) (c' : Cursor) : Prop where
  start : t.start = c.mark
  stop : ∃ c₁, c.Through isReal c₁ ∧ t.stop = c₁.mark ∧ Clear c₁ ks c'

namespace Takes

variable {c c' : Cursor} {t : Token}

/-- A token behind which only layout is passed. -/
theorem of_trails (hs : t.start = c.mark) (h : c.Trails t.stop c') : Takes c t [] c' := by
  obtain ⟨c₁, h₁, hm, h₂⟩ := h
  exact ⟨hs, c₁, h₁, hm, .nil h₂⟩

/-- A token behind which nothing is passed. -/
theorem of_through {kind : TokenKind} (h : c.Through isReal c') :
    Takes c ⟨kind, c.mark, c'.mark⟩ [] c' :=
  .of_trails rfl (.here h)

end Takes

/-! ## Gaps -/

/-- What may be skipped on a line is layout. -/
theorem isLayout_of_isSkipped {flow allowKey : Bool} {ch : Char}
    (h : isSkipped flow allowKey ch = true) : isLayout ch = true := by
  simp only [isSkipped, Bool.or_eq_true, Bool.and_eq_true] at h
  rcases h with h | ⟨h, -⟩
  · exact isLayout_of_space h
  · exact isLayout_of_isBlank (by simp [isBlank, h])

/-- On the line of a token, only layout and a comment stand in front of it. -/
theorem clear_lineGap (c : Cursor) (flow allowKey : Bool) :
    Clear c (c.lineGap flow allowKey).1 (c.lineGap flow allowKey).2 := by
  have h : c.Through isLayout (c.skipWhile (isSkipped flow allowKey)) :=
    (Through.skipWhile c _).mono fun _ => isLayout_of_isSkipped
  unfold lineGap
  simp only
  split
  · exact (Clear.comment _ (.refl _)).behind h
  · exact .nil h

/-- In front of a token stand only layout and the comments of the gap. -/
theorem clear_gap (c : Cursor) (flow allowKey : Bool) :
    Clear c (c.gap flow allowKey).comments (c.gap flow allowKey).cursor := by
  fun_induction gap c flow allowKey with
  | case1 c allowKey h => exact c.clear_lineGap flow allowKey
  | case2 c allowKey ch c' h more ih =>
    exact (c.clear_lineGap flow allowKey).append (ih.behind (through_lineBreak? h))

/-- Behind a directive or a header stand only layout and a comment. -/
theorem clear_lineTail {c c' : Cursor} {k : Option Comment} (h : c.lineTail = .ok (k, c')) :
    Clear c k.toList c' := by
  have hb := Through.blanks c
  unfold lineTail at h
  simp only at h
  split at h
  · cases h
    exact (Clear.comment _ (through_skipBreak _)).behind hb
  · split at h
    · cases h
      exact .nil (hb.trans (through_skipBreak _))
    · simp [fail] at h

/-! ## Names, tags and directives -/

/-- An alias or an anchor passes nothing but its token. -/
theorem takes_name {c c' : Cursor} {t : Token} {missing : Char → ScanError.Cause}
    {kind : String → TokenKind} (hc : c.peek ≠ nul) (h : c.name missing kind = .ok (t, c')) :
    Takes c t [] c' := by
  unfold name at h
  simp only at h
  split at h
  · simp [fail] at h
  · cases h
    exact .of_through ((Through.real hc).trans (.skipReal _ (by decide)))

theorem through_tagSuffix {c c' : Cursor} {flow : Bool} {text : List Char}
    (h : c.tagSuffix flow = .ok (text, c')) : c.Through isReal c' := by
  unfold tagSuffix at h
  simp only at h
  split at h
  · simp [fail] at h
  · cases h
    refine .skipReal c (p := fun ch => isUriChar ch && !(flow && isFlowMark ch)) ?_
    cases flow <;> decide

theorem through_tagHandle {c c' : Cursor} {text : List Char} (hc : c.peek ≠ nul)
    (h : c.tagHandle = .ok (text, c')) : c.Through isReal c' := by
  unfold tagHandle at h
  simp only at h
  split at h
  · rename_i hp
    cases h
    have hhandle := (Through.real hc).trans (.skipReal _ (p := isWordChar) (by decide))
    rw [Cursor.skipWhile, forward_forward, rest_forward, Nat.add_comm] at hhandle
    refine hhandle.trans (.real ?_)
    rw [beq_iff_eq.1 hp]
    decide
  · simp [fail] at h

/-- A tag in brackets does not leave the text, since both brackets have to be there. -/
theorem through_verbatimTag {c c' : Cursor} {flow : Bool} {text : List Char} (hc : c.peek ≠ nul)
    (hn : c.peekAt 1 = '<') (h : c.verbatimTag flow = .ok (text, c')) : c.Through isReal c' := by
  unfold verbatimTag at h
  split at h
  · cases h
  · rename_i c₁ hs
    split at h
    · rename_i hp
      cases h
      have hsecond : (c.forward 1).peek = '<' := by
        rw [← hn, peek, peekAt, rest_forward]
        simp [peekAt]
      have hopen : c.Through isReal (c.forward 2) :=
        (Through.real hc).trans (Through.real (by rw [hsecond]; decide))
      refine (hopen.trans (through_tagSuffix hs)).trans (.real ?_)
      rw [beq_iff_eq.1 hp]
      decide
    · simp [fail] at h

theorem through_shorthandTag {c c' : Cursor} {flow : Bool} {handle suffix : List Char}
    (hc : c.peek ≠ nul) (h : c.shorthandTag flow = .ok (handle, suffix, c')) :
    c.Through isReal c' := by
  unfold shorthandTag at h
  simp only at h
  split at h
  · cases h
  · rename_i c₁ hh
    have h₁ : c.Through isReal c₁ := by
      split at hh
      · exact through_tagHandle hc hh
      · cases hh
        exact .real hc
    split at h
    · cases h
    · rename_i hs
      cases h
      exact h₁.trans (through_tagSuffix hs)

/-- A tag passes nothing but its token. -/
theorem takes_tag {c c' : Cursor} {t : Token} {flow : Bool} (hc : c.peek ≠ nul)
    (h : c.tag flow = .ok (t, c')) : Takes c t [] c' := by
  unfold tag at h
  split at h
  · cases h
  · rename_i handle suffix c₁ hp
    have hparts : c.Through isReal c₁ := by
      unfold tagParts at hp
      split at hp
      · rename_i hn
        split at hp
        · cases hp
        · rename_i hv
          cases hp
          exact through_verbatimTag hc (beq_iff_eq.1 hn) hv
      · split at hp
        · cases hp
          exact .real hc
        · exact through_shorthandTag hc hp
    split at h
    · cases h
      exact .of_through hparts
    · simp [fail] at h

/-- The text of a directive stands at the cursor. -/
theorem isPrefix_directiveText (afterBlank : Bool) (cs : List Char) :
    directiveText afterBlank cs <+: cs := by
  fun_induction directiveText afterBlank cs with
  | case1 => exact List.nil_prefix
  | case2 => exact List.nil_prefix
  | case3 afterBlank c cs _ ih => exact List.cons_prefix_cons.2 ⟨rfl, ih⟩

/-- The text of a directive ends in front of a NUL. -/
theorem isReal_of_mem_directiveText {afterBlank : Bool} {cs : List Char} :
    ∀ ch ∈ directiveText afterBlank cs, isReal ch = true := by
  fun_induction directiveText afterBlank cs with
  | case1 => simp
  | case2 => simp
  | case3 afterBlank c cs hc ih =>
    intro ch hch
    rcases List.mem_cons.1 hch with rfl | hch
    · exact isReal_of_class (p := (!isLineEnd ·)) (by decide) (by simp_all)
    · exact ih ch hch

/-- A directive passes nothing but its token and a comment. -/
theorem takes_directive {c c' : Cursor} {t : Token} {k : Option Comment} (hc : c.peek ≠ nul)
    (h : c.directive = .ok (t, k, c')) : Takes c t k.toList c' := by
  unfold directive at h
  simp only at h
  split at h
  · simp [fail] at h
  · split at h
    · simp [fail] at h
    · split at h
      · cases h
      · rename_i ht
        cases h
        have hname := Through.skipReal (c.forward 1) (p := isWordChar) (by decide)
        have hvalue : ∀ d : Cursor,
            d.Through isReal (d.forward (directiveText false d.rest).length) := fun d =>
          Through.chars (isPrefix_directiveText false d.rest) isReal_of_mem_directiveText
        have hblank := (Through.blanks ((c.forward 1).skipWhile isWordChar)).layout
        exact ⟨rfl, _, (((Through.real hc).trans hname).trans hblank).trans (hvalue _), rfl,
          clear_lineTail ht⟩

/-! ## Quoted scalars -/

theorem through_quotedBreaks {c : Cursor} {part : QuotedPart} (h : c.quotedBreaks = .ok part) :
    c.Through isReal part.cursor := by
  fun_induction quotedBreaks c generalizing part with
  | case1 => simp [fail] at h
  | case2 c =>
    cases h
    exact (Through.blanks c).layout
  | case3 => cases h
  | case4 c _ ch c' hb more hm ih =>
    cases h
    have hmore := ih hm
    exact ((Through.blanks c).trans (through_lineBreak? hb)).layout.trans hmore

theorem through_quotedGap {c : Cursor} {part : QuotedPart} (h : c.quotedGap = .ok part) :
    c.Through isReal part.cursor := by
  have hblank := (Through.blanks c).layout
  unfold quotedGap at h
  simp only at h
  split at h
  · simp [fail] at h
  · split at h
    · cases h
      exact hblank
    · rename_i hb
      split at h
      · cases h
      · rename_i hm
        cases h
        have hmore := through_quotedBreaks hm
        exact (hblank.trans (through_lineBreak? hb).layout).trans hmore

/-- Hexadecimal digits are no NUL. -/
theorem isReal_of_hexNumber {cs : List Char} {acc n : Nat} (h : hexNumber acc cs = some n) :
    ∀ ch ∈ cs, isReal ch = true := by
  induction cs generalizing acc with
  | nil => simp
  | cons c cs ih =>
    rw [hexNumber] at h
    split at h
    · rename_i d hd
      intro ch hch
      rcases List.mem_cons.1 hch with rfl | hch
      · exact isReal_of_ne (ne_nul_of_eq_some (f := hexValue) (by decide) hd)
      · exact ih h ch hch
    · cases h

theorem isReal_of_signedHex {cs : List Char} {n : Nat} (h : signedHex cs = some n) :
    ∀ ch ∈ cs, isReal ch = true := by
  unfold signedHex at h
  split at h
  · cases h
  · intro ch hch
    rcases List.mem_cons.1 hch with rfl | hch
    · decide
    · exact isReal_of_hexNumber h ch hch
  · exact isReal_of_hexNumber h

/-- A numeric escape that stands for a character has all its digits in the text. -/
theorem isReal_of_escapeCode {length : Nat} {digits : List Char} {decoded : Char}
    (h : escapeCode length digits = some decoded) :
    digits.length = length ∧ ∀ ch ∈ digits, isReal ch = true := by
  unfold escapeCode at h
  split at h
  · rename_i hlen
    obtain ⟨n, hn, -⟩ := Option.bind_eq_some_iff.1 h
    exact ⟨beq_iff_eq.1 hlen, isReal_of_signedHex hn⟩
  · cases h

/-- An escape that stands for a character does not leave the text. -/
theorem through_escape {c : Cursor} {part : QuotedPart} (h : c.escape = .ok part) :
    c.Through isReal part.cursor := by
  unfold escape at h
  simp only at h
  split at h
  · rename_i hl
    cases h
    exact .real (ne_nul_of_eq_some (f := escapeLetter) (by decide) hl)
  · split at h
    · rename_i length hl
      split at h
      · rename_i hcode
        cases h
        obtain ⟨hlen, hreal⟩ := isReal_of_escapeCode hcode
        have hdigits := Through.chars (List.take_prefix length (c.forward 1).rest) hreal
        rw [hlen] at hdigits
        exact (Through.real (ne_nul_of_eq_some (f := escapeLength) (by decide) hl)).trans hdigits
      · simp [fail] at h
    · split at h
      · rename_i hb
        exact (through_lineBreak? hb).layout.trans (through_quotedBreaks h)
      · simp [fail] at h

/-- A step inside quotes passes no NUL, and where there is none a quote stands. -/
theorem through_quotedUnit {c : Cursor} {double : Bool} {part : Option QuotedPart}
    (h : c.quotedUnit double = .ok part) :
    match part with
    | some part => c.Through isReal part.cursor
    | none => c.peek ≠ nul := by
  unfold quotedUnit at h
  simp only at h
  split at h
  · cases hg : c.quotedGap with
    | error e => simp [hg, Except.map] at h
    | ok gap =>
      obtain rfl : some gap = part := by simpa [hg, Except.map] using h
      exact through_quotedGap hg
  · rename_i hc
    have hne : c.peek ≠ nul := peek_ne_nul_of_not_blankOrEnd (by simpa using hc)
    split at h
    · split at h
      · cases h
        exact hne
      · split at h
        · cases he : (c.forward 1).escape with
          | error e => simp [he, Except.map] at h
          | ok unit =>
            obtain rfl : some unit = part := by simpa [he, Except.map] using h
            exact (Through.real hne).trans (through_escape he)
        · cases h
          exact .real hne
    · split at h
      · split at h
        · rename_i hq
          cases h
          have hsecond : (c.forward 1).peek = '\x27' := by
            rw [← beq_iff_eq.1 hq, peek, peekAt, rest_forward]
            simp [peekAt]
          exact (Through.real hne).trans (Through.real (by rw [hsecond]; decide))
        · cases h
          exact hne
      · cases h
        exact .real hne

/-- A quoted scalar that ends does so at a quote, without leaving the text. -/
theorem through_quotedBody {c : Cursor} {double : Bool} {part : QuotedPart}
    (h : c.quotedBody double = .ok part) :
    c.Through isReal part.cursor ∧ part.cursor.peek ≠ nul := by
  fun_induction quotedBody c double generalizing part with
  | case1 => cases h
  | case2 c hu =>
    cases h
    have hquote := through_quotedUnit hu
    exact ⟨.refl c, hquote⟩
  | case3 => cases h
  | case4 c unit hu more hm ih =>
    cases h
    have hunit := through_quotedUnit hu
    obtain ⟨hbody, hquote⟩ := ih hm
    exact ⟨hunit.trans hbody, hquote⟩

/-- A quoted scalar passes nothing but its token. -/
theorem takes_quoted {c c' : Cursor} {t : Token} {double : Bool} (hc : c.peek ≠ nul)
    (h : c.quoted double = .ok (t, c')) : Takes c t [] c' := by
  unfold quoted at h
  split at h
  · cases h
  · rename_i body hb
    cases h
    obtain ⟨hbody, hquote⟩ := through_quotedBody hb
    exact .of_through (((Through.real hc).trans hbody).trans (.real hquote))

/-! ## Plain scalars -/

theorem isPrefix_plainChunk (flow : Bool) (cs : List Char) : plainChunk flow cs <+: cs := by
  fun_induction plainChunk flow cs with
  | case1 => exact List.nil_prefix
  | case2 => exact List.nil_prefix
  | case3 c cs _ ih => exact List.cons_prefix_cons.2 ⟨rfl, ih⟩

/-- A chunk of a plain scalar ends in front of a NUL. -/
theorem isReal_of_mem_plainChunk {flow : Bool} {cs : List Char} :
    ∀ ch ∈ plainChunk flow cs, isReal ch = true := by
  fun_induction plainChunk flow cs with
  | case1 => simp
  | case2 => simp
  | case3 c cs hc ih =>
    intro ch hch
    rcases List.mem_cons.1 hch with rfl | hch
    · refine isReal_of_ne ?_
      rintro rfl
      exact hc (by simp [endsPlainChunk, isBlankOrEnd, isLineEnd])
    · exact ih ch hch

theorem through_plainChunk (c : Cursor) (flow : Bool) :
    c.Through isReal (c.forward (plainChunk flow c.rest).length) :=
  .chars (isPrefix_plainChunk flow c.rest) isReal_of_mem_plainChunk

theorem through_plainBreaks (c : Cursor) : c.Through isLayout c.plainBreaks.2 := by
  fun_induction plainBreaks c with
  | case1 c => exact .spaces c
  | case2 c ch c' h => exact (Through.spaces c).trans (through_lineBreak? h)
  | case3 c ch c' h _ breaks c'' heq ih =>
    rw [heq] at ih
    exact ((Through.spaces c).trans (through_lineBreak? h)).trans ih

/-- All that is passed behind a chunk is layout. -/
theorem through_plainGap (c : Cursor) : c.Through isLayout c.plainGap.cursor := by
  have hblank := Through.blanks c
  unfold plainGap
  simp only
  split
  · exact hblank
  · rename_i ch c₂ h
    split
    · exact hblank.trans (through_lineBreak? h)
    · exact (hblank.trans (through_lineBreak? h)).trans c₂.through_plainBreaks

/-- Where no plain scalar starts, none is read. -/
theorem cursor_plain_of_isEmpty {c : Cursor} {flow : Bool} {indent : Int}
    (h : (c.plain flow indent).value.isEmpty = true) : (c.plain flow indent).cursor = c := by
  rw [plain] at h ⊢
  simp only at h ⊢
  split at h
  · rename_i hchunk
    rw [dif_pos hchunk]
  · rename_i hchunk
    exfalso
    split at h
    · simp [hchunk] at h
    · simp [hchunk] at h
    · split at h
      · split at h <;> simp [hchunk] at h
      · simp [hchunk] at h

/-- Behind the last chunk of a plain scalar only layout is passed. -/
theorem trails_plain (c : Cursor) (flow : Bool) (indent : Int) :
    c.Trails (c.plain flow indent).stop (c.plain flow indent).cursor := by
  fun_induction plain c flow indent with
  | case1 c => exact .here (.refl c)
  | case2 c chunk _ c₁ gap _ => exact ⟨c₁, c.through_plainChunk flow, rfl, c₁.through_plainGap⟩
  | case3 c chunk _ c₁ gap _ => exact ⟨c₁, c.through_plainChunk flow, rfl, c₁.through_plainGap⟩
  | case4 c chunk _ c₁ gap joint _ _ _ more hempty ih =>
    refine ⟨c₁, c.through_plainChunk flow, rfl, ?_⟩
    show c₁.Through isLayout (gap.cursor.plain flow indent).cursor
    rw [cursor_plain_of_isEmpty hempty]
    exact c₁.through_plainGap
  | case5 c chunk _ c₁ gap joint _ _ _ more _ ih =>
    exact ih.behind ((c.through_plainChunk flow).trans c₁.through_plainGap.layout)
  | case6 c chunk _ c₁ gap joint _ _ _ =>
    exact ⟨c₁, c.through_plainChunk flow, rfl, c₁.through_plainGap⟩

/-! ## Block scalars -/

theorem through_blockIncrement {c c' : Cursor} {n : Option Nat}
    (h : c.blockIncrement = .ok (n, c')) : c.Through isReal c' := by
  unfold blockIncrement at h
  split at h
  · rename_i hd
    split at h
    · simp [fail] at h
    · cases h
      refine .real ?_
      intro hn
      rw [hn] at hd
      exact absurd hd (by decide)
  · cases h
    exact .refl c

theorem through_blockIndicators {c c' : Cursor} {header : BlockHeader}
    (h : c.blockIndicators = .ok (header, c')) : c.Through isReal c' := by
  unfold blockIndicators at h
  split at h
  · rename_i hch
    split at h
    · cases h
    · rename_i hi
      cases h
      exact (Through.real (ne_nul_of_eq_some (f := chompingOf) (by decide) hch)).trans
        (through_blockIncrement hi)
  · split at h
    · cases h
    · rename_i hi
      cases h
      exact through_blockIncrement hi
    · rename_i hi
      split at h
      · rename_i hch
        cases h
        exact (through_blockIncrement hi).trans
          (.real (ne_nul_of_eq_some (f := chompingOf) (by decide) hch))
      · cases h
        exact through_blockIncrement hi

/-- The header of a block scalar does not leave the text. -/
theorem through_blockHeader {c c' : Cursor} {header : BlockHeader} {k : Option Comment}
    (h : c.blockHeader = .ok (header, k, c')) : c.Through isReal c' := by
  unfold blockHeader at h
  split at h
  · cases h
  · rename_i hi
    split at h
    · split at h
      · cases h
      · rename_i ht
        cases h
        exact (through_blockIndicators hi).trans (clear_lineTail ht).through
    · simp [fail] at h

/-- Empty lines in front of the first line of text end with layout. -/
theorem trails_leadingBreaks (c : Cursor) (deepest : Nat) :
    c.Trails (c.leadingBreaks deepest c.mark).1.stop (c.leadingBreaks deepest c.mark).1.cursor := by
  generalize hm : c.mark = stop
  fun_induction leadingBreaks c deepest stop with
  | case1 c deepest stop => exact ⟨c, .refl c, hm.symm, .spaces c⟩
  | case2 c deepest stop deepest' ch c' h lines deepest'' heq ih =>
    have ih := ih rfl
    rw [heq] at ih
    exact ih.behind ((Through.spaces c).trans (through_lineBreak? h)).layout

theorem through_skipIndent (c : Cursor) (indent : Nat) :
    c.Through isLayout (c.skipIndent indent) := by
  have hspace : ∀ ch ∈ (c.rest.takeWhile (· == ' ')).take (indent - c.column),
      isLayout ch = true := fun ch hch =>
    isLayout_of_space (List.all_eq_true.1 List.all_takeWhile ch (List.mem_of_mem_take hch))
  have hchars := Through.chars
    ((List.take_prefix (indent - c.column) _).trans (List.takeWhile_prefix _)) hspace
  rwa [List.length_take, Nat.min_comm] at hchars

theorem trails_indentedBreaks (c : Cursor) (indent : Nat) :
    c.Trails (c.indentedBreaks indent c.mark).stop (c.indentedBreaks indent c.mark).cursor := by
  generalize hm : c.mark = stop
  fun_induction indentedBreaks c indent stop with
  | case1 c stop => exact ⟨c, .refl c, hm.symm, c.through_skipIndent indent⟩
  | case2 c stop ch c' h lines ih =>
    exact (ih rfl).behind ((c.through_skipIndent indent).trans (through_lineBreak? h)).layout

/-- Behind the last line of text only layout is passed. -/
theorem trails_blockLines (c : Cursor) (folded : Bool) (indent : Nat) :
    c.Trails (c.blockLines folded indent).stop (c.blockLines folded indent).cursor := by
  fun_induction blockLines c folded indent with
  | case1 c => exact .here (.skipLine c)
  | case2 c ch c₁ h text lines _ more joint ih =>
    exact ih.behind (((Through.skipLine c).trans (through_lineBreak? h).layout).trans
      (c₁.trails_indentedBreaks indent).through)
  | case3 c ch c₁ h text lines _ =>
    exact (c₁.trails_indentedBreaks indent).behind
      ((Through.skipLine c).trans (through_lineBreak? h).layout)

/-- Behind a block scalar only layout is passed, whether it has text or not. -/
theorem trails_blockBody {c : Cursor} {lines : EmptyLines} (folded : Bool) (indent : Nat)
    (h : c.Trails lines.stop lines.cursor) :
    c.Trails (blockBody lines folded indent).stop (blockBody lines folded indent).cursor := by
  unfold blockBody
  split
  · exact (lines.cursor.trails_blockLines folded indent).behind h.through
  · exact h

/-- The comment of the header lies inside the token. -/
theorem takes_block {c c' : Cursor} {t : Token} {folded : Bool} {parent : Int} {k : Option Comment}
    (hc : c.peek ≠ nul) (h : c.block folded parent = .ok (t, k, c')) : Takes c t [] c' := by
  unfold block at h
  split at h
  · cases h
  · rename_i header k' c₁ hh
    have hhead := (Through.real hc).trans (through_blockHeader hh)
    have hbody : c₁.Trails t.stop c' := by
      cases h
      simp only
      split
      · exact trails_blockBody folded _ (c₁.trails_leadingBreaks 0)
      · exact trails_blockBody folded _ (c₁.trails_indentedBreaks _)
    cases h
    exact .of_trails rfl (hbody.behind hhead)

end Cursor

end YamlLinter
