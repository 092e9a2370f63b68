import YamlLinter.Proofs.Tandem.Sources

/-!
# Line ends

The lines of a source may end in LF or in CR LF. The scanner takes CR LF for one break, and physical
lines leave the carriage return out, so nothing that is told of a source changes with its line ends:
the tokens, the comments and the place of an error are the same, and so are the problems.

## Contents

* `withReturns`: a source with CR LF in place of each LF;
* `Token.shape`, `Comment.shape`: what is told of tokens and comments, byte offsets left out;
* `texts_respell`: the physical lines;
* `returnsTandem`, `follows_respell`, `scanPair_respell`: the two scans;
* `lintText_respell`: the problems;
* `line_ends_do_not_matter`: tokens, comments, errors and problems.
-/

namespace YamlLinter

open Text

/-- A source with CR LF in place of each LF. -/
def withReturns (source : String) : String := String.ofList (respell true source.toList)

/-- The line and column of a mark. -/
def Mark.place (m : Mark) : Nat × Nat := (m.line, m.column)

/-- The kind of a token with its data, and where it starts and ends. -/
def Token.shape (t : Token) : TokenKind × (Nat × Nat) × (Nat × Nat) :=
  (t.kind, t.start.place, t.stop.place)

/-- What a comment says, whether it is inline, and where it starts and ends. -/
def Comment.shape (k : Comment) : String × Bool × (Nat × Nat) × (Nat × Nat) :=
  (k.text, k.inline, k.start.place, k.stop.place)

variable {text : List Char}

/-! ## Physical lines -/

theorem texts_allFrom {read : List Char} (number start start' : Nat) (hread : '\r' ∉ read)
    (htext : '\r' ∉ text) :
    (Line.allFrom number start' read (respell true text)).map Line.text =
      (Line.allFrom number start read text).map Line.text := by
  have hdrop {read : List Char} (h : '\r' ∉ read) : Line.dropReturn read = read := by
    unfold Line.dropReturn
    split
    · simp at h
    · rfl
  induction text generalizing number start start' read with
  | nil => rfl
  | cons ch text ih =>
    simp only [List.mem_cons, not_or] at htext
    rw [respell_cons]
    by_cases hch : ch = '\n'
    · subst hch
      have hmore := ih (number + 1) (start + byteCount read + 1)
        (start' + byteCount ('\r' :: read) + 1) (List.not_mem_nil : '\r' ∉ []) htext.2
      have hreturn : Line.dropReturn ('\r' :: read) = read := rfl
      simp [Line.allFrom, Line.make, hreturn, hdrop hread, hmore]
    · rw [respell_of_ne hch, List.singleton_append]
      simp only [Line.allFrom, beq_eq_false_iff_ne.2 hch, Bool.false_eq_true, if_false]
      exact ih number start start' (by simp [htext.1, hread]) htext.2

/-- The lines of a source have the same texts with either line end. -/
theorem texts_respell (h : '\r' ∉ text) :
    (Line.all (respell true text)).map Line.text = (Line.all text).map Line.text :=
  texts_allFrom 1 0 0 (by simp) h

theorem fileDisabled_respell (h : '\r' ∉ text) :
    fileDisabled (respell true text) = fileDisabled text := by
  have hfirst (text : List Char) : firstLine text = ((Line.all text).map Line.text).headD [] := by
    unfold firstLine
    cases Line.all text <;> rfl
  unfold fileDisabled
  rw [hfirst, hfirst, texts_respell h]

/-! ## The two scans -/

/-- Two cursors at the start of a text with LF and of its form with CR LF. -/
def returnsTandem (text : List Char) (h : '\r' ∉ text) : Tandem where
  left := .ofText text
  right := .ofText (respell true text)
  returns := true
  text := rfl
  clean := fun _ => h
  column := rfl
  mark := fun _ => Iff.rfl

theorem beside_returnsTandem (h : '\r' ∉ text) : (returnsTandem text h).Beside [] where
  left := rfl
  right := rfl
  line := rfl
  last := by simp [bytes]

/-- Every run over a text is followed by one over its form with CR LF. -/
theorem follows_respell (h : '\r' ∉ text) {out : List Token} {s : ScanState}
    (hrun : ScanState.Run text out s) :
    (returnsTandem text h).Follows (respell true text) [] [] out s := by
  induction hrun with
  | start =>
    refine ⟨[], [], _, rfl, .start, .nil, ?_⟩
    have hstart := (returnsTandem text h).start
    exact ⟨hstart, rfl, rfl, .cons (hstart.markPair.empty _) .nil, rfl, rfl, rfl, rfl, .nil,
      [], rfl, .nil⟩
  | fetch _ hn hf ih => exact ih.fetch hn hf
  | give _ hn hq ih => exact ih.give hn hq

theorem scanPair_respell (h : '\r' ∉ text) :
    (returnsTandem text h).ScanPair [] [] (scanText text) (scanText (respell true text)) := by
  obtain ⟨s, hrun, hends⟩ := ScanState.run_scanText text
  exact (follows_respell h hrun).ends hends

theorem place_eq {m m' : Mark} (h : '\r' ∉ text) (hm : (returnsTandem text h).MarkPair m m') :
    m'.place = m.place :=
  Prod.ext ((beside_returnsTandem h).line_eq hm) hm.column

/-- Built-in rules find the same with either line end. -/
theorem lintText_respell {l : Linter} (h : '\r' ∉ text)
    (hl : l.commentRules = [] ∧ l.lineRules = [] ∧ ∀ rule ∈ l.tokenRules, IsBuiltin rule.1)
    (herror : (scanText text).error = none) :
    l.lintText (respell true text) = l.lintText text := by
  have hpair := scanPair_respell h
  have hlines : (Line.all (respell true text)).length = (Line.all text).length := by
    simpa using congrArg List.length (texts_respell h)
  have hstyle : l.styleProblems (respell true text) (scanText (respell true text)) =
      l.styleProblems text (scanText text) := by
    have hbehind := hpair.styleProblems_eq (beside_returnsTandem h) rfl hl (by simp)
      (fun _ => start_le_stop) hlines
    have hink : (returnsTandem text h).right.inked = false := rfl
    simp only [hink, Comment.behind_false, List.map_id'] at hbehind
    exact hbehind
  have herror' : (scanText (respell true text)).error = none := by
    have hrel := hpair.error
    rw [herror] at hrel
    generalize (scanText (respell true text)).error = e at hrel ⊢
    cases hrel
    rfl
  unfold Linter.lintText
  simp only [fileDisabled_respell h, hstyle, herror, herror']

theorem map_eq_of_forall₂ {α β : Type} {R : α → α → Prop} {f : α → β} {xs ys : List α}
    (h : List.Forall₂ R xs ys) (hf : ∀ {x y}, R x y → f y = f x) : ys.map f = xs.map f := by
  induction h with
  | nil => rfl
  | cons hxy _ ih => rw [List.map_cons, List.map_cons, hf hxy, ih]

/-- Line ends do not matter. A source without carriage returns and its form with CR LF in place of
each LF have tokens of the same kinds and data at the same lines and columns, the same comments, and
an error at the same place or none. If there is none, the built-in rules find the same problems. -/
theorem line_ends_do_not_matter (source : String) (h : '\r' ∉ source.toList) :
    (scan (withReturns source)).tokens.map Token.shape = (scan source).tokens.map Token.shape ∧
      (scan (withReturns source)).comments.map Comment.shape =
        (scan source).comments.map Comment.shape ∧
      (scan (withReturns source)).error.map (·.mark.place) =
        (scan source).error.map (·.mark.place) ∧
      ∀ (config : LintConfig) (l : Linter), Linter.ofConfig config = .ok l →
        (scan source).error = none → l.lint (withReturns source) = l.lint source := by
  have hw := beside_returnsTandem h
  have hpair := scanPair_respell h
  simp only [withReturns, scan, Linter.lint, String.toList_ofList]
  refine ⟨?_, ?_, ?_, ?_⟩
  · obtain ⟨xs, ys, hxs, hys, hxy⟩ := hpair.tokens
    rw [hxs, hys, List.nil_append, List.nil_append]
    refine map_eq_of_forall₂ hxy fun {t t'} ht => ?_
    rw [Token.shape, ht.kind, place_eq h ht.start, place_eq h ht.stop]
    rfl
  · obtain ⟨ks, hks, hcomments⟩ := hpair.comments
    rw [hks]
    refine map_eq_of_forall₂ hcomments fun {k k'} hk => ?_
    have hinline : k'.inline = k.inline := (hk.inline hw).trans (Bool.or_false _)
    rw [Comment.shape, hk.text, hinline, place_eq h hk.start, place_eq h hk.stop]
    rfl
  · have herror := hpair.error
    generalize (scanText source.toList).error = e at herror ⊢
    generalize (scanText (respell true source.toList)).error = e' at herror ⊢
    cases herror with
    | none => rfl
    | some he => exact congrArg some (place_eq h he.mark)
  · intro config l hl herror
    exact lintText_respell h (Linter.isBuiltin_ofConfig hl) herror

/-- A block scalar with a blank line in it, a comment and a repeated key. -/
theorem line_ends_do_not_matter_blockScalar :
    let source := "a: |\n  x\n\n  y\na: 2 # z\n"
    '\r' ∉ source.toList ∧ withReturns source = "a: |\r\n  x\r\n\r\n  y\r\na: 2 # z\r\n" ∧
      (scan source).error = none ∧
      (scan (withReturns source)).tokens.map Token.shape = (scan source).tokens.map Token.shape ∧
      ∃ l, Linter.ofConfig .default = .ok l ∧ l.lint (withReturns source) = l.lint source := by
  intro source
  have hreturn : '\r' ∉ source.toList := by decide +kernel
  have herror : (scan source).error = none := by decide +kernel
  obtain ⟨htokens, -, -, hlint⟩ := line_ends_do_not_matter source hreturn
  exact ⟨hreturn, by decide +kernel, herror, htokens, _, rfl, hlint .default _ rfl herror⟩

end YamlLinter
