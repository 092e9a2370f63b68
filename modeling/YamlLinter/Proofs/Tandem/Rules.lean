import Mathlib.Data.List.Forall2
import YamlLinter.Proofs.SkippedLine

/-!
# What the rules can see

The built-in rules look at the kinds of tokens and at their lines and columns. Of the bytes of a
source they ask three things only: whether a key has a `?`, on which line a token really ends, and
how the lines of a scalar are indented. Two sources with tokens that agree in all of this, and with
comments that say the same on the same lines, have the same problems.

## Contents

* `Token.Alike`, `Seen`: tokens that look the same, alone and in their sources;
* `Window.Alike`: windows that look the same;
* `Indentation.check_eq`, `KeyDuplicates.check_eq`, `Anchors.check_eq`: one token;
* `TokenRule.runFrom_eq`, `TokenRule.run_eq`, `Linter.tokenProblems_eq`: all tokens;
* `Element.Alike`, `Sweep.problems_eq`: tokens, comments and lines;
* `Linter.styleProblems_eq`: the problems of two scans.
-/

namespace YamlLinter

/-! ## Tokens and windows -/

/-- Tokens that differ in byte offsets only. -/
structure Token.Alike (t t' : Token) : Prop where
  kind : t'.kind = t.kind
  startLine : t'.start.line = t.start.line
  startColumn : t'.start.column = t.start.column
  stopLine : t'.stop.line = t.stop.line

/-- Tokens that look the same to the rules in the bytes of their sources. -/
structure Seen (buffer buffer' : List UInt8) (t t' : Token) : Prop extends t.Alike t' where
  isExplicitKey : Indentation.isExplicitKey buffer' t' = Indentation.isExplicitKey buffer t
  lastLine : Indentation.lastLine buffer' t' = Indentation.lastLine buffer t
  continuationLines :
    Indentation.continuationLines buffer' t' = Indentation.continuationLines buffer t

/-- Windows that look the same to the rules. -/
structure Window.Alike (w w' : Window) : Prop where
  prev : Option.Rel Token.Alike w.prev w'.prev
  token : Seen w.buffer w'.buffer w.token w'.token
  next : Option.Rel Token.Alike w.next w'.next
  nextNext : Option.Rel Token.Alike w.nextNext w'.nextNext

variable {buffer buffer' : List UInt8} {ts ts' : List Token} {t t' : Token} {w w' : Window}

theorem alike_head? (h : List.Forall₂ (Seen buffer buffer') ts ts') :
    Option.Rel Token.Alike ts.head? ts'.head? := by
  cases h with
  | nil => exact .none
  | cons h _ => exact .some h.toAlike

/-- Tokens that look the same have windows that look the same. -/
theorem alike_windowsFrom {prev prev' : Option Token}
    (h : List.Forall₂ (Seen buffer buffer') ts ts') (hprev : Option.Rel Token.Alike prev prev') :
    List.Forall₂ Window.Alike (windowsFrom buffer prev ts) (windowsFrom buffer' prev' ts') := by
  induction h generalizing prev prev' with
  | nil => exact .nil
  | @cons t t' ts ts' ht hts ih =>
    have hnextNext : Option.Rel Token.Alike ts.tail.head? ts'.tail.head? := by
      cases hts with
      | nil => exact .none
      | cons _ hts => exact alike_head? hts
    exact .cons ⟨hprev, ht, alike_head? hts, hnextNext⟩ (ih (.some ht.toAlike))

/-! ## Indentation -/

namespace Indentation

variable {config : Config} {s : State}

section Token

variable (h : t.Alike t')
include h

/-- Tokens that look the same are both visible or both not. -/
theorem isVisible_eq : isVisible t' = isVisible t := by
  unfold isVisible
  rw [h.kind]

theorem isProperty_eq : isProperty t' = isProperty t := by
  unfold isProperty
  rw [h.kind]

theorem columnOf_eq : columnOf t' = columnOf t := by
  unfold columnOf
  rw [h.startColumn]

theorem scalarStyle?_eq : t'.scalarStyle? = t.scalarStyle? := by
  unfold Token.scalarStyle?
  rw [h.kind]

theorem isScalar_eq : t'.isScalar = t.isScalar := by
  unfold Token.isScalar
  rw [scalarStyle?_eq h]

/-- Both are the first on their line, or none is. -/
theorem isFirst_eq : s.isFirst t' = s.isFirst t := by
  unfold State.isFirst
  rw [isVisible_eq h, h.startLine]

theorem checkStart_eq : s.checkStart t' = s.checkStart t := by
  unfold State.checkStart State.expectStart
  rw [isFirst_eq h, columnOf_eq h, h.kind, h.startLine]

/-- Both are expected at one column. -/
theorem expectScalar_eq (found : Int) : s.expectScalar t' found = s.expectScalar t found := by
  unfold State.expectScalar State.expectBlock
  rw [scalarStyle?_eq h, columnOf_eq h, h.startLine]

theorem closing_eq (next : Option TokenKind) (consumed : Bool) (top : Frame) (below : Option Frame) :
    closing t' next consumed top below = closing t next consumed top below := by
  unfold closing
  rw [isProperty_eq h, h.kind]

/-- Both close the same frames. -/
theorem closeFrames_eq (next : Option TokenKind) (consumed : Bool) (stack : List Frame) :
    closeFrames t' next consumed stack = closeFrames t next consumed stack := by
  fun_induction closeFrames t next consumed stack <;> simp_all [closeFrames, closing_eq h]

end Token

/-- Scalars that look the same have the same lines told of. -/
theorem checkScalar_eq (h : Seen buffer buffer' t t') :
    s.checkScalar config buffer' t' = s.checkScalar config buffer t := by
  unfold State.checkScalar State.checkLines
  simp only [isScalar_eq h.toAlike, h.continuationLines, expectScalar_eq h.toAlike]

/-- The line and the column that the rule remembers are the same behind both. -/
theorem moveTo_eq (h : Seen buffer buffer' t t') (first : Bool) :
    s.moveTo buffer' t' first = s.moveTo buffer t first := by
  unfold State.moveTo
  rw [isVisible_eq h.toAlike, h.lastLine, columnOf_eq h.toAlike]

theorem map_kind_eq {next next' : Option Token} (h : Option.Rel Token.Alike next next') :
    next'.map Token.kind = next.map Token.kind := by
  cases h with
  | none => rfl
  | some h => exact congrArg some h.kind

/-- Of two tokens behind a value, both sides take the same for its content. -/
theorem contentOf_alike {prev prev' next next' : Token} {after after' : Option Token}
    (hprev : prev.Alike prev') (hnext : next.Alike next') (hafter : Option.Rel Token.Alike after after') :
    (State.contentOf prev next after).Alike (State.contentOf prev' next' after') := by
  unfold State.contentOf
  cases hafter with
  | none => exact hnext
  | some hafter =>
    simp only [isProperty_eq hnext, hnext.startLine, hprev.startLine, hafter.startLine]
    split
    · exact hafter
    · exact hnext

/-- Windows that look the same open the same value. -/
theorem openValue_eq (h : w.Alike w') : s.openValue w' = s.openValue w := by
  obtain ⟨hprev, -, hnext, hnextNext⟩ := h
  unfold State.openValue
  generalize w.prev = prev at hprev ⊢
  generalize w'.prev = prev' at hprev ⊢
  generalize w.next = next at hnext ⊢
  generalize w'.next = next' at hnext ⊢
  cases hprev with
  | none => split <;> simp_all
  | some hprev =>
    cases hnext with
    | none => split <;> simp_all
    | some hnext =>
      have hcontent := contentOf_alike hprev hnext hnextNext
      cases s.top? with
      | none => rfl
      | some top =>
        cases top with
        | key base explicit =>
          simp only [State.expectValue, hcontent.kind, columnOf_eq hcontent, hcontent.startLine,
            hprev.startLine]
        | _ => rfl

/-- They open the same item. -/
theorem openEntry_eq (h : w.Alike w') : s.openEntry w' = s.openEntry w := by
  obtain ⟨-, htoken, hnext, -⟩ := h
  unfold State.openEntry
  generalize w.next = next at hnext ⊢
  generalize w'.next = next' at hnext ⊢
  cases hnext with
  | none => rfl
  | some hnext =>
    cases s.top? with
    | none => rfl
    | some top =>
      simp only [hnext.kind, hnext.startLine, columnOf_eq hnext, htoken.stopLine,
        columnOf_eq htoken.toAlike]

/-- They open the same frames. -/
theorem openFrames_eq (h : w.Alike w') : s.openFrames w' = s.openFrames w := by
  have hentry := openEntry_eq (s := s) h
  have hvalue := openValue_eq (s := s) h
  obtain ⟨-, htoken, hnext, -⟩ := h
  unfold State.openFrames
  rw [htoken.kind, hentry, hvalue]
  unfold State.openBlock State.openFlow State.openKey
  rw [htoken.isExplicitKey]
  generalize w.next = next at hnext ⊢
  generalize w'.next = next' at hnext ⊢
  cases hnext with
  | none => rfl
  | some hnext =>
    simp only [hnext.kind, hnext.startLine, columnOf_eq hnext, htoken.startLine,
      columnOf_eq htoken.toAlike]

/-- The rule does the same at windows that look the same. -/
theorem check_eq (h : w.Alike w') : check config w' s = check config w s := by
  have htoken := h.token.toAlike
  have hfinding : cannotInfer w'.token = cannotInfer w.token := by
    unfold cannotInfer
    rw [htoken.startLine, htoken.startColumn]
  unfold check State.step State.shift
  simp only [checkStart_eq htoken, checkScalar_eq h.token, isFirst_eq htoken, moveTo_eq h.token,
    openFrames_eq h, closeFrames_eq htoken, map_kind_eq h.next, hfinding]

end Indentation

/-! ## Keys and anchors -/

namespace KeyDuplicates

variable {config : Config} {s : State}

/-- Keys that look the same are repeated together. -/
theorem checkKey_eq {next next' : Option Token} (h : Option.Rel Token.Alike next next') :
    checkKey config next' s = checkKey config next s := by
  unfold checkKey
  cases h with
  | none => rfl
  | @some next next' h =>
    have hvalue : next'.scalarValue? = next.scalarValue? := by
      unfold Token.scalarValue?
      rw [h.kind]
    cases s with
    | nil => rfl
    | cons top outer =>
      cases top with
      | sequence => rfl
      | mapping keys => simp only [hvalue, repeated, h.startLine, h.startColumn]

/-- The rule does the same at windows that look the same. -/
theorem check_eq (h : w.Alike w') : check config w' s = check config w s := by
  unfold check
  rw [h.token.kind, checkKey_eq h.next]

end KeyDuplicates

namespace Anchors

variable {config : Config} {s s' : State}

/-- Anchors whose places differ in byte offsets only. -/
structure Declared.Alike (d d' : Declared) : Prop where
  name : d'.name = d.name
  used : d'.used = d.used
  line : d'.mark.line = d.mark.line
  column : d'.mark.column = d.mark.column

theorem declares_eq (h : List.Forall₂ Declared.Alike s s') (name : String) :
    declares s' name = declares s name := by
  unfold declares
  induction h with
  | nil => rfl
  | cons hd _ ih => rw [List.any_cons, List.any_cons, hd.name, ih]

/-- Using a name keeps what is declared alike. -/
theorem alike_use (h : List.Forall₂ Declared.Alike s s') (name : String) :
    List.Forall₂ Declared.Alike (use s name) (use s' name) := by
  refine List.rel_map (fun d d' hd => ?_) h
  simp only [hd.name]
  split
  · exact ⟨rfl, rfl, hd.line, hd.column⟩
  · exact hd

/-- Declaring a name at places that look the same keeps what is declared alike. -/
theorem alike_declare (h : List.Forall₂ Declared.Alike s s') (name : String) (ht : t.Alike t') :
    List.Forall₂ Declared.Alike (declare s name t.start) (declare s' name t'.start) := by
  refine List.rel_append ?_ (.cons ⟨rfl, rfl, ht.startLine, ht.startColumn⟩ .nil)
  induction h with
  | nil => exact .nil
  | cons hd _ ih =>
    rw [List.filter_cons, List.filter_cons, hd.name]
    split
    · exact .cons hd ih
    · exact ih

theorem finding_eq (what name : String) {m m' : Mark} (hl : m'.line = m.line)
    (hc : m'.column = m.column) : finding what name m' = finding what name m := by
  unfold finding
  rw [hl, hc]

/-- The same anchors are told of as unused. -/
theorem unused_eq {next next' : Option Token} (h : List.Forall₂ Declared.Alike s s')
    (hnext : Option.Rel Token.Alike next next') : unused config next' s' = unused config next s := by
  have hends : next'.any (endsDocument ·.kind) = next.any (endsDocument ·.kind) := by
    cases hnext with
    | none => rfl
    | some hnext => simp only [Option.any_some, hnext.kind]
  unfold unused
  rw [hends]
  split
  · induction h with
    | nil => rfl
    | cons hd _ ih =>
      simp only [List.filter_cons, hd.used]
      split
      · rw [List.map_cons, List.map_cons, ih, hd.name, finding_eq _ _ hd.line hd.column]
      · exact ih
  · rfl

/-- Names are told of alike, and leave declarations that are alike. -/
theorem checkName_eq (config : Config) (h : List.Forall₂ Declared.Alike s s') (ht : t.Alike t') :
    (checkName config t' s').1 = (checkName config t s).1 ∧
      List.Forall₂ Declared.Alike (checkName config t s).2 (checkName config t' s').2 := by
  unfold checkName
  rw [ht.kind]
  split
  · rw [declares_eq h, finding_eq _ _ ht.startLine ht.startColumn]
    split
    · exact ⟨rfl, alike_use h _⟩
    · split
      · exact ⟨rfl, h⟩
      · exact ⟨rfl, h⟩
  · rw [declares_eq h, finding_eq _ _ ht.startLine ht.startColumn]
    exact ⟨rfl, alike_declare h _ ht⟩
  · exact ⟨rfl, h⟩

/-- The rule finds the same at windows that look the same. -/
theorem check_eq (h : List.Forall₂ Declared.Alike s s') (hw : w.Alike w') :
    (check config w' s').1 = (check config w s).1 ∧
      List.Forall₂ Declared.Alike (check config w s).2 (check config w' s').2 := by
  have hstart : List.Forall₂ Declared.Alike (if forgets w.token.kind then [] else s)
      (if forgets w'.token.kind then [] else s') := by
    rw [hw.token.kind]
    split
    · exact .nil
    · exact h
  obtain ⟨hfound, hkept⟩ := checkName_eq config hstart hw.token.toAlike
  unfold check
  exact ⟨by simp only [hfound, unused_eq hkept hw.next], hkept⟩

end Anchors

/-! ## All tokens -/

variable {ws ws' : List Window}

/-- Two runs of a rule over windows that belong together find the same if every step does. -/
theorem TokenRule.runFrom_eq {r : TokenRule} {I : r.State → r.State → Prop}
    (hstep : ∀ {w w' s s'}, w.Alike w' → I s s' →
      (r.check w' s').1 = (r.check w s).1 ∧ I (r.check w s).2 (r.check w' s').2)
    {s s' : r.State} (hws : List.Forall₂ Window.Alike ws ws') (hs : I s s') :
    r.runFrom s' ws' = r.runFrom s ws := by
  induction hws generalizing s s' with
  | nil => rfl
  | cons hw _ ih =>
    obtain ⟨hfound, hkept⟩ := hstep hw hs
    exact congrArg₂ List.cons hfound (ih hkept)

/-- The same where every step does the same from the same state. -/
theorem TokenRule.run_eq {r : TokenRule}
    (hcheck : ∀ {w w' s}, w.Alike w' → r.check w' s = r.check w s)
    (hws : List.Forall₂ Window.Alike ws ws') : r.run ws' = r.run ws := by
  refine runFrom_eq (I := Eq) ?_ hws rfl
  rintro w w' s _ hw rfl
  exact ⟨congrArg Prod.fst (hcheck hw), (congrArg Prod.snd (hcheck hw)).symm⟩

/-- A built-in rule finds the same in windows that look the same. -/
theorem IsBuiltin.run_eq {r : TokenRule} (hr : IsBuiltin r)
    (hws : List.Forall₂ Window.Alike ws ws') : r.run ws' = r.run ws := by
  cases hr with
  | anchors c =>
    exact TokenRule.runFrom_eq (I := List.Forall₂ Anchors.Declared.Alike)
      (fun hw hs => Anchors.check_eq hs hw) hws .nil
  | indentation c => exact TokenRule.run_eq (fun hw => Indentation.check_eq hw) hws
  | keyDuplicates c => exact TokenRule.run_eq (fun hw => KeyDuplicates.check_eq hw) hws

/-- So do all rules of a linter of built-in rules. -/
theorem Linter.tokenProblems_eq {l : Linter} (hl : ∀ r ∈ l.tokenRules, IsBuiltin r.1)
    (hws : List.Forall₂ Window.Alike ws ws') : l.tokenProblems ws' = l.tokenProblems ws := by
  unfold tokenProblems
  generalize l.tokenRules = rules at hl
  induction rules with
  | nil => simp [List.map_const', hws.length_eq]
  | cons r rules ih =>
    have hrest := ih fun r hr => hl r (.tail _ hr)
    have hrule := (hl r (.head _)).run_eq hws
    rw [List.foldr_cons, List.foldr_cons, hrest]
    simp only [ruleProblems, hrule]

/-! ## Tokens, comments and lines -/

/-- Merging goes the same way where the order does. -/
theorem forall₂_merge {α : Type} {P Q S : α → α → Prop} {le : α → α → Bool} {xs xs' ys ys' : List α}
    (hP : ∀ {x x'}, P x x' → S x x') (hQ : ∀ {y y'}, Q y y' → S y y')
    (hle : ∀ {x x' y y'}, P x x' → Q y y' → le x' y' = le x y)
    (hxs : List.Forall₂ P xs xs') (hys : List.Forall₂ Q ys ys') :
    List.Forall₂ S (xs.merge ys le) (xs'.merge ys' le) := by
  induction hxs generalizing ys ys' with
  | nil => simpa using hys.imp fun _ _ => hQ
  | @cons x x' xs xs' hx hxs ihx =>
    induction hys with
    | nil => simpa using (List.Forall₂.cons hx hxs).imp fun _ _ => hP
    | @cons y y' ys ys' hy hys ihy =>
      rw [List.cons_merge_cons, List.cons_merge_cons, hle hx hy]
      split
      · exact .cons (hP hx) (ihx (.cons hy hys))
      · exact .cons (hQ hy) ihy

/-- Whether a comment switches rules off for one line. -/
def Comment.skips (k : Comment) : Bool :=
  (Directive.parse k.text.toList).any (·.kind == .disableLine)

/-- Elements at which a linter without rules for comments and lines does the same. Only a comment
that switches rules off for one line has to be inline on both sides or on none. -/
inductive Element.Alike : Element → Element → Prop
  | token {t t' : Token} {problems : List Problem} (line : t'.start.line = t.start.line) :
      Alike (.token t problems) (.token t' problems)
  | comment {k k' : Comment} (line : k'.start.line = k.start.line) (text : k'.text = k.text)
      (inline : k.skips = true → k'.inline = k.inline) : Alike (.comment k) (.comment k')
  | line {l l' : Line} (number : l'.number = l.number) : Alike (.line l) (.line l')

theorem Element.Alike.lineNumber {e e' : Element} (h : e.Alike e') :
    e'.lineNumber = e.lineNumber := by
  cases h with
  | token line => exact line
  | comment line _ _ => exact line
  | line number => exact number

namespace Sweep

variable {c : Checks} (hcomment : ∀ k, c.comment k = []) (hline : ∀ l, c.line l = [])
include hcomment hline

/-- A sweep that finds nothing at comments and lines meets elements that say the same alike. -/
theorem meet_eq {e e' : Element} (h : e.Alike e') (s : Sweep) : meet c s e' = meet c s e := by
  cases h with
  | token => rfl
  | line => simp only [meet, hline]
  | @comment k k' _ text inline =>
    simp only [meet, hcomment, text]
    split
    · rename_i d hd
      cases hkind : d.kind with
      | disableLine => rw [inline (by simp [Comment.skips, hd, hkind])]
      | _ => simp [follow, Suppression.applyLine, hkind]
    · rfl

/-- Such a sweep gives the same problems of elements that say the same. -/
theorem problems_eq {es es' : List Element} (h : List.Forall₂ Element.Alike es es') :
    problems c es' = problems c es := by
  have hfold : ∀ s, es'.foldl (meet c) s = es.foldl (meet c) s := by
    induction h with
    | nil => exact fun _ => rfl
    | cons he _ ih =>
      intro s
      rw [List.foldl_cons, List.foldl_cons, meet_eq hcomment hline he, ih]
  rw [problems, problems, hfold]

end Sweep

/-! ## Two scans -/

namespace Linter

variable {l : Linter} {source source' : List Char} {r r' : Scan}

/-- Lines correspond by their numbers. -/
theorem alike_lines (h : (Line.all source').length = (Line.all source).length) :
    List.Forall₂ (fun l l' : Line => l'.number = l.number) (Line.all source) (Line.all source') := by
  have hnumbers : (Line.all source').map Line.number = (Line.all source).map Line.number := by
    rw [numbers_all, numbers_all, h]
  rw [← List.forall₂_eq_eq_eq, List.forall₂_map_left_iff, List.forall₂_map_right_iff] at hnumbers
  exact hnumbers.flip.imp fun _ _ h => h

/-- The windows that are checked are those of some of the tokens. -/
theorem checkedWindows_eq (source : List Char) (r : Scan) :
    checkedWindows source r = (windows (Text.bytes source) r.tokens).take
      (if r.error.isSome then r.tokens.length - 2 else r.tokens.length) := by
  have hlength : (windows (Text.bytes source) r.tokens).length = r.tokens.length := by
    rw [← List.length_map (f := Window.token), windows, map_token_windowsFrom]
  unfold checkedWindows
  cases r.error with
  | none => exact (List.take_of_length_le (Nat.le_of_eq hlength)).symm
  | some e => rfl

/-- Tokens with what was found at them, and comments, in one order. -/
theorem alike_items {T : Token → Token → Prop} {K : Comment → Comment → Prop}
    (hT : ∀ {t t'}, T t t' → t'.start.line = t.start.line)
    (hK : ∀ {k k'}, K k k' → Element.Alike (.comment k) (.comment k'))
    (horder : ∀ {t t' k k'}, T t t' → K k k' →
      (t'.start.index ≤ k'.start.index ↔ t.start.index ≤ k.start.index))
    {ks ks' : List Comment} (htokens : List.Forall₂ T ts ts') (hcomments : List.Forall₂ K ks ks')
    (found : List (List Problem)) :
    List.Forall₂ Element.Alike (itemsOf (ts.zip found) ks) (itemsOf (ts'.zip found) ks') := by
  have hfound : List.Forall₂ (fun x y => T x.1 y.1 ∧ y.2 = x.2) (ts.zip found) (ts'.zip found) := by
    induction htokens generalizing found with
    | nil => exact .nil
    | cons ht _ ih =>
      cases found with
      | nil => exact .nil
      | cons ps found => exact .cons ⟨ht, rfl⟩ (ih found)
  refine forall₂_merge (P := fun e e' => ∃ t t' ps, T t t' ∧ e = .token t ps ∧ e' = .token t' ps)
    (Q := fun e e' => ∃ k k', K k k' ∧ e = .comment k ∧ e' = .comment k') ?_ ?_ ?_ ?_ ?_
  · rintro _ _ ⟨t, t', ps, ht, rfl, rfl⟩
    exact .token (hT ht)
  · rintro _ _ ⟨k, k', hk, rfl, rfl⟩
    exact hK hk
  · rintro _ _ _ _ ⟨t, t', ps, ht, rfl, rfl⟩ ⟨k, k', hk, rfl, rfl⟩
    exact decide_eq_decide.2 (horder ht hk)
  · refine List.rel_map (fun x y hxy => ?_) hfound
    exact ⟨x.1, y.1, x.2, hxy.1, rfl, by rw [← hxy.2]⟩
  · exact List.rel_map (fun k k' hk => ⟨k, k', hk, rfl, rfl⟩) hcomments

/-- Without comment rules and line rules, nothing is found at comments and lines, whatever the bytes
of the source. -/
theorem checks_eq (hcomments : l.commentRules = []) (hlines : l.lineRules = [])
    (buffer : List UInt8) : l.checks buffer = ⟨l.ruleIds, fun _ => [], fun _ => []⟩ := by
  have hcomment : l.commentProblems buffer = fun _ => [] := by
    funext k
    simp [commentProblems, hcomments]
  have hline : l.lineProblems buffer = fun _ => [] := by
    funext line
    simp [lineProblems, hlines]
  rw [checks, hcomment, hline]

/-- Two scans have the same problems if their tokens look the same and their comments say the same.
Tokens and comments correspond by `T` and `K`, which keep their order. -/
theorem styleProblems_eq
    (hl : l.commentRules = [] ∧ l.lineRules = [] ∧ ∀ rule ∈ l.tokenRules, IsBuiltin rule.1)
    {T : Token → Token → Prop} {K : Comment → Comment → Prop}
    (hT : ∀ {t t'}, T t t' → Seen (Text.bytes source) (Text.bytes source') t t')
    (hK : ∀ {k k'}, K k k' → Element.Alike (.comment k) (.comment k'))
    (horder : ∀ {t t' k k'}, T t t' → K k k' →
      (t'.start.index ≤ k'.start.index ↔ t.start.index ≤ k.start.index))
    (htokens : List.Forall₂ T r.tokens r'.tokens)
    (hcomments : List.Forall₂ K r.comments r'.comments)
    (herror : r'.error.isSome = r.error.isSome)
    (hlines : (Line.all source').length = (Line.all source).length) :
    l.styleProblems source' r' = l.styleProblems source r := by
  have hall := alike_windowsFrom (htokens.imp fun _ _ => hT) .none
  have hws : List.Forall₂ Window.Alike (checkedWindows source r) (checkedWindows source' r') := by
    rw [checkedWindows_eq, checkedWindows_eq, herror, htokens.length_eq]
    exact List.forall₂_take _ hall
  have hchecked : List.Forall₂ T ((checkedWindows source r).map Window.token)
      ((checkedWindows source' r').map Window.token) := by
    rw [checkedWindows_eq, checkedWindows_eq, herror, htokens.length_eq, List.map_take,
      List.map_take, windows, windows, map_token_windowsFrom, map_token_windowsFrom]
    exact List.forall₂_take _ htokens
  have hitems := alike_items (fun h => (hT h).startLine) hK horder hchecked hcomments
    (l.tokenProblems (checkedWindows source r))
  unfold styleProblems elements
  simp only [tokenProblems_eq hl.2.2 hws, checks_eq hl.1 hl.2.1]
  refine Sweep.problems_eq (fun _ => rfl) (fun _ => rfl) ?_
  refine forall₂_merge id (Q := Element.Alike) id (fun h h' => ?_) hitems ?_
  · simp only [Element.endsBefore, h.lineNumber, h'.lineNumber]
  · exact List.rel_map (fun _ _ h => .line h) (alike_lines hlines)

end Linter

end YamlLinter
