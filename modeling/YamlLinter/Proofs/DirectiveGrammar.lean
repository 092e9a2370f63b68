import YamlLinter.Directive

/-!
# The grammar of directives

A directive is a comment of a simple form: a marker, a kind and rules, each behind blanks. The parser
divides the comment into words and looks at each of them. Here the form is a grammar, whose sentences
carry the blanks as well, and the parser is seen to accept just the sentences.

Words are not the only way to read the grammar. A parser that goes from left to right, takes the
first kind that fits and repeats rules as long as it can reads the same, although a kind may start
like another one and the blanks in front of a rule are those at the end of the comment. What it reads
of a sentence are the parts that the sentence was made of, so no comment has two decompositions.

## Contents

* `Run`, `Sentence`: sentences and their texts;
* `Stops`: where a run of characters stops;
* `words_cases`: the first word of a text and the blanks around it;
* `parse_text`, `exists_sentence_of_parse`: the words of a sentence, and back;
* `just`, `run`, `choice`, `many`, `read`: the parser from left to right;
* `read_text`, `text_of_read`: it reads just the sentences;
* `parse_accepts_grammar`: the directives of comments.
-/

namespace YamlLinter.DirectiveGrammar

open Text

/-! ## Sentences -/

/-- One or more characters of a class. -/
structure Run (p : Char → Bool) where
  chars : List Char
  ne_nil : chars ≠ []
  all : ∀ ch ∈ chars, p ch = true

/-- Blanks, or nothing. -/
structure Blanks where
  chars : List Char
  all : ∀ ch ∈ chars, isBlank ch = true

/-- A rule with the blanks in front of it. -/
structure Rule where
  gap : Run isBlank
  id : Run (!isSpace ·)

def Rule.text (rule : Rule) : List Char := rule.gap.chars ++ (ruleMark ++ rule.id.chars)

/-- A comment that is a directive, by its parts. -/
structure Sentence where
  lead : Blanks
  gap : Run isBlank
  kind : DirectiveKind
  rules : List Rule
  tail : Blanks

/-- What stands behind the kind. -/
def rest (rules : List Rule) (tail : Blanks) : List Char := rules.flatMap Rule.text ++ tail.chars

def Sentence.text (s : Sentence) : List Char :=
  '#' :: (s.lead.chars ++ (directiveMarker.toList ++
    (s.gap.chars ++ (s.kind.word.toList ++ rest s.rules s.tail))))

/-- What a sentence says. -/
def Sentence.directive (s : Sentence) : Directive :=
  { kind := s.kind
    rules := s.rules.map fun rule => String.ofList rule.id.chars }

variable {p : Char → Bool} {cs r w : List Char} {ch : Char} {rules : List Rule} {tail : Blanks}
  {kind : DirectiveKind} {ws : List (List Char)} {d : Directive} {s : Sentence}

/-! ## Runs of characters -/

/-- A run of the class does not go on here. -/
def Stops (p : Char → Bool) (cs : List Char) : Prop := ∀ ch, cs.head? = some ch → p ch = false

theorem stops_nil : Stops p [] := by
  intro ch h
  cases h

theorem stops_append (hne : w ≠ []) (hw : ∀ ch ∈ w, p ch = false) : Stops p (w ++ r) := by
  obtain ⟨x, w, rfl⟩ := List.exists_cons_of_ne_nil hne
  intro ch h
  cases h
  exact hw x List.mem_cons_self

theorem not_stops (hch : p ch = true) : ¬Stops p (ch :: r) := by
  intro h
  rw [h ch rfl] at hch
  cases hch

/-- Every text has a run at its front, which may be empty. -/
theorem exists_span (p : Char → Bool) (cs : List Char) :
    ∃ w r, cs = w ++ r ∧ (∀ ch ∈ w, p ch = true) ∧ Stops p r := by
  refine ⟨cs.takeWhile p, cs.dropWhile p, List.takeWhile_append_dropWhile.symm,
    List.all_eq_true.1 List.all_takeWhile, ?_⟩
  intro ch h
  have hnot := List.head?_dropWhile_not p cs
  rw [h] at hnot
  simpa using hnot

/-- A run ends where the text behind it stops it. -/
theorem takeWhile_of_stops (hw : ∀ ch ∈ w, p ch = true) (hr : Stops p r) :
    (w ++ r).takeWhile p = w := by
  rw [List.takeWhile_append_of_pos hw]
  cases r with
  | nil => exact List.append_nil w
  | cons ch r => rw [List.takeWhile_cons_of_neg (by simp [hr ch rfl]), List.append_nil]

theorem dropWhile_of_stops (hw : ∀ ch ∈ w, p ch = true) (hr : Stops p r) :
    (w ++ r).dropWhile p = r := by
  rw [List.dropWhile_append_of_pos hw]
  cases r with
  | nil => rfl
  | cons ch r => rw [List.dropWhile_cons_of_neg (by simp [hr ch rfl])]

/-- Behind a kind or a rule stand blanks, or nothing. -/
theorem stops_rest (hp : ∀ ch, isBlank ch = true → p ch = false) : Stops p (rest rules tail) := by
  cases rules with
  | nil =>
    intro ch h
    exact hp ch (tail.all ch (List.mem_of_mem_head? h))
  | cons rule rules =>
    rw [rest, List.flatMap_cons, Rule.text, List.append_assoc, List.append_assoc]
    exact stops_append rule.gap.ne_nil fun ch hch => hp ch (rule.gap.all ch hch)

theorem isSpace_of_isBlank (h : isBlank ch = true) : isSpace ch = true := by
  simp only [isBlank, Bool.or_eq_true, beq_iff_eq] at h
  rcases h with rfl | rfl <;> decide

theorem isBlank_of_not_isSpace (h : (!isSpace ch) = true) : isBlank ch = false := by
  rw [Bool.eq_false_iff]
  intro hblank
  rw [isSpace_of_isBlank hblank] at h
  cases h

/-! ## Words -/

/-- A word without blanks is read as a whole. -/
theorem wordsFrom_append (read : List Char) (hw : ∀ ch ∈ w, isBlank ch = false) :
    wordsFrom read (w ++ r) = wordsFrom (w.reverse ++ read) r := by
  induction w generalizing read with
  | nil => rfl
  | cons ch w ih =>
    have hch := hw ch List.mem_cons_self
    rw [List.cons_append, wordsFrom, hch, if_neg (by decide),
      ih _ fun x hx => hw x (List.mem_cons_of_mem ch hx), List.reverse_cons, List.append_assoc]
    rfl

/-- Blanks in front of words. -/
theorem words_blanks (hw : ∀ ch ∈ w, isBlank ch = true) : words (w ++ r) = words r := by
  induction w with
  | nil => rfl
  | cons ch w ih =>
    have hch := hw ch List.mem_cons_self
    rw [words, List.cons_append, wordsFrom, hch]
    exact ih fun x hx => hw x (List.mem_cons_of_mem ch hx)

/-- A word is what stands in front of a blank or of the end. -/
theorem words_append (hne : w ≠ []) (hw : ∀ ch ∈ w, isBlank ch = false)
    (hr : Stops (!isBlank ·) r) : words (w ++ r) = w :: words r := by
  rw [words, wordsFrom_append [] hw, List.append_nil]
  have hread : w.reverse.isEmpty = false := by simpa using hne
  cases r with
  | nil => rw [wordsFrom, hread, List.reverse_reverse]; rfl
  | cons ch r =>
    have hch : isBlank ch = true := by simpa using hr ch rfl
    rw [wordsFrom, hch, hread, List.reverse_reverse, words, wordsFrom, hch]
    rfl

/-- The first word of a text, if there is one. -/
theorem words_cases (cs : List Char) :
    words cs = [] ∧ (∀ ch ∈ cs, isBlank ch = true) ∨
      ∃ lead w r, cs = lead ++ (w ++ r) ∧ (∀ ch ∈ lead, isBlank ch = true) ∧ w ≠ [] ∧
        (∀ ch ∈ w, isBlank ch = false) ∧ Stops (!isBlank ·) r ∧ words cs = w :: words r := by
  obtain ⟨lead, more, rfl, hlead, hmore⟩ := exists_span isBlank cs
  cases more with
  | nil =>
    refine .inl ⟨words_blanks hlead, ?_⟩
    rwa [List.append_nil]
  | cons x more =>
    obtain ⟨w, r, hsplit, hw, hr⟩ := exists_span (!isBlank ·) (x :: more)
    rw [hsplit]
    have hword : ∀ ch ∈ w, isBlank ch = false := by
      intro ch hch
      simpa using hw ch hch
    have hne : w ≠ [] := by
      rintro rfl
      have hsame : x :: more = r := hsplit
      rw [← hsame] at hr
      exact not_stops (by simp [hmore x rfl]) hr
    refine .inr ⟨lead, w, r, rfl, hlead, hne, hword, hr, ?_⟩
    rw [words_blanks hlead, words_append hne hword hr]

/-- A text without words is blank. -/
theorem isBlank_of_words_nil (h : words cs = []) : ∀ ch ∈ cs, isBlank ch = true := by
  rcases words_cases cs with ⟨-, hblank⟩ | ⟨_, _, _, _, _, _, _, _, hword⟩
  · exact hblank
  · rw [h] at hword
    cases hword

/-- The blanks in front of a word and what stands behind it. Where the text starts with a blank,
there are some. -/
theorem exists_of_words_cons (h : words cs = w :: ws) :
    ∃ lead r, cs = lead ++ (w ++ r) ∧ (∀ ch ∈ lead, isBlank ch = true) ∧
      (Stops (!isBlank ·) cs → lead ≠ []) ∧ Stops (!isBlank ·) r ∧ words r = ws := by
  rcases words_cases cs with ⟨hnone, -⟩ | ⟨lead, word, r, rfl, hlead, hne, hword, hr, hfirst⟩
  · rw [h] at hnone
    cases hnone
  · rw [h, List.cons.injEq] at hfirst
    obtain ⟨rfl, rfl⟩ := hfirst
    refine ⟨lead, r, rfl, hlead, ?_, hr, rfl⟩
    rintro hstops rfl
    obtain ⟨x, w, rfl⟩ := List.exists_cons_of_ne_nil hne
    exact not_stops (by simp [hword x List.mem_cons_self]) hstops

/-! ### The words of a sentence -/

/-- A rule with its mark is read as its id. -/
theorem ruleOfWord_text (id : Run (!isSpace ·)) :
    Directive.ruleOfWord (ruleMark ++ id.chars) = some (String.ofList id.chars) := by
  have hempty : id.chars.isEmpty = false := by simpa using id.ne_nil
  have hspace : id.chars.any isSpace = false := by
    rw [List.any_eq_false]
    intro ch hch
    simpa using id.all ch hch
  rw [Directive.ruleOfWord, if_pos (List.isPrefixOf_iff_prefix.2 (List.prefix_append _ _)),
    List.drop_left]
  simp only [hempty, hspace, Bool.or_self, Bool.false_eq_true, if_false]

/-- A word that is read as a rule has the mark in front of the id. -/
theorem exists_of_ruleOfWord {name : String} (h : Directive.ruleOfWord w = some name) :
    ∃ id : Run (!isSpace ·), w = ruleMark ++ id.chars ∧ name = String.ofList id.chars := by
  unfold Directive.ruleOfWord at h
  split at h
  · rename_i hmark
    obtain ⟨id, rfl⟩ := List.isPrefixOf_iff_prefix.1 hmark
    simp only [List.drop_left] at h
    split at h
    · cases h
    · rename_i hid
      cases h
      simp only [Bool.or_eq_true, not_or, Bool.not_eq_true, List.any_eq_false] at hid
      refine ⟨⟨id, by simpa using hid.1, ?_⟩, rfl, rfl⟩
      intro ch hch
      simpa using hid.2 ch hch
  · cases h

theorem isBlank_of_all (h : w.all (!isBlank ·) = true) : ∀ ch ∈ w, isBlank ch = false := by
  intro ch hch
  simpa using List.all_eq_true.1 h ch hch

/-- The rule with its mark is one word. -/
theorem isBlank_of_mem_rule (id : Run (!isSpace ·)) :
    ∀ ch ∈ ruleMark ++ id.chars, isBlank ch = false := by
  intro ch hch
  rcases List.mem_append.1 hch with hch | hch
  · exact isBlank_of_all rfl ch hch
  · exact isBlank_of_not_isSpace (id.all ch hch)

/-- The words behind the kind are read as the rules. -/
theorem rulesOfWords_rest (rules : List Rule) (tail : Blanks) :
    Directive.rulesOfWords (words (rest rules tail)) =
      some (rules.map fun rule => String.ofList rule.id.chars) := by
  induction rules with
  | nil =>
    have hwords : words (tail.chars ++ []) = words [] := words_blanks tail.all
    rw [List.append_nil] at hwords
    show Directive.rulesOfWords (words tail.chars) = _
    rw [hwords]
    rfl
  | cons rule rules ih =>
    have htext : rest (rule :: rules) tail =
        rule.gap.chars ++ ((ruleMark ++ rule.id.chars) ++ rest rules tail) := by
      simp [rest, Rule.text]
    rw [htext, words_blanks rule.gap.all, words_append (by simp [ruleMark])
      (isBlank_of_mem_rule rule.id) (stops_rest fun ch hch => by simp [hch]),
      Directive.rulesOfWords, ruleOfWord_text, ih]
    rfl

/-- What is read as rules has their form. -/
theorem exists_of_rulesOfWords {names : List String} (hcs : Stops (!isBlank ·) cs)
    (h : Directive.rulesOfWords (words cs) = some names) :
    ∃ rules tail, cs = rest rules tail ∧ names = rules.map fun rule => String.ofList rule.id.chars := by
  generalize hws : words cs = ws at h
  induction ws generalizing cs names with
  | nil =>
    cases h
    exact ⟨[], ⟨cs, isBlank_of_words_nil hws⟩, rfl, rfl⟩
  | cons w ws ih =>
    unfold Directive.rulesOfWords at h
    split at h
    · rename_i name names' hname hnames
      cases h
      obtain ⟨gap, r, rfl, hgap, hne, hr, hmore⟩ := exists_of_words_cons hws
      obtain ⟨id, rfl, rfl⟩ := exists_of_ruleOfWord hname
      obtain ⟨rules, tail, rfl, rfl⟩ := ih hr hmore hnames
      refine ⟨⟨⟨gap, hne hcs, hgap⟩, id⟩ :: rules, tail, ?_, rfl⟩
      simp [rest, Rule.text]
    · cases h

/-- A kind is read off its word only. -/
theorem ofWord_eq_some_iff : DirectiveKind.ofWord w = some kind ↔ kind.word.toList = w := by
  constructor
  · intro h
    unfold DirectiveKind.ofWord at h
    have hfound := List.find?_some h
    exact beq_iff_eq.1 hfound
  · rintro rfl
    cases kind <;> rfl

theorem isBlank_of_mem_marker : ∀ ch ∈ directiveMarker.toList, isBlank ch = false :=
  isBlank_of_all rfl

theorem isBlank_of_mem_word (kind : DirectiveKind) :
    ∀ ch ∈ kind.word.toList, isBlank ch = false := by
  cases kind <;> exact isBlank_of_all rfl

theorem word_ne_nil (kind : DirectiveKind) : kind.word.toList ≠ [] := by
  cases kind <;> decide

/-- A sentence is parsed to what it says. -/
theorem parse_text (s : Sentence) : Directive.parse s.text = some s.directive := by
  have hgap : Stops (!isBlank ·) (s.gap.chars ++ (s.kind.word.toList ++ rest s.rules s.tail)) :=
    stops_append s.gap.ne_nil fun ch hch => by simp [s.gap.all ch hch]
  have hrest : Stops (!isBlank ·) (rest s.rules s.tail) := stops_rest fun ch hch => by simp [hch]
  show Directive.ofWords (words (s.lead.chars ++ _)) = _
  rw [words_blanks s.lead.all, words_append (by decide) isBlank_of_mem_marker hgap,
    words_blanks s.gap.all, words_append (word_ne_nil s.kind) (isBlank_of_mem_word s.kind) hrest]
  simp only [Directive.ofWords, beq_self_eq_true, if_true, ofWord_eq_some_iff.2 rfl,
    rulesOfWords_rest]
  rfl

/-- What is parsed is a sentence. -/
theorem exists_sentence_of_parse (h : Directive.parse cs = some d) :
    ∃ s : Sentence, s.text = cs ∧ s.directive = d := by
  unfold Directive.parse at h
  split at h
  · rename_i more
    unfold Directive.ofWords at h
    split at h
    · rename_i marker word rules hwords
      split at h
      · rename_i hmarker
        split at h
        · rename_i kind names hkind hnames
          cases h
          obtain rfl := beq_iff_eq.1 hmarker
          obtain rfl := ofWord_eq_some_iff.1 hkind
          obtain ⟨lead, r, rfl, hlead, -, hr, hword⟩ := exists_of_words_cons hwords
          obtain ⟨gap, r', rfl, hgap, hne, hr', hmore⟩ := exists_of_words_cons hword
          rw [← hmore] at hnames
          obtain ⟨rules, tail, rfl, rfl⟩ := exists_of_rulesOfWords hr' hnames
          exact ⟨⟨⟨lead, hlead⟩, ⟨gap, hne hr, hgap⟩, kind, rules, tail⟩, rfl, rfl⟩
        · cases h
      · cases h
    · cases h
  · cases h

/-! ## From left to right -/

/-- A parser makes something of the front of a text and leaves the rest, or it fails. -/
abbrev Parser (α : Type) : Type := List Char → Option (α × List Char)

/-- Takes the given text. -/
def just (w : List Char) : Parser Unit := fun cs =>
  if w.isPrefixOf cs then some ((), cs.drop w.length) else none

/-- Takes the blanks that there are. -/
def blanks : List Char → Blanks × List Char := fun cs =>
  (⟨cs.takeWhile isBlank, List.all_eq_true.1 List.all_takeWhile⟩, cs.dropWhile isBlank)

/-- Takes as many characters of a class as there are, but at least one. -/
def run (p : Char → Bool) : Parser (Run p) := fun cs =>
  if h : cs.takeWhile p = [] then none
  else some (⟨cs.takeWhile p, h, List.all_eq_true.1 List.all_takeWhile⟩, cs.dropWhile p)

/-- Takes what the first parser takes that does not fail. -/
def choice {α : Type} (ps : List (Parser α)) : Parser α := fun cs => ps.findSome? (· cs)

/-- Repeats a parser until it fails. What it looked at when it failed is not taken. A parser that
takes nothing is not repeated. -/
def many {α : Type} (p : Parser α) (cs : List Char) : List α × List Char :=
  match p cs with
  | none => ([], cs)
  | some (a, r) =>
    if _h : r.length < cs.length then (a :: (many p r).1, (many p r).2) else ([], cs)
termination_by cs.length

/-- Kinds that start like another one are tried before it. -/
def kindParser : Parser DirectiveKind :=
  choice <| [.disableLine, .disableFile, .disable, .enable].map fun kind cs =>
    (just kind.word.toList cs).map fun taken => (kind, taken.2)

def ruleParser : Parser Rule := fun cs => do
  let (gap, cs) ← run isBlank cs
  let (_, cs) ← just ruleMark cs
  let (id, cs) ← run (!isSpace ·) cs
  some (⟨gap, id⟩, cs)

/-- Reads a sentence from left to right. -/
def read (cs : List Char) : Option Sentence := do
  let (_, cs) ← just ['#'] cs
  let (lead, cs) := blanks cs
  let (_, cs) ← just directiveMarker.toList cs
  let (gap, cs) ← run isBlank cs
  let (kind, cs) ← kindParser cs
  let (rules, cs) := many ruleParser cs
  let (tail, cs) := blanks cs
  if cs.isEmpty then some ⟨lead, gap, kind, rules, tail⟩ else none

/-! ### Sentences are read -/

theorem just_append (w r : List Char) : just w (w ++ r) = some ((), r) := by
  rw [just, if_pos (List.isPrefixOf_iff_prefix.2 (List.prefix_append w r)), List.drop_left]

theorem blanks_append (b : Blanks) (hr : Stops isBlank r) : blanks (b.chars ++ r) = (b, r) := by
  simp only [blanks, takeWhile_of_stops b.all hr, dropWhile_of_stops b.all hr]

theorem run_append (x : Run p) (hr : Stops p r) : run p (x.chars ++ r) = some (x, r) := by
  simp only [run, takeWhile_of_stops x.all hr, dropWhile_of_stops x.all hr, x.ne_nil, dite_false]

/-- A kind that stands in front of a blank or of the end is not taken for one that starts like it. -/
theorem kindParser_append (kind : DirectiveKind) (hr : Stops (!isBlank ·) r) :
    kindParser (kind.word.toList ++ r) = some (kind, r) := by
  cases r with
  | nil => cases kind <;> rfl
  | cons ch r =>
    have hch : isBlank ch = true := by simpa using hr ch rfl
    simp only [isBlank, Bool.or_eq_true, beq_iff_eq] at hch
    -- a blank is not the hyphen with which the longer kinds go on
    rcases hch with rfl | rfl <;> cases kind <;> rfl

/-- The parser of a rule takes all of it, and stops behind it. -/
theorem ruleParser_append (rule : Rule) (hr : Stops (!isSpace ·) r) :
    ruleParser (rule.text ++ r) = some (rule, r) := by
  have hmark : Stops isBlank (ruleMark ++ (rule.id.chars ++ r)) :=
    stops_append (by decide) (isBlank_of_all rfl)
  rw [ruleParser, Rule.text, List.append_assoc, List.append_assoc, run_append rule.gap hmark]
  simp only [Option.bind_eq_bind, Option.bind_some, just_append, run_append rule.id hr]

/-- Blanks at the end are no start of a rule. -/
theorem ruleParser_blanks (tail : Blanks) : ruleParser tail.chars = none := by
  by_cases hnil : tail.chars = []
  · rw [hnil]
    rfl
  · have hrun : run isBlank (tail.chars ++ []) = some (⟨tail.chars, hnil, tail.all⟩, []) :=
      run_append ⟨tail.chars, hnil, tail.all⟩ stops_nil
    rw [List.append_nil] at hrun
    rw [ruleParser, hrun]
    rfl

/-- Rules are repeated up to the blanks at the end, which are left. -/
theorem many_rest (rules : List Rule) (tail : Blanks) :
    many ruleParser (rest rules tail) = (rules, tail.chars) := by
  induction rules with
  | nil =>
    have hnone : ruleParser (rest [] tail) = none := ruleParser_blanks tail
    rw [many, hnone]
    rfl
  | cons rule rules ih =>
    have htext : rest (rule :: rules) tail = rule.text ++ rest rules tail := by simp [rest]
    have hrule : ruleParser (rest (rule :: rules) tail) = some (rule, rest rules tail) := by
      rw [htext]
      exact ruleParser_append rule (stops_rest fun ch hch => by simp [isSpace_of_isBlank hch])
    -- the blanks in front of a rule are read with it, so every rule takes some text
    have hlt : (rest rules tail).length < (rest (rule :: rules) tail).length := by
      have hpos := List.length_pos_iff.2 rule.gap.ne_nil
      rw [htext, Rule.text, List.length_append, List.length_append]
      omega
    rw [many, hrule]
    simp only [hlt, dite_true, ih]

/-- The parts of a sentence are read back. -/
theorem read_text (s : Sentence) : read s.text = some s := by
  have hmarker : Stops isBlank (directiveMarker.toList ++
      (s.gap.chars ++ (s.kind.word.toList ++ rest s.rules s.tail))) :=
    stops_append (by decide) isBlank_of_mem_marker
  have hword : Stops isBlank (s.kind.word.toList ++ rest s.rules s.tail) :=
    stops_append (word_ne_nil s.kind) (isBlank_of_mem_word s.kind)
  have hrest : Stops (!isBlank ·) (rest s.rules s.tail) := stops_rest fun ch hch => by simp [hch]
  have hhash : just ['#'] s.text = some ((), s.lead.chars ++ (directiveMarker.toList ++
      (s.gap.chars ++ (s.kind.word.toList ++ rest s.rules s.tail)))) := just_append ['#'] _
  have htail : blanks s.tail.chars = (s.tail, []) := by
    have hend := blanks_append s.tail stops_nil
    rwa [List.append_nil] at hend
  simp only [read, hhash, blanks_append s.lead hmarker, just_append, run_append s.gap hword,
    kindParser_append s.kind hrest, many_rest, htail, Option.bind_eq_bind, Option.bind_some,
    List.isEmpty_nil, if_true]

/-! ### What is read is a sentence -/

theorem text_of_just {u : Unit} (h : just w cs = some (u, r)) : cs = w ++ r := by
  unfold just at h
  split at h
  · rename_i hw
    obtain ⟨more, rfl⟩ := List.isPrefixOf_iff_prefix.1 hw
    rw [List.drop_left] at h
    cases h
    rfl
  · cases h

theorem text_of_blanks (cs : List Char) : (blanks cs).1.chars ++ (blanks cs).2 = cs :=
  List.takeWhile_append_dropWhile

theorem text_of_run {x : Run p} (h : run p cs = some (x, r)) : cs = x.chars ++ r := by
  unfold run at h
  split at h
  · cases h
  · cases h
    exact List.takeWhile_append_dropWhile.symm

theorem text_of_kindParser (h : kindParser cs = some (kind, r)) : cs = kind.word.toList ++ r := by
  obtain ⟨q, hq, hqcs⟩ := List.exists_of_findSome?_eq_some h
  obtain ⟨kind', -, rfl⟩ := List.mem_map.1 hq
  obtain ⟨⟨u, r'⟩, hjust, heq⟩ := Option.map_eq_some_iff.1 hqcs
  cases heq
  exact text_of_just hjust

/-- What the parser of a rule takes is the text of the rule. -/
theorem text_of_ruleParser {rule : Rule} (h : ruleParser cs = some (rule, r)) :
    cs = rule.text ++ r := by
  simp only [ruleParser, Option.bind_eq_bind, Option.bind_eq_some_iff, Prod.exists,
    Option.some.injEq, Prod.mk.injEq] at h
  obtain ⟨gap, r₁, hgap, u, r₂, hmark, id, r₃, hid, rfl, rfl⟩ := h
  rw [text_of_run hgap, text_of_just hmark, text_of_run hid, Rule.text, List.append_assoc,
    List.append_assoc]

/-- What is taken for rules is their text. -/
theorem text_of_many (cs : List Char) :
    (many ruleParser cs).1.flatMap Rule.text ++ (many ruleParser cs).2 = cs := by
  fun_induction many ruleParser cs with
  | case1 cs => rfl
  | case2 cs rule r hrule hlt ih =>
    rw [List.flatMap_cons, List.append_assoc, ih]
    exact (text_of_ruleParser hrule).symm
  | case3 cs => rfl

/-- What is read as a sentence is its text. -/
theorem text_of_read (h : read cs = some s) : s.text = cs := by
  simp only [read, Option.bind_eq_bind, Option.bind_eq_some_iff, Prod.exists] at h
  obtain ⟨u, r₁, hhash, u', r₂, hmarker, gap, r₃, hgap, kind, r₄, hkind, h⟩ := h
  split at h
  · rename_i hend
    cases h
    have htail := text_of_blanks (many ruleParser r₄).2
    rw [List.isEmpty_iff.1 hend, List.append_nil] at htail
    have hrest : rest (many ruleParser r₄).1 (blanks (many ruleParser r₄).2).1 = r₄ := by
      rw [rest, htail, text_of_many]
    rw [Sentence.text, hrest, ← text_of_kindParser hkind, ← text_of_run hgap,
      ← text_of_just hmarker, text_of_blanks, text_of_just hhash]
    rfl
  · cases h

/-! ## Directives -/

/-- The parser of directives accepts just the sentences of the grammar and says what they say. A
comment is a sentence in one way at most. A parser that goes from left to right, by ordered choice
and greedy repetition, agrees with it. -/
theorem parse_accepts_grammar :
    (∀ (comment : List Char) (d : Directive), Directive.parse comment = some d ↔
      ∃ s : Sentence, s.text = comment ∧ s.directive = d) ∧
    Function.Injective Sentence.text ∧
    ∀ comment : List Char, Directive.parse comment = (read comment).map Sentence.directive := by
  have hparse : ∀ (comment : List Char) (d : Directive), Directive.parse comment = some d ↔
      ∃ s : Sentence, s.text = comment ∧ s.directive = d := by
    intro comment d
    constructor
    · exact exists_sentence_of_parse
    · rintro ⟨s, rfl, rfl⟩
      exact parse_text s
  refine ⟨hparse, ?_, ?_⟩
  · intro s s' h
    have hread := read_text s
    rw [h, read_text s', Option.some.injEq] at hread
    exact hread.symm
  · intro comment
    refine Option.ext fun d => ?_
    rw [hparse, Option.map_eq_some_iff]
    constructor
    · rintro ⟨s, rfl, rfl⟩
      exact ⟨s, read_text s, rfl⟩
    · rintro ⟨s, hs, rfl⟩
      exact ⟨s, text_of_read hs, rfl⟩

/-- The id of a rule goes on up to the next white space, whatever else it holds. -/
example : Directive.parse "#\tyamlstyle disable rule:a#rule:b  rule::\t".toList =
    some ⟨.disable, ["a#rule:b", ":"]⟩ := by decide

end YamlLinter.DirectiveGrammar
