import YamlLinter.Json.Reader

/-!
# Reading JSON without fuel

The readers of values are given fuel that the length of the text bounds. Here they are described
without it: every reader leaves less text than it was given, so that a value that can be read with
some fuel is read with every fuel that is twice as large as the text.

## Contents

* how much text each reader leaves;
* `Seals`, `Names`: the closing brace of an object, and a name with its colon;
* `readMembersFrom_succ`, `readItemsFrom_succ`, `readValueFrom_succ`: one step of each reader;
* `shorter_from`, `fuel_from`: what fuel does;
* `Reads`, `ReadsItems`, `ReadsMembers`: reading with some fuel;
* `reads_iff`, `reads_object`, `reads_array`: what is read.
-/

namespace YamlLinter.Json

variable {cs rest : List Char}

/-! ## How much text is left -/

theorem length_skipSpace_le (cs : List Char) : (skipSpace cs).length ≤ cs.length :=
  (List.dropWhile_sublist _).length_le

/-- A character behind white space, taken away with it, leaves less text. -/
theorem length_lt_of_skipSpace {c : Char} (h : skipSpace cs = c :: rest) :
    rest.length < cs.length := by
  have hle := length_skipSpace_le cs
  rw [h, List.length_cons] at hle
  exact hle

theorem length_readWord_le {word : List Char} (h : readWord word cs = .ok rest) :
    rest.length ≤ cs.length := by
  fun_induction readWord word cs with
  | case1 cs =>
    cases h
    exact Nat.le_refl _
  | case2 w ws => cases h
  | case3 w ws c cs hc ih => exact Nat.le_succ_of_le (ih h)
  | case4 w ws c cs hc => cases h

theorem length_readDigits_lt {digits : List Char} (h : readDigits cs = .ok (digits, rest)) :
    rest.length < cs.length := by
  unfold readDigits at h
  split at h
  · cases h
  · rename_i c cs
    split at h
    · rename_i hc
      cases h
      rw [List.dropWhile_cons_of_pos hc]
      exact Nat.lt_succ_of_le (List.dropWhile_sublist _).length_le
    · cases h

/-- The whole part of a number has a digit at least. -/
theorem length_readWhole_lt {digits : List Char} (h : readWhole cs = .ok (digits, rest)) :
    rest.length < cs.length := by
  unfold readWhole at h
  split at h
  · split at h
    · cases h
    · cases h
      exact Nat.lt_succ_self _
  · exact length_readDigits_lt h

/-- A number may do without a fraction. -/
theorem length_readFraction_le {digits : Option (List Char)}
    (h : readFraction cs = .ok (digits, rest)) : rest.length ≤ cs.length := by
  unfold readFraction at h
  split at h
  · split at h
    · cases h
    · rename_i hdigits
      cases h
      exact Nat.le_succ_of_le (Nat.le_of_lt (length_readDigits_lt hdigits))
  · cases h
    exact Nat.le_refl _

theorem length_readSign_le (cs : List Char) : (readSign cs).2.length ≤ cs.length := by
  unfold readSign
  split
  · exact Nat.le_succ _
  · exact Nat.le_succ _
  · exact Nat.le_refl _

/-- A number may do without an exponent. -/
theorem length_readExponent_le {exponent : Option Int}
    (h : readExponent cs = .ok (exponent, rest)) : rest.length ≤ cs.length := by
  unfold readExponent at h
  split at h
  · rename_i c cs
    split at h
    · simp only at h
      split at h
      · cases h
      · rename_i hdigits
        cases h
        have hsign := length_readSign_le cs
        have hlt := length_readDigits_lt hdigits
        rw [List.length_cons]
        omega
    · cases h
      exact Nat.le_refl _
  · cases h
    exact Nat.le_refl _

/-- A number takes a character at least. -/
theorem length_readNumber_lt {negative : Bool} {n : JsonNumber}
    (h : readNumber negative cs = .ok (n, rest)) : rest.length < cs.length := by
  unfold readNumber at h
  split at h
  · cases h
  · rename_i hwhole
    split at h
    · cases h
    · rename_i hfraction
      split at h
      · cases h
      · rename_i hexponent
        split at h
        · cases h
        · cases h
          have hlt := length_readWhole_lt hwhole
          have hle₁ := length_readFraction_le hfraction
          have hle₂ := length_readExponent_le hexponent
          omega

theorem length_readUnit_le {unit : Nat} (h : readUnit cs = .ok (unit, rest)) :
    rest.length ≤ cs.length := by
  unfold readUnit at h
  split at h
  · cases h
  · split at h
    · split at h
      · cases h
        simp only [List.length_cons]
        omega
      · cases h
    · cases h

theorem length_readLowSurrogate_le {high : Nat} {c : Char}
    (h : readLowSurrogate high cs = .ok (c, rest)) : rest.length ≤ cs.length := by
  unfold readLowSurrogate at h
  split at h
  · cases h
  · cases h
  · split at h
    · cases h
    · rename_i hunit
      split at h
      · obtain ⟨-, rfl⟩ := Prod.mk.inj (Except.ok.inj h)
        have hle := length_readUnit_le hunit
        simp only [List.length_cons]
        omega
      · cases h
  · cases h

theorem length_readEscape_le {c : Char} (h : readEscape cs = .ok (c, rest)) :
    rest.length ≤ cs.length := by
  unfold readEscape at h
  split at h
  · cases h
  · rename_i c' cs'
    have hone : ∀ {d : Char}, (Except.ok (d, cs') : Read Char) = .ok (c, rest) →
        rest.length ≤ (c' :: cs').length := by
      intro d heq
      cases heq
      exact Nat.le_succ _
    split at h
    · exact hone h
    · exact hone h
    · exact hone h
    · exact hone h
    · exact hone h
    · exact hone h
    · exact hone h
    · exact hone h
    · split at h
      · cases h
      · rename_i hunit
        have hle := length_readUnit_le hunit
        split at h
        · cases h
        · split at h
          · exact Nat.le_succ_of_le (Nat.le_trans (length_readLowSurrogate_le h) hle)
          · cases h
            exact Nat.le_succ_of_le hle
    · cases h

/-- A text in quotes takes its closing quote at least. -/
theorem length_readTextFrom_lt {fuel : Nat} {read : List Char} {s : String}
    (h : readTextFrom fuel read cs = .ok (s, rest)) : rest.length < cs.length := by
  fun_induction readTextFrom fuel read cs with
  | case1 => cases h
  | case2 => cases h
  | case3 fuel read c cs hquote =>
    cases h
    exact Nat.lt_succ_self _
  | case4 => cases h
  | case5 fuel read c cs hquote hescape decoded cs' heq ih =>
    exact Nat.lt_of_lt_of_le (ih h) (Nat.le_succ_of_le (length_readEscape_le heq))
  | case6 => cases h
  | case7 fuel read c cs hquote hescape hcontrol ih => exact Nat.lt_succ_of_lt (ih h)

theorem length_readText_lt {s : String} (h : readText cs = .ok (s, rest)) :
    rest.length < cs.length :=
  length_readTextFrom_lt h

theorem length_readColon_lt (h : readColon cs = .ok rest) : rest.length < cs.length := by
  unfold readColon at h
  split at h
  · cases h
  · rename_i hspace
    split at h
    · cases h
      exact length_lt_of_skipSpace hspace
    · cases h

/-- The values that are not nested: a word, a number or a text. -/
theorem readScalar_cases {c : Char} {v : Json} (h : readScalar c cs = .ok (v, rest)) :
    (∃ word, readWord word cs = .ok rest ∧ (v = .null ∨ ∃ b, v = .bool b)) ∨
      (∃ n, readNumber true cs = .ok (n, rest) ∧ v = .number n) ∨
      (∃ s, readText cs = .ok (s, rest) ∧ v = .text s) ∨
      ∃ n, readNumber false (c :: cs) = .ok (n, rest) ∧ v = .number n := by
  unfold readScalar at h
  split at h
  · split at h
    · cases h
    · rename_i heq
      cases h
      exact .inl ⟨_, heq, .inl rfl⟩
  · split at h
    · cases h
    · rename_i heq
      cases h
      exact .inl ⟨_, heq, .inr ⟨true, rfl⟩⟩
  · split at h
    · cases h
    · rename_i heq
      cases h
      exact .inl ⟨_, heq, .inr ⟨false, rfl⟩⟩
  · split at h
    · cases h
    · rename_i heq
      cases h
      exact .inr (.inl ⟨_, heq, rfl⟩)
  · split at h
    · cases h
    · rename_i heq
      cases h
      exact .inr (.inr (.inl ⟨_, heq, rfl⟩))
  · split at h
    · split at h
      · cases h
      · rename_i heq
        cases h
        exact .inr (.inr (.inr ⟨_, heq, rfl⟩))
    · cases h

/-- A value that holds no others is read forwards from its first character on. -/
theorem length_readScalar_le {c : Char} {v : Json} (h : readScalar c cs = .ok (v, rest)) :
    rest.length ≤ cs.length := by
  obtain ⟨word, hword, -⟩ | ⟨n, hnumber, -⟩ | ⟨s, htext, -⟩ | ⟨n, hnumber, -⟩ := readScalar_cases h
  · exact length_readWord_le hword
  · exact Nat.le_of_lt (length_readNumber_lt hnumber)
  · exact Nat.le_of_lt (length_readText_lt htext)
  · exact Nat.le_of_lt_succ (length_readNumber_lt hnumber)

/-! ## Seams -/

/-- The text is the closing brace of an object, and `rest` stands behind it. -/
def Seals (first : Bool) (cs rest : List Char) : Prop :=
  ∃ brace, readMemberSeam first cs = .ok (false, brace) ∧ rest = brace.drop 1

/-- The text starts with the name of a member and its colon, and `rest` stands behind them. -/
def Names (first : Bool) (cs : List Char) (name : String) (rest : List Char) : Prop :=
  ∃ quoted behind, readMemberSeam first cs = .ok (true, quoted) ∧
    readText quoted = .ok (name, behind) ∧ readColon behind = .ok rest

/-- In front of a member its opening quote is taken; a brace that ends the object is left. -/
theorem length_readMemberSeam {first more : Bool} (h : readMemberSeam first cs = .ok (more, rest)) :
    if more then rest.length < cs.length else rest ≠ [] ∧ rest.length ≤ cs.length := by
  unfold readMemberSeam at h
  split at h
  · cases h
  · rename_i c cs' hspace
    have hlt := length_lt_of_skipSpace hspace
    split at h
    · cases h
      exact ⟨List.cons_ne_nil _ _, hlt⟩
    · split at h
      · split at h
        · cases h
          exact hlt
        · cases h
      · split at h
        · split at h
          · cases h
          · rename_i hnext
            split at h
            · cases h
              exact Nat.lt_trans (length_lt_of_skipSpace hnext) hlt
            · cases h
        · cases h

/-- In front of an item nothing has to be taken, but something follows. -/
theorem length_readItemSeam {first more : Bool} (h : readItemSeam first cs = .ok (more, rest)) :
    rest ≠ [] ∧ rest.length ≤ cs.length := by
  unfold readItemSeam at h
  split at h
  · cases h
  · rename_i c cs' hspace
    have hlt := length_lt_of_skipSpace hspace
    split at h
    · cases h
      exact ⟨List.cons_ne_nil _ _, hlt⟩
    · split at h
      · cases h
        exact ⟨List.cons_ne_nil _ _, hlt⟩
      · split at h
        · split at h
          · cases h
          · rename_i hnext
            split at h
            · cases h
            · cases h
              have hle := Nat.lt_trans (length_lt_of_skipSpace hnext) hlt
              exact ⟨List.cons_ne_nil _ _, hle⟩
        · cases h

/-- The end of an object takes its brace. -/
theorem Seals.length_lt {first : Bool} (h : Seals first cs rest) : rest.length < cs.length := by
  obtain ⟨brace, hseam, rfl⟩ := h
  obtain ⟨hne, hle⟩ : brace ≠ [] ∧ brace.length ≤ cs.length := length_readMemberSeam hseam
  have hpos := List.length_pos_iff.2 hne
  rw [List.length_drop]
  omega

/-- The name of a member takes its quotes and the colon. -/
theorem Names.length_lt {first : Bool} {name : String} (h : Names first cs name rest) :
    rest.length < cs.length := by
  obtain ⟨quoted, behind, hseam, htext, hcolon⟩ := h
  have hlt : quoted.length < cs.length := length_readMemberSeam hseam
  have hlt₁ := length_readText_lt htext
  have hlt₂ := length_readColon_lt hcolon
  omega

/-! ## One step of each reader -/

variable {fuel depth : Nat} {first : Bool}

/-- One step over the members of an object: its end, or a member and the rest of them. -/
theorem readMembersFrom_succ {members : List (String × Json)} :
    readMembersFrom (fuel + 1) depth first cs = .ok (members, rest) ↔
      Seals first cs rest ∧ members = [] ∨
        ∃ name text value behind more, Names first cs name text ∧
          readValueFrom fuel depth text = .ok (value, behind) ∧
          readMembersFrom fuel depth false behind = .ok (more, rest) ∧
          members = (name, value) :: more := by
  constructor
  · intro h
    unfold readMembersFrom at h
    split at h
    · cases h
    · rename_i brace hseam
      cases h
      exact .inl ⟨⟨brace, hseam, rfl⟩, rfl⟩
    · rename_i quoted hseam
      split at h
      · cases h
      · rename_i name behind htext
        split at h
        · cases h
        · rename_i text hcolon
          split at h
          · cases h
          · rename_i value rest₁ hvalue
            split at h
            · cases h
            · rename_i more rest₂ hmore
              cases h
              exact .inr ⟨name, text, value, rest₁, more, ⟨quoted, behind, hseam, htext, hcolon⟩,
                hvalue, hmore, rfl⟩
  · rintro (⟨⟨brace, hseam, rfl⟩, rfl⟩ |
      ⟨name, text, value, behind, more, ⟨quoted, after, hseam, htext, hcolon⟩, hvalue, hmore, rfl⟩)
    · simp only [readMembersFrom, hseam]
    · simp only [readMembersFrom, hseam, htext, hcolon, hvalue, hmore]

theorem readItemsFrom_succ {items : List Json} :
    readItemsFrom (fuel + 1) depth first cs = .ok (items, rest) ↔
      (∃ bracket, readItemSeam first cs = .ok (false, bracket) ∧ rest = bracket.drop 1) ∧
          items = [] ∨
        ∃ text item behind more, readItemSeam first cs = .ok (true, text) ∧
          readValueFrom fuel depth text = .ok (item, behind) ∧
          readItemsFrom fuel depth false behind = .ok (more, rest) ∧ items = item :: more := by
  constructor
  · intro h
    unfold readItemsFrom at h
    split at h
    · cases h
    · rename_i bracket hseam
      cases h
      exact .inl ⟨⟨bracket, hseam, rfl⟩, rfl⟩
    · rename_i text hseam
      split at h
      · cases h
      · rename_i item behind hitem
        split at h
        · cases h
        · rename_i more rest₁ hmore
          cases h
          exact .inr ⟨text, item, behind, more, hseam, hitem, hmore, rfl⟩
  · rintro (⟨⟨bracket, hseam, rfl⟩, rfl⟩ | ⟨text, item, behind, more, hseam, hitem, hmore, rfl⟩)
    · simp only [readItemsFrom, hseam]
    · simp only [readItemsFrom, hseam, hitem, hmore]

/-- One step into a value, by its first character: an array, an object, or neither. -/
theorem readValueFrom_succ {v : Json} :
    readValueFrom (fuel + 1) depth cs = .ok (v, rest) ↔
      ∃ c text, skipSpace cs = c :: text ∧
        ((c = '[' ∧ depth + 1 < nestingLimit ∧
            ∃ items, readItemsFrom fuel (depth + 1) true text = .ok (items, rest) ∧ v = .array items) ∨
          (c = '\x7b' ∧ depth + 1 < nestingLimit ∧
            ∃ members, readMembersFrom fuel (depth + 1) true text = .ok (members, rest) ∧
              v = .object members) ∨
          c ≠ '[' ∧ c ≠ '\x7b' ∧ readScalar c text = .ok (v, rest)) := by
  constructor
  · intro h
    unfold readValueFrom at h
    split at h
    · cases h
    · rename_i c text hspace
      refine ⟨c, text, hspace, ?_⟩
      split at h
      · rename_i hc
        split at h
        · cases h
        · rename_i hdepth
          split at h
          · cases h
          · rename_i items rest₁ hitems
            cases h
            exact .inl ⟨eq_of_beq hc, Nat.lt_of_not_le hdepth, items, hitems, rfl⟩
      · rename_i hc
        split at h
        · rename_i hc'
          split at h
          · cases h
          · rename_i hdepth
            split at h
            · cases h
            · rename_i members rest₁ hmembers
              cases h
              exact .inr (.inl ⟨eq_of_beq hc', Nat.lt_of_not_le hdepth, members, hmembers, rfl⟩)
        · rename_i hc'
          exact .inr (.inr ⟨by simpa using hc, by simpa using hc', h⟩)
  · rintro ⟨c, text, hspace, ⟨rfl, hdepth, items, hitems, rfl⟩ | ⟨rfl, hdepth, members, hmembers, rfl⟩ |
      ⟨hc, hc', hscalar⟩⟩
    · have hdepth := Nat.not_le_of_lt hdepth
      simp [readValueFrom, hspace, hdepth, hitems]
    · have hdepth := Nat.not_le_of_lt hdepth
      simp [readValueFrom, hspace, hdepth, hmembers]
    · simp [readValueFrom, hspace, hc, hc', hscalar]

/-! ## What fuel does -/

/-- Every reader leaves less text than it was given. -/
theorem shorter_from (fuel : Nat) :
    (∀ {depth cs v rest}, readValueFrom fuel depth cs = .ok (v, rest) → rest.length < cs.length) ∧
      (∀ {depth first cs items rest}, readItemsFrom fuel depth first cs = .ok (items, rest) →
        rest.length < cs.length) ∧
      ∀ {depth first cs members rest}, readMembersFrom fuel depth first cs = .ok (members, rest) →
        rest.length < cs.length := by
  -- the three readers call each other, so the induction on fuel is one for all
  induction fuel with
  | zero =>
    refine ⟨?_, ?_, ?_⟩
    · intro depth cs v rest h
      cases h
    · intro depth first cs items rest h
      cases h
    · intro depth first cs members rest h
      cases h
  | succ fuel ih =>
    obtain ⟨hvalues, hitems, hmembers⟩ := ih
    refine ⟨?_, ?_, ?_⟩
    · intro depth cs v rest h
      obtain ⟨c, text, hspace, ⟨-, -, items, h, -⟩ | ⟨-, -, members, h, -⟩ | ⟨-, -, h⟩⟩ :=
        readValueFrom_succ.1 h
      · exact Nat.lt_trans (hitems h) (length_lt_of_skipSpace hspace)
      · exact Nat.lt_trans (hmembers h) (length_lt_of_skipSpace hspace)
      · exact Nat.lt_of_le_of_lt (length_readScalar_le h) (length_lt_of_skipSpace hspace)
    · intro depth first cs items rest h
      obtain ⟨⟨bracket, hseam, rfl⟩, -⟩ | ⟨text, item, behind, more, hseam, hitem, hmore, -⟩ :=
        readItemsFrom_succ.1 h
      · obtain ⟨hne, hle⟩ := length_readItemSeam hseam
        have hpos := List.length_pos_iff.2 hne
        rw [List.length_drop]
        omega
      · have hle := (length_readItemSeam hseam).2
        have hlt := hvalues hitem
        have hlt' := hitems hmore
        omega
    · intro depth first cs members rest h
      obtain ⟨hseals, -⟩ | ⟨name, text, value, behind, more, hnames, hvalue, hmore, -⟩ :=
        readMembersFrom_succ.1 h
      · exact hseals.length_lt
      · have hlt := hnames.length_lt
        have hlt' := hvalues hvalue
        have hlt'' := hmembers hmore
        omega

/-- What can be read with some fuel is read with all fuel that is large enough for the text. -/
theorem fuel_from (fuel : Nat) :
    (∀ {depth cs r}, readValueFrom fuel depth cs = .ok r →
        ∀ {g}, 2 * cs.length + 1 ≤ g → readValueFrom g depth cs = .ok r) ∧
      (∀ {depth first cs r}, readItemsFrom fuel depth first cs = .ok r →
        ∀ {g}, 2 * cs.length + 2 ≤ g → readItemsFrom g depth first cs = .ok r) ∧
      ∀ {depth first cs r}, readMembersFrom fuel depth first cs = .ok r →
        ∀ {g}, 2 * cs.length + 2 ≤ g → readMembersFrom g depth first cs = .ok r := by
  -- the list readers may reach a value without passing a character, so they need one step more
  induction fuel with
  | zero =>
    refine ⟨?_, ?_, ?_⟩
    · intro depth cs r h
      cases h
    · intro depth first cs r h
      cases h
    · intro depth first cs r h
      cases h
  | succ fuel ih =>
    obtain ⟨hvalues, hitems, hmembers⟩ := ih
    refine ⟨?_, ?_, ?_⟩
    · rintro depth cs ⟨v, rest⟩ h g hg
      obtain ⟨g, rfl⟩ : ∃ g', g = g' + 1 := ⟨g - 1, by omega⟩
      obtain ⟨c, text, hspace, hv⟩ := readValueFrom_succ.1 h
      have hlt := length_lt_of_skipSpace hspace
      refine readValueFrom_succ.2 ⟨c, text, hspace, ?_⟩
      rcases hv with ⟨hc, hdepth, items, h, hv⟩ | ⟨hc, hdepth, members, h, hv⟩ | hscalar
      · exact .inl ⟨hc, hdepth, items, hitems h (by omega), hv⟩
      · exact .inr (.inl ⟨hc, hdepth, members, hmembers h (by omega), hv⟩)
      · exact .inr (.inr hscalar)
    · rintro depth first cs ⟨items, rest⟩ h g hg
      obtain ⟨g, rfl⟩ : ∃ g', g = g' + 1 := ⟨g - 1, by omega⟩
      refine readItemsFrom_succ.2 ?_
      obtain hclose | ⟨text, item, behind, more, hseam, hitem, hmore, heq⟩ := readItemsFrom_succ.1 h
      · exact .inl hclose
      · have hle := (length_readItemSeam hseam).2
        have hlt := (shorter_from fuel).1 hitem
        exact .inr ⟨text, item, behind, more, hseam, hvalues hitem (by omega),
          hitems hmore (by omega), heq⟩
    · rintro depth first cs ⟨members, rest⟩ h g hg
      obtain ⟨g, rfl⟩ : ∃ g', g = g' + 1 := ⟨g - 1, by omega⟩
      refine readMembersFrom_succ.2 ?_
      obtain hclose | ⟨name, text, value, behind, more, hnames, hvalue, hmore, heq⟩ :=
        readMembersFrom_succ.1 h
      · exact .inl hclose
      · have hlt := hnames.length_lt
        have hlt' := (shorter_from fuel).1 hvalue
        exact .inr ⟨name, text, value, behind, more, hnames, hvalues hvalue (by omega),
          hmembers hmore (by omega), heq⟩

/-! ## Reading without fuel -/

/-- A value is read at the front of a text inside `depth` brackets. -/
def Reads (depth : Nat) (cs : List Char) (v : Json) (rest : List Char) : Prop :=
  ∃ fuel, readValueFrom fuel depth cs = .ok (v, rest)

/-- The items of an array and its closing bracket are read at the front of a text. -/
def ReadsItems (depth : Nat) (first : Bool) (cs : List Char) (items : List Json)
    (rest : List Char) : Prop :=
  ∃ fuel, readItemsFrom fuel depth first cs = .ok (items, rest)

/-- The members of an object and its closing brace are read at the front of a text. -/
def ReadsMembers (depth : Nat) (first : Bool) (cs : List Char) (members : List (String × Json))
    (rest : List Char) : Prop :=
  ∃ fuel, readMembersFrom fuel depth first cs = .ok (members, rest)

variable {v : Json} {items : List Json} {members : List (String × Json)}

/-- The fuel that a reader takes from the length of the text is enough. -/
theorem reads_iff : Reads depth cs v rest ↔ readValue depth cs = .ok (v, rest) := by
  constructor
  · rintro ⟨fuel, h⟩
    exact (fuel_from fuel).1 h (by omega)
  · intro h
    exact ⟨_, h⟩

/-- A value takes a character at least. -/
theorem Reads.length_lt (h : Reads depth cs v rest) : rest.length < cs.length := by
  obtain ⟨fuel, h⟩ := h
  exact (shorter_from fuel).1 h

/-- The members of an object, without fuel. -/
theorem readsMembers_iff :
    ReadsMembers depth first cs members rest ↔
      Seals first cs rest ∧ members = [] ∨
        ∃ name text value behind more, Names first cs name text ∧ Reads depth text value behind ∧
          ReadsMembers depth false behind more rest ∧ members = (name, value) :: more := by
  constructor
  · rintro ⟨fuel, h⟩
    cases fuel with
    | zero => cases h
    | succ fuel =>
      obtain hclose | ⟨name, text, value, behind, more, hnames, hvalue, hmore, heq⟩ :=
        readMembersFrom_succ.1 h
      · exact .inl hclose
      · exact .inr ⟨name, text, value, behind, more, hnames, ⟨fuel, hvalue⟩, ⟨fuel, hmore⟩, heq⟩
  · rintro (hclose | ⟨name, text, value, behind, more, hnames, ⟨fuel, hvalue⟩, ⟨fuel', hmore⟩, heq⟩)
    · exact ⟨1, readMembersFrom_succ.2 (.inl hclose)⟩
    · -- both parts are read with fuel that is large enough for either
      refine ⟨2 * text.length + 2 * behind.length + 2 + 1, readMembersFrom_succ.2 (.inr ?_)⟩
      exact ⟨name, text, value, behind, more, hnames, (fuel_from fuel).1 hvalue (by omega),
        (fuel_from fuel').2.2 hmore (by omega), heq⟩

theorem readsItems_iff :
    ReadsItems depth first cs items rest ↔
      (∃ bracket, readItemSeam first cs = .ok (false, bracket) ∧ rest = bracket.drop 1) ∧
          items = [] ∨
        ∃ text item behind more, readItemSeam first cs = .ok (true, text) ∧
          Reads depth text item behind ∧ ReadsItems depth false behind more rest ∧
          items = item :: more := by
  constructor
  · rintro ⟨fuel, h⟩
    cases fuel with
    | zero => cases h
    | succ fuel =>
      obtain hclose | ⟨text, item, behind, more, hseam, hitem, hmore, heq⟩ :=
        readItemsFrom_succ.1 h
      · exact .inl hclose
      · exact .inr ⟨text, item, behind, more, hseam, ⟨fuel, hitem⟩, ⟨fuel, hmore⟩, heq⟩
  · rintro (hclose | ⟨text, item, behind, more, hseam, ⟨fuel, hitem⟩, ⟨fuel', hmore⟩, heq⟩)
    · exact ⟨1, readItemsFrom_succ.2 (.inl hclose)⟩
    · refine ⟨2 * text.length + 2 * behind.length + 2 + 1, readItemsFrom_succ.2 (.inr ?_)⟩
      exact ⟨text, item, behind, more, hseam, (fuel_from fuel).1 hitem (by omega),
        (fuel_from fuel').2.1 hmore (by omega), heq⟩

/-- Arrays and objects. -/
def isNested : Json → Bool
  | .array _ | .object _ => true
  | _ => false

/-- What starts with neither a bracket nor a brace holds no other values. -/
theorem isNested_readScalar {c : Char} (h : readScalar c cs = .ok (v, rest)) :
    v.isNested = false := by
  obtain ⟨word, -, rfl | ⟨b, rfl⟩⟩ | ⟨n, -, rfl⟩ | ⟨s, -, rfl⟩ | ⟨n, -, rfl⟩ := readScalar_cases h
  · rfl
  · rfl
  · rfl
  · rfl
  · rfl

/-- An object is read as its members, one level further in. -/
theorem reads_object :
    Reads depth cs (.object members) rest ↔
      depth + 1 < nestingLimit ∧
        ∃ text, skipSpace cs = '\x7b' :: text ∧ ReadsMembers (depth + 1) true text members rest := by
  constructor
  · rintro ⟨fuel, h⟩
    cases fuel with
    | zero => cases h
    | succ fuel =>
      obtain ⟨c, text, hspace, ⟨-, -, items, -, heq⟩ | ⟨rfl, hdepth, members', h, heq⟩ |
        ⟨-, -, hscalar⟩⟩ := readValueFrom_succ.1 h
      · cases heq
      · cases heq
        exact ⟨hdepth, text, hspace, fuel, h⟩
      · cases isNested_readScalar hscalar
  · rintro ⟨hdepth, text, hspace, fuel, h⟩
    exact ⟨fuel + 1, readValueFrom_succ.2 ⟨_, text, hspace, .inr (.inl ⟨rfl, hdepth, _, h, rfl⟩)⟩⟩

/-- An array is read as its items, one level further in. -/
theorem reads_array :
    Reads depth cs (.array items) rest ↔
      depth + 1 < nestingLimit ∧
        ∃ text, skipSpace cs = '[' :: text ∧ ReadsItems (depth + 1) true text items rest := by
  constructor
  · rintro ⟨fuel, h⟩
    cases fuel with
    | zero => cases h
    | succ fuel =>
      obtain ⟨c, text, hspace, ⟨rfl, hdepth, items', h, heq⟩ | ⟨-, -, members, -, heq⟩ |
        ⟨-, -, hscalar⟩⟩ := readValueFrom_succ.1 h
      · cases heq
        exact ⟨hdepth, text, hspace, fuel, h⟩
      · cases heq
      · cases isNested_readScalar hscalar
  · rintro ⟨hdepth, text, hspace, fuel, h⟩
    exact ⟨fuel + 1, readValueFrom_succ.2 ⟨_, text, hspace, .inl ⟨rfl, hdepth, _, h, rfl⟩⟩⟩

/-- A whole text is a value with nothing but white space behind it. -/
theorem parse_eq_ok_iff {text : String} :
    parse text = .ok v ↔ ∃ rest, Reads 0 text.toList v rest ∧ readEnd rest = .ok () := by
  unfold parse
  constructor
  · intro h
    split at h
    · cases h
    · rename_i value rest hvalue
      split at h
      · cases h
      · rename_i hend
        cases h
        exact ⟨rest, reads_iff.2 hvalue, hend⟩
  · rintro ⟨rest, hreads, hend⟩
    rw [reads_iff.1 hreads]
    simp only [hend]

end YamlLinter.Json
