import YamlLinter.Proofs.Canonical.Tree
import YamlLinter.Rule.Anchors
import YamlLinter.Rule.KeyDuplicates

/-!
# Rules that find nothing

A rule is silent on some tokens if it finds nothing at any of them. On the tokens of a canonical
document, the rule on anchors is silent because there are none, and the rule on repeated keys because
it forgets a mapping where it ends and meets no key twice before that.

## Contents

* `Silent`: a rule finds nothing at some tokens, and the states before and behind them;
* `run_of_silent`: what a run of the rule gives then;
* `silent_anchors`: the rule on anchors;
* `unrepeated_stream`: the rule on repeated keys.
-/

namespace YamlLinter

/-- The rule finds nothing at the tokens `ts`, which stand behind `prev` and in front of `rest`, and
remembers `s'` behind them if it remembers `s` before. -/
inductive Silent (rule : TokenRule) (buffer : List UInt8) :
    Option Token → rule.State → List Token → List Token → rule.State → Prop where
  | nil {prev : Option Token} {s : rule.State} {rest : List Token} :
      Silent rule buffer prev s [] rest s
  | cons {prev : Option Token} {s s₁ s' : rule.State} {t : Token} {ts rest : List Token} :
      rule.check ⟨buffer, prev, t, (ts ++ rest).head?, (ts ++ rest).tail.head?⟩ s = ([], s₁) →
      Silent rule buffer (some t) s₁ ts rest s' → Silent rule buffer prev s (t :: ts) rest s'

variable {rule : TokenRule} {buffer : List UInt8} {prev : Option Token} {s s₁ s' : rule.State}
  {t : Token} {ts us rest : List Token}

/-- Tokens behind each other. -/
theorem Silent.append (h₁ : Silent rule buffer prev s ts (us ++ rest) s₁)
    (h₂ : Silent rule buffer (ts.getLast?.or prev) s₁ us rest s') :
    Silent rule buffer prev s (ts ++ us) rest s' := by
  generalize hall : us ++ rest = all at h₁
  induction h₁ with
  | nil => exact h₂
  | @cons prev s s₁ s'' t ts all hc _ ih =>
    subst hall
    rw [← List.append_assoc] at hc
    have hlast : (t :: ts).getLast?.or prev = ts.getLast?.or (some t) := by
      rw [List.getLast?_cons]
      cases ts.getLast? <;> rfl
    rw [hlast] at h₂
    exact .cons hc (ih h₂ rfl)

/-- A token that the rule passes over, whatever stands around it. -/
theorem Silent.still (hc : ∀ prev next nextNext,
    rule.check ⟨buffer, prev, t, next, nextNext⟩ s = ([], s))
    (h : Silent rule buffer (some t) s ts rest s') : Silent rule buffer prev s (t :: ts) rest s' :=
  .cons (hc _ _ _) h

/-- A run over tokens at which the rule is silent. -/
theorem run_of_silent (h : Silent rule buffer prev s ts [] s') :
    ∀ findings ∈ rule.runFrom s (windowsFrom buffer prev ts), findings = [] := by
  generalize hnil : ([] : List Token) = rest at h
  induction h with
  | nil =>
    intro findings hf
    cases hf
  | @cons prev s s₁ s' t ts rest hc _ ih =>
    subst hnil
    intro findings hf
    rw [List.append_nil] at hc
    rw [windowsFrom, TokenRule.runFrom, hc] at hf
    rcases List.mem_cons.1 hf with rfl | hf
    · rfl
    · exact ih rfl findings hf

namespace Canonical

/-! ## Anchors -/

/-- A token that names an anchor. -/
def isName : TokenKind → Bool
  | .aliasRef _ | .anchor _ => true
  | _ => false

theorem silent_anchors (hts : ∀ t ∈ ts, isName t.kind = false) (prev : Option Token)
    (s : Anchors.State) :
    ∃ s', Silent (Anchors.rule .default) buffer prev s ts rest s' := by
  induction ts generalizing prev s with
  | nil => exact ⟨s, .nil⟩
  | cons t ts ih =>
    have hname : ∀ s, Anchors.checkName .default t s = ([], s) := by
      intro s
      have ht := hts t List.mem_cons_self
      unfold Anchors.checkName
      split <;> simp_all [isName]
    obtain ⟨s', hs'⟩ := ih (fun u hu => hts u (List.mem_cons_of_mem t hu)) (some t)
      (if Anchors.forgets t.kind then [] else s)
    refine ⟨s', .cons ?_ hs'⟩
    have hunused : ∀ next s, Anchors.unused .default next s = [] := fun _ _ => rfl
    show Anchors.check .default _ s =
      (([], if Anchors.forgets t.kind then [] else s) : List Finding × Anchors.State)
    simp only [Anchors.check, hname, hunused, List.append_nil]

variable {layout : Layout}

theorem isName_key_tokens (key : Key) (m : Mark) : ∀ t ∈ key.tokens m, isName t.kind = false := by
  simp [Key.tokens, Word.token, Token.empty, isName]

mutual

/-- A canonical document names no anchors. -/
theorem isName_tree (tree : Tree) (bare : Bool) (column : Nat) (m e : Mark) :
    ∀ t ∈ tree.tokens layout bare column m e, isName t.kind = false := by
  match tree with
  | .leaf word => simp [Tree.tokens, Word.token, isName]
  | .mapping es =>
    have hes := isName_entries es column m e
    simp only [Tree.tokens, List.mem_cons, List.mem_append, List.not_mem_nil, or_false]
    rintro t (rfl | ht | rfl)
    · rfl
    · exact hes t ht
    · rfl
  | .sequence its =>
    have hits := isName_items its column m e
    rw [Tree.tokens]
    split
    · exact hits
    · simp only [List.mem_cons, List.mem_append, List.not_mem_nil, or_false]
      rintro t (rfl | ht | rfl)
      · rfl
      · exact hits t ht
      · rfl

theorem isName_entries (es : Entries) (column : Nat) (m e : Mark) :
    ∀ t ∈ es.tokens layout column m e, isName t.kind = false := by
  match es with
  | .last key value =>
    simp only [Entries.tokens, List.mem_append]
    rintro t (ht | ht)
    · exact isName_key_tokens key m t ht
    · exact isName_tree value _ _ _ _ t ht
  | .cons key value rest =>
    simp only [Entries.tokens, List.mem_append]
    rintro t (ht | ht | ht)
    · exact isName_key_tokens key m t ht
    · exact isName_tree value _ _ _ _ t ht
    · exact isName_entries rest _ _ _ t ht

theorem isName_items (its : Items) (column : Nat) (m e : Mark) :
    ∀ t ∈ its.tokens layout column m e, isName t.kind = false := by
  match its with
  | .last item =>
    simp only [Items.tokens, List.mem_cons]
    rintro t (rfl | ht)
    · rfl
    · exact isName_tree item _ _ _ _ t ht
  | .cons item rest =>
    simp only [Items.tokens, List.mem_cons, List.mem_append]
    rintro t (rfl | ht | ht)
    · rfl
    · exact isName_tree item _ _ _ _ t ht
    · exact isName_items rest _ _ _ t ht

end

theorem isName_stream (tree : Tree) : ∀ t ∈ tree.stream layout, isName t.kind = false := by
  simp only [Tree.stream, List.mem_cons, List.mem_append, List.not_mem_nil, or_false]
  rintro t (rfl | ht | rfl)
  · rfl
  · exact isName_tree tree _ _ _ _ t ht
  · rfl

/-! ## Repeated keys -/

/-- The rule on repeated keys is silent, and forgets what it has seen. -/
def Unrepeated (buffer : List UInt8) (ts : List Token) : Prop :=
  ∀ (prev : Option Token) (s : KeyDuplicates.State) (rest : List Token),
    Silent (KeyDuplicates.rule .default) buffer prev s ts rest s

/-- A key that the mapping has not seen. -/
theorem silent_key (key : Key) (m : Mark) (seen : List String) (s : KeyDuplicates.State)
    (hseen : String.ofList key.chars ∉ seen) :
    Silent (KeyDuplicates.rule .default) buffer prev (.mapping seen :: s) (key.tokens m) rest
      (.mapping (String.ofList key.chars :: seen) :: s) := by
  have hkey : ∀ nextNext, (KeyDuplicates.rule .default).check
      ⟨buffer, prev, .empty .key m, some (key.token m), nextNext⟩ (.mapping seen :: s) =
        ([], .mapping (String.ofList key.chars :: seen) :: s) := by
    intro nextNext
    simp [KeyDuplicates.rule, KeyDuplicates.check, KeyDuplicates.checkKey, Token.empty, Word.token,
      Token.scalarValue?, hseen]
  rw [Key.tokens]
  refine Silent.cons (hkey _) ?_
  -- the word and the colon change nothing
  refine Silent.still (fun _ _ _ => rfl) ?_
  exact Silent.still (fun _ _ _ => rfl) .nil

theorem Unrepeated.enclosed {start stop : Token} (collection : KeyDuplicates.Collection)
    (hstart : ∀ prev next nextNext s, KeyDuplicates.check .default
      ⟨buffer, prev, start, next, nextNext⟩ s = ([], collection :: s))
    (hstop : stop.kind = .blockEnd)
    (h : ∀ prev s rest, ∃ c, Silent (KeyDuplicates.rule .default) buffer prev
      (collection :: s) ts rest (c :: s)) :
    Unrepeated buffer (start :: (ts ++ [stop])) := by
  intro prev s rest
  obtain ⟨c, hc⟩ := h (some start) s ([stop] ++ rest)
  have hend : ∀ prev next nextNext, KeyDuplicates.check .default
      ⟨buffer, prev, stop, next, nextNext⟩ (c :: s) = ([], s) := by
    intro prev next nextNext
    simp [KeyDuplicates.check, hstop]
  exact .cons (hstart _ _ _ _) (hc.append (.cons (hend _ _ _) .nil))

theorem Unrepeated.exists (h : Unrepeated buffer ts) (prev : Option Token)
    (s : KeyDuplicates.State) (c : KeyDuplicates.Collection) (rest : List Token) :
    ∃ c', Silent (KeyDuplicates.rule .default) buffer prev (c :: s) ts rest (c' :: s) :=
  ⟨c, h prev (c :: s) rest⟩

/-- A token that the rule passes over. -/
theorem Unrepeated.cons (ht : ∀ prev next nextNext s,
    KeyDuplicates.check .default ⟨buffer, prev, t, next, nextNext⟩ s = ([], s))
    (h : Unrepeated buffer ts) : Unrepeated buffer (t :: ts) := by
  intro prev s rest
  exact Silent.still (fun _ _ _ => ht _ _ _ s) (h _ s rest)

theorem Unrepeated.nil : Unrepeated buffer [] :=
  fun _ _ _ => .nil

theorem Unrepeated.append (h₁ : Unrepeated buffer ts) (h₂ : Unrepeated buffer us) :
    Unrepeated buffer (ts ++ us) :=
  fun prev s rest => (h₁ prev s (us ++ rest)).append (h₂ _ s rest)

mutual

/-- The rule on repeated keys is silent on a tree without repeated keys. -/
theorem unrepeated_tree (tree : Tree) (hd : tree.Distinct) (bare : Bool) (column : Nat)
    (m e : Mark) : Unrepeated buffer (tree.tokens layout bare column m e) := by
  match tree with
  | .leaf word =>
    rw [Tree.tokens]
    exact .cons (fun _ _ _ _ => rfl) .nil
  | .mapping es =>
    -- a mapping starts without keys, and is forgotten with its end token
    obtain ⟨hkeys, hd⟩ := hd
    rw [Tree.tokens]
    refine Unrepeated.enclosed (.mapping []) (fun _ _ _ _ => rfl) rfl ?_
    intro prev s rest
    obtain ⟨seen, h⟩ := silent_entries es hkeys hd column m e [] (by simp)
    exact ⟨.mapping seen, h prev s rest⟩
  | .sequence its =>
    have hits := unrepeated_items its hd column m e
    rw [Tree.tokens]
    split
    · exact hits
    · exact Unrepeated.enclosed .sequence (fun _ _ _ _ => rfl) rfl
        fun prev s rest => hits.exists prev s .sequence rest

/-- A mapping sees each of its keys once. -/
theorem silent_entries (es : Entries) (hkeys : es.keys.Nodup) (hd : es.Distinct) (column : Nat)
    (m e : Mark) (seen : List String) (hseen : ∀ k ∈ es.keys, String.ofList k ∉ seen) :
    ∃ seen', ∀ (prev : Option Token) (s : KeyDuplicates.State) (rest : List Token),
      Silent (KeyDuplicates.rule .default) buffer prev (.mapping seen :: s)
        (es.tokens layout column m e) rest (.mapping seen' :: s) := by
  match es with
  | .last key value =>
    rw [Entries.tokens]
    refine ⟨String.ofList key.chars :: seen, fun prev s rest => ?_⟩
    apply (silent_key key m seen s (hseen _ List.mem_cons_self)).append
    exact unrepeated_tree value hd _ _ _ _ _ _ rest
  | .cons key value more =>
    obtain ⟨hkey, hkeys⟩ := List.nodup_cons.1 hkeys
    -- no other key is the one that is seen now
    have hmore : ∀ k ∈ more.keys, String.ofList k ∉ String.ofList key.chars :: seen := by
      intro k hk hmem
      rcases List.mem_cons.1 hmem with heq | hmem
      · exact hkey (String.ofList_injective heq ▸ hk)
      · exact hseen k (List.mem_cons_of_mem _ hk) hmem
    rw [Entries.tokens]
    obtain ⟨seen', h⟩ := silent_entries more hkeys hd.2 column _ e
      (String.ofList key.chars :: seen) hmore
    refine ⟨seen', fun prev s rest => ?_⟩
    apply (silent_key key m seen s (hseen _ List.mem_cons_self)).append
    exact (unrepeated_tree value hd.1 _ _ _ _ _ _ _).append (h _ s rest)

theorem unrepeated_items (its : Items) (hd : its.Distinct) (column : Nat) (m e : Mark) :
    Unrepeated buffer (its.tokens layout column m e) := by
  match its with
  | .last item =>
    rw [Items.tokens]
    exact .cons (fun _ _ _ _ => rfl) (unrepeated_tree item hd _ _ _ _)
  | .cons item more =>
    rw [Items.tokens]
    refine .cons (fun _ _ _ _ => rfl) ?_
    exact (unrepeated_tree item hd.1 _ _ _ _).append (unrepeated_items more hd.2 _ _ _)

end

/-- The rule on repeated keys is silent on a document without repeated keys. -/
theorem unrepeated_stream (tree : Tree) (hd : tree.Distinct) :
    Unrepeated buffer (tree.stream layout) := by
  rw [Tree.stream]
  refine .cons (fun _ _ _ _ => rfl) ((unrepeated_tree tree hd _ _ _ _).append ?_)
  exact .cons (fun _ _ _ _ => rfl) .nil

end Canonical

end YamlLinter
