import YamlLinter.Proofs.Canonical.Lexeme
import YamlLinter.Rule.Indentation.Extent

/-!
# The bytes of a canonical document

The indentation rule looks for white space at the end of scalars in the bytes of the source. The
marks of the words of a canonical document lie around letters and digits, so that there is none.

## Contents

* `Holds`: characters that stand at an offset of the source;
* `index_stop_tree`: the offset behind a tree;
* `Inked`: no scalar ends with white space;
* `inked_stream`: a canonical document.
-/

namespace YamlLinter.Canonical

open Indentation Text

variable {layout : Layout} {buffer : List UInt8} {as bs : List Char} {i : Nat}

/-! ## Characters at an offset -/

/-- The source holds the given characters from the offset `i` on. -/
def Holds (buffer : List UInt8) (i : Nat) (cs : List Char) : Prop :=
  ∃ pre post, buffer = pre ++ (bytes cs ++ post) ∧ pre.length = i

/-- The front part of what the source holds. -/
theorem Holds.left (h : Holds buffer i (as ++ bs)) : Holds buffer i as := by
  obtain ⟨pre, post, rfl, hlen⟩ := h
  refine ⟨pre, bytes bs ++ post, ?_, hlen⟩
  rw [bytes_append, List.append_assoc]

/-- The part behind it, further on by the bytes in front. -/
theorem Holds.right (h : Holds buffer i (as ++ bs)) : Holds buffer (i + byteCount as) bs := by
  obtain ⟨pre, post, rfl, hlen⟩ := h
  refine ⟨pre ++ bytes as, post, ?_, ?_⟩
  · rw [bytes_append, List.append_assoc, List.append_assoc]
  · rw [List.length_append, hlen, length_bytes]

theorem byteCount_cons_of_size {c : Char} (h : c.utf8Size = 1) (cs : List Char) :
    byteCount (c :: cs) = byteCount cs + 1 := by
  rw [byteCount, h, Nat.add_comm]

/-- What the source holds behind a character of one byte. -/
theorem Holds.tail {c : Char} (hc : c.utf8Size = 1) (h : Holds buffer i (c :: bs)) :
    Holds buffer (i + 1) bs := by
  have hcons : Holds buffer i ([c] ++ bs) := h
  have hbs := hcons.right
  rw [byteCount_cons_of_size hc] at hbs
  exact hbs

/-- Characters of one byte each are counted by the bytes. -/
theorem byteCount_of_narrow (h : ∀ c ∈ as, Narrow c) : byteCount as = as.length := by
  induction as with
  | nil => rfl
  | cons c as ih =>
    rw [byteCount_cons_of_size (h c List.mem_cons_self).1, List.length_cons,
      ih fun x hx => h x (List.mem_cons_of_mem c hx)]

theorem byteCount_word (word : Word) : byteCount word.chars = word.chars.length :=
  byteCount_of_narrow fun c hc => narrow_of_isAlphanum (word.alphanum c hc)

theorem byteCount_spaces (n : Nat) : byteCount (spaces n) = n := by
  rw [byteCount_of_narrow fun c hc => narrow_of_mem_spaces hc]
  exact List.length_replicate ..

/-! ## Offsets -/

/-- Between a colon and the value behind it lies the lead of the value. -/
theorem index_place (tree : Tree) (column : Nat) (m : Mark) :
    (tree.place layout column m).index = m.index + byteCount (tree.lead layout column) := by
  cases tree with
  | leaf word => rfl
  | mapping es =>
    simp (disch := decide) only [Tree.place, Tree.lead, Mark.right, Mark.down,
      byteCount_cons_of_size, byteCount_spaces]
    omega
  | sequence its =>
    simp (disch := decide) only [Tree.place, Tree.lead, Mark.right, Mark.down,
      byteCount_cons_of_size, byteCount_spaces]
    omega

mutual

/-- The offset behind a tree. -/
theorem index_stop_tree (tree : Tree) (column : Nat) (m : Mark) :
    (tree.stop layout column m).index = m.index + byteCount (tree.text layout column) := by
  match tree with
  | .leaf word =>
    have hbreak : byteCount ['\n'] = 1 := rfl
    rw [Tree.stop, Tree.text, byteCount_append, byteCount_word, hbreak]
    rfl
  | .mapping es =>
    rw [Tree.stop, Tree.text]
    exact index_stop_entries es column m
  | .sequence its =>
    rw [Tree.stop, Tree.text]
    exact index_stop_items its column m

/-- Entries end behind all their characters. -/
theorem index_stop_entries (es : Entries) (column : Nat) (m : Mark) :
    (es.stop layout column m).index = m.index + byteCount (es.text layout column) := by
  match es with
  | .last key value =>
    rw [Entries.stop, Entries.text, index_stop_tree value, index_place]
    simp (disch := decide) only [byteCount_append, byteCount_cons_of_size, byteCount_word, Mark.right]
    omega
  | .cons key value rest =>
    rw [Entries.stop, Entries.text, index_stop_entries rest]
    simp (disch := decide) only [byteCount_append, byteCount_cons_of_size, byteCount_word,
      byteCount_spaces, Mark.right, index_stop_tree value, index_place]
    omega

/-- Items end behind all their characters. -/
theorem index_stop_items (its : Items) (column : Nat) (m : Mark) :
    (its.stop layout column m).index = m.index + byteCount (its.text layout column) := by
  match its with
  | .last item =>
    rw [Items.stop, Items.text, index_stop_tree item]
    simp (disch := decide) only [byteCount_cons_of_size, Mark.right]
    omega
  | .cons item rest =>
    rw [Items.stop, Items.text, index_stop_items rest]
    simp (disch := decide) only [byteCount_append, byteCount_cons_of_size, byteCount_spaces,
      Mark.right, index_stop_tree item]
    omega

end

/-! ## Ink -/

/-- No scalar ends with white space in the source. -/
def Inked (buffer : List UInt8) (ts : List Token) : Prop :=
  ∀ t ∈ ts, t.isScalar = true → trailingSpace buffer t = []

variable {t : Token} {ts us : List Token}

theorem Inked.left (h : Inked buffer (ts ++ us)) : Inked buffer ts := by
  intro t ht
  exact h t (List.mem_append_left us ht)

theorem Inked.right (h : Inked buffer (ts ++ us)) : Inked buffer us := by
  intro t ht
  exact h t (List.mem_append_right ts ht)

theorem Inked.tail (h : Inked buffer (t :: ts)) : Inked buffer ts := by
  intro t ht
  exact h t (List.mem_cons_of_mem _ ht)

/-- Tokens in front of others. -/
theorem Inked.append (h₁ : Inked buffer ts) (h₂ : Inked buffer us) : Inked buffer (ts ++ us) := by
  intro t ht
  rcases List.mem_append.1 ht with ht | ht
  · exact h₁ t ht
  · exact h₂ t ht

/-- A token that ends with ink, in front of others. -/
theorem Inked.cons (ht : t.isScalar = true → trailingSpace buffer t = []) (h : Inked buffer ts) :
    Inked buffer (t :: ts) := by
  intro u hu
  rcases List.mem_cons.1 hu with rfl | hu
  · exact ht
  · exact h u hu

theorem Inked.nil : Inked buffer [] := by
  intro t ht
  cases ht

/-- A letter or digit is one byte, which is no white space. -/
theorem utf8EncodeChar_of_isAlphanum {c : Char} (h : c.isAlphanum = true) :
    ∃ b, String.utf8EncodeChar c = [b] ∧ isAsciiSpace b = false := by
  refine ⟨_, String.utf8EncodeChar_eq_singleton (narrow_of_isAlphanum h).1, ?_⟩
  -- white space has codes below those of digits
  have hnone : ∀ n ≤ 122, 48 ≤ n → isAsciiSpace (UInt8.ofNat n) = false := by decide
  have hcode := code_of_isAlphanum h
  exact hnone c.val.toNat hcode.2 hcode.1

/-- A word that stands where its token says. -/
theorem trailingSpace_token {word : Word} {m : Mark} (h : Holds buffer m.index word.chars) :
    trailingSpace buffer (word.token m) = [] := by
  obtain ⟨pre, post, rfl, hlen⟩ := h
  obtain ⟨b, hb, hspace⟩ :=
    utf8EncodeChar_of_isAlphanum (word.alphanum _ (List.getLast_mem word.ne_nil))
  -- the part that is searched: the byte in front of the word, if any, and the word
  have hpart : ∃ front, ((pre ++ (bytes word.chars ++ post)).drop (m.index - 1)).take
      (m.index + word.chars.length - (m.index - 1)) = front ++ [b] := by
    have hword : bytes word.chars = bytes word.chars.dropLast ++ [b] := by
      calc bytes word.chars
          = bytes (word.chars.dropLast ++ [word.chars.getLast word.ne_nil]) := by
            rw [List.dropLast_concat_getLast]
        _ = bytes word.chars.dropLast ++ [b] := by
            rw [bytes_append, ← hb]
            simp [bytes]
    refine ⟨pre.drop (m.index - 1) ++ bytes word.chars.dropLast, ?_⟩
    rw [List.drop_append_of_le_length (by omega), ← List.append_assoc, List.append_assoc _ _ [b],
      ← hword]
    apply List.take_left'
    rw [List.length_append, List.length_drop, length_bytes, byteCount_word]
    omega
  obtain ⟨front, hfront⟩ := hpart
  show List.takeWhile isAsciiSpace (List.reverse (((pre ++ (bytes word.chars ++ post)).drop
    (m.index - 1)).take (m.index + word.chars.length - (m.index - 1)))) = []
  rw [hfront, List.reverse_append]
  simp [hspace]

/-- A key ends with the last letter of its word. -/
theorem inked_key {key : Key} {m : Mark} (h : Holds buffer m.index key.chars) :
    Inked buffer (key.tokens m) := by
  rw [Key.tokens]
  refine .cons (fun ht => by cases ht) (.cons (fun _ => trailingSpace_token h) ?_)
  exact .cons (fun ht => by cases ht) .nil

/-- What stands behind the colon of a key. -/
theorem Holds.value {key : Key} {value : Tree} {column : Nat} {m : Mark}
    (h : Holds buffer m.index (key.chars ++ ':' :: (value.lead layout column ++ as))) :
    Holds buffer (value.place layout column (m.right (key.chars.length + 1))).index as := by
  have has := (h.right.tail rfl).right
  rw [byteCount_word] at has
  rw [index_place]
  exact has

mutual

/-- The scalars of a tree end with ink if its text stands in the source. -/
theorem inked_tree (tree : Tree) (bare : Bool) (column : Nat) (m e : Mark)
    (h : Holds buffer m.index (tree.text layout column)) :
    Inked buffer (tree.tokens layout bare column m e) := by
  match tree with
  | .leaf word =>
    rw [Tree.text] at h
    rw [Tree.tokens]
    exact .cons (fun _ => trailingSpace_token h.left) .nil
  | .mapping es =>
    rw [Tree.text] at h
    rw [Tree.tokens]
    refine .cons (fun ht => by cases ht) ((inked_entries es column m e h).append ?_)
    exact .cons (fun ht => by cases ht) .nil
  | .sequence its =>
    rw [Tree.text] at h
    have hits := inked_items its column m e h
    rw [Tree.tokens]
    split
    · exact hits
    · exact .cons (fun ht => by cases ht) (hits.append (.cons (fun ht => by cases ht) .nil))

/-- So do those of entries. -/
theorem inked_entries (es : Entries) (column : Nat) (m e : Mark)
    (h : Holds buffer m.index (es.text layout column)) :
    Inked buffer (es.tokens layout column m e) := by
  match es with
  | .last key value =>
    rw [Entries.text] at h
    rw [Entries.tokens]
    exact (inked_key h.left).append (inked_tree value _ _ _ _ h.value)
  | .cons key value rest =>
    rw [Entries.text] at h
    rw [Entries.tokens]
    refine (inked_key h.left).append ((inked_tree value _ _ _ _ h.value.left).append ?_)
    apply inked_entries rest
    have hrest := h.value.right.right
    rw [byteCount_spaces, ← index_stop_tree] at hrest
    exact hrest

/-- So do those of items. -/
theorem inked_items (its : Items) (column : Nat) (m e : Mark)
    (h : Holds buffer m.index (its.text layout column)) :
    Inked buffer (its.tokens layout column m e) := by
  match its with
  | .last item =>
    rw [Items.text] at h
    rw [Items.tokens]
    exact .cons (fun ht => by cases ht) (inked_tree item _ _ _ _ ((h.tail rfl).tail rfl))
  | .cons item rest =>
    rw [Items.text] at h
    have hitem := (h.tail rfl).tail rfl
    rw [Items.tokens]
    refine .cons (fun ht => by cases ht) ((inked_tree item _ _ (m.right 2) _ hitem.left).append ?_)
    apply inked_items rest
    have hrest := hitem.right.right
    rw [byteCount_spaces] at hrest
    rw [Mark.right, index_stop_tree]
    exact hrest

end

/-- The words of a canonical document end with letters and digits. -/
theorem inked_stream (tree : Tree) :
    Inked (bytes (tree.text layout 0)) (tree.stream layout) := by
  have hall : Holds (bytes (tree.text layout 0)) 0 (tree.text layout 0) := ⟨[], [], by simp, rfl⟩
  rw [Tree.stream]
  refine .cons (fun ht => by cases ht) ((inked_tree tree _ _ _ _ hall).append ?_)
  exact .cons (fun ht => by cases ht) .nil

end YamlLinter.Canonical
