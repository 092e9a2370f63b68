import YamlLinter.Proofs.Indentation.Walk
import YamlLinter.Proofs.Positions

/-!
# Tokens and their neighbours

What the indentation rule takes for granted of the tokens that it sees: block collections start where
their first token does, a key without `?` has its value behind it, and block scalars stand outside
flow collections. The scanner keeps to this though it puts keys in front of tokens later on.

## Contents

* `Settled`, `Answered`, `Flat`: three properties of a list of tokens;
* `Sane`: the three properties, and what is known of the possible keys;
* `Sane.push`, `Sane.pushBlock`, `Sane.insert`: everything that happens to the tokens of a scan;
* `isExplicitKey_of_peek`: a key that has a `?`;
* `scanned_scanText`: the tokens of a scan.
-/

namespace YamlLinter

open Indentation Grammar

variable {buffer : List UInt8} {t u : Token} {ts us vs : List Token} {depth : Nat}

/-! ## Starts of block collections -/

/-- Behind the start of a block collection stands a token that starts at the same place. -/
def Settled : List Token → Prop
  | [] => True
  | t :: ts =>
    (isBlockStart t.kind = true → ∃ u, ts.head? = some u ∧ u.start = t.start) ∧ Settled ts

theorem Settled.append (h₁ : Settled ts) (h₂ : Settled us) : Settled (ts ++ us) := by
  induction ts with
  | nil => exact h₂
  | cons t ts ih =>
    refine ⟨fun ht => ?_, ih h₁.2⟩
    obtain ⟨u, hu, hs⟩ := h₁.1 ht
    refine ⟨u, ?_, hs⟩
    show (ts ++ us).head? = some u
    rw [List.head?_append, hu, Option.some_or]

theorem Settled.of_forall (h : ∀ t ∈ ts, isBlockStart t.kind = false) : Settled ts := by
  induction ts with
  | nil => exact trivial
  | cons t ts ih =>
    refine ⟨fun ht => ?_, ih fun u hu => h u (List.mem_cons_of_mem t hu)⟩
    rw [h t List.mem_cons_self] at ht
    cases ht

/-- The start of a collection in front of a token at the same place. -/
theorem Settled.pair (hs : u.start = t.start) (hu : isBlockStart u.kind = false) :
    Settled [t, u] :=
  ⟨fun _ => ⟨u, rfl, hs⟩, .of_forall (by simpa using hu)⟩

/-- Tokens that start at the place of a token may be put in front of it. -/
theorem Settled.insert (h : Settled (ts ++ u :: vs)) (hus : ∀ v ∈ us, v.start = u.start) :
    Settled (ts ++ us ++ u :: vs) := by
  induction ts with
  | nil =>
    induction us with
    | nil => exact h
    | cons x us ih =>
      have hhead : ∃ v, (us ++ u :: vs).head? = some v ∧ v.start = u.start := by
        cases us with
        | nil => exact ⟨u, rfl, rfl⟩
        | cons y us => exact ⟨y, rfl, hus y (by simp)⟩
      obtain ⟨v, hv, hs⟩ := hhead
      refine ⟨fun _ => ⟨v, hv, ?_⟩, ih fun v hv => hus v (List.mem_cons_of_mem x hv)⟩
      rw [hs, hus x List.mem_cons_self]
  | cons t ts ih =>
    refine ⟨fun ht => ?_, ih h.2⟩
    obtain ⟨v, hv, hs⟩ := h.1 ht
    cases ts with
    | cons x ts => exact ⟨v, hv, hs⟩
    | nil =>
      obtain rfl : u = v := by simpa using hv
      cases us with
      | nil => exact ⟨u, rfl, hs⟩
      | cons x us => exact ⟨x, rfl, (hus x (by simp)).trans hs⟩

theorem Settled.lined (h : Settled ts) {xs ys : List Token} (he : ts = xs ++ t :: u :: ys)
    (ht : isBlockStart t.kind = true) : u.start.line = t.start.line := by
  induction xs generalizing ts with
  | nil =>
    rw [he] at h
    obtain ⟨v, hv, hs⟩ := h.1 ht
    obtain rfl : u = v := by simpa using hv
    rw [hs]
  | cons x xs ih =>
    rw [he] at h
    exact ih h.2 rfl

/-! ## Keys -/

/-- Whether a `VALUE` token comes before any block scalar. -/
def reachesValue : List Token → Bool
  | [] => false
  | t :: ts => t.kind == .value || (!isBlockScalar t && reachesValue ts)

/-- Every key has a `?`, or its value comes before any block scalar. -/
def Answered (buffer : List UInt8) : List Token → Prop
  | [] => True
  | t :: ts =>
    (t.kind = .key → isExplicitKey buffer t = true ∨ reachesValue ts = true) ∧ Answered buffer ts

theorem reachesValue_append (h : reachesValue ts = true) : reachesValue (ts ++ us) = true := by
  induction ts with
  | nil => cases h
  | cons t ts ih =>
    simp only [List.cons_append, reachesValue, Bool.or_eq_true, Bool.and_eq_true] at h ⊢
    rcases h with h | ⟨hb, h⟩
    · exact .inl h
    · exact .inr ⟨hb, ih h⟩

theorem reachesValue_of_forall (hts : ∀ t ∈ ts, isBlockScalar t = false)
    (h : reachesValue us = true) : reachesValue (ts ++ us) = true := by
  induction ts with
  | nil => exact h
  | cons t ts ih =>
    simp only [List.cons_append, reachesValue, Bool.or_eq_true, Bool.and_eq_true]
    right
    refine ⟨by rw [hts t List.mem_cons_self]; rfl, ih fun u hu => hts u ?_⟩
    exact List.mem_cons_of_mem t hu

/-- Tokens that are no block scalars may be put between others. -/
theorem reachesValue_insert (hus : ∀ u ∈ us, isBlockScalar u = false)
    (h : reachesValue (ts ++ vs) = true) : reachesValue (ts ++ us ++ vs) = true := by
  induction ts with
  | nil => exact reachesValue_of_forall hus h
  | cons t ts ih =>
    simp only [List.cons_append, reachesValue, Bool.or_eq_true, Bool.and_eq_true] at h ⊢
    rcases h with h | ⟨hb, h⟩
    · exact .inl h
    · exact .inr ⟨hb, ih h⟩

theorem Answered.append (h₁ : Answered buffer ts) (h₂ : Answered buffer us) :
    Answered buffer (ts ++ us) := by
  induction ts with
  | nil => exact h₂
  | cons t ts ih =>
    refine ⟨fun ht => ?_, ih h₁.2⟩
    exact (h₁.1 ht).imp_right reachesValue_append

theorem Answered.of_forall (h : ∀ t ∈ ts, t.kind = .key → isExplicitKey buffer t = true) :
    Answered buffer ts := by
  induction ts with
  | nil => exact trivial
  | cons t ts ih =>
    refine ⟨fun ht => ?_, ih fun u hu => h u (List.mem_cons_of_mem t hu)⟩
    exact .inl (h t List.mem_cons_self ht)

/-- Keys may be put in front of tokens that have their value behind them. -/
theorem Answered.insert (h : Answered buffer (ts ++ vs)) (hus : ∀ u ∈ us, isBlockScalar u = false)
    (hvs : reachesValue vs = true) : Answered buffer (ts ++ us ++ vs) := by
  induction ts with
  | nil =>
    induction us with
    | nil => exact h
    | cons u us ih =>
      have hus' : ∀ v ∈ us, isBlockScalar v = false := fun v hv =>
        hus v (List.mem_cons_of_mem u hv)
      exact ⟨fun _ => .inr (reachesValue_of_forall hus' hvs), ih hus'⟩
  | cons t ts ih =>
    refine ⟨fun ht => ?_, ih h.2⟩
    exact (h.1 ht).imp_right (reachesValue_insert hus)

/-- Behind properties, a block scalar comes before any value. -/
theorem not_reachesValue {ps : List Token} (hps : ∀ p ∈ ps, isProperty p = true)
    (ht : isBlockScalar t = true) : reachesValue (ps ++ t :: ts) = false := by
  induction ps with
  | nil =>
    have hkind : t.kind ≠ .value := by
      intro hk
      simp [isBlockScalar, Token.scalarStyle?, hk] at ht
    simp [reachesValue, ht, hkind]
  | cons p ps ih =>
    have hkind : p.kind ≠ .value := by
      intro hk
      have := hps p List.mem_cons_self
      simp [isProperty, hk] at this
    rw [List.cons_append, reachesValue, ih fun q hq => hps q (List.mem_cons_of_mem p hq)]
    simp [hkind]

theorem Answered.keyed (h : Answered buffer ts) {xs ps ys : List Token}
    (he : ts = xs ++ t :: (ps ++ u :: ys)) (ht : t.kind = .key)
    (hps : ∀ p ∈ ps, isProperty p = true) (hu : isBlockScalar u = true) :
    isExplicitKey buffer t = true := by
  induction xs generalizing ts with
  | nil =>
    rw [he] at h
    refine (h.1 ht).resolve_right fun hv => ?_
    rw [not_reachesValue hps hu] at hv
    cases hv
  | cons x xs ih =>
    rw [he] at h
    exact ih h.2 rfl

/-! ## Block scalars -/

/-- Block scalars stand where no flow collection is open, if `depth` of them are open before. -/
def Flat (depth : Nat) : List Token → Prop
  | [] => True
  | t :: ts => (isBlockScalar t = true → depth = 0) ∧ Flat (flowDepth depth [t]) ts

theorem flat_append : Flat depth (ts ++ us) ↔ Flat depth ts ∧ Flat (flowDepth depth ts) us := by
  induction ts generalizing depth with
  | nil => exact (and_iff_right trivial).symm
  | cons t ts ih =>
    rw [← List.singleton_append, flowDepth_append]
    simp only [List.cons_append, List.nil_append, Flat, ih, and_assoc]

theorem Flat.of_forall (h : ∀ t ∈ ts, isBlockScalar t = false) : Flat depth ts := by
  induction ts generalizing depth with
  | nil => exact trivial
  | cons t ts ih =>
    refine ⟨fun ht => ?_, ih fun u hu => h u (List.mem_cons_of_mem t hu)⟩
    rw [h t List.mem_cons_self] at ht
    cases ht

theorem flowDepth_of_forall (h : ∀ t ∈ ts, isUnbracketed t.kind = true) :
    flowDepth depth ts = depth := by
  induction ts with
  | nil => rfl
  | cons t ts ih =>
    rw [flowDepth_cons (h t List.mem_cons_self)]
    exact ih fun u hu => h u (List.mem_cons_of_mem t hu)

/-- Tokens that are neither brackets nor block scalars may be put between others. -/
theorem Flat.insert (h : Flat depth (ts ++ vs)) (hus : ∀ u ∈ us, isBlockScalar u = false)
    (hbr : ∀ u ∈ us, isUnbracketed u.kind = true) : Flat depth (ts ++ us ++ vs) := by
  obtain ⟨h₁, h₂⟩ := flat_append.1 h
  rw [flat_append, flat_append, flowDepth_append, flowDepth_of_forall hbr]
  exact ⟨⟨h₁, .of_forall hus⟩, h₂⟩

theorem Flat.flat (h : Flat 0 ts) {xs ys zs : List Token} {sequence : Bool}
    (he : ts = xs ++ t :: (ys ++ u :: zs)) (ht : t.kind = flowStart sequence)
    (hu : isBlockScalar u = true) : ∃ depth, flowDepth (depth + 1) ys = 0 := by
  rw [he, flat_append] at h
  have hinner := (flat_append.1 h.2.2).2.1 hu
  refine ⟨flowDepth 0 xs, ?_⟩
  have hopen : flowDepth (flowDepth 0 xs) [t] = flowDepth 0 xs + 1 := by
    cases sequence <;> simp [flowDepth, ht, flowStart]
  rwa [hopen] at hinner

/-! ## Along a scan -/

namespace ScanState

variable {s s' s₁ : ScanState} {text : List Char} {out : List Token}

/-- What holds of all tokens given or queued: they are settled, answered and flat, the flow level
counts the brackets that are open, and no block scalar stands behind the start of a possible key. -/
structure Sane (buffer : List UInt8) (ts : List Token) (level : Nat) (keys : List SimpleKey) :
    Prop where
  settled : Settled ts
  answered : Answered buffer ts
  flat : Flat 0 ts
  level : flowDepth 0 ts = level
  pending : ∀ k ∈ keys, ∀ t ∈ ts.drop k.tokenNumber, isBlockScalar t = false

namespace Sane

variable {level : Nat} {keys keys' : List SimpleKey}

/-- Keys may be forgotten. -/
theorem sublist (h : Sane buffer ts level keys) (hs : keys'.Sublist keys) :
    Sane buffer ts level keys' :=
  { h with pending := fun k hk => h.pending k (hs.mem hk) }

/-- A key may start behind all tokens. -/
theorem save {k : SimpleKey} (h : Sane buffer ts level keys) (hk : k.tokenNumber = ts.length) :
    Sane buffer ts level (keys ++ [k]) :=
  { h with
    pending := by
      intro l hl
      rcases List.mem_append.1 hl with hl | hl
      · exact h.pending l hl
      · obtain rfl : l = k := by simpa using hl
        simp [hk] }

/-- Tokens that are no block scalars may come behind the others. -/
theorem push (h : Sane buffer ts level keys) (hset : Settled us)
    (hkey : ∀ u ∈ us, u.kind = .key → isExplicitKey buffer u = true)
    (hblock : ∀ u ∈ us, isBlockScalar u = false) :
    Sane buffer (ts ++ us) (flowDepth level us) keys where
  settled := h.settled.append hset
  answered := h.answered.append (.of_forall hkey)
  flat := flat_append.2 ⟨h.flat, .of_forall hblock⟩
  level := by rw [flowDepth_append, h.level]
  pending := by
    intro k hk t ht
    rw [List.drop_append] at ht
    rcases List.mem_append.1 ht with ht | ht
    · exact h.pending k hk t ht
    · exact hblock t (List.mem_of_mem_drop ht)

/-- A block scalar may come behind all others where no flow collection is open and no key may have
started. -/
theorem pushBlock (h : Sane buffer ts 0 []) {value : String} {style : ScalarStyle}
    (ht : t.kind = .scalar value style) : Sane buffer (ts ++ [t]) 0 [] where
  settled := h.settled.append (.of_forall (by simp [ht, isBlockStart]))
  answered := h.answered.append (.of_forall (by simp [ht]))
  flat := flat_append.2 ⟨h.flat, fun _ => h.level, trivial⟩
  level := by
    rw [flowDepth_append, h.level]
    simp [flowDepth, ht]
  pending := by simp

/-- A value makes a key of the tokens from the start of a possible key on. -/
theorem insert {k : SimpleKey} {v : Token} (h : Sane buffer (ts ++ u :: vs) level keys)
    (hk : k ∈ keys) (hnumber : k.tokenNumber = ts.length) (hv : v.kind = .value)
    (hus : ∀ w ∈ us, (w.kind = .key ∨ w.kind = .blockMappingStart) ∧ w.start = u.start)
    (hkeys : ∀ l ∈ keys', l ∈ keys ∧ l.tokenNumber ≤ k.tokenNumber) :
    Sane buffer (ts ++ us ++ u :: vs ++ [v]) level keys' := by
  have hvalue : isBlockScalar v = false := by simp [isBlockScalar, Token.scalarStyle?, hv]
  have hblock : ∀ w ∈ us, isBlockScalar w = false := by
    intro w hw
    rcases (hus w hw).1 with hw | hw <;> simp [isBlockScalar, Token.scalarStyle?, hw]
  have hbracket : ∀ w ∈ us, isUnbracketed w.kind = true := by
    intro w hw
    rcases (hus w hw).1 with hw | hw <;> simp [isUnbracketed, hw]
  have hbehind : ∀ w ∈ u :: vs, isBlockScalar w = false := by
    have hpending := h.pending k hk
    rwa [hnumber, List.drop_left] at hpending
  have hpushed : Sane buffer (ts ++ u :: vs ++ [v]) (flowDepth level [v]) keys :=
    h.push (.of_forall (by simp [hv, isBlockStart])) (by simp [hv]) (by simpa using hvalue)
  have hlevel : flowDepth level [v] = level := by simp [flowDepth, hv]
  rw [List.append_assoc ts, List.cons_append, hlevel] at hpushed
  rw [List.append_assoc (ts ++ us), List.cons_append]
  -- the value token behind the key answers every key that is put in front of it
  constructor
  · exact hpushed.settled.insert fun w hw => (hus w hw).2
  · refine hpushed.answered.insert hblock ?_
    rw [← List.cons_append]
    exact reachesValue_of_forall hbehind (by simp [reachesValue, hv])
  · exact hpushed.flat.insert hblock hbracket
  · have hlevel := hpushed.level
    rw [flowDepth_append] at hlevel
    rw [flowDepth_append, flowDepth_append, flowDepth_of_forall hbracket, hlevel]
  · intro l hl t ht
    obtain ⟨hl, hle⟩ := hkeys l hl
    have hpending := hpushed.pending l hl t
    rw [List.drop_append_of_le_length (by omega)] at hpending
    rw [List.append_assoc, List.drop_append_of_le_length (by omega)] at ht
    rcases List.mem_append.1 ht with ht | ht
    · exact hpending (List.mem_append_left _ ht)
    · rcases List.mem_append.1 ht with ht | ht
      · exact hblock t ht
      · exact hpending (List.mem_append_right _ ht)

end Sane

/-- A `?` makes a key that the rule knows by it. -/
theorem isExplicitKey_of_peek {c : Cursor} (hc : (Cursor.ofText text).Ahead c) (hne : c.rest ≠ [])
    (hp : c.peek = '?') :
    isExplicitKey (Text.bytes text) ⟨.key, c.mark, (c.forward 1).mark⟩ = true := by
  have hlt := Cursor.index_lt_forward hne Nat.one_pos
  obtain ⟨n, rfl⟩ := hc
  have hrest : ((Cursor.ofText text).forward n).rest = text.drop n := Cursor.rest_forward _ n
  have hn : n ≤ text.length := by
    rw [hrest, Ne, List.drop_eq_nil_iff] at hne
    omega
  have hhere : ∃ rest, text.drop n = '?' :: rest := by
    rw [Cursor.peek, Cursor.peekAt, hrest] at hp
    rw [hrest] at hne
    obtain ⟨d, rest, hd⟩ := List.exists_cons_of_ne_nil hne
    rw [hd] at hp
    obtain rfl : d = '?' := by simpa using hp
    exact ⟨rest, hd⟩
  obtain ⟨rest, hhere⟩ := hhere
  -- the byte at the mark is the first behind those of the characters in front of it
  have hbytes : Text.bytes text = Text.bytes (text.take n) ++ 0x3f :: Text.bytes rest := by
    have hmark : String.utf8EncodeChar '?' = [0x3f] := by decide
    have hsplit : text = text.take n ++ '?' :: rest := by rw [← hhere, List.take_append_drop]
    conv => lhs; rw [hsplit]
    simp only [Text.bytes, List.flatMap_append, List.flatMap_cons, hmark, List.singleton_append]
  have hindex := (Cursor.at_forward text n hn).index
  rw [isExplicitKey, Bool.and_eq_true, decide_eq_true_eq]
  refine ⟨hlt, ?_⟩
  rw [hindex, hbytes, ← Text.length_bytes, List.getElem?_append_right (Nat.le_refl _),
    Nat.sub_self]
  rfl

/-- All tokens given or queued are sane. -/
def SaneWith (buffer : List UInt8) (out : List Token) (s : ScanState) : Prop :=
  Sane buffer (out ++ s.queue) s.flowLevel s.keys

/-- Tokens at the end of the queue. -/
theorem SaneWith.push {level : Nat} {keys : List SimpleKey}
    (h : Sane buffer (out ++ s.queue) level keys) (hset : Settled us)
    (hkey : ∀ u ∈ us, u.kind = .key → isExplicitKey buffer u = true)
    (hblock : ∀ u ∈ us, isBlockScalar u = false)
    (hs : s'.queue = s.queue ++ us ∧ s'.flowLevel = flowDepth level us ∧ s'.keys.Sublist keys) :
    SaneWith buffer out s' := by
  obtain ⟨hqueue, hlevel, hkeys⟩ := hs
  rw [SaneWith, hqueue, hlevel, ← List.append_assoc]
  exact (h.push hset hkey hblock).sublist hkeys

/-- One token at the end of the queue, which is neither the start of a block collection nor a key nor
a block scalar. -/
theorem SaneWith.pushOne {level : Nat} {keys : List SimpleKey}
    (h : Sane buffer (out ++ s.queue) level keys) (hstart : isBlockStart t.kind = false)
    (hkey : t.kind ≠ .key) (hblock : isBlockScalar t = false)
    (hs : s'.queue = s.queue ++ [t] ∧ s'.flowLevel = flowDepth level [t] ∧ s'.keys.Sublist keys) :
    SaneWith buffer out s' :=
  SaneWith.push h (.of_forall (by simpa using hstart)) (by simp [hkey]) (by simpa using hblock) hs

theorem sane_unwind {column : Int} (h : SaneWith buffer out s) :
    SaneWith buffer out (s.unwind column) := by
  obtain ⟨n, hq⟩ := s.queue_unwind column
  have hmem : ∀ u ∈ List.replicate n (Token.empty .blockEnd s.cursor.mark),
      u.kind = .blockEnd := by
    intro u hu
    rw [List.eq_of_mem_replicate hu]
    rfl
  refine SaneWith.push h (.of_forall fun u hu => by simp [hmem u hu, isBlockStart])
    (fun u hu hk => by simp [hmem u hu] at hk)
    (fun u hu => by simp [isBlockScalar, Token.scalarStyle?, hmem u hu]) ⟨hq, ?_, by simp⟩
  rw [flowDepth_of_forall fun u hu => by simp [hmem u hu, isUnbracketed]]
  exact unwind_flowLevel s column

theorem sane_readied (h : SaneWith buffer out s) (hr : Readied s s₁) : SaneWith buffer out s₁ := by
  rw [hr.eq]
  exact sane_unwind (h.sublist List.filter_sublist)

theorem sane_saved (h : SaneWith buffer out s) (ht : s.taken = out.length) (hs : Saved s s₁) :
    Sane buffer (out ++ s.queue) s.flowLevel s₁.keys := by
  cases hs with
  | kept => exact h
  | saved =>
    refine (h.sublist List.filter_sublist).save ?_
    show s.taken + s.queue.length = (out ++ s.queue).length
    rw [ht, List.length_append]

/-- The mark of an entry, a key or a value, with the collection that it opens. -/
theorem sane_entry {kind opens : TokenKind} {allowKey : Bool} (h : SaneWith buffer out s)
    (hm : EntryMark s kind opens) (ho : Opened s opens s₁)
    (hexplicit : s.cursor.peek = '?' →
      isExplicitKey buffer ⟨.key, s.cursor.mark, (s.cursor.forward 1).mark⟩ = true) :
    SaneWith buffer out ({ s₁.forgetKey with allowKey }.pushMark kind 1) := by
  -- the tokens added are the mark, and maybe the start of a collection at the same place
  let mark : Token := ⟨kind, s.cursor.mark, (s.cursor.forward 1).mark⟩
  have hmark : isBlockStart mark.kind = false ∧ isBlockScalar mark = false ∧
      isUnbracketed mark.kind = true ∧
      (mark.kind = .key → isExplicitKey buffer mark = true) := by
    cases hm with
    | entry => exact ⟨rfl, rfl, rfl, by simp [mark]⟩
    | key hp => exact ⟨rfl, rfl, rfl, fun _ => hexplicit hp⟩
    | value => exact ⟨rfl, rfl, rfl, by simp [mark]⟩
  have hopens : opens ≠ .key ∧ isBlockScalar (.empty opens s.cursor.mark) = false ∧
      isUnbracketed opens = true := by
    cases hm <;> exact ⟨by simp, rfl, rfl⟩
  obtain ⟨us, hqueue, hus, hset⟩ : ∃ us, s₁.queue ++ [mark] = s.queue ++ us ∧
      (∀ u ∈ us, u = mark ∨ u = .empty opens s.cursor.mark) ∧ Settled us := by
    have hsingle : Settled [mark] := .of_forall (by simpa using hmark.1)
    cases ho with
    | flow => exact ⟨[mark], rfl, by simp, hsingle⟩
    | block =>
      rcases s.queue_openBlock opens with hq | hq
      · exact ⟨[mark], by rw [hq], by simp, hsingle⟩
      · refine ⟨[.empty opens s.cursor.mark, mark], by rw [hq]; simp, ?_, .pair rfl hmark.1⟩
        intro u hu
        simpa [or_comm] using hu
  have hcursor : s₁.cursor = s.cursor := by
    cases ho with
    | flow => rfl
    | block => exact openBlock_cursor s _
  have hlevel : s₁.flowLevel = s.flowLevel := by
    cases ho with
    | flow => rfl
    | block => exact openBlock_flowLevel s _
  refine SaneWith.push h hset ?_ ?_ ⟨?_, ?_, ?_⟩
  · intro u hu
    rcases hus u hu with rfl | rfl
    · exact hmark.2.2.2
    · exact fun hk => absurd hk hopens.1
  · intro u hu
    rcases hus u hu with rfl | rfl
    · exact hmark.2.1
    · exact hopens.2.1
  · simp only [pushMark, forgetKey, hcursor]
    exact hqueue
  · rw [flowDepth_of_forall]
    · exact hlevel
    · intro u hu
      rcases hus u hu with rfl | rfl
      · exact hmark.2.2.1
      · exact hopens.2.2
  · show (s₁.keys.filter _).Sublist s.keys
    rw [← opened_keys ho]
    exact List.filter_sublist

/-- A value behind a possible key. -/
theorem sane_value {k : SimpleKey} (h : SaneWith buffer out s) (hp : s.KeysInPlace)
    (ht : s.taken = out.length) (hk : s.currentKey? = some k) :
    SaneWith buffer out
      ({ s.forgetKey.insertKey k with allowKey := false }.pushMark .value 1) := by
  obtain ⟨hmem, hlevel⟩ := mem_keys_of_currentKey? hk
  obtain ⟨us, hq, hus⟩ := s.forgetKey.queue_insertKey k
  obtain ⟨u, hu, hstart⟩ := hp.starts k hmem
  have htaken := hp.taken_le k hmem
  obtain ⟨hlt, hget⟩ := List.getElem?_eq_some_iff.1 hu
  have hdrop : s.queue.drop (k.tokenNumber - s.taken) =
      u :: s.queue.drop (k.tokenNumber - s.taken + 1) := by
    rw [List.drop_eq_getElem_cons hlt, hget]
  -- the tokens are split in front of the one with which the key starts
  have hsplit : out ++ s.queue = out ++ s.queue.take (k.tokenNumber - s.taken) ++
      u :: s.queue.drop (k.tokenNumber - s.taken + 1) := by
    rw [← hdrop, List.append_assoc, List.take_append_drop]
  rw [SaneWith, hsplit] at h
  have hnumber : k.tokenNumber = (out ++ s.queue.take (k.tokenNumber - s.taken)).length := by
    rw [List.length_append, List.length_take]
    omega
  -- the keys that are left belong to outer levels, and name tokens further in front
  have hkeys : ∀ l ∈ s.keys.filter (·.level != s.flowLevel),
      l ∈ s.keys ∧ l.tokenNumber ≤ k.tokenNumber := by
    intro l hl
    obtain ⟨hl, hne⟩ := List.mem_filter.1 hl
    have hle := hp.level_le l hl
    have hne : l.level ≠ s.flowLevel := by simpa using hne
    exact ⟨hl, Nat.le_of_lt (hp.ordered l hl k hmem (by omega))⟩
  have hplaced : ∀ w ∈ us, (w.kind = .key ∨ w.kind = .blockMappingStart) ∧ w.start = u.start := by
    intro w hw
    rcases hus with rfl | rfl
    · obtain rfl : w = .empty .key k.mark := by simpa using hw
      exact ⟨.inl rfl, hstart.symm⟩
    · rcases List.mem_cons.1 hw with rfl | hw
      · exact ⟨.inr rfl, hstart.symm⟩
      · obtain rfl : w = .empty .key k.mark := by simpa using hw
        exact ⟨.inl rfl, hstart.symm⟩
  have hinserted := h.insert (v := ⟨.value, s.cursor.mark, (s.cursor.forward 1).mark⟩) hmem hnumber
    rfl hplaced hkeys
  simp only [SaneWith, pushMark, insertKey_flowLevel, insertKey_keys, insertKey_cursor, hq]
  simp only [forgetKey, hdrop]
  simpa using hinserted

/-- Reading a lexeme keeps the tokens sane. -/
theorem sane_fetched (h : SaneWith buffer out s) (hp : s.KeysInPlace) (ht : s.taken = out.length)
    (hexplicit : s.cursor.rest ≠ [] → s.cursor.peek = '?' →
      isExplicitKey buffer ⟨.key, s.cursor.mark, (s.cursor.forward 1).mark⟩ = true)
    (hf : Fetched s s') : SaneWith buffer out s' := by
  have hu : SaneWith buffer out (s.unwind (-1)) := sane_unwind h
  cases hf with
  | streamEnd =>
    exact SaneWith.pushOne hu rfl (by simp [Token.empty]) rfl ⟨rfl, rfl, List.nil_sublist _⟩
  | directive hc hd =>
    obtain ⟨-, -, name, value, hk⟩ := Cursor.reads_directive hc hd
    refine SaneWith.pushOne hu (by simp [hk, isBlockStart]) (by simp [hk])
      (by simp [isBlockScalar, Token.scalarStyle?, hk]) ⟨rfl, ?_, List.filter_sublist⟩
    simp [flowDepth, hk, forgetKey]
  | marker _ _ hk =>
    rcases hk with ⟨-, rfl⟩ | ⟨-, rfl⟩ <;>
      exact SaneWith.pushOne hu rfl (by simp) rfl ⟨rfl, rfl, List.filter_sublist⟩
  | flowStart _ hs hk =>
    have hsaved := sane_saved h ht hs
    rcases hk with rfl | rfl
    all_goals
      cases hs with
      | kept => exact SaneWith.pushOne hsaved rfl (by simp) rfl ⟨rfl, rfl, List.Sublist.refl _⟩
      | saved => exact SaneWith.pushOne hsaved rfl (by simp) rfl ⟨rfl, rfl, List.Sublist.refl _⟩
  | flowEnd _ hk =>
    rcases hk with rfl | rfl <;>
      exact SaneWith.pushOne h rfl (by simp) rfl ⟨rfl, rfl, List.filter_sublist⟩
  | flowEntry => exact SaneWith.pushOne h rfl (by simp) rfl ⟨rfl, rfl, List.filter_sublist⟩
  | entry hc hm ho => exact sane_entry h hm ho (hexplicit hc)
  | value _ hk => exact sane_value h hp ht hk
  | @keyable s₁ t c allowKey hs hr hkind =>
    have hsaved := sane_saved h ht hs
    -- a token that can start a key neither opens nor closes brackets
    have hquiet : isBlockStart t.kind = false ∧ t.kind ≠ .key ∧ isBlockScalar t = false ∧
        flowDepth s.flowLevel [t] = s.flowLevel := by
      unfold startsKey at hkind
      split at hkind <;>
        simp_all [isBlockStart, isBlockScalar, Token.scalarStyle?, flowDepth]
    obtain ⟨hstart, hkey, hblock, hlevel⟩ := hquiet
    cases hs with
    | kept => exact SaneWith.pushOne hsaved hstart hkey hblock ⟨rfl, hlevel.symm, .refl _⟩
    | saved => exact SaneWith.pushOne hsaved hstart hkey hblock ⟨rfl, hlevel.symm, .refl _⟩
  | @block t k c hflow hr hn hscalar =>
    have hzero : s.flowLevel = 0 := by simpa [inFlow] using hflow
    -- all keys are of the level that is left
    have hkeys : s.keys.filter (·.level != s.flowLevel) = [] := by
      rw [List.filter_eq_nil_iff]
      intro k hk
      have := hp.level_le k hk
      simp only [bne_iff_ne, ne_eq, Decidable.not_not]
      omega
    obtain ⟨value, style, hkind⟩ : ∃ value style, t.kind = .scalar value style := by
      unfold Token.isScalar Token.scalarStyle? at hscalar
      split at hscalar
      · exact ⟨_, _, ‹_›⟩
      · cases hscalar
    have hsane : Sane buffer (out ++ s.queue) 0 [] := hzero ▸ h.sublist (List.nil_sublist _)
    show Sane buffer (out ++ (s.queue ++ [t])) s.flowLevel
      (s.keys.filter (·.level != s.flowLevel))
    rw [hkeys, hzero, ← List.append_assoc]
    exact hsane.pushBlock hkind

/-- The tokens given and queued in the states of a run are sane. -/
theorem sane_run (h : Run text out s) : SaneWith (Text.bytes text) out s := by
  induction h with
  | start =>
    exact ⟨.of_forall (by simp [ofText, Token.empty, isBlockStart]),
      .of_forall (by simp [ofText, Token.empty]),
      .of_forall (by simp [ofText, Token.empty, isBlockScalar, Token.scalarStyle?]), rfl,
      by simp [ofText]⟩
  | @fetch out s _ _ hrun hn hf ih =>
    obtain ⟨hp, -, htaken⟩ := inPlace_run hrun
    have hplaced := placed_needs (placed_run hrun) (needsMore_ok hn)
    have hp := inPlace_needs hp (needsMore_ok hn)
    obtain ⟨keys, hkeys, rfl⟩ := (needsMore_ok hn).eq_keys
    obtain ⟨s₁, hr, hf⟩ := fetch_ok hf
    have hneeds : SaneWith (Text.bytes text) out { s with keys } := ih.sublist hkeys
    refine sane_fetched (sane_readied hneeds hr) (inPlace_readied hp hr) (by rw [hr.taken, htaken]) ?_ hf
    exact isExplicitKey_of_peek (placed_readied hplaced hr).tokens.ahead
  | give _ hn hq ih =>
    obtain ⟨keys, hkeys, rfl⟩ := (needsMore_ok hn).eq_keys
    have hsane := ih.sublist hkeys
    simp only [SaneWith] at hq hsane ⊢
    rw [hq] at hsane
    simpa using hsane

/-- The tokens of a scan keep what they promise to the indentation rule. -/
theorem scanned_scanText (text : List Char) :
    Scanned (Text.bytes text) (scanText text).tokens := by
  obtain ⟨s, hrun, -⟩ := run_scanText text
  have hsane := sane_run hrun
  refine ⟨?_, ?_, ?_⟩
  · rintro xs t u ys he ht
    have hsplit : (scanText text).tokens ++ s.queue = xs ++ t :: u :: (ys ++ s.queue) := by
      simp [he]
    exact hsane.settled.lined hsplit ht
  · rintro xs k ps b ys he hk hps hb
    have hsplit : (scanText text).tokens ++ s.queue = xs ++ k :: (ps ++ b :: (ys ++ s.queue)) := by
      simp [he]
    exact hsane.answered.keyed hsplit hk hps hb
  · rintro xs t ys b zs he ⟨sequence, ht⟩ hb
    have hsplit : (scanText text).tokens ++ s.queue = xs ++ t :: (ys ++ b :: (zs ++ s.queue)) := by
      simp [he]
    exact hsane.flat.flat hsplit ht hb

end ScanState

end YamlLinter
