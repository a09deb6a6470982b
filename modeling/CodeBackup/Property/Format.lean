import CodeBackup.Property.Reading

/-!
# The shape of a binding line

A line binds a persistent key exactly when it is the key, then `'='`, with
white space around the key only (`lineBinding_of`, `lineBinding_shape`). So an
occurrence of the key's text in such a line is the key itself, or lies in the
value (`key_place`), and the line has a fixed number of solid bytes
(`solids_binding`).
-/

namespace CodeBackup.Property

open C C.Outcome CStr Binding

/-- White space only. -/
def Blank (l : List UInt8) : Prop := ∀ b ∈ l, isspace b = true

/-- No white space. -/
def Solid (l : List UInt8) : Prop := ∀ b ∈ l, isspace b = false

instance (l : List UInt8) : Decidable (Solid l) := inferInstanceAs (Decidable (∀ b ∈ l, isspace b = false))

/-- The bytes of a text that are no white space. -/
def solids (l : List UInt8) : Nat := l.countP fun b => !isspace b

/-- A legal key that `__system_property_set` writes to `build.prop`. -/
structure Persistent (key : CStr) : Prop where
  legal : legalName key
  starts : startsWith key persistPrefix

theorem Solid.noNewline {l : List UInt8} (h : Solid l) : chNewline ∉ l := fun hl => absurd (h _ hl) (by decide)

theorem Blank.nulFree {l : List UInt8} (h : Blank l) : 0 ∉ l := fun hl => absurd (h _ hl) (by decide)

theorem solids_blank {l : List UInt8} (h : Blank l) : solids l = 0 := by
  simpa [solids, List.countP_eq_zero, Blank] using h

theorem solids_solid {l : List UInt8} (h : Solid l) : solids l = l.length := by
  simpa [solids, List.countP_eq_length, Solid] using h

@[simp] theorem solids_append (l l' : List UInt8) : solids (l ++ l') = solids l + solids l' := List.countP_append

@[simp] theorem solids_cons (b : UInt8) (l : List UInt8) :
    solids (b :: l) = solids l + if isspace b then 0 else 1 := by
  cases h : isspace b <;> simp [solids, h]

theorem solids_le_length (l : List UInt8) : solids l ≤ l.length := List.countP_le_length

theorem solids_infix {l l' : List UInt8} (h : l <:+: l') : solids l ≤ solids l' := h.sublist.countP_le

namespace Persistent

variable {key : CStr}

theorem byte (h : Persistent key) {b : UInt8} (hb : b ∈ key.bytes) :
    b ≠ 0 ∧ b ≠ chNewline ∧ b ≠ chEq ∧ b ≠ chHash ∧ isspace b = false := legalName.byte h.legal hb

theorem solid (h : Persistent key) : Solid key.bytes := fun _ hb => (h.byte hb).2.2.2.2

theorem noNewline (h : Persistent key) : chNewline ∉ key.bytes := fun hb => (h.byte hb).2.1 rfl

theorem noEq (h : Persistent key) : chEq ∉ key.bytes := fun hb => (h.byte hb).2.2.1 rfl

/-- The key begins with `'p'`. -/
theorem exists_cons (h : Persistent key) : ∃ l, key.bytes = 112 :: l := by
  obtain ⟨l, e⟩ := List.isPrefixOf_iff_prefix.1 h.starts
  exact ⟨[101, 114, 115, 105, 115, 116, 46] ++ l, by rw [← e]; rfl⟩

theorem length_ge (h : Persistent key) : 8 ≤ key.bytes.length := by
  have : persistPrefix.bytes.length = 8 := by decide
  exact this ▸ (List.isPrefixOf_iff_prefix.1 h.starts).length_le

theorem ne_ro (h : Persistent key) : startsWith key roPrefix = false := by
  obtain ⟨l, e⟩ := h.exists_cons
  have : roPrefix.bytes = [114, 111, 46] := by decide
  rw [startsWith, this, e]
  rfl

end Persistent

/-! ## Trimming -/

theorem trimStart_blank {u : List UInt8} (h : Blank u) (l : List UInt8) : trimStart (u ++ l) = trimStart l :=
  List.dropWhile_append_of_pos h

theorem trimStart_cons {b : UInt8} (h : isspace b = false) (l : List UInt8) : trimStart (b :: l) = b :: l := by
  simp [trimStart, h]

theorem trimEnd_blank {u : List UInt8} (h : Blank u) (l : List UInt8) : trimEnd (l ++ u) = trimEnd l := by
  have h' : ∀ b ∈ u.reverse, isspace b = true := fun b hb => h b (List.mem_reverse.1 hb)
  simp [trimEnd, List.rdropWhile, List.dropWhile_append_of_pos h']

theorem trimEnd_cons {b : UInt8} (h : isspace b = false) (l x : List UInt8) :
    trimEnd (l ++ b :: x) = l ++ b :: trimEnd x := by
  induction x using List.reverseRecOn with
  | nil => simp [trimEnd, List.rdropWhile_concat_neg, h]
  | append_singleton x d ih =>
    have cons : l ++ b :: (x ++ [d]) = (l ++ b :: x) ++ [d] := by simp
    cases hd : isspace d with
    | true =>
      rw [cons, trimEnd, List.rdropWhile_concat_pos _ _ _ hd, trimEnd, List.rdropWhile_concat_pos _ _ _ hd]
      exact ih
    | false =>
      rw [cons, trimEnd, List.rdropWhile_concat_neg _ _ _ (by simp [hd]), trimEnd,
        List.rdropWhile_concat_neg _ _ _ (by simp [hd]), cons]

theorem trimEnd_solid {l : List UInt8} (h : Solid l) : trimEnd l = l := by
  induction l using List.reverseRecOn with
  | nil => rfl
  | append_singleton l b _ => rw [trimEnd, List.rdropWhile_concat_neg _ _ _ (by simp [h b (by simp)])]

theorem trimEnd_split (l : List UInt8) : ∃ u, l = trimEnd l ++ u ∧ Blank u := by
  induction l using List.reverseRecOn with
  | nil => exact ⟨[], rfl, by simp [Blank]⟩
  | append_singleton l b ih =>
    cases hb : isspace b with
    | true =>
      obtain ⟨u, e, blank⟩ := ih
      refine ⟨u ++ [b], ?_, ?_⟩
      · rw [trimEnd, List.rdropWhile_concat_pos _ _ _ hb, ← List.append_assoc]
        congr 1
      · intro c hc
        rcases List.mem_append.1 hc with hc | hc
        · exact blank c hc
        · rwa [List.mem_singleton.1 hc]
    | false =>
      refine ⟨[], ?_, by simp [Blank]⟩
      rw [trimEnd, List.rdropWhile_concat_neg _ _ _ (by simp [hb]), List.append_nil]

/-- A text without white space, and then white space. -/
theorem trim_solid {v y : List UInt8} (hv : Solid v) (hy : Blank y) : trimStart (trimEnd (v ++ y)) = v := by
  rw [trimEnd_blank hy, trimEnd_solid hv]
  cases v with
  | nil => rfl
  | cons b v => exact trimStart_cons (hv b (by simp)) v

/-! ## Import lines -/

theorem importPrefix_bytes : importPrefix.bytes = [105, 109, 112, 111, 114, 116, 32] := by decide

/-- A line that begins with a persistent key is no import. -/
theorem Persistent.not_import {key : CStr} (pk : Persistent key) {u : List UInt8} (hu : Blank u) (z : List UInt8) :
    ¬ importPrefix.bytes <+: trimStart (u ++ (key.bytes ++ z)) := by
  obtain ⟨k, hk⟩ := pk.exists_cons
  have start : trimStart (u ++ (key.bytes ++ z)) = 112 :: (k ++ z) := by
    rw [trimStart_blank hu, hk]
    exact trimStart_cons (by decide) _
  rw [start, importPrefix_bytes, List.cons_prefix_cons]
  exact fun h => absurd h.1 (by decide)

/-- The start of a line decides whether it imports a file: what follows it can begin with a persistent key. -/
theorem Persistent.not_import_append {key : CStr} (pk : Persistent key) {u : List UInt8}
    (h : ¬ importPrefix.bytes <+: trimStart u) (z : List UInt8) :
    ¬ importPrefix.bytes <+: trimStart (u ++ (key.bytes ++ z)) := by
  obtain ⟨sp, e, blank, head⟩ := trimStart_cases u
  cases hs : trimStart u with
  | nil =>
    rw [hs, List.append_nil] at e
    exact pk.not_import (e ▸ blank) z
  | cons b s =>
    have start : trimStart (u ++ (key.bytes ++ z)) = b :: s ++ (key.bytes ++ z) := by
      rw [e, hs, List.append_assoc, trimStart_blank blank]
      exact trimStart_cons (head b s hs) _
    rw [hs] at h
    rw [start]
    intro hp
    rcases List.prefix_or_prefix_of_prefix hp (List.prefix_append _ _) with hp' | ⟨c, hc⟩
    · exact h hp'
    · -- the word would end in the key, but it ends with a blank
      rw [← hc, List.prefix_append_right_inj] at hp
      have short : c.length ≤ key.bytes.length := by
        have len := congrArg List.length hc
        have := pk.length_ge
        rw [importPrefix_bytes] at len
        simp only [List.length_append, List.length_cons, List.length_nil] at len
        omega
      have part : c <+: key.bytes := List.prefix_of_prefix_length_le hp (List.prefix_append _ _) short
      rcases List.eq_nil_or_concat c with rfl | ⟨c', t, rfl⟩
      · exact h (by rw [← hc, List.append_nil])
      · have last := congrArg List.getLast? hc
        rw [importPrefix_bytes, List.concat_eq_append, ← List.append_assoc, List.getLast?_concat] at last
        obtain rfl : t = 32 := Option.some.inj last
        exact absurd (pk.solid 32 (part.subset (by simp))) (by decide)

theorem not_import_of_append {u x : List UInt8} (h : ¬ importPrefix.bytes <+: trimStart (u ++ x)) :
    ¬ importPrefix.bytes <+: trimStart u := by
  obtain ⟨sp, e, blank, head⟩ := trimStart_cases u
  cases hs : trimStart u with
  | nil => exact fun hp => absurd (List.prefix_nil.1 hp) (by decide)
  | cons b s =>
    have start : trimStart (u ++ x) = b :: s ++ x := by
      rw [e, hs, List.append_assoc, trimStart_blank blank]
      exact trimStart_cons (head b s hs) _
    rw [start] at h
    exact fun hp => h (hp.trans (List.prefix_append _ _))

/-! ## Binding lines -/

/-- **A line that binds** a persistent key. -/
theorem lineBinding_of {key : CStr} (pk : Persistent key) {u b : List UInt8} (hu : Blank u) (hb : Blank b)
    (x : List UInt8) : lineBinding (u ++ (key.bytes ++ (b ++ chEq :: x))) =
      if (CStr.ofBytes (trimStart (trimEnd x))).strlen < propValueMax then
        some (key, .ofBytes (trimStart (trimEnd x)))
      else none := by
  obtain ⟨k, hk⟩ := pk.exists_cons
  have start : trimStart (u ++ (key.bytes ++ (b ++ chEq :: x))) = key.bytes ++ (b ++ chEq :: x) := by
    rw [trimStart_blank hu, hk]
    exact trimStart_cons (by decide) _
  have line : trim (u ++ (key.bytes ++ (b ++ chEq :: x))) = (key.bytes ++ b) ++ chEq :: trimEnd x := by
    rw [trim, start, ← List.append_assoc]
    exact trimEnd_cons (by decide) _ _
  have eq : chEq ∉ key.bytes ++ b := by
    rw [List.mem_append, not_or]
    exact ⟨pk.noEq, fun h => absurd (hb _ h) (by decide)⟩
  have keyText : trimEnd (key.bytes ++ b) = key.bytes := by rw [trimEnd_blank hb, trimEnd_solid pk.solid]
  have noHash : (key.bytes ++ (b ++ chEq :: x)).head? ≠ some chHash := by
    rw [hk]
    exact fun h => absurd (Option.some.inj h) (by decide)
  have noImport : importPrefix.bytes.isPrefixOf ((key.bytes ++ b) ++ chEq :: trimEnd x) = false := by
    rw [hk]
    rfl
  rw [lineBinding, lineAction, start, if_neg noHash, line, noImport, Bool.false_and, if_neg (by simp),
    bindingAction, cut_of eq]
  simp only [keyText, ofBytes_self, pk.legal, filterAccepts, Bool.and_self, if_true]

/-- A line of `build.prop` as the service writes it, with white space around it. -/
theorem lineBinding_written {key value : CStr} (pk : Persistent key) (solid : Solid value.bytes)
    (short : value.strlen < propValueMax) {u y : List UInt8} (hu : Blank u) (hy : Blank y) :
    lineBinding (u ++ (key.bytes ++ chEq :: (value.bytes ++ y))) = some (key, value) := by
  have := lineBinding_of pk hu (b := []) (by simp [Blank]) (value.bytes ++ y)
  rw [List.nil_append, trim_solid solid hy, ofBytes_self, if_pos short] at this
  exact this

/-- **The shape** of a line that binds a key. -/
theorem lineBinding_shape {line : List UInt8} {key value : CStr} (nul : 0 ∉ line)
    (h : lineBinding line = some (key, value)) : ∃ u b b' b'', Blank u ∧ Blank b ∧ Blank b' ∧ Blank b'' ∧
      line = u ++ (key.bytes ++ (b ++ chEq :: (b' ++ (value.bytes ++ b'')))) := by
  have act := (lineBinding_some h).1
  unfold lineAction at act
  split at act
  · cases act
  · split at act
    · unfold importAction at act
      split at act <;> cases act
    · unfold bindingAction at act
      rcases cut_cases chEq (trim line) with ⟨-, e⟩ | ⟨k, v, e, -, hcut⟩
      · rw [e] at act
        cases act
      · simp only [hcut] at act
        split at act
        · obtain ⟨rfl, rfl⟩ : CStr.ofBytes (trimEnd k) = key ∧ CStr.ofBytes (trimStart v) = value := by
            simpa using act
          obtain ⟨u, hu, blank, -⟩ := trimStart_cases line
          obtain ⟨b'', hb'', blank''⟩ := trimEnd_split (trimStart line)
          obtain ⟨b, hb, blankb⟩ := trimEnd_split k
          obtain ⟨b', hb', blank', -⟩ := trimStart_cases v
          rw [show trimEnd (trimStart line) = trim line from rfl, e] at hb''
          have whole : line = u ++ (trimEnd k ++ (b ++ chEq :: (b' ++ (trimStart v ++ b'')))) := by
            conv_lhs => rw [hu, hb'', hb, hb']
            simp
          have nulk : 0 ∉ trimEnd k := fun hk => nul (by rw [whole]; simp [hk])
          have nulv : 0 ∉ trimStart v := fun hv => nul (by rw [whole]; simp [hv])
          exact ⟨u, b, b', b'', blank, blankb, blank', blank'', by
            rw [CStr.ofBytes_bytes nulk, CStr.ofBytes_bytes nulv, ← whole]⟩
        · cases act

/-- A binding line has the solid bytes of its key and its value, and `'='`. -/
theorem solids_binding {line : List UInt8} {key value : CStr} (nul : 0 ∉ line)
    (h : lineBinding line = some (key, value)) : solids line = key.strlen + 1 + solids value.bytes := by
  obtain ⟨u, b, b', b'', hu, hb, hb', hb'', rfl⟩ := lineBinding_shape nul h
  have solid : Solid key.bytes := fun _ hk => (legalName.byte (lineBinding_legal h) hk).2.2.2.2
  have eq : isspace chEq = false := by decide
  simp only [solids_append, solids_cons, solids_blank hu, solids_blank hb, solids_blank hb', solids_blank hb'',
    solids_solid solid, eq, strlen, Bool.false_eq_true, if_false]
  omega

/-! ## Occurrences of a key's text -/

/-- Where two texts meet: the bytes of a key hold no white space and no `'='`. -/
theorem key_cut {key : CStr} (pk : Persistent key) {b x c z : List UInt8} (hb : Blank b)
    (e : key.bytes ++ z = c ++ (b ++ chEq :: x)) (short : c.length < key.strlen) : False := by
  rcases List.append_eq_append_iff.1 e with ⟨a, rfl, -⟩ | ⟨a, ha, e'⟩
  · simp [strlen] at short
  · cases a with
    | nil => simp [strlen, ha] at short
    | cons t a =>
      have ht := pk.byte (b := t) (by rw [ha]; simp)
      cases b with
      | nil => exact ht.2.2.1 (by simpa using (congrArg List.head? e').symm)
      | cons s b =>
        obtain rfl : s = t := by simpa using congrArg List.head? e'
        rw [hb s (by simp)] at ht
        exact absurd ht.2.2.2.2 (by simp)

/-- **An occurrence** of a key's text in a line that binds the key is the key, or lies in the value. -/
theorem key_place {key : CStr} (pk : Persistent key) {u b x p z : List UInt8} (hu : Blank u) (hb : Blank b)
    (e : u ++ (key.bytes ++ (b ++ chEq :: x)) = p ++ (key.bytes ++ z)) :
    u = p ∨ ∃ d, p = u ++ (key.bytes ++ (b ++ chEq :: d)) ∧ x = d ++ (key.bytes ++ z) := by
  have pos : 0 < key.strlen := legalName.pos pk.legal
  rcases List.append_eq_append_iff.1 e with ⟨a, rfl, e'⟩ | ⟨a, rfl, e'⟩
  · rcases List.append_eq_append_iff.1 e' with ⟨d, rfl, e''⟩ | ⟨c, hc, e''⟩
    · rcases List.append_eq_append_iff.1 e'' with ⟨d', rfl, e₃⟩ | ⟨c, rfl, e₃⟩
      · cases d' with
        | nil => exact (key_cut pk (b := []) (c := []) (by simp [Blank]) e₃.symm pos).elim
        | cons t d' =>
          obtain ⟨rfl, rfl⟩ : chEq = t ∧ x = d' ++ (key.bytes ++ z) := by simpa using e₃
          exact .inr ⟨d', by simp, rfl⟩
      · have blank : Blank c := fun s hs => hb s (by simp [hs])
        exact (key_cut pk (c := []) blank e₃ pos).elim
    · cases a with
      | nil => exact .inl (by simp)
      | cons t a => exact (key_cut pk hb e'' (by simp [strlen, hc])).elim
  · cases a with
    | nil => exact .inl (by simp)
    | cons t a =>
      obtain ⟨k, hk⟩ := pk.exists_cons
      rw [hk] at e'
      obtain rfl : 112 = t := by simpa using congrArg List.head? e'
      exact absurd (hu 112 (by simp)) (by decide)

end CodeBackup.Property
