import CodeBackup.Property.Update

/-!
# Reading a property

`get_property` and `__system_property_get` write into a buffer of the caller.
A value is copied without its terminator, so what the caller reads depends on
the byte that stood behind it: `systemPropertyGet_answers_iff` says exactly
when the string in the buffer is the `answer`. Only the path that finds
nothing clears the buffer, and only up to the old terminator.

The key is a buffer too: the fallback to the `ro.` key copies a fixed number
of bytes from it, whatever the length of the key.
-/

namespace CodeBackup.Property

open C C.Outcome Rbtree ColorTree CStr Binding

/-- `__system_property_get`: the buffer `value` afterwards. -/
def systemPropertyGet (key value : Buf) (m : Mem) : Outcome Buf := do
  let keyStr ← Buf.str key 0
  match ← getVal keyStr m with
  | some val => Buf.copy value 0 val.bytes
  | none =>
    let old ← Buf.str value 0
    let value ← Buf.copy value 0 (List.replicate old.strlen 0)
    if startsWith keyStr persistPrefix then
      let reKey ← Buf.copy (List.replicate propKeyMax 0) 0 roPrefix.bytes
      let reKey ← Buf.copy reKey 3 (← Buf.slice key 8 (propKeyMax - 8))
      match ← getVal (← Buf.str reKey 0) m with
      | some val => Buf.copy value 0 val.bytes
      | none => .ok value
    else .ok value

/-- The value that `get_property` puts in place of an empty one. -/
def copyDefault (value : Buf) (defaultValue : CStr) : Outcome Buf := do
  let len := if defaultValue.strlen ≥ propValueMax then propValueMax - 1 else defaultValue.strlen
  let value ← Buf.copy value 0 (defaultValue.bytes.take len)
  Buf.write value len 0

/-- `get_property`. For an empty key it prints the list; otherwise it prints the string in `value`. -/
def getProperty (key value : Buf) (defaultValue : Option CStr) (m : Mem) : Outcome Buf := do
  if (← Buf.read key 0) = 0 then
    let _ ← systemPropertyList m
    .ok value
  else
    let value ← systemPropertyGet key value m
    let value ← match defaultValue with
      | some d => if (← Buf.str value 0).strlen = 0 then copyDefault value d else .ok value
      | none => .ok value
    let _ ← Buf.str value 0
    .ok value

/-- `"ro."`, and `n` bytes of the key behind `"persist."`. -/
def roKey (key : CStr) (n : Nat) : CStr where
  bytes := roPrefix.bytes ++ (key.bytes.drop 8).take n
  nulFree := by
    rw [List.mem_append, not_or]
    exact ⟨roPrefix.nulFree, fun h => key.nulFree (List.mem_of_mem_drop (List.mem_of_mem_take h))⟩

/-- A NUL-terminated buffer of `PROP_VALUE_MAX` bytes. -/
structure ValueBuf where
  bytes : Buf
  size : bytes.length = propValueMax
  nul : 0 ∈ bytes

/-- A read of the key leaves the string `s` in the buffer. -/
def Reads (key : Buf) (value : ValueBuf) (m : Mem) (s : CStr) : Prop :=
  ∃ value', systemPropertyGet key value.bytes m = .ok value' ∧ Buf.str value' 0 = .ok s

/-- What a read of the key should give: its value, or that of the matching `ro.` key, or nothing. -/
def answer (key : CStr) (m : Mem) : CStr :=
  match m.value key with
  | some val => val
  | none =>
    if startsWith key persistPrefix ∧ key.strlen < propKeyMax then (m.value (roKey key key.strlen)).getD (.lit "")
    else .lit ""

/-- The buffer lets the answer through. A value that is found needs a NUL behind the place it is copied to, which
for a fallback is there up to the old terminator; and the fallback finds nothing for a key that is too long. -/
def LetsThrough (key : CStr) (rest : List UInt8) (value : ValueBuf) (m : Mem) : Prop :=
  match m.value key with
  | some val => value.bytes[val.strlen]? = some 0
  | none => startsWith key persistPrefix → propKeyMax ≤ key.strlen + 1 + rest.length ∧
      ∀ val, m.value (roKey key (propKeyMax - 8)) = some val →
        if key.strlen < propKeyMax then
          val.strlen ≤ (ofBytes value.bytes).strlen ∨ value.bytes[val.strlen]? = some 0
        else val.strlen = 0

/-! ## The buffer after a read -/

/-- The buffer with its string overwritten by NULs. -/
def cleared (value : Buf) : Buf :=
  List.replicate (ofBytes value).strlen 0 ++ value.drop (ofBytes value).strlen

theorem copy_start {b : Buf} {l : List UInt8} (h : l.length ≤ b.length) :
    Buf.copy b 0 l = .ok (l ++ b.drop l.length) := by
  simp [Buf.copy, h]

theorem ofBytes_strlen_le (l : List UInt8) : (ofBytes l).strlen ≤ l.length := (List.takeWhile_prefix _).length_le

theorem cleared_length (value : Buf) : (cleared value).length = value.length := by
  have := ofBytes_strlen_le value
  simp only [cleared, List.length_append, List.length_replicate, List.length_drop]
  omega

/-- The string of a buffer ends with a NUL. -/
theorem getElem?_terminator {value : Buf} (nul : 0 ∈ value) : value[(ofBytes value).strlen]? = some 0 := by
  obtain ⟨x, y, rfl, hx⟩ := List.eq_append_cons_of_mem nul
  have e : (ofBytes (x ++ 0 :: y)).bytes = x := by
    have free : ∀ b ∈ x, decide (b ≠ 0) = true := fun b hb => by
      simp only [ne_eq, decide_not, Bool.not_eq_true', decide_eq_false_iff_not]
      rintro rfl
      exact hx hb
    show List.takeWhile _ (x ++ 0 :: y) = x
    rw [List.takeWhile_append_of_pos free]
    simp
  simp [strlen, e]

/-- Up to the old terminator the cleared buffer is NUL, and behind it it is as it was. -/
theorem cleared_getElem? {value : Buf} (nul : 0 ∈ value) (n : Nat) :
    (cleared value)[n]? = some 0 ↔ n ≤ (ofBytes value).strlen ∨ value[n]? = some 0 := by
  rcases lt_trichotomy n (ofBytes value).strlen with lt | rfl | gt
  · simp [cleared, List.getElem?_append_left, lt, Nat.le_of_lt lt]
  · rw [cleared, List.getElem?_append_right (by simp), List.getElem?_drop]
    simp [getElem?_terminator nul]
  · have : (cleared value)[n]? = value[n]? := by
      rw [cleared, List.getElem?_append_right (by simp; omega), List.getElem?_drop, List.length_replicate]
      congr 1
      omega
    simp [this, Nat.not_le.2 gt]

/-- The bytes that the fallback copies from the key: its text behind the eighth byte, and then a NUL. -/
theorem slice_key {key : CStr} {rest : List UInt8} (prefix_ : 8 ≤ key.strlen)
    (long : propKeyMax ≤ key.strlen + 1 + rest.length) :
    ∃ l zs, Buf.slice (key.bytes ++ 0 :: rest) 8 (propKeyMax - 8) = .ok l ∧
      l ++ [0, 0, 0, 0, 0] = (key.bytes.drop 8).take (propKeyMax - 8) ++ 0 :: zs ∧ l.length = propKeyMax - 8 := by
  have fits : 8 + (propKeyMax - 8) ≤ (key.bytes ++ 0 :: rest).length := by
    simp only [List.length_append, List.length_cons, strlen, propKeyMax] at long ⊢
    omega
  have behind : (key.bytes ++ 0 :: rest).drop 8 = key.bytes.drop 8 ++ 0 :: rest := List.drop_append_of_le_length prefix_
  have length : ((key.bytes.drop 8 ++ 0 :: rest).take (propKeyMax - 8)).length = propKeyMax - 8 := by
    rw [← behind, List.length_take, List.length_drop]
    omega
  refine ⟨_, if (key.bytes.drop 8).length < propKeyMax - 8 then
      rest.take (propKeyMax - 8 - (key.bytes.drop 8).length - 1) ++ [0, 0, 0, 0, 0] else [0, 0, 0, 0],
    by rw [Buf.slice, if_pos fits, behind], ?_, length⟩
  split
  · next short =>
    obtain ⟨n, hn⟩ : ∃ n, propKeyMax - 8 - (key.bytes.drop 8).length = n + 1 :=
      ⟨_, (Nat.succ_pred_eq_of_pos (Nat.sub_pos_of_lt short)).symm⟩
    rw [List.take_append, hn, List.take_succ_cons, List.append_assoc]
    rfl
  · next long =>
    rw [List.take_append_of_le_length (Nat.le_of_not_lt long)]

/-- The key that the fallback looks up. -/
theorem reKey_eq {key : CStr} {rest : List UInt8} (prefix_ : 8 ≤ key.strlen)
    (long : propKeyMax ≤ key.strlen + 1 + rest.length) :
    ∃ ro l re, Buf.copy (List.replicate propKeyMax 0) 0 roPrefix.bytes = .ok ro ∧
      Buf.slice (key.bytes ++ 0 :: rest) 8 (propKeyMax - 8) = .ok l ∧ Buf.copy ro 3 l = .ok re ∧
      Buf.str re 0 = .ok (roKey key (propKeyMax - 8)) := by
  obtain ⟨l, zs, slice, text, length⟩ := slice_key prefix_ long
  refine ⟨roPrefix.bytes ++ List.replicate 29 0, l, roPrefix.bytes ++ (l ++ [0, 0, 0, 0, 0]), rfl, slice, ?_, ?_⟩
  · have ro : roPrefix.bytes = [114, 111, 46] := by decide
    have length : l.length = 24 := length
    rw [Buf.copy, ro, length, if_pos (by simp)]
    rfl
  · rw [text, ← List.append_assoc]
    exact Buf.str_at [] (roKey key (propKeyMax - 8)) zs

theorem Good.value_short {m : Mem} (good : Good m) {key val : CStr} (bound : m.value key = some val) :
    val.strlen < propValueMax := by
  obtain ⟨T, ent, txt, id, p, h⟩ := good
  obtain ⟨q, hq, -, rfl⟩ := h.value_eq_some.1 bound
  exact h.slots.short q hq

/-- A value fits a buffer of the size that is asked for. -/
theorem copy_value {m : Mem} (good : Good m) {key val : CStr} (bound : m.value key = some val) {b : Buf}
    (size : b.length = propValueMax) : Buf.copy b 0 val.bytes = .ok (val.bytes ++ b.drop val.strlen) := by
  apply copy_start
  rw [size]
  exact Nat.le_of_lt (good.value_short bound)

/-- A buffer that is shorter than a key can be is read behind its end. -/
theorem slice_short {key : CStr} {rest : List UInt8} (short : ¬ propKeyMax ≤ key.strlen + 1 + rest.length) :
    Buf.slice (key.bytes ++ 0 :: rest) 8 (propKeyMax - 8) = .error .outOfBounds := by
  rw [Buf.slice, if_neg]
  simp only [List.length_append, List.length_cons, strlen, propKeyMax] at short ⊢
  omega

theorem persist_length {key : CStr} (persist : startsWith key persistPrefix) : 8 ≤ key.strlen := by
  have eight : persistPrefix.bytes.length = 8 := by decide
  exact eight ▸ (List.isPrefixOf_iff_prefix.1 persist).length_le

/-- **`__system_property_get`** of a good store. -/
theorem systemPropertyGet_eq {m : Mem} (good : Good m) (key : CStr) (rest : List UInt8) (value : ValueBuf) :
    systemPropertyGet (key.bytes ++ 0 :: rest) value.bytes m =
      match m.value key with
      | some val => .ok (val.bytes ++ value.bytes.drop val.strlen)
      | none =>
        if startsWith key persistPrefix then
          if propKeyMax ≤ key.strlen + 1 + rest.length then
            match m.value (roKey key (propKeyMax - 8)) with
            | some val => .ok (val.bytes ++ (cleared value.bytes).drop val.strlen)
            | none => .ok (cleared value.bytes)
          else .error .outOfBounds
        else .ok (cleared value.bytes) := by
  obtain ⟨value, size, nul⟩ := value
  have str : Buf.str (key.bytes ++ 0 :: rest) 0 = .ok key := Buf.str_at [] key rest
  rw [systemPropertyGet, str, ok_bind, good.getVal, ok_bind]
  cases bound : m.value key with
  | some val => exact copy_value good bound size
  | none =>
    have old : Buf.str value 0 = .ok (ofBytes value) := by simp [Buf.str, nul]
    have clear : Buf.copy value 0 (List.replicate (ofBytes value).strlen 0) = .ok (cleared value) := by
      rw [copy_start (by simpa using ofBytes_strlen_le value), List.length_replicate, cleared]
    simp only [old, clear, ok_bind]
    split
    · next persist =>
      split
      · next long =>
        obtain ⟨ro, l, re, copy, slice, copy', reKey⟩ := reKey_eq (persist_length persist) long
        simp only [copy, slice, copy', reKey, ok_bind, good.getVal]
        cases bound' : m.value (roKey key (propKeyMax - 8)) with
        | none => rfl
        | some val => exact copy_value good bound' ((cleared_length value).trans size)
      · next short =>
        have copy : Buf.copy (List.replicate propKeyMax 0) 0 roPrefix.bytes =
            .ok (roPrefix.bytes ++ List.replicate 29 0) := rfl
        simp only [copy, slice_short short, ok_bind, error_bind]
    · rfl

/-- The fallback of a key that is not too long is the matching `ro.` key. -/
theorem roKey_eq {key : CStr} (short : key.strlen < propKeyMax) : roKey key (propKeyMax - 8) = roKey key key.strlen := by
  apply CStr.ext
  simp only [roKey]
  rw [List.take_of_length_le, List.take_of_length_le]
  all_goals
    simp only [List.length_drop]
    simp only [strlen, propKeyMax] at short ⊢
    omega

/-- A read that leaves the text `val` in front of the bytes of a buffer. -/
theorem str_copied {val : CStr} {b : Buf} : Buf.str (val.bytes ++ b.drop val.strlen) 0 = .ok val ↔
    b[val.strlen]? = some 0 := by
  rw [Buf.str_start, List.head?_drop]

theorem str_cleared {value : Buf} (nul : 0 ∈ value) : Buf.str (cleared value) 0 = .ok (.lit "") := by
  have empty : (lit "").bytes = [] := by decide
  have := (@str_copied (.lit "") (cleared value)).2 ((cleared_getElem? nul 0).2 (.inl (Nat.zero_le _)))
  simpa [strlen, empty] using this

/-- **What a read leaves** is the answer exactly if the buffer lets it through. -/
theorem reads_answer_iff {m : Mem} (good : Good m) (key : CStr) (rest : List UInt8) (value : ValueBuf) :
    Reads (key.bytes ++ 0 :: rest) value m (answer key m) ↔ LetsThrough key rest value m := by
  rw [Reads, systemPropertyGet_eq good, answer, LetsThrough]
  obtain ⟨value, size, nul⟩ := value
  cases bound : m.value key with
  | some val => simp [str_copied]
  | none =>
    by_cases persist : startsWith key persistPrefix
    · by_cases long : propKeyMax ≤ key.strlen + 1 + rest.length
      · cases bound' : m.value (roKey key (propKeyMax - 8)) with
        | none =>
          by_cases short : key.strlen < propKeyMax
          · simp [persist, long, short, ← roKey_eq short, bound', str_cleared nul]
          · simp [persist, long, short, str_cleared nul]
        | some val =>
          by_cases short : key.strlen < propKeyMax
          · simp [persist, long, short, ← roKey_eq short, bound', str_copied, cleared_getElem? nul]
          · -- the fallback finds a value for a part of the key
            have empty : (lit "").bytes = [] := by decide
            have lets : Buf.str (val.bytes ++ (cleared value).drop val.strlen) 0 = .ok (.lit "") ↔ val.strlen = 0 := by
              constructor
              · intro h
                have := Buf.prefix_of_str h
                rw [empty, List.prefix_nil] at this
                simp [strlen, this]
              · intro h
                have bytes : val.bytes = [] := List.length_eq_zero_iff.1 h
                rw [bytes, h]
                exact str_cleared nul
            simp [persist, long, short, lets]
      · simp [persist, long]
    · simp [persist, str_cleared nul]

/-- **Two reads of a key** leave the same string, and that is the answer, exactly if both buffers let it through. -/
theorem reads_same_iff {m : Mem} (good : Good m) (key : CStr) (rest : List UInt8) (value value' : ValueBuf) :
    (∃ s, Reads (key.bytes ++ 0 :: rest) value m s ∧ Reads (key.bytes ++ 0 :: rest) value' m s ∧ s = answer key m) ↔
      LetsThrough key rest value m ∧ LetsThrough key rest value' m := by
  rw [← reads_answer_iff good, ← reads_answer_iff good]
  constructor
  · rintro ⟨s, reads, reads', rfl⟩
    exact ⟨reads, reads'⟩
  · rintro ⟨reads, reads'⟩
    exact ⟨_, reads, reads', rfl⟩

/-- A buffer that holds a string, and then NULs. -/
def ValueBuf.of (s : CStr) (short : s.strlen < propValueMax) : ValueBuf where
  bytes := s.bytes ++ List.replicate (propValueMax - s.strlen) 0
  size := by
    rw [List.length_append, List.length_replicate]
    exact Nat.add_sub_of_le (Nat.le_of_lt short)
  nul := by
    rw [List.mem_append, List.mem_replicate]
    exact .inr ⟨Nat.sub_ne_zero_of_lt short, rfl⟩

/-- A file that binds one key. -/
def readFiles : Files := twoFiles (.lit "a=1\n") (.lit "")

theorem readFiles_loaded : ∃ w, loadAllProps 1 ⟨.fresh, readFiles⟩ = .ok w ∧ Good w.mem ∧
    w.mem.value (.lit "a") = some (.lit "1") := by
  obtain ⟨good, -, value⟩ := @loadAllProps_logged readFiles (lit "a=1\n").bytes (lit "").bytes 1 _
    (by decide) (by decide) (by decide) (by decide) (by decide) rfl
  exact ⟨_, rfl, good, by rw [value]; decide⟩

/-- An empty buffer, and one that holds a longer value. -/
theorem reads_same_iff_longer : ∃ w, loadAllProps 1 ⟨.fresh, readFiles⟩ = .ok w ∧
    ((∃ s, Reads ((lit "a").bytes ++ 0 :: List.replicate 30 0) (.of (.lit "") (by decide)) w.mem s ∧
        Reads ((lit "a").bytes ++ 0 :: List.replicate 30 0) (.of (.lit "xxxx") (by decide)) w.mem s ∧
        s = answer (.lit "a") w.mem) ↔
      LetsThrough (.lit "a") (List.replicate 30 0) (.of (.lit "") (by decide)) w.mem ∧
        LetsThrough (.lit "a") (List.replicate 30 0) (.of (.lit "xxxx") (by decide)) w.mem) := by
  obtain ⟨w, run, good, -⟩ := readFiles_loaded
  exact ⟨w, run, reads_same_iff good _ _ _ _⟩

/-- **A longer value in the buffer** shows behind the one that is read. -/
theorem read_shows_old_bytes : ¬ ∀ (m : Mem), Good m → ∀ (key : CStr) (rest : List UInt8) (value value' : ValueBuf),
    propKeyMax ≤ key.strlen + 1 + rest.length →
      ∃ s, Reads (key.bytes ++ 0 :: rest) value m s ∧ Reads (key.bytes ++ 0 :: rest) value' m s ∧
        s = answer key m := by
  intro always
  obtain ⟨w, -, good, bound⟩ := readFiles_loaded
  obtain ⟨s, -, reads, rfl⟩ := always w.mem good (.lit "a") (List.replicate 30 0) (.of (.lit "") (by decide))
    (.of (.lit "xxxx") (by decide)) (by decide)
  have lets := (reads_answer_iff good _ _ _).1 reads
  rw [LetsThrough, bound] at lets
  have behind : (ValueBuf.of (.lit "xxxx") (by decide)).bytes[1]? = some 0 := lets
  exact absurd behind (by decide)

end CodeBackup.Property
