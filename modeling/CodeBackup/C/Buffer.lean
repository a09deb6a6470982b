import CodeBackup.C.CString

/-!
# Buffers

A `char *` that walks through a buffer is an index into it, and the loops over
it are the library's scans: `strchr`, the skip over white space, and the trim
that writes terminators backwards. Every read and write is checked against the
end of the buffer.

Each scan has one rule, stated for a buffer that is split at the pointer: what
is behind the pointer decides the result, and what is before it is kept.
-/

namespace CodeBackup.C

open Outcome

/-- The bytes of a buffer. -/
abbrev Buf := List UInt8

namespace Buf

/-- `b[i]`. -/
def read (b : Buf) (i : Nat) : Outcome UInt8 :=
  match b[i]? with
  | some x => .ok x
  | none => .error .outOfBounds

/-- `b[i - 1]`: there is no byte before the first. -/
def readPrev (b : Buf) : Nat → Outcome UInt8
  | 0 => .error .outOfBounds
  | i + 1 => b.read i

/-- `b[i] = x`. -/
def write (b : Buf) (i : Nat) (x : UInt8) : Outcome Buf :=
  if i < b.length then .ok (b.set i x) else .error .outOfBounds

/-- The string at `b + i`. -/
def str (b : Buf) (i : Nat) : Outcome CStr :=
  if 0 ∈ b.drop i then .ok (.ofBytes (b.drop i)) else .error .outOfBounds

/-- The scan of `strchr` for `c` from `i` on. -/
def strchrLoop (c : UInt8) (b : Buf) : Nat → Nat → Outcome (Option Nat)
  | 0, _ => .error .loopBound
  | n + 1, i => do
    let x ← b.read i
    if x = c then .ok (some i) else if x = 0 then .ok none else strchrLoop c b n (i + 1)

/-- `strchr`. -/
def strchr (c : UInt8) (b : Buf) (i : Nat) : Outcome (Option Nat) := strchrLoop c b (b.length + 1) i

/-- `while (isspace(*p)) p++`, from `i` on. -/
def skipLoop (b : Buf) : Nat → Nat → Outcome Nat
  | 0, _ => .error .loopBound
  | n + 1, i => do
    if isspace (← b.read i) then skipLoop b n (i + 1) else .ok i

def skipSpace (b : Buf) (i : Nat) : Outcome Nat := skipLoop b (b.length + 1) i

/-- `while ((tmp > key) && isspace(*tmp)) *tmp-- = 0`. A `tmp` before the start of the buffer
is 0 here: either is not behind `key`. -/
def trimBack (key : Nat) : Nat → Buf → Outcome Buf
  | 0, b => .ok b
  | tmp + 1, b => do
    if key < tmp + 1 then
      if isspace (← b.read (tmp + 1)) then trimBack key tmp (← b.write (tmp + 1) 0) else .ok b
    else .ok b

/-- `memcpy(b + off, l, n)`, of the `n` bytes `l`. -/
def copy (b : Buf) (off : Nat) (l : List UInt8) : Outcome Buf :=
  if off + l.length ≤ b.length then .ok (b.take off ++ (l ++ b.drop (off + l.length))) else .error .outOfBounds

/-- The `n` bytes at `b + off`. -/
def slice (b : Buf) (off n : Nat) : Outcome (List UInt8) :=
  if off + n ≤ b.length then .ok ((b.drop off).take n) else .error .outOfBounds

/-! ## Rules -/

/-- A copy does not change the length. -/
theorem copy_length {b b' : Buf} {off : Nat} {l : List UInt8} (run : copy b off l = .ok b') :
    b'.length = b.length := by
  unfold copy at run
  split at run
  · cases run
    simp only [List.length_append, List.length_take, List.length_drop]
    omega
  · cases run

theorem read_at (xs : List UInt8) (c : UInt8) (ys : List UInt8) :
    Buf.read (xs ++ c :: ys) xs.length = .ok c := by simp [read]

theorem write_at (xs : List UInt8) (c x : UInt8) (ys : List UInt8) :
    Buf.write (xs ++ c :: ys) xs.length x = .ok (xs ++ x :: ys) := by simp [write]

/-- A text without a NUL is read whole. -/
theorem takeWhile_nul (s : CStr) (l : List UInt8) :
    (s.bytes ++ l).takeWhile (fun b => b ≠ 0) = s.bytes ++ l.takeWhile (fun b => b ≠ 0) := by
  apply List.takeWhile_append_of_pos
  intro b hb
  have ne : b ≠ 0 := by
    rintro rfl
    exact s.nulFree hb
  simpa using ne

/-- The string at a pointer ends at the first NUL behind it. -/
theorem str_at (xs : List UInt8) (s : CStr) (ys : List UInt8) :
    Buf.str (xs ++ (s.bytes ++ 0 :: ys)) xs.length = .ok s := by
  have e : CStr.ofBytes (s.bytes ++ 0 :: ys) = s := by
    apply CStr.ext
    show List.takeWhile _ (s.bytes ++ 0 :: ys) = s.bytes
    rw [takeWhile_nul]
    simp
  simp [str, e]

/-- The string of a buffer begins with the text at the start of the buffer. -/
theorem prefix_of_str {s s' : CStr} {l : List UInt8} (h : Buf.str (s.bytes ++ l) 0 = .ok s') :
    s.bytes <+: s'.bytes := by
  unfold str at h
  split at h
  · cases h
    show s.bytes <+: List.takeWhile _ (s.bytes ++ l)
    rw [takeWhile_nul]
    exact List.prefix_append _ _
  · cases h

/-- A text at the start of a buffer is the string there exactly if a NUL follows it. -/
theorem str_start {s : CStr} {l : List UInt8} : Buf.str (s.bytes ++ l) 0 = .ok s ↔ l.head? = some 0 := by
  constructor
  · intro h
    cases l with
    | nil => simp [str, s.nulFree] at h
    | cons b l =>
      by_contra ne
      have nul : 0 ∉ s.bytes ++ [b] := by
        rw [List.mem_append, List.mem_singleton, not_or]
        exact ⟨s.nulFree, fun e => ne (by simp [e])⟩
      -- the string goes on behind the text
      have longer : s.bytes ++ [b] <+: s.bytes := by
        refine prefix_of_str (s := ⟨s.bytes ++ [b], nul⟩) (l := l) ?_
        simpa using h
      have := longer.length_le
      simp at this
  · intro h
    obtain ⟨l', rfl⟩ : ∃ l', l = 0 :: l' := by
      cases l with
      | nil => simp at h
      | cons b l' => exact ⟨l', by simpa using h⟩
    exact str_at [] s l'

/-- The scan passes what is neither `c` nor a terminator. -/
theorem strchrLoop_skip {c : UInt8} (n : Nat) {xs zs ys : List UInt8} (nul : 0 ∉ zs) (free : c ∉ zs) :
    strchrLoop c (xs ++ (zs ++ ys)) (n + zs.length) xs.length =
      strchrLoop c ((xs ++ zs) ++ ys) n (xs ++ zs).length := by
  induction zs generalizing xs with
  | nil => simp
  | cons z zs ih =>
    have hz : z ≠ c := fun e => free (by simp [e])
    have h0 : z ≠ 0 := fun e => nul (by simp [e])
    have rest := @ih (xs ++ [z]) (fun h => nul (List.mem_cons_of_mem _ h)) (fun h => free (List.mem_cons_of_mem _ h))
    simp only [List.append_assoc, List.singleton_append, List.length_append, List.length_singleton] at rest
    rw [List.length_cons, ← Nat.add_assoc, strchrLoop, List.cons_append, read_at, ok_bind, if_neg hz, if_neg h0, rest]
    simp

/-- `strchr` finds the first `c` before the terminator. -/
theorem strchr_at {c : UInt8} {xs zs ys : List UInt8} (nul : 0 ∉ zs) (free : c ∉ zs) :
    strchr c (xs ++ (zs ++ c :: ys)) xs.length = .ok (some (xs.length + zs.length)) := by
  have turns : (xs ++ (zs ++ c :: ys)).length + 1 = (xs.length + ys.length + 1) + 1 + zs.length := by
    simp
    omega
  rw [strchr, turns, strchrLoop_skip _ nul free, strchrLoop, read_at, ok_bind, if_pos rfl, List.length_append]

/-- `strchr` finds no `c` in a string without it. -/
theorem strchr_none {c : UInt8} (hc : c ≠ 0) {xs zs ys : List UInt8} (nul : 0 ∉ zs) (free : c ∉ zs) :
    strchr c (xs ++ (zs ++ 0 :: ys)) xs.length = .ok none := by
  have turns : (xs ++ (zs ++ 0 :: ys)).length + 1 = (xs.length + ys.length + 1) + 1 + zs.length := by
    simp
    omega
  rw [strchr, turns, strchrLoop_skip _ nul free, strchrLoop, read_at, ok_bind, if_neg hc.symm, if_pos rfl]

theorem skipLoop_at {c : UInt8} (hc : isspace c = false) {n : Nat} :
    ∀ {xs zs ys : List UInt8}, zs.length < n → (∀ z ∈ zs, isspace z) →
      skipLoop (xs ++ (zs ++ c :: ys)) n xs.length = .ok (xs.length + zs.length) := by
  induction n with
  | zero => intro xs zs ys h; omega
  | succ n ih =>
    intro xs zs ys h space
    cases zs with
    | nil => simp [skipLoop, read_at, hc]
    | cons z zs =>
      have := @ih (xs ++ [z]) zs ys (by simpa using h)
        fun b hb => space b (List.mem_cons_of_mem _ hb)
      simp only [List.append_assoc, List.singleton_append, List.length_append, List.length_singleton] at this
      simp only [skipLoop, List.cons_append, read_at, ok_bind, space z (by simp), if_true, this,
        List.length_cons]
      congr 1
      omega

/-- The skip ends at the first byte that is not a space. -/
theorem skipSpace_at {c : UInt8} (hc : isspace c = false) {xs zs ys : List UInt8}
    (space : ∀ z ∈ zs, isspace z) :
    skipSpace (xs ++ (zs ++ c :: ys)) xs.length = .ok (xs.length + zs.length) :=
  skipLoop_at hc (by simp; omega) space

/-- The trim overwrites the spaces `zs` behind the byte `c`, and stops at `c` if it is no space
or if it is the one `key` points to. -/
theorem trimBack_at {c : UInt8} {key : Nat} {xs : List UInt8}
    (stop : isspace c = false ∨ xs.length ≤ key) (hkey : key ≤ xs.length) :
    ∀ {zs ys : List UInt8}, (∀ z ∈ zs, isspace z) →
      trimBack key (xs.length + zs.length) (xs ++ c :: (zs ++ ys)) =
        .ok (xs ++ c :: (List.replicate zs.length 0 ++ ys)) := by
  intro zs
  induction zs using List.reverseRecOn with
  | nil =>
    intro ys _
    cases hx : xs.length with
    | zero => simp [trimBack]
    | succ n =>
      rcases stop with stop | stop
      · have : Buf.read (xs ++ c :: ys) (n + 1) = .ok c := by rw [← hx, read_at]
        simp [trimBack, this, stop]
      · rw [hx] at stop
        simp [trimBack, Nat.not_lt.2 stop]
  | append_singleton zs z ih =>
    intro ys space
    have at_ : xs.length + zs.length + 1 = (xs ++ c :: zs).length := by simp; omega
    have read : Buf.read (xs ++ c :: (zs ++ ([z] ++ ys))) (xs.length + zs.length + 1) = .ok z := by
      rw [at_]
      simpa using read_at (xs ++ c :: zs) z ys
    have write : Buf.write (xs ++ c :: (zs ++ ([z] ++ ys))) (xs.length + zs.length + 1) 0 =
        .ok (xs ++ c :: (zs ++ (0 :: ys))) := by
      rw [at_]
      simpa using write_at (xs ++ c :: zs) z 0 ys
    have rest := @ih (0 :: ys) fun b hb => space b (by simp [hb])
    rw [List.length_append, List.length_singleton, ← Nat.add_assoc, List.append_assoc, trimBack,
      if_pos (by omega), read, ok_bind, if_pos (space z (by simp)), write, ok_bind, rest]
    simp [List.replicate_succ']

end Buf

end CodeBackup.C
