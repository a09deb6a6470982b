import CodeBackup.C.Outcome

/-!
# C strings

`CStr` is the text of a C string: bytes without the terminator, none of them
NUL. `strcmp` orders texts as the library function does, by the first unsigned
byte that differs, a proper prefix first. `Block` is the memory of one
allocation; `StrAt b off s` says that the string `s` stands at offset `off`,
`writeStr` is what `strcpy` stores, and `readStr` what a reader of the string
finds when it scans for the terminator.
-/

namespace CodeBackup.C

/-- The text of a C string: bytes before the terminator, none of them NUL. -/
structure CStr where
  bytes : List UInt8
  nulFree : 0 ∉ bytes
  deriving DecidableEq

namespace CStr

@[ext] theorem ext {a b : CStr} (h : a.bytes = b.bytes) : a = b := by
  cases a; cases b; cases h; rfl

/-- The string that starts at the head of `l`: everything before the first NUL. -/
def ofBytes (l : List UInt8) : CStr where
  bytes := l.takeWhile (· ≠ 0)
  nulFree := by
    intro h
    have := List.mem_takeWhile_imp h
    simp at this

theorem ofBytes_bytes {l : List UInt8} (h : 0 ∉ l) : (ofBytes l).bytes = l :=
  List.takeWhile_eq_self_iff.2 fun b hb => by
    simp only [ne_eq, decide_not, Bool.not_eq_eq_eq_not, Bool.not_true, decide_eq_false_iff_not]
    rintro rfl
    exact h hb

@[simp] theorem ofBytes_self (s : CStr) : ofBytes s.bytes = s := ext (ofBytes_bytes s.nulFree)

/-- A string literal of the source. -/
def lit (s : String) : CStr := ofBytes (s.toList.map fun c => c.toNat.toUInt8)

/-- The text of one string, then that of another. -/
def append (a b : CStr) : CStr where
  bytes := a.bytes ++ b.bytes
  nulFree := by simp [a.nulFree, b.nulFree]

/-- The first `n` bytes of a text. -/
def take (s : CStr) (n : Nat) : CStr where
  bytes := s.bytes.take n
  nulFree := fun h => s.nulFree (List.mem_of_mem_take h)

/-- `strlen`. -/
def strlen (s : CStr) : Nat := s.bytes.length

theorem take_of_strlen_le {s : CStr} {n : Nat} (h : s.strlen ≤ n) : s.take n = s := ext (List.take_of_length_le h)

/-- `strcmp`: the first differing byte decides, compared unsigned. -/
def strcmp (a b : CStr) : Ordering := List.compareLex compare a.bytes b.bytes

instance : Std.TransCmp strcmp where
  eq_swap {_ _} := (inferInstance : Std.TransCmp (List.compareLex (compare : UInt8 → UInt8 → Ordering))).eq_swap
  isLE_trans {_ _ _} :=
    (inferInstance : Std.TransCmp (List.compareLex (compare : UInt8 → UInt8 → Ordering))).isLE_trans

instance : Std.LawfulEqCmp strcmp where
  compare_self {_} :=
    (inferInstance : Std.LawfulEqCmp (List.compareLex (compare : UInt8 → UInt8 → Ordering))).compare_self
  eq_of_compare {_ _} h :=
    ext ((inferInstance : Std.LawfulEqCmp (List.compareLex (compare : UInt8 → UInt8 → Ordering))).eq_of_compare h)

end CStr

/-- `isspace` in the C locale. -/
def isspace (b : UInt8) : Bool := b = 32 || (9 ≤ b && b ≤ 13)

/-- `!strncmp(s, p, strlen(p))`: the text starts with `p`. -/
def startsWith (s p : CStr) : Bool := p.bytes.isPrefixOf s.bytes

/-! ## Strings in a block of memory -/

/-- The bytes of one allocation, by offset. -/
abbrev Block := Nat → UInt8

/-- The string `s`, with its terminator, stands at offset `off`. -/
structure StrAt (b : Block) (off : Nat) (s : CStr) : Prop where
  byte : ∀ i (hi : i < s.strlen), b (off + i) = s.bytes.get ⟨i, hi⟩
  nul : b (off + s.strlen) = 0

/-- What `strcpy` leaves in the block: the text at `off`, then the terminator. -/
def writeStr (b : Block) (off : Nat) (s : CStr) : Block := fun i =>
  if off ≤ i ∧ i ≤ off + s.strlen then s.bytes.getD (i - off) 0 else b i

/-- The bytes from `off` up to the first NUL, the block being `size` bytes long;
running off its end is a fault. -/
def readBytes (b : Block) (off : Nat) : Nat → Outcome (List UInt8)
  | 0 => .error .outOfBounds
  | n + 1 => if b off = 0 then .ok [] else do
      let rest ← readBytes b (off + 1) n
      .ok (b off :: rest)

/-- The string at `off` of a block of `size` bytes. -/
def readStr (b : Block) (size off : Nat) : Outcome CStr := do
  let l ← readBytes b off (size - off)
  .ok (.ofBytes l)

theorem writeStr_at (b : Block) (off : Nat) (s : CStr) : StrAt (writeStr b off s) off s where
  byte i hi := by
    have hi' : i < s.bytes.length := hi
    simp [writeStr, Nat.le_of_lt hi, List.getD_eq_getElem?_getD, List.getElem?_eq_getElem hi']
  nul := by simp [writeStr, CStr.strlen]

/-- A write outside `[off, off + n)` keeps a string that lies inside. -/
theorem StrAt.frame {b b' : Block} {off n : Nat} {s : CStr} (h : StrAt b off s)
    (fits : s.strlen + 1 ≤ n) (same : ∀ i, off ≤ i → i < off + n → b' i = b i) :
    StrAt b' off s where
  byte i hi := by rw [same _ (by omega) (by omega), h.byte i hi]
  nul := by rw [same _ (by omega) (by omega), h.nul]

theorem writeStr_out {b : Block} {off : Nat} {s : CStr} {i : Nat}
    (h : i < off ∨ off + s.strlen < i) : writeStr b off s i = b i := by
  unfold writeStr
  rw [if_neg (by omega)]

theorem readBytes_of {b : Block} : ∀ {l : List UInt8} {off n : Nat}, l.length < n → 0 ∉ l →
    (∀ i (hi : i < l.length), b (off + i) = l.get ⟨i, hi⟩) → b (off + l.length) = 0 →
    readBytes b off n = .ok l
  | l, off, 0, hn, _, _, _ => by omega
  | [], off, n + 1, _, _, _, hz => by
    have hz' : b off = 0 := by simpa using hz
    simp [readBytes, hz']
  | x :: l, off, n + 1, hn, hx, hb, hz => by
    have h0 : b off = x := by simpa using hb 0 (by simp)
    have hne : x ≠ 0 := fun e => hx (by simp [e])
    have rest : readBytes b (off + 1) n = .ok l := by
      refine readBytes_of (by simpa using hn) (fun h => hx (List.mem_cons_of_mem _ h)) ?_ ?_
      · intro i hi
        have := hb (i + 1) (by simpa using hi)
        rw [Nat.add_right_comm, Nat.add_assoc]
        simpa using this
      · rw [Nat.add_right_comm, Nat.add_assoc]
        simpa using hz
    simp [readBytes, h0, hne, rest]

/-- Reading finds the string that stands there. -/
theorem StrAt.read {b : Block} {size off : Nat} {s : CStr} (h : StrAt b off s)
    (fits : off + s.strlen < size) : readStr b size off = .ok s := by
  have := readBytes_of (b := b) (l := s.bytes) (n := size - off)
    (by unfold CStr.strlen at fits; omega) s.nulFree h.byte h.nul
  simp [readStr, this]

end CodeBackup.C
