import CodeBackup.Binding.Book
import CodeBackup.Property.LoadAll
import CodeBackup.Property.Sections

/-!
# The service as a map in an arena

What the service is for: bindings of keys, in an arena of `BLOCKSIZE` bytes.
`Permits` says what a call may answer, by the bindings alone, and what it does
to them; `whole_permits` that the code answers so, and `whole_returns` that it
does answer.
-/

namespace CodeBackup.Property

open C C.Outcome Rbtree ColorTree CStr Binding Conc

/-- The bindings of the service. -/
abbrev Bindings := Book CStr strlen

/-- The text in a buffer of `PROP_VALUE_MAX` bytes. -/
def pad (s : CStr) : Buf := s.bytes ++ List.replicate (propValueMax - s.strlen) 0

/-- As much of a default value as the buffer holds. -/
def clip (d : CStr) : CStr where
  bytes := d.bytes.take (propValueMax - 1)
  nulFree h := d.nulFree (List.mem_of_mem_take h)

namespace Bindings

/-- What a read of the key finds: its value, or that of the matching `ro.` key, or nothing. -/
def lookup (b : Bindings) (key : CStr) : CStr :=
  match b.value key with
  | some val => val
  | none => if startsWith key persistPrefix then (b.value (roKey key key.strlen)).getD (.lit "") else .lit ""

/-- What a read of the key gives. -/
def read (b : Bindings) (key : CStr) (defaultValue : Option CStr) : CStr :=
  match defaultValue with
  | some d => if (b.lookup key).strlen = 0 then clip d else b.lookup key
  | none => b.lookup key

/-- A long value, and a new value of a read-only key, are dropped. -/
def set (b : Bindings) (key val : CStr) : Int × Bindings :=
  if legalName key then
    if propValueMax ≤ val.strlen ∨ (startsWith key roPrefix ∧ (b.value key).isSome) then (0, b)
    else (0, b.put blocksize key val)
  else (-1, b)

/-- What a call may answer, and the bindings after it. -/
def Permits : Request → Answer → Bindings → Bindings → Prop
  | .get key _ _, .listed pairs, b, b' => key.head? = some 0 ∧ b' = b ∧
      pairs.Pairwise (fun x y => strcmp x.1 y.1 = .lt) ∧ ∀ k v, (k, v) ∈ pairs ↔ b.value k = some v
  | .get key _ d, .read value, b, b' => key.head? ≠ some 0 ∧ b' = b ∧ value = pad (b.read (ofBytes key) d)
  | .set key val, .status r, b, b' => (r, b') = b.set key val
  | _, _, _, _ => False

end Bindings

/-- The arguments are as the service expects them: the key of a read stands in `PROP_KEY_MAX` bytes, and the buffer for
the value has `PROP_VALUE_MAX` bytes, all of them NUL. -/
def Request.Proper : Request → Prop
  | .get key value _ => 0 ∈ key.take propKeyMax ∧ propKeyMax ≤ key.length ∧ value = pad (.lit "")
  | .set _ _ => True
  | .release => False

/-- The store holds the bindings, and the ledger accounts for its pool. -/
structure Implements (m : Mem) (b : Bindings) : Prop where
  accounts : Accounts b.ledger m
  value : m.value = b.value

/-! ## Reads -/

section Reads

variable {m : Mem} {b : Bindings}

theorem pad_str {s : CStr} (short : s.strlen < propValueMax) : Buf.str (pad s) 0 = .ok s := by
  obtain ⟨n, hn⟩ : ∃ n, propValueMax - s.strlen = n + 1 :=
    ⟨_, (Nat.succ_pred_eq_of_pos (Nat.sub_pos_of_lt short)).symm⟩
  rw [pad, hn, List.replicate_succ]
  exact Buf.str_at [] s _

/-- A text in front of the NULs of an empty buffer. -/
theorem pad_drop (s : CStr) : s.bytes ++ (pad (.lit "")).drop s.strlen = pad s := by
  have empty : pad (.lit "") = List.replicate propValueMax 0 := by decide
  rw [empty, List.drop_replicate, pad]

theorem clip_strlen (d : CStr) : (clip d).strlen = if d.strlen ≥ propValueMax then propValueMax - 1 else d.strlen := by
  have least : (clip d).strlen = min (propValueMax - 1) d.strlen := List.length_take
  rw [least]
  split <;> omega

theorem clip_short (d : CStr) : (clip d).strlen < propValueMax := by
  have pos : 0 < propValueMax := by decide
  rw [clip_strlen]
  split <;> omega

theorem clip_bytes (d : CStr) : d.bytes.take (clip d).strlen = (clip d).bytes :=
  (List.prefix_iff_eq_take.1 (List.take_prefix _ _)).symm

/-- **The default value** in place of an empty one. -/
theorem copyDefault_pad {s : CStr} (empty : s.strlen = 0) (d : CStr) : copyDefault (pad s) d = .ok (pad (clip d)) := by
  have bytes : s.bytes = [] := List.length_eq_zero_iff.1 empty
  have zeros : pad s = List.replicate propValueMax 0 := by rw [pad, bytes, empty]; rfl
  have short := clip_short d
  simp only [copyDefault, ← clip_strlen, clip_bytes]
  rw [zeros, copy_start (by simpa [strlen] using Nat.le_of_lt short), ok_bind, List.drop_replicate]
  have fits : (clip d).strlen < ((clip d).bytes ++ List.replicate (propValueMax - (clip d).bytes.length) 0).length := by
    simp only [List.length_append, List.length_replicate, strlen] at short ⊢
    omega
  rw [Buf.write, if_pos fits]
  obtain ⟨n, hn⟩ : ∃ n, propValueMax - (clip d).bytes.length = n + 1 :=
    ⟨_, (Nat.succ_pred_eq_of_pos (Nat.sub_pos_of_lt short)).symm⟩
  simp [pad, strlen, hn, List.replicate_succ]

theorem finishGet_pad {s : CStr} (short : s.strlen < propValueMax) (d : Option CStr) :
    finishGet (pad s) d = .ok (pad (match d with
      | some d => if s.strlen = 0 then clip d else s
      | none => s)) := by
  cases d with
  | none => simp [finishGet, pad_str short]
  | some d =>
    by_cases empty : s.strlen = 0
    · simp [finishGet, pad_str short, empty, copyDefault_pad empty, pad_str (clip_short d)]
    · simp [finishGet, pad_str short, empty]

/-- A key, its terminator, and what stands behind it in its buffer. -/
theorem key_split {key : Buf} (nul : 0 ∈ key.take propKeyMax) (size : propKeyMax ≤ key.length) :
    ∃ rest, key = (ofBytes key).bytes ++ 0 :: rest ∧ (ofBytes key).strlen < propKeyMax ∧
      propKeyMax ≤ (ofBytes key).strlen + 1 + rest.length := by
  obtain ⟨x, y, split, hx⟩ := List.eq_append_cons_of_mem nul
  have whole : key = x ++ 0 :: (y ++ key.drop propKeyMax) := by
    rw [← List.cons_append, ← List.append_assoc, ← split, List.take_append_drop]
  have bytes : (ofBytes key).bytes = x := by
    have free : ∀ b ∈ x, decide (b ≠ 0) = true := fun b hb => by
      simp only [ne_eq, decide_not, Bool.not_eq_true', decide_eq_false_iff_not]
      rintro rfl
      exact hx hb
    show List.takeWhile _ key = x
    rw [whole, List.takeWhile_append_of_pos free]
    simp
  have length : (key.take propKeyMax).length = propKeyMax := by rw [List.length_take, Nat.min_eq_left size]
  have length' : key.length = x.length + 1 + (y ++ key.drop propKeyMax).length := by
    conv_lhs => rw [whole]
    simp only [List.length_append, List.length_cons]
    omega
  rw [split, List.length_append, List.length_cons] at length
  refine ⟨y ++ key.drop propKeyMax, by rw [bytes]; exact whole, ?_, ?_⟩
  · rw [strlen, bytes]
    omega
  · rw [strlen, bytes]
    omega

/-- **`__system_property_get`** into an empty buffer finds what the bindings say. -/
theorem systemPropertyGet_pad (h : Implements m b) {key : CStr} {rest : List UInt8} (short : key.strlen < propKeyMax)
    (long : propKeyMax ≤ key.strlen + 1 + rest.length) :
    systemPropertyGet (key.bytes ++ 0 :: rest) (pad (.lit "")) m = .ok (pad (b.lookup key)) := by
  have clear : cleared (pad (.lit "")) = pad (.lit "") := by decide
  have get := systemPropertyGet_eq h.accounts.good key rest (.of (.lit "") (by decide))
  rw [show (ValueBuf.of (.lit "") (by decide)).bytes = pad (.lit "") from rfl, clear, h.value, roKey_eq short,
    if_pos long] at get
  rw [get, Bindings.lookup]
  cases b.value key with
  | some val => simp only [pad_drop]
  | none =>
    by_cases persist : startsWith key persistPrefix
    · simp only [if_pos persist]
      cases b.value (roKey key key.strlen) with
      | some val => simp only [pad_drop, Option.getD_some]
      | none => rfl
    · simp only [if_neg persist]

theorem Implements.lookup_short (h : Implements m b) (key : CStr) : (b.lookup key).strlen < propValueMax := by
  have bound : ∀ {k v}, b.value k = some v → v.strlen < propValueMax := fun {k v} e =>
    h.accounts.good.value_short (by rw [h.value]; exact e)
  have empty : (lit "").strlen < propValueMax := by decide
  rw [Bindings.lookup]
  split
  · next val e => exact bound e
  · split
    · cases e : b.value (roKey key key.strlen) with
      | some val => exact bound e
      | none => exact empty
    · exact empty

/-- **A read** answers what the bindings say. -/
theorem Implements.get (h : Implements m b) {key value : Buf} {d : Option CStr}
    (proper : (Request.get key value d).Proper) (files : Files) :
    ∃ a, (Request.get key value d).whole ⟨m, files⟩ = .ok (⟨m, files⟩, a) ∧
      Bindings.Permits (.get key value d) a b b := by
  obtain ⟨nul, size, rfl⟩ := proper
  obtain ⟨rest, split, short, long⟩ := key_split nul size
  cases key with
  | nil => cases nul
  | cons c key =>
    have first : Buf.read (c :: key) 0 = .ok c := rfl
    by_cases zero : c = 0
    · obtain ⟨pairs, list, sorted, mem⟩ := h.accounts.good.list
      refine ⟨.listed pairs, ?_, by simp [zero], rfl, sorted, fun k v => by rw [mem, h.value]⟩
      simp only [Request.whole, first, ok_bind, if_pos zero, list]
    · refine ⟨.read (pad (b.read (ofBytes (c :: key)) d)), ?_, by simpa using zero, rfl, rfl⟩
      have get := systemPropertyGet_pad h short long
      rw [← split] at get
      simp only [Request.whole, first, ok_bind, if_neg zero, getProperty_finish first zero, get,
        finishGet_pad (h.lookup_short _), Bindings.read]

end Reads

/-! ## Calls -/

section Calls

variable {w w' : World} {b : Bindings}

theorem Bindings.set_legal {key val : CStr} (legal : legalName key) : b.set key val =
    (0, if propValueMax ≤ val.strlen ∨ (startsWith key roPrefix ∧ (b.value key).isSome) then b
      else b.put blocksize key val) := by
  rw [Bindings.set, if_pos legal]
  split <;> rfl

/-- **`put`** on both. -/
theorem Implements.put {m : Mem} (h : Implements m b) (key : CStr) {val : CStr} (short : val.strlen < propValueMax) :
    ∃ r m', Property.put key val m = .ok (r, m') ∧ Implements m' (b.put blocksize key val) := by
  obtain ⟨r, m', run, acc, value⟩ := h.accounts.put key short
  refine ⟨r, m', run, acc, ?_⟩
  rw [value, h.value]
  rfl

/-- **A write**, whose rewrite of the file returns. -/
theorem Implements.set (h : Implements w.mem b) (key val : CStr) {files : Files}
    (file : legalName key → refuses key val w.mem = false → fileUpdate key val w = .ok files) :
    ∃ r w', setProperty key val w = .ok (r, w') ∧ Implements w'.mem (b.set key val).2 ∧ r = (b.set key val).1 := by
  cases legal : legalName key with
  | false =>
    refine ⟨-1, w, ?_, by simpa [Bindings.set, legal] using h, by simp [Bindings.set, legal]⟩
    simp only [setProperty, isLegalPropertyName_spec, ok_bind, legal]
    rfl
  | true =>
    have drops : refuses key val w.mem = true ↔
        propValueMax ≤ val.strlen ∨ (startsWith key roPrefix ∧ (b.value key).isSome) := by
      simp [refuses, h.value]
    rw [setProperty_eq h.accounts.good legal, Bindings.set_legal legal]
    cases refused : refuses key val w.mem with
    | true =>
      rw [if_pos (drops.1 refused)]
      exact ⟨0, w, rfl, h, rfl⟩
    | false =>
      have stores : ¬ (propValueMax ≤ val.strlen ∨ (startsWith key roPrefix ∧ (b.value key).isSome)) :=
        fun e => by simp [drops.2 e] at refused
      obtain ⟨r, m', run, h'⟩ := h.put key (Nat.lt_of_not_le fun e => stores (.inl e))
      rw [if_neg stores]
      refine ⟨0, ⟨m', files⟩, ?_, h', rfl⟩
      simp only [file legal refused, ok_bind, run]
      rfl

/-- **The code answers** what the specification permits. -/
theorem whole_permits {r : Request} {a : Answer} (proper : r.Proper) (h : Implements w.mem b)
    (run : r.whole w = .ok (w', a)) : ∃ b', Bindings.Permits r a b b' ∧ Implements w'.mem b' := by
  cases r with
  | get key value d =>
    obtain ⟨a', run', permits⟩ := h.get proper w.files
    cases unique run run'
    exact ⟨b, permits, h⟩
  | set key val =>
    simp only [Request.whole, bind_eq_ok] at run
    obtain ⟨⟨r, w₁⟩, run, e⟩ := run
    cases e
    obtain ⟨files, file⟩ : ∃ files, legalName key → refuses key val w.mem = false →
        fileUpdate key val w = .ok files := by
      rcases setProperty_of_run h.accounts.good run with ⟨illegal, -⟩ | ⟨-, refused, -⟩ | ⟨-, -, -, -, file⟩
      · exact ⟨w.files, fun legal => by rw [legal] at illegal; cases illegal⟩
      · exact ⟨w.files, fun _ accepted => by rw [accepted] at refused; cases refused⟩
      · exact ⟨_, fun _ _ => file⟩
    obtain ⟨r', w₂, run', h', e⟩ := h.set key val file
    cases unique run run'
    exact ⟨_, Prod.ext e rfl, h'⟩
  | release => cases proper

/-- The call does not rewrite a file. -/
def Request.InMemory : Request → Prop
  | .set key _ => ¬ startsWith key persistPrefix
  | _ => True

/-- **The code does answer**, unless it has a file to rewrite. -/
theorem whole_returns {r : Request} (proper : r.Proper) (inMemory : r.InMemory) (h : Implements w.mem b) :
    ∃ w' a, r.whole w = .ok (w', a) := by
  cases r with
  | get key value d =>
    obtain ⟨a, run, -⟩ := h.get proper w.files
    exact ⟨_, a, run⟩
  | set key val =>
    have file : fileUpdate key val w = .ok w.files := by rw [fileUpdate, if_neg inMemory]
    obtain ⟨r, w', run, -⟩ := h.set key val fun _ _ => file
    exact ⟨w', .status r, by simp [Request.whole, run]⟩
  | release => cases proper

end Calls

/-! ## Loads -/

/-- **A load** leaves a store that holds some bindings. -/
theorem loadAllProps_implements {depth : Nat} {w w' : World} (vacant : Vacant w.mem)
    (run : loadAllProps depth w = .ok w') : ∃ b, Implements w'.mem b := by
  have keeps : ∀ {fn : CStr} {m m' : Mem}, (∃ L, Accounts L m) →
      loadPropertiesFromFile addProperty w.files depth fn none m = .ok m' → ∃ L, Accounts L m' := by
    intro fn m m' start load
    refine loadPropertiesFromFile_keeps (P := fun m => ∃ L, Accounts L m) ?_ start load
    rintro key value m₁ m₂ - ⟨L, acc⟩ add
    cases ok : addable key value with
    | false =>
      rw [addProperty, systemPropertyAdd_refused ok] at add
      cases add
      exact ⟨L, acc⟩
    | true =>
      have short : value.strlen < propValueMax := by
        simp only [addable, Bool.and_eq_true, decide_eq_true_eq] at ok
        exact ok.2
      obtain ⟨r, m', put, acc', -⟩ := acc.put key short
      rw [addProperty, systemPropertyAdd_addable ok, put] at add
      cases add
      exact ⟨_, acc'⟩
  simp only [loadAllProps, bind_eq_ok] at run
  obtain ⟨m₁, run₁, m₂, run₂, e⟩ := run
  cases e
  obtain ⟨L, acc⟩ := keeps (keeps ⟨_, .init vacant⟩ run₁) run₂
  exact ⟨⟨m₂.value, L, acc.sizes⟩, acc, rfl⟩

end CodeBackup.Property
