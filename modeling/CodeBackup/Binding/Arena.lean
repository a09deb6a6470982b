import CodeBackup.Binding.Last

/-!
# A map in a bounded arena

The values of a map stand in slots of an arena of `cap` bytes. A value that is
not longer than the one before it is written over it; a longer one gets a new
slot behind all others. If there is none, the value is not stored, and the
values that are there move together, which gives back what is no longer used.

`Ledger` is the account of such an arena, by lengths alone. A log of bindings
ends in its last bindings exactly if the last pair of every key finds room
(`stored_eq_lastOf_iff`).
-/

namespace CodeBackup.Binding

variable {κ ν : Type} [DecidableEq κ]

/-- The length that is stored for each key, and the bytes that have been handed out. -/
structure Ledger (κ : Type) where
  sizes : AList fun _ : κ => Nat
  used : Nat

namespace Ledger

/-- The bytes of the stored values, a terminator for each. -/
def live (L : Ledger κ) : Nat := (L.sizes.entries.map fun e => e.2 + 1).sum

/-- A value of `n` bytes for `k` asks for a new slot. -/
def grows (L : Ledger κ) (k : κ) (n : Nat) : Bool :=
  match L.sizes.lookup k with
  | some old => old < n
  | none => true

/-- The value is stored: it needs no new slot, or there is one. -/
def Room (cap : Nat) (L : Ledger κ) (k : κ) (n : Nat) : Prop := L.grows k n = true → L.used + (n + 1) ≤ cap

instance (cap : Nat) (L : Ledger κ) (k : κ) (n : Nat) : Decidable (L.Room cap k n) :=
  inferInstanceAs (Decidable (_ → _))

/-- The account after a value of `n` bytes was stored, or all values moved. -/
def store (cap : Nat) (L : Ledger κ) (k : κ) (n : Nat) : Ledger κ :=
  if L.Room cap k n then ⟨L.sizes.insert k n, L.used + if L.grows k n then n + 1 else 0⟩
  else ⟨L.sizes, L.live⟩

/-- The account after a log of bindings. -/
def run (cap : Nat) (size : ν → Nat) : Ledger κ → List (κ × ν) → Ledger κ
  | L, [] => L
  | L, p :: log => run cap size (L.store cap p.1 (size p.2)) log

/-- Every pair that is the last of its key in the log finds room. -/
def Fits (cap : Nat) (size : ν → Nat) : Ledger κ → List (κ × ν) → Prop
  | _, [] => True
  | L, p :: log => (lastOf log p.1 = none → L.Room cap p.1 (size p.2)) ∧ Fits cap size (L.store cap p.1 (size p.2)) log

instance decidableFits (cap : Nat) (size : ν → Nat) : ∀ (L : Ledger κ) (log : List (κ × ν)),
    Decidable (L.Fits cap size log)
  | _, [] => inferInstanceAs (Decidable True)
  | L, p :: log =>
    have := decidableFits cap size (L.store cap p.1 (size p.2)) log
    inferInstanceAs (Decidable ((lastOf log p.1 = none → L.Room cap p.1 (size p.2)) ∧ _))

/-- The bindings after a log, over those before it. -/
def stored (cap : Nat) (size : ν → Nat) : Ledger κ → List (κ × ν) → (κ → Option ν) → κ → Option ν
  | _, [], f => f
  | L, p :: log, f => stored cap size (L.store cap p.1 (size p.2)) log
      (if L.Room cap p.1 (size p.2) then Function.update f p.1 (some p.2) else f)

/-- The ledger keeps the length of each value. -/
def Sized (size : ν → Nat) (L : Ledger κ) (f : κ → Option ν) : Prop := ∀ k, (f k).map size = L.sizes.lookup k

variable {cap : Nat} {size : ν → Nat} {L : Ledger κ} {f : κ → Option ν}

/-- **With room**, a value takes at most its bytes. -/
theorem used_store_le {k : κ} {n : Nat} (room : L.used + (n + 1) ≤ cap) : (L.store cap k n).used ≤ L.used + (n + 1) := by
  have fits : L.Room cap k n := fun _ => room
  rw [store, if_pos fits]
  dsimp only
  split <;> omega

theorem Sized.store (h : L.Sized size f) (k : κ) (v : ν) :
    (L.store cap k (size v)).Sized size (if L.Room cap k (size v) then Function.update f k (some v) else f) := by
  intro j
  unfold Ledger.store
  split
  · by_cases hj : j = k
    · subst hj
      simp
    · simp [hj, h j]
  · exact h j

/-- A key that the log does not bind keeps its value. -/
theorem stored_of_none {k : κ} : ∀ {log : List (κ × ν)} {L : Ledger κ} {f : κ → Option ν}, lastOf log k = none →
    stored cap size L log f k = f k
  | [], _, _, _ => rfl
  | p :: log, L, f, h => by
    rw [lastOf_cons, Option.or_eq_none_iff] at h
    have ne : k ≠ p.1 := by
      rintro rfl
      simp at h
    rw [stored, stored_of_none h.1]
    split
    · simp [ne]
    · rfl

/-- A value without room differs from the one that is stored. -/
theorem ne_of_not_room (h : L.Sized size f) {k : κ} {v : ν} (no : ¬ L.Room cap k (size v)) : f k ≠ some v := by
  intro e
  apply no
  intro grow
  have := h k
  rw [e, Option.map_some] at this
  simp [grows, ← this] at grow

/-- What the first pair of a log leaves for the others to bind, unless it is the last one of its key and has no room. -/
theorem lastOf_or_store {k : κ} {v : ν} {log : List (κ × ν)} {f : κ → Option ν} {room : Prop} [Decidable room]
    (finds : lastOf log k = none → room) (j : κ) :
    (lastOf ((k, v) :: log) j).or (f j) = (lastOf log j).or ((if room then Function.update f k (some v) else f) j) := by
  rw [lastOf_cons, Option.or_assoc]
  by_cases hj : k = j
  · subst hj
    cases e : lastOf log k with
    | some w => simp
    | none => simp [finds e]
  · rw [if_neg hj, Option.none_or]
    split
    · rw [Function.update_of_ne (Ne.symm hj)]
    · rfl

/-- **The last bindings are stored** exactly if the last pair of every key finds room. -/
theorem stored_eq_lastOf_iff : ∀ {log : List (κ × ν)} {L : Ledger κ} {f : κ → Option ν}, L.Sized size f →
    ((∀ k, stored cap size L log f k = (lastOf log k).or (f k)) ↔ L.Fits cap size log)
  | [], _, _, _ => by simp [stored, Fits]
  | (k, v) :: log, L, f, h => by
    have sized : (L.store cap k (size v)).Sized size _ := h.store k v
    have rest := @stored_eq_lastOf_iff log _ _ sized
    by_cases last : lastOf log k = none ∧ ¬ L.Room cap k (size v)
    · -- the value is not stored, and nothing behind it binds the key
      have lost : stored cap size L ((k, v) :: log) f k = f k := by
        rw [stored, stored_of_none last.1, if_neg last.2]
      constructor
      · intro all
        have here := all k
        rw [lost, lastOf_cons, last.1] at here
        exact absurd here (by simpa using ne_of_not_room h last.2)
      · exact fun fits => absurd (fits.1 last.1) last.2
    · have fits : L.Fits cap size ((k, v) :: log) ↔ (L.store cap k (size v)).Fits cap size log :=
        ⟨fun hf => hf.2, fun hf => ⟨fun none_ => not_not.1 fun no => last ⟨none_, no⟩, hf⟩⟩
      rw [fits, ← rest]
      apply forall_congr'
      intro j
      have finds : lastOf log k = none → L.Room cap k (size v) := fun none_ => not_not.1 fun no => last ⟨none_, no⟩
      rw [lastOf_or_store finds j]
      rfl

theorem stored_append (log log' : List (κ × ν)) (L : Ledger κ) (f : κ → Option ν) :
    stored cap size L (log ++ log') f = stored cap size (L.run cap size log) log' (stored cap size L log f) := by
  induction log generalizing L f with
  | nil => rfl
  | cons p log ih => exact ih _ _

end Ledger

end CodeBackup.Binding
