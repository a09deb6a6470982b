import Mathlib

/-!
# The last binding of a key

A log of bindings, read as a map: a later binding of a key replaces an earlier
one.
-/

namespace CodeBackup.Binding

variable {κ ν : Type} [DecidableEq κ]

/-- The value that the last pair with key `k` gives it. -/
def lastOf : List (κ × ν) → κ → Option ν
  | [], _ => none
  | (k', v) :: l, k => (lastOf l k).or (if k' = k then some v else none)

@[simp] theorem lastOf_nil (k : κ) : lastOf ([] : List (κ × ν)) k = none := rfl

theorem lastOf_cons (p : κ × ν) (l : List (κ × ν)) (k : κ) :
    lastOf (p :: l) k = (lastOf l k).or (if p.1 = k then some p.2 else none) := rfl

/-- **What is bound later wins.** -/
theorem lastOf_append (l l' : List (κ × ν)) (k : κ) :
    lastOf (l ++ l') k = (lastOf l' k).or (lastOf l k) := by
  induction l with
  | nil => simp
  | cons p l ih => rw [List.cons_append, lastOf_cons, ih, lastOf_cons, Option.or_assoc]

theorem lastOf_concat (l : List (κ × ν)) (p : κ × ν) (k : κ) :
    lastOf (l ++ [p]) k = if p.1 = k then some p.2 else lastOf l k := by
  rw [lastOf_append, lastOf_cons, lastOf_nil, Option.none_or]
  split <;> simp

theorem lastOf_eq_none {l : List (κ × ν)} {k : κ} : lastOf l k = none ↔ ∀ p ∈ l, p.1 ≠ k := by
  induction l with
  | nil => simp
  | cons p l ih => simp [lastOf_cons, Option.or_eq_none_iff, ih, and_comm]

theorem mem_of_lastOf {l : List (κ × ν)} {k : κ} {v : ν} (h : lastOf l k = some v) : (k, v) ∈ l := by
  induction l with
  | nil => simp at h
  | cons p l ih =>
    rw [lastOf_cons, Option.or_eq_some_iff] at h
    rcases h with h | ⟨-, h⟩
    · exact List.mem_cons_of_mem _ (ih h)
    · obtain ⟨rfl, rfl⟩ : p.1 = k ∧ p.2 = v := by simpa using h
      exact List.mem_cons_self

/-- In a log without repeated keys every pair is the last of its key. -/
theorem lastOf_eq_some {l : List (κ × ν)} (nodup : (l.map Prod.fst).Nodup) {k : κ} {v : ν} :
    lastOf l k = some v ↔ (k, v) ∈ l := by
  refine ⟨mem_of_lastOf, fun h => ?_⟩
  induction l with
  | nil => simp at h
  | cons p l ih =>
    rw [List.map_cons, List.nodup_cons] at nodup
    rw [lastOf_cons]
    rcases List.mem_cons.1 h with rfl | h
    · have : lastOf l k = none := lastOf_eq_none.2 fun q hq e => nodup.1 (e ▸ List.mem_map.2 ⟨q, hq, rfl⟩)
      simp [this]
    · simp [ih nodup.2 h]

end CodeBackup.Binding
