import Mathlib

/-!
# Threads and their program counters

Finitely many threads, each at a place of its program. `count P pc` is the
number of threads at a place in `P`; one thread moving changes it by what its
own two places say (`count_update`).
-/

namespace CodeBackup.Conc

variable {ι π : Type} [Fintype ι] [DecidableEq ι]

/-- The number of threads at a place in `P`. -/
def count (P : π → Bool) (pc : ι → π) : Nat := (Finset.univ.filter fun t => P (pc t)).card

/-- One thread moves. -/
theorem count_update (P : π → Bool) (pc : ι → π) (t : ι) (p : π) :
    count P (Function.update pc t p) + (P (pc t)).toNat = count P pc + (P p).toNat := by
  have split : ∀ f : ι → π, count P f = (P (f t)).toNat +
      ((Finset.univ.erase t).filter fun u => P (f u)).card := by
    intro f
    have univ : (Finset.univ : Finset ι) = insert t (Finset.univ.erase t) := by simp
    rw [count, univ, Finset.filter_insert]
    by_cases h : P (f t)
    · rw [if_pos h, Finset.card_insert_of_notMem (by simp)]
      simp [h, Nat.add_comm]
    · rw [if_neg h]
      simp [h]
  have rest : ((Finset.univ.erase t).filter fun u => P (Function.update pc t p u)) =
      (Finset.univ.erase t).filter fun u => P (pc u) := by
    apply Finset.filter_congr
    intro u hu
    rw [Function.update_of_ne (Finset.ne_of_mem_erase hu)]
  rw [split (Function.update pc t p), split pc, rest, Function.update_self]
  omega

omit [DecidableEq ι] in
theorem count_pos {P : π → Bool} {pc : ι → π} : 0 < count P pc ↔ ∃ t, P (pc t) := by
  simp [count, Finset.card_pos, Finset.filter_nonempty_iff]

end CodeBackup.Conc
