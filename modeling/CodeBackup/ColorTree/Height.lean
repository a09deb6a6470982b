import CodeBackup.ColorTree.Balance

/-!
# The height of a red-black tree

A tree of black height `n` has at least `2 ^ n - 1` nodes (`Balanced.size`), and
no way down is longer than twice that height, for no two red nodes follow each
other (`Balanced.levels_le`). So the height is at most twice the logarithm of
the number of nodes (`RedBlack.levels_le`).
-/

namespace CodeBackup.ColorTree

variable {α : Type}

namespace Shape

/-- The number of nodes on the longest way down. -/
def levels : Shape α → Nat
  | .nil => 0
  | .node _ l _ r => max l.levels r.levels + 1

theorem Balanced.size {t : Shape α} {n : Nat} (h : t.Balanced n) : 2 ^ n ≤ t.toList.length + 1 := by
  induction h with
  | nil => simp
  | red _ _ _ _ ihl _ =>
    simp only [toList_node, List.length_append, List.length_cons]
    omega
  | black _ _ ihl ihr =>
    simp only [toList_node, List.length_append, List.length_cons, Nat.pow_succ]
    omega

/-- A red root adds one to a way down. -/
theorem Balanced.levels_le {t : Shape α} {n : Nat} (h : t.Balanced n) : t.levels ≤ 2 * n + t.isRed.toNat := by
  induction h with
  | nil => simp [levels]
  | red hl hr _ _ ihl ihr =>
    rw [hl] at ihl
    rw [hr] at ihr
    simp only [levels, isRed, Bool.toNat_true, Bool.toNat_false] at *
    omega
  | @black l r a n _ _ ihl ihr =>
    have hl := Bool.toNat_le l.isRed
    have hr := Bool.toNat_le r.isRed
    simp only [levels, isRed, Bool.toNat_false]
    omega

/-- **The height of a red-black tree.** -/
theorem RedBlack.levels_le {t : Shape α} (h : t.RedBlack) : t.levels ≤ 2 * Nat.log 2 (t.toList.length + 1) := by
  obtain ⟨n, bal⟩ := h.balanced
  have tall := bal.levels_le
  rw [blackRoot_iff.1 h.black] at tall
  have log : n ≤ Nat.log 2 (t.toList.length + 1) := Nat.le_log_of_pow_le (by decide) bal.size
  simp only [Bool.toNat_false] at tall
  omega

end Shape

end CodeBackup.ColorTree
