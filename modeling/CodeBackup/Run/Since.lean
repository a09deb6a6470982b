import Mathlib

/-!
# What has happened since

`Since p q l` says of a history `l` that something with `p` has happened in it,
and nothing with `q` after that.
-/

namespace CodeBackup.Run

variable {α : Type}

/-- An entry has `p`, and no later one has `q`. -/
def Since (p q : α → Prop) (l : List α) : Prop := ∃ x a y, l = x ++ a :: y ∧ p a ∧ ∀ b ∈ y, ¬ q b

variable {p q : α → Prop} {l : List α} {c : α}

theorem not_since_nil : ¬ Since p q [] := by
  rintro ⟨x, a, y, h, -⟩
  exact absurd h (by simp)

/-- The last entry decides, or leaves the earlier ones as they were. -/
theorem since_concat : Since p q (l ++ [c]) ↔ p c ∨ (¬ q c ∧ Since p q l) := by
  constructor
  · rintro ⟨x, a, y, h, ha, hy⟩
    rcases y.eq_nil_or_concat with rfl | ⟨y, b, rfl⟩
    · obtain ⟨-, h⟩ := List.append_inj' h rfl
      cases h
      exact .inl ha
    · rw [List.concat_eq_append, ← List.cons_append, ← List.append_assoc] at h
      obtain ⟨rfl, last⟩ := List.append_inj' h rfl
      obtain rfl : c = b := List.singleton_inj.1 last
      exact .inr ⟨hy c (by simp), x, a, y, rfl, ha, fun b hb => hy b (by simp [hb])⟩
  · rintro (hc | ⟨hc, x, a, y, rfl, ha, hy⟩)
    · exact ⟨l, c, [], rfl, hc, fun _ h => nomatch h⟩
    · refine ⟨x, a, y ++ [c], by simp, ha, ?_⟩
      intro b hb
      rcases List.mem_append.1 hb with hb | hb
      · exact hy b hb
      · obtain rfl := List.mem_singleton.1 hb
        exact hc

end CodeBackup.Run
