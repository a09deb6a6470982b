import Mathlib

/-!
# Schedules that end

Every schedule of a machine ends if each step lowers a rank, from the states
with an invariant, and where no step is possible everything is done.
-/

namespace CodeBackup.Conc

open Relation

variable {σ α : Type}

/-- No schedule from `s` goes on for ever, and where one cannot go on everything is done. -/
structure Ends (step : σ → σ → Prop) (done : σ → Prop) (s : σ) : Prop where
  finite : Acc (fun b a => step a b) s
  complete : ∀ s', ReflTransGen step s s' → (∀ s'', ¬ step s' s'') → done s'

variable {step : σ → σ → Prop} {done I : σ → Prop} {s : σ}

/-- **The rule of a rank** that every step lowers. -/
theorem ends_of_rank [Preorder α] [WellFoundedLT α] (rank : σ → α)
    (keeps : ∀ {s s'}, I s → step s s' → I s' ∧ rank s' < rank s)
    (stuck : ∀ {s}, I s → (∀ s', ¬ step s s') → done s) (start : I s) : Ends step done s := by
  constructor
  · generalize hn : rank s = n
    induction n using WellFoundedLT.induction generalizing s with
    | ind n ih =>
      refine ⟨s, fun s' move => ?_⟩
      obtain ⟨next, lower⟩ := keeps start move
      exact ih (rank s') (hn ▸ lower) next rfl
  · intro s' reached last
    have inv : I s' := by
      clear last
      induction reached with
      | refl => exact start
      | tail _ move ih => exact (keeps ih move).1
    exact stuck inv last

end CodeBackup.Conc
