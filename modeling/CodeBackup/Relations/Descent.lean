import Mathlib

/-!
# Cycles and descent

A relation with finitely many sources has no endless descent from a point
exactly if no point that is reached from there lies on a cycle.
-/

namespace CodeBackup.Relations

open Relation

variable {α : Type} {r : α → α → Prop}

/-- Every descent along `r` from `a` ends. -/
def Ends (r : α → α → Prop) (a : α) : Prop := Acc (fun y x => r x y) a

/-- No point that is reached from `a` reaches itself. -/
def Acyclic (r : α → α → Prop) (a : α) : Prop := ∀ b, ReflTransGen r a b → ¬ TransGen r b b

theorem Ends.intro {a : α} (h : ∀ b, r a b → Ends r b) : Ends r a := Acc.intro a h

theorem Ends.step {a b : α} (h : Ends r a) (hr : r a b) : Ends r b := h.inv hr

theorem Ends.reach {a b : α} (h : Ends r a) (hr : ReflTransGen r a b) : Ends r b := by
  induction hr with
  | refl => exact h
  | tail _ hr ih => exact ih.step hr

theorem Acyclic.step {a b : α} (h : Acyclic r a) (hr : r a b) : Acyclic r b := fun c hc => h c (.head hr hc)

/-- A descent that ends does not come back to its start. -/
theorem Ends.not_cycle {a : α} (h : Ends r a) : ¬ TransGen r a a := by
  unfold Ends at h
  induction h with
  | intro a _ ih =>
    intro cycle
    obtain ⟨b, hr, back⟩ := TransGen.head'_iff.1 cycle
    exact ih b hr (TransGen.tail' back hr)

/-- Without cycles, each step of a descent leaves a source behind. -/
theorem ends_of_acyclic (finite : {a | ∃ b, r a b}.Finite) {a : α} (h : Acyclic r a) : Ends r a := by
  -- by induction on the number of sources that are still to be reached
  have sub : ∀ x, {y | (∃ z, r y z) ∧ ReflTransGen r x y} ⊆ {y | ∃ z, r y z} := fun _ _ hy => hy.1
  induction hn : {y | (∃ z, r y z) ∧ ReflTransGen r a y}.ncard using Nat.strong_induction_on generalizing a with
  | h n ih =>
    refine .intro fun b hr => ih _ ?_ (h.step hr) rfl
    rw [← hn]
    refine Set.ncard_lt_ncard ⟨fun y hy => ⟨hy.1, .head hr hy.2⟩, fun back => ?_⟩ (finite.subset (sub a))
    have here : a ∈ {y | (∃ z, r y z) ∧ ReflTransGen r b y} := back ⟨⟨b, hr⟩, .refl⟩
    exact h a .refl (TransGen.head' hr here.2)

/-- **Descent ends exactly if no cycle is reached.** -/
theorem ends_iff_acyclic (finite : {a | ∃ b, r a b}.Finite) (a : α) : Ends r a ↔ Acyclic r a :=
  ⟨fun h _ hb => (h.reach hb).not_cycle, ends_of_acyclic finite⟩

end CodeBackup.Relations
