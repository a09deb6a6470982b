import Mathlib

/-!
# Segments

`Joined p d l` says that a list is made of segments joined by a separator. A
check that goes through the list once, and looks back one place, decides it
(`joined_iff_checked`).
-/

namespace CodeBackup.Grammar

variable {α : Type} {p : α → Prop} {d a b : α} {l : List α}

/-- The list is one or more segments, none empty and each of elements with `p`, joined by single separators `d`. -/
def Joined (p : α → Prop) (d : α) (l : List α) : Prop :=
  ∃ segments : List (List α), segments ≠ [] ∧ (∀ segment ∈ segments, segment ≠ [] ∧ ∀ x ∈ segment, p x) ∧
    l = [d].intercalate segments

theorem not_joined_nil : ¬ Joined p d [] := by
  rintro ⟨segments, some_, each, e⟩
  cases segments with
  | nil => exact some_ rfl
  | cons segment rest =>
    obtain ⟨ne, -⟩ := each segment List.mem_cons_self
    cases segment with
    | nil => exact ne rfl
    | cons x segment =>
      rw [List.intercalate_cons_cons_left] at e
      cases e

theorem joined_singleton (h : p a) : Joined p d [a] :=
  ⟨[[a]], List.cons_ne_nil _ _, by simp [h], List.intercalate_singleton.symm⟩

/-- One more element at the start of the first segment. -/
theorem Joined.cons (h : Joined p d l) (hp : p a) : Joined p d (a :: l) := by
  obtain ⟨segments, some_, each, rfl⟩ := h
  cases segments with
  | nil => exact absurd rfl some_
  | cons segment rest =>
    obtain ⟨⟨-, first⟩, others⟩ := List.forall_mem_cons.1 each
    refine ⟨(a :: segment) :: rest, List.cons_ne_nil _ _, ?_, List.intercalate_cons_cons_left.symm⟩
    rw [List.forall_mem_cons]
    exact ⟨⟨List.cons_ne_nil _ _, List.forall_mem_cons.2 ⟨hp, first⟩⟩, others⟩

/-- A segment of one element before the others. -/
theorem Joined.cons_cons (h : Joined p d l) (hp : p a) : Joined p d (a :: d :: l) := by
  obtain ⟨segments, some_, each, rfl⟩ := h
  refine ⟨[a] :: segments, List.cons_ne_nil _ _, ?_, ?_⟩
  · rw [List.forall_mem_cons]
    exact ⟨⟨List.cons_ne_nil _ _, by simpa using hp⟩, each⟩
  · rw [List.intercalate_cons_of_ne_nil some_]
    rfl

/-- **The first element** is in a segment; then the list ends, or the segment goes on, or the next one begins behind a
separator. -/
theorem joined_cons : Joined p d (a :: l) ↔ p a ∧ (l = [] ∨ Joined p d l ∨ ∃ l', l = d :: l' ∧ Joined p d l') := by
  constructor
  · rintro ⟨segments, some_, each, e⟩
    cases segments with
    | nil => exact absurd rfl some_
    | cons segment rest =>
      obtain ⟨⟨ne, first⟩, others⟩ := List.forall_mem_cons.1 each
      cases segment with
      | nil => exact absurd rfl ne
      | cons x segment =>
        rw [List.intercalate_cons_cons_left] at e
        obtain ⟨rfl, rfl⟩ := List.cons.inj e
        obtain ⟨hp, first⟩ := List.forall_mem_cons.1 first
        refine ⟨hp, ?_⟩
        cases segment with
        | nil =>
          cases rest with
          | nil => exact .inl List.intercalate_singleton
          | cons next rest =>
            refine .inr (.inr ⟨_, List.intercalate_cons_cons, ?_⟩)
            exact ⟨next :: rest, List.cons_ne_nil _ _, others, rfl⟩
        | cons y segment =>
          refine .inr (.inl ⟨(y :: segment) :: rest, List.cons_ne_nil _ _, ?_, rfl⟩)
          rw [List.forall_mem_cons]
          exact ⟨⟨List.cons_ne_nil _ _, first⟩, others⟩
  · rintro ⟨hp, rfl | h | ⟨l', rfl, h⟩⟩
    · exact joined_singleton hp
    · exact h.cons hp
    · exact h.cons_cons hp

/-! ## The check -/

/-- What can be seen in one pass: the list is not empty, does not begin or end with a separator, has no two of them in a
row, and its other elements have `p`. -/
structure Checked (p : α → Prop) (d : α) (l : List α) : Prop where
  ne_nil : l ≠ []
  first : l.head? ≠ some d
  last : l.getLast? ≠ some d
  apart : l.IsChain fun a b => ¬ (a = d ∧ b = d)
  each : ∀ x ∈ l, x = d ∨ p x

theorem ne_separator (sep : ¬ p d) (hp : p a) : a ≠ d := by
  rintro rfl
  exact sep hp

theorem checked_singleton (sep : ¬ p d) (hp : p a) : Checked p d [a] := by
  have ne := ne_separator sep hp
  exact ⟨List.cons_ne_nil _ _, by simpa using ne, by simpa using ne, List.isChain_singleton a, by simp [hp]⟩

theorem Checked.cons (h : Checked p d l) (sep : ¬ p d) (hp : p a) : Checked p d (a :: l) := by
  have ne := ne_separator sep hp
  cases l with
  | nil => exact absurd rfl h.ne_nil
  | cons b l =>
    refine ⟨List.cons_ne_nil _ _, by simpa using ne, by simpa using h.last, ?_, ?_⟩
    · exact List.isChain_cons_cons.2 ⟨fun both => ne both.1, h.apart⟩
    · exact List.forall_mem_cons.2 ⟨.inr hp, h.each⟩

theorem Checked.cons_cons (h : Checked p d l) (sep : ¬ p d) (hp : p a) : Checked p d (a :: d :: l) := by
  have ne := ne_separator sep hp
  cases l with
  | nil => exact absurd rfl h.ne_nil
  | cons b l =>
    refine ⟨List.cons_ne_nil _ _, by simpa using ne, by simpa using h.last, ?_, ?_⟩
    · have start : b ≠ d := by simpa using h.first
      have behind := List.isChain_cons_cons.2 ⟨fun both : d = d ∧ b = d => start both.2, h.apart⟩
      exact List.isChain_cons_cons.2 ⟨fun both => ne both.1, behind⟩
    · exact List.forall_mem_cons.2 ⟨.inr hp, List.forall_mem_cons.2 ⟨.inl rfl, h.each⟩⟩

/-- The rest of a list that passes: at a separator the check starts anew behind it. -/
theorem Checked.rest (h : Checked p d (a :: b :: l)) :
    (b ≠ d ∧ Checked p d (b :: l)) ∨ (b = d ∧ Checked p d l) := by
  have apart := (List.isChain_cons_cons.1 h.apart).2
  have each := (List.forall_mem_cons.1 h.each).2
  by_cases dot : b = d
  · right
    refine ⟨dot, ?_⟩
    cases l with
    | nil => exact absurd (by simp [dot]) h.last
    | cons c l =>
      obtain ⟨two, chain⟩ := List.isChain_cons_cons.1 apart
      refine ⟨List.cons_ne_nil _ _, ?_, by simpa using h.last, chain, (List.forall_mem_cons.1 each).2⟩
      intro start
      exact two ⟨dot, Option.some.inj start⟩
  · left
    exact ⟨dot, List.cons_ne_nil _ _, by simpa using dot, by simpa using h.last, apart, each⟩

/-- The check goes by the same cases as the segments. -/
theorem checked_cons (sep : ¬ p d) :
    Checked p d (a :: l) ↔ p a ∧ (l = [] ∨ Checked p d l ∨ ∃ l', l = d :: l' ∧ Checked p d l') := by
  constructor
  · intro h
    have ne : a ≠ d := by simpa using h.first
    refine ⟨(h.each a List.mem_cons_self).resolve_left ne, ?_⟩
    cases l with
    | nil => exact .inl rfl
    | cons b l =>
      rcases h.rest with ⟨-, rest⟩ | ⟨dot, rest⟩
      · exact .inr (.inl rest)
      · exact .inr (.inr ⟨l, by rw [dot], rest⟩)
  · rintro ⟨hp, rfl | h | ⟨l', rfl, h⟩⟩
    · exact checked_singleton sep hp
    · exact h.cons sep hp
    · exact h.cons_cons sep hp

/-- **The check decides the grammar.** -/
theorem joined_iff_checked (sep : ¬ p d) : ∀ {l : List α}, Joined p d l ↔ Checked p d l
  | [] => ⟨fun h => absurd h not_joined_nil, fun h => absurd rfl h.ne_nil⟩
  | a :: l => by
    have behind : ∀ l', l = d :: l' ∧ Joined p d l' ↔ l = d :: l' ∧ Checked p d l' := by
      intro l'
      constructor
      · rintro ⟨e, h⟩
        exact ⟨e, (joined_iff_checked sep).1 h⟩
      · rintro ⟨e, h⟩
        exact ⟨e, (joined_iff_checked sep).2 h⟩
    rw [joined_cons, checked_cons sep, joined_iff_checked sep, exists_congr behind]
termination_by l => l.length
decreasing_by all_goals simp_all

end CodeBackup.Grammar
