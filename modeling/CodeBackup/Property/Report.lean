import CodeBackup.Property.Exhaust

/-!
# What `set_property` reports

`set_property` drops the result of `__system_property_set`, which in turn drops
that of `put`: for a legal name it returns 0 whatever happened. So its report
is right exactly when the call does bind the key, or when there was nothing to
do (`setProperty_reports`).
-/

namespace CodeBackup.Property

open C C.Outcome Rbtree ColorTree CStr Binding Run

/-- The states that a process reaches by `load_all_props` and calls of `set_property`. -/
inductive Reachable : World → Prop where
  | load {files : Files} {depth : Nat} {w : World} : loadAllProps depth ⟨.fresh, files⟩ = .ok w → Reachable w
  | set {w w' : World} {key val : CStr} {r : Int} : Reachable w →
      setProperty key val w = .ok (r, w') → Reachable w'

theorem Reachable.good {w : World} (h : Reachable w) : Good w.mem := by
  induction h with
  | load run => exact (loadAllProps_good vacant_fresh.good run).1
  | set _ run ih => exact (setProperty_good ih run).1

/-- The result of a call tells what it did: 0 if the key has the value now, another code if the
bindings and `build.prop` are as they were. -/
def Reported (key val : CStr) (r : Int) (w w' : World) : Prop :=
  (r = 0 → getVal key w'.mem = .ok (some val)) ∧
  (r ≠ 0 → (∀ k, getVal k w'.mem = getVal k w.mem) ∧
    w'.files propPathSystemBuild = w.files propPathSystemBuild)

/-- The key has the value already, or the value is short, the key is not a bound `ro.` key, and
the `put` does not exhaust the pool. -/
def Writes (key val : CStr) (m : Mem) : Prop :=
  m.value key = some val ∨
    (val.strlen < propValueMax ∧ ¬ (startsWith key roPrefix ∧ (m.value key).isSome) ∧ exhausts key val m = false)

/-- **The report is right exactly when the call writes.** -/
theorem setProperty_reports {w w' : World} (reach : Reachable w) {key val : CStr} (legal : legalName key)
    {r : Int} (ret : setProperty key val w = .ok (r, w')) : Reported key val r w w' ↔ Writes key val w.mem := by
  have good := reach.good
  rcases setProperty_of_run good ret with ⟨illegal, -, -⟩ | ⟨-, refused, rfl, rfl⟩ | ⟨-, accepted, rfl, spec, -⟩
  · rw [illegal] at legal
    cases legal
  · have never : ¬ (val.strlen < propValueMax ∧ ¬ (startsWith key roPrefix ∧ (w'.mem.value key).isSome)) :=
      fun h => by rw [refuses_eq_false.2 h] at refused; cases refused
    constructor
    · intro h
      exact .inl (good.value_of_getVal (h.1 rfl))
    · rintro (h | ⟨short, ro, -⟩)
      · exact ⟨fun _ => by rw [good.getVal, h], fun h => absurd rfl h⟩
      · exact absurd ⟨short, ro⟩ never
  · obtain ⟨short, ro⟩ := refuses_eq_false.1 accepted
    have value := spec.value key
    simp only [Reported, spec.good.getVal, Writes, value]
    cases full : exhausts key val w.mem <;> simp [short, ro]

/-- A bound key gets a longer value. -/
theorem setProperty_reports_longer : ∃ w r w', getVal fillKey w.mem = .ok (some (ones 1)) ∧
    setProperty fillKey (ones 2) w = .ok (r, w') ∧ Writes fillKey (ones 2) w.mem ∧
    (Reported fillKey (ones 2) r w w' ↔ Writes fillKey (ones 2) w.mem) := by
  obtain ⟨w₁, set₁, h₁⟩ := filled_zero.step (by decide)
  obtain ⟨w₂, set₂, h₂⟩ := h₁.step (by decide)
  obtain ⟨w₃, set₃, -⟩ := h₂.step (by decide)
  have reach : Reachable w₂ := .set (.set (.load (loadAllProps_emptyBuild .fresh)) set₁) set₂
  have stays : exhausts fillKey (ones 2) w₂.mem = false := (h₂.grown.put (by decide) (by decide)).1
  have notRo : startsWith fillKey roPrefix = false := by decide
  refine ⟨w₂, 0, w₃, ?_, set₃, .inr ⟨by decide, by simp [notRo], stays⟩, setProperty_reports reach (by decide) set₃⟩
  rw [reach.good.getVal, h₂.value]
  rfl

/-- **A value of `PROP_VALUE_MAX` bytes** is dropped, and the call returns 0. -/
theorem setProperty_drops_long_value : ¬ ∀ (w w' : World) (key val : CStr) (r : Int), Reachable w →
    legalName key → setProperty key val w = .ok (r, w') → Reported key val r w w' := by
  intro always
  have loaded : Reachable ⟨memoryInit .fresh, emptyBuild⟩ := .load (loadAllProps_emptyBuild .fresh)
  have ret : setProperty fillKey (ones 92) ⟨memoryInit .fresh, emptyBuild⟩ =
      .ok (0, ⟨memoryInit .fresh, emptyBuild⟩) := by
    rw [setProperty_eq loaded.good (by decide), if_pos (by simp [refuses, propValueMax])]
  have bound := (always _ _ fillKey (ones 92) 0 loaded (by decide) ret).1 rfl
  rw [loaded.good.getVal] at bound
  simp [vacant_fresh.value] at bound

end CodeBackup.Property
