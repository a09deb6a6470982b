import CodeBackup.Battery.Restore
import CodeBackup.Battery.Thread

/-!
# The gauge over power cycles

`voltage_detect_thread` records each percentage that is not negative, and begins
with the one that was recorded last. Whatever is stored, every session begins
and goes on, with a table and readings that let the thread go on. While the
charger does not come, the recorded percentages fall from one session to the
next, until a 0 is recorded: that is taken for no record, and the voltage is
measured anew (`power_cycles_fall`).
-/

namespace CodeBackup.Battery

/-- The percentages that are recorded. -/
def recorded : List Report → List Int
  | [] => []
  | r :: rs => if r.percent ≥ 0 then r.percent :: recorded rs else recorded rs

/-- The data that is stored: `ds_write` puts a record in place of the one before. -/
def store : List Report → List UInt8 → List UInt8
  | [], data => data
  | r :: rs, data => store rs (if r.percent ≥ 0 then batteryRecord r.percent.toNat else data)

/-- From one power-on to the next power-off: the first reading, and what happens. -/
structure Session where
  adcNum : Int
  events : List Event

/-- The charger does not come. -/
def Event.Unplugged : Event → Prop
  | .udisk data => data = 0
  | .detect _ _ => True

instance : ∀ e : Event, Decidable e.Unplugged
  | .udisk data => inferInstanceAs (Decidable (data = 0))
  | .detect _ _ => isTrue trivial

section

variable (table : List CapacityParams)

/-- The thread in one session: its reports, and the data that it leaves. -/
def session (c : Session) (data : List UInt8) : Option (List Report × List UInt8) := do
  let s ← getBatteryBeforePoweroff table (dsRead data) c.adcNum batteryParamsInit
  let (reports, _) ← run table c.events s
  some (reports, store reports data)

/-- One session after the other. -/
def sessions : List Session → List UInt8 → Option (List Report × List UInt8)
  | [], data => some ([], data)
  | c :: cs, data => do
    let (reports, data) ← session table c data
    let (later, data) ← sessions cs data
    some (reports ++ later, data)

end

/-! ## The record -/

theorem recorded_append (l l' : List Report) : recorded (l ++ l') = recorded l ++ recorded l' := by
  induction l with
  | nil => rfl
  | cons r l ih =>
    simp only [List.cons_append, recorded, ih]
    split <;> rfl

theorem recorded_sublist (l : List Report) : (recorded l).Sublist (l.map Report.percent) := by
  induction l with
  | nil => exact List.Sublist.refl _
  | cons r l ih =>
    simp only [recorded, List.map_cons]
    split
    · exact ih.cons_cons _
    · exact ih.cons _

theorem recorded_nonneg {l : List Report} {p : Int} (h : p ∈ recorded l) : 0 ≤ p := by
  induction l with
  | nil => cases h
  | cons r l ih =>
    simp only [recorded] at h
    split at h
    · rename_i ge
      rcases List.mem_cons.1 h with rfl | h
      · exact ge
      · exact ih h
    · exact ih h

/-- A report can be one out of range. -/
theorem stored_record {p : Int} (ge : 0 ≤ p) (le : p ≤ 101) : Stored (dsRead (batteryRecord p.toNat)) p := by
  obtain ⟨n, rfl⟩ := Int.eq_ofNat_of_zero_le ge
  rw [Int.toNat_natCast]
  rcases Nat.lt_or_eq_of_le (show n ≤ 101 by omega) with lt | rfl
  · exact stored_batteryRecord (by omega)
  · exact ⟨by decide, by decide⟩

/-- **What is stored** is the last percentage that was recorded. -/
theorem store_stored : ∀ {reports : List Report} {data : List UInt8} {p : Int}, (∀ r ∈ reports, r.Honest) →
    Stored (dsRead data) p → Stored (dsRead (store reports data)) ((recorded reports).getLastD p)
  | [], _, _, _, stored => stored
  | r :: rs, data, p, honest, stored => by
    have rest : ∀ r ∈ rs, r.Honest := fun r' h => honest r' (List.mem_cons_of_mem _ h)
    simp only [store, recorded]
    split
    · next ge =>
      rw [List.getLastD_cons]
      exact store_stored rest (stored_record ge (honest r List.mem_cons_self).range.2)
    · exact store_stored rest stored

/-! ## One session -/

section

variable {table : List CapacityParams} (wf : WellFormed table) (narrow : Narrow table)
include wf narrow

/-- Without the charger, the reports of a run fall. -/
theorem run_falls : ∀ {events : List Event} {s s' : State} {reports : List Report}, (∀ e ∈ events, e.Readable) →
    (∀ e ∈ events, e.Unplugged) → s.mybattery.batteryMode = .discharging → GoesOn s →
    run table events s = some (reports, s') →
    (s.mybattery.prePercent :: reports.map Report.percent).IsChain (· ≥ ·)
  | [], s, s', reports, _, _, _, _, ret => by
    cases ret
    exact .singleton _
  | .udisk data :: events, s, s', reports, readable, quiet, mode, h, ret => by
    obtain rfl : data = 0 := quiet _ List.mem_cons_self
    have same : udiskBatteryCallback 0 s = s := if_neg (by simp [mode])
    rw [run, same] at ret
    exact run_falls (fun e he => readable e (List.mem_cons_of_mem _ he))
      (fun e he => quiet e (List.mem_cons_of_mem _ he)) mode h ret
  | .detect adcNum now :: events, s, s', reports, readable, quiet, mode, h, ret => by
    obtain ⟨step, pct, s₁, -, -, ge, le, detected, battery, sound, timed⟩ :=
      detect_eq wf narrow (readable _ List.mem_cons_self) now h.sound
    have honest := limitReport_honest s.mybattery.batteryMode h.percent ⟨ge, le⟩
    rw [run] at ret
    simp only [detected, Option.bind_eq_bind, Option.bind_some, Option.bind_eq_some_iff] at ret
    obtain ⟨⟨later, s₂⟩, rest, e⟩ := ret
    cases e
    have h₁ : GoesOn s₁ := ⟨timed h.timed, by rw [battery]; exact honest.range, sound⟩
    have falls := run_falls (fun e he => readable e (List.mem_cons_of_mem _ he))
      (fun e he => quiet e (List.mem_cons_of_mem _ he)) (by rw [battery]; exact mode) h₁ rest
    rw [battery] at falls
    exact List.isChain_cons_cons.2 ⟨honest.discharging mode, falls⟩

/-- **One session** begins and goes on. Without the charger, what it records falls from the record that it begins with,
if that can be shown. -/
theorem session_spec {c : Session} (readable : ∀ e ∈ c.events, e.Readable) {data : List UInt8} {p : Int}
    (stored : Stored (dsRead data) p) :
    ∃ reports data', session table c data = some (reports, data') ∧ (∀ r ∈ reports, r.Honest) ∧
      Stored (dsRead data') ((recorded reports).getLastD p) ∧
      ((∀ e ∈ c.events, e.Unplugged) → (recorded reports).Pairwise (· ≥ ·) ∧ (∀ q ∈ recorded reports, q ≤ 100) ∧
        (1 ≤ p → p ≤ 100 → ∀ q ∈ recorded reports, q ≤ p)) := by
  obtain ⟨s, start, restored⟩ := getBatteryBeforePoweroff_spec wf stored.ends c.adcNum batteryParamsInit
  have h : GoesOn s := .start restored
  obtain ⟨reports, s', ret, honest, -⟩ := run_of_goesOn wf narrow readable h
  refine ⟨reports, store reports data, ?_, honest, store_stored honest stored, fun quiet => ?_⟩
  · simp only [session, start, ret, Option.bind_eq_bind, Option.bind_some]
  · have falls := List.isChain_iff_pairwise.1 (run_falls wf narrow readable quiet restored.mode h ret)
    obtain ⟨first, rest⟩ := List.pairwise_cons.1 (falls.sublist ((recorded_sublist reports).cons_cons _))
    refine ⟨rest, fun q hq => ?_, fun ge le q hq => ?_⟩
    · exact le_trans (first q hq) restored.percent.2
    · exact (first q hq).trans_eq (restored.taken p stored.reads ge le)

/-! ## Power cycles -/

theorem sessions_spec : ∀ {cs : List Session} {data : List UInt8} {p : Int},
    (∀ c ∈ cs, ∀ e ∈ c.events, e.Readable) → Stored (dsRead data) p →
    ∃ reports data', sessions table cs data = some (reports, data') ∧ (∀ r ∈ reports, r.Honest) ∧
      ((∀ c ∈ cs, ∀ e ∈ c.events, e.Unplugged) → (∀ q ∈ recorded reports, q ≠ 0) → p ≤ 100 →
        (recorded reports).Pairwise (· ≥ ·) ∧ (1 ≤ p → ∀ q ∈ recorded reports, q ≤ p))
  | [], data, p, _, _ => ⟨[], data, rfl, by simp, fun _ _ _ => ⟨.nil, fun _ q hq => by cases hq⟩⟩
  | c :: cs, data, p, readable, stored => by
    obtain ⟨reports, data₁, ret, honest, stored₁, quiet₁⟩ :=
      session_spec wf narrow (readable c List.mem_cons_self) stored
    obtain ⟨later, data', rest, honest', quiet'⟩ :=
      sessions_spec (fun c' hc => readable c' (List.mem_cons_of_mem _ hc)) stored₁
    refine ⟨reports ++ later, data', ?_, ?_, fun quiet nonzero le => ?_⟩
    · simp only [sessions, ret, rest, Option.bind_eq_bind, Option.bind_some]
    · intro r hr
      rcases List.mem_append.1 hr with hr | hr
      · exact honest r hr
      · exact honest' r hr
    · obtain ⟨falls, below, from_⟩ := quiet₁ (quiet c List.mem_cons_self)
      rw [recorded_append] at nonzero ⊢
      have later_ := quiet' (fun c' hc => quiet c' (List.mem_cons_of_mem _ hc))
        fun q hq => nonzero q (List.mem_append_right _ hq)
      rcases List.eq_nil_or_concat (recorded reports) with none | ⟨init, q, some⟩
      · rw [none] at later_ ⊢
        exact later_ le
      · -- the next session begins with the last record of this one, which is not 0
        rw [List.concat_eq_append] at some
        rw [some] at later_ falls below from_ nonzero ⊢
        have mem : q ∈ init ++ [q] := List.mem_append_right _ List.mem_cons_self
        have one : 1 ≤ q := by
          have ge : 0 ≤ q := recorded_nonneg (show q ∈ recorded reports from some ▸ mem)
          have ne := nonzero q (List.mem_append_left _ mem)
          omega
        rw [List.getLastD_concat] at later_
        obtain ⟨falls', from'⟩ := later_ (below q mem)
        have last : ∀ a ∈ init ++ [q], q ≤ a := by
          intro a ha
          rcases List.mem_append.1 ha with ha | ha
          · exact (List.pairwise_append.1 falls).2.2 a ha q List.mem_cons_self
          · rw [List.mem_singleton.1 ha]
        refine ⟨List.pairwise_append.2 ⟨falls, falls', fun a ha b hb => (from' one b hb).trans (last a ha)⟩, ?_⟩
        intro ge b hb
        rcases List.mem_append.1 hb with hb | hb
        · exact from_ ge le b hb
        · exact (from' one b hb).trans (from_ ge le q mem)

end

end CodeBackup.Battery
