import CodeBackup.Battery.Interval

/-!
# The voltage filter

Runs of the filter. Whatever is read, each filtered voltage is between the one
before and the reading, so none leaves the range of the readings and of the
voltage at the start; and the filter keeps approaching. This is so as long as
the rows that it takes its steps from are narrower than an `int`
(`filter_approaches`); from a wider one it can step anywhere (`filter_leaves`).
-/

namespace CodeBackup.Battery

open C

/-- A call of `calculate_battery_voltage`: `pre_voltage` before it, the reading, and the voltage that it returns. -/
structure Turn where
  before : Int
  reading : Int
  voltage : Int

/-- The turns of a run, and the state at the end. -/
def turns (table : List CapacityParams) : List Action → State → Option (List Turn × State)
  | [], s => some ([], s)
  | .voltage vbat now :: actions, s => do
    let (v, s') ← calculateBatteryVoltage table vbat now s
    let (ts, s'') ← turns table actions s'
    some (⟨s.mybattery.preVoltage, vbat, v⟩ :: ts, s'')
  | .udisk data :: actions, s => turns table actions (udiskBatteryCallback data s)
  | .percent pct :: actions, s => turns table actions (gradientLimitPercent pct s).2

/-- The readings of a run. -/
def readings : List Action → List Int
  | [] => []
  | .voltage vbat _ :: actions => vbat :: readings actions
  | .udisk _ :: actions => readings actions
  | .percent _ :: actions => readings actions

/-- Every step of the run is taken from a row that is narrower than an `int`. -/
def AllNarrow (table : List CapacityParams) : List Action → State → Prop
  | [], _ => True
  | .voltage vbat now :: actions, s =>
    (0 < s.mybattery.preVoltage → NarrowAt table s.mybattery.preVoltage) ∧
      ∀ r, calculateBatteryVoltage table vbat now s = some r → AllNarrow table actions r.2
  | .udisk data :: actions, s => AllNarrow table actions (udiskBatteryCallback data s)
  | .percent pct :: actions, s => AllNarrow table actions (gradientLimitPercent pct s).2

theorem Narrow.allNarrow {table : List CapacityParams} (h : Narrow table) : ∀ (actions : List Action) (s : State),
    AllNarrow table actions s
  | [], _ => trivial
  | .voltage _ _ :: actions, _ => ⟨fun _ => h.narrowAt _, fun r _ => h.allNarrow actions r.2⟩
  | .udisk data :: actions, s => h.allNarrow actions (udiskBatteryCallback data s)
  | .percent pct :: actions, s => h.allNarrow actions (gradientLimitPercent pct s).2

/-- The voltage is between the one before and the reading, and nearer to the reading if there is a step to take. -/
structure Turn.Approaches (table : List CapacityParams) (t : Turn) : Prop where
  between : min t.before t.reading ≤ t.voltage ∧ t.voltage ≤ max t.before t.reading
  first : t.before = 0 → t.voltage = t.reading
  nearer : 0 < t.before → ∀ m, StrideAt table t.before m → 1 ≤ m → 5 ≤ |t.reading - t.before| →
    |t.reading - t.voltage| < |t.reading - t.before|

/-- What a run is bounded by: the readings, and the voltage at the start unless it is 0. -/
structure Bounds (lo hi : Int) (actions : List Action) (s : State) : Prop where
  start : 0 < s.mybattery.preVoltage → lo ≤ s.mybattery.preVoltage ∧ s.mybattery.preVoltage ≤ hi
  reading : ∀ r ∈ readings actions, lo ≤ r ∧ r ≤ hi

section

variable {table : List CapacityParams}

/-- **One call** approaches its reading. -/
theorem calculateBatteryVoltage_approaches (f : Filterable table) {s : State} (sound : Sound s)
    (ge : 0 ≤ s.mybattery.preVoltage) {vbat : Int} (hv : 0 ≤ vbat ∧ vbat < 2 ^ 31)
    (narrow : 0 < s.mybattery.preVoltage → NarrowAt table s.mybattery.preVoltage) (now : Nat) :
    ∃ v s', calculateBatteryVoltage table vbat now s = some (v, s') ∧ s'.mybattery.preVoltage = v ∧ Sound s' ∧
      Turn.Approaches table ⟨s.mybattery.preVoltage, vbat, v⟩ := by
  obtain ⟨step, s', adjusts, ret, battery, sound'⟩ := calculateBatteryVoltage_spec f sound hv narrow now
  refine ⟨_, s', ret, by rw [battery], sound', adjusts.between f ge, ?_, ?_⟩
  · intro zero
    have := adjusts.of_zero zero
    simp only at zero ⊢
    omega
  · intro pos m stride_ one far
    exact adjusts.nearer pos stride_ one far

theorem Sound.udisk {s : State} (h : Sound s) (data : Int) : Sound (udiskBatteryCallback data s) := by
  obtain ⟨mode, interval, e⟩ := udiskBatteryCallback_eq data s
  rw [e]
  exact h.congr rfl rfl rfl

/-- **The voltage filter** approaches its readings and never overshoots, while its rows are narrower than an `int`. Take
any table with a row, with ranges that are not empty and a hysteresis of at least 1, a start at any voltage that is not
negative, with no negative voltage on record, and any readings that are not negative, whatever happens between them.
Then every call returns, each voltage is between the one before and the reading, and nearer to the reading where the row
has a stride and the reading is 5 mV away; and any bounds of the readings, and of the start unless it is 0, are bounds
of the filtered voltages. -/
theorem filter_approaches (f : Filterable table) : ∀ {actions : List Action} {s : State}, Sound s →
    0 ≤ s.mybattery.preVoltage → (∀ r ∈ readings actions, 0 ≤ r ∧ r < 2 ^ 31) → AllNarrow table actions s →
    ∃ ts s', turns table actions s = some (ts, s') ∧ ts.map Turn.reading = readings actions ∧
      (∀ t ∈ ts, t.Approaches table) ∧ ∀ lo hi, Bounds lo hi actions s → ∀ t ∈ ts, lo ≤ t.voltage ∧ t.voltage ≤ hi
  | [], s, _, ge, nonneg, _ => ⟨[], s, rfl, rfl, by simp, by simp⟩
  | .voltage vbat now :: actions, s, sound, ge, nonneg, narrow => by
    have hv := nonneg vbat List.mem_cons_self
    obtain ⟨v, s₁, ret, voltage, sound₁, approaches⟩ :=
      calculateBatteryVoltage_approaches f sound ge hv narrow.1 now
    have between : min s.mybattery.preVoltage vbat ≤ v ∧ v ≤ max s.mybattery.preVoltage vbat := approaches.between
    have nonneg' : ∀ r ∈ readings actions, 0 ≤ r ∧ r < 2 ^ 31 := fun r hr => nonneg r (List.mem_cons_of_mem _ hr)
    obtain ⟨ts, s', run, all, each, bounded⟩ :=
      @filter_approaches f actions s₁ sound₁ (by omega) nonneg' (narrow.2 _ ret)
    refine ⟨⟨s.mybattery.preVoltage, vbat, v⟩ :: ts, s', ?_, ?_, ?_, ?_⟩
    · simp only [turns, ret, run, Option.bind_eq_bind, Option.bind_some]
    · rw [List.map_cons, all, readings]
    · intro t ht
      rcases List.mem_cons.1 ht with rfl | ht
      · exact approaches
      · exact each t ht
    · intro lo hi bounds
      have here := bounds.reading vbat List.mem_cons_self
      have v_ : lo ≤ v ∧ v ≤ hi := by
        rcases eq_or_lt_of_le ge with zero | pos
        · have same : v = vbat := approaches.first zero.symm
          omega
        · have := bounds.start pos
          omega
      intro t ht
      rcases List.mem_cons.1 ht with rfl | ht
      · exact v_
      · exact bounded lo hi ⟨fun _ => voltage ▸ v_, fun r hr => bounds.reading r (List.mem_cons_of_mem _ hr)⟩ t ht
  | .udisk data :: actions, s, sound, ge, nonneg, narrow => by
    obtain ⟨mode, interval, e⟩ := udiskBatteryCallback_eq data s
    have same : (udiskBatteryCallback data s).mybattery.preVoltage = s.mybattery.preVoltage := by rw [e]
    obtain ⟨ts, s', run, all, each, bounded⟩ :=
      @filter_approaches f actions (udiskBatteryCallback data s) (sound.udisk data) (by omega) nonneg narrow
    exact ⟨ts, s', run, all, each, fun lo hi bounds => bounded lo hi ⟨same ▸ bounds.start, bounds.reading⟩⟩
  | .percent pct :: actions, s, sound, ge, nonneg, narrow => by
    obtain ⟨ts, s', run, all, each, bounded⟩ := @filter_approaches f actions (gradientLimitPercent pct s).2
      (sound.congr rfl rfl rfl) ge nonneg narrow
    exact ⟨ts, s', run, all, each, fun lo hi bounds => bounded lo hi ⟨bounds.start, bounds.reading⟩⟩

end

/-- A battery at 3700 mV: two readings, and the charger goes between them. -/
theorem filter_approaches_two : ∃ ts s', turns capParams [.voltage 3800 0, .udisk 0, .voltage 3600 30000]
    { batteryParamsInit with mybattery := ⟨3700, 20, .charging⟩ } = some (ts, s') ∧
    ts.map Turn.reading = [3800, 3600] ∧ (∀ t ∈ ts, t.Approaches capParams) ∧
    ∀ lo hi, Bounds lo hi [.voltage 3800 0, .udisk 0, .voltage 3600 30000]
      { batteryParamsInit with mybattery := ⟨3700, 20, .charging⟩ } → ∀ t ∈ ts, lo ≤ t.voltage ∧ t.voltage ≤ hi := by
  have narrow : Narrow capParams := by decide
  exact @filter_approaches capParams capParams_wellFormed.filterable [.voltage 3800 0, .udisk 0, .voltage 3600 30000]
    { batteryParamsInit with mybattery := ⟨3700, 20, .charging⟩ } (.of_empty (by decide) rfl) (by decide) (by decide)
    (narrow.allNarrow _ _)

/-- **From a row that is too wide** the filter steps away: its stride, as an `int`, is the smallest one. -/
theorem filter_leaves : ¬ ∀ (table : List CapacityParams), Filterable table → Ints table → ∀ (actions : List Action)
    (s : State), Sound s → 0 ≤ s.mybattery.preVoltage → (∀ r ∈ readings actions, 0 ≤ r ∧ r < 2 ^ 31) →
    ∃ ts s', turns table actions s = some (ts, s') ∧ ∀ t ∈ ts, t.Approaches table := by
  intro always
  obtain ⟨ts, s', ret, each⟩ := always [⟨0, -1, 2 ^ 31 - 1, 0, 1⟩] ⟨by decide, by decide, by decide⟩ (by decide)
    [.voltage 10 0] { batteryParamsInit with mybattery := ⟨5, 0, .discharging⟩ } (.of_empty (by decide) rfl) (by decide)
    (by decide)
  cases ret
  have between := (each _ List.mem_cons_self).between
  revert between
  decide

end CodeBackup.Battery
