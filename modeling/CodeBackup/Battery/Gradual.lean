import CodeBackup.Battery.Voltage

/-!
# A gradual percentage

What the limiter makes of the percentages that the gauge measures, over runs of
the thread. `gradient_limit_percent` means to move one percent at a time, but
steps on from the measured percentage instead of the reported one. So a report
is `Gradual` exactly if the measured percentage is at most one away on the side
the mode allows (`gradual_iff`), and a run whose turns all find it there stays
gradual, whatever the readings and whenever the charger comes or goes
(`run_gradual`).
-/

namespace CodeBackup.Battery

open C

/-- Something happens: the charger comes or goes, or the thread makes a turn of its loop. -/
inductive Event where
  | udisk (data : Int)
  | detect (adcNum : Int) (now : Nat)

/-- A percentage that is reported, and what was reported before. -/
structure Report where
  mode : Mode
  before : Int
  percent : Int

/-- The report is in range, near the one before, and on the right side of it. -/
structure Report.Gradual (r : Report) : Prop where
  range : 0 ≤ r.percent ∧ r.percent ≤ 100
  near : |r.percent - r.before| ≤ 1
  discharging : r.mode = .discharging → r.percent ≤ r.before
  charging : r.mode = .charging → r.before ≤ r.percent

section

variable (table : List CapacityParams)

/-- The events of a list, in order: the reports, and the state at the end. -/
def run : List Event → State → Option (List Report × State)
  | [], s => some ([], s)
  | .udisk data :: events, s => run events (udiskBatteryCallback data s)
  | .detect adcNum now :: events, s => do
    let (percent, s') ← detect table adcNum now s
    let (reports, s'') ← run events s'
    some (⟨s.mybattery.batteryMode, s.mybattery.prePercent, percent⟩ :: reports, s'')

/-- The percentage of the filtered voltage, which the limiter is given. -/
def measure (adcNum : Int) (now : Nat) (s : State) : Option Int := do
  let (vbat, _) ← calculateBatteryVoltage table (getBatteryVoltage adcNum) now s
  calculateBatteryPercent table vbat

/-- The percentage is at most one away from the last one, on the side that the mode allows. -/
def Gentle (percent : Int) (battery : BatteryInfo) : Prop :=
  (battery.batteryMode = .discharging → battery.prePercent - percent ≤ 1) ∧
  (battery.batteryMode = .charging → percent - battery.prePercent ≤ 1)

instance (percent : Int) (battery : BatteryInfo) : Decidable (Gentle percent battery) :=
  inferInstanceAs (Decidable (_ ∧ _))

/-- Every turn of the run measures a gentle percentage, and none divides `INT_MIN` by -1. -/
def AllGentle : List Event → State → Prop
  | [], _ => True
  | .udisk data :: events, s => AllGentle events (udiskBatteryCallback data s)
  | .detect adcNum now :: events, s =>
    ¬Traps table s ∧ (∀ percent, measure table adcNum now s = some percent → Gentle percent s.mybattery) ∧
      ∀ r, detect table adcNum now s = some r → AllGentle events r.2

end

/-! ## The limiter -/

section

variable {s : State} {pct : Int}

/-- The percentage is on the side that the mode does not allow. -/
abbrev WrongSide (percent : Int) (battery : BatteryInfo) : Prop :=
  (battery.batteryMode = .discharging ∧ battery.prePercent < percent) ∨
    (battery.batteryMode = .charging ∧ battery.prePercent > percent)

/-- On the wrong side, the last percentage is reported again. -/
theorem gradientLimitPercent_wrong (h : WrongSide pct s.mybattery) :
    (gradientLimitPercent pct s).1 = s.mybattery.prePercent := by
  simp [gradientLimitPercent, if_pos h]

/-- On the right side, a percentage that is near is reported, and one that is not is moved further away. -/
theorem gradientLimitPercent_right (h : ¬ WrongSide pct s.mybattery) :
    (gradientLimitPercent pct s).1 =
      if |pct - s.mybattery.prePercent| > 1 then pct + (if pct > s.mybattery.prePercent then 1 else -1) else pct := by
  simp only [gradientLimitPercent, if_neg h]

/-- On the right side, gentle is near. -/
theorem gentle_right (right : ¬ WrongSide pct s.mybattery) :
    Gentle pct s.mybattery ↔ |pct - s.mybattery.prePercent| ≤ 1 := by
  rw [abs_le]
  cases mode : s.mybattery.batteryMode with
  | discharging =>
    have le : pct ≤ s.mybattery.prePercent := by simpa [mode] using right
    simp only [Gentle, mode, reduceCtorEq, forall_const, false_implies, and_true]
    omega
  | charging =>
    have le : s.mybattery.prePercent ≤ pct := by simpa [mode] using right
    simp only [Gentle, mode, reduceCtorEq, forall_const, false_implies, true_and]
    omega

/-- On the right side, a report is gradual if the percentage is near. -/
theorem gradual_right (range : 0 ≤ pct ∧ pct ≤ 100) (right : ¬ WrongSide pct s.mybattery) :
    Report.Gradual ⟨s.mybattery.batteryMode, s.mybattery.prePercent, (gradientLimitPercent pct s).1⟩ ↔
      |pct - s.mybattery.prePercent| ≤ 1 := by
  rw [gradientLimitPercent_right right]
  constructor
  · intro h
    by_contra far
    have near := abs_le.1 h.near
    rw [if_pos (Int.not_le.1 far)] at near
    rw [abs_le] at far
    simp only at near
    split at near
    · omega
    · omega
  · intro near
    rw [if_neg (Int.not_lt.2 near)]
    refine ⟨range, near, ?_, ?_⟩
    · intro mode
      exact Int.not_lt.1 fun lt => right (.inl ⟨mode, lt⟩)
    · intro mode
      exact Int.not_lt.1 fun gt => right (.inr ⟨mode, gt⟩)

/-- **The limiter is gradual exactly if** what it is given is gentle. -/
theorem gradual_iff (before : 0 ≤ s.mybattery.prePercent ∧ s.mybattery.prePercent ≤ 100)
    (range : 0 ≤ pct ∧ pct ≤ 100) :
    Report.Gradual ⟨s.mybattery.batteryMode, s.mybattery.prePercent, (gradientLimitPercent pct s).1⟩ ↔
      Gentle pct s.mybattery := by
  by_cases wrong : WrongSide pct s.mybattery
  · rw [gradientLimitPercent_wrong wrong]
    have gentle : Gentle pct s.mybattery := by
      rcases wrong with ⟨mode, lt⟩ | ⟨mode, gt⟩
      · simp only [Gentle, mode, reduceCtorEq, false_implies, and_true]
        omega
      · simp only [Gentle, mode, reduceCtorEq, false_implies, true_and]
        omega
    exact ⟨fun _ => gentle, fun _ => ⟨before, by simp, fun _ => le_rfl, fun _ => le_rfl⟩⟩
  · rw [gradual_right range wrong, gentle_right wrong]

end

/-! ## One turn -/

/-- What the thread keeps between its turns. -/
def InRange (s : State) : Prop := 0 ≤ s.mybattery.prePercent ∧ s.mybattery.prePercent ≤ 100

/-- **`udisk_battery_callback`** changes the mode and the interval. -/
theorem udiskBatteryCallback_eq (data : Int) (s : State) : ∃ mode interval, udiskBatteryCallback data s =
    { s with mybattery := { s.mybattery with batteryMode := mode }, timeInterval := interval } := by
  unfold udiskBatteryCallback
  by_cases changed : (if data ≠ 0 then Mode.charging else Mode.discharging) ≠ s.mybattery.batteryMode
  · exact ⟨_, _, if_pos changed⟩
  · exact ⟨s.mybattery.batteryMode, s.timeInterval, if_neg changed⟩

theorem InRange.udisk {s : State} (h : InRange s) (data : Int) : InRange (udiskBatteryCallback data s) := by
  obtain ⟨mode, interval, e⟩ := udiskBatteryCallback_eq data s
  rw [e]
  exact h

section

variable {table : List CapacityParams} (wf : WellFormed table)
include wf

/-- **One turn** reports a percentage, and that is gradual exactly if the measured one is gentle. -/
theorem detect_spec (adcNum : Int) (now : Nat) {s : State} (inRange : InRange s) (safe : ¬Traps table s) :
    ∃ pct p s', measure table adcNum now s = some pct ∧ detect table adcNum now s = some (p, s') ∧
      (Report.Gradual ⟨s.mybattery.batteryMode, s.mybattery.prePercent, p⟩ ↔ Gentle pct s.mybattery) ∧
      s'.mybattery.prePercent = p := by
  obtain ⟨step, default, adjust⟩ := adjustVoltage_some wf.filterable (getBatteryVoltage adcNum) s.mybattery.preVoltage
  obtain ⟨s₁, -, voltage, battery, -⟩ := calculateBatteryVoltage_eq wf.filterable now safe adjust
  have percent₁ : s₁.mybattery.prePercent = s.mybattery.prePercent := by rw [battery]
  have mode₁ : s₁.mybattery.batteryMode = s.mybattery.batteryMode := by rw [battery]
  obtain ⟨pct, hpct, range⟩ := wf.calculateBatteryPercent_range (int32 (s.mybattery.preVoltage + step))
  refine ⟨pct, (gradientLimitPercent pct s₁).1, (gradientLimitPercent pct s₁).2, ?_, ?_, ?_, rfl⟩
  · simp [measure, voltage, hpct]
  · simp [detect, voltage, hpct]
  · have iff := @gradual_iff s₁ pct (percent₁ ▸ inRange) range
    rw [percent₁, mode₁] at iff
    rw [iff]
    simp only [Gentle, percent₁, mode₁]

end

/-! ## Starting -/

/-- The digits end where the string does. -/
theorem digits_some : ∀ {l : List UInt8} {n : Nat}, 0 ∈ l → ∃ m, digits l n = some m
  | b :: l, n, ends => by
    unfold digits
    split
    · next digit =>
      have ne : 0 ≠ b := by
        rintro rfl
        exact absurd digit (by decide)
      exact digits_some (List.mem_of_ne_of_mem ne ends)
    · exact ⟨n, rfl⟩

theorem atoi_some {value : List UInt8} (ends : 0 ∈ value) : ∃ p, atoi value = some p := by
  have rest : 0 ∈ value.dropWhile isspace := by
    rw [← List.takeWhile_append_dropWhile (p := isspace) (l := value)] at ends
    rcases List.mem_append.1 ends with space | rest
    · exact absurd (List.mem_takeWhile_imp space) (by decide)
    · exact rest
  unfold atoi
  split
  · next none => rw [none] at rest; cases rest
  · next b l some =>
    rw [some] at rest
    have digits_ : ∀ {l : List UInt8} (f : Nat → Int), 0 ∈ l → ∃ p, (digits l 0).map f = Option.some p := by
      intro l f ends
      obtain ⟨m, hm⟩ := digits_some (n := 0) ends
      exact ⟨f m, by rw [hm]; rfl⟩
    split
    · next minus => exact digits_ _ (List.mem_of_ne_of_mem (by rw [minus]; decide) rest)
    · split
      · next plus => exact digits_ _ (List.mem_of_ne_of_mem (by rw [plus]; decide) rest)
      · exact digits_ _ rest

theorem isInt_getBatteryVoltage (adcNum : Int) : IsInt (getBatteryVoltage adcNum) := (isInt_int32 _).tdiv (by decide)

theorem restoreLoop_some (percent : Int) : ∀ {rows : List CapacityParams}, (∀ row ∈ rows, 1 ≤ row.hysteresis) →
    ∃ found, restoreLoop percent rows = some found ∧ ∀ voltage, found = some voltage → IsInt voltage
  | [], _ => ⟨none, rfl, by simp⟩
  | [_], _ => ⟨none, rfl, by simp⟩
  | row :: next :: rows, hys => by
    have pos : 0 < row.hysteresis := hys row List.mem_cons_self
    rw [restoreLoop]
    split
    · simp only [mod_of_pos pos, div_of_pos pos, Option.bind_eq_bind, Option.bind_some]
      refine ⟨_, rfl, ?_⟩
      rintro voltage ⟨⟩
      exact isInt_int32 _
    · exact restoreLoop_some percent fun r h => hys r (List.mem_cons_of_mem _ h)

/-- What the thread has restored before its loop. -/
structure Restored (value : List UInt8) (s s' : State) : Prop where
  percent : InRange s'
  voltage : IsInt s.mybattery.preVoltage → IsInt s'.mybattery.preVoltage
  mode : s'.mybattery.batteryMode = s.mybattery.batteryMode
  index : s'.tableIndex = s.tableIndex
  interval : s'.timeInterval = s.timeInterval
  taken : ∀ p, atoi value = some p → 1 ≤ p → p ≤ 100 → s'.mybattery.prePercent = p

section

variable {table : List CapacityParams} (wf : WellFormed table)
include wf

/-- **`get_battery_before_poweroff`** returns, and a percentage that can be shown is taken over. -/
theorem getBatteryBeforePoweroff_spec {value : List UInt8} (ends : 0 ∈ value) (adcNum : Int) (s : State) :
    ∃ s', getBatteryBeforePoweroff table value adcNum s = some s' ∧ Restored value s s' := by
  have rows := wf.rows
  have last : table.length - 1 < table.length := by omega
  obtain ⟨p, reads⟩ := atoi_some ends
  have same : ∀ {q : Int}, atoi value = some q → p = q := fun h => Option.some.inj (reads.symm.trans h)
  simp only [getBatteryBeforePoweroff, reads, Option.bind_eq_bind, Option.bind_some]
  split
  · next out =>
    obtain ⟨pct, hpct, range⟩ := wf.calculateBatteryPercent_range (getBatteryVoltage adcNum)
    rw [hpct]
    refine ⟨_, rfl, range, fun _ => isInt_getBatteryVoltage adcNum, rfl, rfl, rfl, ?_⟩
    intro q hq ge le
    have := same hq
    omega
  · next inside =>
    have range : 0 ≤ p ∧ p ≤ 100 := by omega
    have text : str value = some (.ofBytes value) := if_pos ends
    have limits : ∀ {i : Nat} (hi : i < table.length), IsInt table[i].min ∧ IsInt table[i].max :=
      fun hi => wf.ints _ (List.getElem_mem hi)
    simp only [text, Option.bind_some]
    split
    · rw [List.getElem?_eq_getElem rows]
      exact ⟨_, rfl, range, fun _ => (limits rows).2, rfl, rfl, rfl, fun q hq _ _ => same hq⟩
    · split
      · rw [List.getElem?_eq_getElem last]
        exact ⟨_, rfl, range, fun _ => (limits last).1, rfl, rfl, rfl, fun q hq _ _ => same hq⟩
      · obtain ⟨found, loop, whole⟩ := restoreLoop_some p wf.hysteresis
        rw [loop]
        cases found with
        | none => exact ⟨_, rfl, range, fun h => h, rfl, rfl, rfl, fun q hq _ _ => same hq⟩
        | some voltage => exact ⟨_, rfl, range, fun _ => whole voltage rfl, rfl, rfl, rfl, fun q hq _ _ => same hq⟩

/-! ## Runs -/

/-- **A run is gradual** if all its turns are gentle. -/
theorem run_of_inRange : ∀ {events : List Event} {s : State}, InRange s → AllGentle table events s →
    ∃ reports s', run table events s = some (reports, s') ∧ ∀ r ∈ reports, r.Gradual
  | [], s, _, _ => ⟨[], s, rfl, by simp⟩
  | .udisk data :: events, s, inRange, gentle =>
    run_of_inRange (s := udiskBatteryCallback data s) (inRange.udisk data) gentle
  | .detect adcNum now :: events, s, inRange, gentle => by
    obtain ⟨safe, gentle, later⟩ := gentle
    obtain ⟨pct, p, s₁, measured, detected, gradual, percent⟩ := detect_spec wf adcNum now inRange safe
    have here := gradual.2 (gentle pct measured)
    have inRange₁ : InRange s₁ := by rw [InRange, percent]; exact here.range
    obtain ⟨reports, s', rest, all⟩ := run_of_inRange inRange₁ (later _ detected)
    refine ⟨⟨s.mybattery.batteryMode, s.mybattery.prePercent, p⟩ :: reports, s', ?_, ?_⟩
    · simp only [run, detected, Option.bind_eq_bind, Option.bind_some, rest]
    · intro r hr
      rcases List.mem_cons.1 hr with rfl | hr
      · exact here
      · exact all r hr

end

/-- **The reported percentage is gradual.** Take any well-formed table, any stored value, and any sequence of readings
and charger events. The thread starts, and if every turn measures a percentage that is at most one below the last
reported one while discharging, and at most one above it while charging, and no interval divides `INT_MIN` by -1, the
run returns and all its reports are gradual. -/
theorem run_gradual {table : List CapacityParams} (wf : WellFormed table) {value : List UInt8} (ends : 0 ∈ value)
    (adcNum : Int) : ∃ s, getBatteryBeforePoweroff table value adcNum batteryParamsInit = some s ∧
      ∀ events, AllGentle table events s →
        ∃ reports s', run table events s = some (reports, s') ∧ ∀ r ∈ reports, r.Gradual := by
  obtain ⟨s, start, restored⟩ := getBatteryBeforePoweroff_spec wf ends adcNum batteryParamsInit
  exact ⟨s, start, fun events gentle => run_of_inRange wf restored.percent gentle⟩

/-- A gauge at 100 percent falls to 99, and the charger comes. -/
theorem run_gradual_charger : ∃ s, getBatteryBeforePoweroff capParams [49, 48, 48, 0] 0 batteryParamsInit = some s ∧
    ∃ reports s', run capParams [.detect 1022 0, .udisk 1, .detect 1030 300000] s = some (reports, s') ∧
      ∀ r ∈ reports, r.Gradual := by
  obtain ⟨s, start, all⟩ := run_gradual capParams_wellFormed (show (0 : UInt8) ∈ [49, 48, 48, 0] by decide) 0
  refine ⟨s, start, all _ ?_⟩
  cases start
  refine ⟨fun trap => absurd trap.1 (by decide), fun percent h => ?_, fun r h => ?_⟩
  · cases h
    decide
  · cases h
    refine ⟨fun trap => absurd trap.1 (by decide), fun percent h => ?_, fun _ _ => trivial⟩
    cases h
    decide

/-- **A jump by more than one percent** is made larger: from 100, a measured 91 is reported as 90. -/
theorem run_jumps : ¬ ∀ (table : List CapacityParams), WellFormed table → ∀ (value : List UInt8) (adcNum : Int) (s : State),
    getBatteryBeforePoweroff table value adcNum batteryParamsInit = some s → ∀ (events : List Event),
      ∃ reports s', run table events s = some (reports, s') ∧ ∀ r ∈ reports, r.Gradual := by
  intro always
  obtain ⟨reports, s', ret, gradual⟩ :=
    always capParams capParams_wellFormed [49, 48, 48, 0] 0 _ rfl [.detect 0 0]
  cases ret
  have near := (gradual _ List.mem_cons_self).near
  revert near
  decide

end CodeBackup.Battery
