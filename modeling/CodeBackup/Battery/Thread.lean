import CodeBackup.Battery.Filter

/-!
# The thread over whole runs

Whatever is stored and whenever the charger comes or goes, the thread goes on:
no turn divides by zero, or `INT_MIN` by -1, or leaves the tables, the interval
of the timer stays in its range, and the reports move in the direction that the
mode allows (`thread_goes_on`). For this no row is as wide as an `int`, and no
voltage that is read is negative; an ADC reading above 1612224 can be, because
its product overflows.
-/

namespace CodeBackup.Battery

/-- The voltage that is read is not negative. -/
def Event.Readable : Event → Prop
  | .udisk _ => True
  | .detect adcNum _ => 0 ≤ getBatteryVoltage adcNum

instance : ∀ e : Event, Decidable e.Readable
  | .udisk _ => isTrue trivial
  | .detect adcNum _ => inferInstanceAs (Decidable (0 ≤ getBatteryVoltage adcNum))

/-- The readings whose product does not overflow. -/
theorem getBatteryVoltage_nonneg {adcNum : Int} (ge : 0 ≤ adcNum) (le : adcNum ≤ 1612224) :
    0 ≤ getBatteryVoltage adcNum := by
  have product : C.IsInt (adcNum * (batdeteToGndRes + batdeteToVbatRes)) := by
    unfold C.IsInt batdeteToGndRes batdeteToVbatRes
    omega
  rw [getBatteryVoltage, product.int32_eq]
  exact Int.tdiv_nonneg (mul_nonneg ge (by decide)) (by decide)

section

variable {table : List CapacityParams} {s s' : State}

/-! ## The timer and the records -/

theorem defaultInterval_range : 0 < defaultInterval ∧ defaultInterval ≤ maxInterval := by decide

theorem recordInterval_range {tv : Fin recordCount → TvTable} {t : Nat} (h : recordInterval table tv = some t) :
    0 < t ∧ t ≤ maxInterval := by
  have default := defaultInterval_range
  simp only [recordInterval] at h
  split at h
  · simp only [Option.bind_eq_bind, Option.bind_eq_some_iff, Option.some.injEq] at h
    obtain ⟨step, -, interval, -, rfl⟩ := h
    split
    · exact default
    · next ne =>
      split
      · exact ⟨Nat.lt_of_lt_of_le default.1 default.2, le_rfl⟩
      · next le => exact ⟨Nat.pos_of_ne_zero ne, Nat.le_of_not_lt le⟩
  · cases h
    exact ⟨Nat.lt_of_lt_of_le default.1 default.2, le_rfl⟩

/-- The timer is set to an interval, and the records are within their table. -/
structure Timed (s : State) : Prop where
  pos : 0 < s.timeInterval
  le : s.timeInterval ≤ maxInterval
  index : s.tableIndex ≤ recordCount

theorem Timed.restart (h : Timed s) (run : restartRecords table s = some s') : Timed s' := by
  unfold restartRecords at run
  split at run
  · simp only [Option.bind_eq_bind, Option.bind_eq_some_iff, Option.some.injEq] at run
    obtain ⟨t, interval, rfl⟩ := run
    exact ⟨(recordInterval_range interval).1, (recordInterval_range interval).2, Nat.zero_le _⟩
  · cases run
    exact h

/-- **A reading** keeps the timer and the records so. -/
theorem Timed.voltage {vbat v : Int} {now : Nat} (h : Timed s)
    (run : calculateBatteryVoltage table vbat now s = some (v, s')) : Timed s' := by
  simp only [calculateBatteryVoltage, Option.bind_eq_bind, Option.bind_eq_some_iff] at run
  obtain ⟨s₁, restart, ⟨step, default⟩, -, run⟩ := run
  have h₁ := h.restart restart
  cases default with
  | true =>
    rw [if_pos rfl] at run
    split at run
    · next room =>
      cases run
      exact ⟨defaultInterval_range.1, defaultInterval_range.2, room⟩
    · cases run
  | false =>
    rw [if_neg Bool.false_ne_true] at run
    split at run
    · next room =>
      cases run
      exact ⟨h₁.pos, h₁.le, room⟩
    · cases run

theorem Timed.udisk (h : Timed s) (data : Int) : Timed (udiskBatteryCallback data s) := by
  unfold udiskBatteryCallback
  by_cases changed : (if data ≠ 0 then Mode.charging else Mode.discharging) ≠ s.mybattery.batteryMode
  · rw [if_pos changed]
    exact ⟨defaultInterval_range.1, defaultInterval_range.2, h.index⟩
  · rw [if_neg changed]
    exact h

/-- The state that the thread starts its loop in. -/
theorem Timed.start {value : List UInt8} (h : Restored value batteryParamsInit s) : Timed s := by
  have interval : s.timeInterval = defaultInterval := h.interval
  have index : s.tableIndex = 0 := h.index
  exact ⟨by rw [interval]; exact defaultInterval_range.1, by rw [interval]; exact defaultInterval_range.2, by omega⟩

end

/-! ## The reports -/

/-- What is reported after `pre`, for a measured `pct`. On the wrong side of `pre` it is `pre`; far from it on the right
side, the limiter goes one further than it measures. -/
def limitReport : Mode → Int → Int → Int
  | .discharging, pre, pct => if pre < pct then pre else if pct + 1 < pre then pct - 1 else pct
  | .charging, pre, pct => if pct < pre then pre else if pre + 1 < pct then pct + 1 else pct

theorem gradientLimitPercent_eq (pct : Int) (s : State) : (gradientLimitPercent pct s).1 =
    limitReport s.mybattery.batteryMode s.mybattery.prePercent pct := by
  by_cases wrong : WrongSide pct s.mybattery
  · rw [gradientLimitPercent_wrong wrong]
    rcases wrong with ⟨mode, lt⟩ | ⟨mode, gt⟩
    · rw [mode, limitReport, if_pos lt]
    · rw [mode, limitReport, if_pos gt]
  · rw [gradientLimitPercent_right wrong]
    cases mode : s.mybattery.batteryMode with
    | discharging =>
      have le : pct ≤ s.mybattery.prePercent := by simpa [mode] using wrong
      have far : |pct - s.mybattery.prePercent| > 1 ↔ pct + 1 < s.mybattery.prePercent := by
        rw [abs_of_nonpos (by omega)]
        omega
      rw [limitReport, if_neg (Int.not_lt.2 le), if_neg (Int.not_lt.2 le)]
      simp only [far]
      rfl
    | charging =>
      have le : s.mybattery.prePercent ≤ pct := by simpa [mode] using wrong
      have far : |pct - s.mybattery.prePercent| > 1 ↔ s.mybattery.prePercent + 1 < pct := by
        rw [abs_of_nonneg (by omega)]
        omega
      rw [limitReport, if_neg (Int.not_lt.2 le)]
      simp only [far]
      split
      · rw [if_pos (by omega)]
      · rfl

/-- The report is on the right side of the one before it, and out of range by one at most. -/
structure Report.Honest (r : Report) : Prop where
  range : -1 ≤ r.percent ∧ r.percent ≤ 101
  discharging : r.mode = .discharging → r.percent ≤ r.before
  charging : r.mode = .charging → r.before ≤ r.percent

theorem limitReport_honest (mode : Mode) {pre pct : Int} (before : -1 ≤ pre ∧ pre ≤ 101) (range : 0 ≤ pct ∧ pct ≤ 100) :
    Report.Honest ⟨mode, pre, limitReport mode pre pct⟩ := by
  cases mode with
  | discharging =>
    have : limitReport .discharging pre pct ≤ pre ∧ -1 ≤ limitReport .discharging pre pct := by grind [limitReport]
    exact ⟨⟨this.2, this.1.trans before.2⟩, fun _ => this.1, nofun⟩
  | charging =>
    have : pre ≤ limitReport .charging pre pct ∧ limitReport .charging pre pct ≤ 101 := by grind [limitReport]
    exact ⟨⟨before.1.trans this.1, this.2⟩, nofun, fun _ => this.1⟩

/-! ## Runs -/

/-- What the thread keeps between its turns, whatever it measures. -/
structure GoesOn (s : State) : Prop where
  timed : Timed s
  percent : -1 ≤ s.mybattery.prePercent ∧ s.mybattery.prePercent ≤ 101
  sound : Sound s

theorem GoesOn.udisk {s : State} (h : GoesOn s) (data : Int) : GoesOn (udiskBatteryCallback data s) := by
  obtain ⟨mode, interval, e⟩ := udiskBatteryCallback_eq data s
  refine ⟨h.timed.udisk data, ?_, ?_⟩
  · rw [e]
    exact h.percent
  · rw [e]
    exact h.sound.congr rfl rfl rfl

/-- The state that the thread starts its loop in. -/
theorem GoesOn.start {value : List UInt8} {s : State} (h : Restored value batteryParamsInit s) : GoesOn s := by
  have range := h.percent
  unfold InRange at range
  exact ⟨.start h, by omega, .of_empty (h.voltage (by decide)) h.index⟩

section

variable {table : List CapacityParams} (wf : WellFormed table) (narrow : Narrow table)
include wf narrow

/-- **One turn**: the voltage is moved by a step, its percentage is limited, and the result is reported and kept. -/
theorem detect_eq {adcNum : Int} (reading : 0 ≤ getBatteryVoltage adcNum) (now : Nat) {s : State} (sound : Sound s) :
    ∃ step pct s', Adjusts table (getBatteryVoltage adcNum) s.mybattery.preVoltage step ∧
    calculateBatteryPercent table (s.mybattery.preVoltage + step) = some pct ∧ 0 ≤ pct ∧ pct ≤ 100 ∧
    detect table adcNum now s = some (limitReport s.mybattery.batteryMode s.mybattery.prePercent pct, s') ∧
    s'.mybattery = ⟨s.mybattery.preVoltage + step, limitReport s.mybattery.batteryMode s.mybattery.prePercent pct,
      s.mybattery.batteryMode⟩ ∧ Sound s' ∧ (Timed s → Timed s') := by
  obtain ⟨step, s₁, adjusts, voltage, battery, sound₁⟩ := calculateBatteryVoltage_spec wf.filterable sound
    ⟨reading, (isInt_getBatteryVoltage adcNum).2⟩ (fun _ => narrow.narrowAt _) now
  obtain ⟨pct, hpct, range⟩ := wf.calculateBatteryPercent_range (s.mybattery.preVoltage + step)
  have report := gradientLimitPercent_eq pct s₁
  have kept : (gradientLimitPercent pct s₁).2.mybattery =
      { s₁.mybattery with prePercent := (gradientLimitPercent pct s₁).1 } := rfl
  rw [battery] at report kept
  refine ⟨step, pct, (gradientLimitPercent pct s₁).2, adjusts, hpct, range.1, range.2, ?_, ?_, ?_, ?_⟩
  · rw [← report]
    simp [detect, voltage, hpct]
  · rw [kept, report]
  · exact sound₁.congr rfl rfl rfl
  · intro timed
    have timed₁ := timed.voltage voltage
    exact ⟨timed₁.pos, timed₁.le, timed₁.index⟩

theorem run_of_goesOn : ∀ {events : List Event} {s : State}, (∀ e ∈ events, e.Readable) → GoesOn s →
    ∃ reports s', run table events s = some (reports, s') ∧ (∀ r ∈ reports, r.Honest) ∧ GoesOn s'
  | [], s, _, h => ⟨[], s, rfl, by simp, h⟩
  | .udisk data :: events, s, readable, h =>
    run_of_goesOn (s := udiskBatteryCallback data s) (fun e he => readable e (List.mem_cons_of_mem _ he)) (h.udisk data)
  | .detect adcNum now :: events, s, readable, h => by
    obtain ⟨step, pct, s₁, -, -, ge, le, detected, battery, sound, timed⟩ :=
      detect_eq wf narrow (readable _ List.mem_cons_self) now h.sound
    have honest := limitReport_honest s.mybattery.batteryMode h.percent ⟨ge, le⟩
    have h₁ : GoesOn s₁ := ⟨timed h.timed, by rw [battery]; exact honest.range, sound⟩
    obtain ⟨reports, s', rest, all, h'⟩ := run_of_goesOn (fun e he => readable e (List.mem_cons_of_mem _ he)) h₁
    refine ⟨⟨s.mybattery.batteryMode, s.mybattery.prePercent,
      limitReport s.mybattery.batteryMode s.mybattery.prePercent pct⟩ :: reports, s', ?_, ?_, h'⟩
    · simp only [run, detected, rest, Option.bind_eq_bind, Option.bind_some]
    · intro r hr
      rcases List.mem_cons.1 hr with rfl | hr
      · exact honest
      · exact all r hr

/-- **The thread goes on.** With any well-formed table whose rows are narrower than an `int`, any stored value and any
sequence of charger events and readings of voltages that are not negative, the thread starts and every turn returns:
none divides by zero, or `INT_MIN` by -1, or reads a row or a record that is not there. Each report is on the right side
of the one before it and between -1 and 101, and after the run the interval of the timer is more than 0 and at most
`MAX_INTERVAL`. -/
theorem thread_goes_on {value : List UInt8} (ends : 0 ∈ value) (adcNum : Int) :
    ∃ s, getBatteryBeforePoweroff table value adcNum batteryParamsInit = some s ∧
      ∀ events, (∀ e ∈ events, Event.Readable e) →
        ∃ reports s', run table events s = some (reports, s') ∧ (∀ r ∈ reports, r.Honest) ∧ Timed s' := by
  obtain ⟨s, start, restored⟩ := getBatteryBeforePoweroff_spec wf ends adcNum batteryParamsInit
  refine ⟨s, start, fun events readable => ?_⟩
  obtain ⟨reports, s', ret, honest, goesOn⟩ := run_of_goesOn wf narrow readable (.start restored)
  exact ⟨reports, s', ret, honest, goesOn.timed⟩

end

theorem capParams_narrow : Narrow capParams := by decide

/-- A full gauge, a reading of 0, and the charger. -/
theorem thread_goes_on_drop : ∃ s, getBatteryBeforePoweroff capParams [49, 48, 48, 0] 0 batteryParamsInit = some s ∧
    ∃ reports s', run capParams [.detect 0 0, .udisk 1, .detect 951 30000] s = some (reports, s') ∧
      (∀ r ∈ reports, r.Honest) ∧ Timed s' := by
  obtain ⟨s, start, all⟩ := thread_goes_on capParams_wellFormed capParams_narrow
    (show (0 : UInt8) ∈ [49, 48, 48, 0] by decide) 0
  exact ⟨s, start, all [.detect 0 0, .udisk 1, .detect 951 30000] (by decide)⟩

end CodeBackup.Battery
