import CodeBackup.Battery.Thread

/-!
# A gauge at rest

What a constant reading leads to. The filter takes steps towards the reading
until it takes none, and from then on it takes none (`Adjusts.nearer_or_rest`).
The limiter repeats its first report of the voltage at rest
(`limitReport_again`). So after as many turns as the reading is away from the
voltage, the reports stay the same (`gauge_settles`).
-/

namespace CodeBackup.Battery

section

variable {table : List CapacityParams} {vbat pre step step' : Int}

/-! ## The filter -/

theorem Adjusts.unique (f : Filterable table) (h : Adjusts table vbat pre step) (h' : Adjusts table vbat pre step') :
    step = step' := by
  cases h with
  | empty zero => exact (h'.of_zero zero).symm
  | up pos found above =>
    cases h' with
    | up _ found' _ => rw [found.unique found']
    | down _ found' below =>
      have := found.unique found'
      have := found.nonneg f
      omega
    | within _ found' near =>
      have := found.unique found'
      rw [abs_lt] at near
      omega
    | _ => omega
  | down pos found below =>
    cases h' with
    | up _ found' above =>
      have := found.unique found'
      have := found.nonneg f
      omega
    | down _ found' _ => rw [found.unique found']
    | within _ found' near =>
      have := found.unique found'
      rw [abs_lt] at near
      omega
    | _ => omega
  | within pos found near =>
    rw [abs_lt] at near
    cases h' with
    | up _ found' above =>
      have := found.unique found'
      omega
    | down _ found' below =>
      have := found.unique found'
      omega
    | within _ _ _ => rfl
    | _ => omega
  | negative neg =>
    cases h' with
    | negative _ => rfl
    | _ => omega

/-- **A step** is none, or leads nearer to the reading. -/
theorem Adjusts.nearer_or_rest (f : Filterable table) (h : Adjusts table vbat pre step) :
    step = 0 ∨ |vbat - (pre + step)| < |vbat - pre| := by
  cases h with
  | empty zero =>
    rcases eq_or_ne vbat 0 with none | some
    · exact .inl none
    · refine .inr ?_
      rw [zero, zero_add, sub_self, sub_zero, abs_zero]
      exact abs_pos.2 some
  | up _ found above =>
    have ge := found.nonneg f
    rw [abs_of_nonneg (by omega), abs_of_nonneg (by omega)]
    omega
  | down _ found below =>
    have ge := found.nonneg f
    rw [abs_of_nonpos (by omega), abs_of_nonpos (by omega)]
    omega
  | within _ _ near =>
    have fifth := tdiv_five (vbat - pre)
    rcases le_total 0 (vbat - pre) with ge | le
    · rw [abs_of_nonneg ge, abs_of_nonneg (by omega)]
      omega
    · rw [abs_of_nonpos le, abs_of_nonpos (by omega)]
      omega
  | negative _ => exact .inl rfl

/-- Where it takes no step, the filter has reached the reading, but for 4 mV, or its row has no stride. -/
theorem Adjusts.rest (f : Filterable table) (h : Adjusts table vbat pre step) (none : step = 0) (ge : 0 ≤ pre) :
    |vbat - pre| < 5 ∨ StrideAt table pre 0 := by
  cases h with
  | empty zero =>
    left
    rw [none, zero, sub_self, abs_zero]
    decide
  | @up m _ found above =>
    have := found.nonneg f
    obtain rfl : m = 0 := by omega
    exact .inr found
  | @down m _ found below =>
    have := found.nonneg f
    obtain rfl : m = 0 := by omega
    exact .inr found
  | within _ _ near =>
    have fifth := tdiv_five (vbat - pre)
    left
    rw [abs_lt]
    omega
  | negative neg => omega

end

/-! ## The limiter -/

/-- **A second report** of the same measurement is the first one again. -/
theorem limitReport_again (mode : Mode) (pre pct : Int) :
    limitReport mode (limitReport mode pre pct) pct = limitReport mode pre pct := by
  cases mode <;> grind [limitReport]

/-- While discharging no more is reported than is measured, and while charging no less. -/
theorem limitReport_side (mode : Mode) (pre pct : Int) :
    (mode = .discharging → limitReport mode pre pct ≤ pct) ∧ (mode = .charging → pct ≤ limitReport mode pre pct) := by
  cases mode <;> grind [limitReport]

/-! ## Turns with one reading -/

/-- The gauge at rest: the voltage has reached the reading where the table lets it, and the percentage is on the side of
the voltage's own that the mode allows. -/
structure Settled (table : List CapacityParams) (reading : Int) (battery : BatteryInfo) : Prop where
  voltage : |reading - battery.preVoltage| < 5 ∨ StrideAt table battery.preVoltage 0
  percent : ∃ pct, calculateBatteryPercent table battery.preVoltage = some pct ∧
    (battery.batteryMode = .discharging → battery.prePercent ≤ pct) ∧
    (battery.batteryMode = .charging → pct ≤ battery.prePercent)

section

variable {table : List CapacityParams} (wf : WellFormed table) (narrow : Narrow table) {adcNum : Int}
  (reading : 0 ≤ getBatteryVoltage adcNum)
include wf narrow reading

/-- Turns that change nothing. -/
theorem run_steady {pct : Int} : ∀ (nows : List Nat) {s : State}, Sound s →
    Adjusts table (getBatteryVoltage adcNum) s.mybattery.preVoltage 0 →
    calculateBatteryPercent table s.mybattery.preVoltage = some pct →
    limitReport s.mybattery.batteryMode s.mybattery.prePercent pct = s.mybattery.prePercent →
    ∃ reports s', run table (nows.map (.detect adcNum)) s = some (reports, s') ∧ s'.mybattery = s.mybattery ∧
      ∀ r ∈ reports, r = ⟨s.mybattery.batteryMode, s.mybattery.prePercent, s.mybattery.prePercent⟩
  | [], s, _, _, _, _ => ⟨[], s, rfl, rfl, by simp⟩
  | now :: nows, s, sound, rest, percent, same => by
    obtain ⟨step, pct', s₁, adjusts, percent', -, -, detected, battery, sound₁, -⟩ :=
      detect_eq wf narrow reading now sound
    obtain rfl := adjusts.unique wf.filterable rest
    rw [add_zero] at percent' battery
    obtain rfl : pct = pct' := Option.some.inj (percent.symm.trans percent')
    rw [same] at detected battery
    obtain ⟨reports, s', ret, kept, all⟩ := run_steady nows (s := s₁) sound₁ (by rw [battery]; exact rest)
      (by rw [battery]; exact percent) (by rw [battery]; exact same)
    refine ⟨⟨s.mybattery.batteryMode, s.mybattery.prePercent, s.mybattery.prePercent⟩ :: reports, s', ?_, ?_, ?_⟩
    · simp only [List.map_cons, run, detected, ret, Option.bind_eq_bind, Option.bind_some]
    · rw [kept, battery]
    · intro r hr
      rcases List.mem_cons.1 hr with rfl | hr
      · rfl
      · rw [all r hr, battery]

/-- **The gauge settles.** With any well-formed table whose rows are narrower than an `int`, and in any state with a
voltage that is not negative and no negative one on record, take more turns with one reading than the reading is away
from the voltage. All of them return, and from some turn on they make the same report. Then the voltage is at most 4 mV
from the reading, or in a row without a stride; and the percentage is not above that of the voltage while discharging,
and not below it while charging. -/
theorem gauge_settles : ∀ {nows : List Nat} {n : Nat} {s : State}, Sound s → 0 ≤ s.mybattery.preVoltage →
    |getBatteryVoltage adcNum - s.mybattery.preVoltage| ≤ n → n < nows.length →
    ∃ reports s', run table (nows.map (.detect adcNum)) s = some (reports, s') ∧
      Settled table (getBatteryVoltage adcNum) s'.mybattery ∧
      ∀ r ∈ reports.drop (n + 1), r = ⟨s.mybattery.batteryMode, s'.mybattery.prePercent, s'.mybattery.prePercent⟩
  | [], _, _, _, _, _, enough => absurd enough (Nat.not_lt_zero _)
  | now :: nows, n, s, sound, ge, distance, enough => by
    obtain ⟨step, pct, s₁, adjusts, percent, -, -, detected, battery, sound₁, -⟩ :=
      detect_eq wf narrow reading now sound
    obtain ⟨p, hp⟩ : ∃ p, p = limitReport s.mybattery.batteryMode s.mybattery.prePercent pct := ⟨_, rfl⟩
    rw [← hp] at detected battery
    rcases adjusts.nearer_or_rest wf.filterable with rfl | nearer
    · -- at rest: the first report is made again
      rw [add_zero] at percent battery
      have again : limitReport s.mybattery.batteryMode p pct = p := by rw [hp, limitReport_again]
      obtain ⟨reports, s', ret, kept, all⟩ :=
        run_steady wf narrow reading nows (s := s₁) sound₁ (by rw [battery]; exact adjusts)
          (by rw [battery]; exact percent) (by rw [battery]; exact again)
      rw [battery] at kept all
      refine ⟨⟨s.mybattery.batteryMode, s.mybattery.prePercent, p⟩ :: reports, s', ?_, ?_, ?_⟩
      · simp only [List.map_cons, run, detected, ret, Option.bind_eq_bind, Option.bind_some]
      · rw [kept]
        have side := limitReport_side s.mybattery.batteryMode s.mybattery.prePercent pct
        rw [← hp] at side
        exact ⟨adjusts.rest wf.filterable rfl ge, pct, percent, side⟩
      · intro r hr
        rw [List.drop_succ_cons] at hr
        rw [all r (List.mem_of_mem_drop hr), kept]
    · -- nearer: the other turns are enough for what is left
      have between := adjusts.between wf.filterable ge
      have voltage : s₁.mybattery.preVoltage = s.mybattery.preVoltage + step := by rw [battery]
      have mode : s₁.mybattery.batteryMode = s.mybattery.batteryMode := by rw [battery]
      have left := abs_nonneg (getBatteryVoltage adcNum - (s.mybattery.preVoltage + step))
      obtain ⟨k, rfl⟩ : ∃ k, n = k + 1 := Nat.exists_eq_succ_of_ne_zero (by omega)
      have ge₁ : 0 ≤ s₁.mybattery.preVoltage := by omega
      obtain ⟨reports, s', ret, settled, all⟩ := gauge_settles sound₁ ge₁
        (show |getBatteryVoltage adcNum - s₁.mybattery.preVoltage| ≤ k by rw [voltage]; omega)
        (Nat.lt_of_succ_lt_succ enough)
      refine ⟨⟨s.mybattery.batteryMode, s.mybattery.prePercent, p⟩ :: reports, s', ?_, settled, ?_⟩
      · simp only [List.map_cons, run, detected, ret, Option.bind_eq_bind, Option.bind_some]
      · intro r hr
        rw [List.drop_succ_cons] at hr
        rw [all r hr, mode]

end

/-- A gauge at 3811 mV that reads 3819 mV, twelve times. -/
theorem gauge_settles_near : ∃ reports s', run capParams ((List.replicate 12 0).map (.detect 952))
    { batteryParamsInit with mybattery := ⟨3811, 57, .charging⟩ } = some (reports, s') ∧
      Settled capParams (getBatteryVoltage 952) s'.mybattery ∧
      ∀ r ∈ reports.drop 9, r = ⟨.charging, s'.mybattery.prePercent, s'.mybattery.prePercent⟩ :=
  @gauge_settles capParams capParams_wellFormed capParams_narrow 952
    (getBatteryVoltage_nonneg (by decide) (by decide)) (List.replicate 12 0) 8
    { batteryParamsInit with mybattery := ⟨3811, 57, .charging⟩ } (.of_empty (by decide) rfl) (by decide) (by decide)
    (by decide)

end CodeBackup.Battery
