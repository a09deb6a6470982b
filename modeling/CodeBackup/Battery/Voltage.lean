import CodeBackup.Battery.Percent

/-!
# A filtered voltage

What one call of `calculate_battery_voltage` makes of a reading. It returns,
unless the interval of a full record table divides `INT_MIN` by -1 (`Traps`).
Where no difference overflows, it moves `pre_voltage` by one of five steps
(`Adjusts`). From a voltage that is not negative each of them leads towards the
reading and not beyond it (`Adjusts.between`), and nearer to it, if the row of
the old voltage has a step at all and the reading is 5 mV away
(`Adjusts.nearer`). So the records of a run are `Sound`, and the division by -1
does not happen.
-/

namespace CodeBackup.Battery

open C

/-- A table that the filter can work with. -/
structure Filterable (table : List CapacityParams) : Prop where
  rows : 0 < table.length
  ordered : ∀ row ∈ table, row.min ≤ row.max
  hysteresis : ∀ row ∈ table, 1 ≤ row.hysteresis

theorem WellFormed.filterable {table : List CapacityParams} (wf : WellFormed table) : Filterable table :=
  ⟨wf.rows, wf.ordered, wf.hysteresis⟩

/-- `m_stride` at a voltage: the width of its row for each percent. -/
def StrideAt (table : List CapacityParams) (voltage m : Int) : Prop :=
  ∃ (i : Nat) (row : CapacityParams), findIndexByBat table voltage = some i ∧ table[i]? = some row ∧
    m = (row.max - row.min).tdiv row.hysteresis

/-- The row of a voltage is narrower than an `int`. -/
def NarrowAt (table : List CapacityParams) (voltage : Int) : Prop :=
  ∀ (i : Nat) (row : CapacityParams), findIndexByBat table voltage = some i → table[i]? = some row →
    row.max - row.min < 2 ^ 31

/-- Every row is. -/
def Narrow (table : List CapacityParams) : Prop := ∀ row ∈ table, row.max - row.min < 2 ^ 31

instance (table : List CapacityParams) : Decidable (Narrow table) := inferInstanceAs (Decidable (∀ row ∈ table, _))

theorem Narrow.narrowAt {table : List CapacityParams} (h : Narrow table) (voltage : Int) : NarrowAt table voltage :=
  fun _ row _ hi => h row (List.mem_of_getElem? hi)

/-- The step from `pre` for the reading `vbat`. -/
inductive Adjusts (table : List CapacityParams) (vbat pre : Int) : Int → Prop
  | empty : pre = 0 → Adjusts table vbat pre vbat
  /-- Half a stride up, rounded up. -/
  | up {m : Int} : 0 < pre → StrideAt table pre m → m ≤ vbat - pre → Adjusts table vbat pre (-((-m) / 2))
  /-- Half a stride down, rounded down. -/
  | down {m : Int} : 0 < pre → StrideAt table pre m → vbat - pre ≤ -m → Adjusts table vbat pre ((-m) / 2)
  /-- Within a stride, a fifth of the way. -/
  | within {m : Int} : 0 < pre → StrideAt table pre m → |vbat - pre| < m →
      Adjusts table vbat pre ((vbat - pre).tdiv 5)
  | negative : pre < 0 → Adjusts table vbat pre 0

section

variable {table : List CapacityParams} {vbat pre step m m' : Int}

theorem StrideAt.unique (h : StrideAt table pre m) (h' : StrideAt table pre m') : m = m' := by
  obtain ⟨i, row, index, hi, rfl⟩ := h
  obtain ⟨i', row', index', hi', rfl⟩ := h'
  rw [index] at index'
  cases index'
  rw [hi] at hi'
  cases hi'
  rfl

theorem StrideAt.nonneg (f : Filterable table) (h : StrideAt table pre m) : 0 ≤ m := by
  obtain ⟨i, row, -, hi, rfl⟩ := h
  have ordered := f.ordered row (List.mem_of_getElem? hi)
  have hysteresis := f.hysteresis row (List.mem_of_getElem? hi)
  exact Int.tdiv_nonneg (by omega) (by omega)

/-- `m_stride` is an `int`. -/
theorem StrideAt.lt (f : Filterable table) (narrow : NarrowAt table pre) (h : StrideAt table pre m) : m < 2 ^ 31 := by
  obtain ⟨i, row, index, hi, rfl⟩ := h
  have ordered := f.ordered row (List.mem_of_getElem? hi)
  have narrow := narrow i row index hi
  have small := Int.natAbs_tdiv_le_natAbs (row.max - row.min) row.hysteresis
  omega

/-- The filter has a step for every reading. -/
theorem adjustVoltage_some (f : Filterable table) (vbat pre : Int) :
    ∃ step default, adjustVoltage table vbat pre = some (step, default) := by
  obtain ⟨i, index, hi⟩ := findIndexByBat_lt f.rows pre
  have hysteresis := f.hysteresis _ (List.getElem_mem hi)
  simp only [adjustVoltage, index, List.getElem?_eq_getElem hi, Option.bind_eq_bind, Option.bind_some,
    div_of_pos (show 0 < table[i].hysteresis by omega)]
  split
  · split
    · exact ⟨_, _, rfl⟩
    · split
      · exact ⟨_, _, rfl⟩
      · split
        · exact ⟨_, _, rfl⟩
        · exact ⟨_, _, rfl⟩
  · split
    · exact ⟨_, _, rfl⟩
    · exact ⟨_, _, rfl⟩

/-- **The step** is one of the five, if the differences are `int`s. -/
theorem adjustVoltage_spec (f : Filterable table) (hv : IsInt vbat) (hp : IsInt pre)
    (exact_ : 0 < pre → 0 ≤ vbat ∧ NarrowAt table pre) :
    ∃ step default, adjustVoltage table vbat pre = some (step, default) ∧ Adjusts table vbat pre step := by
  unfold adjustVoltage
  by_cases pos : pre > 0
  · obtain ⟨nonneg, narrow⟩ := exact_ pos
    obtain ⟨i, index, hi⟩ := findIndexByBat_lt f.rows pre
    have hysteresis := f.hysteresis _ (List.getElem_mem hi)
    have ordered := f.ordered _ (List.getElem_mem hi)
    have row := List.getElem?_eq_getElem hi
    obtain ⟨m, stride_, hm⟩ : ∃ m, StrideAt table pre m ∧
        div (int32 (table[i].max - table[i].min)) table[i].hysteresis = some m := by
      have width : IsInt (table[i].max - table[i].min) := ⟨by omega, narrow i _ index row⟩
      rw [width.int32_eq, div_of_pos (by omega)]
      exact ⟨_, ⟨i, _, index, row, rfl⟩, rfl⟩
    have diff : IsInt (vbat - pre) := by
      unfold IsInt at *
      omega
    have down : IsInt (-m) := by
      have := stride_.nonneg f
      have := stride_.lt f narrow
      unfold IsInt
      omega
    rw [if_pos pos]
    simp only [index, row, hm, Option.bind_eq_bind, Option.bind_some, diff.int32_eq, down.int32_eq]
    by_cases above : vbat - pre ≥ m
    · rw [if_pos above]
      exact ⟨_, _, rfl, .up pos stride_ above⟩
    · rw [if_neg above]
      by_cases below : vbat - pre ≤ -m
      · rw [if_pos below]
        exact ⟨_, _, rfl, .down pos stride_ below⟩
      · rw [if_neg below]
        have near : |vbat - pre| < m := by
          rw [abs_lt]
          omega
        have within := Adjusts.within pos stride_ near
        by_cases same : vbat - pre = 0
        · rw [if_pos same]
          rw [same, Int.zero_tdiv] at within
          exact ⟨_, _, rfl, within⟩
        · rw [if_neg same]
          exact ⟨_, _, rfl, within⟩
  · rw [if_neg pos]
    by_cases zero : pre = 0
    · rw [if_pos zero]
      exact ⟨_, _, rfl, .empty zero⟩
    · rw [if_neg zero]
      exact ⟨_, _, rfl, .negative (by omega)⟩

/-- A fifth, towards the other end. -/
theorem tdiv_five (d : Int) : (0 ≤ d → 0 ≤ d.tdiv 5 ∧ 5 * d.tdiv 5 ≤ d ∧ d < 5 * d.tdiv 5 + 5) ∧
    (d ≤ 0 → d.tdiv 5 ≤ 0 ∧ d ≤ 5 * d.tdiv 5 ∧ 5 * d.tdiv 5 - 5 < d) := by
  constructor
  · intro ge
    rw [Int.tdiv_eq_ediv_of_nonneg ge]
    omega
  · intro le
    obtain ⟨e, rfl⟩ : ∃ e, d = -e := ⟨-d, by omega⟩
    rw [Int.neg_tdiv, Int.tdiv_eq_ediv_of_nonneg (by omega)]
    omega

/-- From 0, the reading is taken as it is. -/
theorem Adjusts.of_zero (h : Adjusts table vbat pre step) (zero : pre = 0) : step = vbat := by
  cases h with
  | empty _ => rfl
  | _ => omega

/-- A negative voltage stays. -/
theorem Adjusts.of_neg (h : Adjusts table vbat pre step) (neg : pre < 0) : step = 0 := by
  cases h with
  | negative _ => rfl
  | _ => omega

/-- **No overshooting.** -/
theorem Adjusts.between (f : Filterable table) (h : Adjusts table vbat pre step) (ge : 0 ≤ pre) :
    min pre vbat ≤ pre + step ∧ pre + step ≤ max pre vbat := by
  cases h with
  | empty zero => omega
  | up _ stride_ above =>
    have := stride_.nonneg f
    omega
  | down _ stride_ below =>
    have := stride_.nonneg f
    omega
  | within _ _ near =>
    have := tdiv_five (vbat - pre)
    omega
  | negative neg => omega

/-- **Nearer**, from a row that has a stride to a reading that is far enough. -/
theorem Adjusts.nearer (h : Adjusts table vbat pre step) (pos : 0 < pre) (stride_ : StrideAt table pre m) (one : 1 ≤ m)
    (far : 5 ≤ |vbat - pre|) : |vbat - (pre + step)| < |vbat - pre| := by
  cases h with
  | empty zero => omega
  | up _ found above =>
    obtain rfl := found.unique stride_
    rw [abs_of_nonneg (by omega), abs_of_nonneg (by omega)]
    omega
  | down _ found below =>
    obtain rfl := found.unique stride_
    rw [abs_of_nonpos (by omega), abs_of_nonpos (by omega)]
    omega
  | within _ _ near =>
    have := tdiv_five (vbat - pre)
    rcases le_total 0 (vbat - pre) with ge | le
    · rw [abs_of_nonneg ge] at far ⊢
      rw [abs_of_nonneg (by omega)]
      omega
    · rw [abs_of_nonpos le] at far ⊢
      rw [abs_of_nonpos (by omega)]
      omega
  | negative neg => omega

end

/-! ## The interval -/

section

variable {table : List CapacityParams} {s s' : State}

/-- A full record table whose interval is the quotient of `INT_MIN` by -1. -/
def Traps (table : List CapacityParams) (s : State) : Prop :=
  recordCount ≤ s.tableIndex ∧ ∃ step, stride table = some step ∧
    int32 (int32 (tinterval (limitTable s.tvTable) * step) * 1000) = -2 ^ 31 ∧ vinterval (limitTable s.tvTable) = -1

theorem stride_some (rows : 0 < table.length) : ∃ step, stride table = some step := by
  have last : table.length - 1 < table.length := by omega
  simp only [stride, List.getElem?_eq_getElem rows, List.getElem?_eq_getElem last, Option.bind_eq_bind,
    Option.bind_some, div_of_pos (show (0 : Int) < 100 by decide)]
  exact ⟨_, rfl⟩

/-- The next record, and the ones before it, which stay. -/
structure Restarted (s s' : State) (k : Fin recordCount) : Prop where
  index : s'.tableIndex = k
  le : k.val ≤ s.tableIndex
  records : s'.tvTable = s.tvTable
  battery : s'.mybattery = s.mybattery

theorem recordInterval_some (rows : 0 < table.length) (full : recordCount ≤ s.tableIndex) (safe : ¬Traps table s) :
    ∃ t, recordInterval table s.tvTable = some t := by
  obtain ⟨step, hstep⟩ := stride_some rows
  by_cases ne : vinterval (limitTable s.tvTable) ≠ 0
  · have quotient := div_of_ne ne fun trap => safe ⟨full, step, hstep, trap⟩
    rw [recordInterval, if_pos ne, hstep, Option.bind_eq_bind, Option.bind_some, quotient, Option.bind_some]
    exact ⟨_, rfl⟩
  · rw [recordInterval, if_neg ne]
    exact ⟨_, rfl⟩

theorem restartRecords_some (rows : 0 < table.length) (safe : ¬Traps table s) :
    ∃ s' k, restartRecords table s = some s' ∧ Restarted s s' k := by
  unfold restartRecords
  split
  · next full =>
    obtain ⟨t, interval⟩ := recordInterval_some rows full safe
    rw [interval]
    exact ⟨_, ⟨0, by decide⟩, rfl, rfl, Nat.zero_le _, rfl, rfl⟩
  · next more => exact ⟨s, ⟨s.tableIndex, Nat.lt_of_not_le more⟩, rfl, rfl, le_rfl, rfl, rfl⟩

/-- The extremes are records, and the first is not larger than the second. -/
theorem limitLoop_spec {P : TvTable → Prop} : ∀ {rs : List TvTable} {limit : TvTable × TvTable}, (∀ r ∈ rs, P r) →
    P limit.1 → P limit.2 → limit.1.instVoltage ≤ limit.2.instVoltage →
    P (limitLoop rs limit).1 ∧ P (limitLoop rs limit).2 ∧
      (limitLoop rs limit).1.instVoltage ≤ (limitLoop rs limit).2.instVoltage
  | [], limit, _, low, high, le => ⟨low, high, le⟩
  | r :: rs, limit, all, low, high, le => by
    have here := all r List.mem_cons_self
    have rest := fun r' hr => all r' (List.mem_cons_of_mem _ hr)
    rw [limitLoop]
    split
    · next less => exact limitLoop_spec rest here high (less.le.trans le)
    · split
      · next more => exact limitLoop_spec rest low here (le.trans more)
      · exact limitLoop_spec rest low high le

/-! ## The call -/

/-- **`calculate_battery_voltage`** returns a voltage, records it, and changes nothing else of the battery. -/
theorem calculateBatteryVoltage_eq (f : Filterable table) {vbat step : Int} {default : Bool} (now : Nat)
    (safe : ¬Traps table s) (ret : adjustVoltage table vbat s.mybattery.preVoltage = some (step, default)) :
    ∃ s' k, calculateBatteryVoltage table vbat now s = some (int32 (s.mybattery.preVoltage + step), s') ∧
      s'.mybattery = { s.mybattery with preVoltage := int32 (s.mybattery.preVoltage + step) } ∧
      s'.tableIndex = k.val + 1 ∧ k.val ≤ s.tableIndex ∧
      s'.tvTable = Function.update s.tvTable k ⟨uint64 now, uint32 (int32 (s.mybattery.preVoltage + step))⟩ := by
  obtain ⟨s₁, k, full, restarted⟩ := restartRecords_some f.rows safe
  obtain ⟨s₂, e⟩ : ∃ s₂, s₂ = if default then { s₁ with timeInterval := defaultInterval } else s₁ := ⟨_, rfl⟩
  have restarted₂ : Restarted s s₂ k := by
    rw [e]
    cases default
    · exact restarted
    · exact ⟨restarted.index, restarted.le, restarted.records, restarted.battery⟩
  obtain ⟨index, le, records, battery⟩ := restarted₂
  rw [← restarted.battery] at ret
  simp only [calculateBatteryVoltage, full, ret, Option.bind_eq_bind, Option.bind_some, ← e, index, records, battery,
    dif_pos k.isLt, Fin.eta]
  exact ⟨_, k, rfl, rfl, rfl, le, rfl⟩

/-- No voltage of a run is negative, or all are the same. -/
structure Sound (s : State) : Prop where
  voltage : IsInt s.mybattery.preVoltage
  records : (0 ≤ s.mybattery.preVoltage ∧ ∀ i : Fin recordCount, i.val < s.tableIndex →
      (s.tvTable i).instVoltage < 2 ^ 31) ∨
    (s.mybattery.preVoltage < 0 ∧ ∀ i : Fin recordCount, i.val < s.tableIndex →
      (s.tvTable i).instVoltage = uint32 s.mybattery.preVoltage)

/-- An empty record table is sound. -/
theorem Sound.of_empty (voltage : IsInt s.mybattery.preVoltage) (empty : s.tableIndex = 0) : Sound s := by
  refine ⟨voltage, ?_⟩
  rcases le_or_gt 0 s.mybattery.preVoltage with ge | neg
  · exact .inl ⟨ge, fun i lt => by omega⟩
  · exact .inr ⟨neg, fun i lt => by omega⟩

/-- The voltages are all there is to it. -/
theorem Sound.congr (h : Sound s) (voltage : s'.mybattery.preVoltage = s.mybattery.preVoltage)
    (index : s'.tableIndex = s.tableIndex) (records : s'.tvTable = s.tvTable) : Sound s' := by
  refine ⟨by rw [voltage]; exact h.voltage, ?_⟩
  rw [voltage, index, records]
  exact h.records

/-- What holds of all the records holds of the extremes. -/
theorem limitTable_spec {P : TvTable → Prop} {tv : Fin recordCount → TvTable} (all : ∀ i, P (tv i)) :
    P (limitTable tv).1 ∧ P (limitTable tv).2 ∧
      (limitTable tv).1.instVoltage ≤ (limitTable tv).2.instVoltage := by
  have records : ∀ r ∈ (List.finRange recordCount).map tv, P r := by
    intro r hr
    obtain ⟨i, -, rfl⟩ := List.mem_map.1 hr
    exact all i
  unfold limitTable
  exact limitLoop_spec records (all _) (all _) le_rfl

/-- Sound records do not differ by -1. -/
theorem Sound.safe (h : Sound s) : ¬Traps table s := by
  rintro ⟨full, -, -, -, trap⟩
  have inside : ∀ i : Fin recordCount, i.val < s.tableIndex := fun i => i.isLt.trans_le full
  rcases h.records with ⟨-, small⟩ | ⟨-, same⟩
  · have found := limitTable_spec (P := (·.instVoltage < 2 ^ 31)) fun i => small i (inside i)
    generalize limitTable s.tvTable = limit at trap found
    rw [vinterval, uint32, int32_eq] at trap
    omega
  · have found := limitTable_spec (P := (·.instVoltage = uint32 s.mybattery.preVoltage)) fun i => same i (inside i)
    generalize limitTable s.tvTable = limit at trap found
    rw [vinterval, found.1, found.2.1, sub_self, uint32, int32_eq] at trap
    simp at trap

/-- **A reading** that is not negative, and no wide row: the step is exact, and the records stay sound. -/
theorem calculateBatteryVoltage_spec (f : Filterable table) (sound : Sound s) {vbat : Int}
    (hv : 0 ≤ vbat ∧ vbat < 2 ^ 31)
    (narrow : 0 < s.mybattery.preVoltage → NarrowAt table s.mybattery.preVoltage) (now : Nat) :
    ∃ step s', Adjusts table vbat s.mybattery.preVoltage step ∧
      calculateBatteryVoltage table vbat now s = some (s.mybattery.preVoltage + step, s') ∧
      s'.mybattery = { s.mybattery with preVoltage := s.mybattery.preVoltage + step } ∧ Sound s' := by
  have range := sound.voltage
  unfold IsInt at range
  obtain ⟨step, default, adjust, adjusts⟩ := adjustVoltage_spec f (show IsInt vbat from ⟨by omega, hv.2⟩) sound.voltage
    fun pos => ⟨hv.1, narrow pos⟩
  obtain ⟨s', k, ret, battery, index, le, records⟩ := calculateBatteryVoltage_eq f now sound.safe adjust
  rcases le_or_gt 0 s.mybattery.preVoltage with ge | neg
  · have between := adjusts.between f ge
    have whole : IsInt (s.mybattery.preVoltage + step) := ⟨by omega, by omega⟩
    rw [whole.int32_eq] at ret battery records
    refine ⟨step, s', adjusts, ret, battery, ?_, ?_⟩
    · rw [battery]
      exact whole
    · refine .inl ⟨by rw [battery]; show 0 ≤ s.mybattery.preVoltage + step; omega, fun i lt => ?_⟩
      rw [records]
      by_cases here : i = k
      · rw [here, Function.update_self]
        unfold uint32
        simp only
        omega
      · rw [Function.update_of_ne here]
        have ne : i.val ≠ k.val := fun e => here (Fin.ext e)
        rcases sound.records with ⟨-, small⟩ | ⟨neg, -⟩
        · exact small i (by omega)
        · omega
  · have same : s.mybattery.preVoltage + step = s.mybattery.preVoltage := by rw [adjusts.of_neg neg, add_zero]
    rw [same, sound.voltage.int32_eq] at ret battery records
    refine ⟨step, s', adjusts, by rw [same]; exact ret, by rw [same]; exact battery, ?_, ?_⟩
    · rw [battery]
      exact sound.voltage
    · refine .inr ⟨by rw [battery]; exact neg, fun i lt => ?_⟩
      rw [records, battery]
      by_cases here : i = k
      · rw [here, Function.update_self]
      · rw [Function.update_of_ne here]
        have ne : i.val ≠ k.val := fun e => here (Fin.ext e)
        rcases sound.records with ⟨ge, -⟩ | ⟨-, same⟩
        · omega
        · exact same i (by omega)

end

end CodeBackup.Battery
