import CodeBackup.Battery.Search

/-!
# The percentage of the last run

`get_battery_before_poweroff` turns the stored percentage into a voltage, which
the first turn of the thread turns back into a percentage. In a row it takes the
remainder of the percentage by the row's hysteresis for the distance from the
row's capacity. These are the same if the hysteresis divides the capacity;
otherwise the remainder has to be near enough for the rounding (`Near`). Exactly
then the two conversions agree to one percent, if their products do not overflow
(`restore_agrees`).
-/

namespace CodeBackup.Battery

open C

/-- The hysteresis of a row, but the last, is the distance to the next row's capacity. The capacities rise from 0 to
100. -/
structure Spaced (table : List CapacityParams) : Prop extends Contiguous table where
  first : table.head?.map CapacityParams.capacity = some 0
  last : table.getLast?.map CapacityParams.capacity = some 100
  increasing : table.IsChain fun row next => row.capacity < next.capacity
  spaced : table.IsChain fun row next => row.hysteresis = next.capacity - row.capacity
  ints : Ints table

theorem capParams_spaced : Spaced capParams :=
  ⟨⟨by decide, by decide, by decide⟩, by decide, by decide, by decide, by decide, by decide⟩

/-! ## A row and back -/

section

variable {r h w : Int}

/-- The distance is truncated to a voltage, and rounded back to itself, or to one less if the remainders are large. -/
theorem rounded_part (ge : 0 ≤ r) (lt : r < h) (wide : 2 * h ≤ w) :
    rounded (h * (r * w / h)) (w + 1) = if 2 * (r + r * w % h) ≤ w + 1 then r else r - 1 := by
  have part := Int.mul_ediv_add_emod (r * w) h
  have rem := Int.emod_nonneg (r * w) (show h ≠ 0 by omega)
  have rem' := Int.emod_lt_of_pos (r * w) (show 0 < h by omega)
  have nonneg : 0 ≤ h * (r * w / h) := by
    apply mul_nonneg (by omega)
    exact Int.ediv_nonneg (mul_nonneg ge (by omega)) (by omega)
  have at_ : r * (2 * (w + 1)) = 2 * (r * w) + 2 * r := by ring
  have below : (r - 1) * (2 * (w + 1)) = 2 * (r * w) + 2 * r - 2 * w - 2 := by ring
  have above : (r + 1) * (2 * (w + 1)) = 2 * (r * w) + 2 * r + 2 * w + 2 := by ring
  have pos : 0 < 2 * (w + 1) := by omega
  rw [rounded_eq nonneg (by omega)]
  split
  · next near =>
    apply le_antisymm
    · exact Int.lt_add_one_iff.1 ((Int.ediv_lt_iff_lt_mul pos).2 (by omega))
    · exact (Int.le_ediv_iff_mul_le pos).2 (by omega)
  · next far =>
    apply le_antisymm
    · exact Int.le_sub_one_of_lt ((Int.ediv_lt_iff_lt_mul pos).2 (by omega))
    · exact (Int.le_ediv_iff_mul_le pos).2 (by omega)

end

/-- The remainder that stands for the distance from the capacity is the distance, or so near that rounding hides it. -/
inductive Near (row : CapacityParams) (percent : Int) : Prop
  | same : percent % row.hysteresis = percent - row.capacity → Near row percent
  | oneAbove : percent % row.hysteresis = percent - row.capacity + 1 → Near row percent
  /-- Two above, and rounded down. -/
  | twoAbove : percent % row.hysteresis = percent - row.capacity + 2 →
      row.max - row.min + 1 < 2 * (percent % row.hysteresis +
        percent % row.hysteresis * (row.max - row.min) % row.hysteresis) → Near row percent
  /-- One below, and not rounded down. -/
  | oneBelow : percent % row.hysteresis = percent - row.capacity - 1 →
      2 * (percent % row.hysteresis + percent % row.hysteresis * (row.max - row.min) % row.hysteresis) ≤
        row.max - row.min + 1 → Near row percent

/-- The remainder is the distance if the hysteresis divides the capacity. -/
theorem Near.of_dvd {row : CapacityParams} {percent : Int} (dvd : row.hysteresis ∣ row.capacity)
    (ge : row.capacity ≤ percent) (lt : percent < row.capacity + row.hysteresis) : Near row percent := by
  apply Near.same
  obtain ⟨k, e⟩ := dvd
  rw [show percent = percent - row.capacity + row.hysteresis * k by omega, Int.add_mul_emod_self_left,
    Int.emod_eq_of_lt (by omega) (by omega)]
  omega

/-- The voltage that is restored in a row. -/
def restoredVoltage (row : CapacityParams) (percent : Int) : Int :=
  row.min + percent % row.hysteresis * (row.max - row.min) / row.hysteresis

/-- The products of both conversions are `int`s: the larger one is. -/
def Fits (row : CapacityParams) (percent : Int) : Prop :=
  10 * row.hysteresis * (percent % row.hysteresis * (row.max - row.min) / row.hysteresis) < 2 ^ 31

instance (row : CapacityParams) (percent : Int) : Decidable (Fits row percent) := inferInstanceAs (Decidable (_ < _))

section

variable {row next : CapacityParams} {percent : Int}

theorem restoredVoltage_holds (percent : Int) (pos : 0 < row.hysteresis) (le : row.min ≤ row.max) :
    row.Holds (restoredVoltage row percent) := by
  have ge := Int.emod_nonneg percent pos.ne'
  have lt := Int.emod_lt_of_pos percent pos
  have nonneg : 0 ≤ percent % row.hysteresis * (row.max - row.min) / row.hysteresis :=
    Int.ediv_nonneg (mul_nonneg ge (by omega)) pos.le
  have inside : percent % row.hysteresis * (row.max - row.min) / row.hysteresis ≤ row.max - row.min := by
    apply Int.ediv_le_of_le_mul pos
    rw [mul_comm (row.max - row.min)]
    exact mul_le_mul_of_nonneg_right lt.le (by omega)
  unfold restoredVoltage CapacityParams.Holds
  omega

/-- The product of the first conversion is less than a tenth of the other one, but for a remainder. -/
theorem Fits.product_lt (fits : Fits row percent) (pos : 0 < row.hysteresis) :
    10 * (percent % row.hysteresis * (row.max - row.min)) < 2 ^ 31 + 10 * row.hysteresis := by
  have part := Int.mul_ediv_add_emod (percent % row.hysteresis * (row.max - row.min)) row.hysteresis
  have rem := Int.emod_lt_of_pos (percent % row.hysteresis * (row.max - row.min)) pos
  rw [Fits, mul_assoc] at fits
  omega

/-- The start of a row is converted to its capacity, however wide the row is. -/
theorem interpolated_min (cap : 0 ≤ row.capacity ∧ row.capacity ≤ 100) (le : row.capacity ≤ next.capacity) :
    interpolated row next row.min = row.capacity := by
  have zero : offset row next row.min = 0 := by
    rw [offset, sub_self, mul_zero, (show IsInt 0 by decide).int32_eq, Int.zero_tdiv]
  rw [interpolated_eq cap, zero, show roundedTenths 0 = 0 from rfl, add_zero, clamped, if_neg (by omega),
    if_neg (by omega)]

/-- **A row and back**: the distance is rounded back to the remainder, or to one less. -/
theorem interpolated_restoredVoltage (cap : 0 ≤ row.capacity ∧ row.capacity ≤ 100)
    (spaced : row.hysteresis = next.capacity - row.capacity) (adjacent : row.max + 1 = next.min)
    (pos : 0 < row.hysteresis) (small : row.hysteresis ≤ 100) (wide : 2 * row.hysteresis ≤ row.max - row.min)
    (fits : Fits row percent) : interpolated row next (restoredVoltage row percent) = row.capacity +
      if 2 * (percent % row.hysteresis + percent % row.hysteresis * (row.max - row.min) % row.hysteresis) ≤
        row.max - row.min + 1 then percent % row.hysteresis else percent % row.hysteresis - 1 := by
  have ge' := Int.emod_nonneg percent pos.ne'
  have lt' := Int.emod_lt_of_pos percent pos
  rcases eq_or_lt_of_le ge' with none | some
  · have start : restoredVoltage row percent = row.min := by
      rw [restoredVoltage, ← none, Int.zero_mul, Int.zero_ediv, add_zero]
    rw [start, interpolated_min cap (by omega), ← none, Int.zero_mul, Int.zero_emod, if_pos (by omega), add_zero]
  · have product := fits.product_lt pos
    have width := mul_le_mul_of_nonneg_right (show 1 ≤ percent % row.hysteresis from some)
      (show 0 ≤ row.max - row.min by omega)
    have distance : restoredVoltage row percent - row.min =
        percent % row.hysteresis * (row.max - row.min) / row.hysteresis := by
      rw [restoredVoltage, add_sub_cancel_left]
    have nonneg : 0 ≤ percent % row.hysteresis * (row.max - row.min) / row.hysteresis :=
      Int.ediv_nonneg (mul_nonneg ge' (by omega)) pos.le
    have part := rounded_part ge' lt' wide
    rw [interpolated_of_fits cap ⟨by omega, by omega⟩
      (by rw [distance, ← spaced]; exact mul_nonneg (by omega) nonneg) (by rw [distance, ← spaced]; exact fits),
      distance, ← spaced, show next.min - row.min = row.max - row.min + 1 by omega, part, clamped]
    split
    · rw [if_neg (by omega), if_neg (by omega)]
    · rw [if_neg (by omega), if_neg (by omega)]

/-- The percentage is near the stored one exactly if the remainder is near the distance. -/
theorem interpolated_near_iff (cap : 0 ≤ row.capacity ∧ row.capacity ≤ 100)
    (spaced : row.hysteresis = next.capacity - row.capacity) (adjacent : row.max + 1 = next.min)
    (ge : row.capacity ≤ percent) (lt : percent < next.capacity) (small : row.hysteresis ≤ 100)
    (wide : 2 * row.hysteresis ≤ row.max - row.min) (fits : Fits row percent) :
    |interpolated row next (restoredVoltage row percent) - percent| ≤ 1 ↔ Near row percent := by
  have pos : 0 < row.hysteresis := by omega
  have ge' := Int.emod_nonneg percent pos.ne'
  have lt' := Int.emod_lt_of_pos percent pos
  have back := interpolated_restoredVoltage cap spaced adjacent pos small wide fits
  rw [back, abs_le]
  split
  · next near =>
    constructor
    · intro h
      by_cases same : percent % row.hysteresis = percent - row.capacity
      · exact .same same
      · by_cases above : percent % row.hysteresis = percent - row.capacity + 1
        · exact .oneAbove above
        · exact .oneBelow (by omega) near
    · intro h
      cases h with
      | _ => omega
  · next far =>
    constructor
    · intro h
      by_cases same : percent % row.hysteresis = percent - row.capacity
      · exact .same same
      · by_cases above : percent % row.hysteresis = percent - row.capacity + 1
        · exact .oneAbove above
        · exact .twoAbove (by omega) (by omega)
    · intro h
      cases h with
      | _ => omega

end

/-! ## The stored text -/

/-- What `battery_record` stores. -/
def batteryRecord (percent : Nat) : List UInt8 := (Nat.toDigits 10 percent).map fun c => c.toNat.toUInt8

/-- `ds_read` of up to four bytes into a buffer of zeros. -/
def dsRead (data : List UInt8) : List UInt8 := (data ++ List.replicate 4 0).take 4

/-- The buffer holds the text of a percentage, and its terminator. -/
structure Stored (value : List UInt8) (percent : Int) : Prop where
  reads : atoi value = some percent
  ends : 0 ∈ value

/-- What `battery_record` stores is read back. -/
theorem stored_batteryRecord {percent : Nat} (h : percent ≤ 100) : Stored (dsRead (batteryRecord percent)) percent := by
  have all : ∀ percent < 101, atoi (dsRead (batteryRecord percent)) = some (percent : Int) ∧
      0 ∈ dsRead (batteryRecord percent) := by
    decide
  obtain ⟨reads, ends⟩ := all percent (by omega)
  exact ⟨reads, ends⟩

/-- More digits do not make the number smaller. -/
theorem digits_le : ∀ {l : List UInt8} {n m : Nat}, digits l n = some m → n ≤ m
  | b :: l, n, m, h => by
    unfold digits at h
    split at h
    · have := digits_le h
      omega
    · cases h
      exact le_rfl

theorem atoi_digit {b : UInt8} {l : List UInt8} (h : 48 ≤ b ∧ b ≤ 57) :
    atoi (b :: l) = (digits l (b.toNat - 48)).map Int.ofNat := by
  have digit : isspace b = false ∧ b ≠ 45 ∧ b ≠ 43 := by
    grind [isspace]
  rw [atoi, List.dropWhile_cons_of_neg (by simp [digit.1])]
  simp only [if_neg digit.2.1, if_neg digit.2.2, digits, if_pos h, Nat.mul_zero, Nat.zero_add]
  cases digits l (b.toNat - 48) <;> rfl

/-- A text that is empty, or `0`, is read as 0. -/
theorem atoi_zero {value : List UInt8} (ends : 0 ∈ value)
    (h : (CStr.ofBytes value).bytes = (CStr.lit "0").bytes.take (CStr.ofBytes value).strlen) : atoi value = some 0 := by
  have zero : ∀ l : List UInt8, digits (0 :: l) 0 = some 0 := fun _ => rfl
  cases value with
  | nil => cases ends
  | cons b l =>
    by_cases nul : b = 0
    · rw [nul]
      rfl
    · have text : (CStr.ofBytes (b :: l)).bytes = b :: (CStr.ofBytes l).bytes := by
        simp [CStr.ofBytes, nul]
      rw [CStr.strlen, text, List.length_cons, show (CStr.lit "0").bytes = [48] from rfl, List.take_succ_cons,
        List.take_nil, List.cons.injEq] at h
      obtain ⟨rfl, empty⟩ := h
      cases l with
      | nil => simp at ends
      | cons c l =>
        have nul' : c = 0 := by
          by_contra more
          simp [CStr.ofBytes, more] at empty
        rw [nul', atoi_digit (by decide)]
        rfl

/-- A text that starts with `100` is read as 100 at least. -/
theorem atoi_hundred {value : List UInt8} {percent : Int} (h : value.take 3 = (CStr.lit "100").bytes)
    (reads : atoi value = some percent) : 100 ≤ percent := by
  have parts : value = [49, 48, 48] ++ value.drop 3 := by
    rw [show ([49, 48, 48] : List UInt8) = (CStr.lit "100").bytes from rfl, ← h, List.take_append_drop]
  rw [parts, List.cons_append, atoi_digit (by decide)] at reads
  obtain ⟨n, hn, rfl⟩ := Option.map_eq_some_iff.1 reads
  have : 100 ≤ n := digits_le (l := value.drop 3) hn
  exact Int.ofNat_le.2 this

/-! ## Restoring -/

/-- **The loop over the rows** restores the percentage in the row that it falls in. -/
theorem restoreLoop_of_mem {percent : Int} (nonneg : 0 ≤ percent) {rows : List CapacityParams} {i : Nat}
    {row next : CapacityParams} (increasing : rows.IsChain fun row next => row.capacity < next.capacity)
    (hi : rows[i]? = some row) (hj : rows[i + 1]? = some next) (ge : row.capacity ≤ percent)
    (lt : percent < next.capacity) (le : row.min ≤ row.max) (pos : 0 < row.hysteresis)
    (product : IsInt (percent % row.hysteresis * (row.max - row.min))) (voltage : IsInt (restoredVoltage row percent)) :
    restoreLoop percent rows = some (some (restoredVoltage row percent)) := by
  induction rows generalizing i with
  | nil => cases hi
  | cons a rows ih =>
    cases rows with
    | nil => cases hj
    | cons b rows =>
      cases i with
      | zero =>
        cases hi
        cases hj
        have part : 0 ≤ percent % row.hysteresis * (row.max - row.min) :=
          mul_nonneg (Int.emod_nonneg _ pos.ne') (by omega)
        rw [restoreLoop, if_pos ⟨ge, lt⟩, mod_of_pos pos, Int.tmod_eq_emod_of_nonneg nonneg]
        simp only [Option.bind_eq_bind, Option.bind_some, mul_int32, product.int32_eq, div_of_pos pos,
          Int.tdiv_eq_ediv_of_nonneg part]
        rw [← restoredVoltage, voltage.int32_eq]
      | succ i =>
        obtain ⟨-, rest⟩ := List.isChain_cons_cons.1 increasing
        -- the rows before have their next capacity below the percentage
        have later : b.capacity ≤ row.capacity := by
          cases i with
          | zero =>
            cases hi
            exact le_rfl
          | succ k => exact (capacity_lt rest (i := 0) rfl hi (Nat.succ_pos k)).le
        rw [restoreLoop, if_neg (by omega)]
        exact ih rest hi hj

section

variable {table : List CapacityParams} (sp : Spaced table) {i : Nat} {row next : CapacityParams}
  (hi : table[i]? = some row) (hj : table[i + 1]? = some next)
include sp hi hj

/-- The hysteresis of a row is its part of the 100 percent. -/
theorem Spaced.hysteresis_range : 0 < row.hysteresis ∧ row.hysteresis ≤ 100 := by
  have cap := capacity_range_of_increasing sp.first sp.last sp.increasing hi
  have top := capacity_range_of_increasing sp.first sp.last sp.increasing hj
  have lt := isChain_getElem? sp.increasing hi hj
  have spaced := isChain_getElem? sp.spaced hi hj
  omega

/-- **`get_battery_before_poweroff`** restores a percentage in the row that it falls in. -/
theorem getBatteryBeforePoweroff_restores (inner : 0 < i) {value : List UInt8} {percent : Int}
    (stored : Stored value percent) (ge : row.capacity ≤ percent) (lt : percent < next.capacity)
    (fits : Fits row percent) (adcNum : Int) (s : State) : getBatteryBeforePoweroff table value adcNum s = some { s with
      mybattery := { s.mybattery with prePercent := percent, preVoltage := restoredVoltage row percent } } := by
  have pos := (capacity_range_of_increasing sp.first sp.last sp.increasing hi).2.2 inner
  have below := (capacity_range_of_increasing sp.first sp.last sp.increasing hj).2.1
  have hys := sp.hysteresis_range hi hj
  have le := sp.min_le_max hi
  have here := restoredVoltage_holds percent hys.1 le
  have limits := sp.ints row (List.mem_of_getElem? hi)
  have voltage : IsInt (restoredVoltage row percent) := ⟨limits.1.1.trans here.1, here.2.trans_lt limits.2.2⟩
  have product : IsInt (percent % row.hysteresis * (row.max - row.min)) := by
    have := fits.product_lt hys.1
    have := mul_nonneg (Int.emod_nonneg percent hys.1.ne') (show 0 ≤ row.max - row.min by omega)
    exact ⟨by omega, by omega⟩
  have loop := restoreLoop_of_mem (by omega) sp.increasing hi hj ge lt le hys.1 product voltage
  have text : str value = some (.ofBytes value) := if_pos stored.ends
  have notZero := mt (atoi_zero stored.ends) (by rw [stored.reads, Option.some_inj]; omega)
  have notHundred : value.take 3 ≠ (CStr.lit "100").bytes := by
    intro h
    have := atoi_hundred h stored.reads
    omega
  simp only [getBatteryBeforePoweroff, stored.reads, text, loop, Option.bind_eq_bind, Option.bind_some,
    if_neg notZero, if_neg notHundred]
  rw [if_neg (by omega)]

end

/-- The voltage that is restored is converted back to a percentage that is at most one away. -/
def Agrees (table : List CapacityParams) (value : List UInt8) (percent adcNum : Int) (s : State) : Prop :=
  ∃ s' percent', getBatteryBeforePoweroff table value adcNum s = some s' ∧
    calculateBatteryPercent table s'.mybattery.preVoltage = some percent' ∧ |percent' - percent| ≤ 1

/-- **Restoring and converting agree** to one percent exactly if the remainder is near the distance, where nothing
overflows. Take any table whose rows follow one another, with capacities that rise from 0 to 100 by the hysteresis of
each row but the last, and a stored percentage in a row that is neither the first nor the last, and at least twice as
wide in voltage as in percent. -/
theorem restore_agrees {table : List CapacityParams} (sp : Spaced table) {i : Nat} {row next : CapacityParams}
    (hi : table[i]? = some row) (hj : table[i + 1]? = some next) (inner : 0 < i) {value : List UInt8} {percent : Int}
    (stored : Stored value percent) (ge : row.capacity ≤ percent) (lt : percent < next.capacity)
    (wide : 2 * row.hysteresis ≤ row.max - row.min) (adcNum : Int) (s : State) (fits : Fits row percent) :
    Agrees table value percent adcNum s ↔ Near row percent := by
  have cap := capacity_range_of_increasing sp.first sp.last sp.increasing hi
  have hys := sp.hysteresis_range hi hj
  have spaced := isChain_getElem? sp.spaced hi hj
  have adjacent := isChain_getElem? sp.adjacent hi hj
  have ret := getBatteryBeforePoweroff_restores sp hi hj inner stored ge lt fits adcNum s
  have here := restoredVoltage_holds percent hys.1 (sp.min_le_max hi)
  have back := calculateBatteryPercent_middle sp.toContiguous sp.ints hi hj here inner
  rw [← interpolated_near_iff ⟨cap.1, cap.2.1⟩ spaced adjacent ge lt hys.2 wide fits]
  simp only [Agrees, ret, Option.some_inj]
  constructor
  · rintro ⟨s', percent', rfl, h, near⟩
    rw [back] at h
    cases h
    exact near
  · intro near
    exact ⟨_, _, rfl, back, near⟩

/-- 55 percent, in the source's table. -/
theorem restore_agrees_middle : Agrees capParams (dsRead (batteryRecord 55)) 55 0 batteryParamsInit :=
  (@restore_agrees capParams capParams_spaced 6 _ _ rfl rfl (by decide) _ 55 (stored_batteryRecord (by decide))
    (by decide) (by decide) (by decide) 0 batteryParamsInit (by decide)).2 (.same rfl)

/-- **A stored 9** is restored to the start of its row in the source's table, which is converted to 1. -/
theorem restore_nine : ¬ ∀ (table : List CapacityParams), Spaced table → ∀ (i : Nat) (row next : CapacityParams),
    table[i]? = some row → table[i + 1]? = some next → 0 < i → ∀ (value : List UInt8) (percent : Int),
    Stored value percent → row.capacity ≤ percent → percent < next.capacity →
    2 * row.hysteresis ≤ row.max - row.min → ∀ (adcNum : Int) (s : State), Agrees table value percent adcNum s := by
  intro always
  obtain ⟨s', percent', ret, back, near⟩ := always capParams capParams_spaced 1 _ _ rfl rfl (by decide) _ 9
    (stored_batteryRecord (by decide)) (by decide) (by decide) (by decide) 0 batteryParamsInit
  have start := @getBatteryBeforePoweroff_restores capParams capParams_spaced 1 _ _ rfl rfl (by decide) _ 9
    (stored_batteryRecord (by decide)) (by decide) (by decide) (by decide) 0 batteryParamsInit
  have one : calculateBatteryPercent capParams (restoredVoltage ⟨1, 3427, 3638, 0, 9⟩ 9) = some 1 := by decide
  rw [start] at ret
  cases ret
  rw [one] at back
  cases back
  revert near
  decide

end CodeBackup.Battery
