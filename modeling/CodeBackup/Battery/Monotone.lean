import CodeBackup.Battery.Search

/-!
# A monotone percentage

A larger voltage is not converted to a smaller percentage, if no row is so wide
that the interpolation overflows. In a row the percentage stays between the
capacities of the row and the next one, so it does not fall from a row to the
next; below the table it is 0, above it 100. In a row it falls exactly if an
overflow shows (`rowMonotone_iff`), and the whole conversion is monotone exactly
if none does in any row (`calculateBatteryPercent_mono_iff`).
-/

namespace CodeBackup.Battery

open C

/-- The ranges follow one another, and the capacities are percentages that do not fall. -/
structure Rising (table : List CapacityParams) : Prop extends Contiguous table where
  rising : table.IsChain fun row next => row.capacity ≤ next.capacity
  percent : ∀ row ∈ table, 0 ≤ row.capacity ∧ row.capacity ≤ 100
  ints : Ints table

theorem WellFormed.rising {table : List CapacityParams} (wf : WellFormed table) : Rising table where
  rows := wf.rows
  ordered := wf.ordered
  adjacent := wf.adjacent
  rising := wf.increasing.imp fun _ _ lt => lt.le
  percent _ := wf.capacity_range
  ints := wf.ints

/-- No overflow, or one that does not show, in a row that is `k` percents high and `w` mV wide. The product of the
interpolation is `10 * k * x` at the voltage `x` mV above the start of the row. -/
inductive Smooth (k w : Int) : Prop
  /-- Nothing overflows. -/
  | fits : 10 * k * (w - 1) < 2 ^ 31 → Smooth k w
  /-- The width fits, and no product before the last, as an `int`, is five times as large. -/
  | small : w < 2 ^ 31 → (∀ x, 0 ≤ x → x + 1 < w → int32 (10 * k * x) < 5 * w) → Smooth k w
  /-- The width becomes negative, and no product before the last, as an `int`, is five times as small. -/
  | wide : 2 ^ 31 ≤ w → (∀ x, 0 ≤ x → x + 1 < w → 5 * (w - 2 ^ 32) < int32 (10 * k * x)) → Smooth k w

/-- No overflow shows in any row but the first and the last. -/
def SmoothRows (table : List CapacityParams) : Prop :=
  ∀ (i : Nat) (row next : CapacityParams), 0 < i → table[i]? = some row → table[i + 1]? = some next →
    Smooth (next.capacity - row.capacity) (next.min - row.min)

/-! ## Overflows -/

section

variable {m w x : Int}

/-- The last product before the first overflow, and the one after it. -/
theorem first_overflow (ge : 10 ≤ m) (le : m ≤ 1000) (wraps : 2 ^ 31 ≤ m * (w - 1)) : ∃ y, 0 ≤ y ∧ y + 1 < w ∧
    m * y < 2 ^ 31 ∧ 2 ^ 31 ≤ m * y + m ∧ int32 (m * y) = m * y ∧ int32 (m * (y + 1)) = m * y + m - 2 ^ 32 := by
  have pos : 0 < m := by omega
  obtain ⟨y, e⟩ : ∃ y, y = (2 ^ 31 - 1) / m := ⟨_, rfl⟩
  have nonneg : 0 ≤ y := by
    rw [e]
    exact Int.ediv_nonneg (by decide) pos.le
  have last : m * y ≤ 2 ^ 31 - 1 := by
    rw [e]
    exact Int.mul_ediv_self_le pos.ne'
  have next : 2 ^ 31 - 1 < m * y + m := by
    rw [e]
    exact Int.lt_mul_ediv_self_add pos
  have before : y + 1 < w := by
    by_contra more
    have := mul_le_mul_of_nonneg_left (show w - 1 ≤ y by omega) pos.le
    omega
  have product := mul_nonneg pos.le nonneg
  refine ⟨y, nonneg, before, by omega, by omega, (show IsInt (m * y) from ⟨by omega, by omega⟩).int32_eq, ?_⟩
  rw [mul_add, mul_one, int32_eq]
  split
  · omega
  · omega

/-- **A narrow row**: if a product before the last is large, one is large and a later one is not. -/
theorem overflow_shows (ge : 10 ≤ m) (le : m ≤ 1000) (wraps : 2 ^ 31 ≤ m * (w - 1)) (nonneg : 0 ≤ x) (lt : x + 1 < w)
    (large : 5 * w ≤ int32 (m * x)) :
    ∃ y z, 0 ≤ y ∧ y ≤ z ∧ z < w ∧ 5 * w ≤ int32 (m * y) ∧ int32 (m * z) < 5 * w := by
  have range := isInt_int32 (m * x)
  unfold IsInt at range
  have step : m * (x + 1) = m * x + m := by ring
  by_cases turn : 2 ^ 31 ≤ int32 (m * x) + m
  · -- the next product has turned around
    refine ⟨x, x + 1, nonneg, by omega, lt, large, ?_⟩
    rw [step, ← int32_add, int32_eq]
    split
    · omega
    · omega
  · -- the last product before the first overflow is still larger
    obtain ⟨y, nonneg', before, last, next, same, turned⟩ := first_overflow ge le wraps
    exact ⟨y, y + 1, nonneg', by omega, before, by omega, by omega⟩

/-- **A wide row**: if a product before the last is very negative, one is and a later one is not. -/
theorem overflow_shows_wide (ge : 10 ≤ m) (le : m ≤ 1000) (wide : 2 ^ 31 ≤ w) (lt32 : w ≤ 2 ^ 32 - 2)
    (nonneg : 0 ≤ x) (lt : x + 1 < w) (small : int32 (m * x) ≤ 5 * (w - 2 ^ 32)) :
    ∃ y z, 0 ≤ y ∧ y ≤ z ∧ z < w ∧ int32 (m * y) ≤ 5 * (w - 2 ^ 32) ∧ 5 * (w - 2 ^ 32) < int32 (m * z) := by
  have pos : 0 < m := by omega
  have range := isInt_int32 (m * x)
  unfold IsInt at range
  have step : m * (x + 1) = m * x + m := by ring
  by_cases rises : 5 * (w - 2 ^ 32) < int32 (m * x) + m
  · -- the next product is not as negative
    refine ⟨x, x + 1, nonneg, by omega, lt, small, ?_⟩
    rw [step, ← int32_add, (show IsInt (int32 (m * x) + m) from ⟨by omega, by omega⟩).int32_eq]
    exact rises
  · -- the first product that has turned around is more negative, and the row is wide enough for it to come back
    have wraps : 2 ^ 31 ≤ m * (w - 1) := by
      have := mul_le_mul_of_nonneg_right ge (show 0 ≤ w - 1 by omega)
      omega
    obtain ⟨y, nonneg', -, last, next, same, turned⟩ := first_overflow ge le wraps
    obtain ⟨z, e⟩ : ∃ z, z = 2 ^ 32 / m + 1 := ⟨_, rfl⟩
    have beyond : 2 ^ 32 < m * z := by
      rw [e, mul_add, mul_one]
      exact Int.lt_mul_ediv_self_add pos
    have near : m * z ≤ 2 ^ 32 + m := by
      have := Int.mul_ediv_self_le (x := 2 ^ 32) pos.ne'
      rw [e, mul_add, mul_one]
      omega
    have inside : 2 ^ 32 / m ≤ 429496730 := Int.ediv_le_of_le_mul pos (by omega)
    have back : int32 (m * z) = m * z - 2 ^ 32 := by
      rw [int32_eq]
      split
      · omega
      · omega
    have later : y + 1 ≤ z := by
      by_contra more
      have := mul_le_mul_of_nonneg_left (show z ≤ y by omega) pos.le
      omega
    exact ⟨y + 1, z, by omega, later, by omega, by omega, by omega⟩

end

/-! ## Interpolation -/

section

variable {a b : Int}

theorem five_le_tdiv (pos : 0 < b) : 5 ≤ a.tdiv b ↔ 5 * b ≤ a := by
  rcases le_total 0 a with ge | le
  · rw [Int.tdiv_eq_ediv_of_nonneg ge]
    exact Int.le_ediv_iff_mul_le pos
  · obtain ⟨n, rfl⟩ : ∃ n, a = -n := ⟨-a, by omega⟩
    have := Int.tdiv_nonneg (show 0 ≤ n by omega) pos.le
    rw [Int.neg_tdiv]
    omega

variable {row next : CapacityParams} {vbat : Int}

/-- Where the interpolation rounds up, in a row whose width fits. -/
theorem five_le_offset (range : 0 < next.min - row.min ∧ next.min - row.min < 2 ^ 31) : 5 ≤ offset row next vbat ↔
    5 * (next.min - row.min) ≤ int32 (10 * (next.capacity - row.capacity) * (vbat - row.min)) := by
  rw [offset, (show IsInt (next.min - row.min) from ⟨by omega, range.2⟩).int32_eq, five_le_tdiv range.1]

/-- And in one whose width does not. -/
theorem five_le_offset_wide (range : 2 ^ 31 ≤ next.min - row.min ∧ next.min - row.min ≤ 2 ^ 32 - 2) :
    5 ≤ offset row next vbat ↔
    int32 (10 * (next.capacity - row.capacity) * (vbat - row.min)) ≤ 5 * (next.min - row.min - 2 ^ 32) := by
  obtain ⟨a, e⟩ : ∃ a, a = 2 ^ 32 - (next.min - row.min) := ⟨_, rfl⟩
  have width : int32 (next.min - row.min) = -a := by
    rw [int32_eq]
    split
    · omega
    · omega
  rw [offset, width, Int.tdiv_neg, ← Int.neg_tdiv, five_le_tdiv (by omega)]
  omega

/-- The percentage is more than the row's capacity exactly where the interpolation rounds up. -/
theorem capacity_lt_interpolated (percent : 0 ≤ row.capacity ∧ row.capacity ≤ 100)
    (lt : row.capacity < next.capacity) : row.capacity < interpolated row next vbat ↔ 5 ≤ offset row next vbat := by
  rw [interpolated_eq percent, ← roundedTenths_pos]
  unfold clamped
  split
  · omega
  · split
    · omega
    · omega

/-- In the row, a larger voltage is not converted to a smaller percentage. -/
def RowMonotone (row next : CapacityParams) : Prop :=
  ∀ vbat vbat', row.Holds vbat → row.Holds vbat' → vbat ≤ vbat' →
    interpolated row next vbat ≤ interpolated row next vbat'

/-- Without an overflow the interpolation is monotone. -/
theorem rowMonotone_of_fits (percent : 0 ≤ row.capacity ∧ row.capacity ≤ 100) (lt : row.capacity < next.capacity)
    (adjacent : row.max + 1 = next.min)
    (fits : 10 * (next.capacity - row.capacity) * (next.min - row.min - 1) < 2 ^ 31) : RowMonotone row next := by
  intro vbat vbat' here there le
  unfold CapacityParams.Holds at here there
  have ten : 10 ≤ 10 * (next.capacity - row.capacity) := by omega
  have product : ∀ x, 0 ≤ x → x ≤ next.min - row.min - 1 →
      0 ≤ 10 * (next.capacity - row.capacity) * x ∧ 10 * (next.capacity - row.capacity) * x < 2 ^ 31 := by
    intro x ge top
    have := mul_le_mul_of_nonneg_left top (show 0 ≤ 10 * (next.capacity - row.capacity) by omega)
    exact ⟨mul_nonneg (by omega) ge, by omega⟩
  have width : 0 < next.min - row.min ∧ next.min - row.min < 2 ^ 31 := by
    have := mul_le_mul_of_nonneg_right ten (show 0 ≤ next.min - row.min - 1 by omega)
    omega
  have here' := product (vbat - row.min) (by omega) (by omega)
  have there' := product (vbat' - row.min) (by omega) (by omega)
  rw [interpolated_of_fits percent width here'.1 here'.2, interpolated_of_fits percent width there'.1 there'.2]
  have more := mul_le_mul_of_nonneg_left (show vbat - row.min ≤ vbat' - row.min by omega)
    (show 0 ≤ next.capacity - row.capacity by omega)
  have tenths := Int.tdiv_le_tdiv width.1 (mul_le_mul_of_nonneg_right more (show (0 : Int) ≤ 10 by decide))
  exact clamped_mono lt.le (by have := roundedTenths_mono tenths; unfold rounded; omega)

/-- A row that rounds up at its last voltage only is monotone. -/
theorem rowMonotone_of_flat (percent : 0 ≤ row.capacity ∧ row.capacity ≤ 100) (lt : row.capacity < next.capacity)
    (flat : ∀ vbat, row.min ≤ vbat → vbat < row.max → ¬5 ≤ offset row next vbat) : RowMonotone row next := by
  intro vbat vbat' here there le
  rcases eq_or_lt_of_le le with rfl | before
  · exact le_rfl
  · have low := mt (capacity_lt_interpolated percent lt).1 (flat vbat here.1 (before.trans_le there.2))
    have high := (clamped_between (int32 (row.capacity + roundedTenths (offset row next vbat'))) lt.le).1
    exact (Int.not_lt.1 low).trans high

/-- **In a row** the percentage is monotone exactly if no overflow shows. -/
theorem rowMonotone_iff (percent : 0 ≤ row.capacity ∧ row.capacity ≤ 100) (top : next.capacity ≤ 100)
    (le : row.capacity ≤ next.capacity) (adjacent : row.max + 1 = next.min)
    (width : 0 < next.min - row.min ∧ next.min - row.min ≤ 2 ^ 32 - 2) :
    RowMonotone row next ↔ Smooth (next.capacity - row.capacity) (next.min - row.min) := by
  rcases eq_or_lt_of_le le with same | lt
  · -- a row of 0 percent
    refine ⟨fun _ => .fits ?_, fun _ vbat vbat' _ _ _ => ?_⟩
    · rw [same, sub_self, mul_zero, zero_mul]
      decide
    · have low := (clamped_between (int32 (row.capacity + roundedTenths (offset row next vbat))) le).2
      have high := (clamped_between (int32 (row.capacity + roundedTenths (offset row next vbat'))) le).1
      exact (low.trans_eq same.symm).trans high
  · constructor
    · intro mono
      -- two voltages of the row of which only the first is rounded up
      have never : ∀ y z, 0 ≤ y → y ≤ z → z < next.min - row.min → 5 ≤ offset row next (row.min + y) →
          ¬5 ≤ offset row next (row.min + z) → False := by
        intro y z nonneg le inside up down
        have := mono (row.min + y) (row.min + z) ⟨by omega, by omega⟩ ⟨by omega, by omega⟩ (by omega)
        rw [← capacity_lt_interpolated percent lt] at up down
        omega
      by_cases fits : 10 * (next.capacity - row.capacity) * (next.min - row.min - 1) < 2 ^ 31
      · exact .fits fits
      · by_cases narrow : next.min - row.min < 2 ^ 31
        · refine .small narrow fun x nonneg inside => ?_
          by_contra large
          obtain ⟨y, z, nonneg', le', inside', up, down⟩ :=
            overflow_shows (by omega) (by omega) (Int.not_lt.1 fits) nonneg inside (Int.not_lt.1 large)
          refine never y z nonneg' le' inside' ?_ ?_
          · rw [five_le_offset ⟨width.1, narrow⟩, add_sub_cancel_left]
            exact up
          · rw [five_le_offset ⟨width.1, narrow⟩, add_sub_cancel_left]
            omega
        · refine .wide (Int.not_lt.1 narrow) fun x nonneg inside => ?_
          by_contra small
          obtain ⟨y, z, nonneg', le', inside', up, down⟩ := overflow_shows_wide (by omega) (by omega)
            (Int.not_lt.1 narrow) width.2 nonneg inside (Int.not_lt.1 small)
          refine never y z nonneg' le' inside' ?_ ?_
          · rw [five_le_offset_wide ⟨Int.not_lt.1 narrow, width.2⟩, add_sub_cancel_left]
            exact up
          · rw [five_le_offset_wide ⟨Int.not_lt.1 narrow, width.2⟩, add_sub_cancel_left]
            omega
    · intro smooth
      cases smooth with
      | fits fits => exact rowMonotone_of_fits percent lt adjacent fits
      | small narrow flat =>
        refine rowMonotone_of_flat percent lt fun vbat ge before => ?_
        rw [five_le_offset ⟨width.1, narrow⟩, Int.not_le]
        exact flat _ (by omega) (by omega)
      | wide wide flat =>
        refine rowMonotone_of_flat percent lt fun vbat ge before => ?_
        rw [five_le_offset_wide ⟨wide, width.2⟩, Int.not_le]
        exact flat _ (by omega) (by omega)

end

/-! ## Rows -/

namespace Rising

variable {table : List CapacityParams} (h : Rising table) {row row' : CapacityParams} {i j : Nat}
  {vbat vbat' p p' : Int}
include h

theorem capacity_mono (hi : table[i]? = some row) (hj : table[j]? = some row') (le : i ≤ j) :
    row.capacity ≤ row'.capacity := by
  have : IsTrans CapacityParams fun row next => row.capacity ≤ next.capacity := ⟨fun _ _ _ => le_trans⟩
  rcases Nat.eq_or_lt_of_le le with rfl | lt
  · rw [hi] at hj
    cases hj
    exact le_rfl
  · exact pairwise_getElem? h.rising hi hj lt

/-- **A voltage in a row** is converted to a percentage between the capacities of the row and those after it. -/
theorem percent_of_mem (hi : table[i]? = some row) (here : row.Holds vbat) :
    ∃ p, calculateBatteryPercent table vbat = some p ∧ row.capacity ≤ p ∧ p ≤ 100 ∧
      ∀ {j : Nat} {row' : CapacityParams}, i < j → table[j]? = some row' → p ≤ row'.capacity := by
  have inside := (List.getElem?_eq_some_iff.1 hi).1
  by_cases end_ : i = 0 ∨ i + 1 = table.length
  · refine ⟨row.capacity, calculateBatteryPercent_end h.toContiguous hi here end_, le_rfl,
      (h.percent row (List.mem_of_getElem? hi)).2, ?_⟩
    intro j row' lt hj
    exact h.capacity_mono hi hj lt.le
  · have hj := List.getElem?_eq_getElem (show i + 1 < table.length by omega)
    have between := clamped_between (int32 (row.capacity + roundedTenths (offset row table[i + 1] vbat)))
      (h.capacity_mono hi hj (Nat.le_succ i))
    have top := (h.percent _ (List.mem_of_getElem? hj)).2
    have middle := calculateBatteryPercent_middle h.toContiguous h.ints hi hj here (by omega)
    refine ⟨_, middle, between.1, between.2.trans top, ?_⟩
    intro k row' lt hk
    exact between.2.trans (h.capacity_mono hj hk lt)

theorem rowMonotone_iff (hi : table[i]? = some row) (hj : table[i + 1]? = some row') (inner : 0 < i) :
    RowMonotone row row' ↔ Smooth (row'.capacity - row.capacity) (row'.min - row.min) :=
  Battery.rowMonotone_iff (h.percent row (List.mem_of_getElem? hi)) (h.percent row' (List.mem_of_getElem? hj)).2
    (h.capacity_mono hi hj (Nat.le_succ i)) (isChain_getElem? h.adjacent hi hj)
    (width_range h.ints h.ordered h.adjacent hi hj inner)

/-- In a row the percentage is monotone, if no overflow shows. -/
theorem percent_mono_of_mem (smooth : SmoothRows table) (hi : table[i]? = some row) (here : row.Holds vbat)
    (there : row.Holds vbat') (le : vbat ≤ vbat') (hp : calculateBatteryPercent table vbat = some p)
    (hp' : calculateBatteryPercent table vbat' = some p') : p ≤ p' := by
  have inside := (List.getElem?_eq_some_iff.1 hi).1
  by_cases end_ : i = 0 ∨ i + 1 = table.length
  · rw [calculateBatteryPercent_end h.toContiguous hi here end_] at hp
    rw [calculateBatteryPercent_end h.toContiguous hi there end_] at hp'
    cases hp
    cases hp'
    exact le_rfl
  · have hj := List.getElem?_eq_getElem (show i + 1 < table.length by omega)
    rw [calculateBatteryPercent_middle h.toContiguous h.ints hi hj here (by omega)] at hp
    rw [calculateBatteryPercent_middle h.toContiguous h.ints hi hj there (by omega)] at hp'
    cases hp
    cases hp'
    exact (h.rowMonotone_iff hi hj (by omega)).2 (smooth i row _ (by omega) hi hj) vbat vbat' here there le

/-- From row to row the percentage is monotone: the capacity of the later row is between the two. -/
theorem percent_mono_of_rows (smooth : SmoothRows table) (hi : table[i]? = some row) (here : row.Holds vbat)
    (hj : table[j]? = some row') (there : row'.Holds vbat') (le : vbat ≤ vbat') (hp : calculateBatteryPercent table vbat = some p)
    (hp' : calculateBatteryPercent table vbat' = some p') : p ≤ p' := by
  rcases Nat.lt_trichotomy i j with lt | rfl | gt
  · obtain ⟨q, ret, -, -, later⟩ := h.percent_of_mem hi here
    obtain ⟨q', ret', from_, -, -⟩ := h.percent_of_mem hj there
    rw [hp] at ret
    rw [hp'] at ret'
    cases ret
    cases ret'
    exact (later lt hj).trans from_
  · rw [hj] at hi
    cases hi
    exact h.percent_mono_of_mem smooth hj here there le hp hp'
  · have := h.max_lt_min hj gt hi
    have := here.1
    have := there.2
    omega

/-- **Every voltage** is below the table, above it, or in a row of it. -/
theorem cases_voltage (vbat : Int) : calculateBatteryPercent table vbat = some 0 ∧ (∀ row ∈ table, vbat < row.min) ∨
    calculateBatteryPercent table vbat = some 100 ∧ (∀ row ∈ table, row.max < vbat) ∨
    ∃ (i : Nat) (row : CapacityParams), table[i]? = some row ∧ row.Holds vbat := by
  have inside : table.length - 1 < table.length := Nat.sub_lt h.rows Nat.one_pos
  have hf := List.getElem?_eq_getElem h.rows
  have hl := List.getElem?_eq_getElem inside
  by_cases below : vbat < table[0].min
  · left
    refine ⟨?_, h.below_of_first hf below⟩
    simp only [calculateBatteryPercent, hf, hl, Option.bind_eq_bind, Option.bind_some]
    rw [if_pos below]
  · right
    by_cases above : table[table.length - 1].max < vbat
    · left
      refine ⟨?_, h.above_of_last hl above⟩
      simp only [calculateBatteryPercent, hf, hl, Option.bind_eq_bind, Option.bind_some]
      rw [if_neg below, if_pos above]
    · right
      exact h.exists_row hf hl (by omega) (by omega)

/-- A percentage, of any voltage. -/
theorem percent_range (vbat : Int) : ∃ p, calculateBatteryPercent table vbat = some p ∧ 0 ≤ p ∧ p ≤ 100 := by
  rcases h.cases_voltage vbat with ⟨ret, -⟩ | ⟨ret, -⟩ | ⟨i, row, hi, here⟩
  · exact ⟨0, ret, by omega, by omega⟩
  · exact ⟨100, ret, by omega, by omega⟩
  · obtain ⟨p, ret, ge, le, -⟩ := h.percent_of_mem hi here
    exact ⟨p, ret, (h.percent row (List.mem_of_getElem? hi)).1.trans ge, le⟩

end Rising

/-- A larger voltage is not converted to a smaller percentage, if no overflow shows. -/
theorem Rising.percent_mono {table : List CapacityParams} (h : Rising table) (smooth : SmoothRows table)
    {vbat vbat' p p' : Int} (le : vbat ≤ vbat') (ret : calculateBatteryPercent table vbat = some p)
    (ret' : calculateBatteryPercent table vbat' = some p') : p ≤ p' := by
  obtain ⟨q, same, ge0, le100⟩ := h.percent_range vbat
  obtain ⟨q', same', ge0', le100'⟩ := h.percent_range vbat'
  obtain rfl : p = q := Option.some.inj (ret.symm.trans same)
  obtain rfl : p' = q' := Option.some.inj (ret'.symm.trans same')
  rcases h.cases_voltage vbat with ⟨zero, -⟩ | ⟨-, above⟩ | ⟨i, row, hi, here⟩
  · rw [ret] at zero
    cases zero
    exact ge0'
  · rcases h.cases_voltage vbat' with ⟨-, below⟩ | ⟨hundred, -⟩ | ⟨j, row', hj, there⟩
    · have first := List.getElem_mem h.rows
      have := above _ first
      have := below _ first
      have := h.ordered _ first
      omega
    · rw [ret'] at hundred
      cases hundred
      exact le100
    · have := above row' (List.mem_of_getElem? hj)
      have := there.2
      omega
  · rcases h.cases_voltage vbat' with ⟨-, below⟩ | ⟨hundred, -⟩ | ⟨j, row', hj, there⟩
    · have := below row (List.mem_of_getElem? hi)
      have := here.1
      omega
    · rw [ret'] at hundred
      cases hundred
      exact le100
    · exact h.percent_mono_of_rows smooth hi here hj there le ret ret'

/-- **The percentage is a monotone function of the voltage exactly if no overflow shows.** Take any table with at least
one row whose ranges follow one another and whose capacities are percentages that do not fall. Every voltage, in the
table or not, is converted without a division by zero to a percentage between 0 and 100, and a larger one not to a
smaller one, if and only if the rows but the first and the last are smooth. -/
theorem calculateBatteryPercent_mono_iff {table : List CapacityParams} (h : Rising table) :
    (∀ vbat vbat', vbat ≤ vbat' → ∃ p p', calculateBatteryPercent table vbat = some p ∧
      calculateBatteryPercent table vbat' = some p' ∧ 0 ≤ p ∧ p ≤ p' ∧ p' ≤ 100) ↔ SmoothRows table := by
  constructor
  · intro mono i row next inner hi hj
    rw [← h.rowMonotone_iff hi hj inner]
    intro vbat vbat' here there le
    obtain ⟨p, p', ret, ret', -, le', -⟩ := mono vbat vbat' le
    rw [calculateBatteryPercent_middle h.toContiguous h.ints hi hj here inner] at ret
    rw [calculateBatteryPercent_middle h.toContiguous h.ints hi hj there inner] at ret'
    cases ret
    cases ret'
    exact le'
  · intro smooth vbat vbat' le
    obtain ⟨p, ret, ge0, -⟩ := h.percent_range vbat
    obtain ⟨p', ret', -, le100⟩ := h.percent_range vbat'
    exact ⟨p, p', ret, ret', ge0, h.percent_mono smooth le ret ret', le100⟩

/-- The rows of the source's table are narrow. -/
theorem smoothRows_capParams : SmoothRows capParams := by
  have fits : capParams.IsChain fun row next =>
      10 * (next.capacity - row.capacity) * (next.min - row.min - 1) < 2 ^ 31 := by
    decide
  exact fun i row next _ hi hj => .fits (isChain_getElem? fits hi hj)

/-- A voltage in the second row of the source's table, and one above the table. -/
theorem calculateBatteryPercent_mono_above : ∃ p p', calculateBatteryPercent capParams 3600 = some p ∧
    calculateBatteryPercent capParams 5000 = some p' ∧ 0 ≤ p ∧ p ≤ p' ∧ p' ≤ 100 :=
  (calculateBatteryPercent_mono_iff capParams_wellFormed.rising).2 smoothRows_capParams 3600 5000 (by decide)

/-- A row of 3 V, over which the percentage rises from 0 to 100. -/
def wideRow : List CapacityParams := [⟨0, 0, 0, 0, 1⟩, ⟨0, 1, 3000000, 0, 1⟩, ⟨100, 3000001, 3000001, 0, 1⟩]

/-- **In a wide row** the percentage falls: 33 at 1000000 mV, and 0 at 2500000 mV. -/
theorem calculateBatteryPercent_falls : ¬ ∀ (table : List CapacityParams), Rising table → ∀ vbat vbat', vbat ≤ vbat' →
    ∃ p p', calculateBatteryPercent table vbat = some p ∧ calculateBatteryPercent table vbat' = some p' ∧ 0 ≤ p ∧
      p ≤ p' ∧ p' ≤ 100 := by
  intro always
  have rising : Rising wideRow := ⟨⟨by decide, by decide, by decide⟩, by decide, by decide, by decide⟩
  obtain ⟨p, p', ret, ret', -, le, -⟩ := always wideRow rising 1000000 2500000 (by decide)
  have high : calculateBatteryPercent wideRow 1000000 = some 33 := by decide
  have low : calculateBatteryPercent wideRow 2500000 = some 0 := by decide
  rw [ret] at high
  rw [ret'] at low
  cases high
  cases low
  revert le
  decide

end CodeBackup.Battery
