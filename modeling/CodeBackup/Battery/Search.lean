import CodeBackup.Battery.Percent

/-!
# Rows

In a table whose ranges follow one another, a voltage between the ends is in one
row, and `FIND_INDEX_BY_BAT` finds it (`findIndexByBat_of_mem`); outside the
table it ends at the first row or at the last (`findIndexByBat_exact`). What
`calculate_battery_percent` makes of it depends on the row alone: the capacity
of the row at the ends, and between them a value interpolated to the next row's
capacity (`calculateBatteryPercent_middle`). The interpolation rounds to the
nearest percent (`rounded_eq`).
-/

namespace CodeBackup.Battery

open C

/-- The ranges of the table follow one another without a gap. -/
structure Contiguous (table : List CapacityParams) : Prop where
  rows : 0 < table.length
  ordered : ∀ row ∈ table, row.min ≤ row.max
  adjacent : table.IsChain fun row next => row.max + 1 = next.min

/-- The voltage is in the range of the row. -/
def CapacityParams.Holds (row : CapacityParams) (vbat : Int) : Prop := row.min ≤ vbat ∧ vbat ≤ row.max

namespace Contiguous

variable {table : List CapacityParams} (h : Contiguous table) {row next first last : CapacityParams} {i j : Nat}
  {vbat : Int}
include h

theorem min_le_max (hi : table[i]? = some row) : row.min ≤ row.max := h.ordered row (List.mem_of_getElem? hi)

/-- A row ends before the rows after it begin. -/
theorem max_lt_min (hi : table[i]? = some row) : ∀ {j : Nat} {next : CapacityParams}, i < j → table[j]? = some next →
    row.max < next.min
  | j + 1, next, lt, hj => by
    rcases Nat.lt_succ_iff_lt_or_eq.1 lt with lt | rfl
    · have inside : j < table.length := by
        have := (List.getElem?_eq_some_iff.1 hj).1
        omega
      have before := max_lt_min hi lt (List.getElem?_eq_getElem inside)
      have step := isChain_getElem? h.adjacent (List.getElem?_eq_getElem inside) hj
      have := h.min_le_max (List.getElem?_eq_getElem inside)
      omega
    · have step := isChain_getElem? h.adjacent hi hj
      omega

/-- A voltage is in one row only. -/
theorem index_unique (hi : table[i]? = some row) (here : row.Holds vbat) (hj : table[j]? = some next)
    (there : next.Holds vbat) : i = j := by
  rcases Nat.lt_trichotomy i j with lt | eq | gt
  · have := h.max_lt_min hi lt hj
    unfold CapacityParams.Holds at here there
    omega
  · exact eq
  · have := h.max_lt_min hj gt hi
    unfold CapacityParams.Holds at here there
    omega

/-- **The loop** finds the row of the voltage, if it is between `low` and `high`. -/
theorem findIndexLoop_of_mem (hi : table[i]? = some row) (here : row.Holds vbat) :
    ∀ {n : Nat} {low high : Int} {mid : Nat}, 0 ≤ low → low ≤ i → i ≤ high → high < table.length → high + 1 - low < n →
    findIndexLoop table vbat n low high mid = some i
  | 0, low, high, mid, h0, hl, hh, _, hn => by omega
  | n + 1, low, high, mid, h0, hl, hh, len, hn => by
    obtain ⟨m, found, ge, le, hm, turn⟩ := findIndexLoop_turn vbat n mid h0 (hl.trans hh) len
    have range := h.min_le_max hm
    obtain ⟨ge', le'⟩ := here
    rw [turn]
    rcases Nat.lt_trichotomy m i with lt | rfl | gt
    · have := h.max_lt_min hm lt hi
      rw [if_neg (by omega), if_pos (by omega)]
      exact findIndexLoop_of_mem hi ⟨ge', le'⟩ (by omega) (by omega) hh len (by omega)
    · rw [hm] at hi
      cases hi
      rw [if_neg (by omega), if_neg (by omega)]
    · have := h.max_lt_min hi gt hm
      rw [if_pos (by omega)]
      exact findIndexLoop_of_mem hi ⟨ge', le'⟩ h0 hl (by omega) (by omega) (by omega)

/-- **`FIND_INDEX_BY_BAT`** finds the row of the voltage. -/
theorem findIndexByBat_of_mem (hi : table[i]? = some row) (here : row.Holds vbat) :
    findIndexByBat table vbat = some i := by
  have inside := (List.getElem?_eq_some_iff.1 hi).1
  exact h.findIndexLoop_of_mem hi here le_rfl (by omega) (by omega) (by omega) (by push_cast; omega)

omit h in
/-- A voltage between the ends of adjacent rows is in one of them. -/
theorem exists_row_of_adjacent {rows : List CapacityParams}
    (adjacent : rows.IsChain fun row next => row.max + 1 = next.min) (hf : rows.head? = some first)
    (hl : rows.getLast? = some last) (ge : first.min ≤ vbat) (le : vbat ≤ last.max) :
    ∃ (i : Nat) (row : CapacityParams), rows[i]? = some row ∧ row.Holds vbat := by
  induction rows generalizing first with
  | nil => cases hf
  | cons row rows ih =>
    cases hf
    by_cases here : vbat ≤ row.max
    · exact ⟨0, row, rfl, ge, here⟩
    · cases rows with
      | nil =>
        cases hl
        exact absurd le here
      | cons next rows =>
        obtain ⟨step, rest⟩ := List.isChain_cons_cons.1 adjacent
        obtain ⟨i, found, hi, holds⟩ := ih rest rfl (by simpa using hl) (by omega)
        exact ⟨i + 1, found, hi, holds⟩

theorem exists_row (hf : table[0]? = some first) (hl : table[table.length - 1]? = some last) (ge : first.min ≤ vbat)
    (le : vbat ≤ last.max) : ∃ (i : Nat) (row : CapacityParams), table[i]? = some row ∧ row.Holds vbat :=
  exists_row_of_adjacent h.adjacent (by rw [List.head?_eq_getElem?]; exact hf)
    (by rw [List.getLast?_eq_getElem?]; exact hl) ge le

/-- A row is between the ends of the table. -/
theorem row_between_ends (hr : row ∈ table) (hf : table[0]? = some first) (hl : table[table.length - 1]? = some last) :
    first.min ≤ row.min ∧ row.max ≤ last.max := by
  obtain ⟨i, hi⟩ := List.mem_iff_getElem?.1 hr
  have inside := (List.getElem?_eq_some_iff.1 hi).1
  constructor
  · rcases Nat.eq_zero_or_pos i with rfl | pos
    · rw [hf] at hi
      cases hi
      exact le_rfl
    · have := h.max_lt_min hf pos hi
      have := h.min_le_max hf
      omega
  · by_cases end_ : i = table.length - 1
    · rw [end_, hl] at hi
      cases hi
      exact le_rfl
    · have := h.max_lt_min hi (show i < table.length - 1 by omega) hl
      have := h.min_le_max hl
      omega

/-- A voltage in a row is between the ends of the table. -/
theorem between_ends (hi : table[i]? = some row) (here : row.Holds vbat) : ∃ first last : CapacityParams,
    table[0]? = some first ∧ table[table.length - 1]? = some last ∧ first.min ≤ vbat ∧ vbat ≤ last.max := by
  have inside : table.length - 1 < table.length := Nat.sub_lt h.rows Nat.one_pos
  have hf := List.getElem?_eq_getElem h.rows
  have hl := List.getElem?_eq_getElem inside
  have ends := h.row_between_ends (List.mem_of_getElem? hi) hf hl
  exact ⟨_, _, hf, hl, ends.1.trans here.1, here.2.trans ends.2⟩

/-- Below the first row is below every row. -/
theorem below_of_first (hf : table[0]? = some first) (lt : vbat < first.min) : ∀ row ∈ table, vbat < row.min := by
  intro row hr
  have inside : table.length - 1 < table.length := Nat.sub_lt h.rows Nat.one_pos
  have := h.row_between_ends hr hf (List.getElem?_eq_getElem inside)
  omega

/-- Above the last row is above every row. -/
theorem above_of_last (hl : table[table.length - 1]? = some last) (lt : last.max < vbat) :
    ∀ row ∈ table, row.max < vbat := by
  intro row hr
  have := h.row_between_ends hr (List.getElem?_eq_getElem h.rows) hl
  omega

/-! ## Outside the table -/

omit h in
/-- **Below the table** the loop only lowers `high`, and reads row 0 last. -/
theorem findIndexLoop_below (below : ∀ row ∈ table, vbat < row.min) : ∀ {n : Nat} {high : Int} {mid : Nat},
    -1 ≤ high → high < table.length → high + 1 < n → (high = -1 → mid = 0) →
    findIndexLoop table vbat n 0 high mid = some 0
  | 0, high, mid, _, _, hn, _ => by omega
  | n + 1, high, mid, ge, len, hn, last => by
    by_cases more : 0 ≤ high
    · obtain ⟨m, row, ge', le, hm, turn⟩ := findIndexLoop_turn vbat n mid le_rfl more len
      rw [turn, if_pos (below row (List.mem_of_getElem? hm))]
      exact findIndexLoop_below below (by omega) (by omega) (by omega) (by omega)
    · rw [findIndexLoop, if_neg more, last (by omega)]

/-- **Above the table** it only raises `low`, and reads the last row last. -/
theorem findIndexLoop_above (above : ∀ row ∈ table, row.max < vbat) : ∀ {n : Nat} {low : Int} {mid : Nat},
    0 ≤ low → low ≤ table.length → table.length - low < n → (low = table.length → mid = table.length - 1) →
    findIndexLoop table vbat n low ((table.length : Int) - 1) mid = some (table.length - 1)
  | 0, low, mid, _, _, hn, _ => by omega
  | n + 1, low, mid, ge, len, hn, last => by
    by_cases more : low ≤ (table.length : Int) - 1
    · have inside : (table.length : Int) - 1 < table.length := by omega
      obtain ⟨m, row, ge', le, hm, turn⟩ := findIndexLoop_turn vbat n mid ge more inside
      have range := h.min_le_max hm
      have beyond := above row (List.mem_of_getElem? hm)
      rw [turn, if_neg (by omega), if_pos beyond]
      exact findIndexLoop_above above (by omega) (by omega) (by omega) (by omega)
    · rw [findIndexLoop, if_neg more, last (by omega)]

end Contiguous

/-- **The search is right for every table.** Take any table with at least one row whose ranges follow one another, and
any voltage. The search ends and reads no row that is not there; a row that holds the voltage is the only one, and the
search gives its index; below the first row it gives 0, above the last row the last index. -/
theorem findIndexByBat_exact {table : List CapacityParams} (h : Contiguous table) (vbat : Int) :
    (∃ i, findIndexByBat table vbat = some i ∧ i < table.length) ∧
      (∀ {i : Nat} {row : CapacityParams}, table[i]? = some row → row.Holds vbat → findIndexByBat table vbat = some i ∧
        ∀ {j : Nat} {other : CapacityParams}, table[j]? = some other → other.Holds vbat → j = i) ∧
      (∀ {first : CapacityParams}, table[0]? = some first → vbat < first.min → findIndexByBat table vbat = some 0) ∧
      ∀ {last : CapacityParams}, table[table.length - 1]? = some last → last.max < vbat →
        findIndexByBat table vbat = some (table.length - 1) := by
  refine ⟨findIndexByBat_lt h.rows vbat, ?_, ?_, ?_⟩
  · intro i row hi here
    refine ⟨h.findIndexByBat_of_mem hi here, ?_⟩
    intro j other hj there
    exact h.index_unique hj there hi here
  · intro first hf lt
    have below := h.below_of_first hf lt
    exact Contiguous.findIndexLoop_below below (by omega) (by omega) (by push_cast; omega) (fun _ => rfl)
  · intro last hl lt
    have above := h.above_of_last hl lt
    have rows := h.rows
    exact h.findIndexLoop_above above le_rfl (by omega) (by push_cast; omega) (by omega)

/-- Voltages in the source's table, below it and above it. -/
theorem findIndexByBat_exact_capParams : findIndexByBat capParams 3600 = some 1 ∧
    findIndexByBat capParams 3000 = some 0 ∧ findIndexByBat capParams 5000 = some 11 := by
  have h : Contiguous capParams := ⟨by decide, by decide, by decide⟩
  have found : capParams[1]? = some ⟨1, 3427, 3638, 0, 9⟩ := rfl
  have here : CapacityParams.Holds ⟨1, 3427, 3638, 0, 9⟩ 3600 := by
    unfold CapacityParams.Holds
    decide
  have inside := (findIndexByBat_exact h 3600).2.1 found here
  have below := (findIndexByBat_exact h 3000).2.2.1 rfl (by decide)
  have above := (findIndexByBat_exact h 5000).2.2.2 rfl (by decide)
  exact ⟨inside.1, below, above⟩

/-! ## Interpolation -/

/-- Tenths, rounded by the last digit. -/
def roundedTenths (offset : Int) : Int := offset.tdiv 10 + if offset.tmod 10 ≥ 5 then 1 else 0

/-- A quotient, rounded by its first decimal. -/
def rounded (a b : Int) : Int := roundedTenths ((a * 10).tdiv b)

/-- A percentage that is kept between the capacities of the rows. -/
def clamped (row next : CapacityParams) (cap : Int) : Int :=
  if cap > next.capacity then next.capacity else if cap < row.capacity then row.capacity else cap

/-- `offset`: the tenths of a percent from the capacity of the row to the voltage. -/
def offset (row next : CapacityParams) (vbat : Int) : Int :=
  (int32 (10 * (next.capacity - row.capacity) * (vbat - row.min))).tdiv (int32 (next.min - row.min))

/-- The percentage of a voltage in a row with rows before and after it. -/
def interpolated (row next : CapacityParams) (vbat : Int) : Int :=
  clamped row next (int32 (row.capacity + roundedTenths (offset row next vbat)))

section

variable {a a' b o o' : Int}

theorem roundedTenths_of_nonneg (ge : 0 ≤ o) : roundedTenths o = (o + 5) / 10 := by
  rw [roundedTenths, Int.tdiv_eq_ediv_of_nonneg ge, Int.tmod_eq_emod_of_nonneg ge]
  split
  · omega
  · omega

theorem roundedTenths_of_nonpos (le : o ≤ 0) : roundedTenths o = -(-o / 10) := by
  obtain ⟨n, rfl⟩ : ∃ n, o = -n := ⟨-o, by omega⟩
  have ge : 0 ≤ n := by omega
  rw [roundedTenths, Int.neg_tdiv, Int.neg_tmod, Int.tdiv_eq_ediv_of_nonneg ge, Int.tmod_eq_emod_of_nonneg ge]
  split
  · omega
  · omega

theorem roundedTenths_mono (le : o ≤ o') : roundedTenths o ≤ roundedTenths o' := by
  rcases le_total 0 o with ge | neg
  · rw [roundedTenths_of_nonneg ge, roundedTenths_of_nonneg (ge.trans le)]
    omega
  · rw [roundedTenths_of_nonpos neg]
    rcases le_total 0 o' with ge' | neg'
    · rw [roundedTenths_of_nonneg ge']
      omega
    · rw [roundedTenths_of_nonpos neg']
      omega

/-- Five tenths are rounded up, fewer are not. -/
theorem roundedTenths_pos : 0 < roundedTenths o ↔ 5 ≤ o := by
  rcases le_total 0 o with ge | neg
  · rw [roundedTenths_of_nonneg ge]
    omega
  · rw [roundedTenths_of_nonpos neg]
    omega

/-- The decimals behind the first do not matter. -/
theorem rounded_eq (ge : 0 ≤ a) (pos : 0 < b) : rounded a b = (2 * a + b) / (2 * b) := by
  have nonneg : 0 ≤ a * 10 / b := Int.ediv_nonneg (by omega) pos.le
  rw [rounded, Int.tdiv_eq_ediv_of_nonneg (show 0 ≤ a * 10 by omega), roundedTenths_of_nonneg nonneg,
    ← Int.add_mul_ediv_right _ _ pos.ne', Int.ediv_ediv_of_nonneg pos.le,
    show a * 10 + 5 * b = 5 * (2 * a + b) by ring, show b * 10 = 5 * (2 * b) by ring,
    Int.mul_ediv_mul_of_pos _ _ (by decide)]

end

section

variable {row next : CapacityParams} {vbat cap cap' : Int}

/-- The percentage is between the capacities. -/
theorem clamped_between (cap : Int) (le : row.capacity ≤ next.capacity) :
    row.capacity ≤ clamped row next cap ∧ clamped row next cap ≤ next.capacity := by
  unfold clamped
  split
  · omega
  · split
    · omega
    · omega

theorem clamped_mono (le : row.capacity ≤ next.capacity) (step : cap ≤ cap') :
    clamped row next cap ≤ clamped row next cap' := by
  unfold clamped
  split
  · rw [if_pos (by omega)]
  · split
    · exact (clamped_between cap' le).1
    · split
      · omega
      · rw [if_neg (by omega)]
        exact step

/-- **The last sum** of the interpolation is exact, whatever the offset. -/
theorem interpolated_eq (percent : 0 ≤ row.capacity ∧ row.capacity ≤ 100) :
    interpolated row next vbat = clamped row next (row.capacity + roundedTenths (offset row next vbat)) := by
  have whole := isInt_int32 (10 * (next.capacity - row.capacity) * (vbat - row.min))
  have part := Int.natAbs_tdiv_le_natAbs (int32 (10 * (next.capacity - row.capacity) * (vbat - row.min)))
    (int32 (next.min - row.min))
  change (offset row next vbat).natAbs ≤ _ at part
  have fits : IsInt (row.capacity + roundedTenths (offset row next vbat)) := by
    unfold IsInt at whole ⊢
    rcases le_total 0 (offset row next vbat) with ge | le
    · rw [roundedTenths_of_nonneg ge]
      omega
    · rw [roundedTenths_of_nonpos le]
      omega
  rw [interpolated, fits.int32_eq]

/-- **Without an overflow** the interpolation is the exact one. -/
theorem interpolated_of_fits (percent : 0 ≤ row.capacity ∧ row.capacity ≤ 100)
    (width : 0 < next.min - row.min ∧ next.min - row.min < 2 ^ 31)
    (ge : 0 ≤ 10 * (next.capacity - row.capacity) * (vbat - row.min))
    (fits : 10 * (next.capacity - row.capacity) * (vbat - row.min) < 2 ^ 31) :
    interpolated row next vbat = clamped row next
      (row.capacity + rounded ((next.capacity - row.capacity) * (vbat - row.min)) (next.min - row.min)) := by
  have product : IsInt (10 * (next.capacity - row.capacity) * (vbat - row.min)) := ⟨by omega, fits⟩
  have divisor : IsInt (next.min - row.min) := ⟨by omega, width.2⟩
  rw [interpolated_eq percent, offset, product.int32_eq, divisor.int32_eq, rounded,
    show (next.capacity - row.capacity) * (vbat - row.min) * 10 =
      10 * (next.capacity - row.capacity) * (vbat - row.min) by ring]

end

section

variable {table : List CapacityParams} (h : Contiguous table) {row next : CapacityParams} {i : Nat} {vbat : Int}
include h

/-- The first and the last row give their capacity. -/
theorem calculateBatteryPercent_end (hi : table[i]? = some row) (here : row.Holds vbat)
    (end_ : i = 0 ∨ i + 1 = table.length) : calculateBatteryPercent table vbat = some row.capacity := by
  obtain ⟨first, last, hf, hl, ge, le⟩ := h.between_ends hi here
  simp only [calculateBatteryPercent, hf, hl, h.findIndexByBat_of_mem hi here, hi, Option.bind_eq_bind,
    Option.bind_some]
  rw [if_neg (by omega), if_neg (by omega), if_neg (by omega)]

/-- **A row between others** gives an interpolated percentage. -/
theorem calculateBatteryPercent_middle (ints : Ints table) (hi : table[i]? = some row)
    (hj : table[i + 1]? = some next) (here : row.Holds vbat) (pos : 0 < i) :
    calculateBatteryPercent table vbat = some (interpolated row next vbat) := by
  obtain ⟨first, last, hf, hl, ge, le⟩ := h.between_ends hi here
  have inside := (List.getElem?_eq_some_iff.1 hj).1
  have width := width_range ints h.ordered h.adjacent hi hj pos
  have product : int32 (int32 (int32 (next.capacity - row.capacity) * int32 (vbat - row.min)) * 10) =
      int32 (10 * (next.capacity - row.capacity) * (vbat - row.min)) := by
    rw [int32_mul, mul_assoc, int32_mul, mul_comm (int32 _) 10, ← mul_assoc, mul_int32]
    congr 1
    ring
  simp only [calculateBatteryPercent, hf, hl, h.findIndexByBat_of_mem hi here, hi, hj, Option.bind_eq_bind,
    Option.bind_some, product, div_width width]
  rw [if_neg (by omega), if_neg (by omega), if_pos ⟨pos, inside⟩]
  rfl

end

end CodeBackup.Battery
