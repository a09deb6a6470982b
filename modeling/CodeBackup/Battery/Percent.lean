import CodeBackup.Battery.Code

/-!
# Capacity tables

What the gauge relies on in its table (`WellFormed`): the ranges of voltages
follow one another without a gap, and the capacities rise from 0 to 100. Then
the search for a row ends in the table, and a voltage, however large or small,
is converted to a percentage between 0 and 100 (`calculateBatteryPercent_range`).
-/

namespace CodeBackup.Battery

open C

/-- The limits of the rows are `int`s. -/
def Ints (table : List CapacityParams) : Prop := ∀ row ∈ table, IsInt row.min ∧ IsInt row.max

instance (table : List CapacityParams) : Decidable (Ints table) := inferInstanceAs (Decidable (∀ row ∈ table, _))

/-- A table that the gauge can work with. -/
structure WellFormed (table : List CapacityParams) : Prop where
  first : table.head?.map CapacityParams.capacity = some 0
  last : table.getLast?.map CapacityParams.capacity = some 100
  ordered : ∀ row ∈ table, row.min ≤ row.max
  adjacent : table.IsChain fun row next => row.max + 1 = next.min
  increasing : table.IsChain fun row next => row.capacity < next.capacity
  hysteresis : ∀ row ∈ table, 1 ≤ row.hysteresis
  ints : Ints table

theorem capParams_wellFormed : WellFormed capParams :=
  ⟨by decide, by decide, by decide, by decide, by decide, by decide, by decide⟩

/-- What holds of neighbours, by index. -/
theorem isChain_getElem? {α : Type} {r : α → α → Prop} {l : List α} (h : l.IsChain r) {i : Nat} {a b : α}
    (ha : l[i]? = some a) (hb : l[i + 1]? = some b) : r a b := by
  obtain ⟨hi, rfl⟩ := List.getElem?_eq_some_iff.1 ha
  obtain ⟨hj, rfl⟩ := List.getElem?_eq_some_iff.1 hb
  exact List.isChain_iff_getElem.1 h i hj

/-- What holds of neighbours, and is transitive, holds of any two. -/
theorem pairwise_getElem? {α : Type} {r : α → α → Prop} [IsTrans α r] {l : List α} (h : l.IsChain r) {i j : Nat}
    {a b : α} (ha : l[i]? = some a) (hb : l[j]? = some b) (lt : i < j) : r a b := by
  obtain ⟨hi, rfl⟩ := List.getElem?_eq_some_iff.1 ha
  obtain ⟨hj, rfl⟩ := List.getElem?_eq_some_iff.1 hb
  exact List.pairwise_iff_getElem.1 (List.isChain_iff_pairwise.1 h) i j hi hj lt

theorem capacity_lt {table : List CapacityParams}
    (increasing : table.IsChain fun row next => row.capacity < next.capacity) {i j : Nat} {row row' : CapacityParams}
    (hi : table[i]? = some row) (hj : table[j]? = some row') (lt : i < j) : row.capacity < row'.capacity := by
  have : IsTrans CapacityParams fun row next => row.capacity < next.capacity := ⟨fun _ _ _ => lt_trans⟩
  exact pairwise_getElem? increasing hi hj lt

/-- The capacities rise from 0 to 100, so each is at least the first and at most the last. -/
theorem capacity_range_of_increasing {table : List CapacityParams}
    (first : table.head?.map CapacityParams.capacity = some 0)
    (last : table.getLast?.map CapacityParams.capacity = some 100)
    (increasing : table.IsChain fun row next => row.capacity < next.capacity) {i : Nat} {row : CapacityParams}
    (hi : table[i]? = some row) : 0 ≤ row.capacity ∧ row.capacity ≤ 100 ∧ (0 < i → 0 < row.capacity) := by
  rw [List.head?_eq_getElem?] at first
  rw [List.getLast?_eq_getElem?] at last
  obtain ⟨head, hf, zero⟩ := Option.map_eq_some_iff.1 first
  obtain ⟨end_, hl, hundred⟩ := Option.map_eq_some_iff.1 last
  have inside := (List.getElem?_eq_some_iff.1 hi).1
  have above : 0 < i → 0 < row.capacity := by
    intro pos
    have := capacity_lt increasing hf hi pos
    omega
  refine ⟨?_, ?_, above⟩
  · rcases Nat.eq_zero_or_pos i with rfl | pos
    · rw [hf] at hi
      cases hi
      exact zero.ge
    · exact (above pos).le
  · by_cases here : i = table.length - 1
    · rw [here, hl] at hi
      cases hi
      exact hundred.le
    · have := capacity_lt increasing hi hl (by omega)
      omega

/-- The row before an inner row keeps it from being as wide as 32 bits. -/
theorem width_range {table : List CapacityParams} (ints : Ints table) (ordered : ∀ row ∈ table, row.min ≤ row.max)
    (adjacent : table.IsChain fun row next => row.max + 1 = next.min) {i : Nat} {row next : CapacityParams}
    (hi : table[i]? = some row) (hj : table[i + 1]? = some next) (inner : 0 < i) :
    0 < next.min - row.min ∧ next.min - row.min ≤ 2 ^ 32 - 2 := by
  obtain ⟨k, rfl⟩ := Nat.exists_eq_succ_of_ne_zero inner.ne'
  have before : k < table.length := by
    have := (List.getElem?_eq_some_iff.1 hi).1
    omega
  have hk := List.getElem?_eq_getElem before
  have begins := isChain_getElem? adjacent hk hi
  have ends := isChain_getElem? adjacent hi hj
  have least := (ints _ (List.mem_of_getElem? hk)).2.1
  have most := (ints _ (List.mem_of_getElem? hj)).1.2
  have := ordered _ (List.mem_of_getElem? hi)
  omega

/-- By such a width every division has a result. -/
theorem div_width {w : Int} (range : 0 < w ∧ w ≤ 2 ^ 32 - 2) (a : Int) :
    div a (int32 w) = some (a.tdiv (int32 w)) := by
  apply div_of_ne
  · rw [int32_eq]
    split
    · omega
    · omega
  · rw [int32_eq]
    split
    · omega
    · omega

section

variable {table : List CapacityParams}

/-! ## The search for a row -/

theorem rowAt_natCast (m : Nat) : rowAt table m = table[m]? := by
  rw [rowAt, if_pos (Int.natCast_nonneg m), Int.toNat_natCast]

/-- **One turn of the loop** reads a row between `low` and `high`. -/
theorem findIndexLoop_turn (vbat : Int) (n mid : Nat) {low high : Int} (h0 : 0 ≤ low) (more : low ≤ high)
    (len : high < table.length) : ∃ (m : Nat) (row : CapacityParams), low ≤ m ∧ m ≤ high ∧ table[m]? = some row ∧
      findIndexLoop table vbat (n + 1) low high mid =
        if vbat < row.min then findIndexLoop table vbat n low (m - 1) m
        else if vbat > row.max then findIndexLoop table vbat n (m + 1) high m else some m := by
  have half : (low + high).tdiv 2 = (low + high) / 2 := Int.tdiv_eq_ediv_of_nonneg (by omega)
  obtain ⟨m, hm⟩ := Int.eq_ofNat_of_zero_le (show 0 ≤ (low + high) / 2 by omega)
  have inside : m < table.length := by omega
  refine ⟨m, table[m], by omega, by omega, List.getElem?_eq_getElem inside, ?_⟩
  rw [findIndexLoop, if_pos more]
  simp only [half, hm, rowAt_natCast, List.getElem?_eq_getElem inside, Int.toNat_natCast, Option.bind_eq_bind,
    Option.bind_some]

/-- The loop ends at a row of the table. -/
theorem findIndexLoop_lt (vbat : Int) : ∀ {n : Nat} {low high : Int} {mid : Nat}, 0 ≤ low → low ≤ high + 1 →
    high < table.length → high + 1 - low < n → mid < table.length →
    ∃ i, findIndexLoop table vbat n low high mid = some i ∧ i < table.length
  | 0, low, high, mid, h0, hl, hh, hn, _ => by omega
  | n + 1, low, high, mid, h0, hl, hh, hn, hm => by
    by_cases more : low ≤ high
    · obtain ⟨m, row, ge, le, hrow, turn⟩ := findIndexLoop_turn vbat n mid h0 more hh
      have inside := (List.getElem?_eq_some_iff.1 hrow).1
      rw [turn]
      split
      · exact findIndexLoop_lt vbat h0 (by omega) (by omega) (by omega) inside
      · split
        · exact findIndexLoop_lt vbat (by omega) (by omega) hh (by omega) inside
        · exact ⟨m, rfl, inside⟩
    · rw [findIndexLoop, if_neg more]
      exact ⟨mid, rfl, hm⟩

/-- **`FIND_INDEX_BY_BAT`** ends, at a row of the table. -/
theorem findIndexByBat_lt (rows : 0 < table.length) (vbat : Int) :
    ∃ i, findIndexByBat table vbat = some i ∧ i < table.length :=
  findIndexLoop_lt vbat le_rfl (by omega) (by omega) (by push_cast; omega) rows

/-! ## Percentages -/

/-- A value that is kept between two percentages. -/
theorem clamp_range {c₀ c₁ cap : Int} (h₀ : 0 ≤ c₀ ∧ c₀ ≤ 100) (h₁ : 0 ≤ c₁ ∧ c₁ ≤ 100) :
    0 ≤ (if cap > c₁ then c₁ else if cap < c₀ then c₀ else cap) ∧
      (if cap > c₁ then c₁ else if cap < c₀ then c₀ else cap) ≤ 100 := by
  split
  · exact h₁
  · split
    · exact h₀
    · omega

namespace WellFormed

variable (wf : WellFormed table)
include wf

theorem rows : 0 < table.length := by
  have first := wf.first
  cases table with
  | nil => cases first
  | cons row rows => simp

theorem capacity_range {row : CapacityParams} (h : row ∈ table) : 0 ≤ row.capacity ∧ row.capacity ≤ 100 := by
  obtain ⟨i, hi⟩ := List.mem_iff_getElem?.1 h
  have range := capacity_range_of_increasing wf.first wf.last wf.increasing hi
  exact ⟨range.1, range.2.1⟩

/-- **Every voltage is a percentage**, and no division on the way is by zero. -/
theorem calculateBatteryPercent_range (vbat : Int) :
    ∃ percent, calculateBatteryPercent table vbat = some percent ∧ 0 ≤ percent ∧ percent ≤ 100 := by
  have rows := wf.rows
  obtain ⟨i, index, hi⟩ := findIndexByBat_lt rows vbat
  have last : table.length - 1 < table.length := by omega
  have range := wf.capacity_range (List.getElem_mem hi)
  simp only [calculateBatteryPercent, List.getElem?_eq_getElem rows, List.getElem?_eq_getElem last, index,
    List.getElem?_eq_getElem hi, Option.bind_eq_bind, Option.bind_some]
  split
  · exact ⟨0, rfl, by omega, by omega⟩
  · split
    · exact ⟨100, rfl, by omega, by omega⟩
    · split
      · next middle =>
        have range' := wf.capacity_range (List.getElem_mem middle.2)
        have width := width_range wf.ints wf.ordered wf.adjacent (List.getElem?_eq_getElem hi)
          (List.getElem?_eq_getElem middle.2) middle.1
        simp only [List.getElem?_eq_getElem middle.2, Option.bind_some, div_width width]
        exact ⟨_, rfl, clamp_range range range'⟩
      · exact ⟨_, rfl, range⟩

end WellFormed

end

end CodeBackup.Battery
