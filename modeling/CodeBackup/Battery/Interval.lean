import Mathlib.Data.List.MinMax
import CodeBackup.Battery.Gradual

/-!
# The detection interval

A full record table gives the time until the next turn of the thread: how long
the voltage took from one extreme to the other, for each percent between them.
The search finds the extremes (`limitLoop_eq`), but the product of the time, the
stride and 1000 is an `int`, and ten records can be further apart than its range
allows: at the default interval of 30 s already. The interval is the one meant
exactly if product and voltages are `Harmless` (`interval_exact`).
-/

namespace CodeBackup.Battery

open C

/-! ## What is meant -/

/-- The bounds of an interval. -/
def limited (q : Int) : Int := if q = 0 then defaultInterval else min q maxInterval

/-- The interval that is meant, of the product of the time, the stride and 1000, and the difference of the voltages. -/
def exactInterval (p v : Int) : Int := limited (p / v)

/-- The bounds, as the code applies them to an `int`. -/
def bounded (x : Int) : Nat :=
  let interval := uint64 x
  if interval = 0 then defaultInterval else if interval > maxInterval then maxInterval else interval

/-- No overflow, or one that does not show. The remainder of `p` is what is left of it in 32 bits. -/
inductive Harmless (p v : Int) : Prop
  /-- Nothing overflows. -/
  | fits : 0 ≤ p → p < 2 ^ 31 → v < 2 ^ 31 → Harmless p v
  /-- The product becomes negative, which is taken for a long interval, and a long one is right. -/
  | negative : v < 2 ^ 31 → maxInterval * v ≤ p → 2 ^ 31 ≤ p % 2 ^ 32 → p % 2 ^ 32 + v ≤ 2 ^ 32 → Harmless p v
  /-- What is left of the product still gives a long interval. -/
  | long : v < 2 ^ 31 → 0 ≤ p → maxInterval * v ≤ p % 2 ^ 32 → p % 2 ^ 32 < 2 ^ 31 → Harmless p v
  /-- What is left of the product is too small for a quotient, and the default is right. -/
  | small : v < 2 ^ 31 → p / v = defaultInterval → p % 2 ^ 32 < v ∨ 2 ^ 32 < p % 2 ^ 32 + v → Harmless p v
  /-- The difference becomes negative, and the product is smaller. -/
  | below : 2 ^ 31 ≤ v → 0 ≤ p → p + v < 2 ^ 32 → Harmless p v
  /-- Both become negative, and their quotient is the default. -/
  | default : 2 ^ 31 ≤ p → p < v → (2 ^ 32 - p) / (2 ^ 32 - v) = defaultInterval → Harmless p v
  /-- Both become negative, and their quotient is the right one. -/
  | quotient : 2 ^ 31 ≤ v → v ≤ p → 2 ^ 31 ≤ p % 2 ^ 32 → p % 2 ^ 32 ≤ v →
      (2 ^ 32 - p % 2 ^ 32) / (2 ^ 32 - v) = p / v → Harmless p v

theorem defaultInterval_eq : defaultInterval = 30000000 := rfl

theorem maxInterval_eq : maxInterval = 300000000 := rfl

/-! ## Bounds -/

section

variable {q x : Int}

theorem limited_eq_default : limited q = defaultInterval ↔ q = 0 ∨ q = defaultInterval := by
  rw [limited, defaultInterval_eq, maxInterval_eq]
  split
  · omega
  · omega

theorem limited_eq_max (h : 0 ≤ q) : limited q = maxInterval ↔ maxInterval ≤ q := by
  rw [limited, defaultInterval_eq, maxInterval_eq]
  split
  · omega
  · omega

theorem limited_neg (h : q < 0) : limited q < 0 := by
  rw [limited, if_neg (by omega)]
  omega

theorem limited_inj (pos : 0 < q) (pos' : 0 < x) :
    limited q = limited x ↔ q = x ∨ (maxInterval ≤ q ∧ maxInterval ≤ x) := by
  rw [limited, limited, if_neg (by omega), if_neg (by omega)]
  omega

theorem bounded_of_nonneg (h : 0 ≤ x ∧ x < 2 ^ 64) : (bounded x : Int) = limited x := by
  have value : (uint64 x : Int) = x := by
    unfold uint64
    omega
  unfold bounded limited
  by_cases zero : x = 0
  · rw [if_pos zero, if_pos (by omega)]
  · rw [if_neg zero, if_neg (by omega)]
    split
    · omega
    · omega

theorem bounded_of_neg (h : -2 ^ 63 ≤ x ∧ x < 0) : bounded x = maxInterval := by
  have value : (uint64 x : Int) = x + 2 ^ 64 := by
    unfold uint64
    omega
  have large := maxInterval_eq
  unfold bounded
  rw [if_neg (by omega), if_pos (by omega)]

end

/-! ## When the interval is right -/

section

variable {p v : Int}

theorem Harmless.nonneg (h : Harmless p v) (pos : 0 < v) : 0 ≤ p := by
  cases h with
  | fits ge _ _ => exact ge
  | negative _ large _ _ =>
    rw [maxInterval_eq] at large
    omega
  | long _ ge _ _ => exact ge
  | small _ eq _ =>
    by_contra neg
    have := Int.ediv_lt_of_lt_mul pos (show p < 0 * v by omega)
    rw [eq, defaultInterval_eq] at this
    omega
  | below _ ge _ => exact ge
  | default ge _ _ => omega
  | quotient ge le _ _ _ => omega

theorem bounded_zero : (bounded 0 : Int) = defaultInterval := rfl

/-- The default is right for no quotient, and for the default itself. -/
theorem default_eq_exact : (defaultInterval : Int) = exactInterval p v ↔ p / v = 0 ∨ p / v = defaultInterval := by
  rw [eq_comm, exactInterval, limited_eq_default]

/-- The largest interval is right for a long one. -/
theorem max_eq_exact (ge : 0 ≤ p) (pos : 0 < v) : (maxInterval : Int) = exactInterval p v ↔ maxInterval * v ≤ p := by
  rw [eq_comm, exactInterval, limited_eq_max (Int.ediv_nonneg ge pos.le), Int.le_ediv_iff_mul_le pos]

/-- By a difference that does not fit, no quotient is as large as the default. -/
theorem quotient_lt (bound : p < defaultInterval * 2 ^ 31) (le : 2 ^ 31 ≤ v) : p / v < defaultInterval := by
  rw [defaultInterval_eq] at bound
  rw [defaultInterval_eq, Int.ediv_lt_iff_lt_mul (by omega)]
  omega

/-- The difference fits, and the product is not negative in 32 bits. -/
theorem bounded_iff_pos (ge : 0 ≤ p) (pos : 0 < v) (lt : v < 2 ^ 31) (left : p % 2 ^ 32 < 2 ^ 31) :
    (bounded ((p % 2 ^ 32).tdiv v) : Int) = exactInterval p v ↔ Harmless p v := by
  have left0 : 0 ≤ p % 2 ^ 32 := by omega
  have q0 : 0 ≤ p % 2 ^ 32 / v := Int.ediv_nonneg left0 pos.le
  have ql : p % 2 ^ 32 / v ≤ p % 2 ^ 32 := Int.ediv_le_self _ left0
  rw [Int.tdiv_eq_ediv_of_nonneg left0]
  by_cases fits : p < 2 ^ 31
  · rw [Int.emod_eq_of_lt ge (by omega)] at q0 ql ⊢
    rw [bounded_of_nonneg ⟨q0, by omega⟩]
    exact ⟨fun _ => .fits ge fits lt, fun _ => rfl⟩
  · -- the quotient is smaller than the right one
    have more : p % 2 ^ 32 / v < p / v := by
      have wraps : p % 2 ^ 32 + 1 * v ≤ p := by omega
      have := Int.ediv_le_ediv pos wraps
      rw [Int.add_mul_ediv_right _ _ pos.ne'] at this
      omega
    by_cases none_ : p % 2 ^ 32 < v
    · rw [Int.ediv_eq_zero_of_lt left0 none_] at more ⊢
      rw [bounded_zero, default_eq_exact]
      constructor
      · intro h
        exact .small lt (by omega) (.inl none_)
      · intro h
        cases h with
        | small _ eq _ => exact .inr eq
        | long _ _ large _ =>
          rw [maxInterval_eq] at large
          omega
        | _ => omega
    · have pos' : 1 ≤ p % 2 ^ 32 / v := (Int.le_ediv_iff_mul_le pos).2 (by omega)
      rw [bounded_of_nonneg ⟨q0, by omega⟩, exactInterval, limited_inj pos' (by omega), Int.le_ediv_iff_mul_le pos]
      constructor
      · intro h
        exact .long lt ge (by omega) left
      · intro h
        cases h with
        | long _ _ large _ =>
          have := (Int.le_ediv_iff_mul_le pos).2 large
          omega
        | _ => omega

/-- The difference fits, and the product is negative in 32 bits. -/
theorem bounded_iff_neg (ge : 0 ≤ p) (pos : 0 < v) (lt : v < 2 ^ 31) (left : 2 ^ 31 ≤ p % 2 ^ 32) :
    (bounded ((p % 2 ^ 32 - 2 ^ 32).tdiv v) : Int) = exactInterval p v ↔ Harmless p v := by
  obtain ⟨a, rest⟩ : ∃ a, a = 2 ^ 32 - p % 2 ^ 32 := ⟨_, rfl⟩
  have q0 : 0 ≤ a / v := Int.ediv_nonneg (by omega) pos.le
  have ql : a / v ≤ a := Int.ediv_le_self _ (by omega)
  have more : 1 ≤ p / v := (Int.le_ediv_iff_mul_le pos).2 (by omega)
  rw [show p % 2 ^ 32 - 2 ^ 32 = -a by omega, Int.neg_tdiv, Int.tdiv_eq_ediv_of_nonneg (by omega)]
  by_cases none_ : a < v
  · rw [Int.ediv_eq_zero_of_lt (by omega) none_, Int.neg_zero, bounded_zero, default_eq_exact]
    constructor
    · intro h
      exact .small lt (by omega) (.inr (by omega))
    · intro h
      cases h with
      | small _ eq _ => exact .inr eq
      | _ => omega
  · have some_ : 1 ≤ a / v := (Int.le_ediv_iff_mul_le pos).2 (by omega)
    rw [bounded_of_neg (by omega), max_eq_exact ge pos]
    constructor
    · intro h
      exact .negative lt h left (by omega)
    · intro h
      cases h with
      | negative _ large _ _ => exact large
      | _ => omega

/-- The difference is negative in 32 bits, and the product is not. -/
theorem bounded_iff_neg_right (ge : 0 ≤ p) (le : 2 ^ 31 ≤ v) (lt : v < 2 ^ 32)
    (bound : p < defaultInterval * 2 ^ 31) (left : p % 2 ^ 32 < 2 ^ 31) :
    (bounded ((p % 2 ^ 32).tdiv (v - 2 ^ 32)) : Int) = exactInterval p v ↔ Harmless p v := by
  have pos : 0 < v := by omega
  obtain ⟨b, rest⟩ : ∃ b, b = 2 ^ 32 - v := ⟨_, rfl⟩
  have q0 : 0 ≤ p % 2 ^ 32 / b := Int.ediv_nonneg (by omega) (by omega)
  have ql : p % 2 ^ 32 / b ≤ p % 2 ^ 32 := Int.ediv_le_self _ (by omega)
  have small := quotient_lt bound le
  rw [show v - 2 ^ 32 = -b by omega, Int.tdiv_neg, Int.tdiv_eq_ediv_of_nonneg (by omega)]
  by_cases none_ : p % 2 ^ 32 < b
  · rw [Int.ediv_eq_zero_of_lt (by omega) none_, Int.neg_zero, bounded_zero, default_eq_exact]
    constructor
    · intro h
      have lt := (Int.ediv_lt_iff_lt_mul pos).1 (show p / v < 1 by omega)
      exact .below le ge (by omega)
    · intro h
      cases h with
      | below _ _ room => exact .inl (Int.ediv_eq_zero_of_lt ge (by omega))
      | _ => omega
  · have some_ : 1 ≤ p % 2 ^ 32 / b := (Int.le_ediv_iff_mul_le (by omega)).2 (by omega)
    rw [bounded_of_neg (by omega), max_eq_exact ge pos, maxInterval_eq]
    rw [defaultInterval_eq] at bound
    constructor
    · intro h
      omega
    · intro h
      cases h with
      | _ => omega

/-- Both are negative in 32 bits. -/
theorem bounded_iff_neg_neg (ge : 0 ≤ p) (le : 2 ^ 31 ≤ v) (lt : v < 2 ^ 32)
    (bound : p < defaultInterval * 2 ^ 31) (left : 2 ^ 31 ≤ p % 2 ^ 32) :
    (bounded ((p % 2 ^ 32 - 2 ^ 32).tdiv (v - 2 ^ 32)) : Int) = exactInterval p v ↔ Harmless p v := by
  have pos : 0 < v := by omega
  have small := quotient_lt bound le
  have q0 : 0 ≤ (2 ^ 32 - p % 2 ^ 32) / (2 ^ 32 - v) := Int.ediv_nonneg (by omega) (by omega)
  have ql : (2 ^ 32 - p % 2 ^ 32) / (2 ^ 32 - v) ≤ 2 ^ 32 - p % 2 ^ 32 := Int.ediv_le_self _ (by omega)
  rw [show p % 2 ^ 32 - 2 ^ 32 = -(2 ^ 32 - p % 2 ^ 32) by omega, show v - 2 ^ 32 = -(2 ^ 32 - v) by omega,
    Int.neg_tdiv_neg, Int.tdiv_eq_ediv_of_nonneg (by omega)]
  by_cases none_ : 2 ^ 32 - p % 2 ^ 32 < 2 ^ 32 - v
  · rw [Int.ediv_eq_zero_of_lt (by omega) none_, bounded_zero, default_eq_exact]
    constructor
    · intro h
      have lt := (Int.ediv_lt_iff_lt_mul pos).1 (show p / v < 1 by omega)
      omega
    · intro h
      cases h with
      | _ => omega
  · have some_ : 1 ≤ (2 ^ 32 - p % 2 ^ 32) / (2 ^ 32 - v) := (Int.le_ediv_iff_mul_le (by omega)).2 (by omega)
    rw [bounded_of_nonneg ⟨q0, by omega⟩, exactInterval]
    by_cases less : p < v
    · have same : p % 2 ^ 32 = p := Int.emod_eq_of_lt ge (by omega)
      have zero : limited 0 = defaultInterval := if_pos rfl
      rw [same] at left some_ ⊢
      rw [Int.ediv_eq_zero_of_lt ge less, zero, limited_eq_default]
      constructor
      · intro h
        exact .default left less (by omega)
      · intro h
        cases h with
        | default _ _ eq => exact .inr eq
        | _ => omega
    · have some' : 1 ≤ p / v := (Int.le_ediv_iff_mul_le pos).2 (by omega)
      rw [limited_inj (by omega) (by omega)]
      constructor
      · intro h
        rw [defaultInterval_eq] at small
        rw [maxInterval_eq] at h
        exact .quotient le (by omega) left (by omega) (by omega)
      · intro h
        cases h with
        | quotient _ _ _ _ eq => exact .inl eq
        | _ => omega

/-- A quotient gives the right interval exactly if no overflow shows. -/
theorem bounded_tdiv_iff (pos : 0 < v) (lt : v < 2 ^ 32) (bound : p < defaultInterval * 2 ^ 31) :
    (bounded ((int32 p).tdiv (int32 v)) : Int) = exactInterval p v ↔ Harmless p v := by
  by_cases ge : 0 ≤ p
  · rw [int32_eq p, int32_eq v, Int.emod_eq_of_lt pos.le lt]
    by_cases left : p % 2 ^ 32 < 2 ^ 31
    · rw [if_pos left]
      by_cases fits : v < 2 ^ 31
      · rw [if_pos fits]
        exact bounded_iff_pos ge pos fits left
      · rw [if_neg fits]
        exact bounded_iff_neg_right ge (by omega) lt bound left
    · rw [if_neg left]
      by_cases fits : v < 2 ^ 31
      · rw [if_pos fits]
        exact bounded_iff_neg ge pos fits (by omega)
      · rw [if_neg fits]
        exact bounded_iff_neg_neg ge (by omega) lt bound (by omega)
  · -- a negative interval is never assigned
    have neg : exactInterval p v < 0 := limited_neg (Int.ediv_neg_of_neg_of_pos (by omega) pos)
    constructor
    · intro h
      omega
    · intro h
      exact absurd (h.nonneg pos) ge

/-- Without a quotient an overflow shows. -/
theorem Harmless.quotient_some (h : Harmless p v) (pos : 0 < v) (lt : v < 2 ^ 32)
    (bound : p < defaultInterval * 2 ^ 31) :
    ¬NoQuotient (int32 p) (int32 v) := by
  have ge := h.nonneg pos
  rw [int32_eq p, int32_eq v, Int.emod_eq_of_lt pos.le lt]
  rintro (zero | ⟨least, one⟩)
  · split at zero
    · omega
    · omega
  · have whole : v = 2 ^ 32 - 1 := by
      split at one
      · omega
      · omega
    have part : p % 2 ^ 32 = 2 ^ 31 := by
      split at least
      · omega
      · omega
    have small := quotient_lt bound (show 2 ^ 31 ≤ v by omega)
    rw [defaultInterval_eq] at small
    -- the quotient would be 2 ^ 31
    cases h with
    | default large less eq =>
      rw [whole, defaultInterval_eq] at eq
      omega
    | quotient _ _ _ _ eq =>
      rw [← eq, part, whole] at small
      omega
    | _ => omega

/-- **The interval is right** exactly if no overflow shows. -/
theorem bounded_iff (pos : 0 < v) (lt : v < 2 ^ 32) (bound : p < defaultInterval * 2 ^ 31) :
    (∃ q, div (int32 p) (int32 v) = some q ∧ (bounded q : Int) = exactInterval p v) ↔ Harmless p v := by
  have iff := bounded_tdiv_iff pos lt bound
  constructor
  · rintro ⟨q, quotient, eq⟩
    obtain ⟨-, rfl⟩ : ¬NoQuotient (int32 p) (int32 v) ∧ (int32 p).tdiv (int32 v) = q := by
      simpa [div] using quotient
    exact iff.1 eq
  · intro h
    have some_ := not_or.1 (h.quotient_some pos lt bound)
    exact ⟨_, div_of_ne some_.1 some_.2, iff.2 h⟩

end

/-! ## The extremes -/

/-- The records of the table, in order. -/
def State.records (s : State) : List TvTable := (List.finRange recordCount).map s.tvTable

/-- The first record with the smallest voltage. -/
def firstLowest (records : List TvTable) : Option TvTable := records.argmin TvTable.instVoltage

/-- The last record with the largest voltage. -/
def lastHighest (records : List TvTable) : Option TvTable := records.reverse.argmax TvTable.instVoltage

theorem lowest_le_highest {records : List TvTable} {low high : TvTable} (lowest : firstLowest records = some low)
    (highest : lastHighest records = some high) : low.instVoltage ≤ high.instVoltage :=
  List.le_of_mem_argmin (List.mem_reverse.1 (List.argmax_mem highest)) lowest

/-- **The search** finds both: a record below the lowest one is not above the highest. -/
theorem limitLoop_eq : ∀ {rs seen : List TvTable} {limit : TvTable × TvTable}, firstLowest seen = some limit.1 →
    lastHighest seen = some limit.2 → firstLowest (seen ++ rs) = some (limitLoop rs limit).1 ∧
      lastHighest (seen ++ rs) = some (limitLoop rs limit).2
  | [], seen, limit, lowest, highest => by
    rw [List.append_nil]
    exact ⟨lowest, highest⟩
  | r :: rs, seen, limit, lowest, highest => by
    have le := lowest_le_highest lowest highest
    have lowest' : firstLowest (seen ++ [r]) =
        some (if r.instVoltage < limit.1.instVoltage then r else limit.1) := by
      unfold firstLowest at lowest ⊢
      rw [List.argmin_concat, lowest]
      simp only
      split <;> rfl
    have highest' : lastHighest (seen ++ [r]) =
        some (if r.instVoltage ≥ limit.2.instVoltage then r else limit.2) := by
      unfold lastHighest at highest ⊢
      rw [List.reverse_append, List.reverse_singleton, List.singleton_append, List.argmax_cons, highest]
      simp only
      split
      · rw [if_neg (by omega)]
      · rw [if_pos (by omega)]
    rw [List.append_cons, limitLoop]
    by_cases less : r.instVoltage < limit.1.instVoltage
    · rw [if_pos less] at lowest' ⊢
      rw [if_neg (by omega)] at highest'
      exact limitLoop_eq lowest' highest'
    · rw [if_neg less] at lowest' ⊢
      by_cases more : r.instVoltage ≥ limit.2.instVoltage
      · rw [if_pos more] at highest' ⊢
        exact limitLoop_eq lowest' highest'
      · rw [if_neg more] at highest' ⊢
        exact limitLoop_eq lowest' highest'

/-- The times of the records do not decrease, and are at most `MAX_INTERVAL` apart. -/
def Paced (records : List TvTable) : Prop :=
  records.IsChain fun r r' => r.sysTime ≤ r'.sysTime ∧ (r'.sysTime - r.sysTime) * 1000 ≤ maxInterval

instance (records : List TvTable) : Decidable (Paced records) := inferInstanceAs (Decidable (List.IsChain _ _))

/-- The records after one are not before it, and not too long after it. -/
theorem Paced.after : ∀ {records : List TvTable} {start r : TvTable}, Paced (start :: records) → r ∈ start :: records →
    start.sysTime ≤ r.sysTime ∧ r.sysTime ≤ start.sysTime + 300000 * records.length
  | [], start, r, _, h => by
    cases List.mem_singleton.1 h
    simp
  | next :: records, start, r, paced, h => by
    obtain ⟨step, paced'⟩ := List.isChain_cons_cons.1 paced
    rw [maxInterval_eq] at step
    rcases List.mem_cons.1 h with rfl | h
    · simp
    · have := Paced.after paced' h
      rw [List.length_cons]
      omega

/-! ## A full table -/

section

variable {table : List CapacityParams} {s : State} {low high : TvTable} {step : Int}

/-- Ten paced records are less than 2700 s apart. -/
theorem time_range (paced : Paced s.records) (hl : low ∈ s.records) (hh : high ∈ s.records) :
    |(high.sysTime : Int) - low.sysTime| ≤ 2700000 := by
  have len : s.records.length = recordCount := by rw [State.records, List.length_map, List.length_finRange]
  cases e : s.records with
  | nil =>
    rw [e] at hl
    cases hl
  | cons start records =>
    rw [e] at paced hl hh len
    have nine : records.length = 9 := by simpa [recordCount] using len
    have low_ := paced.after hl
    have high_ := paced.after hh
    rw [nine] at low_ high_
    rw [abs_le]
    omega

/-- The stride is at most a hundredth of the largest `int`. -/
theorem stride_lt (hstep : stride table = some step) : step ≤ 21474836 := by
  simp only [stride, Option.bind_eq_bind, Option.bind_eq_some_iff] at hstep
  obtain ⟨first, -, last, -, hstep⟩ := hstep
  rw [div_of_pos (by decide), Option.some_inj] at hstep
  have le : int32 (last.min - first.min) ≤ 2147483647 := by
    have := (isInt_int32 (last.min - first.min)).2
    omega
  rw [← hstep]
  exact Int.tdiv_le_tdiv (by decide) le

/-- **A full table** gives the quotient in 32 bits. -/
theorem recordInterval_eq (inRange : ∀ r ∈ s.records, r.instVoltage < 2 ^ 32) (paced : Paced s.records)
    (lowest : firstLowest s.records = some low) (highest : lastHighest s.records = some high)
    (differ : low.instVoltage ≠ high.instVoltage) (hstep : stride table = some step) :
    recordInterval table s.tvTable = (div (int32 (|(high.sysTime : Int) - low.sysTime| * step * 1000))
      (int32 ((high.instVoltage : Int) - low.instVoltage))).map bounded := by
  -- the table begins with the record that both searches start from
  obtain ⟨rest, parts⟩ : ∃ rest, s.records = s.tvTable ⟨0, by decide⟩ :: rest :=
    ⟨(List.finRange recordCount).tail.map s.tvTable, rfl⟩
  have found := @limitLoop_eq rest [s.tvTable ⟨0, by decide⟩]
    (s.tvTable ⟨0, by decide⟩, s.tvTable ⟨0, by decide⟩) rfl rfl
  rw [List.singleton_append, ← parts, lowest, highest, Option.some_inj, Option.some_inj] at found
  have search : limitTable s.tvTable = (low, high) := by
    rw [limitTable, ← State.records, parts, limitLoop, if_neg (Nat.lt_irrefl _), if_pos le_rfl]
    exact Prod.ext found.1.symm found.2.symm
  have low_ := inRange low (List.argmin_mem lowest)
  have high_ := inRange high (List.mem_reverse.1 (List.argmax_mem highest))
  have le := lowest_le_highest lowest highest
  have time := abs_le.1 (time_range paced (List.argmin_mem lowest) (List.mem_reverse.1 (List.argmax_mem highest)))
  have exactTime : tinterval (low, high) = |(high.sysTime : Int) - low.sysTime| := by
    have whole : int32 (uint64 ((high.sysTime : Int) - low.sysTime)) = (high.sysTime : Int) - low.sysTime := by
      rw [int32_eq, uint64]
      split
      · omega
      · omega
    have range : IsInt |(high.sysTime : Int) - low.sysTime| :=
      ⟨le_trans (by decide) (abs_nonneg _), (abs_le.2 time).trans_lt (by decide)⟩
    rw [tinterval, whole, range.int32_eq]
  have exactVoltage : vinterval (low, high) = int32 ((high.instVoltage : Int) - low.instVoltage) := by
    have whole : (uint32 ((high.instVoltage : Int) - low.instVoltage) : Int) =
        (high.instVoltage : Int) - low.instVoltage := by
      unfold uint32
      omega
    rw [vinterval, whole]
  have differ' : int32 ((high.instVoltage : Int) - low.instVoltage) ≠ 0 := by
    rw [int32_eq]
    split
    · omega
    · omega
  rw [recordInterval, search, exactTime, exactVoltage, if_pos differ', hstep, Option.bind_eq_bind, Option.bind_some,
    int32_mul]
  cases div _ _ <;> rfl

end

/-! ## Ten records -/

/-- What happens while records are written: a voltage is filtered and recorded, the charger comes or goes, a percentage
is limited. -/
inductive Action where
  | voltage (vbat : Int) (now : Nat)
  | udisk (data : Int)
  | percent (pct : Int)

/-- The records that an action writes. -/
def Action.written : Action → Nat
  | .voltage _ _ => 1
  | _ => 0

section

variable (table : List CapacityParams)

def act : Action → State → Option State
  | .voltage vbat now, s => (calculateBatteryVoltage table vbat now s).map Prod.snd
  | .udisk data, s => some (udiskBatteryCallback data s)
  | .percent pct, s => some (gradientLimitPercent pct s).2

/-- The actions of a list, in order. -/
def acts : List Action → State → Option State
  | [], s => some s
  | a :: actions, s => do
    let s ← act table a s
    acts actions s

end

/-- `n` records have been written from the first one on. Before that, the table is empty, or full and begun anew. -/
structure Filled (n : Nat) (s : State) : Prop where
  index : s.tableIndex = n ∨ n = 0 ∧ recordCount ≤ s.tableIndex
  inRange : ∀ i : Fin recordCount, i.val < n → (s.tvTable i).instVoltage < 2 ^ 32

section

variable {table : List CapacityParams} {s s' : State} {n : Nat}

/-- The first record begins the table anew. -/
theorem restartRecords_index (filled : Filled n s) (room : n < recordCount) (h : restartRecords table s = some s') :
    s'.tableIndex = n ∧ s'.tvTable = s.tvTable := by
  unfold restartRecords at h
  split at h
  · next full =>
    obtain ⟨interval, -, e⟩ := Option.bind_eq_some_iff.1 h
    cases e
    have zero : n = 0 := by
      rcases filled.index with index | index
      · omega
      · exact index.1
    exact ⟨zero.symm, rfl⟩
  · next more =>
    cases h
    refine ⟨?_, rfl⟩
    rcases filled.index with index | index
    · exact index
    · omega

/-- **`calculate_battery_voltage`** writes one record. -/
theorem Filled.voltage {vbat v : Int} {now : Nat} (filled : Filled n s) (room : n < recordCount)
    (h : calculateBatteryVoltage table vbat now s = some (v, s')) : Filled (n + 1) s' := by
  simp only [calculateBatteryVoltage, Option.bind_eq_bind, Option.bind_eq_some_iff] at h
  obtain ⟨s₁, restart, ⟨adjust, default⟩, -, h⟩ := h
  obtain ⟨index, same⟩ := restartRecords_index filled room restart
  obtain ⟨s₂, e⟩ : ∃ s₂, s₂ = if default then { s₁ with timeInterval := defaultInterval } else s₁ := ⟨_, rfl⟩
  have index' : s₂.tableIndex = n := by
    rw [e]
    cases default <;> exact index
  have same' : s₂.tvTable = s.tvTable := by
    rw [e]
    cases default <;> exact same
  simp only [← e, index', same', dif_pos room, Option.some_inj, Prod.mk.injEq] at h
  obtain ⟨-, rfl⟩ := h
  refine ⟨.inl rfl, ?_⟩
  intro i lt
  simp only
  by_cases here : i = ⟨n, room⟩
  · rw [here, Function.update_self]
    simp only [uint32]
    omega
  · rw [Function.update_of_ne here]
    have ne : i.val ≠ n := fun e => here (Fin.ext e)
    exact filled.inRange i (by omega)

theorem Filled.act {a : Action} (filled : Filled n s) (room : n + a.written ≤ recordCount)
    (h : act table a s = some s') : Filled (n + a.written) s' := by
  cases a with
  | voltage vbat now =>
    obtain ⟨⟨v, s₁⟩, ret, rfl⟩ := Option.map_eq_some_iff.1 h
    exact filled.voltage room ret
  | udisk data =>
    cases h
    obtain ⟨mode, interval, e⟩ := udiskBatteryCallback_eq data s
    rw [e]
    exact ⟨filled.index, filled.inRange⟩
  | percent pct =>
    cases h
    exact ⟨filled.index, filled.inRange⟩

/-- **A run** fills the table with the records that its actions write. -/
theorem Filled.acts : ∀ {actions : List Action} {n : Nat} {s : State}, Filled n s →
    n + (actions.map Action.written).sum ≤ recordCount → acts table actions s = some s' →
    Filled (n + (actions.map Action.written).sum) s'
  | [], n, s, filled, _, h => by
    cases h
    exact filled
  | a :: actions, n, s, filled, room, h => by
    rw [List.map_cons, List.sum_cons, ← Nat.add_assoc] at room ⊢
    obtain ⟨s₁, ret, rest⟩ := Option.bind_eq_some_iff.1 h
    exact (filled.act (by omega) ret).acts room rest

end

/-- **The detection interval is the one meant** exactly if no overflow shows. Take any table, and ten records that are
written from the first one on, whatever else happens between them, with times that do not decrease and are at most
`MAX_INTERVAL` apart. Then the interval that the full table gives is the exact one if and only if the product of time,
stride and 1000 and the difference of the voltages are harmless. -/
theorem interval_exact {table : List CapacityParams} {step : Int} (hstep : stride table = some step) {s s' : State}
    (first : s.tableIndex = 0 ∨ recordCount ≤ s.tableIndex) {actions : List Action}
    (ten : (actions.map Action.written).sum = recordCount) (written : acts table actions s = some s')
    (paced : Paced s'.records) {low high : TvTable} (lowest : firstLowest s'.records = some low)
    (highest : lastHighest s'.records = some high) (differ : low.instVoltage ≠ high.instVoltage) :
    (∃ s'', restartRecords table s' = some s'' ∧ (s''.timeInterval : Int) =
        exactInterval (|(high.sysTime : Int) - low.sysTime| * step * 1000) (high.instVoltage - low.instVoltage)) ↔
      Harmless (|(high.sysTime : Int) - low.sysTime| * step * 1000) (high.instVoltage - low.instVoltage) := by
  have filled : Filled recordCount s' := by
    have := Filled.acts (n := 0) ⟨by simpa using first, fun i lt => absurd lt (Nat.not_lt_zero _)⟩
      (by rw [ten, Nat.zero_add]) written
    rwa [ten, Nat.zero_add] at this
  have inRange : ∀ r ∈ s'.records, r.instVoltage < 2 ^ 32 := by
    intro r hr
    obtain ⟨i, -, rfl⟩ := List.mem_map.1 hr
    exact filled.inRange i i.isLt
  have full : s'.tableIndex ≥ recordCount := by
    rcases filled.index with index | index
    · exact index.ge
    · exact index.2
  have le := lowest_le_highest lowest highest
  have high_ := inRange high (List.mem_reverse.1 (List.argmax_mem highest))
  have time := time_range paced (List.argmin_mem lowest) (List.mem_reverse.1 (List.argmax_mem highest))
  have steps := stride_lt hstep
  have bound : |(high.sysTime : Int) - low.sysTime| * step * 1000 < defaultInterval * 2 ^ 31 := by
    have := mul_le_mul_of_nonneg_left steps (abs_nonneg ((high.sysTime : Int) - low.sysTime))
    rw [defaultInterval_eq]
    omega
  have value := recordInterval_eq inRange paced lowest highest differ hstep
  rw [← bounded_iff (by omega) (by omega) bound, restartRecords, if_pos full, value]
  constructor
  · rintro ⟨s'', ret, eq⟩
    obtain ⟨interval, found, e⟩ := Option.bind_eq_some_iff.1 ret
    obtain ⟨q, quotient, rfl⟩ := Option.map_eq_some_iff.1 found
    cases e
    exact ⟨q, quotient, eq⟩
  · rintro ⟨q, quotient, eq⟩
    rw [quotient]
    exact ⟨_, rfl, eq⟩

/-- A battery at 3700 mV, and nine readings of 3800 mV. -/
def rising (gap : Nat) : List Action :=
  (List.range recordCount).map fun i => .voltage (if i = 0 then 3700 else 3800) (i * gap)

/-- Each record is 2 mV above the last. -/
theorem rising_records (gap : Nat) : ∃ s, acts capParams (rising gap) batteryParamsInit = some s ∧
    s.tableIndex = recordCount ∧
    s.records = (List.range recordCount).map fun i => ⟨uint64 (i * gap : Nat), 3700 + 2 * i⟩ :=
  ⟨_, rfl, rfl, rfl⟩

/-- One record a second: nothing overflows. -/
theorem interval_exact_second : ∃ s', acts capParams (rising 1000) batteryParamsInit = some s' ∧
    ∃ s'', restartRecords capParams s' = some s'' ∧ (s''.timeInterval : Int) = exactInterval 72000000 18 := by
  obtain ⟨s', written, -, records⟩ := rising_records 1000
  refine ⟨s', written, ?_⟩
  have exact_ := @interval_exact capParams 8 rfl batteryParamsInit s' (.inl rfl) (rising 1000) rfl written
    (by rw [records]; decide) ⟨0, 3700⟩ ⟨9000, 3718⟩ (by rw [records]; rfl) (by rw [records]; rfl) (by decide)
  exact exact_.2 (.fits (by decide) (by decide) (by decide))

/-- **At the default interval** the product overflows: the interval meant is 120 s, the code assigns 300 s. -/
theorem interval_overflows : ¬ ∀ (table : List CapacityParams), WellFormed table → ∀ (step : Int),
    stride table = some step → ∀ (s s' : State), s.tableIndex = 0 ∨ recordCount ≤ s.tableIndex →
    ∀ (actions : List Action), (actions.map Action.written).sum = recordCount → acts table actions s = some s' →
    Paced s'.records → ∀ (low high : TvTable), firstLowest s'.records = some low → lastHighest s'.records = some high →
    low.instVoltage ≠ high.instVoltage →
    ∃ s'', restartRecords table s' = some s'' ∧ (s''.timeInterval : Int) =
      exactInterval (|(high.sysTime : Int) - low.sysTime| * step * 1000) (high.instVoltage - low.instVoltage) := by
  intro always
  obtain ⟨s', written, index, records⟩ := rising_records 30000
  have paced : Paced s'.records := by
    rw [records]
    decide
  have lowest : firstLowest s'.records = some ⟨0, 3700⟩ := by
    rw [records]
    rfl
  have highest : lastHighest s'.records = some ⟨270000, 3718⟩ := by
    rw [records]
    rfl
  obtain ⟨s'', restart, interval⟩ := always capParams capParams_wellFormed 8 rfl batteryParamsInit s' (.inl rfl)
    (rising 30000) rfl written paced _ _ lowest highest (by decide)
  have value := @recordInterval_eq capParams s' _ _ 8 (by rw [records]; decide) paced lowest highest (by decide) rfl
  rw [restartRecords, if_pos index.ge, value] at restart
  cases restart
  simp only at interval
  revert interval
  decide

end CodeBackup.Battery
