import CodeBackup.C.CString
import CodeBackup.C.Integers

/-!
# The battery gauge

`battery.c`. A table gives the capacity for each range of voltages. The thread
restores the percentage of the last run, and then repeats: read the voltage,
filter it, convert it to a percentage, and limit how fast the percentage moves.

A function that divides by zero, or `INT_MIN` by -1, or reads a row that the
table does not have, has no result (`none`). The voltages, the rows and what is
computed of them are `int`s, which wrap around. The factor 0.2 is a fifth,
truncated, and `ceil` and `floor` of a half are exact, as the `double`s that the
source takes for them are. The limiter's own sums and differences are of
percentages, which an `int` always holds. The table is a parameter; the source has
`capParams`, which `capTable` points to from the start of the thread on. The
timer, the semaphore, the log and the record of the percentage have no effect
here.
-/

namespace CodeBackup.Battery

open C

/-- A row of the table. -/
structure CapacityParams where
  capacity : Int
  min : Int
  max : Int
  offset : Int
  hysteresis : Int
  deriving DecidableEq, Repr

/-- A record of `tvTable`. -/
structure TvTable where
  sysTime : Nat
  instVoltage : Nat
  deriving DecidableEq, Repr

/-- `BAT_CHARGING` and `BAT_DISCHARGING`. -/
inductive Mode where
  | charging
  | discharging
  deriving DecidableEq, Repr

/-- `struct battery_info`. -/
structure BatteryInfo where
  preVoltage : Int
  prePercent : Int
  batteryMode : Mode
  deriving DecidableEq, Repr

def batdeteToVbatRes : Int := 1000
def batdeteToGndRes : Int := 332
def recordCount : Nat := 10

/-- `SEC`, in microseconds. -/
def sec (n : Nat) : Nat := n * 1000 * 1000

def defaultInterval : Nat := sec 30
def maxInterval : Nat := sec 300

/-- The variables of the module. -/
structure State where
  mybattery : BatteryInfo
  tvTable : Fin recordCount → TvTable
  tableIndex : Nat
  timeInterval : Nat

/-! ## Strings -/

/-- The digits at the start of a string, up to a byte that is none. -/
def digits : List UInt8 → Nat → Option Nat
  | [], _ => none
  | b :: l, n => if 48 ≤ b ∧ b ≤ 57 then digits l (10 * n + (b.toNat - 48)) else some n

/-- `atoi` of the string at the start of a buffer. -/
def atoi (value : List UInt8) : Option Int :=
  match value.dropWhile isspace with
  | [] => none
  | b :: l =>
    if b = 45 then (digits l 0).map fun n : Nat => -(n : Int)
    else if b = 43 then (digits l 0).map fun n : Nat => (n : Int)
    else (digits (b :: l) 0).map fun n : Nat => (n : Int)

/-- The string in a buffer. -/
def str (value : List UInt8) : Option CStr := if 0 ∈ value then some (.ofBytes value) else none

/-! ## The table -/

/-- `capParams`. -/
def capParams : List CapacityParams :=
  [⟨0, 3306, 3426, 0, 1⟩, ⟨1, 3427, 3638, 0, 9⟩, ⟨10, 3639, 3697, 0, 10⟩, ⟨20, 3698, 3729, 0, 10⟩,
    ⟨30, 3730, 3748, 0, 10⟩, ⟨40, 3749, 3776, 0, 10⟩, ⟨50, 3777, 3827, 0, 10⟩, ⟨60, 3828, 3895, 0, 10⟩,
    ⟨70, 3896, 3954, 0, 10⟩, ⟨80, 3955, 4050, 0, 10⟩, ⟨90, 4051, 4119, 0, 10⟩, ⟨100, 4120, 4240, 0, 1⟩]

variable (table : List CapacityParams)

/-- `capTable.stride`. -/
def stride : Option Int := do
  let first ← table[0]?
  let last ← table[table.length - 1]?
  div (int32 (last.min - first.min)) 100

/-- `capParams[i]`. -/
def rowAt (i : Int) : Option CapacityParams := if 0 ≤ i then table[i.toNat]? else none

/-- The loop of `FIND_INDEX_BY_BAT`. -/
def findIndexLoop (vbat : Int) : Nat → Int → Int → Nat → Option Nat
  | 0, _, _, _ => none
  | n + 1, low, high, mid =>
    if high ≥ low then do
      let mid := (low + high).tdiv 2
      let row ← rowAt table mid
      if vbat < row.min then findIndexLoop vbat n low (mid - 1) mid.toNat
      else if vbat > row.max then findIndexLoop vbat n (mid + 1) high mid.toNat
      else some mid.toNat
    else some mid

/-- `FIND_INDEX_BY_BAT`. -/
def findIndexByBat (vbat : Int) : Option Nat :=
  findIndexLoop table vbat (table.length + 1) 0 ((table.length : Int) - 1) 0

/-- `calculate_battery_percent`. -/
def calculateBatteryPercent (vbat : Int) : Option Int := do
  let first ← table[0]?
  let last ← table[table.length - 1]?
  if vbat < first.min then some 0
  else if vbat > last.max then some 100
  else
    let index ← findIndexByBat table vbat
    let row ← table[index]?
    if 0 < index ∧ index + 1 < table.length then
      let next ← table[index + 1]?
      let offset ← div (int32 (int32 (int32 (next.capacity - row.capacity) * int32 (vbat - row.min)) * 10))
        (int32 (next.min - row.min))
      let cap := int32 (row.capacity + (offset.tdiv 10 + if offset.tmod 10 ≥ 5 then 1 else 0))
      some (if cap > next.capacity then next.capacity else if cap < row.capacity then row.capacity else cap)
    else some row.capacity

/-! ## Events -/

/-- `udisk_battery_callback`. -/
def udiskBatteryCallback (data : Int) (s : State) : State :=
  let usbPowerState := if data ≠ 0 then Mode.charging else Mode.discharging
  if usbPowerState ≠ s.mybattery.batteryMode then
    { s with mybattery := { s.mybattery with batteryMode := usbPowerState }, timeInterval := defaultInterval }
  else s

/-- `get_battery_voltage`, of what `adc_get_number` returns. -/
def getBatteryVoltage (adcNum : Int) : Int :=
  (int32 (adcNum * (batdeteToGndRes + batdeteToVbatRes))).tdiv batdeteToGndRes

/-! ## Starting -/

/-- `battery_params_init`, and the initial values of the statics. -/
def batteryParamsInit : State where
  mybattery := ⟨0, 0, .discharging⟩
  tvTable := fun _ => ⟨0, 0⟩
  tableIndex := 0
  timeInterval := defaultInterval

/-- The loop of `get_battery_before_poweroff` over the rows: the voltage that it finds for the percentage. -/
def restoreLoop (percent : Int) : List CapacityParams → Option (Option Int)
  | row :: next :: rows =>
    if percent ≥ row.capacity ∧ percent < next.capacity then do
      let part ← mod percent row.hysteresis
      let offset ← div (int32 (part * int32 (row.max - row.min))) row.hysteresis
      some (some (int32 (row.min + offset)))
    else restoreLoop percent (next :: rows)
  | _ => some none

/-- `get_battery_before_poweroff`. `value` is the buffer that `ds_read` has filled. -/
def getBatteryBeforePoweroff (value : List UInt8) (adcNum : Int) (s : State) : Option State := do
  let percent ← atoi value
  if percent ≤ 0 ∨ percent > 100 then
    let voltage := getBatteryVoltage adcNum
    let percent ← calculateBatteryPercent table voltage
    some { s with mybattery := { s.mybattery with preVoltage := voltage, prePercent := percent } }
  else
    let s := { s with mybattery := { s.mybattery with prePercent := percent } }
    let text ← str value
    if text.bytes = (CStr.lit "0").bytes.take text.strlen then
      let first ← table[0]?
      some { s with mybattery := { s.mybattery with preVoltage := first.max } }
    else if value.take 3 = (CStr.lit "100").bytes then
      let last ← table[table.length - 1]?
      some { s with mybattery := { s.mybattery with preVoltage := last.min } }
    else
      match ← restoreLoop percent table with
      | some voltage => some { s with mybattery := { s.mybattery with preVoltage := voltage } }
      | none => some s

/-! ## Detecting -/

/-- The first record with the smallest voltage and the last one with the largest, as the loop keeps them. -/
def limitLoop : List TvTable → TvTable × TvTable → TvTable × TvTable
  | [], limit => limit
  | r :: rs, limit =>
    limitLoop rs (if r.instVoltage < limit.1.instVoltage then (r, limit.2)
      else if r.instVoltage ≥ limit.2.instVoltage then (limit.1, r) else limit)

/-- `limit_table` of a full record table. -/
def limitTable (tvTable : Fin recordCount → TvTable) : TvTable × TvTable :=
  limitLoop ((List.finRange recordCount).map tvTable) (tvTable ⟨0, by decide⟩, tvTable ⟨0, by decide⟩)

def tinterval (limit : TvTable × TvTable) : Int := int32 |int32 (uint64 ((limit.2.sysTime : Int) - limit.1.sysTime))|

def vinterval (limit : TvTable × TvTable) : Int := int32 (uint32 ((limit.2.instVoltage : Int) - limit.1.instVoltage))

/-- The interval that a full record table gives. -/
def recordInterval (tvTable : Fin recordCount → TvTable) : Option Nat :=
  let limit := limitTable tvTable
  if vinterval limit ≠ 0 then do
    let step ← stride table
    let interval ← div (int32 (int32 (tinterval limit * step) * 1000)) (vinterval limit)
    let interval := uint64 interval
    some (if interval = 0 then defaultInterval else if interval > maxInterval then maxInterval else interval)
  else some maxInterval

/-- How far the filter moves from `pre_voltage`, and whether it asks for the default interval. -/
def adjustVoltage (vbat preVoltage : Int) : Option (Int × Bool) :=
  if preVoltage > 0 then do
    let diff := int32 (vbat - preVoltage)
    let idx ← findIndexByBat table preVoltage
    let row ← table[idx]?
    let mStride ← div (int32 (row.max - row.min)) row.hysteresis
    -- `ceil` and `floor` of a half
    if diff ≥ mStride then some (-((-mStride) / 2), true)
    else if diff ≤ int32 (-mStride) then some (int32 (-mStride) / 2, true)
    else if diff = 0 then some (0, false)
    else some (diff.tdiv 5, false)
  else if preVoltage = 0 then some (vbat, false)
  else some (0, false)

/-- The start of `calculate_battery_voltage`: a full record table gives the interval, and is begun anew. -/
def restartRecords (s : State) : Option State :=
  if s.tableIndex ≥ recordCount then do
    let interval ← recordInterval table s.tvTable
    some { s with timeInterval := interval, tableIndex := 0 }
  else some s

/-- `calculate_battery_voltage`; `now` is what `systick_get_time_ms` returns. -/
def calculateBatteryVoltage (vbat : Int) (now : Nat) (s : State) : Option (Int × State) := do
  let s ← restartRecords table s
  let (adjust, default) ← adjustVoltage table vbat s.mybattery.preVoltage
  let s := if default then { s with timeInterval := defaultInterval } else s
  let vbat := int32 (s.mybattery.preVoltage + adjust)
  if h : s.tableIndex < recordCount then
    some (vbat, { s with
      tvTable := Function.update s.tvTable ⟨s.tableIndex, h⟩ ⟨uint64 now, uint32 vbat⟩
      tableIndex := s.tableIndex + 1
      mybattery := { s.mybattery with preVoltage := vbat } })
  else none

/-- `gradient_limit_percent`. -/
def gradientLimitPercent (pct : Int) (s : State) : Int × State :=
  let pre := s.mybattery.prePercent
  let result :=
    if (s.mybattery.batteryMode = .discharging ∧ pre < pct) ∨ (s.mybattery.batteryMode = .charging ∧ pre > pct)
    then pre else pct
  let result := if |result - pre| > 1 then result + (if result > pre then 1 else -1) else result
  (result, { s with mybattery := { s.mybattery with prePercent := result } })

/-- A turn of the loop of `voltage_detect_thread`: the percentage that it reports. -/
def detect (adcNum : Int) (now : Nat) (s : State) : Option (Int × State) := do
  let (vbat, s) ← calculateBatteryVoltage table (getBatteryVoltage adcNum) now s
  let percent ← calculateBatteryPercent table vbat
  some (gradientLimitPercent percent s)

end CodeBackup.Battery
