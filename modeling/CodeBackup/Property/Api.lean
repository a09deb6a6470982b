import CodeBackup.Property.Loader
import CodeBackup.Property.Refine

/-!
# The service over a good store

What `__system_property_add` and `set_property` do to a store that satisfies the
invariant. Both of them go through `put`, so `put_spec` says it all:
`setProperty_eq` reduces a call with a legal name to its refusals, the rewrite
of the file, and one `put`.
-/

namespace CodeBackup.Property

open C C.Outcome Rbtree ColorTree CStr Binding

/-! ## `__system_property_add` -/

/-- A pair that `__system_property_add` does not refuse. -/
def addable (key value : CStr) : Bool :=
  0 < key.strlen && key.strlen < propKeyMax && value.strlen < propValueMax

theorem systemPropertyAdd_addable {key value : CStr} (h : addable key value) (m : Mem) :
    systemPropertyAdd key value m = put key value m >>= fun r => .ok (0, r.2) := by
  simp only [addable, Bool.and_eq_true, decide_eq_true_eq] at h
  rw [systemPropertyAdd, if_neg (by omega), if_neg (by omega), if_neg (by omega)]

theorem systemPropertyAdd_refused {key value : CStr} (h : addable key value = false) (m : Mem) :
    systemPropertyAdd key value m = .ok (-1, m) := by
  simp only [addable, Bool.and_eq_false_iff, decide_eq_false_iff_not] at h
  unfold systemPropertyAdd
  by_cases long : key.strlen ≥ propKeyMax
  · rw [if_pos long]
  · by_cases longv : value.strlen ≥ propValueMax
    · rw [if_neg long, if_pos longv]
    · rw [if_neg long, if_neg longv, if_pos (by omega)]

/-- The call binds the key. -/
def binds (key value : CStr) (m : Mem) : Bool := addable key value && !exhausts key value m

/-- What `__system_property_add` does to a good store. -/
structure AddSpec (key val : CStr) (m m' : Mem) : Prop where
  good : Good m'
  value : ∀ k, m'.value k = if k = key ∧ binds key val m then some val else m.value k
  calls : CallsLive m m'
  stays : (addable key val → exhausts key val m = false) → m'.curPool = m.curPool ∧ m'.pool = m.pool ∧
    m'.remain = m.remain - if addable key val && needsSlot key val m then ((val.strlen + 1 : Nat) : Int) else 0

theorem addProperty_spec {m : Mem} (good : Good m) (key value : CStr) :
    ∃ m', addProperty key value m = .ok m' ∧ AddSpec key value m m' := by
  cases h : addable key value with
  | false =>
    refine ⟨m, by rw [addProperty, systemPropertyAdd_refused h]; rfl, good, fun k => by simp [binds, h],
      .refl m, fun _ => ⟨rfl, rfl, by simp [h]⟩⟩
  | true =>
    have short : value.strlen < propValueMax := by
      simp only [addable, Bool.and_eq_true, decide_eq_true_eq] at h
      exact h.2
    obtain ⟨r, m', run, spec⟩ := put_spec good key short
    refine ⟨m', by rw [addProperty, systemPropertyAdd_addable h, run]; rfl, spec.good, fun k => ?_,
      spec.calls, fun stays => ?_⟩
    · simpa [binds, h] using spec.value k
    · obtain ⟨cur, remain⟩ := spec.stays (stays h)
      exact ⟨cur, spec.pool, by simpa [h] using remain⟩

/-! ## `set_property` -/

/-- What `__system_property_set` writes to `build.prop` before it binds the key. -/
def fileUpdate (key value : CStr) (w : World) : Outcome Files :=
  if startsWith key persistPrefix then
    match w.mem.value key with
    | none => Prod.snd <$> opPropFile propPathSystemBuild key value 0 false w.files
    | some old => Prod.snd <$> opPropFile propPathSystemBuild key value old.strlen true w.files
  else .ok w.files

/-- `set_property` refuses to bind a legal name: the value is too long, or the name is read-only. -/
def refuses (key value : CStr) (m : Mem) : Bool :=
  decide (propValueMax ≤ value.strlen) || (startsWith key roPrefix && (m.value key).isSome)

theorem refuses_eq_false {key val : CStr} {m : Mem} : refuses key val m = false ↔
    val.strlen < propValueMax ∧ ¬ (startsWith key roPrefix ∧ (m.value key).isSome) := by
  simp [refuses]

/-- The node that `get` finds holds the value. -/
theorem Good.get_cases {m : Mem} (good : Good m) (key : CStr) :
    (m.value key = none ∧ get key m = .ok none) ∨
    ∃ q e val, m.value key = some val ∧ get key m = .ok (some q) ∧ m.entry q = .ok e ∧
      m.loadStr e.val = .ok val := by
  obtain ⟨T, ent, txt, id, p, h⟩ := good
  rcases h.seek_cases key with ⟨k, c, l, q, r, e, -, rfl, hq⟩ | ⟨k, e, absent⟩
  · exact .inr ⟨q, ent q, txt q, h.value_mem hq, by simp [h.get_spec, e], Mem.entry_of (h.entries q hq), h.load hq⟩
  · exact .inl ⟨h.value_absent absent, by simp [h.get_spec, e]⟩

/-- **`set_property`** on a legal name: refused, or the file is rewritten and then `put` is called. -/
theorem setProperty_eq {w : World} (good : Good w.mem) {key : CStr} (legal : legalName key) (value : CStr) :
    setProperty key value w =
      if refuses key value w.mem then .ok (0, w)
      else (do
        let files ← fileUpdate key value w
        let (_, m) ← put key value w.mem
        .ok (0, ⟨m, files⟩)) := by
  have short := legalName.strlen_lt legal
  have pos := legalName.pos legal
  simp only [setProperty, isLegalPropertyName_spec, ok_bind, legal, Bool.not_true, Bool.false_eq_true,
    if_false, systemPropertySet]
  rw [if_neg (by omega)]
  by_cases long : propValueMax ≤ value.strlen
  · simp [refuses, long]
  · have add := @systemPropertyAdd_addable key value
      (by simp [addable, pos, short, Nat.lt_of_not_le long]) w.mem
    rw [if_neg long, if_neg (by omega)]
    rcases good.get_cases key with ⟨hv, hget⟩ | ⟨q, e, val, hv, hget, hentry, hload⟩
    · simp only [refuses, fileUpdate, hv, hget, long, ok_bind, add]
      by_cases persist : startsWith key persistPrefix
      · simp [persist]
      · simp [persist]
    · by_cases ro : startsWith key roPrefix
      · simp [refuses, hv, hget, ro]
      · by_cases persist : startsWith key persistPrefix
        · simp [refuses, fileUpdate, hv, hget, hentry, hload, ro, persist, long]
        · simp [refuses, fileUpdate, hv, hget, ro, persist, long]

end CodeBackup.Property
