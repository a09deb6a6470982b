import CodeBackup.Property.Durable
import CodeBackup.Property.Get
import CodeBackup.Property.Report

/-!
# Read-only keys

`__system_property_set` refuses a bound key that begins with `"ro."`. So what
is bound to such a key only grows from call to call: `KeepsReadOnly` is an
order between stores that every call respects, compactions included, as a
`put` of another key leaves every binding as it was. A `ro.` key is therefore
bound by at most one call of a run (`readOnly_once`).
-/

namespace CodeBackup.Property

open C C.Outcome Rbtree ColorTree CStr Binding Run

/-- What a process calls between a load and the next one. -/
inductive UserCall where
  | setProperty (key val : CStr)
  | getProperty (key value : Buf) (defaultValue : Option CStr)

/-- The call, what it returns dropped. -/
def UserCall.step : UserCall → World → Outcome World
  | .setProperty key val, w => setStep (key, val) w
  | .getProperty key value defaultValue, w => do
    let _ ← Property.getProperty key value defaultValue w.mem
    .ok w

/-- `load_all_props` has returned. It was called on a memory without a pool, or on one whose values are still in the
pool that `memory_init` makes the current one. -/
def Loaded (w : World) : Prop :=
  ∃ depth w₀, Settled w₀ ∧ InStep .loadAllProps w₀ ∧ loadAllProps depth w₀ = .ok w

/-- Every `ro.` key that is bound keeps its value. -/
def KeepsReadOnly (m m' : Mem) : Prop :=
  ∀ key v, startsWith key roPrefix → m.value key = some v → m'.value key = some v

/-- The calls of a run that change the binding of the key. -/
def changes (key : CStr) : List UserCall → World → Nat
  | [], _ => 0
  | c :: cs, w =>
    match c.step w with
    | .ok w' => (if w'.mem.value key = w.mem.value key then 0 else 1) + changes key cs w'
    | .error _ => 0

/-- The call binds the key to the value, if it is a `ro.` key that is not bound. -/
def Binds (key val : CStr) (m : Mem) : Prop :=
  legalName key ∧ val.strlen < propValueMax ∧ exhausts key val m = false

/-- The run of the calls `cs` writes the key at most once. -/
structure WrittenOnce (key : CStr) (cs : List UserCall) (w w' : World) : Prop where
  /-- A value is kept. -/
  kept : ∀ v, getVal key w.mem = .ok (some v) → getVal key w'.mem = .ok (some v)
  /-- One call changes the binding if the run binds the key, and else none. -/
  once : changes key cs w = if getVal key w.mem = .ok none ∧ getVal key w'.mem ≠ .ok none then 1 else 0
  /-- While the key is not bound, a `set_property` returns, and binds it if nothing stands against it. -/
  binds : getVal key w.mem = .ok none → ∀ val, ∃ w', UserCall.step (.setProperty key val) w = .ok w' ∧
    (getVal key w'.mem = .ok (some val) ↔ Binds key val w.mem)

theorem KeepsReadOnly.refl (m : Mem) : KeepsReadOnly m m := fun _ _ _ h => h

theorem KeepsReadOnly.trans {m m' m'' : Mem} (h : KeepsReadOnly m m') (h' : KeepsReadOnly m' m'') :
    KeepsReadOnly m m'' := fun key v ro bound => h' key v ro (h key v ro bound)

theorem Loaded.good {w : World} (h : Loaded w) : Good w.mem := by
  obtain ⟨depth, w₀, settled, inStep, run⟩ := h
  have good : Good (memoryInit w₀.mem) := by
    rcases settled with good | vacant
    · have same : w₀.mem.curPool = w₀.mem.pool := inStep.resolve_left good.cur_ne
      rwa [memoryInit_good good same]
    · exact vacant.good
  exact (loadAllProps_good good run).1

/-- A `ro.` key is not persistent. -/
theorem ro_not_persist {key : CStr} (ro : startsWith key roPrefix) : startsWith key persistPrefix = false := by
  have r : roPrefix.bytes = [114, 111, 46] := by decide
  have p : persistPrefix.bytes = [112, 101, 114, 115, 105, 115, 116, 46] := by decide
  rw [startsWith, r] at ro
  rw [startsWith, p]
  cases h : key.bytes with
  | nil => rfl
  | cons b l =>
    rw [h, List.isPrefixOf_cons_cons, Bool.and_eq_true, beq_iff_eq] at ro
    rw [← ro.1]
    rfl

/-! ## One call -/

section

variable {w w' : World}

/-- A call leaves a binding as it was, or it is a `set_property` of the key that is not refused. -/
theorem UserCall.step_value (good : Good w.mem) {c : UserCall} (run : c.step w = .ok w') :
    Good w'.mem ∧ ∀ key, w'.mem.value key = w.mem.value key ∨
      ∃ val, c = .setProperty key val ∧ refuses key val w.mem = false ∧ w'.mem.value key = some val := by
  cases c with
  | getProperty key value defaultValue =>
    obtain ⟨-, -, e⟩ := bind_eq_ok.1 run
    cases e
    exact ⟨good, fun _ => .inl rfl⟩
  | setProperty key val =>
    cases h : Property.setProperty key val w with
    | error e =>
      simp only [step, setStep, h] at run
      cases run
    | ok res =>
      simp only [step, setStep, h] at run
      cases run
      have h : Property.setProperty key val w = .ok (res.1, res.2) := h
      rcases setProperty_of_run good h with ⟨-, -, same⟩ | ⟨-, -, -, same⟩ | ⟨-, accepted, -, spec, -⟩
      · rw [same]
        exact ⟨good, fun _ => .inl rfl⟩
      · rw [same]
        exact ⟨good, fun _ => .inl rfl⟩
      · refine ⟨spec.good, fun k => ?_⟩
        rw [spec.value]
        by_cases hk : k = key ∧ exhausts key val w.mem = false
        · obtain ⟨rfl, fits⟩ := hk
          exact .inr ⟨val, rfl, accepted, by simp [fits]⟩
        · exact .inl (by rw [if_neg hk])

/-- **One call** keeps every `ro.` key that is bound. -/
theorem UserCall.step_keeps (good : Good w.mem) {c : UserCall} (run : c.step w = .ok w') :
    KeepsReadOnly w.mem w'.mem := by
  intro key v ro bound
  rcases (step_value good run).2 key with same | ⟨val, -, accepted, -⟩
  · rw [same, bound]
  · exact absurd ⟨ro, by rw [bound]; rfl⟩ (refuses_eq_false.1 accepted).2

/-- A `set_property` of a `ro.` key that is not bound returns, and binds it exactly if `Binds` says so. -/
theorem set_unbound (good : Good w.mem) {key : CStr} (ro : startsWith key roPrefix) (unbound : w.mem.value key = none)
    (val : CStr) : ∃ w', UserCall.step (.setProperty key val) w = .ok w' ∧
      (w'.mem.value key = some val ↔ Binds key val w.mem) := by
  cases legal : legalName key with
  | false =>
    refine ⟨w, ?_, by simp [unbound, Binds, legal]⟩
    simp [UserCall.step, setStep, setProperty, isLegalPropertyName_spec, legal]
  | true =>
    rw [UserCall.step, setStep, setProperty_eq good legal]
    by_cases short : val.strlen < propValueMax
    · obtain ⟨r, m, run, spec⟩ := put_spec good key short
      have accepted : refuses key val w.mem = false := refuses_eq_false.2 ⟨short, by simp [unbound]⟩
      have file : fileUpdate key val w = .ok w.files := by rw [fileUpdate, if_neg (by simp [ro_not_persist ro])]
      refine ⟨⟨m, w.files⟩, by rw [accepted, file, run]; rfl, ?_⟩
      rw [spec.value, Binds]
      by_cases fits : exhausts key val w.mem = false
      · simp [fits, legal, short]
      · simp [fits, unbound]
    · have refused : refuses key val w.mem = true := by simp [refuses, Nat.le_of_not_lt short]
      exact ⟨w, by rw [refused]; rfl, by simp [unbound, Binds, short]⟩

end

/-! ## Runs -/

/-- **A run** keeps every `ro.` key that is bound. -/
theorem run_keeps {cs : List UserCall} {w w' : World} (good : Good w.mem)
    (ret : run UserCall.step cs w = .ok w') : Good w'.mem ∧ KeepsReadOnly w.mem w'.mem := by
  have keep : ∀ c w₁ w₂, Good w₁.mem ∧ KeepsReadOnly w.mem w₁.mem → True → UserCall.step c w₁ = .ok w₂ →
      Good w₂.mem ∧ KeepsReadOnly w.mem w₂.mem := by
    intro c w₁ w₂ h _ ret
    exact ⟨(UserCall.step_value h.1 ret).1, h.2.trans (UserCall.step_keeps h.1 ret)⟩
  have meets : Meets UserCall.step (fun _ _ => True) cs w := meets_of_forall (fun _ _ => trivial) cs w
  exact run_invariant keep ⟨good, .refl _⟩ meets ret

/-- In a run the binding of a `ro.` key changes once, if the run binds it, and else never. -/
theorem changes_eq {key : CStr} (ro : startsWith key roPrefix) : ∀ {cs : List UserCall} {w w' : World}, Good w.mem →
    run UserCall.step cs w = .ok w' →
    changes key cs w = if w.mem.value key = none ∧ w'.mem.value key ≠ none then 1 else 0
  | [], w, w', _, ret => by
    cases ret
    simp [changes]
  | c :: cs, w, w', good, ret => by
    obtain ⟨w₁, ret₁, rest⟩ := bind_eq_ok.1 ret
    obtain ⟨good₁, value₁⟩ := UserCall.step_value good ret₁
    have keeps := (run_keeps good₁ rest).2
    have tail := changes_eq ro good₁ rest
    simp only [changes, ret₁, tail]
    rcases value₁ key with same | ⟨val, -, -, bound₁⟩
    · simp [same]
    · cases bound : w.mem.value key with
      | some v =>
        have kept := UserCall.step_keeps good ret₁ key v ro bound
        simp [kept]
      | none =>
        have kept := keeps key val ro bound₁
        simp [bound₁, kept]

/-- **Read-only keys are written once**, in any run of `set_property` and `get_property` from any state that such
calls reach after `load_all_props`. -/
theorem readOnly_once {w w₁ w₂ : World} (loaded : Loaded w) {cs cs' : List UserCall}
    (ret : run UserCall.step cs w = .ok w₁) (ret' : run UserCall.step cs' w₁ = .ok w₂) {key : CStr}
    (ro : startsWith key roPrefix) : WrittenOnce key cs' w₁ w₂ := by
  obtain ⟨good₁, -⟩ := run_keeps loaded.good ret
  obtain ⟨good₂, keeps⟩ := run_keeps good₁ ret'
  refine ⟨fun v bound => ?_, ?_, fun unbound val => ?_⟩
  · rw [good₁.getVal] at bound
    rw [good₂.getVal, keeps key v ro (Except.ok.inj bound)]
  · rw [changes_eq ro good₁ ret', good₁.getVal, good₂.getVal]
    simp
  · rw [good₁.getVal] at unbound
    obtain ⟨w', step, binds⟩ := set_unbound good₁ ro (Except.ok.inj unbound) val
    refine ⟨w', step, ?_⟩
    rw [(UserCall.step_value good₁ step).1.getVal, ← binds]
    simp

/-- A key is set, and set again. -/
theorem readOnly_once_again : ∃ w w₁ w₂, loadAllProps 1 ⟨.fresh, readFiles⟩ = .ok w ∧
    run UserCall.step [.setProperty (.lit "a") (.lit "22")] w = .ok w₁ ∧
    run UserCall.step [.setProperty (.lit "ro.b") (.lit "1"), .setProperty (.lit "ro.b") (.lit "2")] w₁ = .ok w₂ ∧
    WrittenOnce (.lit "ro.b")
      [.setProperty (.lit "ro.b") (.lit "1"), .setProperty (.lit "ro.b") (.lit "2")] w₁ w₂ :=
  ⟨_, _, _, rfl, rfl, rfl,
    @readOnly_once _ _ _ ⟨1, ⟨.fresh, readFiles⟩, .inr vacant_fresh, .inl rfl, rfl⟩
      [.setProperty (.lit "a") (.lit "22")] _ rfl rfl _ (by decide)⟩

end CodeBackup.Property
