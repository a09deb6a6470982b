import CodeBackup.Property.Release

/-!
# Pools are live

A call of the service that does not return stops at a fault, and a fault keeps
no record of the entries before it. `Stops` says what may still stop a call:
`op_prop_file`, which `set_property` calls before it looks at a pool, or imports
that are nested too deep. For the second the load is run again with an `add`
that itself faults at an entry that finds a dead pool; it has to stop at the
same depth.

`apiRun_poolLive` follows a run of calls in step, through every call that
returns, up to one of these stops if there is one.
-/

namespace CodeBackup.Property

open C C.Outcome Rbtree ColorTree CStr Binding Run

/-! ## What stops a call -/

/-- `load_all_props`, with what a line does to the map as a parameter. -/
def loadAllPropsWith (add : CStr → CStr → Mem → Outcome Mem) (depth : Nat) (w : World) : Outcome World := do
  let m := memoryInit w.mem
  let m ← loadPropertiesFromFile add w.files depth propPathSystemBuild none m
  let m ← loadPropertiesFromFile add w.files depth propPathOtaConfig none m
  .ok { w with mem := m }

theorem loadAllProps_eq (depth : Nat) (w : World) :
    loadAllProps depth w = loadAllPropsWith addProperty depth w := rfl

open Classical in
/-- `addProperty`, with a fault of its own when an entry finds a dead pool. -/
noncomputable def addLive (key value : CStr) (m : Mem) : Outcome Mem := do
  let m' ← addProperty key value m
  if CallsLive m m' then .ok m' else .error .deadObject

/-- What stops a call in step. -/
inductive Stops (depth : Nat) : ApiCall → World → Prop where
  /-- The file stops `op_prop_file`, before any entry. -/
  | file {key val : CStr} {w : World} {e : Fault} (stop : fileUpdate key val w = .error e)
      (fault : setProperty key val w = .error e) : Stops depth (.setProperty key val) w
  /-- The imports are nested too deep, and every entry up to there finds live pools. -/
  | imports {w : World} (stop : loadAllPropsWith addLive depth w = .error .depthBound)
      (fault : loadAllProps depth w = .error .depthBound) : Stops depth .loadAllProps w

/-! ## One call -/

/-- The memory between two calls, its tree included: loaded, or vacant. -/
def Whole (m : Mem) : Prop := Intact m ∨ Vacant m

theorem Whole.intact {m : Mem} (h : Whole m) (cur : m.curPool ≠ none) : Intact m :=
  h.resolve_right fun vacant => cur vacant.cur

/-- **A line** of a file returns, and its entries find live pools. -/
theorem addProperty_live {start m : Mem} (h : Intact m ∧ CallsLive start m) (key value : CStr) :
    SameEnd (fun m => Intact m ∧ CallsLive start m) (addProperty key value m) (addLive key value m) := by
  obtain ⟨m', run, spec⟩ := addProperty_spec h.1.good key value
  have live : addLive key value m = .ok m' := by rw [addLive, run, ok_bind, if_pos spec.calls]
  rw [run, live]
  exact .ok ⟨⟨spec.good, addProperty_balanced h.1.good h.1.balanced run⟩, h.2.trans spec.calls⟩

/-- **`load_all_props`** in step returns, or its imports are nested too deep. -/
theorem loadAllProps_live {w : World} (depth : Nat) (whole : Whole w.mem) (inStep : InStep .loadAllProps w) :
    (∃ w', loadAllProps depth w = .ok w' ∧ Whole w'.mem ∧ CallsLive w.mem w'.mem) ∨ Stops depth .loadAllProps w := by
  have start : Intact (memoryInit w.mem) := by
    rcases whole with intact | vacant
    · have same : w.mem.curPool = w.mem.pool := inStep.resolve_left intact.good.cur_ne
      rwa [memoryInit_good intact.good same]
    · exact vacant.intact
  have load : ∀ fn {m}, Intact m ∧ CallsLive (memoryInit w.mem) m →
      SameEnd (fun m => Intact m ∧ CallsLive (memoryInit w.mem) m)
        (loadPropertiesFromFile addProperty w.files depth fn none m)
        (loadPropertiesFromFile addLive w.files depth fn none m) := fun fn {m} h =>
    loadPropertiesFromFile_sameEnd (fun key value _ _ h => addProperty_live h key value) w.files depth fn none h
  have both := (load propPathSystemBuild ⟨start, .refl _⟩).bind fun m h => load propPathOtaConfig h
  have ends : ∀ add : CStr → CStr → Mem → Outcome Mem, loadAllPropsWith add depth w =
      (loadPropertiesFromFile add w.files depth propPathSystemBuild none (memoryInit w.mem) >>= fun m =>
        loadPropertiesFromFile add w.files depth propPathOtaConfig none m) >>= fun m => .ok ⟨m, w.files⟩ := by
    intro add
    rw [loadAllPropsWith, bind_assoc]
  generalize loaded : (loadPropertiesFromFile addProperty w.files depth propPathSystemBuild none (memoryInit w.mem) >>=
    fun m => loadPropertiesFromFile addProperty w.files depth propPathOtaConfig none m) = x at both
  generalize loaded' : (loadPropertiesFromFile addLive w.files depth propPathSystemBuild none (memoryInit w.mem) >>=
    fun m => loadPropertiesFromFile addLive w.files depth propPathOtaConfig none m) = y at both
  cases both with
  | @ok m h =>
    refine .inl ⟨⟨m, w.files⟩, by rw [loadAllProps_eq, ends, loaded, ok_bind], .inl h.1, fun s hs => ?_⟩
    simpa only [memoryInit_calls] using h.2 s hs
  | deep =>
    exact .inr (.imports (by rw [ends, loaded', error_bind]) (by rw [loadAllProps_eq, ends, loaded, error_bind]))

/-- **`set_property`** of a loaded store returns, or the file stops it. -/
theorem setProperty_live {w : World} (depth : Nat) (intact : Intact w.mem) (key val : CStr) :
    (∃ r w', setProperty key val w = .ok (r, w') ∧ Intact w'.mem ∧ CallsLive w.mem w'.mem) ∨
      Stops depth (.setProperty key val) w := by
  cases run : setProperty key val w with
  | ok res =>
    have run' : setProperty key val w = .ok (res.1, res.2) := run
    exact .inl ⟨res.1, res.2, rfl, intact.setProperty run', (setProperty_good intact.good run').2⟩
  | error e =>
    -- a refusal returns, and so does `put`: only the file is left
    refine .inr (.file ?_ run)
    cases legal : legalName key with
    | false =>
      simp only [setProperty, isLegalPropertyName_spec, ok_bind, legal] at run
      cases run
    | true =>
      rw [setProperty_eq intact.good legal] at run
      cases refused : refuses key val w.mem with
      | true =>
        rw [refused, if_pos rfl] at run
        cases run
      | false =>
        obtain ⟨r, m, stored, -⟩ := put_spec intact.good key (refuses_eq_false.1 refused).1
        rw [refused, if_neg (by simp), stored] at run
        cases file : fileUpdate key val w with
        | error e' =>
          rw [file, error_bind] at run
          cases run
          rfl
        | ok files =>
          rw [file] at run
          cases run

/-- **`release_all_props`** of a loaded store returns. -/
theorem releaseAllProps_live {w : World} (intact : Intact w.mem) :
    ∃ w', releaseAllProps w = .ok w' ∧ Vacant w'.mem ∧ CallsLive w.mem w'.mem := by
  obtain ⟨T, ent, txt, id, p, inv⟩ := id intact.good
  obtain ⟨T', rep, rb⟩ := intact.balanced
  obtain rfl := rep.unique inv.tree
  obtain ⟨m, drain, -⟩ := drainNodes_spec rep rb (Nat.lt_succ_of_le rep.length_le)
  have loop : drainLoop (w.mem.tree.next + 1) w.mem = .ok m := by rw [drainLoop_eq, drain]; rfl
  obtain ⟨-, pools, -, cur, -⟩ := drainLoop_of_run loop
  obtain ⟨w', release, -⟩ := releaseAllProps_of_drain loop (cur.trans inv.cur) (by rw [pools, inv.live])
  exact ⟨w', release, releaseAllProps_vacant intact.good release⟩

/-- **A call in step** returns with the memory whole, and its entries find live pools, or it stops. -/
theorem ApiCall.step_live (depth : Nat) (c : ApiCall) {w : World} (whole : Whole w.mem) (inStep : InStep c w) :
    (∃ w', c.step depth w = .ok w' ∧ Whole w'.mem ∧ CallsLive w.mem w'.mem) ∨ Stops depth c w := by
  cases c with
  | loadAllProps => exact loadAllProps_live depth whole inStep
  | setProperty key val =>
    rcases setProperty_live depth (whole.intact inStep) key val with ⟨r, w', run, intact, calls⟩ | stops
    · exact .inl ⟨w', by rw [ApiCall.step, run]; rfl, .inl intact, calls⟩
    · exact .inr stops
  | releaseAllProps =>
    obtain ⟨w', run, vacant, calls⟩ := releaseAllProps_live (whole.intact inStep)
    exact .inl ⟨w', run, .inr vacant, calls⟩

/-! ## Runs -/

/-- **Pools are live.** Take any calls from a new process, whatever the files hold, such that every `load_all_props`
finds `cur_pool` null or equal to `pool`, and every `set_property` and `release_all_props` finds it not null. Then the
run returns, and each of its entries of `put`, `mp_malloc` and `mp_free_all` has found `cur_pool` and every reachable
value in a live pool. Or it returns so up to a call that stops: in `op_prop_file`, or in a nest of imports that is too
deep, all of whose entries have found live pools, too. -/
theorem apiRun_poolLive (depth : Nat) (files : Files) (cs : List ApiCall)
    (inStep : Meets (ApiCall.step depth) InStep cs ⟨.fresh, files⟩) :
    (∃ w, run (ApiCall.step depth) cs ⟨.fresh, files⟩ = .ok w ∧ ∀ s ∈ w.mem.calls, s.PoolLive) ∨
      ∃ before c after w, cs = before ++ c :: after ∧ run (ApiCall.step depth) before ⟨.fresh, files⟩ = .ok w ∧
        (∀ s ∈ w.mem.calls, s.PoolLive) ∧ Stops depth c w := by
  have keep : ∀ c w, (Whole w.mem ∧ ∀ s ∈ w.mem.calls, s.PoolLive) → InStep c w →
      (∃ w', ApiCall.step depth c w = .ok w' ∧ Whole w'.mem ∧ ∀ s ∈ w'.mem.calls, s.PoolLive) ∨ Stops depth c w := by
    intro c w h inStep
    rcases c.step_live depth h.1 inStep with ⟨w', ret, whole, calls⟩ | stops
    · exact .inl ⟨w', ret, whole, fun s hs => (calls s hs).elim (h.2 s) id⟩
    · exact .inr stops
  have start : Whole Mem.fresh ∧ ∀ s ∈ Mem.fresh.calls, s.PoolLive :=
    ⟨.inr vacant_fresh, fun s hs => absurd hs (by simp [Mem.fresh])⟩
  rcases run_or_stops (s := (⟨.fresh, files⟩ : World)) keep start inStep with
    ⟨w, ret, -, live⟩ | ⟨before, c, after, w, split, ret, ⟨-, live⟩, stops⟩
  · exact .inl ⟨w, ret, live⟩
  · exact .inr ⟨before, c, after, w, split, ret, live, stops⟩

/-- Load, bind a key, load again, release, and load. -/
theorem apiRun_poolLive_reload : ∃ w, run (ApiCall.step 1)
    [.loadAllProps, .setProperty (.lit "a") (.lit "1"), .loadAllProps, .releaseAllProps, .loadAllProps]
      ⟨.fresh, fun _ => none⟩ = .ok w ∧ ∀ s ∈ w.mem.calls, s.PoolLive := by
  have inStep : Meets (ApiCall.step 1) InStep
      [.loadAllProps, .setProperty (.lit "a") (.lit "1"), .loadAllProps, .releaseAllProps, .loadAllProps]
      ⟨.fresh, fun _ => none⟩ := by
    refine ⟨.inl rfl, fun s h => ?_⟩
    cases h
    refine ⟨nofun, fun s h => ?_⟩
    cases h
    refine ⟨.inr rfl, fun s h => ?_⟩
    cases h
    refine ⟨nofun, fun s h => ?_⟩
    cases h
    exact ⟨.inl rfl, fun _ _ => trivial⟩
  have ret : ∃ w, run (ApiCall.step 1)
      [.loadAllProps, .setProperty (.lit "a") (.lit "1"), .loadAllProps, .releaseAllProps, .loadAllProps]
        ⟨.fresh, fun _ => none⟩ = .ok w := ⟨_, rfl⟩
  rcases apiRun_poolLive 1 (fun _ => none) _ inStep with returned | ⟨before, c, after, w, split, before_, -, stops⟩
  · exact returned
  · -- the run returns, so no call of it stops
    obtain ⟨w', ret⟩ := ret
    rw [split, run_append, before_, ok_bind] at ret
    cases stops with
    | file stop fault =>
      simp only [run, ApiCall.step, fault] at ret
      cases ret
    | imports stop fault =>
      simp only [run, ApiCall.step, fault] at ret
      cases ret

end CodeBackup.Property
