import CodeBackup.Conc.Threads

/-!
# The locks of the service

`get_property`, `set_property` and `release_all_props` as threads that share
`rmutex`, `wmutex` and `read_count`, after one `load_all_props`. A place of the
program is the statement that comes next; each lock, unlock, test and update of
the counter, and each body of a critical section, is one step.

A mutex is free or locked. Who locked it, the readers together or one thread,
is a ghost that no step looks at: an unlock frees the mutex whoever runs it.
-/

namespace CodeBackup.Property

open Conc

/-- A call of the service. `legal` is the answer of `is_legal_property_name`. -/
inductive Call where
  | get
  | set (legal : Bool)
  | release
  deriving DecidableEq, Repr

/-- The next statement of a thread. -/
inductive Pc where
  /-- No call is in progress. -/
  | idle
  /-- `get_property`: `mutex_lock(&rmutex)`. -/
  | getLockR
  /-- `if(read_count == 0)`. -/
  | getTest
  /-- `mutex_lock(&wmutex)`. -/
  | getLockW
  /-- `read_count++`. -/
  | getEnter
  /-- `mutex_unlock(&rmutex)`. -/
  | getUnlockR
  /-- `__system_property_list` or `__system_property_get`. -/
  | getBody
  /-- The second `mutex_lock(&rmutex)`. -/
  | getRelockR
  /-- `read_count--`. -/
  | getLeave
  /-- The second `if(read_count == 0)`. -/
  | getRetest
  /-- `mutex_unlock(&wmutex)`. -/
  | getUnlockW
  /-- The second `mutex_unlock(&rmutex)`. -/
  | getReunlockR
  /-- `set_property`: `mutex_lock(&wmutex)`. -/
  | setLockW (legal : Bool)
  /-- `if(!is_legal_property_name(key, strlen(key))) return -1`. -/
  | setTest (legal : Bool)
  /-- `__system_property_set`. -/
  | setBody
  /-- `mutex_unlock(&wmutex)`. -/
  | setUnlockW
  /-- `release_all_props`: `mutex_lock(&rmutex)`. -/
  | relLockR
  /-- `mutex_lock(&wmutex)`. -/
  | relLockW
  /-- `__prop_memory_destroy`. -/
  | relBody
  /-- `mutex_unlock(&rmutex)`. -/
  | relUnlockR
  /-- `mutex_unlock(&wmutex)`. -/
  | relUnlockW
  deriving DecidableEq, Repr

/-- The first statement of a call. -/
def Call.entry : Call → Pc
  | .get => .getLockR
  | .set legal => .setLockW legal
  | .release => .relLockR

/-- On whose behalf `wmutex` is locked. -/
inductive Owner (ι : Type) where
  | readers
  | writer (t : ι)
  deriving DecidableEq

/-- The locks, the counter, and where the threads are. -/
structure Locks (ι : Type) where
  rmutex : Option ι
  wmutex : Option (Owner ι)
  readCount : Int
  pc : ι → Pc

variable {ι : Type} [DecidableEq ι]

namespace Locks

/-- After `load_all_props`: both mutexes free, no call in progress. -/
def loaded : Locks ι := ⟨none, none, 0, fun _ => .idle⟩

def goto (s : Locks ι) (t : ι) (p : Pc) : Locks ι := { s with pc := Function.update s.pc t p }

def setR (s : Locks ι) (r : Option ι) : Locks ι := { s with rmutex := r }

def setW (s : Locks ι) (w : Option (Owner ι)) : Locks ι := { s with wmutex := w }

def setCount (s : Locks ι) (n : Int) : Locks ι := { s with readCount := n }

/-- The next step of thread `t`: none if no call is in progress, or if it waits for a mutex. -/
def step (t : ι) (s : Locks ι) : Option (Locks ι) :=
  match s.pc t with
  | .idle => none
  | .getLockR => if s.rmutex.isNone then some ((s.setR (some t)).goto t .getTest) else none
  | .getTest => some (s.goto t (if s.readCount = 0 then .getLockW else .getEnter))
  | .getLockW => if s.wmutex.isNone then some ((s.setW (some .readers)).goto t .getEnter) else none
  | .getEnter => some ((s.setCount (s.readCount + 1)).goto t .getUnlockR)
  | .getUnlockR => some ((s.setR none).goto t .getBody)
  | .getBody => some (s.goto t .getRelockR)
  | .getRelockR => if s.rmutex.isNone then some ((s.setR (some t)).goto t .getLeave) else none
  | .getLeave => some ((s.setCount (s.readCount - 1)).goto t .getRetest)
  | .getRetest => some (s.goto t (if s.readCount = 0 then .getUnlockW else .getReunlockR))
  | .getUnlockW => some ((s.setW none).goto t .getReunlockR)
  | .getReunlockR => some ((s.setR none).goto t .idle)
  | .setLockW legal => if s.wmutex.isNone then some ((s.setW (some (.writer t))).goto t (.setTest legal)) else none
  | .setTest legal => some (s.goto t (if legal then .setBody else .idle))
  | .setBody => some (s.goto t .setUnlockW)
  | .setUnlockW => some ((s.setW none).goto t .idle)
  | .relLockR => if s.rmutex.isNone then some ((s.setR (some t)).goto t .relLockW) else none
  | .relLockW => if s.wmutex.isNone then some ((s.setW (some (.writer t))).goto t .relBody) else none
  | .relBody => some (s.goto t .relUnlockR)
  | .relUnlockR => some ((s.setR none).goto t .relUnlockW)
  | .relUnlockW => some ((s.setW none).goto t .idle)

/-- The states that any interleaving reaches in which threads make the calls in `calls`, and every
step meets `cond`. -/
inductive Reaches (calls : Call → Prop) (cond : ι → Locks ι → Prop) : Locks ι → Prop where
  | loaded : Reaches calls cond loaded
  | call {s : Locks ι} (t : ι) (c : Call) : Reaches calls cond s → s.pc t = .idle → calls c →
      Reaches calls cond (s.goto t c.entry)
  | step {s s' : Locks ι} (t : ι) : Reaches calls cond s → cond t s → s.step t = some s' →
      Reaches calls cond s'

/-- One move of an interleaving: a thread begins a call, or takes its next step. -/
inductive Move (ι : Type) where
  | call (t : ι) (c : Call)
  | step (t : ι)

/-- The moves of a list, if each of them is possible. -/
def exec : List (Move ι) → Locks ι → Option (Locks ι)
  | [], s => some s
  | .call t c :: l, s => if s.pc t = .idle then exec l (s.goto t c.entry) else none
  | .step t :: l, s => (s.step t).bind (exec l)

theorem Reaches.exec {calls : Call → Prop} {s s' : Locks ι} {l : List (Move ι)}
    (h : Reaches calls (fun _ _ => True) s) (hc : ∀ t c, .call t c ∈ l → calls c)
    (run : Locks.exec l s = some s') : Reaches calls (fun _ _ => True) s' := by
  induction l generalizing s with
  | nil => cases run; exact h
  | cons m l ih =>
    have rest := fun t c hm => hc t c (List.mem_cons_of_mem m hm)
    cases m with
    | call t c =>
      simp only [Locks.exec, Option.ite_none_right_eq_some] at run
      exact ih (h.call t c run.1 (hc t c (by simp))) rest run.2
    | step t =>
      obtain ⟨s₁, hs, run⟩ := Option.bind_eq_some_iff.1 run
      exact ih (h.step t trivial hs) rest run

end Locks

/-! ## Places -/

namespace Pc

/-- The thread has locked `rmutex`. -/
def holdsR : Pc → Bool
  | .getTest | .getLockW | .getEnter | .getUnlockR | .getLeave | .getRetest | .getUnlockW | .getReunlockR
  | .relLockW | .relBody | .relUnlockR => true
  | _ => false

/-- The thread has locked `wmutex` for itself. -/
def holdsW : Pc → Bool
  | .setTest _ | .setBody | .setUnlockW | .relBody | .relUnlockR | .relUnlockW => true
  | _ => false

/-- The thread reads, so the readers have locked `wmutex`. -/
def reads : Pc → Bool
  | .getEnter | .getUnlockR | .getBody | .getRelockR | .getLeave | .getRetest | .getUnlockW => true
  | _ => false

/-- The thread is counted in `read_count`. -/
def counted : Pc → Bool
  | .getUnlockR | .getBody | .getRelockR | .getLeave => true
  | _ => false

/-- The thread is in the reading section: it has entered and not yet left. -/
def inside : Pc → Bool
  | .getBody | .getRelockR => true
  | _ => false

/-- `set_property` will refuse the name. -/
def illegal : Pc → Bool
  | .setLockW false | .setTest false => true
  | _ => false

theorem counted_cases {p : Pc} (h : p.counted) : p.inside ∨ p.holdsR := by
  cases p <;> simp_all [counted, inside, holdsR]

theorem reads_cases {p : Pc} (h : p.reads) : p.inside ∨ p.holdsR := by
  cases p <;> simp_all [reads, inside, holdsR]

theorem reads_of_counted {p : Pc} (h : p.counted) : p.reads := by
  cases p <;> simp_all [counted, reads]

theorem counted_of_inside {p : Pc} (h : p.inside) : p.counted := by
  cases p <;> simp_all [counted, inside]

end Pc

/-- What a step can do: where the thread goes, and what becomes of `wmutex` and of the counter. -/
theorem Locks.step_cases {s s' : Locks ι} {t : ι} (run : s.step t = some s') :
    ∃ p : Pc, s'.pc = Function.update s.pc t p ∧ (p = .relLockW → s.pc t = .relLockR) ∧
      (p.illegal = true → (s.pc t).illegal = true) ∧
      ((s'.wmutex = s.wmutex ∧ (p.holdsW = (s.pc t).holdsW ∨ (s.pc t).illegal = true)) ∨
        s'.wmutex = none ∨ s'.wmutex = some .readers ∨ (s'.wmutex = some (.writer t) ∧ p.holdsW = true)) ∧
      (s'.readCount = s.readCount ∨ ((s.pc t).holdsR = true ∧ p ≠ .relLockW)) := by
  unfold Locks.step at run
  split at run <;> rename_i hp <;>
    try simp only [Option.ite_none_right_eq_some, Option.some.injEq] at run
  case h_1 => cases run
  case h_3 =>
    refine run ▸ ⟨_, rfl, ?_⟩
    by_cases zero : s.readCount = 0 <;> simp [hp, zero, Pc.illegal, Pc.holdsW, Locks.goto]
  case h_10 =>
    refine run ▸ ⟨_, rfl, ?_⟩
    by_cases zero : s.readCount = 0 <;> simp [hp, zero, Pc.illegal, Pc.holdsW, Locks.goto]
  case h_13 legal =>
    refine run.2 ▸ ⟨_, rfl, ?_⟩
    cases legal <;> simp [hp, Pc.illegal, Pc.holdsW, Locks.goto, Locks.setW]
  case h_14 legal =>
    refine run ▸ ⟨_, rfl, ?_⟩
    cases legal <;> simp [hp, Pc.illegal, Pc.holdsW, Locks.goto]
  case h_2 | h_4 | h_8 | h_17 | h_18 =>
    exact run.2 ▸ ⟨_, rfl, by simp [hp, Pc.illegal, Pc.holdsW, Locks.goto, Locks.setR, Locks.setW]⟩
  all_goals
    exact run ▸ ⟨_, rfl, by
      simp [hp, Pc.illegal, Pc.holdsW, Pc.holdsR, Locks.goto, Locks.setR, Locks.setW, Locks.setCount]⟩

end CodeBackup.Property
