import CodeBackup.Property.LockInv
import CodeBackup.Property.Name
import CodeBackup.Property.Sections

/-!
# The service under many threads

The locks and the sections together: a thread takes the steps of its locks, and
between them those of its section, while other threads take theirs. The history
records when a call begins, when its section ends, and when it returns.

The locks make the sections exclude each other (`ServiceInv.exclusive`), so a
call takes effect at one point between its begin and its return, when its
section ends, as if it were made there in one piece (`calls_linearize`).
-/

namespace CodeBackup.Property

open C C.Outcome Conc

/-- The call as the locks see it. -/
def Request.call : Request → Call
  | .get .. => .get
  | .set key _ => .set (legalName key)
  | .release => .release

/-- How far the call of a thread is. -/
inductive Phase where
  | idle
  /-- Its section has not ended. -/
  | before (r : Request)
  /-- It has its answer, and has not returned. -/
  | after (r : Request) (a : Answer)
  deriving DecidableEq

/-- What the history records. -/
inductive Event (ι : Type) where
  | invoke (t : ι) (r : Request)
  | effect (t : ι) (r : Request) (a : Answer)
  | ret (t : ι) (r : Request) (a : Answer)
  deriving DecidableEq

/-! ## Places of the locks -/

namespace Pc

/-- The thread is in its section. That of `set_property` begins with the test of the name. -/
def inSection : Pc → Bool
  | .getBody | .setTest _ | .setBody | .relBody => true
  | _ => false

/-- The test of the name, after which the thread may leave. -/
def isTest : Pc → Bool
  | .setTest _ => true
  | _ => false

/-- The places that can come next. -/
def succ : Pc → List Pc
  | .idle => []
  | .getLockR => [.getTest]
  | .getTest => [.getLockW, .getEnter]
  | .getLockW => [.getEnter]
  | .getEnter => [.getUnlockR]
  | .getUnlockR => [.getBody]
  | .getBody => [.getRelockR]
  | .getRelockR => [.getLeave]
  | .getLeave => [.getRetest]
  | .getRetest => [.getUnlockW, .getReunlockR]
  | .getUnlockW => [.getReunlockR]
  | .getReunlockR => [.idle]
  | .setLockW legal => [.setTest legal]
  | .setTest legal => [if legal then .setBody else .idle]
  | .setBody => [.setUnlockW]
  | .setUnlockW => [.idle]
  | .relLockR => [.relLockW]
  | .relLockW => [.relBody]
  | .relBody => [.relUnlockR]
  | .relUnlockR => [.relUnlockW]
  | .relUnlockW => [.idle]

/-- The places of a call in each phase. -/
def fits (p : Pc) : Phase → Prop
  | .idle => p = .idle
  | .before (.get ..) => p ∈ [.getLockR, .getTest, .getLockW, .getEnter, .getUnlockR, .getBody]
  | .before (.set key _) => p ∈ [.setLockW (legalName key), .setTest (legalName key), .setBody]
  | .before .release => p ∈ [.relLockR, .relLockW, .relBody]
  | .after .. => p ∈ [.getRelockR, .getLeave, .getRetest, .getUnlockW, .getReunlockR, .setUnlockW, .relUnlockR,
      .relUnlockW]

variable {p p' : Pc} {ph : Phase} {r : Request} {a : Answer}

theorem holdsW_of_section (h : p.inSection = true) (writes : p ≠ .getBody) : p.holdsW = true := by
  cases p <;> simp_all [inSection, holdsW]

theorem fits_entry (r : Request) : r.call.entry.fits (.before r) := by
  cases r <;> simp [fits, Request.call, Call.entry]

/-- On its way to its section a call stays before it. -/
theorem fits_before (h : p.fits (.before r)) (out : p.inSection = false) (next : p' ∈ p.succ) :
    p'.fits (.before r) ∧ p' ≠ .idle := by
  cases r with
  | get key value d =>
    simp only [fits, List.mem_cons, List.not_mem_nil, or_false] at h
    rcases h with rfl | rfl | rfl | rfl | rfl | rfl
    case inr.inl =>
      simp only [succ, List.mem_cons, List.not_mem_nil, or_false] at next
      rcases next with rfl | rfl <;> simp [fits]
    all_goals simp_all [succ, fits, inSection]
  | set key value =>
    simp only [fits, List.mem_cons, List.not_mem_nil, or_false] at h
    rcases h with rfl | rfl | rfl <;> simp_all [succ, fits, inSection]
  | release =>
    simp only [fits, List.mem_cons, List.not_mem_nil, or_false] at h
    rcases h with rfl | rfl | rfl <;> simp_all [succ, fits, inSection]

/-- A call that has its answer returns, or is still on its way. -/
theorem fits_after (h : p.fits (.after r a)) (next : p' ∈ p.succ) :
    (p' = .idle ∨ p'.fits (.after r a)) ∧ p'.inSection = false := by
  simp only [fits, List.mem_cons, List.not_mem_nil, or_false] at h
  rcases h with rfl | rfl | rfl | rfl | rfl | rfl | rfl | rfl
  case inr.inr.inl =>
    simp only [succ, List.mem_cons, List.not_mem_nil, or_false] at next
    rcases next with rfl | rfl <;> simp [fits, inSection]
  all_goals simp_all [succ, fits, inSection]

/-- A section that has ended is behind. -/
theorem fits_leave (h : p.inSection = true) (body : p.isTest = false) (next : p' ∈ p.succ) :
    p'.fits (.after r a) ∧ p' ≠ .idle ∧ p'.inSection = false := by
  cases p <;> simp_all [succ, fits, inSection, isTest]

end Pc

/-- A step of the locks goes to a place that comes next. -/
theorem Locks.step_succ {ι : Type} [DecidableEq ι] {s s' : Locks ι} {t : ι} (run : s.step t = some s') :
    ∃ p ∈ (s.pc t).succ, s'.pc = Function.update s.pc t p := by
  unfold Locks.step at run
  split at run <;> rename_i hp <;> simp only [hp, Pc.succ]
  case h_1 => cases run
  case h_3 =>
    cases run
    by_cases zero : s.readCount = 0 <;> simp [zero, Locks.goto]
  case h_10 =>
    cases run
    by_cases zero : s.readCount = 0 <;> simp [zero, Locks.goto]
  case h_2 | h_4 | h_8 | h_13 | h_17 | h_18 =>
    simp only [Option.ite_none_right_eq_some, Option.some.injEq] at run
    obtain ⟨-, rfl⟩ := run
    exact ⟨_, List.mem_singleton_self _, rfl⟩
  all_goals
    cases run
    exact ⟨_, List.mem_singleton_self _, rfl⟩

/-! ## The machine -/

/-- The locks, the world with the sections, how far the calls are, and the history. -/
structure Service (ι : Type) where
  locks : Locks ι
  sections : Sections ι World Request Place Answer
  phase : ι → Phase
  hist : List (Event ι)

variable {ι : Type} [DecidableEq ι]

namespace Service

/-- After `load_all_props`, which has left the world `w`. -/
def loaded (w : World) : Service ι := ⟨.loaded, ⟨w, fun _ => none, []⟩, fun _ => .idle, []⟩

def setPhase (s : Service ι) (t : ι) (ph : Phase) : Service ι := { s with phase := Function.update s.phase t ph }

def record (s : Service ι) (e : Event ι) : Service ι := { s with hist := s.hist ++ [e] }

/-- Thread `t` begins a call. -/
def invoke (t : ι) (r : Request) (s : Service ι) : Service ι :=
  (({ s with locks := s.locks.goto t r.call.entry }).setPhase t (.before r)).record (.invoke t r)

/-- A step of the locks. The thread may enter its section by it, or return. -/
def lockStep (t : ι) (s : Service ι) : Option (Service ι) := do
  let locks ← s.locks.step t
  let s := { s with locks := locks }
  match s.phase t with
  | .before r =>
    if (locks.pc t).inSection then some { s with sections := s.sections.enter serviceCut t r } else some s
  | .after r a => if locks.pc t = .idle then some ((s.setPhase t .idle).record (.ret t r a)) else some s
  | .idle => some s

/-- A step inside the section. After the test of the name, and at the end, the thread goes on in its locks as well. -/
def sectionStep (t : ι) (s : Service ι) : Option (Service ι) := do
  let (r, l) ← s.sections.inside t
  match l.next s.sections.shared with
  | .error _ => none
  | .ok (w, .inl l') =>
    let s' := { s with sections := s.sections.more t r w l' }
    if (s.locks.pc t).isTest then do
      let locks ← s.locks.step t
      some { s' with locks := locks }
    else some s'
  | .ok (w, .inr a) => do
    let locks ← s.locks.step t
    let s := (({ s with locks := locks, sections := s.sections.leave t r w a }).setPhase t (.after r a)).record
      (.effect t r a)
    if locks.pc t = .idle then some ((s.setPhase t .idle).record (.ret t r a)) else some s

/-- The next step of thread `t`, if it is in a call and does not wait. -/
def step (t : ι) (s : Service ι) : Option (Service ι) :=
  if (s.locks.pc t).inSection then s.sectionStep t else s.lockStep t

/-- The states that any interleaving reaches. -/
inductive Reaches (w₀ : World) : Service ι → Prop where
  | loaded : Reaches w₀ (loaded w₀)
  | call {s : Service ι} (t : ι) (r : Request) : Reaches w₀ s → s.phase t = .idle → Reaches w₀ (s.invoke t r)
  | step {s s' : Service ι} (t : ι) : Reaches w₀ s → s.step t = some s' → Reaches w₀ s'

/-- One move of an interleaving. -/
inductive Move (ι : Type) where
  | call (t : ι) (r : Request)
  | step (t : ι)

/-- The moves of a list, if each of them is possible. -/
def exec : List (Move ι) → Service ι → Option (Service ι)
  | [], s => some s
  | .call t r :: l, s => if s.phase t = .idle then exec l (s.invoke t r) else none
  | .step t :: l, s => (s.step t).bind (exec l)

theorem Reaches.exec {w₀ : World} {s s' : Service ι} {l : List (Move ι)} (h : Reaches w₀ s)
    (run : Service.exec l s = some s') : Reaches w₀ s' := by
  induction l generalizing s with
  | nil => cases run; exact h
  | cons m l ih =>
    cases m with
    | call t r =>
      simp only [Service.exec, Option.ite_none_right_eq_some] at run
      exact ih (h.call t r run.1) run.2
    | step t =>
      obtain ⟨s₁, hs, run⟩ := Option.bind_eq_some_iff.1 run
      exact ih (h.step t hs) run

end Service

/-! ## Histories -/

/-- The phase of thread `t` after an event, if the event can happen in the phase. -/
def Phase.follow (t : ι) : Option Phase → Event ι → Option Phase
  | none, _ => none
  | some ph, .invoke u r => if u = t then (if ph = .idle then some (.before r) else none) else some ph
  | some ph, .effect u r a => if u = t then (if ph = .before r then some (.after r a) else none) else some ph
  | some ph, .ret u r a => if u = t then (if ph = .after r a then some .idle else none) else some ph

/-- The phase of a thread after a history, in which its calls begin, take effect and return one after the other. -/
def phaseOf (t : ι) (hist : List (Event ι)) : Option Phase := hist.foldl (Phase.follow t) (some .idle)

/-- The calls that have taken effect, with their answers. -/
def effects : List (Event ι) → List (Request × Answer)
  | [] => []
  | .effect _ r a :: hist => (r, a) :: effects hist
  | .invoke .. :: hist => effects hist
  | .ret .. :: hist => effects hist

omit [DecidableEq ι] in
theorem effects_append (h h' : List (Event ι)) : effects (h ++ h') = effects h ++ effects h' := by
  induction h with
  | nil => rfl
  | cons e h ih => cases e <;> simp [effects, ih]

theorem phaseOf_concat (t : ι) (h : List (Event ι)) (e : Event ι) :
    phaseOf t (h ++ [e]) = Phase.follow t (phaseOf t h) e := by simp [phaseOf]

/-- The thread of an event. -/
def Event.thread : Event ι → ι
  | .invoke t _ | .effect t _ _ | .ret t _ _ => t

/-- An event of thread `t` that can happen takes that thread on, and leaves the others where they are. -/
theorem phaseOf_record {phase : ι → Phase} {h : List (Event ι)} {e : Event ι} {t : ι} {q : Phase}
    (same : ∀ u, phaseOf u h = some (phase u)) (mine : e.thread = t)
    (next : Phase.follow t (some (phase t)) e = some q) (u : ι) :
    phaseOf u (h ++ [e]) = some (Function.update phase t q u) := by
  subst mine
  rw [phaseOf_concat, same]
  by_cases here : u = e.thread
  · subst here
    simpa using next
  · rw [Function.update_of_ne here]
    cases e <;> simp only [Phase.follow, Event.thread] at here ⊢ <;> rw [if_neg (Ne.symm here)]

/-! ## The invariant -/

/-- A thread is in its section, at a place of its call, or outside. -/
def Placed (p : Pc) (ph : Phase) : Option (Request × Place) → Prop
  | none => p.inSection = false
  | some (r, l) => p.inSection = true ∧ ph = .before r ∧ l.reads = decide (p = .getBody) ∧
      (p.isTest = true → ∃ key value, l = .setTest key value ∧ r = .set key value)

theorem Placed.start {p : Pc} {r : Request} (fits : p.fits (.before r)) (inside : p.inSection = true) :
    Placed p (.before r) (some (r, serviceCut.start r)) := by
  refine ⟨inside, rfl, ?_⟩
  cases r with
  | get key value d =>
    simp only [Pc.fits, List.mem_cons, List.not_mem_nil, or_false] at fits
    rcases fits with rfl | rfl | rfl | rfl | rfl | rfl <;> first | exact ⟨rfl, nofun⟩ | cases inside
  | set key value =>
    simp only [Pc.fits, List.mem_cons, List.not_mem_nil, or_false] at fits
    rcases fits with rfl | rfl | rfl <;> exact ⟨rfl, fun _ => ⟨key, value, rfl, rfl⟩⟩
  | release =>
    simp only [Pc.fits, List.mem_cons, List.not_mem_nil, or_false] at fits
    rcases fits with rfl | rfl | rfl <;> exact ⟨rfl, nofun⟩

/-- The places of the locks, the sections, the phases and the history belong together, and the sections are in
series. -/
structure ServiceInv [Fintype ι] (w₀ : World) (s : Service ι) : Prop where
  locks : LockInv s.locks
  fits : ∀ t, (s.locks.pc t).fits (s.phase t)
  placed : ∀ t, Placed (s.locks.pc t) (s.phase t) (s.sections.inside t)
  serial : Sections.Serial serviceCut w₀ s.sections
  hist : ∀ t, phaseOf t s.hist = some (s.phase t)
  effects : effects s.hist = s.sections.done

namespace ServiceInv

variable [Fintype ι] {w₀ : World} {s s' : Service ι} {t : ι} {r : Request} {l : Place}

theorem loaded (w₀ : World) : ServiceInv w₀ (Service.loaded w₀ : Service ι) where
  locks := .loaded
  fits _ := rfl
  placed _ := rfl
  serial := Sections.Serial.start w₀
  hist _ := rfl
  effects := rfl

omit [DecidableEq ι] in
/-- **The locks make the sections exclude each other.** -/
theorem exclusive (locks : LockInv s.locks)
    (placed : ∀ t, Placed (s.locks.pc t) (s.phase t) (s.sections.inside t)) :
    Sections.Exclusive serviceCut s.sections := by
  intro t u r l ne here writes
  have ht := placed t
  rw [here] at ht
  obtain ⟨inside, -, reads, -⟩ := ht
  have body : s.locks.pc t ≠ .getBody := by
    intro e
    rw [show l.reads = false from writes, e] at reads
    cases reads
  have holds := Pc.holdsW_of_section inside body
  have hu := placed u
  cases there : s.sections.inside u with
  | none => rfl
  | some rl =>
    rw [there] at hu
    -- the other one reads, or holds `wmutex` as well
    by_cases body' : s.locks.pc u = .getBody
    · have := locks.not_reads (u := u) holds
      rw [body'] at this
      cases this
    · exact absurd (locks.holdsW_unique holds (Pc.holdsW_of_section hu.1 body')).symm ne

/-- Thread `t` moves: what has to hold of it afterwards. -/
theorem move {p : Pc} {q : Phase} {x : Option (Request × Place)} (h : ServiceInv w₀ s) (locks : LockInv s'.locks)
    (pc : s'.locks.pc = Function.update s.locks.pc t p) (phase : s'.phase = Function.update s.phase t q)
    (inside : s'.sections.inside = Function.update s.sections.inside t x) (fits : p.fits q) (placed : Placed p q x)
    (serial : Sections.Exclusive serviceCut s'.sections → Sections.Serial serviceCut w₀ s'.sections)
    (hist : ∀ u, phaseOf u s'.hist = some (s'.phase u)) (effects : Property.effects s'.hist = s'.sections.done) :
    ServiceInv w₀ s' := by
  have placed' : ∀ u, Placed (s'.locks.pc u) (s'.phase u) (s'.sections.inside u) := by
    intro u
    rw [pc, phase, inside]
    by_cases e : u = t
    · subst e
      simpa using placed
    · simpa [e] using h.placed u
  refine ⟨locks, fun u => ?_, placed', serial (exclusive locks placed'), hist, effects⟩
  rw [pc, phase]
  by_cases e : u = t
  · subst e
    simpa using fits
  · simpa [e] using h.fits u

/-- A thread outside its section. -/
theorem outside (h : ServiceInv w₀ s) (out : (s.locks.pc t).inSection = false) : s.sections.inside t = none := by
  have := h.placed t
  cases e : s.sections.inside t with
  | none => rfl
  | some rl =>
    rw [e] at this
    rw [this.1] at out
    cases out

/-- **A call begins.** -/
theorem invoke (h : ServiceInv w₀ s) (idle : s.phase t = .idle) (r : Request) : ServiceInv w₀ (s.invoke t r) := by
  have free : s.locks.pc t = .idle := by simpa [idle, Pc.fits] using h.fits t
  have out := h.outside (t := t) (by rw [free]; rfl)
  refine h.move (p := r.call.entry) (x := none) (h.locks.call free r.call) rfl rfl ?_ (Pc.fits_entry r) ?_
    (fun _ => h.serial) (phaseOf_record h.hist rfl (by simp [Phase.follow, idle])) ?_
  · show s.sections.inside = _
    rw [← out, Function.update_eq_self]
  · cases r <;> rfl
  · show Property.effects (s.hist ++ [.invoke t r]) = s.sections.done
    rw [effects_append, h.effects]
    exact List.append_nil _

/-- **A step outside the section**, by which a thread may enter it, or return. -/
theorem lockStep (h : ServiceInv w₀ s) (out : (s.locks.pc t).inSection = false) (run : s.lockStep t = some s') :
    ServiceInv w₀ s' := by
  simp only [Service.lockStep, Option.bind_eq_bind, Option.bind_eq_some_iff] at run
  obtain ⟨locks, step, run⟩ := run
  obtain ⟨p, next, pc⟩ := Locks.step_succ step
  have here : locks.pc t = p := by rw [pc, Function.update_self]
  have fits := h.fits t
  have none := h.outside out
  have same : s.sections.inside = Function.update s.sections.inside t Option.none := by
    rw [← none, Function.update_eq_self]
  cases ph : s.phase t with
  | idle =>
    simp only [ph, Pc.fits] at fits
    rw [fits] at next
    cases next
  | before r =>
    simp only [ph, here] at run fits
    have stays : s.phase = Function.update s.phase t (.before r) := by rw [← ph, Function.update_eq_self]
    have fits' := (Pc.fits_before fits out next).1
    split at run
    · rename_i enters
      cases run
      exact h.move (x := some (r, serviceCut.start r)) (h.locks.step step) pc stays rfl fits' (.start fits' enters)
        (h.serial.enter none) h.hist h.effects
    · rename_i waits
      cases run
      exact h.move (h.locks.step step) pc stays same fits' (Bool.eq_false_of_not_eq_true waits) (fun _ => h.serial)
        h.hist h.effects
  | after r a =>
    simp only [ph, here] at run fits
    obtain ⟨fits', out'⟩ := Pc.fits_after fits next
    split at run
    · rename_i returns
      cases run
      refine h.move (q := .idle) (h.locks.step step) pc rfl same returns out' (fun _ => h.serial)
        (phaseOf_record h.hist rfl (by simp [Phase.follow, ph])) ?_
      show Property.effects (s.hist ++ [.ret t r a]) = s.sections.done
      rw [effects_append, h.effects]
      exact List.append_nil _
    · rename_i waits
      cases run
      have stays : s.phase = Function.update s.phase t (.after r a) := by rw [← ph, Function.update_eq_self]
      exact h.move (h.locks.step step) pc stays same (fits'.resolve_left waits) out' (fun _ => h.serial) h.hist
        h.effects

/-- **A step of a section that goes on.** -/
theorem more {w : World} {l' : Place} (h : ServiceInv w₀ s) (here : s.sections.inside t = some (r, l))
    (next : l.next s.sections.shared = .ok (w, .inl l')) (locks : LockInv s'.locks) {p : Pc}
    (pc : s'.locks.pc = Function.update s.locks.pc t p) (phase : s'.phase = s.phase) (hist : s'.hist = s.hist)
    (sections : s'.sections = s.sections.more t r w l') (fits : p.fits (.before r)) (inside : p.inSection = true)
    (reads : (p = .getBody ↔ s.locks.pc t = .getBody)) (body : p.isTest = false) : ServiceInv w₀ s' := by
  have placed := h.placed t
  rw [here] at placed
  obtain ⟨-, before, reads', -⟩ := placed
  have serial := h.serial.more (exclusive h.locks h.placed) here next
  refine h.move (q := .before r) (x := some (r, l')) locks pc ?_ ?_ fits ⟨inside, rfl, ?_, ?_⟩ (fun _ => ?_) ?_ ?_
  · rw [phase, ← before, Function.update_eq_self]
  · rw [sections]; rfl
  · rw [show l'.reads = l.reads from serviceCut.reads_next next, reads', decide_eq_decide]
    exact reads.symm
  · rw [body]; nofun
  · rw [sections]; exact serial
  · rw [phase, hist]; exact h.hist
  · rw [sections, hist]; exact h.effects

/-- **The last step of a section**: the call has its answer. -/
theorem leave {w : World} {a : Answer} (h : ServiceInv w₀ s) (here : s.sections.inside t = some (r, l))
    (next : l.next s.sections.shared = .ok (w, .inr a)) (locks : LockInv s'.locks) {p : Pc}
    (pc : s'.locks.pc = Function.update s.locks.pc t p) (out : p.inSection = false)
    (sections : s'.sections = s.sections.leave t r w a)
    (rest : p.fits (.after r a) ∧ s'.phase = Function.update s.phase t (.after r a) ∧
        s'.hist = s.hist ++ [.effect t r a] ∨
      p = .idle ∧ s'.phase = Function.update (Function.update s.phase t (.after r a)) t .idle ∧
        s'.hist = s.hist ++ [.effect t r a] ++ [.ret t r a]) : ServiceInv w₀ s' := by
  have before : s.phase t = .before r := by
    have := h.placed t
    rw [here] at this
    exact this.2.1
  have serial := h.serial.leave (exclusive h.locks h.placed) here next
  have inside : s'.sections.inside = Function.update s.sections.inside t none := by rw [sections]; rfl
  have effect := phaseOf_record (t := t) (e := .effect t r a) (q := .after r a) h.hist rfl
    (by simp [Phase.follow, before])
  have done : s'.sections.done = Property.effects (s.hist ++ [.effect t r a]) := by
    rw [sections, effects_append, h.effects]
    rfl
  rcases rest with ⟨fits, phase, hist⟩ | ⟨idle, phase, hist⟩
  · refine h.move (x := none) locks pc phase inside fits out (fun _ => ?_) ?_ ?_
    · rw [sections]; exact serial
    · rw [phase, hist]; exact effect
    · rw [hist, done]
  · refine h.move (q := .idle) (x := none) locks pc ?_ inside idle out (fun _ => ?_) ?_ ?_
    · rw [phase, Function.update_idem]
    · rw [sections]; exact serial
    · rw [phase, hist]
      exact phaseOf_record effect rfl (by simp [Phase.follow])
    · rw [hist, done, effects_append]
      exact List.append_nil _

/-- What the locks and the test of a name agree on. -/
theorem test (h : ServiceInv w₀ s) (here : s.sections.inside t = some (r, l)) (test : (s.locks.pc t).isTest = true) :
    ∃ key value, r = .set key value ∧ s.locks.pc t = .setTest (legalName key) ∧
      l.next s.sections.shared = .ok (s.sections.shared,
        if legalName key then .inl (.setSearch key value) else .inr (.status (-1))) := by
  have placed := h.placed t
  rw [here] at placed
  obtain ⟨-, before, -, set⟩ := placed
  obtain ⟨key, value, rfl, rfl⟩ := set test
  refine ⟨key, value, rfl, ?_, ?_⟩
  · have fits := h.fits t
    rw [before] at fits
    simp only [Pc.fits, List.mem_cons, List.not_mem_nil, or_false] at fits
    rcases fits with e | e | e <;> rw [e] at test ⊢ <;> cases test
  · simp only [Place.next, isLegalPropertyName_spec, ok_bind]
    cases legalName key <;> rfl

/-- **A step inside the section.** -/
theorem sectionStep (h : ServiceInv w₀ s) (run : s.sectionStep t = some s') : ServiceInv w₀ s' := by
  simp only [Service.sectionStep, Option.bind_eq_bind, Option.bind_eq_some_iff] at run
  obtain ⟨⟨r, l⟩, here, run⟩ := run
  have placed := h.placed t
  rw [here] at placed
  obtain ⟨inside, before, -, -⟩ := placed
  have fits := h.fits t
  rw [before] at fits
  cases next : l.next s.sections.shared with
  | error e =>
    rw [next] at run
    cases run
  | ok out =>
    obtain ⟨w, l' | a⟩ := out
    all_goals simp only [next] at run
    · by_cases test : (s.locks.pc t).isTest = true
      · -- the name is legal, and the locks go on to the body
        obtain ⟨key, value, rfl, pc, next'⟩ := h.test here test
        simp only [if_pos test, Option.bind_eq_some_iff, Option.some.injEq] at run
        obtain ⟨locks, step, rfl⟩ := run
        have legal : legalName key = true := by
          rw [next] at next'
          cases e : legalName key with
          | true => rfl
          | false => simp [e] at next'
        have pc' := Locks.step_succ step
        simp only [pc, legal, Pc.succ, if_true, List.mem_singleton, exists_eq_left] at pc'
        exact h.more here next (h.locks.step step) pc' rfl rfl rfl (by simp [Pc.fits]) rfl (by simp [pc]) rfl
      · simp only [if_neg test, Option.some.injEq] at run
        subst run
        exact h.more here next h.locks (Function.update_eq_self t s.locks.pc).symm rfl rfl rfl fits inside Iff.rfl
          (Bool.eq_false_of_not_eq_true test)
    · simp only [Option.bind_eq_some_iff] at run
      obtain ⟨locks, step, run⟩ := run
      obtain ⟨p, succ, pc⟩ := Locks.step_succ step
      have at' : locks.pc t = p := by rw [pc, Function.update_self]
      by_cases test : (s.locks.pc t).isTest = true
      · -- the name is refused, and the call returns
        obtain ⟨key, value, rfl, pcTest, next'⟩ := h.test here test
        have illegal : legalName key = false := by
          rw [next] at next'
          cases e : legalName key with
          | true => simp [e] at next'
          | false => rfl
        simp only [pcTest, illegal, Pc.succ, Bool.false_eq_true, if_false, List.mem_singleton] at succ
        subst succ
        rw [if_pos at'] at run
        cases run
        exact h.leave here next (h.locks.step step) pc rfl rfl (.inr ⟨rfl, rfl, rfl⟩)
      · obtain ⟨fits', busy, out⟩ := Pc.fits_leave (r := r) (a := a) inside (Bool.eq_false_of_not_eq_true test) succ
        rw [if_neg (by rw [at']; exact busy)] at run
        cases run
        exact h.leave here next (h.locks.step step) pc out rfl (.inl ⟨fits', rfl, rfl⟩)

/-- **Every step** keeps the invariant. -/
theorem step (h : ServiceInv w₀ s) (run : s.step t = some s') : ServiceInv w₀ s' := by
  unfold Service.step at run
  split at run
  · exact h.sectionStep run
  · rename_i out
    exact h.lockStep (Bool.eq_false_of_not_eq_true out) run

end ServiceInv

/-- **Every state that is reached** has the invariant. -/
theorem Service.Reaches.inv [Fintype ι] {w₀ : World} {s : Service ι} (h : Service.Reaches w₀ s) :
    ServiceInv w₀ s := by
  induction h with
  | loaded => exact .loaded w₀
  | call t r _ idle ih => exact ih.invoke idle r
  | step t _ run ih => exact ih.step run

/-- While only readers are in their sections, all places are those of readers. -/
theorem ServiceInv.readers [Fintype ι] {w₀ : World} {s : Service ι} (h : ServiceInv w₀ s)
    (readers : ∀ t, (s.locks.pc t).inSection = true → s.locks.pc t = .getBody) :
    ∀ t r l, s.sections.inside t = some (r, l) → serviceCut.reads l = true := by
  intro t r l here
  have placed := h.placed t
  rw [here] at placed
  obtain ⟨inside, -, reads, -⟩ := placed
  exact reads.trans (decide_eq_true (readers t inside))

/-- **The service is linearizable.** Take any interleaving of calls of `get_property`, `set_property` and
`release_all_props`, by any number of threads, in the steps of `Place`: single turns of the loops of a read and of a
release, and of a write the search, the rewrite of the file and `put`, a step each. The calls of a thread begin, take
effect and return one after the other; the calls that have taken effect give the answers, and leave the world, that they
give when each of them is made in one piece, in the order of their effects; and a step that faults is one of a call that
faults when it is made in one piece there. -/
theorem calls_linearize [Fintype ι] {w₀ : World} {s : Service ι} (h : Service.Reaches w₀ s) :
    (∀ t, phaseOf t s.hist = some (s.phase t)) ∧
    ∃ w, serviceCut.Replays (effects s.hist) w₀ w ∧
      ((∀ t, (s.locks.pc t).inSection = true → s.locks.pc t = .getBody) → s.sections.shared = w) ∧
      ∀ t r l e, s.sections.inside t = some (r, l) → l.next s.sections.shared = .error e → r.whole w = .error e := by
  have inv := h.inv
  obtain ⟨w, serial⟩ := inv.serial
  exact ⟨inv.hist, w, inv.effects ▸ serial.replays, fun readers => serial.present (inv.readers readers),
    fun t r l e here next => serial.fault here next⟩

/-- A call of `get_property` that begins while a call of `set_property` is in its section, and waits for it. -/
theorem calls_linearize_two : ∃ s : Service (Fin 2),
    effects s.hist = [(.set (.lit "a") (.lit "1"), .status 0),
      (.get [97, 0] [0, 0] none, .read [49, 0])] ∧
    (∀ t, phaseOf t s.hist = some (s.phase t)) ∧
    ∃ w, serviceCut.Replays (effects s.hist) ⟨memoryInit .fresh, fun _ => none⟩ w ∧
      ((∀ t, (s.locks.pc t).inSection = true → s.locks.pc t = .getBody) → s.sections.shared = w) ∧
      ∀ t r l e, s.sections.inside t = some (r, l) → l.next s.sections.shared = .error e → r.whole w = .error e := by
  have run : (Service.exec (.call 0 (.set (.lit "a") (.lit "1")) :: .step 0 :: .call 1 (.get [97, 0] [0, 0] none) ::
      .step 1 :: .step 1 :: List.replicate 5 (.step 0) ++ List.replicate 8 (.step (1 : Fin 2)))
      (Service.loaded ⟨memoryInit .fresh, fun _ => none⟩)).map (fun s => effects s.hist) =
        some [(.set (.lit "a") (.lit "1"), .status 0), (.get [97, 0] [0, 0] none, .read [49, 0])] := by
    decide +kernel
  obtain ⟨s, exec, same⟩ := Option.map_eq_some_iff.1 run
  exact ⟨s, same, calls_linearize (Service.Reaches.loaded.exec exec)⟩

end CodeBackup.Property
