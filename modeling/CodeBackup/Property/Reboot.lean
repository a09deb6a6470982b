import CodeBackup.Property.Ending

/-!
# Over any number of reboots

A process loads its properties, serves the calls of its threads, and ends; the
next one loads the file that it has left. If no key's text stands in the line
of another key, and the values fit the pool, every rewrite finds its line
(`Mirrored.inPlace`), so every call of a process keeps the file in step with
the store (`Remembers.call`), in every interleaving. So a persistent key has
the value of the last `set_property` that took effect on it, in whichever life
of the system that was (`reboots_remember`).
-/

namespace CodeBackup.Property

open C C.Outcome CStr Binding Conc

/-! ## Lines that are found -/

/-- No key's text stands in the line of another key. -/
def Separate (log : List (CStr × CStr)) : Prop := ∀ p ∈ log, ∀ q ∈ log, p.1 ≠ q.1 → ¬ p.1.bytes <:+: entryLine q

instance (log : List (CStr × CStr)) : Decidable (Separate log) :=
  inferInstanceAs (Decidable (∀ p ∈ log, ∀ q ∈ log, p.1 ≠ q.1 → ¬ p.1.bytes <:+: entryLine q))

theorem Separate.subset {log log' : List (CStr × CStr)} (h : Separate log) (sub : log' ⊆ log) : Separate log' :=
  fun p hp q hq => h p (sub hp) q (sub hq)

theorem render_closed (log : List (CStr × CStr)) : Closed (render log) := by
  rcases List.eq_nil_or_concat log with rfl | ⟨log, p, rfl⟩
  · exact .inl rfl
  · refine .inr ⟨render log ++ (p.1.bytes ++ chEq :: p.2.bytes), ?_⟩
    simp [render_append, entryLine]

/-- A text without a newline that begins in a line stands in it. -/
theorem infix_of_prefix_drop {k body rest : List UInt8} (nl : chNewline ∉ k) {j : Nat} (inside : j ≤ body.length)
    (h : k <+: ((body ++ [chNewline]) ++ rest).drop j) : k <:+: body ++ [chNewline] := by
  have tail : (body ++ [chNewline]).drop j = body.drop j ++ [chNewline] := List.drop_append_of_le_length inside
  rw [List.drop_append_of_le_length (by rw [List.length_append]; omega)] at h
  rcases List.prefix_or_prefix_of_prefix h (List.prefix_append _ rest) with short | long
  · exact short.isInfix.trans (List.drop_suffix j _).isInfix
  · exact absurd (long.subset (by simp [tail])) nl

/-- A text that stands in no line does not begin in any. -/
theorem not_prefix_render {k : List UInt8} (nl : chNewline ∉ k) (x : List UInt8) : ∀ {log : List (CStr × CStr)},
    (∀ q ∈ log, ¬ k <:+: entryLine q) → ∀ j < (render log).length, ¬ k <+: (render log ++ x).drop j
  | [], _, j, hj => absurd hj (Nat.not_lt_zero j)
  | q :: log, absent, j, hj => by
    have line : entryLine q = (q.1.bytes ++ chEq :: q.2.bytes) ++ [chNewline] := by simp [entryLine]
    rw [render_cons, List.append_assoc]
    intro h
    by_cases first : j < (entryLine q).length
    · rw [line, List.length_append, List.length_singleton] at first
      rw [line] at h
      exact absent q List.mem_cons_self (line ▸ infix_of_prefix_drop nl (Nat.le_of_lt_succ first) h)
    · rw [List.drop_append, List.drop_eq_nil_of_le (Nat.le_of_not_lt first), List.nil_append] at h
      rw [render_cons, List.length_append] at hj
      exact not_prefix_render nl x (fun q hq => absent q (List.mem_cons_of_mem _ hq)) _ (by omega) h

/-- **A key whose text stands in no other line** is found in its own. -/
theorem Mirrored.inPlace {w : World} {log : List (CStr × CStr)} (h : Mirrored w log) {key : CStr}
    (apart : ∀ q ∈ log, key ≠ q.1 → ¬ key.bytes <:+: entryLine q) : InPlace key w := by
  intro persist bound
  obtain ⟨v, hv⟩ := Option.isSome_iff_exists.1 bound
  rw [h.agree key persist] at hv
  obtain ⟨log₁, log₂, rfl⟩ := List.append_of_mem (mem_of_lastOf hv)
  have written := h.written (key, v) (by simp)
  have before : ∀ q ∈ log₁, key ≠ q.1 := by
    intro q hq e
    have nodup := h.nodup
    rw [List.map_append, List.map_cons, List.nodup_append] at nodup
    exact nodup.2.2 q.1 (List.mem_map.2 ⟨q, hq, rfl⟩) key (by simp) e.symm
  have parts : render (log₁ ++ (key, v) :: log₂) =
      render log₁ ++ (key.bytes ++ chEq :: (v.bytes ++ chNewline :: render log₂)) := by
    simp [render_append, entryLine]
  refine ⟨_, render log₁, _, h.file, parts, render_closed log₁, ?_⟩
  rw [parts]
  exact not_prefix_render written.key.noNewline _ fun q hq => apart q (by simp [hq]) (before q hq)

/-! ## What the requests write -/

/-- The pair that a request writes to `build.prop`. -/
def Request.write : Request → Option (CStr × CStr)
  | .set key value =>
    if legalName key ∧ startsWith key persistPrefix ∧ value.strlen < propValueMax then some (key, value) else none
  | _ => none

/-- The pairs that requests write. -/
def writes (rs : List Request) : List (CStr × CStr) := rs.filterMap Request.write

/-- The bytes of the pool that a request may take. -/
def Request.cost : Request → Nat
  | .set _ value => value.strlen + 1
  | _ => 0

/-- The bytes that requests may take together. -/
def costs (rs : List Request) : Nat := (rs.map Request.cost).sum

@[simp] theorem costs_append (rs rs' : List Request) : costs (rs ++ rs') = costs rs + costs rs' := by
  simp [costs]

theorem writes_append (rs rs' : List Request) : writes (rs ++ rs') = writes rs ++ writes rs' :=
  List.filterMap_append

theorem mem_writes {rs : List Request} {p : CStr × CStr} : p ∈ writes rs ↔ ∃ r ∈ rs, r.write = some p :=
  List.mem_filterMap

theorem writes_subset {rs rs' : List Request} (sub : rs ⊆ rs') : writes rs ⊆ writes rs' := fun p hp => by
  obtain ⟨r, hr, write⟩ := mem_writes.1 hp
  exact mem_writes.2 ⟨r, sub hr, write⟩

theorem writes_single (r : Request) : writes [r] = r.write.toList := by
  cases h : r.write <;> simp [writes, h]

/-! ## The store and the file remember the writes -/

/-- `recovery.conf` is missing, or binds nothing. -/
def OtaEmpty (files : Files) : Prop :=
  ∀ content, files propPathOtaConfig = some content → ImportFree content ∧ bindings content = []

/-- `build.prop` mirrors the store, and each persistent key has its last value in the log. -/
structure Remembers (log : List (CStr × CStr)) (w : World) : Prop where
  mirrored : ∃ file, Mirrored w file
  last : ∀ k, lastOf log k = if startsWith k persistPrefix then w.mem.value k else none
  ota : OtaEmpty w.files

/-- A rewrite of `build.prop` leaves the other files as they are. -/
theorem fileUpdate_other {key value fn : CStr} (ne : fn ≠ propPathSystemBuild) {w : World} {files : Files}
    (run : fileUpdate key value w = .ok files) : files fn = w.files fn := by
  have op : ∀ {old : Nat} {haveKey : Bool},
      Prod.snd <$> opPropFile propPathSystemBuild key value old haveKey w.files = .ok files →
        files fn = w.files fn := by
    intro old haveKey run
    simp only [map_eq_ok, opPropFile, bind_eq_ok] at run
    obtain ⟨x, ⟨mem, -, out, -, e⟩, rfl⟩ := run
    cases e
    exact Function.update_of_ne ne _ _
  rw [fileUpdate] at run
  split at run
  · split at run <;> exact op run
  · cases run
    rfl

namespace Remembers

variable {log : List (CStr × CStr)} {w w' : World}

/-- What the file binds are the last values in the log. -/
theorem lastOf_file (h : Remembers log w) {file : List (CStr × CStr)} (mirrored : Mirrored w file) (k : CStr) :
    lastOf file k = lastOf log k := by
  rw [h.last]
  split
  · next persist => rw [mirrored.agree k persist]
  · next other =>
    refine lastOf_eq_none.2 fun p hp e => other ?_
    rw [← e]
    exact (mirrored.written p hp).key.starts

theorem mem_log (h : Remembers log w) {file : List (CStr × CStr)} (mirrored : Mirrored w file) {p : CStr × CStr}
    (hp : p ∈ file) : p ∈ log :=
  mem_of_lastOf (by rw [← h.lastOf_file mirrored, (lastOf_eq_some mirrored.nodup).2 hp])

/-- **A call of `set_property`** returns, and keeps the file in step. -/
theorem set_returns (h : Remembers log w) {b : Bindings} (holds : Implements w.mem b) {key value : CStr}
    (solid : ∀ p ∈ (Request.set key value).write, Solid p.2.bytes)
    (separate : Separate (log ++ (Request.set key value).write.toList))
    (room : b.ledger.used + (value.strlen + 1) ≤ blocksize) :
    ∃ r w', setProperty key value w = .ok (r, w') ∧ ∃ file, Mirrored w' file := by
  obtain ⟨file, mirrored⟩ := h.mirrored
  cases legal : legalName key with
  | false =>
    refine ⟨-1, w, ?_, file, mirrored⟩
    simp only [setProperty, isLegalPropertyName_spec, ok_bind, legal]
    rfl
  | true =>
    cases refused : refuses key value w.mem with
    | true =>
      refine ⟨0, w, ?_, file, mirrored⟩
      rw [setProperty_eq mirrored.good legal, if_pos refused]
    | false =>
      have short := (refuses_eq_false.1 refused).1
      suffices step : ∃ w', setStep (key, value) w = .ok w' ∧ ∃ file, Mirrored w' file by
        obtain ⟨w', run, rest⟩ := step
        rw [setStep, map_eq_ok] at run
        obtain ⟨⟨r, w₁⟩, run, rfl⟩ := run
        exact ⟨r, w₁, run, rest⟩
      cases persist : startsWith key persistPrefix with
      | false =>
        obtain ⟨w', run, mirrored'⟩ := mirrored.set_other legal short persist
        exact ⟨w', run, file, mirrored'⟩
      | true =>
        have write : (Request.set key value).write = some (key, value) := by
          rw [Request.write, if_pos ⟨legal, persist, short⟩]
        rw [write] at solid separate
        have fits : exhausts key value w.mem = false := holds.accounts.exhausts_iff.2 fun _ => room
        have place : InPlace key w := mirrored.inPlace fun q hq =>
          separate (key, value) (by simp) q (List.mem_append_left _ (h.mem_log mirrored hq))
        obtain ⟨w', file', run, mirrored'⟩ :=
          mirrored.set (c := (key, value)) ⟨legal, short, solid _ rfl, fun _ => fits⟩ place
        exact ⟨w', run, file', mirrored'⟩

/-- What is stored after a call of `set_property` is in the log with its write. -/
theorem set_remembers (h : Remembers log w) {b : Bindings} (holds : Implements w.mem b) {key value : CStr}
    (room : b.ledger.used + (value.strlen + 1) ≤ blocksize) {r : Int} (run : setProperty key value w = .ok (r, w'))
    (mirrored : ∃ file, Mirrored w' file) : Remembers (log ++ (Request.set key value).write.toList) w' := by
  have good := holds.accounts.good
  rcases setProperty_of_run good run with
    ⟨illegal, -, rfl⟩ | ⟨-, refused, -, rfl⟩ | ⟨legal, accepted, -, spec, file⟩
  · have write : (Request.set key value).write = none := by simp [Request.write, illegal]
    rw [write, Option.toList_none, List.append_nil]
    exact h
  · -- a persistent key is refused only for the length of the value
    have write : (Request.set key value).write = none := by
      refine if_neg fun ⟨legal, starts, short⟩ => ?_
      have ro := Persistent.ne_ro ⟨legal, starts⟩
      rw [refuses_eq_false.2 ⟨short, by simp [ro]⟩] at refused
      cases refused
    rw [write, Option.toList_none, List.append_nil]
    exact h
  · have fits : exhausts key value w.mem = false := holds.accounts.exhausts_iff.2 fun _ => room
    have short := (refuses_eq_false.1 accepted).1
    refine ⟨mirrored, fun k => ?_, fun content other => h.ota content ?_⟩
    · rw [spec.value, fits]
      by_cases persist : startsWith key persistPrefix
      · rw [Request.write, if_pos ⟨legal, persist, short⟩, Option.toList_some, lastOf_concat, h.last]
        by_cases e : k = key
        · simp [e, persist]
        · simp [e, Ne.symm e]
      · have write : (Request.set key value).write = none := if_neg fun e => persist e.2.1
        rw [write, Option.toList_none, List.append_nil, h.last]
        by_cases e : k = key
        · simp [e, persist]
        · simp [e]
    · rw [← other, fileUpdate_other (by decide) file]

/-- **One call** of a process that is remembered. -/
theorem call (h : Remembers log w) {b : Bindings} (holds : Implements w.mem b) {r : Request} (proper : r.Proper)
    (solid : ∀ p ∈ r.write, Solid p.2.bytes) (separate : Separate (log ++ r.write.toList))
    (room : b.ledger.used + r.cost ≤ blocksize) :
    ∃ w' a, r.whole w = .ok (w', a) ∧ Remembers (log ++ r.write.toList) w' := by
  cases r with
  | get key value d =>
    obtain ⟨a, run, -⟩ := holds.get proper w.files
    exact ⟨w, a, run, by simpa [Request.write] using h⟩
  | set key value =>
    obtain ⟨r, w', run, mirrored⟩ := h.set_returns holds solid separate room
    exact ⟨w', .status r, by simp [Request.whole, run], h.set_remembers holds room run mirrored⟩
  | release => cases proper

end Remembers

/-! ## The next life -/

/-- The bytes that the values in `build.prop` take in a pool. -/
def heldBytes (files : Files) : Nat := textSize ((bindings ((files propPathSystemBuild).getD [])).map Prod.snd)

/-- A load of a file that binds nothing changes nothing. -/
theorem Accounts.load_ota {L : Ledger CStr} {m : Mem} (h : Accounts L m) {files : Files} (ota : OtaEmpty files)
    (depth : Nat) : ∃ m', loadPropertiesFromFile addProperty files (depth + 1) propPathOtaConfig none m = .ok m' ∧
      Accounts L m' ∧ m'.value = m.value := by
  cases file : files propPathOtaConfig with
  | none =>
    refine ⟨m, ?_, h, rfl⟩
    unfold loadPropertiesFromFile
    simp only [readFile, file, Option.map_none]
  | some content =>
    obtain ⟨free, nothing⟩ := ota content file
    obtain ⟨m', run, acc, value⟩ := h.load depth file free
    rw [nothing] at acc value
    exact ⟨m', run, acc, value⟩

/-- The values that the store holds fit a pool. -/
theorem Remembers.heldBytes_le {log : List (CStr × CStr)} {w : World} (h : Remembers log w) :
    heldBytes w.files ≤ blocksize := by
  obtain ⟨file, mirrored⟩ := h.mirrored
  rw [heldBytes, mirrored.file, Option.getD_some, bindings_render mirrored.written]
  exact mirrored.good.textSize_le mirrored.nodup fun p hp => mirrored.bound hp

/-- **A load** of what a life has left. -/
theorem Remembers.reboot {log : List (CStr × CStr)} {w : World} (h : Remembers log w) (depth : Nat) :
    ∃ m b, loadAllProps (depth + 1) ⟨.fresh, w.files⟩ = .ok ⟨m, w.files⟩ ∧ Implements m b ∧
      b.ledger.used ≤ heldBytes w.files ∧ Remembers log ⟨m, w.files⟩ ∧ ∀ k, m.value k = lastOf log k := by
  obtain ⟨file, mirrored⟩ := h.mirrored
  have lines := bindings_render mirrored.written
  have held : heldBytes w.files = textSize (file.map Prod.snd) := by
    rw [heldBytes, mirrored.file, Option.getD_some, lines]
  have fits : textSize (file.map Prod.snd) ≤ blocksize := held ▸ h.heldBytes_le
  have free := importFree_render mirrored.written
  obtain ⟨m₁, run₁, acc₁, -⟩ := (Accounts.init vacant_fresh).load depth mirrored.file free
  obtain ⟨m₁', run₁', logged⟩ := @load_logged w.files depth _ _ _ vacant_fresh.good mirrored.file free
    (by rw [vacant_fresh.remain, lines]; exact_mod_cast fits)
  obtain rfl := unique run₁ run₁'
  obtain ⟨m, run, acc, value⟩ := acc₁.load_ota h.ota depth
  have values : ∀ k, m.value k = lastOf file k := fun k => by
    rw [value, logged.value, lines, vacant_fresh.value, Option.or_none]
  have used : (Ledger.run blocksize strlen ⟨∅, 0⟩ (bindings (render file))).used ≤ heldBytes w.files := by
    have remain := logged.remain
    rw [lines, acc₁.remain, vacant_fresh.remain, lines] at remain
    rw [held, lines]
    omega
  refine ⟨m, ⟨m.value, _, acc.sizes⟩, by simp only [loadAllProps, run₁, run, ok_bind], ⟨acc, rfl⟩,
    used, ⟨⟨file, acc.good, mirrored.file, mirrored.written, mirrored.nodup, fun k _ => values k⟩, fun k => ?_, h.ota⟩,
    fun k => ?_⟩
  · rw [values, h.lastOf_file mirrored, h.last]
    split <;> rfl
  · rw [values, h.lastOf_file mirrored]

/-! ## A life -/

/-- A call takes at most its cost. -/
theorem Bindings.Permits.used_le {r : Request} {a : Answer} {b b' : Bindings} (h : Bindings.Permits r a b b')
    (room : b.ledger.used + r.cost ≤ blocksize) : b'.ledger.used ≤ b.ledger.used + r.cost := by
  cases r with
  | get key value d =>
    have same : b' = b := by
      cases a with
      | read _ | listed _ => exact h.2.1
      | status _ | released => cases h
    rw [same]
    exact Nat.le_add_right _ _
  | release => cases a <;> cases h
  | set key value =>
    cases a with
    | read _ | listed _ | released => cases h
    | status r =>
      obtain rfl : b' = (b.set key value).2 := congrArg Prod.snd h
      have stays : b.ledger.used ≤ b.ledger.used + (value.strlen + 1) := Nat.le_add_right _ _
      rw [Bindings.set]
      split
      · split
        · exact stays
        · exact Ledger.used_store_le room
      · exact stays

/-- **The calls of a life**, one after the other. -/
theorem Remembers.replays {log : List (CStr × CStr)} {w₀ w : World} {b₀ : Bindings} (start : Remembers log w₀)
    (holds : Implements w₀.mem b₀) {l : List (Request × Answer)} (h : serviceCut.Replays l w₀ w)
    (proper : ∀ p ∈ l, p.1.Proper) (solid : ∀ q ∈ writes (l.map Prod.fst), Solid q.2.bytes)
    (separate : Separate (log ++ writes (l.map Prod.fst)))
    (room : b₀.ledger.used + costs (l.map Prod.fst) ≤ blocksize) :
    ∃ b, Implements w.mem b ∧ b.ledger.used ≤ b₀.ledger.used + costs (l.map Prod.fst) ∧
      Remembers (log ++ writes (l.map Prod.fst)) w := by
  refine h.carries (I := fun l w => ∃ b, Implements w.mem b ∧ b.ledger.used ≤ b₀.ledger.used + costs (l.map Prod.fst) ∧
      Remembers (log ++ writes (l.map Prod.fst)) w)
    ⟨b₀, holds, Nat.le_refl _, by simpa [writes] using start⟩ fun {l₁ l₂ c a w₁ w₂} split here run => ?_
  obtain ⟨b, holds, used, remembers⟩ := here
  have parts : l.map Prod.fst = l₁.map Prod.fst ++ [c] ++ l₂.map Prod.fst := by simp [split]
  simp only [parts, writes_append, writes_single, costs_append] at solid separate room
  have cost : costs [c] = c.cost := by simp [costs]
  have room' : b.ledger.used + c.cost ≤ blocksize := by omega
  obtain ⟨w', a', run', remembers'⟩ := remembers.call holds (proper (c, a) (by simp [split]))
    (fun q hq => solid q (by simp [Option.mem_def.1 hq]))
    (separate.subset fun q hq => by simp only [List.mem_append] at hq ⊢; tauto) room'
  cases unique run run'
  obtain ⟨b', permits, holds'⟩ := whole_permits (proper (c, a) (by simp [split])) holds run
  have used' : b'.ledger.used ≤ b.ledger.used + c.cost := permits.used_le room'
  refine ⟨b', holds', ?_, ?_⟩
  · rw [List.map_append, List.map_singleton, costs_append, cost]
    omega
  · rw [List.map_append, List.map_singleton, writes_append, writes_single, ← List.append_assoc]
    exact remembers'

/-! ## The cost of a history -/

section Costs

variable {ι : Type} [DecidableEq ι]

/-- The calls that have taken effect. -/
def effected (hist : List (Event ι)) : List Request := (effects hist).map Prod.fst

omit [DecidableEq ι] in
theorem effected_append (h h' : List (Event ι)) : effected (h ++ h') = effected h ++ effected h' := by
  simp [effected, effects_append]

/-- What a call may still take. -/
def Phase.cost : Phase → Nat
  | .before r => r.cost
  | _ => 0

theorem Phase.follow_other {t : ι} {e : Event ι} {ph : Phase} (ne : t ≠ e.thread) :
    Phase.follow t (some ph) e = some ph := by
  cases e <;> simp only [Phase.follow, Event.thread] at ne ⊢ <;> rw [if_neg ne.symm]

theorem Phase.follow_cost {e : Event ι} {ph ph' : Phase} (next : Phase.follow e.thread (some ph) e = some ph') :
    ph'.cost + costs (effected [e]) = ph.cost + costs (invoked [e]) := by
  cases e with
  | invoke t r =>
    simp only [Phase.follow, Event.thread, if_true, Option.ite_none_right_eq_some, Option.some.injEq] at next
    obtain ⟨rfl, rfl⟩ := next
    simp [Phase.cost, costs, effected, effects, invoked]
  | effect t r a =>
    simp only [Phase.follow, Event.thread, if_true, Option.ite_none_right_eq_some, Option.some.injEq] at next
    obtain ⟨rfl, rfl⟩ := next
    simp [Phase.cost, costs, effected, effects, invoked]
  | ret t r a =>
    simp only [Phase.follow, Event.thread, if_true, Option.ite_none_right_eq_some, Option.some.injEq] at next
    obtain ⟨rfl, rfl⟩ := next
    rfl

/-- **What the calls cost**: those that have taken effect, and those that may still. -/
theorem costs_effected [Fintype ι] : ∀ {hist : List (Event ι)} {phase : ι → Phase},
    (∀ t, phaseOf t hist = some (phase t)) →
      costs (effected hist) + ∑ t, (phase t).cost = costs (invoked hist) := by
  intro hist
  induction hist using List.reverseRecOn with
  | nil =>
    intro phase same
    have idle : ∀ t, (phase t).cost = 0 := fun t => by
      have here : Phase.idle = phase t := by simpa [phaseOf] using same t
      rw [← here]
      rfl
    simp [idle, effected, effects, invoked, costs]
  | append_singleton hist e ih =>
    intro phase same
    choose phase₀ before next using fun t => phaseOf_before (same t)
    have one := Phase.follow_cost (next e.thread)
    have others : ∑ t ∈ Finset.univ.erase e.thread, (phase t).cost =
        ∑ t ∈ Finset.univ.erase e.thread, (phase₀ t).cost := by
      refine Finset.sum_congr rfl fun t ht => ?_
      have stays := next t
      rw [Phase.follow_other (Finset.ne_of_mem_erase ht), Option.some.injEq] at stays
      rw [stays]
    have all := Finset.add_sum_erase Finset.univ (fun t => (phase t).cost) (Finset.mem_univ e.thread)
    have all₀ := Finset.add_sum_erase Finset.univ (fun t => (phase₀ t).cost) (Finset.mem_univ e.thread)
    have sum := ih before
    rw [effected_append, invoked_append, costs_append, costs_append]
    omega

end Costs

/-! ## Lives, one after the other -/

section Lives

variable {ι : Type} [DecidableEq ι]

/-- No thread is in a section that writes. -/
def Service.OnlyReads (s : Service ι) : Prop := ∀ t, (s.locks.pc t).inSection = true → s.locks.pc t = .getBody

instance [Fintype ι] (s : Service ι) : Decidable s.OnlyReads :=
  inferInstanceAs (Decidable (∀ t, (s.locks.pc t).inSection = true → s.locks.pc t = .getBody))

/-- A process, the files on which it was started, and what happened in the lives before it. -/
structure Uptime (ι : Type) where
  base : Files
  past : List (Event ι)
  service : Service ι

namespace Uptime

/-- What has happened in all lives. -/
def hist (u : Uptime ι) : List (Event ι) := u.past ++ u.service.hist

/-- The writes that were asked for, in all lives. -/
def asked (u : Uptime ι) : List (CStr × CStr) := writes (invoked u.hist)

/-- The writes that have taken effect, in all lives. -/
def done (u : Uptime ι) : List (CStr × CStr) := writes (effected u.hist)

/-- The bytes of its pool that the process may have handed out. -/
def taken (u : Uptime ι) : Nat := heldBytes u.base + costs (invoked u.service.hist)

/-- A request that keeps the file in order: what it writes has no white space, no key stands in the line of another
one, and the pool has room for all values that were asked for in this life. -/
structure Admits (u : Uptime ι) (r : Request) : Prop where
  proper : r.Proper
  solid : ∀ p ∈ r.write, Solid p.2.bytes
  separate : Separate (u.asked ++ r.write.toList)
  room : u.taken + r.cost ≤ blocksize

instance (r : Request) : Decidable r.Proper := by
  cases r with
  | get key value d =>
    exact inferInstanceAs (Decidable (0 ∈ key.take propKeyMax ∧ propKeyMax ≤ key.length ∧ value = pad (.lit "")))
  | set key value => exact inferInstanceAs (Decidable True)
  | release => exact inferInstanceAs (Decidable False)

instance (u : Uptime ι) (r : Request) : Decidable (u.Admits r) :=
  decidable_of_iff (r.Proper ∧ (∀ p ∈ r.write, Solid p.2.bytes) ∧ Separate (u.asked ++ r.write.toList) ∧
      u.taken + r.cost ≤ blocksize)
    ⟨fun h => ⟨h.1, h.2.1, h.2.2.1, h.2.2.2⟩, fun h => ⟨h.proper, h.solid, h.separate, h.room⟩⟩

/-- The states that the system reaches from some files. A life ends at any moment at which nobody writes. -/
inductive Reaches (files : Files) : Uptime ι → Prop where
  | start {depth : Nat} {w : World} : loadAllProps depth ⟨.fresh, files⟩ = .ok w → Reaches files ⟨files, [], .loaded w⟩
  | call {u : Uptime ι} (t : ι) (r : Request) : Reaches files u → u.service.phase t = .idle → u.Admits r →
      Reaches files { u with service := u.service.invoke t r }
  | step {u : Uptime ι} {s : Service ι} (t : ι) : Reaches files u → u.service.step t = some s →
      Reaches files { u with service := s }
  | reboot {u : Uptime ι} {depth : Nat} {w : World} : Reaches files u → u.service.OnlyReads →
      loadAllProps depth ⟨.fresh, u.service.sections.shared.files⟩ = .ok w →
      Reaches files ⟨u.service.sections.shared.files, u.hist, .loaded w⟩

/-- One move of the system. -/
inductive Move (ι : Type) where
  | call (t : ι) (r : Request)
  | step (t : ι)
  | reboot

/-- The moves of a list, if each of them is possible. -/
def exec [Fintype ι] : List (Move ι) → Uptime ι → Option (Uptime ι)
  | [], u => some u
  | .call t r :: l, u =>
    if u.service.phase t = .idle ∧ u.Admits r then exec l { u with service := u.service.invoke t r } else none
  | .step t :: l, u => (u.service.step t).bind fun s => exec l { u with service := s }
  | .reboot :: l, u =>
    if u.service.OnlyReads then
      match loadAllProps 1 ⟨.fresh, u.service.sections.shared.files⟩ with
      | .ok w => exec l ⟨u.service.sections.shared.files, u.hist, .loaded w⟩
      | .error _ => none
    else none

theorem Reaches.exec [Fintype ι] {files : Files} {u u' : Uptime ι} {l : List (Move ι)} (h : Reaches files u)
    (run : Uptime.exec l u = some u') : Reaches files u' := by
  induction l generalizing u with
  | nil => cases run; exact h
  | cons m l ih =>
    cases m with
    | call t r =>
      simp only [Uptime.exec, Option.ite_none_right_eq_some] at run
      exact ih (h.call t r run.1.1 run.1.2) run.2
    | step t =>
      obtain ⟨s, step, run⟩ := Option.bind_eq_some_iff.1 run
      exact ih (h.step t step) run
    | reboot =>
      simp only [Uptime.exec, Option.ite_none_right_eq_some] at run
      obtain ⟨quiet, run⟩ := run
      split at run
      · rename_i w load
        exact ih (h.reboot quiet load) run
      · cases run

end Uptime

/-- The calls that have taken effect have been made. -/
theorem effected_subset {hist : List (Event ι)} (formed : ∀ t, ∃ ph, phaseOf t hist = some ph) :
    effected hist ⊆ invoked hist := fun r hr => by
  obtain ⟨p, hp, rfl⟩ := List.mem_map.1 hr
  exact invoked_of_effect formed hp

/-- What the requests of all lives promise, and how the present life began. -/
structure UptimeInv [Fintype ι] (u : Uptime ι) : Prop where
  separate : Separate u.asked
  solid : ∀ p ∈ u.asked, Solid p.2.bytes
  proper : ∀ r ∈ invoked u.service.hist, r.Proper
  room : u.taken ≤ blocksize
  past : effected u.past ⊆ invoked u.past
  life : ∃ w₀ b₀, Service.Reaches w₀ u.service ∧ Implements w₀.mem b₀ ∧ b₀.ledger.used ≤ heldBytes u.base ∧
    Remembers (writes (effected u.past)) w₀

namespace UptimeInv

variable [Fintype ι] {u : Uptime ι}

/-- What has taken effect has been asked for. -/
theorem made (h : UptimeInv u) : effected u.hist ⊆ invoked u.hist := by
  obtain ⟨w₀, -, reaches, -⟩ := h.life
  have sub : effected u.service.hist ⊆ invoked u.service.hist := effected_subset fun t => ⟨_, reaches.inv.hist t⟩
  rw [Uptime.hist, effected_append, invoked_append]
  exact List.append_subset.2 ⟨fun r hr => List.mem_append_left _ (h.past hr),
    fun r hr => List.mem_append_right _ (sub hr)⟩

/-- **The present state**: the calls that have taken effect have led to a store that remembers them. -/
theorem present (h : UptimeInv u) : ∃ w₀ w b, ServiceInv w₀ u.service ∧
    Sections.SerialAt serviceCut w₀ u.service.sections w ∧ Implements w.mem b ∧
    b.ledger.used ≤ heldBytes u.base + costs (effected u.service.hist) ∧ Remembers u.done w := by
  obtain ⟨w₀, b₀, reaches, holds, used, remembers⟩ := h.life
  have inv := reaches.inv
  obtain ⟨w, serial⟩ := inv.serial
  have sub : effected u.service.hist ⊆ invoked u.service.hist := effected_subset fun t => ⟨_, inv.hist t⟩
  have done : u.done = writes (effected u.past) ++ writes (effected u.service.hist) := by
    rw [Uptime.done, Uptime.hist, effected_append, writes_append]
  have within : writes (effected u.past) ++ writes (effected u.service.hist) ⊆ u.asked :=
    done ▸ writes_subset h.made
  have total := costs_effected inv.hist
  have room := h.room
  rw [Uptime.taken] at room
  obtain ⟨b, holds', used', remembers'⟩ := remembers.replays holds (inv.effects ▸ serial.replays)
    (fun p hp => h.proper _ (sub (List.mem_map_of_mem hp)))
    (fun q hq => h.solid q (within (List.mem_append_right _ hq))) (h.separate.subset within)
    (by show b₀.ledger.used + costs (effected u.service.hist) ≤ blocksize; omega)
  refine ⟨w₀, w, b, inv, serial, holds', ?_, done ▸ remembers'⟩
  exact used'.trans (Nat.add_le_add_right used _)

/-- **No step faults.** -/
theorem no_fault (h : UptimeInv u) {t : ι} {r : Request} {l : Place}
    (here : u.service.sections.inside t = some (r, l)) : ∃ out, l.next u.service.sections.shared = .ok out := by
  obtain ⟨w₀, w, b, inv, serial, holds, used, remembers⟩ := h.present
  have placed := inv.placed t
  rw [here] at placed
  obtain ⟨-, before, -, -⟩ := placed
  have made : r ∈ invoked u.service.hist := invoked_of_phase (inv.hist t) (by rw [before]; rfl)
  have asked : r.write.toList ⊆ u.asked := fun p hp =>
    mem_writes.2 ⟨r, by rw [Uptime.hist, invoked_append]; exact List.mem_append_right _ made, by simpa using hp⟩
  have done : u.done ⊆ u.asked := writes_subset h.made
  -- the call is among those whose costs the pool has room for
  have room : b.ledger.used + r.cost ≤ blocksize := by
    have total := costs_effected inv.hist
    have mine : (u.service.phase t).cost ≤ ∑ t, (u.service.phase t).cost :=
      Finset.single_le_sum (f := fun t => (u.service.phase t).cost) (fun _ _ => Nat.zero_le _) (Finset.mem_univ t)
    have fits := h.room
    rw [show (u.service.phase t).cost = r.cost by rw [before]; rfl] at mine
    rw [Uptime.taken] at fits
    omega
  obtain ⟨w', a, returns, -⟩ := remembers.call holds (h.proper r made)
    (fun p hp => h.solid p (asked (by simpa using hp))) (h.separate.subset (List.append_subset.2 ⟨done, asked⟩)) room
  cases next : l.next u.service.sections.shared with
  | ok out => exact ⟨out, rfl⟩
  | error e =>
    have fault := serial.fault here next
    rw [show serviceCut.whole r w = r.whole w from rfl, returns] at fault
    cases fault

/-- While nobody writes, the store and the file remember the calls that have taken effect. -/
theorem remembers (h : UptimeInv u) (quiet : u.service.OnlyReads) : Remembers u.done u.service.sections.shared := by
  obtain ⟨w₀, w, b, inv, serial, -, -, remembers⟩ := h.present
  rw [serial.present (inv.readers quiet)]
  exact remembers

/-- **A call that is admitted.** -/
theorem call (h : UptimeInv u) {t : ι} (idle : u.service.phase t = .idle) {r : Request} (admits : u.Admits r) :
    UptimeInv { u with service := u.service.invoke t r } := by
  have asked : Uptime.asked { u with service := u.service.invoke t r } = u.asked ++ r.write.toList := by
    show writes (invoked (u.past ++ (u.service.hist ++ [.invoke t r]))) = _
    rw [← List.append_assoc, invoked_append, writes_append, ← writes_single]
    rfl
  have made : invoked (u.service.invoke t r).hist = invoked u.service.hist ++ [r] := invoked_append _ _
  obtain ⟨w₀, b₀, reaches, start⟩ := h.life
  refine ⟨?_, ?_, ?_, ?_, h.past, w₀, b₀, reaches.call t r idle, start⟩
  · rw [asked]
    exact admits.separate
  · rw [asked]
    intro p hp
    rcases List.mem_append.1 hp with hp | hp
    · exact h.solid p hp
    · exact admits.solid p (by simpa using hp)
  · show ∀ r' ∈ invoked (u.service.invoke t r).hist, r'.Proper
    rw [made]
    intro r' hr
    rcases List.mem_append.1 hr with hr | hr
    · exact h.proper r' hr
    · rw [List.mem_singleton.1 hr]
      exact admits.proper
  · have room := admits.room
    rw [Uptime.taken] at room ⊢
    show heldBytes u.base + costs (invoked (u.service.invoke t r).hist) ≤ blocksize
    rw [made, costs_append]
    simpa [costs, Nat.add_assoc] using room

/-- A step makes no new requests. -/
theorem step (h : UptimeInv u) {t : ι} {s : Service ι} (run : u.service.step t = some s) :
    UptimeInv { u with service := s } := by
  have same := (Service.step_cases run).1
  obtain ⟨w₀, b₀, reaches, start⟩ := h.life
  have asked : Uptime.asked { u with service := s } = u.asked := by
    rw [Uptime.asked, Uptime.asked, Uptime.hist, Uptime.hist, invoked_append, invoked_append, same]
  have taken : Uptime.taken { u with service := s } = u.taken := by rw [Uptime.taken, Uptime.taken, same]
  exact ⟨asked ▸ h.separate, asked ▸ h.solid, same ▸ h.proper, taken ▸ h.room, h.past,
    w₀, b₀, reaches.step t run, start⟩

/-- **A life begins** with what the lives before it have left. -/
theorem start {past : List (Event ι)} {w₁ w : World} (separate : Separate (writes (invoked past)))
    (solid : ∀ p ∈ writes (invoked past), Solid p.2.bytes) (sub : effected past ⊆ invoked past)
    (left : Remembers (writes (effected past)) w₁) {depth : Nat}
    (load : loadAllProps depth ⟨.fresh, w₁.files⟩ = .ok w) :
    UptimeInv (⟨w₁.files, past, .loaded w⟩ : Uptime ι) := by
  have asked : Uptime.asked (⟨w₁.files, past, .loaded w⟩ : Uptime ι) = writes (invoked past) :=
    congrArg (fun hist => writes (invoked hist)) (List.append_nil past)
  cases depth with
  | zero => cases load
  | succ depth =>
    obtain ⟨m, b, load', holds, used, remembers, -⟩ := left.reboot depth
    cases unique load load'
    exact ⟨asked ▸ separate, asked ▸ solid, fun r hr => absurd hr List.not_mem_nil, left.heldBytes_le, sub,
      _, b, .loaded, holds, used, remembers⟩

/-- **The next life.** -/
theorem reboot (h : UptimeInv u) (quiet : u.service.OnlyReads) {depth : Nat} {w : World}
    (load : loadAllProps depth ⟨.fresh, u.service.sections.shared.files⟩ = .ok w) :
    UptimeInv (⟨u.service.sections.shared.files, u.hist, .loaded w⟩ : Uptime ι) :=
  .start h.separate h.solid h.made (h.remembers quiet) load

end UptimeInv

/-- **Every state that the system reaches** from an empty `build.prop`. -/
theorem Uptime.Reaches.inv [Fintype ι] {files : Files} (empty : files propPathSystemBuild = some [])
    (ota : OtaEmpty files) {u : Uptime ι} (h : Uptime.Reaches files u) : UptimeInv u := by
  induction h with
  | start load =>
    have nothing : Remembers [] ⟨memoryInit .fresh, files⟩ :=
      ⟨⟨[], mirrored_empty empty⟩, fun k => by simp [vacant_fresh.value], ota⟩
    have separate : Separate (writes (invoked ([] : List (Event ι)))) := fun _ hp => absurd hp List.not_mem_nil
    exact .start separate (fun _ hp => absurd hp List.not_mem_nil) (List.Subset.refl _) nothing load
  | call t r _ idle admits ih => exact ih.call idle admits
  | step t _ run ih => exact ih.step run
  | reboot _ quiet load ih => exact ih.reboot quiet load

/-- **The system remembers, over any number of reboots.** Take any lives, one after the other, of processes whose
threads take turns in the steps of `Place`, from an empty `build.prop` on, with requests that keep the file in order. No
step faults, the rewrites of the file included; and while nobody writes, a persistent key has the value of the last
write that took effect on it, in whichever life that was, and the next load returns and binds exactly these keys to
these values. -/
theorem reboots_remember [Fintype ι] {files : Files} (empty : files propPathSystemBuild = some [])
    (ota : OtaEmpty files) {u : Uptime ι} (h : Uptime.Reaches files u) :
    (∀ t r l, u.service.sections.inside t = some (r, l) → ∃ out, l.next u.service.sections.shared = .ok out) ∧
    (u.service.OnlyReads →
      (∀ k, startsWith k persistPrefix → getVal k u.service.sections.shared.mem = .ok (lastOf u.done k)) ∧
      ∀ depth, ∃ w, loadAllProps (depth + 1) ⟨.fresh, u.service.sections.shared.files⟩ = .ok w ∧
        ∀ k, getVal k w.mem = .ok (lastOf u.done k)) := by
  have inv := h.inv empty ota
  refine ⟨fun t r l here => inv.no_fault here, fun quiet => ⟨fun k persist => ?_, fun depth => ?_⟩⟩
  · obtain ⟨⟨file, mirrored⟩, last, -⟩ := inv.remembers quiet
    rw [mirrored.good.getVal, last, if_pos persist]
  · obtain ⟨m, b, load, holds, -, -, value⟩ := (inv.remembers quiet).reboot depth
    exact ⟨_, load, fun k => by rw [holds.accounts.good.getVal, value]⟩

/-- Two writes at once, of which one waits for the other; and in the next life an update, with a longer value. -/
theorem reboots_remember_two : ∃ u : Uptime (Fin 2),
    u.done = [(.lit "persist.a", .lit "1"), (.lit "persist.b", .lit "22"), (.lit "persist.a", .lit "333")] ∧
    u.service.OnlyReads ∧
    (∀ t r l, u.service.sections.inside t = some (r, l) → ∃ out, l.next u.service.sections.shared = .ok out) ∧
    (u.service.OnlyReads →
      (∀ k, startsWith k persistPrefix → getVal k u.service.sections.shared.mem = .ok (lastOf u.done k)) ∧
      ∀ depth, ∃ w, loadAllProps (depth + 1) ⟨.fresh, u.service.sections.shared.files⟩ = .ok w ∧
        ∀ k, getVal k w.mem = .ok (lastOf u.done k)) := by
  have run : (Uptime.exec (.call 0 (.set (.lit "persist.a") (.lit "1")) :: .step 0 ::
      .call 1 (.set (.lit "persist.b") (.lit "22")) :: List.replicate 5 (.step 0) ++ List.replicate 6 (.step 1) ++
      .reboot :: .call 0 (.set (.lit "persist.a") (.lit "333")) :: List.replicate 6 (.step (0 : Fin 2)))
      ⟨emptyBuild, [], .loaded ⟨memoryInit .fresh, emptyBuild⟩⟩).map
        (fun u => (u.done, decide u.service.OnlyReads)) =
      some ([(.lit "persist.a", .lit "1"), (.lit "persist.b", .lit "22"), (.lit "persist.a", .lit "333")], true) := by
    decide +kernel
  obtain ⟨u, exec, same⟩ := Option.map_eq_some_iff.1 run
  obtain ⟨done, quiet⟩ := Prod.mk.inj same
  have ota : OtaEmpty emptyBuild := fun content file => by
    have ne : propPathOtaConfig ≠ propPathSystemBuild := by decide
    simp [emptyBuild, ne] at file
  have reaches := (Uptime.Reaches.start (loadAllProps_emptyBuild .fresh)).exec exec
  exact ⟨u, done, of_decide_eq_true quiet, reboots_remember (by simp [emptyBuild]) ota reaches⟩

end Lives

end CodeBackup.Property
