import CodeBackup.C.Outcome

/-!
# Sections that exclude each other

Threads make calls on a shared object; a call enters a section, takes its steps
there one at a time, between those of other threads, and leaves with an answer.
`Cut` is a set of calls cut into steps: `rest` is what remains of a call at a
place, `whole` the call in one piece. A section that only reads leaves the
object as it is.

If no other thread is in a section while one that writes is (`Exclusive`), the
calls have happened one after the other, in the order in which their sections
ended: that is `Serial`, which entering a section and every step keep.
-/

namespace CodeBackup.Conc

open C C.Outcome

variable {ι σ κ ℓ ρ : Type}

/-- Calls on an object of type `σ`, cut into steps: a call is at a place of type `ℓ`, and answers with a `ρ`. -/
structure Cut (σ κ ℓ ρ : Type) where
  whole : κ → σ → Outcome (σ × ρ)
  start : κ → ℓ
  /-- One step: the next place, or the answer. -/
  next : ℓ → σ → Outcome (σ × (ℓ ⊕ ρ))
  rest : ℓ → σ → Outcome (σ × ρ)
  reads : ℓ → Bool
  rest_start : ∀ c s, rest (start c) s = whole c s
  rest_next : ∀ l s, rest l s = next l s >>= fun r => r.2.elim (fun l' => rest l' r.1) fun a => .ok (r.1, a)
  reads_next : ∀ {l s s' l'}, next l s = .ok (s', .inl l') → reads l' = reads l
  next_reads : ∀ {l s s' r}, reads l = true → next l s = .ok (s', r) → s' = s

/-- The object, the threads in a section, and the calls that have left theirs, with their answers. -/
structure Sections (ι σ κ ℓ ρ : Type) where
  shared : σ
  inside : ι → Option (κ × ℓ)
  done : List (κ × ρ)

namespace Cut

variable (C : Cut σ κ ℓ ρ)

/-- The calls of a list, one after the other, with these answers. -/
def Replays : List (κ × ρ) → σ → σ → Prop
  | [], s, s' => s = s'
  | (c, a) :: l, s, s' => ∃ s₁, C.whole c s = .ok (s₁, a) ∧ Replays l s₁ s'

variable {C}

theorem Replays.concat {l : List (κ × ρ)} {c : κ} {a : ρ} {s s₁ s₂ : σ} (h : C.Replays l s s₁)
    (call : C.whole c s₁ = .ok (s₂, a)) : C.Replays (l ++ [(c, a)]) s s₂ := by
  induction l generalizing s with
  | nil =>
    obtain rfl : s = s₁ := h
    exact ⟨s₂, call, rfl⟩
  | cons p l ih =>
    obtain ⟨s', first, rest⟩ := h
    exact ⟨s', first, ih rest⟩

/-- Calls with answers that the object of a specification can give, one after the other. -/
def Explains {τ : Type} (does : κ → ρ → τ → τ → Prop) : List (κ × ρ) → τ → τ → Prop
  | [], b, b' => b = b'
  | (c, a) :: l, b, b' => ∃ b₁, does c a b b₁ ∧ Explains does l b₁ b'

/-- **What the specification allows of each call**, it allows of them one after the other. -/
theorem Replays.explains {τ : Type} {does : κ → ρ → τ → τ → Prop} {R : σ → τ → Prop} {P : κ → Prop}
    (sim : ∀ {c s s' a b}, P c → R s b → C.whole c s = .ok (s', a) → ∃ b', does c a b b' ∧ R s' b')
    {l : List (κ × ρ)} {s s' : σ} {b : τ} (h : C.Replays l s s') (all : ∀ p ∈ l, P p.1) (start : R s b) :
    ∃ b', Explains does l b b' ∧ R s' b' := by
  induction l generalizing s b with
  | nil =>
    obtain rfl : s = s' := h
    exact ⟨b, rfl, start⟩
  | cons p l ih =>
    obtain ⟨s₁, call, rest⟩ := h
    obtain ⟨b₁, first, next⟩ := sim (all p List.mem_cons_self) start call
    obtain ⟨b', l', finish⟩ := ih rest (fun q hq => all q (List.mem_cons_of_mem _ hq)) next
    exact ⟨b', ⟨b₁, first, l'⟩, finish⟩

/-- **An invariant of the calls**, which may speak of those that have been made. -/
theorem Replays.carries {I : List (κ × ρ) → σ → Prop} {l : List (κ × ρ)} {s s' : σ} (h : C.Replays l s s')
    (start : I [] s) (next : ∀ {l₁ l₂ c a s₁ s₂}, l = l₁ ++ (c, a) :: l₂ → I l₁ s₁ → C.whole c s₁ = .ok (s₂, a) →
      I (l₁ ++ [(c, a)]) s₂) : I l s' := by
  suffices tail : ∀ l₂ l₁ s₁, l = l₁ ++ l₂ → C.Replays l₂ s₁ s' → I l₁ s₁ → I l s' from tail l [] s rfl h start
  intro l₂
  induction l₂ with
  | nil =>
    rintro l₁ s₁ split rest here
    obtain rfl : s₁ = s' := rest
    rwa [split, List.append_nil]
  | cons p l₂ ih =>
    rintro l₁ s₁ split ⟨s₂, call, rest⟩ here
    exact ih (l₁ ++ [p]) s₂ (by rw [split, List.append_assoc]; rfl) rest (next split here call)

end Cut

namespace Sections

variable [DecidableEq ι]

/-- Thread `t` enters a section. -/
def enter (C : Cut σ κ ℓ ρ) (t : ι) (c : κ) (st : Sections ι σ κ ℓ ρ) : Sections ι σ κ ℓ ρ :=
  { st with inside := Function.update st.inside t (some (c, C.start c)) }

/-- Thread `t` is at its next place, and the object has changed. -/
def more (t : ι) (c : κ) (s : σ) (l : ℓ) (st : Sections ι σ κ ℓ ρ) : Sections ι σ κ ℓ ρ :=
  { st with shared := s, inside := Function.update st.inside t (some (c, l)) }

/-- Thread `t` leaves its section with an answer. -/
def leave (t : ι) (c : κ) (s : σ) (a : ρ) (st : Sections ι σ κ ℓ ρ) : Sections ι σ κ ℓ ρ where
  shared := s
  inside := Function.update st.inside t none
  done := st.done ++ [(c, a)]

variable (C : Cut σ κ ℓ ρ)

/-- While a thread is in a section that writes, no other one is in any. -/
def Exclusive (st : Sections ι σ κ ℓ ρ) : Prop :=
  ∀ t u c l, t ≠ u → st.inside t = some (c, l) → C.reads l = false → st.inside u = none

/-- The calls that are done have happened in their order and have led to a state `s`, which is the present one unless
a section that writes is under way; and what remains of a call in its section leads where the whole call does from
`s`. -/
structure SerialAt (s₀ : σ) (st : Sections ι σ κ ℓ ρ) (s : σ) : Prop where
  replays : C.Replays st.done s₀ s
  present : (∀ t c l, st.inside t = some (c, l) → C.reads l = true) → st.shared = s
  pending : ∀ t c l, st.inside t = some (c, l) → C.rest l st.shared = C.whole c s

def Serial (s₀ : σ) (st : Sections ι σ κ ℓ ρ) : Prop := ∃ s, SerialAt C s₀ st s

variable {C} {s₀ : σ} {st : Sections ι σ κ ℓ ρ} {t : ι} {c : κ} {l : ℓ}

omit [DecidableEq ι] in
theorem Serial.start (s₀ : σ) : Serial C s₀ (⟨s₀, fun _ => none, []⟩ : Sections ι σ κ ℓ ρ) :=
  ⟨s₀, rfl, fun _ => rfl, nofun⟩

/-- **A thread enters**, and is not in the way of a section that writes. -/
theorem Serial.enter (h : Serial C s₀ st) (outside : st.inside t = none) (excl : Exclusive C (st.enter C t c)) :
    Serial C s₀ (st.enter C t c) := by
  obtain ⟨s, h⟩ := h
  -- nobody is writing: that one would exclude the thread that has entered
  have quiet : ∀ u c' l', st.inside u = some (c', l') → C.reads l' = true := by
    intro u c' l' hu
    have ne : u ≠ t := by
      rintro rfl
      rw [outside] at hu
      cases hu
    by_contra writes
    have := excl u t c' l' ne (by simpa [Sections.enter, ne] using hu) (by simpa using writes)
    simp [Sections.enter] at this
  have here := h.present quiet
  refine ⟨s, h.replays, fun _ => here, fun u c' l' hu => ?_⟩
  by_cases e : u = t
  · subst e
    obtain ⟨rfl, rfl⟩ : c = c' ∧ C.start c = l' := by simpa [Sections.enter] using hu
    rw [C.rest_start, ← here]
    rfl
  · exact h.pending u c' l' (by simpa [Sections.enter, e] using hu)

omit [DecidableEq ι] in
/-- The step of a thread that shares its section with others leaves the object as it is. -/
theorem Exclusive.shared {s' : σ} {r : ℓ ⊕ ρ} {u : ι} {c' : κ} {l' : ℓ} (excl : Exclusive C st)
    (here : st.inside t = some (c, l)) (next : C.next l st.shared = .ok (s', r)) (ne : u ≠ t)
    (there : st.inside u = some (c', l')) : s' = st.shared := by
  refine C.next_reads (l := l) ?_ next
  by_contra writes
  rw [excl t u c l ne.symm here (by simpa using writes)] at there
  cases there

/-- **A step** inside a section. -/
theorem Serial.more {s' : σ} {l' : ℓ} (h : Serial C s₀ st) (excl : Exclusive C st) (here : st.inside t = some (c, l))
    (next : C.next l st.shared = .ok (s', .inl l')) : Serial C s₀ (st.more t c s' l') := by
  obtain ⟨s, h⟩ := h
  refine ⟨s, h.replays, fun quiet => ?_, fun u c' l'' hu => ?_⟩
  · have reads : C.reads l = true := by
      rw [← C.reads_next next]
      exact quiet t c l' (by simp [Sections.more])
    have same : s' = st.shared := C.next_reads reads next
    show s' = s
    rw [same]
    refine h.present fun u c' l'' hu => ?_
    by_cases e : u = t
    · subst e
      obtain ⟨rfl, rfl⟩ : c = c' ∧ l = l'' := by simpa [here] using hu
      exact reads
    · exact quiet u c' l'' (by simpa [Sections.more, e] using hu)
  · show C.rest l'' s' = _
    by_cases e : u = t
    · subst e
      obtain ⟨rfl, rfl⟩ : c = c' ∧ l' = l'' := by simpa [Sections.more] using hu
      have step := C.rest_next l st.shared
      rw [next, ok_bind] at step
      rw [← h.pending u c l here, step]
      rfl
    · have there : st.inside u = some (c', l'') := by simpa [Sections.more, e] using hu
      rw [excl.shared here next e there]
      exact h.pending u c' l'' there

/-- **A thread leaves**: its call is the next one. -/
theorem Serial.leave {s' : σ} {a : ρ} (h : Serial C s₀ st) (excl : Exclusive C st) (here : st.inside t = some (c, l))
    (next : C.next l st.shared = .ok (s', .inr a)) : Serial C s₀ (st.leave t c s' a) := by
  obtain ⟨s, h⟩ := h
  have call : C.whole c s = .ok (s', a) := by
    rw [← h.pending t c l here, C.rest_next, next]
    rfl
  refine ⟨s', h.replays.concat call, fun _ => rfl, fun u c' l' hu => ?_⟩
  show C.rest l' s' = _
  have ne : u ≠ t := by
    rintro rfl
    simp [Sections.leave] at hu
  have there : st.inside u = some (c', l') := by simpa [Sections.leave, ne] using hu
  have same := excl.shared here next ne there
  -- the others read, so the object is the one they all started with
  have quiet : ∀ v c'' l'', st.inside v = some (c'', l'') → C.reads l'' = true := by
    intro v c'' l'' hv
    by_contra writes
    have alone := excl v u c'' l''
    have alone' := excl v t c'' l''
    by_cases e : v = u
    · rw [alone' (e ▸ ne) hv (by simpa using writes)] at here
      cases here
    · rw [alone e hv (by simpa using writes)] at there
      cases there
  rw [same, h.pending u c' l' there, h.present quiet]

omit [DecidableEq ι] in
/-- A step that faults is one of a call that faults. -/
theorem SerialAt.fault {s : σ} {e : Fault} (h : SerialAt C s₀ st s) (here : st.inside t = some (c, l))
    (next : C.next l st.shared = .error e) : C.whole c s = .error e := by
  rw [← h.pending t c l here, C.rest_next, next]
  rfl

end Sections

end CodeBackup.Conc
