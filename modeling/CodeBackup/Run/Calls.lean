import CodeBackup.C.Outcome

/-!
# Runs of calls

A component is a state and a step for each call. `run` makes the calls one
after the other; `Meets cond` says that every call of a run is made in a state
that meets its condition. An invariant that one step keeps under its condition
holds after every run (`run_invariant`), and a step that also returns makes
every run return (`run_total`).
-/

namespace CodeBackup.Run

open C C.Outcome

variable {ι σ : Type} (step : ι → σ → Outcome σ)

/-- The calls of a list, in order. -/
def run : List ι → σ → Outcome σ
  | [], s => .ok s
  | c :: cs, s => do run cs (← step c s)

/-- Every call of the run meets its condition in the state it is made in. -/
def Meets (cond : ι → σ → Prop) : List ι → σ → Prop
  | [], _ => True
  | c :: cs, s => cond c s ∧ ∀ s', step c s = .ok s' → Meets cond cs s'

variable {step} {cond : ι → σ → Prop} {I : σ → Prop}

theorem run_append (cs cs' : List ι) (s : σ) :
    run step (cs ++ cs') s = run step cs s >>= run step cs' := by
  induction cs generalizing s with
  | nil => rfl
  | cons c cs ih =>
    cases h : step c s with
    | ok s' => simpa [run, h] using ih s'
    | error e => simp [run, h]

theorem meets_of_mem : ∀ {cs : List ι}, (∀ c ∈ cs, ∀ s, cond c s) → ∀ s : σ, Meets step cond cs s
  | [], _, _ => trivial
  | c :: cs, h, s => ⟨h c (by simp) s, fun s' _ => meets_of_mem (fun d hd => h d (by simp [hd])) s'⟩

theorem meets_of_forall (h : ∀ c s, cond c s) (cs : List ι) (s : σ) : Meets step cond cs s :=
  meets_of_mem (fun c _ => h c) s

instance decidableMeets [∀ c s, Decidable (cond c s)] : ∀ (cs : List ι) (s : σ), Decidable (Meets step cond cs s)
  | [], _ => isTrue trivial
  | c :: cs, s =>
    match h : step c s with
    | .ok s' =>
      have := decidableMeets cs s'
      decidable_of_iff (cond c s ∧ Meets step cond cs s')
        ⟨fun m => ⟨m.1, fun _ h' => unique h h' ▸ m.2⟩, fun m => ⟨m.1, m.2 s' h⟩⟩
    | .error _ =>
      decidable_of_iff (cond c s) ⟨fun m => ⟨m, fun _ h' => nomatch h.symm.trans h'⟩, fun m => m.1⟩

/-- **The invariant rule** for runs that return. -/
theorem run_invariant (keep : ∀ c s s', I s → cond c s → step c s = .ok s' → I s') :
    ∀ {cs : List ι} {s s' : σ}, I s → Meets step cond cs s → run step cs s = .ok s' → I s'
  | [], s, s', h, _, hrun => by
    cases hrun
    exact h
  | c :: cs, s, s', h, hc, hrun => by
    obtain ⟨s₁, h₁, rest⟩ := bind_eq_ok.1 hrun
    exact run_invariant keep (keep c s s₁ h hc.1 h₁) (hc.2 s₁ h₁) rest

/-- **The invariant rule** for steps that return. -/
theorem run_total (keep : ∀ c s, I s → cond c s → ∃ s', step c s = .ok s' ∧ I s') :
    ∀ {cs : List ι} {s : σ}, I s → Meets step cond cs s → ∃ s', run step cs s = .ok s' ∧ I s'
  | [], s, h, _ => ⟨s, rfl, h⟩
  | c :: cs, s, h, hc => by
    obtain ⟨s₁, ret₁, h₁⟩ := keep c s h hc.1
    obtain ⟨s', rest, h'⟩ := run_total keep h₁ (hc.2 s₁ ret₁)
    exact ⟨s', by rw [run, ret₁, ok_bind, rest], h'⟩

/-- **The invariant rule** for steps that return or stop: a run returns, or its calls before one that stops do. -/
theorem run_or_stops {stops : ι → σ → Prop}
    (keep : ∀ c s, I s → cond c s → (∃ s', step c s = .ok s' ∧ I s') ∨ stops c s) :
    ∀ {cs : List ι} {s : σ}, I s → Meets step cond cs s → (∃ s', run step cs s = .ok s' ∧ I s') ∨
      ∃ before c after s', cs = before ++ c :: after ∧ run step before s = .ok s' ∧ I s' ∧ stops c s'
  | [], s, h, _ => .inl ⟨s, rfl, h⟩
  | c :: cs, s, h, hc => by
    rcases keep c s h hc.1 with ⟨s₁, ret₁, h₁⟩ | stop
    · rcases run_or_stops keep h₁ (hc.2 s₁ ret₁) with ⟨s', rest, h'⟩ | ⟨before, c', after, s', rfl, rest, h', stop⟩
      · exact .inl ⟨s', by rw [run, ret₁, ok_bind, rest], h'⟩
      · exact .inr ⟨c :: before, c', after, s', rfl, by rw [run, ret₁, ok_bind, rest], h', stop⟩
    · exact .inr ⟨[], c, cs, s, rfl, rfl, h, stop⟩

/-- **The simulation rule**: where each call does what the specification does, runs do. -/
theorem run_simulates {τ : Type} {spec : ι → τ → τ} {R : σ → τ → Prop} {P : ι → Prop}
    (sim : ∀ {c s s' a}, P c → R s a → step c s = .ok s' → R s' (spec c a)) :
    ∀ (cs : List ι) {s s' : σ} {a : τ}, (∀ c ∈ cs, P c) → R s a → run step cs s = .ok s' →
      R s' (cs.foldl (fun a c => spec c a) a)
  | [], s, s', a, _, h, hrun => by
    cases hrun
    exact h
  | c :: cs, s, s', a, all, h, hrun => by
    obtain ⟨s₁, h₁, rest⟩ := bind_eq_ok.1 hrun
    have later : ∀ d ∈ cs, P d := fun d hd => all d (List.mem_cons_of_mem _ hd)
    exact run_simulates sim cs later (sim (all c List.mem_cons_self) h h₁) rest

end CodeBackup.Run
