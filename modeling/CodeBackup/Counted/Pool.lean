import Mathlib

/-!
# Chains of counted blocks

A pool has blocks at addresses, each with a link to the next block, contents and
a count of the references to it. `s.At p q` says that the blocks of `q` hang
together from `p` on, all of them alive. A reference is added by `retain` and
dropped by `release`, which frees a block without references and drops its
reference to the next one; `append` hangs a chain behind another one, which then
has a reference to it.
-/

namespace CodeBackup.Counted

/-- Blocks, and the list of those that were freed. -/
structure Pool (ι β : Type) where
  next : ι → Option ι
  data : ι → β
  count : ι → Nat
  freed : List ι

/-- The addresses of a chain. -/
abbrev addrs {ι β : Type} (q : List (ι × β)) : List ι := q.map Prod.fst

/-- The pointer to a chain. -/
def first {ι β : Type} : List (ι × β) → Option ι
  | [] => none
  | (a, _) :: _ => some a

namespace Pool

variable {ι β : Type}

/-- The blocks of `q` are alive and linked in this order, from the pointer `p` to the end. -/
def At (s : Pool ι β) : Option ι → List (ι × β) → Prop
  | p, [] => p = none
  | p, (a, d) :: q => p = some a ∧ 0 < s.count a ∧ s.data a = d ∧ s.At (s.next a) q

/-- The pools have the same blocks; what a dead block contains is left open. -/
structure Same (s s' : Pool ι β) : Prop where
  count : s'.count = s.count
  freed : s'.freed = s.freed
  next : ∀ a, 0 < s.count a → s'.next a = s.next a
  data : ∀ a, 0 < s.count a → s'.data a = s.data a

section

variable {s s' : Pool ι β} {p : Option ι} {q q' : List (ι × β)}

theorem At.first_eq (h : s.At p q) : p = first q := by
  cases q with
  | nil => exact h
  | cons x q => exact h.1

theorem At.unique (h : s.At p q) (h' : s.At p q') : q = q' := by
  induction q generalizing p q' with
  | nil =>
    cases q' with
    | nil => rfl
    | cons x q' => cases h.symm.trans h'.1
  | cons x q ih =>
    cases q' with
    | nil => cases h'.symm.trans h.1
    | cons y q' =>
      obtain ⟨hx, -, dx, rest⟩ := h
      obtain ⟨hy, -, dy, rest'⟩ := h'
      have same : x.1 = y.1 := Option.some.inj (hx.symm.trans hy)
      rw [← same] at dy rest'
      rw [ih rest rest', Prod.ext same (dx.symm.trans dy)]

theorem At.drop (h : s.At p q) {x : ι × β} (hx : x ∈ q) :
    ∃ before after, q = before ++ x :: after ∧ s.At (some x.1) (x :: after) := by
  induction q generalizing p with
  | nil => cases hx
  | cons y q ih =>
    obtain ⟨hy, live, dy, rest⟩ := h
    rcases List.mem_cons.1 hx with rfl | hx
    · exact ⟨[], q, rfl, rfl, live, dy, rest⟩
    · obtain ⟨before, after, rfl, h⟩ := ih rest hx
      exact ⟨y :: before, after, rfl, h⟩

theorem At.live (h : s.At p q) {a : ι} (ha : a ∈ addrs q) : 0 < s.count a := by
  obtain ⟨x, hx, rfl⟩ := List.mem_map.1 ha
  obtain ⟨_, _, -, from_⟩ := h.drop hx
  exact from_.2.1

/-- A chain that ends does not come back to a block. -/
theorem At.nodup (h : s.At p q) : (addrs q).Nodup := by
  induction q generalizing p with
  | nil => exact List.nodup_nil
  | cons x q ih =>
    obtain ⟨hx, live, dx, rest⟩ := h
    refine List.nodup_cons.2 ⟨fun again => ?_, ih rest⟩
    obtain ⟨y, hy, same⟩ := List.mem_map.1 again
    obtain ⟨before, after, rfl, back⟩ := rest.drop hy
    -- both chains begin at the block that comes back, and one is longer
    have here : s.At (some x.1) (x :: (before ++ y :: after)) := ⟨rfl, live, dx, rest⟩
    rw [same] at back
    have := congrArg List.length (here.unique back)
    simp only [List.length_cons, List.length_append] at this
    omega

/-- What a chain needs of the pool. -/
theorem At.congr (h : s.At p q) (live : ∀ a ∈ addrs q, 0 < s'.count a)
    (next : ∀ a ∈ addrs q, s'.next a = s.next a) (data : ∀ a ∈ addrs q, s'.data a = s.data a) :
    s'.At p q := by
  induction q generalizing p with
  | nil => exact h
  | cons x q ih =>
    obtain ⟨hx, -, dx, rest⟩ := h
    have mem : ∀ a ∈ addrs q, a ∈ addrs (x :: q) := fun a ha => List.mem_cons_of_mem _ ha
    have head : x.1 ∈ addrs (x :: q) := List.mem_cons_self ..
    refine ⟨hx, live _ head, (data _ head).trans dx, ?_⟩
    rw [next _ head]
    exact ih rest (fun a ha => live a (mem a ha)) (fun a ha => next a (mem a ha)) fun a ha => data a (mem a ha)

/-- The addresses of a chain of at most `n` blocks. -/
def walk (s : Pool ι β) : Nat → Option ι → List ι
  | n + 1, some a => a :: s.walk n (s.next a)
  | _, _ => []

theorem At.walk {n : Nat} (h : s.At p q) (le : q.length ≤ n) : s.walk n p = addrs q := by
  induction q generalizing n p with
  | nil =>
    cases h
    cases n with
    | zero => rfl
    | succ n => rfl
  | cons x q ih =>
    obtain ⟨rfl, -, -, rest⟩ := h
    cases n with
    | zero => cases le
    | succ n =>
      rw [Pool.walk, ih rest (Nat.le_of_succ_le_succ le)]
      rfl

theorem Same.refl (s : Pool ι β) : s.Same s := ⟨rfl, rfl, fun _ _ => rfl, fun _ _ => rfl⟩

theorem At.same (h : s.At p q) (same : s.Same s') : s'.At p q := by
  refine h.congr (fun a ha => ?_) (fun a ha => same.next a (h.live ha)) fun a ha => same.data a (h.live ha)
  rw [same.count]
  exact h.live ha

end

/-! ## Operations -/

section

variable [DecidableEq ι]

/-- One more reference to the block. -/
def retain (s : Pool ι β) (a : ι) : Pool ι β := { s with count := Function.update s.count a (s.count a + 1) }

/-- One reference less to the first block of the chain. A block that has none left is freed,
and the next one has one reference less. Also the number of freed blocks. -/
def release : List ι → Pool ι β → Pool ι β × Nat
  | [], s => (s, 0)
  | a :: l, s =>
    if s.count a ≤ 1 then
      let r := release l { s with count := Function.update s.count a 0, freed := s.freed ++ [a] }
      (r.1, r.2 + 1)
    else ({ s with count := Function.update s.count a (s.count a - 1) }, 0)

/-- The chain from `b` on behind the one of `l`, with a reference to it. -/
def append (s : Pool ι β) (l : List ι) (b : ι) : Pool ι β :=
  match l.getLast? with
  | some a => retain { s with next := Function.update s.next a (some b) } b
  | none => s

/-- A new chain, with one reference to each block. -/
def hand : List (ι × β) → Pool ι β → Pool ι β
  | [], s => s
  | (a, d) :: q, s =>
    let r := hand q s
    { r with next := Function.update r.next a (first q)
             data := Function.update r.data a d
             count := Function.update r.count a 1 }

/-- The blocks are distinct, and none of them is alive. -/
def Fresh (s : Pool ι β) (q : List (ι × β)) : Prop := (addrs q).Nodup ∧ ∀ a ∈ addrs q, s.count a = 0

variable {s : Pool ι β} {p : Option ι} {a b : ι} {d : β} {q r : List (ι × β)} {l : List ι}

theorem retain_pos (h : 0 < s.count a) : 0 < (s.retain b).count a := by
  simp only [retain, Function.update_apply]
  split
  · exact Nat.succ_pos _
  · exact h

theorem At.retain (h : s.At p q) : (s.retain b).At p q := by
  refine h.congr (fun a ha => ?_) (fun _ _ => rfl) fun _ _ => rfl
  exact retain_pos (h.live ha)

theorem release_shared (more : 1 < s.count a) :
    s.release (a :: l) = ({ s with count := Function.update s.count a (s.count a - 1) }, 0) := by
  rw [release, if_neg (Nat.not_le.2 more)]

/-- A shared block stays. -/
theorem At.shared (h : s.At p ((a, d) :: q)) (more : 1 < s.count a) :
    (s.release (addrs ((a, d) :: q))).1.At p ((a, d) :: q) := by
  rw [show addrs ((a, d) :: q) = a :: addrs q from rfl, release_shared more]
  refine h.congr (fun b hb => ?_) (fun _ _ => rfl) fun _ _ => rfl
  simp only [Function.update_apply]
  split
  · omega
  · exact h.live hb

/-- Only the first block is freed if there is a further reference to the second one. -/
theorem release_last (last : s.count a = 1) (shared : ∀ b ∈ first q, b ≠ a ∧ 1 < s.count b) :
    s.release (addrs ((a, d) :: q)) =
      ({ s with
          count := fun c => if c = a then 0 else if first q = some c then s.count c - 1 else s.count c
          freed := s.freed ++ [a] }, 1) := by
  simp only [addrs, List.map_cons, release, last, le_refl, if_true]
  cases q with
  | nil =>
    simp only [List.map_nil, release, first, reduceCtorEq, if_false, Prod.mk.injEq, Pool.mk.injEq, true_and,
      and_true]
    funext c
    simp [Function.update_apply]
  | cons x q =>
    obtain ⟨ne, more⟩ := shared x.1 rfl
    have count : Function.update s.count a 0 x.1 = s.count x.1 := Function.update_of_ne ne _ _
    rw [List.map_cons, release_shared (by simpa only [count] using more)]
    simp only [first, count, Prod.mk.injEq, Pool.mk.injEq, true_and, and_true, Option.some.injEq]
    funext c
    simp only [Function.update_apply]
    grind

/-- The rest of the chain once its first block is freed. -/
theorem At.last (h : s.At p ((a, d) :: q)) (last : s.count a = 1) (shared : ∀ b ∈ first q, 1 < s.count b) :
    (s.release (addrs ((a, d) :: q))).1.At (s.next a) q ∧
      (s.release (addrs ((a, d) :: q))).1.freed = s.freed ++ [a] ∧ (s.release (addrs ((a, d) :: q))).2 = 1 := by
  have nodup := List.nodup_cons.1 h.nodup
  obtain ⟨-, -, -, rest⟩ := h
  have away : ∀ b ∈ addrs q, b ≠ a := fun b hb same => nodup.1 (same ▸ hb)
  have head : ∀ b ∈ first q, b ≠ a ∧ 1 < s.count b := by
    intro b hb
    refine ⟨away b ?_, shared b hb⟩
    cases q with
    | nil => cases hb
    | cons x q =>
      cases hb
      exact List.mem_cons_self ..
  rw [release_last last head]
  refine ⟨rest.congr (fun b hb => ?_) (fun _ _ => rfl) fun _ _ => rfl, rfl, rfl⟩
  have live := rest.live hb
  simp only [if_neg (away _ hb)]
  split
  · next hfirst =>
    have := shared _ hfirst
    omega
  · exact live

/-- A chain with one reference to each block is freed as a whole. -/
theorem release_all (nodup : l.Nodup) (one : ∀ a ∈ l, s.count a = 1) :
    (s.release l).1.freed = s.freed ++ l := by
  induction l generalizing s with
  | nil => simp [release]
  | cons a l ih =>
    obtain ⟨away, nodup⟩ := List.nodup_cons.1 nodup
    have rest : ∀ b ∈ l, Function.update s.count a 0 b = 1 := by
      intro b hb
      rw [Function.update_of_ne (by rintro rfl; exact away hb)]
      exact one b (List.mem_cons_of_mem _ hb)
    rw [release, if_pos (one a (List.mem_cons_self ..)).le]
    simp only
    rw [ih nodup rest]
    exact List.append_assoc ..

/-- One chain behind another. -/
theorem At.append (h : s.At p q) (hr : s.At (some b) r) (ne : q ≠ []) (disjoint : (addrs q).Disjoint (addrs r)) :
    (s.append (addrs q) b).At p (q ++ r) := by
  obtain ⟨init, z, rfl⟩ : ∃ init z, q = init ++ [z] := ⟨_, _, (List.dropLast_append_getLast ne).symm⟩
  simp only [Pool.append, addrs, List.map_append, List.map_cons, List.map_nil, List.getLast?_append,
    List.getLast?_singleton, Option.some_or]
  apply At.retain
  have behind : At { s with next := Function.update s.next z.1 (some b) } (some b) r := by
    refine hr.congr (fun c hc => ?_) (fun c hc => ?_) fun _ _ => rfl
    · exact hr.live hc
    · apply Function.update_of_ne ?_ _ _
      rintro rfl
      exact disjoint (by simp) hc
  have nodup := h.nodup
  clear ne disjoint hr
  induction init generalizing p with
  | nil =>
    obtain ⟨hz, live, dz, -⟩ := h
    refine ⟨hz, live, dz, ?_⟩
    simpa using behind
  | cons x init ih =>
    obtain ⟨hx, live, dx, rest⟩ := h
    obtain ⟨away, nodup⟩ := List.nodup_cons.1 nodup
    refine ⟨hx, live, dx, ?_⟩
    have ne : x.1 ≠ z.1 := fun same => away (by rw [same]; simp)
    simp only [Function.update_of_ne ne]
    exact ih rest nodup

theorem append_freed : (s.append l b).freed = s.freed := by
  unfold append
  split
  · rfl
  · rfl

theorem hand_of_notMem (h : a ∉ addrs q) :
    (s.hand q).next a = s.next a ∧ (s.hand q).data a = s.data a ∧ (s.hand q).count a = s.count a := by
  induction q with
  | nil => exact ⟨rfl, rfl, rfl⟩
  | cons x q ih =>
    obtain ⟨ne, h⟩ : a ≠ x.1 ∧ a ∉ addrs q := by simpa [addrs] using h
    simp only [hand, Function.update_of_ne ne]
    exact ih h

theorem hand_freed : (s.hand q).freed = s.freed := by
  induction q with
  | nil => rfl
  | cons x q ih => exact ih

theorem hand_count (h : a ∈ addrs q) : (s.hand q).count a = 1 := by
  induction q with
  | nil => cases h
  | cons x q ih =>
    by_cases ne : a = x.1
    · simp only [hand, ne, Function.update_self]
    · simp only [hand, Function.update_of_ne ne]
      exact ih (by simpa [addrs, ne] using h)

/-- The new chain. -/
theorem hand_at (nodup : (addrs q).Nodup) : (s.hand q).At (first q) q := by
  induction q with
  | nil => rfl
  | cons x q ih =>
    obtain ⟨away, nodup⟩ := List.nodup_cons.1 nodup
    refine ⟨rfl, by simp [hand], by simp [hand], ?_⟩
    simp only [hand, Function.update_self]
    have ne : ∀ b ∈ addrs q, b ≠ x.1 := fun b hb same => away (same ▸ hb)
    refine (ih nodup).congr (fun b hb => ?_) (fun b hb => Function.update_of_ne (ne b hb) _ _)
      fun b hb => Function.update_of_ne (ne b hb) _ _
    have one : (hand (x :: q) s).count b = 1 := hand_count (List.mem_cons_of_mem _ hb)
    exact Nat.one_pos.trans_eq one.symm

/-- The chains that were there are kept. -/
theorem At.hand (h : s.At p r) (fresh : s.Fresh q) : (s.hand q).At p r ∧ (addrs r).Disjoint (addrs q) := by
  have away : ∀ b ∈ addrs r, b ∉ addrs q := by
    intro b hb again
    exact (h.live hb).ne' (fresh.2 b again)
  refine ⟨h.congr (fun b hb => ?_) (fun b hb => (hand_of_notMem (away b hb)).1)
    fun b hb => (hand_of_notMem (away b hb)).2.1, away⟩
  rw [(hand_of_notMem (away b hb)).2.2]
  exact h.live hb

end

end Pool

end CodeBackup.Counted
