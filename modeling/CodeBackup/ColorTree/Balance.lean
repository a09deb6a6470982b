import CodeBackup.ColorTree.Shape

/-!
# Red-black balance

`Shape.Balanced t n` says that no red node of `t` has a red child and that every
way down passes `n` black nodes; `Path.Balanced k n` that a subtree of black
height `n` is missing at the end of `k`. A tree is balanced exactly if its parts
are (`plug_balanced`). The insertion repair gives a balanced tree
(`rebalance_balanced`). A removal leaves a subtree that is short by one black
node (`Shape.Short`); the lemmas on `fill` say how a turn of its repair mends
it, or hands it up.
-/

namespace CodeBackup.ColorTree

variable {α : Type}

namespace Shape

/-- No red node has a red child, and each way down passes `n` black nodes. -/
inductive Balanced : Shape α → Nat → Prop where
  | nil : Balanced .nil 0
  | red {l r : Shape α} {a : α} {n : Nat} : l.isRed = false → r.isRed = false → Balanced l n → Balanced r n →
      Balanced (.node .red l a r) n
  | black {l r : Shape α} {a : α} {n : Nat} : Balanced l n → Balanced r n → Balanced (.node .black l a r) (n + 1)

/-- A red-black tree. -/
structure RedBlack (t : Shape α) : Prop where
  black : t.BlackRoot
  balanced : ∃ n, t.Balanced n

theorem redBlack_nil : (nil : Shape α).RedBlack := ⟨trivial, 0, .nil⟩

theorem balanced_red {l r : Shape α} {a : α} {n : Nat} : (node .red l a r).Balanced n ↔
    l.isRed = false ∧ r.isRed = false ∧ l.Balanced n ∧ r.Balanced n := by
  constructor
  · intro h
    cases h with
    | red hl hr bl br => exact ⟨hl, hr, bl, br⟩
  · rintro ⟨hl, hr, bl, br⟩
    exact .red hl hr bl br

theorem balanced_black {l r : Shape α} {a : α} {n : Nat} : (node .black l a r).Balanced n ↔
    ∃ m, n = m + 1 ∧ l.Balanced m ∧ r.Balanced m := by
  constructor
  · intro h
    cases h with
    | black bl br => exact ⟨_, rfl, bl, br⟩
  · rintro ⟨m, rfl, bl, br⟩
    exact .black bl br

theorem balanced_nil {n : Nat} : (nil : Shape α).Balanced n ↔ n = 0 := by
  constructor
  · intro h
    cases h
    rfl
  · rintro rfl
    exact .nil

/-- Without a black node and without a red root there is no node. -/
theorem Balanced.eq_nil {t : Shape α} (h : t.Balanced 0) (root : t.isRed = false) : t = .nil := by
  cases h with
  | nil => rfl
  | red => cases root

/-- The black heights of a tree are the same. -/
theorem Balanced.height {t : Shape α} {n m : Nat} (h : t.Balanced n) (h' : t.Balanced m) : m = n := by
  induction h generalizing m with
  | nil => exact balanced_nil.1 h'
  | red _ _ _ _ ih => exact ih (balanced_red.1 h').2.2.1
  | black _ _ ih =>
    obtain ⟨m, rfl, hl, -⟩ := balanced_black.1 h'
    rw [ih hl]

theorem isRed_blacken (t : Shape α) : t.blacken.isRed = false := by
  cases t <;> rfl

/-- A black root over what is not red adds to the height, and changes nothing else. -/
theorem Balanced.blacken {t : Shape α} {n : Nat} (h : t.Balanced n) :
    t.blacken.Balanced (if t.isRed then n + 1 else n) := by
  cases h with
  | nil => exact .nil
  | red _ _ hl hr => exact .black hl hr
  | black hl hr => exact .black hl hr

theorem blackRoot_iff {t : Shape α} : t.BlackRoot ↔ t.isRed = false := by
  cases t with
  | nil => simp [BlackRoot, isRed]
  | node c l a r => cases c <;> simp [BlackRoot, isRed]

/-- The subtree lacks one black node, which a red root can become. -/
def Short (t : Shape α) (n : Nat) : Prop := if t.isRed then t.blacken.Balanced (n + 1) else t.Balanced n

theorem Balanced.short {t : Shape α} {n : Nat} (h : t.Balanced n) : t.Short n := by
  unfold Short
  split
  · next red => simpa [red] using h.blacken
  · exact h

theorem Short.of_red {t : Shape α} {n : Nat} (h : t.Short n) (red : t.isRed) : t.blacken.Balanced (n + 1) := by
  rwa [Short, if_pos red] at h

theorem Short.of_black {t : Shape α} {n : Nat} (h : t.Short n) (black : t.isRed = false) : t.Balanced n := by
  rwa [Short, if_neg (by simp [black])] at h

end Shape

/-! ## A node and its two sides -/

namespace Frame

variable {s : Side} {a : α} {t sib : Shape α} {n : Nat}

@[simp] theorem isRed_fill_red : ((Frame.mk s .red a sib).fill t).isRed = true := by
  cases s <;> rfl

@[simp] theorem isRed_fill_black : ((Frame.mk s .black a sib).fill t).isRed = false := by
  cases s <;> rfl

@[simp] theorem blacken_fill (c : Color) : ((Frame.mk s c a sib).fill t).blacken = (Frame.mk s .black a sib).fill t := by
  cases s <;> rfl

theorem balanced_red : ((Frame.mk s .red a sib).fill t).Balanced n ↔
    t.isRed = false ∧ sib.isRed = false ∧ t.Balanced n ∧ sib.Balanced n := by
  cases s
  · exact Shape.balanced_red
  · rw [fill_right, Shape.balanced_red]
    tauto

theorem balanced_black : ((Frame.mk s .black a sib).fill t).Balanced n ↔
    ∃ m, n = m + 1 ∧ t.Balanced m ∧ sib.Balanced m := by
  cases s
  · exact Shape.balanced_black
  · rw [fill_right, Shape.balanced_black]
    simp only [and_comm]

end Frame

/-- A subtree with a root, from either side. -/
theorem Shape.exists_fill {t : Shape α} (h : t ≠ .nil) (s : Side) :
    ∃ c a sib u, t = (Frame.mk s c a sib).fill u := by
  cases t with
  | nil => exact absurd rfl h
  | node c l a r => exact ⟨c, a, _, _, Shape.eq_fill_child c l r a s⟩

/-- A red subtree, from either side. -/
theorem Shape.exists_fill_red {t : Shape α} (h : t.isRed) (s : Side) :
    ∃ a sib u, t = (Frame.mk s .red a sib).fill u := by
  obtain ⟨c, a, sib, u, rfl⟩ := Shape.exists_fill (t := t) (fun e => by simp [e, isRed] at h) s
  cases c with
  | red => exact ⟨a, sib, u, rfl⟩
  | black => simp at h

/-! ## Paths -/

namespace Path

/-- The innermost ancestor is red. -/
def redParent : Path α → Bool
  | [] => false
  | f :: _ => f.color = .red

/-- The ancestors are balanced, if a subtree of black height `n` stands at the end of the path. -/
def Balanced : Path α → Nat → Prop
  | [], _ => True
  | f :: k, n => f.sibling.Balanced n ∧
      match f.color with
      | .red => f.sibling.isRed = false ∧ redParent k = false ∧ Balanced k n
      | .black => Balanced k (n + 1)

end Path

/-- Another sibling with a black root. -/
theorem Path.Balanced.sibling {s : Side} {c : Color} {a : α} {sib sib' : Shape α} {k : Path α} {n : Nat}
    (h : Path.Balanced (⟨s, c, a, sib⟩ :: k) n) (hs : sib'.Balanced n) (black : sib'.isRed = false) :
    Path.Balanced (⟨s, c, a, sib'⟩ :: k) n := by
  cases c with
  | red => exact ⟨hs, black, h.2.2⟩
  | black => exact ⟨hs, h.2⟩

/-- **A balanced tree** is a balanced subtree at the end of a balanced path, not red under red. -/
theorem plug_balanced {k : Path α} {t : Shape α} : (∃ n, (plug k t).Balanced n) ↔
    ∃ n, t.Balanced n ∧ Path.Balanced k n ∧ (t.isRed → Path.redParent k = false) := by
  induction k generalizing t with
  | nil => simp [Path.Balanced, Path.redParent]
  | cons f k ih =>
    obtain ⟨s, c, a, sib⟩ := f
    rw [plug_cons, ih]
    cases c with
    | red =>
      simp only [Frame.balanced_red, Frame.isRed_fill_red, Path.Balanced, Path.redParent, forall_const,
        decide_true, Bool.true_eq_false, imp_false, Bool.not_eq_true]
      constructor
      · rintro ⟨n, ⟨ht, hs, bt, bs⟩, bk, root⟩
        exact ⟨n, bt, ⟨bs, hs, root, bk⟩, ht⟩
      · rintro ⟨n, bt, ⟨bs, hs, root, bk⟩, ht⟩
        exact ⟨n, ⟨ht, hs, bt, bs⟩, bk, root⟩
    | black =>
      simp only [Frame.balanced_black, Frame.isRed_fill_black, Path.Balanced, Path.redParent, reduceCtorEq,
        decide_false, Bool.false_eq_true, false_imp_iff, implies_true, and_true]
      constructor
      · rintro ⟨n, ⟨m, rfl, bt, bs⟩, bk⟩
        exact ⟨m, bt, bs, bk⟩
      · rintro ⟨m, bt, bs, bk⟩
        exact ⟨m + 1, ⟨m, rfl, bt, bs⟩, bk⟩

/-- The root of a tree with a black root at the end of the path, if it is the whole path, and of its outermost
ancestor else. -/
theorem plug_redBlack {k : Path α} {t : Shape α} {n : Nat} (root : k.BlackRoot) (black : t.isRed = false)
    (ht : t.Balanced n) (hk : Path.Balanced k n) : (plug k t).RedBlack := by
  constructor
  · by_cases e : k = []
    · subst e
      exact Shape.blackRoot_iff.2 black
    · exact (plug_blackRoot e).2 root
  · exact plug_balanced.2 ⟨n, ht, hk, by simp [black]⟩

/-! ## The insertion repair -/

/-- A red subtree that is rotated up under a black sibling of its parent. -/
theorem rotateUp_balanced {f g : Frame α} {t : Shape α} {n : Nat} (ht : t.Balanced n) (red : t.isRed)
    (fred : f.color = .red) (hf : f.sibling.Balanced n) (fsib : f.sibling.isRed = false) (hg : g.sibling.Balanced n)
    (gsib : g.sibling.isRed = false) : (rotateUp f g t).Balanced (n + 1) ∧ (rotateUp f g t).isRed = false := by
  obtain ⟨fs, fc, x, fsib'⟩ := f
  obtain ⟨s, gc, y, gsib'⟩ := g
  simp only at fred hf fsib hg gsib
  subst fred
  by_cases side : fs = s
  · subst side
    simp only [rotateUp, if_true]
    refine ⟨Frame.balanced_black.2 ⟨n, rfl, ht, Frame.balanced_red.2 ⟨fsib, gsib, hf, hg⟩⟩, Frame.isRed_fill_black⟩
  · cases ht with
    | nil => cases red
    | black => cases red
    | @red l r p _ hl hr bl br =>
      simp only [rotateUp, if_neg side]
      refine ⟨Frame.balanced_black.2 ⟨n, rfl, Frame.balanced_red.2 ⟨fsib, ?_, hf, ?_⟩,
        Frame.balanced_red.2 ⟨?_, gsib, ?_, hg⟩⟩, Frame.isRed_fill_black⟩
      all_goals cases s <;> assumption

/-- **The insertion repair** of a red subtree gives a balanced tree. -/
theorem rebalance_balanced {k : Path α} {t : Shape α} {n : Nat} (ht : t.Balanced n) (red : t.isRed)
    (root : k.BlackRoot) (hk : Path.Balanced k n) : (rebalance k t).blacken.RedBlack := by
  refine ⟨Shape.blackRoot_blacken _, ?_⟩
  suffices ∃ m, (rebalance k t).Balanced m by
    obtain ⟨m, h⟩ := this
    exact ⟨_, h.blacken⟩
  fun_induction rebalance k t generalizing n with
  | case1 f g k t hf hg ih =>
    obtain ⟨s, c, y, sib⟩ := g
    obtain ⟨fs, fc, x, fsib⟩ := f
    simp only at hf hg
    subst hf
    obtain ⟨bf, -, gblack, bg, hk⟩ := hk
    cases c with
    | red => cases gblack
    | black =>
      have up : sib.blacken.Balanced (n + 1) := by simpa [hg] using bg.blacken
      exact ih (n := n + 1) (Frame.balanced_red.2 ⟨Frame.isRed_fill_black, Shape.isRed_blacken sib,
        Frame.balanced_black.2 ⟨n, rfl, ht, bf⟩, up⟩) Frame.isRed_fill_red root.tail.tail hk
  | case2 f g k t hf hg =>
    obtain ⟨s, c, y, sib⟩ := g
    obtain ⟨fs, fc, x, fsib⟩ := f
    simp only at hf hg
    subst hf
    obtain ⟨bf, black, gblack, bg, hk⟩ := hk
    cases c with
    | red => cases gblack
    | black =>
      obtain ⟨up, upBlack⟩ := rotateUp_balanced (f := ⟨fs, .red, x, fsib⟩) (g := ⟨s, .black, y, sib⟩) ht red rfl bf
        black bg (by simpa using hg)
      exact plug_balanced.2 ⟨n + 1, up, hk, by simp [upBlack]⟩
  | case3 f g k t hf => exact plug_balanced.2 ⟨n, ht, hk, fun _ => by simp [Path.redParent, hf]⟩
  | case4 k t h =>
    refine plug_balanced.2 ⟨n, ht, hk, fun _ => ?_⟩
    rcases k with _ | ⟨f, _ | ⟨g, k⟩⟩
    · rfl
    · simp [Path.redParent, show f.color = .black from root]
    · exact absurd rfl (h f g k)

/-! ## The removal repair -/

section

variable {s : Side} {p o : α} {inner outer t : Shape α} {n : Nat}

/-- A black sibling with black children becomes red: its parent is short instead. -/
theorem short_up {c : Color} (ht : t.Short n) (black : t.isRed = false)
    (hs : ((Frame.mk s .black o outer).fill inner).Balanced (n + 1)) (hi : inner.isRed = false)
    (ho : outer.isRed = false) :
    ((Frame.mk s c p ((Frame.mk s .red o outer).fill inner)).fill t).Short (if c = .red then n else n + 1) := by
  obtain ⟨m, e, bi, bo⟩ := Frame.balanced_black.1 hs
  obtain rfl : n = m := Nat.succ.inj e
  have sib : ((Frame.mk s .red o outer).fill inner).Balanced n := Frame.balanced_red.2 ⟨hi, ho, bi, bo⟩
  have whole : ((Frame.mk s .black p ((Frame.mk s .red o outer).fill inner)).fill t).Balanced (n + 1) :=
    Frame.balanced_black.2 ⟨n, rfl, ht.of_black black, sib⟩
  cases c with
  | red => simpa [Shape.Short] using whole
  | black => exact whole.short

/-- A black sibling with a red outer child: it takes the place and the colour of the parent. -/
theorem mend_outer {c : Color} (ht : t.Short n) (black : t.isRed = false)
    (hs : ((Frame.mk s .black o outer).fill inner).Balanced (n + 1)) (ho : outer.isRed) {k : Path α}
    (hk : Path.Balanced (⟨s, c, p, (Frame.mk s .black o outer).fill inner⟩ :: k) (n + 1)) :
    ∃ m, (plug k ((Frame.mk s c o outer.blacken).fill ((Frame.mk s .black p inner).fill t))).Balanced m := by
  obtain ⟨m, e, bi, bo⟩ := Frame.balanced_black.1 hs
  obtain rfl : n = m := Nat.succ.inj e
  have down : ((Frame.mk s .black p inner).fill t).Balanced (n + 1) :=
    Frame.balanced_black.2 ⟨n, rfl, ht.of_black black, bi⟩
  have side : outer.blacken.Balanced (n + 1) := by simpa [ho] using bo.blacken
  apply plug_balanced.2
  cases c with
  | red =>
    obtain ⟨-, -, parent, rest⟩ := hk
    exact ⟨n + 1, Frame.balanced_red.2 ⟨Frame.isRed_fill_black, Shape.isRed_blacken _, down, side⟩, rest,
      fun _ => parent⟩
  | black =>
    obtain ⟨-, rest⟩ := hk
    exact ⟨n + 2, Frame.balanced_black.2 ⟨n + 1, rfl, down, side⟩, rest, by simp⟩

/-- A black sibling with a red inner child only: the two are rotated, and the outer child is red. -/
theorem turn_inner {i : α} {near far : Shape α}
    (hs : ((Frame.mk s .black o outer).fill ((Frame.mk s .red i far).fill near)).Balanced (n + 1))
    (ho : outer.isRed = false) :
    ((Frame.mk s .black i ((Frame.mk s .red o outer).fill far)).fill near).Balanced (n + 1) := by
  obtain ⟨m, e, bi, bo⟩ := Frame.balanced_black.1 hs
  obtain ⟨-, hfar, bnear, bfar⟩ := Frame.balanced_red.1 bi
  exact Frame.balanced_black.2 ⟨m, e, bnear, Frame.balanced_red.2 ⟨hfar, ho, bfar, bo⟩⟩

/-- A red sibling is rotated up: then the sibling is black, and the parent red. -/
theorem turn_red {c : Color} {k : Path α}
    (hk : Path.Balanced (⟨s, c, p, (Frame.mk s .red o outer).fill inner⟩ :: k) (n + 1)) :
    inner.isRed = false ∧ Path.Balanced (⟨s, .red, p, inner⟩ :: ⟨s, .black, o, outer⟩ :: k) (n + 1) := by
  obtain ⟨hs, rest⟩ := hk
  obtain ⟨hi, ho, bi, bo⟩ := Frame.balanced_red.1 hs
  cases c with
  | red => simp at rest
  | black => exact ⟨hi, bi, hi, rfl, bo, rest⟩

end

/-- **The removal repair** of a short subtree at the end of a path, turn by turn: the whole tree that it leaves. -/
inductive Repaired : Path α → Shape α → Shape α → Prop where
  /-- A red root becomes black. -/
  | red {k : Path α} {t : Shape α} : t.isRed → Repaired k t (plug k t.blacken)
  /-- The whole tree is short. -/
  | root {t : Shape α} : Repaired [] t t.blacken
  /-- A black sibling becomes red, and the parent is short. -/
  | up {s : Side} {c : Color} {p o : α} {inner outer t t' : Shape α} {k : Path α} :
      Repaired k ((Frame.mk s c p ((Frame.mk s .red o outer).fill inner)).fill t) t' →
      Repaired (⟨s, c, p, (Frame.mk s .black o outer).fill inner⟩ :: k) t t'
  /-- A black sibling comes up over the parent. -/
  | outer {s : Side} {c : Color} {p o : α} {inner outer t : Shape α} {k : Path α} :
      Repaired (⟨s, c, p, (Frame.mk s .black o outer).fill inner⟩ :: k) t
        (plug k ((Frame.mk s c o outer.blacken).fill ((Frame.mk s .black p inner).fill t))).blacken
  /-- The red inner child of a black sibling comes up over both. -/
  | inner {s : Side} {c : Color} {p o i : α} {near far outer t : Shape α} {k : Path α} :
      Repaired (⟨s, c, p, (Frame.mk s .black o outer).fill ((Frame.mk s .red i far).fill near)⟩ :: k) t
        (plug k ((Frame.mk s c i ((Frame.mk s .black o outer).fill far)).fill
          ((Frame.mk s .black p near).fill t))).blacken
  /-- A red sibling comes up first. -/
  | turn {s : Side} {c : Color} {p o : α} {inner outer t t' : Shape α} {k : Path α} :
      Repaired (⟨s, .red, p, inner⟩ :: ⟨s, .black, o, outer⟩ :: k) t t' →
      Repaired (⟨s, c, p, (Frame.mk s .red o outer).fill inner⟩ :: k) t t'

end CodeBackup.ColorTree
