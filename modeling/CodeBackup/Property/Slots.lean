import CodeBackup.Property.Map

/-!
# Slots of a pool

`Slots id p l ent txt`: the values of the nodes in `l` stand in the block of
pool `id`, each in a slot of its own below `pvalue`, and the text of each, with
its terminator, fits its slot. The rules say what the pool code does to them:
a new slot at `pvalue` (`Slots.add`), a shorter text in an old slot
(`Slots.overwrite`). Disjoint slots below `pvalue` cannot add up to more than
`pvalue` (`Slots.sum_le`), so a fresh block has room for all live values.
-/

namespace CodeBackup.Property

open C C.Outcome Rbtree ColorTree

/-- The slots of two values do not overlap. -/
def Apart (e e' : MapEntry) : Prop :=
  e.val.off + e.slot ≤ e'.val.off ∨ e'.val.off + e'.slot ≤ e.val.off

theorem Apart.symm {e e' : MapEntry} (h : Apart e e') : Apart e' e := Or.symm h

/-- The accounting of a pool. -/
structure Mempool.Ok (p : Mempool) : Prop where
  size : p.blockSize = blocksize
  account : (p.pvalue : Int) + p.remainSize = p.blockSize
  remain : 0 ≤ p.remainSize

/-- The pool after `mp_malloc` has handed out `n` bytes. -/
def Mempool.take (p : Mempool) (n : Nat) : Mempool :=
  { p with pvalue := p.pvalue + n, remainSize := p.remainSize - n }

/-- The pool after the text `s` has been written to a new slot of its size. -/
def Mempool.push (p : Mempool) (s : CStr) : Mempool :=
  { p.take (s.strlen + 1) with soblock := writeStr p.soblock p.pvalue s }

@[simp] theorem Mempool.push_pvalue (p : Mempool) (s : CStr) : (p.push s).pvalue = p.pvalue + (s.strlen + 1) := rfl

@[simp] theorem Mempool.push_soblock (p : Mempool) (s : CStr) :
    (p.push s).soblock = writeStr p.soblock p.pvalue s := rfl

@[simp] theorem Mempool.push_remainSize (p : Mempool) (s : CStr) :
    (p.push s).remainSize = p.remainSize - ((s.strlen + 1 : Nat) : Int) := rfl

@[simp] theorem Mempool.push_blockSize (p : Mempool) (s : CStr) : (p.push s).blockSize = p.blockSize := rfl

theorem Mempool.Ok.push {p : Mempool} (h : p.Ok) {s : CStr} (room : ((s.strlen + 1 : Nat) : Int) ≤ p.remainSize) :
    (p.push s).Ok where
  size := h.size
  account := by
    have := h.account
    simp only [Mempool.push_pvalue, Mempool.push_remainSize, Mempool.push_blockSize]
    push_cast
    omega
  remain := by simpa using room

/-- The values of the nodes in `l` stand in slots of pool `id`. -/
structure Slots (id : PoolId) (p : Mempool) (l : List Ptr) (ent : Ptr → MapEntry)
    (txt : Ptr → CStr) : Prop where
  inPool : ∀ q ∈ l, (ent q).val.pool = id
  fits : ∀ q ∈ l, (txt q).strlen + 1 ≤ (ent q).slot
  below : ∀ q ∈ l, (ent q).val.off + (ent q).slot ≤ p.pvalue
  text : ∀ q ∈ l, StrAt p.soblock (ent q).val.off (txt q)
  short : ∀ q ∈ l, (txt q).strlen < propValueMax
  disjoint : l.Pairwise fun q q' => Apart (ent q) (ent q')

/-- The bytes that a list of texts takes, terminators included. -/
def textSize (l : List CStr) : Nat := (l.map fun s => s.strlen + 1).sum

@[simp] theorem textSize_nil : textSize [] = 0 := rfl

@[simp] theorem textSize_cons (s : CStr) (l : List CStr) :
    textSize (s :: l) = s.strlen + 1 + textSize l := by simp [textSize]

@[simp] theorem textSize_append (l l' : List CStr) :
    textSize (l ++ l') = textSize l + textSize l' := by simp [textSize]

/-- Disjoint intervals below a bound have a total length of at most the bound. -/
theorem sum_le_of_disjoint {α : Type} [DecidableEq α] {l : List α} {off size : α → Nat} {n : Nat}
    (nodup : l.Nodup) (below : ∀ a ∈ l, off a + size a ≤ n)
    (disjoint : l.Pairwise fun a b => off a + size a ≤ off b ∨ off b + size b ≤ off a) :
    (l.map size).sum ≤ n := by
  have apart : ∀ a ∈ l, ∀ b ∈ l, a ≠ b → off a + size a ≤ off b ∨ off b + size b ≤ off a := by
    have : Std.Symm fun a b => off a + size a ≤ off b ∨ off b + size b ≤ off a := ⟨fun _ _ => Or.symm⟩
    exact fun a ha b hb hne => disjoint.forall ha hb hne
  have pd : (l.toFinset : Set α).PairwiseDisjoint fun a => Finset.Ico (off a) (off a + size a) := by
    intro a ha b hb hne
    rw [Function.onFun, Finset.disjoint_left]
    intro x hx hx'
    simp only [Finset.mem_Ico] at hx hx'
    rcases apart a (by simpa using ha) b (by simpa using hb) hne with h | h <;> omega
  have sub : l.toFinset.biUnion (fun a => Finset.Ico (off a) (off a + size a)) ⊆ Finset.range n := by
    intro x hx
    obtain ⟨a, ha, hx⟩ := Finset.mem_biUnion.1 hx
    have := below a (List.mem_toFinset.1 ha)
    simp only [Finset.mem_Ico, Finset.mem_range] at hx ⊢
    omega
  have card := Finset.card_le_card sub
  rw [Finset.card_biUnion pd, Finset.card_range] at card
  simpa [List.sum_toFinset _ nodup] using card

namespace Slots

variable {id : PoolId} {p : Mempool} {l : List Ptr} {ent : Ptr → MapEntry} {txt : Ptr → CStr}

theorem nil : Slots id p [] ent txt :=
  ⟨by simp, by simp, by simp, by simp, by simp, .nil⟩

theorem perm {l' : List Ptr} (h : Slots id p l ent txt) (hl : l.Perm l') : Slots id p l' ent txt where
  inPool q hq := h.inPool q (hl.mem_iff.2 hq)
  fits q hq := h.fits q (hl.mem_iff.2 hq)
  below q hq := h.below q (hl.mem_iff.2 hq)
  text q hq := h.text q (hl.mem_iff.2 hq)
  short q hq := h.short q (hl.mem_iff.2 hq)
  disjoint := (hl.pairwise_iff Apart.symm).1 h.disjoint

theorem apart (h : Slots id p l ent txt) {q q' : Ptr} (hq : q ∈ l) (hq' : q' ∈ l) (ne : q ≠ q') :
    Apart (ent q) (ent q') := by
  have : Std.Symm fun q q' => Apart (ent q) (ent q') := ⟨fun _ _ => Apart.symm⟩
  exact h.disjoint.forall hq hq' ne

theorem sublist {l' : List Ptr} (h : Slots id p l ent txt) (hl : l'.Sublist l) :
    Slots id p l' ent txt where
  inPool q hq := h.inPool q (hl.subset hq)
  fits q hq := h.fits q (hl.subset hq)
  below q hq := h.below q (hl.subset hq)
  text q hq := h.text q (hl.subset hq)
  short q hq := h.short q (hl.subset hq)
  disjoint := h.disjoint.sublist hl

/-- Entries and texts of other nodes do not matter. -/
theorem congr {ent' : Ptr → MapEntry} {txt' : Ptr → CStr} (h : Slots id p l ent txt)
    (he : ∀ q ∈ l, ent' q = ent q) (ht : ∀ q ∈ l, txt' q = txt q) : Slots id p l ent' txt' where
  inPool q hq := by rw [he q hq]; exact h.inPool q hq
  fits q hq := by rw [he q hq, ht q hq]; exact h.fits q hq
  below q hq := by rw [he q hq]; exact h.below q hq
  text q hq := by rw [he q hq, ht q hq]; exact h.text q hq
  short q hq := by rw [ht q hq]; exact h.short q hq
  disjoint := h.disjoint.imp_of_mem fun ha hb hab => by rwa [he _ ha, he _ hb]

/-- **A new slot** at `pvalue`, with a text that fills it. -/
theorem add {q : Ptr} {e : MapEntry} {s : CStr} (h : Slots id p l ent txt) (hq : q ∉ l)
    (val : e.val = ⟨id, p.pvalue⟩) (slot : e.slot = s.strlen + 1) (short : s.strlen < propValueMax) :
    Slots id (p.push s) (q :: l) (Function.update ent q e) (Function.update txt q s) := by
  have ne : ∀ q' ∈ l, q' ≠ q := fun q' h' e => hq (e ▸ h')
  have hl : Slots id p l (Function.update ent q e) (Function.update txt q s) :=
    h.congr (fun q' h' => by simp [ne q' h']) (fun q' h' => by simp [ne q' h'])
  constructor
  · intro q' hq'
    rcases List.mem_cons.1 hq' with rfl | h'
    · simp [val]
    · exact hl.inPool q' h'
  · intro q' hq'
    rcases List.mem_cons.1 hq' with rfl | h'
    · simp [slot]
    · exact hl.fits q' h'
  · intro q' hq'
    rcases List.mem_cons.1 hq' with rfl | h'
    · simp [val, slot]
    · exact (hl.below q' h').trans (Nat.le_add_right _ _)
  · intro q' hq'
    rcases List.mem_cons.1 hq' with rfl | h'
    · simpa [val] using writeStr_at p.soblock p.pvalue s
    · refine (hl.text q' h').frame (hl.fits q' h') fun i _ hi => writeStr_out (.inl ?_)
      have := hl.below q' h'
      omega
  · intro q' hq'
    rcases List.mem_cons.1 hq' with rfl | h'
    · simpa using short
    · exact hl.short q' h'
  · refine List.pairwise_cons.2 ⟨fun q' h' => .inr ?_, hl.disjoint⟩
    simpa [val] using hl.below q' h'

/-- **A text that is not longer** in a slot that is already there. -/
theorem overwrite {q : Ptr} {s : CStr} (h : Slots id p l ent txt) (hq : q ∈ l)
    (le : s.strlen ≤ (txt q).strlen) :
    Slots id { p with soblock := writeStr p.soblock (ent q).val.off s } l ent
      (Function.update txt q s) := by
  have fits := h.fits q hq
  constructor
  · exact h.inPool
  · intro q' h'
    by_cases e : q' = q
    · subst e; simp; omega
    · simpa [e] using h.fits q' h'
  · exact h.below
  · intro q' h'
    by_cases e : q' = q
    · subst e; simpa using writeStr_at _ _ s
    · have apart := h.apart h' hq e
      rw [Function.update_of_ne e]
      refine (h.text q' h').frame (h.fits q' h') fun i _ hi => writeStr_out ?_
      rcases apart with a | a
      · exact .inl (by omega)
      · exact .inr (by omega)
  · intro q' h'
    by_cases e : q' = q
    · subst e; simpa using Nat.lt_of_le_of_lt le (h.short q' h')
    · simpa [e] using h.short q' h'
  · exact h.disjoint

/-- **Live values fit below `pvalue`.** -/
theorem sum_le (h : Slots id p l ent txt) (nodup : l.Nodup) :
    textSize (l.map txt) ≤ p.pvalue := by
  apply le_trans ?_ (sum_le_of_disjoint nodup h.below h.disjoint)
  rw [textSize, List.map_map]
  exact List.sum_le_sum h.fits

/-- A value of the pool reads as its text. -/
theorem load {m : Mem} (h : Slots id p l ent txt) (ok : p.Ok) (live : m.pools id = some p)
    {q : Ptr} (hq : q ∈ l) : m.loadStr (ent q).val = .ok (txt q) := by
  have hpool := h.inPool q hq
  have hfits := h.fits q hq
  have hbelow := h.below q hq
  have := ok.account
  have := ok.remain
  simp only [Mem.loadStr, Mem.poolAt, hpool, live, ok_bind]
  exact (h.text q hq).read (by omega)

end Slots

end CodeBackup.Property
