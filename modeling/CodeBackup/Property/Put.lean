import CodeBackup.Property.Invariant

/-!
# `put` and compaction

`reallocValueMemory_spec`: a compaction moves every value into a fresh block,
in key order, and frees the old one; it never runs out of the fresh block, as
the live values fit below the old `pvalue`. `put_spec`: a `put` of a short
value never faults, keeps the invariant, and either binds its key or, when it
exhausts the pool, changes no binding.
-/

namespace CodeBackup.Property

open C C.Outcome Rbtree ColorTree CStr

/-- The new entries of the ghost record satisfy `PoolLive`. -/
def CallsLive (m m' : Mem) : Prop := ∀ s ∈ m'.calls, s ∈ m.calls ∨ s.PoolLive

theorem CallsLive.refl (m : Mem) : CallsLive m m := fun _ h => .inl h

theorem CallsLive.trans {m m' m'' : Mem} (h : CallsLive m m') (h' : CallsLive m' m'') :
    CallsLive m m'' := fun s hs => (h' s hs).elim (h s) .inr

theorem CallsLive.enter {m m' : Mem} (h : m.PoolLive) (calls : m'.calls = m.toStore :: m.calls) :
    CallsLive m m' := by
  intro s hs
  rw [calls] at hs
  rcases List.mem_cons.1 hs with rfl | hs
  · exact .inr h
  · exact .inl hs

/-! ## Compaction -/

/-- What the copy loop of a compaction into pool `tmp` does not touch. -/
structure Kept (tmp : PoolId) (m m' : Mem) : Prop where
  tree : m'.tree = m.tree
  pool : m'.pool = m.pool
  curPool : m'.curPool = m.curPool
  nextPool : m'.nextPool = m.nextPool
  pools : ∀ i, i ≠ tmp → m'.pools i = m.pools i
  calls : CallsLive m m'

theorem Kept.refl (tmp : PoolId) (m : Mem) : Kept tmp m m :=
  ⟨rfl, rfl, rfl, rfl, fun _ _ => rfl, .refl m⟩

theorem Kept.trans {tmp : PoolId} {m m' m'' : Mem} (h : Kept tmp m m') (h' : Kept tmp m' m'') :
    Kept tmp m m'' where
  tree := h'.tree.trans h.tree
  pool := h'.pool.trans h.pool
  curPool := h'.curPool.trans h.curPool
  nextPool := h'.nextPool.trans h.nextPool
  pools i hi := (h'.pools i hi).trans (h.pools i hi)
  calls := h.calls.trans h'.calls

/-- In the middle of a compaction: the values of `xs` are in the pool `tmp`, one after the
other, those of `ys` still in the pool `id`. -/
structure Moving (m : Mem) (T : Shape Ptr) (ent : Ptr → MapEntry) (txt : Ptr → CStr) (id : PoolId)
    (p : Mempool) (tmp : PoolId) (pt : Mempool) (xs ys : List Ptr) : Prop where
  tree : Rep m.tree T
  order : T.toList = xs ++ ys
  entries : ∀ q ∈ T.toList, m.maps q = some (ent q)
  cur : m.curPool = some id
  live : m.pools id = some p
  ok : p.Ok
  tmpLive : m.pools tmp = some pt
  tmpOk : pt.Ok
  ne : tmp ≠ id
  done : Slots tmp pt xs ent txt
  todo : Slots id p ys ent txt
  used : pt.pvalue = textSize (xs.map txt)
  total : textSize (T.toList.map txt) ≤ blocksize

namespace Moving

variable {m : Mem} {T : Shape Ptr} {ent : Ptr → MapEntry} {txt : Ptr → CStr} {id : PoolId}
  {p : Mempool} {tmp : PoolId} {pt : Mempool} {xs ys : List Ptr} {y : Ptr}

theorem poolLive (h : Moving m T ent txt id p tmp pt xs ys) : m.PoolLive :=
  .of_rep h.tree h.cur h.live fun q hq => by
    have hq' := hq
    rw [h.order] at hq'
    rcases List.mem_append.1 hq' with hx | hy
    · exact ⟨ent q, pt, h.entries q hq, by rw [h.done.inPool q hx, h.tmpLive]⟩
    · exact ⟨ent q, p, h.entries q hq, by rw [h.todo.inPool q hy, h.live]⟩

/-- The fresh block has room for the next value. -/
theorem room (h : Moving m T ent txt id p tmp pt xs (y :: ys)) :
    (((txt y).strlen + 1 : Nat) : Int) ≤ pt.remainSize := by
  have total := h.total
  have := h.tmpOk.account
  have := h.tmpOk.size
  have := h.used
  rw [h.order] at total
  simp only [List.map_append, List.map_cons, textSize_append, textSize_cons] at total
  omega

/-- The entry a moved value gets. -/
def moved (e : MapEntry) (tmp : PoolId) (pt : Mempool) (s : CStr) : MapEntry :=
  { e with val := ⟨tmp, pt.pvalue⟩, slot := s.strlen + 1 }

/-- **One turn of the copy loop.** -/
theorem turn (h : Moving m T ent txt id p tmp pt xs (y :: ys)) (n : Nat) :
    ∃ m' pt', reallocLoop (n + 1) (some y) tmp m = reallocLoop n ys.head? tmp m' ∧
      Moving m' T (Function.update ent y (moved (ent y) tmp pt (txt y))) txt id p tmp pt'
        (xs ++ [y]) ys ∧ Kept tmp m m' := by
  have hy : y ∈ T.toList := by rw [h.order]; simp
  have nodup := h.tree.nodup
  rw [h.order] at nodup
  have yx : y ∉ xs := fun hx => (List.nodup_append.1 nodup).2.2 y hx y (by simp) rfl
  have yys : y ∉ ys := (List.nodup_cons.1 (List.nodup_append.1 nodup).2.1).1
  have short := h.todo.short y (by simp)
  have load := h.todo.load h.ok h.live (q := y) (by simp)
  have room := h.room
  set s := txt y with hs
  set e' := moved (ent y) tmp pt s with he'
  set m₁ := (m.enter.setPool tmp (pt.take (s.strlen + 1))).setEntry y e' with hm₁
  have store : m₁.storeStr ⟨tmp, pt.pvalue⟩ s = .ok (m₁.setPool tmp (pt.push s)) :=
    Mem.storeStr_push h.tmpOk room (by simp [hm₁, Mem.setPool, Mem.setEntry])
  refine ⟨m₁.setPool tmp (pt.push s), pt.push s, ?_, ?_, ?_⟩
  · have next : mapNext y (m₁.setPool tmp (pt.push s)) = .ok ys.head? := h.tree.next_of h.order
    simp only [reallocLoop, Mem.entry_of (h.entries y hy), ok_bind, load,
      if_neg (Nat.not_le.2 short), mpMalloc_of h.tmpLive room, deref_some]
    exact (congrArg (· >>= _) store).trans (by simp [next])
  · have mem_ne : ∀ q ∈ xs ++ ys, q ≠ y := fun q hq e => by
      subst e
      exact (List.mem_append.1 hq).elim yx yys
    exact {
      tree := h.tree
      order := by rw [h.order]; simp
      entries := fun q hq => by
        by_cases e : q = y
        · subst e; simp [hm₁, Mem.setPool, Mem.setEntry]
        · simpa [hm₁, Mem.setPool, Mem.setEntry, Mem.enter, e] using h.entries q hq
      cur := h.cur
      live := by simpa [hm₁, Mem.setPool, Mem.setEntry, Mem.enter, h.ne.symm] using h.live
      ok := h.ok
      tmpLive := by simp [Mem.setPool]
      tmpOk := h.tmpOk.push room
      ne := h.ne
      done := by
        have := h.done.add (e := e') yx rfl rfl short
        rw [hs, Function.update_eq_self] at this
        exact this.perm (List.perm_append_singleton y xs).symm
      todo := (h.todo.sublist (List.sublist_cons_self y ys)).congr
        (fun q hq => by simp [mem_ne q (by simp [hq])]) fun _ _ => rfl
      used := by simp [h.used, ← hs]
      total := h.total }
  · exact {
      tree := rfl
      pool := rfl
      curPool := rfl
      nextPool := rfl
      pools := fun i hi => by simp [hm₁, Mem.setPool, Mem.setEntry, Mem.enter, hi]
      calls := .enter h.poolLive rfl }

/-- **The copy loop** moves every value. -/
theorem loop : ∀ {ys xs : List Ptr} {m : Mem} {ent : Ptr → MapEntry} {pt : Mempool} {n : Nat},
    Moving m T ent txt id p tmp pt xs ys → ys.length < n →
    ∃ m' ent' pt', reallocLoop n ys.head? tmp m = .ok m' ∧
      Moving m' T ent' txt id p tmp pt' T.toList [] ∧ (∀ q, (ent' q).key = (ent q).key) ∧ Kept tmp m m'
  | ys, xs, m, ent, pt, 0, _, hn => by omega
  | [], xs, m, ent, pt, n + 1, h, _ => by
    have e : T.toList = xs := by simpa using h.order
    exact ⟨m, ent, pt, rfl, e ▸ h, fun _ => rfl, .refl tmp m⟩
  | y :: ys, xs, m, ent, pt, n + 1, h, hn => by
    obtain ⟨m₁, pt₁, run₁, h₁, kept₁⟩ := h.turn n
    obtain ⟨m₂, ent₂, pt₂, run₂, h₂, keys, kept₂⟩ := loop h₁ (Nat.lt_of_succ_lt_succ hn)
    refine ⟨m₂, ent₂, pt₂, run₁.trans run₂, h₂, fun q => (keys q).trans ?_, kept₁.trans kept₂⟩
    by_cases e : q = y
    · subst e; simp [moved]
    · simp [e]

/-- The new pool is empty, and every value is still to move. -/
theorem start (h : Inv m T ent txt id p) :
    Moving m.newPool.2 T ent txt id p m.nextPool ⟨blocksize, blocksize, fun _ => 0, 0⟩ [] T.toList where
  tree := h.tree
  order := rfl
  entries := h.entries
  cur := h.cur
  live := by simpa [Mem.newPool, (h.ne_of_fresh le_rfl).symm] using h.live
  ok := h.ok
  tmpLive := by simp [Mem.newPool]
  tmpOk := ⟨rfl, rfl, by decide⟩
  ne := h.ne_of_fresh le_rfl
  done := .nil
  todo := h.slots
  used := rfl
  total := by
    have := h.slots.sum_le h.tree.nodup
    have := h.ok.account
    have := h.ok.remain
    have := h.ok.size
    omega

/-- The old pool is freed, and the new one becomes the current one. -/
theorem finish (h : Moving m T ent txt id p tmp pt T.toList []) (black : T.BlackRoot)
    (sorted : Sorted strcmp (fun q => (ent q).key) T.toList) (fresh : ∀ i, m.nextPool ≤ i → m.pools i = none) :
    ∃ m', mpFreeAll m.curPool m = .ok m' ∧ Inv { m' with curPool := some tmp } T ent txt tmp pt ∧
      m'.pool = m.pool ∧ m'.pools id = none ∧ CallsLive m m' := by
  have live : m.enter.pools id = some p := h.live
  refine ⟨{ m.enter with pools := Function.update m.pools id none }, ?_, ?_, rfl, by simp, .enter h.poolLive rfl⟩
  · rw [h.cur]
    simp only [mpFreeAll, deref_some, ok_bind, Mem.poolAt_of live]
    rfl
  · exact {
      tree := h.tree
      black := black
      entries := h.entries
      sorted := sorted
      cur := rfl
      live := by simpa [Mem.enter, h.ne] using h.tmpLive
      ok := h.tmpOk
      slots := h.done
      freshPools := fun i hi => by
        by_cases hid : i = id
        · simp [hid]
        · simpa [Mem.enter, hid] using fresh i hi }

end Moving

/-- **Compaction.** Every value is copied to a fresh block that holds nothing else, and the
old pool is freed. -/
theorem reallocValueMemory_spec {m : Mem} {T : Shape Ptr} {ent : Ptr → MapEntry} {txt : Ptr → CStr}
    {id : PoolId} {p : Mempool} (h : Inv m T ent txt id p) :
    ∃ m' ent' p', reallocValueMemory m = .ok m' ∧ Inv m' T ent' txt m.nextPool p' ∧
      (∀ q, (ent' q).key = (ent q).key) ∧ p'.pvalue = textSize (T.toList.map txt) ∧
      m'.pool = m.pool ∧ m'.pools id = none ∧ CallsLive m m' := by
  obtain ⟨m₂, ent₂, p₂, run, h₂, keys, kept⟩ :=
    (Moving.start h).loop (n := m.tree.next + 1) (Nat.lt_succ_of_le h.tree.length_le)
  have fresh : ∀ i, m₂.nextPool ≤ i → m₂.pools i = none := fun i hi => by
    have hi' : m.nextPool + 1 ≤ i := by simpa [kept.nextPool, Mem.newPool] using hi
    have ne : i ≠ m.nextPool := Nat.ne_of_gt hi'
    rw [kept.pools i ne]
    simpa [Mem.newPool, ne] using h.freshPools i (Nat.le_of_succ_le hi')
  obtain ⟨m₃, free, h₃, pool, freed, calls⟩ := h₂.finish h.black (by simpa only [Sorted, keys] using h.sorted) fresh
  refine ⟨{ m₃ with curPool := some m.nextPool }, ent₂, p₂, ?_, h₃, keys, h₂.used, ?_, freed, ?_⟩
  · have first : mapFirst m.newPool.2 = .ok T.toList.head? := h.tree.first
    show (do
      let m' ← reallocLoop (m.tree.next + 1) (← mapFirst m.newPool.2) m.nextPool m.newPool.2
      let m' ← mpFreeAll m'.curPool m'
      .ok { m' with curPool := some m.nextPool }) = _
    rw [first, ok_bind, run, ok_bind, free, ok_bind]
  · exact pool.trans kept.pool
  · exact kept.calls.trans calls

/-! ## `put` -/

namespace Inv

variable {m : Mem} {T : Shape Ptr} {ent : Ptr → MapEntry} {txt : Ptr → CStr} {id : PoolId} {p : Mempool}

theorem enter (h : Inv m T ent txt id p) : Inv m.enter T ent txt id p :=
  ⟨h.tree, h.black, h.entries, h.sorted, h.cur, h.live, h.ok, h.slots, h.freshPools⟩

theorem newNode (h : Inv m T ent txt id p) : Inv m.newNode.2 T ent txt id p :=
  ⟨h.tree.grow (Nat.le_succ _), h.black, h.entries, h.sorted, h.cur, h.live, h.ok, h.slots, h.freshPools⟩

theorem good (h : Inv m T ent txt id p) : Good m := ⟨T, ent, txt, id, p, h⟩

/-- The loop of `put` descends as `seek` does, and keeps the pointer to its place. -/
theorem putLoop_spec (h : Inv m T ent txt id p) (key : CStr) :
    ∀ {n : Nat} {k : Path Ptr} {S : Shape Ptr}, plug k S = T → S.toList.length < n →
      putLoop n key (linkOf k) (Path.parent? k) m =
        .ok ((seek strcmp (fun q => (ent q).key) key k S).2.root?,
          linkOf (seek strcmp (fun q => (ent q).key) key k S).1,
          Path.parent? (seek strcmp (fun q => (ent q).key) key k S).1)
  | 0, _, _, _, hn => by omega
  | n + 1, k, .nil, e, _ => by
    have hrep : Rep m.tree (plug k .nil) := e ▸ h.tree
    simp [putLoop, hrep.readLink, seek]
  | n + 1, k, .node c l q r, e, hn => by
    have hrep : Rep m.tree (plug k (.node c l q r)) := e ▸ h.tree
    have hq : q ∈ T.toList := by rw [← e]; exact mem_plug.2 (.inl (by simp))
    simp only [Shape.toList_node, List.length_append, List.length_cons] at hn
    have left := h.putLoop_spec key (n := n) (k := ⟨.left, c, q, r⟩ :: k) (S := l) e (by omega)
    have right := h.putLoop_spec key (n := n) (k := ⟨.right, c, q, l⟩ :: k) (S := r) e (by omega)
    simp only [putLoop, hrep.readLink, ok_bind, Shape.root?_node, Mem.entry_of (h.entries q hq), seek]
    cases hc : strcmp key (ent q).key with
    | lt => simpa [linkOf] using left
    | gt => simpa [linkOf] using right
    | eq => rfl

/-- The bindings after one node got a new text. -/
theorem value_put {m' : Mem} {T' : Shape Ptr} {ent' : Ptr → MapEntry} {txt' : Ptr → CStr} {id' : PoolId}
    {p' : Mempool} {q : Ptr} {key val : CStr} (h : Inv m T ent txt id p) (h' : Inv m' T' ent' txt' id' p')
    (hq : q ∈ T'.toList) (old : q ∈ T.toList → (ent q).key = key) (hkey : (ent' q).key = key)
    (hval : txt' q = val) (other : ∀ q', q' ≠ q → (q' ∈ T'.toList ↔ q' ∈ T.toList) ∧
      (ent' q').key = (ent q').key ∧ txt' q' = txt q') (k : CStr) :
    m'.value k = if k = key then some val else m.value k := by
  by_cases e : k = key
  · subst e
    rw [if_pos rfl, ← hkey, h'.value_mem hq, hval]
  · rw [if_neg e]
    ext v
    rw [h.value_eq_some, h'.value_eq_some]
    constructor
    · rintro ⟨q', hq', rfl, rfl⟩
      obtain ⟨mem, key_, text⟩ := other q' fun e' => e (by rw [e', hkey])
      exact ⟨q', mem.1 hq', key_.symm, text.symm⟩
    · rintro ⟨q', hq', rfl, rfl⟩
      obtain ⟨mem, key_, text⟩ := other q' fun e' => e (by subst e'; exact old hq')
      exact ⟨q', mem.2 hq', key_, text⟩

/-- A `put` that asks for a slot exhausts the pool exactly if the pool has no room for it. -/
theorem exhausts_iff {key val : CStr} (h : Inv m T ent txt id p) (needs : needsSlot key val m = true) :
    exhausts key val m = true ↔ p.remainSize < ((val.strlen + 1 : Nat) : Int) := by
  simp only [exhausts, h.remain, needs, Bool.true_and, decide_eq_true_iff]
  push_cast
  rfl

/-- **A value in a new slot.** The node `d`, whether it is new or not, gets the entry `e`. -/
theorem push {m' : Mem} {T' : Shape Ptr} {d : Ptr} {e : MapEntry} {s : CStr} (h : Inv m T ent txt id p)
    (room : ((s.strlen + 1 : Nat) : Int) ≤ p.remainSize) (short : s.strlen < propValueMax)
    (val : e.val = ⟨id, p.pvalue⟩) (slot : e.slot = s.strlen + 1) (tree : Rep m'.tree T') (black : T'.BlackRoot)
    (nodes : T'.toList.Perm (d :: T.toList.erase d))
    (sorted : Sorted strcmp (fun q => (Function.update ent d e q).key) T'.toList)
    (maps : m'.maps = Function.update m.maps d (some e))
    (pools : m'.pools = Function.update m.pools id (some (p.push s))) (cur : m'.curPool = m.curPool)
    (next : m'.nextPool = m.nextPool) :
    Inv m' T' (Function.update ent d e) (Function.update txt d s) id (p.push s) where
  tree := tree
  black := black
  entries q hq := by
    by_cases hd : q = d
    · simp [maps, hd]
    · have old : q ∈ T.toList.erase d := by simpa [hd] using nodes.mem_iff.1 hq
      simpa [maps, hd] using h.entries q (List.mem_of_mem_erase old)
  sorted := sorted
  cur := cur.trans h.cur
  live := by simp [pools]
  ok := h.ok.push room
  slots := by
    have rest : Slots id p (T.toList.erase d) ent txt := h.slots.sublist List.erase_sublist
    exact (rest.add h.tree.nodup.not_mem_erase val slot short).perm nodes.symm
  freshPools i hi := by
    rw [next] at hi
    simpa [pools, h.ne_of_fresh hi] using h.freshPools i hi

end Inv

/-- The value that was written to a new slot is read back. -/
theorem getVal_push {m : Mem} {id : PoolId} {p : Mempool} {key s : CStr} {q : Ptr} {e : MapEntry} (ok : p.Ok)
    (room : ((s.strlen + 1 : Nat) : Int) ≤ p.remainSize) (found : get key m = .ok (some q))
    (entry : m.maps q = some e) (val : e.val = ⟨id, p.pvalue⟩) (live : m.pools id = some (p.push s)) :
    getVal key m = .ok (some s) := by
  have text : StrAt (p.push s).soblock p.pvalue s := writeStr_at _ _ _
  have fits : p.pvalue + s.strlen < (p.push s).blockSize.toNat := by
    have account := ok.account
    rw [Mempool.push_blockSize]
    omega
  have load : m.loadStr ⟨id, p.pvalue⟩ = .ok s := by
    rw [Mem.loadStr, Mem.poolAt_of live, ok_bind]
    exact text.read fits
  simp only [getVal, found, ok_bind, Mem.entry_of entry, val, load]

/-- What `put` does, whether or not it exhausts the pool. -/
structure PutSpec (key val : CStr) (m m' : Mem) : Prop where
  good : Good m'
  value : ∀ k, m'.value k = if k = key ∧ exhausts key val m = false then some val else m.value k
  calls : CallsLive m m'
  pool : m'.pool = m.pool
  stays : exhausts key val m = false → m'.curPool = m.curPool ∧
    m'.remain = m.remain - if needsSlot key val m then ((val.strlen + 1 : Nat) : Int) else 0
  moves : exhausts key val m = true → m'.curPool = some m.nextPool ∧
    ∀ id, m.curPool = some id → m'.pools id = none

namespace Inv

variable {m : Mem} {T : Shape Ptr} {ent : Ptr → MapEntry} {txt : Ptr → CStr} {id : PoolId} {p : Mempool}
  {key val : CStr}

/-- A `put` that exhausts the pool compacts it and returns. -/
theorem put_compact {m₀ : Mem} (h : Inv m T ent txt id p) (h₀ : Inv m₀ T ent txt id p)
    (next : m₀.nextPool = m.nextPool) (pool : m₀.pool = m.pool) (calls : CallsLive m m₀)
    (full : exhausts key val m = true) :
    ∃ m', reallocValueMemory m₀ = .ok m' ∧ PutSpec key val m m' := by
  obtain ⟨m', ent', p', run, h', keys, used, pool', freed, calls'⟩ := reallocValueMemory_spec h₀
  refine ⟨m', run, ?_⟩
  exact {
    good := h'.good
    value := fun k => by simpa [full] using h.value_congr h' (fun q _ => keys q) (fun _ _ => rfl) k
    calls := calls.trans calls'
    pool := pool'.trans pool
    stays := fun e => by rw [full] at e; cases e
    moves := fun _ => ⟨by rw [h'.cur, next], fun i hi => by
      obtain rfl : id = i := Option.some.inj (h.cur.symm.trans hi)
      exact freed⟩ }

/-- A `put` that does not exhaust the pool gives one node a new text. -/
theorem putSpec {m' : Mem} {T' : Shape Ptr} {ent' : Ptr → MapEntry} {txt' : Ptr → CStr} {p' : Mempool} {q : Ptr}
    (h : Inv m T ent txt id p) (h' : Inv m' T' ent' txt' id p') (stays : exhausts key val m = false)
    (hq : q ∈ T'.toList) (old : q ∈ T.toList → (ent q).key = key) (hkey : (ent' q).key = key)
    (hval : txt' q = val) (other : ∀ q', q' ≠ q → (q' ∈ T'.toList ↔ q' ∈ T.toList) ∧
      (ent' q').key = (ent q').key ∧ txt' q' = txt q') (calls : CallsLive m m') (pool : m'.pool = m.pool)
    (remain : p'.remainSize = p.remainSize - if needsSlot key val m then ((val.strlen + 1 : Nat) : Int) else 0) :
    PutSpec key val m m' where
  good := h'.good
  value k := by simpa [stays] using h.value_put h' hq old hkey hval other k
  calls := calls
  pool := pool
  stays _ := ⟨h'.cur.trans h.cur.symm, by rw [h'.remain, h.remain, remain]⟩
  moves full := by rw [stays] at full; cases full

/-- The key has a value that is not shorter: it is overwritten. -/
theorem put_overwrite {q : Ptr} (h : Inv m T ent txt id p) (hq : q ∈ T.toList)
    (le : val.strlen ≤ (txt q).strlen) :
    ∃ m', m.enter.storeStr (ent q).val val = .ok m' ∧ PutSpec (ent q).key val m m' := by
  have needs : needsSlot (ent q).key val m = false := by simp [needsSlot, h.value_mem hq, le]
  have inPool := h.slots.inPool q hq
  have live : m.enter.pools (ent q).val.pool = some p := by rw [inPool]; exact h.live
  have fits : (ent q).val.off + val.strlen + 1 ≤ p.blockSize.toNat := by
    have := h.slots.fits q hq
    have := h.slots.below q hq
    have := h.ok.account
    have := h.ok.remain
    omega
  set p' : Mempool := { p with soblock := writeStr p.soblock (ent q).val.off val } with hp'
  refine ⟨m.enter.setPool (ent q).val.pool p', Mem.storeStr_of live fits, ?_⟩
  rw [inPool]
  have h' : Inv (m.enter.setPool id p') T ent (Function.update txt q val) id p' := {
    tree := h.tree
    black := h.black
    entries := h.entries
    sorted := h.sorted
    cur := h.cur
    live := by simp [Mem.setPool]
    ok := ⟨h.ok.size, h.ok.account, h.ok.remain⟩
    slots := h.slots.overwrite hq le
    freshPools := fun i hi => by simpa [Mem.setPool, h.ne_of_fresh hi] using h.freshPools i hi }
  exact h.putSpec h' (by simp [exhausts, needs]) hq (fun _ => rfl) rfl (by simp)
    (fun q' ne => ⟨Iff.rfl, rfl, by simp [ne]⟩) (.enter h.poolLive rfl) rfl (by simp [needs, hp'])

/-- The key has a shorter value and the pool has room: the value moves to a new slot. -/
theorem put_longer {q : Ptr} (h : Inv m T ent txt id p) (hq : q ∈ T.toList)
    (lt : (txt q).strlen < val.strlen) (room : ((val.strlen + 1 : Nat) : Int) ≤ p.remainSize) :
    ∃ m₁ m₂ m₃, mpMalloc m.enter.curPool (val.strlen + 1) m.enter = .ok (some ⟨id, p.pvalue⟩, m₁) ∧
      m₁.storeStr ⟨id, p.pvalue⟩ val = .ok m₂ ∧
      m₃ = m₂.setEntry q { ent q with val := ⟨id, p.pvalue⟩, slot := val.strlen + 1 } ∧
      Property.getVal (ent q).key m₃ = .ok (some val) ∧
      (val.strlen < propValueMax → PutSpec (ent q).key val m m₃) := by
  have needs : needsSlot (ent q).key val m = true := by simp [needsSlot, h.value_mem hq, lt]
  have stays : exhausts (ent q).key val m = false :=
    Bool.eq_false_iff.2 fun full => not_lt.2 room ((h.exhausts_iff needs).1 full)
  set e' : MapEntry := { ent q with val := ⟨id, p.pvalue⟩, slot := val.strlen + 1 } with he'
  set m₁ := m.enter.enter.setPool id (p.take (val.strlen + 1)) with hm₁
  have malloc : mpMalloc m.enter.curPool (val.strlen + 1) m.enter = .ok (some ⟨id, p.pvalue⟩, m₁) := by
    rw [show m.enter.curPool = some id from h.cur]
    exact mpMalloc_of h.live room
  set m₃ := (m₁.setPool id (p.push val)).setEntry q e' with hm₃
  refine ⟨m₁, m₁.setPool id (p.push val), m₃, malloc, Mem.storeStr_push h.ok room (by simp [hm₁, Mem.setPool]), rfl,
    ?_, fun short => ?_⟩
  · have same : get (ent q).key m₃ = get (ent q).key m := by
      refine @get_congr m m₃ rfl (fun q' => ?_) _
      by_cases e : q' = q
      · subst e; simp [hm₃, hm₁, he', Mem.setEntry, h.entries _ hq]
      · simp [hm₃, hm₁, Mem.setEntry, Mem.setPool, Mem.enter, e]
    exact getVal_push (q := q) (e := e') h.ok room (same.trans (h.get_node hq)) (by simp [hm₃, Mem.setEntry]) rfl
      (by simp [hm₃, Mem.setEntry, Mem.setPool])
  have keys : (fun q' => (Function.update ent q e' q').key) = fun q' => (ent q').key := by
    funext q'
    by_cases e : q' = q
    · subst e; simp [he']
    · simp [e]
  have h' : Inv m₃ T (Function.update ent q e') (Function.update txt q val) id (p.push val) :=
    h.push room short rfl rfl h.tree h.black (List.perm_cons_erase hq) (by rw [keys]; exact h.sorted) rfl
      (by simp [hm₃, hm₁, Mem.setPool, Mem.setEntry, Mem.enter]) rfl rfl
  exact h.putSpec h' stays hq (fun _ => rfl) (by simp [he']) (by simp)
    (fun q' ne => ⟨Iff.rfl, by simp [ne], by simp [ne]⟩)
    ((CallsLive.enter h.poolLive rfl).trans (.enter h.enter.poolLive rfl)) rfl
    (by simp [needs])

/-- A new node is linked at the end of the search, and keeps the order of the keys if it has the key. -/
theorem link_new {k : Path Ptr} (h : Inv m T ent txt id p)
    (hk : seek strcmp (fun q => (ent q).key) key [] T = (k, .nil)) :
    ∃ tree₁ tree₂ T', rbLinkNode m.tree.next (Path.parent? k) (linkOf k) m.enter.newNode.2.tree = .ok tree₁ ∧
      rbInsertColor m.tree.next tree₁ = .ok tree₂ ∧ Rep tree₂ T' ∧ T'.BlackRoot ∧
      T'.toList.Perm (m.tree.next :: T.toList) ∧
      ∀ e : MapEntry, e.key = key →
        Sorted strcmp (fun q => (Function.update ent m.tree.next e q).key) T'.toList := by
  obtain ⟨hplug, before, after⟩ := h.seek_absent hk
  set d := m.tree.next with hd
  have fresh : d ∉ T.toList := fun hq => Nat.lt_irrefl _ (h.tree.bound d hq)
  have rep : Rep m.enter.newNode.2.tree (plug k .nil) := hplug ▸ h.tree.grow (Nat.le_succ _)
  have root : Path.BlackRoot k := by
    by_cases e : k = []
    · rw [e]; trivial
    · exact (plug_blackRoot e).1 (hplug ▸ h.black)
  obtain ⟨tree₁, tree₂, link, color, rep₂⟩ := rep.insert (p := d) root
    (fun hq => fresh (by rw [← hplug]; exact mem_plug.2 (.inr hq))) (Nat.lt_succ_self _)
  have order : (rebalance k (.node .red .nil d .nil)).blacken.toList = k.before ++ d :: k.after := by
    rw [Shape.blacken_toList, rebalance_toList, plug_toList]
    simp
  have old : T.toList = k.before ++ k.after := by
    rw [← hplug, plug_toList]
    simp
  refine ⟨tree₁, tree₂, _, link, color, rep₂, Shape.blackRoot_blacken _, ?_, ?_⟩
  · rw [order, old]
    exact List.perm_middle
  · intro e he
    rw [order]
    apply Sorted.insert (old ▸ h.sorted) before after (by simp [he])
    intro q hq
    have ne : q ≠ d := fun e => fresh (by rw [old, ← e]; exact hq)
    simp [ne]

/-- The key is new and the pool has room: a node is linked at the end of the search. -/
theorem put_new {k : Path Ptr} (h : Inv m T ent txt id p)
    (hk : seek strcmp (fun q => (ent q).key) key [] T = (k, .nil))
    (absent : ∀ q ∈ T.toList, (ent q).key ≠ key) (room : ((val.strlen + 1 : Nat) : Int) ≤ p.remainSize) :
    ∃ m₁ m₂ tree₁ tree₂, mpMalloc m.curPool (val.strlen + 1) m.enter.newNode.2 =
        .ok (some ⟨id, p.pvalue⟩, m₁) ∧
      (m₁.setEntry m.tree.next ⟨key, ⟨id, p.pvalue⟩, val.strlen + 1⟩).storeStr ⟨id, p.pvalue⟩ val = .ok m₂ ∧
      rbLinkNode m.tree.next (Path.parent? k) (linkOf k) m₂.tree = .ok tree₁ ∧
      rbInsertColor m.tree.next tree₁ = .ok tree₂ ∧
      Property.getVal key { m₂ with tree := tree₂ } = .ok (some val) ∧
      (val.strlen < propValueMax → PutSpec key val m { m₂ with tree := tree₂ }) := by
  have needs : needsSlot key val m = true := by simp [needsSlot, h.value_absent absent]
  have stays : exhausts key val m = false :=
    Bool.eq_false_iff.2 fun full => not_lt.2 room ((h.exhausts_iff needs).1 full)
  -- the new node in the tree
  obtain ⟨tree₁, tree₂, T', link, color, rep₂, black, nodes, sorted⟩ := h.link_new hk
  set d := m.tree.next with hd
  have fresh : d ∉ T.toList := fun hq => Nat.lt_irrefl _ (h.tree.bound d hq)
  have here : d ∈ T'.toList := nodes.mem_iff.2 List.mem_cons_self
  have nodes' : T'.toList.Perm (d :: T.toList.erase d) := by rwa [List.erase_of_not_mem fresh]
  -- its value in the pool
  set e' : MapEntry := ⟨key, ⟨id, p.pvalue⟩, val.strlen + 1⟩ with he'
  set m₁ := m.enter.newNode.2.enter.setPool id (p.take (val.strlen + 1)) with hm₁
  have malloc : mpMalloc m.curPool (val.strlen + 1) m.enter.newNode.2 = .ok (some ⟨id, p.pvalue⟩, m₁) := by
    rw [h.cur]
    exact mpMalloc_of h.live room
  refine ⟨m₁, (m₁.setEntry d e').setPool id (p.push val), tree₁, tree₂, malloc,
    Mem.storeStr_push h.ok room (by simp [hm₁, Mem.setPool, Mem.setEntry]), link, color, ?_⟩
  set m₂ := (m₁.setEntry d e').setPool id (p.push val) with hm₂
  constructor
  · -- the search does not look at the texts, so it ends as if the new value were empty
    set e₀ : MapEntry := ⟨key, ⟨id, p.pvalue⟩, (lit "").strlen + 1⟩ with he₀
    set m₀ := { (m₁.setEntry d e₀).setPool id (p.push (.lit "")) with tree := tree₂ } with hm₀
    have empty : (lit "").strlen = 0 := by decide
    have h₀ : Inv m₀ T' (Function.update ent d e₀) (Function.update txt d (.lit "")) id (p.push (.lit "")) :=
      h.push (by rw [empty]; omega) (by decide) rfl rfl rep₂ black nodes' (sorted e₀ rfl) rfl
        (by simp [hm₀, hm₁, Mem.setPool, Mem.setEntry, Mem.newNode, Mem.enter]) rfl rfl
    have found : get key m₀ = .ok (some d) := by
      have := h₀.get_node here
      simpa [he₀] using this
    have same : get key { m₂ with tree := tree₂ } = get key m₀ := by
      refine @get_congr m₀ { m₂ with tree := tree₂ } rfl (fun q => ?_) _
      by_cases e : q = d
      · subst e; simp [hm₂, hm₀, he', he₀, Mem.setEntry, Mem.setPool]
      · simp [hm₂, hm₀, Mem.setEntry, Mem.setPool, e]
    exact getVal_push (q := d) (e := e') h.ok room (same.trans found) (by simp [hm₂, Mem.setEntry, Mem.setPool]) rfl
      (by simp [hm₂, Mem.setPool])
  intro short
  have h' : Inv { m₂ with tree := tree₂ } T' (Function.update ent d e') (Function.update txt d val) id (p.push val) :=
    h.push room short rfl rfl rep₂ black nodes' (sorted e' rfl) rfl
      (by simp [hm₂, hm₁, Mem.setPool, Mem.setEntry, Mem.newNode, Mem.enter]) rfl rfl
  exact h.putSpec h' stays here (fun hq => absurd hq fresh) (by simp [he']) (by simp)
    (fun q' ne => ⟨by rw [nodes.mem_iff]; simp [ne], by simp [ne], by simp [ne]⟩)
    ((CallsLive.enter h.poolLive rfl).trans (.enter h.enter.newNode.poolLive rfl)) rfl
    (by simp [needs])

/-- The search of `put` ends where `seek` does. -/
theorem search_spec {k : Path Ptr} {S : Shape Ptr} (h : Inv m T ent txt id p)
    (hk : seek strcmp (fun q => (ent q).key) key [] T = (k, S)) :
    putLoop (m.enter.tree.next + 1) key .root none m.enter = .ok (S.root?, linkOf k, Path.parent? k) := by
  have search := h.enter.putLoop_spec key (n := m.enter.tree.next + 1) (k := []) (S := T) rfl
    (Nat.lt_succ_of_le h.tree.length_le)
  rw [hk] at search
  exact search

/-- A `put` that exhausts the pool does nothing but compact it. -/
theorem put_full (h : Inv m T ent txt id p) (full : exhausts key val m = true) :
    ∃ m₀, put key val m = (reallocValueMemory m₀ >>= fun m' => .ok (0, m')) ∧ Inv m₀ T ent txt id p ∧
      m₀.nextPool = m.nextPool ∧ m₀.pool = m.pool ∧ CallsLive m m₀ := by
  have needs : needsSlot key val m = true := by
    simp only [exhausts, Bool.and_eq_true] at full
    exact full.1
  have room : p.remainSize < ((val.strlen + 1 : Nat) : Int) := (h.exhausts_iff needs).1 full
  rcases h.seek_cases key with ⟨k, c, l, q, r, hk, -, rfl, hq⟩ | ⟨k, hk, absent⟩
  · have search := h.search_spec hk
    have longer : (txt q).strlen < val.strlen := by simpa [needsSlot, h.value_mem hq] using needs
    refine ⟨m.enter.enter, ?_, h.enter.enter, rfl, rfl,
      (CallsLive.enter h.poolLive rfl).trans (.enter h.enter.poolLive rfl)⟩
    have malloc : mpMalloc m.enter.curPool (val.strlen + 1) m.enter = .ok (none, m.enter.enter) := by
      rw [h.enter.cur]
      exact mpMalloc_full h.enter.live room
    simp only [put, search, ok_bind, Shape.root?_node, Mem.entry_of (h.enter.entries q hq),
      h.enter.load hq, gt_iff_lt, if_pos longer, malloc]
  · have search := h.search_spec hk
    have node : m.enter.newNode = (m.tree.next, m.enter.newNode.2) := rfl
    refine ⟨m.enter.newNode.2.enter, ?_, h.enter.newNode.enter, rfl, rfl,
      (CallsLive.enter h.poolLive rfl).trans (.enter h.enter.newNode.poolLive rfl)⟩
    have malloc : mpMalloc m.enter.newNode.2.curPool (val.strlen + 1) m.enter.newNode.2 =
        .ok (none, m.enter.newNode.2.enter) := by
      rw [h.enter.newNode.cur]
      exact mpMalloc_full h.enter.live room
    rw [put, search, ok_bind]
    simp only [Shape.root?_nil]
    rw [node]
    simp only [malloc, ok_bind]

end Inv

/-- **A `put` that does not exhaust the pool** gives the key its value. -/
theorem put_room {m : Mem} {key val : CStr} (good : Good m) (stays : exhausts key val m = false) :
    ∃ r m', put key val m = .ok (r, m') ∧ getVal key m' = .ok (some val) ∧
      (val.strlen < propValueMax → PutSpec key val m m') := by
  obtain ⟨T, ent, txt, id, p, h⟩ := good
  have room : needsSlot key val m = true → ((val.strlen + 1 : Nat) : Int) ≤ p.remainSize := fun needs =>
    not_lt.1 fun lt => by rw [(h.exhausts_iff needs).2 lt] at stays; cases stays
  rcases h.seek_cases key with ⟨k, c, l, q, r, hk, -, rfl, hq⟩ | ⟨k, hk, absent⟩
  · have search := h.search_spec hk
    by_cases longer : (txt q).strlen < val.strlen
    · obtain ⟨m₁, m₂, m₃, malloc, store, rfl, bound, spec⟩ := h.put_longer hq longer
        (room (by simp [needsSlot, h.value_mem hq, longer]))
      refine ⟨0, _, ?_, bound, spec⟩
      simp only [put, search, ok_bind, Shape.root?_node, Mem.entry_of (h.enter.entries q hq),
        h.enter.load hq, gt_iff_lt, if_pos longer, malloc, store]
    · obtain ⟨m', store, spec⟩ := h.put_overwrite hq (not_lt.1 longer)
      refine ⟨0, m', ?_, ?_, fun _ => spec⟩
      · simp only [put, search, ok_bind, Shape.root?_node, Mem.entry_of (h.enter.entries q hq),
          h.enter.load hq, gt_iff_lt, if_neg longer, store]
      · rw [spec.good.getVal, spec.value, if_pos ⟨rfl, stays⟩]
  · have search := h.search_spec hk
    have node : m.enter.newNode = (m.tree.next, m.enter.newNode.2) := rfl
    obtain ⟨m₁, m₂, tree₁, tree₂, malloc, store, link, color, bound, spec⟩ := h.put_new hk absent
      (room (by simp [needsSlot, h.value_absent absent]))
    refine ⟨1, _, ?_, bound, spec⟩
    replace malloc : mpMalloc m.enter.newNode.2.curPool _ _ = _ := malloc
    rw [put, search, ok_bind]
    simp only [Shape.root?_nil]
    rw [node]
    simp only [malloc, ok_bind, store, link, color]

/-- **`put`** of a short value returns, keeps the invariant, and binds the key unless it exhausts
the pool; then it binds nothing, and the values move to a fresh pool. -/
theorem put_spec {m : Mem} {val : CStr} (good : Good m) (key : CStr) (short : val.strlen < propValueMax) :
    ∃ r m', put key val m = .ok (r, m') ∧ PutSpec key val m m' := by
  cases full : exhausts key val m with
  | true =>
    obtain ⟨T, ent, txt, id, p, h⟩ := good
    obtain ⟨m₀, run₀, h₀, next, pool, calls⟩ := h.put_full full
    obtain ⟨m', run, spec⟩ := h.put_compact h₀ next pool calls full
    exact ⟨0, m', by rw [run₀, run, ok_bind], spec⟩
  | false =>
    obtain ⟨r, m', run, -, spec⟩ := put_room good full
    exact ⟨r, m', run, spec short⟩

/-- `put_spec`, of a `put` that has returned. -/
theorem PutSpec.of_run {m m' : Mem} {key val : CStr} {r : Int} (good : Good m)
    (short : val.strlen < propValueMax) (run : put key val m = .ok (r, m')) : PutSpec key val m m' := by
  obtain ⟨r', m₁, run', spec⟩ := put_spec good key short
  cases unique run' run
  exact spec

/-- After a `put` that exhausts the pool, the fresh block holds nothing but the values. -/
theorem Inv.remain_of_full {m m' : Mem} {T : Shape Ptr} {ent : Ptr → MapEntry} {txt : Ptr → CStr} {id : PoolId}
    {p : Mempool} {key val : CStr} {r : Int} (h : Inv m T ent txt id p) (full : exhausts key val m = true)
    (run : put key val m = .ok (r, m')) : m'.remain = blocksize - textSize (T.toList.map txt) := by
  obtain ⟨m₀, run₀, h₀, -⟩ := h.put_full full
  obtain ⟨m₁, ent', p', realloc, h', -, used, -⟩ := reallocValueMemory_spec h₀
  rw [run₀, realloc, ok_bind] at run
  cases run
  have account := h'.ok.account
  have size := h'.ok.size
  rw [h'.remain, ← used]
  omega

end CodeBackup.Property
