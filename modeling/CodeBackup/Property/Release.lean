import CodeBackup.Property.Balanced
import CodeBackup.Property.LoadAll

/-!
# Release, and a load after it

The drain loop takes the first node out of the tree until there is none. In a
red-black tree the first node has no left child, so each turn takes one address
out of the in-order list (`drainNodes_spec`), and the loop frees every node once.

After `release_all_props` the memory is vacant, though other pools have been
freed and more addresses handed out than in a new process. A load does not see
the difference: two stores with the same bindings and the same ledger are
`Twin`, and every `put` keeps them so (`release_load_afresh`).
-/

namespace CodeBackup.Property

open C C.Outcome Rbtree ColorTree CStr Binding Run

/-! ## The drain loop -/

/-- The drain loop, with the nodes that it erases and frees, in their order. -/
def drainNodes : Nat → Mem → Outcome (List Ptr × Mem)
  | 0, _ => .error .loopBound
  | n + 1, m => do
    match ← mapFirst m with
    | none => .ok ([], m)
    | some nodeFree =>
      let tree ← rbErase nodeFree m.tree
      let (nodes, m) ← drainNodes n (mapFree nodeFree { m with tree := tree })
      .ok (nodeFree :: nodes, m)

theorem drainLoop_eq : ∀ (n : Nat) (m : Mem), drainLoop n m = Prod.snd <$> drainNodes n m
  | 0, _ => rfl
  | n + 1, m => by
    rw [drainLoop, drainNodes]
    cases mapFirst m with
    | error e => rfl
    | ok first =>
      cases first with
      | none => rfl
      | some q =>
        simp only [ok_bind]
        cases rbErase q m.tree with
        | error e => rfl
        | ok tree =>
          simp only [ok_bind]
          rw [drainLoop_eq n]
          cases drainNodes n (mapFree q { m with tree := tree }) with
          | error e => rfl
          | ok res => rfl

/-- **One turn**: the first node leaves the tree. -/
theorem erase_first {t : RbTree} {T : Shape Ptr} (h : Rep t T) (rb : T.RedBlack) {q : Ptr} {ys : List Ptr}
    (first : T.toList = q :: ys) : ∃ t' T', rbErase q t = .ok t' ∧ t'.next = t.next ∧ Rep t' T' ∧ T'.toList = ys ∧
      T'.RedBlack := by
  obtain ⟨k, c, l, r, e, before, after⟩ := @exists_plug _ _ [] _ _ first []
  simp only [plug_nil, Path.before_nil, List.append_nil, List.append_eq_nil_iff, Path.after_nil] at e before after
  obtain ⟨hk, hl⟩ := before
  obtain rfl : l = .nil := by
    cases l with
    | nil => rfl
    | node => simp at hl
  subst e
  -- the node is the right child's parent, with nothing on its left
  have h' : Rep t (plug k ((Frame.mk .right c q .nil).fill r)) := h
  obtain ⟨t', T', run, next, rep, order, rb'⟩ := h'.erase rb
  refine ⟨t', T', run, next, rep, ?_, rb'⟩
  rw [order, plug_toList, hk, List.nil_append, after]

/-- **The drain loop** erases and frees the nodes of the tree in their order, each of them once. -/
theorem drainNodes_spec : ∀ {n : Nat} {m : Mem} {T : Shape Ptr}, Rep m.tree T → T.RedBlack → T.toList.length < n →
    ∃ m', drainNodes n m = .ok (T.toList, m') ∧ m'.tree.root = none ∧
      ∀ q, m'.maps q = if q ∈ T.toList then none else m.maps q
  | 0, _, _, _, _, hn => by omega
  | n + 1, m, T, h, rb, hn => by
    have first : mapFirst m = .ok T.toList.head? := h.first
    rw [drainNodes, first]
    cases order : T.toList with
    | nil =>
      obtain rfl : T = .nil := by
        cases T with
        | nil => rfl
        | node => simp at order
      exact ⟨m, rfl, h.root, fun q => by simp⟩
    | cons q ys =>
      obtain ⟨t', T', run, next, rep, order', rb'⟩ := erase_first h rb order
      have nodup := h.nodup
      rw [order, List.nodup_cons] at nodup
      have rep' : Rep (mapFree q { m with tree := t' }).tree T' := rep.forget (order' ▸ nodup.1)
      obtain ⟨m', rest, root, maps⟩ := drainNodes_spec rep' rb' (by rw [order'] at *; simp [order] at hn; omega)
      rw [order'] at rest maps
      refine ⟨m', by simp only [List.head?_cons, ok_bind, run, rest], root, fun q' => ?_⟩
      rw [maps]
      by_cases e : q' = q
      · subst e
        simp [mapFree]
      · simp [mapFree, e]

/-- After the drain loop the release returns. -/
theorem releaseAllProps_of_drain {w : World} {m : Mem} {id : PoolId} {p : Mempool}
    (loop : drainLoop (w.mem.tree.next + 1) w.mem = .ok m) (cur : m.curPool = some id) (live : m.pools id = some p) :
    ∃ w', releaseAllProps w = .ok w' ∧ w'.files = w.files := by
  have live' : m.enter.pools id = some p := live
  have free : mpFreeAll m.curPool m = .ok { m.enter with pools := Function.update m.enter.pools id none } := by
    rw [mpFreeAll, cur, deref_some, ok_bind, Mem.poolAt_of live']
    rfl
  obtain ⟨m', destroy⟩ : ∃ m', memoryDestroy m = .ok m' := ⟨_, by rw [memoryDestroy, free]; rfl⟩
  exact ⟨⟨m', w.files⟩, by rw [releaseAllProps, propMemoryDestroy, loop, ok_bind, destroy, ok_bind], rfl⟩

/-! ## The load after it -/

/-- Two stores that no `put` can tell apart. -/
def Twin (m m' : Mem) : Prop := ∃ L, Accounts L m ∧ Accounts L m' ∧ m'.value = m.value

theorem Twin.bindings {m m' : Mem} (h : Twin m m') (k : CStr) : ∃ v, getVal k m = .ok v ∧ getVal k m' = .ok v := by
  obtain ⟨L, acc, acc', same⟩ := h
  exact ⟨m.value k, acc.good.getVal k, by rw [acc'.good.getVal, same]⟩

/-- **A pair** that is added to both. -/
theorem addProperty_twin {m m' : Mem} (key value : CStr) (h : Twin m m') :
    Rel Twin (addProperty key value m) (addProperty key value m') := by
  obtain ⟨L, acc, acc', same⟩ := h
  cases add : addable key value with
  | false =>
    rw [addProperty, addProperty, systemPropertyAdd_refused add, systemPropertyAdd_refused add]
    exact .ok ⟨L, acc, acc', same⟩
  | true =>
    have short : value.strlen < propValueMax := by
      simp only [addable, Bool.and_eq_true, decide_eq_true_eq] at add
      exact add.2
    obtain ⟨r, m₁, run, h₁, value₁⟩ := acc.put key short
    obtain ⟨r', m₁', run', h₁', value₁'⟩ := acc'.put key short
    rw [addProperty, addProperty, systemPropertyAdd_addable add, systemPropertyAdd_addable add, run, run']
    exact .ok ⟨_, h₁, h₁', by rw [value₁, value₁', same]⟩

/-- **A load of a vacant memory** does not depend on what was there before. -/
theorem loadAllProps_vacant {w w' : World} (h : Vacant w.mem) (h' : Vacant w'.mem) (files : w'.files = w.files)
    (depth : Nat) : Rel (fun a b => Twin a.mem b.mem) (loadAllProps depth w) (loadAllProps depth w') := by
  have start : Twin (memoryInit w.mem) (memoryInit w'.mem) :=
    ⟨_, .init h, .init h', by funext k; rw [h.value, h'.value]⟩
  have load := @loadPropertiesFromFile_rel _ _ Twin (fun key value _ _ _ => addProperty_twin key value) w.files depth
  rw [loadAllProps, loadAllProps, files]
  apply (load propPathSystemBuild none start).bind
  intro m m' h₁
  exact (load propPathOtaConfig none h₁).bind fun m₂ m₂' h₂ => .ok h₂

/-- **Release, then load, starts afresh.** Take the store after any run of `load_all_props`, once, and `set_property`
calls, compactions included. The drain loop of `release_all_props` erases and frees exactly the bound nodes, each of
them once, and leaves an empty tree. After the release, a `load_all_props` ends as it does in a new process with the
same files, with the same bindings. -/
theorem release_load_afresh {depth : Nat} {files : Files} {cs : List ApiCall} (once : cs.count .loadAllProps = 1)
    (noRelease : .releaseAllProps ∉ cs) {w : World} (ret : run (ApiCall.step depth) cs ⟨.fresh, files⟩ = .ok w) :
    ∃ nodes m w', drainNodes (w.mem.tree.next + 1) w.mem = .ok (nodes, m) ∧
      drainLoop (w.mem.tree.next + 1) w.mem = .ok m ∧ nodes.Nodup ∧
      (∀ q, q ∈ nodes ↔ ∃ k, get k w.mem = .ok (some q)) ∧ m.tree.root = none ∧ (∀ q ∈ nodes, m.maps q = none) ∧
      releaseAllProps w = .ok w' ∧ w'.mem.tree.root = none ∧
      ∀ depth', Rel (fun a b => ∀ k, ∃ v, getVal k a.mem = .ok v ∧ getVal k b.mem = .ok v) (loadAllProps depth' w')
        (loadAllProps depth' ⟨.fresh, w.files⟩) := by
  obtain ⟨good, T, rep, rb⟩ := run_intact once noRelease ret
  obtain ⟨m, drain, root, maps⟩ := drainNodes_spec rep rb (Nat.lt_succ_of_le rep.length_le)
  have loop : drainLoop (w.mem.tree.next + 1) w.mem = .ok m := by rw [drainLoop_eq, drain]; rfl
  obtain ⟨T', ent, txt, id, p, inv⟩ := id good
  obtain rfl := rep.unique inv.tree
  obtain ⟨-, pools, -, cur, -⟩ := drainLoop_of_run loop
  obtain ⟨w', release, same⟩ := releaseAllProps_of_drain loop (cur.trans inv.cur) (by rw [pools, inv.live])
  obtain ⟨vacant, -⟩ := releaseAllProps_vacant good release
  refine ⟨T.toList, m, w', drain, loop, rep.nodup, fun q => ⟨fun hq => ⟨_, inv.get_node hq⟩, ?_⟩, root, ?_, release,
    vacant.root, fun depth' => ?_⟩
  · rintro ⟨k, found⟩
    exact (inv.get_mem found).1
  · intro q hq
    rw [maps, if_pos hq]
  · have both := @loadAllProps_vacant w' ⟨.fresh, w.files⟩ vacant vacant_fresh same.symm depth'
    exact both.mono fun a b h => h.bindings

/-- Two nodes, and no files. -/
theorem release_load_afresh_two : ∃ w, run (ApiCall.step 1)
    [.loadAllProps, .setProperty (.lit "b") (.lit "1"), .setProperty (.lit "a") (.lit "2")]
      ⟨.fresh, fun _ => none⟩ = .ok w ∧
    ∃ nodes m w', drainNodes (w.mem.tree.next + 1) w.mem = .ok (nodes, m) ∧
      drainLoop (w.mem.tree.next + 1) w.mem = .ok m ∧ nodes.Nodup ∧
      (∀ q, q ∈ nodes ↔ ∃ k, get k w.mem = .ok (some q)) ∧ m.tree.root = none ∧ (∀ q ∈ nodes, m.maps q = none) ∧
      releaseAllProps w = .ok w' ∧ w'.mem.tree.root = none ∧
      ∀ depth', Rel (fun a b => ∀ k, ∃ v, getVal k a.mem = .ok v ∧ getVal k b.mem = .ok v) (loadAllProps depth' w')
        (loadAllProps depth' ⟨.fresh, w.files⟩) :=
  ⟨_, rfl, @release_load_afresh 1 (fun _ => none)
    [.loadAllProps, .setProperty (.lit "b") (.lit "1"), .setProperty (.lit "a") (.lit "2")] (by decide) (by decide) _
    rfl⟩

end CodeBackup.Property
