import CodeBackup.Property.Lifetime
import CodeBackup.Rbtree.Erase

/-!
# The tree of the map is red-black

Every store that the calls of the service build has a red-black tree. `put` is
the only call that changes the tree of a loaded store, and it links at most one
new leaf (`put_tree`), so the balance follows from that of the insertion repair
(`put_balanced`).
-/

namespace CodeBackup.Property

open C C.Outcome Rbtree ColorTree CStr Run

/-- The tree of the map is in memory, and red-black. -/
def Mem.Balanced (m : Mem) : Prop := ∃ T, Rep m.tree T ∧ T.RedBlack

/-! ## What leaves the tree alone -/

theorem storeStr_tree {m m' : Mem} {v : ValPtr} {s : CStr} (run : m.storeStr v s = .ok m') : m'.tree = m.tree := by
  simp only [Mem.storeStr, bind_eq_ok] at run
  obtain ⟨p, -, run⟩ := run
  split at run
  · cases run
    rfl
  · cases run

theorem mpMalloc_tree {m m' : Mem} {mp : Option PoolId} {n : Nat} {v : Option ValPtr}
    (run : mpMalloc mp n m = .ok (v, m')) : m'.tree = m.tree := by
  cases mp with
  | none =>
    cases run
    rfl
  | some id =>
    simp only [mpMalloc, bind_eq_ok] at run
    obtain ⟨p, -, run⟩ := run
    split at run
    · cases run
      rfl
    · cases run
      rfl

theorem mpFreeAll_tree {m m' : Mem} {mp : Option PoolId} (run : mpFreeAll mp m = .ok m') : m'.tree = m.tree := by
  simp only [mpFreeAll, bind_eq_ok] at run
  obtain ⟨id, -, p, -, run⟩ := run
  cases run
  rfl

theorem reallocLoop_tree : ∀ {n : Nat} {data : Option Ptr} {tmp : PoolId} {m m' : Mem},
    reallocLoop n data tmp m = .ok m' → m'.tree = m.tree
  | 0, _, _, _, _, run => by cases run
  | n + 1, none, _, _, _, run => by
    cases run
    rfl
  | n + 1, some data, tmp, m, m', run => by
    simp only [reallocLoop, bind_eq_ok] at run
    obtain ⟨e, -, text, -, run⟩ := run
    split at run
    · cases run
    · simp only [bind_eq_ok] at run
      obtain ⟨⟨v, m₁⟩, malloc, v', -, m₂, store, next, -, run⟩ := run
      have kept := mpMalloc_tree malloc
      rw [reallocLoop_tree run, storeStr_tree store]
      exact kept

/-- A compaction moves the values only. -/
theorem reallocValueMemory_tree {m m' : Mem} (run : reallocValueMemory m = .ok m') : m'.tree = m.tree := by
  simp only [reallocValueMemory, bind_eq_ok] at run
  obtain ⟨first, -, m₁, loop, m₂, free, run⟩ := run
  cases run
  show m₂.tree = m.tree
  rw [mpFreeAll_tree free, reallocLoop_tree loop]
  rfl

/-! ## What `put` does to the tree -/

/-- **`put`** leaves the links alone, or links one new node at the end of its search. -/
theorem put_tree {key val : CStr} {m m' : Mem} {r : Int} (run : put key val m = .ok (r, m')) :
    m'.tree = m.tree ∨ m'.tree = m.newNode.2.tree ∨ ∃ link parent t₁,
      putLoop (m.tree.next + 1) key .root none m.enter = .ok (none, link, parent) ∧
      rbLinkNode m.tree.next parent link m.newNode.2.tree = .ok t₁ ∧ rbInsertColor m.tree.next t₁ = .ok m'.tree := by
  simp only [put, bind_eq_ok] at run
  obtain ⟨⟨found, link, parent⟩, search, run⟩ := run
  cases found with
  | some node =>
    left
    simp only [bind_eq_ok] at run
    obtain ⟨e, -, old, -, run⟩ := run
    split at run
    · obtain ⟨⟨v, m₁⟩, malloc, run⟩ := bind_eq_ok.1 run
      have kept := mpMalloc_tree malloc
      cases v with
      | none =>
        obtain ⟨m₂, realloc, run⟩ := bind_eq_ok.1 run
        cases run
        rw [reallocValueMemory_tree realloc]
        exact kept
      | some v =>
        obtain ⟨m₂, store, run⟩ := bind_eq_ok.1 run
        cases run
        exact (storeStr_tree store).trans kept
    · obtain ⟨m₂, store, run⟩ := bind_eq_ok.1 run
      have kept := storeStr_tree store
      cases run
      exact kept
  | none =>
    right
    obtain ⟨⟨v, m₁⟩, malloc, run⟩ := bind_eq_ok.1 run
    have kept := mpMalloc_tree malloc
    replace malloc : m₁.tree = m.newNode.2.tree := kept
    cases v with
    | none =>
      obtain ⟨m₂, realloc, run⟩ := bind_eq_ok.1 run
      cases run
      exact .inl ((reallocValueMemory_tree realloc).trans malloc)
    | some v =>
      simp only [bind_eq_ok] at run
      obtain ⟨m₂, store, t₁, linked, t₂, color, run⟩ := run
      cases run
      have store : m₂.tree = m.newNode.2.tree := (storeStr_tree store).trans malloc
      rw [store] at linked
      exact .inr ⟨link, parent, t₁, search, linked, color⟩

/-- A search that finds no node has looked for a key that is not there. -/
theorem Inv.absent_of_putLoop {m : Mem} {T : Shape Ptr} {ent : Ptr → MapEntry} {txt : Ptr → CStr} {id : PoolId}
    {p : Mempool} (h : Inv m T ent txt id p) {key : CStr} {link : Link} {parent : Option Ptr}
    (search : putLoop (m.tree.next + 1) key .root none m.enter = .ok (none, link, parent)) :
    ∃ k, plug k .nil = T ∧ link = linkOf k ∧ parent = Path.parent? k ∧ m.value key = none := by
  have spec := h.enter.putLoop_spec key (n := m.tree.next + 1) (k := []) (S := T) rfl
    (Nat.lt_succ_of_le h.tree.length_le)
  have ends := unique search spec
  rcases h.seek_cases key with ⟨k, c, l, q, r, hk, -⟩ | ⟨k, hk, absent⟩
  · rw [hk] at ends
    cases ends
  · rw [hk] at ends
    obtain ⟨-, rfl, rfl⟩ : none = Shape.root? (.nil : Shape Ptr) ∧ link = linkOf k ∧ parent = Path.parent? k := by
      simpa using ends
    exact ⟨k, (h.seek_absent hk).1, rfl, rfl, h.value_absent absent⟩

/-- **`put`** of a bound key, or one that exhausts the pool, leaves the tree as it was. -/
theorem put_sameTree {key val : CStr} {m m' : Mem} {r : Int} (good : Good m) (run : put key val m = .ok (r, m'))
    (old : m.value key ≠ none ∨ exhausts key val m = true) : ∃ T, Rep m.tree T ∧ Rep m'.tree T := by
  obtain ⟨T, ent, txt, id, p, h⟩ := good
  cases full : exhausts key val m with
  | true =>
    obtain ⟨m₀, run₀, h₀, -⟩ := h.put_full full
    obtain ⟨m₁, ent', p', realloc, h', -⟩ := reallocValueMemory_spec h₀
    rw [run₀, realloc, ok_bind] at run
    cases run
    exact ⟨T, h.tree, h'.tree⟩
  | false =>
    rcases put_tree run with same | same | ⟨link, parent, t₁, search, -⟩
    · exact ⟨T, h.tree, same ▸ h.tree⟩
    · exact ⟨T, h.tree, same ▸ h.tree.grow (Nat.le_succ _)⟩
    · obtain ⟨k, -, -, -, absent⟩ := h.absent_of_putLoop search
      rw [full] at old
      exact absurd absent (old.resolve_right (by simp))

/-- **`put`** keeps the tree red-black. -/
theorem put_balanced {key val : CStr} {m m' : Mem} {r : Int} (good : Good m) (bal : m.Balanced)
    (run : put key val m = .ok (r, m')) : m'.Balanced := by
  obtain ⟨T, rep, rb⟩ := bal
  rcases put_tree run with same | same | ⟨link, parent, t₁, search, linked, color⟩
  · exact ⟨T, same ▸ rep, rb⟩
  · exact ⟨T, same ▸ rep.grow (Nat.le_succ _), rb⟩
  · obtain ⟨T', ent, txt, id, p, h⟩ := good
    obtain rfl := rep.unique h.tree
    obtain ⟨k, plugged, rfl, rfl, -⟩ := h.absent_of_putLoop search
    have fresh : m.tree.next ∉ k.labels := fun hq =>
      Nat.lt_irrefl _ (rep.bound _ (by rw [← plugged]; exact mem_plug.2 (.inr hq)))
    have root : k.BlackRoot := by
      cases k with
      | nil => trivial
      | cons f k => exact (plug_blackRoot (by simp)).1 (plugged ▸ rb.black)
    have grown : Rep m.newNode.2.tree (plug k .nil) := plugged ▸ rep.grow (Nat.le_succ _)
    obtain ⟨t₁', t₂, linked', color', rep'⟩ := grown.insert root fresh (Nat.lt_succ_self _)
    obtain rfl := unique linked linked'
    obtain rfl := unique color color'
    obtain ⟨n, bal, hk, -⟩ := plug_balanced.1 (plugged.symm ▸ rb.balanced)
    obtain rfl := Shape.balanced_nil.1 bal
    exact ⟨_, rep', rebalance_balanced (.red rfl rfl .nil .nil) rfl root hk⟩

/-! ## The service -/

theorem addProperty_balanced {key value : CStr} {m m' : Mem} (good : Good m) (bal : m.Balanced)
    (run : addProperty key value m = .ok m') : m'.Balanced := by
  unfold addProperty at run
  cases h : addable key value with
  | false =>
    rw [systemPropertyAdd_refused h] at run
    cases run
    exact bal
  | true =>
    rw [systemPropertyAdd_addable h] at run
    cases stored : put key value m with
    | error e =>
      rw [stored] at run
      cases run
    | ok res =>
      rw [stored] at run
      cases run
      exact put_balanced good bal stored

/-- A store that the service has loaded. -/
structure Intact (m : Mem) : Prop where
  good : Good m
  balanced : m.Balanced

/-- **A load** of one file keeps the tree red-black, whatever the files hold. -/
theorem Intact.load {m m' : Mem} (h : Intact m) {files : Files} {depth : Nat} {fn : CStr} {filter : Option CStr}
    (run : loadPropertiesFromFile addProperty files depth fn filter m = .ok m') : Intact m' := by
  apply loadPropertiesFromFile_keeps ?_ h run
  intro key value m₁ m₂ _ h₁ run₁
  obtain ⟨m₃, run₃, spec⟩ := addProperty_spec h₁.good key value
  obtain rfl := unique run₁ run₃
  exact ⟨spec.good, addProperty_balanced h₁.good h₁.balanced run₁⟩

theorem Vacant.intact {m : Mem} (h : Vacant m) : Intact (memoryInit m) :=
  ⟨h.good, .nil, (Inv.init h).tree, Shape.redBlack_nil⟩

/-- **`load_all_props`** of a vacant memory. -/
theorem Vacant.loadAllProps {w w' : World} (h : Vacant w.mem) {depth : Nat}
    (run : Property.loadAllProps depth w = .ok w') : Intact w'.mem := by
  simp only [Property.loadAllProps, bind_eq_ok] at run
  obtain ⟨m₁, run₁, m₂, run₂, e⟩ := run
  cases e
  exact (h.intact.load run₁).load run₂

/-- **`set_property`** on a loaded store. -/
theorem Intact.setProperty {w w' : World} {key val : CStr} {r : Int} (h : Intact w.mem)
    (run : Property.setProperty key val w = .ok (r, w')) : Intact w'.mem := by
  refine ⟨(setProperty_good h.good run).1, ?_⟩
  cases legal : legalName key with
  | false =>
    simp only [Property.setProperty, isLegalPropertyName_spec, ok_bind, legal] at run
    cases run
    exact h.balanced
  | true =>
    rw [setProperty_eq h.good legal] at run
    split at run
    · cases run
      exact h.balanced
    · simp only [bind_eq_ok] at run
      obtain ⟨files, -, ⟨r', m⟩, stored, run⟩ := run
      cases run
      exact put_balanced h.good h.balanced stored

/-! ## Runs with one load -/

/-- Without a pool, `put` of a new process faults when it compacts the pool that is not there. -/
theorem put_fresh (key val : CStr) : put key val .fresh = .error .nullDeref := rfl

/-- Before the load, a `set_property` that returns has refused. -/
theorem setProperty_fresh {files : Files} {key val : CStr} {r : Int} {w : World}
    (run : setProperty key val ⟨.fresh, files⟩ = .ok (r, w)) : w = ⟨.fresh, files⟩ := by
  cases legal : legalName key with
  | false =>
    simp only [setProperty, isLegalPropertyName_spec, ok_bind, legal] at run
    cases run
    rfl
  | true =>
    have key_short := legalName.strlen_lt legal
    have pos := legalName.pos legal
    simp only [setProperty, isLegalPropertyName_spec, ok_bind, legal, Bool.not_true, Bool.false_eq_true, if_false,
      systemPropertySet] at run
    rw [if_neg (by omega)] at run
    by_cases long : propValueMax ≤ val.strlen
    · rw [if_pos long] at run
      cases run
      rfl
    · have absent : get key .fresh = .ok none := rfl
      have add : addable key val := by simp [addable, pos, key_short, Nat.lt_of_not_le long]
      rw [if_neg long, if_neg (by omega), absent] at run
      simp only [ok_bind, systemPropertyAdd_addable add, put_fresh, error_bind] at run
      obtain ⟨res, run, -⟩ := bind_eq_ok.1 run
      split at run
      · obtain ⟨files, -, run⟩ := bind_eq_ok.1 run
        cases run
      · cases run

/-- The call is a `set_property`. -/
def ApiCall.IsSet (c : ApiCall) : Prop := ∃ key val, c = .setProperty key val

theorem isSet_of_not_mem {cs : List ApiCall} (load : .loadAllProps ∉ cs) (release : .releaseAllProps ∉ cs) :
    ∀ c ∈ cs, c.IsSet := by
  intro c hc
  cases c with
  | loadAllProps => exact absurd hc load
  | setProperty key val => exact ⟨key, val, rfl⟩
  | releaseAllProps => exact absurd hc release

theorem ApiCall.of_set {depth : Nat} {key val : CStr} {w w' : World}
    (run : (ApiCall.setProperty key val).step depth w = .ok w') :
    ∃ r, Property.setProperty key val w = .ok (r, w') := by
  cases h : Property.setProperty key val w with
  | error e =>
    simp only [ApiCall.step, h] at run
    cases run
  | ok res =>
    simp only [ApiCall.step, h] at run
    cases run
    exact ⟨res.1, rfl⟩

/-- **A run** with one load and no release, of a new process. -/
theorem run_intact {depth : Nat} {files : Files} {cs : List ApiCall} (once : cs.count .loadAllProps = 1)
    (noRelease : .releaseAllProps ∉ cs) {w : World} (ret : run (ApiCall.step depth) cs ⟨.fresh, files⟩ = .ok w) :
    Intact w.mem := by
  obtain ⟨pre, post, rfl⟩ := List.append_of_mem (List.count_pos_iff.1 (once ▸ Nat.one_pos))
  rw [List.count_append, List.count_cons_self] at once
  have before : ∀ c ∈ pre, c.IsSet :=
    isSet_of_not_mem (List.count_eq_zero.1 (by omega)) fun h => noRelease (by simp [h])
  have after : ∀ c ∈ post, c.IsSet :=
    isSet_of_not_mem (List.count_eq_zero.1 (by omega)) fun h => noRelease (by simp [h])
  rw [run_append, bind_eq_ok] at ret
  obtain ⟨w₀, ret₀, ret⟩ := ret
  obtain ⟨w₁, ret₁, rest⟩ := bind_eq_ok.1 ret
  have sets : Meets (ApiCall.step depth) (fun c _ => c.IsSet) pre ⟨.fresh, files⟩ :=
    meets_of_mem (fun c hc _ => before c hc) _
  have sets' : Meets (ApiCall.step depth) (fun c _ => c.IsSet) post w₁ := meets_of_mem (fun c hc _ => after c hc) _
  have start : w₀ = ⟨.fresh, files⟩ := by
    refine run_invariant (I := fun w => w = ⟨.fresh, files⟩) ?_ rfl sets ret₀
    rintro _ _ w' rfl ⟨key, val, rfl⟩ run
    obtain ⟨r, run⟩ := ApiCall.of_set run
    exact setProperty_fresh run
  subst start
  have intact : Intact w₁.mem := vacant_fresh.loadAllProps ret₁
  refine run_invariant (I := fun w : World => Intact w.mem) ?_ intact sets' rest
  rintro _ w w' h ⟨key, val, rfl⟩ run
  obtain ⟨r, run⟩ := ApiCall.of_set run
  exact h.setProperty run

end CodeBackup.Property
