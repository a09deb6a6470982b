import CodeBackup.ColorTree.Height
import CodeBackup.Property.Balanced
import CodeBackup.Property.Refine

/-!
# How far a search goes

The tree of the map is red-black, so the loops of `get` and `put` end after at
most twice the logarithm of the number of bound keys, and one turn more, where
the model allows them as many turns as there are addresses. Every key takes at
least one byte of the pool, which bounds the number of keys.
-/

namespace CodeBackup.Property

open C C.Outcome Rbtree ColorTree CStr Run

namespace Inv

variable {m : Mem} {T : Shape Ptr} {ent : Ptr → MapEntry} {txt : Ptr → CStr} {id : PoolId} {p : Mempool}

/-- The loop of `get` takes one turn for each level of the tree, and one to see that there is none left. -/
theorem getLoop_levels (h : Inv m T ent txt id p) (key : CStr) : ∀ {n : Nat} {k : Path Ptr} {S : Shape Ptr},
    plug k S = T → S.levels < n → getLoop n key S.root? m = .ok (seek strcmp (fun q => (ent q).key) key k S).2.root?
  | 0, _, _, _, hn => by omega
  | n + 1, k, .nil, _, _ => rfl
  | n + 1, k, .node c l q r, e, hn => by
    have hrep : Rep m.tree (plug k (.node c l q r)) := e ▸ h.tree
    have hq : q ∈ T.toList := by rw [← e]; exact mem_plug.2 (.inl (by simp))
    rw [Shape.levels] at hn
    have left := h.getLoop_levels key (n := n) (k := ⟨.left, c, q, r⟩ :: k) (S := l) e (by omega)
    have right := h.getLoop_levels key (n := n) (k := ⟨.right, c, q, l⟩ :: k) (S := r) e (by omega)
    simp only [Shape.root?_node, getLoop, Mem.entry_of (h.entries q hq),
      RbTree.node_of hrep.heap_self, ok_bind, seek]
    cases hc : strcmp key (ent q).key with
    | lt => simpa using left
    | gt => simpa using right
    | eq => rfl

/-- So does the loop of `put`. -/
theorem putLoop_levels (h : Inv m T ent txt id p) (key : CStr) : ∀ {n : Nat} {k : Path Ptr} {S : Shape Ptr},
    plug k S = T → S.levels < n → putLoop n key (linkOf k) (Path.parent? k) m =
      .ok ((seek strcmp (fun q => (ent q).key) key k S).2.root?,
        linkOf (seek strcmp (fun q => (ent q).key) key k S).1,
        Path.parent? (seek strcmp (fun q => (ent q).key) key k S).1)
  | 0, _, _, _, hn => by omega
  | n + 1, k, .nil, e, _ => by
    have hrep : Rep m.tree (plug k .nil) := e ▸ h.tree
    simp [putLoop, hrep.readLink, seek]
  | n + 1, k, .node c l q r, e, hn => by
    have hrep : Rep m.tree (plug k (.node c l q r)) := e ▸ h.tree
    have hq : q ∈ T.toList := by rw [← e]; exact mem_plug.2 (.inl (by simp))
    rw [Shape.levels] at hn
    have left := h.putLoop_levels key (n := n) (k := ⟨.left, c, q, r⟩ :: k) (S := l) e (by omega)
    have right := h.putLoop_levels key (n := n) (k := ⟨.right, c, q, l⟩ :: k) (S := r) e (by omega)
    simp only [putLoop, hrep.readLink, ok_bind, Shape.root?_node, Mem.entry_of (h.entries q hq), seek]
    cases hc : strcmp key (ent q).key with
    | lt => simpa [linkOf] using left
    | gt => simpa [linkOf] using right
    | eq => rfl

/-- Every key takes a byte of the pool. -/
theorem length_le_blocksize (h : Inv m T ent txt id p) : T.toList.length ≤ blocksize := by
  have each : ∀ l : List Ptr, l.length ≤ textSize (l.map txt) := by
    intro l
    induction l with
    | nil => simp [textSize]
    | cons q l ih =>
      simp only [List.map_cons, textSize_cons, List.length_cons]
      omega
  have := each T.toList
  have := h.slots.sum_le h.tree.nodup
  have := h.ok.account
  have := h.ok.remain
  have := h.ok.size
  omega

end Inv

/-- **Searches are short.** After any run of `load_all_props`, once, and `set_property` calls, compactions included,
every search of `get` and of `put` ends within `2 * log2 (n + 1) + 1` turns of its loop, where `n` is the number of
bound keys, and `n` is at most the size of the pool. -/
theorem searches_short {depth : Nat} {files : Files} {cs : List ApiCall} (once : cs.count .loadAllProps = 1)
    (noRelease : .releaseAllProps ∉ cs) {w : World} (ret : run (ApiCall.step depth) cs ⟨.fresh, files⟩ = .ok w) :
    ∃ l, systemPropertyList w.mem = .ok l ∧ l.length ≤ blocksize ∧ ∀ key turns, 2 * Nat.log 2 (l.length + 1) < turns →
      (∃ node, getLoop turns key w.mem.tree.root w.mem = .ok node ∧ get key w.mem = .ok node) ∧
      ∃ place, putLoop turns key .root none w.mem = .ok place ∧
        putLoop (w.mem.tree.next + 1) key .root none w.mem = .ok place := by
  obtain ⟨good, T, rep, rb⟩ := run_intact once noRelease ret
  obtain ⟨T', ent, txt, id, p, h⟩ := good
  obtain rfl := rep.unique h.tree
  refine ⟨_, h.list, by rw [List.length_map]; exact h.length_le_blocksize, fun key turns enough => ?_⟩
  rw [List.length_map] at enough
  have levels : T.levels < turns := Nat.lt_of_le_of_lt rb.levels_le enough
  have search := h.getLoop_levels key (k := []) (S := T) rfl levels
  rw [← rep.root] at search
  exact ⟨⟨_, search, h.get_spec key⟩, _, h.putLoop_levels key (k := []) (S := T) rfl levels,
    h.putLoop_spec key (k := []) (S := T) rfl (Nat.lt_succ_of_le rep.length_le)⟩

/-- Three keys that arrive in their order. -/
theorem searches_short_three : ∃ w, run (ApiCall.step 1) [.loadAllProps, .setProperty (.lit "a") (.lit "1"),
      .setProperty (.lit "b") (.lit "2"), .setProperty (.lit "c") (.lit "3")] ⟨.fresh, fun _ => none⟩ = .ok w ∧
    ∃ l, systemPropertyList w.mem = .ok l ∧ l.length ≤ blocksize ∧ ∀ key turns, 2 * Nat.log 2 (l.length + 1) < turns →
      (∃ node, getLoop turns key w.mem.tree.root w.mem = .ok node ∧ get key w.mem = .ok node) ∧
      ∃ place, putLoop turns key .root none w.mem = .ok place ∧
        putLoop (w.mem.tree.next + 1) key .root none w.mem = .ok place :=
  ⟨_, rfl, @searches_short 1 (fun _ => none) [.loadAllProps, .setProperty (.lit "a") (.lit "1"),
    .setProperty (.lit "b") (.lit "2"), .setProperty (.lit "c") (.lit "3")] (by decide) (by decide) _ rfl⟩

end CodeBackup.Property
