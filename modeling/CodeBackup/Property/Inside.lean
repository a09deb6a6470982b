import CodeBackup.Property.Update

/-!
# The bounds of the rewrite

`op_prop_file` compares the key with the bytes of the file from every place on,
the end of the file included, until it finds the key's text, and then steps over
as many bytes as the value in memory is long. It stays inside its image of the
file exactly if the text is there with enough bytes behind it
(`insideImage_iff`). A line of the file that binds the key to the value is
enough (`foundWithRoom_of_binding`), but the value of a key may come from
another file.
-/

namespace CodeBackup.Property

open C C.Outcome CStr Binding

/-- The search gets as far as `i`: the key's text stands at no place before it. -/
structure ScanReaches (key : CStr) (mem : List UInt8) (i : Nat) : Prop where
  le : i ≤ mem.length
  first : ∀ j < i, ¬ key.bytes <+: mem.drop j

/-- Every comparison stays inside the image, and where it finds the key the tail behind the old value begins there. -/
structure InsideImage (key : CStr) (old : Nat) (mem : List UInt8) : Prop where
  compared : ∀ i, ScanReaches key mem i → i + key.strlen ≤ mem.length
  tail : ∀ i, ScanReaches key mem i → key.bytes <+: mem.drop i → i + key.strlen + 1 + old ≤ mem.length

/-- The key's text stands in the file, with more than `old` bytes behind its first place. -/
def FoundWithRoom (key : CStr) (old : Nat) (mem : List UInt8) : Prop :=
  ∃ p z, mem = p ++ (key.bytes ++ z) ∧ (∀ j < p.length, ¬ key.bytes <+: mem.drop j) ∧ old < z.length

variable {key : CStr} {old : Nat} {mem : List UInt8}

theorem foundWithRoom_iff : FoundWithRoom key old mem ↔ ∃ p c v y, Splice key old mem p c v y := by
  constructor
  · rintro ⟨p, z, parts, first, room⟩
    have found : key.bytes <+: mem.drop p.length := by
      rw [parts, List.drop_left]
      exact List.prefix_append _ _
    have len : mem.length = p.length + (key.strlen + z.length) := by simp [parts, strlen]
    exact ⟨_, splice_of_first found first (by omega)⟩
  · rintro ⟨p, c, v, y, h⟩
    refine ⟨p, c :: (v ++ y), h.parts, h.first, ?_⟩
    have := h.length
    simp only [List.length_cons, List.length_append]
    omega

/-- A text that stands somewhere stands at a first place. -/
theorem exists_scanReaches (pos : 0 < key.strlen) {i : Nat} (found : key.bytes <+: mem.drop i) :
    ∃ j ≤ i, ScanReaches key mem j ∧ key.bytes <+: mem.drop j := by
  classical
  have some_ : ∃ j, key.bytes <+: mem.drop j := ⟨i, found⟩
  refine ⟨Nat.find some_, Nat.find_min' some_ found, ⟨?_, fun j hj => Nat.find_min some_ hj⟩, Nat.find_spec some_⟩
  have len := (Nat.find_spec some_).length_le
  rw [List.length_drop] at len
  unfold strlen at pos
  omega

/-- **The rewrite stays inside** exactly if it finds the key with room behind it. -/
theorem insideImage_iff (pos : 0 < key.strlen) : InsideImage key old mem ↔ FoundWithRoom key old mem := by
  constructor
  · intro inside
    obtain ⟨i, found⟩ : ∃ i, key.bytes <+: mem.drop i := by
      -- else the search would reach the end of the image
      by_contra none_
      have := inside.compared mem.length ⟨le_rfl, fun j _ found => none_ ⟨j, found⟩⟩
      omega
    obtain ⟨j, -, reached, found⟩ := exists_scanReaches pos found
    have room := inside.tail j reached found
    exact foundWithRoom_iff.2 ⟨_, splice_of_first found reached.first room⟩
  · rintro ⟨p, z, parts, first, room⟩
    have len : mem.length = p.length + (key.strlen + z.length) := by simp [parts, strlen]
    have found : key.bytes <+: mem.drop p.length := by
      rw [parts, List.drop_left]
      exact List.prefix_append _ _
    have le : ∀ i, ScanReaches key mem i → i ≤ p.length := by
      intro i reached
      by_contra beyond
      exact reached.first p.length (by omega) found
    constructor
    · intro i reached
      have := le i reached
      omega
    · intro i reached here
      have := le i reached
      have : ¬ i < p.length := fun lt => first i lt here
      omega

/-- **A line of the file** that binds the key to the value is room enough. -/
theorem foundWithRoom_of_binding {content : List UInt8} {value : CStr} (pos : 0 < key.strlen)
    (binding : (key, value) ∈ bindings content) : FoundWithRoom key value.strlen content := by
  obtain ⟨line, hl, binds⟩ := List.mem_filterMap.1 binding
  obtain ⟨x, z, split⟩ := infix_of_mem_segments ((lines_prefix_segments content).subset hl)
  obtain ⟨u, b, b', b'', -, -, -, -, parts⟩ := lineBinding_shape (lines_nulFree hl) binds
  have whole : content = (x ++ u) ++ (key.bytes ++ (b ++ chEq :: (b' ++ (value.bytes ++ b'') ++ z))) := by
    rw [← split, parts]
    simp
  have here : key.bytes <+: content.drop (x ++ u).length := by
    conv_rhs => rw [whole, List.drop_left]
    exact List.prefix_append _ _
  obtain ⟨i, le, reached, found⟩ := exists_scanReaches pos here
  have len := congrArg List.length whole
  simp only [List.length_append, List.length_cons] at len le
  have room : i + key.strlen + 1 + value.strlen ≤ content.length := by
    unfold strlen
    omega
  exact foundWithRoom_iff.2 ⟨_, splice_of_first found reached.first room⟩

/-! ## Loaded stores -/

/-- The keys that are bound are legal. -/
def LegalKeys (m : Mem) : Prop := ∀ k v, m.value k = some v → legalName k

theorem load_legalKeys {m m' : Mem} {files : Files} {depth : Nat} {fn : CStr} {filter : Option CStr}
    (h : Good m ∧ LegalKeys m) (run : loadPropertiesFromFile addProperty files depth fn filter m = .ok m') :
    Good m' ∧ LegalKeys m' := by
  refine loadPropertiesFromFile_keeps (P := fun m => Good m ∧ LegalKeys m) ?_ h run
  rintro key value m₁ m₂ legal ⟨good, keys⟩ run
  obtain ⟨m₃, run', spec⟩ := addProperty_spec good key value
  obtain rfl := unique run run'
  refine ⟨spec.good, fun k v bound => ?_⟩
  rw [spec.value] at bound
  split at bound
  · next h => exact h.1 ▸ legal
  · exact keys k v bound

theorem loadAllProps_legalKeys {depth : Nat} {files : Files} {w : World}
    (run : loadAllProps depth ⟨.fresh, files⟩ = .ok w) : LegalKeys w.mem := by
  simp only [loadAllProps, bind_eq_ok] at run
  obtain ⟨m₁, run₁, m₂, run₂, e⟩ := run
  cases e
  have start : LegalKeys (memoryInit .fresh) := fun k v bound => by
    rw [vacant_fresh.value] at bound
    cases bound
  exact (load_legalKeys (load_legalKeys ⟨vacant_fresh.good, start⟩ run₁) run₂).2

/-- **The rewriter stays inside its buffer**, for any contents of `build.prop` and any store that is loaded from it and
the other files, and any accepted update of a bound persistent key, exactly if the key's text stands in `build.prop`
with more bytes behind its first place than the value in memory has; and exactly then the call returns. -/
theorem rewriter_inside {files : Files} {content : List UInt8} (build : files propPathSystemBuild = some content)
    {depth : Nat} {w : World} (loaded : loadAllProps depth ⟨.fresh, files⟩ = .ok w) {key old value : CStr}
    (persist : startsWith key persistPrefix) (bound : getVal key w.mem = .ok (some old))
    (accepted : value.strlen < propValueMax) :
    (InsideImage key old.strlen content ↔ FoundWithRoom key old.strlen content) ∧
      ((∃ r w', setProperty key value w = .ok (r, w')) ↔ FoundWithRoom key old.strlen content) := by
  obtain ⟨good, -, sameFiles⟩ := loadAllProps_good vacant_fresh.good loaded
  have bound' := good.value_of_getVal bound
  have legal : legalName key := loadAllProps_legalKeys loaded key old bound'
  have pos := legalName.pos legal
  refine ⟨insideImage_iff pos, ?_⟩
  have file : w.files propPathSystemBuild = some content := by
    rw [sameFiles]
    exact build
  obtain ⟨m, -, call⟩ := setProperty_persistent good ⟨legal, persist⟩ accepted file
  rw [call, rewriteFor, bound', foundWithRoom_iff]
  constructor
  · rintro ⟨r, w', run⟩
    obtain ⟨out, hout, -⟩ := bind_eq_ok.1 run
    exact splice_of_rewrite pos hout
  · rintro ⟨p, c, v, y, h⟩
    simp only [rewrite_splice h, ok_bind]
    exact ⟨0, _, rfl⟩

/-- A key that the other file binds. -/
theorem rewriter_inside_ota : ∃ w,
    loadAllProps 1 ⟨.fresh, twoFiles (.lit "ro.b=2\n") (.lit "persist.a=1\n")⟩ = .ok w ∧
      ((InsideImage (.lit "persist.a") (lit "1").strlen (lit "ro.b=2\n").bytes ↔
          FoundWithRoom (.lit "persist.a") (lit "1").strlen (lit "ro.b=2\n").bytes) ∧
        ((∃ r w', setProperty (.lit "persist.a") (.lit "2") w = .ok (r, w')) ↔
          FoundWithRoom (.lit "persist.a") (lit "1").strlen (lit "ro.b=2\n").bytes)) :=
  ⟨_, rfl, @rewriter_inside (twoFiles (.lit "ro.b=2\n") (.lit "persist.a=1\n")) _ (by decide) 1 _ rfl _ (.lit "1") _
    (by decide) (by decide) (by decide)⟩

/-- **A key of the other file** is not in the image: the search runs out of it. -/
theorem rewriter_leaves_image : ¬ ∀ (files : Files) (content : List UInt8) (depth : Nat) (w : World)
    (key old value : CStr), files propPathSystemBuild = some content → loadAllProps depth ⟨.fresh, files⟩ = .ok w →
      startsWith key persistPrefix → getVal key w.mem = .ok (some old) → value.strlen < propValueMax →
      InsideImage key old.strlen content := by
  intro always
  have inside := always (twoFiles (.lit "ro.b=2\n") (.lit "persist.a=1\n")) (lit "ro.b=2\n").bytes 1 _
    (.lit "persist.a") (.lit "1") (.lit "2") (by decide) rfl (by decide) (by decide) (by decide)
  have first : ScanReaches (.lit "persist.a") (lit "ro.b=2\n").bytes 0 := ⟨Nat.zero_le _, by simp⟩
  exact absurd (inside.compared 0 first) (by decide)

end CodeBackup.Property
