import CodeBackup.Property.Durable
import CodeBackup.Property.Report
import CodeBackup.Property.Update

/-!
# A full pool

`__system_property_set` writes the file before it binds the key in memory, and
does not look at the result of `put`. When the pool is exhausted the binding
stays, but the file has been rewritten: memory and file agree about the key
afterwards only if a load does not see the new value, because a NUL hides it
(`Hidden`), or because of the lines around it (`Shadowed`).
-/

namespace CodeBackup.Property

open C C.Outcome CStr Binding Run

/-- A load of `build.prop` gives each persistent key its value in memory. -/
def Agrees (w : World) : Prop :=
  ∃ f, LoadsTo w.files f ∧ ∀ k, startsWith k persistPrefix → getVal k w.mem = .ok (f k)

/-- `set_property` returns, and memory and file both hold the new value of the key, or both hold what they held. -/
def StaysTogether (key value : CStr) (w : World) : Prop :=
  ∃ r w' f f', setProperty key value w = .ok (r, w') ∧ LoadsTo w.files f ∧ LoadsTo w'.files f' ∧
    ((getVal key w'.mem = .ok (some value) ∧ f' key = some value) ∨
      (getVal key w'.mem = getVal key w.mem ∧ f' key = f key))

/-- A NUL stands before the place where the value is written. -/
def Hidden (key : CStr) (w : World) : Prop :=
  ∃ mem, w.files propPathSystemBuild = some mem ∧
    match w.mem.value key with
    | none => 0 ∈ mem
    | some old => ∃ p c v y, Splice key old.strlen mem p c v y ∧ (0 ∈ p ∨ c = 0)

/-- A new key is appended to a line that is not blank, or a line behind the replaced bytes binds the key to the
value it has. -/
def Shadowed (key : CStr) (w : World) : Prop :=
  ∃ mem, w.files propPathSystemBuild = some mem ∧
    match w.mem.value key with
    | none => ∃ p u, mem = p ++ u ∧ Closed p ∧ chNewline ∉ u ∧ ¬ Blank u
    | some old => ∃ p c v x rest, Splice key old.strlen mem p c v (x ++ chNewline :: rest) ∧ 0 ∉ x ∧
        lastOf (bindings rest) key = some old

/-- Neither `build.prop` nor the rewritten file imports a file, and their values fit the pool. -/
def Legible (key value : CStr) (w : World) : Prop :=
  ∀ mem, w.files propPathSystemBuild = some mem → ImportFree mem ∧ valueSize mem + propValueMax ≤ blocksize ∧
    ∀ old p v y, w.mem.value key = some old → Splice key old.strlen mem p chNewline v y →
      ∀ x, x <+: y → ¬ importPrefix.bytes <+: trimStart (value.bytes ++ x)

/-! ## Behind a NUL -/

theorem loadsTo_congr {files files' : Files} (same : ∀ fn, (files fn).map lines = (files' fn).map lines)
    {f : CStr → Option CStr} (h : LoadsTo files f) : LoadsTo files' f := by
  obtain ⟨depth, m, run, value⟩ := h
  exact ⟨depth, m, by rw [← loadPropertiesFromFile_congr same, run], value⟩

/-- A rewrite that changes no line that is read changes no load. -/
theorem loadsTo_update {files : Files} {mem out : List UInt8} (file : files propPathSystemBuild = some mem)
    (same : lines mem = lines out) {f : CStr → Option CStr} (h : LoadsTo files f) :
    LoadsTo (Function.update files propPathSystemBuild (some out)) f := by
  refine loadsTo_congr (fun fn => ?_) h
  by_cases e : fn = propPathSystemBuild
  · simp [e, file, same]
  · simp [e]

section

variable {key : CStr} (pk : Persistent key) {w : World} (good : Good w.mem) {value : CStr}
  (full : exhausts key value w.mem) (short : value.strlen < propValueMax)

include full in
/-- A call that exhausts the pool would have changed the value. -/
theorem longer_of_exhausts {old : CStr} (bound : w.mem.value key = some old) : old.strlen < value.strlen := by
  simp only [exhausts, Bool.and_eq_true, needsSlot, bound, decide_eq_true_eq] at full
  exact full.1

include pk good full short

/-- The call returns if the rewrite does, and leaves the bindings in memory as they were. -/
theorem setProperty_full {mem out : List UInt8} (file : w.files propPathSystemBuild = some mem)
    (write : rewriteFor key value w.mem mem = .ok out) :
    ∃ m, setProperty key value w = .ok (0, ⟨m, Function.update w.files propPathSystemBuild (some out)⟩) ∧
      ∀ k, getVal k m = getVal k w.mem := by
  obtain ⟨m, spec, run⟩ := setProperty_persistent good pk short file
  refine ⟨m, by rw [run, write, ok_bind], fun k => ?_⟩
  rw [spec.good.getVal, good.getVal, spec.value, full]
  simp

/-- **Behind a NUL** nothing that is written is read. -/
theorem Hidden.together (hidden : Hidden key w) (agrees : Agrees w) : StaysTogether key value w := by
  obtain ⟨mem, file, place⟩ := hidden
  obtain ⟨f, loads, -⟩ := agrees
  have done : ∀ {out}, rewriteFor key value w.mem mem = .ok out → lines mem = lines out →
      StaysTogether key value w := fun write same => by
    obtain ⟨m, run, keeps⟩ := setProperty_full pk good full short file write
    exact ⟨0, _, f, f, run, loads, loadsTo_update file same loads, .inr ⟨keeps key, rfl⟩⟩
  cases bound : w.mem.value key with
  | none =>
    rw [bound] at place
    apply done (rewriteFor_new pk short bound mem)
    conv_lhs => rw [← List.append_nil mem]
    exact lines_nul_congr place _ _
  | some old =>
    simp only [bound] at place
    obtain ⟨p, c, v, y, splice, nul⟩ := place
    apply done (by rw [rewriteFor, bound]; exact rewrite_splice splice value)
    have nul' : 0 ∈ p ++ (key.bytes ++ [c]) := by
      rcases nul with nul | rfl <;> simp [*]
    have e : ∀ x, p ++ (key.bytes ++ c :: x) = (p ++ (key.bytes ++ [c])) ++ x := fun x => by simp
    rw [splice.parts, e (v ++ y), e (value.bytes ++ y)]
    exact lines_nul_congr nul' _ _

end

/-! ## The lines around the place -/

theorem trimStart_le {l l' : List UInt8} (h : l <+: l') : (trimStart l).length ≤ (trimStart l').length := by
  obtain ⟨x, rfl⟩ := h
  obtain ⟨sp, e, blank, head⟩ := trimStart_cases l
  have : trimStart (l ++ x) = trimStart (trimStart l ++ x) := by
    conv_lhs => rw [e, List.append_assoc, trimStart_blank blank]
  cases hs : trimStart l with
  | nil => simp
  | cons b s =>
    rw [this, hs, List.cons_append, trimStart_cons (head b s hs)]
    simp

/-- A line of a text that goes on with whole lines is a part of the text, or one of these lines. -/
theorem mem_lines_append {x z rest line : List UInt8} (ends : EndsLine z rest) (h : line ∈ lines (x ++ z)) :
    line <:+: x ∨ line ∈ lines rest := by
  rcases ends with ⟨rfl, rfl⟩ | rfl
  · rw [List.append_nil] at h
    exact .inl (infix_of_mem_segments ((lines_prefix_segments x).subset h))
  · by_cases nul : 0 ∈ x
    · obtain ⟨a, b, rfl, ha⟩ := List.eq_append_cons_of_mem nul
      rw [List.append_assoc, List.cons_append, lines_nul ha] at h
      exact .inl ((infix_of_mem_segments (List.mem_of_mem_dropLast h)).trans (List.prefix_append _ _).isInfix)
    · rw [lines_newline nul] at h
      rcases List.mem_append.1 h with h | h
      · exact .inl (infix_of_mem_segments h)
      · exact .inr h

theorem lastOf_bindings_of_mem {content line : List UInt8} {key value : CStr} (hl : line ∈ lines content)
    (hb : lineBinding line = some (key, value)) : lastOf (bindings content) key ≠ none := fun h =>
  lastOf_eq_none.1 h (key, value) (List.mem_filterMap.2 ⟨line, hl, hb⟩) rfl

/-- Behind a longer value the line has too many solid bytes to bind what a part of the old line bound. -/
theorem valueLine_longer {key value : CStr} {u v x l : List UInt8} {c : UInt8} {b : CStr × CStr} (solid : Solid value.bytes)
    (longer : v.length < value.strlen) (nul : 0 ∉ valueLine key u c value.bytes x) (null : 0 ∉ l)
    (part : l <:+: valueLine key u c v x) (before : lineBinding l = some b) :
    lineBinding (valueLine key u c value.bytes x) ≠ some b := by
  intro after
  have same : solids (valueLine key u c value.bytes x) = solids l :=
    (solids_binding nul after).trans (solids_binding null before).symm
  have le := solids_infix part
  have few := solids_le_length v
  rw [solids_valueLine, solids_solid solid] at same
  rw [solids_valueLine] at le
  unfold strlen at longer
  omega

/-- A line that does not bind a key does not bind it when another line is written behind it. -/
theorem lineBinding_joined {key : CStr} (pk : Persistent key) {u x : List UInt8} (nul : 0 ∉ u) (nul' : 0 ∉ x)
    (solid : ¬ Blank u) (new : lastOf (lineBinding u).toList key = none) :
    lastOf (lineBinding (u ++ (key.bytes ++ x))).toList key = none := by
  apply lastOf_eq_none.2
  intro e he eq
  obtain ⟨k, v⟩ := e
  obtain rfl : k = key := eq
  have binds : lineBinding (u ++ (k.bytes ++ x)) = some (k, v) := by simpa using he
  obtain ⟨u', b, b', b'', hu, hb, -, -, e⟩ := lineBinding_shape (by simp [nul, k.nulFree, nul']) binds
  rcases key_place pk hu hb e.symm with rfl | ⟨d, rfl, hd⟩
  · exact solid hu
  · -- the line bound the key before, to a value that is not longer
    have part : trimEnd d <+: trimEnd (d ++ (k.bytes ++ x)) := by
      obtain ⟨l, hk⟩ := pk.exists_cons
      rw [hk, List.cons_append, trimEnd_cons (by decide)]
      exact (List.rdropWhile_prefix _ _).trans (List.prefix_append _ _)
    have nuld : 0 ∉ d := fun h => nul (by simp [h])
    have nulx : 0 ∉ d ++ (k.bytes ++ x) := by simp [nuld, k.nulFree, nul']
    have sub : ∀ l, 0 ∉ l → 0 ∉ trimStart (trimEnd l) := fun l hl h =>
      hl ((List.rdropWhile_prefix _ _).subset ((List.dropWhile_suffix _).subset h))
    have le : (CStr.ofBytes (trimStart (trimEnd d))).strlen ≤
        (CStr.ofBytes (trimStart (trimEnd (d ++ (k.bytes ++ x))))).strlen := by
      rw [ofBytes_strlen (sub _ nuld), ofBytes_strlen (sub _ nulx)]
      exact trimStart_le part
    have before := lineBinding_of pk hu hb d
    have after := lineBinding_of pk hu hb (d ++ (k.bytes ++ x))
    have line : u' ++ (k.bytes ++ (b ++ chEq :: d)) ++ (k.bytes ++ x) =
        u' ++ (k.bytes ++ (b ++ chEq :: (d ++ (k.bytes ++ x)))) := by simp
    rw [line, after] at binds
    split at binds
    · next short =>
      rw [before, if_pos (by omega)] at new
      simp [lastOf_cons] at new
    · cases binds

section

variable {key : CStr} (pk : Persistent key) {w : World} (good : Good w.mem) {value : CStr}
  (full : exhausts key value w.mem) (short : value.strlen < propValueMax)
  (agrees : Agrees w) {mem : List UInt8} (file : w.files propPathSystemBuild = some mem)
  (free : ImportFree mem) (fits : valueSize mem + propValueMax ≤ blocksize)

include good agrees file free fits

/-- The file holds what the memory does. -/
theorem Agrees.value_eq {k : CStr} (persist : startsWith k persistPrefix) :
    w.mem.value k = lastOf (bindings mem) k := by
  obtain ⟨f, loads, agree⟩ := agrees
  have room : textSize ((bindings mem).map Prod.snd) ≤ blocksize := by
    have := textSize_bindings mem
    omega
  have e := agree k persist
  rw [good.getVal] at e
  rw [Except.ok.inj e]
  exact (loadsTo_iff file free room).1 loads k

include pk full short

/-- With a rewrite that can be loaded, all that matters is what the new text gives the key. -/
theorem staysTogether_iff {out new : List UInt8} (write : rewriteFor key value w.mem mem = .ok out)
    (relined : Relined mem out new) (plain : ¬ importPrefix.bytes <+: trimStart new) :
    StaysTogether key value w ↔ lastOf (bindings out) key = w.mem.value key := by
  obtain ⟨m, run, keeps⟩ := setProperty_full pk good full short file write
  have loads : ∀ f, LoadsTo (Function.update w.files propPathSystemBuild (some out)) f ↔
      ∀ k, f k = lastOf (bindings out) k := fun f => relined.loadsTo_iff free plain fits (by simp)
  have room : textSize ((bindings mem).map Prod.snd) ≤ blocksize := by
    have := textSize_bindings mem
    omega
  have before := agrees.value_eq good file free fits pk.starts
  constructor
  · rintro ⟨r, w', f, f', run', old, new, h⟩
    cases unique run run'
    have hf := (loadsTo_iff file free room).1 old key
    have hf' := (loads f').1 new key
    rcases h with ⟨bound, -⟩ | ⟨-, same⟩
    · -- the value in memory has not changed
      exfalso
      rw [keeps, good.getVal] at bound
      exact absurd (longer_of_exhausts full (Except.ok.inj bound)) (Nat.lt_irrefl _)
    · rw [← hf', same, hf, before]
  · intro h
    exact ⟨0, _, _, _, run, (loadsTo_iff file free room).2 fun _ => rfl, (loads _).2 fun _ => rfl,
      .inr ⟨keeps key, by rw [h, before]⟩⟩

/-- **A new key** is not read back exactly if it is appended to a line that is not blank. -/
theorem staysTogether_new (solid : Solid value.bytes) (unbound : w.mem.value key = none) (nul : 0 ∉ mem)
    {p u : List UInt8} (split : mem = p ++ u) (closed : Closed p) (line : chNewline ∉ u) :
    StaysTogether key value w ↔ ¬ Blank u := by
  obtain ⟨old, new⟩ := segments_append pk solid.noNewline split closed line
  have relined : Relined mem (mem ++ entryLine (key, value)) (u ++ (key.bytes ++ chEq :: value.bytes)) :=
    .append old new
  have plain := pk.not_import_append (free u (by rw [old]; simp)) (chEq :: value.bytes)
  have write : rewriteFor key value w.mem mem = .ok (mem ++ entryLine (key, value)) :=
    rewriteFor_new pk short unbound mem
  rw [staysTogether_iff pk good full short agrees file free fits write relined plain, unbound]
  -- what the file gave the key before
  have before := agrees.value_eq good file free fits pk.starts
  rw [unbound, bindings_split nul split closed line, lastOf_append, eq_comm, Option.or_eq_none_iff] at before
  obtain ⟨absentLine, absentBefore⟩ := before
  rw [bindings_append pk solid.noNewline nul split closed line, lastOf_append, absentBefore, Option.or_none]
  constructor
  · intro h blank
    have binds := lineBinding_written pk solid short blank (y := []) (by simp [Blank])
    rw [List.append_nil] at binds
    rw [binds] at h
    simp [lastOf_cons] at h
  · intro h
    have nulu : 0 ∉ u := fun h => nul (by simp [split, h])
    have zero : (0 : UInt8) ≠ chEq := by decide
    exact lineBinding_joined pk nulu (by simp [value.nulFree, zero]) h absentLine

omit full short in
/-- The file binds a key that the memory holds in one of its lines. -/
theorem exists_line_of_bound {old : CStr} (bound : w.mem.value key = some old) :
    ∃ line ∈ lines mem, lineBinding line = some (key, old) := by
  have h := agrees.value_eq good file free fits pk.starts
  rw [bound] at h
  obtain ⟨line, hl, hb⟩ := List.mem_filterMap.1 (mem_of_lastOf h.symm)
  exact ⟨line, hl, hb⟩

omit full short in
/-- The line that gives a bound key its value lies around the place of the key's text, or behind it. -/
theorem line_of_bound {old : CStr} (bound : w.mem.value key = some old) {p u v x z rest : List UInt8} {c : UInt8}
    (splice : Splice key old.strlen mem (p ++ u) c v (x ++ z)) (closed : Closed p) (line : chNewline ∉ u)
    (nul : 0 ∉ p ++ u) (ends : EndsLine z rest) : ∃ l, lineBinding l = some (key, old) ∧ 0 ∉ l ∧
      (l <:+: valueLine key u c v x ∨ l ∈ lines rest) := by
  obtain ⟨l, hl, hb⟩ := exists_line_of_bound pk good agrees file free fits bound
  refine ⟨l, hb, lines_nulFree hl, ?_⟩
  have absent := splice.not_infix (legalName.pos pk.legal)
  have nulp : 0 ∉ p := fun h => nul (List.mem_append_left _ h)
  have nulu : 0 ∉ u := fun h => nul (List.mem_append_right _ h)
  have nulKey : 0 ∉ u ++ key.bytes := by simp [nulu, key.nulFree]
  have nlKey : chNewline ∉ u ++ key.bytes := by simp [line, pk.noNewline]
  rw [splice.parts, List.append_assoc, lines_closed nulp closed] at hl
  rcases List.mem_append.1 hl with hl | hl
  · have none_ := lastOf_absent nulp fun h => absent (h.trans (List.prefix_append p u).isInfix)
    exact absurd rfl (lastOf_eq_none.1 none_ (key, old) (List.mem_filterMap.2 ⟨l, hl, hb⟩))
  · by_cases nlc : c = chNewline
    · have e : u ++ (key.bytes ++ c :: (v ++ (x ++ z))) = (u ++ key.bytes) ++ chNewline :: ((v ++ x) ++ z) := by
        simp [nlc]
      rw [e, lines_newline nulKey, segments_line nlKey] at hl
      rcases List.mem_append.1 hl with hl | hl
      · obtain rfl := List.mem_singleton.1 hl
        have none_ := lastOf_key_line pk nulu fun h => absent (h.trans (List.suffix_append p u).isInfix)
        rw [hb] at none_
        simp [lastOf_cons] at none_
      · rw [valueLine, if_pos nlc]
        exact mem_lines_append ends hl
    · have e : u ++ (key.bytes ++ c :: (v ++ (x ++ z))) = (u ++ (key.bytes ++ c :: (v ++ x))) ++ z := by simp
      rw [valueLine, if_neg nlc]
      rw [e] at hl
      exact mem_lines_append ends hl

/-- **A bound key** keeps its value exactly if a later line gives it back. -/
theorem staysTogether_bound (solid : Solid value.bytes) {old : CStr} (bound : w.mem.value key = some old)
    {p u v y : List UInt8} {c : UInt8} (splice : Splice key old.strlen mem (p ++ u) c v y) (closed : Closed p)
    (line : chNewline ∉ u) (nul : 0 ∉ p ++ u) (nulc : c ≠ 0)
    (plain : c = chNewline → ∀ x, x <+: y → ¬ importPrefix.bytes <+: trimStart (value.bytes ++ x)) :
    StaysTogether key value w ↔
      ∃ x rest, y = x ++ chNewline :: rest ∧ 0 ∉ x ∧ lastOf (bindings rest) key = some old := by
  obtain ⟨x₀, prefix_, relined, noImport⟩ := splice.relined pk closed line solid.noNewline
  have plain' : ¬ importPrefix.bytes <+: trimStart (valueLine key u c value.bytes x₀) := by
    by_cases nlc : c = chNewline
    · rw [valueLine, if_pos nlc]
      exact plain nlc x₀ prefix_
    · exact noImport nlc free
  have write : rewriteFor key value w.mem mem = .ok (p ++ u ++ (key.bytes ++ c :: (value.bytes ++ y))) := by
    rw [rewriteFor, bound]
    exact rewrite_splice splice value
  rw [staysTogether_iff pk good full short agrees file free fits write relined plain', bound]
  constructor
  · intro h
    have absent := splice.not_infix (legalName.pos pk.legal)
    rcases bindings_splice pk nul closed line absent c y with ⟨log, none_, read⟩ | ⟨x, z, rest, log, h'⟩
    · rw [read _ value.nulFree solid.noNewline, none_] at h
      cases h
    · rw [h'.read _ value.nulFree solid.noNewline, lastOf_append, lastOf_append, h'.absent, Option.or_none] at h
      obtain rfl := h'.line
      cases hrest : lastOf (bindings rest) key with
      | some a =>
        rw [hrest] at h
        obtain rfl : a = old := by simpa using h
        rcases h'.ends with ⟨-, rfl⟩ | rfl
        · rw [bindings_empty] at hrest
          cases hrest
        · exact ⟨x, rest, rfl, h'.clean, hrest⟩
      | none =>
        -- the line of the new value would have to bind the old one, but it has too many solid bytes
        exfalso
        rw [hrest, Option.none_or] at h
        have binds : lineBinding (valueLine key u c value.bytes x) = some (key, old) := by
          simpa using mem_of_lastOf h
        obtain ⟨l, hb, null, part | behind⟩ := line_of_bound pk good agrees file free fits bound splice closed line
          nul h'.ends
        · have shorter : v.length < value.strlen := by
            rw [splice.length]
            exact longer_of_exhausts full bound
          exact valueLine_longer solid shorter (h'.nulFree _ value.nulFree) null part hb binds
        · exact lastOf_bindings_of_mem behind hb hrest
  · rintro ⟨x, rest, rfl, nulx, hrest⟩
    have nulLine : 0 ∉ p ++ u ++ (key.bytes ++ c :: (value.bytes ++ x)) := by
      have : 0 ∉ p ∧ 0 ∉ u := by simpa using nul
      simp [this, key.nulFree, Ne.symm nulc, value.nulFree, nulx]
    have e : p ++ u ++ (key.bytes ++ c :: (value.bytes ++ (x ++ chNewline :: rest))) =
        (p ++ u ++ (key.bytes ++ c :: (value.bytes ++ x))) ++ chNewline :: rest := by simp
    rw [e, bindings, lines_newline nulLine, List.filterMap_append, lastOf_append]
    simp only [bindings] at hrest
    rw [hrest]
    rfl

end

/-! ## The call -/

/-- Without `build.prop` the call closes a null pointer. -/
theorem not_staysTogether_of_missing {w : World} (good : Good w.mem) {key value : CStr} (pk : Persistent key)
    (short : value.strlen < propValueMax) (missing : w.files propPathSystemBuild = none) :
    ¬ StaysTogether key value w := by
  rintro ⟨r, w', f, f', run, -⟩
  have accepted : refuses key value w.mem = false := by simp [refuses, pk.ne_ro, Nat.not_le.2 short]
  have fault : fileUpdate key value w = .error .nullDeref := by
    rw [fileUpdate, if_pos pk.starts]
    cases w.mem.value key <;> simp [opPropFile, missing]
  rw [setProperty_eq good pk.legal, accepted, if_neg (by simp), fault] at run
  cases run

section

variable {key : CStr} {w : World} {mem : List UInt8} (file : w.files propPathSystemBuild = some mem)

include file

/-- What holds of the content of `build.prop` holds of this content. -/
theorem exists_file_iff {P : List UInt8 → Prop} : (∃ mem, w.files propPathSystemBuild = some mem ∧ P mem) ↔ P mem := by
  simp [file]

theorem hidden_new (unbound : w.mem.value key = none) : Hidden key w ↔ 0 ∈ mem := by
  rw [Hidden, exists_file_iff file, unbound]

theorem shadowed_new (unbound : w.mem.value key = none) :
    Shadowed key w ↔ ∃ p u, mem = p ++ u ∧ Closed p ∧ chNewline ∉ u ∧ ¬ Blank u := by
  rw [Shadowed, exists_file_iff file, unbound]

theorem hidden_bound {old : CStr} (bound : w.mem.value key = some old) :
    Hidden key w ↔ ∃ p c v y, Splice key old.strlen mem p c v y ∧ (0 ∈ p ∨ c = 0) := by
  rw [Hidden, exists_file_iff file, bound]

theorem shadowed_bound {old : CStr} (bound : w.mem.value key = some old) :
    Shadowed key w ↔ ∃ p c v x rest, Splice key old.strlen mem p c v (x ++ chNewline :: rest) ∧ 0 ∉ x ∧
      lastOf (bindings rest) key = some old := by
  rw [Shadowed, exists_file_iff file, bound]

end

section

variable {key : CStr} (pk : Persistent key) {w : World} (good : Good w.mem) {value : CStr}
  (full : exhausts key value w.mem) (short : value.strlen < propValueMax)
  (agrees : Agrees w) {mem : List UInt8} (file : w.files propPathSystemBuild = some mem)
  (free : ImportFree mem) (fits : valueSize mem + propValueMax ≤ blocksize) (solid : Solid value.bytes)

include pk good full short agrees file free fits solid

/-- A new key. -/
theorem staysTogether_iff_new (unbound : w.mem.value key = none) :
    StaysTogether key value w ↔ Hidden key w ∨ Shadowed key w := by
  by_cases nul : 0 ∈ mem
  · have hidden : Hidden key w := (hidden_new file unbound).2 nul
    exact ⟨fun _ => .inl hidden, fun _ => hidden.together pk good full short agrees⟩
  · rw [hidden_new file unbound, shadowed_new file unbound, or_iff_right nul]
    constructor
    · intro h
      obtain ⟨p, u, split, closed, line⟩ := exists_closed mem
      exact ⟨p, u, split, closed, line,
        (staysTogether_new pk good full short agrees file free fits solid unbound nul split closed line).1 h⟩
    · rintro ⟨p, u, split, closed, line, notBlank⟩
      exact (staysTogether_new pk good full short agrees file free fits solid unbound nul split closed line).2 notBlank

/-- A bound key whose text is found. -/
theorem staysTogether_iff_found {old : CStr} (bound : w.mem.value key = some old)
    (plain : ∀ p v y, Splice key old.strlen mem p chNewline v y →
      ∀ x, x <+: y → ¬ importPrefix.bytes <+: trimStart (value.bytes ++ x))
    {p v y : List UInt8} {c : UInt8} (splice : Splice key old.strlen mem p c v y) (nul : 0 ∉ p) (nulc : c ≠ 0) :
    StaysTogether key value w ↔
      ∃ x rest, y = x ++ chNewline :: rest ∧ 0 ∉ x ∧ lastOf (bindings rest) key = some old := by
  obtain ⟨p, u, rfl, closed, line⟩ := exists_closed p
  exact staysTogether_bound pk good full short agrees file free fits solid bound splice closed line nul nulc
    fun e => plain _ v y (e ▸ splice)

/-- A bound key. -/
theorem staysTogether_iff_bound {old : CStr} (bound : w.mem.value key = some old)
    (plain : ∀ p v y, Splice key old.strlen mem p chNewline v y →
      ∀ x, x <+: y → ¬ importPrefix.bytes <+: trimStart (value.bytes ++ x)) :
    StaysTogether key value w ↔ Hidden key w ∨ Shadowed key w := by
  have found : ∀ {p v y : List UInt8} {c : UInt8}, Splice key old.strlen mem p c v y → ¬ (0 ∈ p ∨ c = 0) →
      (StaysTogether key value w ↔
        ∃ x rest, y = x ++ chNewline :: rest ∧ 0 ∉ x ∧ lastOf (bindings rest) key = some old) :=
    fun splice nul => staysTogether_iff_found pk good full short agrees file free fits solid bound plain splice
      (fun h => nul (.inl h)) fun h => nul (.inr h)
  constructor
  · intro h
    obtain ⟨p, u, c, v, y, splice, -, -⟩ : ∃ p u c v y, Splice key old.strlen mem (p ++ u) c v y ∧
        Closed p ∧ chNewline ∉ u := by
      obtain ⟨r, w', f, f', run, -⟩ := h
      exact exists_splice pk good file bound short run
    by_cases nul : 0 ∈ p ++ u ∨ c = 0
    · exact .inl ((hidden_bound file bound).2 ⟨_, c, v, y, splice, nul⟩)
    · obtain ⟨x, rest, rfl, clean, last⟩ := (found splice nul).1 h
      exact .inr ((shadowed_bound file bound).2 ⟨_, c, v, x, rest, splice, clean, last⟩)
  · rintro (hidden | shadowed)
    · exact hidden.together pk good full short agrees
    · obtain ⟨p, c, v, x, rest, splice, clean, last⟩ := (shadowed_bound file bound).1 shadowed
      by_cases nul : 0 ∈ p ∨ c = 0
      · exact ((hidden_bound file bound).2 ⟨p, c, v, _, splice, nul⟩).together pk good full short agrees
      · exact (found splice nul).2 ⟨x, rest, rfl, clean, last⟩

end

/-- **A call that exhausts the pool.** In a state that the service reaches, with memory and file in agreement, take
a persistent key and a short value without white space for which `put` exhausts the pool. If a NUL hides the place
that is written, memory and file stay together. If there are no imports and the values fit, they stay together
exactly if a NUL hides the place, or the lines around it shadow what is written. -/
theorem setProperty_exhausted {w : World} (reach : Reachable w) (agrees : Agrees w) {key value : CStr}
    (legal : legalName key) (persist : startsWith key persistPrefix) (solid : Solid value.bytes)
    (short : value.strlen < propValueMax) (full : exhausts key value w.mem) :
    (Hidden key w → StaysTogether key value w) ∧
      (Legible key value w → (StaysTogether key value w ↔ Hidden key w ∨ Shadowed key w)) := by
  have good := reach.good
  have pk : Persistent key := ⟨legal, persist⟩
  refine ⟨fun hidden => hidden.together pk good full short agrees, fun legible => ?_⟩
  cases file : w.files propPathSystemBuild with
  | none =>
    refine ⟨fun h => absurd h (not_staysTogether_of_missing good pk short file), ?_⟩
    rintro (⟨mem, some_, -⟩ | ⟨mem, some_, -⟩) <;> rw [file] at some_ <;> cases some_
  | some mem =>
    obtain ⟨free, fits, plain⟩ := legible mem file
    cases bound : w.mem.value key with
    | none => exact staysTogether_iff_new pk good full short agrees file free fits solid bound
    | some old =>
      exact staysTogether_iff_bound pk good full short agrees file free fits solid bound fun p v y =>
        plain old p v y bound

/-- A reachable state whose pool has one byte left. -/
theorem exists_filled : ∀ n ≤ 90, ∃ w, Reachable w ∧ Filled n w
  | 0, _ => ⟨_, .load (loadAllProps_emptyBuild .fresh), filled_zero⟩
  | n + 1, hn => by
    obtain ⟨w, reach, h⟩ := exists_filled n (by omega)
    obtain ⟨w', ret, h'⟩ := h.step (by omega)
    exact ⟨w', .set reach ret, h'⟩

theorem Filled.agrees {n : Nat} {w : World} (h : Filled n w) : Agrees w := by
  have file : w.files propPathSystemBuild = some [] := by rw [h.files]; simp [emptyBuild]
  have nothing := (@loadsTo_iff _ _ file (by decide) (by decide) fun _ => none).2 fun k => by rw [bindings_empty]; rfl
  refine ⟨_, nothing, fun k persist => ?_⟩
  have ne : k ≠ fillKey := by
    rintro rfl
    revert persist
    decide
  rw [h.good.getVal, h.value, if_neg (fun e => ne e.1)]

theorem Filled.unbound {n : Nat} {w : World} (h : Filled n w) : w.mem.value (.lit "persist.k") = none := by
  have ne : lit "persist.k" ≠ fillKey := by decide
  rw [h.value, if_neg fun e => ne e.1]

theorem Filled.full {w : World} (h : Filled 90 w) : Property.exhausts (.lit "persist.k") (.lit "1") w.mem :=
  Filled.exhausts h (by simp [needsSlot, h.unbound]) (by decide)

/-- A new key in a full pool. -/
theorem setProperty_exhausted_new : ∃ w, Reachable w ∧
    (Hidden (.lit "persist.k") w → StaysTogether (.lit "persist.k") (.lit "1") w) ∧
      (Legible (.lit "persist.k") (.lit "1") w →
        (StaysTogether (.lit "persist.k") (.lit "1") w ↔ Hidden (.lit "persist.k") w ∨ Shadowed (.lit "persist.k") w)) := by
  obtain ⟨w, reach, h⟩ := exists_filled 90 le_rfl
  exact ⟨w, reach, setProperty_exhausted reach h.agrees (by decide +kernel) (by decide) (by decide +kernel)
    (by decide +kernel) h.full⟩

/-- **Memory and file disagree**: the new key is in the file, and not in memory. -/
theorem full_pool_splits : ¬ ∀ (w : World) (key value : CStr), Reachable w → Agrees w → legalName key →
    startsWith key persistPrefix → Solid value.bytes → value.strlen < propValueMax → exhausts key value w.mem →
      StaysTogether key value w := by
  intro always
  obtain ⟨w, reach, h⟩ := exists_filled 90 le_rfl
  have legal : legalName (.lit "persist.k") := by decide +kernel
  have solid : Solid (lit "1").bytes := by decide +kernel
  have short : (lit "1").strlen < propValueMax := by decide +kernel
  have together := always w (.lit "persist.k") (.lit "1") reach h.agrees legal (by decide) solid short h.full
  have file : w.files propPathSystemBuild = some [] := by rw [h.files]; simp [emptyBuild]
  exact (staysTogether_new ⟨legal, by decide⟩ h.good h.full short h.agrees file (by decide) (by decide) solid h.unbound
    (p := []) (u := []) (by simp) rfl (.inl rfl) (by simp)).1 together (by simp [Blank])

end CodeBackup.Property
