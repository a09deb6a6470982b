import CodeBackup.Property.Reread

/-!
# Updating a bound key

`set_property` on a persistent key that is bound replaces bytes of `build.prop`
where the key's text stands first. A load of the new file gives the key its new
value, and every other key what it had, for every value exactly if the text
stands on its own line as `key=value`, the bytes that are replaced end where the
rest of their line is blank, no later line binds the key, and the lines that
vanish with them do not count (`Updatable`).
-/

namespace CodeBackup.Property

open C C.Outcome CStr Binding

/-- `set_property` returns, and what a load of `build.prop` gives changes at the key only. -/
def UpdateKeeps (key value : CStr) (w : World) : Prop :=
  ∃ r w', setProperty key value w = .ok (r, w') ∧
    ∃ f, LoadsTo w.files f ∧ LoadsTo w'.files (Function.update f key (some value))

/-- Where an update of the key can do no harm: `build.prop` is `p`, whole lines, then a line that begins with
blanks `u`, the key and `'='`; behind the `old` bytes that are replaced, blanks `x` end the line; `rest` is what
follows, and does not bind the key; and no other key depends on the replaced bytes. -/
structure Updatable (key : CStr) (old : Nat) (mem p u w x z rest : List UInt8) : Prop where
  splice : Splice key old mem (p ++ u) chEq w (x ++ z)
  nulFree : 0 ∉ p
  closed : Closed p
  line : chNewline ∉ u
  before : Blank u
  behind : Blank x
  noNewline : chNewline ∉ x
  ends : EndsLine z rest
  last : lastOf (bindings rest) key = none
  others : ∀ k, k ≠ key → lastOf (bindings mem) k = lastOf (bindings (p ++ rest)) k

section

variable {key : CStr} (pk : Persistent key) {w : World} (good : Good w.mem) {mem : List UInt8}
  (file : w.files propPathSystemBuild = some mem) (free : ImportFree mem)
  (fits : valueSize mem + propValueMax ≤ blocksize) {old : CStr} (bound : w.mem.value key = some old)

include good file bound pk

/-- A call returns the rewritten file. -/
theorem setProperty_splice {p v y : List UInt8} {c : UInt8} (h : Splice key old.strlen mem p c v y) {value : CStr}
    (short : value.strlen < propValueMax) : ∃ w', setProperty key value w = .ok (0, w') ∧
      w'.files propPathSystemBuild = some (p ++ (key.bytes ++ c :: (value.bytes ++ y))) := by
  obtain ⟨m, -, run⟩ := setProperty_persistent good pk short file
  rw [rewriteFor, bound] at run
  simp only [rewrite_splice h, ok_bind] at run
  exact ⟨_, run, by simp⟩

/-- A call that returns has found a place. -/
theorem exists_splice {value : CStr} (short : value.strlen < propValueMax) {r : Int} {w' : World}
    (run : setProperty key value w = .ok (r, w')) : ∃ p u c v y, Splice key old.strlen mem (p ++ u) c v y ∧
      Closed p ∧ chNewline ∉ u := by
  obtain ⟨m, -, run'⟩ := setProperty_persistent good pk short file
  rw [run', rewriteFor, bound] at run
  obtain ⟨out, hout, -⟩ := bind_eq_ok.1 run
  obtain ⟨p, c, v, y, h⟩ := splice_of_rewrite (legalName.pos pk.legal) hout
  obtain ⟨p, u, rfl, closed, line⟩ := exists_closed p
  exact ⟨p, u, c, v, y, h, closed, line⟩

include free fits

/-- What a load of the rewritten file gives, if the value makes no import line. -/
theorem loadsTo_splice {p u v y : List UInt8} {c : UInt8} (h : Splice key old.strlen mem (p ++ u) c v y)
    (closed : Closed p) (line : chNewline ∉ u) {value : CStr} (solid : Solid value.bytes)
    (short : value.strlen < propValueMax)
    (plain : c = chNewline → ∀ x, x <+: y → ¬ importPrefix.bytes <+: trimStart (value.bytes ++ x)) :
    ∃ w', setProperty key value w = .ok (0, w') ∧ ∀ f, LoadsTo w'.files f ↔
      ∀ k, f k = lastOf (bindings (p ++ u ++ (key.bytes ++ c :: (value.bytes ++ y)))) k := by
  obtain ⟨w', run, file'⟩ := setProperty_splice pk good file bound h short
  obtain ⟨x, hx, relined, noImport⟩ := h.relined pk closed line solid.noNewline
  refine ⟨w', run, fun f => relined.loadsTo_iff free ?_ fits file'⟩
  by_cases nlc : c = chNewline
  · rw [valueLine, if_pos nlc]
    exact plain nlc x hx
  · exact noImport nlc free

/-- **Enough**: at such a place every update keeps what it should. -/
theorem Updatable.keeps {p u v x z rest : List UInt8} (h : Updatable key old.strlen mem p u v x z rest) {value : CStr}
    (solid : Solid value.bytes) (short : value.strlen < propValueMax) : UpdateKeeps key value w := by
  have ne : chEq ≠ chNewline := by decide
  obtain ⟨w', run, loads⟩ := loadsTo_splice pk good file free fits bound h.splice h.closed h.line solid short
    (fun e => absurd e ne)
  have room : textSize ((bindings mem).map Prod.snd) ≤ blocksize := by
    have := textSize_bindings mem
    omega
  have zero : (0 : UInt8) ≠ chEq := by decide
  have nul : 0 ∉ u ++ (key.bytes ++ chEq :: (value.bytes ++ x)) := by
    simp [h.before.nulFree, h.behind.nulFree, key.nulFree, value.nulFree, zero]
  have nl : chNewline ∉ u ++ (key.bytes ++ chEq :: (value.bytes ++ x)) := by
    simp [h.line, h.noNewline, pk.noNewline, solid.noNewline, Ne.symm ne]
  have new : bindings (p ++ u ++ (key.bytes ++ chEq :: (value.bytes ++ (x ++ z)))) =
      (segments p).dropLast.filterMap lineBinding ++ ((key, value) :: bindings rest) := by
    have e : p ++ u ++ (key.bytes ++ chEq :: (value.bytes ++ (x ++ z))) =
        p ++ (u ++ (key.bytes ++ chEq :: (value.bytes ++ x)) ++ z) := by simp
    rw [e, bindings_closed h.nulFree h.closed, bindings_line nul nl h.ends,
      lineBinding_written pk solid short h.before h.behind]
    rfl
  refine ⟨0, w', run, _, (loadsTo_iff file free room).2 fun k => rfl, (loads _).2 fun k => ?_⟩
  rw [new, lastOf_append, lastOf_cons]
  by_cases hk : k = key
  · simp [hk, h.last]
  · rw [Function.update_of_ne hk, h.others k hk, bindings_closed h.nulFree h.closed, lastOf_append,
      if_neg (Ne.symm hk), Option.or_none]

/-- A value of one byte, which begins no import and no key. -/
structure Probe (value : CStr) (t : UInt8) : Prop where
  bytes : value.bytes = [t]
  solid : isspace t = false
  noKey : t ≠ 112
  noImport : t ≠ 105
  noEq : t ≠ chEq

omit free fits file bound good pk in
theorem Probe.value_solid {value : CStr} {t : UInt8} (probe : Probe value t) : Solid value.bytes := by
  simp [Solid, probe.bytes, probe.solid]

omit free fits file bound good pk in
theorem Probe.short {value : CStr} {t : UInt8} (probe : Probe value t) : value.strlen < propValueMax := by
  simp [strlen, probe.bytes, propValueMax]

omit free fits file bound good in
/-- Where a line binds the key to a probe. -/
theorem Probe.place {value : CStr} {t : UInt8} (probe : Probe value t) {u x : List UInt8} {c : UInt8}
    (absent : ¬ key.bytes <:+: u) (nul : 0 ∉ valueLine key u c [t] x)
    (binds : lineBinding (valueLine key u c [t] x) = some (key, value)) : c = chEq ∧ Blank u ∧ Blank x := by
  obtain ⟨u', b, b', b'', hu, hb, hb', hb'', e⟩ := lineBinding_shape nul binds
  rw [probe.bytes] at e
  unfold valueLine at e
  split at e
  · -- the probe is no part of the key
    exfalso
    cases u' with
    | nil =>
      obtain ⟨k, hk⟩ := pk.exists_cons
      rw [hk] at e
      exact probe.noKey (by simpa using congrArg List.head? e)
    | cons s u' =>
      obtain rfl : t = s := by simpa using congrArg List.head? e
      exact absurd (hu t (by simp)) (by simp [probe.solid])
  · rcases key_place pk hu hb (p := u) (z := c :: ([t] ++ x)) e.symm with rfl | ⟨d, rfl, -⟩
    · have e' : c :: t :: x = b ++ chEq :: (b' ++ t :: b'') := by simpa using e
      cases b with
      | nil =>
        obtain ⟨rfl, e₂⟩ : c = chEq ∧ t :: x = b' ++ t :: b'' := by simpa using e'
        cases b' with
        | nil =>
          obtain rfl : x = b'' := by simpa using e₂
          exact ⟨rfl, hu, hb''⟩
        | cons s b' =>
          obtain rfl : t = s := by simpa using congrArg List.head? e₂
          exact absurd (hb' t (by simp)) (by simp [probe.solid])
      | cons s b =>
        obtain ⟨-, e'⟩ : c = s ∧ t :: x = b ++ chEq :: (b' ++ t :: b'') := by simpa using e'
        cases b with
        | nil => exact absurd (by simpa using congrArg List.head? e') probe.noEq
        | cons s' b =>
          obtain rfl : t = s' := by simpa using congrArg List.head? e'
          exact absurd (hb t (by simp)) (by simp [probe.solid])
    · exact absurd (List.infix_append' _ _ _) absent

/-- What a load gives after an update to a probe that keeps what it should. -/
theorem Probe.reads {value : CStr} {t : UInt8} (probe : Probe value t) {p u v y : List UInt8} {c : UInt8}
    (h : Splice key old.strlen mem (p ++ u) c v y) (closed : Closed p) (line : chNewline ∉ u)
    (keeps : UpdateKeeps key value w) (k : CStr) :
    lastOf (bindings (p ++ u ++ (key.bytes ++ c :: ([t] ++ y)))) k =
      if k = key then some value else lastOf (bindings mem) k := by
  obtain ⟨w₁, run₁, loads₁⟩ := loadsTo_splice pk good file free fits bound h closed line probe.value_solid probe.short
    (fun _ x _ => by
      rw [probe.bytes, importPrefix_bytes, List.singleton_append, trimStart_cons probe.solid, List.cons_prefix_cons]
      exact fun h => probe.noImport h.1.symm)
  obtain ⟨r, w₂, run₂, f, loads, loads₂⟩ := keeps
  cases unique run₁ run₂
  have room : textSize ((bindings mem).map Prod.snd) ≤ blocksize := by
    have := textSize_bindings mem
    omega
  have before := (loadsTo_iff file free room).1 loads k
  have after := (loads₁ _).1 loads₂ k
  rw [probe.bytes] at after
  rw [← after, ← before, Function.update_apply]

/-- **Needed**: if the updates to two probes keep what they should, the place is such. -/
theorem updatable_of_probes {value value' : CStr} {t t' : UInt8} (probe : Probe value t) (probe' : Probe value' t')
    (ne : value ≠ value') (keeps : UpdateKeeps key value w) (keeps' : UpdateKeeps key value' w) :
    ∃ p u v x z rest, Updatable key old.strlen mem p u v x z rest := by
  obtain ⟨p, u, c, v, y, h, closed, line⟩ : ∃ p u c v y, Splice key old.strlen mem (p ++ u) c v y ∧
      Closed p ∧ chNewline ∉ u := by
    obtain ⟨r, w', run, -⟩ := keeps
    exact exists_splice pk good file bound probe.short run
  have reads := probe.reads pk good file free fits bound h closed line keeps
  have reads' := probe'.reads pk good file free fits bound h closed line keeps'
  have absent := h.not_infix (legalName.pos pk.legal)
  have nul : 0 ∉ p ++ u := fun nul => ne <| by
    have same : bindings (p ++ u ++ (key.bytes ++ c :: ([t] ++ y))) =
        bindings (p ++ u ++ (key.bytes ++ c :: ([t'] ++ y))) := by
      rw [bindings, bindings, lines_nul_congr nul]
    have e := (reads key).symm.trans ((congrArg (lastOf · key) same).trans (reads' key))
    simpa using e
  have free_ : ∀ {value : CStr} {t : UInt8}, Probe value t → 0 ∉ [t] ∧ chNewline ∉ [t] := fun {value t} probe =>
    ⟨probe.bytes ▸ value.nulFree, probe.bytes ▸ probe.value_solid.noNewline⟩
  rcases bindings_splice pk nul closed line absent c y with ⟨log, none_, read⟩ | ⟨x, z, rest, log, h'⟩
  · have := reads key
    rw [read [t] (free_ probe).1 (free_ probe).2, none_] at this
    simp at this
  have split : ∀ {value : CStr} {t : UInt8}, Probe value t → ∀ k,
      lastOf (bindings (p ++ u ++ (key.bytes ++ c :: ([t] ++ y)))) k =
        (lastOf (bindings rest) k).or ((lastOf (lineBinding (valueLine key u c [t] x)).toList k).or (lastOf log k)) :=
    fun probe k => by
      rw [h'.read _ (free_ probe).1 (free_ probe).2, lastOf_append, lastOf_append, Option.or_assoc]
  -- a later line that binds the key would hide one of the two probes
  have last : lastOf (bindings rest) key = none := by
    by_contra bound
    obtain ⟨a, ha⟩ := Option.ne_none_iff_exists'.1 bound
    have e := (split probe key).symm.trans (reads key)
    have e' := (split probe' key).symm.trans (reads' key)
    rw [ha] at e e'
    exact ne (by simpa using e.symm.trans e')
  have binds : lineBinding (valueLine key u c [t] x) = some (key, value) := by
    have e := (split probe key).symm.trans (reads key)
    rw [last, h'.absent, Option.none_or, Option.or_none, if_pos rfl] at e
    simpa using mem_of_lastOf e
  have nulLine := h'.nulFree [t] (free_ probe).1
  obtain ⟨rfl, before, behind⟩ :=
    probe.place pk (fun i => absent (i.trans (List.suffix_append p u).isInfix)) nulLine binds
  have nulp : 0 ∉ p := fun hp => nul (List.mem_append_left _ hp)
  obtain rfl := h'.line
  refine ⟨p, u, v, x, z, rest, h, nulp, closed, line, before, behind, h'.noNewline, h'.ends, last, fun k hk => ?_⟩
  have e := (split probe k).symm.trans (reads k)
  rw [if_neg hk, binds] at e
  rw [← e, bindings_closed nulp closed, lastOf_append, h'.before (by decide)]
  simp [lastOf_cons, Ne.symm hk]

end

/-- What `load_all_props` binds, for files without imports whose values fit the pool. -/
theorem loadAllProps_logged {files : Files} {content content' : List UInt8} {depth : Nat} {w : World}
    (build : files propPathSystemBuild = some content) (ota : files propPathOtaConfig = some content')
    (free : ImportFree content) (free' : ImportFree content')
    (fits : valueSize content + valueSize content' ≤ blocksize) (run : loadAllProps depth ⟨.fresh, files⟩ = .ok w) :
    Good w.mem ∧ w.files = files ∧ ∀ k, w.mem.value k = lastOf (bindings content ++ bindings content') k := by
  have size := textSize_bindings content
  have size' := textSize_bindings content'
  obtain ⟨good, -, sameFiles⟩ := loadAllProps_good vacant_fresh.good run
  refine ⟨good, sameFiles, fun k => ?_⟩
  cases depth with
  | zero => cases run
  | succ depth =>
    obtain ⟨m₁, run₁, log₁⟩ := @load_logged files depth _ _ _ vacant_fresh.good build free
      (by rw [vacant_fresh.remain]; omega)
    have remain₁ := log₁.remain
    rw [vacant_fresh.remain] at remain₁
    obtain ⟨m₂, run₂, log₂⟩ := @load_logged files depth _ _ _ log₁.good ota free' (by omega)
    simp only [loadAllProps, run₁, run₂, ok_bind] at run
    cases run
    rw [log₂.value, log₁.value, vacant_fresh.value, Option.or_none, lastOf_append]

/-- The keys that `load_all_props` binds are legal. -/
theorem lastOf_bindings_legal {content : List UInt8} {key value : CStr}
    (h : lastOf (bindings content) key = some value) : legalName key := by
  obtain ⟨line, -, hb⟩ := List.mem_filterMap.1 (mem_of_lastOf h)
  exact lineBinding_legal hb

/-- **Updating a persistent key.** Take any contents of `build.prop` and `recovery.conf` without imports, whose
values fit the pool together with one more, and a persistent key that `load_all_props` has bound. Every update of
the key to a short value without white space keeps what it should exactly if `build.prop` is `Updatable` there. -/
theorem updates_keep {files : Files} {content content' : List UInt8} {depth : Nat} {w : World}
    (build : files propPathSystemBuild = some content) (ota : files propPathOtaConfig = some content')
    (free : ImportFree content) (free' : ImportFree content')
    (fits : valueSize content + valueSize content' + propValueMax ≤ blocksize)
    (loaded : loadAllProps depth ⟨.fresh, files⟩ = .ok w) {key old : CStr} (persist : startsWith key persistPrefix)
    (bound : getVal key w.mem = .ok (some old)) :
    (∀ value : CStr, Solid value.bytes → value.strlen < propValueMax → UpdateKeeps key value w) ↔
      ∃ p u v x z rest, Updatable key old.strlen content p u v x z rest := by
  obtain ⟨good, sameFiles, value⟩ := loadAllProps_logged build ota free free' (by omega) loaded
  have bound' := good.value_of_getVal bound
  have legal : legalName key := by
    rw [value, lastOf_append, Option.or_eq_some_iff] at bound'
    rcases bound' with h | ⟨-, h⟩
    · exact lastOf_bindings_legal h
    · exact lastOf_bindings_legal h
  have pk : Persistent key := ⟨legal, persist⟩
  have file : w.files propPathSystemBuild = some content := by rw [sameFiles, build]
  have fits' : valueSize content + propValueMax ≤ blocksize := by omega
  constructor
  · intro keeps
    have probe : Probe (.lit "z") 122 := ⟨by decide, by decide, by decide, by decide, by decide⟩
    have probe' : Probe (.lit "y") 121 := ⟨by decide, by decide, by decide, by decide, by decide⟩
    exact updatable_of_probes pk good file free fits' bound' probe probe' (by decide)
      (keeps _ probe.value_solid probe.short) (keeps _ probe'.value_solid probe'.short)
  · rintro ⟨p, u, v, x, z, rest, h⟩ value solid short
    exact h.keeps pk good file free fits' bound' solid short

/-- A file system with these two files. -/
def twoFiles (build ota : CStr) : Files :=
  Function.update (Function.update (fun _ => none) propPathOtaConfig (some ota.bytes)) propPathSystemBuild
    (some build.bytes)

/-- A key whose text also stands in the other file. -/
theorem updates_keep_line : ∃ w, loadAllProps 1 ⟨.fresh, twoFiles (.lit "ro.b=2\n persist.a=1\n") (.lit "persist.c=1")⟩ = .ok w ∧
    ((∀ value : CStr, Solid value.bytes → value.strlen < propValueMax → UpdateKeeps (.lit "persist.a") value w) ↔
      ∃ p u v x z rest, Updatable (.lit "persist.a") (lit "1").strlen (lit "ro.b=2\n persist.a=1\n").bytes p u v x z rest) :=
  ⟨_, rfl, @updates_keep (twoFiles (.lit "ro.b=2\n persist.a=1\n") (.lit "persist.c=1")) _
    (lit "persist.c=1").bytes 1 _ (by decide) (by decide) (by decide) (by decide) (by decide) rfl _ _ (by decide)
    (by decide)⟩

/-- **Blanks before `'='`**: the update overwrites the `'='` and leaves the value. -/
theorem update_loses_blanks : ¬ ∀ (files : Files) (content content' : List UInt8) (depth : Nat) (w : World)
    (key old value : CStr), files propPathSystemBuild = some content → files propPathOtaConfig = some content' →
      ImportFree content → ImportFree content' → valueSize content + valueSize content' + propValueMax ≤ blocksize →
      loadAllProps depth ⟨.fresh, files⟩ = .ok w → startsWith key persistPrefix →
      getVal key w.mem = .ok (some old) → Solid value.bytes → value.strlen < propValueMax →
      UpdateKeeps key value w := by
  intro always
  obtain ⟨r, w', run, f, -, loads⟩ := always (twoFiles (.lit "persist.a = 1\n") (.lit "")) _ _ 1 _ (.lit "persist.a")
    (.lit "1") (.lit "2") rfl rfl (by decide) (by decide) (by decide) rfl (by decide) (by decide) (by decide +kernel)
    (by decide +kernel)
  cases run
  have file := (@loadsTo_iff _ (lit "persist.a 2 1\n").bytes (by decide) (by decide)
    (by decide) _).1 loads (.lit "persist.a")
  rw [Function.update_self] at file
  revert file
  decide +kernel

end CodeBackup.Property
