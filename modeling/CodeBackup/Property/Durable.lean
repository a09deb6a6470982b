import CodeBackup.Property.Exhaust
import CodeBackup.Property.Reread

/-!
# Durability

What a process that only calls `set_property` leaves in `build.prop`. As long
as every rewrite finds the key's text first at the start of the key's own line
(`InPlace`), the file is the list of the persistent bindings, a line each
(`Mirrored`), and a load of it gives them back (`setRun_durable`). The search
looks at bytes, not at lines, so a key whose text stands earlier in the file
breaks this (`setRun_not_durable`).
-/

namespace CodeBackup.Property

open C C.Outcome Rbtree ColorTree CStr Binding Run

/-! ## The file as a list of bindings -/

/-- The line that the service writes for a binding. -/
def entryLine (p : CStr × CStr) : List UInt8 := p.1.bytes ++ chEq :: (p.2.bytes ++ [chNewline])

/-- A file that holds a line for each binding of a list. -/
def render (log : List (CStr × CStr)) : List UInt8 := log.flatMap entryLine

/-- A binding that the service may write to `build.prop`. -/
structure Written (p : CStr × CStr) : Prop where
  key : Persistent p.1
  short : p.2.strlen < propValueMax
  solid : Solid p.2.bytes

@[simp] theorem render_nil : render [] = [] := rfl

@[simp] theorem render_cons (p : CStr × CStr) (log : List (CStr × CStr)) :
    render (p :: log) = entryLine p ++ render log := rfl

theorem render_append (log log' : List (CStr × CStr)) : render (log ++ log') = render log ++ render log' :=
  List.flatMap_append

theorem Written.body {p : CStr × CStr} (h : Written p) :
    0 ∉ p.1.bytes ++ chEq :: p.2.bytes ∧ chNewline ∉ p.1.bytes ++ chEq :: p.2.bytes := by
  have zero : (0 : UInt8) ≠ chEq := by decide
  have newline : chNewline ≠ chEq := by decide
  simp [p.1.nulFree, p.2.nulFree, h.key.noNewline, h.solid.noNewline, zero, newline]

theorem Written.binding {p : CStr × CStr} (h : Written p) :
    lineBinding (p.1.bytes ++ chEq :: p.2.bytes) = some p := by
  have := lineBinding_written h.key h.solid h.short (u := []) (y := []) (by simp [Blank]) (by simp [Blank])
  simpa using this

theorem lines_render {log : List (CStr × CStr)} (h : ∀ p ∈ log, Written p) (x : List UInt8) :
    lines (render log ++ x) = (log.map fun p => p.1.bytes ++ chEq :: p.2.bytes) ++ lines x := by
  induction log with
  | nil => simp
  | cons p log ih =>
    obtain ⟨nul, nl⟩ := (h p (by simp)).body
    have whole : render (p :: log) ++ x =
        (p.1.bytes ++ chEq :: p.2.bytes) ++ chNewline :: (render log ++ x) := by simp [entryLine]
    rw [whole, lines_newline nul, segments_line nl, ih fun q hq => h q (List.mem_cons_of_mem _ hq)]
    rfl

/-- **The file holds the bindings** it was written from. -/
theorem bindings_render {log : List (CStr × CStr)} (h : ∀ p ∈ log, Written p) : bindings (render log) = log := by
  have e := lines_render h []
  rw [List.append_nil] at e
  rw [bindings, e, lines_nil, List.filterMap_append, List.filterMap_map,
    List.filterMap_cons_none lineBinding_nil, List.filterMap_nil, List.append_nil]
  calc log.filterMap (lineBinding ∘ fun p => p.1.bytes ++ chEq :: p.2.bytes)
      = log.filterMap some := List.filterMap_congr fun p hp => (h p hp).binding
    _ = log := List.filterMap_some

theorem render_nulFree {log : List (CStr × CStr)} (h : ∀ p ∈ log, Written p) : 0 ∉ render log := by
  intro hz
  obtain ⟨p, hp, hz⟩ := List.mem_flatMap.1 hz
  have := (h p hp).body.1
  have nl : (0 : UInt8) ≠ chNewline := by decide
  apply this
  simpa [entryLine, nl] using hz

theorem importFree_render {log : List (CStr × CStr)} (h : ∀ p ∈ log, Written p) : ImportFree (render log) := by
  intro line hl
  have e := lines_render h []
  rw [List.append_nil, lines_of_nulFree (render_nulFree h)] at e
  rw [e, lines_nil] at hl
  rcases List.mem_append.1 hl with hl | hl
  · obtain ⟨p, hp, rfl⟩ := List.mem_map.1 hl
    exact (h p hp).key.not_import (u := []) (by simp [Blank]) _
  · obtain rfl : line = [] := by simpa using hl
    decide

theorem Closed.of_append {x y : List UInt8} (h : Closed (x ++ y)) : Closed y := by
  rcases List.eq_nil_or_concat y with rfl | ⟨z, b, rfl⟩
  · exact .inl rfl
  · rcases h with h | ⟨x', h⟩
    · simp at h
    · rw [List.concat_eq_append, ← List.append_assoc] at h
      obtain ⟨-, e⟩ := List.append_inj' h rfl
      exact .inr ⟨z, by rw [List.concat_eq_append, e]⟩

/-- A cut of the file at the start of a line is a cut of the list. -/
theorem render_split : ∀ {log : List (CStr × CStr)} {p z : List UInt8}, (∀ e ∈ log, Written e) → Closed p →
    render log = p ++ z → ∃ log₁ log₂, log = log₁ ++ log₂ ∧ p = render log₁ ∧ z = render log₂
  | [], p, z, _, _, h => by
    obtain ⟨rfl, rfl⟩ := List.append_eq_nil_iff.1 h.symm
    exact ⟨[], [], rfl, rfl, rfl⟩
  | e :: log, p, z, written, closed, h => by
    rcases closed with rfl | ⟨x, rfl⟩
    · exact ⟨[], e :: log, rfl, rfl, by simpa using h.symm⟩
    · rcases List.append_eq_append_iff.1 h with ⟨a, hp, hz⟩ | ⟨c, hc, -⟩
      · -- the cut is behind the first line
        have closed' : Closed a := Closed.of_append (x := entryLine e) (hp ▸ .inr ⟨x, rfl⟩)
        obtain ⟨log₁, log₂, rfl, rfl, rfl⟩ :=
          render_split (fun e he => written e (List.mem_cons_of_mem _ he)) closed' hz
        exact ⟨e :: log₁, log₂, rfl, hp, rfl⟩
      · rcases List.eq_nil_or_concat c with rfl | ⟨c', b, rfl⟩
        · refine ⟨[e], log, rfl, ?_, ?_⟩
          · simpa using hc.symm
          · rw [List.append_nil] at hc
            rw [render_cons, hc] at h
            exact (List.append_cancel_left h).symm
        · -- a newline inside the first line
          exfalso
          have body : x ++ [chNewline] ++ c' = e.1.bytes ++ chEq :: e.2.bytes := by
            rw [List.concat_eq_append, ← List.append_assoc, entryLine, ← List.cons_append,
              ← List.append_assoc] at hc
            exact (List.append_inj' hc rfl).1.symm
          exact (written e (by simp)).body.2 (body ▸ by simp)

/-! ## A line appended -/

theorem bindings_empty : bindings [] = [] := by simp [bindings, lines_nil, lineBinding_nil]

/-- An appended line continues what stands behind the last newline. -/
theorem append_entryLine (key value : CStr) (p u : List UInt8) : p ++ u ++ entryLine (key, value) =
    p ++ ((u ++ (key.bytes ++ chEq :: value.bytes)) ++ chNewline :: []) := by simp [entryLine]

theorem continued_noNewline {key value : CStr} (pk : Persistent key) (nl : chNewline ∉ value.bytes) {u : List UInt8}
    (line : chNewline ∉ u) : chNewline ∉ u ++ (key.bytes ++ chEq :: value.bytes) := by
  have ne : chNewline ≠ chEq := by decide
  simp [line, pk.noNewline, nl, ne]

/-- The lines of a content with a line appended. -/
theorem segments_append {key value : CStr} (pk : Persistent key) (nl : chNewline ∉ value.bytes)
    {content p u : List UInt8} (split : content = p ++ u) (closed : Closed p) (line : chNewline ∉ u) :
    segments content = (segments p).dropLast ++ [u] ∧
      segments (content ++ entryLine (key, value)) =
        (segments p).dropLast ++ [u ++ (key.bytes ++ chEq :: value.bytes), []] := by
  constructor
  · rw [split, segments_closed closed, segments_line line]
  · rw [split, append_entryLine, segments_closed closed, segments_newline,
      segments_line (continued_noNewline pk nl line)]
    rfl

theorem importFree_append {key value : CStr} (pk : Persistent key) (nl : chNewline ∉ value.bytes)
    {content : List UInt8} (free : ImportFree content) : ImportFree (content ++ entryLine (key, value)) := by
  obtain ⟨p, u, split, closed, line⟩ := exists_closed content
  obtain ⟨old, new⟩ := segments_append pk nl split closed line
  have relined := Relined.append old new
  apply relined.importFree free
  exact pk.not_import_append (free u (by rw [old]; simp)) (chEq :: value.bytes)

/-- What a content gives, whole lines first. -/
theorem bindings_split {content p u : List UInt8} (nul : 0 ∉ content) (split : content = p ++ u)
    (closed : Closed p) (line : chNewline ∉ u) : bindings content = bindings p ++ (lineBinding u).toList := by
  have nulp : 0 ∉ p := fun h => nul (by simp [split, h])
  have nulu : 0 ∉ u := fun h => nul (by simp [split, h])
  have whole := bindings_closed nulp closed []
  have tail := bindings_line nulu line (.inl ⟨rfl, rfl⟩)
  rw [List.append_nil, bindings_empty, List.append_nil] at whole tail
  rw [split, bindings_closed nulp closed, whole, tail]

/-- What the content gives with a line appended. -/
theorem bindings_append {key value : CStr} (pk : Persistent key) (nl : chNewline ∉ value.bytes)
    {content p u : List UInt8} (nul : 0 ∉ content) (split : content = p ++ u) (closed : Closed p)
    (line : chNewline ∉ u) : bindings (content ++ entryLine (key, value)) =
      bindings p ++ (lineBinding (u ++ (key.bytes ++ chEq :: value.bytes))).toList := by
  have zero : (0 : UInt8) ≠ chEq := by decide
  have nulp : 0 ∉ p := fun h => nul (by simp [split, h])
  have nulu : 0 ∉ u := fun h => nul (by simp [split, h])
  have nulLine : 0 ∉ u ++ (key.bytes ++ chEq :: value.bytes) := by simp [nulu, key.nulFree, value.nulFree, zero]
  have nlLine := continued_noNewline pk nl line
  have before := bindings_closed nulp closed []
  rw [List.append_nil, bindings_empty, List.append_nil] at before
  rw [split, append_entryLine, bindings_closed nulp closed, bindings_line nulLine nlLine (.inr rfl), bindings_empty,
    List.append_nil, before]

/-! ## The file mirrors the store -/

/-- Values of distinct keys fit a block. -/
theorem Good.textSize_le {m : Mem} (good : Good m) {log : List (CStr × CStr)} (nodup : (log.map Prod.fst).Nodup)
    (bound : ∀ p ∈ log, m.value p.1 = some p.2) : textSize (log.map Prod.snd) ≤ blocksize := by
  obtain ⟨T, ent, txt, id, p, h⟩ := good
  choose! node mem key_ text using fun p hp => h.value_eq_some.1 (bound p hp)
  have nodes : (log.map node).Nodup := by
    have keys : (log.map Prod.fst) = (log.map node).map fun q => (ent q).key := by
      rw [List.map_map]
      exact List.map_congr_left fun p hp => (key_ p hp).symm
    exact List.Nodup.of_map _ (keys ▸ nodup)
  have texts : log.map Prod.snd = (log.map node).map txt := by
    rw [List.map_map]
    exact List.map_congr_left fun p hp => (text p hp).symm
  have sub : (log.map node).Subperm T.toList := by
    apply List.subperm_of_subset nodes
    intro q hq
    obtain ⟨p, hp, rfl⟩ := List.mem_map.1 hq
    exact mem p hp
  obtain ⟨l, perm, sublist⟩ := sub
  have le := h.slots.sum_le h.tree.nodup
  calc textSize (log.map Prod.snd)
      = textSize (l.map txt) := by
        rw [texts, textSize, textSize]
        exact ((perm.symm.map txt).map _).sum_eq
    _ ≤ textSize (T.toList.map txt) := textSize_sublist (sublist.map txt)
    _ ≤ p.pvalue := le
    _ ≤ blocksize := by
      have := h.ok.account
      have := h.ok.remain
      have := h.ok.size
      omega

/-- `build.prop` is the list of the persistent bindings of the store. -/
structure Mirrored (w : World) (log : List (CStr × CStr)) : Prop where
  good : Good w.mem
  file : w.files propPathSystemBuild = some (render log)
  written : ∀ p ∈ log, Written p
  nodup : (log.map Prod.fst).Nodup
  agree : ∀ k, startsWith k persistPrefix → w.mem.value k = lastOf log k

namespace Mirrored

variable {w : World} {log : List (CStr × CStr)}

theorem bound (h : Mirrored w log) {p : CStr × CStr} (hp : p ∈ log) : w.mem.value p.1 = some p.2 := by
  rw [h.agree p.1 (h.written p hp).key.starts]
  exact (lastOf_eq_some h.nodup).2 hp

theorem loadsTo (h : Mirrored w log) : LoadsTo w.files (lastOf log) := by
  have e := bindings_render h.written
  refine (loadsTo_iff h.file (importFree_render h.written) ?_).2 fun k => by rw [e]
  rw [e]
  exact h.good.textSize_le h.nodup fun p hp => h.bound hp

end Mirrored

/-- A load of `build.prop` gives exactly the bindings that the store holds for persistent keys. -/
def Durable (w : World) : Prop :=
  ∃ f, LoadsTo w.files f ∧ ∀ k, if startsWith k persistPrefix then getVal k w.mem = .ok (f k) else f k = none

theorem Mirrored.durable {w : World} {log : List (CStr × CStr)} (h : Mirrored w log) : Durable w := by
  refine ⟨_, h.loadsTo, fun k => ?_⟩
  split
  · next persist => rw [h.good.getVal, h.agree k persist]
  · next other =>
    refine lastOf_eq_none.2 fun p hp e => other ?_
    rw [← e]
    exact (h.written p hp).key.starts

/-! ## Runs of `set_property` -/

/-- `set_property` of a pair, its result dropped. -/
def setStep (c : CStr × CStr) (w : World) : Outcome World := Prod.snd <$> setProperty c.1 c.2 w

/-- A call of a run: a legal name, a short value without white space, and room for it in the pool. -/
structure Admissible (c : CStr × CStr) (w : World) : Prop where
  legal : legalName c.1
  short : c.2.strlen < propValueMax
  solid : Solid c.2.bytes
  room : refuses c.1 c.2 w.mem = false → exhausts c.1 c.2 w.mem = false

instance (c : CStr × CStr) (w : World) : Decidable (Admissible c w) :=
  decidable_of_iff (legalName c.1 ∧ c.2.strlen < propValueMax ∧ Solid c.2.bytes ∧
      (refuses c.1 c.2 w.mem = false → exhausts c.1 c.2 w.mem = false))
    ⟨fun h => ⟨h.1, h.2.1, h.2.2.1, h.2.2.2⟩, fun h => ⟨h.legal, h.short, h.solid, h.room⟩⟩

/-- If the call updates a persistent key, the key's text stands in `build.prop` for the first time at the
start of a line, with `'='` behind it. -/
def InPlace (key : CStr) (w : World) : Prop :=
  startsWith key persistPrefix → (w.mem.value key).isSome → ∃ mem p z, w.files propPathSystemBuild = some mem ∧
    mem = p ++ (key.bytes ++ chEq :: z) ∧ Closed p ∧ ∀ j < p.length, ¬ key.bytes <+: mem.drop j

namespace Mirrored

variable {w : World} {log : List (CStr × CStr)} {key value : CStr}

/-- A key that is not persistent. -/
theorem set_other (h : Mirrored w log) (legal : legalName key) (short : value.strlen < propValueMax)
    (other : startsWith key persistPrefix = false) :
    ∃ w', setStep (key, value) w = .ok w' ∧ Mirrored w' log := by
  rw [setStep, setProperty_eq h.good legal]
  split
  · exact ⟨w, rfl, h⟩
  · obtain ⟨r, m, run, spec⟩ := put_spec h.good key short
    have file : fileUpdate key value w = .ok w.files := by rw [fileUpdate, if_neg (by simp [other])]
    refine ⟨⟨m, w.files⟩, by rw [file, run]; rfl, spec.good, h.file, h.written, h.nodup, fun k persist => ?_⟩
    have ne : k ≠ key := by
      rintro rfl
      rw [other] at persist
      cases persist
    rw [spec.value, if_neg (fun e => ne e.1), h.agree k persist]

/-- A new persistent key is appended. -/
theorem set_new (h : Mirrored w log) (ok : Admissible (key, value) w) (pk : Persistent key)
    (new : w.mem.value key = none) :
    ∃ w', setStep (key, value) w = .ok w' ∧ Mirrored w' (log ++ [(key, value)]) := by
  obtain ⟨m, spec, run⟩ := setProperty_persistent h.good pk ok.short h.file
  have fits : exhausts key value w.mem = false := ok.room (by simp [refuses, pk.ne_ro, Nat.not_le.2 ok.short])
  have absent : ∀ p ∈ log, p.1 ≠ key := lastOf_eq_none.1 (by rw [← h.agree key pk.starts, new])
  rw [rewriteFor_new pk ok.short new, ok_bind] at run
  refine ⟨_, by rw [setStep, run]; rfl, spec.good, ?_, ?_, ?_, fun k persist => ?_⟩
  · simp [render_append, entryLine]
  · intro p hp
    rcases List.mem_append.1 hp with hp | hp
    · exact h.written p hp
    · rw [List.mem_singleton.1 hp]
      exact ⟨pk, ok.short, ok.solid⟩
  · rw [List.map_append, List.nodup_append]
    refine ⟨h.nodup, by simp, ?_⟩
    intro a ha b hb e
    obtain ⟨p, hp, rfl⟩ := List.mem_map.1 ha
    obtain rfl : b = key := by simpa using hb
    exact absent p hp e
  · rw [spec.value, lastOf_concat, h.agree k persist]
    simp only [fits, and_true, eq_comm]

/-- The value of a bound key is replaced on its line. -/
theorem set_bound (h : Mirrored w log) (ok : Admissible (key, value) w) (pk : Persistent key) {old : CStr}
    (bound : w.mem.value key = some old) (place : InPlace key w) :
    ∃ w' log', setStep (key, value) w = .ok w' ∧ Mirrored w' log' := by
  obtain ⟨m, spec, run⟩ := setProperty_persistent h.good pk ok.short h.file
  have fits : exhausts key value w.mem = false := ok.room (by simp [refuses, pk.ne_ro, Nat.not_le.2 ok.short])
  obtain ⟨mem, p, z, file, parts, closed, first⟩ := place pk.starts (by simp [bound])
  obtain rfl : render log = mem := Option.some.inj (h.file.symm.trans file)
  -- the line that is found is the key's
  obtain ⟨log₁, log₂, rfl, rfl, hz⟩ := render_split h.written closed parts
  rcases log₂ with _ | ⟨⟨k, v⟩, log₂⟩
  · simp at hz
  have written : Written (k, v) := h.written (k, v) (by simp)
  obtain ⟨ek, rfl⟩ : key.bytes = k.bytes ∧ z = v.bytes ++ chNewline :: render log₂ := by
    have cuts := congrArg (cut chEq) hz
    rw [cut_of pk.noEq, render_cons, entryLine, List.append_assoc, List.cons_append,
      cut_of written.key.noEq] at cuts
    simpa using cuts
  obtain rfl : key = k := CStr.ext ek
  obtain rfl : v = old := Option.some.inj ((h.bound (p := (key, v)) (by simp)).symm.trans bound)
  have splice : Splice key v.strlen (render (log₁ ++ (key, v) :: log₂)) (render log₁) chEq v.bytes
      (chNewline :: render log₂) := ⟨parts, rfl, first⟩
  simp only [rewriteFor, bound] at run
  rw [rewrite_splice splice, ok_bind] at run
  refine ⟨_, log₁ ++ (key, value) :: log₂, by rw [setStep, run]; rfl, spec.good, ?_, ?_, ?_, fun k persist => ?_⟩
  · simp [render_append, entryLine]
  · intro p hp
    rcases List.mem_append.1 hp with hp | hp
    · exact h.written p (by simp [hp])
    · rcases List.mem_cons.1 hp with rfl | hp
      · exact ⟨pk, ok.short, ok.solid⟩
      · exact h.written p (by simp [hp])
  · simpa using h.nodup
  · have absent : lastOf log₂ key = none := by
      apply lastOf_eq_none.2
      intro p hp e
      have nodup := h.nodup
      rw [List.map_append, List.map_cons, List.nodup_append] at nodup
      exact (List.nodup_cons.1 nodup.2.1).1 (List.mem_map.2 ⟨p, hp, e⟩)
    rw [spec.value, fits, h.agree k persist, lastOf_append, lastOf_append, lastOf_cons, lastOf_cons]
    by_cases hk : k = key
    · simp [hk, absent]
    · simp [hk, Ne.symm hk]

/-- **One call** keeps the file in step with the store. -/
theorem set (h : Mirrored w log) {c : CStr × CStr} (ok : Admissible c w) (place : InPlace c.1 w) :
    ∃ w' log', setStep c w = .ok w' ∧ Mirrored w' log' := by
  obtain ⟨key, value⟩ := c
  cases persist : startsWith key persistPrefix with
  | false =>
    obtain ⟨w', run, h'⟩ := h.set_other ok.legal ok.short persist
    exact ⟨w', log, run, h'⟩
  | true =>
    have pk : Persistent key := ⟨ok.legal, persist⟩
    cases bound : w.mem.value key with
    | none =>
      obtain ⟨w', run, h'⟩ := h.set_new ok pk bound
      exact ⟨w', _, run, h'⟩
    | some old => exact h.set_bound ok pk bound place

end Mirrored

theorem mirrored_empty {files : Files} (empty : files propPathSystemBuild = some []) :
    Mirrored ⟨memoryInit .fresh, files⟩ [] where
  good := vacant_fresh.good
  file := empty
  written := by simp
  nodup := by simp
  agree k _ := vacant_fresh.value k

/-- **Durability.** Take a run of `set_property` from an empty `build.prop` and an empty store, with legal
names, short values without white space, and room in the pool. If every call that updates a persistent key
finds the key's text first at the start of a line with `'='` behind it, the run returns, and a load of
`build.prop` gives exactly the persistent bindings of the store. -/
theorem setRun_durable (files : Files) (empty : files propPathSystemBuild = some []) (cs : List (CStr × CStr))
    (meets : Meets setStep (fun c w => Admissible c w ∧ InPlace c.1 w) cs ⟨memoryInit .fresh, files⟩) :
    ∃ w, run setStep cs ⟨memoryInit .fresh, files⟩ = .ok w ∧ Durable w := by
  obtain ⟨w, ret, log, h⟩ := run_total (I := fun w => ∃ log, Mirrored w log)
    (fun c w ⟨log, h⟩ ⟨ok, place⟩ => by
      obtain ⟨w', log', ret, h'⟩ := h.set ok place
      exact ⟨w', ret, log', h'⟩) ⟨[], mirrored_empty empty⟩ meets
  exact ⟨w, ret, h.durable⟩

/-- Two keys, one a prefix of the other, and an update of the one that was written first. -/
theorem setRun_durable_update : ∃ w,
    run setStep [(.lit "persist.a", .lit "1"), (.lit "persist.ab", .lit "22"), (.lit "persist.a", .lit "333")]
      ⟨memoryInit .fresh, emptyBuild⟩ = .ok w ∧ Durable w := by
  apply setRun_durable emptyBuild (by simp [emptyBuild]) _
  refine ⟨⟨by decide +kernel, fun _ h => absurd h (by decide)⟩, fun w h => ?_⟩
  cases h
  refine ⟨⟨by decide +kernel, fun _ h => absurd h (by decide)⟩, fun w h => ?_⟩
  cases h
  refine ⟨⟨by decide +kernel, fun _ _ => ?_⟩, fun _ _ => trivial⟩
  exact ⟨_, [], _, rfl, rfl, .inl rfl, fun j hj => absurd hj (Nat.not_lt_zero j)⟩

/-- **A key whose text stands earlier**: the update of `persist.a` overwrites the line of `persist.ab`. -/
theorem setRun_not_durable : ¬ ∀ (files : Files), files propPathSystemBuild = some [] →
    ∀ cs : List (CStr × CStr), Meets setStep Admissible cs ⟨memoryInit .fresh, files⟩ →
      ∃ w, run setStep cs ⟨memoryInit .fresh, files⟩ = .ok w ∧ Durable w := by
  intro always
  have meets : Meets setStep Admissible
      [(.lit "persist.ab", .lit "1"), (.lit "persist.a", .lit "2"), (.lit "persist.a", .lit "3")]
      ⟨memoryInit .fresh, emptyBuild⟩ := by
    refine ⟨by decide +kernel, fun w h => ?_⟩
    cases h
    refine ⟨by decide +kernel, fun w h => ?_⟩
    cases h
    exact ⟨by decide +kernel, fun _ _ => trivial⟩
  obtain ⟨w, ret, f, loads, agree⟩ := always emptyBuild (by simp [emptyBuild]) _ meets
  cases ret
  -- the value in memory, and the text that was written
  have mem := agree (.lit "persist.a")
  rw [if_pos (by decide)] at mem
  have file := (@loadsTo_iff _ (lit "persist.ab31\npersist.a=2\n").bytes (by decide) (by decide)
    (by decide) _).1 loads (.lit "persist.a")
  rw [file] at mem
  revert mem
  decide +kernel

end CodeBackup.Property
