import CodeBackup.Property.Together

/-!
# Appending a line

For a new persistent key `__system_property_set` appends a line to
`build.prop`, where it stands, while the loader reads whole lines. So the line
is read as a binding of its own exactly if nothing but white space is on the
line before it and no NUL hides it (`Open`), unless the file reads as it should
without it (`Masked`). Of the value, the loader gives back what has no newline
and no white space at its ends (`Legible`, `line_read_back`).
-/

namespace CodeBackup.Property

open C C.Outcome CStr Binding

/-- `__system_property_set` returns, and what a load of `build.prop` gives changes at the key only. -/
def AppendKeeps (key value : CStr) (w : World) : Prop :=
  ∃ r w', systemPropertySet key value propPathSystemBuild w = .ok (r, w') ∧
    ∃ f, LoadsTo w.files f ∧ LoadsTo w'.files (Function.update f key (some value))

/-- The content has no NUL, and white space only behind its last newline. -/
def Open (content : List UInt8) : Prop :=
  0 ∉ content ∧ ∃ p u, content = p ++ u ∧ Closed p ∧ chNewline ∉ u ∧ Blank u

/-- The whole lines `p` of the content bind the key to the value already. A NUL hides what follows, or the text `u`
behind them binds no other key to anything else, neither as it is nor as the start of the appended line. -/
structure Masked (key value : CStr) (content p u : List UInt8) : Prop where
  split : content = p ++ u
  closed : Closed p
  line : chNewline ∉ u
  bound : lastOf (bindings p) key = some value
  idle : 0 ∈ content ∨
    (∀ e ∈ lineBinding u, e.1 = key ∨ lastOf (bindings p) e.1 = some e.2) ∧
      ∀ e ∈ lineBinding (u ++ (key.bytes ++ chEq :: value.bytes)), lastOf (bindings p) e.1 = some e.2

/-! ## The text that is appended -/

/-- A call for a legal name goes through `__system_property_set`. -/
theorem systemPropertySet_of_run {key value : CStr} (legal : legalName key) {w w' : World} {r : Int}
    (run : setProperty key value w = .ok (r, w')) :
    ∃ r', systemPropertySet key value propPathSystemBuild w = .ok (r', w') := by
  simp only [setProperty, isLegalPropertyName_spec, ok_bind, legal, Bool.not_true, Bool.false_eq_true, if_false] at run
  obtain ⟨⟨r', w₁⟩, run', e⟩ := bind_eq_ok.1 run
  cases e
  exact ⟨r', run'⟩

section

variable {key : CStr} (pk : Persistent key) {w : World} (good : Good w.mem) {content : List UInt8}
  (file : w.files propPathSystemBuild = some content) {value : CStr} (short : value.strlen < propValueMax)
  (unbound : w.mem.value key = none)

include pk good file short unbound

/-- **A new key** is appended to the file. -/
theorem systemPropertySet_new : ∃ r m, systemPropertySet key value propPathSystemBuild w =
    .ok (r, ⟨m, Function.update w.files propPathSystemBuild (some (content ++ entryLine (key, value)))⟩) := by
  obtain ⟨m, -, run⟩ := setProperty_persistent good pk short file
  rw [rewriteFor_new pk short unbound content, ok_bind] at run
  obtain ⟨r, run'⟩ := systemPropertySet_of_run pk.legal run
  exact ⟨r, m, run'⟩

end

/-- Behind a NUL nothing is read: the content gives what its whole lines do. -/
theorem bindings_hidden {content p u : List UInt8} (nul : 0 ∈ content) (split : content = p ++ u)
    (closed : Closed p) (line : chNewline ∉ u) : bindings content = bindings p := by
  by_cases nulp : 0 ∈ p
  · rw [split, bindings, lines_nul_congr nulp u [], List.append_nil]
    rfl
  · obtain ⟨a, b, rfl, nula⟩ : ∃ a b, u = a ++ 0 :: b ∧ 0 ∉ a := by
      apply List.eq_append_cons_of_mem
      rw [split, List.mem_append] at nul
      exact nul.resolve_left nulp
    have whole := bindings_closed nulp closed []
    rw [List.append_nil, bindings_empty, List.append_nil] at whole
    rw [split, bindings_closed nulp closed, bindings_line_nul nula (fun h => line (by simp [h])), whole,
      List.append_nil]

/-- Behind a NUL what is appended is not read. -/
theorem bindings_appended {content : List UInt8} (nul : 0 ∈ content) (x : List UInt8) :
    bindings (content ++ x) = bindings content := by
  have same := lines_nul_congr nul x []
  rw [List.append_nil] at same
  rw [bindings, same]
  rfl

/-! ## What the line does to the keys -/

/-- What one more line, or none, does to a log. -/
theorem lastOf_line (log : List (CStr × CStr)) (b : Option (CStr × CStr)) (k : CStr) :
    lastOf (log ++ b.toList) k = (b.bind fun e => if e.1 = k then some e.2 else none).or (lastOf log k) := by
  rw [lastOf_append]
  cases b with
  | none => rfl
  | some e => simp [lastOf_cons]

/-- A pair that a log gives anyway. -/
theorem lastOf_idle {log : List (CStr × CStr)} {b : Option (CStr × CStr)} {k : CStr}
    (idle : ∀ e ∈ b, e.1 = k → lastOf log k = some e.2) : lastOf (log ++ b.toList) k = lastOf log k := by
  rw [lastOf_line]
  cases b with
  | none => rfl
  | some e =>
    by_cases hk : e.1 = k
    · simp [hk, idle e rfl hk]
    · simp [hk]

/-- Two lines give a key the same; the one that binds it gives what is there anyway, if the other is not the same. -/
theorem lastOf_of_other {log : List (CStr × CStr)} {b b' : Option (CStr × CStr)} {e : CStr × CStr} (he : e ∈ b)
    (ne : e ∉ b') (same : lastOf (log ++ b.toList) e.1 = lastOf (log ++ b'.toList) e.1) : lastOf log e.1 = some e.2 := by
  rw [Option.mem_def.1 he, lastOf_line, lastOf_line] at same
  cases b' with
  | none => simpa using same.symm
  | some e' =>
    by_cases key : e'.1 = e.1
    · obtain rfl : e' = e := Prod.ext key (by simpa [key] using same.symm)
      exact absurd rfl ne
    · simpa [key] using same.symm

theorem lineBinding_blank {u : List UInt8} (h : Blank u) : lineBinding u = none := by
  rcases binds : lineBinding u with _ | ⟨k, v⟩
  · rfl
  · have := solids_binding h.nulFree binds
    rw [solids_blank h] at this
    omega

section

variable {key value : CStr} {u : List UInt8} (nul : 0 ∉ u)

include nul

theorem glued_nulFree : 0 ∉ u ++ (key.bytes ++ chEq :: value.bytes) := by
  have zero : (0 : UInt8) ≠ chEq := by decide
  simp [nul, key.nulFree, value.nulFree, zero]

/-- A line that is not blank does not bind the key to the value that is written behind it. -/
theorem lineBinding_glued (pk : Persistent key) (text : ¬ Blank u) :
    lineBinding (u ++ (key.bytes ++ chEq :: value.bytes)) ≠ some (key, value) := by
  intro binds
  have eq : isspace chEq = false := by decide
  have count := solids_binding (glued_nulFree nul) binds
  simp only [solids_append, solids_cons, solids_solid pk.solid, eq, strlen, Bool.false_eq_true, if_false] at count
  apply text
  intro b hb
  have none_ : solids u = 0 := by omega
  rw [solids, List.countP_eq_zero] at none_
  simpa using none_ b hb

/-- With a binding written behind it a line binds another pair than before. -/
theorem lineBinding_glued_ne {e : CStr × CStr} (h : lineBinding u = some e) :
    lineBinding (u ++ (key.bytes ++ chEq :: value.bytes)) ≠ some e := by
  intro binds
  have eq : isspace chEq = false := by decide
  have after := solids_binding (glued_nulFree nul) binds
  have before := solids_binding nul h
  simp only [solids_append, solids_cons, eq, Bool.false_eq_true, if_false] at after
  omega

end

section

variable {key value : CStr} (pk : Persistent key) (solid : Solid value.bytes) (short : value.strlen < propValueMax)
  {content : List UInt8}

include pk solid short

/-- Behind whole lines, or blanks, the line is read as it is meant. -/
theorem Open.appends (h : Open content) (k : CStr) : lastOf (bindings (content ++ entryLine (key, value))) k =
    Function.update (lastOf (bindings content)) key (some value) k := by
  obtain ⟨nul, p, u, split, closed, line, blank⟩ := h
  have binds := lineBinding_written pk solid short blank (y := []) (by simp [Blank])
  rw [List.append_nil] at binds
  rw [bindings_append pk solid.noNewline nul split closed line, bindings_split nul split closed line,
    lineBinding_blank blank, binds, Option.toList_some, Option.toList_none, List.append_nil, lastOf_concat,
    Function.update_apply]
  simp only [eq_comm]

omit short in
/-- A file that does not depend on the line. -/
theorem Masked.appends {p u : List UInt8} (h : Masked key value content p u) (k : CStr) :
    lastOf (bindings (content ++ entryLine (key, value))) k =
      Function.update (lastOf (bindings content)) key (some value) k := by
  by_cases nul : 0 ∈ content
  · have bound := h.bound
    rw [← bindings_hidden nul h.split h.closed h.line] at bound
    rw [bindings_appended nul, ← bound, Function.update_eq_self]
  · obtain ⟨before, after⟩ := h.idle.resolve_left nul
    rw [bindings_append pk solid.noNewline nul h.split h.closed h.line,
      lastOf_idle fun e he hk => hk ▸ after e he]
    by_cases hk : k = key
    · rw [hk, h.bound, Function.update_self]
    · rw [Function.update_of_ne hk, bindings_split nul h.split h.closed h.line, lastOf_idle]
      intro e he ek
      rcases before e he with own | same
      · exact absurd (ek.symm.trans own) hk
      · exact ek ▸ same

omit short in
/-- Behind a line that is not blank the line does no harm only if the whole lines give what is expected. -/
theorem masked_of_glued {p u : List UInt8} (nul : 0 ∉ content) (split : content = p ++ u) (closed : Closed p)
    (line : chNewline ∉ u) (text : ¬ Blank u)
    (h : ∀ k, lastOf (bindings (content ++ entryLine (key, value))) k =
      Function.update (lastOf (bindings content)) key (some value) k) : Masked key value content p u := by
  have nulu : 0 ∉ u := fun hu => nul (by simp [split, hu])
  have apart := @lineBinding_glued_ne key value u nulu
  have new := @lineBinding_glued key value u nulu pk text
  have reads : ∀ k, lastOf (bindings p ++ (lineBinding (u ++ (key.bytes ++ chEq :: value.bytes))).toList) k =
      if k = key then some value else lastOf (bindings p ++ (lineBinding u).toList) k := by
    intro k
    rw [← bindings_append pk solid.noNewline nul split closed line, ← bindings_split nul split closed line, h,
      Function.update_apply]
  -- the glued line binds another key
  have other : ∀ e ∈ lineBinding (u ++ (key.bytes ++ chEq :: value.bytes)), e.1 ≠ key := by
    intro e he ek
    obtain ⟨k, v⟩ := e
    obtain rfl : k = key := ek
    have atKey := reads k
    rw [Option.mem_def.1 he, lastOf_line, if_pos rfl] at atKey
    obtain rfl : v = value := by simpa using atKey
    exact new he
  constructor
  · exact split
  · exact closed
  · exact line
  · have atKey := reads key
    rwa [if_pos rfl, lastOf_idle fun e he ek => absurd ek (other e he)] at atKey
  · right
    constructor
    · intro a ha
      by_cases own : a.1 = key
      · exact .inl own
      · right
        have at_ := reads a.1
        rw [if_neg own] at at_
        exact lastOf_of_other ha (apart ha) at_.symm
    · intro e he
      have at_ := reads e.1
      rw [if_neg (other e he)] at at_
      exact lastOf_of_other he (fun ha => apart ha he) at_

/-- **The line is read as it is meant** exactly if the content is open, or masked. -/
theorem appends_iff : (∀ k, lastOf (bindings (content ++ entryLine (key, value))) k =
    Function.update (lastOf (bindings content)) key (some value) k) ↔
      Open content ∨ ∃ p u, Masked key value content p u := by
  constructor
  · intro h
    obtain ⟨p, u, split, closed, line⟩ := exists_closed content
    by_cases nul : 0 ∈ content
    · have bound := h key
      rw [bindings_appended nul, bindings_hidden nul split closed line, Function.update_self] at bound
      exact .inr ⟨p, u, split, closed, line, bound, .inl nul⟩
    · by_cases blank : Blank u
      · exact .inl ⟨nul, p, u, split, closed, line, blank⟩
      · exact .inr ⟨p, u, masked_of_glued pk solid nul split closed line blank h⟩
  · rintro (h | ⟨p, u, h⟩)
    · exact h.appends pk solid short
    · exact h.appends pk solid

end

/-! ## The call -/

/-- **Appending a new persistent key.** Take a good store, as every store is that the service reaches, any content of
`build.prop` without imports, a legal key that begins with `"persist."` and is not bound, and a short value without
white space, such that the values of the file fit a pool before and after the call. A load of the file gives the key its
value and every other key what it had exactly if the content is open, or masked for the key and the value. -/
theorem append_keeps {w : World} (good : Good w.mem) {content : List UInt8}
    (file : w.files propPathSystemBuild = some content) (free : ImportFree content) {key value : CStr}
    (legal : legalName key) (persist : startsWith key persistPrefix) (unbound : getVal key w.mem = .ok none)
    (solid : Solid value.bytes) (short : value.strlen < propValueMax)
    (fits : textSize ((bindings content).map Prod.snd) ≤ blocksize)
    (fits' : textSize ((bindings (content ++ entryLine (key, value))).map Prod.snd) ≤ blocksize) :
    AppendKeeps key value w ↔ Open content ∨ ∃ p u, Masked key value content p u := by
  have pk : Persistent key := ⟨legal, persist⟩
  have new := good.value_of_getVal unbound
  obtain ⟨r, m, run⟩ := systemPropertySet_new pk good file short new
  have free' := importFree_append pk solid.noNewline free
  have before := fun f => @loadsTo_iff _ _ file free fits f
  have after := fun f => @loadsTo_iff (Function.update w.files propPathSystemBuild
    (some (content ++ entryLine (key, value)))) _ (by simp) free' fits' f
  rw [← appends_iff pk solid short]
  constructor
  · rintro ⟨r', w', run', f, old, kept⟩ k
    cases unique run run'
    rw [← (after _).1 kept k, funext ((before f).1 old)]
  · intro h
    exact ⟨r, _, run, _, (before _).2 fun k => rfl, (after _).2 fun k => (h k).symm⟩

/-- A file that ends with a newline. -/
theorem append_keeps_line : ∃ w, loadAllProps 1 ⟨.fresh, twoFiles (.lit "ro.a=1\n") (.lit "")⟩ = .ok w ∧
    (AppendKeeps (.lit "persist.k") (.lit "1") w ↔
      Open (lit "ro.a=1\n").bytes ∨ ∃ p u, Masked (.lit "persist.k") (.lit "1") (lit "ro.a=1\n").bytes p u) := by
  have load : ∃ w, loadAllProps 1 ⟨.fresh, twoFiles (.lit "ro.a=1\n") (.lit "")⟩ = .ok w ∧
      w.files = twoFiles (.lit "ro.a=1\n") (.lit "") ∧ getVal (.lit "persist.k") w.mem = .ok none :=
    ⟨_, rfl, rfl, by decide⟩
  obtain ⟨w, run, files, unbound⟩ := load
  refine ⟨w, run, append_keeps (Reachable.load run).good (by rw [files]; rfl) (by decide) (by decide +kernel)
    (by decide) unbound (by decide +kernel) (by decide +kernel) (by decide +kernel) (by decide +kernel)⟩

/-- **No final newline**: the new line is glued to the last one, and becomes a part of its value. -/
theorem append_glues : ¬ ∀ (w : World) (content : List UInt8) (key value : CStr), Reachable w →
    w.files propPathSystemBuild = some content → ImportFree content → legalName key → startsWith key persistPrefix →
    getVal key w.mem = .ok none → Solid value.bytes → value.strlen < propValueMax →
    textSize ((bindings content).map Prod.snd) ≤ blocksize →
    textSize ((bindings (content ++ entryLine (key, value))).map Prod.snd) ≤ blocksize → AppendKeeps key value w := by
  intro always
  have load : ∃ w, loadAllProps 1 ⟨.fresh, twoFiles (.lit "ro.a=1") (.lit "")⟩ = .ok w ∧
      w.files = twoFiles (.lit "ro.a=1") (.lit "") ∧ getVal (.lit "persist.k") w.mem = .ok none :=
    ⟨_, rfl, rfl, by decide⟩
  obtain ⟨w, run, files, unbound⟩ := load
  have file : w.files propPathSystemBuild = some (lit "ro.a=1").bytes := by rw [files]; rfl
  have legal : legalName (.lit "persist.k") := by decide +kernel
  have unbound' : w.mem.value (.lit "persist.k") = none := by
    rw [(Reachable.load run).good.getVal] at unbound
    exact Except.ok.inj unbound
  obtain ⟨r, w', run', f, -, loads⟩ := always w _ (.lit "persist.k") (.lit "1") (.load run) file (by decide) legal
    (by decide) unbound (by decide +kernel) (by decide +kernel) (by decide +kernel) (by decide +kernel)
  have short : (lit "1").strlen < propValueMax := by decide +kernel
  obtain ⟨r₁, m, run₁⟩ := systemPropertySet_new ⟨legal, by decide⟩ (Reachable.load run).good file short unbound'
  cases unique run' run₁
  have reads := (@loadsTo_iff _ ((lit "ro.a=1").bytes ++ entryLine (.lit "persist.k", .lit "1")) (by simp)
    (by decide) (by decide +kernel) _).1 loads (.lit "persist.k")
  rw [Function.update_self] at reads
  revert reads
  decide +kernel

end CodeBackup.Property
