import CodeBackup.Property.Append
import CodeBackup.Property.Imports

/-!
# Reading a line back

`op_prop_file` writes a value as it is, and the loader reads lines: it cuts the
file at newlines and strips the white space around a value. So no load gives a
value with a newline (`Storable`, `load_noNewline`), and of the values without
one exactly those come back that neither begin nor end with white space
(`line_read_back`).
-/

namespace CodeBackup.Property

open C C.Outcome CStr Binding

/-- `__system_property_set` returns, and a load of `build.prop` gives the key the value, and no other key any. -/
def ReadsBack (key value : CStr) (w : World) : Prop :=
  ∃ r w', systemPropertySet key value propPathSystemBuild w = .ok (r, w') ∧
    LoadsTo w'.files (Function.update (fun _ => none) key (some value))

/-- One line of text, with no white space at its ends. -/
structure Neat (l : List UInt8) : Prop where
  noNewline : chNewline ∉ l
  head : ∀ b ∈ l.head?, isspace b = false
  last : ∀ b ∈ l.getLast?, isspace b = false

/-! ## White space at the ends -/

theorem trimEnd_eq_self {l : List UInt8} : trimEnd l = l ↔ ∀ b ∈ l.getLast?, isspace b = false := by
  induction l using List.reverseRecOn with
  | nil => simp [trimEnd]
  | append_singleton l b _ =>
    cases hb : isspace b with
    | true =>
      rw [trimEnd, List.rdropWhile_concat_pos _ _ _ hb]
      constructor
      · intro h
        have := congrArg List.length h
        have := (List.rdropWhile_prefix isspace l).length_le
        simp only [List.length_append, List.length_singleton] at *
        omega
      · intro h
        simp [hb] at h
    | false => simp [trimEnd, List.rdropWhile_concat_neg, hb]

theorem trimStart_eq_self {l : List UInt8} : trimStart l = l ↔ ∀ b ∈ l.head?, isspace b = false := by
  cases l with
  | nil => simp [trimStart]
  | cons b l =>
    cases hb : isspace b with
    | true =>
      constructor
      · intro h
        have := congrArg List.length h
        have := (List.dropWhile_suffix isspace (l := l)).length_le
        simp only [trimStart, List.dropWhile_cons, hb, if_true, List.length_cons] at *
        omega
      · intro h
        simp [hb] at h
    | false => simp [trimStart, hb]

/-- The loader's trimming of a value leaves it as it is. -/
theorem trim_value_iff {l : List UInt8} : trimStart (trimEnd l) = l ↔
    (∀ b ∈ l.head?, isspace b = false) ∧ ∀ b ∈ l.getLast?, isspace b = false := by
  rw [← trimStart_eq_self, ← trimEnd_eq_self]
  constructor
  · intro h
    have short := (List.rdropWhile_prefix isspace l).length_le
    have long := (List.dropWhile_suffix isspace (l := trimEnd l)).length_le
    have whole : trimEnd l = l := by
      apply (List.rdropWhile_prefix isspace l).eq_of_length_le
      rw [← trimEnd, ← congrArg List.length h]
      exact long
    exact ⟨by rwa [whole] at h, whole⟩
  · rintro ⟨start, ends⟩
    rw [ends, start]

/-! ## Lines hold no newline -/

theorem linesFrom_noNewline {line : List UInt8} : ∀ {x cur : List UInt8}, chNewline ∉ cur →
    line ∈ linesFrom cur x → chNewline ∉ line
  | [], _, _, h => by simp [linesFrom] at h
  | b :: x, cur, clean, h => by
    unfold linesFrom at h
    split at h
    · simp at h
    · split at h
      · rcases List.mem_cons.1 h with rfl | h
        · exact clean
        · exact linesFrom_noNewline (by simp) h
      · next nl => exact linesFrom_noNewline (by simp [clean, Ne.symm nl]) h

theorem lines_noNewline {content line : List UInt8} (h : line ∈ lines content) : chNewline ∉ line :=
  linesFrom_noNewline (by simp) h

/-- The value that a line binds is part of the line. -/
theorem lineAction_value {filter : Option CStr} {line : List UInt8} {key value : CStr}
    (h : lineAction filter line = .binding key value) : ∀ b ∈ value.bytes, b ∈ line := by
  unfold lineAction at h
  split at h
  · cases h
  · split at h
    · unfold importAction at h
      split at h <;> cases h
    · unfold bindingAction at h
      rcases cut_cases chEq (trim line) with ⟨-, e⟩ | ⟨k, v, e, -, hcut⟩
      · rw [e] at h
        cases h
      · simp only [hcut] at h
        split at h
        · obtain ⟨-, rfl⟩ : CStr.ofBytes (trimEnd k) = key ∧ CStr.ofBytes (trimStart v) = value := by simpa using h
          intro b hb
          have inValue : b ∈ v := (List.dropWhile_suffix _).subset ((List.takeWhile_prefix _).subset hb)
          exact (trim_within line).subset (by rw [e]; simp [inValue])
        · cases h

section

variable {σ : Type} {add : CStr → CStr → σ → Outcome σ} {P : σ → Prop}
  (adds : ∀ k v s s', chNewline ∉ v.bytes → P s → add k v s = .ok s' → P s')

include adds

theorem performLines_lines {importFile : CStr → Option CStr → σ → Outcome σ}
    (imports : ∀ fn filter s s', P s → importFile fn filter s = .ok s' → P s') {filter : Option CStr} :
    ∀ {ls : List (List UInt8)} {s s' : σ}, (∀ line ∈ ls, chNewline ∉ line) → P s →
      performLines add importFile filter ls s = .ok s' → P s'
  | [], s, s', _, h, run => by
    cases run
    exact h
  | line :: ls, s, s', clean, h, run => by
    obtain ⟨s₁, one, rest⟩ := bind_eq_ok.1 run
    have step : P s₁ := by
      cases act : lineAction filter line with
      | skip =>
        rw [act] at one
        cases one
        exact h
      | binding k v =>
        rw [act] at one
        exact adds k v s s₁ (fun nl => clean line (by simp) (lineAction_value act _ nl)) h one
      | importing fn filter' =>
        rw [act] at one
        exact imports fn filter' s s₁ h one
    exact performLines_lines imports (fun l hl => clean l (List.mem_cons_of_mem _ hl)) step rest

/-- **A load adds values of one line**: it keeps what every such `add` keeps, whatever the files hold. -/
theorem loadPropertiesFromFile_lines {files : Files} :
    ∀ {depth : Nat} {fn : CStr} {filter : Option CStr} {s s' : σ}, P s →
      loadPropertiesFromFile add files depth fn filter s = .ok s' → P s'
  | 0, _, _, _, _, _, run => by cases run
  | depth + 1, fn, filter, s, s', h, run => by
    cases file : files fn with
    | none =>
      rw [load_missing depth file] at run
      cases run
      exact h
    | some content =>
      rw [load_lines depth file] at run
      exact performLines_lines adds (fun _ _ _ _ h run => loadPropertiesFromFile_lines h run)
        (fun line hl => lines_noNewline hl) h run

end

/-- A good store whose values are lines. -/
structure OfLines (m : Mem) : Prop where
  good : Good m
  noNewline : ∀ k v, m.value k = some v → chNewline ∉ v.bytes

theorem OfLines.add {m m' : Mem} (h : OfLines m) {key value : CStr} (nl : chNewline ∉ value.bytes)
    (run : addProperty key value m = .ok m') : OfLines m' := by
  obtain ⟨m₁, run₁, spec⟩ := addProperty_spec h.good key value
  cases unique run run₁
  refine ⟨spec.good, fun k v bound => ?_⟩
  rw [spec.value] at bound
  split at bound
  · cases bound
    exact nl
  · exact h.noNewline k v bound

/-- **No load gives a value with a newline.** -/
theorem LoadsTo.noNewline {files : Files} {f : CStr → Option CStr} (h : LoadsTo files f) {k v : CStr}
    (bound : f k = some v) : chNewline ∉ v.bytes := by
  obtain ⟨depth, m, run, value⟩ := h
  have start : OfLines (memoryInit .fresh) :=
    ⟨vacant_fresh.good, fun k v bound => by rw [vacant_fresh.value] at bound; cases bound⟩
  have stored : OfLines m := loadPropertiesFromFile_lines (fun k v s s' nl h run => h.add nl run) start run
  apply stored.noNewline k v
  have e := value k
  rw [stored.good.getVal] at e
  rw [Except.ok.inj e, bound]

/-! ## The line -/

/-- The value that a load finds where the text `value` was written. -/
def stripped (value : CStr) : CStr := .ofBytes (trimStart (trimEnd value.bytes))

theorem stripped_bytes (value : CStr) : (stripped value).bytes = trimStart (trimEnd value.bytes) := by
  apply ofBytes_bytes
  intro nul
  exact value.nulFree ((List.rdropWhile_prefix _ _).subset ((List.dropWhile_suffix _).subset nul))

theorem stripped_strlen_le (value : CStr) : (stripped value).strlen ≤ value.strlen := by
  have start := (List.dropWhile_suffix isspace (l := trimEnd value.bytes)).length_le
  have ends := (List.rdropWhile_prefix isspace value.bytes).length_le
  rw [strlen, stripped_bytes]
  exact start.trans ends

/-- What the file gives that holds the line of a new key. -/
theorem bindings_entryLine {key value : CStr} (pk : Persistent key) (nl : chNewline ∉ value.bytes)
    (short : value.strlen < propValueMax) : bindings (entryLine (key, value)) = [(key, stripped value)] := by
  have line := @bindings_append key value pk nl [] [] [] (by simp) rfl (.inl rfl) (by simp)
  have inside : (stripped value).strlen < propValueMax := (stripped_strlen_le value).trans_lt short
  have binds := lineBinding_of pk (u := []) (b := []) (by simp [Blank]) (by simp [Blank]) value.bytes
  rw [← stripped, if_pos inside] at binds
  simp only [List.nil_append] at line binds
  rw [line, binds, bindings_empty]
  rfl

theorem loadsTo_entryLine {key value : CStr} (pk : Persistent key) (nl : chNewline ∉ value.bytes)
    (short : value.strlen < propValueMax) {files : Files}
    (file : files propPathSystemBuild = some (entryLine (key, value))) {f : CStr → Option CStr} :
    LoadsTo files f ↔ ∀ k, f k = if k = key then some (stripped value) else none := by
  have free := @importFree_append key value pk nl [] (by decide)
  have room : textSize ((bindings (entryLine (key, value))).map Prod.snd) ≤ blocksize := by
    have := (stripped_strlen_le value).trans_lt short
    rw [bindings_entryLine pk nl short]
    simp only [List.map_cons, List.map_nil, textSize_cons, textSize_nil, propValueMax, blocksize] at *
    omega
  rw [loadsTo_iff file free room, bindings_entryLine pk nl short]
  simp only [lastOf_cons, lastOf_nil, Option.none_or, eq_comm]

/-- **The line written is read back** exactly if its value is neat. Take a good store, as all are that are reached, an
empty `build.prop`, a legal key that begins with `"persist."` and is not bound, and any value of accepted length. -/
theorem line_read_back {w : World} (good : Good w.mem) (file : w.files propPathSystemBuild = some [])
    {key value : CStr} (legal : legalName key) (persist : startsWith key persistPrefix)
    (unbound : getVal key w.mem = .ok none) (short : value.strlen < propValueMax) :
    ReadsBack key value w ↔ Neat value.bytes := by
  have pk : Persistent key := ⟨legal, persist⟩
  have new := good.value_of_getVal unbound
  obtain ⟨r, m, run⟩ := systemPropertySet_new pk good file short new
  rw [List.nil_append] at run
  constructor
  · rintro ⟨r', w', run', loads⟩
    cases unique run run'
    -- a load gives no newline, so the file is one line
    have nl : chNewline ∉ value.bytes := loads.noNewline (Function.update_self ..)
    have same := (loadsTo_entryLine pk nl short (by simp)).1 loads key
    rw [Function.update_self, if_pos rfl, Option.some.injEq] at same
    have text : trimStart (trimEnd value.bytes) = value.bytes := by
      rw [← stripped_bytes, ← same]
    obtain ⟨head, last⟩ := trim_value_iff.1 text
    exact ⟨nl, head, last⟩
  · intro neat
    have same : stripped value = value := by
      ext1
      rw [stripped_bytes, trim_value_iff.2 ⟨neat.head, neat.last⟩]
    refine ⟨r, _, run, (loadsTo_entryLine pk neat.noNewline short (by simp)).2 fun k => ?_⟩
    rw [same, Function.update_apply]

/-- A value with a blank inside. -/
theorem line_read_back_blank :
    ReadsBack (.lit "persist.k") (.lit "a b") ⟨memoryInit .fresh, emptyBuild⟩ ↔ Neat (lit "a b").bytes :=
  @line_read_back ⟨memoryInit .fresh, emptyBuild⟩ vacant_fresh.good (by decide) _ _ (by decide +kernel) (by decide)
    (by decide +kernel) (by decide +kernel)

/-- **A blank at the end** of the value is lost. -/
theorem line_loses_blank : ¬ ∀ (w : World) (key value : CStr), Reachable w → w.files propPathSystemBuild = some [] →
    legalName key → startsWith key persistPrefix → getVal key w.mem = .ok none →
    (∀ b ∈ value.bytes, b < 128) → value.strlen < propValueMax → ReadsBack key value w := by
  intro always
  have load := loadAllProps_emptyBuild .fresh
  have legal : legalName (.lit "persist.k") := by decide +kernel
  have short : (lit "1 ").strlen < propValueMax := by decide +kernel
  have bound : getVal (.lit "persist.k") (memoryInit .fresh) = .ok none := by decide +kernel
  have file : emptyBuild propPathSystemBuild = some [] := by decide
  obtain ⟨r, w', run, loads⟩ := always _ (.lit "persist.k") (.lit "1 ") (.load load) file legal (by decide) bound
    (by decide +kernel) short
  have good := (Reachable.load load).good
  have new := good.value_of_getVal bound
  obtain ⟨r₁, m, run₁⟩ := systemPropertySet_new ⟨legal, by decide⟩ good file short new
  cases unique run run₁
  have same := (loadsTo_entryLine ⟨legal, by decide⟩ (by decide +kernel) short (by simp)).1 loads (.lit "persist.k")
  revert same
  decide +kernel

end CodeBackup.Property
