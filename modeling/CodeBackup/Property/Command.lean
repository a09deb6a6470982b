import CodeBackup.Property.Balanced
import CodeBackup.Property.Get

/-!
# The shell command

`property_cmd.c`: the handler of the `property` command copies its arguments
into two static buffers, which `get` and `set` share, and which a `get` also
reads into. A `set` with too few arguments prints its usage and then calls
`set_property` all the same, on what earlier commands have left in the buffers;
`setProperty_same_iff` says when such a call changes nothing.

The mutexes are left out here as in the service: after a `set_property` of a
name that is not legal, which keeps `wmutex`, the next `get` or `set` does not
return.
-/

namespace CodeBackup.Property

open C C.Outcome Rbtree ColorTree CStr Run

/-- A string that the shell passes: its text, and what stands behind its terminator. -/
structure Arg where
  text : CStr
  behind : List UInt8

/-- The memory that `argv[i]` points to. -/
def Arg.buf (a : Arg) : Buf := a.text.bytes ++ 0 :: a.behind

/-- `prop_key` and `prop_value`, and the service. -/
structure Shell where
  propKey : Buf
  propValue : Buf
  world : World

/-- The buffers of a new process. -/
def Shell.start (w : World) : Shell := ⟨List.replicate propKeyMax 0, List.replicate propValueMax 0, w⟩

/-- `set_property` of the strings in two buffers: the value is not looked at if the name is not legal. -/
def setBuffers (key value : Buf) (w : World) : Outcome (Int × World) := do
  let keyStr ← Buf.str key 0
  if !(← isLegalPropertyName (keyStr.bytes ++ [0]) keyStr.strlen) then .ok (-1, w)
  else setProperty keyStr (← Buf.str value 0) w

/-- What `get` puts into `prop_key`. -/
def getKey : List Arg → Outcome Buf
  | [] => .ok (List.replicate propKeyMax 0)
  | a :: _ => Buf.slice a.buf 0 propKeyMax

/-- The `get` of the handler, with the arguments behind it. -/
def cmdGet (args : List Arg) (s : Shell) : Outcome Shell := do
  let key ← getKey args
  let value ← getProperty key s.propValue none s.world.mem
  .ok ⟨key, value, s.world⟩

/-- What `set` leaves in the two buffers: with too few arguments it only prints its usage. -/
def setKeyValue (args : List Arg) (s : Shell) : Outcome (Buf × Buf) :=
  match args with
  | a :: b :: _ => do .ok (← Buf.slice a.buf 0 propKeyMax, ← Buf.slice b.buf 0 propValueMax)
  | _ => .ok (s.propKey, s.propValue)

/-- The `set` of the handler, with the arguments behind it. -/
def cmdSet (args : List Arg) (s : Shell) : Outcome Shell := do
  let (key, value) ← setKeyValue args s
  let (_, w) ← setBuffers key value s.world
  .ok ⟨key, value, w⟩

/-- `cmd_func_property`, with `argc` the length of `argv`. What is not a `get` or a `set` only prints. -/
def cmdFuncProperty (argv : List Arg) (s : Shell) : Outcome Shell :=
  match argv with
  | _ :: cmd :: args =>
    if cmd.text = .lit "--help" then .ok s
    else if cmd.text = .lit "get" then cmdGet args s
    else if cmd.text = .lit "set" then cmdSet args s
    else .ok s
  | _ => .ok s

/-- The word behind the name of the command. -/
def subcommand (argv : List Arg) : Option CStr := argv[1]?.map Arg.text

/-- The arguments that the command copies fit the buffers. -/
def Fits (argv : List Arg) : Prop :=
  (subcommand argv = some (.lit "get") → ∀ a, argv[2]? = some a → a.text.strlen < propKeyMax) ∧
  (subcommand argv = some (.lit "set") → ∀ a b, argv[2]? = some a → argv[3]? = some b →
    a.text.strlen < propKeyMax ∧ b.text.strlen < propValueMax)

/-- A `set` without a key, or without a value. -/
def Unfinished (argv : List Arg) : Prop := subcommand argv = some (.lit "set") ∧ argv.length < 4

/-- The command is neither a `get`, nor a `set` with a key and a value. -/
def Malformed (argv : List Arg) : Prop :=
  subcommand argv ≠ some (.lit "get") ∧ (subcommand argv = some (.lit "set") → argv.length < 4)

/-- The tree, its values and `build.prop` are the same. -/
structure Same (w w' : World) : Prop where
  tree : ∃ T, Rep w.mem.tree T ∧ Rep w'.mem.tree T
  values : ∀ k, getVal k w'.mem = getVal k w.mem
  build : w'.files propPathSystemBuild = w.files propPathSystemBuild

/-- In `build.prop` the value stands already where `op_prop_file` puts it. -/
def InFile (key value : CStr) (w : World) : Prop :=
  ∃ mem p c y, w.files propPathSystemBuild = some mem ∧ Splice key value.strlen mem p c value.bytes y

/-- What a `set_property` would do has been done, or is refused: the name is not legal, or read-only, or the key has
the value, in the file too if it is persistent, or there is no room for it in the pool. -/
def Harmless (key value : CStr) (w : World) : Prop :=
  legalName key = false ∨ refuses key value w.mem ∨
    (w.mem.value key = some value ∧ (startsWith key persistPrefix → InFile key value w)) ∨
    (exhausts key value w.mem ∧ startsWith key persistPrefix = false)

/-! ## A `set_property` that changes nothing -/

theorem Same.refl {w : World} (good : Good w.mem) : Same w w := by
  obtain ⟨T, ent, txt, id, p, h⟩ := good
  exact ⟨⟨T, h.tree, h.tree⟩, fun _ => rfl, rfl⟩

/-- A persistent key that is set, and nothing is changed, had the value, in the file as well. -/
theorem inFile_of_same {w w' : World} {key val : CStr} (legal : legalName key) (persist : startsWith key persistPrefix)
    (spec : PutSpec key val w.mem w'.mem) (good : Good w.mem) (update : fileUpdate key val w = .ok w'.files)
    (same : Same w w') : w.mem.value key = some val ∧ InFile key val w := by
  have build := same.build
  rw [fileUpdate, if_pos persist] at update
  cases bound : w.mem.value key with
  | none =>
    -- the new line makes the file longer
    rw [bound] at update
    simp only [opPropFile, rewrite, Bool.false_eq_true, if_false] at update
    cases file : w.files propPathSystemBuild with
    | none =>
      rw [file] at update
      cases update
    | some mem =>
      rw [file, deref_some, ok_bind] at update
      split at update
      · cases update
      · have files : w'.files = Function.update w.files propPathSystemBuild _ := (Except.ok.inj update).symm
        rw [files, Function.update_self, file] at build
        have len := congrArg (List.length ∘ (Option.getD · [])) build
        simp at len
  | some old =>
    rw [bound] at update
    cases file : w.files propPathSystemBuild with
    | none =>
      simp only [opPropFile, file] at update
      cases update
    | some mem =>
      simp only [opPropFile, file, deref_some, ok_bind] at update
      cases out : rewrite key val old.strlen true mem with
      | error e =>
        rw [out] at update
        cases update
      | ok mem' =>
        rw [out] at update
        have files : w'.files = Function.update w.files propPathSystemBuild (some mem') := (Except.ok.inj update).symm
        rw [files, Function.update_self, file] at build
        obtain ⟨p, c, v, y, h⟩ := splice_of_rewrite (legalName.pos legal) out
        rw [rewrite_splice h] at out
        have text : mem' = mem := Option.some.inj build
        have bytes : val.bytes = v := by
          have e := (Except.ok.inj out).trans (text.trans h.parts)
          simpa using e
        subst bytes
        have length : val.strlen = old.strlen := h.length
        have fits : exhausts key val w.mem = false := by simp [exhausts, needsSlot, bound, length]
        have value := same.values key
        rw [spec.good.getVal, good.getVal, spec.value, if_pos ⟨rfl, fits⟩, bound] at value
        exact ⟨by simpa using value.symm, mem, p, c, y, file, length ▸ h⟩

/-- The file keeps its text where the value stands already. -/
theorem fileUpdate_of_inFile {w : World} {key val : CStr} (bound : w.mem.value key = some val)
    (file : startsWith key persistPrefix → InFile key val w) :
    ∃ files, fileUpdate key val w = .ok files ∧ files propPathSystemBuild = w.files propPathSystemBuild := by
  cases persist : startsWith key persistPrefix with
  | false => exact ⟨w.files, by simp [fileUpdate, persist], rfl⟩
  | true =>
    obtain ⟨mem, p, c, y, content, h⟩ := file persist
    refine ⟨Function.update w.files propPathSystemBuild (some mem), ?_, by rw [Function.update_self, content]⟩
    rw [fileUpdate, if_pos persist, bound]
    simp only [opPropFile, content, deref_some, ok_bind, rewrite_splice h, ← h.parts]
    rfl

/-- A call that finds its value stored, or no room for it, leaves everything as it is. -/
theorem setProperty_of_done {w : World} (good : Good w.mem) {key val : CStr} (legal : legalName key)
    (refused : refuses key val w.mem = false)
    (done : (w.mem.value key = some val ∧ (startsWith key persistPrefix → InFile key val w)) ∨
      (exhausts key val w.mem ∧ startsWith key persistPrefix = false)) :
    ∃ r w', setProperty key val w = .ok (r, w') ∧ Same w w' := by
  have short := (refuses_eq_false.1 refused).1
  obtain ⟨r, m', stored, spec⟩ := put_spec good key short
  have tree := put_sameTree good stored (by
    rcases done with ⟨bound, -⟩ | ⟨full, -⟩
    · exact .inl (by simp [bound])
    · exact .inr full)
  have values : ∀ k, getVal k m' = getVal k w.mem := by
    intro k
    rw [spec.good.getVal, good.getVal, spec.value]
    rcases done with ⟨bound, -⟩ | ⟨full, -⟩
    · split
      · next h => rw [h.1, bound]
      · rfl
    · rw [if_neg (by simp [full])]
  obtain ⟨files, update, build⟩ : ∃ files, fileUpdate key val w = .ok files ∧
      files propPathSystemBuild = w.files propPathSystemBuild := by
    rcases done with ⟨bound, file⟩ | ⟨-, volatile⟩
    · exact fileUpdate_of_inFile bound file
    · exact ⟨w.files, by simp [fileUpdate, volatile], rfl⟩
  refine ⟨0, ⟨m', files⟩, ?_, tree, values, build⟩
  rw [setProperty_eq good legal, refused]
  simp only [Bool.false_eq_true, if_false, update, stored, ok_bind]

/-- **`set_property` changes nothing** exactly if it is harmless. -/
theorem setProperty_same_iff {w : World} (good : Good w.mem) (key val : CStr) :
    (∃ r w', setProperty key val w = .ok (r, w') ∧ Same w w') ↔ Harmless key val w := by
  constructor
  · rintro ⟨r, w', run, same⟩
    rcases setProperty_of_run good run with ⟨illegal, -⟩ | ⟨-, refused, -⟩ | ⟨legal, -, -, spec, update⟩
    · exact .inl illegal
    · exact .inr (.inl refused)
    · cases persist : startsWith key persistPrefix with
      | true =>
        obtain ⟨bound, file⟩ := inFile_of_same legal persist spec good update same
        exact .inr (.inr (.inl ⟨bound, fun _ => file⟩))
      | false =>
        cases full : exhausts key val w.mem with
        | true => exact .inr (.inr (.inr ⟨full, persist⟩))
        | false =>
          have value := same.values key
          rw [spec.good.getVal, good.getVal, spec.value, if_pos ⟨rfl, full⟩] at value
          exact .inr (.inr (.inl ⟨(Except.ok.inj value).symm, fun h => by simp [h] at persist⟩))
  · intro harmless
    cases legal : legalName key with
    | false =>
      refine ⟨-1, w, ?_, .refl good⟩
      simp only [setProperty, isLegalPropertyName_spec, ok_bind, legal]
      rfl
    | true =>
      cases refused : refuses key val w.mem with
      | true =>
        rw [setProperty_eq good legal, refused]
        exact ⟨0, w, rfl, .refl good⟩
      | false =>
        apply setProperty_of_done good legal refused
        rcases harmless with h | h | h
        · rw [legal] at h
          cases h
        · rw [refused] at h
          cases h
        · exact h

/-! ## Histories -/

/-- Between two commands: the store is good, and the buffers hold strings. -/
structure Ready (s : Shell) : Prop where
  good : Good s.world.mem
  key : s.propKey.length = propKeyMax ∧ 0 ∈ s.propKey
  value : s.propValue.length = propValueMax ∧ 0 ∈ s.propValue

/-- A read does not change the length of the buffer. -/
theorem systemPropertyGet_length {key value value' : Buf} {m : Mem} (run : systemPropertyGet key value m = .ok value') :
    value'.length = value.length := by
  simp only [systemPropertyGet, bind_eq_ok] at run
  obtain ⟨keyStr, -, found, -, run⟩ := run
  cases found with
  | some val => exact Buf.copy_length run
  | none =>
    simp only [bind_eq_ok] at run
    obtain ⟨old, -, cleared, clear, run⟩ := run
    have same := Buf.copy_length clear
    split at run
    · simp only [bind_eq_ok] at run
      obtain ⟨ro, -, l, -, re, -, k, -, found, -, run⟩ := run
      cases found with
      | some val => exact (Buf.copy_length run).trans same
      | none =>
        cases run
        exact same
    · cases run
      exact same

/-- After a `get_property` without a default there is a string in the buffer. -/
theorem getProperty_keeps {key value value' : Buf} {m : Mem} (nul : 0 ∈ value)
    (run : getProperty key value none m = .ok value') : value'.length = value.length ∧ 0 ∈ value' := by
  simp only [getProperty, bind_eq_ok] at run
  obtain ⟨c, -, run⟩ := run
  split at run
  · obtain ⟨l, -, run⟩ := bind_eq_ok.1 run
    cases run
    exact ⟨rfl, nul⟩
  · simp only [bind_eq_ok] at run
    obtain ⟨v, get_, v', same, s, str, run⟩ := run
    cases same
    cases run
    refine ⟨systemPropertyGet_length get_, ?_⟩
    unfold Buf.str at str
    split at str
    · next h => simpa using h
    · cases str

/-- What is copied of a short argument holds it as a string. -/
theorem Arg.slice_keeps {a : Arg} {n : Nat} (short : a.text.strlen < n) {b : Buf} (run : Buf.slice a.buf 0 n = .ok b) :
    b.length = n ∧ 0 ∈ b := by
  unfold Buf.slice at run
  split at run
  · next fits =>
    cases run
    have head : a.text.bytes.length < n := short
    constructor
    · rw [List.drop_zero, List.length_take]
      omega
    · rw [List.drop_zero, Arg.buf, List.take_append, List.mem_append]
      right
      obtain ⟨k, hk⟩ : ∃ k, n - a.text.bytes.length = k + 1 := ⟨n - a.text.bytes.length - 1, by omega⟩
      rw [hk, List.take_succ_cons]
      exact List.mem_cons_self
  · cases run

theorem cmdGet_keeps {args : List Arg} (short : ∀ a, args[0]? = some a → a.text.strlen < propKeyMax) {s s' : Shell}
    (h : Ready s) (run : cmdGet args s = .ok s') : Ready s' := by
  simp only [cmdGet, bind_eq_ok] at run
  obtain ⟨key, copied, value, read, run⟩ := run
  cases run
  obtain ⟨size, nul⟩ := getProperty_keeps h.value.2 read
  refine ⟨h.good, ?_, size.trans h.value.1, nul⟩
  cases args with
  | nil =>
    cases copied
    exact ⟨List.length_replicate, List.mem_replicate.2 ⟨by decide, rfl⟩⟩
  | cons a args => exact Arg.slice_keeps (short a rfl) copied

theorem setBuffers_keeps {key value : Buf} {w w' : World} {r : Int} (good : Good w.mem)
    (run : setBuffers key value w = .ok (r, w')) : Good w'.mem := by
  simp only [setBuffers, bind_eq_ok] at run
  obtain ⟨keyStr, -, legal, -, run⟩ := run
  split at run
  · cases run
    exact good
  · obtain ⟨val, -, run⟩ := bind_eq_ok.1 run
    exact (setProperty_good good run).1

theorem cmdSet_keeps {args : List Arg} (short : ∀ a b, args[0]? = some a → args[1]? = some b →
    a.text.strlen < propKeyMax ∧ b.text.strlen < propValueMax) {s s' : Shell} (h : Ready s)
    (run : cmdSet args s = .ok s') : Ready s' := by
  simp only [cmdSet, bind_eq_ok] at run
  obtain ⟨⟨key, value⟩, copied, ⟨r, w⟩, set, run⟩ := run
  cases run
  have good := setBuffers_keeps h.good set
  match args, short with
  | [], _ =>
    cases copied
    exact ⟨good, h.key, h.value⟩
  | [a], _ =>
    cases copied
    exact ⟨good, h.key, h.value⟩
  | a :: b :: args, short =>
    simp only [setKeyValue, bind_eq_ok] at copied
    obtain ⟨key', copiedKey, value', copiedValue, e⟩ := copied
    cases e
    obtain ⟨shortKey, shortValue⟩ := short a b rfl rfl
    exact ⟨good, Arg.slice_keeps shortKey copiedKey, Arg.slice_keeps shortValue copiedValue⟩

/-- **A command** whose arguments fit leaves the shell ready. -/
theorem cmdFuncProperty_keeps {argv : List Arg} (fits : Fits argv) {s s' : Shell} (h : Ready s)
    (run : cmdFuncProperty argv s = .ok s') : Ready s' := by
  match argv, fits, run with
  | [], _, run =>
    cases run
    exact h
  | [name], _, run =>
    cases run
    exact h
  | name :: cmd :: args, fits, run =>
    have word : subcommand (name :: cmd :: args) = some cmd.text := rfl
    rw [cmdFuncProperty] at run
    split at run
    · cases run
      exact h
    · split at run
      · next get_ => exact cmdGet_keeps (fun a ha => fits.1 (by rw [word, get_]) a ha) h run
      · split at run
        · next set => exact cmdSet_keeps (fun a b ha hb => fits.2 (by rw [word, set]) a b ha hb) h run
        · cases run
          exact h

theorem ready_start {depth : Nat} {files : Files} {w : World} (loaded : loadAllProps depth ⟨.fresh, files⟩ = .ok w) :
    Ready (.start w) where
  good := (loadAllProps_good vacant_fresh.good loaded).1
  key := ⟨List.length_replicate, List.mem_replicate.2 ⟨by decide, rfl⟩⟩
  value := ⟨List.length_replicate, List.mem_replicate.2 ⟨by decide, rfl⟩⟩

/-- **A history** of commands whose arguments fit leaves the shell ready. -/
theorem run_ready {cmds : List (List Arg)} (fits : ∀ argv ∈ cmds, Fits argv) {s s' : Shell} (h : Ready s)
    (ret : run cmdFuncProperty cmds s = .ok s') : Ready s' :=
  run_invariant (fun _ _ _ h fits run => cmdFuncProperty_keeps fits h run) h
    (meets_of_mem (fun argv hargv _ => fits argv hargv) s) ret

/-! ## Malformed commands -/

/-- The command returns, and changes nothing. -/
def LeavesAlone (argv : List Arg) (s : Shell) : Prop :=
  ∃ s', cmdFuncProperty argv s = .ok s' ∧ Same s.world s'.world

theorem setBuffers_eq {key value : Buf} (hk : 0 ∈ key) (hv : 0 ∈ value) (w : World) :
    setBuffers key value w = setProperty (.ofBytes key) (.ofBytes value) w := by
  have strKey : Buf.str key 0 = .ok (.ofBytes key) := by simp [Buf.str, hk]
  have strValue : Buf.str value 0 = .ok (.ofBytes value) := by simp [Buf.str, hv]
  simp only [setBuffers, strKey, strValue, ok_bind]
  rw [isLegalPropertyName_spec, ok_bind]
  cases legal : legalName (ofBytes key) with
  | true => rfl
  | false =>
    simp only [setProperty, isLegalPropertyName_spec, ok_bind, legal]
    rfl

/-- A `set` with too few arguments sets what is in the buffers. -/
theorem unfinished_iff {argv : List Arg} (unfinished : Unfinished argv) {s : Shell} (h : Ready s) :
    LeavesAlone argv s ↔ Harmless (.ofBytes s.propKey) (.ofBytes s.propValue) s.world := by
  have command : cmdFuncProperty argv s = setBuffers s.propKey s.propValue s.world >>= fun r =>
      .ok ⟨s.propKey, s.propValue, r.2⟩ := by
    obtain ⟨word, few⟩ := unfinished
    match argv, word, few with
    | name :: cmd :: args, word, few =>
      have set : cmd.text = .lit "set" := Option.some.inj word
      have buffers : setKeyValue args s = .ok (s.propKey, s.propValue) := by
        match args, few with
        | [], _ => rfl
        | [a], _ => rfl
        | a :: b :: args, few =>
          simp only [List.length_cons] at few
          omega
      have help : (lit "set" : CStr) ≠ lit "--help" := by decide
      have get_ : (lit "set" : CStr) ≠ lit "get" := by decide
      rw [cmdFuncProperty, set, if_neg help, if_neg get_, if_pos rfl, cmdSet, buffers]
      rfl
  rw [LeavesAlone, command, setBuffers_eq h.key.2 h.value.2, ← setProperty_same_iff h.good]
  constructor
  · rintro ⟨s', run, same⟩
    obtain ⟨⟨r, w'⟩, set, e⟩ := bind_eq_ok.1 run
    cases e
    exact ⟨r, w', set, same⟩
  · rintro ⟨r, w', set, same⟩
    exact ⟨_, by rw [set]; rfl, same⟩

/-- Any other command that is malformed only prints. -/
theorem cmdFuncProperty_prints {argv : List Arg} (bad : Malformed argv) (other : ¬ Unfinished argv) (s : Shell) :
    cmdFuncProperty argv s = .ok s := by
  match argv, bad, other with
  | [], _, _ => rfl
  | [name], _, _ => rfl
  | name :: cmd :: args, bad, other =>
    have word : subcommand (name :: cmd :: args) = some cmd.text := rfl
    rw [Malformed, word] at bad
    rw [Unfinished, word] at other
    have get_ : cmd.text ≠ .lit "get" := fun e => bad.1 (by rw [e])
    have set : cmd.text ≠ .lit "set" := fun e => other ⟨by rw [e], bad.2 (by rw [e])⟩
    rw [cmdFuncProperty, if_neg get_, if_neg set, ite_self]

/-- **A malformed command changes nothing** exactly if it is not a `set` with too few arguments, or the `set_property`
of the two strings that are in the buffers is harmless. This holds after any history of commands of a process that has
loaded its properties, if the keys and the values that they copy fit the buffers. -/
theorem malformed_leaves_alone {depth : Nat} {files : Files} {w : World}
    (loaded : loadAllProps depth ⟨.fresh, files⟩ = .ok w) {cmds : List (List Arg)} (fits : ∀ argv ∈ cmds, Fits argv)
    {s : Shell} (ret : run cmdFuncProperty cmds (.start w) = .ok s) {argv : List Arg} (bad : Malformed argv) :
    LeavesAlone argv s ↔
      (Unfinished argv → Harmless (.ofBytes s.propKey) (.ofBytes s.propValue) s.world) := by
  have ready := run_ready fits (ready_start loaded) ret
  by_cases unfinished : Unfinished argv
  · rw [unfinished_iff unfinished ready]
    exact ⟨fun h _ => h, fun h => h unfinished⟩
  · have alone : LeavesAlone argv s := ⟨s, cmdFuncProperty_prints bad unfinished s, .refl ready.good⟩
    exact ⟨fun _ h => absurd h unfinished, fun _ => alone⟩

/-- An argument in a line buffer of the shell. -/
def Arg.lit (s : String) : Arg := ⟨.lit s, List.replicate propValueMax 0⟩

/-- One command: a key that is not bound is read. -/
def readB : List (List Arg) := [[.lit "property", .lit "get", .lit "b"]]

theorem readB_fits : ∀ argv ∈ readB, Fits argv := by
  intro argv h
  obtain rfl := List.mem_singleton.1 h
  refine ⟨fun _ a ha => ?_, fun e => absurd e (by decide)⟩
  cases ha
  decide

/-- A key that is not bound is read, and then set with no arguments. -/
theorem malformed_leaves_alone_read : ∃ w, loadAllProps 1 ⟨.fresh, fun _ => none⟩ = .ok w ∧
    ∃ s, run cmdFuncProperty readB (.start w) = .ok s ∧
      (LeavesAlone [.lit "property", .lit "set"] s ↔
        (Unfinished [.lit "property", .lit "set"] →
          Harmless (.ofBytes s.propKey) (.ofBytes s.propValue) s.world)) := by
  exact ⟨_, rfl, _, rfl, @malformed_leaves_alone 1 (fun _ => none) _ rfl _ readB_fits _ rfl _ ⟨by decide, by decide⟩⟩

/-- **A `set` with no arguments** after a `get` binds the key that was read to the empty string. -/
theorem unfinished_set_binds : ¬ ∀ (depth : Nat) (files : Files) (w : World) (cmds : List (List Arg)) (s : Shell)
    (argv : List Arg), loadAllProps depth ⟨.fresh, files⟩ = .ok w → (∀ argv ∈ cmds, Fits argv) →
      run cmdFuncProperty cmds (.start w) = .ok s → Malformed argv → LeavesAlone argv s := by
  intro always
  obtain ⟨s', ret, same⟩ := always 1 (fun _ => none) _ _ _ [.lit "property", .lit "set"] rfl readB_fits rfl
    ⟨by decide, by decide⟩
  cases ret
  have value := same.values (.lit "b")
  exact absurd (congrArg Except.toOption value) (by decide)

end CodeBackup.Property
