import CodeBackup.Property.Bindings
import CodeBackup.Property.Command

/-!
# What the shell shows

The `property` command against its purpose. A user sees bindings, and a text for
each key that is read. The handler reads all keys into one static buffer, without
clearing it for a key that is bound, so what it shows is the value over the text
that was shown before. `Screen` says this of texts alone; every history of
commands is a history of the screen (`shell_shows`), and a `get` shows the value
of a bound key exactly if the text before was not longer (`get_shows_iff`).
-/

namespace CodeBackup.Property

open C C.Outcome Rbtree ColorTree CStr Binding Run

/-- A text that is copied over another one, without its terminator. -/
def copiedOver (val t : CStr) : CStr where
  bytes := val.bytes ++ t.bytes.drop val.strlen
  nulFree := by
    rw [List.mem_append, not_or]
    exact ⟨val.nulFree, fun h => t.nulFree (List.mem_of_mem_drop h)⟩

/-- The bindings, and the texts of the last key and the last value. -/
structure Screen where
  bindings : Bindings
  key : CStr
  shown : CStr

namespace Screen

/-- What is shown for a key. -/
def answer (v : Screen) (key : CStr) : CStr :=
  (v.bindings.value key).elim (v.bindings.lookup key) fun val => copiedOver val v.shown

/-- A `get`. Without a key it lists the bindings. -/
def get (key : CStr) (v : Screen) : Screen :=
  { v with key := key, shown := if key.strlen = 0 then v.shown else v.answer key }

/-- What a `set` takes over: with too few arguments nothing. -/
def fill : List Arg → Screen → Screen
  | a :: b :: _, v => { v with key := a.text, shown := b.text }
  | _, v => v

/-- A `set` of the texts. -/
def set (v : Screen) : Screen := { v with bindings := (v.bindings.set v.key v.shown).2 }

/-- A command. -/
def step (argv : List Arg) (v : Screen) : Screen :=
  match argv with
  | _ :: cmd :: args =>
    if cmd.text = .lit "get" then v.get ((args.head?.map Arg.text).getD (.lit ""))
    else if cmd.text = .lit "set" then (v.fill args).set
    else v
  | _ => v

end Screen

/-- The value that a `set` copies stands in a line of NULs. -/
def Clean (argv : List Arg) : Prop :=
  subcommand argv = some (.lit "set") → ∀ b, argv[3]? = some b → ∀ x ∈ b.behind, x = 0

/-- The shell shows the screen. -/
structure Shows (s : Shell) (v : Screen) : Prop where
  holds : Implements s.world.mem v.bindings
  key : s.propKey.length = propKeyMax ∧ 0 ∈ s.propKey
  text : ofBytes s.propKey = v.key
  value : s.propValue = pad v.shown
  short : v.shown.strlen < propValueMax

/-! ## Buffers -/

section

variable {m : Mem} {b : Bindings} {val t : CStr}

theorem pad_length (short : t.strlen ≤ propValueMax) : (pad t).length = propValueMax := by
  simp only [pad, List.length_append, List.length_replicate, strlen] at short ⊢
  omega

theorem pad_nul (short : t.strlen < propValueMax) : 0 ∈ pad t :=
  List.mem_append_right _ (List.mem_replicate.2 ⟨by omega, rfl⟩)

theorem pad_ofBytes (short : t.strlen < propValueMax) : ofBytes (pad t) = t := by
  have str := pad_str short
  rw [Buf.str, List.drop_zero, if_pos (pad_nul short)] at str
  exact Except.ok.inj str

theorem copiedOver_strlen (val t : CStr) : (copiedOver val t).strlen = max val.strlen t.strlen := by
  simp only [copiedOver, strlen, List.length_append, List.length_drop]
  omega

/-- The buffer after a value was copied to its start. -/
theorem pad_copiedOver (short : t.strlen < propValueMax) :
    val.bytes ++ (pad t).drop val.strlen = pad (copiedOver val t) := by
  have rest : propValueMax - t.strlen - (val.strlen - t.strlen) = propValueMax - max val.strlen t.strlen := by omega
  have zeros : t.bytes.length = t.strlen := rfl
  rw [pad, pad, copiedOver_strlen, List.drop_append, zeros, List.drop_replicate, rest, copiedOver, List.append_assoc]

theorem cleared_pad (short : t.strlen < propValueMax) : cleared (pad t) = pad (.lit "") := by
  have empty : pad (.lit "") = List.replicate propValueMax 0 := by decide
  have zeros : t.bytes.length = t.strlen := rfl
  rw [cleared, pad_ofBytes short, pad, List.drop_append, zeros, Nat.sub_self, List.drop_zero,
    List.drop_of_length_le (Nat.le_of_eq zeros), List.nil_append, ← List.replicate_add, empty]
  congr 1
  omega

/-- **`__system_property_get`** into a buffer that holds a text. -/
theorem systemPropertyGet_answer {v : Screen} (h : Implements m v.bindings) (short : v.shown.strlen < propValueMax)
    {key : CStr} {rest : List UInt8} (fits : key.strlen < propKeyMax)
    (long : propKeyMax ≤ key.strlen + 1 + rest.length) :
    systemPropertyGet (key.bytes ++ 0 :: rest) (pad v.shown) m = .ok (pad (v.answer key)) := by
  have get := systemPropertyGet_eq h.accounts.good key rest ⟨pad v.shown, pad_length short.le, pad_nul short⟩
  simp only [cleared_pad short, h.value, roKey_eq fits, if_pos long] at get
  rw [get, Screen.answer]
  cases bound : v.bindings.value key with
  | some val => simp only [Option.elim, pad_copiedOver short]
  | none =>
    simp only [Option.elim, Bindings.lookup, bound]
    by_cases persist : startsWith key persistPrefix
    · simp only [if_pos persist]
      cases v.bindings.value (roKey key key.strlen) with
      | some val => simp only [pad_drop, Option.getD_some]
      | none => rfl
    · simp only [if_neg persist]

theorem Implements.answer_short {v : Screen} (h : Implements m v.bindings) (short : v.shown.strlen < propValueMax)
    (key : CStr) : (v.answer key).strlen < propValueMax := by
  rw [Screen.answer]
  cases bound : v.bindings.value key with
  | some val =>
    have stored : m.value key = some val := by rw [h.value]; exact bound
    have value := h.accounts.good.value_short stored
    simp only [Option.elim, copiedOver_strlen]
    omega
  | none => exact h.lookup_short key

end

/-! ## Commands -/

/-- What is copied of a short argument is its text, a NUL, and what stands behind it. -/
theorem Arg.slice_split {a : Arg} {n : Nat} (short : a.text.strlen < n) {b : Buf} (run : Buf.slice a.buf 0 n = .ok b) :
    ∃ rest, b = a.text.bytes ++ 0 :: rest ∧ rest <+: a.behind ∧ b.length = n := by
  obtain ⟨size, -⟩ := a.slice_keeps short run
  unfold Buf.slice at run
  split at run
  · cases run
    have head : a.text.bytes.length ≤ n := Nat.le_of_lt short
    obtain ⟨k, hk⟩ : ∃ k, n - a.text.bytes.length = k + 1 := Nat.exists_eq_succ_of_ne_zero (by
      have : a.text.bytes.length < n := short
      omega)
    refine ⟨a.behind.take k, ?_, List.take_prefix _ _, size⟩
    rw [List.drop_zero, Arg.buf, List.take_append, List.take_of_length_le head, hk, List.take_succ_cons]
  · cases run

theorem ofBytes_text (t : CStr) (rest : List UInt8) : ofBytes (t.bytes ++ 0 :: rest) = t := by
  have str := Buf.str_at [] t rest
  rw [List.length_nil, List.nil_append, Buf.str, List.drop_zero,
    if_pos (List.mem_append_right _ List.mem_cons_self)] at str
  exact Except.ok.inj str

variable {s s' : Shell} {v : Screen}

/-- **`get_property`** into the buffer of the shell. -/
theorem Shows.getProperty (h : Shows s v) {key : CStr} {rest : List UInt8} (fits : key.strlen < propKeyMax)
    (long : propKeyMax ≤ key.strlen + 1 + rest.length) :
    getProperty (key.bytes ++ 0 :: rest) s.propValue none s.world.mem = .ok (pad (v.get key).shown) := by
  by_cases empty : key.strlen = 0
  · have bytes : key.bytes = [] := List.length_eq_zero_iff.1 empty
    have first : Buf.read (key.bytes ++ 0 :: rest) 0 = .ok 0 := by
      rw [bytes]
      rfl
    obtain ⟨pairs, list, -, -⟩ := h.holds.accounts.good.list
    rw [Property.getProperty, first, ok_bind, if_pos rfl, list, ok_bind, h.value, Screen.get, if_pos empty]
  · obtain ⟨c, bytes, e⟩ : ∃ c bytes, key.bytes = c :: bytes := by
      apply List.exists_cons_of_ne_nil
      intro none
      exact empty (List.length_eq_zero_iff.2 none)
    have first : Buf.read (key.bytes ++ 0 :: rest) 0 = .ok c := by
      rw [e]
      rfl
    have ne : c ≠ 0 := fun nul => key.nulFree (by rw [e, nul]; exact List.mem_cons_self)
    rw [getProperty_finish first ne, h.value, systemPropertyGet_answer h.holds h.short fits long, ok_bind,
      finishGet_pad (h.holds.answer_short h.short key), Screen.get, if_neg empty]

/-- What a `get` copies into `prop_key`. -/
theorem getKey_split {args : List Arg} (short : ∀ a, args[0]? = some a → a.text.strlen < propKeyMax) {key : Buf}
    (copied : getKey args = .ok key) : ∃ t rest, t = (args.head?.map Arg.text).getD (.lit "") ∧
      key = t.bytes ++ 0 :: rest ∧ t.strlen < propKeyMax ∧ propKeyMax = t.strlen + 1 + rest.length := by
  cases args with
  | nil =>
    cases copied
    exact ⟨.lit "", List.replicate 31 0, rfl, by decide, by decide, by decide⟩
  | cons a args =>
    obtain ⟨rest, split, -, size⟩ := a.slice_split (short a rfl) copied
    refine ⟨a.text, rest, rfl, split, short a rfl, ?_⟩
    rw [split, List.length_append, List.length_cons] at size
    simp only [strlen]
    omega

/-- **A `get`** of a short key. -/
theorem Shows.get (h : Shows s v) {args : List Arg} (short : ∀ a, args[0]? = some a → a.text.strlen < propKeyMax)
    (run : cmdGet args s = .ok s') : Shows s' (v.get ((args.head?.map Arg.text).getD (.lit ""))) := by
  simp only [cmdGet, bind_eq_ok] at run
  obtain ⟨key, copied, value, read, run⟩ := run
  cases run
  obtain ⟨t, rest, ht, rfl, fits, long⟩ := getKey_split short copied
  rw [← ht]
  rw [h.getProperty fits long.le] at read
  obtain rfl : pad (v.get t).shown = value := Except.ok.inj read
  refine ⟨h.holds, ⟨?_, ?_⟩, ofBytes_text t rest, rfl, ?_⟩
  · rw [List.length_append, List.length_cons]
    simp only [strlen] at long
    omega
  · exact List.mem_append_right _ List.mem_cons_self
  · rw [Screen.get]
    split
    · exact h.short
    · exact h.holds.answer_short h.short t

/-- It returns if the key stands in enough memory. -/
theorem Shows.get_returns (h : Shows s v) {a : Arg} (short : a.text.strlen < propKeyMax)
    (size : propKeyMax ≤ a.buf.length) (args : List Arg) : ∃ s', cmdGet (a :: args) s = .ok s' := by
  have copied : getKey (a :: args) = .ok (a.buf.take propKeyMax) := by
    rw [getKey, Buf.slice, if_pos (by simpa using size), List.drop_zero]
  obtain ⟨t, rest, -, split, fits, long⟩ :=
    @getKey_split (a :: args) (by rintro _ ⟨⟩; exact short) _ copied
  rw [cmdGet, copied, ok_bind, split, h.getProperty fits long.le, ok_bind]
  exact ⟨_, rfl⟩

/-- `set_property` of what the buffers hold. -/
theorem Shows.setBuffers (h : Shows s v) {r : Int} {w : World}
    (run : setBuffers s.propKey s.propValue s.world = .ok (r, w)) : Shows ⟨s.propKey, s.propValue, w⟩ v.set := by
  rw [setBuffers_eq h.key.2 (h.value ▸ pad_nul h.short), h.text, h.value, pad_ofBytes h.short] at run
  have call : (Request.set v.key v.shown).whole s.world = .ok (w, .status r) := by
    simp only [Request.whole, run, ok_bind]
  obtain ⟨b', permits, holds⟩ := whole_permits (show (Request.set v.key v.shown).Proper from trivial) h.holds call
  have same : b' = (v.bindings.set v.key v.shown).2 := congrArg Prod.snd permits
  rw [same] at holds
  exact ⟨holds, h.key, h.text, h.value, h.short⟩

/-- **A `set`**, with too few arguments or with ones that fit. -/
theorem Shows.set (h : Shows s v) {args : List Arg} (short : ∀ a b, args[0]? = some a → args[1]? = some b →
    a.text.strlen < propKeyMax ∧ b.text.strlen < propValueMax) (clean : ∀ b, args[1]? = some b → ∀ x ∈ b.behind, x = 0)
    (run : cmdSet args s = .ok s') : Shows s' (v.fill args).set := by
  simp only [cmdSet, bind_eq_ok] at run
  obtain ⟨⟨key, value⟩, copied, ⟨r, w⟩, set, run⟩ := run
  cases run
  cases args with
  | nil =>
    cases copied
    exact h.setBuffers set
  | cons a args =>
    cases args with
    | nil =>
      cases copied
      exact h.setBuffers set
    | cons b args =>
      simp only [setKeyValue, bind_eq_ok] at copied
      obtain ⟨key', copiedKey, value', copiedValue, e⟩ := copied
      obtain ⟨rfl, rfl⟩ := Prod.mk.inj (Except.ok.inj e)
      obtain ⟨shortKey, shortValue⟩ := short a b rfl rfl
      obtain ⟨rest, splitKey, -, sizeKey⟩ := a.slice_split shortKey copiedKey
      obtain ⟨rest', splitValue, behind, sizeValue⟩ := b.slice_split shortValue copiedValue
      have zeros : rest' = List.replicate rest'.length 0 :=
        List.eq_replicate_of_mem fun x hx => clean b rfl x (behind.subset hx)
      have padded : value' = pad b.text := by
        rw [splitValue, List.length_append, List.length_cons] at sizeValue
        have length : rest'.length = propValueMax - b.text.strlen - 1 := by
          simp only [strlen]
          omega
        rw [splitValue, zeros, length, pad, ← List.replicate_succ]
        congr 2
        omega
      have copied : Shows ⟨key', value', s.world⟩ { v with key := a.text, shown := b.text } :=
        ⟨h.holds, ⟨sizeKey, splitKey ▸ List.mem_append_right _ List.mem_cons_self⟩, splitKey ▸ ofBytes_text _ _, padded,
          shortValue⟩
      exact copied.setBuffers set

/-- **A command** whose arguments fit, in clean lines. -/
theorem Shows.step (h : Shows s v) {argv : List Arg} (fits : Fits argv) (clean : Clean argv)
    (run : cmdFuncProperty argv s = .ok s') : Shows s' (v.step argv) := by
  cases argv with
  | nil =>
    cases run
    exact h
  | cons name argv =>
    cases argv with
    | nil =>
      cases run
      exact h
    | cons cmd args =>
      have word : subcommand (name :: cmd :: args) = some cmd.text := rfl
      rw [cmdFuncProperty] at run
      rw [Screen.step]
      by_cases get_ : cmd.text = .lit "get"
      · have help : (lit "get" : CStr) ≠ lit "--help" := by decide
        rw [get_, if_neg help, if_pos rfl] at run
        rw [if_pos get_]
        exact h.get (fun a ha => fits.1 (by rw [word, get_]) a ha) run
      · rw [if_neg get_] at run ⊢
        by_cases set : cmd.text = .lit "set"
        · have help : (lit "set" : CStr) ≠ lit "--help" := by decide
          rw [set, if_neg help, if_pos rfl] at run
          rw [if_pos set]
          exact h.set (fun a b ha hb => fits.2 (by rw [word, set]) a b ha hb)
            (fun b hb => clean (by rw [word, set]) b hb) run
        · rw [if_neg set, ite_self] at run
          rw [if_neg set]
          cases run
          exact h

/-! ## Histories -/

/-- The screen after a history of commands. -/
def Screen.after (cmds : List (List Arg)) (b : Bindings) : Screen :=
  cmds.foldl (fun v argv => v.step argv) ⟨b, .lit "", .lit ""⟩

theorem Shows.start {w : World} {b : Bindings} (h : Implements w.mem b) : Shows (.start w) (.after [] b) where
  holds := h
  key := ⟨List.length_replicate, List.mem_replicate.2 ⟨by decide, rfl⟩⟩
  text := show ofBytes (List.replicate propKeyMax 0) = .lit "" by decide
  value := show List.replicate propValueMax 0 = pad (.lit "") by decide
  short := show (lit "").strlen < propValueMax by decide

/-- A value that is copied over a text is read back if the text was not longer. -/
theorem copiedOver_eq_iff {val t : CStr} : copiedOver val t = val ↔ t.strlen ≤ val.strlen := by
  rw [CStr.ext_iff]
  exact List.append_right_eq_self.trans List.drop_eq_nil_iff

theorem Screen.answer_eq_iff {v : Screen} {key : CStr} : v.answer key = v.bindings.lookup key ↔
    ∀ val, v.bindings.value key = some val → v.shown.strlen ≤ val.strlen := by
  rw [Screen.answer]
  cases bound : v.bindings.value key with
  | some val =>
    simp only [Option.elim, Bindings.lookup, bound, copiedOver_eq_iff, Option.some.injEq, forall_eq']
  | none => simp only [Option.elim, reduceCtorEq, false_implies, implies_true]

/-- **The shell shows the values over one another.** Take a process that has loaded its properties, and any history of
commands, malformed ones included, whose keys and values fit the buffers, with each value in a line of NULs. Then the
bindings and the texts in the two buffers are those of the screen after the history. And the next `get` of a key
returns, and shows what the bindings say of the key exactly if the key is not bound or the text before was not
longer. -/
theorem shell_shows {depth : Nat} {files : Files} {w : World} (load : loadAllProps depth ⟨.fresh, files⟩ = .ok w) :
    ∃ b₀, Implements w.mem b₀ ∧ ∀ {cmds : List (List Arg)} {s : Shell}, (∀ argv ∈ cmds, Fits argv ∧ Clean argv) →
      run cmdFuncProperty cmds (.start w) = .ok s → Shows s (.after cmds b₀) ∧
        ∀ (name : Arg) (a : Arg) (args : List Arg), 0 < a.text.strlen → a.text.strlen < propKeyMax →
          propKeyMax ≤ a.buf.length → ∃ s', cmdFuncProperty (name :: .lit "get" :: a :: args) s = .ok s' ∧
            (Buf.str s'.propValue 0 = .ok ((Screen.after cmds b₀).bindings.lookup a.text) ↔
              ∀ val, (Screen.after cmds b₀).bindings.value a.text = some val →
                (Screen.after cmds b₀).shown.strlen ≤ val.strlen) := by
  obtain ⟨b₀, start⟩ := loadAllProps_implements vacant_fresh load
  refine ⟨b₀, start, fun {cmds s} proper ret => ?_⟩
  have shows_ : Shows s (.after cmds b₀) :=
    run_simulates (R := Shows) (P := fun argv => Fits argv ∧ Clean argv)
      (fun proper h run => h.step proper.1 proper.2 run) cmds proper (Shows.start start) ret
  refine ⟨shows_, fun name a args pos short size => ?_⟩
  obtain ⟨s', get⟩ := shows_.get_returns short size args
  have after := shows_.get (by rintro _ ⟨⟩; exact short) get
  have command : cmdFuncProperty (name :: .lit "get" :: a :: args) s = cmdGet (a :: args) s := by
    have help : (lit "get" : CStr) ≠ lit "--help" := by decide
    rw [cmdFuncProperty, show (Arg.lit "get").text = lit "get" from rfl, if_neg help, if_pos rfl]
  refine ⟨s', command.trans get, ?_⟩
  have shown : (Screen.get a.text (.after cmds b₀)).shown = (Screen.after cmds b₀).answer a.text := if_neg pos.ne'
  rw [after.value, pad_str after.short, ← Screen.answer_eq_iff, Except.ok.injEq, ← shown]
  rfl

/-- A command that reads the key. -/
def getCommand (key : String) : List Arg := [.lit "property", .lit "get", .lit key]

theorem getCommand_proper : ∀ argv ∈ [getCommand "a"], Fits argv ∧ Clean argv := by
  intro argv h
  obtain rfl := List.mem_singleton.1 h
  refine ⟨⟨fun _ a ha => ?_, fun set => ?_⟩, fun set => ?_⟩
  · cases ha
    decide
  · exact absurd set (by decide)
  · exact absurd set (by decide)

/-- A key with a longer value is read before one with a shorter value. -/
theorem shell_shows_two : ∃ w, loadAllProps 1 ⟨.fresh, twoFiles (.lit "a=12\nb=3\n") (.lit "")⟩ = .ok w ∧
    ∃ b₀ s s', run cmdFuncProperty [getCommand "a"] (.start w) = .ok s ∧ Shows s (.after [getCommand "a"] b₀) ∧
      cmdFuncProperty (getCommand "b") s = .ok s' ∧
      (Buf.str s'.propValue 0 = .ok ((Screen.after [getCommand "a"] b₀).bindings.lookup (.lit "b")) ↔
        ∀ val, (Screen.after [getCommand "a"] b₀).bindings.value (.lit "b") = some val →
          (Screen.after [getCommand "a"] b₀).shown.strlen ≤ val.strlen) := by
  refine ⟨_, rfl, ?_⟩
  obtain ⟨b₀, -, shows_⟩ := @shell_shows 1 (twoFiles (.lit "a=12\nb=3\n") (.lit "")) _ rfl
  obtain ⟨first, next⟩ := shows_ getCommand_proper rfl
  obtain ⟨s', get, reads⟩ := next (.lit "property") (.lit "b") [] (by decide) (by decide) (by decide)
  exact ⟨b₀, _, s', rfl, first, get, reads⟩

end CodeBackup.Property
