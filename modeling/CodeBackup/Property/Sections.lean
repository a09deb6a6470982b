import CodeBackup.Conc.Sections
import CodeBackup.Property.Get

/-!
# The critical sections of the service, step by step

What `get_property`, `set_property` and `release_all_props` do between their
locks, cut into steps: a reader looks at one node of the tree in a step, both
in the search of `get` and in the loop that prints the list; a writer tests the
name, searches, rewrites the file and calls `put` in a step each, and a release
erases one node in a step. `serviceCut` says that the steps of a call add up to
the call.
-/

namespace CodeBackup.Property

open C C.Outcome Rbtree ColorTree Conc

/-- A call of the service with its arguments. The key and the value of `get_property` are buffers of the caller. -/
inductive Request where
  | get (key value : Buf) (defaultValue : Option CStr)
  | set (key value : CStr)
  | release
  deriving DecidableEq

/-- What the caller has afterwards: the buffer `value`, whose string is printed, or the pairs that are printed for an
empty key; or the status. -/
inductive Answer where
  | read (value : Buf)
  | listed (pairs : List (CStr × CStr))
  | status (r : Int)
  | released
  deriving DecidableEq

/-- The call in one piece. -/
def Request.whole : Request → World → Outcome (World × Answer)
  | .get key value d, w => do
    if (← Buf.read key 0) = 0 then
      let pairs ← systemPropertyList w.mem
      .ok (w, .listed pairs)
    else
      let value ← getProperty key value d w.mem
      .ok (w, .read value)
  | .set key value, w => do
    let (r, w) ← setProperty key value w
    .ok (w, .status r)
  | .release, w => do
    let w ← releaseAllProps w
    .ok (w, .released)

/-! ## Places -/

/-- Which of the two searches of `__system_property_get` is under way. -/
inductive Search where
  /-- For the key itself. -/
  | first (keyStr : CStr) (key value : Buf) (defaultValue : Option CStr)
  /-- For the `ro.` key, the buffer being cleared. -/
  | fallback (value : Buf) (defaultValue : Option CStr)

/-- A place of a call inside its section. -/
inductive Place where
  /-- `get_property`: `if(*key == 0)`. -/
  | getTest (key value : Buf) (defaultValue : Option CStr)
  /-- The loop of `__system_property_list`, at `data`. -/
  | listTurn (turns : Nat) (data : Option Ptr) (printed : List (CStr × CStr))
  /-- The loop of `get`, at `node`. -/
  | searchTurn (turns : Nat) (str : CStr) (node : Option Ptr) (search : Search)
  /-- `if(data == NULL)`, with the node that the search has found. -/
  | found (data : Option Ptr) (search : Search)
  /-- `set_property`: the test of the name. -/
  | setTest (key value : CStr)
  /-- `__system_property_set`: the tests of the lengths, and the search. -/
  | setSearch (key value : CStr)
  /-- `op_prop_file`, where it is called. -/
  | setFile (key value : CStr) (data : Option Ptr)
  /-- `put`, or `__system_property_add` for a new key. -/
  | setPut (key value : CStr) (new : Bool)
  /-- `__prop_memory_destroy`. -/
  | drain
  /-- Its loop. -/
  | drainTurn (turns : Nat)
  /-- `memory_destroy`. -/
  | destroy

/-- The place belongs to `get_property`. -/
def Place.reads : Place → Bool
  | .getTest .. | .listTurn .. | .searchTurn .. | .found .. => true
  | _ => false

/-- The text of the node that a search has found. -/
def textAt (data : Option Ptr) (m : Mem) : Outcome (Option CStr) :=
  match data with
  | none => .ok none
  | some p => do
    let e ← m.entry p
    .ok (some (← m.loadStr e.val))

/-- `get_property` after `__system_property_get`: the default value, and the text that is printed. -/
def finishGet (value : Buf) (defaultValue : Option CStr) : Outcome Buf := do
  let value ← match defaultValue with
    | some d => if (← Buf.str value 0).strlen = 0 then copyDefault value d else .ok value
    | none => .ok value
  let _ ← Buf.str value 0
  .ok value

/-- The key of the fallback. -/
def fallbackKey (key : Buf) : Outcome CStr := do
  let reKey ← Buf.copy (List.replicate propKeyMax 0) 0 roPrefix.bytes
  let reKey ← Buf.copy reKey 3 (← Buf.slice key 8 (propKeyMax - 8))
  Buf.str reKey 0

/-- The text that was found is copied, and `get_property` goes on. -/
def copyText (value : Buf) (defaultValue : Option CStr) : Option CStr → Outcome Buf
  | some val => do finishGet (← Buf.copy value 0 val.bytes) defaultValue
  | none => finishGet value defaultValue

/-- What follows a search: the answer, or the key and the buffer of a second search. -/
def Search.answer : Search → Option CStr → Outcome (Buf ⊕ CStr × Buf)
  | .first keyStr key value d, none => do
    let old ← Buf.str value 0
    let value ← Buf.copy value 0 (List.replicate old.strlen 0)
    if startsWith keyStr persistPrefix then
      let reKey ← fallbackKey key
      .ok (.inr (reKey, value))
    else .ok (.inl (← finishGet value d))
  | .first _ _ value d, some val => do .ok (.inl (← copyText value d (some val)))
  | .fallback value d, text => do .ok (.inl (← copyText value d text))

/-- The default value that was passed with the call. -/
def Search.defaultValue : Search → Option CStr
  | .first _ _ _ d => d
  | .fallback _ d => d

/-- The rewrite of the file, where `__system_property_set` asks for it. -/
def setFile (key value : CStr) (data : Option Ptr) (w : World) : Outcome Files :=
  if startsWith key persistPrefix then
    match data with
    | none => Prod.snd <$> opPropFile propPathSystemBuild key value 0 false w.files
    | some p => do
      let e ← w.mem.entry p
      let old ← w.mem.loadStr e.val
      Prod.snd <$> opPropFile propPathSystemBuild key value old.strlen true w.files
  else .ok w.files

/-- The call of `__system_property_add`, or of `put`. -/
def setPut (key value : CStr) (new : Bool) (m : Mem) : Outcome (Int × Mem) :=
  if new then systemPropertyAdd key value m else put key value m

namespace Place

/-- **One step** inside a section. -/
def next : Place → World → Outcome (World × (Place ⊕ Answer))
  | getTest key value d, w => do
    if (← Buf.read key 0) = 0 then
      .ok (w, .inl (listTurn (w.mem.tree.next + 1) (← mapFirst w.mem) []))
    else
      let keyStr ← Buf.str key 0
      .ok (w, .inl (searchTurn (w.mem.tree.next + 1) keyStr w.mem.tree.root (.first keyStr key value d)))
  | listTurn 0 _ _, _ => .error .loopBound
  | listTurn (_ + 1) none printed, w => .ok (w, .inr (.listed printed))
  | listTurn (n + 1) (some data) printed, w => do
    let e ← w.mem.entry data
    let val ← w.mem.loadStr e.val
    .ok (w, .inl (listTurn n (← mapNext data w.mem) (printed ++ [(e.key, val)])))
  | searchTurn 0 _ _ _, _ => .error .loopBound
  | searchTurn (_ + 1) _ none k, w => .ok (w, .inl (found none k))
  | searchTurn (n + 1) str (some node) k, w => do
    let data ← w.mem.entry node
    let links ← w.mem.tree.node node
    match CStr.strcmp str data.key with
    | .lt => .ok (w, .inl (searchTurn n str links.rbLeft k))
    | .gt => .ok (w, .inl (searchTurn n str links.rbRight k))
    | .eq => .ok (w, .inl (found (some node) k))
  | found data k, w => do
    match ← k.answer (← textAt data w.mem) with
    | .inl value => .ok (w, .inr (.read value))
    | .inr (reKey, value) =>
      .ok (w, .inl (searchTurn (w.mem.tree.next + 1) reKey w.mem.tree.root (.fallback value k.defaultValue)))
  | setTest key value, w => do
    if !(← isLegalPropertyName (key.bytes ++ [0]) key.strlen) then .ok (w, .inr (.status (-1)))
    else .ok (w, .inl (setSearch key value))
  | setSearch key value, w =>
    if key.strlen ≥ propKeyMax then .ok (w, .inr (.status 0))
    else if value.strlen ≥ propValueMax then .ok (w, .inr (.status 0))
    else if key.strlen < 1 then .ok (w, .inr (.status 0))
    else do
      match ← Property.get key w.mem with
      | none => .ok (w, .inl (setFile key value none))
      | some data =>
        if startsWith key roPrefix then .ok (w, .inr (.status 0)) else .ok (w, .inl (setFile key value (some data)))
  | setFile key value data, w => do
    let files ← Property.setFile key value data w
    .ok (⟨w.mem, files⟩, .inl (setPut key value data.isNone))
  | setPut key value new, w => do
    let (_, m) ← Property.setPut key value new w.mem
    .ok (⟨m, w.files⟩, .inr (.status 0))
  | drain, w => .ok (w, .inl (drainTurn (w.mem.tree.next + 1)))
  | drainTurn 0, _ => .error .loopBound
  | drainTurn (n + 1), w => do
    match ← mapFirst w.mem with
    | none => .ok (w, .inl destroy)
    | some nodeFree =>
      let tree ← rbErase nodeFree w.mem.tree
      .ok (⟨mapFree nodeFree { w.mem with tree := tree }, w.files⟩, .inl (drainTurn n))
  | destroy, w => do
    let m ← memoryDestroy w.mem
    .ok (⟨m, w.files⟩, .inr .released)

end Place

/-! ## What remains of a call -/

/-- From the node that a search has found, to the answer. -/
def Search.rest (k : Search) (data : Option Ptr) (m : Mem) : Outcome Buf := do
  match ← k.answer (← textAt data m) with
  | .inl value => .ok value
  | .inr (reKey, value) => do
    let data ← getLoop (m.tree.next + 1) reKey m.tree.root m
    copyText value k.defaultValue (← textAt data m)

namespace Place

/-- From a place to the answer, in one piece. -/
def rest : Place → World → Outcome (World × Answer)
  | getTest key value d, w => (Request.get key value d).whole w
  | listTurn n data printed, w => do
    let pairs ← listLoop n data w.mem
    .ok (w, .listed (printed ++ pairs))
  | searchTurn n str node k, w => do
    let data ← getLoop n str node w.mem
    let value ← k.rest data w.mem
    .ok (w, .read value)
  | found data k, w => do
    let value ← k.rest data w.mem
    .ok (w, .read value)
  | setTest key value, w => (Request.set key value).whole w
  | setSearch key value, w => do
    let (_, w) ← systemPropertySet key value propPathSystemBuild w
    .ok (w, .status 0)
  | setFile key value data, w => do
    let files ← Property.setFile key value data w
    let (_, m) ← Property.setPut key value data.isNone w.mem
    .ok (⟨m, files⟩, .status 0)
  | setPut key value new, w => do
    let (_, m) ← Property.setPut key value new w.mem
    .ok (⟨m, w.files⟩, .status 0)
  | drain, w => Request.release.whole w
  | drainTurn n, w => do
    let m ← drainLoop n w.mem
    let m ← memoryDestroy m
    .ok (⟨m, w.files⟩, .released)
  | destroy, w => do
    let m ← memoryDestroy w.mem
    .ok (⟨m, w.files⟩, .released)

/-- The first place of a call. -/
def start : Request → Place
  | .get key value d => .getTest key value d
  | .set key value => .setTest key value
  | .release => .drain

end Place

/-! ## The steps add up -/

theorem getVal_eq (str : CStr) (m : Mem) : getVal str m = get str m >>= fun data => textAt data m := by
  refine bind_congr fun data => ?_
  cases data <;> rfl

theorem bind_ok {α : Type} (x : Outcome α) : (x >>= fun a => .ok a) = x := by cases x <;> rfl

/-- `get_property` of a key that is not empty. -/
theorem getProperty_finish {key : Buf} {b : UInt8} (first : Buf.read key 0 = .ok b) (ne : b ≠ 0) (value : Buf)
    (d : Option CStr) (m : Mem) :
    getProperty key value d m = systemPropertyGet key value m >>= fun value => finishGet value d := by
  rw [getProperty, first, ok_bind, if_neg ne]
  rfl

/-- Its searches, and what follows. -/
theorem getProperty_eq {key : Buf} {b : UInt8} (first : Buf.read key 0 = .ok b) (ne : b ≠ 0) (value : Buf)
    (d : Option CStr) (m : Mem) : getProperty key value d m = (do
      let keyStr ← Buf.str key 0
      let data ← getLoop (m.tree.next + 1) keyStr m.tree.root m
      (Search.first keyStr key value d).rest data m) := by
  simp only [getProperty_finish first ne, systemPropertyGet, getVal_eq, Property.get, Search.rest, bind_assoc]
  refine bind_congr fun keyStr => bind_congr fun data => bind_congr fun text => ?_
  cases text with
  | some val => simp only [Search.answer, copyText, bind_assoc, ok_bind, bind_ok]
  | none =>
    simp only [Search.answer, bind_assoc]
    refine bind_congr fun old => bind_congr fun value' => ?_
    by_cases persist : startsWith keyStr persistPrefix
    · simp only [if_pos persist, fallbackKey, bind_assoc, ok_bind, Search.defaultValue]
      refine bind_congr fun ro => bind_congr fun sl => bind_congr fun re => bind_congr fun reKey =>
        bind_congr fun data' => bind_congr fun text' => ?_
      cases text' <;> simp [copyText]
    · simp only [if_neg persist, ok_bind, bind_assoc, bind_ok]

namespace Place

/-- What is left after a step: the rest from the next place, or nothing. -/
def restAfter (r : World × (Place ⊕ Answer)) : Outcome (World × Answer) :=
  r.2.elim (fun l => l.rest r.1) fun a => .ok (r.1, a)

theorem getTest_next (key value : Buf) (d : Option CStr) (w : World) :
    (getTest key value d).rest w = (getTest key value d).next w >>= restAfter := by
  simp only [rest, next, Request.whole]
  cases first : Buf.read key 0 with
  | error e => rfl
  | ok b =>
    simp only [ok_bind]
    by_cases zero : b = 0
    · simp only [if_pos zero, systemPropertyList, bind_assoc]
      rfl
    · simp only [if_neg zero, getProperty_eq first zero, bind_assoc]
      rfl

theorem listTurn_next (n : Nat) (data : Option Ptr) (printed : List (CStr × CStr)) (w : World) :
    (listTurn n data printed).rest w = (listTurn n data printed).next w >>= restAfter := by
  cases n with
  | zero => rfl
  | succ n =>
    cases data with
    | none =>
      simp only [rest, next, listLoop, ok_bind, List.append_nil]
      rfl
    | some p =>
      simp only [rest, next, listLoop, bind_assoc, ok_bind]
      refine bind_congr fun e => bind_congr fun val => bind_congr fun after => ?_
      simp only [restAfter, Sum.elim_inl, rest, List.append_assoc, List.singleton_append]

theorem searchTurn_next (n : Nat) (str : CStr) (node : Option Ptr) (k : Search) (w : World) :
    (searchTurn n str node k).rest w = (searchTurn n str node k).next w >>= restAfter := by
  cases n with
  | zero => rfl
  | succ n =>
    cases node with
    | none => rfl
    | some p =>
      simp only [rest, next, getLoop, bind_assoc]
      refine bind_congr fun e => bind_congr fun links => ?_
      cases CStr.strcmp str e.key <;> rfl

theorem found_next (data : Option Ptr) (k : Search) (w : World) :
    (found data k).rest w = (found data k).next w >>= restAfter := by
  simp only [rest, next, Search.rest, bind_assoc]
  refine bind_congr fun text => bind_congr fun r => ?_
  cases r with
  | inl value => rfl
  | inr again =>
    simp only [bind_assoc, ok_bind, restAfter, Sum.elim_inl, rest, Search.rest, Search.answer]

theorem setTest_next (key value : CStr) (w : World) :
    (setTest key value).rest w = (setTest key value).next w >>= restAfter := by
  simp only [rest, next, Request.whole, setProperty, bind_assoc]
  refine bind_congr fun legal => ?_
  cases legal with
  | false => rfl
  | true =>
    simp only [Bool.not_true, Bool.false_eq_true, if_false, bind_assoc]
    rfl

theorem setSearch_next (key value : CStr) (w : World) :
    (setSearch key value).rest w = (setSearch key value).next w >>= restAfter := by
  simp only [rest, next, systemPropertySet]
  split
  · rfl
  · split
    · rfl
    · split
      · rfl
      · simp only [bind_assoc]
        refine bind_congr fun data => ?_
        cases data with
        | none =>
          simp only [ok_bind, restAfter, Sum.elim_inl, rest, Property.setFile, Property.setPut,
            Option.isNone_none, if_true]
          by_cases persist : startsWith key persistPrefix
          · simp only [if_pos persist, bind_assoc, ok_bind]
          · simp only [if_neg persist, bind_assoc, ok_bind]
        | some p =>
          simp only
          split
          · rfl
          · simp only [ok_bind, restAfter, Sum.elim_inl, rest, Property.setFile, Property.setPut,
              Option.isNone_some, Bool.false_eq_true, if_false]
            by_cases persist : startsWith key persistPrefix
            · simp only [if_pos persist, bind_assoc, ok_bind]
            · simp only [if_neg persist, bind_assoc, ok_bind]

theorem drainTurn_next (n : Nat) (w : World) : (drainTurn n).rest w = (drainTurn n).next w >>= restAfter := by
  cases n with
  | zero => rfl
  | succ n =>
    simp only [rest, next, drainLoop, bind_assoc]
    refine bind_congr fun first => ?_
    cases first with
    | none => rfl
    | some p =>
      simp only [bind_assoc]
      rfl

/-- **A step and what is left after it** are what was left before. -/
theorem rest_next : ∀ (l : Place) (w : World), l.rest w = l.next w >>= restAfter
  | getTest key value d, w => getTest_next key value d w
  | listTurn n data printed, w => listTurn_next n data printed w
  | searchTurn n str node k, w => searchTurn_next n str node k w
  | found data k, w => found_next data k w
  | setTest key value, w => setTest_next key value w
  | setSearch key value, w => setSearch_next key value w
  | setFile key value data, w => by
    simp only [rest, next, bind_assoc]
    rfl
  | setPut key value new, w => by
    simp only [rest, next, bind_assoc]
    rfl
  | drain, w => by
    simp only [rest, next, Request.whole, releaseAllProps, propMemoryDestroy, bind_assoc]
    rfl
  | drainTurn n, w => drainTurn_next n w
  | destroy, w => by
    simp only [rest, next, bind_assoc]
    rfl

/-- A step of a reader leaves the world alone, and stays with the reader. -/
theorem next_reads {l : Place} {w w' : World} {r : Place ⊕ Answer} (reads : l.reads = true)
    (run : l.next w = .ok (w', r)) : w' = w ∧ ∀ l', r = .inl l' → l'.reads = true := by
  cases l with
  | getTest key value d =>
    simp only [next, bind_eq_ok] at run
    obtain ⟨b, -, run⟩ := run
    split at run
    · obtain ⟨first, -, run⟩ := bind_eq_ok.1 run
      cases run
      exact ⟨rfl, by rintro _ ⟨⟩; rfl⟩
    · obtain ⟨keyStr, -, run⟩ := bind_eq_ok.1 run
      cases run
      exact ⟨rfl, by rintro _ ⟨⟩; rfl⟩
  | listTurn n data printed =>
    cases n with
    | zero => cases run
    | succ n =>
      cases data with
      | none =>
        cases run
        exact ⟨rfl, nofun⟩
      | some p =>
        simp only [next, bind_eq_ok] at run
        obtain ⟨e, -, text, -, after, -, run⟩ := run
        cases run
        exact ⟨rfl, by rintro _ ⟨⟩; rfl⟩
  | searchTurn n str node k =>
    cases n with
    | zero => cases run
    | succ n =>
      cases node with
      | none =>
        cases run
        exact ⟨rfl, by rintro _ ⟨⟩; rfl⟩
      | some p =>
        simp only [next, bind_eq_ok] at run
        obtain ⟨e, -, links, -, run⟩ := run
        split at run
        all_goals
          cases run
          exact ⟨rfl, by rintro _ ⟨⟩; rfl⟩
  | found data k =>
    simp only [next, bind_eq_ok] at run
    obtain ⟨text, -, out, -, run⟩ := run
    split at run
    · cases run
      exact ⟨rfl, nofun⟩
    · cases run
      exact ⟨rfl, by rintro _ ⟨⟩; rfl⟩
  | setTest => cases reads
  | setSearch => cases reads
  | setFile => cases reads
  | setPut => cases reads
  | drain => cases reads
  | drainTurn => cases reads
  | destroy => cases reads

/-- A step of a writer stays with the writer. -/
theorem next_writes {l l' : Place} {w w' : World} (writes : l.reads = false) (run : l.next w = .ok (w', .inl l')) :
    l'.reads = false := by
  cases l with
  | getTest => cases writes
  | listTurn => cases writes
  | searchTurn => cases writes
  | found => cases writes
  | setTest key value =>
    simp only [next, bind_eq_ok] at run
    obtain ⟨legal, -, run⟩ := run
    split at run
    · cases run
    · cases run
      rfl
  | setSearch key value =>
    simp only [next] at run
    split at run
    · cases run
    · split at run
      · cases run
      · split at run
        · cases run
        · obtain ⟨data, -, run⟩ := bind_eq_ok.1 run
          split at run
          · cases run
            rfl
          · split at run
            · cases run
            · cases run
              rfl
  | setFile key value data =>
    simp only [next, bind_eq_ok] at run
    obtain ⟨files, -, run⟩ := run
    cases run
    rfl
  | setPut key value new =>
    simp only [next, bind_eq_ok] at run
    obtain ⟨m, -, run⟩ := run
    cases run
  | drain =>
    cases run
    rfl
  | drainTurn n =>
    cases n with
    | zero => cases run
    | succ n =>
      simp only [next, bind_eq_ok] at run
      obtain ⟨first, -, run⟩ := run
      split at run
      · cases run
        rfl
      · obtain ⟨tree, -, run⟩ := bind_eq_ok.1 run
        cases run
        rfl
  | destroy =>
    simp only [next, bind_eq_ok] at run
    obtain ⟨m, -, run⟩ := run
    cases run

end Place

/-- **The calls of the service**, cut into steps. -/
def serviceCut : Cut World Request Place Answer where
  whole := Request.whole
  start := Place.start
  next := Place.next
  rest := Place.rest
  reads := Place.reads
  rest_start c w := by cases c <;> rfl
  rest_next := Place.rest_next
  reads_next {l s s' l'} run := by
    cases h : l.reads with
    | true => exact (Place.next_reads h run).2 l' rfl
    | false => exact Place.next_writes h run
  next_reads reads run := (Place.next_reads reads run).1

end CodeBackup.Property
