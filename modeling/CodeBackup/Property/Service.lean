import CodeBackup.C.Buffer
import CodeBackup.Property.Map

/-!
# The property service

`system_properties.c` and `property_service.c`. `World` is the memory of the
map and the files by name. The loader is written over an abstract store, with
what it does to it (`add`, and the nested load of an `import` line) as
parameters, so that the same code can fill the map or list the pairs it passes
on.

File operations and `malloc` are assumed to succeed, except that a file may be
missing; sizes are mathematical integers. The two mutexes are modelled on
their own, with the threads that share them; `printf` has no effect here.
-/

namespace CodeBackup.Property

open C C.Outcome Rbtree ColorTree

/-- The contents of the files that can be opened. -/
abbrev Files := CStr → Option (List UInt8)

/-- The memory of the map, and the files. -/
structure World where
  mem : Mem
  files : Files

/-- `PROP_PATH_SYSTEM_BUILD`. -/
def propPathSystemBuild : CStr := .lit "/data/build.prop"

/-- `PROP_PATH_OTA_CONFIG`. -/
def propPathOtaConfig : CStr := .lit "/data/ota_res/recovery.conf"

/-- The characters the code compares with. -/
def chNewline : UInt8 := 10
def chSpace : UInt8 := 32
def chHash : UInt8 := 35
def chStar : UInt8 := 42
def chDot : UInt8 := 46
def chEq : UInt8 := 61

def persistPrefix : CStr := .lit "persist."
def roPrefix : CStr := .lit "ro."
def importPrefix : CStr := .lit "import "

/-! ## `system_properties.c` -/

/-- `__system_property_add`. -/
def systemPropertyAdd (key value : CStr) (m : Mem) : Outcome (Int × Mem) :=
  if key.strlen ≥ propKeyMax then .ok (-1, m)
  else if value.strlen ≥ propValueMax then .ok (-1, m)
  else if key.strlen < 1 then .ok (-1, m)
  else do
    let (_, m) ← put key value m
    .ok (0, m)

/-- The loop of `__system_property_list` from `data` on: the pairs it prints. -/
def listLoop : Nat → Option Ptr → Mem → Outcome (List (CStr × CStr))
  | 0, _, _ => .error .loopBound
  | _ + 1, none, _ => .ok []
  | n + 1, some data, m => do
    let e ← m.entry data
    let val ← m.loadStr e.val
    let rest ← listLoop n (← mapNext data m) m
    .ok ((e.key, val) :: rest)

/-- `__system_property_list`. -/
def systemPropertyList (m : Mem) : Outcome (List (CStr × CStr)) := do
  listLoop (m.tree.next + 1) (← mapFirst m) m

/-- The search of `op_prop_file`, from `mem + i` on: the first place where `memcmp` finds the key.
A comparison that reads behind the image is a fault. -/
def scanLoop (key : CStr) (mem : List UInt8) : Nat → Nat → Outcome (Option Nat)
  | 0, _ => .ok none
  | n + 1, i =>
    if i + key.strlen > mem.length then .error .outOfBounds
    else if (mem.drop i).take key.strlen = key.bytes then .ok (some i)
    else scanLoop key mem n (i + 1)

/-- What `op_prop_file` writes once it has opened the file for writing. -/
def rewrite (key value : CStr) (oldValen : Nat) (haveKey : Bool) (mem : List UInt8) :
    Outcome (List UInt8) :=
  if haveKey then do
    match ← scanLoop key mem (mem.length + 1) 0 with
    | none => .ok []
    | some i =>
      let moveLen := i + key.strlen + 1
      let retLen : Int := mem.length - moveLen - oldValen
      if moveLen > mem.length then .error .outOfBounds
      else if retLen < 0 then .error .outOfBounds
      else .ok (mem.take moveLen ++ value.bytes ++ (mem.drop (moveLen + oldValen)).take retLen.toNat)
  else
    -- `str` has `PROP_KEY_MAX + PROP_VALUE_MAX + 2` bytes
    if key.strlen + value.strlen + 3 > propKeyMax + propValueMax + 2 then .error .outOfBounds
    else .ok (mem ++ (key.bytes ++ chEq :: (value.bytes ++ [chNewline])))

/-- `op_prop_file`. A file that cannot be opened is closed all the same, through a null pointer. -/
def opPropFile (file key value : CStr) (oldValen : Nat) (haveKey : Bool) (files : Files) :
    Outcome (Int × Files) := do
  let mem ← deref (files file)
  let out ← rewrite key value oldValen haveKey mem
  .ok (0, Function.update files file (some out))

/-- `read_file`: the contents, a newline and a terminator. -/
def readFile (fn : CStr) (files : Files) : Option Buf := (files fn).map (· ++ [chNewline, 0])

/-- `__system_property_set`. -/
def systemPropertySet (key value filepath : CStr) (w : World) : Outcome (Int × World) :=
  if key.strlen ≥ propKeyMax then .ok (-1, w)
  else if value.strlen ≥ propValueMax then .ok (-1, w)
  else if key.strlen < 1 then .ok (-1, w)
  else do
    match ← get key w.mem with
    | none =>
      let files ← if startsWith key persistPrefix then
          Prod.snd <$> opPropFile filepath key value 0 false w.files
        else .ok w.files
      let (_, m) ← systemPropertyAdd key value w.mem
      .ok (0, ⟨m, files⟩)
    | some data =>
      if startsWith key roPrefix then .ok (-1, w)
      else
        let files ← if startsWith key persistPrefix then do
            let e ← w.mem.entry data
            let old ← w.mem.loadStr e.val
            Prod.snd <$> opPropFile filepath key value old.strlen true w.files
          else .ok w.files
        let (_, m) ← put key value w.mem
        .ok (0, ⟨m, files⟩)

/-! ## `property_service.c` -/

/-- A byte that `is_legal_property_name` lets through, `'.'` apart. -/
def nameByte (b : UInt8) : Bool :=
  b = 95 || b = 45 || (97 ≤ b && b ≤ 122) || (65 ≤ b && b ≤ 90) || (48 ≤ b && b ≤ 57)

/-- The loop of `is_legal_property_name` from `i` on. -/
def nameLoop (name : Buf) (namelen : Nat) : Nat → Nat → Outcome Bool
  | 0, _ => .error .loopBound
  | n + 1, i =>
    if i < namelen then do
      let b ← Buf.read name i
      if b = chDot then
        if (← Buf.readPrev name i) = chDot then .ok false else nameLoop name namelen n (i + 1)
      else if nameByte b then nameLoop name namelen n (i + 1)
      else .ok false
    else .ok true

/-- `is_legal_property_name` on a name of length `namelen`. -/
def isLegalPropertyName (name : Buf) (namelen : Nat) : Outcome Bool :=
  if namelen ≥ propKeyMax then .ok false
  else if namelen < 1 then .ok false
  else do
    if (← Buf.read name 0) = chDot then .ok false
    else if (← Buf.read name (namelen - 1)) = chDot then .ok false
    else nameLoop name namelen (namelen + 1) 0

/-- `flen`. -/
def filterLen (filter : Option CStr) : Nat :=
  match filter with
  | some f => f.strlen
  | none => 0

/-- The test of a key against a filter of length `flen > 0`. -/
def filterMatches (f key : CStr) : Bool :=
  if f.bytes.getLast? = some chStar then f.bytes.dropLast.isPrefixOf key.bytes else key = f

/-- A key passes the filter: there is none, or it is empty, or it matches. -/
def filterAccepts (filter : Option CStr) (key : CStr) : Bool :=
  match filter with
  | some f => f.strlen = 0 || filterMatches f key
  | none => true

section Loader

variable {σ : Type} (add : CStr → CStr → σ → Outcome σ)
  (importFile : CStr → Option CStr → σ → Outcome σ)

/-- An `import` line: `key` points to it. -/
def importLine (data : Buf) (key : Nat) (s : σ) : Outcome (Buf × σ) := do
  let fn ← Buf.skipSpace data (key + 7)
  match ← Buf.strchr chSpace data fn with
  | none =>
    let s ← importFile (← Buf.str data fn) none s
    .ok (data, s)
  | some k =>
    let data ← Buf.write data k 0
    let k ← Buf.skipSpace data (k + 1)
    let s ← importFile (← Buf.str data fn) (some (← Buf.str data k)) s
    .ok (data, s)

/-- A line `key=value`: `key` points to its first byte. -/
def bindingLine (filter : Option CStr) (data : Buf) (key : Nat) (s : σ) : Outcome (Buf × σ) := do
  match ← Buf.strchr chEq data key with
  | none => .ok (data, s)
  | some eq =>
    let data ← Buf.write data eq 0
    let value := eq + 1
    let data ← Buf.trimBack key (value - 2) data
    let value ← Buf.skipSpace data value
    let keyStr ← Buf.str data key
    if !filterAccepts filter keyStr then .ok (data, s)
    else if !(← isLegalPropertyName (keyStr.bytes ++ [0]) keyStr.strlen) then .ok (data, s)
    else
      let s ← add keyStr (← Buf.str data value) s
      .ok (data, s)

/-- The body of the loop of `load_properties` for the line from `sol` to the newline before `eol`. -/
def loadLine (filter : Option CStr) (data : Buf) (sol eol : Nat) (s : σ) : Outcome (Buf × σ) := do
  let data ← Buf.write data (eol - 1) 0
  let key ← Buf.skipSpace data sol
  if (← Buf.read data key) = chHash then .ok (data, s)
  else
    let data ← Buf.trimBack key (eol - 2) data
    if startsWith (← Buf.str data key) importPrefix && filterLen filter = 0 then
      importLine importFile data key s
    else bindingLine add filter data key s

/-- The loop of `load_properties`. -/
def loadLoop (filter : Option CStr) : Nat → Buf → Nat → σ → Outcome σ
  | 0, _, _, _ => .error .loopBound
  | n + 1, data, sol, s => do
    match ← Buf.strchr chNewline data sol with
    | none => .ok s
    | some nl =>
      let eol := nl + 1
      let (data, s) ← loadLine add importFile filter data sol eol s
      loadLoop filter n data eol s

/-- `load_properties`. -/
def loadProperties (data : Buf) (filter : Option CStr) (s : σ) : Outcome σ :=
  loadLoop add importFile filter (data.length + 1) data 0 s

/-- `load_properties_from_file`, with at most `depth` files open at a time. -/
def loadPropertiesFromFile (files : Files) : Nat → CStr → Option CStr → σ → Outcome σ
  | 0, _, _, _ => .error .depthBound
  | depth + 1, fn, filter, s =>
    match readFile fn files with
    | none => .ok s
    | some data => loadProperties add (loadPropertiesFromFile files depth) data filter s

end Loader

/-- `__system_property_add` as `load_properties` calls it: the result is not looked at. -/
def addProperty (key value : CStr) (m : Mem) : Outcome Mem := Prod.snd <$> systemPropertyAdd key value m

/-- `load_all_props`. -/
def loadAllProps (depth : Nat) (w : World) : Outcome World := do
  let m := memoryInit w.mem
  let m ← loadPropertiesFromFile addProperty w.files depth propPathSystemBuild none m
  let m ← loadPropertiesFromFile addProperty w.files depth propPathOtaConfig none m
  .ok { w with mem := m }

/-- `release_all_props`. -/
def releaseAllProps (w : World) : Outcome World := do
  let m ← propMemoryDestroy w.mem
  .ok { w with mem := m }

/-- `set_property`. A name that is not legal is refused before anything is done. -/
def setProperty (key value : CStr) (w : World) : Outcome (Int × World) := do
  if !(← isLegalPropertyName (key.bytes ++ [0]) key.strlen) then .ok (-1, w)
  else
    let (_, w) ← systemPropertySet key value propPathSystemBuild w
    .ok (0, w)

end CodeBackup.Property
