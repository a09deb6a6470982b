import CodeBackup.C.CString
import CodeBackup.Run.Calls

/-!
# The leak tracker

`memleak/typeMacroDefine/main.c`. `malloc` and `free` are replaced by functions
that keep a file for each pointer in a store directory. `my_malloc` writes the
file of the block, `my_free` removes it; if there is none, it reports a double
free in a file of the same name.

A pointer is `none` if it is null; a null pointer is not a block. What `malloc`
returns is part of a call, and what `%p` prints is a parameter. File operations
succeed.
-/

namespace CodeBackup.Leak

open C

/-- The bytes of a string of the source. -/
def ascii (s : String) : List UInt8 := s.toList.map fun c => c.toNat.toUInt8

/-- `%d` and `%ld`. -/
def decimal (n : Int) : List UInt8 := ascii (toString n)

/-- `char buffer[128]`, all zero before `snprintf`. -/
def snprintf (text : List UInt8) : List UInt8 :=
  text.take 127 ++ List.replicate (128 - min 127 text.length) 0

/-- `__FILE__`, `__func__` and `__LINE__` of a call. -/
structure Site where
  filename : CStr
  func : CStr
  line : Int

/-- A call, and in a call of `my_malloc` the pointer that `malloc` returns. -/
inductive Call (α : Type) where
  | malloc (size : Nat) (site : Site) (ptr : Option α)
  | free (ptr : Option α) (site : Site)

/-- What the functions of the program and of the library were used for: `my_malloc` has returned a
block, and `my_free` has called `free`. -/
inductive Action (α : Type) where
  | returned (block : α)
  | freed (ptr : Option α)
  deriving DecidableEq, Repr

/-- The store directory with its files, and the actions so far. -/
structure Tracker (α : Type) where
  store : Bool
  files : List UInt8 → Option (List UInt8)
  log : List (Action α)

/-- A store without files, and whether its directory is there. -/
def start {α : Type} (store : Bool) : Tracker α := ⟨store, fun _ => none, []⟩

section

variable {α : Type} (percentP : Option α → List UInt8)

def storePath : List UInt8 := ascii "memleakStore"

/-- The file of a pointer. -/
def path (ptr : Option α) : List UInt8 := (storePath ++ ascii "/" ++ percentP ptr ++ ascii ".mem").take 127

/-- `[+] (%s %s %d) (%p + %ld)`. The size is printed as a signed number. -/
def allocRecord (size : Nat) (site : Site) (ptr : Option α) : List UInt8 :=
  snprintf (ascii "[+] (" ++ site.filename.bytes ++ ascii " " ++ site.func.bytes ++ ascii " " ++ decimal site.line ++
    ascii ") (" ++ percentP ptr ++ ascii " + " ++ decimal (Int.bmod size (2 ^ 64)) ++ ascii ")\n")

/-- `[-] (%s %s %d) (%p)`. -/
def freeRecord (ptr : Option α) (site : Site) : List UInt8 :=
  snprintf (ascii "[-] (" ++ site.filename.bytes ++ ascii " " ++ site.func.bytes ++ ascii " " ++ decimal site.line ++
    ascii ") (" ++ percentP ptr ++ ascii ")\n")

/-- `mkdir` of the store if there is none. -/
def ensureStore (t : Tracker α) : Tracker α := if t.store then t else { t with store := true }

/-- `my_malloc`, when `malloc` returns `ptr`. -/
def myMalloc (size : Nat) (site : Site) (ptr : Option α) (t : Tracker α) : Option α × Tracker α :=
  let t := ensureStore t
  match ptr with
  | some a =>
    (ptr, { t with
      files := Function.update t.files (path percentP ptr) (some (allocRecord percentP size site ptr))
      log := t.log ++ [.returned a] })
  | none => (none, t)

/-- `my_free`. -/
def myFree (ptr : Option α) (site : Site) (t : Tracker α) : Tracker α :=
  if t.store then
    match t.files (path percentP ptr) with
    | none =>
      { t with files := Function.update t.files (path percentP ptr) (some (freeRecord percentP ptr site)) }
    | some _ =>
      { t with
        files := Function.update t.files (path percentP ptr) none
        log := t.log ++ [.freed ptr] }
  else t

def step : Call α → Tracker α → Outcome (Tracker α)
  | .malloc size site ptr, t => .ok (myMalloc percentP size site ptr t).2
  | .free ptr site, t => .ok (myFree percentP ptr site t)

end

@[simp] theorem ensureStore_files {α : Type} (t : Tracker α) : (ensureStore t).files = t.files := by
  unfold ensureStore
  split
  · rfl
  · rfl

@[simp] theorem ensureStore_log {α : Type} (t : Tracker α) : (ensureStore t).log = t.log := by
  unfold ensureStore
  split
  · rfl
  · rfl

@[simp] theorem ensureStore_store {α : Type} (t : Tracker α) : (ensureStore t).store = true := by
  unfold ensureStore
  split
  · assumption
  · rfl

/-- `%p`, for two blocks. -/
def percentPTwo : Option (Fin 2) → List UInt8
  | none => ascii "(nil)"
  | some 0 => ascii "0x5557369e52a0"
  | some 1 => ascii "0x5557369e54c0"

theorem percentPTwo_inj : Function.Injective (path percentPTwo) := by decide

def mainSite : Site := ⟨.lit "main.c", .lit "main", 56⟩

/-- The file begins with the mark. -/
def Marked (mark : String) (file : Option (List UInt8)) : Prop := ∃ text, file = some text ∧ ascii mark <+: text

end CodeBackup.Leak
