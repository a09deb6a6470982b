import CodeBackup.Binding.Arena

/-!
# The object behind an arena

The bindings together with the ledger of the arena that holds them. A binding
is stored if the ledger has room for it; what is not stored changes nothing but
the ledger.
-/

namespace CodeBackup.Binding

variable {κ ν : Type} [DecidableEq κ]

/-- Bindings, and the account of the arena that holds their values. -/
structure Book (κ : Type) [DecidableEq κ] {ν : Type} (size : ν → Nat) where
  value : κ → Option ν
  ledger : Ledger κ
  sized : ledger.Sized size value

namespace Book

variable {size : ν → Nat}

/-- Binds a key in an arena of `cap` bytes, if there is room. -/
def put (cap : Nat) (b : Book κ size) (k : κ) (v : ν) : Book κ size where
  value := if b.ledger.Room cap k (size v) then Function.update b.value k (some v) else b.value
  ledger := b.ledger.store cap k (size v)
  sized := b.sized.store k v

end Book

end CodeBackup.Binding
