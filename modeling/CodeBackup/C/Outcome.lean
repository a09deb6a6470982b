import Mathlib

/-!
# Outcomes of C code

A modelled C function returns an `Outcome`: its result, or the `Fault` that ends
the run. A fault stands for behaviour the C standard leaves undefined (a null
dereference, the use of freed memory, an access outside an object) or for a
loop or a recursion that does not end within the bound the model gives it.
-/

namespace CodeBackup.C

/-- Why a run of the modelled code ends without a result. -/
inductive Fault where
  /-- A null pointer is dereferenced. -/
  | nullDeref
  /-- An object that was never allocated, or has been freed, is used. -/
  | deadObject
  /-- An access outside the bounds of its object. -/
  | outOfBounds
  /-- A loop is still running when the bound of the model is used up. -/
  | loopBound
  /-- A recursion is still nested when the bound of the model is used up. -/
  | depthBound
  deriving DecidableEq, Repr

/-- The result of a modelled function, or the fault that ended it. -/
abbrev Outcome := Except Fault

namespace Outcome

variable {α β : Type}

@[simp] theorem ok_bind (a : α) (f : α → Outcome β) : ((.ok a : Outcome α) >>= f) = f a := rfl

@[simp] theorem error_bind (e : Fault) (f : α → Outcome β) :
    ((.error e : Outcome α) >>= f) = .error e := rfl

@[simp] theorem pure_eq (a : α) : (pure a : Outcome α) = .ok a := rfl

theorem bind_eq_ok {x : Outcome α} {f : α → Outcome β} {b : β} :
    (x >>= f) = .ok b ↔ ∃ a, x = .ok a ∧ f a = .ok b := by
  cases x <;> simp

theorem map_eq_ok {x : Outcome α} {f : α → β} {b : β} : f <$> x = .ok b ↔ ∃ a, x = .ok a ∧ f a = b := by
  cases x <;> simp [Functor.map, Except.map]

/-- A run has one result. -/
theorem unique {x : Outcome α} {a b : α} (ha : x = .ok a) (hb : x = .ok b) : a = b :=
  Except.ok.inj (ha.symm.trans hb)

/-- The value of a pointer that is about to be dereferenced. -/
def deref (p : Option α) : Outcome α :=
  match p with
  | some a => .ok a
  | none => .error .nullDeref

@[simp] theorem deref_some (a : α) : deref (some a) = .ok a := rfl

@[simp] theorem deref_none : deref (none : Option α) = .error .nullDeref := rfl

/-- Two runs end alike: with related results, or in the same fault. -/
inductive Rel (R : α → β → Prop) : Outcome α → Outcome β → Prop where
  | ok {a : α} {b : β} (h : R a b) : Rel R (.ok a) (.ok b)
  | error (e : Fault) : Rel R (.error e) (.error e)

theorem Rel.mono {R R' : α → β → Prop} {x : Outcome α} {y : Outcome β} (h : Rel R x y)
    (imp : ∀ a b, R a b → R' a b) : Rel R' x y := by
  cases h with
  | ok h => exact .ok (imp _ _ h)
  | error e => exact .error e

/-- **Two runs in step**, the second halves from related states. -/
theorem Rel.bind {α' β' : Type} {R : α → β → Prop} {R' : α' → β' → Prop} {x : Outcome α} {y : Outcome β}
    {f : α → Outcome α'} {g : β → Outcome β'} (h : Rel R x y) (next : ∀ a b, R a b → Rel R' (f a) (g b)) :
    Rel R' (x >>= f) (y >>= g) := by
  cases h with
  | ok h => exact next _ _ h
  | error e => exact .error e

end Outcome

end CodeBackup.C
