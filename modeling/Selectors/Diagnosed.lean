import Selectors.Error
import Selectors.Warning

/-!
# Computations with diagnostics

A computation ends in a value or an error and gives warnings on the way. An
error stops it and leaves the warnings given before in place.
-/
namespace Selectors

structure Diagnosed (α : Type) where
  result : Except Error α
  warnings : List Warning

namespace Diagnosed

variable {α β : Type}

def pure (value : α) : Diagnosed α := ⟨.ok value, []⟩

def bind (first : Diagnosed α) (next : α → Diagnosed β) : Diagnosed β :=
  match first.result with
  | .error error => ⟨.error error, first.warnings⟩
  | .ok value => ⟨(next value).result, first.warnings ++ (next value).warnings⟩

instance : Monad Diagnosed where
  pure := pure
  bind := bind

def fail (error : Error) : Diagnosed α := ⟨.error error, []⟩

def warn (warnings : List Warning) : Diagnosed Unit := ⟨.ok (), warnings⟩

/-- Without warnings. -/
def ofExcept (result : Except Error α) : Diagnosed α := ⟨result, []⟩

instance : LawfulMonad Diagnosed := LawfulMonad.mk' Diagnosed
  (by
    intro α x
    obtain ⟨_ | _, _⟩ := x <;> simp [Functor.map, bind, pure])
  (by
    intro α β x f
    simp [Bind.bind, Pure.pure, bind, pure])
  (by
    intro α β γ x f g
    obtain ⟨_ | value, _⟩ := x
    · rfl
    · simp only [Bind.bind, bind]
      cases (f value).result <;> simp)

@[simp] theorem pure_def (value : α) : (Pure.pure value : Diagnosed α) = ⟨.ok value, []⟩ := rfl

@[simp] theorem bind_ok (value : α) (warnings : List Warning) (next : α → Diagnosed β) :
    (⟨.ok value, warnings⟩ >>= next : Diagnosed β) =
      ⟨(next value).result, warnings ++ (next value).warnings⟩ := rfl

@[simp] theorem bind_error (error : Error) (warnings : List Warning) (next : α → Diagnosed β) :
    (⟨.error error, warnings⟩ >>= next : Diagnosed β) = ⟨.error error, warnings⟩ := rfl

/-- A computation succeeds when its first part does and the rest does after it. -/
theorem result_bind_eq_ok_iff {first : Diagnosed α} {next : α → Diagnosed β} {value : β} :
    (first >>= next).result = .ok value ↔
      ∃ middle, first.result = .ok middle ∧ (next middle).result = .ok value := by
  obtain ⟨result, warnings⟩ := first
  cases result <;> simp

/-- The error of a computation is that of the first part that fails. -/
theorem result_bind_eq_error_iff {first : Diagnosed α} {next : α → Diagnosed β} {error : Error} :
    (first >>= next).result = .error error ↔
      first.result = .error error ∨
        ∃ middle, first.result = .ok middle ∧ (next middle).result = .error error := by
  obtain ⟨result, warnings⟩ := first
  cases result <;> simp

end Diagnosed

end Selectors
