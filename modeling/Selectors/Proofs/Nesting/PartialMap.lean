import Mathlib.Data.List.Forall2
import Mathlib.Data.Option.NAry

/-!
# Partial maps over lists

A list is mapped if each of its items is. What one partial map makes of the items may be the
work of another, and then either may go first.
-/
namespace Selectors

variable {α β γ : Type}

theorem mapM_cons_option (f : α → Option β) (x : α) (xs : List α) :
    (x :: xs).mapM f = Option.map₂ (· :: ·) (f x) (xs.mapM f) := by
  rw [List.mapM_cons]
  cases f x <;> cases xs.mapM f <;> rfl

theorem toOption_mapM {ε : Type} (f : α → Except ε β) (xs : List α) :
    (xs.mapM f).toOption = xs.mapM fun x => (f x).toOption := by
  induction xs with
  | nil => rfl
  | cons x xs ih =>
    rw [mapM_cons_option, ← ih, List.mapM_cons]
    cases f x <;> cases xs.mapM f <;> rfl

theorem exists_error_of_mapM {ε : Type} {f : α → Except ε β} {xs : List α} {error : ε}
    (failed : xs.mapM f = .error error) : ∃ x ∈ xs, f x = .error error := by
  induction xs with
  | nil => cases failed
  | cons x xs ih =>
    rw [List.mapM_cons] at failed
    cases here : f x with
    | error =>
      rw [here] at failed
      cases failed
      exact ⟨x, List.mem_cons_self, here⟩
    | ok y =>
      rw [here] at failed
      cases later : xs.mapM f with
      | ok ys =>
        rw [later] at failed
        cases failed
      | error =>
        rw [later] at failed
        cases failed
        obtain ⟨x', member, failed⟩ := ih later
        exact ⟨x', List.mem_cons_of_mem x member, failed⟩

/-- The error, if the computation ends in one. -/
def failure? {ε : Type} : Except ε β → Option ε
  | .error error => some error
  | .ok _ => none

/-- A list fails with the error of the first item that fails. -/
theorem failure?_mapM {ε : Type} (f : α → Except ε β) (xs : List α) :
    failure? (xs.mapM f) = xs.findSome? fun x => failure? (f x) := by
  induction xs with
  | nil => rfl
  | cons x xs ih =>
    rw [List.mapM_cons, List.findSome?_cons, ← ih]
    cases f x with
    | error => rfl
    | ok => cases xs.mapM f <;> rfl

/-- Errors may be changed item by item or at the end. -/
theorem mapM_eq_mapError {ε ε' : Type} {f : α → Except ε β} {f' : α → Except ε' β} {g : ε → ε'}
    {xs : List α} (same : ∀ x ∈ xs, f' x = (f x).mapError g) :
    xs.mapM f' = (xs.mapM f).mapError g := by
  induction xs with
  | nil => rfl
  | cons x xs ih =>
    obtain ⟨here, others⟩ := List.forall_mem_cons.mp same
    rw [List.mapM_cons, List.mapM_cons, here, ih others]
    cases f x with
    | error => rfl
    | ok y => cases xs.mapM f <;> rfl

theorem forall₂_of_mapM {f : α → Option β} {xs : List α} {ys : List β}
    (mapped : xs.mapM f = some ys) : List.Forall₂ (fun x y => f x = some y) xs ys := by
  induction xs generalizing ys with
  | nil =>
    obtain rfl := Option.some.inj mapped
    exact .nil
  | cons x xs ih =>
    rw [mapM_cons_option] at mapped
    obtain ⟨y, ys, isFirst, mappedRest, rfl⟩ := Option.map₂_eq_some_iff.mp mapped
    exact .cons isFirst (ih mappedRest)

theorem mapM_some (xs : List α) : xs.mapM (some : α → Option α) = some xs := by
  simpa using List.mapM_pure (m := Option) (l := xs) (f := id)

theorem exists_of_mem_mapM {f : α → Option β} {xs : List α} {ys : List β}
    (mapped : xs.mapM f = some ys) {y : β} (member : y ∈ ys) : ∃ x ∈ xs, f x = some y := by
  induction xs generalizing ys with
  | nil =>
    obtain rfl := Option.some.inj mapped
    cases member
  | cons x xs ih =>
    rw [mapM_cons_option] at mapped
    obtain ⟨first, rest, isFirst, mappedRest, rfl⟩ := Option.map₂_eq_some_iff.mp mapped
    rcases List.mem_cons.mp member with rfl | member
    · exact ⟨x, List.mem_cons_self, isFirst⟩
    · obtain ⟨x', member, made⟩ := ih mappedRest member
      exact ⟨x', List.mem_cons_of_mem x member, made⟩

theorem exists_mem_of_mapM {f : α → Option β} {xs : List α} {ys : List β}
    (mapped : xs.mapM f = some ys) {x : α} (member : x ∈ xs) : ∃ y ∈ ys, f x = some y := by
  induction xs generalizing ys with
  | nil => cases member
  | cons first rest ih =>
    rw [mapM_cons_option] at mapped
    obtain ⟨y, others, isFirst, mappedRest, rfl⟩ := Option.map₂_eq_some_iff.mp mapped
    rcases List.mem_cons.mp member with rfl | member
    · exact ⟨y, List.mem_cons_self, isFirst⟩
    · obtain ⟨y', member', isOther⟩ := ih mappedRest member
      exact ⟨y', List.mem_cons_of_mem y member', isOther⟩

theorem mapM_eq_none_iff {f : α → Option β} {xs : List α} :
    xs.mapM f = none ↔ ∃ x ∈ xs, f x = none := by
  induction xs with
  | nil => simp
  | cons x xs ih => rw [mapM_cons_option, Option.map₂_eq_none_iff, ih, List.exists_mem_cons_iff]

theorem mapM_append_option (f : α → Option β) (xs ys : List α) :
    (xs ++ ys).mapM f = Option.map₂ (· ++ ·) (xs.mapM f) (ys.mapM f) := by
  rw [List.mapM_append]
  cases xs.mapM f <;> cases ys.mapM f <;> rfl

theorem map_mapM_option (f : α → Option β) (g : β → γ) (xs : List α) :
    (xs.mapM f).map (List.map g) = xs.mapM fun x => (f x).map g := by
  induction xs with
  | nil => rfl
  | cons x xs ih =>
    rw [List.mapM_cons, List.mapM_cons, ← ih]
    cases f x <;> cases xs.mapM f <;> rfl

theorem bind_mapM_option (f : α → Option β) (g : β → Option γ) (xs : List α) :
    (xs.mapM f).bind (·.mapM g) = xs.mapM fun x => (f x).bind g := by
  induction xs with
  | nil => rfl
  | cons x xs ih =>
    rw [List.mapM_cons, List.mapM_cons, ← ih]
    cases f x with
    | none => rfl
    | some y => cases xs.mapM f <;> cases here : g y <;> simp [here]

theorem flatMapM_eq (f : α → Option (List β)) (xs : List α) :
    xs.flatMapM f = (xs.mapM f).map List.flatten := by
  induction xs with
  | nil => rfl
  | cons x xs ih =>
    rw [List.flatMapM_cons, List.mapM_cons, ih]
    cases f x <;> cases xs.mapM f <;> rfl

theorem flatMapM_append (f : α → Option (List β)) (xs ys : List α) :
    (xs ++ ys).flatMapM f = Option.map₂ (· ++ ·) (xs.flatMapM f) (ys.flatMapM f) := by
  simp only [flatMapM_eq, mapM_append_option]
  cases xs.mapM f <;> cases ys.mapM f <;> simp

theorem flatMapM_flatten (f : α → Option (List β)) (xss : List (List α)) :
    xss.flatten.flatMapM f = xss.flatMapM (List.flatMapM f) := by
  induction xss with
  | nil => rfl
  | cons xs xss ih =>
    rw [List.flatten_cons, flatMapM_append, List.flatMapM_cons, ih]
    cases xs.flatMapM f <;> cases xss.flatMapM (List.flatMapM f) <;> rfl

-- A partial map that the edit commutes with may be applied before it.
theorem flatMapM_of_commutes {edit : α → Option α} {f : α → Option (List α)}
    (commutes : ∀ x y, edit x = some y → f y = (f x).bind (·.mapM edit)) {xs ys : List α}
    (edited : xs.mapM edit = some ys) :
    ys.flatMapM f = (xs.flatMapM f).bind (·.mapM edit) := by
  induction xs generalizing ys with
  | nil =>
    obtain rfl := Option.some.inj edited
    rfl
  | cons x xs ih =>
    rw [List.mapM_cons] at edited
    obtain ⟨y, isFirst, edited⟩ := Option.bind_eq_some_iff.mp edited
    obtain ⟨ys, editedRest, same⟩ := Option.bind_eq_some_iff.mp edited
    obtain rfl := Option.some.inj same
    rw [List.flatMapM_cons, List.flatMapM_cons, commutes x y isFirst, ih editedRest]
    cases f x with
    | none => rfl
    | some here =>
      cases xs.flatMapM f with
      | none => cases changed : here.mapM edit <;> simp [changed]
      | some later =>
        cases changed : here.mapM edit <;> cases changed' : later.mapM edit <;>
          simp [changed, changed']

theorem flatMapM_of_mapM {f : α → Option β} {g : α → Option (List γ)} {h : β → Option (List γ)}
    {xs : List α} {ys : List β} (mapped : xs.mapM f = some ys)
    (same : ∀ x y, x ∈ xs → f x = some y → h y = g x) : ys.flatMapM h = xs.flatMapM g := by
  induction xs generalizing ys with
  | nil =>
    obtain rfl := Option.some.inj mapped
    rfl
  | cons x xs ih =>
    rw [mapM_cons_option] at mapped
    obtain ⟨y, rest, isFirst, mappedRest, rfl⟩ := Option.map₂_eq_some_iff.mp mapped
    rw [List.flatMapM_cons, List.flatMapM_cons, same x y List.mem_cons_self isFirst,
      ih mappedRest fun x y member => same x y (List.mem_cons_of_mem _ member)]

end Selectors
