import Selectors.Basic

/-!
# Inquiries

A computation that may ask on its way whether one chain covers another, and that may reach for a
place that is outside of a chain. What it asks is left open, so that it can be said of each
question, and of each access, that it is allowed, whatever the answers are.
-/
namespace Selectors

inductive Inquiry (α : Type) where
  | done (value : α)
  /-- A place was asked for that the chain does not have. -/
  | outside
  /-- Asks whether the first chain covers the second. -/
  | ask (first second : Chain) (next : Bool → Inquiry α)

namespace Inquiry

variable {α β : Type}

def bind : Inquiry α → (α → Inquiry β) → Inquiry β
  | done value, next => next value
  | outside, _ => outside
  | ask first second rest, next => ask first second fun covers => (rest covers).bind next

instance : Monad Inquiry where
  pure := done
  bind := bind

@[simp] theorem pure_def (value : α) : (Pure.pure value : Inquiry α) = done value := rfl

@[simp] theorem done_bind (value : α) (next : α → Inquiry β) : (done value >>= next) = next value :=
  rfl

/-- Whether the first chain covers the second, as the one question of an inquiry. -/
def covers (first second : Chain) : Inquiry Bool := ask first second done

/-! ### Access to chains -/

def component (chain : Chain) (place : Nat) : Inquiry Component :=
  match chain[place]? with
  | some component => done component
  | none => outside

/-- What is left of a length. -/
def difference (whole part : Nat) : Inquiry Nat :=
  if part ≤ whole then done (whole - part) else outside

/-- The components from the first place up to the second. -/
def slice (chain : Chain) (start stop : Nat) : Inquiry Chain :=
  if start ≤ stop ∧ stop ≤ chain.length then done (chain.extract start stop) else outside

theorem component_eq {chain : Chain} {place : Nat} {found : Component}
    (there : chain[place]? = some found) : component chain place = done found := by
  rw [component, there]

theorem difference_eq {whole part : Nat} (within : part ≤ whole) :
    difference whole part = done (whole - part) :=
  if_pos within

theorem slice_eq {chain : Chain} {start stop : Nat} (ordered : start ≤ stop)
    (within : stop ≤ chain.length) : slice chain start stop = done (chain.extract start stop) :=
  if_pos ⟨ordered, within⟩

/-! ### What an inquiry comes to -/

/-- With these answers the inquiry never reaches outside of a chain, asks only what may be asked,
and ends with the value. -/
def Gives (answers : Chain → Chain → Bool) (mayAsk : Chain → Chain → Prop) (value : α) :
    Inquiry α → Prop
  | done value' => value' = value
  | outside => False
  | ask first second next =>
    mayAsk first second ∧ (next (answers first second)).Gives answers mayAsk value

/-- The value of an inquiry whose questions are answered by a computation that may fail. -/
def valueBy? (answer? : Chain → Chain → Option Bool) : Inquiry α → Option α
  | done value => some value
  | outside => none
  | ask first second next => (answer? first second).bind fun covers => (next covers).valueBy? answer?

section

variable {answers : Chain → Chain → Bool} {mayAsk mayAsk' : Chain → Chain → Prop}

theorem gives_done (value : α) : (done value).Gives answers mayAsk value := rfl

theorem gives_covers {first second : Chain} (allowed : mayAsk first second) :
    (covers first second).Gives answers mayAsk (answers first second) :=
  ⟨allowed, rfl⟩

/-- An inquiry goes on with the value that it has come to. -/
theorem Gives.bind {inquiry : Inquiry α} {next : α → Inquiry β} {middle : α} {value : β}
    (first : inquiry.Gives answers mayAsk middle)
    (rest : (next middle).Gives answers mayAsk value) :
    (inquiry >>= next).Gives answers mayAsk value := by
  induction inquiry with
  | done =>
    obtain rfl := first
    exact rest
  | outside => exact first
  | ask _ _ _ ih => exact ⟨first.1, ih _ first.2⟩

theorem Gives.unique {inquiry : Inquiry α} {value value' : α}
    (gives : inquiry.Gives answers mayAsk value) (gives' : inquiry.Gives answers mayAsk' value') :
    value = value' := by
  induction inquiry with
  | done => exact gives.symm.trans gives'
  | outside => exact gives.elim
  | ask _ _ _ ih => exact ih _ gives.2 gives'.2

/-- It is enough that the questions that may be asked can be answered. -/
theorem Gives.valueBy? {inquiry : Inquiry α} {value : α}
    (gives : inquiry.Gives answers mayAsk value) {answer? : Chain → Chain → Option Bool}
    (answered : ∀ first second, mayAsk first second →
      answer? first second = some (answers first second)) :
    inquiry.valueBy? answer? = some value := by
  induction inquiry with
  | done => exact congrArg some gives
  | outside => exact gives.elim
  | ask first second _ ih =>
    rw [Inquiry.valueBy?, answered first second gives.1]
    exact ih _ gives.2

theorem gives_anyM {xs : List α} {inquire : α → Inquiry Bool} {test : α → Bool}
    (each : ∀ x ∈ xs, (inquire x).Gives answers mayAsk (test x)) :
    (xs.anyM inquire).Gives answers mayAsk (xs.any test) := by
  induction xs with
  | nil => exact gives_done false
  | cons x rest ih =>
    obtain ⟨here, others⟩ := List.forall_mem_cons.mp each
    rw [List.any_cons]
    refine here.bind ?_
    cases test x with
    | true => exact gives_done true
    | false => exact ih others

theorem gives_allM {xs : List α} {inquire : α → Inquiry Bool} {test : α → Bool}
    (each : ∀ x ∈ xs, (inquire x).Gives answers mayAsk (test x)) :
    (xs.allM inquire).Gives answers mayAsk (xs.all test) := by
  induction xs with
  | nil => exact gives_done true
  | cons x rest ih =>
    obtain ⟨here, others⟩ := List.forall_mem_cons.mp each
    rw [List.all_cons]
    refine here.bind ?_
    cases test x with
    | true => exact ih others
    | false => exact gives_done false

end

end Inquiry

end Selectors
