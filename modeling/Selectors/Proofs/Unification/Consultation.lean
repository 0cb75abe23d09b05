import Selectors.Rules

/-!
# What unification asks its rules

Unification of lists asks the rule for chains about every pair of alternatives, once and row by row,
whatever it was answered before, and its list holds what the answers hold. A rule may keep a state:
then each question finds the state that the one before has left, and a record of the questions can be
kept in it as well.
-/
namespace Selectors

/-- A question that was put to the rule for chains, and its answer. -/
structure Consultation where
  first : Chain
  second : Chain
  answer : Option (List Chain)

namespace Consultation

def pair (consultation : Consultation) : Chain × Chain := (consultation.first, consultation.second)

/-- The chains of an answer that have a component. -/
def chainsOf (answer : Option (List Chain)) : List Chain := (answer.getD []).filter (!·.isEmpty)

def chains (consultation : Consultation) : List Chain := chainsOf consultation.answer

theorem mem_chains_iff {consultation : Consultation} {chain : Chain} :
    chain ∈ consultation.chains ↔
      ∃ chains, consultation.answer = some chains ∧ chain ∈ chains ∧ chain ≠ [] := by
  cases answered : consultation.answer <;> simp [chains, chainsOf, answered]

end Consultation

/-- The same rules, with a record of the questions to the rule for chains beside their state. -/
def Rules.recorded {σ : Type} (rules : Rules (StateM σ)) :
    Rules (StateM (σ × List Consultation)) where
  unify first second := do
    let (state, record) ← get
    let (answer, state) := (rules.unify first second).run state
    set (state, record ++ [⟨first, second, answer⟩])
    return answer
  covers candidates others := do
    let (state, record) ← get
    let (answer, state) := (rules.covers candidates others).run state
    set (state, record)
    return answer

/-! ### The questions -/

section

variable {σ : Type} (rules : Rules (StateM σ))

theorem run_mapM_cons {α β : Type} (ask : α → StateM σ β) (x : α) (xs : List α) (state : σ) :
    ((x :: xs).mapM ask).run state =
      (((ask x).run state).1 :: ((xs.mapM ask).run ((ask x).run state).2).1,
        ((xs.mapM ask).run ((ask x).run state).2).2) := by
  rw [List.mapM_cons]
  rfl

/-- Questions about some pairs are put in the order of the pairs, each in the state that the one
before has left. Keeping a record of them changes neither the answers nor the state. -/
theorem exists_consultations (pairs : List (Chain × Chain)) (state : σ)
    (record : List Consultation) :
    ∃ consultations final, consultations.map Consultation.pair = pairs ∧
      (pairs.mapM fun pair => rules.unify pair.1 pair.2).run state =
        (consultations.map Consultation.answer, final) ∧
      (pairs.mapM fun pair => rules.recorded.unify pair.1 pair.2).run (state, record) =
        (consultations.map Consultation.answer, final, record ++ consultations) := by
  induction pairs generalizing state record with
  | nil => exact ⟨[], state, rfl, rfl, by simp; rfl⟩
  | cons pair rest ih =>
    let answered := (rules.unify pair.1 pair.2).run state
    let consultation : Consultation := ⟨pair.1, pair.2, answered.1⟩
    obtain ⟨consultations, final, same, plain, recorded⟩ :=
      ih answered.2 (record ++ [consultation])
    refine ⟨consultation :: consultations, final, ?_, ?_, ?_⟩
    · rw [List.map_cons, same]
      rfl
    · rw [run_mapM_cons, plain]
      rfl
    · -- the question goes to the record after its answer is known, which changes no state but that
      have asked : (rules.recorded.unify pair.1 pair.2).run (state, record) =
          (answered.1, answered.2, record ++ [consultation]) := rfl
      rw [run_mapM_cons, asked, recorded, List.append_assoc]
      rfl

end

/-- Where every x has a row with the same ys, the place of a y in the row of an x is counted from
the rows before. -/
theorem getElem?_rows {α β γ : Type} (f : α → β → γ) {xs : List α} {ys : List β} {i j : Nat} {x : α}
    {y : β} (row : xs[i]? = some x) (column : ys[j]? = some y) :
    (xs.flatMap fun x => ys.map (f x))[i * ys.length + j]? = some (f x y) := by
  have within : j < ys.length := (List.getElem?_eq_some_iff.mp column).1
  induction xs generalizing i with
  | nil => simp at row
  | cons first rest ih =>
    rw [List.flatMap_cons]
    cases i with
    | zero =>
      obtain rfl : first = x := by simpa using row
      rw [Nat.zero_mul, Nat.zero_add, List.getElem?_append_left (by simpa using within),
        List.getElem?_map, column]
      rfl
    | succ i =>
      have place : (i + 1) * ys.length + j = ys.length + (i * ys.length + j) := by
        rw [Nat.succ_mul]
        omega
      rw [place, List.getElem?_append_right (by simp), List.length_map, Nat.add_sub_cancel_left]
      exact ih (by simpa using row)

namespace SelectorList

theorem length_pairs (list₁ list₂ : SelectorList) :
    (pairs list₁ list₂).length = list₁.alternatives.length * list₂.alternatives.length := by
  simp only [pairs, List.length_flatMap, List.length_map, List.map_const', List.sum_replicate_nat]

theorem getElem?_pairs (list₁ list₂ : SelectorList) (i : Fin list₁.alternatives.length)
    (j : Fin list₂.alternatives.length) :
    (pairs list₁ list₂)[i * list₂.alternatives.length + j]? =
      some (list₁.alternatives[i].components, list₂.alternatives[j].components) :=
  getElem?_rows (fun complex₁ complex₂ : Complex => (complex₁.components, complex₂.components))
    (List.getElem?_eq_getElem i.isLt) (List.getElem?_eq_getElem j.isLt)

/-! ### The list of the answers -/

theorem chains_of_answers (answers : List (Option (List Chain))) :
    (answers.filterMap id).flatten.filter (!·.isEmpty) = answers.flatMap Consultation.chainsOf := by
  induction answers with
  | nil => rfl
  | cons answer rest ih =>
    rw [List.flatMap_cons, ← ih]
    cases answer <;> simp [Consultation.chainsOf]

theorem ofAnswers_eq (answers : List (Option (List Chain))) :
    ofAnswers answers =
      if answers.flatMap Consultation.chainsOf = [] then none
      else some ⟨(answers.flatMap Consultation.chainsOf).map (⟨·, false⟩), none⟩ := by
  rw [ofAnswers]
  simp only [chains_of_answers, ofAlternatives, List.isEmpty_iff, List.map_eq_nil_iff]
  split <;> rfl

/-- The alternatives of a list, if there is one. -/
def alternatives? (list : Option SelectorList) : Alternatives :=
  (list.map SelectorList.alternatives).getD []

theorem alternatives?_ofAnswers (answers : List (Option (List Chain))) :
    alternatives? (ofAnswers answers) =
      (answers.flatMap Consultation.chainsOf).map (⟨·, false⟩) := by
  rw [ofAnswers_eq]
  split
  next none =>
    rw [none]
    rfl
  next => rfl

/-! ### One pair after the other -/

/-- Each chain of an answer goes through the checked constructor. -/
def ofAnswer (answer : Option (List Chain)) : Alternatives :=
  (answer.getD []).filterMap fun chain => (Complex.ofComponents chain false).toOption

/-- Unification that makes alternatives of an answer before it asks about the next pair. -/
def unifyInTurn {m : Type → Type} [Monad m] (rules : Rules m) (list₁ list₂ : SelectorList) :
    m (Option SelectorList) := do
  let found ← list₁.alternatives.foldlM (fun found complex₁ =>
    list₂.alternatives.foldlM (fun found complex₂ => do
      let answer ← rules.unify complex₁.components complex₂.components
      return found ++ ofAnswer answer) found) []
  return (ofAlternatives found).toOption

theorem ofAnswer_eq (answer : Option (List Chain)) :
    ofAnswer answer = (Consultation.chainsOf answer).map (⟨·, false⟩) := by
  unfold ofAnswer Consultation.chainsOf
  induction answer.getD [] with
  | nil => rfl
  | cons chain rest ih =>
    rw [List.filterMap_cons, List.filter_cons, ih]
    cases chain <;> rfl

section

variable {m : Type → Type} [Monad m] [LawfulMonad m]

theorem foldlM_answers {α : Type} (ask : α → m (Option (List Chain))) (xs : List α)
    (found : Alternatives) :
    (xs.foldlM (fun found x => do return found ++ ofAnswer (← ask x)) found) = do
      let answers ← xs.mapM ask
      return found ++ (answers.flatMap ofAnswer) := by
  induction xs generalizing found with
  | nil => simp
  | cons x rest ih =>
    simp only [List.foldlM_cons, List.mapM_cons, bind_assoc, pure_bind, ih, List.flatMap_cons,
      List.append_assoc]

theorem unifyBy_eq_inTurn (rules : Rules m) (list₁ list₂ : SelectorList) :
    unifyBy rules list₁ list₂ = unifyInTurn rules list₁ list₂ := by
  have rows (found : Alternatives) :
      (list₁.alternatives.foldlM (fun found complex₁ =>
        list₂.alternatives.foldlM (fun found complex₂ => do
          return found ++ ofAnswer (← rules.unify complex₁.components complex₂.components)) found)
        found) =
      (pairs list₁ list₂).foldlM (fun found pair => do
        return found ++ ofAnswer (← rules.unify pair.1 pair.2)) found := by
    unfold pairs
    induction list₁.alternatives generalizing found with
    | nil => rfl
    | cons complex₁ rest ih =>
      rw [List.flatMap_cons, List.foldlM_cons, List.foldlM_append, List.foldlM_map]
      exact bind_congr ih
  have same (answers : List (Option (List Chain))) :
      ofAnswers answers = (ofAlternatives (answers.flatMap ofAnswer)).toOption := by
    rw [ofAnswers, chains_of_answers, funext ofAnswer_eq, List.map_flatMap]
  -- row by row or pair by pair the questions are the same, and so are the answers to them
  rw [unifyInTurn, rows, foldlM_answers, unifyBy, bind_assoc]
  refine bind_congr fun answers => ?_
  rw [pure_bind, List.nil_append, same]

end

/-! ### The whole -/

theorem ofAnswers_consultations (consultations : List Consultation) :
    ofAnswers (consultations.map Consultation.answer) =
      if consultations.flatMap Consultation.chains = [] then none
      else some ⟨(consultations.flatMap Consultation.chains).map (⟨·, false⟩), none⟩ := by
  rw [ofAnswers_eq, List.flatMap_map]
  rfl

theorem isSome_ofAnswers_iff {consultations : List Consultation} :
    (ofAnswers (consultations.map Consultation.answer)).isSome = true ↔
      ∃ consultation ∈ consultations, ∃ chains,
        consultation.answer = some chains ∧ ∃ chain ∈ chains, chain ≠ [] := by
  have isSome : (ofAnswers (consultations.map Consultation.answer)).isSome = true ↔
      consultations.flatMap Consultation.chains ≠ [] := by
    rw [ofAnswers_consultations]
    split <;> simp_all
  rw [isSome]
  constructor
  · intro nonempty
    obtain ⟨chain, found⟩ := List.exists_mem_of_ne_nil _ nonempty
    obtain ⟨consultation, asked, member⟩ := List.mem_flatMap.mp found
    obtain ⟨chains, answered, given, more⟩ := Consultation.mem_chains_iff.mp member
    exact ⟨consultation, asked, chains, answered, chain, given, more⟩
  · rintro ⟨consultation, asked, chains, answered, chain, given, more⟩
    have member := Consultation.mem_chains_iff.mpr ⟨chains, answered, given, more⟩
    exact List.ne_nil_of_mem (List.mem_flatMap.mpr ⟨consultation, asked, member⟩)

/-- Unification by rules without a state takes the first list apart: what is unified with two lists
in a row is unified with the one and then with the other. -/
theorem alternatives?_unifyBy_append (rules : Rules Id) (first second : SelectorList)
    (span : Option Span) (list : SelectorList) :
    alternatives? (unifyBy rules ⟨first.alternatives ++ second.alternatives, span⟩ list).run =
      alternatives? (unifyBy rules first list).run ++
        alternatives? (unifyBy rules second list).run := by
  simp [unifyBy, alternatives?_ofAnswers, pairs]

/-- Unification puts every pair of alternatives to the rule for chains, those of the first list
varying slowest, and no pair twice. There is a list if some answer has a chain with a component, and
then it holds those chains, in the order of the answers. -/
theorem unifyBy_exact {σ : Type} (rules : Rules (StateM σ)) (list₁ list₂ : SelectorList)
    (state : σ) :
    unifyBy rules list₁ list₂ = unifyInTurn rules list₁ list₂ ∧
    (∃ consultations result final,
      (unifyBy rules list₁ list₂).run state = (result, final) ∧
      (unifyBy rules.recorded list₁ list₂).run (state, []) = (result, final, consultations) ∧
      consultations.length = list₁.alternatives.length * list₂.alternatives.length ∧
      (∀ (i : Fin list₁.alternatives.length) (j : Fin list₂.alternatives.length),
        (consultations[i * list₂.alternatives.length + j]?).map Consultation.pair =
          some (list₁.alternatives[i].components, list₂.alternatives[j].components)) ∧
      (result.isSome = true ↔ ∃ consultation ∈ consultations, ∃ chains,
        consultation.answer = some chains ∧ ∃ chain ∈ chains, chain ≠ []) ∧
      (∀ list, result = some list →
        list = ⟨(consultations.flatMap Consultation.chains).map (⟨·, false⟩), none⟩)) ∧
    ∀ (plain : Rules Id) (first second : SelectorList) (span : Option Span),
      alternatives? (unifyBy plain ⟨first.alternatives ++ second.alternatives, span⟩ list₂).run =
        alternatives? (unifyBy plain first list₂).run ++
          alternatives? (unifyBy plain second list₂).run := by
  refine ⟨unifyBy_eq_inTurn rules list₁ list₂, ?_, fun plain first second span =>
    alternatives?_unifyBy_append plain first second span list₂⟩
  obtain ⟨consultations, final, asked, plain, recorded⟩ :=
    exists_consultations rules (pairs list₁ list₂) state []
  refine ⟨consultations, ofAnswers (consultations.map Consultation.answer), final, ?_, ?_, ?_, ?_,
    isSome_ofAnswers_iff, fun list isList => ?_⟩
  · rw [unifyBy, StateT.run_bind, plain]
    rfl
  · rw [unifyBy, StateT.run_bind, recorded]
    rfl
  · rw [← length_pairs, ← asked, List.length_map]
  · intro i j
    rw [← List.getElem?_map, asked, getElem?_pairs]
  · rw [ofAnswers_consultations] at isList
    split at isList
    · cases isList
    · exact (Option.some.inj isList).symm

/-- Rules that answer every second question, with both chains and one without components. -/
def everySecond : Rules (StateM Nat) where
  unify first second := modifyGet fun asked =>
    (if asked % 2 = 1 then some [first, [], second] else none, asked + 1)
  covers _ _ := return false

example (a b c : Component) :
    (unifyBy everySecond ⟨[⟨[a], true⟩], none⟩ ⟨[⟨[b], true⟩, ⟨[c], true⟩], none⟩).run 0 =
      (some ⟨[⟨[a], false⟩, ⟨[c], false⟩], none⟩, 2) := by
  rfl

end SelectorList

end Selectors
