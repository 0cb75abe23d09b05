import Selectors.Covering.List
import Selectors.Proofs.Covering.Inquiry
import Selectors.Size

/-!
# The walk by places

Here the walk goes through both chains by places: it keeps how many components of each it has
passed, looks up components and cuts out slices without knowing that there are any, and asks
wherever the rule for compounds compares nested lists. Each of its parts is shown to stay within
the chains, to ask only about chains that are smaller together, and to come to what the walk on
what is left of the chains comes to.
-/
namespace Selectors

/-! ### The rule for compounds -/

/-- Asks whether the candidates cover the others. -/
def Alternatives.inquire (candidates others : Alternatives) : Inquiry Bool :=
  others.allM fun other => candidates.anyM fun candidate =>
    Inquiry.covers candidate.components other.components

namespace Compound

/-- Asks whether the list covers that of a pseudo with this name and kind. -/
def inquireNested (name : String) (isClass : Bool) (list : SelectorList) (compound : Compound) :
    Inquiry Bool :=
  (compound.nestedOf name isClass).anyM fun other =>
    Alternatives.inquire list.alternatives other.alternatives

/-- Asks whether an element that satisfies `simple` cannot match the alternative. -/
def inquireRefutes (name : String) (simple : Simple) (complex : Complex) : Inquiry Bool :=
  match simple with
  | .typeName _ | .idName _ =>
    return ((Chain.subject? complex.components).getD []).any simple.excludes
  | .pseudo ⟨name', _, _, some list⟩ =>
    if name' == name then Alternatives.inquire list.alternatives [complex] else return false
  | _ => return false

/-- Asks whether the list covers that of the simple selector, a pseudo with the same name and
argument. -/
def inquireCounted (pseudo : Pseudo) (list : SelectorList) : Simple → Inquiry Bool
  | .pseudo ⟨name, _, argument, some other⟩ =>
    if name == pseudo.name && argument == pseudo.argument then
      Alternatives.inquire list.alternatives other.alternatives
    else return false
  | _ => return false

def inquirePseudo (pseudo : Pseudo) (list : SelectorList) (compound : Compound) (above : Chain) :
    Inquiry Bool :=
  match pseudo.family with
  | .anyOf => do
    if ← inquireNested pseudo.name true list compound then return true
    list.alternatives.anyM fun complex =>
      Inquiry.covers complex.components (above ++ [.compound compound])
  | .related => inquireNested pseudo.name true list compound
  | .slotted => inquireNested pseudo.name false list compound
  | .noneOf =>
    list.alternatives.allM fun complex => compound.anyM fun simple =>
      inquireRefutes pseudo.name simple complex
  | .current => return (compound.nestedOf pseudo.name true).any (· == list)
  | .counted => compound.anyM (inquireCounted pseudo list)
  | .unknown => return false

def inquireMember (compound : Compound) (above : Chain) : Simple → Inquiry Bool
  | .pseudo ⟨name, isClass, argument, some list⟩ =>
    inquirePseudo ⟨name, isClass, argument, some list⟩ list compound above
  | simple => return compound.implies simple

/-- Asks whether the first compound covers the second, which stands below the chain. -/
def inquire (compound₁ compound₂ : Compound) (above : Chain) : Inquiry Bool := do
  if ← compound₁.allM (inquireMember compound₂ above) then
    return compound₂.all fun simple => !simple.isPlainPseudoElement || compound₁.implies simple
  else return false

end Compound

/-! ### The rule for chains -/

/-- How many components of each chain the walk has passed. -/
structure Cursor where
  first : Nat
  second : Nat

/-- What one turn of the walk comes to. -/
inductive Turn where
  | verdict (covers : Bool)
  | onward (next : Cursor)

namespace Chain

/-- The components from the first place up to the second, or none if these are no such places. -/
def between (chain : Chain) (start stop : Nat) : Chain :=
  if start ≤ stop ∧ stop ≤ chain.length then chain.extract start stop else []

/-- Asks whether the compound covers the component before the place, a compound below what comes
after the start. -/
def inquireBefore (compound : Compound) (chain : Chain) (start after : Nat) : Inquiry Bool := do
  match ← Inquiry.component chain (← Inquiry.difference after 1) with
  | .compound members =>
    let above := chain.between (start + 1) (← Inquiry.difference after 1)
    Compound.inquire compound members above
  | .combinator _ => return false

/-- The first place, from `after` on, before which the compound covers the component; the length of
the chain if there is none. -/
def inquireAfter (compound : Compound) (chain : Chain) (start after : Nat) : Inquiry Nat :=
  if after < chain.length then do
    if ← inquireBefore compound chain start after then return after
    inquireAfter compound chain start (after + 1)
  else return after
termination_by chain.length - after

/-- The turn at the last compound of the first chain, which has to cover that of the second. -/
def lastTurn (last : Compound) (chain : Chain) (start : Nat) : Inquiry Turn := do
  match chain.getLast? with
  | some (.compound subject) =>
    let above ← Inquiry.slice chain start (← Inquiry.difference chain.length 1)
    return .verdict (← Compound.inquire last subject above)
  | _ => return .verdict false

/-- The turn once a compound is found: the steps that come next are compared, and passed. The
lengths are those of what was left of both chains before. -/
def stepTurn (cursor : Cursor) (remaining₁ remaining₂ after : Nat) : Component → Component → Turn
  | .combinator kind₁, .combinator kind₂ =>
    if !Step.covers (some kind₁) (some kind₂) || (remaining₁ = 3 && 3 < remaining₂) then
      .verdict false
    else .onward ⟨cursor.first + 2, after + 1⟩
  | .combinator _, .compound _ => .verdict false
  | .compound _, .combinator kind₂ =>
    if kind₂ = .child then .onward ⟨cursor.first + 1, after + 1⟩ else .verdict false
  | .compound _, .compound _ => .onward ⟨cursor.first + 1, after⟩

/-- One turn of the walk, from where the cursor stands. -/
def turn (chain₁ chain₂ : Chain) (cursor : Cursor) : Inquiry Turn := do
  let remaining₁ ← Inquiry.difference chain₁.length cursor.first
  let remaining₂ ← Inquiry.difference chain₂.length cursor.second
  if remaining₁ = 0 ∨ remaining₂ = 0 ∨ remaining₂ < remaining₁ then return .verdict false
  match ← Inquiry.component chain₁ cursor.first with
  | .combinator _ => return .verdict false
  | .compound members =>
    if remaining₁ = 1 then lastTurn members chain₂ cursor.second
    else
      let after ← inquireAfter members chain₂ cursor.second (cursor.second + 1)
      if after = chain₂.length then return .verdict false
      let next₁ ← Inquiry.component chain₁ (cursor.first + 1)
      let next₂ ← Inquiry.component chain₂ after
      return stepTurn cursor remaining₁ remaining₂ after next₁ next₂

/-- Takes so many turns at the most. -/
def inquireWithin (chain₁ chain₂ : Chain) : Nat → Cursor → Inquiry Bool
  | 0, _ => .outside
  | turns + 1, cursor => do
    match ← turn chain₁ chain₂ cursor with
    | .verdict covers => return covers
    | .onward next => inquireWithin chain₁ chain₂ turns next

/-- Asks whether the first chain covers the second. No turn leaves the first chain where it was, so
there are no more of them than it has components, and one. -/
def inquire (chain₁ chain₂ : Chain) : Inquiry Bool :=
  if chain₁.subject?.isSome && chain₂.subject?.isSome then
    inquireWithin chain₁ chain₂ (chain₁.length + 1) ⟨0, 0⟩
  else return false

end Chain

/-! ### What the rule for compounds comes to -/

/-- The rule for lists that goes by these answers. -/
def ListRule.ofAnswers (answers : Chain → Chain → Bool) : ListRule := fun candidates others =>
  others.all fun other => candidates.any fun candidate =>
    answers candidate.components other.components

/-- The rule for compounds that goes by these answers. -/
def CompoundRule.ofAnswers (answers : Chain → Chain → Bool) : CompoundRule :=
  Compound.coversBy (ListRule.ofAnswers answers)

/-- Both chains together are smaller than the bound. -/
def Chain.Below (bound : Nat) (chain₁ chain₂ : Chain) : Prop := chain₁.size + chain₂.size < bound

instance (bound : Nat) (chain₁ chain₂ : Chain) : Decidable (Chain.Below bound chain₁ chain₂) :=
  inferInstanceAs (Decidable (_ < _))

section

variable {answers : Chain → Chain → Bool} {bound : Nat}

theorem Alternatives.gives_inquire {candidates others : Alternatives}
    (within : ∀ candidate ∈ candidates, ∀ other ∈ others,
      Chain.Below bound candidate.components other.components) :
    (Alternatives.inquire candidates others).Gives answers (Chain.Below bound)
      (ListRule.ofAnswers answers candidates others) :=
  Inquiry.gives_allM fun other isOther => Inquiry.gives_anyM fun candidate isCandidate =>
    Inquiry.gives_covers (within candidate isCandidate other isOther)

namespace Compound

theorem size_of_mem_nestedOf {name : String} {isClass : Bool} {compound : Compound}
    {list : SelectorList} (member : list ∈ compound.nestedOf name isClass) {complex : Complex}
    (alternative : complex ∈ list.alternatives) :
    Chain.size complex.components < compound.size := by
  obtain ⟨_, member, -, -, nested⟩ := mem_nestedOf member
  exact size_nested_lt member nested alternative

theorem gives_inquireNested {name : String} {isClass : Bool} {list : SelectorList}
    {compound : Compound}
    (within : Alternatives.size list.alternatives + compound.size ≤ bound) :
    (inquireNested name isClass list compound).Gives answers (Chain.Below bound)
      ((compound.nestedOf name isClass).any fun other =>
        ListRule.ofAnswers answers list.alternatives other.alternatives) := by
  refine Inquiry.gives_anyM fun other isOther => ?_
  refine Alternatives.gives_inquire fun candidate isCandidate inner isInner => ?_
  have := Alternatives.size_lt_of_mem isCandidate
  have := size_of_mem_nestedOf isOther isInner
  unfold Chain.Below
  omega

-- The list of the simple selector is asked about first here: `:not` swaps the sides.
theorem gives_inquireRefutes {name : String} {simple : Simple} {complex : Complex}
    (within : simple.size + Chain.size complex.components ≤ bound) :
    (inquireRefutes name simple complex).Gives answers (Chain.Below bound)
      (refutes (ListRule.ofAnswers answers) name simple complex) := by
  rcases simple with _ | _ | ⟨name', _, _, _ | list⟩ | _ | _ | _ | _ | _
  case pseudo.none => exact (Bool.and_false _).symm
  case pseudo.some =>
    rw [Simple.size_pseudo] at within
    have asked : (Alternatives.inquire list.alternatives [complex]).Gives answers
        (Chain.Below bound) (ListRule.ofAnswers answers list.alternatives [complex]) := by
      refine Alternatives.gives_inquire fun candidate isCandidate other isOther => ?_
      obtain rfl := List.mem_singleton.mp isOther
      have := Alternatives.size_lt_of_mem isCandidate
      unfold Chain.Below
      omega
    cases same : name' == name <;> simp only [inquireRefutes, refutes, same]
    · exact Inquiry.gives_done false
    · exact asked
  all_goals rfl

/-- Whether the simple selector is a pseudo that counts in the same way, and the list covers its
list. -/
def coversCounted (rule : ListRule) (pseudo : Pseudo) (list : SelectorList) : Simple → Bool
  | .pseudo pseudo' =>
    pseudo'.name == pseudo.name && pseudo'.argument == pseudo.argument &&
      pseudo'.nested.any fun list' => rule list.alternatives list'.alternatives
  | _ => false

theorem gives_inquireCounted {pseudo : Pseudo} {list : SelectorList} {simple : Simple}
    (within : Alternatives.size list.alternatives + simple.size ≤ bound) :
    (inquireCounted pseudo list simple).Gives answers (Chain.Below bound)
      (coversCounted (ListRule.ofAnswers answers) pseudo list simple) := by
  rcases simple with _ | _ | ⟨name, _, argument, _ | other⟩ | _ | _ | _ | _ | _
  case pseudo.none => exact (Bool.and_false _).symm
  case pseudo.some =>
    rw [Simple.size_pseudo] at within
    have asked : (Alternatives.inquire list.alternatives other.alternatives).Gives answers
        (Chain.Below bound)
        (ListRule.ofAnswers answers list.alternatives other.alternatives) := by
      refine Alternatives.gives_inquire fun candidate isCandidate inner isInner => ?_
      have := Alternatives.size_lt_of_mem isCandidate
      have := Alternatives.size_lt_of_mem isInner
      unfold Chain.Below
      omega
    cases same : name == pseudo.name && argument == pseudo.argument <;>
      simp only [inquireCounted, coversCounted, same]
    · exact Inquiry.gives_done false
    · exact asked
  all_goals rfl

theorem gives_inquirePseudo {pseudo : Pseudo} {list : SelectorList} {compound : Compound}
    {above : Chain}
    (within : Alternatives.size list.alternatives + Chain.size (above ++ [.compound compound]) ≤
      bound) :
    (inquirePseudo pseudo list compound above).Gives answers (Chain.Below bound)
      (coveredByPseudo (ListRule.ofAnswers answers) pseudo list compound above) := by
  have subject : compound.size < Chain.size (above ++ [.compound compound]) :=
    Chain.size_lt_of_mem (by simp)
  have nested (isClass : Bool) : (inquireNested pseudo.name isClass list compound).Gives answers
      (Chain.Below bound) ((compound.nestedOf pseudo.name isClass).any fun other =>
        ListRule.ofAnswers answers list.alternatives other.alternatives) :=
    gives_inquireNested (by omega)
  unfold inquirePseudo coveredByPseudo
  cases pseudo.family with
  | anyOf =>
    refine (nested true).bind ?_
    cases (compound.nestedOf pseudo.name true).any fun other =>
        ListRule.ofAnswers answers list.alternatives other.alternatives with
    | true => exact Inquiry.gives_done true
    | false =>
      -- the subject is put together again from what stands above it
      have rebuilt : ListRule.ofAnswers answers list.alternatives
          [⟨above ++ [.compound compound], false⟩] =
            list.alternatives.any fun complex =>
              answers complex.components (above ++ [.compound compound]) := by
        simp [ListRule.ofAnswers]
      simp only [Bool.false_or, rebuilt]
      refine Inquiry.gives_anyM fun complex isAlternative => Inquiry.gives_covers ?_
      have := Alternatives.size_lt_of_mem isAlternative
      unfold Chain.Below
      omega
  | related => exact nested true
  | slotted => exact nested false
  | noneOf =>
    refine Inquiry.gives_allM fun complex isAlternative => Inquiry.gives_anyM fun simple member => ?_
    have := Alternatives.size_lt_of_mem isAlternative
    have := size_le_of_mem member
    exact gives_inquireRefutes (by omega)
  | current => rfl
  | counted =>
    have each : ∀ simple ∈ compound, (inquireCounted pseudo list simple).Gives answers
        (Chain.Below bound) (coversCounted (ListRule.ofAnswers answers) pseudo list simple) := by
      intro simple member
      have := size_le_of_mem member
      exact gives_inquireCounted (by omega)
    exact Inquiry.gives_anyM each
  | unknown => rfl

theorem gives_inquireMember {compound : Compound} {above : Chain} {simple : Simple}
    (within : simple.size + Chain.size (above ++ [.compound compound]) ≤ bound) :
    (inquireMember compound above simple).Gives answers (Chain.Below bound)
      (coveredByMember (ListRule.ofAnswers answers) compound above simple) := by
  rcases simple with _ | _ | ⟨_, _, _, _ | list⟩ | _ | _ | _ | _ | _
  case pseudo.some =>
    rw [Simple.size_pseudo] at within
    exact gives_inquirePseudo (by omega)
  all_goals rfl

theorem gives_inquire {compound₁ compound₂ : Compound} {above : Chain}
    (within : compound₁.size + Chain.size (above ++ [.compound compound₂]) ≤ bound) :
    (inquire compound₁ compound₂ above).Gives answers (Chain.Below bound)
      (CompoundRule.ofAnswers answers compound₁ compound₂ above) := by
  have members : (compound₁.allM (inquireMember compound₂ above)).Gives answers (Chain.Below bound)
      (compound₁.all (coveredByMember (ListRule.ofAnswers answers) compound₂ above)) := by
    refine Inquiry.gives_allM fun simple member => ?_
    have := size_le_of_mem member
    exact gives_inquireMember (by omega)
  unfold inquire CompoundRule.ofAnswers coversBy
  refine members.bind ?_
  cases compound₁.all (coveredByMember (ListRule.ofAnswers answers) compound₂ above) with
  | true => rfl
  | false => rfl

end Compound

end

end Selectors
