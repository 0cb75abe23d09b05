import Selectors.Matching
import Selectors.Proofs.Chain.Shape

/-!
# Paths

Matching reads a chain from its subject backwards; a path reads it forwards, from
the element that its first compound holds of down to the subject. A chain matches
the elements at the ends of its paths, and a path may be cut at any compound. What
is above the first element of a path is above all of it.
-/
namespace Selectors

variable {Element : Type} {document : Document Element} {holds : Compound → Element → Prop}

/-! ### Cutting backward links -/

namespace Link

-- Links beyond a condition may be exchanged for others that say the same.
theorem reach_append_congr {condition condition' : Element → Prop}
    {outer outer' : List (Link Element)}
    (same : ∀ element, Reach document (.holds condition :: outer) element ↔
      Reach document (.holds condition' :: outer') element) :
    ∀ (inner : List (Link Element)) (element : Element),
      Reach document (inner ++ .holds condition :: outer) element ↔
        Reach document (inner ++ .holds condition' :: outer') element
  | [], element => same element
  | .step _ :: _, _ => by simp [Reach]
  | [.holds _], element => by simp [Reach, same]
  | .holds _ :: .step _ :: rest, element => by
    simp only [List.cons_append, Reach, reach_append_congr same rest]
  | .holds _ :: .holds middle :: rest, element => by
    have tail := reach_append_congr same (.holds middle :: rest)
    simp only [List.cons_append] at tail
    simp only [List.cons_append, Reach, tail]

-- Nothing is reached through a combinator with nothing before it.
theorem not_reach_append_step (kind : Combinator) {outer : List (Link Element)}
    (nothing : ∀ element, ¬Reach document outer element) :
    ∀ (inner : List (Link Element)) (element : Element),
      ¬Reach document (inner ++ .step kind :: outer) element
  | [], _ => by simp [Reach]
  | .step _ :: _, _ => by simp [Reach]
  | [.holds _], _ => by simp [Reach, nothing]
  | .holds _ :: .step _ :: rest, _ => by
    simp [Reach, not_reach_append_step kind nothing rest]
  | .holds _ :: .holds middle :: rest, _ => by
    have tail := not_reach_append_step kind nothing (.holds middle :: rest)
    simp only [List.cons_append] at tail
    simp [Reach, tail]

theorem holds_of_reach {condition : Element → Prop} {outer : List (Link Element)} {element : Element}
    (reached : Reach document (.holds condition :: outer) element) : condition element := by
  rcases outer with _ | ⟨_ | _, _⟩
  · exact reached
  · exact reached.1
  · exact reached.1

theorem reach_of_holds {condition condition' : Element → Prop} {outer : List (Link Element)}
    {element : Element} (reached : Reach document (.holds condition :: outer) element)
    (here : condition' element) : Reach document (.holds condition' :: outer) element := by
  rcases outer with _ | ⟨_ | _, _⟩
  · exact here
  · exact ⟨here, reached.2⟩
  · exact ⟨here, reached.2⟩

end Link

namespace Document

-- Siblings are below the same elements.
theorem below_next {above earlier later : Element} (adjacent : document.previous later = some earlier)
    (below : document.Leads none above earlier) : document.Leads none above later := by
  have parents := document.parent_previous adjacent
  cases below with
  | single parent => exact .single (parents ▸ parent)
  | tail further parent => exact .tail further (parents ▸ parent)

-- No step leads out of what is below an element.
theorem below_of_leads {step : Step} {above top next : Element}
    (below : document.Leads none above top) (leads : document.Leads step top next) :
    document.Leads none above next := by
  match step with
  | none => exact below.trans leads
  | some .child => exact below.tail leads
  | some .nextSibling => exact below_next leads below
  | some .subsequentSibling =>
    change Relation.TransGen _ _ _ at leads
    induction leads with
    | single adjacent => exact below_next adjacent below
    | tail _ adjacent ih => exact below_next adjacent ih

end Document

namespace Chain

@[simp] theorem links_nil : links holds [] = [] := rfl

@[simp] theorem links_compound (members : Compound) (rest : Chain) :
    links holds (.compound members :: rest) = .holds (holds members) :: links holds rest := rfl

@[simp] theorem links_combinator (kind : Combinator) (rest : Chain) :
    links holds (.combinator kind :: rest) = .step kind :: links holds rest := rfl

@[simp] theorem links_append (first second : Chain) :
    links holds (first ++ second) = links holds first ++ links holds second :=
  List.map_append

@[simp] theorem links_reverse (chain : Chain) :
    links holds (List.reverse chain) = (links holds chain).reverse :=
  List.map_reverse

/-- The chain holds along a way that begins at the first element and ends at the
second. -/
inductive Path (document : Document Element) (holds : Compound → Element → Prop) :
    Chain → Element → Element → Prop
  | subject {members : Compound} {element : Element} :
      holds members element → Path document holds [.compound members] element element
  | onward {members : Compound} {rest : Chain} {top next element : Element} :
      holds members top → document.Leads rest.step top next →
      Path document holds rest.pastStep next element →
      Path document holds (.compound members :: rest) top element

-- The links of a chain, given backwards, end in the step that the chain begins
-- with.
private theorem reverse_links (chain : Chain) :
    (chain.links holds).reverse =
      (chain.pastStep.links holds).reverse ++ chain.step.toList.map .step := by
  rcases chain with _ | ⟨_ | _, _⟩ <;> simp [pastStep, step]

private theorem reach_past_step_iff (step : Step) (condition condition' : Element → Prop)
    (inner : List (Link Element)) (element : Element) :
    Link.Reach document (inner ++ .holds condition' :: (step.toList.map .step ++ [.holds condition]))
        element ↔
      Link.Reach document (inner ++ [.holds fun next => condition' next ∧
        ∃ top, document.Leads step top next ∧ condition top]) element := by
  apply Link.reach_append_congr
  intro element
  cases step <;> simp [Link.Reach]

/-- The rest of a chain holds along a way that begins with the step out of the first
element. -/
def Onward (document : Document Element) (holds : Compound → Element → Prop) (rest : Chain)
    (top element : Element) : Prop :=
  rest = [] ∧ top = element ∨
    ∃ next, document.Leads rest.step top next ∧ rest.pastStep.Path document holds next element

theorem path_cons_iff {members : Compound} {rest : Chain} {top element : Element} :
    Path document holds (.compound members :: rest) top element ↔
      holds members top ∧ rest.Onward document holds top element := by
  constructor
  · intro path
    cases path with
    | subject here => exact ⟨here, Or.inl ⟨rfl, rfl⟩⟩
    | onward here leads path => exact ⟨here, Or.inr ⟨_, leads, path⟩⟩
  · rintro ⟨here, ⟨rfl, rfl⟩ | ⟨next, leads, path⟩⟩
    · exact .subject here
    · exact .onward here leads path

@[simp] theorem onward_nil {top element : Element} :
    Onward document holds [] top element ↔ top = element := by
  constructor
  · rintro (⟨_, same⟩ | ⟨_, _, path⟩)
    · exact same
    · cases path
  · intro same
    exact Or.inl ⟨rfl, same⟩

@[simp] theorem onward_cons {component : Component} {rest : Chain} {top element : Element} :
    Onward document holds (component :: rest) top element ↔
      ∃ next, document.Leads (step (component :: rest)) top next ∧
        (pastStep (component :: rest)).Path document holds next element := by
  simp [Onward]

-- What is reached backwards through the links of a chain from a condition.
theorem reach_links_iff (condition : Element → Prop) (chain : Chain) (element : Element) :
    Link.Reach document ((chain.links holds).reverse ++ [.holds condition]) element ↔
      ∃ top, condition top ∧ chain.Onward document holds top element := by
  rw [reverse_links, List.append_assoc]
  rcases past : chain.pastStep with _ | ⟨members | kind, rest⟩
  · have none_past (next : Element) : ¬Path document holds [] next element := by
      intro path
      cases path
    rcases chain with _ | ⟨_ | kind, rest⟩
    · simp [Link.Reach, step]
    · simp [pastStep] at past
    · simp [Link.Reach, step, past, none_past]
  · -- the first compound past the step takes the step and the condition over
    have shorter : rest.length < chain.length := by
      have := chain.pastStep_suffix.length_le
      simp only [past, List.length_cons] at this
      omega
    have nonempty : chain ≠ [] := by
      rintro rfl
      simp [pastStep] at past
    have cut := reach_links_iff (fun next => holds members next ∧
      ∃ top, document.Leads chain.step top next ∧ condition top) rest element
    simp only [links_compound, List.reverse_cons, List.append_assoc, List.singleton_append]
    rw [reach_past_step_iff, cut]
    constructor
    · rintro ⟨next, ⟨here, top, leads, above⟩, onward⟩
      exact ⟨top, above, Or.inr ⟨next, leads, past ▸ path_cons_iff.mpr ⟨here, onward⟩⟩⟩
    · rintro ⟨top, above, ⟨empty, _⟩ | ⟨next, leads, path⟩⟩
      · exact (nonempty empty).elim
      · obtain ⟨here, onward⟩ := path_cons_iff.mp (past ▸ path)
        exact ⟨next, ⟨here, top, leads, above⟩, onward⟩
  · obtain ⟨first, rfl⟩ : ∃ first, chain = .combinator first :: .combinator kind :: rest := by
      rcases chain with _ | ⟨_ | first, _⟩
      · simp [pastStep] at past
      · simp [pastStep] at past
      · exact ⟨first, by simpa [pastStep] using past⟩
    have nothing (element : Element) :
        ¬Link.Reach document [.step first, .holds condition] element := by
      simp [Link.Reach]
    have unreached := Link.not_reach_append_step kind nothing (links holds rest).reverse element
    constructor
    · intro reached
      exact (unreached (by simpa [step] using reached)).elim
    · rintro ⟨_, _, onward⟩
      obtain ⟨_, _, path⟩ := onward_cons.mp onward
      cases path
termination_by chain.length

/-- A chain matches the elements at which its paths end. -/
theorem matches_iff_path {chain : Chain} {element : Element} :
    chain.Matches document holds element ↔ ∃ top, chain.Path document holds top element := by
  rcases chain with _ | ⟨members | kind, rest⟩
  · constructor
    · intro matched
      simp [Matches, Link.Reach] at matched
    · rintro ⟨_, path⟩
      cases path
  · rw [Matches, links_compound, List.reverse_cons, reach_links_iff]
    simp only [path_cons_iff]
  · have nothing (element : Element) : ¬Link.Reach document [] element := by simp [Link.Reach]
    have unreached := Link.not_reach_append_step kind nothing (links holds rest).reverse element
    constructor
    · intro matched
      exact (unreached (by simpa [Matches] using matched)).elim
    · rintro ⟨_, path⟩
      cases path

/-! ### Cutting paths -/

-- A path of a single compound does not move.
theorem path_single_iff {members : Compound} {top element : Element} :
    Path document holds [.compound members] top element ↔ holds members top ∧ top = element := by
  simp [path_cons_iff]

/-- A path may be cut at any compound, which then ends one part and begins the
other. -/
theorem path_append_iff (before after : Chain) (members : Compound) (top element : Element) :
    Path document holds (before ++ .compound members :: after) top element ↔
      ∃ middle, Path document holds (before ++ [.compound members]) top middle ∧
        Path document holds (.compound members :: after) middle element := by
  match before with
  | [] =>
    simp only [List.nil_append, path_single_iff]
    constructor
    · intro path
      exact ⟨top, ⟨(path_cons_iff.mp path).1, rfl⟩, path⟩
    · rintro ⟨_, ⟨_, rfl⟩, path⟩
      exact path
  | .combinator _ :: _ =>
    constructor
    · intro path
      cases path
    · rintro ⟨_, path, _⟩
      cases path
  | .compound first :: between =>
    have shorter : (pastStep between).length < between.length + 1 :=
      Nat.lt_succ_of_le (pastStep_suffix between).length_le
    have cut (next : Element) := path_append_iff (pastStep between) after members next element
    have nonempty (after : Chain) : between ++ .compound members :: after ≠ [] := by simp
    simp only [List.cons_append, path_cons_iff, Onward, nonempty, false_and, false_or,
      step_append_compound, pastStep_append_compound, cut]
    constructor
    · rintro ⟨here, next, leads, middle, outer, inner⟩
      exact ⟨middle, ⟨here, next, leads, outer⟩, inner⟩
    · rintro ⟨middle, ⟨here, next, leads, outer⟩, inner⟩
      exact ⟨here, next, leads, middle, outer, inner⟩
termination_by before.length

theorem matches_append_iff (before after : Chain) (members : Compound) (element : Element) :
    Matches document holds (before ++ .compound members :: after) element ↔
      ∃ middle, Matches document holds (before ++ [.compound members]) middle ∧
        after.Onward document holds middle element := by
  rw [Matches, links_append, links_compound, List.reverse_append, List.reverse_cons,
    List.append_assoc, List.singleton_append]
  have here (middle : Element) : Link.Reach document
      (.holds (holds members) :: (links holds before).reverse) middle ↔
        Link.Reach document [.holds (Matches document holds (before ++ [.compound members]))]
          middle := by
    simp [Link.Reach, Matches]
  rw [Link.reach_append_congr here, reach_links_iff]

namespace Matches

theorem holds_subject {before : Chain} {subject : Compound} {element : Element}
    (matched : Matches document holds (before ++ [.compound subject]) element) :
    holds subject element := by
  rw [Matches, links_append, List.reverse_append] at matched
  exact Link.holds_of_reach matched

/-- The subject may be exchanged for another that holds of the element. -/
theorem with_subject {before : Chain} {subject subject' : Compound} {element : Element}
    (matched : Matches document holds (before ++ [.compound subject]) element)
    (here : holds subject' element) :
    Matches document holds (before ++ [.compound subject']) element := by
  rw [Matches, links_append, List.reverse_append] at matched ⊢
  exact Link.reach_of_holds matched here

end Matches

namespace Path

theorem exists_eq_cons {chain : Chain} {top element : Element}
    (path : Path document holds chain top element) :
    ∃ (members : Compound) (rest : Chain), chain = .compound members :: rest := by
  cases path with
  | subject _ => exact ⟨_, _, rfl⟩
  | onward _ _ _ => exact ⟨_, _, rfl⟩

theorem holds_last {before : Chain} {subject : Compound} {top element : Element}
    (path : Path document holds (before ++ [.compound subject]) top element) :
    holds subject element :=
  Matches.holds_subject (matches_iff_path.mpr ⟨top, path⟩)

theorem holds_first {members : Compound} {rest : Chain} {top element : Element}
    (path : Path document holds (.compound members :: rest) top element) : holds members top :=
  (path_cons_iff.mp path).1

/-- What is above the first element of a path is above the last. -/
theorem below_last {chain : Chain} {above top element : Element}
    (path : Path document holds chain top element) (below : document.Leads none above top) :
    document.Leads none above element := by
  induction path with
  | subject _ => exact below
  | onward _ leads _ ih => exact ih (Document.below_of_leads below leads)

end Path

end Chain

end Selectors
