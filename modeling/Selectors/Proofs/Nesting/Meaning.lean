import Mathlib.Data.List.Forall2
import Selectors.Deep
import Selectors.Induction
import Selectors.Nesting
import Selectors.Proofs.Chain.Shape
import Selectors.Proofs.Matching.Path

/-!
# The meaning of nested rules

Expanding a nested rule keeps its meaning. Where `&` only leads alternatives and
carries no suffix, the expansion matches what the rule itself matches with `&` read
as the list of the enclosing rule, alternatives without `&` being read below it.
-/
namespace Selectors

/-! ### Where the parent reference stands -/

/-- Whether `&` is a member, not looking into nested lists. -/
def Compound.holdsParent (compound : Compound) : Bool := compound.any Simple.isParent

/-- Whether `&` is a member of a compound, not looking into nested lists. -/
def Chain.holdsParent : Chain → Bool
  | [] => false
  | .compound members :: rest => Compound.holdsParent members || holdsParent rest
  | .combinator _ :: rest => holdsParent rest

/-- Whether `&` stands, if at all, without a suffix and at the head of the first
compound only. -/
def Chain.parentLeads : Chain → Bool
  | .compound (.parent none :: others) :: rest => !Compound.holdsParent others && !Chain.holdsParent rest
  | chain => !chain.holdsParent

/-- The alternative as it is read in a nested rule: one that does not mention `&`
stands below it. -/
def Complex.belowParent (complex : Complex) : Complex :=
  if Chain.mentionsParent complex.components then complex
  else ⟨.compound [.parent none] :: complex.components, complex.lineBreak⟩

/-- The list as it is read in a nested rule. -/
def SelectorList.belowParent (list : SelectorList) : SelectorList :=
  ⟨list.alternatives.map Complex.belowParent, list.span⟩

/-- The parent alternative with further members of its subject. -/
def Complex.extended (others : Compound) (parent : Complex) : Complex :=
  match Chain.splitSubject? parent.components with
  | none => parent
  | some (before, subject) => ⟨before ++ [.compound (subject ++ others)], parent.lineBreak⟩

/-! ### Selectors without parent reference -/

section

variable {Element : Type} (document : Document Element) (interpretation : Interpretation Element)
  (condition : Element → Prop)

/-- What `&` is read as does not matter to a selector that does not mention it. -/
theorem holds_withParent_of_free :
    Induction
      (fun simple => simple.mentionsParent = false →
        simple.Holds document (interpretation.withParent condition) =
          simple.Holds document interpretation)
      (fun compound => compound.mentionsParent = false →
        compound.Holds document (interpretation.withParent condition) =
          compound.Holds document interpretation)
      (fun chain => chain.mentionsParent = false →
        chain.meaning document (interpretation.withParent condition) =
          chain.meaning document interpretation)
      (fun alternatives => alternatives.mentionsParent = false →
        alternatives.Holds document (interpretation.withParent condition) =
          alternatives.Holds document interpretation) := by
  constructor
  case parent =>
    intro suffix free
    simp [Simple.mentionsParent] at free
  case placeholder | typeName | className | idName | attr | plainPseudo =>
    intros
    rfl
  case universal | noMember | noComponent | noAlternative =>
    intros
    rfl
  case nestingPseudo =>
    intro name isClass argument alternatives span ih free
    rw [Simple.Holds, Simple.Holds, ih free]
    rfl
  case member =>
    intro simple rest ih ihRest free
    simp only [Compound.mentionsParent, Bool.or_eq_false_iff] at free
    simp only [Compound.Holds, ih free.1, ihRest free.2]
  case compound =>
    intro members rest ih ihRest free
    simp only [Chain.mentionsParent, Bool.or_eq_false_iff] at free
    simp only [Chain.meaning, ih free.1, ihRest free.2]
  case combinator =>
    intro kind rest ih free
    simp only [Chain.meaning, ih free]
  case alternative =>
    intro components lineBreak rest ih ihRest free
    simp only [Alternatives.mentionsParent, Bool.or_eq_false_iff] at free
    simp only [Alternatives.Holds, ih free.1, ihRest free.2]

end

/-! ### Parents in the place of a leading reference -/

/-- Takes the parent reference to mean the parent alternatives. -/
def Interpretation.under {Element : Type} (interpretation : Interpretation Element)
    (document : Document Element) (parents : Alternatives) : Interpretation Element :=
  interpretation.withParent (parents.Holds document interpretation)

@[simp] theorem Complex.extended_mk (others : Compound) (before : Chain) (subject : Compound)
    (lineBreak : Bool) :
    Complex.extended others ⟨before ++ [.compound subject], lineBreak⟩ =
      ⟨before ++ [.compound (subject ++ others)], lineBreak⟩ := by
  simp [extended]

theorem Complex.extended_nil {parent : Complex}
    (closed : (Chain.subject? parent.components).isSome) : parent.extended [] = parent := by
  obtain ⟨components, lineBreak⟩ := parent
  obtain ⟨before, subject, rfl⟩ := Chain.subject?_isSome_iff.mp closed
  simp

theorem Complex.joined_none {parent : Complex} (others : Compound)
    (closed : (Chain.subject? parent.components).isSome) :
    parent.joined none others = .ok (parent.extended others) := by
  obtain ⟨components, lineBreak⟩ := parent
  obtain ⟨before, subject, rfl⟩ := Chain.subject?_isSome_iff.mp closed
  simp only [joined, Chain.splitSubject?_append_compound, extended_mk]
  rfl

theorem mapM_eq_ok {ε α β : Type} {f : α → Except ε β} {g : α → β} {xs : List α}
    (each : ∀ x ∈ xs, f x = .ok (g x)) : xs.mapM f = .ok (xs.map g) := by
  induction xs with
  | nil => rfl
  | cons x xs ih =>
    rw [List.mapM_cons, each x (by simp), ih fun y member => each y (List.mem_cons_of_mem _ member)]
    rfl

section

variable {parents : Alternatives}

theorem Compound.underParents_leading (others : Compound)
    (closed : ∀ parent ∈ parents, (Chain.subject? parent.components).isSome) :
    Compound.underParents parents (.parent none :: others) =
      .ok (parents.map (Complex.extended others)) := by
  cases others with
  | nil =>
    have same : parents.map (Complex.extended []) = parents := by
      rw [List.map_congr_left fun parent member => Complex.extended_nil (closed parent member)]
      exact List.map_id' _
    rw [same]
    rfl
  | cons first rest =>
    exact mapM_eq_ok fun parent member => Complex.joined_none _ (closed parent member)

theorem Compound.underParents_free {members : Compound} (free : Compound.holdsParent members = false) :
    Compound.underParents parents members = .ok [.single (.compound members)] := by
  unfold underParents
  split
  · simp [holdsParent, Simple.isParent] at free
  · simp [holdsParent, Simple.isParent] at free
  · rfl

variable {Element : Type} {document : Document Element} {interpretation : Interpretation Element}

theorem Compound.holds_append (first second : Compound) :
    Compound.Holds document interpretation (first ++ second) = fun element =>
      first.Holds document interpretation element ∧ second.Holds document interpretation element := by
  funext element
  simp only [Compound.holds_iff, List.mem_append, or_imp, forall_and]

theorem Complex.extended_matches_iff {parent : Complex} (others : Compound)
    (closed : (Chain.subject? parent.components).isSome) (rest : Chain) (element : Element) :
    Chain.Matches document (Compound.Holds document interpretation)
        ((parent.extended others).components ++ rest) element ↔
      ∃ middle, (Chain.Matches document (Compound.Holds document interpretation) parent.components
          middle ∧ others.Holds document interpretation middle) ∧
        rest.Onward document (Compound.Holds document interpretation) middle element := by
  obtain ⟨components, lineBreak⟩ := parent
  obtain ⟨before, subject, rfl⟩ := Chain.subject?_isSome_iff.mp closed
  simp only [extended_mk, List.append_assoc, List.singleton_append]
  rw [Chain.matches_append_iff]
  refine exists_congr fun middle => and_congr_left fun _ => ?_
  simp only [Chain.Matches, Chain.links_append, Chain.links_compound, Chain.links_nil,
    List.reverse_append, List.reverse_cons, List.reverse_nil, List.nil_append, List.singleton_append,
    Compound.holds_append]
  rcases (Chain.links _ before).reverse with _ | ⟨_ | _, _⟩ <;> simp [Link.Reach, and_right_comm]

theorem Alternatives.mem_followedBy_single {first : Alternatives} {second complex : Complex} :
    complex ∈ first.followedBy [second] ↔ ∃ outer ∈ first, outer ++ second = complex := by
  simp [followedBy, eq_comm]

end

/-! ### Expansions -/

/-- What a simple selector becomes: `&` is kept, and any other means what it meant with
`&` read as the parents. -/
inductive Simple.Expands (parents : Alternatives) : Simple → Simple → Prop
  | parent (suffix : Option String) : Expands parents (.parent suffix) (.parent suffix)
  | other {simple simple' : Simple} : simple.isParent = false → simple'.isParent = false →
      (∀ ⦃Element : Type⦄ (document : Document Element) (interpretation : Interpretation Element),
        simple'.Holds document interpretation =
          simple.Holds document (interpretation.under document parents)) →
      Expands parents simple simple'

/-- The second compound says what the first says with `&` read as the parents. -/
def Compound.Expands (parents : Alternatives) (members members' : Compound) : Prop :=
  ∀ ⦃Element : Type⦄ (document : Document Element) (interpretation : Interpretation Element),
    members'.Holds document interpretation =
      members.Holds document (interpretation.under document parents)

/-- The second chain says of each component what the first says with `&` read as the
parents. -/
def Chain.Expands (parents : Alternatives) (chain chain' : Chain) : Prop :=
  ∀ ⦃Element : Type⦄ (document : Document Element) (interpretation : Interpretation Element),
    chain'.links (Compound.Holds document interpretation) =
      chain.links (Compound.Holds document (interpretation.under document parents))

/-- The second alternatives match together what the first match with `&` read as the
parents. -/
def Alternatives.Expands (parents alternatives expansions : Alternatives) : Prop :=
  ∀ ⦃Element : Type⦄ (document : Document Element) (interpretation : Interpretation Element),
    expansions.Holds document interpretation =
      alternatives.Holds document (interpretation.under document parents)

section

variable {parents : Alternatives}
  (closed : ∀ parent ∈ parents, (Chain.subject? parent.components).isSome)

theorem Compound.expands_of_members {members members' : Compound}
    (expands : List.Forall₂ (Simple.Expands parents) members members')
    (free : Compound.holdsParent members = false) : Compound.Expands parents members members' := by
  intro Element document interpretation
  induction expands with
  | nil => rfl
  | cons first _ ih =>
    simp only [Compound.holdsParent, List.any_cons, Bool.or_eq_false_iff] at free ih
    cases first with
    | parent suffix => simp [Simple.isParent] at free
    | other _ _ same => simp only [Compound.Holds, same document, ih free.2]

theorem Compound.free_of_members {members members' : Compound}
    (expands : List.Forall₂ (Simple.Expands parents) members members')
    (free : Compound.holdsParent members = false) : Compound.holdsParent members' = false := by
  induction expands with
  | nil => rfl
  | cons first _ ih =>
    simp only [Compound.holdsParent, List.any_cons, Bool.or_eq_false_iff] at free ih ⊢
    cases first with
    | parent suffix => simp [Simple.isParent] at free
    | other _ kept _ => exact ⟨kept, ih free.2⟩

theorem Chain.Expands.single {chain chain' : Chain} (expands : chain.Expands parents chain')
    (lineBreak lineBreak' : Bool) :
    Alternatives.Expands parents [⟨chain, lineBreak⟩] [⟨chain', lineBreak'⟩] := by
  intro Element document interpretation
  funext element
  simp only [Alternatives.Holds, Chain.meaning_eq_links, expands document]

-- A chain without `&` stands for itself.
theorem Chain.expands_of_free {chain : Chain} (free : chain.mentionsParent = false) :
    chain.Expands parents chain := by
  intro Element document interpretation
  have same := (holds_withParent_of_free document interpretation
    (parents.Holds document interpretation)).chain chain free
  rw [Interpretation.under, ← Chain.meaning_eq_links, ← Chain.meaning_eq_links, same]

include closed in
/-- The parents, each extended and followed by the rest of a chain, stand for the chain
in which `&` takes their place. -/
theorem Alternatives.extended_expands {others others' : Compound} {rest rest' : Chain}
    (expandsOthers : Compound.Expands parents others others')
    (expandsRest : rest.Expands parents rest') (lineBreak lineBreak' : Bool) :
    Alternatives.Expands parents [⟨.compound (.parent none :: others) :: rest, lineBreak⟩]
      (Alternatives.followedBy (parents.map (Complex.extended others')) [⟨rest', lineBreak'⟩]) := by
  intro Element document interpretation
  funext element
  have start : Compound.Holds document (interpretation.under document parents)
      (.parent none :: others) = fun top => parents.Holds document interpretation top ∧
        others'.Holds document interpretation top := by
    funext top
    rw [expandsOthers document interpretation]
    rfl
  apply propext
  simp only [Alternatives.Holds, Chain.meaning_eq_links, or_false, Chain.links_compound,
    List.reverse_cons, ← expandsRest document, start, Chain.reach_links_iff]
  constructor
  · intro holds
    obtain ⟨complex, member, matched⟩ := Alternatives.holds_iff.mp holds
    obtain ⟨outer, isExtended, rfl⟩ := mem_followedBy_single.mp member
    obtain ⟨parent, isParent, rfl⟩ := List.mem_map.mp isExtended
    obtain ⟨top, ⟨above, also⟩, onward⟩ :=
      (Complex.extended_matches_iff others' (closed parent isParent) rest' element).mp matched
    exact ⟨top, ⟨Alternatives.holds_iff.mpr ⟨parent, isParent, above⟩, also⟩, onward⟩
  · rintro ⟨top, ⟨above, also⟩, onward⟩
    obtain ⟨parent, isParent, matched⟩ := Alternatives.holds_iff.mp above
    have member := mem_followedBy_single.mpr
      ⟨_, List.mem_map_of_mem isParent, (rfl : parent.extended others' ++ ⟨rest', lineBreak'⟩ = _)⟩
    refine Alternatives.holds_iff.mpr ⟨_, member, ?_⟩
    exact (Complex.extended_matches_iff others' (closed parent isParent) rest' element).mpr
      ⟨top, ⟨matched, also⟩, onward⟩

/-- A list as it is read in a nested rule, or in the argument of a pseudo there. -/
def Alternatives.read (implicit : Bool) (alternatives : Alternatives) : Alternatives :=
  if implicit then alternatives.map Complex.belowParent else alternatives

theorem Alternatives.read_cons (implicit : Bool) (complex : Complex) (rest : Alternatives) :
    Alternatives.read implicit (complex :: rest) =
      Alternatives.read implicit [complex] ++ Alternatives.read implicit rest := by
  cases implicit <;> rfl

theorem Alternatives.Expands.append {first second expansions expansions' : Alternatives}
    (expands : Alternatives.Expands parents first expansions)
    (expands' : Alternatives.Expands parents second expansions') :
    Alternatives.Expands parents (first ++ second) (expansions ++ expansions') := by
  intro Element document interpretation
  funext element
  have either (interpretation : Interpretation Element) (first second : Alternatives) :
      Alternatives.Holds document interpretation (first ++ second) element ↔
        first.Holds document interpretation element ∨
          second.Holds document interpretation element := by
    simp only [Alternatives.holds_iff, List.mem_append, or_and_right, exists_or]
  rw [propext (either ..), propext (either ..), expands document, expands' document]

/-- The expansions of one alternative. -/
def Complex.nest (parents : Alternatives) (implicit : Bool) (place : Option Span)
    (complex : Complex) : Diagnosed Alternatives :=
  if Chain.mentionsParent complex.components then Chain.nest parents place complex.components
  else if implicit then pure (Alternatives.followedBy parents [complex])
  else pure [complex]

theorem Alternatives.nest_cons (implicit : Bool) (place : Option Span) (complex : Complex)
    (rest : Alternatives) :
    Alternatives.nest parents implicit place (complex :: rest) = do
      let first ← complex.nest parents implicit place
      let others ← Alternatives.nest parents implicit place rest
      return first ++ others := by
  obtain ⟨components, lineBreak⟩ := complex
  simp only [Alternatives.nest, Complex.nest]
  split
  · rfl
  · split <;> rfl

include closed in
-- One alternative expands to alternatives that stand for it as it is read, if its
-- chain does so.
theorem Complex.nest_expands {components : Chain} {place : Option Span} {expansions : Alternatives}
    (nested : (Chain.nest parents place components).result = .ok expansions) (lineBreak : Bool)
    (expands : Alternatives.Expands parents [⟨components, lineBreak⟩] expansions) (implicit : Bool) :
    ∃ expansions, (Complex.nest parents implicit place ⟨components, lineBreak⟩).result =
      .ok expansions ∧
        Alternatives.Expands parents (Alternatives.read implicit [⟨components, lineBreak⟩])
          expansions := by
  by_cases mentions : Chain.mentionsParent components
  · have kept : Alternatives.read implicit [⟨components, lineBreak⟩] = [⟨components, lineBreak⟩] := by
      cases implicit <;> simp [Alternatives.read, belowParent, mentions]
    refine ⟨expansions, ?_, ?_⟩
    · rw [Complex.nest, if_pos mentions, nested]
    · rw [kept]
      exact expands
  · have free : Chain.Expands parents components components :=
      Chain.expands_of_free (by simpa using mentions)
    rw [Complex.nest, if_neg mentions]
    cases implicit with
    | false => exact ⟨[⟨components, lineBreak⟩], rfl, free.single _ _⟩
    | true =>
      refine ⟨Alternatives.followedBy parents [⟨components, lineBreak⟩], rfl, ?_⟩
      have alone : Compound.Expands parents [] [] := fun _ _ _ => rfl
      have below := Alternatives.extended_expands closed alone free lineBreak lineBreak
      rw [List.map_congr_left fun parent member => Complex.extended_nil (closed parent member),
        List.map_id'] at below
      simpa only [Alternatives.read, belowParent, mentions, if_true, List.map_cons, List.map_nil,
        Bool.false_eq_true, if_false] using below

-- A pseudo with a nested list expands as the list does. A list without `&` is kept.
theorem Simple.nest_nesting {name : String} {isClass : Bool} {argument : Option String}
    {alternatives : Alternatives} {span place : Option Span}
    (nested : alternatives.mentionsParent = true → ∃ expansions,
      (Alternatives.nest parents false (span <|> place) alternatives).result = .ok expansions ∧
        Alternatives.Expands parents alternatives expansions) :
    ∃ simple', (Simple.nest parents place
        (.pseudo ⟨name, isClass, argument, some ⟨alternatives, span⟩⟩)).result = .ok simple' ∧
      Simple.Expands parents (.pseudo ⟨name, isClass, argument, some ⟨alternatives, span⟩⟩)
        simple' := by
  by_cases mentions : Alternatives.mentionsParent alternatives
  · obtain ⟨expansions, nested, expands⟩ := nested mentions
    refine ⟨.pseudo ⟨name, isClass, argument, some ⟨expansions, span⟩⟩, ?_, .other rfl rfl ?_⟩
    · simp only [Simple.nest, if_pos mentions, Diagnosed.result_bind_eq_ok_iff]
      exact ⟨expansions, nested, (), rfl, rfl⟩
    · intro Element document interpretation
      rw [Simple.Holds, Simple.Holds, expands document interpretation]
      rfl
  · refine ⟨.pseudo ⟨name, isClass, argument, some ⟨alternatives, span⟩⟩, ?_, .other rfl rfl ?_⟩
    · simp only [Simple.nest, if_neg mentions]
      rfl
    · intro Element document interpretation
      have free := (holds_withParent_of_free document interpretation
        (parents.Holds document interpretation)).alternatives alternatives (by simpa using mentions)
      rw [Simple.Holds, Simple.Holds, Interpretation.under, free]
      rfl

-- A compound without `&` before a chain with a single expansion.
theorem Chain.nest_free {members members' : Compound} {rest rest' : Chain} {place : Option Span}
    (nested : (Compound.nest parents place members).result = .ok members')
    (expands : List.Forall₂ (Simple.Expands parents) members members')
    (free : Compound.holdsParent members = false)
    (nestedRest : (Chain.nest parents place rest).result = .ok [⟨rest', false⟩])
    (expandsRest : rest.Expands parents rest') :
    (Chain.nest parents place (.compound members :: rest)).result =
        .ok [⟨.compound members' :: rest', false⟩] ∧
      Chain.Expands parents (.compound members :: rest) (.compound members' :: rest') := by
  constructor
  · simp only [Chain.nest, Diagnosed.result_bind_eq_ok_iff]
    refine ⟨members', nested, [.single (.compound members')], ?_, _, nestedRest, rfl⟩
    rw [Compound.underParents_free (Compound.free_of_members expands free)]
    rfl
  · intro Element document interpretation
    rw [Chain.links_compound, Chain.links_compound, expandsRest document interpretation,
      Compound.expands_of_members expands free document]

include closed in
/-- A compound that `&` leads becomes the parents, extended by the other members. -/
theorem Chain.nest_leading {others members' : Compound} {rest rest' : Chain} {place : Option Span}
    (nested : (Compound.nest parents place (.parent none :: others)).result = .ok members')
    (expands : List.Forall₂ (Simple.Expands parents) (.parent none :: others) members')
    (free : Compound.holdsParent others = false)
    (nestedRest : (Chain.nest parents place rest).result = .ok [⟨rest', false⟩])
    (expandsRest : rest.Expands parents rest') :
    ∃ expansions,
      (Chain.nest parents place (.compound (.parent none :: others) :: rest)).result =
          .ok expansions ∧
        ∀ lineBreak, Alternatives.Expands parents
          [⟨.compound (.parent none :: others) :: rest, lineBreak⟩] expansions := by
  cases expands with
  | cons first expandsOthers =>
    cases first with
    | other notParent => simp [Simple.isParent] at notParent
    | parent =>
      have same := Compound.expands_of_members expandsOthers free
      refine ⟨_, ?_, fun lineBreak =>
        Alternatives.extended_expands closed same expandsRest lineBreak false⟩
      simp only [Chain.nest, Diagnosed.result_bind_eq_ok_iff]
      refine ⟨_, nested, _, ?_, _, nestedRest, rfl⟩
      rw [Compound.underParents_leading _ closed]
      rfl

/-- Expanding succeeds and keeps the meaning, for every kind of selector. -/
theorem nest_expands (parents : Alternatives)
    (closed : ∀ parent ∈ parents, (Chain.subject? parent.components).isSome) :
    Induction
      (fun simple => (∀ complex ∈ simple.deep, Chain.parentLeads complex.components = true) →
        ∀ place, ∃ simple', (simple.nest parents place).result = .ok simple' ∧
          simple.Expands parents simple')
      (fun compound => (∀ complex ∈ compound.deep, Chain.parentLeads complex.components = true) →
        ∀ place, ∃ compound', (compound.nest parents place).result = .ok compound' ∧
          List.Forall₂ (Simple.Expands parents) compound compound')
      (fun chain => (∀ complex ∈ chain.deep, Chain.parentLeads complex.components = true) →
        ∀ place,
          (chain.holdsParent = false → ∃ chain',
            (chain.nest parents place).result = .ok [⟨chain', false⟩] ∧ chain.Expands parents chain') ∧
          (chain.parentLeads = true → ∃ expansions,
            (chain.nest parents place).result = .ok expansions ∧
              ∀ lineBreak, Alternatives.Expands parents [⟨chain, lineBreak⟩] expansions))
      (fun alternatives =>
        (∀ complex ∈ alternatives.deep, Chain.parentLeads complex.components = true) →
        ∀ implicit place, ∃ expansions,
          (Alternatives.nest parents implicit place alternatives).result = .ok expansions ∧
            Alternatives.Expands parents (alternatives.read implicit) expansions) := by
  constructor
  case parent =>
    intro suffix _ place
    exact ⟨_, rfl, .parent suffix⟩
  case placeholder | typeName | className | idName | attr | plainPseudo =>
    intros
    exact ⟨_, rfl, .other rfl rfl fun _ _ _ => rfl⟩
  case universal =>
    intros
    exact ⟨_, rfl, .other rfl rfl fun _ _ _ => rfl⟩
  case nestingPseudo =>
    intro name isClass argument alternatives span ih leading place
    exact Simple.nest_nesting fun _ => ih leading false (span <|> place)
  case noMember =>
    intros
    exact ⟨[], rfl, .nil⟩
  case member =>
    intro simple rest ih ihRest leading place
    simp only [Compound.deep, List.forall_mem_append] at leading
    obtain ⟨simple', nested, expands⟩ := ih leading.1 place
    obtain ⟨rest', nestedRest, expandsRest⟩ := ihRest leading.2 place
    refine ⟨simple' :: rest', ?_, .cons expands expandsRest⟩
    simp only [Compound.nest, Diagnosed.result_bind_eq_ok_iff]
    exact ⟨simple', nested, rest', nestedRest, rfl⟩
  case noComponent =>
    intro _ place
    have expands : Chain.Expands parents [] [] := fun _ _ _ => rfl
    exact ⟨fun _ => ⟨[], rfl, expands⟩, fun _ => ⟨_, rfl, fun _ => expands.single _ false⟩⟩
  case compound =>
    intro members rest ih ihRest leading place
    simp only [Chain.deep, List.forall_mem_append] at leading
    obtain ⟨members', nested, expands⟩ := ih leading.1 place
    obtain ⟨freeRest, _⟩ := ihRest leading.2 place
    have free (none_held : Chain.holdsParent (.compound members :: rest) = false) :
        ∃ chain', (Chain.nest parents place (.compound members :: rest)).result =
          .ok [⟨chain', false⟩] ∧ Chain.Expands parents (.compound members :: rest) chain' := by
      simp only [Chain.holdsParent, Bool.or_eq_false_iff] at none_held
      obtain ⟨rest', nestedRest, expandsRest⟩ := freeRest none_held.2
      exact ⟨_, Chain.nest_free nested expands none_held.1 nestedRest expandsRest⟩
    refine ⟨free, fun leads => ?_⟩
    unfold Chain.parentLeads at leads
    split at leads
    next others rest' whole =>
      obtain ⟨rfl, rfl⟩ : members = .parent none :: others ∧ rest = rest' := by
        simpa using whole
      simp only [Bool.and_eq_true, Bool.not_eq_true'] at leads
      obtain ⟨rest', nestedRest, expandsRest⟩ := freeRest leads.2
      -- the parents take the place of `&`, each with the other members
      exact Chain.nest_leading closed nested expands leads.1 nestedRest expandsRest
    next chain _ =>
      obtain ⟨chain', nested, expands⟩ := free (by simpa using leads)
      exact ⟨_, nested, fun _ => expands.single _ _⟩
  case combinator =>
    intro kind rest ih leading place
    obtain ⟨freeRest, _⟩ := ih leading place
    have free (none_held : Chain.holdsParent (.combinator kind :: rest) = false) :
        ∃ chain', (Chain.nest parents place (.combinator kind :: rest)).result =
          .ok [⟨chain', false⟩] ∧ Chain.Expands parents (.combinator kind :: rest) chain' := by
      obtain ⟨rest', nestedRest, expandsRest⟩ := freeRest none_held
      refine ⟨.combinator kind :: rest', ?_, ?_⟩
      · simp only [Chain.nest, Diagnosed.result_bind_eq_ok_iff]
        exact ⟨_, nestedRest, rfl⟩
      · intro Element document interpretation
        rw [Chain.links_combinator, Chain.links_combinator, expandsRest document interpretation]
    refine ⟨free, fun leads => ?_⟩
    obtain ⟨chain', nested, expands⟩ := free (by simpa [Chain.parentLeads] using leads)
    exact ⟨_, nested, fun _ => expands.single _ _⟩
  case noAlternative =>
    intro _ implicit place
    refine ⟨[], rfl, ?_⟩
    intro Element document interpretation
    cases implicit <;> rfl
  case alternative =>
    intro components lineBreak rest ih ihRest leading implicit place
    simp only [Alternatives.deep, List.cons_append, List.forall_mem_cons,
      List.forall_mem_append] at leading
    obtain ⟨_, nestedChain, expandsChain⟩ := (ih leading.2.1 place).2 leading.1
    obtain ⟨first, nested, expands⟩ :=
      Complex.nest_expands closed nestedChain lineBreak (expandsChain lineBreak) implicit
    obtain ⟨others, nestedRest, expandsRest⟩ := ihRest leading.2.2 implicit place
    refine ⟨first ++ others, ?_, ?_⟩
    · simp only [Alternatives.nest_cons, Diagnosed.result_bind_eq_ok_iff]
      exact ⟨first, nested, others, nestedRest, rfl⟩
    · rw [Alternatives.read_cons]
      exact expands.append expandsRest

end

namespace SelectorList

/-- A nested rule whose parent references all lead alternatives, without suffix, has an
expansion under every list that no alternative of ends in a combinator, and the
expansion matches what the rule matches when `&` is read as that list. -/
theorem nest_holds_iff (child parent : SelectorList)
    (leading : ∀ complex ∈ Alternatives.deep child.alternatives,
      Chain.parentLeads complex.components = true)
    (closed : ∀ complex ∈ parent.alternatives, (Chain.subject? complex.components).isSome) :
    ∃ list, (child.nest (some parent) true).result = .ok list ∧
      ∀ ⦃Element : Type⦄ (document : Document Element) (interpretation : Interpretation Element)
        (element : Element),
        list.Holds document interpretation element ↔
          child.belowParent.Holds document
            (interpretation.withParent (parent.Holds document interpretation)) element := by
  obtain ⟨expansions, nested, expands⟩ :=
    (nest_expands parent.alternatives closed).alternatives child.alternatives leading true child.span
  refine ⟨⟨expansions, child.span⟩, ?_, ?_⟩
  · exact result_nestIn_eq_ok_iff.mpr ⟨expansions, nested, rfl⟩
  · intro Element document interpretation element
    have same := congrFun (expands document interpretation) element
    exact iff_of_eq same

/-- The rule `&.x > .y:not(& .z), .w`. -/
def innerRule : SelectorList :=
  ⟨[⟨[.compound [.parent none, .className "x"], .combinator .child,
      .compound [.className "y", .pseudo ⟨"not", true, none,
        some ⟨[⟨[.compound [.parent none], .compound [.className "z"]], false⟩], none⟩⟩]], false⟩,
    ⟨[.compound [.className "w"]], false⟩], none⟩

/-- The rule `.a + .b, .c`. -/
def outerRule : SelectorList :=
  ⟨[⟨[.compound [.className "a"], .combinator .nextSibling, .compound [.className "b"]], false⟩,
    ⟨[.compound [.className "c"]], false⟩], none⟩

theorem innerRule_nest_holds_iff :
    (∀ complex ∈ Alternatives.deep innerRule.alternatives,
      Chain.parentLeads complex.components = true) ∧
    (∀ complex ∈ outerRule.alternatives, (Chain.subject? complex.components).isSome) ∧
    ∃ list, (innerRule.nest (some outerRule) true).result = .ok list ∧
      ∀ ⦃Element : Type⦄ (document : Document Element) (interpretation : Interpretation Element)
        (element : Element),
        list.Holds document interpretation element ↔
          innerRule.belowParent.Holds document
            (interpretation.withParent (outerRule.Holds document interpretation)) element := by
  have leading : ∀ complex ∈ Alternatives.deep innerRule.alternatives,
      Chain.parentLeads complex.components = true := by
    decide
  have closed : ∀ complex ∈ outerRule.alternatives, (Chain.subject? complex.components).isSome := by
    decide
  exact ⟨leading, closed, nest_holds_iff innerRule outerRule leading closed⟩

end SelectorList

end Selectors
