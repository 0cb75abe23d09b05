import Selectors.Induction
import Selectors.Nesting
import Selectors.Proofs.Nesting.PartialMap

/-!
# Outcomes of nesting

What a rule expands to, apart from the warnings on the way and from where a failure is
placed. The place is only ever reported, so the outcome does not depend on it, and the
outcome of a chain is put together from those of its components.
-/
namespace Selectors

variable {α β : Type}

namespace Diagnosed

/-- The value, if the computation gives one. -/
def value? (computation : Diagnosed α) : Option α := computation.result.toOption

@[simp] theorem value?_ok (value : α) (warnings : List Warning) :
    value? ⟨.ok value, warnings⟩ = some value := rfl

@[simp] theorem value?_bind (first : Diagnosed α) (next : α → Diagnosed β) :
    (first >>= next).value? = first.value?.bind fun value => (next value).value? := by
  obtain ⟨_ | _, _⟩ := first <;> rfl

@[simp] theorem value?_ofFailure (place : Option Span) (result : Except NestingFailure α) :
    (ofFailure place result).value? = result.toOption := by
  cases result <;> rfl

theorem value?_eq_some_iff {computation : Diagnosed α} {value : α} :
    computation.value? = some value ↔ computation.result = .ok value := by
  obtain ⟨_ | _, _⟩ := computation <;> simp [value?, Except.toOption]

theorem value?_eq_none_iff {computation : Diagnosed α} :
    computation.value? = none ↔ ∃ error, computation.result = .error error := by
  obtain ⟨_ | _, _⟩ := computation <;> simp [value?, Except.toOption]

end Diagnosed

/-! ### One list of chains followed by another -/

namespace Alternatives

@[simp] theorem followedBy_single_nil (first : Alternatives) : first.followedBy [.nil] = first := by
  simp [followedBy, List.flatMap_singleton']

theorem followedBy_single (first : Alternatives) (complex : Complex) :
    first.followedBy [complex] = first.map (· ++ complex) := by
  simp only [followedBy, List.map_cons, List.map_nil]
  exact (List.map_eq_flatMap (f := (· ++ complex)) (l := first)).symm

theorem single_followedBy (complex : Complex) (second : Alternatives) :
    followedBy [complex] second = second.map (complex ++ ·) := by
  simp [followedBy]

@[simp] theorem single_nil_followedBy (second : Alternatives) :
    followedBy [.nil] second = second := by
  simp [followedBy]

theorem mem_followedBy {first second : Alternatives} {complex : Complex} :
    complex ∈ first.followedBy second ↔ ∃ part ∈ first, ∃ rest ∈ second, part ++ rest = complex := by
  simp [followedBy]

theorem followedBy_assoc (first second third : Alternatives) :
    (first.followedBy second).followedBy third = first.followedBy (second.followedBy third) := by
  simp only [followedBy, List.flatMap_assoc, List.map_flatMap, List.flatMap_map, List.map_map]
  simp only [Function.comp_def, Complex.append_assoc]

end Alternatives

/-! ### Outcomes -/

/-- What a simple selector becomes under the parent alternatives, if it can be expanded. -/
def Simple.expansion? (parents : Alternatives) (simple : Simple) : Option Simple :=
  (simple.nest parents none).value?

/-- What the members become, each in its place. -/
def Compound.expansion? (parents : Alternatives) (compound : Compound) : Option Compound :=
  (compound.nest parents none).value?

/-- The chains that stand for a component. -/
def Component.expansions? (parents : Alternatives) : Component → Option Alternatives
  | .compound members =>
    (Compound.expansion? parents members).bind fun members =>
      (Compound.underParents parents members).toOption
  | .combinator kind => some [.single (.combinator kind)]

def Chain.expansions? (parents : Alternatives) (chain : Chain) : Option Alternatives :=
  (chain.nest parents none).value?

/-- The expansions of one alternative. -/
def Complex.expansions? (parents : Alternatives) (implicit : Bool) (complex : Complex) :
    Option Alternatives :=
  if Chain.mentionsParent complex.components then Chain.expansions? parents complex.components
  else if implicit then some (Alternatives.followedBy parents [complex])
  else some [complex]

def Alternatives.expansions? (parents : Alternatives) (implicit : Bool)
    (alternatives : Alternatives) : Option Alternatives :=
  (Alternatives.nest parents implicit none alternatives).value?

/-- Where failures are placed does not matter to the outcome. -/
theorem value?_nest (parents : Alternatives) :
    Induction
      (fun simple => ∀ place, (simple.nest parents place).value? = simple.expansion? parents)
      (fun compound => ∀ place, (compound.nest parents place).value? = compound.expansion? parents)
      (fun chain => ∀ place, (chain.nest parents place).value? = chain.expansions? parents)
      (fun alternatives => ∀ implicit place,
        (Alternatives.nest parents implicit place alternatives).value? =
          Alternatives.expansions? parents implicit alternatives) := by
  constructor
  case parent | placeholder | typeName | universal | className | idName | attr | plainPseudo =>
    intros
    rfl
  case noMember | noComponent | noAlternative =>
    intros
    rfl
  case nestingPseudo =>
    intro name isClass argument alternatives span ih place
    simp only [Simple.expansion?, Simple.nest]
    split
    · simp only [Diagnosed.value?_bind, ih]
    · rfl
  case member =>
    intro simple rest ih ihRest place
    simp only [Compound.expansion?, Compound.nest, Diagnosed.value?_bind]
    simp only [ih, ihRest]
  case compound =>
    intro members rest ih ihRest place
    simp only [Chain.expansions?, Chain.nest, Diagnosed.value?_bind, Diagnosed.value?_ofFailure]
    simp only [ih, ihRest]
  case combinator =>
    intro kind rest ih place
    simp only [Chain.expansions?, Chain.nest, Diagnosed.value?_bind]
    simp only [ih]
  case alternative =>
    intro components lineBreak rest ih ihRest implicit place
    simp only [Alternatives.expansions?, Alternatives.nest]
    split
    · simp only [Diagnosed.value?_bind]
      simp only [ih, ihRest]
    · split <;> simp only [Diagnosed.value?_bind, ihRest]

section

variable {parents : Alternatives}

@[simp] theorem Simple.expansion?_parent (suffix : Option String) :
    Simple.expansion? parents (.parent suffix) = some (.parent suffix) := rfl

theorem Simple.expansion?_nesting (name : String) (isClass : Bool) (argument : Option String)
    (alternatives : Alternatives) (span : Option Span) :
    Simple.expansion? parents (.pseudo ⟨name, isClass, argument, some ⟨alternatives, span⟩⟩) =
      if alternatives.mentionsParent then
        (Alternatives.expansions? parents false alternatives).map fun alternatives =>
          .pseudo ⟨name, isClass, argument, some ⟨alternatives, span⟩⟩
      else some (.pseudo ⟨name, isClass, argument, some ⟨alternatives, span⟩⟩) := by
  simp only [Simple.expansion?, Simple.nest]
  split
  · rw [Diagnosed.value?_bind, (value?_nest parents).alternatives, Option.map_eq_bind]
    rfl
  · rfl

@[simp] theorem Compound.expansion?_cons (simple : Simple) (rest : Compound) :
    Compound.expansion? parents (simple :: rest) =
      Option.map₂ (· :: ·) (simple.expansion? parents) (rest.expansion? parents) := by
  simp only [Compound.expansion?, Compound.nest, Simple.expansion?, Diagnosed.value?_bind,
    Diagnosed.pure_def, Diagnosed.value?_ok, Option.map₂, Option.map_eq_bind, Function.comp_def]

@[simp] theorem Chain.expansions?_nil : Chain.expansions? parents [] = some [.nil] := rfl

@[simp] theorem Chain.expansions?_cons (component : Component) (rest : Chain) :
    Chain.expansions? parents (component :: rest) =
      Option.map₂ Alternatives.followedBy (component.expansions? parents)
        (rest.expansions? parents) := by
  simp only [Option.map₂, Option.map_eq_bind]
  cases component with
  | compound members =>
    simp only [Chain.expansions?, Chain.nest, Component.expansions?, Compound.expansion?,
      Diagnosed.value?_bind, Diagnosed.value?_ofFailure, Option.bind_assoc]
    rfl
  | combinator kind =>
    simp only [Chain.expansions?, Chain.nest, Component.expansions?, Diagnosed.value?_bind,
      Option.bind_some]
    rfl

/-- An expansion of a chain is put together from one of its first component and one of the
rest. -/
theorem Chain.exists_of_mem_expansions? {component : Component} {rest : Chain}
    {expansions : Alternatives} {expansion : Complex}
    (expanded : Chain.expansions? parents (component :: rest) = some expansions)
    (member : expansion ∈ expansions) :
    ∃ parts others, component.expansions? parents = some parts ∧
      rest.expansions? parents = some others ∧
        ∃ part ∈ parts, ∃ other ∈ others, part ++ other = expansion := by
  rw [Chain.expansions?_cons] at expanded
  obtain ⟨parts, others, isParts, isOthers, rfl⟩ := Option.map₂_eq_some_iff.mp expanded
  exact ⟨parts, others, isParts, isOthers, Alternatives.mem_followedBy.mp member⟩

@[simp] theorem Alternatives.expansions?_nil (implicit : Bool) :
    Alternatives.expansions? parents implicit [] = some [] := rfl

@[simp] theorem Alternatives.expansions?_cons (implicit : Bool) (complex : Complex)
    (rest : Alternatives) :
    Alternatives.expansions? parents implicit (complex :: rest) =
      Option.map₂ (· ++ ·) (complex.expansions? parents implicit)
        (Alternatives.expansions? parents implicit rest) := by
  obtain ⟨components, lineBreak⟩ := complex
  simp only [Alternatives.expansions?, Alternatives.nest, Complex.expansions?, Chain.expansions?]
  split
  · simp only [Diagnosed.value?_bind, Diagnosed.pure_def, Diagnosed.value?_ok, Option.map₂,
      Option.map_eq_bind, Function.comp_def]
  · split <;>
      simp only [Diagnosed.value?_bind, Diagnosed.pure_def, Diagnosed.value?_ok, Option.bind_some,
        Option.map₂, Option.map_eq_bind, Function.comp_def]

/-- The expansions of the alternatives, one after the other. -/
theorem Alternatives.expansions?_eq (implicit : Bool) (alternatives : Alternatives) :
    Alternatives.expansions? parents implicit alternatives =
      (alternatives.mapM (Complex.expansions? parents implicit)).map List.flatten := by
  induction alternatives with
  | nil => rfl
  | cons complex rest ih =>
    rw [expansions?_cons, ih, mapM_cons_option, Option.map_map₂, Option.map₂_map_right]
    rfl

/-- The expansions of two chains in a row are those of the first followed by those of the
second. -/
theorem Chain.expansions?_append (first second : Chain) :
    Chain.expansions? parents (first ++ second) =
      Option.map₂ Alternatives.followedBy (first.expansions? parents)
        (second.expansions? parents) := by
  induction first with
  | nil =>
    rw [List.nil_append]
    cases expanded : second.expansions? parents <;> simp
  | cons component rest ih =>
    rw [List.cons_append, Chain.expansions?_cons, Chain.expansions?_cons, ih]
    exact (Option.map₂_assoc Alternatives.followedBy_assoc).symm

theorem Compound.expansion?_append (first second : Compound) :
    Compound.expansion? parents (first ++ second) =
      Option.map₂ (· ++ ·) (first.expansion? parents) (second.expansion? parents) := by
  induction first with
  | nil =>
    rw [List.nil_append]
    cases expanded : second.expansion? parents <;> rfl
  | cons simple rest ih =>
    rw [List.cons_append, Compound.expansion?_cons, Compound.expansion?_cons, ih]
    refine (Option.map₂_assoc (f := (· ++ ·)) (g := (· :: ·)) ?_).symm
    exact fun _ _ _ => rfl

/-! ### Compounds that the parent reference leads -/

/-- Whether `&` leads the compound. -/
def Compound.isReference : Compound → Bool
  | .parent _ :: _ => true
  | _ => false

@[simp] theorem Compound.isReference_cons (simple : Simple) (rest : Compound) :
    isReference (simple :: rest) = simple.isParent := by
  cases simple <;> rfl

theorem Compound.isReference_iff {members : Compound} :
    members.isReference = true ↔ ∃ suffix others, members = .parent suffix :: others := by
  unfold isReference
  split <;> simp_all

/-- The subject with the suffix, if there is one to take. -/
def Compound.suffixed? (suffix : Option String) (subject : Compound) : Option Compound :=
  match suffix with
  | none => some subject
  | some suffix => (subject.continued suffix).toOption

/-- What a chain becomes in the place of an `&` with this suffix and these members after it. -/
def Chain.placed? (suffix : Option String) (others : Compound) (chain : Chain) : Option Chain :=
  if suffix.isNone && others.isEmpty then some chain
  else chain.splitSubject?.bind fun (before, subject) =>
    (subject.suffixed? suffix).map fun subject => before ++ [.compound (subject ++ others)]

theorem Complex.toOption_joined (suffix : Option String) (others : Compound) (outer : Complex) :
    (outer.joined suffix others).toOption =
      (Chain.splitSubject? outer.components).bind fun (before, subject) =>
        (subject.suffixed? suffix).map fun subject =>
          ⟨before ++ [.compound (subject ++ others)], outer.lineBreak⟩ := by
  unfold joined
  cases Chain.splitSubject? outer.components with
  | none => rfl
  | some split =>
    cases suffix with
    | none => rfl
    | some suffix =>
      simp only [Option.bind_some, Compound.suffixed?]
      cases split.2.continued suffix <;> rfl

theorem Compound.underParents_joined {suffix : Option String} {others : Compound}
    (more : (suffix.isNone && others.isEmpty) = false) :
    underParents parents (.parent suffix :: others) =
      parents.mapM (Complex.joined suffix others) := by
  unfold underParents
  split <;> simp_all

theorem Compound.underParents_parent (suffix : Option String) (others : Compound) :
    (underParents parents (.parent suffix :: others)).toOption =
      parents.mapM fun outer =>
        (Chain.placed? suffix others outer.components).map (⟨·, outer.lineBreak⟩) := by
  by_cases bare : (suffix.isNone && others.isEmpty) = true
  · obtain ⟨rfl, rfl⟩ : suffix = none ∧ others = [] := by simpa using bare
    have kept : (fun outer : Complex => (Chain.placed? none [] outer.components).map
        fun components => (⟨components, outer.lineBreak⟩ : Complex)) = fun outer => some outer := by
      funext ⟨components, lineBreak⟩
      rfl
    have same : parents.mapM (fun outer => some outer) = some parents := by
      simpa using List.mapM_pure (m := Option) (l := parents) (f := id)
    rw [kept, same]
    rfl
  · rw [underParents_joined (by simpa using bare), toOption_mapM]
    simp only [Chain.placed?, bare, Complex.toOption_joined]
    simp [Option.map_bind, Function.comp_def]

theorem Compound.underParents_of_not_reference {members : Compound}
    (plain : members.isReference = false) :
    underParents parents members = .ok [.single (.compound members)] := by
  unfold underParents
  split
  · cases plain
  · cases plain
  · rfl

theorem Simple.isParent_of_expansion? {simple simple' : Simple}
    (expanded : simple.expansion? parents = some simple') : simple'.isParent = simple.isParent := by
  rcases simple with _ | _ | ⟨_, _, _, _ | ⟨alternatives, span⟩⟩ | _ | _ | _ | _ | _
  case pseudo.some =>
    rw [expansion?_nesting] at expanded
    split at expanded
    · obtain ⟨_, _, rfl⟩ := Option.map_eq_some_iff.mp expanded
      rfl
    · obtain rfl := Option.some.inj expanded
      rfl
  all_goals
    obtain rfl := Option.some.inj expanded
    rfl

/-- Expanding the members leaves `&` at the head, and brings none there. -/
theorem Compound.isReference_of_expansion? {members members' : Compound}
    (expanded : members.expansion? parents = some members') :
    members'.isReference = members.isReference := by
  rcases members with _ | ⟨simple, rest⟩
  · obtain rfl := Option.some.inj expanded
    rfl
  · rw [expansion?_cons] at expanded
    obtain ⟨simple', rest', isFirst, _, rfl⟩ := Option.map₂_eq_some_iff.mp expanded
    simpa using Simple.isParent_of_expansion? isFirst

/-- What stands for a compound that `&` leads: every parent alternative, with the other members
joined to it. -/
theorem Component.expansions?_parent (suffix : Option String) (others : Compound) :
    Component.expansions? parents (.compound (.parent suffix :: others)) =
      (others.expansion? parents).bind fun others' =>
        parents.mapM fun outer =>
          (Chain.placed? suffix others' outer.components).map (⟨·, outer.lineBreak⟩) := by
  rw [expansions?, Compound.expansion?_cons, Simple.expansion?_parent]
  cases others.expansion? parents with
  | none => rfl
  | some others' => exact Compound.underParents_parent suffix others'

/-- Any other compound stands for itself, with its members expanded. -/
theorem Component.expansions?_plain {members : Compound} (plain : members.isReference = false) :
    Component.expansions? parents (.compound members) =
      (members.expansion? parents).map fun members' => [.single (.compound members')] := by
  rw [expansions?]
  cases isMembers : members.expansion? parents with
  | none => rfl
  | some members' =>
    rw [Option.bind_some, Compound.underParents_of_not_reference
      ((Compound.isReference_of_expansion? isMembers).trans plain)]
    rfl

/-! ### Selectors without parent reference -/

theorem Compound.isReference_of_free {members : Compound} (free : members.mentionsParent = false) :
    members.isReference = false := by
  apply Bool.eq_false_iff.mpr
  intro leads
  obtain ⟨suffix, others, rfl⟩ := isReference_iff.mp leads
  cases free

theorem Simple.expansion?_free {simple : Simple} (free : simple.mentionsParent = false) :
    simple.expansion? parents = some simple := by
  rcases simple with _ | _ | ⟨_, _, _, _ | ⟨alternatives, _⟩⟩ | _ | _ | _ | _ | _
  case pseudo.some =>
    have free : Alternatives.mentionsParent alternatives = false := free
    simp [Simple.expansion?_nesting, free]
  all_goals rfl

theorem Compound.expansion?_free {compound : Compound} (free : compound.mentionsParent = false) :
    compound.expansion? parents = some compound := by
  induction compound with
  | nil => rfl
  | cons simple rest ih =>
    simp only [Compound.mentionsParent, Bool.or_eq_false_iff] at free
    simp [Simple.expansion?_free free.1, ih free.2]

end

namespace SelectorList

/-- A nested rule expands to the expansions of its alternatives, at its own place. -/
theorem value?_nest (child parent : SelectorList) (implicit : Bool) :
    (child.nest (some parent) implicit).value? =
      (Alternatives.expansions? parent.alternatives implicit child.alternatives).map
        (⟨·, child.span⟩) := by
  rw [nest, nestIn, Diagnosed.value?_bind,
    (Selectors.value?_nest parent.alternatives).alternatives, Option.map_eq_bind]
  rfl

theorem result_nest_eq_ok_iff {child parent list : SelectorList} {implicit : Bool} :
    (child.nest (some parent) implicit).result = .ok list ↔
      ∃ alternatives,
        Alternatives.expansions? parent.alternatives implicit child.alternatives =
            some alternatives ∧ ⟨alternatives, child.span⟩ = list := by
  rw [← Diagnosed.value?_eq_some_iff, value?_nest, Option.map_eq_some_iff]

theorem result_nest_eq_error_iff {child parent : SelectorList} {implicit : Bool} :
    (∃ error, (child.nest (some parent) implicit).result = .error error) ↔
      Alternatives.expansions? parent.alternatives implicit child.alternatives = none := by
  rw [← Diagnosed.value?_eq_none_iff, value?_nest, Option.map_eq_none_iff]

end SelectorList

end Selectors
