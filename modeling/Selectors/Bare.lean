import Selectors.Equality
import Selectors.Induction
import Selectors.Text

/-!
# Bare selectors

A selector without spans and line breaks, at any depth. Two selectors are equal
just when their bare forms are identical, and a bare form has the text and the
digest of the selector it came from. So equality is an equivalence, and equal
selectors have one text and one digest.
-/
namespace Selectors

mutual

def Simple.bare : Simple → Simple
  | .pseudo ⟨name, isClass, argument, some ⟨alternatives, _⟩⟩ =>
    .pseudo ⟨name, isClass, argument, some ⟨Alternatives.bare alternatives, none⟩⟩
  | simple => simple
termination_by structural simple => simple

def Compound.bare : Compound → Compound
  | [] => []
  | simple :: rest => simple.bare :: Compound.bare rest
termination_by structural compound => compound

def Chain.bare : Chain → Chain
  | [] => []
  | .compound members :: rest => .compound (Compound.bare members) :: Chain.bare rest
  | .combinator kind :: rest => .combinator kind :: Chain.bare rest
termination_by structural chain => chain

def Alternatives.bare : Alternatives → Alternatives
  | [] => []
  | ⟨components, _⟩ :: rest => ⟨Chain.bare components, false⟩ :: Alternatives.bare rest
termination_by structural alternatives => alternatives

end

def SelectorList.bare (list : SelectorList) : SelectorList :=
  ⟨Alternatives.bare list.alternatives, none⟩

theorem same_iff_bare :
    Induction (fun simple => ∀ other, simple.same other = true ↔ simple.bare = other.bare)
      (fun compound => ∀ other, compound.same other = true ↔ compound.bare = other.bare)
      (fun chain => ∀ other, chain.same other = true ↔ chain.bare = other.bare)
      (fun alternatives => ∀ other, alternatives.same other = true ↔ alternatives.bare = other.bare) := by
  constructor
  case parent | placeholder | typeName | className | idName | attr | plainPseudo =>
    intros
    rename_i other
    rcases other with _ | _ | ⟨_, _, _, _ | ⟨_, _⟩⟩ | _ | _ | _ | _ | _ <;>
      simp [Simple.same, Simple.bare, and_assoc]
  case universal =>
    rintro (_ | _ | ⟨_, _, _, _ | ⟨_, _⟩⟩ | _ | _ | _ | _ | _) <;> simp [Simple.same, Simple.bare]
  case nestingPseudo =>
    rintro _ _ _ _ _ ih (_ | _ | ⟨_, _, _, _ | ⟨_, _⟩⟩ | _ | _ | _ | _ | _) <;>
      simp [Simple.same, Simple.bare, ih, and_assoc]
  case noMember => rintro (_ | _) <;> simp [Compound.same, Compound.bare]
  case member => rintro _ _ ih ih' (_ | _) <;> simp [Compound.same, Compound.bare, ih, ih']
  case noComponent => rintro (_ | ⟨_ | _, _⟩) <;> simp [Chain.same, Chain.bare]
  case compound => rintro _ _ ih ih' (_ | ⟨_ | _, _⟩) <;> simp [Chain.same, Chain.bare, ih, ih']
  case combinator => rintro _ _ ih (_ | ⟨_ | _, _⟩) <;> simp [Chain.same, Chain.bare, ih]
  case noAlternative => rintro (_ | ⟨⟨_, _⟩, _⟩) <;> simp [Alternatives.same, Alternatives.bare]
  case alternative =>
    rintro _ _ _ ih ih' (_ | ⟨⟨_, _⟩, _⟩) <;> simp [Alternatives.same, Alternatives.bare, ih, ih']

theorem text_bare :
    Induction (fun simple => simple.bare.text = simple.text)
      (fun compound => Compound.texts compound.bare = compound.texts)
      (fun chain => Chain.texts chain.bare = chain.texts)
      (fun alternatives => Alternatives.texts alternatives.bare = alternatives.texts) := by
  constructor <;> intros <;>
    simp_all [Simple.bare, Compound.bare, Chain.bare, Alternatives.bare, Simple.text, Compound.texts,
      Chain.texts, Alternatives.texts]

theorem digest_bare :
    Induction (fun simple => simple.bare.digest = simple.digest)
      (fun compound => Compound.digest compound.bare = compound.digest)
      (fun chain => Chain.digest chain.bare = chain.digest)
      (fun alternatives => Alternatives.digest alternatives.bare = alternatives.digest) := by
  constructor <;> intros <;>
    simp_all [Simple.bare, Compound.bare, Chain.bare, Alternatives.bare, Simple.digest,
      Compound.digest, Chain.digest, Alternatives.digest]

theorem Simple.beq_iff_bare {simple other : Simple} : simple == other ↔ simple.bare = other.bare :=
  Induction.simple same_iff_bare simple other

theorem Compound.beq_iff_bare {compound other : Compound} :
    compound == other ↔ compound.bare = other.bare := by
  rw [← Compound.same_eq_beq]
  exact Induction.members same_iff_bare compound other

theorem Chain.beq_iff_bare {chain other : Chain} : chain == other ↔ chain.bare = other.bare := by
  rw [← Chain.same_eq_beq]
  exact Induction.chain same_iff_bare chain other

theorem Complex.beq_iff_bare {complex other : Complex} :
    complex == other ↔ Chain.bare complex.components = Chain.bare other.components := by
  rw [Complex.beq_def]
  exact Chain.beq_iff_bare

theorem Alternatives.beq_iff_bare {alternatives other : Alternatives} :
    alternatives == other ↔ alternatives.bare = other.bare := by
  rw [← Alternatives.same_eq_beq]
  exact Induction.alternatives same_iff_bare alternatives other

theorem SelectorList.beq_iff_bare {list other : SelectorList} :
    list == other ↔ list.bare = other.bare := by
  change SelectorList.same list other = true ↔ _
  have := Induction.alternatives same_iff_bare list.alternatives other.alternatives
  simpa [SelectorList.same, SelectorList.bare] using this

/-- Equal selectors are written alike. -/
theorem SelectorList.text_eq_of_beq {list other : SelectorList} (h : list == other) :
    list.text = other.text := by
  have same := (Induction.alternatives same_iff_bare list.alternatives other.alternatives).mp h
  have := Induction.alternatives text_bare
  simp only [SelectorList.text, Alternatives.text, ← this list.alternatives, same, this]

/-! ### Bare forms of the parts -/

def Pseudo.bare (pseudo : Pseudo) : Pseudo :=
  ⟨pseudo.name, pseudo.isClass, pseudo.argument, pseudo.nested.map SelectorList.bare⟩

def Component.bare : Component → Component
  | compound members => compound (Compound.bare members)
  | combinator kind => combinator kind

def Complex.bare (complex : Complex) : Complex := ⟨Chain.bare complex.components, false⟩

@[simp] theorem Simple.bare_pseudo (pseudo : Pseudo) :
    (Simple.pseudo pseudo).bare = .pseudo pseudo.bare := by
  obtain ⟨_, _, _, _ | ⟨_, _⟩⟩ := pseudo <;> rfl

theorem Compound.bare_eq_map (compound : Compound) : compound.bare = compound.map Simple.bare := by
  induction compound with
  | nil => rfl
  | cons simple rest ih => exact congrArg (simple.bare :: ·) ih

theorem Chain.bare_eq_map (chain : Chain) : chain.bare = chain.map Component.bare := by
  induction chain with
  | nil => rfl
  | cons component rest ih => cases component <;> exact congrArg (_ :: ·) ih

theorem Alternatives.bare_eq_map (alternatives : Alternatives) :
    alternatives.bare = alternatives.map Complex.bare := by
  induction alternatives with
  | nil => rfl
  | cons complex rest ih =>
    cases complex
    exact congrArg (_ :: ·) ih

theorem bare_bare :
    Induction (fun simple => simple.bare.bare = simple.bare)
      (fun compound => Compound.bare compound.bare = compound.bare)
      (fun chain => Chain.bare chain.bare = chain.bare)
      (fun alternatives => Alternatives.bare alternatives.bare = alternatives.bare) := by
  constructor <;> intros <;>
    simp_all [Simple.bare, Compound.bare, Chain.bare, Alternatives.bare, Pseudo.bare,
      SelectorList.bare]

/-- Equality does not see the difference between a selector and its bare form. -/
@[simp] theorem Simple.bare_beq_bare (simple other : Simple) :
    (simple.bare == other.bare) = (simple == other) := by
  rw [Bool.eq_iff_iff, Simple.beq_iff_bare, Simple.beq_iff_bare, Induction.simple bare_bare,
    Induction.simple bare_bare]

@[simp] theorem Chain.bare_beq_bare (chain other : Chain) :
    (chain.bare == other.bare) = (chain == other) := by
  rw [Bool.eq_iff_iff, Chain.beq_iff_bare, Chain.beq_iff_bare, Induction.chain bare_bare,
    Induction.chain bare_bare]

@[simp] theorem SelectorList.bare_beq_bare (list other : SelectorList) :
    (list.bare == other.bare) = (list == other) := by
  rw [Bool.eq_iff_iff, SelectorList.beq_iff_bare, SelectorList.beq_iff_bare]
  simp only [SelectorList.bare, Induction.alternatives bare_bare]

instance : EquivBEq Simple where
  rfl := Simple.beq_iff_bare.mpr rfl
  symm h := Simple.beq_iff_bare.mpr (Simple.beq_iff_bare.mp h).symm
  trans h h' := Simple.beq_iff_bare.mpr ((Simple.beq_iff_bare.mp h).trans (Simple.beq_iff_bare.mp h'))

instance : EquivBEq SelectorList where
  rfl := SelectorList.beq_iff_bare.mpr rfl
  symm h := SelectorList.beq_iff_bare.mpr (SelectorList.beq_iff_bare.mp h).symm
  trans h h' :=
    SelectorList.beq_iff_bare.mpr ((SelectorList.beq_iff_bare.mp h).trans (SelectorList.beq_iff_bare.mp h'))

instance : LawfulHashable Simple where
  hash_eq simple other h := by
    have bare : simple.bare = other.bare := Simple.beq_iff_bare.mp h
    show simple.digest = other.digest
    rw [← Induction.simple digest_bare simple, bare, Induction.simple digest_bare other]

instance : LawfulHashable SelectorList where
  hash_eq list other h := by
    have bare := (Induction.alternatives same_iff_bare list.alternatives other.alternatives).mp h
    show Alternatives.digest list.alternatives = Alternatives.digest other.alternatives
    rw [← Induction.alternatives digest_bare, bare, Induction.alternatives digest_bare]

end Selectors
