import Selectors.Covering.Compound

/-!
# Covering of lists

Alternatives cover others when each of the others is covered by one of them. The
pseudos of a compound put the question again for their nested lists, and each
time the depth of both sides together is smaller. So the question is settled
within as many rounds as that depth has steps, and `covers_eq` says that the
answer is its own next round.
-/
namespace Selectors

namespace Alternatives

/-- One round: the question for nested lists is put to `rule`. -/
def coversRound (rule : ListRule) : ListRule := fun candidates others =>
  others.all fun other =>
    candidates.any fun candidate =>
      Chain.coversBy (Compound.coversBy rule) candidate.components other.components

/-- A number of rounds, after which nothing is covered. -/
def coversWithin : Nat → ListRule
  | 0 => fun _ _ => false
  | rounds + 1 => coversRound (coversWithin rounds)

/-- Whether the candidates are seen to cover the others. -/
def covers (candidates others : Alternatives) : Bool :=
  coversWithin (candidates.depth + others.depth + 1) candidates others

theorem coversRound_congr {rule rule' : ListRule} {candidates others : Alternatives}
    (h : rule.AgreeBelow (candidates.depth + others.depth) rule') :
    coversRound rule candidates others = coversRound rule' candidates others := by
  refine all_congr_of_mem fun other ho => any_congr_of_mem fun candidate hc => ?_
  unfold Chain.coversBy
  congr 1
  refine Chain.walk_congr fun first second above hf hs ha =>
    Compound.coversBy_congr fun _ _ below => h _ _ (Nat.lt_of_lt_of_le below ?_)
  have := depth_le_of_mem ho
  have := depth_le_of_mem hc
  have := Chain.depth_le_of_mem hf
  have := Chain.depth_le_of_mem hs
  have := Chain.depth_le_of_subset ha
  omega

/-- Rounds beyond the depth of both sides change nothing. -/
theorem coversWithin_eq {rounds rounds' : Nat} {candidates others : Alternatives}
    (h : candidates.depth + others.depth < rounds) (h' : candidates.depth + others.depth < rounds') :
    coversWithin rounds candidates others = coversWithin rounds' candidates others := by
  induction rounds generalizing rounds' candidates others with
  | zero => omega
  | succ n ih =>
    obtain _ | n' := rounds'
    · omega
    · exact coversRound_congr fun _ _ _ => ih (by omega) (by omega)

/-- The question for a list is the question for its chains, with nested lists
judged in the same way. -/
theorem covers_eq : covers = coversRound covers := by
  funext candidates others
  exact coversRound_congr fun _ _ _ => coversWithin_eq (by omega) (by omega)

end Alternatives

/-- Whether the first compound is seen to cover the second, which stands below
the chain. -/
def Compound.covers : CompoundRule := Compound.coversBy Alternatives.covers

/-- Whether the first chain is seen to cover the second. -/
def Chain.covers : Chain → Chain → Bool := Chain.coversBy Compound.covers

theorem Alternatives.covers_iff {candidates others : Alternatives} :
    candidates.covers others ↔
      ∀ other ∈ others, ∃ candidate ∈ candidates,
        Chain.covers candidate.components other.components := by
  rw [Alternatives.covers_eq, Alternatives.coversRound, List.all_eq_true]
  simp only [List.any_eq_true]
  rfl

end Selectors
