import Mathlib.Data.List.Forall2

/-!
# Overlaid sequences

Two sequences of conditions are laid over each other, first on first and second on second. A
word may satisfy both in their order without satisfying the overlay, unless at every place
where both go one and the same of them says no more than the other.
-/
namespace Selectors

variable {α : Type} {r : α → α → Prop}

/-! ### Sequences in words -/

/-- The items of the first list are found in the second in their order. -/
abbrev Fits (r : α → α → Prop) : List α → List α → Prop := List.SublistForall₂ r

namespace Fits

variable {x w : α} {xs ys word front : List α}

theorem length_le (fits : Fits r xs word) : xs.length ≤ word.length := by
  obtain ⟨found, related, isSublist⟩ := List.sublistForall₂_iff.mp fits
  rw [related.length_eq]
  exact isSublist.length_le

theorem cons_cons_cases (fits : Fits r (x :: xs) (w :: word)) :
    r x w ∧ Fits r xs word ∨ Fits r (x :: xs) word := by
  cases fits with
  | cons related rest => exact .inl ⟨related, rest⟩
  | cons_right rest => exact .inr rest

theorem of_cons (fits : Fits r (x :: xs) word) : Fits r xs word := by
  induction word with
  | nil => cases fits
  | cons w word ih =>
    rcases fits.cons_cons_cases with ⟨_, rest⟩ | rest
    · exact .cons_right rest
    · exact .cons_right (ih rest)

theorem of_append (front : List α) (fits : Fits r (front ++ xs) word) : Fits r xs word := by
  induction front with
  | nil => exact fits
  | cons x front ih => exact ih fits.of_cons

theorem of_cons_cons (fits : Fits r (x :: xs) (w :: word)) : Fits r xs word :=
  fits.cons_cons_cases.elim And.right of_cons

theorem past (fits : Fits r (x :: xs) (w :: word)) (unrelated : ¬r x w) : Fits r (x :: xs) word :=
  fits.cons_cons_cases.resolve_left fun here => unrelated here.1

theorem past_append (fits : Fits r (x :: xs) (front ++ word)) (unrelated : ∀ w ∈ front, ¬r x w) :
    Fits r (x :: xs) word := by
  induction front with
  | nil => exact fits
  | cons w front ih =>
    obtain ⟨here, others⟩ := List.forall_mem_cons.mp unrelated
    exact ih (fits.past here) others

theorem append_left (fits : Fits r xs word) (front : List α) : Fits r xs (front ++ word) := by
  induction front with
  | nil => exact fits
  | cons w front ih => exact .cons_right ih

theorem refl [Std.Refl r] (xs : List α) : Fits r xs xs :=
  (List.Sublist.refl xs).sublistForall₂

theorem append [Std.Refl r] (fits : Fits r xs word) (front : List α) :
    Fits r (front ++ xs) (front ++ word) := by
  induction front with
  | nil => exact fits
  | cons w front ih => exact .cons (refl_of r w) ih

theorem imp_cons {x' : α} {xs' : List α} (fits : Fits r (x :: xs) word)
    (first : ∀ w, r x w → r x' w) (rest : ∀ word, Fits r xs word → Fits r xs' word) :
    Fits r (x' :: xs') word := by
  induction word with
  | nil => cases fits
  | cons w word ih =>
    rcases fits.cons_cons_cases with ⟨related, others⟩ | others
    · exact .cons (first w related) (rest word others)
    · exact .cons_right (ih others)

theorem imp_of_mem {r' : α → α → Prop} (fits : Fits r xs word)
    (stronger : ∀ x ∈ xs, ∀ w ∈ word, r x w → r' x w) : Fits r' xs word := by
  induction fits with
  | nil => exact .nil
  | cons related _ ih =>
    refine .cons (stronger _ (by simp) _ (by simp) related) (ih fun x isX w isW => ?_)
    exact stronger x (List.mem_cons_of_mem _ isX) w (List.mem_cons_of_mem _ isW)
  | cons_right _ ih =>
    exact .cons_right (ih fun x isX w isW => stronger x isX w (List.mem_cons_of_mem _ isW))

theorem of_forall₂ (related : List.Forall₂ r xs word) : Fits r xs word :=
  List.sublistForall₂_iff.mpr ⟨word, related, List.Sublist.refl word⟩

/-- The first item is found somewhere, and the others behind it. -/
theorem cons_iff :
    Fits r (x :: xs) word ↔
      ∃ front w rest, word = front ++ w :: rest ∧ r x w ∧ Fits r xs rest := by
  constructor
  · intro fits
    induction word with
    | nil => cases fits
    | cons w word ih =>
      rcases fits.cons_cons_cases with ⟨related, rest⟩ | rest
      · exact ⟨[], w, word, rfl, related, rest⟩
      · obtain ⟨front, w', others, rfl, found⟩ := ih rest
        exact ⟨w :: front, w', others, rfl, found⟩
  · rintro ⟨front, w, rest, rfl, related, fits⟩
    exact append_left (.cons related fits) front

/-- The first item may be taken to be found where it is met first. -/
theorem cons_iff_dropWhile {accepts : α → Bool} (same : ∀ w, r x w ↔ accepts w = true) :
    Fits r (x :: xs) word ↔
      ∃ w rest, word.dropWhile (!accepts ·) = w :: rest ∧ Fits r xs rest := by
  induction word with
  | nil =>
    constructor
    · intro fits
      cases fits
    · rintro ⟨w, rest, found, -⟩
      cases found
  | cons w word ih =>
    rw [List.dropWhile_cons]
    cases accepted : accepts w with
    | true =>
      refine ⟨fun fits => ⟨w, word, rfl, fits.of_cons_cons⟩, ?_⟩
      rintro ⟨_, _, found, rest⟩
      obtain ⟨rfl, rfl⟩ := List.cons.inj found
      exact .cons ((same w).mpr accepted) rest
    | false =>
      have unrelated : ¬r x w := by simp [same, accepted]
      exact ⟨fun fits => ih.mp (fits.past unrelated), fun found => .cons_right (ih.mpr found)⟩

end Fits

/-! ### Aligned sequences -/

/-- The second list goes at least as far, and what it has at a place is above what the first has
there. -/
def Aligned (r : α → α → Prop) : List α → List α → Prop
  | [], _ => True
  | _ :: _, [] => False
  | x :: xs, y :: ys => r x y ∧ Aligned r xs ys

theorem Aligned.fits {xs ys : List α} (aligned : Aligned r xs ys) : Fits r xs ys := by
  fun_induction Aligned r xs ys with
  | case1 => exact .nil
  | case2 => exact aligned.elim
  | case3 x xs y ys ih => exact .cons aligned.1 (ih aligned.2)

theorem Aligned.of_fits {xs ys : List α} (fits : Fits r xs ys) (short : ys.length ≤ xs.length) :
    Aligned r xs ys := by
  induction fits with
  | nil => trivial
  | cons related _ ih => exact ⟨related, ih (Nat.le_of_succ_le_succ short)⟩
  | cons_right fits _ =>
    have := Fits.length_le fits
    simp only [List.length_cons] at short
    omega

/-! ### Overlays -/

/-- The items of the two lists are joined as far as both go, and those of the longer one
follow. -/
inductive Overlay (joins : α → α → α → Prop) : List α → List α → List α → Prop
  | left (ys : List α) : Overlay joins [] ys ys
  | right (xs : List α) : Overlay joins xs [] xs
  | cons {x y z : α} {xs ys zs : List α} :
      joins x y z → Overlay joins xs ys zs → Overlay joins (x :: xs) (y :: ys) (z :: zs)

namespace Overlay

variable {joins : α → α → α → Prop} {xs ys zs : List α}

theorem length_le (overlay : Overlay joins xs ys zs) :
    xs.length ≤ zs.length ∧ ys.length ≤ zs.length := by
  induction overlay with
  | left => simp
  | right => simp
  | cons _ _ ih => simpa using ih

theorem symm (commutes : ∀ x y z, joins x y z → joins y x z) (overlay : Overlay joins xs ys zs) :
    Overlay joins ys xs zs := by
  induction overlay with
  | left ys => exact .right ys
  | right xs => exact .left xs
  | cons joined _ ih => exact .cons (commutes _ _ _ joined) ih

theorem fits_left (speaks : ∀ x y z, joins x y z → ∀ w, r z w → r x w ∧ r y w)
    (overlay : Overlay joins xs ys zs) {word : List α} (fits : Fits r zs word) :
    Fits r xs word := by
  induction overlay generalizing word with
  | left => exact .nil
  | right => exact fits
  | cons joined _ ih =>
    exact fits.imp_cons (fun w related => (speaks _ _ _ joined w related).1) fun _ rest => ih rest

end Overlay

/-! ### Words that fit both sequences and not their overlay -/

section

variable [Std.Refl r] [IsTrans α r] {xs ys : List α}

omit [IsTrans α r] in
-- Where a word fits the longer list without its first item and not the list, one fits the list
-- and not the list moved on by one item.
theorem exists_shifted (below : Aligned r ys xs) (above : ¬Aligned r xs ys)
    (short : ∃ word, Fits r xs.tail word ∧ Fits r ys word ∧ ¬Fits r xs word) (y : α) :
    ∃ word, Fits r xs word ∧ Fits r (y :: ys) word ∧ ¬Fits r (y :: xs) word := by
  classical
  cases first : xs.find? fun x => decide (r y x) with
  | none =>
    -- `y` is only satisfied past all of `xs`, so what comes past it is too short
    have unrelated : ∀ x ∈ xs, ¬r y x := by simpa using first
    refine ⟨xs ++ y :: ys, ?_, .append_left (.refl _) xs, fun fits => above ?_⟩
    · simpa using (Fits.append .nil xs : Fits r (xs ++ []) (xs ++ y :: ys))
    · have rest := (fits.past_append unrelated).of_cons_cons
      exact .of_fits rest below.fits.length_le
  | some x =>
    -- the first item that satisfies `y` is used up by `y`
    obtain ⟨related, front, back, rfl, unrelated⟩ := List.find?_eq_some_iff_append.mp first
    have related : r y x := by simpa using related
    have unrelated : ∀ x ∈ front, ¬r y x := by simpa using unrelated
    obtain ⟨word, fitsTail, fitsYs, unfit⟩ := short
    have fitsBack : Fits r back word := by
      rcases front with _ | ⟨_, front⟩
      · exact fitsTail
      · exact Fits.of_append (front ++ [x]) (by simpa using fitsTail)
    refine ⟨front ++ x :: word, .append (.cons (refl_of r x) fitsBack) front,
      .append_left (.cons related fitsYs) front, fun fits => unfit ?_⟩
    exact (fits.past_append unrelated).of_cons_cons

-- Of two aligned lists, a word fits the shorter and the longer without its first item, and not
-- the longer.
theorem exists_short (below : Aligned r ys xs) (above : ¬Aligned r xs ys) :
    ∃ word, Fits r xs.tail word ∧ Fits r ys word ∧ ¬Fits r xs word := by
  induction xs generalizing ys with
  | nil => exact (above trivial).elim
  | cons x xs ih =>
    have tooShort (word : List α) (same : word.length = xs.length) : ¬Fits r (x :: xs) word := by
      intro fits
      have := fits.length_le
      simp only [List.length_cons] at this
      omega
    cases ys with
    | nil => exact ⟨xs, Fits.refl xs, .nil, tooShort xs rfl⟩
    | cons y ys =>
      obtain ⟨related, below⟩ := below
      by_cases related' : r x y
      · have above : ¬Aligned r xs ys := fun aligned => above ⟨related', aligned⟩
        obtain ⟨word, fitsXs, fitsYs, unfit⟩ := exists_shifted below above (ih below above) x
        exact ⟨word, fitsXs, fitsYs.imp_cons (fun w => trans_of r related) fun _ => id, unfit⟩
      · refine ⟨y :: xs, .cons_right (Fits.refl xs), .cons (refl_of r y) below.fits, fun fits => ?_⟩
        exact tooShort xs rfl (fits.past related')

-- Where the second list falls short, `x` may be put in front of a word that is moved on by `y`.
theorem exists_unfit_of_below {joins : α → α → α → Prop}
    (speaks : ∀ x y z, joins x y z → ∀ w, r z w → r x w ∧ r y w) {x y z : α} {zs : List α}
    (joined : joins x y z) (overlay : Overlay joins xs ys zs) (unrelated : ¬r y x)
    (below : Aligned r ys xs) (above : ¬Aligned r xs ys) :
    ∃ word, Fits r (x :: xs) word ∧ Fits r (y :: ys) word ∧ ¬Fits r (z :: zs) word := by
  obtain ⟨word, fitsXs, fitsYs, unfit⟩ := exists_shifted below above (exists_short below above) y
  refine ⟨x :: word, .cons (refl_of r x) fitsXs, .cons_right fitsYs, fun fits => unfit ?_⟩
  have past := fits.past fun related => unrelated (speaks x y z joined x related).2
  exact past.imp_cons (fun w related => (speaks x y z joined w related).2) fun _ rest =>
    overlay.fits_left speaks rest

/-- Where neither of two lists is aligned with the other, a word fits both and not their
overlay. -/
theorem exists_unfit {joins : α → α → α → Prop} (commutes : ∀ x y z, joins x y z → joins y x z)
    (speaks : ∀ x y z, joins x y z → ∀ w, r z w → r x w ∧ r y w) {zs : List α}
    (overlay : Overlay joins xs ys zs) (apart : ¬Aligned r xs ys) (apart' : ¬Aligned r ys xs) :
    ∃ word, Fits r xs word ∧ Fits r ys word ∧ ¬Fits r zs word := by
  induction overlay with
  | left => exact (apart trivial).elim
  | right => exact (apart' trivial).elim
  | @cons x y z xs ys zs joined overlay ih =>
    have above {w : α} (related : r z w) := speaks x y z joined w related
    by_cases aligned : Aligned r xs ys <;> by_cases aligned' : Aligned r ys xs
    · -- only the heads stand against it: with one after the other, the rest is too short
      have unrelated : ¬r x y := fun related => apart ⟨related, aligned⟩
      have unrelated' : ¬r y x := fun related => apart' ⟨related, aligned'⟩
      refine ⟨x :: y :: ys, .cons (refl_of r x) (.cons_right aligned.fits),
        .cons_right (Fits.refl _), fun fits => ?_⟩
      have rest := (fits.past fun related => unrelated' (above related).2).past
        fun related => unrelated (above related).1
      have := rest.length_le
      have := overlay.length_le.2
      simp only [List.length_cons] at *
      omega
    · -- the heads stand against the alignment that the rests have
      have unrelated : ¬r x y := fun related => apart ⟨related, aligned⟩
      obtain ⟨word, fitsYs, fitsXs, unfit⟩ := exists_unfit_of_below speaks
        (commutes x y z joined) (overlay.symm commutes) unrelated aligned aligned'
      exact ⟨word, fitsXs, fitsYs, unfit⟩
    · have unrelated : ¬r y x := fun related => apart' ⟨related, aligned'⟩
      exact exists_unfit_of_below speaks joined overlay unrelated aligned' aligned
    · -- the rests alone decide, so the heads only have to be got past
      obtain ⟨word, fitsXs, fitsYs, unfit⟩ := ih aligned aligned'
      by_cases related : r x y
      · exact ⟨y :: word, .cons related fitsXs, .cons (refl_of r y) fitsYs,
          fun fits => unfit fits.of_cons_cons⟩
      by_cases related' : r y x
      · exact ⟨x :: word, .cons (refl_of r x) fitsXs, .cons related' fitsYs,
          fun fits => unfit fits.of_cons_cons⟩
      · refine ⟨x :: y :: word, .cons (refl_of r x) (.cons_right fitsXs),
          .cons_right (.cons (refl_of r y) fitsYs), fun fits => unfit ?_⟩
        have past := fits.past fun above' => related' (above above').2
        exact past.of_cons_cons

end

end Selectors
