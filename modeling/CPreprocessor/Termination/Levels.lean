/-
# Counting by levels

Some loops replace one thing by many smaller ones. What goes down is then no
single number: things are counted on each of finitely many levels, a step may
add any number of them on lower levels, but only if it takes one away on a
higher level and adds none above it. This order has no infinite descent.
-/

namespace CPreprocessor

/-- How many things there are on each level, up to a highest one. -/
structure Levels where
  height : Nat
  count : Nat → Nat

namespace Levels

/-- Fewer things at some level and not more on the levels above it. -/
def Fewer (height : Nat) (a b : Nat → Nat) : Prop :=
  ∃ k, k ≤ height ∧ a k < b k ∧ ∀ r, k < r → r ≤ height → a r ≤ b r

/-- Lower, or as high with fewer things. -/
def Below (a b : Levels) : Prop :=
  a.height < b.height ∨ (a.height = b.height ∧ Fewer b.height a.count b.count)

/-- Not more things on any level of as many levels, or fewer levels. -/
def AtMost (a b : Levels) : Prop :=
  a.height < b.height ∨ (a.height = b.height ∧ ∀ r, a.count r ≤ b.count r)

theorem fewer_wf (height : Nat) : WellFounded (Fewer height) := by
  induction height with
  | zero =>
    refine Subrelation.wf (r := InvImage (· < ·) fun count : Nat → Nat => count 0) ?_
      (InvImage.wf _ Nat.lt_wfRel.wf)
    rintro a b ⟨k, small, less, _⟩
    obtain rfl := Nat.le_zero.mp small
    exact less
  | succ height ih =>
    let pair (count : Nat → Nat) : Nat × (Nat → Nat) := (count (height + 1), count)
    refine Subrelation.wf (r := InvImage (Prod.Lex (· < ·) (Fewer height)) pair) ?_
      (InvImage.wf _ ⟨fun (a, b) => Prod.lexAccessible (Nat.lt_wfRel.wf.apply a) ih.apply b⟩)
    rintro a b ⟨k, small, less, above⟩
    by_cases top : k = height + 1
    · subst top
      exact Prod.Lex.left _ _ less
    · have atTop := above (height + 1) (by omega) (Nat.le_refl _)
      rcases Nat.lt_or_eq_of_le atTop with lower | same
      · exact Prod.Lex.left _ _ lower
      · have rest : Fewer height a b :=
          ⟨k, by omega, less, fun r low high => above r low (by omega)⟩
        show Prod.Lex _ _ (a (height + 1), a) (b (height + 1), b)
        rw [same]
        exact Prod.Lex.right _ rest

theorem below_wf : WellFounded Below := by
  suffices reach : ∀ height count, Acc Below ⟨height, count⟩ from ⟨fun a => reach a.height a.count⟩
  intro height
  induction height using Nat.strongRecOn with
  | ind height lower =>
    intro count
    induction (fewer_wf height).apply count with
    | intro count _ fewer =>
      refine ⟨_, ?_⟩
      rintro ⟨h, c⟩ (less | ⟨same, smaller⟩)
      · exact lower h less c
      · cases same
        exact fewer c smaller

instance : WellFoundedRelation Levels := ⟨Below, below_wf⟩

theorem AtMost.refl (a : Levels) : AtMost a a :=
  .inr ⟨rfl, fun _ => Nat.le_refl _⟩

theorem AtMost.trans {a b c : Levels} (ab : AtMost a b) (bc : AtMost b c) : AtMost a c := by
  rcases ab with less | ⟨same, few⟩
  · rcases bc with less' | ⟨same', _⟩
    · exact .inl (Nat.lt_trans less less')
    · exact .inl (same' ▸ less)
  · rcases bc with less' | ⟨same', few'⟩
    · exact .inl (same ▸ less')
    · exact .inr ⟨same.trans same', fun r => Nat.le_trans (few r) (few' r)⟩

theorem Below.trans_atMost {a b c : Levels} (ab : Below a b) (bc : AtMost b c) : Below a c := by
  rcases ab with less | ⟨same, k, small, fewer, above⟩
  · rcases bc with less' | ⟨same', _⟩
    · exact .inl (Nat.lt_trans less less')
    · exact .inl (same' ▸ less)
  · rcases bc with less' | ⟨same', few'⟩
    · exact .inl (same ▸ less')
    · refine .inr ⟨same.trans same', k, same' ▸ small, Nat.lt_of_lt_of_le fewer (few' k), ?_⟩
      exact fun r low high => Nat.le_trans (above r low (same' ▸ high)) (few' r)

theorem AtMost.trans_below {a b c : Levels} (ab : AtMost a b) (bc : Below b c) : Below a c := by
  rcases ab with less | ⟨same, few⟩
  · rcases bc with less' | ⟨same', _⟩
    · exact .inl (Nat.lt_trans less less')
    · exact .inl (same' ▸ less)
  · rcases bc with less' | ⟨same', k, small, fewer, above⟩
    · exact .inl (same ▸ less')
    · exact .inr ⟨same.trans same', k, small, Nat.lt_of_le_of_lt (few k) fewer,
        fun r low high => Nat.le_trans (few r) (above r low high)⟩

theorem Below.trans {a b c : Levels} (ab : Below a b) (bc : Below b c) : Below a c := by
  rcases ab with less | ⟨same, k, small, less, above⟩
  · rcases bc with less' | ⟨same', _⟩
    · exact .inl (Nat.lt_trans less less')
    · exact .inl (same' ▸ less)
  · rcases bc with less' | ⟨same', k', small', less', above'⟩
    · exact .inl (same ▸ less')
    · refine .inr ⟨same.trans same', ?_⟩
      rcases Nat.lt_trichotomy k k' with lt | eq | gt
      · exact ⟨k', small', Nat.lt_of_le_of_lt (above k' lt (same' ▸ small')) less',
          fun r low high => Nat.le_trans (above r (by omega) (same' ▸ high)) (above' r low high)⟩
      · subst eq
        exact ⟨k, small', Nat.lt_trans less less',
          fun r low high => Nat.le_trans (above r low (same' ▸ high)) (above' r low high)⟩
      · exact ⟨k, same' ▸ small, Nat.lt_of_lt_of_le less (above' k gt (same' ▸ small)),
          fun r low high => Nat.le_trans (above r low (same' ▸ high)) (above' r (by omega) high)⟩

end Levels

end CPreprocessor
