/-
# The nucleus of a distribution

A list of weighted items in descending order has a nucleus for every threshold below its
mass: the shortest prefix whose mass exceeds the threshold (`IsNucleus`).  Only the weights
decide how long it is, so all descending orders of the same items have nuclei of the same
weights (`IsNucleus.weights_eq`).

Items of a small weight may be left out beforehand.  With a bound of what the threshold
leaves, shared by all items but one, the items that are kept weigh more than the threshold
as soon as there is one (`lt_mass_filter`), and then they have the same nucleus
(`IsNucleus.append`).
-/
import Mathlib.Algebra.Order.BigOperators.Group.List
import Mathlib.Algebra.Order.Field.Basic
import Mathlib.Data.List.Sort
import Mathlib.Tactic.Linarith

namespace Nucleus

variable {ι K : Type} {l l' nuc nuc' : List (ι × K)}

def Descending [LinearOrder K] (l : List (ι × K)) : Prop := l.Pairwise fun a b => b.2 ≤ a.2

/-- Descending orders of the same items have the same weights. -/
theorem Descending.weights_eq [LinearOrder K] (h : Descending l) (h' : Descending l')
    (hperm : l.Perm l') : l.map Prod.snd = l'.map Prod.snd := by
  have hweights : (l.map Prod.snd).Pairwise fun a b => b ≤ a := List.pairwise_map.mpr h
  have hweights' : (l'.map Prod.snd).Pairwise fun a b => b ≤ a := List.pairwise_map.mpr h'
  exact List.Perm.eq_of_pairwise (fun a b _ _ hba hab => le_antisymm hab hba) hweights hweights'
    (hperm.map Prod.snd)

section Prefixes

variable [AddCommMonoid K]

/-- The weight of all items. -/
def mass (l : List (ι × K)) : K := (l.map Prod.snd).sum

@[simp] theorem mass_nil : mass ([] : List (ι × K)) = 0 := rfl

@[simp] theorem mass_cons (a : ι × K) (l : List (ι × K)) : mass (a :: l) = a.2 + mass l := by
  rw [mass, List.map_cons, List.sum_cons]
  rfl

theorem mass_append (l l' : List (ι × K)) : mass (l ++ l') = mass l + mass l' := by
  rw [mass, List.map_append, List.sum_append]
  rfl

theorem mass_perm (h : l.Perm l') : mass l = mass l' := (h.map Prod.snd).sum_eq

variable [LinearOrder K] {t : K}

/-- **The nucleus**: the shortest prefix that weighs more than the threshold. -/
structure IsNucleus (t : K) (l nuc : List (ι × K)) : Prop where
  initial : nuc <+: l
  exceeds : t < mass nuc
  least : ∀ pre, pre <+: l → t < mass pre → nuc.length ≤ pre.length

/-- The first prefix that weighs more. -/
theorem isNucleus_take {k : ℕ} (hk : k < l.length) (hle : ∀ j ≤ k, mass (l.take j) ≤ t)
    (hlt : t < mass (l.take (k + 1))) : IsNucleus t l (l.take (k + 1)) where
  initial := List.take_prefix _ _
  exceeds := hlt
  least pre hpre hmass := by
    rw [List.length_take]
    by_contra hshort
    rw [List.prefix_iff_eq_take.mp hpre] at hmass
    exact absurd (hle pre.length (by omega)) (not_le.mpr hmass)

/-- What comes behind a list does not matter to its nucleus. -/
theorem IsNucleus.append (h : IsNucleus t l nuc) (m : List (ι × K)) :
    IsNucleus t (l ++ m) nuc where
  initial := h.initial.trans (List.prefix_append l m)
  exceeds := h.exceeds
  least pre hpre hmass := by
    rcases List.prefix_or_prefix_of_prefix hpre (List.prefix_append l m) with hpre | hpre
    · exact h.least pre hpre hmass
    · exact h.initial.length_le.trans hpre.length_le

/-- The weights decide how long a nucleus is. -/
theorem IsNucleus.length_le (h : IsNucleus t l nuc) (h' : IsNucleus t l' nuc')
    (hweights : l.map Prod.snd = l'.map Prod.snd) : nuc.length ≤ nuc'.length := by
  have hlen : l.length = l'.length := by
    have := congrArg List.length hweights
    rwa [List.length_map, List.length_map] at this
  have hle : nuc'.length ≤ l.length := hlen ▸ h'.initial.length_le
  have hmass : t < mass (l.take nuc'.length) := by
    rw [mass, List.map_take, hweights, ← List.map_take, ← List.prefix_iff_eq_take.mp h'.initial]
    exact h'.exceeds
  have hleast := h.least _ (List.take_prefix _ _) hmass
  rwa [List.length_take, min_eq_left hle] at hleast

/-- **A nucleus up to ties**: lists with the same weights have nuclei with the same
weights. -/
theorem IsNucleus.weights_eq (h : IsNucleus t l nuc) (h' : IsNucleus t l' nuc')
    (hweights : l.map Prod.snd = l'.map Prod.snd) : nuc.map Prod.snd = nuc'.map Prod.snd := by
  have hlen : nuc.length = nuc'.length :=
    le_antisymm (h.length_le h' hweights) (h'.length_le h hweights.symm)
  rw [List.prefix_iff_eq_take.mp h.initial, List.prefix_iff_eq_take.mp h'.initial, List.map_take,
    List.map_take, hweights, hlen]

end Prefixes

/-! ## Leaving out small weights -/

section Filter

variable [Field K] [LinearOrder K] [IsStrictOrderedRing K] {t : K}

/-- Items below a bound weigh less together than so many times the bound. -/
theorem mass_lt_of_forall_lt {c : K} (hne : l ≠ []) (h : ∀ a ∈ l, a.2 < c) :
    mass l < l.length * c := by
  have hlt := List.sum_lt_sum_of_ne_nil hne Prod.snd (fun _ => c) h
  rwa [List.map_const', List.sum_replicate, nsmul_eq_mul] at hlt

/-- **The items that are kept weigh more than the threshold**, if there is one. -/
theorem lt_mass_filter {c : K} (ht : t < mass l) (hc : (l.length - 1) * c = mass l - t)
    {a : ι × K} (ha : a ∈ l) (hac : c ≤ a.2) :
    t < mass (l.filter fun a => decide (c ≤ a.2)) := by
  have hperm := List.filter_append_perm (fun a : ι × K => decide (c ≤ a.2)) l
  have hmass := mass_perm hperm
  have hlen := hperm.length_eq
  rw [mass_append] at hmass
  rw [List.length_append] at hlen
  have hkept : 1 ≤ (l.filter fun a => decide (c ≤ a.2)).length :=
    List.length_pos_of_mem (List.mem_filter.mpr ⟨ha, decide_eq_true hac⟩)
  rcases hdropped : l.filter (fun a => !decide (c ≤ a.2)) with _ | ⟨b, dropped⟩
  · rw [hdropped, mass_nil, add_zero] at hmass
    rw [hmass]
    exact ht
  · rw [hdropped] at hmass hlen
    have hsmall : mass (b :: dropped) < (b :: dropped).length * c := by
      refine mass_lt_of_forall_lt (List.cons_ne_nil _ _) fun x hx => ?_
      rw [← hdropped, List.mem_filter, Bool.not_eq_true', decide_eq_false_iff_not] at hx
      exact not_le.mp hx.2
    -- the bound is positive, and no more than all items but one were left out
    have hcount : ((b :: dropped).length : K) ≤ l.length - 1 := by
      rw [le_sub_iff_add_le]
      exact_mod_cast (by omega : (b :: dropped).length + 1 ≤ l.length)
    have hpos : 0 < c := by
      have hone : (0 : K) < l.length - 1 :=
        (Nat.cast_pos.mpr (Nat.succ_pos _)).trans_le hcount
      by_contra hneg
      have := mul_nonpos_of_nonneg_of_nonpos hone.le (not_lt.mp hneg)
      linarith
    have := mul_le_mul_of_nonneg_right hcount hpos.le
    linarith

end Filter

end Nucleus
