/-
# Tables

What a program does with a hash map: one value for each key, insertion that replaces,
removal, and a pass over all entries that changes values or drops them (`filterMap`).
Tables are Mathlib's association lists with distinct keys; the order of their entries is
the order in which a pass comes to them.
-/
import Mathlib.Data.List.AList

universe u v w

/-- A table with keys in `K` and values in `V`. -/
abbrev Table (K : Type u) (V : Type v) := AList fun _ : K => V

namespace Table

section Ops

variable {K : Type u} {V : Type v} {W : Type w}

def size (t : Table K V) : ℕ := t.entries.length

/-- Some value satisfies `p`. -/
def any (p : V → Bool) (t : Table K V) : Bool := t.entries.any fun e => p e.2

/-- One entry in a pass over the table. -/
def filterEntry (f : K → V → Option W) (e : Σ _ : K, V) : Option (Σ _ : K, W) :=
  (f e.1 e.2).map fun w => ⟨e.1, w⟩

theorem keys_filterMap_sublist (f : K → V → Option W) (l : List (Σ _ : K, V)) :
    ((l.filterMap (filterEntry f)).map Sigma.fst).Sublist (l.map Sigma.fst) := by
  induction l with
  | nil => exact .slnil
  | cons e l ih =>
    rw [List.filterMap_cons, List.map_cons, filterEntry]
    cases f e.1 e.2 with
    | none => exact ih.cons _
    | some w => exact ih.cons_cons _

/-- A pass over the table: a value is changed, or its entry is dropped. -/
def filterMap (f : K → V → Option W) (t : Table K V) : Table K W :=
  ⟨t.entries.filterMap (filterEntry f),
    List.Nodup.sublist (keys_filterMap_sublist f t.entries) t.nodupKeys⟩

/-- `retain`. -/
def retain (p : V → Bool) (t : Table K V) : Table K V :=
  t.filterMap fun _ v => if p v then some v else none

/-- A pass that changes the values. -/
def mapVals (f : V → W) (t : Table K V) : Table K W := t.filterMap fun _ v => some (f v)

/-- The value of one key is changed. -/
def modify [DecidableEq K] (k : K) (f : V → V) (t : Table K V) : Table K V :=
  t.filterMap fun k' v => some (if k' = k then f v else v)

theorem size_filterMap_le (f : K → V → Option W) (t : Table K V) :
    (t.filterMap f).size ≤ t.size :=
  List.length_filterMap_le _ _

end Ops

section Lookup

variable {K : Type u} {V : Type v} {W : Type w} [DecidableEq K]

theorem mem_entries {t : Table K V} {k : K} {v : V} : ⟨k, v⟩ ∈ t.entries ↔ t.lookup k = some v :=
  AList.mem_lookup_iff.symm

theorem any_eq_true {p : V → Bool} {t : Table K V} :
    t.any p = true ↔ ∃ k v, t.lookup k = some v ∧ p v = true := by
  rw [any, List.any_eq_true]
  constructor
  · rintro ⟨⟨k, v⟩, hmem, hp⟩
    exact ⟨k, v, mem_entries.mp hmem, hp⟩
  · rintro ⟨k, v, hv, hp⟩
    exact ⟨⟨k, v⟩, mem_entries.mpr hv, hp⟩

/-- **A pass, entry by entry.** -/
theorem lookup_filterMap (f : K → V → Option W) (t : Table K V) (k : K) :
    (t.filterMap f).lookup k = (t.lookup k).bind (f k) := by
  ext w
  rw [← mem_entries, Option.bind_eq_some_iff]
  show ⟨k, w⟩ ∈ t.entries.filterMap (filterEntry f) ↔ _
  rw [List.mem_filterMap]
  constructor
  · rintro ⟨⟨k', v⟩, hmem, hentry⟩
    obtain ⟨w', hw, heq⟩ := Option.map_eq_some_iff.mp hentry
    cases heq
    exact ⟨v, mem_entries.mp hmem, hw⟩
  · rintro ⟨v, hv, hw⟩
    exact ⟨⟨k, v⟩, mem_entries.mpr hv, Option.map_eq_some_iff.mpr ⟨w, hw, rfl⟩⟩

@[simp] theorem lookup_mapVals (f : V → W) (t : Table K V) (k : K) :
    (t.mapVals f).lookup k = (t.lookup k).map f := by
  rw [mapVals, lookup_filterMap, Option.map_eq_bind]
  rfl

theorem lookup_retain {p : V → Bool} {t : Table K V} {k : K} {v : V} :
    (t.retain p).lookup k = some v ↔ t.lookup k = some v ∧ p v = true := by
  rw [retain, lookup_filterMap, Option.bind_eq_some_iff]
  constructor
  · rintro ⟨v', hv', h⟩
    split_ifs at h with hp
    obtain rfl := Option.some_inj.mp h
    exact ⟨hv', hp⟩
  · rintro ⟨hv, hp⟩
    exact ⟨v, hv, if_pos hp⟩

@[simp] theorem lookup_modify_self (k : K) (f : V → V) (t : Table K V) :
    (t.modify k f).lookup k = (t.lookup k).map f := by
  rw [modify, lookup_filterMap, Option.map_eq_bind]
  simp only [if_true]
  rfl

theorem lookup_modify_ne {k k' : K} (h : k' ≠ k) (f : V → V) (t : Table K V) :
    (t.modify k f).lookup k' = t.lookup k' := by
  rw [modify, lookup_filterMap]
  cases t.lookup k' with
  | none => rfl
  | some v => exact congrArg some (if_neg h)

/-- A change depends on what it makes of the value that is there. -/
theorem modify_congr {k : K} {f g : V → V} {t : Table K V}
    (h : ∀ v, t.lookup k = some v → f v = g v) : t.modify k f = t.modify k g := by
  apply AList.ext
  refine List.filterMap_congr ?_
  rintro ⟨k', v⟩ hmem
  rw [filterEntry, filterEntry, Option.map_some, Option.map_some]
  by_cases hk : k' = k
  · subst hk
    rw [if_pos rfl, if_pos rfl, h v (mem_entries.mp hmem)]
  · rw [if_neg hk, if_neg hk]

theorem modify_id (k : K) (t : Table K V) : t.modify k (fun v => v) = t := by
  apply AList.ext
  have hentry : filterEntry (fun k' v => some (if k' = k then v else v)) =
      (some : (Σ _ : K, V) → Option (Σ _ : K, V)) := by
    funext e
    rw [filterEntry, Option.map_some, ite_self]
  show t.entries.filterMap _ = t.entries
  rw [hentry, List.filterMap_some]

/-- A change that changes nothing. -/
theorem modify_eq_self {k : K} {f : V → V} {t : Table K V}
    (h : ∀ v, t.lookup k = some v → f v = v) : t.modify k f = t :=
  (modify_congr h).trans (modify_id k t)

theorem lookup_insert_eq_some {t : Table K V} {k k' : K} {v v' : V} :
    AList.lookup k' (t.insert k v) = some v' ↔
      k' = k ∧ v' = v ∨ k' ≠ k ∧ t.lookup k' = some v' := by
  by_cases h : k' = k
  · subst h
    rw [AList.lookup_insert, Option.some_inj]
    constructor
    · rintro rfl
      exact .inl ⟨rfl, rfl⟩
    · rintro (⟨-, rfl⟩ | ⟨hne, -⟩)
      · rfl
      · exact absurd rfl hne
  · rw [AList.lookup_insert_ne h]
    constructor
    · exact fun hv => .inr ⟨h, hv⟩
    · rintro (⟨heq, -⟩ | ⟨-, hv⟩)
      · exact absurd heq h
      · exact hv

/-! ## Sizes -/

/-- A pass makes the table smaller exactly if it drops an entry. -/
theorem size_filterMap_lt_iff {f : K → V → Option W} {t : Table K V} :
    (t.filterMap f).size < t.size ↔ ∃ k v, t.lookup k = some v ∧ f k v = none := by
  refine List.length_filterMap_lt_length_iff_exists.trans ?_
  constructor
  · rintro ⟨⟨k, v⟩, hmem, hnone⟩
    exact ⟨k, v, mem_entries.mp hmem, Option.map_eq_none_iff.mp hnone⟩
  · rintro ⟨k, v, hv, hnone⟩
    exact ⟨⟨k, v⟩, mem_entries.mpr hv, Option.map_eq_none_iff.mpr hnone⟩

theorem size_filterMap_eq {f : K → V → Option W} {t : Table K V}
    (h : ∀ k v, t.lookup k = some v → f k v ≠ none) : (t.filterMap f).size = t.size := by
  refine Nat.le_antisymm (size_filterMap_le f t) (Nat.le_of_not_lt fun hlt => ?_)
  obtain ⟨k, v, hv, hnone⟩ := size_filterMap_lt_iff.mp hlt
  exact h k v hv hnone

theorem size_modify (k : K) (f : V → V) (t : Table K V) : (t.modify k f).size = t.size :=
  size_filterMap_eq fun _ _ _ h => by cases h

theorem size_retain_lt_iff {p : V → Bool} {t : Table K V} :
    (t.retain p).size < t.size ↔ ∃ k v, t.lookup k = some v ∧ p v = false := by
  simp only [retain, size_filterMap_lt_iff, ite_eq_right_iff, reduceCtorEq, imp_false,
    Bool.not_eq_true]

omit [DecidableEq K] in
/-- Tables with the same keys have the same size. -/
theorem size_eq_of_mem_iff {t : Table K V} {t' : Table K W} (h : ∀ k, k ∈ t ↔ k ∈ t') :
    t.size = t'.size := by
  have hperm : t.keys.Perm t'.keys :=
    (List.perm_ext_iff_of_nodup t.keys_nodup t'.keys_nodup).mpr h
  have hlen := hperm.length_eq
  rwa [AList.keys, AList.keys, List.keys, List.keys, List.length_map, List.length_map] at hlen

theorem size_insert_of_notMem {t : Table K V} {k : K} (v : V) (h : k ∉ t) :
    size (t.insert k v) = t.size + 1 := by
  rw [size, AList.entries_insert_of_notMem h]
  rfl

theorem size_erase_of_mem {t : Table K V} {k : K} (h : k ∈ t) :
    size (t.erase k) + 1 = t.size := by
  have hlen (t : Table K V) : t.size = t.keys.length := (List.length_map _).symm
  have hpos : 0 < t.keys.length := List.length_pos_of_mem (AList.mem_keys.mp h)
  rw [hlen, hlen, AList.keys_erase, List.length_erase_of_mem (AList.mem_keys.mp h)]
  omega

theorem size_insert_of_mem {t : Table K V} {k : K} (v : V) (h : k ∈ t) :
    size (t.insert k v) = t.size := by
  rw [← size_erase_of_mem h, size, AList.entries_insert]
  rfl

/-! ## The least entry -/

/-- **A table that is not empty has a least entry**, in the order of `f`. -/
theorem exists_minOn (f : V → ℕ) {t : Table K V} (h : 0 < t.size) :
    ∃ k v, t.entries.minOn? (fun e => f e.2) = some ⟨k, v⟩ ∧ t.lookup k = some v ∧
      ∀ k' v', t.lookup k' = some v' → f v ≤ f v' := by
  obtain ⟨⟨k, v⟩, hmin⟩ : ∃ e, t.entries.minOn? (fun e => f e.2) = some e :=
    Option.isSome_iff_exists.mp (List.isSome_minOn?_iff.mpr (List.length_pos_iff.mp h))
  refine ⟨k, v, hmin, mem_entries.mp (List.minOn?_mem hmin), fun k' v' hv' => ?_⟩
  have hle := List.apply_get_minOn?_le_of_mem (f := fun e : Σ _ : K, V => f e.2)
    (mem_entries.mpr hv')
  simpa only [hmin, Option.get_some] using hle

end Lookup

end Table
