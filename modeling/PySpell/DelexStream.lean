/-
# Putting literals back piece by piece

The web page of the device shows an answer while it is generated: it calls `relex` on every
piece that the tokenizer gives and appends what comes out.  `relex` of the whole text is
something else where a marker is cut in two, or where what has no slot stands in one piece and
the comma that should go with it in another (`streamed_cuts`).

If no pattern of `relex` sees a cut, both are the same (`streamed_eq`).  A cut marker always
shows, if no slot holds a `#` or an `&`: it keeps the character that the whole text loses
(`noSeams_of_streamed`).  A cut that only the clean-up sees may not show, since a comma that is
not dropped in one place may be dropped in another.
-/
import PySpell.DelexRoundTrip

open Substitute

namespace Delex

variable {F : Flavor} {nums strs : List (List Char)}

/-- What the page shows in the end. -/
def streamed (F : Flavor) (pieces nums strs : List (List Char)) : List Char :=
  pieces.foldl (fun content p => content ++ relex F p nums strs) []

/-- The two characters are a marker. -/
def isMarker (h d : Char) : Bool := (h == '#' && isNumSlot d) || (h == '&' && isStrSlot d)

/-- The pieces, with their markers filled in, and then without what has no slot and a comma
before it. -/
def filled (nums strs pieces : List (List Char)) : List (List Char) :=
  pieces.map (fillAll nums strs)

def dropped (F : Flavor) (nums strs pieces : List (List Char)) : List (List Char) :=
  (filled nums strs pieces).map ((commaNul F).replace fun _ => [])

/-- No pattern of `relex` sees a cut. -/
structure Seamless (F : Flavor) (pieces nums strs : List (List Char)) : Prop where
  markers : marker.NoSeams pieces
  before : (commaNul F).NoSeams (filled nums strs pieces)
  behind : (nulComma F).NoSeams (dropped F nums strs pieces)

theorem streamed_eq_flatten (pieces : List (List Char)) :
    streamed F pieces nums strs = (pieces.map fun p => relex F p nums strs).flatten := by
  have hfold : ∀ (pieces : List (List Char)) (content : List Char),
      pieces.foldl (fun content p => content ++ relex F p nums strs) content =
        content ++ (pieces.map fun p => relex F p nums strs).flatten := by
    intro pieces
    induction pieces with
    | nil =>
      intro content
      exact (List.append_nil content).symm
    | cons p pieces ih =>
      intro content
      rw [List.foldl_cons, ih, List.map_cons, List.flatten_cons, List.append_assoc]
  exact hfold pieces []

/-- **Without a cut that shows, the page shows `relex` of the whole text.** -/
theorem streamed_eq {pieces : List (List Char)} (h : Seamless F pieces nums strs) :
    streamed F pieces nums strs = relex F pieces.flatten nums strs := by
  have hfill : fillAll nums strs pieces.flatten = (filled nums strs pieces).flatten :=
    Lead.replace_flatten h.markers
  rw [streamed_eq_flatten, relex, dropUnfilled, hfill, Lead.replace_flatten h.before]
  change _ = List.filter _ ((nulComma F).replace _ (dropped F nums strs pieces).flatten)
  rw [Lead.replace_flatten h.behind, List.filter_flatten, dropped, filled, List.map_map,
    List.map_map, List.map_map]
  rfl

/-! ## A cut marker -/

/-- The pattern of the markers sees a cut between the two characters of one. -/
theorem marker_noSeam_iff (x y : List Char) :
    marker.NoSeam x y ↔
      ∀ h d, x.getLast? = some h → y.head? = some d → isMarker h d = false := by
  constructor
  · intro hseam h d hlast hhead
    obtain ⟨u, rfl⟩ := List.getLast?_eq_some_iff.mp hlast
    obtain ⟨t, rfl⟩ := List.head?_eq_some_iff.mp hhead
    have hcut : (if isMarker h d then some 2 else none) = none :=
      hseam u [h] rfl (List.cons_ne_nil h [])
    cases hmarker : isMarker h d with
    | false => rfl
    | true =>
      rw [hmarker] at hcut
      cases hcut
  · intro hcut u v huv hv
    cases v with
    | nil => exact absurd rfl hv
    | cons h v =>
      cases v with
      | cons d v => rfl
      | nil =>
        cases y with
        | nil => rfl
        | cons d t =>
          have hlast : x.getLast? = some h := by rw [← huv, List.getLast?_concat]
          change (if isMarker h d then some 2 else none) = none
          rw [hcut h d hlast rfl]
          rfl

/-- Whether two characters are a marker does not show in the second one. -/
theorem ne_of_isMarker {h d : Char} (hmarker : isMarker h d = true) :
    (h = '#' ∧ isNumSlot d = true ∨ h = '&' ∧ isStrSlot d = true) ∧ d ≠ '#' ∧ d ≠ '&' := by
  rw [isMarker, Bool.or_eq_true, Bool.and_eq_true, Bool.and_eq_true, beq_iff_eq, beq_iff_eq] at hmarker
  refine ⟨hmarker, ?_, ?_⟩ <;>
    · rintro rfl
      rcases hmarker with ⟨-, hslot⟩ | ⟨-, hslot⟩ <;> cases hslot

/-! ### Placeholders across a cut -/

/-- How often the two characters occur. -/
def signs (s : List Char) : ℕ := s.count '#' + s.count '&'

theorem signs_append (s t : List Char) : signs (s ++ t) = signs s + signs t := by
  rw [signs, signs, signs, List.count_append, List.count_append]
  omega

/-- **A marker that is cut keeps its first character.** -/
theorem signs_fillAll_append (hnums : Free '#' nums ∧ Free '&' nums)
    (hstrs : Free '#' strs ∧ Free '&' strs) (x y : List Char) :
    signs (fillAll nums strs (x ++ y)) ≤
        signs (fillAll nums strs x) + signs (fillAll nums strs y) ∧
      (signs (fillAll nums strs (x ++ y)) =
        signs (fillAll nums strs x) + signs (fillAll nums strs y) → marker.NoSeam x y) := by
  by_cases hseam : marker.NoSeam x y
  · rw [show fillAll nums strs (x ++ y) = fillAll nums strs x ++ fillAll nums strs y from
      Lead.replace_append hseam, signs_append]
    exact ⟨le_rfl, fun _ => hseam⟩
  · rw [marker_noSeam_iff] at hseam
    push Not at hseam
    obtain ⟨h, d, hlast, hhead, hmarker⟩ := hseam
    rw [ne_eq, Bool.not_eq_false] at hmarker
    obtain ⟨hsign, hd⟩ := ne_of_isMarker hmarker
    obtain ⟨u, rfl⟩ := List.getLast?_eq_some_iff.mp hlast
    obtain ⟨t, rfl⟩ := List.head?_eq_some_iff.mp hhead
    -- nothing before the cut marker sees it
    have hbefore : ∀ z, marker.NoSeam u (h :: z) := by
      intro z
      rw [marker_noSeam_iff]
      rintro g e - ⟨⟩
      cases hge : isMarker g h with
      | false => rfl
      | true =>
        obtain ⟨-, hne, hne'⟩ := ne_of_isMarker hge
        rcases hsign with ⟨heq, -⟩ | ⟨heq, -⟩
        · exact absurd heq hne
        · exact absurd heq hne'
    have hcut : ∀ z, fillAll nums strs (u ++ h :: z) =
        fillAll nums strs u ++ fillAll nums strs (h :: z) := fun z =>
      Lead.replace_append (hbefore z)
    have hfront : fillAll nums strs (d :: t) = d :: fillAll nums strs t :=
      fillAll_cons ⟨fun hd' => absurd hd' hd.1, fun hd' => absurd hd' hd.2⟩
    have hlone : fillAll nums strs [h] = [h] := by
      rw [fillAll_cons ⟨fun _ => rfl, fun _ => rfl⟩, fillAll_nil]
    have hslot : ∃ slots i, Free '#' slots ∧ Free '&' slots ∧
        fillAll nums strs (h :: d :: t) = slotText slots i ++ fillAll nums strs t := by
      rcases hsign with ⟨rfl, hslot⟩ | ⟨rfl, hslot⟩
      · exact ⟨nums, _, hnums.1, hnums.2, fillAll_num hslot t⟩
      · exact ⟨strs, _, hstrs.1, hstrs.2, fillAll_str hslot t⟩
    obtain ⟨slots, i, hhash, hamp, hfill⟩ := hslot
    have hone : signs [h] = 1 := by
      rcases hsign with ⟨rfl, -⟩ | ⟨rfl, -⟩ <;> decide
    have hzero : signs (slotText slots i) = 0 := by
      rw [signs, count_slotText (by decide) hhash, count_slotText (by decide) hamp]
    have htail : signs (d :: fillAll nums strs t) = signs (fillAll nums strs t) := by
      rw [signs, List.count_cons_of_ne hd.1, List.count_cons_of_ne hd.2, signs]
    rw [List.append_assoc, List.singleton_append, hcut, hcut, hfill, hfront, hlone, signs_append,
      signs_append, signs_append, hone, hzero, htail]
    exact ⟨by omega, fun h => by omega⟩

/-! ### Gaps across a cut -/

/-- What the clean-up takes out: spaces, commas and NULs. -/
def isGap (F : Flavor) (c : Char) : Bool := F.space c || c = ',' || c = '\x00'

theorem all_take_spaces (s : List Char) : (s.take (spaces F s)).all (isGap F) = true := by
  rw [spaces, ← List.prefix_iff_eq_take.mp (List.takeWhile_prefix F.space), List.all_eq_true]
  intro c hc
  rw [isGap, List.all_eq_true.mp List.all_takeWhile c hc]
  rfl

theorem all_take_comma {s : List Char} {n : ℕ} (h : comma? F s = some n) :
    (s.take n).all (isGap F) = true := by
  rw [comma?] at h
  split_ifs at h with hcomma
  obtain ⟨t, ht⟩ := List.head?_eq_some_iff.mp hcomma
  rw [← Option.some_inj.mp h, List.take_add, List.all_append, all_take_spaces, ht]
  simp [isGap]

theorem all_take_commaNul {s : List Char} {n : ℕ} (h : (commaNul F).length? s = some n) :
    (s.take n).all (isGap F) = true := by
  obtain ⟨k, hcomma, h⟩ := Option.bind_eq_some_iff.mp h
  split_ifs at h with hnul
  obtain ⟨t, ht⟩ := List.head?_eq_some_iff.mp hnul
  rw [← Option.some_inj.mp h, List.take_add, List.all_append, List.take_add, List.all_append,
    all_take_comma hcomma, all_take_spaces, ht]
  simp [isGap]

theorem all_take_nulComma {s : List Char} {n : ℕ} (h : (nulComma F).length? s = some n) :
    (s.take n).all (isGap F) = true := by
  change (if s.head? = some '\x00' then _ else none) = some n at h
  split_ifs at h with hnul
  obtain ⟨k, hcomma, h⟩ := Option.bind_eq_some_iff.mp h
  obtain ⟨t, rfl⟩ := List.head?_eq_some_iff.mp hnul
  rw [← Option.some_inj.mp h, List.take_add, List.all_append, List.take_add, List.all_append,
    all_take_spaces, all_take_comma hcomma]
  simp [isGap]

/-- The clean-up keeps both characters. -/
theorem signs_dropUnfilled (s : List Char) : signs (dropUnfilled F s) = signs s := by
  have hcount : ∀ c, isGap F c = false → (dropUnfilled F s).count c = s.count c := by
    intro c hc
    have hnot : ∀ {u : List Char}, u.all (isGap F) = true → u.count c = 0 := fun hall =>
      List.count_eq_zero.mpr fun hmem =>
        absurd (List.all_eq_true.mp hall c hmem) (Bool.eq_false_iff.mp hc)
    have hnul : c ≠ '\x00' := fun heq => by
      rw [isGap, heq, decide_eq_true rfl, Bool.or_true] at hc
      cases hc
    have hkept : decide (c ≠ '\x00') = true := decide_eq_true hnul
    rw [dropUnfilled, List.count_filter (p := fun x => decide (x ≠ '\x00')) hkept,
      Lead.count_replace_nil (fun _ _ h => hnot (all_take_nulComma h)),
      Lead.count_replace_nil (fun _ _ h => hnot (all_take_commaNul h))]
  have hgap : ∀ c, (decide (c = ',') || decide (c = '\x00')) = false → 32 < c.toNat →
      c.toNat < 128 → isGap F c = false := by
    intro c hc hlow hhigh
    rw [isGap, Bool.or_assoc, F.space_ascii c hlow hhigh, hc]
    rfl
  rw [signs, hcount '#' (hgap '#' (by decide) (by decide) (by decide)),
    hcount '&' (hgap '&' (by decide) (by decide) (by decide)), signs]

/-- **A cut marker shows**, if no slot holds a `#` or an `&`. -/
theorem noSeams_of_streamed (hnums : Free '#' nums ∧ Free '&' nums)
    (hstrs : Free '#' strs ∧ Free '&' strs) {pieces : List (List Char)}
    (h : streamed F pieces nums strs = relex F pieces.flatten nums strs) :
    marker.NoSeams pieces := by
  have hsigns : ∀ pieces : List (List Char),
      signs (fillAll nums strs pieces.flatten) ≤ signs (streamed F pieces nums strs) ∧
      (signs (fillAll nums strs pieces.flatten) = signs (streamed F pieces nums strs) →
        marker.NoSeams pieces) := by
    intro pieces
    induction pieces with
    | nil => exact ⟨le_rfl, fun _ => trivial⟩
    | cons p pieces ih =>
      have hstream : signs (streamed F (p :: pieces) nums strs) =
          signs (fillAll nums strs p) + signs (streamed F pieces nums strs) := by
        rw [streamed_eq_flatten, List.map_cons, List.flatten_cons, signs_append, relex,
          signs_dropUnfilled, ← streamed_eq_flatten]
      obtain ⟨hle, hseam⟩ := signs_fillAll_append hnums hstrs p pieces.flatten
      rw [List.flatten_cons, hstream]
      exact ⟨by omega, fun heq => ⟨hseam (by omega), ih.2 (by omega)⟩⟩
  apply (hsigns pieces).2
  rw [h, relex, signs_dropUnfilled]

/-- **When the page shows what it should**: if no pattern sees a cut; and if no slot holds a
`#` or an `&`, never with a marker that is cut. -/
theorem streamed_iff (F : Flavor) (pieces nums strs : List (List Char)) :
    (Seamless F pieces nums strs →
      streamed F pieces nums strs = relex F pieces.flatten nums strs) ∧
    ((Free '#' nums ∧ Free '&' nums) ∧ Free '#' strs ∧ Free '&' strs →
      streamed F pieces nums strs = relex F pieces.flatten nums strs →
        marker.NoSeams pieces) :=
  ⟨streamed_eq, fun hfree h => noSeams_of_streamed hfree.1 hfree.2 h⟩

/-- **A marker that comes in two pieces stays as it is.** -/
theorem streamed_cuts : ¬ ∀ pieces nums strs : List (List Char),
    streamed javascript pieces nums strs = relex javascript pieces.flatten nums strs := by
  intro h
  have hcut := h [['#'], ['0']] [['5']] []
  revert hcut
  decide

end Delex
