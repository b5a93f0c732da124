/-
# Membership and equality

`contains` (and `x in l`), `index` and `before` look for an element by its number,
`compare` by its kind: two strings are equal as texts, everything else as numbers.  So
the two agree for every value that is no string and no list.  For a string that is no
number, and for a list, the lookups fail; and for a string that is a number they take
other strings with the same value for it (`"1"` for `"1.0"`), and do not find it when
its value is not equal to itself.
-/
import PySpell.Eval
import PySpell.Lib.Search

open Text

namespace Eval

/-- The items of a list value; no slice holds more. -/
abbrev Items := { l : List Value // l.length < 2 ^ 63 }

/-! ## Equality of elements -/

/-- `compare(Eq, e, x)` is `Ok(true)`. -/
def equalTo (x e : Value) : Bool :=
  match compare .eq e x with
  | .ok b => b
  | .error _ => false

/-- The first position of an element that equals the value. -/
def firstPosition (l : List Value) (x : Value) : Option ℕ := l.findIdx? (equalTo x)

/-- The number of a value that the lookups take. -/
def numberOf (x : Value) : Option Binary64 := (asF64 x).toOption

/-- An element has the number of the value. -/
def sameNumber (x e : Value) : Bool :=
  match numberOf x with
  | some needle => equalsNumber needle e
  | none => false

/-- **Equality is equality of the numbers**, unless both are strings. -/
theorem equalTo_eq {x e : Value} (h : isStr x = false ∨ isStr e = false) :
    equalTo x e = sameNumber x e := by
  have hother : (∀ b b', ¬ (e = .bool b ∧ x = .bool b')) → (∀ s s', ¬ (e = .str s ∧ x = .str s')) →
      compare .eq e x = (do let a ← asF64 e; let b ← asF64 x; .ok (Binary64.eq a b)) := by
    intro hbool hstr
    cases e <;> cases x <;> first
      | exact absurd ⟨rfl, rfl⟩ (hbool _ _)
      | exact absurd ⟨rfl, rfl⟩ (hstr _ _)
      | rfl
  by_cases hbool : ∃ b b', e = .bool b ∧ x = .bool b'
  · obtain ⟨b, b', rfl, rfl⟩ := hbool
    cases b <;> cases b' <;> decide +kernel
  · have hstr : ∀ s s', ¬ (e = .str s ∧ x = .str s') := by
      rintro s s' ⟨rfl, rfl⟩
      rcases h with h | h <;> cases h
    rw [equalTo, hother (fun b b' h => hbool ⟨b, b', h⟩) hstr, sameNumber, numberOf]
    unfold equalsNumber
    cases asF64 e <;> cases asF64 x <;> rfl

/-- Two strings are equal as texts. -/
theorem equalTo_str (s t : String) : equalTo (.str s) (.str t) = decide (t = s) := rfl

/-! ## The lookups -/

/-- `contains(l, x)` agrees with `==`. -/
def ContainsAgrees (host : Host) (l : Items) (x : Value) : Prop :=
  pureBuiltin host .contains [.list l, x] = .ok (.bool (l.1.any (equalTo x)))

/-- `index(l, x)` agrees with `==`. -/
def IndexAgrees (host : Host) (l : Items) (x : Value) : Prop :=
  pureBuiltin host .indexOf [.list l, x] =
    .ok (.int ((firstPosition l x).elim (-1) Int64.ofNat))

/-- `before(l, a, b)` agrees with `==`. -/
def BeforeAgrees (host : Host) (l : Items) (a b : Value) : Prop :=
  pureBuiltin host .before [.list l, a, b] = .ok (.bool true) ↔
    ∃ i j, firstPosition l a = some i ∧ firstPosition l b = some j ∧ i < j

/-- What `contains` does. -/
theorem contains_eq (host : Host) (l : List Value) (x : Value) :
    pureBuiltin host .contains [.list l, x] =
      .ofExcept ((asF64 x).map fun _ => .bool (l.any (sameNumber x))) := by
  show Outcome.ofExcept ((asF64 x).map _) = _
  unfold sameNumber numberOf
  cases asF64 x with
  | ok needle => rfl
  | error e => rfl

theorem ok_bind {α β : Type} (a : α) (f : α → Except DslError β) :
    (Except.ok a >>= f) = f a := rfl

/-- What `index` does. -/
theorem indexOf_eq (host : Host) (l : List Value) (x : Value) :
    pureBuiltin host .indexOf [.list l, x] = .ofExcept ((asF64 x).map fun _ =>
      .int ((l.findIdx? (sameNumber x)).elim (-1) Int64.ofNat)) := by
  unfold sameNumber numberOf
  simp only [pureBuiltin, listOf, positionOf, ok_bind]
  cases asF64 x with
  | ok needle =>
    rw [ok_bind]
    cases h : l.findIdx? (equalsNumber needle) with
    | none => simp only [Except.toOption, Except.map, h, Option.elim]
    | some i => simp only [Except.toOption, Except.map, h, Option.elim]
  | error e => rfl

/-- No element has the number of a value that has none. -/
theorem findIdx?_of_error {x : Value} {e : DslError} (h : asF64 x = .error e) (l : List Value) :
    l.findIdx? (sameNumber x) = none := by
  rw [List.findIdx?_eq_none_iff]
  intro v _
  rw [sameNumber, numberOf, h]
  rfl

/-- What `before` does. -/
theorem before_eq (host : Host) (l : List Value) (a b : Value) :
    pureBuiltin host .before [.list l, a, b] = .ok (.bool true) ↔
      ∃ i j, l.findIdx? (sameNumber a) = some i ∧ l.findIdx? (sameNumber b) = some j ∧ i < j := by
  simp only [pureBuiltin, listOf, ok_bind]
  cases ha : asF64 a with
  | error e =>
    rw [findIdx?_of_error ha]
    exact iff_of_false nofun (by rintro ⟨i, j, hi, -⟩; cases hi)
  | ok x =>
    rw [ok_bind]
    cases hb : asF64 b with
    | error e =>
      rw [findIdx?_of_error hb]
      exact iff_of_false nofun (by rintro ⟨i, j, -, hj, -⟩; cases hj)
    | ok y =>
      rw [ok_bind]
      have hx : l.findIdx? (sameNumber a) = positionOf l x := by
        rw [positionOf]
        congr 1
        funext v
        rw [sameNumber, numberOf, ha]
        rfl
      have hy : l.findIdx? (sameNumber b) = positionOf l y := by
        rw [positionOf]
        congr 1
        funext v
        rw [sameNumber, numberOf, hb]
        rfl
      rw [hx, hy]
      cases positionOf l x with
      | none => exact iff_of_false nofun (by rintro ⟨i, j, hi, -⟩; cases hi)
      | some i =>
        cases positionOf l y with
        | none => exact iff_of_false nofun (by rintro ⟨i, j, -, hj, -⟩; cases hj)
        | some j =>
          simp [Outcome.ofExcept]

/-! ## When they agree -/

/-- `contains` agrees: the value is a number or a numeric string; and if it is a string,
then an element that is no string has its number, or the list has a string with its number
exactly if it has the string. -/
def ContainsFair (l : List Value) (x : Value) : Prop :=
  numberOf x ≠ none ∧ (isStr x = true →
    (∃ e ∈ l, isStr e = false ∧ sameNumber x e = true) ∨
      ((∃ e ∈ l, isStr e = true ∧ sameNumber x e = true) ↔ x ∈ l))

/-- The search by number finds what equality finds: if the value is a string, then the
first element that has its number or is the string has its number, and is the string if it
is a string. -/
def PlaceFair (l : List Value) (x : Value) : Prop :=
  isStr x = true → ∀ e, l.find? (fun e => sameNumber x e || equalTo x e) = some e →
    sameNumber x e = true ∧ (isStr e = true → e = x)

/-- `index` agrees: the value is a number or a numeric string, and it is found at its place. -/
def IndexFair (l : List Value) (x : Value) : Prop := numberOf x ≠ none ∧ PlaceFair l x

/-! ### Numbers that are texts -/

theorem numberOf_eq_none {x : Value} : numberOf x = none ↔ ∃ e, asF64 x = .error e := by
  rw [numberOf]
  cases asF64 x with
  | ok y => simp [Except.toOption]
  | error e => simp [Except.toOption]

/-- For a value that is no string the two kinds of elements are one. -/
theorem equalTo_eq_sameNumber {x : Value} (h : isStr x = false) : equalTo x = sameNumber x :=
  funext fun _ => equalTo_eq (.inl h)

/-- A string equals a string that is the same text. -/
theorem equalTo_iff_eq {x e : Value} (hx : isStr x = true) (he : isStr e = true) :
    equalTo x e = true ↔ e = x := by
  cases x with
  | str s =>
    cases e with
    | str t =>
      rw [equalTo_str, decide_eq_true_iff, Value.str.injEq]
    | _ => cases he
  | _ => cases hx

theorem containsAgrees_iff (host : Host) (l : Items) (x : Value) :
    ContainsAgrees host l x ↔ ContainsFair l x := by
  rw [ContainsAgrees, contains_eq, ContainsFair]
  by_cases hnum : numberOf x = none
  · obtain ⟨e, he⟩ := numberOf_eq_none.mp hnum
    rw [he]
    exact iff_of_false nofun fun h => h.1 hnum
  have hok : ∃ y, asF64 x = .ok y := by
    cases hx : asF64 x with
    | ok y => exact ⟨y, rfl⟩
    | error e => exact absurd (numberOf_eq_none.mpr ⟨e, hx⟩) hnum
  obtain ⟨y, hy⟩ := hok
  rw [hy]
  simp only [Except.map, Outcome.ofExcept, Outcome.ok.injEq, Value.bool.injEq, ne_eq, hnum,
    not_false_eq_true, true_and]
  cases hstr : isStr x with
  | false =>
    rw [equalTo_eq_sameNumber hstr]
    simp
  | true =>
    rw [Bool.eq_iff_iff, List.any_eq_true, List.any_eq_true]
    -- split the elements into strings and the others
    have hsplit : ∀ p : Value → Bool, (∃ e ∈ l.1, p e = true) ↔
        (∃ e ∈ l.1, isStr e = false ∧ p e = true) ∨ (∃ e ∈ l.1, isStr e = true ∧ p e = true) := by
      intro p
      constructor
      · rintro ⟨e, he, hp⟩
        cases hs : isStr e with
        | false => exact .inl ⟨e, he, hs, hp⟩
        | true => exact .inr ⟨e, he, hs, hp⟩
      · rintro (⟨e, he, -, hp⟩ | ⟨e, he, -, hp⟩)
        · exact ⟨e, he, hp⟩
        · exact ⟨e, he, hp⟩
    have hother : (∃ e ∈ l.1, isStr e = false ∧ equalTo x e = true) ↔
        (∃ e ∈ l.1, isStr e = false ∧ sameNumber x e = true) := by
      refine exists_congr fun e => and_congr_right fun _ => and_congr_right fun hs => ?_
      rw [equalTo_eq (.inr hs)]
    have hsame : (∃ e ∈ l.1, isStr e = true ∧ equalTo x e = true) ↔ x ∈ l.1 := by
      constructor
      · rintro ⟨e, he, hs, heq⟩
        rwa [← (equalTo_iff_eq hstr hs).mp heq]
      · exact fun hx => ⟨x, hx, hstr, (equalTo_iff_eq hstr hstr).mpr rfl⟩
    rw [hsplit, hsplit (equalTo x), hother, hsame]
    simp only [forall_const]
    generalize (∃ e ∈ l.1, isStr e = false ∧ sameNumber x e = true) = other
    generalize (∃ e ∈ l.1, isStr e = true ∧ sameNumber x e = true) = strings
    tauto

/-! ### Positions -/

/-- Positions are read back from the integers that stand for them. -/
theorem position_inj {α : Type} {l : List α} (hl : l.length < 2 ^ 63) (p q : α → Bool) :
    (l.findIdx? p).elim (-1) Int64.ofNat = (l.findIdx? q).elim (-1) Int64.ofNat ↔
      l.findIdx? p = l.findIdx? q := by
  have hlt : ∀ {p : α → Bool} {i}, l.findIdx? p = some i → i < 2 ^ 63 := fun h =>
    (List.findIdx?_eq_some_iff_getElem.mp h).1.trans hl
  have hneg : (-1 : Int64).toInt = -1 := rfl
  rw [← Int64.toInt_inj]
  cases hp : l.findIdx? p with
  | none =>
    cases hq : l.findIdx? q with
    | none => simp
    | some j =>
      rw [Option.elim_none, Option.elim_some, hneg, Int64.toInt_ofNat_of_lt (hlt hq)]
      exact iff_of_false (by omega) nofun
  | some i =>
    cases hq : l.findIdx? q with
    | none =>
      rw [Option.elim_none, Option.elim_some, hneg, Int64.toInt_ofNat_of_lt (hlt hp)]
      exact iff_of_false (by omega) nofun
    | some j =>
      rw [Option.elim_some, Option.elim_some, Int64.toInt_ofNat_of_lt (hlt hp),
        Int64.toInt_ofNat_of_lt (hlt hq), Option.some_inj]
      omega

/-- The two searches end at the same place. -/
theorem findIdx?_sameNumber_iff (l : List Value) (x : Value) :
    l.findIdx? (sameNumber x) = firstPosition l x ↔ PlaceFair l x := by
  rw [firstPosition, Search.findIdx?_eq_iff, PlaceFair]
  cases hstr : isStr x with
  | false =>
    refine iff_of_true (fun e he => ?_) nofun
    have hboth := List.find?_some he
    rw [equalTo_eq_sameNumber hstr] at hboth ⊢
    simpa using hboth
  | true =>
    simp only [forall_const]
    refine forall_congr' fun e => imp_congr_right fun he => and_congr_right fun hnumber => ?_
    cases hs : isStr e with
    | false =>
      rw [equalTo_eq (.inr hs)]
      exact iff_of_true hnumber nofun
    | true => exact (equalTo_iff_eq hstr hs).trans ⟨fun h _ => h, fun h => h rfl⟩

theorem indexAgrees_iff (host : Host) (l : Items) (x : Value) :
    IndexAgrees host l x ↔ IndexFair l x := by
  rw [IndexAgrees, indexOf_eq, IndexFair]
  by_cases hnum : numberOf x = none
  · obtain ⟨e, he⟩ := numberOf_eq_none.mp hnum
    rw [he]
    exact iff_of_false nofun fun h => h.1 hnum
  have hok : ∃ y, asF64 x = .ok y := by
    cases hx : asF64 x with
    | ok y => exact ⟨y, rfl⟩
    | error e => exact absurd (numberOf_eq_none.mpr ⟨e, hx⟩) hnum
  obtain ⟨y, hy⟩ := hok
  rw [hy]
  simp only [Except.map, Outcome.ofExcept, Outcome.ok.injEq, Value.int.injEq, ne_eq, hnum,
    not_false_eq_true, true_and]
  rw [← findIdx?_sameNumber_iff, firstPosition, position_inj l.2]

/-- `before` agrees when each value is found at its place.  Two places that are both wrong
may still stand in the right order. -/
theorem beforeAgrees_of_placeFair (host : Host) (l : Items) {a b : Value}
    (ha : PlaceFair l a) (hb : PlaceFair l b) : BeforeAgrees host l a b := by
  rw [BeforeAgrees, before_eq, (findIdx?_sameNumber_iff l.1 a).mpr ha,
    (findIdx?_sameNumber_iff l.1 b).mpr hb]

/-- **When the lookups agree with `==`**, for every list and every value: `contains` and
`index` exactly then, `before` whenever both values are found at their places. -/
theorem membership_agrees_iff (host : Host) (l : Items) :
    (∀ x, ContainsAgrees host l x ↔ ContainsFair l x) ∧
      (∀ x, IndexAgrees host l x ↔ IndexFair l x) ∧
      ∀ a b, PlaceFair l a ∧ PlaceFair l b → BeforeAgrees host l a b :=
  ⟨containsAgrees_iff host l, indexAgrees_iff host l,
    fun _ _ h => beforeAgrees_of_placeFair host l h.1 h.2⟩

/-- Two numeric strings in a list that has both, and has them first. -/
theorem membership_agrees_numeric : BeforeAgrees emptyHost
    ⟨[.str "1", .int 3, .str "2", .int 1], by decide⟩ (.str "1") (.str "2") :=
  (membership_agrees_iff emptyHost ⟨[.str "1", .int 3, .str "2", .int 1], by decide⟩).2.2 _ _
    ⟨fun _ e he => by
        obtain rfl : Value.str "1" = e := Option.some_inj.mp ((show _ = _ by decide +kernel).trans he)
        exact ⟨by decide +kernel, fun _ => rfl⟩,
      fun _ e he => by
        obtain rfl : Value.str "2" = e := Option.some_inj.mp ((show _ = _ by decide +kernel).trans he)
        exact ⟨by decide +kernel, fun _ => rfl⟩⟩

/-- **A string is no member of a list that has it**: the lookup fails. -/
theorem member_refused : equalTo (.str "a") (.str "a") = true ∧
    ¬ ContainsAgrees emptyHost ⟨[.str "a"], by decide⟩ (.str "a") := by
  refine ⟨by decide, ?_⟩
  rw [ContainsAgrees, contains_eq]
  decide

end Eval
