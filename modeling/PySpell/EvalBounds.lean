/-
# Programs that do not panic

A check on a program, under bounds for what its host answers, that keeps the operations
that panic out of every run.  `boundsOf` bounds the integers of a value, and the length of
its lists, from the bounds of the parts (`Bounds`).  It fails at a slot that is not there,
at a negation or an `abs` whose operand may be the least integer, at a quotient whose
divisor may be minus one while the dividend may be the least integer, and at a `sum` that
may leave the range.

The check does not look at the truth of a condition, so it also bounds what no run
evaluates.  Every value of a run lies in the bounds of its expression (`inBounds_eval`, by
induction on the expression, with one lemma for each operation and the sequencing rule of
`Returning`), and so a program that passes returns (`runWith_returns`).
-/
import PySpell.EvalPanic
import PySpell.Lib.Span

open StateOutcome

namespace Eval

/-- What is known of a value: where its integers lie, at any depth, and how long its
lists are. -/
structure Bounds where
  ints : Span
  len : ℕ
  deriving DecidableEq, Repr

/-- A value lies in the bounds. -/
inductive InBounds (r : Bounds) : Value → Prop
  | int {n : Int64} (h : n.toInt ∈ r.ints) : InBounds r (.int n)
  | float (x : Binary64) : InBounds r (.float x)
  | bool (b : Bool) : InBounds r (.bool b)
  | str (s : String) : InBounds r (.str s)
  | list {l : List Value} (hlen : l.length ≤ r.len) (hl : ∀ v ∈ l, InBounds r v) :
    InBounds r (.list l)

/-! ## Bounds -/

/-- The bounds of values that are no integers and no lists. -/
def scalar : Bounds := ⟨.zero, 0⟩

/-- The bounds of all integers. -/
def anyInt : Bounds := ⟨.full 64, 0⟩

def Bounds.join (r s : Bounds) : Bounds := ⟨r.ints.union s.ints, max r.len s.len⟩

/-- Wider bounds hold of more values. -/
theorem InBounds.mono {r s : Bounds} (hints : r.ints ≤ s.ints) (hlen : r.len ≤ s.len) {v : Value}
    (h : InBounds r v) : InBounds s v := by
  induction h with
  | int h => exact .int (Span.mem_mono hints h)
  | float x => exact .float x
  | bool b => exact .bool b
  | str s => exact .str s
  | list hl _ ih => exact .list (hl.trans hlen) ih

/-- The value of either branch is in the bounds of both together. -/
theorem InBounds.join_left {r : Bounds} {v : Value} (h : InBounds r v) (s : Bounds) :
    InBounds (r.join s) v := h.mono (Span.le_union_left _ _) (le_max_left _ _)

/-- So is that of the other branch. -/
theorem InBounds.join_right {s : Bounds} {v : Value} (h : InBounds s v) (r : Bounds) :
    InBounds (r.join s) v := h.mono (Span.le_union_right _ _) (le_max_right _ _)

/-- A machine integer is in the full span. -/
theorem toInt_mem_full (n : Int64) : n.toInt ∈ Span.full 64 := by
  have h1 := n.le_toInt
  have h2 := n.toInt_lt
  rw [Span.mem_iff]
  dsimp only [Span.full]
  omega

/-- Nothing is known of a number beyond its width. -/
theorem inBounds_anyInt (n : Int64) : InBounds anyInt (.int n) := .int (toInt_mem_full n)

mutual

/-- The bounds of a constant. -/
def constBounds : Value → Bounds
  | .int n => ⟨.single n.toInt, 0⟩
  | .float _ | .bool _ | .str _ => scalar
  | .list l => { constBoundsAll l with len := max l.length (constBoundsAll l).len }

def constBoundsAll : List Value → Bounds
  | [] => scalar
  | v :: vs => (constBounds v).join (constBoundsAll vs)

end

mutual

/-- A constant is in the bounds that are read off it. -/
theorem inBounds_constBounds : ∀ v : Value, InBounds (constBounds v) v
  | .int n => .int (Span.mem_single n.toInt)
  | .float x => .float x
  | .bool b => .bool b
  | .str s => .str s
  | .list l => .list (le_max_left _ _) fun v hv => by
      apply (inBounds_constBoundsAll l v hv).mono
      · exact ⟨le_rfl, le_rfl⟩
      · exact le_max_right _ _

/-- So is every item of a constant list. -/
theorem inBounds_constBoundsAll : ∀ l : List Value, ∀ v ∈ l, InBounds (constBoundsAll l) v
  | [] => nofun
  | v :: vs => fun w hw => by
    rcases List.mem_cons.mp hw with hw | hw
    · rw [hw]
      exact (inBounds_constBounds v).join_left _
    · exact (inBounds_constBoundsAll vs w hw).join_right _

end

/-! ## Operators -/

/-- The least integer is out of the span. -/
def NeverMin (s : Span) : Prop := s.neg < 2 ^ 63

instance (s : Span) : Decidable (NeverMin s) := inferInstanceAs (Decidable (_ < _))

/-- A number within bounds that leave out the least one is above it. -/
theorem NeverMin.lt {s : Span} (h : NeverMin s) {n : Int64} (hn : n.toInt ∈ s) :
    -2 ^ 63 < n.toInt := by
  rw [Span.mem_iff] at hn
  unfold NeverMin at h
  omega

/-- It is not the least one, so it can be negated. -/
theorem NeverMin.ne {s : Span} (h : NeverMin s) {n : Int64} (hn : n.toInt ∈ s) : n ≠ minI64 := by
  have hlt := h.lt hn
  rintro rfl
  exact absurd hlt (by decide)

def negBounds (r : Bounds) : Option Bounds :=
  if NeverMin r.ints then some ⟨r.ints.opposite, 0⟩ else none

def binBounds (op : BinOp) (r s : Bounds) : Option Bounds :=
  match op with
  | .add => some ⟨(r.ints.add s.ints).wrap 64, 0⟩
  | .sub => some ⟨(r.ints.add s.ints.opposite).wrap 64, 0⟩
  | .mul => some ⟨(r.ints.mul s.ints).wrap 64, 0⟩
  | .div =>
    if s.ints.neg = 0 then some ⟨r.ints, 0⟩
    else if NeverMin r.ints then some ⟨⟨r.ints.size, r.ints.size⟩, 0⟩
    else none
  | .rem => if s.ints.neg = 0 ∨ NeverMin r.ints then some ⟨r.ints, 0⟩ else none

/-! ### Signs -/

/-- **Negation**: with bounds for it the operation returns, in these bounds. -/
theorem inBounds_negate {r t : Bounds} {v : Value} (hv : InBounds r v) (h : negBounds r = some t) :
    (negate v).Returns ∧ ∀ w, negate v = .ok w → InBounds t w := by
  unfold negBounds at h
  split_ifs at h with hmin
  obtain rfl := Option.some_inj.mp h
  cases hv with
  | @int n hn =>
    have hlt := hmin.lt hn
    have hle := Int64.toInt_lt n
    rw [negate, checkedNeg, if_neg (hmin.ne hn)]
    refine ⟨trivial, ?_⟩
    rintro w ⟨⟩
    refine .int ?_
    rw [Int64.toInt_neg, Int.bmod_eq_of_le (by omega) (by omega)]
    exact Span.mem_opposite hn
  | float x => exact ⟨trivial, by rintro w ⟨⟩; exact .float _⟩
  | bool b => exact ⟨trivial, fun w hw => by cases hw⟩
  | str s => exact ⟨trivial, fun w hw => by cases hw⟩
  | list hlen hl => exact ⟨trivial, fun w hw => by cases hw⟩

/-! ### Two integers -/

/-- A wrapping operation on integers. -/
theorem toInt_mem_wrap {s : Span} {n : Int64} {x : ℤ} (hx : x ∈ s)
    (hn : n.toInt = x.bmod (2 ^ 64)) : n.toInt ∈ s.wrap 64 :=
  Span.mem_wrap hx (toInt_mem_full n) fun hlo hhi => by
    rw [hn, Int.bmod_eq_of_le (by omega) (by omega)]

/-- The divisor minus one is out of a span without negative numbers. -/
theorem ne_neg_one {s : Span} (h : s.neg = 0) {n : Int64} (hn : n.toInt ∈ s) : n ≠ -1 := by
  rintro rfl
  have hone : (-1 : Int64).toInt = -1 := by decide
  rw [Span.mem_iff, hone, h] at hn
  omega

/-- A quotient that has bounds has a divisor without a sign, or a dividend that is never the
least integer. -/
theorem signless_or_neverMin {op : BinOp} {r s t : Bounds} (hop : op = .div ∨ op = .rem)
    (h : binBounds op r s = some t) : s.ints.neg = 0 ∨ NeverMin r.ints := by
  by_contra hno
  obtain ⟨hneg, hmin⟩ := not_or.mp hno
  rcases hop with rfl | rfl
  · simp [binBounds, hneg, hmin] at h
  · simp [binBounds, hneg, hmin] at h

/-- An operation of two numbers returns when its bounds exist: they are refused where a quotient
may not exist, and the others wrap. -/
theorem returns_numBinop {op : BinOp} {r s t : Bounds} {x y : Value} (hx : InBounds r x)
    (hy : InBounds s y) (h : binBounds op r s = some t) : (numBinop op x y).Returns := by
  refine (numBinop_returns_iff op x y).mpr ?_
  rintro ⟨hop, rfl, rfl⟩
  obtain ⟨hmin⟩ := hx
  obtain ⟨hone⟩ := hy
  rcases signless_or_neverMin hop h with h0 | hnever
  · exact ne_neg_one h0 hone rfl
  · exact hnever.ne hmin rfl

/-- A quotient of integers. -/
theorem mem_div {s : Span} {x y : Int64} (hx : x.toInt ∈ s) (hne : ¬ (x = minI64 ∧ y = -1)) :
    (x / y).toInt ∈ (⟨s.size, s.size⟩ : Span) := by
  have hdiv : (x / y).toInt = x.toInt.tdiv y.toInt := by
    by_cases hmin : x = minI64
    · exact Int64.toInt_div_of_ne_right x y fun hone => hne ⟨hmin, hone⟩
    · exact Int64.toInt_div_of_ne_left x y hmin
  rw [hdiv]
  exact Span.mem_tdiv hx _

/-- Division by a number that is not negative goes towards zero, so it stays within the bounds of
the dividend. -/
theorem mem_div_of_signless {s t : Span} {x y : Int64} (hx : x.toInt ∈ s) (hy : y.toInt ∈ t)
    (h0 : t.neg = 0) : (x / y).toInt ∈ s := by
  have hnonneg := (Span.mem_iff.mp hy).1
  rw [Int64.toInt_div_of_ne_right x y (ne_neg_one h0 hy)]
  exact Span.mem_tdiv_of_nonneg hx (by omega)

/-- Two integers: wrapping operations, and the quotients that do not panic. -/
theorem inBounds_numBinop_int {op : BinOp} {r s t : Bounds} {x y : Int64} {v : Value}
    (hx : x.toInt ∈ r.ints) (hy : y.toInt ∈ s.ints) (h : binBounds op r s = some t)
    (hv : numBinop op (.int x) (.int y) = .ok v) : InBounds t v := by
  cases op with
  | add =>
    obtain rfl := Option.some_inj.mp h
    obtain rfl := Outcome.ok.inj hv
    exact .int (toInt_mem_wrap (Span.mem_add hx hy) (Int64.toInt_add x y))
  | sub =>
    obtain rfl := Option.some_inj.mp h
    obtain rfl := Outcome.ok.inj hv
    exact .int (toInt_mem_wrap (Span.mem_sub hx hy) (Int64.toInt_sub x y))
  | mul =>
    obtain rfl := Option.some_inj.mp h
    obtain rfl := Outcome.ok.inj hv
    exact .int (toInt_mem_wrap (Span.mem_mul hx hy) (Int64.toInt_mul x y))
  -- a quotient overflows for one pair only, and that is a panic
  | div =>
    simp only [numBinop, isStr, checkedDiv] at hv
    by_cases hy0 : y = 0
    · simp [hy0, typeErr] at hv
    by_cases hfault : x = minI64 ∧ y = -1
    · simp [hfault] at hv
      cases hv
    simp only [hy0, hfault, if_false] at hv
    obtain rfl : Value.int (x / y) = v := Outcome.ok.inj hv
    unfold binBounds at h
    dsimp only at h
    split_ifs at h with h0 hmin
    · obtain rfl := Option.some_inj.mp h
      exact .int (mem_div_of_signless hx hy h0)
    · obtain rfl := Option.some_inj.mp h
      exact .int (mem_div hx hfault)
  -- so does a remainder
  | rem =>
    simp only [numBinop, isStr, checkedRem] at hv
    by_cases hy0 : y = 0
    · simp [hy0, typeErr] at hv
    by_cases hfault : x = minI64 ∧ y = -1
    · simp [hfault] at hv
      cases hv
    simp only [hy0, hfault, if_false] at hv
    obtain rfl : Value.int (x % y) = v := Outcome.ok.inj hv
    unfold binBounds at h
    dsimp only at h
    split_ifs at h
    obtain rfl := Option.some_inj.mp h
    refine .int ?_
    rw [Int64.toInt_mod]
    exact Span.mem_tmod hx _

/-- An operator makes a string, an integer from two, or a float. -/
theorem numBinop_cases {op : BinOp} {x y v : Value} (hv : numBinop op x y = .ok v) :
    (∃ s, v = .str s) ∨ (∃ z, v = .float z) ∨ ∃ m n, x = .int m ∧ y = .int n := by
  unfold numBinop at hv
  split_ifs at hv with hstr
  · obtain rfl := Outcome.ok.inj hv
    exact Or.inl ⟨_, rfl⟩
  · split at hv
    · exact Or.inr (Or.inr ⟨_, _, rfl, rfl⟩)
    · obtain ⟨x', -, hv⟩ := Outcome.bind_eq_ok.mp hv
      obtain ⟨y', -, hv⟩ := Outcome.bind_eq_ok.mp hv
      refine Or.inr (Or.inl ?_)
      cases op with
      | _ => exact ⟨_, (Outcome.ok.inj hv).symm⟩

/-- **A binary operator** has a value in the bounds of the operator. -/
theorem inBounds_numBinop {op : BinOp} {r s t : Bounds} {x y v : Value} (hx : InBounds r x)
    (hy : InBounds s y) (h : binBounds op r s = some t) (hv : numBinop op x y = .ok v) :
    InBounds t v := by
  rcases numBinop_cases hv with ⟨_, rfl⟩ | ⟨_, rfl⟩ | ⟨m, n, rfl, rfl⟩
  · exact .str _
  · exact .float _
  · obtain ⟨hx⟩ := hx
    obtain ⟨hy⟩ := hy
    exact inBounds_numBinop_int hx hy h hv

/-! ## Builtins -/

/-- The bounds of a call on arguments that all lie in one bound, where the host answers
`fetch_json` in another.  The greatest magnitude bounds an `abs`; a `sum` fits when as many
extreme items as the list can have fit. -/
def callBounds (json : Bounds) (b : Builtin) (r : Bounds) : Option Bounds :=
  match b with
  | .abs => if NeverMin r.ints then some ⟨⟨0, r.ints.size⟩, 0⟩ else none
  | .sum =>
    let total := r.ints.times r.len
    if total.neg ≤ 2 ^ 63 ∧ total.pos < 2 ^ 63 then some ⟨total, 0⟩ else none
  | .len | .round | .int | .jsonGet => some anyInt
  | .indexOf => some ⟨(⟨1, r.len⟩ : Span).wrap 64, 0⟩
  | .first | .last => some (r.join ⟨⟨1, 0⟩, 0⟩)
  | .min | .max | .print | .show | .led | .reverse => some r
  | .fetchJson => some json
  | _ => some scalar

/-- What a value adds to a sum is within its bounds; a value that is not a number adds zero. -/
theorem intPart_mem {r : Bounds} {v : Value} (h : InBounds r v) : intPart v ∈ r.ints := by
  cases h with
  | int h => exact h
  | _ => exact Span.zero_mem _

/-- A list is as long as its bounds allow, and its items are in them. -/
theorem InBounds.items {r : Bounds} {l : List Value} (h : InBounds r (.list l)) :
    l.length ≤ r.len ∧ ∀ v ∈ l, InBounds r v := by
  cases h with
  | list hlen hl => exact ⟨hlen, hl⟩

/-- The running totals of a `sum`. -/
theorem sum_take_mem {r : Bounds} {l : List Value} (h : InBounds r (.list l)) (k : ℕ) :
    ((l.take k).map intPart).sum ∈ r.ints.times r.len := by
  obtain ⟨hlen, hl⟩ := h.items
  refine Span.mem_sum (fun z hz => ?_) ?_
  · obtain ⟨v, hv, rfl⟩ := List.mem_map.mp hz
    exact intPart_mem (hl v (List.mem_of_mem_take hv))
  · rw [List.length_map, List.length_take]
    omega

/-- **A sum does not overflow** when as many items as there may be, each as large as it may be, do
not: every partial sum is smaller. -/
theorem not_sumOverflows {r : Bounds} {l : List Value} (h : InBounds r (.list l))
    (hfits : (r.ints.times r.len).neg ≤ 2 ^ 63 ∧ (r.ints.times r.len).pos < 2 ^ 63) :
    ¬ SumOverflows l := by
  rintro ⟨k, -, hout⟩
  have hmem := Span.mem_iff.mp (sum_take_mem h k)
  unfold OutOfRange at hout
  omega

/-- An integer that `sum` returns is the sum of the integers. -/
theorem sumLoop_eq_ok {l : List Value} :
    ∀ {acc : Int64} {facc : Binary64} {anyFloat : Bool} {v : Value},
      sumLoop l acc facc anyFloat = .ok v →
      (∃ x, v = .float x) ∨
        ∃ n : Int64, v = .int n ∧ n.toInt = acc.toInt + (l.map intPart).sum := by
  induction l with
  | nil =>
    intro acc facc anyFloat v h
    unfold sumLoop at h
    split_ifs at h
    · exact Or.inl ⟨_, (Outcome.ok.inj h).symm⟩
    · exact Or.inr ⟨acc, (Outcome.ok.inj h).symm, by simp⟩
  | cons w l ih =>
    intro acc facc anyFloat v h
    cases w with
    | int n =>
      rw [sumLoop] at h
      rcases checkedAdd_cases acc n with ⟨-, hc⟩ | ⟨-, hc, hsum⟩
      · rw [hc] at h
        cases h
      · rw [hc, Outcome.ok_bind] at h
        refine (ih h).imp_right ?_
        rintro ⟨m, rfl, hm⟩
        refine ⟨m, rfl, ?_⟩
        rw [hm, hsum, List.map_cons, List.sum_cons, add_assoc]
        rfl
    | float x =>
      rw [sumLoop] at h
      refine (ih h).imp_right ?_
      rintro ⟨m, rfl, hm⟩
      refine ⟨m, rfl, ?_⟩
      rw [hm, List.map_cons, List.sum_cons, show intPart (.float x) = 0 from rfl, zero_add]
    | _ => cases h

/-! ### Minimum and maximum -/

/-- The loop of `min` and `max` returns one of the items. -/
theorem minmaxLoop_mem {b : Builtin} {l : List Value} :
    ∀ {best v : Value} {x : Binary64}, minmaxLoop b l best x = .ok v → v = best ∨ v ∈ l := by
  induction l with
  | nil =>
    intro best v x h
    exact Or.inl (Except.ok.inj h).symm
  | cons w l ih =>
    intro best v x h
    rw [minmaxLoop] at h
    rcases hw : asF64 w with e | y
    · rw [hw] at h
      cases h
    · rw [hw] at h
      change (if _ then minmaxLoop b l w y else minmaxLoop b l best x) = .ok v at h
      split_ifs at h
      all_goals
        have hmem := ih h
        simp only [List.mem_cons]
        tauto

/-- The best of the items that are left and one before them. -/
theorem inBounds_minmax {b : Builtin} {r : Bounds} {w v : Value} {l : List Value}
    (hl : ∀ x ∈ w :: l, InBounds r x) (h : (asF64 w >>= fun x => minmaxLoop b l w x) = .ok v) :
    InBounds r v := by
  rcases hw : asF64 w with e | x
  · rw [hw] at h
    cases h
  · rw [hw] at h
    change minmaxLoop b l w x = .ok v at h
    rcases minmaxLoop_mem h with rfl | hv
    · exact hl _ List.mem_cons_self
    · exact hl v (List.mem_cons_of_mem w hv)

/-- `min` and `max` return an argument, or an item of the only one. -/
theorem inBounds_reduceMinmax {b : Builtin} {r : Bounds} {vals : List Value} {v : Value}
    (hvals : ∀ w ∈ vals, InBounds r w) (h : reduceMinmax b vals = .ok v) : InBounds r v := by
  match vals with
  | [] => cases h
  | [.list []] => cases h
  | [.list (w :: l)] => exact inBounds_minmax (hvals _ List.mem_cons_self).items.2 h
  | [.int _] | [.float _] | [.bool _] | [.str _] => cases h
  | w :: w' :: l =>
    cases w with
    | _ => exact inBounds_minmax (b := b) hvals h

/-! ### Numbers from texts -/

/-- A number that is read from a text may be any number. -/
theorem inBounds_parseNumber {tok : List UInt8} {v : Value} (h : Json.parseNumber tok = .ok v) :
    InBounds anyInt v := by
  unfold Json.parseNumber at h
  split at h
  · cases h
  · split at h
    · split at h
      · obtain rfl := Except.ok.inj h
        exact .float _
      · cases h
    · split at h
      · obtain rfl := Except.ok.inj h
        exact inBounds_anyInt _
      · cases h

/-- What is mapped came from a value. -/
theorem exceptMap_eq_ok {ε α β : Type} {x : Except ε α} {f : α → β} {b : β}
    (h : x.map f = .ok b) : ∃ a, x = .ok a ∧ f a = b := by
  cases x with
  | error e => cases h
  | ok a => exact ⟨a, rfl, Except.ok.inj h⟩

/-- `json_get` returns no list. -/
theorem inBounds_jsonGet {text : List UInt8} {path : String} {v : Value}
    (h : Json.get text path = .ok v) : InBounds anyInt v := by
  unfold Json.get at h
  split at h
  · cases h
  · obtain ⟨⟨w, q⟩, hw, rfl⟩ := exceptMap_eq_ok h
    unfold Json.parseScalar at hw
    split at hw
    · cases hw
    · split_ifs at hw
      · obtain ⟨x, -, heq⟩ := exceptMap_eq_ok hw
        obtain ⟨rfl, -⟩ := Prod.mk.inj heq
        exact .str _
      · obtain ⟨rfl, -⟩ := Prod.mk.inj (Except.ok.inj hw)
        exact .bool _
      · obtain ⟨rfl, -⟩ := Prod.mk.inj (Except.ok.inj hw)
        exact .bool _
      · cases hw
      · cases hw
      · obtain ⟨x, hx, heq⟩ := exceptMap_eq_ok hw
        obtain ⟨rfl, -⟩ := Prod.mk.inj heq
        exact inBounds_parseNumber hx

/-- A result without an error is a value of the computation. -/
theorem ofExcept_eq_ok {ε α : Type} {x : Except ε α} {a : α}
    (h : Outcome.ofExcept x = .ok a) : x = .ok a := by
  cases x with
  | error e => cases h
  | ok a => rw [Outcome.ok.inj h]

/-- The list that is the only argument is in the bounds of the arguments. -/
theorem inBounds_singleton {b : Builtin} {r : Bounds} {vals l : List Value}
    (hvals : ∀ w ∈ vals, InBounds r w) (h : singleList b vals = .ok l) : InBounds r (.list l) := by
  obtain rfl := singleList_eq_ok.mp h
  exact hvals _ List.mem_cons_self

/-- A sequence that succeeds succeeds in both parts. -/
theorem exceptBind_eq_ok {ε α β : Type} {x : Except ε α} {f : α → Except ε β} {b : β}
    (h : (x >>= f) = .ok b) : ∃ a, x = .ok a ∧ f a = .ok b := by
  cases x with
  | error e => cases h
  | ok a => exact ⟨a, rfl, h⟩

/-! ### Builtins of one argument -/

/-- The absolute value exists, for its bounds are refused with the least number among them. -/
theorem inBounds_abs {json r t : Bounds} {n : Int64} (hn : n.toInt ∈ r.ints)
    (h : callBounds json .abs r = some t) :
    n ≠ minI64 ∧ ∀ m : Int64, m.toInt = |n.toInt| → InBounds t (.int m) := by
  unfold callBounds at h
  dsimp only at h
  split_ifs at h with hmin
  obtain rfl := Option.some.inj h
  refine ⟨hmin.ne hn, fun m hm => .int ?_⟩
  have hsize := Span.abs_le_size hn
  have hnonneg := abs_nonneg n.toInt
  rw [hm, Span.mem_iff]
  exact ⟨by omega, hsize⟩

/-- The opposite of a negative number is its absolute value, unless it has none. -/
theorem inBounds_neg_of_abs {json r t : Bounds} {n : Int64} (hn : n.toInt ∈ r.ints)
    (h : callBounds json .abs r = some t) (hneg : n < 0) : InBounds t (.int (-n)) := by
  obtain ⟨hmin, hwithin⟩ := inBounds_abs hn h
  have hlt := Int64.lt_iff_toInt_lt.mp hneg
  rw [Int64.toInt_zero] at hlt
  refine hwithin _ ?_
  have hge := n.le_toInt
  have hne : n.toInt ≠ -2 ^ 63 := fun heq => hmin (Int64.toInt_inj.mp heq)
  rw [Int64.toInt_neg, Int.bmod_eq_of_le (by omega) (by omega), abs_of_neg hlt]

/-- The sum of a list of these bounds does not overflow, and is in the bounds of the call. -/
theorem inBounds_sum {json r t : Bounds} {l : List Value} (hl : InBounds r (.list l))
    (h : callBounds json .sum r = some t) :
    ¬ SumOverflows l ∧ ∀ v, sumLoop l 0 (Binary64.zero false) false = .ok v → InBounds t v := by
  unfold callBounds at h
  dsimp only at h
  split_ifs at h with hfits
  obtain rfl := Option.some.inj h
  refine ⟨not_sumOverflows hl hfits, fun v hv => ?_⟩
  rcases sumLoop_eq_ok hv with ⟨x, rfl⟩ | ⟨n, rfl, hn⟩
  · exact .float x
  · have hsum := sum_take_mem hl l.length
    rw [List.take_length] at hsum
    refine .int ?_
    rw [hn, Int64.toInt_zero, zero_add]
    exact hsum

/-- A position, or minus one. -/
theorem inBounds_indexOf {r : Bounds} {l : List Value} (hl : InBounds r (.list l)) {x : Binary64}
    {o : Option ℕ} (ho : o = positionOf l x) :
    InBounds ⟨(⟨1, r.len⟩ : Span).wrap 64, 0⟩
      (match o with
        | some i => .int (Int64.ofNat i)
        | none => .int (-1)) := by
  have hlen := hl.items.1
  cases o with
  | none =>
    have hmem : (-1 : ℤ) ∈ (⟨1, r.len⟩ : Span) := Span.mem_iff.mpr (by dsimp only; omega)
    exact .int (toInt_mem_wrap hmem (by decide))
  | some i =>
    have hi := (List.findIdx?_eq_some_iff_getElem.mp ho.symm).1
    have hmem : (i : ℤ) ∈ (⟨1, r.len⟩ : Span) := Span.mem_iff.mpr (by dsimp only; omega)
    exact .int (toInt_mem_wrap hmem Int64.toInt_ofNat')

/-! ### Every builtin -/

/-- The list that an argument is asked to be is that argument. -/
theorem inBounds_listOf {r : Bounds} {l : Value} {what : String} {items : List Value}
    (hl : InBounds r l) (h : listOf l what = .ok items) : InBounds r (.list items) := by
  cases l with
  | list l =>
    obtain rfl := Except.ok.inj h
    exact hl
  | _ => cases h

/-- The first or the last item, or minus one. -/
theorem inBounds_getD {r : Bounds} {l : List Value} (hl : InBounds r (.list l)) {o : Option Value}
    (ho : ∀ v, o = some v → v ∈ l) :
    InBounds (r.join ⟨⟨1, 0⟩, 0⟩) (o.getD (.int (-1))) := by
  cases o with
  | none => exact InBounds.join_right (.int (Span.mem_iff.mpr (by decide))) r
  | some v => exact (hl.items.2 v (ho v rfl)).join_left _

/-- **A builtin** without an effect has a value in the bounds of the call. -/
theorem inBounds_pureBuiltin {host : Host} {json : Bounds} {b : Builtin} {r t : Bounds}
    {vals : List Value} (hvals : ∀ w ∈ vals, InBounds r w) (h : callBounds json b r = some t)
    {v : Value} : pureBuiltin host b vals = .ok v → InBounds t v := by
  fun_cases pureBuiltin host b vals with
  -- `len`: any count fits
  | case1 | case2 =>
    rintro ⟨⟩
    obtain rfl := Option.some.inj h
    exact inBounds_anyInt _
  -- `abs` of a negative number: the bound keeps the least integer away
  | case4 n hneg =>
    obtain ⟨hn⟩ := hvals _ List.mem_cons_self
    rw [checkedNeg, if_neg (inBounds_abs hn h).1]
    rintro ⟨⟩
    exact inBounds_neg_of_abs hn h hneg
  | case5 n hnonneg =>
    rintro ⟨⟩
    obtain ⟨hn⟩ := hvals _ List.mem_cons_self
    rw [Int64.lt_iff_toInt_lt, Int64.toInt_zero, not_lt] at hnonneg
    exact (inBounds_abs hn h).2 n (abs_of_nonneg hnonneg).symm
  -- values without integers
  | case6 | case11 | case23 | case28 | case31 =>
    rintro ⟨⟩
    first | exact .float _ | exact .bool _ | exact .str _
  | case8 v | case9 v =>
    intro hv
    obtain ⟨x, -, rfl⟩ := exceptMap_eq_ok (ofExcept_eq_ok hv)
    obtain rfl := Option.some.inj h
    exact inBounds_anyInt _
  | case10 | case15 | case16 | case17 | case29 | case30 =>
    intro hv
    obtain ⟨x, -, rfl⟩ := exceptMap_eq_ok (ofExcept_eq_ok hv)
    first | exact .float _ | exact .bool _ | exact .str _
  -- `min` and `max` return one of their arguments
  | case12 | case13 =>
    intro hv
    obtain rfl := Option.some.inj h
    exact inBounds_reduceMinmax hvals (ofExcept_eq_ok hv)
  | case14 =>
    intro hv
    obtain ⟨l, hl, hv⟩ := Outcome.bind_eq_ok.mp hv
    exact (inBounds_sum (inBounds_singleton hvals (ofExcept_eq_ok hl)) h).2 v hv
  -- `index`: a position in a list that is in bounds, or -1
  | case19 l w =>
    intro hv
    obtain ⟨items, hitems, hv⟩ := exceptBind_eq_ok (ofExcept_eq_ok hv)
    obtain ⟨x, -, hv⟩ := exceptBind_eq_ok hv
    obtain rfl := Option.some.inj h
    have hl := inBounds_listOf (hvals _ List.mem_cons_self) hitems
    rcases hpos : positionOf items x with _ | i
    · rw [hpos] at hv
      obtain rfl := Except.ok.inj hv
      exact inBounds_indexOf hl hpos.symm
    · rw [hpos] at hv
      obtain rfl := Except.ok.inj hv
      exact inBounds_indexOf hl hpos.symm
  | case20 l v w =>
    intro hv
    obtain ⟨items, -, hv⟩ := exceptBind_eq_ok (ofExcept_eq_ok hv)
    obtain ⟨x, -, hv⟩ := exceptBind_eq_ok hv
    obtain ⟨y, -, hv⟩ := exceptBind_eq_ok hv
    split at hv
    · obtain rfl := Except.ok.inj hv
      exact .bool _
    · obtain rfl := Except.ok.inj hv
      exact .bool _
  | case21 =>
    intro hv
    obtain ⟨l, hl, rfl⟩ := exceptMap_eq_ok (ofExcept_eq_ok hv)
    obtain rfl := Option.some.inj h
    exact inBounds_getD (inBounds_singleton hvals hl) fun v hv => List.mem_of_head? hv
  | case22 =>
    intro hv
    obtain ⟨l, hl, rfl⟩ := exceptMap_eq_ok (ofExcept_eq_ok hv)
    obtain rfl := Option.some.inj h
    exact inBounds_getD (inBounds_singleton hvals hl) fun v hv => List.mem_of_getLast? hv
  | case24 text path =>
    intro hv
    obtain rfl := Option.some.inj h
    exact inBounds_jsonGet (ofExcept_eq_ok hv)
  -- the value itself
  | case27 w =>
    rintro ⟨⟩
    obtain rfl := Option.some.inj h
    exact hvals _ List.mem_cons_self
  | case32 l =>
    rintro ⟨⟩
    obtain rfl := Option.some.inj h
    obtain ⟨hlen, hl⟩ := (hvals _ List.mem_cons_self).items
    exact .list (by rwa [List.length_reverse]) fun v hv => hl v (List.mem_reverse.mp hv)
  | _ =>
    intro hv
    cases hv

/-! ### Builtins that ask the host -/

/-- What is known of the answers of a host: of each name, and of `fetch_json`. -/
structure HostBounds where
  env : String → Bounds
  json : Bounds

/-- **The answers of the host** lie in the bounds, whatever happened before. -/
structure HostBounds.Hold (H : HostBounds) (host : Host) : Prop where
  env : ∀ events name v, host.env events name = some v → InBounds (H.env name) v
  json : ∀ net, host.net = some net → ∀ events url path v,
    net.fetchExtract events url (Json.jsonProbe path) = .ok v → InBounds H.json v

/-- An effect after another succeeds only if both do. -/
theorem effect_bind_eq_ok {α β : Type} {m : Effect α} {k : α → Effect β} {events : List Event}
    {b : β} (h : ((m >>= k) events).1 = .ok b) :
    ∃ a events', m events = (.ok a, events') ∧ (k a events').1 = .ok b := by
  rw [bind_run] at h
  rcases hm : m events with ⟨o, events'⟩
  rw [hm] at h
  cases o with
  | ok a => exact ⟨a, events', rfl, h⟩
  | _ => cases h

/-- **A builtin with an effect** returns a value in the bounds of its call; what a display or a
lamp is told is its argument. -/
theorem inBounds_applyBuiltin {host : Host} {actuator : Option Actuator} {json : Bounds}
    {b : Builtin} {r t : Bounds} {vals : List Value} (hvals : ∀ w ∈ vals, InBounds r w)
    (h : callBounds json b r = some t) {events : List Event} {v : Value} :
    (applyBuiltin host actuator b vals events).1 = .ok v → InBounds t v := by
  fun_cases applyBuiltin host actuator b vals with
  | case1 | case2 =>
    intro hv
    cases hv
  | case3 w =>
    intro hv
    obtain ⟨_, _, -, hv⟩ := effect_bind_eq_ok hv
    obtain rfl := Outcome.ok.inj hv
    obtain rfl := Option.some.inj h
    exact hvals _ List.mem_cons_self
  | case5 w =>
    intro hv
    obtain ⟨_, _, -, hv⟩ := effect_bind_eq_ok hv
    obtain ⟨_, _, -, hv⟩ := effect_bind_eq_ok hv
    obtain rfl := Outcome.ok.inj hv
    obtain rfl := Option.some.inj h
    exact hvals _ List.mem_cons_self
  | case7 =>
    intro hv
    obtain ⟨_, _, -, hv⟩ := effect_bind_eq_ok hv
    obtain rfl := Outcome.ok.inj hv
    exact .bool _
  | case4 | case6 | case8 =>
    intro hv
    cases hv
  | case9 => exact inBounds_pureBuiltin hvals h

/-- A call that has bounds does not fault. -/
theorem call_not_faults {json : Bounds} {b : Builtin} {r t : Bounds} {vals : List Value}
    (hvals : ∀ w ∈ vals, InBounds r w) (h : callBounds json b r = some t) :
    ¬ (Operation.call b vals).Faults := by
  cases b with
  | abs =>
    rintro rfl
    obtain ⟨hmin⟩ := hvals _ List.mem_cons_self
    exact (inBounds_abs hmin h).1 rfl
  | sum =>
    rintro ⟨l, rfl, hover⟩
    exact (inBounds_sum (hvals _ List.mem_cons_self) h).1 hover
  | _ => exact id

/-- **A call** has a value in its bounds, whatever the host answers within its own. -/
theorem inBounds_dispatch {host : Host} {H : HostBounds} (hH : H.Hold host)
    {actuator : Option Actuator} {b : Builtin} {r t : Bounds} {vals : List Value}
    (hvals : ∀ w ∈ vals, InBounds r w) (h : callBounds H.json b r = some t) {events : List Event}
    {v : Value} : (dispatch host actuator b vals events).1 = .ok v → InBounds t v := by
  fun_cases dispatch host actuator b vals with
  | case1 w =>
    intro hv
    obtain ⟨url, events, -, hv⟩ := effect_bind_eq_ok hv
    rcases hnet : host.net with _ | net
    · rw [hnet] at hv
      cases hv
    · rw [hnet] at hv
      obtain ⟨body, _, -, hv⟩ := effect_bind_eq_ok hv
      obtain rfl := Outcome.ok.inj hv
      exact .str _
  | case3 w w' =>
    intro hv
    obtain ⟨url, _, -, hv⟩ := effect_bind_eq_ok hv
    obtain ⟨path, events, -, hv⟩ := effect_bind_eq_ok hv
    obtain rfl := Option.some.inj h
    rcases hnet : host.net with _ | net
    · rw [hnet] at hv
      cases hv
    · rw [hnet] at hv
      exact hH.json net hnet events url path v (ofExcept_eq_ok hv)
  | case2 | case4 =>
    intro hv
    cases hv
  | case5 => exact inBounds_applyBuiltin hvals h

/-! ## Expressions -/

mutual

/-- The bounds of an expression from those of the locals. -/
def boundsOf (H : HostBounds) (L : List Bounds) : Expr → Option Bounds
  | .const v => some (constBounds v)
  | .local i => L[i.toNat]?
  | .var name => some (H.env name)
  | .bin op a b => do
    let r ← boundsOf H L a
    let s ← boundsOf H L b
    binBounds op r s
  | .cmp _ a b => do
    let _ ← boundsOf H L a
    let _ ← boundsOf H L b
    some scalar
  | .bool _ a b => do
    let _ ← boundsOf H L a
    let _ ← boundsOf H L b
    some scalar
  | .unary op a => do
    let r ← boundsOf H L a
    match op with
    | .neg => negBounds r
    | .not => some scalar
  | .index l i => do
    let r ← boundsOf H L l
    let _ ← boundsOf H L i
    some r
  | .ite c t e => do
    let _ ← boundsOf H L c
    let r ← boundsOf H L t
    let s ← boundsOf H L e
    some (r.join s)
  | .call b args => do
    let r ← boundsOfAll H L args
    callBounds H.json b r
  | .list items => do
    let r ← boundsOfAll H L items
    some ⟨r.ints, max items.length r.len⟩

/-- One bound for all values of a list of expressions. -/
def boundsOfAll (H : HostBounds) (L : List Bounds) : List Expr → Option Bounds
  | [] => some scalar
  | e :: es => do
    let r ← boundsOf H L e
    let s ← boundsOfAll H L es
    some (r.join s)

end

/-- The bounds of the locals after the bindings; every slot has to be there. -/
def bodyBounds (H : HostBounds) : List Bounds → List LetBinding → Option (List Bounds)
  | L, [] => some L
  | L, b :: bs => do
    let r ← boundsOf H L b.expr
    if b.slot.toNat < L.length then bodyBounds H (L.set b.slot.toNat r) bs else none

/-- **The check of a program**: the bounds of its result, if no operation can fault. -/
def programBounds (H : HostBounds) (p : Program) : Option Bounds := do
  let L ← bodyBounds H (List.replicate p.nLocals.toNat scalar) p.body
  boundsOf H L p.ret

/-! ## The tree walk -/

/-- The locals of a frame lie in their bounds. -/
structure Fits (L : List Bounds) (f : Frame) : Prop where
  length : f.locals.length = L.length
  inBounds : ∀ (i : ℕ) (v : Value) (r : Bounds), f.locals[i]? = some v → L[i]? = some r →
    InBounds r v

/-- A part of a run returns, with a value that has the property, and its locals fit again. -/
abbrev Sound {α : Type} (L : List Bounds) (value : α → Prop) (m : Run α) : Prop :=
  Returning (Fits L) value (Fits L) m

section Walk

variable {host : Host} {H : HostBounds} {L : List Bounds}

/-- A part that leaves the locals alone. -/
theorem sound_of_locals {α : Type} {value : α → Prop} {m : Run α}
    (hlocals : ∀ f, (m f).2.locals = f.locals)
    (h : ∀ f, (m f).1.Returns ∧ ∀ a, (m f).1 = .ok a → value a) : Sound L value m := by
  intro f hf
  obtain ⟨hr, hv⟩ := h f
  refine ⟨hr, fun a f' heq => ?_⟩
  have hsame := hlocals f
  rw [heq] at hv hsame
  exact ⟨hv a rfl, by rw [hsame]; exact hf.length, by rw [hsame]; exact hf.inBounds⟩

/-! ### Budgets and slots -/

/-- A step paid for changes no local. -/
theorem sound_tick : Sound L (fun _ => True) (tick host) := by
  refine sound_of_locals (fun f => ?_) fun f => ⟨?_, fun _ _ => trivial⟩
  all_goals
    unfold tick
    split_ifs
    · trivial
    · dsimp only
      split
      · trivial
      · split_ifs <;> trivial

/-- Neither does memory that is paid for. -/
theorem sound_charge (bytes : ℕ) : Sound L (fun _ => True) (charge bytes) := by
  refine sound_of_locals (fun f => ?_) fun f => ⟨?_, fun _ _ => trivial⟩
  all_goals
    unfold charge
    dsimp only
    split_ifs <;> trivial

/-- Nor any change of the frame that leaves the locals. -/
theorem sound_modify {g : Frame → Frame} (hg : ∀ f, (g f).locals = f.locals) :
    Sound L (fun _ => True) (.modify g) :=
  sound_of_locals hg fun _ => ⟨trivial, fun _ _ => trivial⟩

/-- Nor a string that is built. -/
theorem sound_buildBuffer (bytes : ℕ) : Sound L (fun _ => True) (buildBuffer bytes) :=
  sound_of_locals (fun _ => rfl) fun _ => ⟨trivial, fun _ _ => trivial⟩

/-- Nor the charge for a result. -/
theorem sound_chargeResult (built : Bool) (v : Value) :
    Sound L (fun _ => True) (chargeResult host built v) := by
  unfold chargeResult
  split_ifs
  · exact (sound_buildBuffer _).bind fun _ _ => sound_charge _
  · exact sound_charge _

/-- Nor the spine of a list. -/
theorem sound_buildSpine (n : ℕ) : Sound L (fun _ => True) (buildSpine host n) :=
  (sound_buildBuffer _).bind fun _ _ => sound_modify fun _ => rfl

/-- A slot that is there holds a value in its bounds. -/
theorem sound_readLocal {i : UInt16} {r : Bounds} (h : L[i.toNat]? = some r) :
    Sound L (InBounds r) (readLocal i) := by
  intro f hf
  have hi : i.toNat < f.locals.length := by
    rw [hf.length]
    exact (List.getElem?_eq_some_iff.mp h).1
  have hv := List.getElem?_eq_getElem hi
  have hr := hf.inBounds _ _ r hv h
  refine ⟨?_, ?_⟩
  · simp [readLocal, hv]
  · rintro a f' heq
    simp only [readLocal, hv, Outcome.unwrap_some, Prod.mk.injEq] at heq
    obtain ⟨ha, rfl⟩ := heq
    obtain rfl := Outcome.ok.inj ha
    exact ⟨hr, hf.length, hf.inBounds⟩

/-! ### One node of the tree -/

/-- An operation that is recorded does not touch the locals. -/
theorem sound_recorded {α : Type} {value : α → Prop} {o : Operation} {m : Run α}
    (h : Sound L value m) : Sound L value (recorded o m) :=
  have hrecord : Sound L (fun _ => True) (record o) :=
    sound_of_locals (fun _ => rfl) fun _ => ⟨trivial, fun _ _ => trivial⟩
  hrecord.bind fun _ _ => h

/-- With bounds for it, negation is evaluated without a fault. -/
theorem sound_evalNegate {r t : Bounds} {v : Value} (hv : InBounds r v) (h : negBounds r = some t) :
    Sound L (InBounds t) (evalNegate v) := by
  obtain ⟨hr, hw⟩ := inBounds_negate hv h
  exact sound_recorded (Returning.lift hr hw)

/-- An operation of two values is evaluated without a fault, by the bounds of its operands. -/
theorem sound_evalBin {op : BinOp} {r s t : Bounds} {x y : Value} (hx : InBounds r x)
    (hy : InBounds s y) (h : binBounds op r s = some t) :
    Sound L (InBounds t) (evalBin host op x y) := by
  have hop : Sound L (InBounds t) (.lift (numBinop op x y)) :=
    Returning.lift (returns_numBinop hx hy h) fun v hv => inBounds_numBinop hx hy h hv
  refine (sound_recorded hop).bind fun v hv => ?_
  exact (sound_chargeResult _ v).bind fun _ _ => Returning.pure hv

/-- So is a call, where the host keeps the bounds of its answers. -/
theorem sound_evalCall (hH : H.Hold host) {b : Builtin} {r t : Bounds} {vals : List Value}
    (hvals : ∀ w ∈ vals, InBounds r w) (h : callBounds H.json b r = some t) :
    Sound L (InBounds t) (evalCall host b vals) := by
  have hcall : Sound L (InBounds t) (liftEffect (dispatch host host.actuator b vals)) :=
    sound_of_locals (fun _ => rfl) fun f =>
      ⟨(dispatch_returns_iff host host.actuator b vals f.events).mpr (call_not_faults hvals h),
        fun v hv => inBounds_dispatch hH hvals h hv⟩
  refine (sound_recorded hcall).bind fun v hv => ?_
  exact (sound_chargeResult _ v).bind fun _ _ => Returning.pure hv

/-- The items of a list are in the bounds of the list. -/
theorem sound_evalList {r : Bounds} {vals : List Value} (hvals : ∀ w ∈ vals, InBounds r w) :
    Sound L (InBounds ⟨r.ints, max vals.length r.len⟩) (evalList host vals) := by
  have hlist : InBounds ⟨r.ints, max vals.length r.len⟩ (.list vals) :=
    .list (le_max_left _ _) fun w hw => by
      apply (hvals w hw).mono
      · exact ⟨le_rfl, le_rfl⟩
      · exact le_max_right _ _
  refine (sound_charge _).bind fun _ _ => ?_
  refine (sound_modify ?_).bind fun _ _ => Returning.pure hlist
  exact fun _ => rfl

/-- What the host answers for a name is in the bounds that are known of it. -/
theorem sound_lookup (hH : H.Hold host) (name : String) :
    Sound L (InBounds (H.env name)) (liftEffect (lookup host name)) := by
  refine sound_of_locals (fun _ => rfl) fun f => ?_
  change (lookup host name f.events).1.Returns ∧
    ∀ v, (lookup host name f.events).1 = .ok v → InBounds (H.env name) v
  rcases hfound : host.env f.events name with _ | w
  · simp [lookup, perform, hfound]
  · have hw := hH.env _ _ _ hfound
    simpa [lookup, perform, hfound] using hw

/-- **A slot that is there** is written, and its bounds with it. -/
theorem returning_storeLocal {i : UInt16} {v : Value} {r : Bounds} (hi : i.toNat < L.length)
    (hv : InBounds r v) :
    Returning (Fits L) (fun _ => True) (Fits (L.set i.toNat r)) (storeLocal i v) := by
  intro f hf
  have hlt : i.toNat < f.locals.length := by
    rw [hf.length]
    exact hi
  simp only [storeLocal, hlt, if_true]
  refine ⟨trivial, ?_⟩
  rintro _ f' ⟨⟩
  refine ⟨trivial, ?_, fun j w s hw hs => ?_⟩
  · simp only [List.length_set]
    exact hf.length
  · dsimp only at hw
    rw [List.getElem?_set] at hw hs
    split_ifs at hw hs
    · obtain rfl := Option.some.inj hw
      obtain rfl := Option.some.inj hs
      exact hv
    · exact hf.inBounds j w s hw hs

/-! ### All nodes -/

/-- An item of a list lies in the bounds of the list. -/
theorem inBounds_index {r : Bounds} {list idx v : Value} (h : InBounds r list)
    (hv : index list idx = .ok v) : InBounds r v := by
  cases list with
  | list items =>
    obtain ⟨-, hitems⟩ := h.items
    cases idx with
    | int i =>
      unfold index at hv
      dsimp only at hv
      generalize (if i < 0 then (items.length : ℤ) + i.toInt else i.toInt) = real at hv
      by_cases hreal : real < 0
      · rw [if_pos hreal] at hv
        cases hv
      · rw [if_neg hreal] at hv
        rcases hw : items[real.toNat]? with _ | w
        · rw [hw] at hv
          cases hv
        · rw [hw] at hv
          obtain rfl := Except.ok.inj hv
          exact hitems w (List.mem_of_getElem? hw)
    | _ => cases hv
  | _ => cases hv

mutual

/-- **Every expression that has bounds returns, with a value in them.** -/
theorem inBounds_eval (hH : H.Hold host) :
    ∀ {e : Expr} {t : Bounds}, boundsOf H L e = some t → Sound L (InBounds t) (eval host e)
  | .const v, t => fun h => by
    obtain rfl := Option.some.inj h
    exact sound_tick.bind fun _ _ => Returning.pure (inBounds_constBounds v)
  | .local i, t => fun h => sound_tick.bind fun _ _ => sound_readLocal h
  | .var name, t => fun h => by
    obtain rfl := Option.some.inj h
    exact sound_tick.bind fun _ _ => sound_lookup hH name
  | .bin op a b, t => fun h => by
    obtain ⟨r, hr, h⟩ := Option.bind_eq_some_iff.mp h
    obtain ⟨s, hs, h⟩ := Option.bind_eq_some_iff.mp h
    exact sound_tick.bind fun _ _ => (inBounds_eval hH hr).bind fun x hx =>
      (inBounds_eval hH hs).bind fun y hy => sound_evalBin hx hy h
  | .cmp op a b, t => fun h => by
    obtain ⟨r, hr, h⟩ := Option.bind_eq_some_iff.mp h
    obtain ⟨s, hs, h⟩ := Option.bind_eq_some_iff.mp h
    refine sound_tick.bind fun _ _ => (inBounds_eval hH hr).bind fun x hx =>
      (inBounds_eval hH hs).bind fun y hy => ?_
    refine Returning.lift (Outcome.returns_ofExcept _) fun v hv => ?_
    obtain ⟨c, -, rfl⟩ := exceptMap_eq_ok (ofExcept_eq_ok hv)
    exact .bool c
  | .bool op a b, t => fun h => by
    obtain ⟨r, hr, h⟩ := Option.bind_eq_some_iff.mp h
    obtain ⟨s, hs, h⟩ := Option.bind_eq_some_iff.mp h
    refine sound_tick.bind fun _ _ => (inBounds_eval hH hr).bind fun l hl => ?_
    split
    · exact Returning.pure (.bool _)
    · exact Returning.pure (.bool _)
    · exact (inBounds_eval hH hs).bind fun _ _ => Returning.pure (.bool _)
  | .unary op a, t => fun h => by
    obtain ⟨r, hr, h⟩ := Option.bind_eq_some_iff.mp h
    refine sound_tick.bind fun _ _ => (inBounds_eval hH hr).bind fun v hv => ?_
    cases op with
    | neg => exact sound_evalNegate hv h
    | not => exact Returning.pure (.bool _)
  | .index l i, t => fun h => by
    obtain ⟨r, hr, h⟩ := Option.bind_eq_some_iff.mp h
    obtain ⟨s, hs, h⟩ := Option.bind_eq_some_iff.mp h
    obtain rfl := Option.some.inj h
    refine sound_tick.bind fun _ _ => (inBounds_eval hH hr).bind fun list hlist =>
      (inBounds_eval hH hs).bind fun idx _ => ?_
    exact Returning.lift (Outcome.returns_ofExcept _) fun v hv =>
      inBounds_index hlist (ofExcept_eq_ok hv)
  | .ite c a b, t => fun h => by
    obtain ⟨_, hc, h⟩ := Option.bind_eq_some_iff.mp h
    obtain ⟨r, hr, h⟩ := Option.bind_eq_some_iff.mp h
    obtain ⟨s, hs, h⟩ := Option.bind_eq_some_iff.mp h
    obtain rfl := Option.some.inj h
    refine sound_tick.bind fun _ _ => (inBounds_eval hH hc).bind fun v _ => ?_
    cases asBool v
    · exact Returning.mono (inBounds_eval hH hs) fun w hw => hw.join_right r
    · exact Returning.mono (inBounds_eval hH hr) fun w hw => hw.join_left s
  | .call b args, t => fun h => by
    obtain ⟨r, hr, h⟩ := Option.bind_eq_some_iff.mp h
    exact sound_tick.bind fun _ _ => (inBounds_evalArgs hH hr).bind fun vals hvals =>
      sound_evalCall hH hvals.2 h
  | .list items, t => fun h => by
    obtain ⟨r, hr, h⟩ := Option.bind_eq_some_iff.mp h
    obtain rfl := Option.some.inj h
    refine sound_tick.bind fun _ _ => (sound_buildSpine _).bind fun _ _ =>
      (inBounds_evalArgs hH hr).bind fun vals hvals => ?_
    rw [← hvals.1]
    exact sound_evalList hvals.2

/-- Arguments and items lie in one bound. -/
theorem inBounds_evalArgs (hH : H.Hold host) :
    ∀ {es : List Expr} {t : Bounds}, boundsOfAll H L es = some t →
      Sound L (fun vals => vals.length = es.length ∧ ∀ v ∈ vals, InBounds t v) (evalArgs host es)
  | [], t => fun _ => Returning.pure ⟨rfl, nofun⟩
  | e :: es, t => fun h => by
    obtain ⟨r, hr, h⟩ := Option.bind_eq_some_iff.mp h
    obtain ⟨s, hs, h⟩ := Option.bind_eq_some_iff.mp h
    obtain rfl := Option.some.inj h
    refine (inBounds_eval hH hr).bind fun v hv => (inBounds_evalArgs hH hs).bind fun vs hvs => ?_
    refine Returning.pure ⟨by rw [List.length_cons, List.length_cons, hvs.1], ?_⟩
    rintro w hw
    rcases List.mem_cons.mp hw with rfl | hw
    · exact hv.join_left s
    · exact (hvs.2 w hw).join_right r

end

end Walk

/-! ## Programs -/

section Programs

variable {host : Host} {H : HostBounds}

/-- **The bindings of a program return one after the other**, each into a slot that exists and
with a value in its bounds; by induction on them. -/
theorem returning_runBody (hH : H.Hold host) {bs : List LetBinding} :
    ∀ {L L' : List Bounds}, bodyBounds H L bs = some L' →
      Returning (Fits L) (fun _ => True) (Fits L') (runBody host bs) := by
  induction bs with
  | nil =>
    intro L L' h
    obtain rfl := Option.some.inj h
    exact Returning.pure trivial
  | cons b bs ih =>
    intro L L' h
    obtain ⟨r, hr, h⟩ := Option.bind_eq_some_iff.mp h
    split_ifs at h with hslot
    exact (inBounds_eval hH hr).bind fun v hv =>
      (returning_storeLocal hslot hv).bind fun _ _ => ih h

/-- A run starts with zeros. -/
theorem fits_initialFrame (p : Program) (maxSteps maxBytes : UInt32) :
    Fits (List.replicate p.nLocals.toNat scalar) (initialFrame p maxSteps maxBytes) := by
  refine ⟨by simp [initialFrame], fun i v r hv hr => ?_⟩
  obtain rfl := List.eq_of_mem_replicate (List.mem_of_getElem? hv)
  obtain rfl := List.eq_of_mem_replicate (List.mem_of_getElem? hr)
  exact .int Span.mem_zero

/-- **A program that passes the check returns**, for every host whose answers lie in the bounds
and for all limits, and its value lies in the bounds of the program. -/
theorem runWith_returns (hH : H.Hold host) {p : Program} {r : Bounds}
    (hp : programBounds H p = some r) (maxSteps maxBytes : UInt32) :
    (runWith host p maxSteps maxBytes).1.Returns ∧
      ∀ v, (runWith host p maxSteps maxBytes).1 = .ok v → InBounds r v := by
  obtain ⟨L, hL, hret⟩ := Option.bind_eq_some_iff.mp hp
  have hrun : Returning (Fits _) (InBounds r) (Fits L) (runProgram host p) :=
    (returning_runBody hH hL).bind fun _ _ => inBounds_eval hH hret
  obtain ⟨hreturns, hvalue⟩ := hrun _ (fits_initialFrame p maxSteps maxBytes)
  refine ⟨hreturns, fun v hv => ?_⟩
  exact (hvalue v _ (Prod.ext hv rfl)).1

end Programs

/-- A host with a sensor: cold at first, and warm after it was read. -/
def sensorHost : Host :=
  { emptyHost with
    env := fun events name =>
      if name = "t" then some (.int (if events.length = 0 then -40 else 85)) else none }

/-- The sensor shows from -40 to 85 degrees. -/
def sensorBounds : HostBounds where
  env := fun _ => ⟨⟨40, 85⟩, 0⟩
  json := scalar

/-- The host of the example keeps its bounds. -/
theorem sensorBounds_hold : sensorBounds.Hold sensorHost := by
  refine ⟨fun events name v hv => ?_, nofun⟩
  dsimp only [sensorHost] at hv
  split_ifs at hv
  · obtain rfl := Option.some.inj hv
    have hcold : -(40 : ℤ) ≤ Int64.toInt (-40) ∧ Int64.toInt (-40) ≤ 85 := by decide
    exact .int hcold
  · obtain rfl := Option.some.inj hv
    have hwarm : -(40 : ℤ) ≤ Int64.toInt 85 ∧ Int64.toInt 85 ≤ 85 := by decide
    exact .int hwarm

/-- All operations that can fault, on readings of the sensor. -/
theorem runWith_returns_sensor :
    ∃ p, Parse.parse
        "let n = abs(t); let m = max([n, t]); 100 * sum([n, -m, 40 % t]) / (n + 1)" .rust = .ok p ∧
      (runWith sensorHost p defaultMaxSteps 4096).1.Returns ∧
      ∀ v, (runWith sensorHost p defaultMaxSteps 4096).1 = .ok v →
        InBounds ⟨⟨25500, 25500⟩, 0⟩ v := by
  have h : ((Parse.parse
      "let n = abs(t); let m = max([n, t]); 100 * sum([n, -m, 40 % t]) / (n + 1)"
      .rust).toOption.any fun p =>
        programBounds sensorBounds p = some ⟨⟨25500, 25500⟩, 0⟩) = true := by
    decide +kernel
  obtain ⟨p, hp, hbounds⟩ := (Option.any_eq_true _ _).mp h
  exact ⟨p, Outcome.toOption_eq_some.mp hp,
    runWith_returns sensorBounds_hold (of_decide_eq_true hbounds) defaultMaxSteps 4096⟩

end Eval
