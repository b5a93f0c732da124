/-
# JSON documents

A JSON text with all that the grammar leaves open: the whitespace, the form of the
numbers, the escapes of the strings.  `Doc.text` writes it down, and every JSON value is
the text of a document (`exists_doc`).  `Doc.tree` forgets the form, and `Tree.follow`
looks up a path in what is left.
-/
import PySpell.Lib.JsonString

namespace JsonGrammar

/-! ## Numbers -/

abbrev Blank := { w : List Char // w.all isWs = true }
abbrev Digits := { l : List Char // isDigits l = true }
abbrev Whole := { l : List Char // isInt l = true }

/-- The exponent of a number: its mark, its sign if there is one, and its digits. -/
structure Expo where
  upper : Bool
  sign : Option Bool
  digits : Digits

/-- A number. -/
structure Number where
  neg : Bool
  whole : Whole
  frac : Option Digits
  expo : Option Expo

namespace Number

def signText (n : Number) : List Char := if n.neg then ['-'] else []

def fracText (n : Number) : List Char := n.frac.elim [] fun d => '.' :: d.1

def expoText (n : Number) : List Char := n.expo.elim [] fun e =>
  (if e.upper then 'E' else 'e') ::
    e.sign.elim [] (fun s => [if s then '-' else '+']) ++ e.digits.1

def text (n : Number) : List Char := n.signText ++ n.whole.1 ++ n.fracText ++ n.expoText

/-- A number without a fraction and an exponent. -/
def isInteger (n : Number) : Bool := n.frac.isNone && n.expo.isNone

end Number

theorem digits_all (d : Digits) : d.1 ≠ [] ∧ d.1.all Char.isDigit = true := by
  obtain ⟨l, h⟩ := d
  rw [isDigits, Bool.and_eq_true, decide_eq_true_iff] at h
  exact h

theorem whole_all (w : Whole) : w.1 ≠ [] ∧ w.1.all Char.isDigit = true := by
  obtain ⟨l, h⟩ := w
  unfold isInt at h
  split at h
  · exact ⟨by simp, rfl⟩
  · next c t _ =>
    rw [Bool.and_eq_true, Bool.and_eq_true] at h
    exact ⟨by simp, by simp [h.1.2, h.2]⟩
  · cases h

theorem expoText_head (n : Number) : n.expoText = [] ∨ ∃ c t, n.expoText = c :: t ∧
    (c = 'e' ∨ c = 'E') := by
  rw [Number.expoText]
  cases n.expo with
  | none => exact .inl rfl
  | some e => exact .inr ⟨_, _, rfl, by cases e.upper <;> decide⟩

/-- What is true of digits, signs, the point and the marks is true of all of a number. -/
theorem Number.forall_mem_text {p : Char → Prop} (hdigit : ∀ {c : Char}, c.isDigit = true → p c)
    (hminus : p '-') (hplus : p '+') (hpoint : p '.') (he : p 'e') (hE : p 'E') (n : Number) :
    ∀ c ∈ n.text, p c := by
  intro c hc
  have hdigits : ∀ {l : List Char}, l.all Char.isDigit = true → c ∈ l → p c :=
    fun h hc => hdigit (List.all_eq_true.mp h c hc)
  simp only [Number.text, List.mem_append] at hc
  rcases hc with ((hc | hc) | hc) | hc
  · unfold Number.signText at hc
    split at hc
    · exact List.mem_singleton.mp hc ▸ hminus
    · cases hc
  · exact hdigits (whole_all n.whole).2 hc
  · unfold Number.fracText at hc
    cases hf : n.frac with
    | none => rw [hf] at hc; cases hc
    | some d =>
      rw [hf] at hc
      rcases List.mem_cons.mp hc with rfl | hc
      · exact hpoint
      · exact hdigits (digits_all d).2 hc
  · unfold Number.expoText at hc
    cases hexpo : n.expo with
    | none => rw [hexpo] at hc; cases hc
    | some e =>
      rw [hexpo] at hc
      rcases List.mem_cons.mp hc with rfl | hc
      · cases e.upper with
        | false => exact he
        | true => exact hE
      · rcases List.mem_append.mp hc with hc | hc
        · cases hs : e.sign with
          | none => rw [hs] at hc; cases hc
          | some s =>
            rw [hs] at hc
            obtain rfl := List.mem_singleton.mp hc
            cases s with
            | false => exact hplus
            | true => exact hminus
        · exact hdigits (digits_all e.digits).2 hc

/-! ## Documents -/

mutual

/-- A value. -/
inductive Doc where
  | null
  | bool (b : Bool)
  | number (n : Number)
  | string (s : List Piece)
  | emptyArray (w : Blank)
  | array (items : Items)
  | emptyObject (w : Blank)
  | object (members : Members)

/-- The elements of an array, with the whitespace around them. -/
inductive Items where
  | last (before : Blank) (d : Doc) (after : Blank)
  | cons (before : Blank) (d : Doc) (after : Blank) (rest : Items)

/-- The members of an object, with the whitespace around keys and values. -/
inductive Members where
  | last (before : Blank) (key : List Piece) (mid : Blank) (gap : Blank) (d : Doc)
      (after : Blank)
  | cons (before : Blank) (key : List Piece) (mid : Blank) (gap : Blank) (d : Doc)
      (after : Blank) (rest : Members)

end

/-- A key and its colon. -/
def keyText (before : Blank) (key : List Piece) (mid gap : Blank) : List Char :=
  before.1 ++ ('"' :: encode key ++ ['"']) ++ mid.1 ++ ':' :: gap.1

mutual

/-- The text of a value. -/
def Doc.text : Doc → List Char
  | .null => "null".toList
  | .bool true => "true".toList
  | .bool false => "false".toList
  | .number n => n.text
  | .string s => '"' :: encode s ++ ['"']
  | .emptyArray w => '[' :: w.1 ++ [']']
  | .array items => '[' :: items.text ++ [']']
  | .emptyObject w => '\x7b' :: w.1 ++ ['\x7d']
  | .object members => '\x7b' :: members.text ++ ['\x7d']

def Items.text : Items → List Char
  | .last before d after => before.1 ++ d.text ++ after.1
  | .cons before d after rest => before.1 ++ d.text ++ after.1 ++ ',' :: rest.text

def Members.text : Members → List Char
  | .last before key mid gap d after => keyText before key mid gap ++ d.text ++ after.1
  | .cons before key mid gap d after rest =>
    keyText before key mid gap ++ d.text ++ after.1 ++ ',' :: rest.text

end

/-! ## What a document says -/

/-- A value without its form; the numbers stay as they are written. -/
inductive Tree where
  | null
  | bool (b : Bool)
  | number (n : Number)
  | string (s : String)
  | array (l : List Tree)
  | object (l : List (String × Tree))

mutual

def Doc.tree : Doc → Tree
  | .null => .null
  | .bool b => .bool b
  | .number n => .number n
  | .string s => .string (String.ofList (decode s))
  | .emptyArray _ => .array []
  | .array items => .array items.trees
  | .emptyObject _ => .object []
  | .object members => .object members.pairs

def Items.trees : Items → List Tree
  | .last _ d _ => [d.tree]
  | .cons _ d _ rest => d.tree :: rest.trees

def Members.pairs : Members → List (String × Tree)
  | .last _ key _ _ d _ => [(String.ofList (decode key), d.tree)]
  | .cons _ key _ _ d _ rest => (String.ofList (decode key), d.tree) :: rest.pairs

end

/-- One step down: the first member with the key, or the element with the index. -/
def Tree.child (index : String → Option ℕ) (comp : String) : Tree → Option Tree
  | .object l => l.lookup comp
  | .array l => (index comp).bind fun i => l[i]?
  | _ => none

/-- The value at the end of a path. -/
def Tree.follow (index : String → Option ℕ) (t : Tree) (comps : List String) : Option Tree :=
  comps.foldlM (fun t comp => t.child index comp) t

/-! ## The texts are those of the grammar -/

/-- The rest of a list from the first element with a property. -/
theorem dropWhile_cases {α : Type*} (p : α → Bool) (l : List α) :
    l.dropWhile p = [] ∨ ∃ x t, l.dropWhile p = x :: t ∧ p x = false := by
  have hhead := List.head?_dropWhile_not p l
  cases h : l.dropWhile p with
  | nil => exact .inl rfl
  | cons x t =>
    rw [h] at hhead
    exact .inr ⟨x, t, rfl, by simpa using hhead⟩

/-- What follows the exponent mark is a sign, if there is one, and digits. -/
theorem exists_sign {l : List Char} (h : isExp l = true) :
    ∃ (sign : Option Bool) (d : Digits),
      sign.elim [] (fun s => [if s then '-' else '+']) ++ d.1 = l := by
  unfold isExp at h
  split at h
  · next t => exact ⟨some false, ⟨t, h⟩, rfl⟩
  · next t => exact ⟨some true, ⟨t, h⟩, rfl⟩
  · exact ⟨none, ⟨l, h⟩, rfl⟩

theorem exists_number {l : List Char} (h : isNumber l = true) : ∃ n : Number, n.text = l := by
  unfold isNumber at h
  dsimp only at h
  have hsign : (if decide (l.head? = some '-') then ['-'] else []) ++
      (if l.head? = some '-' then l.tail else l) = l := by
    by_cases hneg : l.head? = some '-'
    · rw [if_pos (decide_eq_true hneg), if_pos hneg]
      cases l with
      | nil => cases hneg
      | cons c l =>
        obtain rfl : c = '-' := Option.some.inj hneg
        rfl
    · rw [if_neg (by simpa using hneg), if_neg hneg, List.nil_append]
  generalize (if l.head? = some '-' then l.tail else l) = u at h hsign
  -- the mantissa and the exponent, the whole part and the fraction
  have hu := List.takeWhile_append_dropWhile (p := fun c => c ≠ 'e' && c ≠ 'E') (l := u)
  have hrest := dropWhile_cases (fun c => c ≠ 'e' && c ≠ 'E') u
  generalize u.takeWhile (fun c => c ≠ 'e' && c ≠ 'E') = m at h hu
  generalize u.dropWhile (fun c => c ≠ 'e' && c ≠ 'E') = rest at h hu hrest
  have hm := List.takeWhile_append_dropWhile (p := fun c => decide (c ≠ '.')) (l := m)
  have hfrac := dropWhile_cases (fun c => decide (c ≠ '.')) m
  generalize m.takeWhile (fun c => decide (c ≠ '.')) = w at h hm
  generalize m.dropWhile (fun c => decide (c ≠ '.')) = f at h hm hfrac
  simp only [Bool.and_eq_true, Bool.or_eq_true, decide_eq_true_eq] at h
  obtain ⟨⟨hwhole, hf⟩, he⟩ := h
  have hfrac' : ∃ d : Option Digits, d.elim [] (fun d => '.' :: d.1) = f := by
    rcases hfrac with rfl | ⟨x, t, rfl, hx⟩
    · exact ⟨none, rfl⟩
    · obtain rfl : x = '.' := by simpa using hx
      exact ⟨some ⟨t, hf.resolve_left (by simp)⟩, rfl⟩
  have hexpo' : ∃ e : Option Expo, e.elim [] (fun e => (if e.upper then 'E' else 'e') ::
      e.sign.elim [] (fun s => [if s then '-' else '+']) ++ e.digits.1) = rest := by
    rcases hrest with rfl | ⟨x, t, rfl, hx⟩
    · exact ⟨none, rfl⟩
    · obtain ⟨sign, d, rfl⟩ := exists_sign (he.resolve_left (by simp))
      have hmark : x = 'e' ∨ x = 'E' := by
        by_contra hne
        simp [not_or.mp hne] at hx
      rcases hmark with rfl | rfl
      · exact ⟨some ⟨false, sign, d⟩, rfl⟩
      · exact ⟨some ⟨true, sign, d⟩, rfl⟩
  obtain ⟨d, rfl⟩ := hfrac'
  obtain ⟨e, rfl⟩ := hexpo'
  generalize decide (l.head? = some '-') = neg at hsign
  refine ⟨⟨neg, ⟨w, hwhole⟩, d, e⟩, ?_⟩
  rw [← hsign, ← hu, ← hm]
  simp only [Number.text, Number.signText, Number.fracText, Number.expoText, List.append_assoc]

theorem exists_items (items : List Padded) (hne : items ≠ []) (hpad : ∀ e ∈ items, e.Blank)
    (h : ∀ e ∈ items, ∃ d : Doc, d.text = e.text) :
    ∃ l : Items, l.text = [','].intercalate (items.map Padded.chars) := by
  induction items with
  | nil => exact absurd rfl hne
  | cons e items ih =>
    obtain ⟨hbefore, hafter⟩ := hpad e List.mem_cons_self
    obtain ⟨d, hd⟩ := h e List.mem_cons_self
    cases items with
    | nil =>
      refine ⟨.last ⟨e.before, hbefore⟩ d ⟨e.after, hafter⟩, ?_⟩
      rw [Items.text, hd, List.map_singleton, List.intercalate_singleton, Padded.chars]
    | cons e' items =>
      obtain ⟨l, hl⟩ := ih (by simp) (fun x hx => hpad x (List.mem_cons_of_mem e hx))
        fun x hx => h x (List.mem_cons_of_mem e hx)
      refine ⟨.cons ⟨e.before, hbefore⟩ d ⟨e.after, hafter⟩ l, ?_⟩
      rw [Items.text, hd, hl, List.map_cons, List.map_cons, List.map_cons,
        List.intercalate_cons_cons]
      simp only [Padded.chars, List.append_assoc, List.cons_append, List.nil_append]

theorem exists_members (members : List (Padded × Padded)) (hne : members ≠ [])
    (hpad : ∀ e ∈ members, e.1.Blank ∧ e.2.Blank)
    (hkey : ∀ e ∈ members, ∃ k, isStringBody k ∧ e.1.text = '"' :: k ++ ['"'])
    (h : ∀ e ∈ members, ∃ d : Doc, d.text = e.2.text) :
    ∃ l : Members, l.text =
      [','].intercalate (members.map fun e => e.1.chars ++ ':' :: e.2.chars) := by
  induction members with
  | nil => exact absurd rfl hne
  | cons e members ih =>
    obtain ⟨⟨hbefore, hmid⟩, hgap, hafter⟩ := hpad e List.mem_cons_self
    obtain ⟨k, hk, hktext⟩ := hkey e List.mem_cons_self
    obtain ⟨ps, rfl⟩ := (isStringBody_iff k).mp hk
    obtain ⟨d, hd⟩ := h e List.mem_cons_self
    have hmember : keyText ⟨e.1.before, hbefore⟩ ps ⟨e.1.after, hmid⟩ ⟨e.2.before, hgap⟩ ++
        d.text ++ e.2.after = e.1.chars ++ ':' :: e.2.chars := by
      rw [keyText, hd, Padded.chars, Padded.chars, hktext]
      simp only [List.append_assoc, List.cons_append, List.nil_append]
    cases members with
    | nil =>
      refine ⟨.last ⟨e.1.before, hbefore⟩ ps ⟨e.1.after, hmid⟩ ⟨e.2.before, hgap⟩ d
        ⟨e.2.after, hafter⟩, ?_⟩
      rw [Members.text, hmember, List.map_singleton, List.intercalate_singleton]
    | cons e' members =>
      obtain ⟨l, hl⟩ := ih (by simp) (fun x hx => hpad x (List.mem_cons_of_mem e hx))
        (fun x hx => hkey x (List.mem_cons_of_mem e hx))
        fun x hx => h x (List.mem_cons_of_mem e hx)
      refine ⟨.cons ⟨e.1.before, hbefore⟩ ps ⟨e.1.after, hmid⟩ ⟨e.2.before, hgap⟩ d
        ⟨e.2.after, hafter⟩ l, ?_⟩
      rw [Members.text, hmember, hl, List.map_cons, List.map_cons, List.map_cons,
        List.intercalate_cons_cons]
      simp only [List.append_assoc, List.cons_append, List.nil_append]

/-- **Every value of the grammar is the text of a document.** -/
theorem exists_doc {l : List Char} (h : IsValue l) : ∃ d : Doc, d.text = l := by
  induction h with
  | literal h =>
    rcases h with rfl | rfl | rfl
    · exact ⟨.null, rfl⟩
    · exact ⟨.bool true, rfl⟩
    · exact ⟨.bool false, rfl⟩
  | number h =>
    obtain ⟨n, hn⟩ := exists_number h
    exact ⟨.number n, hn⟩
  | string h =>
    obtain ⟨ps, rfl⟩ := (isStringBody_iff _).mp h
    exact ⟨.string ps, rfl⟩
  | emptyArray hw => exact ⟨.emptyArray ⟨_, hw⟩, rfl⟩
  | array items hne hpad _ ih =>
    obtain ⟨l, hl⟩ := exists_items items hne hpad ih
    exact ⟨.array l, by rw [Doc.text, hl, bracketed]⟩
  | emptyObject hw => exact ⟨.emptyObject ⟨_, hw⟩, rfl⟩
  | object members hne hpad hkey _ ih =>
    obtain ⟨l, hl⟩ := exists_members members hne hpad hkey ih
    exact ⟨.object l, by rw [Doc.text, hl, bracketed]⟩

/-! ## Looking up in a document -/

def Items.get? : Items → ℕ → Option Doc
  | .last _ d _, 0 => some d
  | .last _ _ _, _ + 1 => none
  | .cons _ d _ _, 0 => some d
  | .cons _ _ _ rest, i + 1 => rest.get? i

def Members.find? (name : String) : Members → Option Doc
  | .last _ key _ _ d _ => if String.ofList (decode key) = name then some d else none
  | .cons _ key _ _ d _ rest =>
    if String.ofList (decode key) = name then some d else rest.find? name

theorem Items.get?_trees (items : Items) (i : ℕ) :
    items.trees[i]? = (items.get? i).map Doc.tree := by
  induction i generalizing items with
  | zero => cases items <;> rfl
  | succ i ih =>
    cases items with
    | last before d after => rfl
    | cons before d after rest => exact ih rest

theorem Members.find?_pairs (name : String) :
    ∀ members : Members, members.pairs.lookup name = (members.find? name).map Doc.tree
  | .last _ key _ _ d _ => by
    rw [Members.pairs, Members.find?, List.lookup_cons]
    by_cases h : String.ofList (decode key) = name
    · rw [if_pos h, h, beq_self_eq_true]
      rfl
    · rw [if_neg h, beq_eq_false_iff_ne.mpr (Ne.symm h)]
      rfl
  | .cons _ key _ _ d _ rest => by
    rw [Members.pairs, Members.find?, List.lookup_cons]
    by_cases h : String.ofList (decode key) = name
    · rw [if_pos h, h, beq_self_eq_true]
      rfl
    · rw [if_neg h, beq_eq_false_iff_ne.mpr (Ne.symm h)]
      exact Members.find?_pairs name rest

/-- One step down in a document. -/
def Doc.child (index : String → Option ℕ) (comp : String) : Doc → Option Doc
  | .object members => members.find? comp
  | .array items => (index comp).bind items.get?
  | _ => none

def Doc.follow (index : String → Option ℕ) (d : Doc) (comps : List String) : Option Doc :=
  comps.foldlM (fun d comp => d.child index comp) d

theorem Doc.child_tree (index : String → Option ℕ) (comp : String) (d : Doc) :
    d.tree.child index comp = (d.child index comp).map Doc.tree := by
  cases d with
  | object members => exact members.find?_pairs comp
  | array items =>
    show (index comp).bind (fun i => items.trees[i]?) = ((index comp).bind items.get?).map Doc.tree
    cases index comp with
    | none => rfl
    | some i => exact items.get?_trees i
  | emptyArray w =>
    show (index comp).bind (fun i => ([] : List Tree)[i]?) = none
    cases index comp <;> rfl
  | _ => rfl

/-- **The tree of what a path leads to** is what it leads to in the tree. -/
theorem Doc.follow_tree (index : String → Option ℕ) (d : Doc) (comps : List String) :
    d.tree.follow index comps = (d.follow index comps).map Doc.tree := by
  induction comps generalizing d with
  | nil => rfl
  | cons comp comps ih =>
    show (d.tree.child index comp).bind (fun t => t.follow index comps) =
      ((d.child index comp).bind fun d => d.follow index comps).map Doc.tree
    rw [Doc.child_tree]
    cases d.child index comp with
    | none => rfl
    | some d' => exact ih d'

/-! ## Properties of all strings and numbers -/

section
variable (S : List Piece → Prop) (N : Number → Prop)

mutual

/-- All strings, keys among them, and all numbers have a property. -/
def Doc.Every : Doc → Prop
  | .number n => N n
  | .string s => S s
  | .array items => items.Every
  | .object members => members.Every
  | _ => True

def Items.Every : Items → Prop
  | .last _ d _ => d.Every
  | .cons _ d _ rest => d.Every ∧ rest.Every

def Members.Every : Members → Prop
  | .last _ key _ _ d _ => S key ∧ d.Every
  | .cons _ key _ _ d _ rest => S key ∧ d.Every ∧ rest.Every

end

variable {S N}

theorem Items.every_of_get? {items : Items} {i : ℕ} {d : Doc} (h : items.Every S N)
    (hd : items.get? i = some d) : d.Every S N := by
  induction i generalizing items with
  | zero =>
    cases items with
    | last before d' after =>
      obtain rfl := Option.some.inj hd
      exact h
    | cons before d' after rest =>
      obtain rfl := Option.some.inj hd
      exact h.1
  | succ i ih =>
    cases items with
    | last before d' after => cases hd
    | cons before d' after rest => exact ih h.2 hd

theorem Members.every_of_find? {name : String} {d : Doc} : ∀ {members : Members},
    members.Every S N → members.find? name = some d → d.Every S N
  | .last _ key _ _ d' _, h, hd => by
    rw [Members.find?] at hd
    split at hd
    · obtain rfl := Option.some.inj hd
      exact h.2
    · cases hd
  | .cons _ key _ _ d' _ rest, h, hd => by
    rw [Members.find?] at hd
    split at hd
    · obtain rfl := Option.some.inj hd
      exact h.2.1
    · exact Members.every_of_find? h.2.2 hd

theorem Doc.every_of_child {index : String → Option ℕ} {comp : String} {d d' : Doc}
    (h : d.Every S N) (hd : d.child index comp = some d') : d'.Every S N := by
  cases d with
  | array items =>
    obtain ⟨i, -, hi⟩ := Option.bind_eq_some_iff.mp hd
    exact Items.every_of_get? h hi
  | object members => exact Members.every_of_find? h hd
  | _ => cases hd

theorem Doc.every_of_follow {index : String → Option ℕ} {comps : List String} {d d' : Doc}
    (h : d.Every S N) (hd : d.follow index comps = some d') : d'.Every S N := by
  induction comps generalizing d with
  | nil =>
    obtain rfl := Option.some.inj hd
    exact h
  | cons comp comps ih =>
    obtain ⟨d₁, hchild, hrest⟩ := Option.bind_eq_some_iff.mp hd
    exact ih (Doc.every_of_child h hchild) hrest

end

end JsonGrammar
