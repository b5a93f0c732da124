/-
# The host of a reference, after RFC 3986

A reference that has an authority is `[ scheme ":" ] "//" authority`, followed by
nothing or by what begins with one of `/`, `?`, `#`; the authority is
`[ userinfo "@" ] host [ ":" port ]`.  A `Reference` carries these parts together
with the proofs that each is made of the characters the grammar gives it, and `text`
puts them back together, so that `HasHost url host` says what the host of a text is
without reading the text in any particular way.

Addresses in brackets are taken by their characters: how many groups or octets an IP
literal has does not matter here.
-/
import Mathlib.Data.List.Basic
import Mathlib.Data.List.DropRight
import PySpell.Lib.Split

namespace Uri

/-! ## Characters -/

/-- `gen-delims`. -/
def isGenDelim (c : Char) : Bool := c ∈ [':', '/', '?', '#', '[', ']', '@']

/-- `unreserved`. -/
def isUnreserved (c : Char) : Bool := c.isAlphanum || c ∈ ['-', '.', '_', '~']

/-- `sub-delims`. -/
def isSubDelim (c : Char) : Bool := c ∈ "!$&'()*+,;=".toList

def isHexDigit (c : Char) : Bool :=
  c.isDigit || ('a' ≤ c && c ≤ 'f') || ('A' ≤ c && c ≤ 'F')

/-- A text of unreserved characters, `pct-encoded` triplets, sub-delimiters and the
characters `extra` adds to them. -/
def isEncoded (extra : Char → Bool) : List Char → Bool
  | [] => true
  | '%' :: a :: b :: s => isHexDigit a && isHexDigit b && isEncoded extra s
  | c :: s => (isUnreserved c || isSubDelim c || extra c) && isEncoded extra s

theorem isGenDelim_iff (c : Char) :
    isGenDelim c = true ↔
      c = ':' ∨ c = '/' ∨ c = '?' ∨ c = '#' ∨ c = '[' ∨ c = ']' ∨ c = '@' := by
  simp [isGenDelim]

/-- The general delimiters are none of the other characters. -/
theorem not_isGenDelim_of_plain {c : Char} (h : (isUnreserved c || isSubDelim c) = true) :
    isGenDelim c = false := by
  rw [← Bool.not_eq_true, isGenDelim_iff]
  rintro (rfl | rfl | rfl | rfl | rfl | rfl | rfl) <;> revert h <;> decide +kernel

theorem not_isGenDelim_of_isHexDigit {c : Char} (h : isHexDigit c = true) :
    isGenDelim c = false := by
  rw [← Bool.not_eq_true, isGenDelim_iff]
  rintro (rfl | rfl | rfl | rfl | rfl | rfl | rfl) <;> revert h <;> decide +kernel

/-- Any general delimiter in such a text is one of the extra characters. -/
theorem extra_of_isEncoded {extra : Char → Bool} {s : List Char} (h : isEncoded extra s = true)
    {c : Char} (hc : c ∈ s) (hd : isGenDelim c = true) : extra c = true := by
  fun_induction isEncoded extra s with
  | case1 => cases hc
  | case2 a b s ih =>
    simp only [Bool.and_eq_true] at h
    obtain ⟨⟨ha, hb⟩, hs⟩ := h
    rcases List.mem_cons.mp hc with rfl | hc
    · exact absurd hd (by decide)
    rcases List.mem_cons.mp hc with rfl | hc
    · simp [not_isGenDelim_of_isHexDigit ha] at hd
    rcases List.mem_cons.mp hc with rfl | hc
    · simp [not_isGenDelim_of_isHexDigit hb] at hd
    · exact ih hs hc
  | case3 d s _ ih =>
    rw [Bool.and_eq_true] at h
    obtain ⟨hd', hs⟩ := h
    rcases List.mem_cons.mp hc with rfl | hc
    · by_cases hplain : (isUnreserved c || isSubDelim c) = true
      · rw [not_isGenDelim_of_plain hplain] at hd
        contradiction
      · rw [Bool.not_eq_true] at hplain
        simpa [hplain] using hd'
    · exact ih hs hc

/-! ## Names and subdomains -/

/-- A host name: not empty, and without a general delimiter. -/
def IsHostName (h : List Char) : Prop := h ≠ [] ∧ ∀ c ∈ h, isGenDelim c = false

/-- `host` is `domain` itself or a name below it. -/
def IsSubdomain (host domain : List Char) : Prop := host = domain ∨ ('.' :: domain) <:+ host

instance (host domain : List Char) : Decidable (IsSubdomain host domain) :=
  inferInstanceAs (Decidable (_ ∨ _))

theorem IsSubdomain.refl (host : List Char) : IsSubdomain host host := Or.inl rfl

theorem IsSubdomain.trans {a b c : List Char} (hab : IsSubdomain a b) (hbc : IsSubdomain b c) :
    IsSubdomain a c := by
  rcases hab with rfl | hab
  · exact hbc
  rcases hbc with rfl | hbc
  · exact Or.inr hab
  · exact Or.inr ((hbc.trans (List.suffix_cons '.' b)).trans hab)

/-- A prefix that ends in a general delimiter does not help a text to end in a name. -/
theorem suffix_append_delim {p s h : List Char} {d : Char} (hd : isGenDelim d = true)
    (hh : ∀ c ∈ h, isGenDelim c = false) : h <:+ p ++ d :: s ↔ h <:+ s := by
  constructor
  · intro hsuf
    rcases List.suffix_or_suffix_of_suffix hsuf (List.suffix_append p (d :: s)) with h1 | h1
    · rcases List.suffix_cons_iff.mp h1 with rfl | h1
      · exact absurd hd (by simp [hh d (by simp)])
      · exact h1
    · exact absurd hd (by simp [hh d (h1.subset (by simp))])
  · intro hsuf
    exact hsuf.trans ((List.suffix_cons d s).trans (List.suffix_append p (d :: s)))

/-! ### The widest name a text is below -/

/-- What follows the first dot. -/
def afterDot : List Char → List Char
  | [] => []
  | c :: s => if c = '.' then s else afterDot s

theorem afterDot_suffix (s : List Char) : afterDot s <:+ s := by
  induction s with
  | nil => exact List.suffix_refl []
  | cons c s ih =>
    rw [afterDot]
    split
    · exact List.suffix_cons c s
    · exact ih.trans (List.suffix_cons c s)

/-- A text ends in a dot and a name exactly if what follows its first dot is below
the name. -/
theorem dot_suffix_iff {h : List Char} (hne : h ≠ []) (s : List Char) :
    ('.' :: h) <:+ s ↔ IsSubdomain (afterDot s) h := by
  induction s with
  | nil => simp [afterDot, IsSubdomain, hne.symm]
  | cons c s ih =>
    rw [List.suffix_cons_iff, afterDot]
    by_cases hc : c = '.'
    · subst hc
      simp [IsSubdomain, eq_comm]
    · have hne' : ¬ '.' :: h = c :: s := fun he => hc (List.cons.inj he).1.symm
      rw [if_neg hc, ih]
      simp [hne']

/-- The widest name that a text is below: the text itself, if it is free of general
delimiters, and otherwise what follows the first dot behind its last one.  Empty
when there is no such name. -/
def widestName (s : List Char) : List Char :=
  if s.all fun c => !isGenDelim c then s else afterDot (s.rtakeWhile fun c => !isGenDelim c)

theorem not_isGenDelim_of_mem_widestName {s : List Char} {c : Char} (hc : c ∈ widestName s) :
    isGenDelim c = false := by
  unfold widestName at hc
  split at hc
  · next hall => simpa using List.all_eq_true.mp hall c hc
  · simpa using List.mem_rtakeWhile_imp ((afterDot_suffix _).subset hc)

/-- The text before a general delimiter plays no part. -/
theorem suffix_rtakeWhile_iff {h s : List Char} (hh : ∀ c ∈ h, isGenDelim c = false) :
    h <:+ s ↔ h <:+ s.rtakeWhile fun c => !isGenDelim c := by
  constructor
  · rintro ⟨t, rfl⟩
    have hrun : (t ++ h).rtakeWhile (fun c => !isGenDelim c) =
        t.rtakeWhile (fun c => !isGenDelim c) ++ h := by
      unfold List.rtakeWhile
      rw [List.reverse_append, List.takeWhile_append_of_pos (by simpa using hh)]
      simp
    rw [hrun]
    exact List.suffix_append _ h
  · intro hsuf
    exact hsuf.trans (List.rtakeWhile_suffix _ s)

/-- **The names a text is below are those its widest name is below.** -/
theorem isSubdomain_iff_widestName {h s : List Char} (hh : IsHostName h) :
    IsSubdomain s h ↔ IsSubdomain (widestName s) h := by
  unfold widestName
  split
  · rfl
  · next hall =>
    have hne : s ≠ h := by
      rintro rfl
      exact hall (List.all_eq_true.mpr fun c hc => by simp [hh.2 c hc])
    have hdot : ∀ c ∈ '.' :: h, isGenDelim c = false := by
      intro c hc
      rcases List.mem_cons.mp hc with rfl | hc
      · decide
      · exact hh.2 c hc
    rw [← dot_suffix_iff hh.1, ← suffix_rtakeWhile_iff hdot]
    simp [IsSubdomain, hne]

/-- A text stands for its widest name: whatever follows from being below a name for
all names follows from the one. -/
theorem forall_isSubdomain_iff (s host : List Char) :
    (∀ h, IsHostName h → IsSubdomain s h → IsSubdomain host h) ↔
      (widestName s ≠ [] → IsSubdomain host (widestName s)) := by
  constructor
  · intro hall hne
    have hname : IsHostName (widestName s) :=
      ⟨hne, fun _ hc => not_isGenDelim_of_mem_widestName hc⟩
    exact hall _ hname ((isSubdomain_iff_widestName hname).mpr (IsSubdomain.refl _))
  · intro hw h hh hsub
    have hwh := (isSubdomain_iff_widestName hh).mp hsub
    have hne : widestName s ≠ [] := by
      intro he
      rw [he] at hwh
      rcases hwh with he | hsuf
      · exact hh.1 he.symm
      · simp at hsuf
    exact (hw hne).trans hwh

/-! ## References -/

/-- `host`: a registered name or IPv4 address, or an IP literal in brackets. -/
inductive IsHost : List Char → Prop
  | regName {s : List Char} (h : isEncoded (fun _ => false) s = true) : IsHost s
  | ipLiteral {s : List Char}
      (h : ∀ c ∈ s, (isUnreserved c || isSubDelim c || c = ':') = true) :
      IsHost ('[' :: (s ++ [']']))

/-- `scheme`. -/
def isScheme : List Char → Bool
  | [] => false
  | c :: s => c.isAlpha && s.all fun c => c.isAlphanum || c ∈ ['+', '-', '.']

/-- The parts of a reference with an authority. -/
structure Reference where
  scheme : Option (List Char)
  userinfo : Option (List Char)
  host : List Char
  port : Option (List Char)
  /-- path, query and fragment -/
  rest : List Char
  scheme_ok : ∀ s ∈ scheme, isScheme s = true
  userinfo_ok : ∀ u ∈ userinfo, isEncoded (· = ':') u = true
  host_ok : IsHost host
  port_ok : ∀ p ∈ port, ∀ c ∈ p, c.isDigit = true
  rest_ok : ∀ c ∈ rest.head?, c ∈ ['/', '?', '#']

namespace Reference

/-- The scheme and its colon. -/
def schemeText (r : Reference) : List Char := r.scheme.elim [] (· ++ [':'])

/-- The authority without its port. -/
def userHost (r : Reference) : List Char := r.userinfo.elim [] (· ++ ['@']) ++ r.host

/-- The colon and the port. -/
def portText (r : Reference) : List Char := r.port.elim [] (':' :: ·)

def text (r : Reference) : List Char :=
  r.schemeText ++ ('/' :: '/' :: (r.userHost ++ r.portText ++ r.rest))

/-! ### What the parts are made of -/

theorem colon_not_mem_of_isScheme {s : List Char} (h : isScheme s = true) : ':' ∉ s := by
  cases s with
  | nil => exact List.not_mem_nil
  | cons c s =>
    simp only [isScheme, Bool.and_eq_true, List.all_eq_true] at h
    intro hc
    rcases List.mem_cons.mp hc with rfl | hc
    · exact absurd h.1 (by decide)
    · exact absurd (h.2 _ hc) (by decide)

/-- A host holds no general delimiter but those of an IP literal. -/
theorem isHost_delim {s : List Char} (h : IsHost s) {c : Char} (hc : c ∈ s)
    (hd : isGenDelim c = true) : c ∈ ['[', ']', ':'] := by
  cases h with
  | regName h => exact absurd (extra_of_isEncoded h hc hd) (by decide)
  | ipLiteral h =>
    simp only [List.mem_cons, List.mem_append, List.not_mem_nil, or_false] at hc ⊢
    rcases hc with rfl | hc | rfl
    · exact Or.inl rfl
    · have hchar := h c hc
      rw [Bool.or_eq_true, decide_eq_true_iff] at hchar
      rcases hchar with hplain | rfl
      · rw [not_isGenDelim_of_plain hplain] at hd
        contradiction
      · exact Or.inr (Or.inr rfl)
    · exact Or.inr (Or.inl rfl)

theorem isUserinfo_delim {u : List Char} (h : isEncoded (· = ':') u = true) {c : Char}
    (hc : c ∈ u) (hd : isGenDelim c = true) : c = ':' := by
  simpa using extra_of_isEncoded h hc hd

/-- No slash, question mark or hash in an authority. -/
theorem not_mem_userHost (r : Reference) {c : Char} (hc : c ∈ ['/', '?', '#']) :
    c ∉ r.userHost := by
  have hd : isGenDelim c = true := by
    simp only [List.mem_cons, List.not_mem_nil, or_false] at hc
    rcases hc with rfl | rfl | rfl <;> decide
  have hno : c ≠ ':' ∧ c ≠ '@' ∧ c ∉ ['[', ']', ':'] := by
    simp only [List.mem_cons, List.not_mem_nil, or_false] at hc
    rcases hc with rfl | rfl | rfl <;> decide
  unfold userHost
  rw [List.mem_append]
  rintro (hu | hh)
  · cases h : r.userinfo with
    | none => simp [h] at hu
    | some u =>
      rw [h, Option.elim_some, List.mem_append, List.mem_singleton] at hu
      rcases hu with hu | hu
      · exact hno.1 (isUserinfo_delim (r.userinfo_ok u h) hu hd)
      · exact hno.2.1 hu
  · exact hno.2.2 (isHost_delim r.host_ok hh hd)

/-- A host name that the user information and host end in, the host ends in. -/
theorem isSubdomain_host {r : Reference} {h : List Char} (hh : IsHostName h)
    (hsub : IsSubdomain r.userHost h) : IsSubdomain r.host h := by
  unfold userHost at hsub
  cases hu : r.userinfo with
  | none => simpa [hu] using hsub
  | some u =>
    rw [hu, Option.elim_some, List.append_assoc, List.singleton_append] at hsub
    rcases hsub with heq | hsuf
    · exact absurd (hh.2 '@' (by simp [← heq])) (by decide)
    · have hdot : ∀ c ∈ '.' :: h, isGenDelim c = false := by
        intro c hc
        rcases List.mem_cons.mp hc with rfl | hc
        · decide
        · exact hh.2 c hc
      exact Or.inr ((suffix_append_delim (by decide) hdot).mp hsuf)

end Reference

/-- `host` is the host of the reference `url`. -/
def HasHost (url host : List Char) : Prop := ∃ r : Reference, r.text = url ∧ r.host = host

/-! ### The host is determined by the text -/

namespace Reference

theorem portText_head (r : Reference) : ∀ c ∈ r.portText.head?, c = ':' := by
  unfold portText
  cases r.port <;> simp

theorem not_mem_portText (r : Reference) {c : Char} (hc : c.isDigit = false) (hne : c ≠ ':') :
    c ∉ r.portText := by
  unfold portText
  cases hp : r.port with
  | none => simp
  | some p =>
    rw [Option.elim_some, List.mem_cons, not_or]
    refine ⟨hne, fun hmem => ?_⟩
    rw [r.port_ok p hp c hmem] at hc
    contradiction

/-- A host and the port behind it come apart in one way. -/
theorem host_eq_of_append {r r' : Reference}
    (h : r.host ++ r.portText = r'.host ++ r'.portText) : r.host = r'.host := by
  have hreg : ∀ {x : List Char}, isEncoded (fun _ => false) x = true →
      ∀ c ∈ x, isGenDelim c = false := by
    intro x hx c hc
    by_contra hd
    rw [Bool.not_eq_false] at hd
    exact absurd (extra_of_isEncoded hx hc hd) (by decide)
  -- a registered name does not begin with a bracket, nor does a port
  have hmixed : ∀ {x s : List Char} {q : Reference} {t : List Char},
      isEncoded (fun _ => false) x = true → x ++ q.portText = '[' :: s ++ t → False := by
    intro x s q t hx heq
    cases x with
    | nil =>
      have hhead := q.portText_head '[' (by simp [show q.portText = _ from heq])
      exact absurd hhead (by decide)
    | cons c x =>
      have hc : c = '[' := (List.cons.inj heq).1
      exact absurd (hreg hx c (by simp)) (by rw [hc]; decide)
  have hport : ∀ (q : Reference), ∀ c ∈ q.portText.head?, (c != ':') = false := by
    intro q c hc
    simp [q.portText_head c hc]
  have hhost := r.host_ok
  have hhost' := r'.host_ok
  generalize hx : r.host = x at hhost h ⊢
  generalize hx' : r'.host = x' at hhost' h ⊢
  cases hhost with
  | regName hr =>
    cases hhost' with
    | regName hr' =>
      have hno : ∀ {y : List Char}, isEncoded (fun _ => false) y = true →
          ∀ c ∈ y, (c != ':') = true := by
        intro y hy c hc
        rw [bne_iff_ne]
        rintro rfl
        exact absurd (hreg hy _ hc) (by decide)
      exact (Split.append_unique (hno hr) (hport r) (hno hr') (hport r') h).1
    | ipLiteral => exact (hmixed hr h).elim
  | @ipLiteral s hs =>
    cases hhost' with
    | regName hr' => exact (hmixed hr' h.symm).elim
    | @ipLiteral s' hs' =>
      have hno : ∀ {y : List Char},
          (∀ c ∈ y, (isUnreserved c || isSubDelim c || c = ':') = true) →
          ∀ c ∈ y, (c != ']') = true := by
        intro y hy c hc
        rw [bne_iff_ne]
        rintro rfl
        exact absurd (hy _ hc) (by decide)
      have hcons : s ++ (']' :: r.portText) = s' ++ (']' :: r'.portText) := by
        simpa using h
      have hends : ∀ t : List Char, ∀ c ∈ (']' :: t).head?, (c != ']') = false := by simp
      rw [(Split.append_unique (hno hs) (hends _) (hno hs') (hends _) hcons).1]

/-- Neither a host nor a port holds an at sign. -/
theorem at_not_mem (r : Reference) : '@' ∉ r.host ++ r.portText := by
  rw [List.mem_append, not_or]
  exact ⟨fun hc => absurd (isHost_delim r.host_ok hc (by decide)) (by decide),
    r.not_mem_portText (by decide) (by decide)⟩

/-- The user information and the authority behind it come apart in one way. -/
theorem host_eq_of_authority {r r' : Reference}
    (h : r.userHost ++ r.portText = r'.userHost ++ r'.portText) : r.host = r'.host := by
  have hno : ∀ {u : List Char}, isEncoded (· = ':') u = true → ∀ c ∈ u, (c != '@') = true := by
    intro u hu c hc
    rw [bne_iff_ne]
    rintro rfl
    exact absurd (isUserinfo_delim hu hc (by decide)) (by decide)
  have hends : ∀ t : List Char, ∀ c ∈ ('@' :: t).head?, (c != '@') = false := by simp
  apply host_eq_of_append
  unfold userHost at h
  cases hu : r.userinfo with
  | none =>
    cases hu' : r'.userinfo with
    | none => simpa [hu, hu'] using h
    | some u' =>
      have hat : '@' ∈ r.host ++ r.portText := by
        have heq : r.host ++ r.portText = u' ++ ['@'] ++ r'.host ++ r'.portText := by
          simpa [hu, hu'] using h
        rw [heq]
        simp
      exact absurd hat r.at_not_mem
  | some u =>
    cases hu' : r'.userinfo with
    | none =>
      have hat : '@' ∈ r'.host ++ r'.portText := by
        have heq : u ++ ['@'] ++ r.host ++ r.portText = r'.host ++ r'.portText := by
          simpa [hu, hu'] using h
        rw [← heq]
        simp
      exact absurd hat r'.at_not_mem
    | some u' =>
      have heq : u ++ ('@' :: (r.host ++ r.portText)) =
          u' ++ ('@' :: (r'.host ++ r'.portText)) := by
        simpa [hu, hu'] using h
      have hcut := Split.append_unique (hno (r.userinfo_ok u hu)) (hends _)
        (hno (r'.userinfo_ok u' hu')) (hends _) heq
      exact (List.cons.inj hcut.2).2

/-- The scheme and what follows it come apart in one way. -/
theorem behind_scheme_eq {r r' : Reference} (h : r.text = r'.text) :
    r.userHost ++ r.portText ++ r.rest = r'.userHost ++ r'.portText ++ r'.rest := by
  -- a scheme begins with a letter, so only a reference without one begins with a slash
  have hslash : ∀ {s t t' : List Char}, isScheme s = true → '/' :: t ≠ s ++ t' := by
    intro s t t' hs heq
    cases s with
    | nil => simp [isScheme] at hs
    | cons c s =>
      have hc : '/' = c := (List.cons.inj heq).1
      rw [← hc] at hs
      simp [isScheme] at hs
  have hno : ∀ {s : List Char}, isScheme s = true → ∀ c ∈ s, (c != ':') = true := by
    intro s hs c hc
    rw [bne_iff_ne]
    rintro rfl
    exact colon_not_mem_of_isScheme hs hc
  have hends : ∀ t : List Char, ∀ c ∈ (':' :: t).head?, (c != ':') = false := by simp
  unfold text schemeText at h
  cases hs : r.scheme with
  | none =>
    cases hs' : r'.scheme with
    | none => simpa [hs, hs'] using h
    | some s' =>
      rw [hs, hs', Option.elim_none, List.nil_append, Option.elim_some,
        List.append_assoc, List.append_assoc] at h
      exact absurd h (hslash (r'.scheme_ok s' hs'))
  | some s =>
    cases hs' : r'.scheme with
    | none =>
      rw [hs, hs', Option.elim_none, List.nil_append, Option.elim_some,
        List.append_assoc] at h
      exact absurd h.symm (hslash (r.scheme_ok s hs))
    | some s' =>
      have heq : s ++ (':' :: '/' :: '/' :: (r.userHost ++ r.portText ++ r.rest)) =
          s' ++ (':' :: '/' :: '/' :: (r'.userHost ++ r'.portText ++ r'.rest)) := by
        simpa [hs, hs'] using h
      have hcut := Split.append_unique (hno (r.scheme_ok s hs)) (hends _)
        (hno (r'.scheme_ok s' hs')) (hends _) heq
      simpa using hcut.2

end Reference

/-- **A text has one host at most.** -/
theorem HasHost.unique {url host host' : List Char} (h : HasHost url host)
    (h' : HasHost url host') : host = host' := by
  obtain ⟨r, hr, rfl⟩ := h
  obtain ⟨r', hr', rfl⟩ := h'
  apply Reference.host_eq_of_authority
  -- the authority ends at the first slash, question mark or hash
  have hin : ∀ q : Reference, ∀ c ∈ q.userHost ++ q.portText,
      (decide (c ∉ ['/', '?', '#'])) = true := by
    intro q c hc
    rw [decide_eq_true_iff]
    intro hmem
    rcases List.mem_append.mp hc with hc | hc
    · exact q.not_mem_userHost hmem hc
    · refine q.not_mem_portText ?_ ?_ hc
      · simp only [List.mem_cons, List.not_mem_nil, or_false] at hmem
        rcases hmem with rfl | rfl | rfl <;> decide
      · rintro rfl
        exact absurd hmem (by decide)
  have hout : ∀ q : Reference, ∀ c ∈ q.rest.head?, decide (c ∉ ['/', '?', '#']) = false := by
    intro q c hc
    rw [decide_eq_false_iff_not, not_not]
    exact q.rest_ok c hc
  exact (Split.append_unique (hin r) (hout r) (hin r') (hout r')
    (Reference.behind_scheme_eq (hr.trans hr'.symm))).1

end Uri
