/-
# The allowlist in front of `fetch`

Both hosts of the evaluator keep `fetch` to an allowlist of host names: the device in
`check_allowed` (`net.rs`), the command line in `HttpNet::fetch` (`main.rs`).  Both
cut the host out of the URL by hand, in the same way: what follows the first `://`,
up to the first slash or colon.

That text is the host of the URL, or the user information and the host, unless the
URL is of one of three kinds (`decoy`): it has no scheme, a colon stands in its
authority before the port, or a query or fragment follows its authority directly.
`admitted_host_iff` is the exact condition: the gates are kept by a URL, whatever
the allowlist, if and only if the text that a URL of these kinds shows them is below
no other name than its host is.
-/
import PySpell.Ir
import PySpell.Lib.Split
import PySpell.Lib.Uri

namespace Allowlist

open Split Uri

/-! ## The gates -/

/-- What stands between the scheme and the authority. -/
def schemeSep : List Char := "://".toList

/-- `url_host`, and the host that `check_allowed` cuts out in the same words. -/
def urlHost (url : String) : String :=
  let after := (nth (str schemeSep) 1 (some url.toList)).getD url.toList
  String.ofList ((nth (oneOf ['/', ':']) 0 (some after)).getD [])

/-- The host is on the list, or ends in a dot and a name of the list. -/
def onList (allow : List String) (host : String) : Bool :=
  allow.any fun h => host = h || ('.' :: h.toList).isSuffixOf host.toList

/-- `check_allowed`, with the list of the configuration as an argument. -/
def checkAllowed (allow : List String) (url : String) : Except DslError Unit :=
  let host := urlHost url
  if onList allow host then .ok () else .error (.net s!"host `{host}` not in allowlist")

/-- `DeviceNet::stream`: the blocks of the response, and the URLs that were handed to
the HTTP client, for which `client` stands. -/
def DeviceNet.stream (client : String → Except DslError (List (List UInt8)))
    (allow : List String) (url : String) :
    Except DslError (List (List UInt8)) × List String :=
  match checkAllowed allow url with
  | .error e => (.error e, [])
  | .ok () =>
    -- `CString::new`
    if url.toList.contains (Char.ofNat 0) then (.error (.net "bad url"), [])
    else (client url, [url])

/-- `HttpNet::fetch`, with the URLs that were handed to the HTTP client.  `get` is the
client: the error of its call, or that of reading the body, or the body. -/
def HttpNet.fetch (get : String → Except String (Except String String))
    (allow : List String) (url : String) : Except DslError String × List String :=
  let host := urlHost url
  if !onList allow host then
    (.error (.net s!"host `{host}` not allowed (use --allow-host {host})"), [])
  else
    match get url with
    | .error e => (.error (.net e), [url])
    | .ok (.error e) => (.error (.net s!"read body: {e}"), [url])
    | .ok (.ok body) => (.ok body, [url])

/-- The host is allowed: it is a name of the list, or below one. -/
def Allowed (allow : List String) (host : List Char) : Prop :=
  ∃ h ∈ allow, IsSubdomain host h.toList

theorem onList_iff (allow : List String) (host : String) :
    onList allow host = true ↔ Allowed allow host.toList := by
  simp only [onList, List.any_eq_true, Bool.or_eq_true, decide_eq_true_iff,
    List.isSuffixOf_iff_suffix, Allowed, IsSubdomain]
  simp only [String.toList_inj]

/-- Both gates let a URL through exactly if the text they cut out is allowed. -/
theorem checkAllowed_iff (allow : List String) (url : String) :
    checkAllowed allow url = .ok () ↔ Allowed allow (urlHost url).toList := by
  rw [← onList_iff, checkAllowed]
  by_cases h : onList allow (urlHost url) = true
  · simp [h]
  · simp [h]

theorem mem_fetch_iff (get : String → Except String (Except String String))
    (allow : List String) (url : String) :
    url ∈ (HttpNet.fetch get allow url).2 ↔ Allowed allow (urlHost url).toList := by
  rw [← onList_iff, HttpNet.fetch]
  by_cases h : onList allow (urlHost url) = true
  · rcases hget : get url with e | (e | body) <;> simp [h]
  · simp [h]

/-- The device opens no connection that `check_allowed` refuses. -/
theorem mem_stream {client : String → Except DslError (List (List UInt8))}
    {allow : List String} {url opened : String}
    (h : opened ∈ (DeviceNet.stream client allow url).2) :
    opened = url ∧ Allowed allow (urlHost url).toList := by
  unfold DeviceNet.stream at h
  split at h
  · cases h
  · next hok =>
    split at h
    · cases h
    · exact ⟨List.mem_singleton.mp h, (checkAllowed_iff allow url).mp hok⟩

/-! ## What the gates look at -/

/-- The characters before the first slash or colon. -/
abbrev beforeStop (s : List Char) : List Char := s.takeWhile fun c => c ∉ ['/', ':']

/-- The text that the gates look at in a URL where that is not the host, with or
without the user information before it. -/
def decoy (r : Reference) : Option (List Char) :=
  match r.scheme with
  | none => (cut (str schemeSep) r.text).map fun (_, after) => beforeStop after
  | some _ =>
    if ':' ∈ r.userHost then some (r.userHost.takeWhile (· ≠ ':'))
    else if r.port = none ∧ (r.rest.head? = some '?' ∨ r.rest.head? = some '#') then
      some (r.userHost ++ beforeStop r.rest)
    else none

/-- The URL shows the gates a name that its host is not below. -/
def Misleads (r : Reference) : Prop :=
  ∃ shown, decoy r = some shown ∧ widestName shown ≠ [] ∧
    ¬ IsSubdomain r.host (widestName shown)

theorem urlHost_of_cut {url : String} {before after : List Char}
    (h : cut (str schemeSep) url.toList = some (before, after)) :
    (urlHost url).toList = beforeStop after := by
  obtain ⟨piece, hpiece, htake⟩ :=
    takeWhile_nth_one (p := fun c => c ∉ ['/', ':']) (by decide) h
  have hpiece' : nth (str schemeSep) 1 (some url.toList) = some piece := hpiece
  rw [urlHost, hpiece', Option.getD_some, nth_zero_oneOf, Option.getD_some, String.toList_ofList]
  exact htake

theorem urlHost_of_cut_eq_none {url : String} (h : cut (str schemeSep) url.toList = none) :
    (urlHost url).toList = beforeStop url.toList := by
  rw [urlHost, nth_one_of_cut_eq_none h, Option.getD_none, nth_zero_oneOf, Option.getD_some,
    String.toList_ofList]

/-- An authority without a colon is seen whole. -/
theorem beforeStop_userHost {r : Reference} (hc : ':' ∉ r.userHost) (s : List Char) :
    beforeStop (r.userHost ++ s) = r.userHost ++ beforeStop s := by
  refine List.takeWhile_append_of_pos fun c hmem => ?_
  have hslash := r.not_mem_userHost (c := '/') (by simp)
  have h1 : c ≠ '/' := fun he => hslash (he ▸ hmem)
  have h2 : c ≠ ':' := fun he => hc (he ▸ hmem)
  simp [h1, h2]

/-- An authority with a colon before the port is seen up to that colon. -/
theorem beforeStop_userHost_of_colon {r : Reference} (hc : ':' ∈ r.userHost) (s : List Char) :
    beforeStop (r.userHost ++ s) = r.userHost.takeWhile (· ≠ ':') := by
  obtain ⟨before, after, heq, hnot⟩ := List.eq_append_cons_of_mem hc
  have hslash := r.not_mem_userHost (c := '/') (by simp)
  rw [heq] at hslash ⊢
  have hbefore : ∀ c ∈ before, c ≠ '/' ∧ c ≠ ':' := fun c hmem =>
    ⟨fun he => hslash (List.mem_append_left _ (he ▸ hmem)), fun he => hnot (he ▸ hmem)⟩
  have hseen : beforeStop (before ++ (':' :: after ++ s)) = before := by
    unfold beforeStop
    rw [List.takeWhile_append_of_pos (by simpa using hbefore)]
    simp
  have htake : (before ++ ':' :: after).takeWhile (· ≠ ':') = before := by
    rw [List.takeWhile_append_of_pos fun c hmem => by simpa using (hbefore c hmem).2]
    simp
  rw [List.append_assoc, hseen, htake]

/-- **What the gates look at**: the decoy, or else the authority without its port, or
nothing at all where there is no scheme. -/
theorem urlHost_text {r : Reference} {url : String} (hurl : r.text = url.toList) :
    (urlHost url).toList =
      (decoy r).getD (if r.scheme = none then [] else r.userHost) := by
  cases hs : r.scheme with
  | none =>
    -- the URL begins with its two slashes
    have htext : r.text = '/' :: '/' :: (r.userHost ++ r.portText ++ r.rest) := by
      simp [Reference.text, Reference.schemeText, hs]
    cases hcut : cut (str schemeSep) r.text with
    | none =>
      have hstop : beforeStop r.text = [] := by simp [htext]
      rw [urlHost_of_cut_eq_none (hurl ▸ hcut), ← hurl]
      simp [decoy, hs, hcut, hstop]
    | some ba =>
      rw [urlHost_of_cut (hurl ▸ hcut)]
      simp [decoy, hs, hcut]
  | some s =>
    have hcolon := Reference.colon_not_mem_of_isScheme (r.scheme_ok s hs)
    have htext : r.text =
        s ++ schemeSep ++ (r.userHost ++ (r.portText ++ r.rest)) := by
      simp [Reference.text, Reference.schemeText, hs, schemeSep]
    have hcut : cut (str schemeSep) url.toList =
        some (s, r.userHost ++ (r.portText ++ r.rest)) := by
      rw [← hurl, htext]
      exact cut_str_append _ hcolon
    rw [urlHost_of_cut hcut, if_neg (by simp)]
    by_cases huser : ':' ∈ r.userHost
    · rw [beforeStop_userHost_of_colon huser]
      simp [decoy, hs, huser]
    rw [beforeStop_userHost huser]
    cases hp : r.port with
    | some p => simp [decoy, hs, huser, hp, Reference.portText]
    | none =>
      -- the authority ends where the rest begins
      cases hr : r.rest with
      | nil => simp [decoy, hs, huser, hp, hr, Reference.portText]
      | cons c rest =>
        have hc : c ∈ ['/', '?', '#'] := r.rest_ok c (by simp [hr])
        simp only [List.mem_cons, List.not_mem_nil, or_false] at hc
        rcases hc with rfl | rfl | rfl <;>
          simp [decoy, hs, huser, hp, hr, Reference.portText]

/-! ## When the allowlist holds -/

/-- A reference without a decoy shows the gates nothing, or its host. -/
theorem isSubdomain_of_no_decoy {r : Reference} {url : String} (hurl : r.text = url.toList)
    (hd : decoy r = none) {h : List Char} (hh : IsHostName h)
    (hsub : IsSubdomain (urlHost url).toList h) : IsSubdomain r.host h := by
  rw [urlHost_text hurl, hd, Option.getD_none] at hsub
  split at hsub
  · rcases hsub with he | hsuf
    · exact absurd he.symm hh.1
    · simp at hsuf
  · exact Reference.isSubdomain_host hh hsub

/-- What the gates look at is below the same names as the host, or the URL misleads
them. -/
theorem forall_isSubdomain_iff_not_misleads {r : Reference} {url : String}
    (hurl : r.text = url.toList) :
    (∀ h, IsHostName h → IsSubdomain (urlHost url).toList h → IsSubdomain r.host h) ↔
      ¬ Misleads r := by
  cases hd : decoy r with
  | none =>
    refine iff_of_true (fun h hh => isSubdomain_of_no_decoy hurl hd hh) ?_
    rintro ⟨shown, hshown, -⟩
    rw [hd] at hshown
    contradiction
  | some shown =>
    have hhost : (urlHost url).toList = shown := by rw [urlHost_text hurl, hd]; rfl
    rw [hhost, forall_isSubdomain_iff]
    constructor
    · rintro hall ⟨shown', hshown', hne, hnot⟩
      rw [hd, Option.some_inj] at hshown'
      subst hshown'
      exact hnot (hall hne)
    · intro hmis hne
      by_contra hnot
      exact hmis ⟨shown, hd, hne, hnot⟩

/-- A connection of the device for a URL that does not mislead goes to an allowed host. -/
theorem stream_host_allowed {client : String → Except DslError (List (List UInt8))}
    {allow : List String} {r : Reference} {url opened : String}
    (hnames : ∀ h ∈ allow, IsHostName h.toList) (hurl : r.text = url.toList)
    (hr : ¬ Misleads r) (h : opened ∈ (DeviceNet.stream client allow url).2) :
    HasHost opened.toList r.host ∧ Allowed allow r.host := by
  obtain ⟨rfl, g, hg, hsub⟩ := mem_stream h
  have hkeep := (forall_isSubdomain_iff_not_misleads hurl).mpr hr
  exact ⟨⟨r, hurl, rfl⟩, g, hg, hkeep g.toList (hnames g hg) hsub⟩

/-- **The allowlist is kept exactly by the URLs that do not mislead it.**  For every
URL: both gates let it through only to a host that the list allows, whatever the list
of host names, if and only if it does not show them a wider name than its host. -/
theorem admitted_host_iff (url : String) :
    (∀ (allow : List String) (get : String → Except String (Except String String)),
      (∀ h ∈ allow, IsHostName h.toList) →
      (checkAllowed allow url = .ok () ∨ url ∈ (HttpNet.fetch get allow url).2) →
      ∀ host, HasHost url.toList host → Allowed allow host) ↔
    ∀ r : Reference, r.text = url.toList → ¬ Misleads r := by
  simp only [checkAllowed_iff, mem_fetch_iff, or_self]
  constructor
  · intro hall r hurl
    rw [← forall_isSubdomain_iff_not_misleads hurl]
    intro h hh hsub
    -- the list with this one name on it
    have hallowed : Allowed [String.ofList h] (urlHost url).toList :=
      ⟨String.ofList h, List.mem_singleton_self _, by rwa [String.toList_ofList]⟩
    have hname : ∀ g ∈ [String.ofList h], IsHostName g.toList := by
      intro g hg
      rwa [List.mem_singleton.mp hg, String.toList_ofList]
    obtain ⟨g, hg, hsub'⟩ :=
      hall [String.ofList h] (fun _ => .error "") hname hallowed r.host ⟨r, hurl, rfl⟩
    rwa [List.mem_singleton.mp hg, String.toList_ofList] at hsub'
  · rintro hnot allow - hnames ⟨h, hmem, hsub⟩ host ⟨r, hurl, rfl⟩
    have hkeep := (forall_isSubdomain_iff_not_misleads hurl).mpr (hnot r hurl)
    exact ⟨h, hmem, hkeep h.toList (hnames h hmem) hsub⟩

/-- `http://allowed.com:x@evil.com/`: the name that stands as a user before a colon is
let through, and the host is another. -/
theorem admits_userinfo :
    checkAllowed ["allowed.com"] "http://allowed.com:x@evil.com/" = .ok () ∧
      "http://allowed.com:x@evil.com/" ∈
        (HttpNet.fetch (fun _ => .error "") ["allowed.com"] "http://allowed.com:x@evil.com/").2 ∧
      HasHost "http://allowed.com:x@evil.com/".toList "evil.com".toList ∧
      ¬ Allowed ["allowed.com"] "evil.com".toList := by
  refine ⟨by decide +kernel, by decide +kernel, ?_, ?_⟩
  · exact ⟨{ scheme := some "http".toList, userinfo := some "allowed.com:x".toList,
             host := "evil.com".toList, port := none, rest := ['/'],
             scheme_ok := by decide +kernel, userinfo_ok := by decide +kernel,
             host_ok := .regName (by decide +kernel), port_ok := by simp, rest_ok := by simp },
      by decide +kernel, rfl⟩
  · unfold Allowed
    decide +kernel

end Allowlist
