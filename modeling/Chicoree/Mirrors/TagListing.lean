import Mathlib.Data.List.TakeDrop
import Mathlib.Data.List.TakeWhile
import Mathlib.Logic.Function.Iterate
import Mathlib.Tactic.Choose
import Chicoree.RateLimits.Form

/-! # The tags of a source

`RemoteRegistry.listTags` follows the `Link` headers of a source, one page after another.

* A source is a machine: it may answer the same request differently each time.
* `Found` says what the pattern for the headers finds in a text, without the search;
  `nextLink_eq_some_iff` and `nextLink_eq_none_iff` say that the search finds it.
* `Endless` and `Readable` are the conditions on a source and on pages, in terms of the links
  found. -/

namespace Chicoree.Mirrors

open List
open RateLimits (isSpaceJs)

/-! ## The loop -/

/-- What the loop reads of an answer. -/
structure Response where
  ok : Bool
  tags : List String
  link : Option (List Char)

/-- What `request` and the body come to in a state of the source; none where they throw. -/
abbrev Source (σ : Type) := σ → List Char → Option Response × σ

/-- The URL that `request` asks for. -/
def requestUrl (baseUrl path : List Char) : List Char :=
  if "http".toList.isPrefixOf path then path else baseUrl ++ path

/-- The pattern `/<([^>]+)>;\s*rel="next"/` at one place. -/
def linkHere : List Char → Option (List Char)
  | '<' :: rest =>
    match rest.span (· ≠ '>') with
    | (target, '>' :: ';' :: after) =>
      if target ≠ [] ∧ "rel=\"next\"".toList.isPrefixOf (after.dropWhile isSpaceJs) then
        some target
      else none
    | _ => none
  | _ => none

/-- The first place where the pattern matches. -/
def nextLink : List Char → Option (List Char)
  | [] => none
  | c :: rest => (linkHere (c :: rest)).or (nextLink rest)

/-- `m[1]` of the `Link` header. -/
def Response.next (res : Response) : Option (List Char) := res.link.bind nextLink

section listing

variable {σ : Type} (maxArguments : Nat) (source : Source σ) (baseUrl : List Char)

/-- The loop of `listTags`: the tags, or none where it throws, as `tags.push(...page)` does with
a page of more tags than a call takes arguments. -/
def pages : Nat → σ → List String → List Char → Option (Option (List String))
  | 0, _, _, _ => none
  | fuel + 1, s, tags, path =>
    match source s (requestUrl baseUrl path) with
    | (none, _) => some none
    | (some res, s') =>
      if res.ok = true ∧ res.tags.length ≤ maxArguments then
        match res.next with
        | none => some (some (tags ++ res.tags))
        | some next => pages fuel s' (tags ++ res.tags) next
      else some none

/-- The path of the first request. -/
def firstPath (repository : List Char) : List Char :=
  "/v2/".toList ++ repository ++ "/tags/list?n=1000".toList

/-- The method, with a bound on its requests. -/
def listTags (repository : List Char) (s : σ) (fuel : Nat) : Option (Option (List String)) :=
  pages maxArguments source baseUrl fuel s [] (firstPath repository)

/-- The method returns or throws. -/
def Ends (repository : List Char) (s : σ) : Prop :=
  ∃ fuel, listTags maxArguments source baseUrl repository s fuel ≠ none

end listing

/-! ## What the pattern finds -/

/-- After `before` the text has a target in angle brackets, a semicolon, blanks and
`rel="next"`. -/
structure LinkAt (text before target : List Char) : Prop where
  target_ne : target ≠ []
  closed : '>' ∉ target
  stands : ∃ blanks after, (∀ c ∈ blanks, isSpaceJs c = true) ∧
    text = before ++ '<' :: target ++ ">;".toList ++ blanks ++ "rel=\"next\"".toList ++ after

/-- The first such target of a text. -/
def Found (text target : List Char) : Prop :=
  ∃ before, LinkAt text before target ∧
    ∀ before' target', LinkAt text before' target' → before.length ≤ before'.length

/-- A page with a link. -/
def Response.Links (res : Response) (target : List Char) : Prop :=
  ∃ text, res.link = some text ∧ Found text target

/-! ## The conditions -/

section endless

variable {σ : Type} (maxArguments : Nat) (source : Source σ) (baseUrl : List Char)

/-- The request is answered with a page whose link is requested next. -/
def LeadsOn (now next : σ × List Char) : Prop :=
  ∃ res, source now.1 (requestUrl baseUrl now.2) = (some res, next.1) ∧ res.ok = true ∧
    res.tags.length ≤ maxArguments ∧ res.Links next.2

/-- The source answers with links on and on. -/
def Endless (repository : List Char) (s : σ) : Prop :=
  ∃ at' : Nat → σ × List Char, at' 0 = (s, firstPath repository) ∧
    ∀ n, LeadsOn maxArguments source baseUrl (at' n) (at' (n + 1))

end endless

/-- A page of tags under its URL, with its `Link` header. -/
structure Page where
  url : List Char
  tags : List String
  link : Option (List Char)

/-- The answer that serves a page. -/
def Page.response (p : Page) : Response := ⟨true, p.tags, p.link⟩

@[simp] theorem Page.response_ok (p : Page) : p.response.ok = true := rfl

@[simp] theorem Page.response_tags (p : Page) : p.response.tags = p.tags := rfl

/-- The link found on a page is that of another. -/
def Page.LinksTo (baseUrl : List Char) (p q : Page) : Prop :=
  ∃ target, p.response.Links target ∧ requestUrl baseUrl target = q.url

/-- **The condition on pages.** The first of them each have a link to the page after them, and
none has too many tags; the last of these has no link, and what comes after it has no new
tags. -/
structure ReadableTo (maxArguments : Nat) (baseUrl : List Char) (read : List Page) (last : Page)
    (later : List Page) : Prop where
  linked : (read ++ [last]).IsChain (Page.LinksTo baseUrl)
  short : ∀ p ∈ read ++ [last], p.tags.length ≤ maxArguments
  stops : ∀ target, ¬last.response.Links target
  nothingNew : ∀ tag ∈ later.flatMap Page.tags, tag ∈ (read ++ [last]).flatMap Page.tags

/-- The pages that have links are read up to one that has none. -/
def Readable (maxArguments : Nat) (baseUrl : List Char) (ps : List Page) : Prop :=
  ∃ read last later, ps = read ++ last :: later ∧
    ReadableTo maxArguments baseUrl read last later

section served

variable {σ : Type} (maxArguments : Nat) (source : Source σ) (baseUrl : List Char)

/-- The source answers the requests for the pages, one after another. -/
def Serves : σ → List Page → Prop
  | _, [] => True
  | s, p :: rest => ∃ s', source s p.url = (some p.response, s') ∧ Serves s' rest

/-- The loop returns all tags of the pages. -/
def Lists (s : σ) (tags : List String) (path : List Char) (ps : List Page) : Prop :=
  ∃ fuel result, pages maxArguments source baseUrl fuel s tags path = some (some result) ∧
    ∀ tag ∈ ps.flatMap Page.tags, tag ∈ result

end served

/-- The page that the method asks for first. -/
def firstPage (baseUrl repository : List Char) (tags : List String) (link : Option (List Char)) :
    Page :=
  ⟨requestUrl baseUrl (firstPath repository), tags, link⟩

/-- Whatever source serves the pages, all their tags are listed. -/
def AlwaysListed (maxArguments : Nat) (baseUrl repository : List Char) (ps : List Page) : Prop :=
  ∀ (σ : Type) (source : Source σ) (s : σ), Serves source s ps →
    Lists maxArguments source baseUrl s [] (firstPath repository) ps

/-! ## The search for the pattern -/

section search

variable {text rest before target : List Char} {c : Char}

theorem linkAt_nil_iff : LinkAt text [] target ↔ linkHere text = some target := by
  constructor
  · rintro ⟨hne, hclosed, blanks, after, hblanks, rfl⟩
    have hkeep : ∀ c ∈ target, decide (c ≠ '>') = true := by
      intro c hc
      exact decide_eq_true fun h => hclosed (h ▸ hc)
    have hspan : (target ++ '>' :: ';' :: (blanks ++ ("rel=\"next\"".toList ++ after))).span
        (fun c => decide (c ≠ '>')) =
          (target, '>' :: ';' :: (blanks ++ ("rel=\"next\"".toList ++ after))) := by
      rw [span_eq_takeWhile_dropWhile, takeWhile_append_of_pos hkeep, dropWhile_append_of_pos hkeep]
      simp
    have hdrop : (blanks ++ ("rel=\"next\"".toList ++ after)).dropWhile isSpaceJs =
        "rel=\"next\"".toList ++ after := by
      rw [dropWhile_append_of_pos hblanks]
      rfl
    have htext : [] ++ '<' :: target ++ ">;".toList ++ blanks ++ "rel=\"next\"".toList ++ after =
        '<' :: (target ++ '>' :: ';' :: (blanks ++ ("rel=\"next\"".toList ++ after))) := by
      simp
    rw [htext]
    simp only [linkHere, hspan, hdrop]
    rw [if_pos ⟨hne, isPrefixOf_iff_prefix.mpr (prefix_append _ _)⟩]
  · intro h
    unfold linkHere at h
    split at h
    · rename_i rest
      split at h
      · rename_i target' after hspan
        split at h
        · rename_i hfound
          cases h
          rw [span_eq_takeWhile_dropWhile, Prod.mk.injEq] at hspan
          obtain ⟨htarget, hafter⟩ := hspan
          obtain ⟨tail, htail⟩ := isPrefixOf_iff_prefix.mp hfound.2
          refine ⟨hfound.1, fun hmem => ?_, after.takeWhile isSpaceJs, tail,
            fun c hc => mem_takeWhile_imp hc, ?_⟩
          · rw [← htarget] at hmem
            have hkept := mem_takeWhile_imp hmem
            simp at hkept
          · have hrest : rest = target ++ '>' :: ';' :: after := by
              rw [← htarget, ← hafter]
              exact takeWhile_append_dropWhile.symm
            have hafter' : after = after.takeWhile isSpaceJs ++ ("rel=\"next\"".toList ++ tail) := by
              rw [htail]
              exact takeWhile_append_dropWhile.symm
            rw [hrest]
            conv_lhs => rw [hafter']
            simp
        · cases h
      · cases h
    · cases h

theorem linkAt_cons_iff : LinkAt (c :: rest) (c :: before) target ↔ LinkAt rest before target := by
  constructor
  · rintro ⟨hne, hclosed, blanks, after, hblanks, hrest⟩
    exact ⟨hne, hclosed, blanks, after, hblanks, (List.cons.inj hrest).2⟩
  · rintro ⟨hne, hclosed, blanks, after, hblanks, rfl⟩
    exact ⟨hne, hclosed, blanks, after, hblanks, rfl⟩

theorem eq_cons_of_linkAt {d : Char} (h : LinkAt (c :: rest) (d :: before) target) : d = c := by
  obtain ⟨-, -, blanks, after, -, hrest⟩ := h
  exact (List.cons.inj hrest).1.symm

theorem not_linkAt_nil : ¬LinkAt [] before target := by
  rintro ⟨-, -, blanks, after, -, htext⟩
  simp at htext

/-- The search finds the first target. -/
theorem nextLink_eq_some_iff (text target : List Char) :
    nextLink text = some target ↔ Found text target := by
  induction text with
  | nil => simp [nextLink, Found, not_linkAt_nil]
  | cons c rest ih =>
    rw [nextLink]
    cases hhere : linkHere (c :: rest) with
    | some found =>
      rw [Option.some_or, Option.some.injEq]
      have hfirst := linkAt_nil_iff.mpr hhere
      constructor
      · rintro rfl
        exact ⟨[], hfirst, fun _ _ _ => Nat.zero_le _⟩
      · rintro ⟨before, hbefore, hmin⟩
        have hnil : before = [] := eq_nil_of_length_eq_zero (Nat.le_zero.mp (hmin [] found hfirst))
        rw [hnil, linkAt_nil_iff, hhere] at hbefore
        exact Option.some.inj hbefore
    | none =>
      have hnot (target : List Char) : ¬LinkAt (c :: rest) [] target := by
        rw [linkAt_nil_iff, hhere]
        simp
      rw [Option.none_or, ih]
      constructor
      · rintro ⟨before, hbefore, hmin⟩
        refine ⟨c :: before, linkAt_cons_iff.mpr hbefore, fun before' target' h => ?_⟩
        cases before' with
        | nil => exact absurd h (hnot target')
        | cons d before' =>
          obtain rfl := eq_cons_of_linkAt h
          exact Nat.succ_le_succ (hmin before' target' (linkAt_cons_iff.mp h))
      · rintro ⟨before, hbefore, hmin⟩
        cases before with
        | nil => exact absurd hbefore (hnot target)
        | cons d before =>
          obtain rfl := eq_cons_of_linkAt hbefore
          refine ⟨before, linkAt_cons_iff.mp hbefore, fun before' target' h => ?_⟩
          exact Nat.le_of_succ_le_succ (hmin (d :: before') target' (linkAt_cons_iff.mpr h))

theorem Response.next_eq_some_iff (res : Response) (target : List Char) :
    res.next = some target ↔ res.Links target := by
  unfold Response.next Response.Links
  simp [Option.bind_eq_some_iff, nextLink_eq_some_iff]

theorem Response.next_eq_none_iff (res : Response) :
    res.next = none ↔ ∀ target, ¬res.Links target := by
  rw [Option.eq_none_iff_forall_ne_some]
  simp [Response.next_eq_some_iff]

end search

/-! ## When listing ends -/

section ending

variable {σ : Type} {maxArguments : Nat} {source : Source σ} {baseUrl repository path : List Char}
  {s : σ} {tags : List String}

theorem pages_eq_none_iff {fuel : Nat} :
    pages maxArguments source baseUrl (fuel + 1) s tags path = none ↔
      ∃ next tags', LeadsOn maxArguments source baseUrl (s, path) next ∧
        pages maxArguments source baseUrl fuel next.1 tags' next.2 = none ∧
        ∀ res s', source s (requestUrl baseUrl path) = (some res, s') →
          tags' = tags ++ res.tags := by
  rw [pages]
  rcases hres : source s (requestUrl baseUrl path) with ⟨_ | res, s'⟩
  · simp [LeadsOn, hres]
  · by_cases hok : res.ok = true ∧ res.tags.length ≤ maxArguments
    · cases hnext : res.next with
      | none =>
        have hnone := res.next_eq_none_iff.mp hnext
        simp only [hok, hnext]
        simp [LeadsOn, hres, hnone]
      | some target =>
        have hlinks := (res.next_eq_some_iff target).mp hnext
        simp only [hok, hnext, and_self, if_true]
        constructor
        · intro hrest
          refine ⟨(s', target), tags ++ res.tags, ⟨res, hres, hok.1, hok.2, hlinks⟩, hrest, ?_⟩
          intro res' s'' h
          cases h
          rfl
        · rintro ⟨⟨s'', target'⟩, tags', ⟨res', hres', -, -, hlinks'⟩, hrest, htags⟩
          cases hres.symm.trans hres'
          obtain rfl := htags _ _ rfl
          have htarget := (res.next_eq_some_iff target').mpr hlinks'
          rw [hnext, Option.some.injEq] at htarget
          rw [htarget]
          exact hrest
    · show (if res.ok = true ∧ res.tags.length ≤ maxArguments then _ else _) = none ↔ _
      rw [if_neg hok]
      simp only [reduceCtorEq, false_iff, not_exists, not_and]
      rintro next tags' ⟨res', hres', hok', hshort, -⟩
      cases hres.symm.trans hres'
      exact absurd ⟨hok', hshort⟩ hok

/-- The next request is determined. -/
theorem LeadsOn.unique {now next next' : σ × List Char}
    (h : LeadsOn maxArguments source baseUrl now next)
    (h' : LeadsOn maxArguments source baseUrl now next') : next = next' := by
  obtain ⟨res, hres, -, -, hlinks⟩ := h
  obtain ⟨res', hres', -, -, hlinks'⟩ := h'
  have hsame := hres.symm.trans hres'
  rw [Prod.mk.injEq, Option.some.injEq] at hsame
  obtain ⟨rfl, hstate⟩ := hsame
  have htarget := ((res.next_eq_some_iff _).mpr hlinks).symm.trans
    ((res.next_eq_some_iff _).mpr hlinks')
  exact Prod.ext hstate (Option.some.inj htarget)

theorem ends_iff : Ends maxArguments source baseUrl repository s ↔
    ¬Endless maxArguments source baseUrl repository s := by
  constructor
  · rintro ⟨fuel, hfuel⟩ ⟨at', hstart, hleads⟩
    -- along endless links no fuel is enough
    have hnone : ∀ fuel n tags,
        pages maxArguments source baseUrl fuel (at' n).1 tags (at' n).2 = none := by
      intro fuel
      induction fuel with
      | zero => exact fun n tags => rfl
      | succ fuel ih =>
        intro n tags
        obtain ⟨res, hres, hok, hshort, hlinks⟩ := hleads n
        refine pages_eq_none_iff.mpr ⟨at' (n + 1), tags ++ res.tags,
          ⟨res, hres, hok, hshort, hlinks⟩, ih (n + 1) _, fun res' s' h => ?_⟩
        cases hres.symm.trans h
        rfl
    have hzero := hnone fuel 0 []
    rw [hstart] at hzero
    exact hfuel hzero
  · intro hendless
    by_contra hends
    have hstart : ∀ fuel,
        pages maxArguments source baseUrl fuel s [] (firstPath repository) = none :=
      fun fuel => by_contra fun h => hends ⟨fuel, h⟩
    -- a loop that does not end comes to another one that does not
    have hstep : ∀ st : { st : (σ × List Char) × List String //
        ∀ fuel, pages maxArguments source baseUrl fuel st.1.1 st.2 st.1.2 = none },
        ∃ st' : { st : (σ × List Char) × List String //
          ∀ fuel, pages maxArguments source baseUrl fuel st.1.1 st.2 st.1.2 = none },
          LeadsOn maxArguments source baseUrl st.1.1 st'.1.1 := by
      rintro ⟨⟨⟨s, path⟩, tags⟩, hst⟩
      obtain ⟨next, tags', hleads, -, htags⟩ := pages_eq_none_iff.mp (hst 1)
      refine ⟨⟨(next, tags'), fun fuel => ?_⟩, hleads⟩
      obtain ⟨next', tags'', hleads', hrest, htags'⟩ := pages_eq_none_iff.mp (hst (fuel + 1))
      obtain rfl := hleads.unique hleads'
      obtain ⟨res, hres, -⟩ := hleads
      rw [htags res _ hres, ← htags' res _ hres]
      exact hrest
    choose next hnext using hstep
    refine hendless ⟨fun n => (next^[n] ⟨((s, firstPath repository), []), hstart⟩).1.1, rfl,
      fun n => ?_⟩
    simp only [Function.iterate_succ_apply']
    exact hnext _

end ending

/-! ## When all tags are listed -/

section listed

variable {σ : Type} {maxArguments : Nat} {source : Source σ} {baseUrl path : List Char} {s : σ}
  {tags : List String} {p last : Page} {ps read later : List Page}

theorem lists_of_readable (tags : List String) (hpath : requestUrl baseUrl path = p.url)
    (hserves : Serves source s (p :: ps)) (hps : p :: ps = read ++ last :: later)
    (hread : ReadableTo maxArguments baseUrl read last later) :
    ∃ fuel, pages maxArguments source baseUrl fuel s tags path =
      some (some (tags ++ (read ++ [last]).flatMap Page.tags)) := by
  obtain ⟨hlinked, hshort, hstops, -⟩ := hread
  induction read generalizing p ps s tags path with
  | nil =>
    obtain ⟨rfl, rfl⟩ := List.cons.inj hps
    obtain ⟨s', hres, -⟩ := hserves
    have hnext := p.response.next_eq_none_iff.mpr hstops
    have hfew : p.tags.length ≤ maxArguments := hshort p (by simp)
    exact ⟨1, by simp [pages, hpath, hres, hnext, hfew]⟩
  | cons q read ih =>
    obtain ⟨rfl, hrest⟩ := List.cons.inj hps
    have hps' : ps = (read ++ [last]) ++ later := by
      rw [hrest]
      simp
    obtain ⟨s', hres, hserves⟩ := hserves
    cases ps with
    | nil => simp at hps'
    | cons q rest =>
      have hfew : p.tags.length ≤ maxArguments := hshort p (by simp)
      obtain ⟨q', tail, htail⟩ : ∃ q' tail, read ++ [last] = q' :: tail := by
        cases read with
        | nil => exact ⟨last, [], rfl⟩
        | cons r read => exact ⟨r, read ++ [last], rfl⟩
      have hq : q = q' := by
        rw [htail] at hps'
        exact (List.cons.inj hps').1
      rw [cons_append] at hlinked hshort
      rw [htail] at hlinked
      obtain ⟨⟨target, hlinks, hurl⟩, hchain⟩ := isChain_cons_cons.mp hlinked
      rw [← htail] at hchain
      obtain ⟨fuel, hresult⟩ := ih (tags ++ p.tags) (hurl.trans (by rw [hq])) hserves hrest hchain
        fun r hr => hshort r (mem_cons_of_mem p hr)
      have hnext := (p.response.next_eq_some_iff target).mpr hlinks
      refine ⟨fuel + 1, ?_⟩
      simp [pages, hpath, hres, hnext, hfew, hresult]

/-- The source that serves some pages and nothing else. -/
def only : Source (List Page)
  | [], _ => (none, [])
  | p :: rest, url => if url = p.url then (some p.response, rest) else (none, [])

theorem serves_only : Serves only ps ps := by
  induction ps with
  | nil => trivial
  | cons p rest ih => exact ⟨rest, by simp [only], ih⟩

theorem readable_of_lists {result : List String} {fuel : Nat}
    (hpath : requestUrl baseUrl path = p.url)
    (hresult : pages maxArguments only baseUrl fuel (p :: ps) tags path = some (some result)) :
    ∃ read last later, p :: ps = read ++ last :: later ∧
      (read ++ [last]).IsChain (Page.LinksTo baseUrl) ∧
      (∀ q ∈ read ++ [last], q.tags.length ≤ maxArguments) ∧
      (∀ target, ¬last.response.Links target) ∧
      result = tags ++ (read ++ [last]).flatMap Page.tags := by
  induction fuel generalizing p ps tags path with
  | zero => cases hresult
  | succ fuel ih =>
    by_cases hfew : p.tags.length ≤ maxArguments
    · cases hnext : p.response.next with
      | none =>
        simp only [pages, hpath, only, if_true, Page.response_ok, Page.response_tags, hfew,
          and_self, hnext, Option.some.injEq] at hresult
        exact ⟨[], p, ps, rfl, by simp, by simpa using hfew,
          p.response.next_eq_none_iff.mp hnext, by simp [hresult]⟩
      | some target =>
        simp only [pages, hpath, only, if_true, Page.response_ok, Page.response_tags, hfew,
          and_self, hnext] at hresult
        have hlinks := (p.response.next_eq_some_iff target).mp hnext
        cases ps with
        | nil => cases fuel <;> simp [pages, only] at hresult
        | cons q rest =>
          by_cases hurl : requestUrl baseUrl target = q.url
          · obtain ⟨read, last, later, hps, hchain, hshort, hstops, htags⟩ := ih hurl hresult
            refine ⟨p :: read, last, later, by rw [hps]; rfl, ?_, ?_, hstops, by simp [htags]⟩
            · cases read with
              | nil =>
                obtain ⟨rfl, -⟩ := List.cons.inj hps
                exact isChain_cons_cons.mpr ⟨⟨target, hlinks, hurl⟩, hchain⟩
              | cons r read =>
                obtain ⟨rfl, -⟩ := List.cons.inj hps
                exact isChain_cons_cons.mpr ⟨⟨target, hlinks, hurl⟩, hchain⟩
            · intro r hr
              rcases mem_cons.mp hr with rfl | hr
              · exact hfew
              · exact hshort r hr
          · cases fuel <;> simp [pages, only, hurl] at hresult
    · simp [pages, hpath, only, hfew] at hresult

end listed

/-! ## Links as RFC 8288 has them -/

/-- A parameter of a link. -/
structure Param where
  name : List Char
  value : List Char
  quoted : Bool
deriving DecidableEq

/-- `; name=value` or `; name="value"`. -/
def Param.text (p : Param) : List Char :=
  ';' :: ' ' :: p.name ++ '=' :: if p.quoted then '\"' :: p.value ++ ['\"'] else p.value

/-- `<target>; name=value; …` -/
structure LinkValue where
  target : List Char
  params : List Param

/-- As a link is written. -/
def LinkValue.text (l : LinkValue) : List Char :=
  '<' :: l.target ++ '>' :: l.params.flatMap Param.text

/-- The `rel` of the link is `next`. -/
def LinkValue.IsNext (l : LinkValue) : Prop :=
  (l.params.find? fun p => p.name = "rel".toList).any fun p => p.value = "next".toList

/-- A reference on a page is absolute, relative to the host, or to the path of the page. -/
inductive Denotes (baseUrl page : List Char) : List Char → List Char → Prop
  | absolute {url : List Char} : "http".toList.isPrefixOf url = true → Denotes baseUrl page url url
  | host {path : List Char} : Denotes baseUrl page ('/' :: path) (baseUrl ++ '/' :: path)
  | path {dir last ref : List Char} : page = dir ++ '/' :: last → '/' ∉ last → ':' ∉ ref →
      ref.head? ≠ some '/' → Denotes baseUrl page ref (dir ++ '/' :: ref)

/-- Pages with links to the page after them, and none on the last. -/
def Linked (baseUrl : List Char) : List Page → Prop
  | [] => False
  | [p] => p.link = none
  | p :: q :: rest => (∃ l : LinkValue, p.link = some l.text ∧ l.IsNext ∧
      Denotes baseUrl p.url l.target q.url) ∧ Linked baseUrl (q :: rest)

/-- A link with `rel=next` without quotes. -/
def unquoted : LinkValue :=
  ⟨"/v2/a/tags/list?last=v1".toList, [⟨"rel".toList, "next".toList, false⟩]⟩

def twoPages : List Page :=
  [firstPage "https://h".toList ['a'] ["v1"] (some unquoted.text),
    ⟨"https://h/v2/a/tags/list?last=v1".toList, ["v2"], none⟩]

/-- A page of more tags than a call takes. -/
def longPage : Page := firstPage "https://h".toList ['a'] (List.replicate 120001 "v1") none

end Chicoree.Mirrors
