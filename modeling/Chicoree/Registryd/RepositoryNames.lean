import Chicoree.Registryd.Routing
import Chicoree.Signatures.CiTrust

/-! # Names of new repositories

`repo-names-shared.ts`: the names the web application takes, which registryd is to serve. -/

namespace Chicoree.Registryd.Routing

open List
open Signatures (units)
open Trimming (not_sep_of_mem_splitOn)

/-! ## The checks -/

/-- `COMPONENT_RE`: `nameRe` without the slash. -/
def NameState.nextInComponent (s : NameState) (c : Char) : Option NameState :=
  if c = '/' then none else s.next c

def componentRe (part : Chars) : Bool :=
  decide (part.foldlM NameState.nextInComponent .start = some .word)

def isValidRepoName (name : Chars) (allowNested : Bool) : Bool :=
  if name = [] ∨ 255 < units name then false
  else if 1 < (name.splitOn '/').length ∧ allowNested = false then false
  else (name.splitOn '/').all componentRe

def reservedRepoNames : List Chars :=
  ["members", "settings", "service-accounts", "new-repository", "import", "audit", "compare",
    "tags", "manifests", "blobs", "referrers"].map String.toList

def maxRepoNameLength : Nat := 100

def repoNameProblem (name : Chars) (allowNested : Bool) : Option String :=
  if name = [] then some "Enter a repository name."
  else if allowNested = false ∧ maxRepoNameLength < units name then
    some "Repository names are at most 100 characters."
  else if !isValidRepoName name allowNested then
    some (if allowNested then
      "Repository names use lowercase letters, digits and single ._- separators, with / between path components."
      else "Repository names use lowercase letters, digits and single ._- separators.")
  else if reservedRepoNames.contains name then
    some ("\"" ++ String.ofList name ++ "\" is reserved; pick a different name.")
  else none

/-! ## What registryd serves -/

/-- A request for the operation on the repository comes to its handler. -/
def Reaches (proxied : Chars → Bool) (slug name : Chars) (op : Operation) (m : Method) : Prop :=
  routeV2 proxied m (op.path (slug ++ '/' :: name)) =
    .handle (slug ++ '/' :: name) op.action op

variable {proxied : Chars → Bool} {slug name part : Chars} {allowNested : Bool}
  {op : Operation} {m : Method} {s : NameState}

theorem componentRe_plain (h : part.foldlM NameState.nextInComponent s = some .word) :
    '/' ∉ part ∧ part.foldlM NameState.next s = some .word := by
  induction part generalizing s with
  | nil => exact ⟨not_mem_nil, h⟩
  | cons c cs ih =>
    rw [foldlM_cons] at h ⊢
    unfold NameState.nextInComponent at h
    split at h
    · cases h
    · rename_i hslash
      cases hnext : s.next c with
      | none => simp [hnext] at h
      | some t =>
        rw [hnext] at h
        obtain ⟨hplain, hword⟩ := ih h
        exact ⟨not_mem_cons_of_ne_of_not_mem (Ne.symm hslash) hplain, hword⟩

theorem nameRe_components {parts : List Chars} (hne : parts ≠ [])
    (h : ∀ p ∈ parts, componentRe p = true) : nameRe (['/'].intercalate parts) = true := by
  induction parts with
  | nil => exact absurd rfl hne
  | cons p parts ih =>
    have hp := (componentRe_plain (of_decide_eq_true (h p mem_cons_self))).2
    cases parts with
    | nil => simpa [nameRe, List.intercalate] using hp
    | cons q parts =>
      have hrest := of_decide_eq_true (ih (by simp) fun x hx => h x (mem_cons_of_mem p hx))
      refine decide_eq_true ?_
      have hjoin : ['/'].intercalate (p :: q :: parts) = p ++ '/' :: ['/'].intercalate (q :: parts) := by
        simp [List.intercalate]
      rw [hjoin, foldlM_append, hp]
      exact hrest

theorem componentRe_slug {b : Bool} {cs : Chars} (h : slugRest b cs = true)
    (hs : b = true ↔ s = .word) : cs.foldlM NameState.nextInComponent s = some .word := by
  induction cs generalizing b s with
  | nil => exact congrArg some (hs.mp h)
  | cons c cs ih =>
    simp only [slugRest] at h
    split at h <;> rename_i hc
    · have hnext : s.nextInComponent c = some .word := by
        have hlower : isLowerNum c = true := hc
        unfold NameState.nextInComponent
        rw [if_neg (by rintro rfl; exact absurd hc (by decide))]
        cases s <;> simp [NameState.next, hlower]
      rw [foldlM_cons, hnext]
      exact ih h (by simp)
    · simp only [Bool.and_eq_true] at h
      obtain ⟨⟨hb, hsep⟩, hrest⟩ := h
      obtain rfl := hs.mp hb
      -- no word begins where the separator leaves the component
      obtain ⟨t, hnext, ht⟩ : ∃ t, NameState.word.nextInComponent c = some t ∧ t ≠ .word := by
        have hsep : c = '.' ∨ c = '_' ∨ c = '-' := of_decide_eq_true hsep
        rcases hsep with rfl | rfl | rfl <;> exact ⟨_, rfl, by decide⟩
      rw [foldlM_cons, hnext]
      exact ih hrest (by simp [ht])

theorem repoNameProblem_none (h : repoNameProblem name allowNested = none) :
    (∀ p ∈ name.splitOn '/', componentRe p = true) ∧
      (allowNested = false → (name.splitOn '/').length ≤ 1) ∧
      ¬reservedRepoNames.contains name := by
  simp only [repoNameProblem, ite_eq_iff, reduceCtorEq, and_false, false_or, and_true] at h
  obtain ⟨-, -, hvalid, hfree⟩ := h
  simp only [isValidRepoName, Bool.if_false_left, Bool.not_eq_true', Bool.not_eq_false,
    Bool.and_eq_true, decide_eq_false_iff_not, all_eq_true] at hvalid
  obtain ⟨-, hdepth, hcomponents⟩ := hvalid
  exact ⟨hcomponents, fun hflat => Nat.le_of_not_lt fun hlt => hdepth ⟨hlt, hflat⟩, hfree⟩

theorem splitName_cases (proxied : Chars → Bool) (a : Chars) (segs : List Chars) :
    (∃ status code message, splitName proxied (a :: segs) = .error (.error status code message)) ∨
    ∃ parts rest, segs = parts ++ rest ∧
      splitName proxied (a :: segs) = .ok (['/'].intercalate (a :: parts), rest) ∧
      (∀ p ∈ parts, isRouteMarker p = false) ∧ (1 < parts.length → proxied a = true) := by
  match segs with
  | [] | [_] => exact .inl ⟨_, _, _, rfl⟩
  | b :: c :: tail =>
    simp only [splitName]
    by_cases hb : isRouteMarker b = true
    · rw [if_pos hb]
      exact .inr ⟨[], b :: c :: tail, rfl, by simp [List.intercalate], by simp, by simp⟩
    · rw [if_neg hb]
      by_cases htail : 2 ≤ tail.length ∧ ¬isRouteMarker c = true
      · rw [if_pos htail]
        split
        · exact .inl ⟨_, _, _, rfl⟩
        · split <;> rename_i hproxied
          · refine .inr ⟨b :: c :: tail.takeWhile fun seg => !isRouteMarker seg,
              tail.dropWhile fun seg => !isRouteMarker seg, ?_, rfl, ?_, fun _ => hproxied⟩
            · simp [takeWhile_append_dropWhile]
            · intro p hp
              rcases mem_cons.mp hp with rfl | hp
              · exact eq_false_of_ne_true hb
              · rcases mem_cons.mp hp with rfl | hp
                · exact eq_false_of_ne_true htail.2
                · simpa using mem_takeWhile_imp hp
          · exact .inl ⟨_, _, _, rfl⟩
      · rw [if_neg htail]
        split
        · refine .inr ⟨[b], c :: tail, rfl, by simp [List.intercalate], ?_, by simp⟩
          simpa using hb
        · exact .inl ⟨_, _, _, rfl⟩

theorem operation_error {rest : List Chars} {r : Route} (h : operation m rest = .error r) :
    ∃ status code message, r = .error status code message := by
  unfold operation uploadOperation manifestOperation blobOperation at h
  repeat' split at h
  all_goals cases h
  all_goals exact ⟨_, _, _, rfl⟩

theorem splitOn_one (h : (name.splitOn '/').length ≤ 1) : name.splitOn '/' = [name] := by
  have hjoin : ['/'].intercalate (name.splitOn '/') = name := intercalate_splitOn '/'
  have hpos := length_pos_iff.mpr (splitOn_ne_nil '/' name)
  obtain ⟨p, hp⟩ := length_eq_one_iff.mp (show (name.splitOn '/').length = 1 by omega)
  rw [hp] at hjoin ⊢
  simpa [List.intercalate] using hjoin

/-- The components that `routeV2` takes as the name. -/
theorem routed_parts {full n : Chars} {segs : List Chars} {action : String} {o : Operation}
    (h : op.Valid) (hfull : full.splitOn '/' = slug :: segs)
    (hroute : routeV2 proxied m (op.path full) = .handle n action o) :
    ∃ parts rest, segs ++ op.segments = parts ++ rest ∧ n = ['/'].intercalate (slug :: parts) ∧
      (∀ p ∈ parts, isRouteMarker p = false) ∧ (1 < parts.length → proxied slug = true) := by
  rw [routeV2_eq h, hfull, cons_append] at hroute
  rcases splitName_cases proxied slug (segs ++ op.segments) with
    ⟨_, _, _, herr⟩ | ⟨parts, rest, hsegs, hok, hparts⟩
  · rw [herr] at hroute
    cases hroute
  · rw [hok] at hroute
    dsimp only at hroute
    split at hroute
    · cases hroute
    · split at hroute
      · rename_i r herr
        obtain ⟨_, _, _, rfl⟩ := operation_error herr
        cases hroute
      · cases hroute
        exact ⟨parts, rest, hsegs, rfl, hparts⟩

/-- **What is taken is served.** A repository of a checked name is reached under it, unless the
name is nested: then exactly where no component is a route marker and the organization is a
proxy cache. -/
theorem new_name_served (hslug : orgSlugRe (String.ofList slug) = true)
    (hname : repoNameProblem name allowNested = none) (h : op.Valid) (hm : op.serves m = true) :
    (allowNested = false → Reaches proxied slug name op m) ∧
      (Reaches proxied slug name op m ↔
        (∀ part ∈ name.splitOn '/', isRouteMarker part = false) ∧
          (1 < (name.splitOn '/').length → proxied slug = true)) := by
  obtain ⟨hcomponents, hdepth, hfree⟩ := repoNameProblem_none hname
  rw [orgSlugRe, String.toList_ofList] at hslug
  have hcomponent := @componentRe_slug .start _ _ hslug (by simp)
  have hsplit : (slug ++ '/' :: name).splitOn '/' = slug :: name.splitOn '/' :=
    splitOn_append_cons_self_of_not_mem (componentRe_plain hcomponent).1 name
  have hjoin : ['/'].intercalate (slug :: name.splitOn '/') = slug ++ '/' :: name := by
    rw [← hsplit, intercalate_splitOn]
  have hgrammar : nameRe (slug ++ '/' :: name) = true :=
    hjoin ▸ nameRe_components (by simp)
      (forall_mem_cons.mpr ⟨decide_eq_true hcomponent, hcomponents⟩)
  have hiff : Reaches proxied slug name op m ↔
      (∀ part ∈ name.splitOn '/', isRouteMarker part = false) ∧
        (1 < (name.splitOn '/').length → proxied slug = true) := by
    constructor
    · intro hreach
      obtain ⟨parts, rest, hsegs, hsame, hserved⟩ := routed_parts h hsplit hreach
      have hpath : (slug ++ '/' :: name ++ '/' :: ['/'].intercalate op.segments).splitOn '/' =
          slug :: parts ++ rest := by rw [splitOn_path h, hsplit, cons_append, hsegs, cons_append]
      have hplain : ∀ p ∈ slug :: parts, '/' ∉ p :=
        fun p hp => not_sep_of_mem_splitOn (hpath ▸ mem_append_left rest hp)
      have hcut := splitOn_intercalate '/' hplain (by simp)
      rw [← hsame, hsplit] at hcut
      exact (List.cons.inj hcut).2 ▸ hserved
    · rintro ⟨hmark, hproxied⟩
      refine routeV2_of_split h hm hgrammar (splitName_tail (by rw [hsplit]; exact hmark) ?_ h)
      intro a b c tail heq
      rw [hsplit] at heq
      obtain ⟨rfl, hparts⟩ := List.cons.inj heq
      exact hproxied (by rw [hparts]; simp)
  refine ⟨fun hflat => hiff.mpr ?_, hiff⟩
  have hall : ∀ r ∈ ["manifests".toList, "blobs".toList, "tags".toList, "referrers".toList],
      reservedRepoNames.contains r := by decide
  have hmark : isRouteMarker name = false := decide_eq_false fun hin => hfree (hall name hin)
  rw [splitOn_one (hdepth hflat)]
  exact ⟨by simpa using hmark, by simp⟩

theorem new_name_served_hub : Reaches (fun a => decide (a = "hub".toList)) "hub".toList
      "team/app".toList .tagsList .get ∧
    ¬Reaches (fun a => decide (a = "hub".toList)) "hub".toList "team/tags".toList .tagsList .get := by
  have hslug : orgSlugRe (String.ofList "hub".toList) = true := by decide +kernel
  have hvalid : Operation.tagsList.Valid := trivial
  have happ : repoNameProblem "team/app".toList true = none := by decide +kernel
  have htags : repoNameProblem "team/tags".toList true = none := by decide +kernel
  constructor
  · exact (new_name_served hslug happ hvalid rfl).2.mpr ⟨by decide +kernel, fun _ => by decide⟩
  · intro hreach
    exact absurd ((new_name_served hslug htags hvalid rfl).2.mp hreach).1 (by decide +kernel)

end Chicoree.Registryd.Routing
