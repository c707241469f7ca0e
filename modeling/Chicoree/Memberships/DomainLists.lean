import Mathlib.Data.List.DropRight
import Chicoree.Lib.Trimming
import Chicoree.Memberships.GroupBindings

/-! # Domains that may sign up

The list of email domains is read from the form by `parseDomainList` and from the
environment by `signUpAllowedDomains`; `enforceSignUpPolicy` compares with either. -/

namespace Chicoree.Memberships.DomainLists

open List
open RateLimits (isEntrySeparator)

abbrev Chars := List Char

section lists

-- `toLowerCase`
variable (lower : Chars → Chars)

/-! ## Reading a list -/

/-- The parts of `split(/[\s,;]+/)` with anything in them; there is nothing to trim. -/
def parts (raw : Chars) : List Chars :=
  (raw.splitOnP isEntrySeparator).filter fun part => decide (part ≠ [])

/-- `replace(/^@/, "")` -/
def withoutAt : Chars → Chars
  | '@' :: s => s
  | s => s

/-- `replace(/\.$/, "")` -/
def withoutDot (s : Chars) : Chars := if s.getLast? = some '.' then s.dropLast else s

def envEntry (part : Chars) : Chars := withoutAt (lower part)

def formEntry (part : Chars) : Chars := withoutDot (envEntry lower part)

/-- `/^[a-z0-9.-]+$/` -/
def isUsable (d : Chars) : Bool :=
  !d.isEmpty && d.all fun c =>
    ('a' ≤ c && c ≤ 'z') || ('0' ≤ c && c ≤ '9') || c == '.' || c == '-'

def parseDomainList (raw : Chars) : List Chars :=
  (((parts raw).map (formEntry lower)).filter isUsable).eraseDups

def signUpAllowedDomains (raw : Chars) : List Chars :=
  ((parts raw).map (envEntry lower)).filter fun d => decide (d ≠ [])

/-! ## Signing up -/

def domainOf (email : Chars) : Option Chars :=
  if '@' ∈ email then some (lower (email.rtakeWhile fun c => decide (c ≠ '@'))) else none

def Matches (d domain : Chars) : Prop := domain = d ∨ ('.' :: d) <:+ domain

instance (d domain : Chars) : Decidable (Matches d domain) := inferInstanceAs (Decidable (_ ∨ _))

/-- `emailDomainAllowed`, on lists of characters. -/
def emailDomainAllowed (email : Chars) (domains : List Chars) : Bool :=
  match domains, domainOf lower email with
  | [], _ => true
  | _, none => false
  | domains, some domain => domains.any fun d => decide (Matches d domain)

/-- A sign-up: the domains, the mode, and whether the account is the first or an invitation
was found. -/
structure SignUp where
  domains : List Chars
  mode : SignUpMode
  isFirstUser : Bool
  invited : Bool

/-- `enforceSignUpPolicy` throws nothing. -/
def SignUp.admits (s : SignUp) (email : Chars) : Bool :=
  emailDomainAllowed lower (lower email) s.domains &&
    (s.isFirstUser || match s.mode with
      | .anyone => true
      | .invite => s.invited
      | .closed => false)

/-! ## What is promised -/

/-- An entry allows a domain, read with or without its trailing dot. -/
def Covers (part domain : Chars) : Prop :=
  Matches (formEntry lower part) domain ∨ Matches (envEntry lower part) domain

/-- A text with entries admits nobody outside of them. -/
def Restricts (raw : Chars) (domains : List Chars) : Prop :=
  parts raw ≠ [] → ∀ (s : SignUp) email, s.domains = domains → s.admits lower email = true →
    ∃ domain, domainOf lower (lower email) = some domain ∧
      ∃ part ∈ parts raw, Covers lower part domain

structure FailsClosed (raw : Chars) : Prop where
  form : Restricts lower raw (parseDomainList lower raw)
  env : Restricts lower raw (signUpAllowedDomains lower raw)
  same : ∀ (s : SignUp) email,
    SignUp.admits lower { s with domains := parseDomainList lower raw } email =
      SignUp.admits lower { s with domains := signUpAllowedDomains lower raw } email

/-- What the promise rests on: the form can use an entry, and an entry that only one of the
two uses allows no more than another one that the other uses. -/
structure Readable (raw : Chars) : Prop where
  usable : parts raw ≠ [] → ∃ part ∈ parts raw, isUsable (formEntry lower part) = true
  form : ∀ part ∈ parts raw, envEntry lower part ≠ [] → '@' ∉ envEntry lower part →
    ∃ other ∈ parts raw, isUsable (formEntry lower other) = true ∧
      Matches (formEntry lower other) (envEntry lower part)
  env : ∀ part ∈ parts raw, isUsable (formEntry lower part) = true →
    ∃ other ∈ parts raw, envEntry lower other ≠ [] ∧
      Matches (envEntry lower other) (formEntry lower part)

/-- Lower case: a text of characters that lower-cased texts have is one already. -/
structure LowerCase : Prop where
  stable : ∀ s : Chars, (∀ c ∈ s, ∃ t, c ∈ lower t) → lower s = s
  atSign : '@' ∈ lower ['@']

end lists

section proofs

variable {lower : Chars → Chars} {raw d d' domain : Chars}

theorem mem_parseDomainList :
    d ∈ parseDomainList lower raw ↔
      ∃ part ∈ parts raw, isUsable (formEntry lower part) = true ∧ formEntry lower part = d := by
  simp only [parseDomainList, mem_eraseDups, mem_filter, mem_map]
  constructor
  · rintro ⟨⟨part, hpart, rfl⟩, husable⟩
    exact ⟨part, hpart, husable, rfl⟩
  · rintro ⟨part, hpart, husable, rfl⟩
    exact ⟨⟨part, hpart, rfl⟩, husable⟩

theorem mem_signUpAllowedDomains :
    d ∈ signUpAllowedDomains lower raw ↔
      ∃ part ∈ parts raw, envEntry lower part ≠ [] ∧ envEntry lower part = d := by
  simp only [signUpAllowedDomains, mem_filter, mem_map, decide_eq_true_eq]
  constructor
  · rintro ⟨⟨part, hpart, rfl⟩, hne⟩
    exact ⟨part, hpart, hne, rfl⟩
  · rintro ⟨part, hpart, hne, rfl⟩
    exact ⟨⟨part, hpart, rfl⟩, hne⟩

variable {part : Chars}

theorem envEntry_ne_nil (h : isUsable (formEntry lower part) = true) :
    envEntry lower part ≠ [] := by
  intro hnil
  rw [formEntry, hnil] at h
  contradiction

theorem isUsable_not_mem (h : isUsable d = true) : '@' ∉ d := by
  intro hmem
  rw [isUsable, Bool.and_eq_true, all_eq_true] at h
  exact absurd (h.2 _ hmem) (by decide)

theorem Matches.trans (h : Matches d d') (h' : Matches d' domain) : Matches d domain := by
  rcases h with rfl | h
  · exact h'
  · rcases h' with rfl | h'
    · exact .inr h
    · exact .inr (h.trans ((suffix_cons _ _).trans h'))

theorem Matches.subset (h : Matches d domain) : d ⊆ domain := by
  rcases h with rfl | h
  · exact List.Subset.refl _
  · exact fun c hc => h.subset (mem_cons_of_mem _ hc)

variable {email : Chars} {domains : List Chars}

theorem emailDomainAllowed_iff (h : domains ≠ []) :
    emailDomainAllowed lower email domains = true ↔
      ∃ domain, domainOf lower email = some domain ∧ ∃ d ∈ domains, Matches d domain := by
  obtain ⟨d, ds, rfl⟩ := exists_cons_of_ne_nil h
  cases hdomain : domainOf lower email with
  | none => simp [emailDomainAllowed, hdomain]
  | some domain =>
    simp only [emailDomainAllowed, hdomain, any_eq_true, decide_eq_true_eq,
      Option.some.injEq, exists_eq_left']

theorem not_mem_domainOf (hlower : LowerCase lower)
    (h : domainOf lower (lower email) = some domain) : '@' ∉ domain := by
  unfold domainOf at h
  split at h
  · have hstable := hlower.stable _ fun c hc =>
      ⟨email, (rtakeWhile_suffix (fun c => decide (c ≠ '@')) _).subset hc⟩
    rw [hstable] at h
    cases h
    intro hmem
    have hne := mem_rtakeWhile_imp (p := fun c => decide (c ≠ '@')) hmem
    exact of_decide_eq_true hne rfl
  · contradiction

theorem domainOf_of_domain (hlower : LowerCase lower) (h : ∀ c ∈ d, ∃ t, c ∈ lower t)
    (hat : '@' ∉ d) : domainOf lower (lower ('@' :: d)) = some d := by
  have hemail : lower ('@' :: d) = '@' :: d := by
    apply hlower.stable
    intro c hc
    rcases mem_cons.mp hc with rfl | hc
    · exact ⟨_, hlower.atSign⟩
    · exact h c hc
  have hlast : ('@' :: d).rtakeWhile (fun c => decide (c ≠ '@')) = d :=
    (Trimming.cut_last (a := []) hat).2
  rw [hemail, domainOf, if_pos mem_cons_self, hlast, hlower.stable d h]

variable {c : Char}

theorem mem_envEntry (h : c ∈ envEntry lower part) : ∃ t, c ∈ lower t := by
  refine ⟨part, ?_⟩
  unfold envEntry withoutAt at h
  split at h
  · rename_i heq
    rw [heq]
    exact mem_cons_of_mem _ h
  · exact h

theorem mem_formEntry (h : c ∈ formEntry lower part) : ∃ t, c ∈ lower t := by
  refine mem_envEntry (?_ : c ∈ envEntry lower part)
  unfold formEntry withoutDot at h
  split at h
  · exact dropLast_subset _ h
  · exact h

def anyoneAt (domains : List Chars) : SignUp := ⟨domains, .anyone, false, false⟩

theorem anyoneAt_admits :
    (anyoneAt domains).admits lower email = emailDomainAllowed lower (lower email) domains := by
  simp [SignUp.admits, anyoneAt]

theorem restricts_of_covers (hne : parts raw ≠ [] → domains ≠ [])
    (hcovers : ∀ d ∈ domains, ∃ part ∈ parts raw, ∀ domain, Matches d domain →
      Covers lower part domain) : Restricts lower raw domains := by
  intro hparts s email hs hadmits
  subst hs
  rw [SignUp.admits, Bool.and_eq_true, emailDomainAllowed_iff (hne hparts)] at hadmits
  obtain ⟨domain, hdomain, d, hd, hmatches⟩ := hadmits.1
  obtain ⟨part, hpart, hcover⟩ := hcovers d hd
  exact ⟨domain, hdomain, part, hpart, hcover domain hmatches⟩

theorem Restricts.ne_nil (hlower : LowerCase lower)
    (h : Restricts lower raw domains) (hparts : parts raw ≠ []) : domains ≠ [] := by
  rintro rfl
  have hnil : lower [] = [] := hlower.stable [] (by simp)
  obtain ⟨domain, hdomain, -⟩ := h hparts (anyoneAt []) [] rfl (by simp [anyoneAt_admits,
    emailDomainAllowed])
  rw [hnil] at hdomain
  contradiction

variable {others : List Chars}

theorem allowed_of_matches (hlower : LowerCase lower) (hne : domains ≠ []) (hothers : others ≠ [])
    (hmatches : ∀ d ∈ domains, '@' ∉ d → ∃ d' ∈ others, Matches d' d)
    (h : emailDomainAllowed lower (lower email) domains = true) :
    emailDomainAllowed lower (lower email) others = true := by
  obtain ⟨domain, hdomain, d, hd, hmatch⟩ := (emailDomainAllowed_iff hne).mp h
  have hat : '@' ∉ d := fun hmem => not_mem_domainOf hlower hdomain (hmatch.subset hmem)
  obtain ⟨d', hd', hmatch'⟩ := hmatches d hd hat
  exact (emailDomainAllowed_iff hothers).mpr ⟨domain, hdomain, d', hd', hmatch'.trans hmatch⟩

theorem matches_of_allowed (hlower : LowerCase lower) (hothers : others ≠ [])
    (hsame : ∀ email, emailDomainAllowed lower (lower email) domains = true →
      emailDomainAllowed lower (lower email) others = true)
    (hd : d ∈ domains) (hchars : ∀ c ∈ d, ∃ t, c ∈ lower t) (hat : '@' ∉ d) :
    ∃ d' ∈ others, Matches d' d := by
  have hdomain := domainOf_of_domain hlower hchars hat
  have hallowed := hsame ('@' :: d)
    ((emailDomainAllowed_iff (ne_nil_of_mem hd)).mpr ⟨d, hdomain, d, hd, .inl rfl⟩)
  obtain ⟨domain, hdomain', d', hd', hmatch⟩ := (emailDomainAllowed_iff hothers).mp hallowed
  rw [hdomain] at hdomain'
  cases hdomain'
  exact ⟨d', hd', hmatch⟩

end proofs

/-- A list restricts sign-ups, the same in the form and in the environment, exactly where
it can be read. -/
theorem failsClosed_iff_readable (lower : Chars → Chars) (hlower : LowerCase lower)
    (raw : Chars) : FailsClosed lower raw ↔ Readable lower raw := by
  constructor
  · intro h
    have hsame : ∀ email, emailDomainAllowed lower (lower email) (parseDomainList lower raw) =
        emailDomainAllowed lower (lower email) (signUpAllowedDomains lower raw) := by
      intro email
      rw [← anyoneAt_admits, ← anyoneAt_admits]
      exact h.same (anyoneAt []) email
    refine ⟨fun hparts => ?_, fun part hpart hne hat => ?_, fun part hpart husable => ?_⟩
    · obtain ⟨d, ds, heq⟩ := exists_cons_of_ne_nil (h.form.ne_nil hlower hparts)
      obtain ⟨part, hpart, husable, -⟩ :=
        mem_parseDomainList.mp (heq ▸ mem_cons_self : d ∈ parseDomainList lower raw)
      exact ⟨part, hpart, husable⟩
    · obtain ⟨d, hd, hmatch⟩ := matches_of_allowed hlower
        (h.form.ne_nil hlower (ne_nil_of_mem hpart)) (fun email => (hsame email).trans)
        (mem_signUpAllowedDomains.mpr ⟨part, hpart, hne, rfl⟩) (fun _ => mem_envEntry) hat
      obtain ⟨other, hother, husable, rfl⟩ := mem_parseDomainList.mp hd
      exact ⟨other, hother, husable, hmatch⟩
    · obtain ⟨d, hd, hmatch⟩ := matches_of_allowed hlower
        (h.env.ne_nil hlower (ne_nil_of_mem hpart)) (fun email => (hsame email).symm.trans)
        (mem_parseDomainList.mpr ⟨part, hpart, husable, rfl⟩) (fun _ => mem_formEntry)
        (isUsable_not_mem husable)
      obtain ⟨other, hother, hne, rfl⟩ := mem_signUpAllowedDomains.mp hd
      exact ⟨other, hother, hne, hmatch⟩
  · intro h
    have hform : parts raw ≠ [] → parseDomainList lower raw ≠ [] := by
      intro hparts
      obtain ⟨part, hpart, husable⟩ := h.usable hparts
      exact ne_nil_of_mem (mem_parseDomainList.mpr ⟨part, hpart, husable, rfl⟩)
    have henv : parts raw ≠ [] → signUpAllowedDomains lower raw ≠ [] := by
      intro hparts
      obtain ⟨part, hpart, husable⟩ := h.usable hparts
      exact ne_nil_of_mem
        (mem_signUpAllowedDomains.mpr ⟨part, hpart, envEntry_ne_nil husable, rfl⟩)
    refine ⟨restricts_of_covers hform fun d hd => ?_, restricts_of_covers henv fun d hd => ?_,
      fun s email => ?_⟩
    · obtain ⟨part, hpart, -, rfl⟩ := mem_parseDomainList.mp hd
      exact ⟨part, hpart, fun domain hmatch => .inl hmatch⟩
    · obtain ⟨part, hpart, -, rfl⟩ := mem_signUpAllowedDomains.mp hd
      exact ⟨part, hpart, fun domain hmatch => .inr hmatch⟩
    · by_cases hparts : parts raw = []
      · simp [SignUp.admits, parseDomainList, signUpAllowedDomains, hparts]
      · have hallowed : emailDomainAllowed lower (lower email) (parseDomainList lower raw) =
            emailDomainAllowed lower (lower email) (signUpAllowedDomains lower raw) := by
          apply Bool.eq_iff_iff.mpr
          constructor
          · apply allowed_of_matches hlower (hform hparts) (henv hparts)
            intro d hd _
            obtain ⟨part, hpart, husable, rfl⟩ := mem_parseDomainList.mp hd
            obtain ⟨other, hother, hne, hmatch⟩ := h.env part hpart husable
            exact ⟨_, mem_signUpAllowedDomains.mpr ⟨other, hother, hne, rfl⟩, hmatch⟩
          · apply allowed_of_matches hlower (henv hparts) (hform hparts)
            intro d hd hat
            obtain ⟨part, hpart, hne, rfl⟩ := mem_signUpAllowedDomains.mp hd
            obtain ⟨other, hother, husable, hmatch⟩ := h.form part hpart hne hat
            exact ⟨_, mem_parseDomainList.mpr ⟨other, hother, husable, rfl⟩, hmatch⟩
        simp only [SignUp.admits, hallowed]

theorem lowerCase_ascii : LowerCase (List.map Char.toLower) := by
  refine ⟨fun s h => ?_, by decide⟩
  have hid : ∀ c ∈ s, c.toLower = id c := by
    intro c hc
    obtain ⟨t, ht⟩ := h c hc
    obtain ⟨x, -, rfl⟩ := mem_map.mp ht
    unfold Char.toLower
    grind
  rw [map_congr_left hid, map_id]

theorem failsClosed_example :
    FailsClosed (List.map Char.toLower) "@Example.com, eu.example.com".toList ∧
      ¬FailsClosed (List.map Char.toLower) "example.com.".toList :=
  ⟨(failsClosed_iff_readable _ lowerCase_ascii _).mpr
      ⟨by decide +kernel, by decide +kernel, by decide +kernel⟩,
    fun h => absurd ((failsClosed_iff_readable _ lowerCase_ascii _).mp h).env (by decide +kernel)⟩

/-- Saved in the form, an internationalised name lets everybody sign up. -/
theorem international_name_opens : ¬ ∀ lower, LowerCase lower → ∀ raw, FailsClosed lower raw := by
  intro h
  have hform := (h _ lowerCase_ascii "münchen.de".toList).form
  exact hform.ne_nil lowerCase_ascii (by decide +kernel) (by decide +kernel)

end Chicoree.Memberships.DomainLists
