import Chicoree.Registryd.Store

/-! # Tag rules

`tagrules.go`: which tags a rule covers, and the refusals of a re-point or a
delete. A rule names tags by a glob; the rules of the repository itself come
before the organization-wide ones. -/

namespace Chicoree.Registryd

structure TagRule where
  pattern : String
  immutable : Bool
  protected_ : Bool
  /-- `none` for an organization-wide rule. -/
  repositoryId : Option RepoId := none
deriving DecidableEq

structure TagRuleRow where
  organizationId : OrgId
  rule : TagRule

/-! ## Globs -/

/-- The loop of `MatchTagGlob`: `p` and `n` walk over pattern and name, `star`
remembers the last `*` and how much of the name it has swallowed. -/
def matchLoop (pattern name : List Char) :
    Nat → Nat → Nat → Option (Nat × Nat) → Bool
  | 0, _, _, _ => false
  | fuel + 1, p, n, star =>
    if n < name.length then
      if p < pattern.length ∧ (pattern[p]? = some '?' ∨ pattern[p]? = name[n]?) then
        matchLoop pattern name fuel (p + 1) (n + 1) star
      else if pattern[p]? = some '*' then
        -- try the rest with zero characters first
        matchLoop pattern name fuel (p + 1) n (some (p, n))
      else
        match star with
        | some (starP, starN) =>
          matchLoop pattern name fuel (starP + 1) (starN + 1) (some (starP, starN + 1))
        | none => false
    else (pattern.drop p).all (· = '*')

/-- Each step moves on in both, remembers a star, or backtracks by one character
of the name. -/
def matchFuel (pattern name : List Char) : Nat :=
  (pattern.length + 2) * (name.length + 2)

/-- `*` matches any run of characters, `?` exactly one, everything else itself. -/
def matchTagGlob (pattern name : String) : Bool :=
  let p := pattern.toList
  let n := name.toList
  matchLoop p n (matchFuel p n) 0 0 none

/-! ## Rules -/

/-- The first rule matching the tag for which `want` holds. -/
def firstRule (rules : List TagRule) (tag : String) (want : TagRule → Bool) : Option TagRule :=
  rules.find? fun r => want r && matchTagGlob r.pattern tag

def immutableRule (rules : List TagRule) (tag : String) : Option TagRule :=
  firstRule rules tag (·.immutable)

def protectedRule (rules : List TagRule) (tag : String) : Option TagRule :=
  firstRule rules tag (·.protected_)

/-- The rules that apply to a repository, its own first. The rows are taken in
the order of their patterns. -/
def tagRulesFor (rows : List TagRuleRow) (orgId : OrgId) (repoId : RepoId) : List TagRule :=
  let rules := (rows.filter fun r => decide (r.organizationId = orgId)).map (·.rule)
  rules.filter (fun r => decide (r.repositoryId = some repoId)) ++
    rules.filter fun r => decide (r.repositoryId = none)

/-! ## Refusals -/

def shortDigest (d : Digest) : String :=
  String.ofList (d.toList.take 19)

/-- A violation of a tag rule, answered with 403 and its message. -/
inductive PolicyError where
  | immutable (tag : String) (current : Digest) (rule : TagRule)
  | protectedTag (tag : String) (rule : TagRule)
  | protectedManifest (digest : Digest) (tag : String) (rule : TagRule)

def PolicyError.message : PolicyError → String
  | .immutable tag current rule =>
    "tag " ++ tag ++ " is immutable (rule \"" ++ rule.pattern ++
      "\"): it already points at " ++ shortDigest current ++ " and cannot be re-pointed"
  | .protectedTag tag rule =>
    "tag " ++ tag ++ " is protected (rule \"" ++ rule.pattern ++
      "\") and cannot be deleted"
  | .protectedManifest digest tag rule =>
    "manifest " ++ shortDigest digest ++ " is tagged " ++ tag ++
      ", which is protected (rule \"" ++ rule.pattern ++
      "\"); the tag must be unprotected first"

/-- The check of a re-point: the same digest again, or a tag that does not exist
yet, is always allowed. -/
def checkImmutable (rules : List TagRule) (tag : String) (current : Option Digest)
    (d : Digest) : Except PolicyError Unit :=
  match current with
  | none => .ok ()
  | some cur =>
    if cur = d then .ok ()
    else
      match immutableRule rules tag with
      | some r => .error (.immutable tag cur r)
      | none => .ok ()

def checkTagDeletable (rules : List TagRule) (tag : String) : Except PolicyError Unit :=
  match protectedRule rules tag with
  | some r => .error (.protectedTag tag r)
  | none => .ok ()

/-- `CheckManifestDeletable`, for the tags that point at the manifest. -/
def checkManifestDeletable (rules : List TagRule) (d : Digest) :
    List String → Except PolicyError Unit
  | [] => .ok ()
  | t :: ts =>
    match protectedRule rules t with
    | some r => .error (.protectedManifest d t r)
    | none => checkManifestDeletable rules d ts

variable {rules : List TagRule} {tag : String} {d : Digest}

theorem checkImmutable_ok {cur : Digest} (h : checkImmutable rules tag (some cur) d = .ok ()) :
    cur = d ∨ immutableRule rules tag = none := by
  unfold checkImmutable at h
  split at h
  · contradiction
  · rename_i c hc
    cases hc
    split at h
    · exact .inl ‹_›
    · split at h
      · contradiction
      · exact .inr ‹_›

theorem checkTagDeletable_ok
    (h : checkTagDeletable rules tag = .ok ()) : protectedRule rules tag = none := by
  unfold checkTagDeletable at h
  split at h
  · contradiction
  · assumption

theorem checkManifestDeletable_ok
    {tags : List String} (h : checkManifestDeletable rules d tags = .ok ()) :
    ∀ t ∈ tags, protectedRule rules t = none := by
  induction tags with
  | nil =>
    intro t ht
    simp at ht
  | cons t ts ih =>
    unfold checkManifestDeletable at h
    split at h
    · contradiction
    · intro u hu
      rcases List.mem_cons.mp hu with rfl | hu
      · assumption
      · exact ih h u hu

end Chicoree.Registryd
