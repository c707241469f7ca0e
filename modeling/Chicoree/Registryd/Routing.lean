import Chicoree.Registryd.Pushes

/-! # Routing

`routeV2`: the path of a request is cut at the first segment that starts an API sub-path.
Names have one or two components, or any number in an organization that is a proxy cache. -/

namespace Chicoree.Registryd.Routing

open List

abbrev Chars := List Char

/-! ## Names -/

inductive NameState where
  | start
  | word
  | joint
  | underscore
  | dashes
deriving DecidableEq

def NameState.next : NameState → Char → Option NameState
  | .start, c | .joint, c => if isLowerNum c then some .word else none
  | .word, c =>
    if isLowerNum c then some .word
    else if c = '.' then some .joint
    else if c = '_' then some .underscore
    else if c = '-' then some .dashes
    else if c = '/' then some .start
    else none
  | .underscore, c =>
    if isLowerNum c then some .word else if c = '_' then some .joint else none
  | .dashes, c => if isLowerNum c then some .word else if c = '-' then some .dashes else none

/-- `nameRe`: words joined by `.`, `_`, `__` or dashes, in components. -/
def nameRe (name : Chars) : Bool := decide (name.foldlM NameState.next .start = some .word)

def isRouteMarker (seg : Chars) : Bool :=
  decide (seg ∈ ["manifests".toList, "blobs".toList, "tags".toList, "referrers".toList])

inductive Method where
  | get
  | head
  | post
  | put
  | patch
  | delete
  | other
deriving DecidableEq

/-- A handler with the reference it is called with. -/
inductive Operation where
  | tagsList
  | manifestGet (reference : Chars)
  | manifestPut (reference : Chars)
  | manifestDelete (reference : Chars)
  | referrers (digest : Chars)
  | uploadStart
  | uploadPatch (id : Chars)
  | uploadCommit (id : Chars)
  | uploadStatus (id : Chars)
  | uploadCancel (id : Chars)
  | blobGet (digest : Chars)
  | blobDelete (digest : Chars)
deriving DecidableEq

def Operation.action : Operation → String
  | .tagsList | .manifestGet _ | .referrers _ | .uploadStatus _ | .blobGet _ => "pull"
  | .manifestPut _ | .uploadStart | .uploadPatch _ | .uploadCommit _ | .uploadCancel _ => "push"
  | .manifestDelete _ | .blobDelete _ => "delete"

inductive Route where
  | base
  | catalog
  /-- `withAuth` with the name, the action and the handler. -/
  | handle (name : Chars) (action : String) (op : Operation)
  | error (status : Nat) (code message : String)
deriving DecidableEq

/-! ## `routeV2` -/

def unknownRoute : Route := .error 404 "NAME_UNKNOWN" "unknown route"

def methodNotAllowed : Route := .error 405 "UNSUPPORTED" "method not allowed"

def trimPrefix (p s : Chars) : Chars := if p.isPrefixOf s then s.drop p.length else s

/-- The name and the segments after it; `proxied` tells the proxy caches. -/
def splitName (proxied : Chars → Bool) : List Chars → Except Route (Chars × List Chars)
  | a :: b :: c :: tail =>
    if isRouteMarker b then .ok (a, b :: c :: tail)
    else if 2 ≤ tail.length ∧ ¬ isRouteMarker c then
      match tail.dropWhile fun seg => !isRouteMarker seg with
      | [] => .error unknownRoute
      | rest =>
        if proxied a then
          .ok (['/'].intercalate (a :: b :: c :: tail.takeWhile fun seg => !isRouteMarker seg),
            rest)
        else .error (.error 404 "NAME_UNKNOWN"
          ("repository paths are <org>/<repo>; deeper paths are only available in " ++
            "proxy-cache organizations"))
    else if 1 ≤ tail.length then .ok (a ++ '/' :: b, c :: tail)
    else .error (.error 404 "NAME_UNKNOWN"
      "unknown route; repository paths are <org>/<repo> or <repo>")
  | _ => .error (.error 404 "NAME_UNKNOWN"
      "unknown route; repository paths are <org>/<repo> or <repo>")

/-- What follows `blobs/uploads`. -/
def uploadOperation (m : Method) : List Chars → Except Route Operation
  | [] | [[]] =>
    if m = .post then .ok .uploadStart
    else .error (.error 404 "BLOB_UPLOAD_UNKNOWN" "unknown upload route")
  | [id] =>
    match m with
    | .patch => .ok (.uploadPatch id)
    | .put => .ok (.uploadCommit id)
    | .get => .ok (.uploadStatus id)
    | .delete => .ok (.uploadCancel id)
    | _ => .error methodNotAllowed
  | _ => .error (.error 404 "BLOB_UPLOAD_UNKNOWN" "unknown upload route")

def manifestOperation (m : Method) (ref : Chars) : Except Route Operation :=
  match m with
  | .get | .head => .ok (.manifestGet ref)
  | .put => .ok (.manifestPut ref)
  | .delete => .ok (.manifestDelete ref)
  | _ => .error methodNotAllowed

def blobOperation (m : Method) (digest : Chars) : Except Route Operation :=
  match m with
  | .get | .head => .ok (.blobGet digest)
  | .delete => .ok (.blobDelete digest)
  | _ => .error methodNotAllowed

def operation (m : Method) : List Chars → Except Route Operation
  | kind :: ref :: tail =>
    if tail = [] ∧ kind = "tags".toList ∧ ref = "list".toList then .ok .tagsList
    else if tail = [] ∧ kind = "manifests".toList then manifestOperation m ref
    else if tail = [] ∧ kind = "referrers".toList then .ok (.referrers ref)
    else if kind = "blobs".toList ∧ ref = "uploads".toList then uploadOperation m tail
    else if tail = [] ∧ kind = "blobs".toList then blobOperation m ref
    else .error unknownRoute
  | _ => .error unknownRoute

def routeV2 (proxied : Chars → Bool) (m : Method) (urlPath : Chars) : Route :=
  let path := trimPrefix "/".toList (trimPrefix "/v2".toList urlPath)
  if path = [] then .base
  else if path = "_catalog".toList then .catalog
  else
    match splitName proxied (path.splitOn '/') with
    | .error r => r
    | .ok (name, rest) =>
      if !nameRe name then .error 400 "NAME_INVALID"
        "invalid repository name; expected <org>/<repo> or <repo> with lowercase components"
      else
        match operation m rest with
        | .error r => r
        | .ok op => .handle name op.action op

def uploadLocation (name id : Chars) : Chars :=
  "/v2/".toList ++ name ++ "/blobs/uploads/".toList ++ id

def blobLocation (name digest : Chars) : Chars :=
  "/v2/".toList ++ name ++ "/blobs/".toList ++ digest

/-! ## Paths of operations -/

def Operation.segments : Operation → List Chars
  | .tagsList => ["tags".toList, "list".toList]
  | .manifestGet ref | .manifestPut ref | .manifestDelete ref => ["manifests".toList, ref]
  | .referrers digest => ["referrers".toList, digest]
  | .uploadStart => ["blobs".toList, "uploads".toList, []]
  | .uploadPatch id | .uploadCommit id | .uploadStatus id | .uploadCancel id =>
    ["blobs".toList, "uploads".toList, id]
  | .blobGet digest | .blobDelete digest => ["blobs".toList, digest]

def Operation.path (name : Chars) (op : Operation) : Chars :=
  "/v2/".toList ++ (name ++ '/' :: ['/'].intercalate op.segments)

def Operation.serves : Operation → Method → Bool
  | .tagsList, m | .referrers _, m | .uploadStatus _, m => m = .get
  | .manifestGet _, m | .blobGet _, m => m = .get ∨ m = .head
  | .manifestPut _, m | .uploadCommit _, m => m = .put
  | .manifestDelete _, m | .blobDelete _, m | .uploadCancel _, m => m = .delete
  | .uploadStart, m => m = .post
  | .uploadPatch _, m => m = .patch

def Operation.Valid : Operation → Prop
  | .tagsList | .uploadStart => True
  | .manifestGet ref | .manifestPut ref | .manifestDelete ref =>
    isTagName (String.ofList ref) = true ∨ isDigest (String.ofList ref) = true
  | .uploadPatch id | .uploadCommit id | .uploadStatus id | .uploadCancel id =>
    id ≠ [] ∧ '/' ∉ id
  | .referrers digest | .blobGet digest | .blobDelete digest =>
    isDigest (String.ofList digest) = true

structure Unmarked (name : Chars) : Prop where
  grammar : nameRe name = true
  plain : ∀ c ∈ name.splitOn '/', isRouteMarker c = false

/-- A deeper name belongs to a proxy cache. -/
def Served (proxied : Chars → Bool) (name : Chars) : Prop :=
  ∀ a b c tail, name.splitOn '/' = a :: b :: c :: tail → proxied a = true

structure RoutingExact (proxied : Chars → Bool) : Prop where
  routed : ∀ name op m, Unmarked name → Served proxied name → op.Valid → op.serves m = true →
    routeV2 proxied m (op.path name) = .handle name op.action op
  locations : ∀ name ref, uploadLocation name ref = (Operation.uploadPatch ref).path name ∧
    blobLocation name ref = (Operation.blobGet ref).path name
  distinct : ∀ name (op : Operation) name' (op' : Operation), Unmarked name → op.Valid → Unmarked name' → op'.Valid →
    op.path name = op'.path name' → name = name' ∧ op.segments = op'.segments ∧
      ∀ m, op.serves m = true → op'.serves m = true → op = op'

section proofs

variable {proxied : Chars → Bool} {name : Chars} {op : Operation} {m : Method}

theorem isTagName_chars {ref : Chars} (h : isTagName (String.ofList ref) = true) : '/' ∉ ref := by
  unfold isTagName at h
  rw [String.toList_ofList] at h
  cases ref with
  | nil => contradiction
  | cons c cs =>
    simp only [Bool.and_eq_true, all_eq_true] at h
    intro hmem
    rcases mem_cons.mp hmem with rfl | hmem
    · exact absurd h.1.1 (by decide)
    · exact absurd (h.2 _ hmem) (by decide)

theorem isDigest_ref {ref : Chars} (h : isDigest (String.ofList ref) = true) :
    '/' ∉ ref ∧ ref ≠ "uploads".toList := by
  obtain ⟨-, hchars⟩ := isDigest_chars h
  rw [String.toList_ofList] at hchars
  refine ⟨fun hmem => absurd (hchars _ hmem) (by decide), ?_⟩
  rintro rfl
  exact absurd h (by decide)

theorem Operation.Valid.segments (h : op.Valid) :
    ∃ kind ref tail, op.segments = kind :: ref :: tail ∧ isRouteMarker kind = true ∧
      ∀ seg ∈ op.segments, '/' ∉ seg := by
  cases op with
  | tagsList | uploadStart => exact ⟨_, _, _, rfl, by decide, by decide⟩
  | manifestGet ref | manifestPut ref | manifestDelete ref =>
    have href : '/' ∉ ref := h.elim isTagName_chars fun h => (isDigest_ref h).1
    refine ⟨_, _, _, rfl, by decide, ?_⟩
    simp [Operation.segments, href]
  | uploadPatch id | uploadCommit id | uploadStatus id | uploadCancel id =>
    refine ⟨_, _, _, rfl, by decide, ?_⟩
    simp [Operation.segments, h.2]
  | referrers digest | blobGet digest | blobDelete digest =>
    refine ⟨_, _, _, rfl, by decide, ?_⟩
    simp [Operation.segments, (isDigest_ref h).1]

theorem splitOn_path (h : op.Valid) : (name ++ '/' :: ['/'].intercalate op.segments).splitOn '/' =
      name.splitOn '/' ++ op.segments := by
  obtain ⟨kind, ref, tail, hsegs, -, hplain⟩ := h.segments
  rw [splitOn_append_cons_self, splitOn_intercalate '/' hplain (by simp [hsegs])]

theorem splitName_tail (hplain : ∀ c ∈ (name.splitOn '/').tail, isRouteMarker c = false)
    (hserved : Served proxied name) (h : op.Valid) :
    splitName proxied (name.splitOn '/' ++ op.segments) = .ok (name, op.segments) := by
  obtain ⟨kind, ref, tail, hsegs, hmarker, -⟩ := h.segments
  have hjoin : ['/'].intercalate (name.splitOn '/') = name := intercalate_splitOn '/'
  rw [hsegs]
  cases hcomps : name.splitOn '/' with
  | nil => exact absurd hcomps (splitOn_ne_nil '/' name)
  | cons a rest =>
    rw [hcomps] at hjoin hplain
    cases rest with
    | nil =>
      rw [← hjoin]
      simp [splitName, hmarker]
    | cons b rest =>
      have hb : isRouteMarker b = false := hplain b (by simp)
      cases rest with
      | nil =>
        rw [← hjoin]
        simp [splitName, hb, hmarker, List.intercalate]
      | cons c rest =>
        have hc : isRouteMarker c = false := hplain c (by simp)
        have hrest : ∀ seg ∈ rest, (!isRouteMarker seg) = true := fun seg hseg => by
          simp [hplain seg (by simp [hseg])]
        have hdrop : (rest ++ kind :: ref :: tail).dropWhile (fun seg => !isRouteMarker seg) =
            kind :: ref :: tail := by
          rw [dropWhile_append_of_pos hrest, dropWhile_cons_of_neg (by simp [hmarker])]
        have htake : (rest ++ kind :: ref :: tail).takeWhile (fun seg => !isRouteMarker seg) =
            rest := by
          rw [takeWhile_append_of_pos hrest, takeWhile_cons_of_neg (by simp [hmarker]),
            append_nil]
        have hlength : 2 ≤ (rest ++ kind :: ref :: tail).length := by
          simp
          omega
        simp only [cons_append, splitName, hb, hc, Bool.false_eq_true, if_false, hlength,
          not_false_eq_true, and_self, if_true, hdrop, htake, hserved a b c rest hcomps, hjoin]

theorem splitName_segments (hname : Unmarked name) (hserved : Served proxied name)
    (h : op.Valid) : splitName proxied (name.splitOn '/' ++ op.segments) =
      .ok (name, op.segments) :=
  splitName_tail (fun c hc => hname.plain c (mem_of_mem_tail hc)) hserved h

theorem operation_blob {digest : Chars} (h : digest ≠ "uploads".toList) :
    operation m ["blobs".toList, digest] = blobOperation m digest := by
  have htags : "blobs".toList ≠ "tags".toList := by decide
  have hmanifests : "blobs".toList ≠ "manifests".toList := by decide
  have hreferrers : "blobs".toList ≠ "referrers".toList := by decide
  simp only [operation, htags, hmanifests, hreferrers, h, false_and, and_false, and_true,
    if_false, if_true]

theorem operation_segments (h : op.Valid) (hm : op.serves m = true) :
    operation m op.segments = .ok op := by
  cases op with
  | tagsList => rfl
  | uploadStart =>
    obtain rfl : m = .post := of_decide_eq_true hm
    rfl
  | manifestGet ref =>
    rcases of_decide_eq_true hm with rfl | rfl <;> rfl
  | manifestPut ref | manifestDelete ref =>
    obtain rfl := of_decide_eq_true hm
    rfl
  | referrers digest => rfl
  | uploadPatch id | uploadCommit id | uploadStatus id | uploadCancel id =>
    obtain rfl := of_decide_eq_true hm
    obtain ⟨c, cs, rfl⟩ := exists_cons_of_ne_nil h.1
    rfl
  | blobGet digest =>
    rw [Operation.segments, operation_blob (isDigest_ref h).2]
    rcases of_decide_eq_true hm with rfl | rfl <;> rfl
  | blobDelete digest =>
    rw [Operation.segments, operation_blob (isDigest_ref h).2]
    obtain rfl := of_decide_eq_true hm
    rfl

theorem routeV2_eq (h : op.Valid) : routeV2 proxied m (op.path name) =
    match splitName proxied (name.splitOn '/' ++ op.segments) with
    | .error r => r
    | .ok (n, rest) =>
      if !nameRe n then .error 400 "NAME_INVALID"
        "invalid repository name; expected <org>/<repo> or <repo> with lowercase components"
      else
        match operation m rest with
        | .error r => r
        | .ok op => .handle n op.action op := by
  have htrim : trimPrefix "/".toList (trimPrefix "/v2".toList (op.path name)) =
      name ++ '/' :: ['/'].intercalate op.segments := by
    simp [trimPrefix, Operation.path]
  have hslash : '/' ∈ name ++ '/' :: ['/'].intercalate op.segments := by simp
  unfold routeV2
  simp only [htrim]
  rw [if_neg (ne_nil_of_mem hslash), if_neg (fun heq => absurd (heq ▸ hslash) (by decide)),
    splitOn_path h]

theorem routeV2_of_split (h : op.Valid) (hm : op.serves m = true) (hgrammar : nameRe name = true)
    (hsplit : splitName proxied (name.splitOn '/' ++ op.segments) = .ok (name, op.segments)) :
    routeV2 proxied m (op.path name) = .handle name op.action op := by
  rw [routeV2_eq h, hsplit]
  simp [hgrammar, operation_segments h hm]

theorem routeV2_path (hname : Unmarked name) (hserved : Served proxied name) (h : op.Valid)
    (hm : op.serves m = true) : routeV2 proxied m (op.path name) = .handle name op.action op :=
  routeV2_of_split h hm hname.grammar (splitName_segments hname hserved h)

end proofs

/-- **Routing is exact.** -/
theorem routing_exact (proxied : Chars → Bool) : RoutingExact proxied := by
  refine ⟨fun name op m => routeV2_path, fun name ref => ⟨?_, ?_⟩, ?_⟩
  · simp [uploadLocation, Operation.path, Operation.segments, List.intercalate]
  · simp [blobLocation, Operation.path, Operation.segments, List.intercalate]
  · intro name op name' op' hname h hname' h' hpath
    have hany (name : Chars) : Served (fun _ => true) name := fun _ _ _ _ _ => rfl
    have hsegs : name.splitOn '/' ++ op.segments = name'.splitOn '/' ++ op'.segments := by
      rw [← splitOn_path h, ← splitOn_path h', append_cancel_left hpath]
    have hsplit := splitName_segments hname (hany name) h
    rw [hsegs, splitName_segments hname' (hany name') h'] at hsplit
    obtain ⟨rfl, hops⟩ := Prod.mk.inj (Except.ok.inj hsplit)
    refine ⟨rfl, hops.symm, fun m hm hm' => ?_⟩
    have hop := operation_segments h hm
    rw [← hops, operation_segments h' hm'] at hop
    exact (Except.ok.inj hop).symm

/-- A tag of a proxy cache, under a deeper name. -/
theorem routing_exact_proxied : routeV2 (fun org => decide (org = "hub".toList)) .get
    ((Operation.manifestGet "latest".toList).path "hub/library/nginx".toList) =
      .handle "hub/library/nginx".toList "pull" (.manifestGet "latest".toList) := by
  refine (routing_exact _).routed _ _ _ ⟨by decide +kernel, by decide +kernel⟩ ?_
    (.inl (by decide +kernel)) rfl
  intro a b c tail h
  have hsplit : "hub/library/nginx".toList.splitOn '/' =
      ["hub".toList, "library".toList, "nginx".toList] := by decide +kernel
  cases hsplit.symm.trans h
  rfl

end Chicoree.Registryd.Routing
