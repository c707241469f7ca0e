import Chicoree.PullBlocks.Computed

/-! # Blocks of whole images

A refresh over a repository as its tables keep it: which manifests carry a block for a
vulnerability somewhere below them, which ones the signature of an index exempts, and that
the order of the rows does not show. Two loops inherit over one level of an index only. -/

namespace Chicoree.PullBlocks

open Option
open List
open Registryd (Digest)

/-! ## Digests and texts -/

variable {d : Digest}

theorem isDigest_shape (h : Registryd.isDigest d = true) :
    19 ≤ d.toList.length ∧ '(' ∉ d.toList := by
  obtain ⟨hlen, hchars⟩ := Registryd.isDigest_chars h
  exact ⟨by omega, fun hmem => absurd (hchars _ hmem) (by decide)⟩

theorem shortDigest_length (h : 19 ≤ d.toList.length) : (shortDigest d).toList.length = 12 := by
  unfold shortDigest
  rw [String.toList_ofList, length_take, length_drop]
  omega

theorem mem_shortDigest {c : Char} (h : c ∈ (shortDigest d).toList) : c ∈ d.toList := by
  unfold shortDigest at h
  rw [String.toList_ofList] at h
  exact mem_of_mem_drop (mem_of_mem_take h)

theorem variantReason_toList (d : Digest) (why : String) : (variantReason d why).toList =
    "variant ".toList ++ (shortDigest d).toList ++ ": ".toList ++ why.toList := by
  unfold variantReason
  simp only [String.toList_append]

variable {why why' : String}

theorem variantReason_inj {d' : Digest} (hd : 19 ≤ d.toList.length)
    (hd' : 19 ≤ d'.toList.length) (h : variantReason d why = variantReason d' why') :
    why = why' := by
  have hlist := congrArg String.toList h
  rw [variantReason_toList, variantReason_toList] at hlist
  have hlen : ("variant ".toList ++ (shortDigest d).toList ++ ": ".toList).length =
      ("variant ".toList ++ (shortDigest d').toList ++ ": ".toList).length := by
    simp only [length_append, shortDigest_length hd, shortDigest_length hd']
  exact String.toList_injective (append_inj hlist hlen).2

variable {part xs : List Char}

theorem containsList_append : Registryd.Manifest.containsList part (xs ++ part) = true := by
  induction xs with
  | nil =>
    rw [nil_append]
    cases part with
    | nil => rfl
    | cons c part => simp [Registryd.Manifest.containsList]
  | cons x xs ih =>
    rw [cons_append]
    unfold Registryd.Manifest.containsList
    rw [ih, Bool.or_true]

theorem mem_of_containsList {c : Char} (hc : c ∈ part)
    (h : Registryd.Manifest.containsList part xs = true) : c ∈ xs := by
  induction xs with
  | nil =>
    have hpart : part = [] := isEmpty_iff.mp h
    rw [hpart] at hc
    cases hc
  | cons x xs ih =>
    rcases Bool.or_eq_true_iff.mp h with h | h
    · exact (List.isPrefixOf_iff_prefix.mp h).subset hc
    · exact mem_cons_of_mem _ (ih h)

theorem not_signatureReason (h : '(' ∉ why.toList) : isSignatureBlockReason why = false := by
  refine Bool.eq_false_iff.mpr fun hsig => h ?_
  exact mem_of_containsList (by decide) hsig

theorem signatureReason_isSignature (why : Option String) :
    isSignatureBlockReason (signatureReason why) = true := by
  have hbase : signatureBlockReason.toList =
      "no signature from a trusted key or identity ".toList ++ "(signature policy)".toList := by
    decide
  unfold isSignatureBlockReason signatureReason
  cases why with
  | none =>
    simp only [hbase]
    exact containsList_append
  | some why =>
    simp only [String.toList_append, hbase]
    rw [← append_assoc]
    exact containsList_append

theorem signatureReason_inj
    (h : signatureReason (some why) = signatureReason (some why')) : why = why' := by
  have hlist := congrArg String.toList h
  unfold signatureReason at hlist
  simp only [String.toList_append, append_assoc] at hlist
  exact String.toList_injective (append_cancel_right hlist)

/-- What a refresh finds, as the keys of the tables and the check on pushed digests keep
it. -/
structure Contents where
  reading : Reading
  existing : List Block
  rows_keyed : Table.Keyed (·.digest) reading.rows
  scans_keyed : Table.Keyed (·.digest) reading.scans
  existing_keyed : Table.Keyed (·.digest) existing
  digests : ∀ r ∈ reading.rows, Registryd.isDigest r.digest = true

/-- The same rows, read in another order. -/
structure Reordered (c c' : Contents) : Prop where
  now : c'.reading.now = c.reading.now
  repo : c'.reading.repo = c.reading.repo
  org : c'.reading.org = c.reading.org
  rows : c'.reading.rows.Perm c.reading.rows
  scans : c'.reading.scans.Perm c.reading.scans
  rules : c'.reading.rules.Perm c.reading.rules
  tags : c'.reading.tags.Perm c.reading.tags
  signatures : c'.reading.signatures.Perm c.reading.signatures
  existing : c'.existing.Perm c.existing

/-- One manifest of the repository is reached from another through index children. -/
abbrev Reading.Reaches (rd : Reading) : Digest → Digest → Prop := scheme.Reaches rd.rows

variable (lower : String → String)

/-- The rows after a refresh: a block for a vulnerability exactly where a manifest that is
reached violates by its own scan, and no block for a missing signature below a verified
index. -/
structure Covers (rd : Reading) (after : List Block) : Prop where
  scans : ∀ r ∈ rd.rows, (∃ b ∈ after, b.digest = r.digest ∧ b.pushersExempt = false) ↔
    ∃ q ∈ rd.rows, rd.Reaches r.digest q.digest ∧ (ownViolation lower rd q.digest).isSome
  signatures : ∀ r, VerifiedIndex rd r → ∀ d, rd.Reaches r.digest d → ∀ b ∈ after,
    b.digest = d → isSignatureBlockReason b.reason = false

/-- The refresh returns, its blocks cover whole images, and no other order of the rows leaves
other blocks. -/
def WholeImages (c : Contents) : Prop :=
  ∃ after n, refreshRepositoryBlocks lower c.reading c.existing = some (after, n) ∧
    Covers lower c.reading after ∧ ∀ c', Reordered c c' → ∃ after' n',
        refreshRepositoryBlocks lower c'.reading c'.existing = some (after', n') ∧
          ∀ b, b ∈ after' ↔ b ∈ after

/-- Where one level of inheritance is enough. -/
structure OneLevel (rd : Reading) : Prop where
  /-- No payload makes the refresh throw. -/
  readable : effectiveSignaturePolicy rd.org rd.repo = true → Readable rd
  /-- The first child of an index that carries a violation violates by its own scan, and
  inherits none. -/
  scans : scheme.Flat (own lower rd) rd.rows
  /-- What is reached from a verified index is an artifact, verified, or a child of one. -/
  signatures : effectiveSignaturePolicy rd.org rd.repo = true → ∀ r, VerifiedIndex rd r →
    ∀ q ∈ rd.rows, rd.Reaches r.digest q.digest → Exempt rd q

section reordered

variable {lower} {c c' : Contents}

section

variable (h : Reordered c c')
include h

theorem Reordered.mem_rows (r : ManifestRow) :
    r ∈ c'.reading.rows ↔ r ∈ c.reading.rows := h.rows.mem_iff

theorem Reordered.own : own lower c'.reading = own lower c.reading := by
  funext d
  have hmem : d ∈ c'.reading.rows.map (·.digest) ↔ d ∈ c.reading.rows.map (·.digest) :=
    (h.rows.map _).mem_iff
  have hscan : Table.find (·.digest) d c'.reading.scans = Table.find (·.digest) d c.reading.scans :=
    c'.scans_keyed.find_congr c.scans_keyed (fun r => h.scans.mem_iff) d
  have hown : ownViolation lower c'.reading d = ownViolation lower c.reading d := by
    unfold ownViolation
    rw [hscan, h.repo, h.org, h.now]
    cases Table.find (·.digest) d c.reading.scans with
    | none => rfl
    | some scan =>
      simp only
      rw [effectiveScanSummary_congr fun r => h.rules.mem_iff]
  unfold PullBlocks.own
  simp only [hmem, hown]

theorem Reordered.verified (d : Digest) :
    d ∈ verifiedDigests c'.reading.signatures ↔ d ∈ verifiedDigests c.reading.signatures :=
  ((h.signatures.filter _).map _).mem_iff

theorem Reordered.artifact (r : ManifestRow) :
    looksLikeArtifact r (tagsOf c'.reading r.digest) =
      looksLikeArtifact r (tagsOf c.reading r.digest) := by
  have htags : (tagsOf c'.reading r.digest).any isCosignTag =
      (tagsOf c.reading r.digest).any isCosignTag :=
    ((h.tags.filter _).map _).any_eq
  unfold looksLikeArtifact
  rw [htags]

theorem Reordered.verifiedIndex (r : ManifestRow) :
    VerifiedIndex c'.reading r ↔ VerifiedIndex c.reading r := by
  unfold VerifiedIndex
  rw [h.mem_rows, h.verified]

theorem Reordered.exempt (r : ManifestRow) : Exempt c'.reading r ↔ Exempt c.reading r := by
  unfold Exempt CoveredBy
  simp only [h.artifact, h.verified, h.verifiedIndex]

theorem Reordered.readable (hr : Readable c.reading) : Readable c'.reading := by
  constructor
  · intro r hrow
    rw [h.artifact]
    exact hr.artifacts r ((h.mem_rows r).mp hrow)
  · intro r hv
    exact hr.children r ((h.verifiedIndex r).mp hv)

theorem Reordered.mem_unsigned {us us' : List Digest} (hus : unsigned c.reading = some us)
  (hus' : unsigned c'.reading = some us') (d : Digest) : d ∈ us' ↔ d ∈ us := by
  rw [PullBlocks.mem_unsigned hus, PullBlocks.mem_unsigned hus']
  simp only [h.org, h.repo, h.mem_rows, h.exempt]

end

end reordered

/-! ## The kinds of blocks -/

section kinds

variable {lower} {rd : Reading} {c : Computed}

/-- What is marked is a manifest of the repository, and no reason of a scan speaks of the
signature policy. -/
theorem blocked_shape (hdigests : ∀ r ∈ rd.rows, Registryd.isDigest r.digest = true)
    (h : scheme.pass (own lower rd) rd.rows d = some why) :
    d ∈ rd.rows.map (·.digest) ∧ '(' ∉ why.toList := by
  have hown (d : Digest) (why : String) (h : own lower rd d = some why) :
      d ∈ rd.rows.map (·.digest) ∧ '(' ∉ why.toList := by
    unfold own at h
    split at h
    · rename_i hmem
      refine ⟨hmem, ?_⟩
      unfold ownViolation at h
      split at h
      · cases h
      · split at h
        · exact violation_no_paren h
        · cases h
    · cases h
  have hpass (rows : List ManifestRow) (hsub : ∀ r ∈ rows, r ∈ rd.rows)
      (m : Inherit.Marks Digest String)
      (hm : ∀ d why, m d = some why → d ∈ rd.rows.map (·.digest) ∧ '(' ∉ why.toList) :
      ∀ d why, scheme.pass m rows d = some why → d ∈ rd.rows.map (·.digest) ∧ '(' ∉ why.toList := by
    induction rows generalizing m with
    | nil => exact hm
    | cons r rows ih =>
      refine ih (fun q hq => hsub q (mem_cons_of_mem _ hq)) _ fun d why hd => ?_
      by_cases hkey : d = r.digest
      · subst hkey
        cases hhit : scheme.hit m r with
        | none =>
          rw [Inherit.visit_of_no_hit hhit] at hd
          exact hm _ _ hd
        | some hit =>
          -- the reason names a child that is a manifest of the repository
          have hvisit : scheme.visit m r r.digest = (m hit).map (variantReason hit) :=
            Inherit.visit_of_hit hhit
          rw [hvisit] at hd
          obtain ⟨why', hwhy', rfl⟩ := map_eq_some_iff.mp hd
          obtain ⟨hmem, hparen⟩ := hm hit why' hwhy'
          refine ⟨mem_map_of_mem (hsub r mem_cons_self), fun hc => ?_⟩
          obtain ⟨q, hq, rfl⟩ := mem_map.mp hmem
          rw [variantReason_toList] at hc
          simp only [mem_append] at hc
          rcases hc with ((hc | hc) | hc) | hc
          · exact absurd hc (by decide)
          · exact (isDigest_shape (hdigests q hq)).2 (mem_shortDigest hc)
          · exact absurd hc (by decide)
          · exact hparen hc
      · rw [Inherit.visit_ne hkey] at hd
        exact hm d why hd
  exact hpass rd.rows (fun r hr => hr) _ hown d why h

theorem Computed.Sound.signature_block (h : c.Sound)
    (hparen : ∀ d why, c.blocked.get d = some why → '(' ∉ why.toList) (d : Digest) :
    (∃ b ∈ c.rows, b.digest = d ∧ isSignatureBlockReason b.reason = true) ↔ d ∈ c.unsigned := by
  constructor
  · rintro ⟨b, hb, rfl, hsig⟩
    by_contra hun
    have hget := (h.mem_rows.mp hb).1
    rw [h.get_final, if_neg hun] at hget
    rw [not_signatureReason (hparen _ _ hget)] at hsig
    cases hsig
  · intro hun
    have hget : c.final.get d = some (signatureReason (c.blocked.get d)) := by
      rw [h.get_final, if_pos hun]
    exact ⟨_, h.row hget, rfl, signatureReason_isSignature _⟩

variable {c' : Computed}

theorem Computed.Sound.blocked_of_rows (h : c.Sound) (h' : c'.Sound)
    (hrows : ∀ b, b ∈ c'.rows ↔ b ∈ c.rows) (hun : ∀ d, d ∈ c'.unsigned ↔ d ∈ c.unsigned)
    (hwhy : c.blocked.get d = some why) :
    c'.blocked.get d = some why := by
  have hexempt : c.pushersExempt d = false := by
    unfold Computed.pushersExempt
    rw [hwhy]
    exact Bool.and_false _
  by_cases hd : d ∈ c.unsigned
  · have hget : c.final.get d = some (signatureReason (some why)) := by
      rw [h.get_final, if_pos hd, hwhy]
    obtain ⟨hget', hexempt'⟩ := h'.mem_rows.mp ((hrows _).mpr (h.row hget))
    rw [h'.get_final, if_pos ((hun d).mpr hd)] at hget'
    cases hblocked : c'.blocked.get d with
    | none =>
      -- a row for the signature alone would exempt who may push
      rw [hexempt] at hexempt'
      unfold Computed.pushersExempt at hexempt'
      rw [hblocked, decide_eq_true ((hun d).mpr hd)] at hexempt'
      cases hexempt'
    | some why' =>
      rw [hblocked] at hget'
      rw [signatureReason_inj (Option.some.inj hget')]
  · have hget : c.final.get d = some why := by
      rw [h.get_final, if_neg hd, hwhy]
    have hget' : c'.final.get d = some why :=
      (h'.mem_rows.mp ((hrows _).mpr (h.row hget))).1
    rw [h'.get_final, if_neg fun hmem => hd ((hun d).mp hmem)] at hget'
    exact hget'

theorem Computed.Sound.rows_congr (h : c.Sound) (h' : c'.Sound)
    (hblocked : ∀ d, c'.blocked.get d = c.blocked.get d)
    (hun : ∀ d, d ∈ c'.unsigned ↔ d ∈ c.unsigned) (b : Block) : b ∈ c'.rows ↔ b ∈ c.rows := by
  rw [h.mem_rows, h'.mem_rows, h.get_final, h'.get_final]
  unfold Computed.pushersExempt
  simp only [hblocked, hun]

end kinds

/-! ## One level is enough, and needed -/

section exactly

variable {lower}

variable {c : Contents}

theorem refresh_eq {after : List Block} {n : Nat}
    (h : refreshRepositoryBlocks lower c.reading c.existing = some (after, n)) :
    ∃ out, compute lower c.reading = some out ∧ out.Sound ∧ (∀ b, b ∈ after ↔ b ∈ out.rows) ∧
      unsigned c.reading = some out.unsigned ∧
        out.blocked.get = scheme.pass (own lower c.reading) c.reading.rows := by
  obtain ⟨out, hout, heq⟩ := map_eq_some_iff.mp h
  obtain ⟨hafter, -⟩ := Prod.mk.inj heq
  have hsound := compute_sound c.rows_keyed hout
  obtain ⟨us, hus, rfl⟩ := map_eq_some_iff.mp hout
  refine ⟨_, hout, hsound, fun b => ?_, hus, get_blockedByScan⟩
  rw [← hafter]
  exact hsound.written c.existing_keyed b

theorem noParen {out : Computed}
    (hblocked : out.blocked.get = scheme.pass (own lower c.reading) c.reading.rows) (d : Digest)
    (why : String) (hd : out.blocked.get d = some why) : '(' ∉ why.toList := by
  rw [hblocked] at hd
  exact (blocked_shape c.digests hd).2

theorem refresh_isSome (lower : String → String) (c : Contents) :
    (∃ after n, refreshRepositoryBlocks lower c.reading c.existing = some (after, n)) ↔
      (effectiveSignaturePolicy c.reading.org c.reading.repo = true → Readable c.reading) := by
  rw [← unsigned_isSome]
  unfold refreshRepositoryBlocks compute
  cases unsigned c.reading with
  | none | some us => simp

theorem distinct (c : Contents) : scheme.Distinct c.reading.rows := c.rows_keyed

theorem apart (c : Contents) : scheme.Apart (own lower c.reading) c.reading.rows := by
  have hown {d : Digest} {why : String} (h : own lower c.reading d = some why) :
      (∃ r ∈ c.reading.rows, r.digest = d) ∧
        ∃ x rest, why.toList = x :: rest ∧ x.isDigit = true := by
    unfold own at h
    split at h
    · rename_i hmem
      obtain ⟨r, hr, hkey⟩ := mem_map.mp hmem
      refine ⟨⟨r, hr, hkey⟩, ?_⟩
      unfold ownViolation at h
      split at h
      · cases h
      · split at h
        · exact violation_digit h
        · cases h
    · cases h
  have houtright : ∀ k b d b', own lower c.reading k = some b → b ≠ variantReason d b' := by
    rintro k b d b' hk rfl
    obtain ⟨-, x, rest, hlist, hx⟩ := hown hk
    rw [variantReason_toList] at hlist
    have hv : x = 'v' := (List.cons.inj hlist).1.symm
    rw [hv] at hx
    exact absurd hx (by decide)
  refine ⟨houtright, fun k b r d b' hk hr heq => ?_⟩
  obtain ⟨⟨q, hq, rfl⟩, -⟩ := hown hk
  have hq19 := (isDigest_shape (c.digests q hq)).1
  have hr19 := (isDigest_shape (c.digests r hr)).1
  exact houtright _ b d b' hk (variantReason_inj hq19 hr19 heq)

theorem carries_iff {r : ManifestRow} :
    scheme.Carries (own lower c.reading) c.reading.rows r.digest ↔
      ∃ q ∈ c.reading.rows, c.reading.Reaches r.digest q.digest ∧
        (ownViolation lower c.reading q.digest).isSome := by
  constructor
  · rintro ⟨v, hv, hreach⟩
    unfold own at hv
    split at hv
    · rename_i hmem
      obtain ⟨q, hq, rfl⟩ := mem_map.mp hmem
      exact ⟨q, hq, hreach, hv⟩
    · cases hv
  · rintro ⟨q, hq, hreach, hv⟩
    refine ⟨q.digest, ?_, hreach⟩
    unfold own
    rw [if_pos (mem_map_of_mem hq)]
    exact hv

theorem mem_of_carries (h : scheme.Carries (own lower c.reading) c.reading.rows d) :
    ∃ r ∈ c.reading.rows, r.digest = d := by
  obtain ⟨v, hv, hreach⟩ := h
  cases hreach with
  | refl =>
    unfold own at hv
    split at hv
    · rename_i hmem
      exact mem_map.mp hmem
    · cases hv
  | @step r c' k hr hc hreach => exact ⟨r, hr, rfl⟩

/-- The blocks for vulnerabilities cover exactly what they should, in every order. -/
theorem settled_of_whole (h : WholeImages lower c) :
    scheme.Settled (own lower c.reading) c.reading.rows := by
  obtain ⟨after, n, hafter, hcovers, horder⟩ := h
  obtain ⟨out, -, hsound, hrows, hus, hblocked⟩ := refresh_eq hafter
  have hscan (d : Digest) : (∃ b ∈ after, b.digest = d ∧ b.pushersExempt = false) ↔
      (scheme.pass (own lower c.reading) c.reading.rows d).isSome := by
    rw [← hblocked, ← hsound.scan_block d]
    simp only [hrows]
  constructor
  · intro d
    rw [← hscan d]
    constructor
    · intro hb
      rw [hscan] at hb
      obtain ⟨why, hwhy⟩ := isSome_iff_exists.mp hb
      obtain ⟨r, hr, rfl⟩ := mem_map.mp (blocked_shape c.digests hwhy).1
      exact carries_iff.mpr ((hcovers.scans r hr).mp ((hscan _).mpr hb))
    · intro hcarries
      obtain ⟨r, hr, rfl⟩ := mem_of_carries hcarries
      exact (hcovers.scans r hr).mpr (carries_iff.mp hcarries)
  · intro rows' hperm
    -- the same contents with the rows in the other order
    have hnodup : (rows'.map fun r => r.digest).Nodup :=
      (hperm.map _).nodup_iff.mpr c.rows_keyed
    let c' : Contents :=
      { c with
        reading := { c.reading with rows := rows' }
        rows_keyed := hnodup
        digests := fun r hr => c.digests r (hperm.mem_iff.mp hr) }
    have hre : Reordered c c' := ⟨rfl, rfl, rfl, hperm, .refl _, .refl _, .refl _, .refl _, .refl _⟩
    obtain ⟨after', n', hafter', hsame⟩ := horder c' hre
    obtain ⟨out', -, hsound', hrows', hus', hblocked'⟩ := refresh_eq hafter'
    have hown : own lower c'.reading = own lower c.reading := hre.own
    have hboth (b : Block) : b ∈ out'.rows ↔ b ∈ out.rows := by
      rw [← hrows', ← hrows, hsame]
    have hun : ∀ d, d ∈ out'.unsigned ↔ d ∈ out.unsigned := hre.mem_unsigned hus hus'
    have hget (d : Digest) : out'.blocked.get d = out.blocked.get d := by
      refine Option.ext fun why => ⟨fun hwhy => ?_, fun hwhy => ?_⟩
      · exact hsound'.blocked_of_rows hsound (fun b => (hboth b).symm) (fun d => (hun d).symm) hwhy
      · exact hsound.blocked_of_rows hsound' hboth hun hwhy
    funext d
    have hd := hget d
    rw [hblocked, hblocked', hown] at hd
    exact hd

/-- **Whole images.** The blocks cover whole images, whatever the order of the rows, exactly
where one level of inheritance is enough. -/
theorem whole_images (c : Contents) : WholeImages lower c ↔ OneLevel lower c.reading := by
  constructor
  · intro h
    have hsettled := settled_of_whole h
    obtain ⟨after, n, hafter, hcovers, -⟩ := h
    obtain ⟨out, -, hsound, hrows, hus, hblocked⟩ := refresh_eq hafter
    refine ⟨(refresh_isSome lower c).mp ⟨after, n, hafter⟩,
      (Inherit.settled_iff (distinct c) (apart c)).mp hsettled, ?_⟩
    intro hpolicy r hv q hq hreach
    by_contra hexempt
    have hun : q.digest ∈ out.unsigned :=
      (mem_unsigned hus _).mpr ⟨hpolicy, q, hq, rfl, hexempt⟩
    obtain ⟨b, hb, hkey, hsig⟩ := (hsound.signature_block (noParen hblocked) _).mpr hun
    rw [hcovers.signatures r hv _ hreach b ((hrows b).mpr hb) hkey] at hsig
    cases hsig
  · intro h
    have hsettled := (Inherit.settled_iff (distinct c) (apart c)).mpr h.scans
    obtain ⟨after, n, hafter⟩ := (refresh_isSome lower c).mpr h.readable
    obtain ⟨out, -, hsound, hrows, hus, hblocked⟩ := refresh_eq hafter
    refine ⟨after, n, hafter, ⟨fun r _ => ?_, ?_⟩, fun c' hre => ?_⟩
    · simp only [hrows]
      rw [hsound.scan_block, hblocked, hsettled.marked, carries_iff]
    · intro r hv d hreach b hb hkey
      by_contra hsig
      have hun := (hsound.signature_block (noParen hblocked) d).mp
        ⟨b, (hrows b).mp hb, hkey, Bool.not_eq_false _ ▸ hsig⟩
      obtain ⟨hpolicy, q, hq, rfl, hexempt⟩ := (mem_unsigned hus d).mp hun
      exact hexempt (h.signatures hpolicy r hv q hq hreach)
    · have hreadable : effectiveSignaturePolicy c'.reading.org c'.reading.repo = true →
          Readable c'.reading := by
        rw [hre.org, hre.repo]
        exact fun hpolicy => hre.readable (h.readable hpolicy)
      obtain ⟨after', n', hafter'⟩ := (refresh_isSome lower c').mpr hreadable
      obtain ⟨out', -, hsound', hrows', hus', hblocked'⟩ := refresh_eq hafter'
      refine ⟨after', n', hafter', fun b => ?_⟩
      rw [hrows, hrows']
      refine hsound.rows_congr hsound' (fun d => ?_) (hre.mem_unsigned hus hus') b
      rw [hblocked', hblocked, hre.own, hsettled.order _ hre.rows]

end exactly

/-! ## An index in an index -/

def sampleDigest (c : Char) : Digest := "sha256:" ++ String.ofList (List.replicate 64 c)

def text (s : String) : JsonDoc := .str (CodePoints.ofString s)

def descriptor (mediaType : String) (digest : Digest) : JsonDoc :=
  .obj [("mediaType", text mediaType), ("digest", text digest), ("size", .int 2)]

def indexOf (mediaType : String) (child : Digest) : JsonDoc :=
  .obj [("schemaVersion", .int 2), ("mediaType", text Registryd.Manifest.mediaTypeOCIIndex),
    ("manifests", .arr [descriptor mediaType child])]

def imageOf (config : Digest) : JsonDoc :=
  .obj [("schemaVersion", .int 2), ("mediaType", text Registryd.Manifest.mediaTypeOCIManifest),
    ("config", descriptor Registryd.Manifest.ociImageConfig config), ("layers", .arr [])]

/-- An outer index, the index it lists, and the image that one lists, whose scan found a
critical vulnerability; critical findings are blocked. -/
def nested : Contents where
  reading :=
    { now := 0
      repo := ⟨"repo", "org", none, none, none⟩
      org := some ⟨some .critical, false, false⟩
      rows :=
        [⟨sampleDigest 'a', Registryd.Manifest.mediaTypeOCIIndex,
            some (indexOf Registryd.Manifest.mediaTypeOCIIndex (sampleDigest 'b')), none⟩,
          ⟨sampleDigest 'b', Registryd.Manifest.mediaTypeOCIIndex,
            some (indexOf Registryd.Manifest.mediaTypeOCIManifest (sampleDigest 'c')), none⟩,
          ⟨sampleDigest 'c', Registryd.Manifest.mediaTypeOCIManifest,
            some (imageOf (sampleDigest 'd')), none⟩]
      scans := [⟨sampleDigest 'c', some "repo", .scanned, none,
        some [⟨"CVE-2026-0001", .critical, "openssl"⟩], none⟩]
      rules := []
      tags := []
      signatures := [] }
  existing := []
  rows_keyed := by decide +kernel
  scans_keyed := by decide +kernel
  existing_keyed := by decide
  digests := by
    intro r hr
    simp only [mem_cons, not_mem_nil, or_false] at hr
    rcases hr with rfl | rfl | rfl <;> decide +kernel

theorem nested_not_whole : ¬ WholeImages id nested := by
  rintro ⟨after, n, hafter, hcovers, -⟩
  have hvalue : (refreshRepositoryBlocks id nested.reading nested.existing).map
      (fun out => out.1.map (·.digest)) = some [sampleDigest 'c', sampleDigest 'b'] := by
    decide +kernel
  rw [hafter] at hvalue
  have hdigests : after.map (·.digest) = [sampleDigest 'c', sampleDigest 'b'] :=
    Option.some.inj hvalue
  obtain ⟨outer, houter⟩ : ∃ outer, nested.reading.rows[0]? = some outer := ⟨_, rfl⟩
  obtain ⟨image, himage⟩ : ∃ image, nested.reading.rows[2]? = some image := ⟨_, rfl⟩
  have hreach : nested.reading.Reaches outer.digest image.digest := by
    cases houter
    cases himage
    refine .step (r := nested.reading.rows[0]) (c := sampleDigest 'b') (by simp) ?_ ?_
    · decide +kernel
    · refine .step (r := nested.reading.rows[1]) (c := sampleDigest 'c') (by simp) ?_ (.refl _)
      decide +kernel
  have hviolates : (ownViolation id nested.reading image.digest).isSome := by
    cases himage
    decide +kernel
  obtain ⟨b, hb, hkey, -⟩ := (hcovers.scans outer (mem_of_getElem? houter)).mpr
    ⟨image, mem_of_getElem? himage, hreach, hviolates⟩
  have hmem : outer.digest ∈ after.map (·.digest) := hkey ▸ mem_map_of_mem hb
  rw [hdigests] at hmem
  cases houter
  exact absurd hmem (by decide +kernel)

end Chicoree.PullBlocks

/-! ## What the signature policy lets through

After a refresh under the signature policy a manifest is pullable unsigned only where a verified
index lists it, or where it counts as an attached artifact. -/

namespace Chicoree.PullBlocks

open List
open Registryd (Digest)
open Web (layerMediaTypes configMediaType)

/-- Nothing in the manifest can be run: it has layers, and all are of artifact media types. -/
def ArtifactLayers (r : ManifestRow) : Prop :=
  ∃ layers, layerMediaTypes r.payload = some layers ∧ layers ≠ [] ∧ everyArtifact layers = some true

/-- What makes a manifest an attached artifact: a subject, a tag of cosign's form, the empty
config, or its layers. -/
def Attached (rd : Reading) (r : ManifestRow) : Prop :=
  truthyText r.subjectDigest = true ∨ (tagsOf rd r.digest).any isCosignTag = true ∨
    (configMediaType r.payload).bind textOf = some ociEmptyConfig ∨ ArtifactLayers r

def Verified (rd : Reading) (r : ManifestRow) : Prop := r.digest ∈ verifiedDigests rd.signatures

section artifacts

variable {rd : Reading} {r : ManifestRow}

theorem looksLikeArtifact_eq_true (hreadable : (looksLikeArtifact r (tagsOf rd r.digest)).isSome) :
    looksLikeArtifact r (tagsOf rd r.digest) = some true ↔ Attached rd r := by
  unfold Attached ArtifactLayers
  unfold looksLikeArtifact at hreadable ⊢
  cases hlayers : layerMediaTypes r.payload with
  | none => simp [hlayers] at hreadable
  | some layers =>
    by_cases hsubject : truthyText r.subjectDigest = true
    · simp [hsubject]
    · by_cases htag : (tagsOf rd r.digest).any isCosignTag = true
      · simp only [hsubject, htag, if_true, true_or, or_true]
        simp
      · by_cases hconfig : (configMediaType r.payload).bind textOf = some ociEmptyConfig
        · simp [hconfig]
        · by_cases hnil : layers = []
          · simp [hsubject, htag, hconfig, hnil]
          · simp [hsubject, htag, hconfig, hnil]

theorem exempt_iff (hreadable : (looksLikeArtifact r (tagsOf rd r.digest)).isSome) :
    Exempt rd r ↔ Verified rd r ∨ CoveredBy rd r.digest ∨ Attached rd r := by
  unfold Exempt
  rw [looksLikeArtifact_eq_true hreadable]
  tauto

end artifacts

/-- **Unsigned manifests are blocked**, attached artifacts apart: a manifest without a block is
verified, a child of a verified index, or attached; and those never have a block for a missing
signature. -/
theorem unsigned_are_blocked (lower : String → String) (c : Contents)
    (hpolicy : effectiveSignaturePolicy c.reading.org c.reading.repo = true)
    {after : List Block} {n : Nat}
    (hrefresh : refreshRepositoryBlocks lower c.reading c.existing = some (after, n)) :
    ∀ r ∈ c.reading.rows, ((∀ b ∈ after, b.digest ≠ r.digest) →
        Verified c.reading r ∨ CoveredBy c.reading r.digest ∨ Attached c.reading r) ∧
      ((∃ b ∈ after, b.digest = r.digest ∧ isSignatureBlockReason b.reason = true) ↔
        ¬ (Verified c.reading r ∨ CoveredBy c.reading r.digest ∨ Attached c.reading r)) := by
  intro r hr
  obtain ⟨out, -, hsound, hrows, hus, hblocked⟩ := refresh_eq hrefresh
  have hreadable : Readable c.reading := (refresh_isSome lower c).mp ⟨after, n, hrefresh⟩ hpolicy
  have hblock : (∃ b ∈ after, b.digest = r.digest ∧ isSignatureBlockReason b.reason = true) ↔
      ¬ (Verified c.reading r ∨ CoveredBy c.reading r.digest ∨ Attached c.reading r) := by
    simp only [hrows]
    rw [hsound.signature_block (noParen hblocked), mem_unsigned hus, ← exempt_iff (hreadable.artifacts r hr)]
    constructor
    · rintro ⟨-, q, hq, hkey, hnot⟩
      have hsame : q = r := c.rows_keyed.eq_of_key hq hr hkey
      exact hsame ▸ hnot
    · intro hnot
      exact ⟨hpolicy, r, hr, rfl, hnot⟩
  refine ⟨fun hnone => ?_, hblock⟩
  by_contra hnot
  obtain ⟨b, hb, hkey, -⟩ := hblock.mpr hnot
  exact hnone b hb hkey

def layerGzip : String := "application/vnd.oci.image.layer.v1.tar+gzip"

def runnable (configType : String) : JsonDoc :=
  .obj [("schemaVersion", .int 2), ("mediaType", text Registryd.Manifest.mediaTypeOCIManifest),
    ("config", descriptor configType (sampleDigest 'c')),
    ("layers", .arr [descriptor layerGzip (sampleDigest 'e')])]

def pushed (subject : Option Digest) (tag : String) (configType : String) : Contents where
  reading :=
    { now := 0
      repo := ⟨"repo", "org", none, none, none⟩
      org := some ⟨none, false, true⟩
      rows := [⟨sampleDigest 'a', Registryd.Manifest.mediaTypeOCIManifest,
        some (runnable configType), subject⟩]
      scans := []
      rules := []
      tags := [⟨tag, sampleDigest 'a'⟩]
      signatures := [] }
  existing := []
  rows_keyed := nodup_singleton _
  scans_keyed := nodup_nil
  existing_keyed := nodup_nil
  digests := by
    intro r hr
    rw [mem_singleton.mp hr]
    show Registryd.isDigest (sampleDigest 'a') = true
    decide +kernel

def blockedAfter (c : Contents) : Option (List Digest) :=
  (refreshRepositoryBlocks id c.reading c.existing).map fun out => out.1.map (·.digest)

theorem unsigned_are_blocked_plain : ∃ after n, refreshRepositoryBlocks id
    (pushed none "latest" Registryd.Manifest.ociImageConfig).reading [] = some (after, n) ∧
      after.map (·.digest) = [sampleDigest 'a'] ∧
      ∀ r ∈ (pushed none "latest" Registryd.Manifest.ociImageConfig).reading.rows,
        (∀ b ∈ after, b.digest ≠ r.digest) →
          Verified (pushed none "latest" Registryd.Manifest.ociImageConfig).reading r ∨
          CoveredBy (pushed none "latest" Registryd.Manifest.ociImageConfig).reading r.digest ∨
          Attached (pushed none "latest" Registryd.Manifest.ociImageConfig).reading r := by
  have hvalue : blockedAfter (pushed none "latest" Registryd.Manifest.ociImageConfig) =
      some [sampleDigest 'a'] := by
    decide +kernel
  obtain ⟨⟨after, n⟩, hafter, hdigests⟩ := Option.map_eq_some_iff.mp hvalue
  exact ⟨after, n, hafter, hdigests, fun r hr =>
    (unsigned_are_blocked id (pushed none "latest" Registryd.Manifest.ociImageConfig) rfl hafter
      r hr).1⟩

/-- What would admit no unsigned image that can be run. -/
def AdmitsNoUnsigned (c : Contents) : Prop :=
  effectiveSignaturePolicy c.reading.org c.reading.repo = true →
    ∀ after n, refreshRepositoryBlocks id c.reading c.existing = some (after, n) →
      ∀ r ∈ c.reading.rows, (∀ b ∈ after, b.digest ≠ r.digest) → Verified c.reading r ∨
        (∃ i, VerifiedIndex c.reading i ∧ c.reading.Reaches i.digest r.digest) ∨
        ArtifactLayers r

theorem not_admitsNoUnsigned {subject : Option Digest} {tag configType : String}
    (h : blockedAfter (pushed subject tag configType) = some []) :
    ¬ AdmitsNoUnsigned (pushed subject tag configType) := by
  intro hall
  obtain ⟨⟨after, n⟩, hafter, hnone⟩ := Option.map_eq_some_iff.mp h
  have hnil : after = [] := map_eq_nil_iff.mp hnone
  subst hnil
  have hlayers : layerMediaTypes (some (runnable configType)) = some [text layerGzip] := rfl
  rcases hall rfl [] n hafter _ (mem_singleton_self _) nofun with
    hverified | ⟨i, hindex, -⟩ | ⟨layers, hread, -, hevery⟩
  · cases hverified
  · cases hindex.2.2
  · rw [hlayers] at hread
    cases hread
    have hfiles : everyArtifact [text layerGzip] = some false := by decide +kernel
    rw [hfiles] at hevery
    cases hevery

/-- A subject, a tag of cosign's form or the empty config, each by itself, lets the unsigned
image through. -/
theorem dressed_images_pass :
    ¬ AdmitsNoUnsigned (pushed (some (sampleDigest 'f')) "latest" Registryd.Manifest.ociImageConfig) ∧
    ¬ AdmitsNoUnsigned
      (pushed none ("sha256-" ++ String.ofList (List.replicate 64 'f') ++ ".sig")
        Registryd.Manifest.ociImageConfig) ∧
    ¬ AdmitsNoUnsigned (pushed none "latest" ociEmptyConfig) := by
  refine ⟨not_admitsNoUnsigned ?_, not_admitsNoUnsigned ?_, not_admitsNoUnsigned ?_⟩
  · decide +kernel
  · decide +kernel
  · decide +kernel

end Chicoree.PullBlocks
