import Chicoree.PullBlocks.Refresh

/-! # What a refresh computes and writes

Which manifests a refresh blocks, for which reasons, as statements about what it read; and
that its writes leave exactly the rows it computed. -/

namespace Chicoree.PullBlocks

open List Table
open Registryd (Digest)
open Web (isIndexRow coveredChildren)

/-! ## Entries -/

variable {m : Reasons} {d : Digest} {why : String}

theorem Reasons.get_eq_some (h : Table.Keyed Prod.fst m) : m.get d = some why ↔ (d, why) ∈ m := by
  unfold Reasons.get
  rw [Option.map_eq_some_iff]
  constructor
  · rintro ⟨⟨d', why'⟩, hfind, rfl⟩
    obtain ⟨hmem, rfl⟩ := find_some hfind
    exact hmem
  · intro hmem
    exact ⟨(d, why), h.find_self hmem, rfl⟩

theorem Reasons.keyed_nil : Table.Keyed Prod.fst ([] : Reasons) := nodup_nil

theorem Reasons.keyed_set (h : Table.Keyed Prod.fst m) (d : Digest)
    (why : String) : Table.Keyed Prod.fst (m.set d why) := h.upsert _

/-! ## The marks of the scans -/

/-- The indexes and their children, as the second loop inherits blocks. -/
def scheme : Inherit.Scheme ManifestRow Digest String where
  key r := r.digest
  children r := r.children
  derive := variantReason

variable (lower : String → String)

def own (rd : Reading) : Inherit.Marks Digest String := fun d =>
  if d ∈ rd.rows.map (·.digest) then ownViolation lower rd d else none

section scans

variable {lower : String → String} {rd : Reading}

theorem keyed_foldl_blockScanned (h : Table.Keyed Prod.fst m) (rows : List ManifestRow) :
    Table.Keyed Prod.fst (rows.foldl (blockScanned lower rd) m) := by
  induction rows generalizing m with
  | nil => exact h
  | cons r rows ih =>
    rw [foldl_cons]
    apply ih
    unfold blockScanned
    cases ownViolation lower rd r.digest with
    | none => exact h
    | some why => exact Reasons.keyed_set h _ _

theorem get_foldl_blockScanned (rows : List ManifestRow) (m : Reasons) (d : Digest) :
    (rows.foldl (blockScanned lower rd) m).get d =
      if d ∈ rows.map (·.digest) then (ownViolation lower rd d).or (m.get d) else m.get d := by
  induction rows generalizing m with
  | nil => rfl
  | cons r rows ih =>
    rw [foldl_cons, ih]
    unfold blockScanned
    cases hown : ownViolation lower rd r.digest with
    | none =>
      by_cases hd : d = r.digest
      · subst hd
        simp [hown]
      · simp [hd]
    | some why =>
      by_cases hd : d = r.digest
      · subst hd
        simp [hown, Reasons.get_set_self]
      · simp [hd, Reasons.get_set_ne hd]

theorem get_blockOwn (d : Digest) : (blockOwn lower rd).get d = own lower rd d := by
  unfold blockOwn own
  rw [get_foldl_blockScanned]
  have hempty : Reasons.get [] d = none := rfl
  rw [hempty, Option.or_none]

theorem blockIndex_eq (blocked : Reasons) (r : ManifestRow) :
    (blockIndex blocked r).get = scheme.visit blocked.get r := by
  funext d
  unfold blockIndex Inherit.Scheme.visit Inherit.Scheme.hit
  cases hhit : r.children.find? fun c => (blocked.get c).isSome with
  | none =>
    have hhit' : (scheme.children r).find? (fun c => (blocked.get c).isSome) = none := hhit
    simp only [hhit']
  | some hit =>
    have hhit' : (scheme.children r).find? (fun c => (blocked.get c).isSome) = some hit := hhit
    have hmark : (blocked.get hit).isSome := find?_some (p := fun c => (blocked.get c).isSome) hhit
    obtain ⟨why, hwhy⟩ := Option.isSome_iff_exists.mp hmark
    simp only [hhit', hwhy, Option.getD_some, Option.map_some]
    by_cases hd : d = r.digest
    · subst hd
      rw [Reasons.get_set_self]
      exact (Function.update_self (f := blocked.get) _ _).symm
    · rw [Reasons.get_set_ne hd]
      exact (Function.update_of_ne hd _ _).symm

variable {blocked : Reasons}

theorem keyed_blockIndex (h : Table.Keyed Prod.fst blocked)
    (r : ManifestRow) : Table.Keyed Prod.fst (blockIndex blocked r) := by
  unfold blockIndex
  split
  · exact h
  · exact Reasons.keyed_set h _ _

theorem keyed_foldl_blockIndex (h : Table.Keyed Prod.fst blocked)
    (rows : List ManifestRow) : Table.Keyed Prod.fst (rows.foldl blockIndex blocked) := by
  induction rows generalizing blocked with
  | nil => exact h
  | cons r _ ih => exact ih (keyed_blockIndex h r)

theorem get_foldl_blockIndex (blocked : Reasons) (rows : List ManifestRow) :
    (rows.foldl blockIndex blocked).get = scheme.pass blocked.get rows := by
  induction rows generalizing blocked with
  | nil => rfl
  | cons r rows ih =>
    rw [foldl_cons, ih, blockIndex_eq]
    rfl

theorem keyed_blockedByScan : Table.Keyed Prod.fst (blockedByScan lower rd) := by
  unfold blockedByScan
  split
  · exact keyed_foldl_blockIndex (keyed_foldl_blockScanned Reasons.keyed_nil _) _
  · exact Reasons.keyed_nil

theorem own_of_no_level (lower : String → String)
    (h : (effectivePolicy rd.org rd.repo).level.isSome = false)
    (d : Digest) : own lower rd d = none := by
  have hnone : (effectivePolicy rd.org rd.repo).level = none := by simpa using h
  have hviolation (summary : Option SeveritySummary) :
      violation summary (effectivePolicy rd.org rd.repo) = none := by
    unfold violation
    rw [hnone]
  unfold own ownViolation
  split
  · split
    · rfl
    · split
      · exact hviolation _
      · rfl
  · rfl

theorem pass_of_none {m : Inherit.Marks Digest String} (hm : ∀ d, m d = none)
    (rows : List ManifestRow) : scheme.pass m rows = m := by
  induction rows with
  | nil => rfl
  | cons r rows ih =>
    show scheme.pass (scheme.visit m r) rows = m
    have hhit : scheme.hit m r = none := Inherit.hit_eq_none fun c _ => hm c
    rw [Inherit.visit_of_no_hit hhit, ih]

/-- The manifests blocked for vulnerabilities are what one pass over the rows marks. -/
theorem get_blockedByScan : (blockedByScan lower rd).get = scheme.pass (own lower rd) rd.rows := by
  have hown : (blockOwn lower rd).get = own lower rd := funext get_blockOwn
  unfold blockedByScan
  split
  · rw [get_foldl_blockIndex, hown]
  · rename_i hnot
    funext d
    have hempty : Reasons.get [] d = none := rfl
    by_cases hlevel : (effectivePolicy rd.org rd.repo).level.isSome = true
    · have hrows : rd.rows = [] := by
        by_contra hne
        exact hnot ⟨hlevel, hne⟩
      rw [hempty, hrows]
      unfold own
      rw [hrows]
      rfl
    · have hnone := own_of_no_level lower (Bool.eq_false_iff.mpr hlevel)
      rw [hempty, pass_of_none hnone, hnone]

end scans

/-! ## The signature policy -/

variable {us : List Digest}

section signatures

variable (rd : Reading)

/-- An index of the repository with a verified signature. -/
def VerifiedIndex (r : ManifestRow) : Prop :=
  r ∈ rd.rows ∧ isIndexRow r.mediaType = true ∧ r.digest ∈ verifiedDigests rd.signatures

def CoveredBy (d : Digest) : Prop :=
  ∃ r, VerifiedIndex rd r ∧ ∃ children, coveredChildren r.payload = some children ∧
    d ∈ children.filterMap textOf

/-- No payload makes a refresh under the signature policy throw. -/
structure Readable : Prop where
  artifacts : ∀ r ∈ rd.rows, (looksLikeArtifact r (tagsOf rd r.digest)).isSome
  children : ∀ r, VerifiedIndex rd r → (coveredChildren r.payload).isSome

/-- A manifest exempt from the signature policy: an artifact, or verified, or covered. -/
def Exempt (r : ManifestRow) : Prop :=
  looksLikeArtifact r (tagsOf rd r.digest) = some true ∨
    r.digest ∈ verifiedDigests rd.signatures ∨ CoveredBy rd r.digest

variable {rd}

variable {rows : List ManifestRow}

theorem coveredByIndex_isSome (hsub : ∀ r ∈ rows, r ∈ rd.rows) : (coveredByIndex rd rows).isSome ↔
      ∀ r ∈ rows, VerifiedIndex rd r → (coveredChildren r.payload).isSome := by
  induction rows with
  | nil => simp [coveredByIndex]
  | cons r rows ih =>
    have ih := ih fun q hq => hsub q (mem_cons_of_mem _ hq)
    unfold coveredByIndex
    by_cases hv : isIndexRow r.mediaType = true ∧ r.digest ∈ verifiedDigests rd.signatures
    · have hvr : VerifiedIndex rd r := ⟨hsub r mem_cons_self, hv⟩
      rw [if_pos hv]
      cases hch : coveredChildren r.payload with
      | none => simp [hvr, hch]
      | some children =>
        cases hrest : coveredByIndex rd rows with
        | none =>
          rw [hrest] at ih
          simp only [Option.isSome_none, Bool.false_eq_true, false_iff] at ih ⊢
          exact fun h => ih fun q hq => h q (mem_cons_of_mem _ hq)
        | some rest =>
          rw [hrest] at ih
          simp only [Option.isSome_some, true_iff] at ih ⊢
          intro q hq hvq
          rcases mem_cons.mp hq with rfl | hq
          · simp [hch]
          · exact ih q hq hvq
    · have hvr : ¬ VerifiedIndex rd r := fun h => hv h.2
      rw [if_neg hv, ih]
      simp [hvr]

variable {covered : List Digest}

theorem mem_coveredByIndex (hsub : ∀ r ∈ rows, r ∈ rd.rows)
    (h : coveredByIndex rd rows = some covered) (d : Digest) :
    d ∈ covered ↔ ∃ r ∈ rows, VerifiedIndex rd r ∧ ∃ children,
      coveredChildren r.payload = some children ∧ d ∈ children.filterMap textOf := by
  induction rows generalizing covered with
  | nil =>
    cases h
    simp
  | cons r rows ih =>
    have hsub' : ∀ q ∈ rows, q ∈ rd.rows := fun q hq => hsub q (mem_cons_of_mem _ hq)
    unfold coveredByIndex at h
    by_cases hv : isIndexRow r.mediaType = true ∧ r.digest ∈ verifiedDigests rd.signatures
    · have hvr : VerifiedIndex rd r := ⟨hsub r mem_cons_self, hv⟩
      rw [if_pos hv] at h
      cases hch : coveredChildren r.payload with
      | none => simp [hch] at h
      | some children =>
        cases hrest : coveredByIndex rd rows with
        | none => simp [hch, hrest] at h
        | some rest =>
          simp only [hch, hrest, Option.some.injEq] at h
          subst h
          rw [mem_append, ih hsub' hrest, exists_mem_cons_iff]
          refine or_congr ?_ Iff.rfl
          constructor
          · intro hd
            exact ⟨hvr, children, hch, hd⟩
          · rintro ⟨-, children', hch', hd⟩
            rw [hch] at hch'
            cases hch'
            exact hd
    · have hvr : ¬ VerifiedIndex rd r := fun h => hv h.2
      rw [if_neg hv] at h
      rw [ih hsub' h, exists_mem_cons_iff]
      simp [hvr]

theorem unsignedRows_spec (rows : List ManifestRow) : ((unsignedRows rd covered rows).isSome ↔
      ∀ r ∈ rows, (looksLikeArtifact r (tagsOf rd r.digest)).isSome) ∧
    ∀ us, unsignedRows rd covered rows = some us →
      us = (rows.filter fun r => !(decide (looksLikeArtifact r (tagsOf rd r.digest) = some true ∨
        r.digest ∈ verifiedDigests rd.signatures ∨ r.digest ∈ covered))).map (·.digest) := by
  induction rows with
  | nil => simp [unsignedRows]
  | cons r rows ih =>
    obtain ⟨ihsome, iheq⟩ := ih
    unfold unsignedRows
    cases hart : looksLikeArtifact r (tagsOf rd r.digest) with
    | none => simp [hart]
    | some artifact =>
      cases hrest : unsignedRows rd covered rows with
      | none =>
        rw [hrest] at ihsome
        simp only [Option.isSome_none, Bool.false_eq_true, false_iff, forall_mem_cons,
          not_and] at ihsome ⊢
        exact ⟨fun _ => ihsome, nofun⟩
      | some rest =>
        have hsplit : (if artifact = true ∨ r.digest ∈ verifiedDigests rd.signatures ∨
            r.digest ∈ covered then some rest else some (r.digest :: rest)).isSome = true := by
          split <;> rfl
        refine ⟨⟨fun _ => ?_, fun _ => hsplit⟩, fun us hus => ?_⟩
        · rw [forall_mem_cons, hart]
          exact ⟨rfl, ihsome.mp (by simp [hrest])⟩
        · have hiff : (looksLikeArtifact r (tagsOf rd r.digest) = some true ∨
              r.digest ∈ verifiedDigests rd.signatures ∨ r.digest ∈ covered) ↔
                (artifact = true ∨ r.digest ∈ verifiedDigests rd.signatures ∨
                  r.digest ∈ covered) := by
            rw [hart, Option.some.injEq]
          rw [filter_cons]
          by_cases hex : artifact = true ∨ r.digest ∈ verifiedDigests rd.signatures ∨
              r.digest ∈ covered
          · simp only [if_pos hex, Option.some.injEq] at hus
            rw [decide_eq_true (hiff.mpr hex)]
            exact hus ▸ iheq rest hrest
          · simp only [if_neg hex, Option.some.injEq] at hus
            rw [decide_eq_false (fun h => hex (hiff.mp h))]
            rw [← hus, iheq rest hrest]
            rfl

theorem unsigned_isSome : (unsigned rd).isSome ↔
    (effectiveSignaturePolicy rd.org rd.repo = true → Readable rd) := by
  unfold unsigned
  by_cases hpolicy : rd.rows ≠ [] ∧ effectiveSignaturePolicy rd.org rd.repo = true
  · have hcovered : (coveredByIndex rd rd.rows).isSome ↔
        ∀ r ∈ rd.rows, VerifiedIndex rd r → (coveredChildren r.payload).isSome :=
      coveredByIndex_isSome fun r hr => hr
    rw [if_pos hpolicy]
    cases hc : coveredByIndex rd rd.rows with
    | none =>
      simp only [hc, Option.isSome_none, Bool.false_eq_true, false_iff] at hcovered ⊢
      exact fun h => hcovered fun r _ hv => (h hpolicy.2).children r hv
    | some covered =>
      simp only [hc, Option.isSome_some, true_iff] at hcovered ⊢
      rw [(unsignedRows_spec rd.rows).1]
      exact ⟨fun h _ => ⟨h, fun r hv => hcovered r hv.1 hv⟩, fun h => (h hpolicy.2).artifacts⟩
  · rw [if_neg hpolicy]
    refine ⟨fun _ hsig => ?_, fun _ => rfl⟩
    have hrows : rd.rows = [] := by
      by_contra hne
      exact hpolicy ⟨hne, hsig⟩
    constructor
    · intro r hr
      rw [hrows] at hr
      cases hr
    · intro r hv
      have hr := hv.1
      rw [hrows] at hr
      cases hr

theorem mem_unsigned (h : unsigned rd = some us) (d : Digest) :
    d ∈ us ↔ effectiveSignaturePolicy rd.org rd.repo = true ∧
      ∃ r ∈ rd.rows, r.digest = d ∧ ¬ Exempt rd r := by
  unfold unsigned at h
  by_cases hpolicy : rd.rows ≠ [] ∧ effectiveSignaturePolicy rd.org rd.repo = true
  · rw [if_pos hpolicy] at h
    split at h
    · cases h
    · rename_i covered hc
      have hcovered (e : Digest) : e ∈ covered ↔ CoveredBy rd e := by
        rw [mem_coveredByIndex (fun r hr => hr) hc]
        exact ⟨fun ⟨r, _, hr⟩ => ⟨r, hr⟩, fun ⟨r, hr⟩ => ⟨r, hr.1.1, hr⟩⟩
      rw [(unsignedRows_spec rd.rows).2 us h]
      simp only [mem_map, mem_filter, Bool.not_eq_true', decide_eq_false_iff_not,
        hcovered, hpolicy.2, true_and]
      exact ⟨fun ⟨r, ⟨hr, hnot⟩, hd⟩ => ⟨r, hr, hd, hnot⟩,
        fun ⟨r, hr, hd, hnot⟩ => ⟨r, ⟨hr, hnot⟩, hd⟩⟩
  · rw [if_neg hpolicy] at h
    cases h
    simp only [not_mem_nil, false_iff, not_and]
    rintro hsig ⟨r, hr, -⟩
    exact hpolicy ⟨ne_nil_of_mem hr, hsig⟩

theorem nodup_unsigned (hrows : Table.Keyed (·.digest) rd.rows)
    (h : unsigned rd = some us) : us.Nodup := by
  unfold unsigned at h
  split at h
  · split at h
    · cases h
    · rw [(unsignedRows_spec rd.rows).2 us h]
      exact hrows.filter _
  · cases h
    exact nodup_nil

end signatures

/-! ## The rows -/

section rows

variable {c : Computed}

theorem get_foldl_addUnsigned (h : us.Nodup) (m : Reasons) (d : Digest) :
    (us.foldl addUnsigned m).get d =
      if d ∈ us then some (signatureReason (m.get d)) else m.get d := by
  induction us generalizing m with
  | nil => rfl
  | cons u us ih =>
    obtain ⟨hu, hus⟩ := nodup_cons.mp h
    rw [foldl_cons, ih hus]
    unfold addUnsigned
    by_cases hd : d = u
    · subst hd
      simp [hu, Reasons.get_set_self]
    · simp [hd, Reasons.get_set_ne hd]

theorem keyed_foldl_addUnsigned (h : Table.Keyed Prod.fst m) (us : List Digest) :
    Table.Keyed Prod.fst (us.foldl addUnsigned m) := by
  induction us generalizing m with
  | nil => exact h
  | cons u _ ih => exact ih (Reasons.keyed_set h _ _)

structure Computed.Sound (c : Computed) : Prop where
  blocked : Table.Keyed Prod.fst c.blocked
  unsigned : c.unsigned.Nodup

theorem compute_sound {lower : String → String} {rd : Reading}
    (hrows : Table.Keyed (·.digest) rd.rows) (h : compute lower rd = some c) : c.Sound := by
  obtain ⟨us, hus, rfl⟩ := Option.map_eq_some_iff.mp h
  exact ⟨keyed_blockedByScan, nodup_unsigned hrows hus⟩

theorem Computed.Sound.get_final (h : c.Sound) (d : Digest) : c.final.get d =
    if d ∈ c.unsigned then some (signatureReason (c.blocked.get d)) else c.blocked.get d :=
  get_foldl_addUnsigned h.unsigned _ _

theorem Computed.Sound.final (h : c.Sound) : Table.Keyed Prod.fst c.final :=
  keyed_foldl_addUnsigned h.blocked _

theorem Computed.Sound.rows (h : c.Sound) : Table.Keyed (·.digest) c.rows := by
  unfold Table.Keyed Computed.rows
  rw [map_map]
  exact h.final

variable {b : Block}

theorem Computed.Sound.mem_rows (h : c.Sound) : b ∈ c.rows ↔
    c.final.get b.digest = some b.reason ∧ b.pushersExempt = c.pushersExempt b.digest := by
  unfold Computed.rows
  rw [mem_map, Reasons.get_eq_some h.final]
  constructor
  · rintro ⟨⟨d, why⟩, hmem, rfl⟩
    exact ⟨hmem, rfl⟩
  · rintro ⟨hmem, hexempt⟩
    refine ⟨(b.digest, b.reason), hmem, ?_⟩
    rw [← hexempt]

theorem Computed.Sound.row (h : c.Sound)
    (hwhy : c.final.get d = some why) : ⟨d, why, c.pushersExempt d⟩ ∈ c.rows :=
  h.mem_rows.mpr ⟨hwhy, rfl⟩

theorem Computed.Sound.scan_block (h : c.Sound) (d : Digest) :
    (∃ b ∈ c.rows, b.digest = d ∧ b.pushersExempt = false) ↔ (c.blocked.get d).isSome := by
  constructor
  · rintro ⟨b, hb, rfl, hexempt⟩
    obtain ⟨hget, hpushers⟩ := h.mem_rows.mp hb
    rw [h.get_final] at hget
    by_cases hun : b.digest ∈ c.unsigned
    · unfold Computed.pushersExempt at hpushers
      rw [hexempt, decide_eq_true hun, Bool.true_and] at hpushers
      simpa using hpushers.symm
    · rw [if_neg hun] at hget
      simp [hget]
  · intro hsome
    obtain ⟨why, hwhy⟩ := Option.isSome_iff_exists.mp hsome
    have hexempt : c.pushersExempt d = false := by
      unfold Computed.pushersExempt
      rw [hwhy]
      exact Bool.and_false _
    have hfinal : ∃ why', c.final.get d = some why' := by
      rw [h.get_final, hwhy]
      split <;> exact ⟨_, rfl⟩
    obtain ⟨why', hwhy'⟩ := hfinal
    exact ⟨_, h.row hwhy', rfl, hexempt⟩

theorem foldl_delete (ds : List Digest) (blocks : List Block) :
    b ∈ ds.foldl (fun blocks d => blocks.filter fun b => decide (b.digest ≠ d)) blocks ↔
      b ∈ blocks ∧ b.digest ∉ ds := by
  induction ds generalizing blocks with
  | nil => simp
  | cons d ds ih =>
    rw [foldl_cons, ih]
    simp only [mem_filter, decide_eq_true_eq, mem_cons, not_or, and_assoc]

/-- **The writes** of a refresh with nothing in between leave the rows it computed. -/
theorem Computed.Sound.written (h : c.Sound) {existing : List Block}
    (hexisting : Table.Keyed (·.digest) existing) (b : Block) :
    b ∈ (c.writes existing).foldl BlockWrite.apply existing ↔ b ∈ c.rows := by
  have hnew : Table.Keyed (·.digest) (c.rows.filter fun b =>
      decide (Table.find (·.digest) b.digest existing ≠ some b)) := h.rows.filter _
  generalize hnewdef : (c.rows.filter fun b =>
    decide (Table.find (·.digest) b.digest existing ≠ some b)) = new at hnew
  have hmem (x : Block) : x ∈ new ↔
      x ∈ c.rows ∧ Table.find (·.digest) x.digest existing ≠ some x := by
    rw [← hnewdef, mem_filter, decide_eq_true_eq]
  have hafter : b ∈ (c.writes existing).foldl BlockWrite.apply existing ↔
      (Table.find (·.digest) b.digest new).or (Table.find (·.digest) b.digest existing) =
        some b ∧ ¬ ∃ e ∈ existing, c.final.get e.digest = none ∧ e.digest = b.digest := by
    unfold Computed.writes
    rw [hnewdef, foldl_append, foldl_map, foldl_map]
    have hdel := foldl_delete ((existing.filter fun e => (c.final.get e.digest).isNone).map
      (·.digest)) (new.foldl (fun blocks b => Table.upsert (·.digest) b blocks) existing)
      (b := b)
    rw [foldl_map] at hdel
    refine hdel.trans (and_congr ?_ (not_congr ?_))
    · rw [(hexisting.foldl_upsert new).mem_iff, find_foldl_upsert hnew]
    · simp only [mem_map, mem_filter, Option.isNone_iff_eq_none, and_assoc]
  rw [hafter]
  constructor
  · rintro ⟨hfind, hkept⟩
    rcases Option.or_eq_some_iff.mp hfind with hfound | ⟨hnone, hold⟩
    · exact ((hmem b).mp (find_some hfound).1).1
    · -- an old row that stays is the one computed for its digest
      have hbold := (find_some hold).1
      cases hget : c.final.get b.digest with
      | none => exact absurd ⟨b, hbold, hget, rfl⟩ hkept
      | some why =>
        have hrow := h.row hget
        by_contra hne
        have hmiss : Table.find (·.digest) b.digest existing ≠
            some ⟨b.digest, why, c.pushersExempt b.digest⟩ := by
          rw [hold]
          intro heq
          exact hne (Option.some.inj heq ▸ hrow)
        exact find_none hnone ((hmem _).mpr ⟨hrow, hmiss⟩) rfl
  · intro hb
    refine ⟨?_, ?_⟩
    · by_cases hsame : Table.find (·.digest) b.digest existing = some b
      · have hnone : Table.find (·.digest) b.digest new = none := by
          refine find?_eq_none.mpr fun x hx hkey => ?_
          obtain ⟨hxrow, hxne⟩ := (hmem x).mp hx
          have hxb : x = b := h.rows.eq_of_key hxrow hb (of_decide_eq_true hkey)
          exact hxne (hxb ▸ hsame)
        rw [hnone, hsame]
        rfl
      · rw [hnew.find_self ((hmem b).mpr ⟨hb, hsame⟩)]
        rfl
    · rintro ⟨e, -, hnone, hkey⟩
      have hget := (h.mem_rows.mp hb).1
      rw [← hkey, hnone] at hget
      cases hget

end rows

end Chicoree.PullBlocks
