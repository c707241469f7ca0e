import Chicoree.Registryd.Linking

/-! # What each request does to repositories and links

One lemma for each handler: the links it adds are those its call is about. -/

namespace Chicoree.Registryd

open Option (map_eq_some_iff)
open List

variable {a : Answer} {rq : CommitRequest} {pc pc' : BlobGetPc} {t' : BlobTask} {org name : String}
  {d : Digest}

section handlers

variable {hash : Bytes → Digest}

theorem commitUpload_db {s s' : Storage} {pc : CommitPc}
    (h : commitUpload hash s rq pc a = some (s', t')) :
    DbEffect (generated (.answer a)) (Task.content (.commit rq pc)).target s.db s'.db := by
  cases commitUpload_call h with
  | more resolve | resolveAnswered resolve | resolved resolve =>
    exact (resolveStep_effect resolve).1
  | upsert row | upsertLost row => exact .upsertBlob row
  | _ => exact .refl s.db

theorem handleBlobDelete_db {s s' : Storage} {pc : DeletePc}
    (h : handleBlobDelete s org name d pc a = some (s', t')) :
    DbEffect (generated (.answer a)) none s.db s'.db := by
  cases handleBlobDelete_call h with
  | unlinkLast _ row | unlink _ row => exact .unlinkBlob row
  | _ => exact .refl s.db

theorem handleGC_db {s s' : Storage} {grace : Nat} {pc : GcPc}
    (h : handleGC s grace pc a = some (s', t')) :
    DbEffect (generated (.answer a)) none s.db s'.db := by
  cases handleGC_call h with
  | unlink | unlinkLost => exact .fewer rfl fun l hl => (mem_filter.mp hl).1
  | orphans | orphansLost => exact .other rfl rfl
  | ended | erase | kept => exact .refl s.db

variable {i : Nat} {s s' : Registry}

theorem blobAct_db {s s' : Storage} {t : BlobTask} (h : blobAct hash s i t a = some (s', t')) :
    DbEffect (generated (.answer a)) (Task.content t).target s.db s'.db := by
  cases t with
  | commit rq pc => exact commitUpload_db h
  | blobDelete org name d pc => exact handleBlobDelete_db h
  | gc grace pc => exact handleGC_db h
  | done status => simp [blobAct] at h

theorem tryMount_effect {rq : MountRequest} {pc pc' : MountPc}
    (h : tryMount s rq pc a = some (s', pc')) :
    RequestEffect (.mount rq pc) (.answer a) s s' := by
  cases tryMount_call h with
  | more resolve | resolveAnswered resolve | resolved resolve =>
    exact .withDb (resolveStep_effect resolve).1
  | mount row | mountLost row => exact .withDb (.mountBlob row)
  | _ => exact .refl s

theorem handleManifestPut_effect {rq : ManifestPut} {pc pc' : ManifestPutPc}
    (h : handleManifestPut s rq pc a = some (s', pc')) :
    RequestEffect (.manifestPut rq pc) (.answer a) s s' := by
  cases handleManifestPut_call h with
  | more resolve | resolveAnswered resolve | resolved resolve =>
    exact .withDb (resolveStep_effect resolve).1
  | upsert row | upsertLost row => exact .upsertManifest row
  | _ => exact .refl s

theorem handleManifestGet_effect {rq : ManifestGet} {pc pc' : ManifestGetPc} {a : Reply}
    (h : handleManifestGet s rq pc a = some (s', pc')) :
    RequestEffect (.manifestGet rq pc) a s s' := by
  cases handleManifestGet_call h with
  | read => exact .refl s
  | resolve step => exact .withDb (resolveStep_effect step).1
  | upsert _ row => exact .upsertManifest row

variable {dl : Download}

theorem joinDownload_call (h : joinDownload s dl = (s', i)) : s'.callDigest i = some dl.digest := by
  unfold joinDownload at h
  split at h
  · rename_i j hj
    cases h
    obtain ⟨hlt, hp, -⟩ := findIdx?_eq_some_iff_getElem.mp hj
    simp only [Bool.and_eq_true, decide_eq_true_eq] at hp
    simp [Registry.callDigest, getElem?_eq_getElem hlt, hp.1]
  · cases h
    simp [Registry.callDigest]

theorem joinDownload_effect {a : Reply} (h : joinDownload s dl = (s', i))
    (hpc : dl.pc = .openBlob) : RequestEffect t a s s' := by
  unfold joinDownload at h
  split at h <;> cases h
  · exact .refl s
  · refine ⟨.refl s.db, rfl, fun x hx => ?_, fun j d hj => ?_⟩
    · rcases mem_append.mp hx with hx | hx
      · exact .inl hx
      · rw [mem_singleton.mp hx]
        exact .inr hpc
    · unfold Registry.callDigest at hj ⊢
      obtain ⟨x, hx, hd⟩ := map_eq_some_iff.mp hj
      have hlt := (List.getElem?_eq_some_iff.mp hx).1
      rw [getElem?_append_left hlt, hx]
      exact congrArg some hd

theorem handleBlobGet_effect {rq : BlobGet} {a : Reply}
    (h : handleBlobGet s rq pc a = some (s', pc')) :
    RequestEffect (.blobGet rq pc) a s s' := by
  cases handleBlobGet_call h with
  | join joined => exact joinDownload_effect joined rfl
  | upsert row | upsertLost row => exact .withDb (.upsertBlob row)
  | _ => exact .refl s

theorem requestCall_effect {t' : Task} {a : Reply} (h : requestCall hash s i t a = some (s', t')) :
    RequestEffect t a s s' := by
  unfold requestCall at h
  split at h
  · obtain ⟨out, hout, h⟩ := map_eq_some_iff.mp h
    cases h
    exact .ofStorage (blobAct_db hout)
  · obtain ⟨out, hout, h⟩ := map_eq_some_iff.mp h
    cases h
    exact tryMount_effect hout
  · obtain ⟨out, hout, h⟩ := map_eq_some_iff.mp h
    cases h
    exact handleManifestPut_effect hout
  · obtain ⟨out, hout, h⟩ := map_eq_some_iff.mp h
    cases h
    exact handleManifestGet_effect hout
  · obtain ⟨out, hout, h⟩ := map_eq_some_iff.mp h
    cases h
    exact handleBlobGet_effect hout
  · cases h

end handlers

/-! ## What running requests have established

The assertion of each request between two of its calls, and what every step of the
registry keeps of it. -/

open Transition

section handlers

variable {hash : Bytes → Digest}

/-! ## Assertions -/

/-- An identifier was generated, and is still that repository's where it is used. -/
structure Settled (s : Registry) (r : Repository) : Prop where
  issued : r.id ∈ s.issued
  org : ∀ row ∈ s.db.repositories, row.id = r.id → row.orgId = r.orgId

/-- What a running request has established. -/
def Asserts (hash : Bytes → Digest) (s : Registry) : Task → Prop
  | .content (.commit rq (.resolve found pc)) =>
    (found = true → hash rq.session.content = rq.expected) ∧
      ∀ r, pc.repository? = some r → Settled s r
  | .content (.commit _ (.put r)) => Settled s r
  | .content (.commit rq (.upsertBlob r)) =>
    hash rq.session.content = rq.expected ∧ Settled s r
  | .mount rq (.linkedBlobSize _) => rq.mayPull s = true
  | .mount rq (.resolve pc) => .pullable rq.who rq.digest ∈ s.history ∧
      ∀ r, pc.repository? = some r → Settled s r
  | .mount rq (.linkBlob r) => .pullable rq.who rq.digest ∈ s.history ∧ Settled s r
  | .blobGet _ (.linked r) | .blobGet _ (.referenced r _) | .blobGet _ (.blobExists r _)
  | .blobGet _ (.download r _) | .blobGet _ (.relinked r) => Settled s r
  | .blobGet rq (.wait r i) => Settled s r ∧ s.callDigest i = some rq.digest
  | .blobGet rq (.storageQuota r _) | .blobGet rq (.upsertBlob r _)
  | .blobGet rq (.serve r) => Settled s r ∧ HasShown hash s.history r.orgId rq.digest
  | _ => True

/-- What a download for an organization has of its upstream's answer. -/
def DownloadPc.Sound (hash : Bytes → Digest) (history : List Event) (o : OrgId) (d : Digest) :
    DownloadPc → Prop
  | .openBlob | .failed _ => True
  | .quota c _ | .stage c _ => .delivered o c ∈ history
  | .lateQuota c | .stat c | .put c | .register c => .delivered o c ∈ history ∧ hash c = d
  | .finished _ => ∃ c, .delivered o c ∈ history ∧ hash c = d

def Download.Sound (hash : Bytes → Digest) (history : List Event) (dl : Download) : Prop :=
  dl.pc.Sound hash history dl.px.orgId dl.digest

structure RegistryInv (hash : Bytes → Digest) (s : Registry) : Prop where
  issued : ∀ row ∈ s.db.repositories, row.id ∈ s.issued
  keyed : Table.Keyed Repository.id s.db.repositories
  known : s.db.LinksKnown
  downloads : ∀ dl ∈ s.downloads, dl.Sound hash s.history
  shown : ContentShown hash s

/-- What every step of a run keeps. -/
structure Extends (s s' : Registry) : Prop where
  rows : ∀ row ∈ s'.db.repositories, row ∈ s.db.repositories ∨ row.id ∉ s.issued
  issued : ∀ id ∈ s.issued, id ∈ s'.issued
  history : ∀ e ∈ s.history, e ∈ s'.history
  auth : s'.authDisabled = s.authDisabled
  calls : ∀ i d, s.callDigest i = some d → s'.callDigest i = some d

variable {r : Repository} {s s' : Registry}

theorem Settled.mono (h : Settled s r) (he : Extends s s') : Settled s' r := by
  refine ⟨he.issued _ h.issued, fun row hrow hid => ?_⟩
  rcases he.rows row hrow with hrow | hnew
  · exact h.org row hrow hid
  · exact absurd (hid ▸ h.issued) hnew

theorem Asserts.mono (h : Asserts hash s t) (he : Extends s s') : Asserts hash s' t := by
  unfold Asserts at h ⊢
  split
  · exact ⟨h.1, fun r hr => (h.2 r hr).mono he⟩
  · exact h.mono he
  · exact ⟨h.1, h.2.mono he⟩
  · unfold MountRequest.mayPull at h ⊢
    rw [he.auth]
    exact h
  · exact ⟨he.history _ h.1, fun r hr => (h.2 r hr).mono he⟩
  · exact ⟨he.history _ h.1, h.2.mono he⟩
  · exact h.mono he
  · exact h.mono he
  · exact h.mono he
  · exact h.mono he
  · exact h.mono he
  · exact ⟨h.1.mono he, he.calls _ _ h.2⟩
  · exact ⟨h.1.mono he, h.2.mono he.history⟩
  · exact ⟨h.1.mono he, h.2.mono he.history⟩
  · exact ⟨h.1.mono he, h.2.mono he.history⟩
  · trivial

/-! ## What a step keeps -/

theorem RequestEffect.extends {a : Reply} {events : List Event} (h : RequestEffect t a s s')
    (hnew : ∀ id ∈ generated a, id ∉ s.issued) :
    Extends s { s' with history := s.history ++ events
                        issued := s.issued ++ generated a } where
  rows row hrow := by
    rcases h.db.rows row hrow with hrow | hid
    · exact .inl hrow
    · exact .inr (hnew _ hid)
  issued id hid := mem_append_left _ hid
  history e he := mem_append_left _ he
  auth := h.auth
  calls := h.calls

theorem RegistryInv.linked_shown (h : RegistryInv hash s) (hr : Settled s r) {size : Nat}
    (hsize : s.db.linkedBlobSize r.id d = some size) : HasShown hash s.history r.orgId d := by
  unfold Db.linkedBlobSize at hsize
  split at hsize
  · rename_i hlink
    simp only [any_eq_true, decide_eq_true_eq] at hlink
    obtain ⟨l, hl, hrepo, rfl⟩ := hlink
    obtain ⟨row, hrow, hid⟩ := h.known l hl
    rw [← hr.org row hrow (hid.trans hrepo)]
    exact h.shown.links l hl row hrow hid
  · cases hsize

/-- What a request is about to link, its organization has shown, the link's own step
included. -/
theorem target_shown {a : Reply} (h : Asserts hash s t) (ht : t.target = some (r, d)) :
    Settled s r ∧ HasShown hash (s.history ++ observed s t a) r.orgId d := by
  unfold Task.target at ht
  split at ht
  · cases ht
    exact ⟨h.2, .inl ⟨_, mem_append_right _ (mem_singleton_self _), h.1⟩⟩
  · cases ht
    exact ⟨h.2, .inr (.inl ⟨_, mem_append_right _ (mem_singleton_self _), mem_append_left _ h.1⟩)⟩
  · cases ht
    exact ⟨h.1, h.2.mono fun e he => mem_append_left _ he⟩
  · cases ht

variable {o : OrgId}

theorem DownloadPc.Sound.mono {history history' : List Event}
    {pc : DownloadPc} (h : pc.Sound hash history o d)
    (hsub : ∀ e ∈ history, e ∈ history') : pc.Sound hash history' o d := by
  cases pc with
  | openBlob | failed status => trivial
  | quota c n | stage c length => exact hsub _ h
  | lateQuota c | stat c | put c | register c => exact ⟨hsub _ h.1, h.2⟩
  | finished size =>
    obtain ⟨c, hc, hd⟩ := h
    exact ⟨c, hsub _ hc, hd⟩

theorem served_shown {a : Reply} (h : Asserts hash s t) (he : Event.served o d ∈ observed s t a) :
    HasShown hash s.history o d := by
  unfold observed at he
  split at he
  · simp at he
  · split at he <;> simp at he
  · simp at he
  · split at he
    · simp only [mem_singleton, Event.served.injEq] at he
      obtain ⟨rfl, rfl⟩ := he
      exact h.2
    · simp at he
  · simp at he

theorem RegistryInv.step {a : Reply} (h : RegistryInv hash s) (ht : Asserts hash s t)
    (he : RequestEffect t a s s') (hnew : ∀ id ∈ generated a, id ∉ s.issued) :
    RegistryInv hash { s' with history := s.history ++ observed s t a
                               issued := s.issued ++ generated a } where
  issued row hrow := by
    rcases he.db.rows row hrow with hrow | hid
    · exact mem_append_left _ (h.issued row hrow)
    · exact mem_append_right _ hid
  keyed := he.db.keyed h.keyed
  known := he.db.known h.known
  downloads dl hdl := by
    rcases he.downloads dl hdl with hdl | hpc
    · exact (h.downloads dl hdl).mono fun e he => mem_append_left _ he
    · unfold Download.Sound
      rw [hpc]
      trivial
  shown := by
    refine ⟨fun l hl row hrow hid => ?_, fun o d hserved => ?_⟩
    · rcases he.db.links l hl with hold | ⟨r, d, htarget, hrepo, rfl⟩
      · -- an old link: its repository was there, and its identifier is not a new one
        obtain ⟨row', hrow', hid'⟩ := h.known l hold
        have hissued : row.id ∈ s.issued := by
          rw [hid, ← hid']
          exact h.issued row' hrow'
        rcases he.db.rows row hrow with hrow | hgen
        · exact (h.shown.links l hold row hrow hid).mono fun e he => mem_append_left _ he
        · exact absurd hissued (hnew _ hgen)
      · obtain ⟨hsettled, hshown⟩ := target_shown (a := a) ht htarget
        have hsettled' := hsettled.mono
          (he.extends hnew : Extends s { s' with history := s.history ++ observed s t a
                                                 issued := s.issued ++ generated a })
        rw [hsettled'.org row hrow (hid.trans hrepo)]
        exact hshown
    · rcases mem_append.mp hserved with hserved | hserved
      · exact (h.shown.served o d hserved).mono fun e he => mem_append_left _ he
      · exact (served_shown ht hserved).mono fun e he => mem_append_left _ he

/-! ## What a request has established after a call -/

theorem RegistryInv.settled (h : RegistryInv hash s) (hr : r ∈ s.db.repositories) :
    Settled s r := by
  refine ⟨h.issued r hr, fun row hrow hid => ?_⟩
  rw [h.keyed.eq_of_key hrow hr hid]

variable {db' : Db} {out : Resolved}

theorem resolveStep_repository {db : Db} {pc : ResolvePc}
    (h : resolveStep db org name d pc a = some (db', out))
    (hr : out.repository? = some r) :
    r ∈ db'.repositories ∨ pc.repository? = some r := by
  have heffect : DbEffect _ none db db' ∧ _ := resolveStep_effect h
  exact heffect.2 r hr

section asserts

variable {s s' fin : Registry} (hext : Extends s fin) (hinv : RegistryInv hash fin)
include hext hinv

theorem resolveStep_settled {pc : ResolvePc} (hpc : ∀ r, pc.repository? = some r → Settled s r)
    (hcall : resolveStep s.db org name d pc a = some (db', out)) (hdb : fin.db = db')
    (hr : out.repository? = some r) : Settled fin r := by
  rcases resolveStep_repository hcall hr with hmem | hold
  · exact hinv.settled (hdb ▸ hmem)
  · exact (hpc r hold).mono hext

theorem commitUpload_asserts {pc : CommitPc}
    {storage : Storage} (h : Asserts hash s (.content (.commit rq pc)))
    (hcall : commitUpload hash s.storage rq pc a = some (storage, t'))
    (hdb : fin.db = storage.db) : Asserts hash fin (.content t') := by
  cases commitUpload_call hcall with
  | found stat digest => exact ⟨fun _ => digest, nofun⟩
  | missing => exact ⟨by simp, nofun⟩
  | more resolve => exact ⟨h.1, fun r hr => resolveStep_settled hext hinv h.2 resolve hdb hr⟩
  | @resolved found _ _ _ _ resolve =>
    have hr := resolveStep_settled hext hinv h.2 resolve hdb rfl
    cases found with
    | true => exact ⟨h.1 rfl, hr⟩
    | false => exact hr
  | put digest => exact ⟨digest, Settled.mono h hext⟩
  | _ => trivial

theorem tryMount_asserts {rq : MountRequest} {pc pc' : MountPc}
    (h : Asserts hash s (.mount rq pc)) (hcall : tryMount s rq pc a = some (s', pc'))
    (hdb : fin.db = s'.db) (hauth : fin.authDisabled = s.authDisabled)
    (hobs : ∀ e ∈ observed s (.mount rq pc) (.answer a), e ∈ fin.history) :
    Asserts hash fin (.mount rq pc') := by
  cases tryMount_call hcall with
  | source pull => simpa only [Asserts, MountRequest.mayPull, hauth] using pull
  | linked row =>
    have hpull : rq.mayPull s = true := h
    refine ⟨hobs _ ?_, nofun⟩
    simp [observed, hpull, row]
  | more resolve =>
    exact ⟨hext.history _ h.1, fun r hr => resolveStep_settled hext hinv h.2 resolve hdb hr⟩
  | resolved resolve =>
    exact ⟨hext.history _ h.1, resolveStep_settled hext hinv h.2 resolve hdb rfl⟩
  | _ => trivial

omit hinv in

theorem handleBlobGet_asserts {rq : BlobGet} {a : Reply}
    (hnow : RegistryInv hash s) (h : Asserts hash s (.blobGet rq pc))
    (hknown : ∀ r px, a = .answer .ok → pc = .blobExists r px →
      (s.db.blobExists rq.digest).isSome → HasShown hash s.history r.orgId rq.digest)
    (hjoined : ∀ r i dl, a = .answer .ok → pc = .wait r i → s.downloads[i]? = some dl →
      dl.px.orgId ≠ r.orgId → HasShown hash s.history r.orgId rq.digest)
    (hcall : handleBlobGet s rq pc a = some (s', pc'))
    (hcalls : ∀ i, fin.callDigest i = s'.callDigest i) :
    Asserts hash fin (.blobGet rq pc') := by
  have hfound {r : Repository} (hr : r ∈ s.db.repositories) : Settled fin r :=
    (hnow.settled hr).mono hext
  cases handleBlobGet_call hcall with
  | found row => exact hfound (Db.getRepository_mem row)
  | moved row => exact hfound (Table.find_some row).1
  | linked size | relinked size =>
    exact ⟨Settled.mono h hext, (hnow.linked_shown h size).mono hext.history⟩
  | @known r px n size =>
    -- known content: only what the organization has shown
    exact ⟨Settled.mono h hext, (hknown r px rfl rfl (by simp [size])).mono hext.history⟩
  | unlinked | needed | unneeded | disabled | fetch => exact Settled.mono h hext
  | join joined => exact ⟨Settled.mono h hext, (hcalls _).trans (joinDownload_call joined)⟩
  | @finished r i n dl call size =>
    refine ⟨h.1.mono hext, HasShown.mono ?_ hext.history⟩
    by_cases horg : dl.px.orgId = r.orgId
    · -- the organization's own download: its upstream sent the content
      have hd : dl.digest = rq.digest := by
        have hdigest := h.2
        unfold Registry.callDigest at hdigest
        rw [call] at hdigest
        exact Option.some.inj hdigest
      have hsound := hnow.downloads dl (mem_of_getElem? call)
      unfold Download.Sound at hsound
      rw [size, hd, horg] at hsound
      exact .inr (.inr hsound)
    · exact hjoined r i dl rfl rfl call horg
  | room => exact ⟨h.1.mono hext, h.2.mono hext.history⟩
  | upsert => exact h.1.mono hext
  | _ => trivial

end asserts

end handlers

end Chicoree.Registryd
