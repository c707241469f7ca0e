import Chicoree.Tokens.SigningKeys

/-! # Tokens in flight during a rotation

Whose token registryd accepts, in every history of generated and retired keys, and what the drop
window means for a retired key. -/

namespace Chicoree.Tokens

open Transition Registryd List Option Table

universe u
variable {K : Type u} {d : Deployment K} {rows rows' : List (SigningKey K)} {now : Int}

theorem Deployment.dropWindow_ge (d : Deployment K) : 300000 ≤ d.dropWindow := by
  have hge := d.keyDropWindow_ge
  have hpos : 0 < d.keyDropWindow := by omega
  unfold Deployment.dropWindow
  rw [if_pos hpos]
  omega

/-! ## Rows -/

/-- Rows under keys of their own, none of them the file key, retired in the past. -/
structure KeyTable (d : Deployment K) (rows : List (SigningKey K)) (now : Int) : Prop where
  keyed : Table.Keyed SigningKey.kid rows
  named : ∀ row ∈ rows, row.kid = d.fingerprint row.key
  generated : ∀ row ∈ rows, row.key ≠ d.fileKey
  past : ∀ row ∈ rows, ∀ r, row.retiredAt = some r → r ≤ now

theorem KeyTable.eq_of_key (h : KeyTable d rows now) {a b : SigningKey K} (ha : a ∈ rows)
    (hb : b ∈ rows) (hkey : a.key = b.key) : a = b := by
  apply h.keyed.eq_of_key ha hb
  rw [h.named a ha, h.named b hb, hkey]

variable {now' : Int}

theorem KeyTable.later (h : KeyTable d rows now) (hle : now ≤ now') : KeyTable d rows now' where
  keyed := h.keyed
  named := h.named
  generated := h.generated
  past row hrow r hr := by
    have := h.past row hrow r hr
    omega

/-- No row is lost, and one that was active may have been retired now. -/
def Kept (rows rows' : List (SigningKey K)) (now : Int) : Prop :=
  ∀ row ∈ rows, ∃ row' ∈ rows', row'.kid = row.kid ∧ row'.key = row.key ∧
    (row'.retiredAt = row.retiredAt ∨ row.retiredAt = none ∧ row'.retiredAt = some now)

theorem Kept.refl (rows : List (SigningKey K)) (now : Int) : Kept rows rows now :=
  fun row hrow => ⟨row, hrow, rfl, rfl, .inl rfl⟩

theorem generateSigningKey_kept (d : Deployment K) (rows : List (SigningKey K)) (now : Int)
    (key : K) : Kept rows (generateSigningKey d rows now key) now :=
  fun row hrow => ⟨row, mem_insertNew_of_mem hrow, rfl, rfl, .inl rfl⟩

variable {key : K}

theorem KeyTable.generate (h : KeyTable d rows now) (hkey : key ≠ d.fileKey) :
    KeyTable d (generateSigningKey d rows now key) now := by
  constructor
  · exact h.keyed.insertNew _
  · intro row hrow
    rcases mem_of_mem_insertNew hrow with hrow | rfl
    · exact h.named row hrow
    · rfl
  · intro row hrow
    rcases mem_of_mem_insertNew hrow with hrow | rfl
    · exact h.generated row hrow
    · exact hkey
  · intro row hrow r hr
    rcases mem_of_mem_insertNew hrow with hrow | rfl
    · exact h.past row hrow r hr
    · cases hr

theorem retireSigningKey_cases (rows : List (SigningKey K)) (now : Int) (kid : String) (tie : Nat) :
    (retireSigningKey rows now kid tie).2 = rows ∨
      (∃ row, Table.find SigningKey.kid kid rows = some row ∧ row.retiredAt = none ∧
        (retireSigningKey rows now kid tie).2 =
          Table.update SigningKey.kid kid (fun k => { k with retiredAt := some now }) rows) := by
  unfold retireSigningKey
  cases hfind : Table.find SigningKey.kid kid rows with
  | none => exact .inl rfl
  | some row =>
    by_cases hretired : row.retiredAt.isSome
    · exact .inl (by simp only [if_pos hretired])
    by_cases hactive : (newestActiveKey rows tie).any fun active => active.kid = kid
    · exact .inl (by simp only [if_neg hretired, if_pos hactive])
    · have hnone : row.retiredAt = none := by simpa using hretired
      exact .inr ⟨row, rfl, hnone, by simp only [if_neg hretired, if_neg hactive]⟩

theorem retireSigningKey_kept (h : KeyTable d rows now) (kid : String) (tie : Nat) :
    Kept rows (retireSigningKey rows now kid tie).2 now := by
  rcases retireSigningKey_cases rows now kid tie with heq | ⟨found, hfind, hactive, heq⟩
  · rw [heq]
    exact Kept.refl rows now
  · rw [heq]
    intro row hrow
    by_cases hkid : row.kid = kid
    · -- the row under the kid is the one that was found active
      have hfound := find_some hfind
      have hsame : row = found := h.keyed.eq_of_key hrow hfound.1 (hkid.trans hfound.2.symm)
      exact ⟨_, mem_update_self hrow hkid, rfl, rfl, .inr ⟨hsame ▸ hactive, rfl⟩⟩
    · exact ⟨row, mem_update_ne hrow hkid, rfl, rfl, .inl rfl⟩

theorem KeyTable.retire (h : KeyTable d rows now) (kid : String) (tie : Nat) :
    KeyTable d (retireSigningKey rows now kid tie).2 now := by
  rcases retireSigningKey_cases rows now kid tie with heq | ⟨found, -, -, heq⟩
  · rw [heq]
    exact h
  · rw [heq]
    constructor
    · exact h.keyed.update fun _ => rfl
    · intro row hrow
      rcases mem_update hrow with ⟨hrow, -⟩ | ⟨row₀, hrow₀, -, rfl⟩
      · exact h.named row hrow
      · exact h.named row₀ hrow₀
    · intro row hrow
      rcases mem_update hrow with ⟨hrow, -⟩ | ⟨row₀, hrow₀, -, rfl⟩
      · exact h.generated row hrow
      · exact h.generated row₀ hrow₀
    · intro row hrow r hr
      rcases mem_update hrow with ⟨hrow, -⟩ | ⟨row₀, -, -, rfl⟩
      · exact h.past row hrow r hr
      · have hnow : now = r := Option.some.inj hr
        omega

theorem activeSigner_cases (d : Deployment K) (rows : List (SigningKey K)) (tie : Nat)
    (failed : Bool) :
    activeSigner d rows tie failed = ⟨d.fingerprint d.fileKey, d.fileKey⟩ ∨
      ∃ row ∈ rows, row.retiredAt = none ∧ activeSigner d rows tie failed = ⟨row.kid, row.key⟩ := by
  unfold activeSigner
  cases failed with
  | true => exact .inl rfl
  | false =>
    cases hnewest : newestActiveKey rows tie with
    | none => exact .inl rfl
    | some row =>
      have hmem := mem_of_getElem? hnewest
      have hactive := (mem_filter.mp (mem_filter.mp hmem).1)
      exact .inr ⟨row, hactive.1, by simpa using hactive.2, rfl⟩

/-- A loaded key next to its row: a retirement that the reload did not see is no earlier than
it, and one it saw was inside the window. -/
structure LoadedFrom (d : Deployment K) (last : Int) (k row : SigningKey K) : Prop where
  kid : k.kid = row.kid
  key : k.key = row.key
  unseen : k.retiredAt = none → ∀ r, row.retiredAt = some r → last ≤ r
  seen : ∀ r, k.retiredAt = some r → row.retiredAt = some r ∧ last - d.dropWindow < r

structure Loaded (d : Deployment K) (v : Verifier K) (rows : List (SigningKey K)) (now : Int) :
    Prop where
  keyed : Table.Keyed SigningKey.kid v.dbKeys
  refreshed : v.lastRefresh ≤ now
  loaded : ∀ k ∈ v.dbKeys, ∃ row ∈ rows, LoadedFrom d v.lastRefresh k row

theorem mem_signingKeys {retiredAfter : Int} {k : SigningKey K} :
    k ∈ signingKeys rows retiredAfter ↔
      k ∈ rows ∧ ∀ r, k.retiredAt = some r → retiredAfter < r := by
  unfold signingKeys
  rw [mem_filter]
  cases k.retiredAt with
  | none | some r => simp

theorem Loaded.of_refresh (h : KeyTable d rows now) :
    Loaded d (refreshKeys d rows now) rows now := by
  constructor
  · exact h.keyed.filter _
  · exact Int.le_refl now
  · intro k hk
    obtain ⟨hrow, hwindow⟩ := mem_signingKeys.mp hk
    refine ⟨k, hrow, rfl, rfl, ?_, fun r hr => ⟨hr, hwindow r hr⟩⟩
    intro hnone r hr
    rw [hnone] at hr
    cases hr

variable {v : Verifier K}

theorem Loaded.kept (h : Loaded d v rows now) (hkept : Kept rows rows' now) :
    Loaded d v rows' now := by
  constructor
  · exact h.keyed
  · exact h.refreshed
  · intro k hk
    obtain ⟨row, hrow, hfrom⟩ := h.loaded k hk
    obtain ⟨row', hrow', hkid, hkey, hretired⟩ := hkept row hrow
    refine ⟨row', hrow', hfrom.kid.trans hkid.symm, hfrom.key.trans hkey.symm, ?_, ?_⟩
    · intro hnone r hr
      rcases hretired with hsame | ⟨-, hnow⟩
      · exact hfrom.unseen hnone r (hsame ▸ hr)
      · -- retired now, after the reload
        have heq : now = r := Option.some.inj (hnow.symm.trans hr)
        have := h.refreshed
        omega
    · intro r hr
      obtain ⟨hrow, hwindow⟩ := hfrom.seen r hr
      rcases hretired with hsame | ⟨hactive, -⟩
      · exact ⟨hsame.trans hrow, hwindow⟩
      · rw [hactive] at hrow
        cases hrow

theorem Loaded.later (h : Loaded d v rows now) (hle : now ≤ now') : Loaded d v rows now' where
  keyed := h.keyed
  refreshed := Int.le_trans h.refreshed hle
  loaded := h.loaded

/-- What the web app signed: its own claims, under a key that was not retired then. -/
structure Issued (d : Deployment K) (rows : List (SigningKey K)) (now : Int) (t : Token K) :
    Prop where
  alg : t.alg = "ES256"
  kid : t.kid = d.fingerprint t.signer
  issuer : t.issuer = d.tokenIssuer
  audience : t.audience = d.tokenService
  begun : t.notBefore * 1000 ≤ now
  signer : t.signer = d.fileKey ∨
    ∃ row ∈ rows, row.key = t.signer ∧ ∀ r, row.retiredAt = some r → t.issuedAt * 1000 ≤ r
  issued : t.issuedAt * 1000 ≤ now

theorem Issued.kept {t : Token K} (h : Issued d rows now t) (hkept : Kept rows rows' now) :
    Issued d rows' now t := by
  refine { h with signer := ?_ }
  rcases h.signer with hfile | ⟨row, hrow, hkey, hretired⟩
  · exact .inl hfile
  · obtain ⟨row', hrow', -, hkey', hretired'⟩ := hkept row hrow
    refine .inr ⟨row', hrow', hkey'.trans hkey, ?_⟩
    intro r hr
    rcases hretired' with hsame | ⟨-, hnow⟩
    · exact hretired r (hsame ▸ hr)
    · have heq : now = r := Option.some.inj (hnow.symm.trans hr)
      have := h.issued
      omega

theorem Issued.later {t : Token K} (h : Issued d rows now t) (hle : now ≤ now') :
    Issued d rows now' t :=
  { h with begun := Int.le_trans h.begun hle, issued := Int.le_trans h.issued hle }

theorem signRegistryToken_issued (h : KeyTable d rows now) (subject : String)
    (access : List AccessGrant) (ttlSeconds : Int) (waited tie : Nat) (failed : Bool) :
    Issued d rows now
      (signRegistryToken d rows (now - waited) subject access ttlSeconds tie failed) := by
  have hsigner := activeSigner_cases d rows tie failed
  have hiat : (now - waited) / 1000 * 1000 ≤ now := by omega
  refine ⟨rfl, ?_, rfl, rfl, ?_, ?_, hiat⟩
  · show (activeSigner d rows tie failed).kid = d.fingerprint (activeSigner d rows tie failed).key
    rcases hsigner with heq | ⟨row, hrow, -, heq⟩
    · rw [heq]
    · rw [heq]
      exact h.named row hrow
  · show ((now - waited) / 1000 - 10) * 1000 ≤ now
    omega
  · show (activeSigner d rows tie failed).key = d.fileKey ∨ ∃ row ∈ rows,
      row.key = (activeSigner d rows tie failed).key ∧ ∀ r, row.retiredAt = some r → _ ≤ r
    rcases hsigner with heq | ⟨row, hrow, hactive, heq⟩
    · rw [heq]
      exact .inl rfl
    · rw [heq]
      refine .inr ⟨row, hrow, rfl, ?_⟩
      intro r hr
      rw [hactive] at hr
      cases hr

/-- The key can be used: it is the file key, or it is loaded and inside its window. -/
def Usable (d : Deployment K) (v : Verifier K) (now : Int) (key : K) : Prop :=
  key = d.fileKey ∨ ∃ k ∈ v.dbKeys, k.key = key ∧ ∀ r, k.retiredAt = some r → now ≤ r + d.dropWindow

theorem keyFor_usable {kid : String} (h : keyFor d v now kid = .ok key) : Usable d v now key := by
  unfold keyFor at h
  by_cases hfile : kid = "" ∨ kid = d.fingerprint d.fileKey
  · rw [if_pos hfile] at h
    exact .inl (Except.ok.inj h).symm
  rw [if_neg hfile] at h
  split at h
  · cases h
  · rename_i k hfind
    by_cases hretired : k.retiredAt.any fun r => decide (d.dropWindow < now - r)
    · rw [if_pos hretired] at h
      cases h
    · rw [if_neg hretired] at h
      refine .inr ⟨k, (find_some hfind).1, Except.ok.inj h, ?_⟩
      intro r hr
      simp only [hr, any_some, decide_eq_true_eq] at hretired
      omega

theorem keyFor_eq_ok (hloaded : Loaded d v rows now) (htable : KeyTable d rows now)
    (h : Usable d v now key) : keyFor d v now (d.fingerprint key) = .ok key := by
  unfold keyFor
  by_cases hfile : key = d.fileKey
  · rw [if_pos (.inr (by rw [hfile])), hfile]
  have hnone : ¬(d.fingerprint key = "" ∨ d.fingerprint key = d.fingerprint d.fileKey) := by
    rintro (hempty | hsame)
    · exact d.fingerprint_ne key hempty
    · exact hfile (d.collisionFree hsame)
  rw [if_neg hnone]
  rcases h with h | ⟨k, hk, hkey, hwindow⟩
  · exact absurd h hfile
  have hkid : k.kid = d.fingerprint key := by
    obtain ⟨row, hrow, hfrom⟩ := hloaded.loaded k hk
    rw [hfrom.kid, htable.named row hrow, ← hfrom.key, hkey]
  have hfind : Table.find SigningKey.kid (d.fingerprint key) v.dbKeys = some k :=
    hkid ▸ hloaded.keyed.find_self hk
  have hin : ¬(k.retiredAt.any fun r => decide (d.dropWindow < now - r)) = true := by
    cases hr : k.retiredAt with
    | none => simp
    | some r =>
      have := hwindow r hr
      simp only [any_some, decide_eq_true_eq]
      omega
  simp only [hfind, if_neg hin, hkey]

theorem keyFor_eq_error (hloaded : Loaded d v rows now)
    (htable : KeyTable d rows now) (h : ¬Usable d v now key) :
    ∃ e, keyFor d v now (d.fingerprint key) = .error e ∧ e.isUnknownKid = true := by
  have hfile : ¬(d.fingerprint key = "" ∨ d.fingerprint key = d.fingerprint d.fileKey) := by
    rintro (hempty | hsame)
    · exact d.fingerprint_ne key hempty
    · exact h (.inl (d.collisionFree hsame))
  unfold keyFor
  rw [if_neg hfile]
  cases hfind : Table.find SigningKey.kid (d.fingerprint key) v.dbKeys with
  | none => exact ⟨.unknownKid, rfl, rfl⟩
  | some k =>
    by_cases hretired : k.retiredAt.any fun r => decide (d.dropWindow < now - r)
    · exact ⟨.retired, by simp only [if_pos hretired], rfl⟩
    · exfalso
      obtain ⟨hk, hkid⟩ := find_some hfind
      obtain ⟨row, hrow, hfrom⟩ := hloaded.loaded k hk
      have hkey : k.key = key := by
        apply d.collisionFree
        rw [hfrom.key, ← htable.named row hrow, ← hfrom.kid, hkid]
      refine h (.inr ⟨k, hk, hkey, ?_⟩)
      intro r hr
      simp only [hr, any_some, decide_eq_true_eq] at hretired
      omega

/-! ## Every state reached -/

section Histories

variable [DecidableEq K]

theorem identify_verifier (d : Deployment K) (v : Verifier K) (rows : List (SigningKey K))
    (now : Int) (t : Token K) :
    (identify d v rows now t).2 = v ∨ (identify d v rows now t).2 = refreshKeys d rows now := by
  unfold identify refreshOnMiss
  cases verify d v now t with
  | ok who => exact .inl rfl
  | error e =>
    by_cases hunknown : e.isUnknownKid
    · by_cases hrecent : now - v.lastRefresh < minRefreshInterval
      · exact .inl (by simp only [if_pos hunknown, if_pos hrecent])
      · exact .inr (by simp only [if_pos hunknown, if_neg hrecent])
    · exact .inl (by simp only [if_neg hunknown])

structure Consistent (d : Deployment K) (s : State K) : Prop where
  table : KeyTable d s.rows s.now
  loaded : Loaded d s.verifier s.rows s.now
  issued : ∀ t ∈ s.tokens, Issued d s.rows s.now t

variable {s : State K}

theorem step_consistent {s' : State K} {e : Event K} (h : Consistent d s)
    (hstep : step d s e = some s') : Consistent d s' := by
  cases e with
  | tick ms =>
    cases hstep
    have hle : s.now ≤ s.now + ms := by omega
    exact ⟨h.table.later hle, h.loaded.later hle, fun t ht => (h.issued t ht).later hle⟩
  | generate key =>
    by_cases hfile : key = d.fileKey
    · simp only [step, if_pos hfile] at hstep
      cases hstep
    · simp only [step, if_neg hfile] at hstep
      cases hstep
      have hkept := generateSigningKey_kept d s.rows s.now key
      exact ⟨h.table.generate hfile, h.loaded.kept hkept, fun t ht => (h.issued t ht).kept hkept⟩
  | retire kid tie =>
    cases hstep
    have hkept := retireSigningKey_kept h.table kid tie
    exact ⟨h.table.retire kid tie, h.loaded.kept hkept, fun t ht => (h.issued t ht).kept hkept⟩
  | sign use subject access waited tie failed =>
    cases hstep
    refine ⟨h.table, h.loaded, ?_⟩
    intro t ht
    rcases mem_append.mp ht with ht | ht
    · exact h.issued t ht
    · rw [mem_singleton.mp ht]
      exact signRegistryToken_issued h.table subject access use.ttlSeconds waited tie failed
  | reload =>
    cases hstep
    exact ⟨h.table, .of_refresh h.table, h.issued⟩
  | present t =>
    cases hstep
    refine ⟨h.table, ?_, h.issued⟩
    rcases identify_verifier d s.verifier s.rows s.now t with heq | heq
    · rw [heq]
      exact h.loaded
    · rw [heq]
      exact .of_refresh h.table

theorem consistent {C : State K → Event K → Prop}
    (h : (keyMachine d).Run C s) : Consistent d s := by
  apply h.invariant
  · rintro s ⟨start, rfl⟩
    refine ⟨⟨.nil, nofun, nofun, nofun⟩, ⟨.nil, Int.le_refl start, nofun⟩, nofun⟩
  · intro s e s' _ hs _ hstep
    exact step_consistent hs hstep

theorem polled_recent (h : (keyMachine d).Run (Polled d) s) :
    s.now ≤ s.verifier.lastRefresh + d.keyReloadInterval := by
  have hpos := d.keyReloadInterval_ge
  apply h.invariant (I := fun s => s.now ≤ s.verifier.lastRefresh + d.keyReloadInterval)
  · rintro s ⟨start, rfl⟩
    show start ≤ start + d.keyReloadInterval
    omega
  · intro s e s' _ hs hpolled hstep
    cases e with
    | tick ms =>
      cases hstep
      exact hpolled
    | generate key =>
      by_cases hfile : key = d.fileKey
      · simp only [keyMachine, step, if_pos hfile] at hstep
        cases hstep
      · simp only [keyMachine, step, if_neg hfile] at hstep
        cases hstep
        exact hs
    | retire kid tie | sign use subject access waited tie failed =>
      cases hstep
      exact hs
    | reload =>
      cases hstep
      show s.now ≤ s.now + d.keyReloadInterval
      omega
    | present t =>
      cases hstep
      rcases identify_verifier d s.verifier s.rows s.now t with heq | heq
      · rw [heq]
        exact hs
      · rw [heq]
        show s.now ≤ s.now + d.keyReloadInterval
        omega

variable {t : Token K}

theorem verify_issued (ht : Issued d rows now t) (hfresh : now < t.expiresAt * 1000) :
    verify d v now t = (keyFor d v now t.kid).bind fun key =>
      if key ≠ t.signer then .error .signatureInvalid else .ok ⟨t.subject, t.access⟩ := by
  have hclaims : claimsValid d now t = true := by
    have := ht.begun
    simp only [claimsValid, Bool.and_eq_true, decide_eq_true_eq]
    exact ⟨⟨⟨by omega, by omega⟩, ht.issuer⟩, ht.audience⟩
  unfold verify
  rw [if_neg (not_not.mpr ht.alg), hclaims]
  cases keyFor d v now t.kid <;> rfl

/-! ## Acceptance -/

/-- What its key has to be when a token is presented: the file key, one that the last reload
brought and whose window is open, or, five seconds after that reload, any key of the table
whose window is open. -/
def Honoured (d : Deployment K) (s : State K) (t : Token K) : Prop :=
  t.signer = d.fileKey ∨ (∃ k ∈ s.verifier.dbKeys, k.key = t.signer ∧
      ∀ r, k.retiredAt = some r → s.now ≤ r + d.dropWindow) ∨
    (s.verifier.lastRefresh + minRefreshInterval ≤ s.now ∧
      ∃ row ∈ s.rows, row.key = t.signer ∧ ∀ r, row.retiredAt = some r → s.now < r + d.dropWindow)

omit [DecidableEq K] in
theorem usable_refresh : Usable d (refreshKeys d rows now) now key ↔ key = d.fileKey ∨
      ∃ row ∈ rows, row.key = key ∧ ∀ r, row.retiredAt = some r → now < r + d.dropWindow := by
  constructor
  · rintro (hfile | ⟨k, hk, hkey, -⟩)
    · exact .inl hfile
    · obtain ⟨hrow, hwindow⟩ := mem_signingKeys.mp hk
      refine .inr ⟨k, hrow, hkey, ?_⟩
      intro r hr
      have := hwindow r hr
      omega
  · rintro (hfile | ⟨row, hrow, hkey, hwindow⟩)
    · exact .inl hfile
    · refine .inr ⟨row, mem_signingKeys.mpr ⟨hrow, ?_⟩, hkey, ?_⟩
      · intro r hr
        have := hwindow r hr
        omega
      · intro r hr
        have := hwindow r hr
        omega

theorem verify_usable {who : Identity}
    (h : verify d v now t = .ok who) : Usable d v now t.signer := by
  unfold verify at h
  by_cases halg : t.alg ≠ "ES256"
  · rw [if_pos halg] at h
    cases h
  rw [if_neg halg] at h
  cases hkey : keyFor d v now t.kid with
  | error e => simp only [hkey] at h; cases h
  | ok key =>
    simp only [hkey] at h
    by_cases hsigner : key ≠ t.signer
    · rw [if_pos hsigner] at h
      cases h
    · exact Decidable.not_not.mp hsigner ▸ keyFor_usable hkey

theorem accepted_usable (h : Accepted d s t) : Usable d s.verifier s.now t.signer ∨
      (s.verifier.lastRefresh + minRefreshInterval ≤ s.now ∧
        Usable d (refreshKeys d s.rows s.now) s.now t.signer) := by
  unfold Accepted identify at h
  cases hverify : verify d s.verifier s.now t with
  | ok who => exact .inl (verify_usable hverify)
  | error e =>
    simp only [hverify] at h
    by_cases hunknown : e.isUnknownKid
    · rw [if_pos hunknown] at h
      unfold refreshOnMiss at h
      by_cases hrecent : s.now - s.verifier.lastRefresh < minRefreshInterval
      · simp only [if_pos hrecent] at h
        cases h
      · simp only [if_neg hrecent] at h
        exact .inr ⟨by omega, verify_usable h⟩
    · rw [if_neg hunknown] at h
      cases h

theorem verify_ok (hloaded : Loaded d v rows now)
    (htable : KeyTable d rows now) (ht : Issued d rows now t)
    (hfresh : now < t.expiresAt * 1000) (h : Usable d v now t.signer) :
    verify d v now t = .ok ⟨t.subject, t.access⟩ := by
  rw [verify_issued ht hfresh, ht.kid, keyFor_eq_ok hloaded htable h]
  exact if_neg (not_not.mpr rfl)

theorem accepted_iff (hs : Consistent d s)
    (ht : Issued d s.rows s.now t) (hfresh : s.now < t.expiresAt * 1000) :
    Accepted d s t ↔ Honoured d s t := by
  constructor
  · intro h
    rcases accepted_usable h with (hfile | hloaded) | ⟨hold, hreloaded⟩
    · exact .inl hfile
    · exact .inr (.inl hloaded)
    · rcases usable_refresh.mp hreloaded with hfile | hrow
      · exact .inl hfile
      · exact .inr (.inr ⟨hold, hrow⟩)
  · intro h
    unfold Accepted identify
    by_cases husable : Usable d s.verifier s.now t.signer
    · rw [verify_ok hs.loaded hs.table ht hfresh husable]
    · -- the kid is unknown, and the reload has to bring the key
      obtain ⟨e, hkey, hunknown⟩ := keyFor_eq_error hs.loaded hs.table husable
      have hverify : verify d s.verifier s.now t = .error e := by
        rw [verify_issued ht hfresh, ht.kid, hkey]
        rfl
      rcases h with hfile | hloaded | ⟨hold, hrow⟩
      · exact absurd (.inl hfile) husable
      · exact absurd (.inr hloaded) husable
      · have hrecent : ¬s.now - s.verifier.lastRefresh < minRefreshInterval := by omega
        have hreloaded := usable_refresh.mpr (.inr hrow)
        simp only [hverify, if_pos hunknown, refreshOnMiss, if_neg hrecent]
        exact verify_ok (.of_refresh hs.table) hs.table ht hfresh hreloaded

omit [DecidableEq K] in
/-- A token that lives no longer than the drop window only needs its key to be loaded. -/
theorem honoured_short (hs : Consistent d s)
    (ht : Issued d s.rows s.now t) (hfresh : s.now < t.expiresAt * 1000)
    (hshort : (t.expiresAt - t.issuedAt) * 1000 ≤ d.dropWindow) :
    Honoured d s t ↔ t.signer = d.fileKey ∨ (∃ k ∈ s.verifier.dbKeys, k.key = t.signer) ∨
      s.verifier.lastRefresh + minRefreshInterval ≤ s.now := by
  constructor
  · rintro (hfile | ⟨k, hk, hkey, -⟩ | ⟨hold, -⟩)
    · exact .inl hfile
    · exact .inr (.inl ⟨k, hk, hkey⟩)
    · exact .inr (.inr hold)
  intro h
  rcases ht.signer with hfile | ⟨row, hrow, hsigner, hretired⟩
  · exact .inl hfile
  -- it was signed before the retirement, so it expires inside the window
  have hwindow : ∀ r, row.retiredAt = some r → s.now < r + d.dropWindow := by
    intro r hr
    have := hretired r hr
    omega
  rcases h with hfile | ⟨k, hk, hkey⟩ | hold
  · exact .inl hfile
  · refine .inr (.inl ⟨k, hk, hkey, ?_⟩)
    intro r hr
    obtain ⟨row', hrow', hfrom⟩ := hs.loaded.loaded k hk
    have hsame : row' = row := by
      apply hs.table.eq_of_key hrow' hrow
      rw [← hfrom.key, hkey, hsigner]
    have := hwindow r (hsame ▸ (hfrom.seen r hr).1)
    omega
  · exact .inr (.inr ⟨hold, row, hrow, hsigner, hwindow⟩)

theorem not_accepted_retired (hs : Consistent d s)
    (hrecent : s.now ≤ s.verifier.lastRefresh + d.keyReloadInterval) {row : SigningKey K}
    (hrow : row ∈ s.rows) {r : Int} (hr : row.retiredAt = some r)
    (hpassed : r + d.dropWindow + d.keyReloadInterval ≤ s.now)
    (ht : t.signer = row.key) : ¬Accepted d s t := by
  intro h
  have hwindow := d.dropWindow_ge
  have hinterval := d.keyReloadInterval_ge
  rcases accepted_usable h with (hfile | ⟨k, hk, hkey, -⟩) | ⟨-, hreloaded⟩
  · exact hs.table.generated row hrow (ht.symm.trans hfile)
  · obtain ⟨row', hrow', hfrom⟩ := hs.loaded.loaded k hk
    have hsame : row' = row := by
      apply hs.table.eq_of_key hrow' hrow
      rw [← hfrom.key, hkey, ht]
    subst hsame
    cases hk' : k.retiredAt with
    | none =>
      have := hfrom.unseen hk' r hr
      omega
    | some r' =>
      obtain ⟨hr', hlast⟩ := hfrom.seen r' hk'
      have heq : r' = r := Option.some.inj (hr'.symm.trans hr)
      omega
  · rcases usable_refresh.mp hreloaded with hfile | ⟨row', hrow', hkey, hopen⟩
    · exact hs.table.generated row hrow (ht.symm.trans hfile)
    · have hsame : row' = row := hs.table.eq_of_key hrow' hrow (hkey.trans ht)
      have := hopen r (hsame ▸ hr)
      omega

/-- **Rotation.** In every state of every history, a token of the web app that has not expired
is accepted exactly if it is `Honoured`; one that lives no longer than the drop window is
refused only while registryd has not loaded its key and has loaded keys in the last five
seconds. Where the keys are reloaded at the poll interval, nothing signed with a retired key is
accepted once the drop window and one interval have passed. -/
theorem rotation_iff (d : Deployment K) :
    (∀ s, (keyMachine d).Reachable s → ∀ t ∈ s.tokens, s.now < t.expiresAt * 1000 →
      (Accepted d s t ↔ Honoured d s t) ∧ ((t.expiresAt - t.issuedAt) * 1000 ≤ d.dropWindow →
          (Accepted d s t ↔ t.signer = d.fileKey ∨ (∃ k ∈ s.verifier.dbKeys, k.key = t.signer) ∨
            s.verifier.lastRefresh + minRefreshInterval ≤ s.now))) ∧
      ∀ s, (keyMachine d).Run (Polled d) s → ∀ row ∈ s.rows, ∀ r, row.retiredAt = some r →
        r + d.dropWindow + d.keyReloadInterval ≤ s.now →
          ∀ t, t.signer = row.key → ¬Accepted d s t := by
  constructor
  · intro s h t ht hfresh
    have hs := consistent h
    have hissued := hs.issued t ht
    have hiff := accepted_iff hs hissued hfresh
    refine ⟨hiff, ?_⟩
    intro hshort
    exact hiff.trans (honoured_short hs hissued hfresh hshort)
  · intro s h row hrow r hr hpassed t ht
    exact not_accepted_retired (consistent h) (polled_recent h) hrow hr hpassed ht

end Histories

/-! ## A mirror run over a rotation -/

abbrev KeyName : Type := {name : String // name ≠ ""}

def deployment : Deployment KeyName where
  fileKey := ⟨"file", by decide⟩
  fingerprint key := key.1
  collisionFree := Subtype.val_injective
  fingerprint_ne key := key.2
  tokenIssuer := "chicoree"
  tokenService := "chicoree-registry"

def oldKey : KeyName := ⟨"old", by decide⟩

def newKey : KeyName := ⟨"new", by decide⟩

def started : State KeyName := ⟨0, [], ⟨[], 0⟩, []⟩

def mirrorToken : Token KeyName where
  kid := "old"
  issuer := "chicoree"
  audience := "chicoree-registry"
  subject := "mirror:m"
  access := [⟨"repository", "acme/app", ["pull", "push"]⟩]
  issuedAt := 0
  notBefore := -10
  expiresAt := 4 * 3600
  signer := oldKey

def minutes (n : Nat) : List (Event KeyName) :=
  (List.replicate n [.tick 60000, .reload]).flatten

/-- The new key is generated behind the token, and the old one is retired a minute later. -/
def rotation : List (Event KeyName) :=
  [.generate oldKey, .reload,
    .sign .mirror "mirror:m" [⟨"repository", "acme/app", ["pull", "push"]⟩] 0 0 false,
    .tick 1000, .generate newKey, .reload] ++ minutes 1 ++ [.retire "old" 0] ++ minutes 11

def newRow : SigningKey KeyName := ⟨"new", newKey, 1000, 1000, none⟩

def rotated : State KeyName where
  now := 721000
  rows := [⟨"old", oldKey, 0, 0, some 61000⟩, newRow]
  verifier := ⟨[newRow], 721000⟩
  tokens := [mirrorToken]

theorem rotated_run : (keyMachine deployment).Run (Polled deployment) rotated := by
  have hinit : (keyMachine deployment).init started := ⟨0, rfl⟩
  have hreplay : (keyMachine deployment).replay (Polled deployment) started rotation =
      some rotated := by decide +kernel
  exact Machine.run_of_replay hinit hreplay

theorem rotated_refuses : ¬∀ s, (keyMachine deployment).Run (Polled deployment) s → ∀ t ∈ s.tokens,
      s.now < t.expiresAt * 1000 → Accepted deployment s t := by
  intro h
  have haccepted := h rotated rotated_run mirrorToken (mem_singleton.mpr rfl) (by decide)
  have hrefused : (identify deployment rotated.verifier rotated.rows rotated.now mirrorToken).1 =
      .error .unknownKid := by decide +kernel
  cases hrefused.symm.trans haccepted

theorem rotation_iff_rotated :
    (Accepted deployment rotated mirrorToken ↔ Honoured deployment rotated mirrorToken) ∧
      ∀ t : Token KeyName, t.signer = oldKey → ¬Accepted deployment rotated t := by
  obtain ⟨hpresented, hretired⟩ := rotation_iff deployment
  constructor
  · exact (hpresented rotated rotated_run.reachable mirrorToken (mem_singleton.mpr rfl)
      (by decide)).1
  · exact hretired rotated rotated_run _ mem_cons_self 61000 rfl (by decide)

end Chicoree.Tokens
