import Mathlib.Data.List.Perm.Basic
import Chicoree.Storage.Completeness
import Chicoree.Storage.OrphansSpared

/-! # What a verification deletes

A verification on its own deletes the old orphans and nothing else; and an upload that finds an
old orphan while one is under way can lose its blob. -/

namespace Chicoree.Storage

open Transition Bool List

/-! ## A verification on its own -/

/-- The object is an orphan, and was old enough when the verification came to it. -/
def Taken (opts : Options) (w₀ w : World) (o : Stored) : Prop :=
  opts.deleteOrphans = true ∧ ∃ digest t modTime, digestFromPath o.key = some digest ∧
    (∀ row ∈ w₀.rows, row.1 ≠ digest) ∧ (digest, t) ∈ w.examined ∧ o.modTime = some modTime ∧
      opts.orphanGrace ≤ t - modTime

section alone

variable {opts : Options} {w₀ w : World} {e : Entry} {o : Stored}

theorem orphaned_iff {now : Int} : orphaned opts now (w₀.rows.map Subtype.val) e = true ↔
    opts.deleteOrphans = true ∧ (∀ row ∈ w₀.rows, row.1 ≠ e.digest) ∧
      ∃ modTime, e.modTime = some modTime ∧ opts.orphanGrace ≤ now - modTime := by
  unfold orphaned
  rw [and_eq_true, and_eq_true, not_eq_true', eq_false_iff, Ne, contains_iff_mem, mem_map]
  constructor
  · rintro ⟨⟨hrows, hdelete⟩, hage⟩
    refine ⟨hdelete, fun row hrow heq => hrows ⟨row, hrow, heq⟩, ?_⟩
    cases hmod : e.modTime with
    | none => rw [hmod] at hage; cases hage
    | some modTime =>
      simp only [hmod, Option.any_some, not_eq_true', decide_eq_false_iff_not] at hage
      exact ⟨modTime, rfl, by omega⟩
  · rintro ⟨hdelete, hrows, modTime, hmod, hage⟩
    refine ⟨⟨?_, hdelete⟩, ?_⟩
    · rintro ⟨row, hrow, heq⟩
      exact hrows row hrow heq
    · simp only [hmod, Option.any_some, not_eq_true', decide_eq_false_iff_not]
      omega

theorem Taken.examine (h : Taken opts w₀ w o) : Taken opts w₀ (w.examine e) o := by
  obtain ⟨hdelete, digest, t, modTime, hkey, hrows, hmem, hrest⟩ := h
  exact ⟨hdelete, digest, t, modTime, hkey, hrows, mem_append_left _ hmem, hrest⟩

theorem taken_examine_iff (hkeyed : Table.Keyed Stored.key w₀.objects) (he : e ∈ w₀.inventory)
    (ho : o ∈ w₀.objects) : Taken opts w₀ (w.examine e) o ↔ Taken opts w₀ w o ∨
        (o.key = e.key ∧ orphaned opts w.now (w₀.rows.map Subtype.val) e = true) := by
  obtain ⟨o₁, ho₁, hdigest, hkey, hmod⟩ := World.mem_inventory.mp he
  have hsame : o.key = e.key → o = o₁ := fun h => hkeyed.eq_of_key ho ho₁ (h.trans hkey)
  constructor
  · rintro ⟨hdelete, digest, t, modTime, hread, hrows, hmem, hmodTime, hage⟩
    rcases mem_append.mp hmem with hmem | hmem
    · exact .inl ⟨hdelete, digest, t, modTime, hread, hrows, hmem, hmodTime, hage⟩
    · obtain ⟨rfl, rfl⟩ := Prod.mk.inj (mem_singleton.mp hmem)
      have hobject : o.key = e.key := (digestFromPath_inj hread hdigest).trans hkey.symm
      refine .inr ⟨hobject, orphaned_iff.mpr ⟨hdelete, hrows, modTime, ?_, hage⟩⟩
      rw [hmod, ← hsame hobject]
      exact hmodTime
  · rintro (htaken | ⟨hobject, horphaned⟩)
    · exact htaken.examine
    · obtain ⟨hdelete, hrows, modTime, hmodTime, hage⟩ := orphaned_iff.mp horphaned
      refine ⟨hdelete, e.digest, w.now, modTime, ?_, hrows, ?_, ?_, hage⟩
      · rw [hobject, hkey]
        exact hdigest
      · exact mem_append_right _ (mem_singleton.mpr rfl)
      · rw [hsame hobject, ← hmod]
        exact hmodTime

/-- What is left of the objects, and when the entries so far were looked at. -/
structure Remains (opts : Options) (w₀ w : World) : Prop where
  rows : w.rows = w₀.rows
  objects : ∀ o, o ∈ w.objects ↔ o ∈ w₀.objects ∧ ¬Taken opts w₀ w o
  later : w₀.now ≤ w.now
  times : ∀ x ∈ w.examined, w₀.now ≤ x.2 ∧ x.2 ≤ w.now

/-- Where the verification stands: the entries looked at and those left are the listing. -/
def Stage (w₀ w : World) : VerifyPc → Prop
  | .listing => w.examined = [] ∧ w.objects = w₀.objects
  | .walking inv => w.examined = [] ∧ w.objects = w₀.objects ∧ inv = w₀.inventory
  | .orphans left seen => seen = w₀.rows.map Subtype.val ∧ (∀ e ∈ left, e ∈ w₀.inventory) ∧
      (w.examined.map Prod.fst ++ left.map Entry.digest).Perm (w₀.inventory.map Entry.digest)
  | .done => True

theorem Remains.examine (h : Remains opts w₀ w) (hkeyed : Table.Keyed Stored.key w₀.objects)
    (he : e ∈ w₀.inventory)
    (hkept : orphaned opts w.now (w₀.rows.map Subtype.val) e = false) :
    Remains opts w₀ (w.examine e) := by
  refine ⟨h.rows, ?_, h.later, ?_⟩
  · intro o
    show o ∈ w.objects ↔ _
    rw [h.objects o]
    constructor
    · rintro ⟨ho, htaken⟩
      refine ⟨ho, ?_⟩
      rw [taken_examine_iff hkeyed he ho, hkept]
      rintro (hbefore | ⟨-, hnow⟩)
      · exact htaken hbefore
      · cases hnow
    · rintro ⟨ho, htaken⟩
      exact ⟨ho, fun hbefore => htaken hbefore.examine⟩
  · intro x hx
    rcases mem_append.mp hx with hx | hx
    · exact h.times x hx
    · rw [mem_singleton.mp hx]
      exact ⟨h.later, Int.le_refl w.now⟩

theorem Remains.remove (h : Remains opts w₀ w) (hkeyed : Table.Keyed Stored.key w₀.objects)
    (he : e ∈ w₀.inventory) (horphaned : orphaned opts w.now (w₀.rows.map Subtype.val) e = true) :
    Remains opts w₀ (w.remove e) := by
  refine ⟨h.rows, ?_, h.later, ?_⟩
  · intro o
    show o ∈ w.objects.filter (fun o => decide (o.key ≠ e.key)) ↔
      o ∈ w₀.objects ∧ ¬Taken opts w₀ (w.examine e) o
    rw [mem_filter, h.objects o, decide_eq_true_eq]
    constructor
    · rintro ⟨⟨ho, htaken⟩, hne⟩
      refine ⟨ho, ?_⟩
      rw [taken_examine_iff hkeyed he ho]
      rintro (hbefore | ⟨hsame, -⟩)
      · exact htaken hbefore
      · exact hne hsame
    · rintro ⟨ho, htaken⟩
      rw [taken_examine_iff hkeyed he ho] at htaken
      exact ⟨⟨ho, fun hbefore => htaken (.inl hbefore)⟩,
        fun hsame => htaken (.inr ⟨hsame, horphaned⟩)⟩
  · intro x hx
    rcases mem_append.mp hx with hx | hx
    · exact h.times x hx
    · rw [mem_singleton.mp hx]
      exact ⟨h.later, Int.le_refl w.now⟩

theorem remains_start (hrows : w.rows = w₀.rows) (hobjects : w.objects = w₀.objects)
    (hexamined : w.examined = []) (hlater : w₀.now ≤ w.now) : Remains opts w₀ w := by
  refine ⟨hrows, ?_, hlater, ?_⟩
  · intro o
    rw [hobjects]
    constructor
    · intro ho
      refine ⟨ho, ?_⟩
      rintro ⟨-, digest, t, modTime, -, -, hmem, -⟩
      rw [hexamined] at hmem
      cases hmem
    · exact And.left
  · intro x hx
    rw [hexamined] at hx
    cases hx

/-- Nothing has begun, or the one verification stands at its stage. -/
def OneVerification (w₀ : World) (p : Pool World Task) : Prop :=
  (p.tasks = [] ∧ p.shared.rows = w₀.rows ∧ p.shared.objects = w₀.objects ∧
      p.shared.examined = [] ∧ w₀.now ≤ p.shared.now) ∨
    ∃ opts pc, p.tasks = [.verify opts pc] ∧ Remains opts w₀ p.shared ∧ Stage w₀ p.shared pc

theorem inventory_congr (h : w.objects = w₀.objects) : w.inventory = w₀.inventory := by
  unfold World.inventory
  rw [h]

theorem oneVerification_step {S : Sha256} {p p' : Pool World Task} {m : Move Task Act Nat}
    (hkeyed : Table.Keyed Stored.key w₀.objects) (h : OneVerification w₀ p) (halone : Alone p m)
    (hstep : (storageProgram S).step p m = some p') : OneVerification w₀ p' := by
  rcases Program.step_cases hstep with ⟨t, rfl, hfresh, rfl⟩ |
      ⟨i, a, t, w', t', rfl, ht, hact, rfl⟩ | ⟨ms, w', rfl, henv, rfl⟩
  · cases t with
    | commit digest content pc => exact halone.elim
    | verify opts pc =>
      have hnone : p.tasks = [] := halone
      rcases h with ⟨-, hrows, hobjects, hexamined, hlater⟩ | ⟨opts', pc', hone, -⟩
      · cases of_decide_eq_true hfresh
        refine .inr ⟨opts, .listing, ?_, ?_, hexamined, hobjects⟩
        · rw [hnone, nil_append]
        · exact remains_start hrows hobjects hexamined hlater
      · rw [hnone] at hone
        cases hone
  · rcases h with ⟨hnone, -⟩ | ⟨opts, pc, hone, hremains, hstage⟩
    · rw [hnone] at ht
      cases ht
    rw [hone] at ht
    obtain ⟨rfl, rfl⟩ : i = 0 ∧ t = .verify opts pc := by
      cases i with
      | zero => exact ⟨rfl, (Option.some.inj ht).symm⟩
      | succ i => cases ht
    rcases act_cases hact with ⟨digest, content, pc₁, pc', hcommit, -⟩ |
        ⟨opts₁, pc₁, pc', hverify, rfl, hv⟩
    · cases hcommit
    obtain ⟨rfl, rfl⟩ := Task.verify.inj hverify
    refine .inr ⟨opts, pc', by rw [hone]; rfl, ?_⟩
    rcases verifyAct_cases hv with ⟨rfl, rfl | ⟨rfl, rfl⟩ | ⟨inv, rfl, rfl⟩⟩ |
        ⟨left, seen, n, succeeds, e, rfl, rfl, hn, rfl, hcase⟩
    · exact ⟨hremains, trivial⟩
    · obtain ⟨hexamined, hobjects⟩ := hstage
      exact ⟨hremains, hexamined, hobjects, inventory_congr hobjects⟩
    · obtain ⟨hexamined, -, rfl⟩ := hstage
      refine ⟨hremains, by rw [hremains.rows], fun e he => he, ?_⟩
      rw [hexamined]
      exact List.Perm.refl _
    · obtain ⟨rfl, hleft, hperm⟩ := hstage
      have he := hleft e (mem_of_getElem? hn)
      have hleft' : ∀ e' ∈ left.eraseIdx n, e' ∈ w₀.inventory :=
        fun e' he' => hleft e' (mem_of_mem_eraseIdx he')
      have hperm' : ((p.shared.examined ++ [(e.digest, p.shared.now)]).map Prod.fst ++
          (left.eraseIdx n).map Entry.digest).Perm (w₀.inventory.map Entry.digest) := by
        obtain ⟨hlt, hget⟩ := List.getElem?_eq_some_iff.mp hn
        have herase := (getElem_cons_eraseIdx_perm hlt).map Entry.digest
        rw [hget] at herase
        rw [map_append, append_assoc]
        exact (herase.append_left _).trans hperm
      have hsucceeds : succeeds = true := halone
      rcases hcase with ⟨horphaned, -, rfl⟩ | ⟨hkept, rfl⟩
      · exact ⟨hremains.remove hkeyed he horphaned, rfl, hleft', hperm'⟩
      · rw [hsucceeds, Bool.and_true] at hkept
        exact ⟨hremains.examine hkeyed he hkept, rfl, hleft', hperm'⟩
  · cases henv
    have hle : p.shared.now ≤ p.shared.now + ms := by omega
    rcases h with ⟨hnone, hrows, hobjects, hexamined, hlater⟩ | ⟨opts, pc, hone, hremains, hstage⟩
    · exact .inl ⟨hnone, hrows, hobjects, hexamined, Int.le_trans hlater hle⟩
    · refine .inr ⟨opts, pc, hone, ⟨hremains.rows, hremains.objects, ?_, ?_⟩, ?_⟩
      · exact Int.le_trans hremains.later hle
      · intro x hx
        obtain ⟨hfrom, hto⟩ := hremains.times x hx
        exact ⟨hfrom, Int.le_trans hto hle⟩
      · cases pc <;> exact hstage

end alone

/-! ## The tool -/

/-- **Orphan deletion.** While every deletion meets `Spares`, each row whose object a
verification deleted has an object again; a deletion that does not meet it leads to a row
without its object. A verification on its own looks at every recognised object once and deletes
exactly those without a row that are old enough then. -/
theorem orphans_spared_iff (S : Sha256) :
    (∀ p, (storageProgram S).machine.Run Spares p → p.shared.Referenced) ∧
    (∀ p m p', (storageProgram S).machine.Reachable p → (storageProgram S).step p m = some p' →
      ¬Spares p m →
        ∃ q, (storageProgram S).machine.Path (fun _ _ => True) p' q ∧ ¬q.shared.Referenced) ∧
    ∀ p₀ p opts seen, (storageProgram S).machine.init p₀ →
      (storageProgram S).machine.Path Alone p₀ p → p.tasks = [.verify opts (.orphans [] seen)] →
          (p.shared.examined.map Prod.fst).Perm (p₀.shared.inventory.map Entry.digest) ∧
          (∀ x ∈ p.shared.examined, p₀.shared.now ≤ x.2 ∧ x.2 ≤ p.shared.now) ∧
          ∀ o, o ∈ p.shared.objects ↔ o ∈ p₀.shared.objects ∧ ¬Taken opts p₀.shared p.shared o := by
  refine ⟨?_, ?_, ?_⟩
  · intro p h
    exact (spared_outline.run h).shared
  · intro p m p' h hstep hspares
    exact lost_of_not_spares h hstep hspares
  · intro p₀ p opts seen hinit hpath htasks
    obtain ⟨⟨hkeyed, hexamined, -⟩, hnone⟩ := hinit
    have hone : OneVerification p₀.shared p := by
      refine hpath.invariant (Q := fun p => OneVerification p₀.shared p) ?_
        (.inl ⟨hnone, rfl, rfl, hexamined, Int.le_refl _⟩)
      intro q m q' hq halone hstep
      exact oneVerification_step hkeyed hq halone hstep
    rcases hone with ⟨hempty, -⟩ | ⟨opts', pc, htask, hremains, hstage⟩
    · rw [hempty] at htasks
      cases htasks
    · rw [htask] at htasks
      obtain ⟨rfl, rfl⟩ := Task.verify.inj (List.cons.inj htasks).1
      obtain ⟨-, -, hperm⟩ := hstage
      rw [map_nil, append_nil] at hperm
      exact ⟨hperm, hremains.times, hremains.objects⟩

/-! ## A push that finds an old orphan -/

def emptyDigest : BlobDigest := ⟨emptySha256.digestOf [], by decide +kernel⟩

def oldOrphan : Pool World Task where
  shared := ⟨7200000, true, true, [⟨blobPath emptyDigest.1, [], some 0⟩], [], [], []⟩
  tasks := []

/-- `--delete-orphans`, with the grace period of an hour. -/
def deletesOrphans : Options := ⟨true, true, 3600000⟩

/-- The commit finds the object behind the walk over the rows and adds its row behind the
deletion. -/
def foundOrphan : List (Move Task Act Nat) :=
  [.spawn (.verify deletesOrphans .listing), .act 0 .go, .act 0 .go,
    .spawn (.commit emptyDigest [] .stat), .act 1 .go, .act 0 (.entry 0 true), .act 1 .go]

def lostBlob : Pool World Task where
  shared := ⟨7200000, true, true, [], [emptyDigest], [(emptyDigest.1, 7200000)], [emptyDigest.1]⟩
  tasks := [.verify deletesOrphans (.orphans [] []), .commit emptyDigest [] .done]

theorem oldOrphan_init : (storageProgram emptySha256).machine.init oldOrphan :=
  ⟨⟨pairwise_singleton _ _, rfl, rfl⟩, rfl⟩

def deletedOrphan : Pool World Task where
  shared := ⟨7200000, true, true, [], [], [(emptyDigest.1, 7200000)], [emptyDigest.1]⟩
  tasks := [.verify deletesOrphans (.orphans [] [])]

theorem deletedOrphan_path :
    (storageProgram emptySha256).machine.Path Alone oldOrphan deletedOrphan := by
  let orphan : Entry := ⟨emptyDigest.1, blobPath emptyDigest.1, some 0⟩
  let started : Pool World Task := ⟨oldOrphan.shared, [.verify deletesOrphans .listing]⟩
  let listed : Pool World Task := ⟨oldOrphan.shared, [.verify deletesOrphans (.walking [orphan])]⟩
  let walked : Pool World Task :=
    ⟨oldOrphan.shared, [.verify deletesOrphans (.orphans [orphan] [])]⟩
  have hspawn : (storageProgram emptySha256).machine.step oldOrphan
      (.spawn (.verify deletesOrphans .listing)) = some started := rfl
  have hlist : (storageProgram emptySha256).machine.step started (.act 0 .go) = some listed := by
    decide +kernel
  have hwalk : (storageProgram emptySha256).machine.step listed (.act 0 .go) = some walked := rfl
  have hentry : (storageProgram emptySha256).machine.step walked (.act 0 (.entry 0 true)) =
      some deletedOrphan := by decide +kernel
  have hfirst : Alone oldOrphan (.spawn (.verify deletesOrphans .listing)) := rfl
  have hgo : ∀ p, Alone p (.act 0 .go) := fun _ => trivial
  have hsucceeds : Alone walked (.act 0 (.entry 0 true)) := rfl
  exact .cons hfirst hspawn
    (.cons (hgo started) hlist (.cons (hgo listed) hwalk (.cons hsucceeds hentry .refl)))

theorem orphans_spared_iff_deletedOrphan :
    ∀ o ∈ oldOrphan.shared.objects, Taken deletesOrphans oldOrphan.shared deletedOrphan.shared o := by
  have hinit : (storageProgram emptySha256).machine.init oldOrphan := oldOrphan_init
  obtain ⟨-, -, hobjects⟩ := (orphans_spared_iff emptySha256).2.2 oldOrphan deletedOrphan
    deletesOrphans [] hinit deletedOrphan_path rfl
  intro o ho
  by_contra htaken
  exact not_mem_nil ((hobjects o).mpr ⟨ho, htaken⟩)

theorem lostBlob_run : (storageProgram emptySha256).machine.Reachable lostBlob := by
  have hreplay : (storageProgram emptySha256).machine.replay (fun _ _ => True) oldOrphan
      foundOrphan = some lostBlob := by decide +kernel
  exact Machine.run_of_replay oldOrphan_init hreplay

theorem orphans_lostBlob : ¬∀ p, (storageProgram emptySha256).machine.Reachable p →
    ∀ digest ∈ p.shared.rows, digest.1 ∈ p.shared.deleted → p.shared.stat digest.1 = true := by
  intro h
  have hfound := h lostBlob lostBlob_run emptyDigest (mem_singleton.mpr rfl) (mem_singleton.mpr rfl)
  cases hfound

end Chicoree.Storage
