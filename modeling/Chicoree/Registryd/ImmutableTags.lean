import Chicoree.Registryd.TagHandlers

/-! # Immutable tags under concurrent pushes

An immutable tag stays where it is as long as no push whose `SELECT` saw no row
finds one pointing elsewhere at its `INSERT`: a lock taken on a row guards the tag
until the commit, and where there was no row there is no lock. -/

namespace Chicoree.Registryd

open Transition

variable {rules : List TagRule} {s s' : TagStore} {i j : Nat} {t t' : TagTask}
  {tag : String} {d : Digest} {a : Statement}

structure TagInv (s : TagStore) : Prop where
  keyed : Table.Keyed TagRow.name s.tags
  exclusive : Locks.Exclusive s.locks

theorem TagInv.init (h : (tagProgram rules).init s) : TagInv s := by
  obtain ⟨hk, -, hl, -⟩ := h
  refine ⟨hk, ?_⟩
  rw [hl]
  exact .nil

theorem StatementEffect.inv (he : StatementEffect s i t a s') (h : TagInv s) : TagInv s' :=
  ⟨he.keyed, he.exclusive h.exclusive⟩

/-- **The condition on a step**: where a push whose `SELECT … FOR UPDATE` saw no
row inserts a tag that an immutable rule covers, no row of that name points at
another digest. -/
def insertsNewTag (rules : List TagRule) (p : Pool TagStore TagTask) :
    Move TagTask Statement Empty → Bool
  | .act i .ok =>
    match p.tasks[i]? with
    | some (.put (some tag) d (.insert none)) =>
      (immutableRule rules tag).isNone ||
        match p.shared.resolveTag tag with
        | none => true
        | some cur => decide (cur = d)
    | _ => true
  | _ => true

abbrev InsertsNewTag (rules : List TagRule) (p : Pool TagStore TagTask)
    (m : Move TagTask Statement Empty) : Prop :=
  insertsNewTag rules p m = true

theorem InsertsNewTag.digest {p : Pool TagStore TagTask} (h : InsertsNewTag rules p (.act i .ok))
    (ht : p.tasks[i]? = some (.put (some tag) d (.insert none)))
    (himm : immutableRule rules tag ≠ none) {cur : Digest}
    (hcur : p.shared.resolveTag tag = some cur) : cur = d := by
  simpa [InsertsNewTag, insertsNewTag, ht, hcur, himm] using h

/-- A push that has read the tag, or written it, holds its lock, and what it is
about to commit re-points no immutable tag. -/
def Guarded (rules : List TagRule) (s : TagStore) (i : Nat) : TagTask → Prop
  | .put (some tag) d (.insert (some cur)) =>
    (tag, i) ∈ s.locks ∧ s.resolveTag tag = some cur ∧ (cur = d ∨ immutableRule rules tag = none)
  | .put (some tag) d .commit =>
    (tag, i) ∈ s.locks ∧ (immutableRule rules tag ≠ none →
      ∀ cur, s.resolveTag tag = some cur → cur = d)
  | _ => True

theorem Guarded.frame (h : Guarded rules s i t) (hlock : ∀ tag, (tag, i) ∈ s.locks →
      (tag, i) ∈ s'.locks ∧ s'.resolveTag tag = s.resolveTag tag) :
    Guarded rules s' i t := by
  unfold Guarded at h ⊢
  split at h
  · obtain ⟨hl, hcur, hok⟩ := h
    obtain ⟨hl', hr⟩ := hlock _ hl
    exact ⟨hl', by rw [hr]; exact hcur, hok⟩
  · obtain ⟨hl, hok⟩ := h
    obtain ⟨hl', hr⟩ := hlock _ hl
    exact ⟨hl', fun himm cur hcur => hok himm cur (by rwa [hr] at hcur)⟩
  · trivial

theorem StatementEffect.locked_tag (he : StatementEffect s i t a s') (h : TagInv s)
    (hg : Guarded rules s i t) (hij : j ≠ i) (hl : (tag, j) ∈ s.locks) :
    s'.resolveTag tag = s.resolveTag tag := by
  cases he.change with
  | same hr => exact hr tag
  | write hr =>
    rw [hr, if_neg]
    rintro rfl
    exact hij (h.exclusive _ _ _ hl hg.1)
  | deleteTag hf hr =>
    rw [hr, if_neg]
    rintro rfl
    exact hij (Locks.free_iff.mp hf j hl)
  | deleteManifest hf hr =>
    rw [hr, if_neg]
    intro hd
    exact hij (Locks.free_iff.mp (hf tag hd) j hl)

theorem resolveTag_of_findTag {r : TagRow} (h : s.findTag tag = some r) :
    s.resolveTag tag = some r.digest := by
  simp [TagStore.resolveTag, h]

theorem insertTag_guarded (h : insertTag s i tag d = some (s', t'))
    (hok : immutableRule rules tag ≠ none → ∀ cur, s.resolveTag tag = some cur → cur = d) :
    Guarded rules s' i t' := by
  unfold insertTag at h
  split at h
  · split at h <;> cases h
    · exact ⟨Locks.mem_acquire.mpr (.inr ⟨rfl, rfl⟩), hok⟩
    · trivial
  · contradiction

theorem putTag_guarded {pc : PutPc} (h : putTag rules s i tag d pc = some (s', t'))
    (hg : Guarded rules s i (.put (some tag) d pc))
    (hnew : pc = .insert none → immutableRule rules tag ≠ none →
      ∀ cur, s.resolveTag tag = some cur → cur = d) : Guarded rules s' i t' := by
  cases pc with
  | checkTagImmutable | select =>
    simp only [putTag] at h
    split at h <;> cases h <;> trivial
  | upsertManifest | commit =>
    cases h
    trivial
  | lockRow row =>
    simp only [putTag] at h
    split at h
    · cases h
      trivial
    · rename_i r hr
      split at h
      · cases h
        trivial
      · split at h
        · split at h
          · cases h
            trivial
          · rename_i hok
            cases h
            exact ⟨Locks.mem_acquire.mpr (.inr ⟨rfl, rfl⟩), resolveTag_of_findTag hr,
              checkImmutable_ok hok⟩
        · contradiction
  | insert current =>
    cases current with
    | none => exact insertTag_guarded h (hnew rfl)
    | some cur =>
      obtain ⟨-, hcur, hok⟩ := hg
      refine insertTag_guarded h fun himm c hc => ?_
      rw [hcur] at hc
      cases hc
      exact hok.resolve_right himm

theorem deleteByTag_guarded {pc : DeleteTagPc}
    (h : deleteByTag rules s i tag pc = some (s', t')) : Guarded rules s' i t' := by
  cases pc <;> simp only [deleteByTag] at h
  case checkTagDeletable => split at h <;> cases h <;> trivial
  case resolveTag =>
    cases h
    trivial
  case deleteTag =>
    split at h
    · cases h
      trivial
    · split at h <;> cases h
      trivial

theorem deleteByDigest_guarded {pc : DeleteManifestPc}
    (h : deleteByDigest rules s i d pc = some (s', t')) : Guarded rules s' i t' := by
  cases pc <;> simp only [deleteByDigest] at h
  case checkManifestDeletable => split at h <;> cases h <;> trivial
  case tagsForManifest =>
    cases h
    trivial
  case deleteManifest =>
    split at h
    · split at h <;> cases h
      trivial
    · cases h
      trivial

theorem immutableOutline (rules : List TagRule) :
    (tagProgram rules).Outline (InsertsNewTag rules) TagInv (Guarded rules) where
  init s h := .init h
  spawn p t _ _ hf := by
    -- a request that just arrived has locked nothing
    unfold Guarded
    split
    · simp [tagProgram, TagTask.fresh] at hf
    · simp [tagProgram, TagTask.fresh] at hf
    · trivial
  act p i a t s' t' h hc ht ha := by
    have he := tagAct_effect h.shared.keyed ha
    refine ⟨he.inv h.shared, ?_⟩
    change tagAct rules p.shared i t a = some (s', t') at ha
    unfold tagAct at ha
    split at ha
    · contradiction
    · contradiction
    · cases ha
      trivial
    · refine putTag_guarded ha (h.tasks i _ ht) ?_
      rintro rfl himm cur hcur
      exact hc.digest ht himm hcur
    · cases ha
      trivial
    · contradiction
    · exact deleteByTag_guarded ha
    · exact deleteByDigest_guarded ha
  interfere p i a t s' t' h _ ht ha j q hj hq := by
    have he := tagAct_effect h.shared.keyed ha
    exact (h.tasks j q hq).frame fun tag hl =>
      ⟨he.others tag j hj hl, he.locked_tag h.shared (h.tasks i t ht) hj hl⟩
  env p e s' _ _ _ := nomatch e

theorem StatementEffect.immutable_tag (he : StatementEffect s i t a s')
    (hg : Guarded rules s i t) (himm : immutableRule rules tag ≠ none)
    (hd : s.resolveTag tag = some d) :
    s'.resolveTag tag = some d ∨ s'.resolveTag tag = none := by
  cases he.change with
  | same hr => exact .inl (by rw [hr, hd])
  | write hr =>
    rename_i tag' d'
    by_cases htag : tag = tag'
    · subst htag
      rw [hr, if_pos rfl]
      exact .inl (by rw [hg.2 himm d hd])
    · exact .inl (by rw [hr, if_neg htag, hd])
  | deleteTag _ hr | deleteManifest _ hr =>
    rw [hr]
    split
    · exact .inr rfl
    · exact .inl hd

/-- **Immutable tags never move.** In every run whose steps meet the condition,
once a tag that an immutable rule covers is committed pointing at a digest, every
later state has it there, or the tag was deleted in between. -/
theorem immutable_tags_never_move (rules : List TagRule) {p p' : Pool TagStore TagTask}
    {tag : String} {d : Digest}
    (h : (tagProgram rules).machine.Run (InsertsNewTag rules) p)
    (hp : (tagProgram rules).machine.Path (InsertsNewTag rules) p p')
    (himm : immutableRule rules tag ≠ none) (hd : p.shared.resolveTag tag = some d) :
    p'.shared.resolveTag tag = some d ∨
      ∃ q, (tagProgram rules).machine.Path (InsertsNewTag rules) p q ∧
        (tagProgram rules).machine.Path (InsertsNewTag rules) q p' ∧
        q.shared.resolveTag tag = none := by
  induction hp with
  | refl => exact .inl hd
  | step hp hc hs ih =>
    rcases ih with hd | ⟨q, hpq, hqt, hq⟩
    · have hinv := (immutableOutline rules).run (h.append hp)
      rcases Program.step_cases hs with ⟨t, rfl, -, rfl⟩ | ⟨i, a, t, s', t', rfl, ht, ha, rfl⟩ |
          ⟨e, -⟩
      · exact .inl hd
      · have he := tagAct_effect hinv.shared.keyed ha
        rcases he.immutable_tag (hinv.tasks i t ht) himm hd with hd' | hd'
        · exact .inl hd'
        · exact .inr ⟨_, .step hp hc hs, .refl, hd'⟩
      · nomatch e
    · exact .inr ⟨q, hpq, .step hqt hc hs, hq⟩

/-- `v*` is immutable, `release-*` protected. -/
def exampleRules : List TagRule :=
  [⟨"v*", true, false, none⟩, ⟨"release-*", false, true, none⟩]

def imageA : Digest :=
  "sha256:e3b0c44298fc1c149afbf4c8996fb92427ae41e4649b934ca495991b7852b855"

def imageB : Digest :=
  "sha256:6e340b9cffb37a989ca544e6bb780a2c78901d3fb33738768511a30617afa01d"

def emptyRepository : TagStore := ⟨[], [], [], [], 0⟩

theorem emptyRepository_init (rules : List TagRule) :
    (tagProgram rules).machine.init ⟨emptyRepository, []⟩ :=
  ⟨⟨List.nodup_nil, by simp [emptyRepository], rfl, rfl⟩, rfl⟩

def statements (i n : Nat) : List (Move TagTask Statement Empty) :=
  List.replicate n (.act i .ok)

def push (tag : String) (d : Digest) : Move TagTask Statement Empty :=
  .spawn (.put (some tag) d .checkTagImmutable)

/-- A first push of `v1`, then a push of the same image. -/
theorem immutable_tags_never_move_v1 :
    ∃ p p', (tagProgram exampleRules).machine.Run (InsertsNewTag exampleRules) p ∧
      (tagProgram exampleRules).machine.Path (InsertsNewTag exampleRules) p p' ∧
      p.shared.resolveTag "v1" = some imageA ∧
      (p'.shared.resolveTag "v1" = some imageA ∨
        ∃ q, (tagProgram exampleRules).machine.Path (InsertsNewTag exampleRules) p q ∧
          (tagProgram exampleRules).machine.Path (InsertsNewTag exampleRules) q p' ∧
          q.shared.resolveTag "v1" = none) := by
  obtain ⟨p, hp⟩ : ∃ p, (tagProgram exampleRules).machine.replay
      (InsertsNewTag exampleRules) ⟨emptyRepository, []⟩
      (push "v1" imageA :: statements 0 5) = some p := ⟨_, rfl⟩
  obtain ⟨p', hp'⟩ : ∃ p', (tagProgram exampleRules).machine.replay
      (InsertsNewTag exampleRules) p (push "v1" imageA :: statements 1 6) = some p' := by
    cases hp
    exact ⟨_, rfl⟩
  have hrun := Machine.run_of_replay (emptyRepository_init exampleRules) hp
  have hpath := Machine.path_of_replay hp'
  have hd : p.shared.resolveTag "v1" = some imageA := by
    cases hp
    rfl
  exact ⟨p, p', hrun, hpath, hd, immutable_tags_never_move exampleRules hrun hpath (by decide) hd⟩

/-- Two first pushes of `v1`: both see no row, the one that inserts second
re-points the tag the other has committed. -/
theorem immutable_tag_repointed : ∃ p p', (tagProgram exampleRules).machine.Reachable p ∧
      (tagProgram exampleRules).machine.Path
        (fun q _ => (q.shared.resolveTag "v1").isSome = true) p p' ∧
      immutableRule exampleRules "v1" ≠ none ∧
      p.shared.resolveTag "v1" = some imageA ∧
      p'.shared.resolveTag "v1" = some imageB ∧
      p'.tasks = [.done 201, .done 201] := by
  obtain ⟨p, hp⟩ : ∃ p, (tagProgram exampleRules).machine.replay (fun _ _ => True)
      ⟨emptyRepository, []⟩
      (push "v1" imageA :: push "v1" imageB :: statements 0 3 ++ statements 1 3 ++
        statements 0 2) = some p := ⟨_, rfl⟩
  obtain ⟨p', hp'⟩ : ∃ p', (tagProgram exampleRules).machine.replay
      (fun q _ => (q.shared.resolveTag "v1").isSome = true) p (statements 1 2) = some p' := by
    cases hp
    exact ⟨_, rfl⟩
  refine ⟨p, p', Machine.run_of_replay (emptyRepository_init exampleRules) hp,
    Machine.path_of_replay hp', by decide, ?_⟩
  cases hp
  cases hp'
  exact ⟨rfl, rfl, rfl⟩

end Chicoree.Registryd

/-! ## Protected tags under concurrent deletes

A delete by tag is checked against rules that do not change; a delete by digest takes along the
tags that point at the manifest when it runs, not when it was checked. -/

namespace Chicoree.Registryd

open Transition

variable {rules : List TagRule} {s s' : TagStore} {i j : Nat} {t t' : TagTask}
  {tag : String} {d : Digest} {a : Statement} {p : Pool TagStore TagTask}

def TagTask.deletes (d : Digest) : TagTask → Bool
  | .deleteManifest e .tagsForManifest => decide (e = d)
  | .deleteManifest e .deleteManifest => decide (e = d)
  | _ => false

/-- **The condition on a step**: where a push commits a tag that a protected rule
covers, no delete of the manifest it names has passed its check and is still
running. -/
def commitsUndeleted (rules : List TagRule) (p : Pool TagStore TagTask) :
    Move TagTask Statement Empty → Bool
  | .act i .ok =>
    match p.tasks[i]? with
    | some (.put (some tag) d .commit) =>
      (protectedRule rules tag).isNone || p.tasks.all fun t => !t.deletes d
    | _ => true
  | _ => true

abbrev CommitsUndeleted (rules : List TagRule) (p : Pool TagStore TagTask)
    (m : Move TagTask Statement Empty) : Prop :=
  commitsUndeleted rules p m = true

theorem CommitsUndeleted.no_delete (h : CommitsUndeleted rules p (.act i .ok))
    (ht : p.tasks[i]? = some (.put (some tag) d .commit)) (hprot : protectedRule rules tag ≠ none)
    {q : TagTask} (hq : q ∈ p.tasks) :
    q.deletes d = false := by
  have hall : ∀ q ∈ p.tasks, q.deletes d = false := by
    simpa [CommitsUndeleted, commitsUndeleted, ht, hprot] using h
  exact hall q hq

/-- A delete past its check removes no protected tag. -/
def Checked (rules : List TagRule) (s : TagStore) (_ : Nat) : TagTask → Prop
  | .deleteTag _ .checkTagDeletable => True
  | .deleteTag tag _ => protectedRule rules tag = none
  | .deleteManifest _ .checkManifestDeletable => True
  | .deleteManifest d _ => ∀ u, protectedRule rules u ≠ none → s.resolveTag u ≠ some d
  | _ => True

theorem deleteByTag_checked {pc : DeleteTagPc} (h : deleteByTag rules s i tag pc = some (s', t'))
    (hg : Checked rules s i (.deleteTag tag pc)) : Checked rules s' i t' := by
  cases pc <;> simp only [deleteByTag] at h
  case checkTagDeletable =>
    split at h
    · cases h
      trivial
    · rename_i hok
      cases h
      exact checkTagDeletable_ok hok
  case resolveTag =>
    cases h
    exact hg
  case deleteTag =>
    split at h
    · cases h
      trivial
    · split at h <;> cases h
      trivial

theorem deleteByDigest_checked {pc : DeleteManifestPc}
    (h : deleteByDigest rules s i d pc = some (s', t'))
    (hg : Checked rules s i (.deleteManifest d pc)) : Checked rules s' i t' := by
  cases pc <;> simp only [deleteByDigest] at h
  case checkManifestDeletable =>
    split at h
    · cases h
      trivial
    · rename_i hok
      cases h
      intro u hu hd
      exact hu (checkManifestDeletable_ok hok u (TagStore.mem_tagsForManifest hd))
  case tagsForManifest =>
    cases h
    exact hg
  case deleteManifest =>
    split at h
    · split at h <;> cases h
      trivial
    · cases h
      trivial

theorem putTag_checked {pc : PutPc} (h : putTag rules s i tag d pc = some (s', t')) :
    Checked rules s' i t' := by
  cases pc <;> simp only [putTag] at h
  case checkTagImmutable => split at h <;> cases h <;> trivial
  case upsertManifest =>
    cases h
    trivial
  case select => split at h <;> cases h <;> trivial
  case lockRow =>
    split at h
    · cases h
      trivial
    · split at h
      · cases h
        trivial
      · split at h
        · split at h <;> cases h <;> trivial
        · contradiction
  case insert =>
    unfold insertTag at h
    split at h
    · split at h <;> cases h <;> trivial
    · contradiction
  case commit =>
    cases h
    trivial

theorem StatementEffect.protected_tag {q : TagTask} (he : StatementEffect p.shared i t a s')
    (hc : CommitsUndeleted rules p (.act i a)) (ht : p.tasks[i]? = some t) (hq : q ∈ p.tasks)
    (hdel : q.deletes d = true) (hprot : protectedRule rules tag ≠ none)
    (hd : p.shared.resolveTag tag ≠ some d) : s'.resolveTag tag ≠ some d := by
  cases he.change with
  | same hr => rwa [hr]
  | write hr =>
    rw [hr]
    split
    · rename_i htag
      subst htag
      rintro ⟨⟩
      rw [hc.no_delete ht hprot hq] at hdel
      contradiction
    · exact hd
  | deleteTag _ hr | deleteManifest _ hr =>
    rw [hr]
    split
    · simp
    · exact hd

theorem protectedOutline (rules : List TagRule) :
    (tagProgram rules).Outline (CommitsUndeleted rules) TagInv (Checked rules) where
  init s h := .init h
  spawn p t _ _ hf := by
    change t.fresh = true at hf
    cases t with
    | deleteTag tag pc | deleteManifest d pc => cases pc <;> simp [TagTask.fresh, Checked] at hf ⊢
    | _ => trivial
  act p i a t s' t' h _ ht ha := by
    refine ⟨(tagAct_effect h.shared.keyed ha).inv h.shared, ?_⟩
    change tagAct rules p.shared i t a = some (s', t') at ha
    unfold tagAct at ha
    split at ha
    · contradiction
    · contradiction
    · cases ha
      trivial
    · exact putTag_checked ha
    · cases ha
      trivial
    · contradiction
    · exact deleteByTag_checked ha (h.tasks i _ ht)
    · exact deleteByDigest_checked ha (h.tasks i _ ht)
  interfere p i a t s' t' h hc ht ha j q _ hq := by
    have he := tagAct_effect h.shared.keyed ha
    have hg := h.tasks j q hq
    have hmem : q ∈ p.tasks := List.mem_of_getElem? hq
    cases q with
    | deleteTag tag pc => cases pc <;> exact hg
    | deleteManifest d pc =>
      cases pc with
      | checkManifestDeletable => trivial
      | tagsForManifest | deleteManifest =>
        intro u hu
        exact he.protected_tag hc ht hmem (by simp [TagTask.deletes]) hu (hg u hu)
    | _ => trivial
  env p e s' _ _ _ := nomatch e

theorem StatementEffect.protected_stays (he : StatementEffect s i t a s')
    (hg : Checked rules s i t) (hprot : protectedRule rules tag ≠ none)
    (hd : s.resolveTag tag ≠ none) : s'.resolveTag tag ≠ none := by
  cases he.change with
  | same hr => rwa [hr]
  | write hr =>
    rw [hr]
    split
    · simp
    · exact hd
  | deleteTag _ hr =>
    rw [hr, if_neg]
    · exact hd
    · rintro rfl
      exact hprot hg
  | deleteManifest _ hr =>
    rw [hr, if_neg (hg tag hprot)]
    exact hd

/-- **Protected tags survive deletes.** In every run whose steps meet the
condition, a tag that a protected rule covers is there in every state after the
one that has it. -/
theorem protected_tags_stay (rules : List TagRule) {p p' : Pool TagStore TagTask}
    {tag : String} (h : (tagProgram rules).machine.Run (CommitsUndeleted rules) p)
    (hp : (tagProgram rules).machine.Path (CommitsUndeleted rules) p p')
    (hprot : protectedRule rules tag ≠ none) (hd : p.shared.resolveTag tag ≠ none) :
    p'.shared.resolveTag tag ≠ none := by
  refine hp.stable h (Q := fun p => p.shared.resolveTag tag ≠ none) ?_ hd
  intro p m p' hr hd hc hs
  have hinv := (protectedOutline rules).run hr
  rcases Program.step_cases hs with ⟨t, rfl, -, rfl⟩ | ⟨i, a, t, s', t', rfl, ht, ha, rfl⟩ |
      ⟨e, -⟩
  · exact hd
  · exact (tagAct_effect hinv.shared.keyed ha).protected_stays (hinv.tasks i t ht) hprot hd
  · nomatch e

/-- `release-1` is pushed and its image deleted by digest: the check refuses. -/
theorem protected_tags_stay_release :
    ∃ p p', (tagProgram exampleRules).machine.Run (CommitsUndeleted exampleRules) p ∧
      (tagProgram exampleRules).machine.Path (CommitsUndeleted exampleRules) p p' ∧
      p'.tasks.length = 2 ∧ p.shared.resolveTag "release-1" ≠ none ∧
      p'.shared.resolveTag "release-1" ≠ none := by
  obtain ⟨p, hp⟩ : ∃ p, (tagProgram exampleRules).machine.replay
      (CommitsUndeleted exampleRules) ⟨emptyRepository, []⟩
      (push "release-1" imageA :: statements 0 5) = some p := ⟨_, rfl⟩
  obtain ⟨p', hp'⟩ : ∃ p', (tagProgram exampleRules).machine.replay
      (CommitsUndeleted exampleRules) p
      (.spawn (.deleteManifest imageA .checkManifestDeletable) :: statements 1 1) = some p' := by
    cases hp
    exact ⟨_, rfl⟩
  have hrun := Machine.run_of_replay (emptyRepository_init exampleRules) hp
  have hpath := Machine.path_of_replay hp'
  have hd : p.shared.resolveTag "release-1" ≠ none := by
    cases hp
    decide
  refine ⟨p, p', hrun, hpath, ?_, hd, protected_tags_stay exampleRules hrun hpath (by decide) hd⟩
  cases hp
  cases hp'
  rfl

/-- The delete of an untagged image has passed its check when a push tags the
image `release-1`; the delete then removes the tag with the image. -/
theorem protected_tag_removed : ∃ p p', (tagProgram exampleRules).machine.Reachable p ∧
      (tagProgram exampleRules).machine.Path (fun _ _ => True) p p' ∧
      protectedRule exampleRules "release-1" ≠ none ∧
      p.shared.resolveTag "release-1" = some imageA ∧
      p'.shared.resolveTag "release-1" = none ∧
      p'.tasks = [.done 201, .done 202, .done 201] := by
  obtain ⟨p, hp⟩ : ∃ p, (tagProgram exampleRules).machine.replay (fun _ _ => True)
      ⟨emptyRepository, []⟩
      (.spawn (.put none imageA .upsertManifest) :: statements 0 1 ++
        .spawn (.deleteManifest imageA .checkManifestDeletable) :: statements 1 1 ++
        push "release-1" imageA :: statements 2 5) = some p := ⟨_, rfl⟩
  obtain ⟨p', hp'⟩ : ∃ p', (tagProgram exampleRules).machine.replay (fun _ _ => True) p
      (statements 1 2) = some p' := by
    cases hp
    exact ⟨_, rfl⟩
  refine ⟨p, p', Machine.run_of_replay (emptyRepository_init exampleRules) hp,
    Machine.path_of_replay hp', by decide, ?_⟩
  cases hp
  cases hp'
  exact ⟨rfl, rfl, rfl⟩

end Chicoree.Registryd
