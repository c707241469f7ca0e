import Chicoree.Registryd.BlobHandlers

/-! # Appending to a local upload session

`LocalStaging.Append` (`staging.go`) is a size check, an open with `O_APPEND`, a copy in
as many writes as it takes, and a look at the final size. Nothing locks the data file, so
that the appends of one session interleave. -/

namespace Chicoree.Registryd

open Transition List

/-! ## Model -/

inductive LocalResult where
  | offset (n : Nat)
  | mismatch (n : Nat)
  | notFound
  | failed
deriving DecidableEq

inductive LocalPc where
  | size
  | openFile
  | copy
  | finalSize
  | finished (result : LocalResult)
deriving DecidableEq

/-- One call of `Append`. `written` is the part of the body that reached the file so far,
`began` the size of the file at its first write. -/
structure LocalAppend where
  expected : Nat
  body : Bytes
  written : Bytes := []
  began : Option Nat := none
  pc : LocalPc := .size
deriving DecidableEq

/-- An append that returned its new offset. -/
structure LocalSuccess where
  task : Nat
  expected : Nat
  body : Bytes
deriving DecidableEq

/-- The data file of the session, and the successful appends in order of success. -/
structure LocalSession where
  file : Option Bytes
  succeeded : List LocalSuccess := []

inductive LocalAnswer where
  | ok
  | failed
  /-- some of the remaining bytes are written -/
  | write (n : Nat)
  /-- the copy or the close fails, after some more bytes -/
  | broken (n : Nat)

namespace LocalAppend

def fresh (t : LocalAppend) : Bool :=
  decide (t.written = [] ∧ t.began = none ∧ t.pc = .size)

def rest (t : LocalAppend) : Bytes := t.body.drop t.written.length

def finish (t : LocalAppend) (result : LocalResult) : LocalAppend :=
  { t with pc := .finished result }

/-- The append after it has written `n` bytes to a file of `size` bytes. -/
def wrote (t : LocalAppend) (size n : Nat) : LocalAppend :=
  { t with written := t.written ++ t.rest.take n, began := t.began <|> some size }

def inWindow (t : LocalAppend) : Bool :=
  match t.pc with
  | .openFile | .copy | .finalSize => true
  | .size | .finished _ => false

def unfinished (t : LocalAppend) : Bytes :=
  if t.inWindow then t.written else []

end LocalAppend

/-- One call of the append with number `i`. -/
def localAppend (s : LocalSession) (i : Nat) (t : LocalAppend) (a : LocalAnswer) :
    Option (LocalSession × LocalAppend) :=
  match t.pc, a with
  | .size, .ok =>
    match s.file with
    | none => some (s, t.finish .notFound)
    | some f =>
      if f.length ≠ t.expected then some (s, t.finish (.mismatch f.length))
      else some (s, { t with pc := .openFile })
  | .size, .failed => some (s, t.finish .failed)
  | .openFile, .ok =>
    match s.file with
    | none => some (s, t.finish .notFound)
    | some _ => some (s, { t with pc := .copy })
  | .openFile, .failed => some (s, t.finish .failed)
  | .copy, .write n =>
    match s.file with
    | none => none
    | some f =>
      if 0 < n ∧ n ≤ t.rest.length then
        some ({ s with file := some (f ++ t.rest.take n) }, t.wrote f.length n)
      else none
  | .copy, .broken 0 => some (s, t.finish .failed)
  | .copy, .broken n =>
    match s.file with
    | none => none
    | some f =>
      if n ≤ t.rest.length then
        some ({ s with file := some (f ++ t.rest.take n) }, (t.wrote f.length n).finish .failed)
      else none
  | .copy, .ok => if t.rest = [] then some (s, { t with pc := .finalSize }) else none
  | .finalSize, .ok =>
    match s.file with
    | none => some (s, t.finish .notFound)
    | some f =>
      some ({ s with succeeded := s.succeeded ++ [⟨i, t.expected, t.body⟩] },
        t.finish (.offset f.length))
  | .finalSize, .failed => some (s, t.finish .failed)
  | _, _ => none

def localProgram : Program LocalSession LocalAppend LocalAnswer Empty where
  init s := s = ⟨some [], []⟩
  fresh := LocalAppend.fresh
  act := localAppend
  env _ e := nomatch e

abbrev localAppends : Machine (Pool LocalSession LocalAppend)
    (Move LocalAppend LocalAnswer Empty) :=
  localProgram.machine

namespace LocalSession

def joined (s : LocalSession) : Bytes := (s.succeeded.map LocalSuccess.body).flatten

end LocalSession

/-- The append returned its new offset. -/
def LocalAppend.Succeeds (t : LocalAppend) (r : LocalSuccess) : Prop :=
  t.expected = r.expected ∧ t.body = r.body ∧ ∃ n, t.pc = .finished (.offset n)

/-- What the contract of `Staging.Append` says of the appends of one session. -/
structure CompareAndAppend (p : Pool LocalSession LocalAppend) : Prop where
  /-- the recorded successes are those of the tasks -/
  record : Program.TrueRecord LocalSession.succeeded LocalSuccess.task LocalAppend.Succeeds p
  /-- one success for each expected offset -/
  once : ∀ (i j : Nat) (t u : LocalAppend) (n m : Nat), p.tasks[i]? = some t → p.tasks[j]? = some u →
    t.pc = .finished (.offset n) → u.pc = .finished (.offset m) → t.expected = u.expected → i = j
  /-- an append begins to write at the offset it expects -/
  matched : ∀ (i : Nat) t, p.tasks[i]? = some t → ∀ n, t.began = some n → n = t.expected
  mismatched : ∀ (i : Nat) t n, p.tasks[i]? = some t → t.pc = .finished (.mismatch n) →
    t.written = []
  /-- the file is the successful bodies, and then what the append under way has written -/
  complete : (∀ (i : Nat) t, p.tasks[i]? = some t → t.unfinished = []) →
    p.shared.file = some p.shared.joined
  underWay : ∀ (i : Nat) t, p.tasks[i]? = some t → t.unfinished ≠ [] →
    p.shared.file = some (p.shared.joined ++ t.unfinished)

/-! ## When it holds -/

/-- No other append is between its size check and its return. -/
def aloneInWindow (p : Pool LocalSession LocalAppend) (i : Nat) : Bool :=
  (List.range p.tasks.length).all fun j =>
    decide (j = i) || !(p.tasks[j]?.any LocalAppend.inWindow)

/-- Every append brings some bytes, writes while no other append is past its size check,
and does not fail once it has written. -/
def undisturbed (p : Pool LocalSession LocalAppend) :
    Move LocalAppend LocalAnswer Empty → Bool
  | .spawn t => !t.body.isEmpty
  | .act i (.write _) => aloneInWindow p i
  | .act _ (.broken (_ + 1)) => false
  | .act i (.broken 0) | .act i .failed => p.tasks[i]?.all fun t => t.written.isEmpty
  | .act _ .ok => true
  | .env e => nomatch e

/-! ## When appends to a local session compare and append

An undisturbed run of appends keeps the contract of the staging interface; a retried
request breaks it. -/

section calls

variable {s s' : LocalSession} {t t' : LocalAppend} {i : Nat} {a : LocalAnswer}

/-- What a call of an append that has not failed after a write can be. -/
inductive LocalEffect (s : LocalSession) (i : Nat) (t : LocalAppend) :
    LocalAnswer → LocalSession → LocalAppend → Prop
  | refused {a : LocalAnswer} (result : LocalResult) : t.pc = .size →
      (∀ n, result ≠ .offset n) → LocalEffect s i t a s (t.finish result)
  | enters {f : Bytes} : t.pc = .size → s.file = some f → f.length = t.expected →
      LocalEffect s i t .ok s { t with pc := .openFile }
  | opens : t.pc = .openFile → LocalEffect s i t .ok s { t with pc := .copy }
  | copied : t.pc = .copy → t.rest = [] → LocalEffect s i t .ok s { t with pc := .finalSize }
  | leaves {a : LocalAnswer} : t.inWindow = true → a = .failed ∨ a = .broken 0 →
      LocalEffect s i t a s (t.finish .failed)
  | writes {f : Bytes} {n : Nat} : t.pc = .copy → s.file = some f → 0 < n →
      n ≤ t.rest.length →
      LocalEffect s i t (.write n) { s with file := some (f ++ t.rest.take n) }
        (t.wrote f.length n)
  | succeeds {f : Bytes} : t.pc = .finalSize → s.file = some f →
      LocalEffect s i t .ok
        { s with succeeded := s.succeeded ++ [⟨i, t.expected, t.body⟩] }
        (t.finish (.offset f.length))

theorem localAppend_effect {f : Bytes} (hfile : s.file = some f)
    (hwhole : ∀ n, a ≠ .broken (n + 1)) (h : localAppend s i t a = some (s', t')) :
    LocalEffect s i t a s' t' := by
  unfold localAppend at h
  cases hpc : t.pc with
  | size =>
    cases a <;> simp only [hpc, hfile, reduceCtorEq] at h
    case ok =>
      split at h
      · cases h
        exact .refused _ hpc (by simp)
      · rename_i hsize
        cases h
        exact .enters hpc hfile (not_not.mp hsize)
    case failed =>
      cases h
      exact .refused _ hpc (by simp)
  | openFile =>
    have hin : t.inWindow = true := by simp [LocalAppend.inWindow, hpc]
    cases a <;> simp only [hpc, hfile, reduceCtorEq] at h
    case ok =>
      cases h
      exact .opens hpc
    case failed =>
      cases h
      exact .leaves hin (.inl rfl)
  | copy =>
    have hin : t.inWindow = true := by simp [LocalAppend.inWindow, hpc]
    cases a with
    | failed => simp [hpc] at h
    | write n =>
      simp only [hpc, hfile] at h
      split at h
      · rename_i hn
        cases h
        exact .writes hpc hfile hn.1 hn.2
      · cases h
    | broken n =>
      cases n with
      | zero =>
        simp only [hpc] at h
        cases h
        exact .leaves hin (.inr rfl)
      | succ n => exact absurd rfl (hwhole n)
    | ok =>
      simp only [hpc] at h
      split at h
      · rename_i hrest
        cases h
        exact .copied hpc hrest
      · cases h
  | finalSize =>
    have hin : t.inWindow = true := by simp [LocalAppend.inWindow, hpc]
    cases a <;> simp only [hpc, hfile, reduceCtorEq] at h
    case ok =>
      cases h
      rw [← hfile]
      exact .succeeds hpc hfile
    case failed =>
      cases h
      exact .leaves hin (.inl rfl)
  | finished result => cases a <;> simp [hpc] at h

end calls

/-! ## Undisturbed runs -/

section runs

variable {p p' : Pool LocalSession LocalAppend} {t : LocalAppend}

structure LocalAppend.Ok (t : LocalAppend) : Prop where
  body : t.body ≠ []
  split : t.written ++ t.rest = t.body
  unchecked : t.pc = .size → t.written = []
  copied : t.pc = .finalSize → t.rest = []
  began : t.written = [] ↔ t.began = none
  matched : ∀ n, t.began = some n → n = t.expected
  mismatched : ∀ n, t.pc = .finished (.mismatch n) → t.written = []

theorem LocalAppend.Ok.goTo {pc : LocalPc} (h : t.Ok)
    (hnothing : pc = .size ∨ (∃ n, pc = .finished (.mismatch n)) → t.written = [])
    (hcopied : pc = .finalSize → t.rest = []) : LocalAppend.Ok { t with pc := pc } where
  body := h.body
  split := h.split
  unchecked hpc := hnothing (.inl hpc)
  copied := hcopied
  began := h.began
  matched := h.matched
  mismatched n hpc := hnothing (.inr ⟨n, hpc⟩)

/-- Each success starts where the ones before it end. -/
def Chained (rs : List LocalSuccess) : Prop :=
  ∀ past r later, rs = past ++ r :: later →
    r.expected = ((past.map LocalSuccess.body).flatten).length ∧ r.body ≠ []

/-- What holds between the steps of an undisturbed run, over a file of content `f`. -/
structure Undisturbed (p : Pool LocalSession LocalAppend) (f : Bytes) : Prop where
  file : p.shared.file = some f
  task : ∀ (i : Nat) t, p.tasks[i]? = some t → t.Ok
  position : ∀ (i : Nat) t, p.tasks[i]? = some t → t.inWindow = true →
    f.length = t.expected + t.written.length
  single : ∀ (i j : Nat) t u, p.tasks[i]? = some t → p.tasks[j]? = some u →
    t.unfinished ≠ [] → u.unfinished ≠ [] → i = j
  complete : (∀ (i : Nat) t, p.tasks[i]? = some t → t.unfinished = []) → f = p.shared.joined
  underWay : ∀ (i : Nat) t, p.tasks[i]? = some t → t.unfinished ≠ [] →
    f = p.shared.joined ++ t.unfinished
  chained : Chained p.shared.succeeded

variable {rs : List LocalSuccess} {r : LocalSuccess}

theorem Chained.append (h : Chained rs)
    (hr : r.expected = ((rs.map LocalSuccess.body).flatten).length) (hbody : r.body ≠ []) :
    Chained (rs ++ [r]) := by
  intro past x later heq
  rcases eq_nil_or_concat later with rfl | ⟨later', y, rfl⟩
  · obtain ⟨rfl, hx⟩ := append_inj' heq rfl
    cases hx
    exact ⟨hr, hbody⟩
  · have hcut : rs = past ++ x :: later' := by
      rw [concat_eq_append, ← cons_append, ← append_assoc] at heq
      exact (append_inj' heq rfl).1
    exact h past x later' hcut

theorem Chained.expected_inj (h : Chained rs) {x : LocalSuccess}
    (hr : r ∈ rs) (hx : x ∈ rs) (he : r.expected = x.expected) : r = x := by
  -- a later success starts past the end of an earlier one
  have hlt : ∀ {past mid later : List LocalSuccess} {a b : LocalSuccess},
      rs = past ++ a :: (mid ++ b :: later) → a.expected < b.expected := by
    intro past mid later a b heq
    obtain ⟨ha, hbody⟩ := h past a _ heq
    have hb := (h (past ++ a :: mid) b later (by simp [heq])).1
    have hpos : 0 < a.body.length := length_pos_iff.mpr hbody
    simp only [map_append, map_cons, flatten_append, flatten_cons, length_append] at hb
    omega
  obtain ⟨past, later, heq⟩ := append_of_mem hr
  rw [heq] at hx
  rcases mem_append.mp hx with hx | hx
  · obtain ⟨past', mid, rfl⟩ := append_of_mem hx
    have hbefore := @hlt past' mid later x r (by simp [heq])
    omega
  · rcases mem_cons.mp hx with rfl | hx
    · rfl
    · obtain ⟨mid, later', rfl⟩ := append_of_mem hx
      have hafter := hlt heq
      omega

variable {i : Nat}

theorem aloneInWindow_other {j : Nat} (h : aloneInWindow p i = true) (hne : j ≠ i)
    {u : LocalAppend} (hu : p.tasks[j]? = some u) : u.inWindow = false := by
  have hlt := (List.getElem?_eq_some_iff.mp hu).1
  have hj := all_eq_true.mp h j (mem_range.mpr hlt)
  simpa [hne, hu] using hj

theorem LocalAppend.unfinished_of_window (h : t.inWindow = true) : t.unfinished = t.written :=
  if_pos h

theorem LocalAppend.unfinished_of_not_window (h : t.inWindow = false) : t.unfinished = [] :=
  if_neg (by simp [h])

/-! ## Steps of an undisturbed run -/

variable {t' : LocalAppend} {a : LocalAnswer} {s' : LocalSession}

section

variable {f : Bytes} (h : Undisturbed p f)
include h

theorem Undisturbed.keep (ht : p.tasks[i]? = some t) (hok : t'.Ok)
  (hposition : t'.inWindow = true → f.length = t'.expected + t'.written.length)
  (hsame : t'.unfinished = t.unfinished) : Undisturbed ⟨p.shared, p.tasks.set i t'⟩ f := by
  have hold : ∀ (j : Nat) u, (p.tasks.set i t')[j]? = some u →
      ∃ u₀, p.tasks[j]? = some u₀ ∧ u.unfinished = u₀.unfinished := by
    intro j u hu
    rcases getElem?_acted hu with ⟨rfl, rfl⟩ | ⟨-, hu⟩
    · exact ⟨t, ht, hsame⟩
    · exact ⟨u, hu, rfl⟩
  constructor
  case file => exact h.file
  case task =>
    intro j u hu
    rcases getElem?_acted hu with ⟨-, rfl⟩ | ⟨-, hu⟩
    · exact hok
    · exact h.task j u hu
  case position =>
    intro j u hu hin
    rcases getElem?_acted hu with ⟨-, rfl⟩ | ⟨-, hu⟩
    · exact hposition hin
    · exact h.position j u hu hin
  case single =>
    intro j k u v hu hv hne hne'
    obtain ⟨u₀, hu₀, heq⟩ := hold j u hu
    obtain ⟨v₀, hv₀, heq'⟩ := hold k v hv
    exact h.single j k u₀ v₀ hu₀ hv₀ (heq ▸ hne) (heq' ▸ hne')
  case complete =>
    intro hnone
    refine h.complete fun j u hu => ?_
    have hlt := (List.getElem?_eq_some_iff.mp ht).1
    by_cases hj : j = i
    · subst hj
      have hut := Option.some.inj (hu.symm.trans ht)
      rw [hut, ← hsame]
      exact hnone j t' (getElem?_set_self hlt)
    · exact hnone j u (by rw [getElem?_set_ne (Ne.symm hj)]; exact hu)
  case underWay =>
    intro j u hu hne
    obtain ⟨u₀, hu₀, heq⟩ := hold j u hu
    rw [heq] at hne ⊢
    exact h.underWay j u₀ hu₀ hne
  case chained => exact h.chained

theorem Undisturbed.content (ht : p.tasks[i]? = some t)
  (hothers : ∀ (j : Nat) u, j ≠ i → p.tasks[j]? = some u → u.unfinished = []) :
    f = p.shared.joined ++ t.unfinished := by
  by_cases hnone : t.unfinished = []
  · rw [hnone, append_nil]
    refine h.complete fun j u hu => ?_
    by_cases hj : j = i
    · subst hj
      exact Option.some.inj (hu.symm.trans ht) ▸ hnone
    · exact hothers j u hj hu
  · exact h.underWay i t ht hnone

theorem Undisturbed.spawn (hfresh : t.fresh = true) (hbody : t.body ≠ [])
    : Undisturbed ⟨p.shared, p.tasks ++ [t]⟩ f := by
  simp only [LocalAppend.fresh, decide_eq_true_eq] at hfresh
  obtain ⟨hwritten, hbegan, hpc⟩ := hfresh
  have hnone : t.unfinished = [] := by
    simp [LocalAppend.unfinished, LocalAppend.inWindow, hpc]
  have hok : t.Ok :=
    { body := hbody
      split := by simp [LocalAppend.rest, hwritten]
      unchecked := fun _ => hwritten
      copied := fun hcopied => by simp [hpc] at hcopied
      began := by simp [hwritten, hbegan]
      matched := fun n hn => by simp [hbegan] at hn
      mismatched := fun _ _ => hwritten }
  constructor
  case file => exact h.file
  case task =>
    intro j u hu
    rcases getElem?_started hu with hu | ⟨-, rfl⟩
    · exact h.task j u hu
    · exact hok
  case position =>
    intro j u hu hin
    rcases getElem?_started hu with hu | ⟨-, rfl⟩
    · exact h.position j u hu hin
    · simp [LocalAppend.inWindow, hpc] at hin
  case single =>
    intro j k u v hu hv hne hne'
    rcases getElem?_started hu with hu | ⟨-, rfl⟩
    · rcases getElem?_started hv with hv | ⟨-, rfl⟩
      · exact h.single j k u v hu hv hne hne'
      · exact absurd hnone hne'
    · exact absurd hnone hne
  case complete =>
    intro hall
    refine h.complete fun j u hu => hall j u ?_
    have hlt := (List.getElem?_eq_some_iff.mp hu).1
    rw [getElem?_append_left hlt]
    exact hu
  case underWay =>
    intro j u hu hne
    rcases getElem?_started hu with hu | ⟨-, rfl⟩
    · exact h.underWay j u hu hne
    · exact absurd hnone hne
  case chained => exact h.chained

theorem Undisturbed.write {n : Nat} (ht : p.tasks[i]? = some t) (hpc : t.pc = .copy) (hn : 0 < n)
  (hrest : n ≤ t.rest.length) (halone : aloneInWindow p i = true) :
    Undisturbed ⟨{ p.shared with file := some (f ++ t.rest.take n) },
      p.tasks.set i (t.wrote f.length n)⟩ (f ++ t.rest.take n) := by
  have hin : t.inWindow = true := by simp [LocalAppend.inWindow, hpc]
  have hin' : (t.wrote f.length n).inWindow = true := by
    simp [LocalAppend.inWindow, LocalAppend.wrote, hpc]
  have hothers : ∀ (j : Nat) u, j ≠ i → p.tasks[j]? = some u → u.unfinished = [] :=
    fun j u hj hu => LocalAppend.unfinished_of_not_window (aloneInWindow_other halone hj hu)
  have hcontent := h.content ht hothers
  rw [LocalAppend.unfinished_of_window hin] at hcontent
  have hposition := h.position i t ht hin
  have hok := h.task i t ht
  have hlength : (t.rest.take n).length = n := by
    rw [length_take]
    omega
  have hnew : (t.wrote f.length n).unfinished = t.written ++ t.rest.take n :=
    LocalAppend.unfinished_of_window hin'
  have hpiece : t.rest.take n ≠ [] := by
    intro hnil
    rw [hnil] at hlength
    simp only [length_nil] at hlength
    omega
  have hgone : (t.wrote f.length n).rest = t.rest.drop n := by
    simp only [LocalAppend.rest, LocalAppend.wrote, length_append, drop_drop] at hlength ⊢
    rw [hlength]
  constructor
  case file => rfl
  case task =>
    intro j u hu
    rcases getElem?_acted hu with ⟨-, rfl⟩ | ⟨-, hu⟩
    · exact
        { body := hok.body
          split := by
            rw [hgone]
            simp only [LocalAppend.wrote, append_assoc, take_append_drop, hok.split]
          unchecked := fun hsize => by simp [LocalAppend.wrote, hpc] at hsize
          copied := fun hcopied => by simp [LocalAppend.wrote, hpc] at hcopied
          began := by
            cases hbegan : t.began <;> simp [LocalAppend.wrote, hpiece, hbegan]
          matched := by
            intro m hm
            cases hbegan : t.began with
            | some k =>
              simp only [LocalAppend.wrote, hbegan] at hm
              cases hm
              exact hok.matched m hbegan
            | none =>
              -- the first write: nothing was written since the size check
              have hnothing : t.written = [] := hok.began.mpr hbegan
              simp only [LocalAppend.wrote, hbegan] at hm
              cases hm
              rw [hnothing] at hposition
              exact hposition
          mismatched := fun m hm => by simp [LocalAppend.wrote, hpc] at hm }
    · exact h.task j u hu
  case position =>
    intro j u hu hin
    rcases getElem?_acted hu with ⟨-, rfl⟩ | ⟨hj, hu⟩
    · simp only [LocalAppend.wrote, length_append]
      omega
    · rw [aloneInWindow_other halone hj hu] at hin
      contradiction
  case single =>
    intro j k u v hu hv hne hne'
    rcases getElem?_acted hu with ⟨rfl, -⟩ | ⟨hj, hu⟩
    · rcases getElem?_acted hv with ⟨rfl, -⟩ | ⟨hk, hv⟩
      · rfl
      · exact absurd (hothers k v hk hv) hne'
    · exact absurd (hothers j u hj hu) hne
  case complete =>
    intro hall
    have hlt := (List.getElem?_eq_some_iff.mp ht).1
    have hnil := hall i _ (getElem?_set_self hlt)
    rw [hnew] at hnil
    exact absurd (append_eq_nil_iff.mp hnil).2 hpiece
  case underWay =>
    intro j u hu hne
    rcases getElem?_acted hu with ⟨-, rfl⟩ | ⟨hj, hu⟩
    · rw [hnew, hcontent, append_assoc]
      rfl
    · exact absurd (hothers j u hj hu) hne
  case chained => exact h.chained

theorem Undisturbed.succeed (ht : p.tasks[i]? = some t) (hpc : t.pc = .finalSize) :
    Undisturbed ⟨{ p.shared with succeeded := p.shared.succeeded ++ [⟨i, t.expected, t.body⟩] },
      p.tasks.set i (t.finish (.offset f.length))⟩ f := by
  have hok := h.task i t ht
  have hin : t.inWindow = true := by simp [LocalAppend.inWindow, hpc]
  have hwhole : t.written = t.body := by
    have hsplit := hok.split
    rwa [hok.copied hpc, append_nil] at hsplit
  have hunfinished : t.unfinished = t.body := by
    rw [LocalAppend.unfinished_of_window hin, hwhole]
  have hwriter : t.unfinished ≠ [] := hunfinished ▸ hok.body
  have hcontent := h.underWay i t ht hwriter
  have hposition := h.position i t ht hin
  have hnone : (t.finish (.offset f.length)).unfinished = [] := rfl
  -- no other append has anything in the file
  have hothers : ∀ (j : Nat) u, j ≠ i → p.tasks[j]? = some u → u.unfinished = [] := by
    intro j u hj hu
    by_contra hne
    exact hj (h.single j i u t hu ht hne hwriter)
  have hjoined : f = p.shared.joined ++ t.body := hunfinished ▸ hcontent
  constructor
  case file => exact h.file
  case task =>
    intro j u hu
    rcases getElem?_acted hu with ⟨-, rfl⟩ | ⟨-, hu⟩
    · exact hok.goTo (by simp) nofun
    · exact h.task j u hu
  case position =>
    intro j u hu hin'
    rcases getElem?_acted hu with ⟨-, rfl⟩ | ⟨-, hu⟩
    · simp [LocalAppend.inWindow, LocalAppend.finish] at hin'
    · exact h.position j u hu hin'
  case single =>
    intro j k u v hu _ hne _
    rcases getElem?_acted hu with ⟨-, rfl⟩ | ⟨hj, hu⟩
    · exact absurd hnone hne
    · exact absurd (hothers j u hj hu) hne
  case complete =>
    intro _
    simp only [LocalSession.joined, map_append, flatten_append, map_cons,
      map_nil, flatten_cons, flatten_nil, append_nil]
    exact hjoined
  case underWay =>
    intro j u hu hne
    rcases getElem?_acted hu with ⟨-, rfl⟩ | ⟨hj, hu⟩
    · exact absurd hnone hne
    · exact absurd (hothers j u hj hu) hne
  case chained =>
    refine h.chained.append ?_ hok.body
    rw [hjoined, hwhole, length_append] at hposition
    change t.expected = p.shared.joined.length
    omega

theorem Undisturbed.act (hc : undisturbed p (.act i a) = true) (ht : p.tasks[i]? = some t)
  (hact : localAppend p.shared i t a = some (s', t')) :
    ∃ f', Undisturbed ⟨s', p.tasks.set i t'⟩ f' := by
  have hwhole : ∀ n, a ≠ .broken (n + 1) := by
    rintro n rfl
    simp [undisturbed] at hc
  have hok := h.task i t ht
  cases localAppend_effect h.file hwhole hact with
  | refused result hpc hresult =>
    have hnothing := hok.unchecked hpc
    refine ⟨f, h.keep ht (hok.goTo (fun _ => hnothing) nofun) (fun hin => ?_) ?_⟩
    · simp [LocalAppend.inWindow, LocalAppend.finish] at hin
    · simp [LocalAppend.unfinished, LocalAppend.inWindow, LocalAppend.finish, hpc]
  | enters hpc hfile hsize =>
    have hnothing := hok.unchecked hpc
    have hf := Option.some.inj (h.file.symm.trans hfile)
    refine ⟨f, h.keep ht (hok.goTo (by simp) nofun) (fun _ => ?_) ?_⟩
    · rw [hnothing, hf]
      exact hsize
    · simp [LocalAppend.unfinished, LocalAppend.inWindow, hpc, hnothing]
  | opens hpc =>
    have hin : t.inWindow = true := by simp [LocalAppend.inWindow, hpc]
    refine ⟨f, h.keep ht (hok.goTo (by simp) nofun) (fun _ => h.position i t ht hin) ?_⟩
    simp [LocalAppend.unfinished, LocalAppend.inWindow, hpc]
  | copied hpc hrest =>
    have hin : t.inWindow = true := by simp [LocalAppend.inWindow, hpc]
    refine ⟨f, h.keep ht (hok.goTo (by simp) fun _ => hrest)
      (fun _ => h.position i t ht hin) ?_⟩
    simp [LocalAppend.unfinished, LocalAppend.inWindow, hpc]
  | leaves hin hwhy =>
    have hnothing : t.written = [] := by
      rcases hwhy with rfl | rfl <;> simpa [undisturbed, ht] using hc
    refine ⟨f, h.keep ht (hok.goTo (fun _ => hnothing) nofun) (fun hin' => ?_) ?_⟩
    · simp [LocalAppend.inWindow, LocalAppend.finish] at hin'
    · rw [LocalAppend.unfinished_of_window hin, hnothing]
      rfl
  | @writes f₀ n hpc hfile hn hrest =>
    have hf := Option.some.inj (h.file.symm.trans hfile)
    subst hf
    exact ⟨_, h.write ht hpc hn hrest hc⟩
  | @succeeds f₀ hpc hfile =>
    have hf := Option.some.inj (h.file.symm.trans hfile)
    subst hf
    exact ⟨f, h.succeed ht hpc⟩

end

theorem undisturbed_run (h : localAppends.Run (fun p m => undisturbed p m = true) p) :
    ∃ f, Undisturbed p f := by
  refine h.invariant (I := fun p => ∃ f, Undisturbed p f) ?_ fun p m p' _ hp hc hs => ?_
  · rintro ⟨s, ts⟩ ⟨hs, hts⟩
    have hs : s = ⟨some [], []⟩ := hs
    have hts : ts = [] := hts
    subst hs hts
    refine ⟨[], ?_⟩
    constructor <;> simp [Chained, LocalSession.joined]
  · obtain ⟨f, hf⟩ := hp
    rcases Program.step_cases hs with ⟨t, rfl, hfresh, rfl⟩ |
      ⟨i, a, t, s', t', rfl, ht, hact, rfl⟩ | ⟨e, -⟩
    · exact ⟨f, hf.spawn hfresh (by simpa [undisturbed] using hc)⟩
    · exact hf.act hc ht hact
    · exact nomatch e

/-! ## Successes -/

theorem LocalAppend.not_succeeds (h : ∀ n, t.pc ≠ .finished (.offset n)) : ¬ t.Succeeds r :=
  fun ⟨_, _, n, hn⟩ => h n hn

/-- A call ends no success; it makes one exactly when it records one. -/
theorem localAppend_succeeded {s : LocalSession} (h : localAppend s i t a = some (s', t')) :
    (∀ n, t.pc ≠ .finished (.offset n)) ∧
      ((s'.succeeded = s.succeeded ∧ ∀ n, t'.pc ≠ .finished (.offset n)) ∨
        ∃ n, t'.pc = .finished (.offset n) ∧ t'.expected = t.expected ∧ t'.body = t.body ∧
          s'.succeeded = s.succeeded ++ [⟨i, t.expected, t.body⟩]) := by
  unfold localAppend at h
  cases hpc : t.pc with
  | size =>
    refine ⟨by simp, .inl ?_⟩
    cases a <;> simp only [hpc, reduceCtorEq] at h
    case ok =>
      split at h
      · cases h
        exact ⟨rfl, by simp [LocalAppend.finish]⟩
      · split at h <;> cases h <;> exact ⟨rfl, by simp [LocalAppend.finish]⟩
    case failed =>
      cases h
      exact ⟨rfl, by simp [LocalAppend.finish]⟩
  | openFile =>
    refine ⟨by simp, .inl ?_⟩
    cases a <;> simp only [hpc, reduceCtorEq] at h
    case ok => split at h <;> cases h <;> exact ⟨rfl, by simp [LocalAppend.finish]⟩
    case failed =>
      cases h
      exact ⟨rfl, by simp [LocalAppend.finish]⟩
  | copy =>
    refine ⟨by simp, .inl ?_⟩
    cases a with
    | failed => simp [hpc] at h
    | write n =>
      simp only [hpc] at h
      split at h
      · cases h
      · split at h <;> cases h
        exact ⟨rfl, by simp [LocalAppend.wrote, hpc]⟩
    | broken n =>
      cases n with
      | zero =>
        simp only [hpc] at h
        cases h
        exact ⟨rfl, by simp [LocalAppend.finish]⟩
      | succ n =>
        simp only [hpc] at h
        split at h
        · cases h
        · split at h <;> cases h
          exact ⟨rfl, by simp [LocalAppend.finish]⟩
    | ok =>
      simp only [hpc] at h
      split at h <;> cases h
      exact ⟨rfl, by simp⟩
  | finalSize =>
    refine ⟨by simp, ?_⟩
    cases a <;> simp only [hpc, reduceCtorEq] at h
    case ok =>
      split at h
      · cases h
        exact .inl ⟨rfl, by simp [LocalAppend.finish]⟩
      · rename_i f hf
        cases h
        exact .inr ⟨f.length, rfl, rfl, rfl, rfl⟩
    case failed =>
      cases h
      exact .inl ⟨rfl, by simp [LocalAppend.finish]⟩
  | finished result => cases a <;> simp [hpc] at h

theorem localRecorder :
    localProgram.Recorder LocalSession.succeeded LocalSuccess.task LocalAppend.Succeeds where
  init := by
    intro s hs
    have hs : s = ⟨some [], []⟩ := hs
    exact hs ▸ rfl
  fresh := by
    rintro t r hfresh ⟨-, -, n, hn⟩
    have hfresh : t.fresh = true := hfresh
    simp [LocalAppend.fresh, hn] at hfresh
  act := by
    intro s i t a s' t' hact
    obtain ⟨hrunning, hend⟩ := localAppend_succeeded hact
    refine ⟨fun r => LocalAppend.not_succeeds hrunning, ?_⟩
    rcases hend with ⟨hsame, hnot⟩ | ⟨n, hn, hexpected, hbody, hrecorded⟩
    · exact .inl ⟨hsame, fun r => LocalAppend.not_succeeds hnot⟩
    · exact .inr ⟨⟨i, t.expected, t.body⟩, rfl, ⟨hexpected, hbody, n, hn⟩, hrecorded⟩
  env := fun _ e => nomatch e

/-- **Compare and append.** In every run in which every append brings some bytes, writes
only while no other append of the session is past its size check, and fails only before it
has written, one append succeeds for each expected offset, an append writes only where the
session stands at the offset it expects, and the file is the successful bodies in order. -/
theorem local_append_undisturbed
    (h : localAppends.Run (fun p m => undisturbed p m = true) p) : CompareAndAppend p := by
  obtain ⟨f, hf⟩ := undisturbed_run h
  have hrecord := localRecorder.run h
  constructor
  case record => exact hrecord
  case once =>
    intro i j t u n m ht hu hn hm he
    obtain ⟨r, hr, hri, hrt, -⟩ := hrecord.complete i t ⟨i, t.expected, t.body⟩ ht ⟨rfl, rfl, n, hn⟩
    obtain ⟨x, hx, hxj, hxu, -⟩ := hrecord.complete j u ⟨j, u.expected, u.body⟩ hu ⟨rfl, rfl, m, hm⟩
    have hsame : r = x := hf.chained.expected_inj hr hx (hrt.symm.trans (he.trans hxu))
    rw [← hri, ← hxj, hsame]
  case matched => exact fun i t ht n hn => (hf.task i t ht).matched n hn
  case mismatched => exact fun i t n ht hpc => (hf.task i t ht).mismatched n hpc
  case complete =>
    intro hnone
    rw [hf.file, hf.complete hnone]
  case underWay =>
    intro i t ht hne
    rw [hf.file, hf.underWay i t ht hne]

/-- Two appends, one after the other, and a third that is too late. -/
def appendsInTurn : List (Move LocalAppend LocalAnswer Empty) :=
  [.spawn { expected := 0, body := [104, 105] }, .spawn { expected := 2, body := [33] },
    .spawn { expected := 0, body := [104, 105] }, .act 0 .ok, .act 0 .ok, .act 0 (.write 1),
    .act 0 (.write 1), .act 0 .ok, .act 0 .ok, .act 1 .ok, .act 1 .ok, .act 1 (.write 1),
    .act 1 .ok, .act 1 .ok, .act 2 .ok]

theorem local_append_undisturbed_in_turn :
    ∃ p, localAppends.Run (fun p m => undisturbed p m = true) p ∧
      p.shared.file = some [104, 105, 33] ∧ CompareAndAppend p := by
  obtain ⟨p, hp⟩ : ∃ p, localAppends.replay (fun p m => undisturbed p m = true)
      ⟨⟨some [], []⟩, []⟩ appendsInTurn = some p := ⟨_, rfl⟩
  have hinit : localAppends.init ⟨⟨some [], []⟩, []⟩ := ⟨rfl, rfl⟩
  have hrun := Machine.run_of_replay hinit hp
  have hfile : (localAppends.replay (fun p m => undisturbed p m = true)
      ⟨⟨some [], []⟩, []⟩ appendsInTurn).map (·.shared.file) = some (some [104, 105, 33]) := by
    decide +kernel
  rw [hp] at hfile
  exact ⟨p, hrun, Option.some.inj hfile, local_append_undisturbed hrun⟩

/-- A client that retries its request: both requests pass the size check at offset 0, and
then both write. -/
def retriedAppend : List (Move LocalAppend LocalAnswer Empty) :=
  [.spawn { expected := 0, body := [104, 105] }, .spawn { expected := 0, body := [104, 105] },
    .act 0 .ok, .act 1 .ok, .act 0 .ok, .act 1 .ok, .act 0 (.write 1), .act 1 (.write 2),
    .act 0 (.write 1), .act 0 .ok, .act 0 .ok, .act 1 .ok, .act 1 .ok]

/-- A request of the retry at its end, having begun at `size`. -/
def retriedTask (size : Nat) : LocalAppend :=
  { expected := 0
    body := [104, 105]
    written := [104, 105]
    began := some size
    pc := .finished (.offset 4) }

theorem retried_append_succeeds_twice :
    ∃ p, localAppends.Reachable p ∧ p.shared.file = some [104, 104, 105, 105] ∧
      ¬ CompareAndAppend p := by
  obtain ⟨p, hp⟩ : ∃ p, localAppends.replay (fun _ _ => True)
      ⟨⟨some [], []⟩, []⟩ retriedAppend = some p := ⟨_, rfl⟩
  have hinit : localAppends.init ⟨⟨some [], []⟩, []⟩ := ⟨rfl, rfl⟩
  have hview : (localAppends.replay (fun _ _ => True) ⟨⟨some [], []⟩, []⟩ retriedAppend).map
      (fun p => (p.shared.file, p.tasks)) =
        some (some [104, 104, 105, 105], [retriedTask 0, retriedTask 1]) := by
    decide +kernel
  rw [hp] at hview
  simp only [Option.map_some, Option.some.injEq, Prod.mk.injEq] at hview
  refine ⟨p, Machine.run_of_replay hinit hp, hview.1, fun hclaim => ?_⟩
  have htwice := hclaim.once 0 1 (retriedTask 0) (retriedTask 1) 4 4 (by rw [hview.2]; rfl)
    (by rw [hview.2]; rfl) rfl rfl rfl
  contradiction

end runs

end Chicoree.Registryd
