import Mathlib.Algebra.Order.Ring.Int
import Mathlib.Data.List.Basic

/-! # Counting in windows

A counter that is kept for one window of time at a time: a stored tally, and the answers
given out of it. `Ledger` relates the two, and its rules say when an answer may be added:
to the stored window at any time, to another one only where no answer has come from it or
from a later one. `Spent` is the other direction, and its rules ask for nothing. -/

namespace Windows

open List

universe u

/-! ## Aligned windows -/

/-- Where the window of length `w` that holds `t` starts. -/
def truncate (w t : Int) : Int := t - t % w

/-! ## Tallies and answers -/

/-- What is stored: the start of the window, and how many it has counted. -/
structure Tally (T : Type u) where
  start : T
  count : Int
deriving DecidableEq

/-- An answer: the window it was given out of, and whether it admits. -/
structure Answer (T : Type u) where
  window : T
  allowed : Bool

variable {T : Type u} [LinearOrder T]

/-- How many answers out of a window admit. -/
def allowedIn (w : T) (log : List (Answer T)) : Nat :=
  (log.filter fun e => decide (e.window = w) && e.allowed).length

theorem allowedIn_append (w : T) (log : List (Answer T)) (e : Answer T) : allowedIn w (log ++ [e]) =
      allowedIn w log + if e.window = w ∧ e.allowed = true then 1 else 0 := by
  unfold allowedIn
  rw [filter_append, length_append]
  by_cases he : e.window = w ∧ e.allowed = true
  · simp [he.1, he.2]
  · simp only [if_neg he]
    have hfalse : (decide (e.window = w) && e.allowed) = false := by
      simpa using he
    simp [hfalse]

theorem allowedIn_eq_zero {w : T} {log : List (Answer T)} (h : ∀ e ∈ log, e.window ≠ w) :
    allowedIn w log = 0 := by
  unfold allowedIn
  rw [length_eq_zero_iff, filter_eq_nil_iff]
  intro e he
  simp [h e he]

/-- The stored tally, if there is one, is of the last window an answer came from and has
counted every answer out of it; no window has admitted more than the limit. -/
structure Ledger (limit : Int) (stored : Option (Tally T)) (log : List (Answer T)) : Prop where
  last : ∀ r, stored = some r → ∀ e ∈ log, e.window ≤ r.start
  source : ∀ r, stored = some r → ∃ e ∈ log, e.window = r.start
  counted : ∀ r, stored = some r → (allowedIn r.start log : Int) ≤ r.count
  bound : ∀ w, (allowedIn w log : Int) ≤ limit

namespace Ledger

variable {limit : Int} {r : Tally T} {stored : Option (Tally T)} {log : List (Answer T)}

theorem empty (h : 0 ≤ limit) : Ledger limit (none : Option (Tally T)) [] where
  last := by intro r hr; cases hr
  source := by intro r hr; cases hr
  counted := by intro r hr; cases hr
  bound _ := h

theorem drop (h : Ledger limit stored log) : Ledger limit none log where
  last := by intro r hr; cases hr
  source := by intro r hr; cases hr
  counted := by intro r hr; cases hr
  bound := h.bound

theorem add (h : Ledger limit (some r) log) : Ledger limit (some ⟨r.start, r.count + 1⟩)
      (log ++ [⟨r.start, decide (r.count + 1 ≤ limit)⟩]) := by
  have hcounted := h.counted r rfl
  refine ⟨?_, ?_, ?_, fun w => ?_⟩
  · rintro _ ⟨⟩ e he
    rcases mem_append.mp he with he | he
    · exact h.last r rfl e he
    · rw [mem_singleton.mp he]
  · rintro _ ⟨⟩
    exact ⟨_, mem_append_right _ (mem_singleton_self _), rfl⟩
  · rintro _ ⟨⟩
    show (allowedIn r.start _ : Int) ≤ r.count + 1
    rw [allowedIn_append]
    split <;> omega
  · have hbound := h.bound w
    rw [allowedIn_append]
    by_cases hallowed : r.start = w ∧ decide (r.count + 1 ≤ limit) = true
    · -- the new answer admits, so that the count has not passed the limit
      obtain ⟨rfl, hle⟩ := hallowed
      have hle : r.count + 1 ≤ limit := of_decide_eq_true hle
      split <;> omega
    · rw [if_neg hallowed]
      omega

theorem restart (h : Ledger limit stored log) {w : T} (hlater : ∀ e ∈ log, e.window < w) :
    Ledger limit (some ⟨w, 1⟩) (log ++ [⟨w, decide (1 ≤ limit)⟩]) := by
  have hzero : allowedIn w log = 0 := allowedIn_eq_zero fun e he => ne_of_lt (hlater e he)
  refine ⟨?_, ?_, ?_, fun v => ?_⟩
  · rintro _ ⟨⟩ e he
    rcases mem_append.mp he with he | he
    · exact le_of_lt (hlater e he)
    · rw [mem_singleton.mp he]
  · rintro _ ⟨⟩
    exact ⟨_, mem_append_right _ (mem_singleton_self _), rfl⟩
  · rintro _ ⟨⟩
    show (allowedIn w _ : Int) ≤ 1
    rw [allowedIn_append, hzero]
    split <;> omega
  · have hbound := h.bound v
    rw [allowedIn_append]
    by_cases hsame : w = v
    · subst hsame
      rw [hzero] at hbound ⊢
      by_cases hfirst : 1 ≤ limit
      · split <;> omega
      · rw [if_neg (by simp [hfirst])]
        omega
    · rw [if_neg fun hthis => hsame hthis.1]
      omega

/-- With the answers only growing, a tally is never of an earlier window than one before. -/
theorem start_le {r' : Tally T} {log' : List (Answer T)} (h : Ledger limit (some r) log)
    (h' : Ledger limit (some r') log') (hlog : ∀ e ∈ log, e ∈ log') : r.start ≤ r'.start := by
  obtain ⟨e, he, hwindow⟩ := h.source r rfl
  rw [← hwindow]
  exact h'.last r' rfl e (hlog e he)

end Ledger

/-- An answer that refuses comes after as many that admit, out of the same window. -/
def RefusesAbove (limit : Int) (log : List (Answer T)) : Prop :=
  ∀ before e after, log = before ++ e :: after → e.allowed = false →
    limit ≤ allowedIn e.window before

/-- The stored tally has admitted what it has counted, up to the limit. -/
structure Spent (limit : Int) (stored : Option (Tally T)) (log : List (Answer T)) : Prop where
  counted : ∀ r, stored = some r → min r.count limit ≤ allowedIn r.start log
  refuses : RefusesAbove limit log

namespace Spent

variable {limit : Int} {r : Tally T} {stored : Option (Tally T)} {log : List (Answer T)}

theorem empty : Spent limit (none : Option (Tally T)) [] where
  counted := by intro r hr; cases hr
  refuses before e after h := by simp at h

theorem drop (h : Spent limit stored log) : Spent limit none log where
  counted := by intro r hr; cases hr
  refuses := h.refuses

theorem answer (h : Spent limit stored log) {w : T} {count : Int}
    (hcount : min (count - 1) limit ≤ allowedIn w log) :
    Spent limit (some ⟨w, count⟩) (log ++ [⟨w, decide (count ≤ limit)⟩]) where
  counted := by
    rintro _ ⟨⟩
    rw [allowedIn_append]
    by_cases hle : count ≤ limit
    · simp only [hle, decide_true, and_self, if_true]
      omega
    · simp only [hle, decide_false, Bool.false_eq_true, and_false, if_false]
      omega
  refuses before e after hlog hrefused := by
    rcases eq_nil_or_concat' after with rfl | ⟨rest, x, rfl⟩
    · -- the answer that is given now
      obtain ⟨rfl, hlast⟩ := append_inj' hlog rfl
      cases hlast
      have hle : ¬count ≤ limit := of_decide_eq_false hrefused
      show limit ≤ (allowedIn w log : Int)
      omega
    · rw [← cons_append, ← append_assoc] at hlog
      obtain ⟨hbefore, -⟩ := append_inj' hlog rfl
      exact h.refuses before e rest hbefore hrefused

theorem add (h : Spent limit (some r) log) : Spent limit (some ⟨r.start, r.count + 1⟩)
    (log ++ [⟨r.start, decide (r.count + 1 ≤ limit)⟩]) := by
  have hcounted := h.counted r rfl
  exact h.answer (by omega)

theorem restart (h : Spent limit stored log) (w : T) :
    Spent limit (some ⟨w, 1⟩) (log ++ [⟨w, decide (1 ≤ limit)⟩]) :=
  h.answer (by omega)

end Spent

end Windows

/-! ## Failures in a sliding window

Attempts are let through, some of them fail, and a failure is counted some time after it has
happened. What is stored is one tally, which a lock sets back to zero. `Sound` relates the
tally to the failures of the last `w`: together with the attempts under way they stay within
the limit as long as an attempt that is let through beside others leaves them below it, and no
tally is dropped or started anew that speaks of the last `w`. -/

namespace Sliding

open Option
open List

/-- How many of the times are later than `c`. -/
def since (c : Int) (times : List Int) : Nat := times.countP fun t => decide (c < t)

theorem since_append_one (c t : Int) (times : List Int) :
    since c (times ++ [t]) = since c times + if c < t then 1 else 0 := by
  unfold since
  rw [countP_append, countP_singleton]
  by_cases h : c < t
  · simp [h]
  · simp [h]

theorem since_mono {c c' : Int} (h : c ≤ c') (times : List Int) :
    since c' times ≤ since c times := by
  refine countP_mono_left fun t _ ht => ?_
  have hlt : c' < t := of_decide_eq_true ht
  exact decide_eq_true (by omega)

theorem since_eq_zero {c : Int} {times : List Int} (h : ∀ t ∈ times, t ≤ c) :
    since c times = 0 := by
  unfold since
  rw [countP_eq_zero]
  intro t ht
  have hle := h t ht
  simp only [decide_eq_true_eq]
  omega

/-! ## Meters -/

/-- What is stored: the failures it has counted, when it counted the last one, and until when
it is locked. -/
structure Tally where
  count : Nat
  last : Int
  locked : Option Int
deriving DecidableEq

structure Meter where
  now : Int
  /-- Attempts let through whose failure is not counted. -/
  underWay : Nat
  /-- Those of them that are about to count one. -/
  due : Nat
  /-- Attempts that are about to lock the tally. -/
  locking : Nat
  failed : List Int
  counted : List Int
  tally : Option Tally
deriving DecidableEq

/-- The failures that a tally speaks of, if it has counted one in the last `w`. -/
def recent (w now : Int) : Option Tally → Nat
  | none => 0
  | some r => if now - w < r.last then r.count else 0

/-- No failure has been tallied in the last `w`. -/
def quiet (w now : Int) : Option Tally → Bool
  | none => true
  | some r => decide (r.last ≤ now - w)

structure Meter.Sound (w : Int) (limit : Nat) (m : Meter) : Prop where
  due_le : m.due ≤ m.underWay
  failed_past : ∀ t ∈ m.failed, t ≤ m.now
  counted_past : ∀ t ∈ m.counted, t ≤ m.now
  /-- A failure is counted after it has happened. -/
  failed_le : ∀ c, since c m.failed ≤ m.due + since c m.counted
  absent : m.tally = none → since (m.now - w) m.counted = 0
  last : ∀ r, m.tally = some r → ∀ t ∈ m.counted, t ≤ r.last
  /-- The tally has all failures that were counted after its last lock. -/
  tallied : ∀ r, m.tally = some r → ∀ c, m.now - w ≤ c →
    (∀ u, r.locked = some u → u - w ≤ c) → since c m.counted ≤ r.count
  full : ∀ r, m.tally = some r → limit ≤ r.count → 0 < m.locking
  bound : m.underWay + since (m.now - w) m.counted ≤ limit

namespace Meter.Sound

variable {w : Int} {limit : Nat} {m : Meter}

theorem start {now : Int} {limit : Nat} : Sound w limit ⟨now, 0, 0, 0, [], [], none⟩ where
  due_le := Nat.le_refl _
  failed_past := by intro t ht; cases ht
  counted_past := by intro t ht; cases ht
  failed_le _ := Nat.le_refl _
  absent _ := rfl
  last := by intro r hr; cases hr
  tallied := by intro r hr; cases hr
  full := by intro r hr; cases hr
  bound := Nat.zero_le _

theorem failed_bound (h : Sound w limit m) : since (m.now - w) m.failed ≤ limit := by
  have hfailed := h.failed_le (m.now - w)
  have hdue := h.due_le
  have hbound := h.bound
  omega

/-- No failure was counted in the last `w` where the tally is quiet. -/
theorem since_of_quiet (h : Sound w limit m) (hquiet : quiet w m.now m.tally = true) {c : Int}
    (hc : m.now - w ≤ c) : since c m.counted = 0 := by
  have hwindow : since (m.now - w) m.counted = 0 := by
    cases htally : m.tally with
    | none => exact h.absent htally
    | some r =>
      rw [htally] at hquiet
      have hlast : r.last ≤ m.now - w := of_decide_eq_true hquiet
      refine since_eq_zero fun t ht => ?_
      have hle := h.last r htally t ht
      omega
  have hmono := since_mono hc m.counted
  omega

theorem wait (h : Sound w limit m) {now' : Int} (hnow : m.now ≤ now') :
    Sound w limit { m with now := now' } where
  due_le := h.due_le
  failed_past t ht := Int.le_trans (h.failed_past t ht) hnow
  counted_past t ht := Int.le_trans (h.counted_past t ht) hnow
  failed_le := h.failed_le
  absent htally := by
    have hbefore := h.absent htally
    have hmono := since_mono (show m.now - w ≤ now' - w by omega) m.counted
    show since (now' - w) m.counted = 0
    omega
  last := h.last
  tallied r hr c hc hlock := by
    have hlater : now' - w ≤ c := hc
    exact h.tallied r hr c (by omega) hlock
  full := h.full
  bound := by
    have hbound := h.bound
    have hmono := since_mono (show m.now - w ≤ now' - w by omega) m.counted
    show m.underWay + since (now' - w) m.counted ≤ limit
    omega

/-- Attempts come to an end, or get a failure to count. -/
theorem settle (h : Sound w limit m) {underWay due : Nat} (hunder : underWay ≤ m.underWay)
    (hdue : m.due ≤ due) (hle : due ≤ underWay) :
    Sound w limit { m with underWay := underWay, due := due } where
  due_le := hle
  failed_past := h.failed_past
  counted_past := h.counted_past
  failed_le c := by
    have hfailed := h.failed_le c
    show since c m.failed ≤ due + since c m.counted
    omega
  absent := h.absent
  last := h.last
  tallied := h.tallied
  full := h.full
  bound := by
    have hbound := h.bound
    show underWay + since (m.now - w) m.counted ≤ limit
    omega

theorem recent_lt (h : Sound w limit m) (hlimit : 0 < limit) (hlocking : m.locking = 0) :
    recent w m.now m.tally < limit := by
  cases htally : m.tally with
  | none => exact hlimit
  | some r =>
    unfold recent
    dsimp only
    split
    · by_contra hfull
      have hlock := h.full r htally (by omega)
      omega
    · exact hlimit

/-- An attempt is let through where no lock is active, and which leaves the tally and the
attempts under way below the limit if there are others. -/
theorem letThrough (h : Sound w limit m) (hlimit : 0 < limit)
    (hunlocked : ∀ r u, m.tally = some r → r.locked = some u → u ≤ m.now)
    (halone : (m.underWay = 0 ∧ m.locking = 0) ∨ m.underWay + recent w m.now m.tally < limit) :
    Sound w limit { m with underWay := m.underWay + 1 } where
  due_le := Nat.le_succ_of_le h.due_le
  failed_past := h.failed_past
  counted_past := h.counted_past
  failed_le := h.failed_le
  absent := h.absent
  last := h.last
  tallied := h.tallied
  full := h.full
  bound := by
    have hroom : m.underWay + recent w m.now m.tally < limit := by
      obtain ⟨hnone, hlocking⟩ | hroom := halone
      · have hlt := h.recent_lt hlimit hlocking
        omega
      · exact hroom
    have hrecent : since (m.now - w) m.counted ≤ recent w m.now m.tally := by
      by_cases hquiet : quiet w m.now m.tally = true
      · rw [h.since_of_quiet hquiet (Int.le_refl _)]
        exact Nat.zero_le _
      · cases htally : m.tally with
        | none =>
          rw [htally] at hquiet
          exact absurd rfl hquiet
        | some r =>
          have hlast : m.now - w < r.last := by
            rw [htally] at hquiet
            simp only [quiet, decide_eq_true_eq] at hquiet
            omega
          have hcount : recent w m.now (some r) = r.count := if_pos hlast
          rw [hcount]
          refine h.tallied r htally _ (Int.le_refl _) fun u hu => ?_
          have hle := hunlocked r u htally hu
          omega
    show m.underWay + 1 + since (m.now - w) m.counted ≤ limit
    omega

theorem fail (h : Sound w limit m) (hroom : m.due < m.underWay) :
    Sound w limit { m with failed := m.failed ++ [m.now], due := m.due + 1 } where
  due_le := hroom
  failed_past t ht := by
    obtain ht | ht := mem_append.mp ht
    · exact h.failed_past t ht
    · rw [mem_singleton.mp ht]
  counted_past := h.counted_past
  failed_le c := by
    have hfailed := h.failed_le c
    show since c (m.failed ++ [m.now]) ≤ m.due + 1 + since c m.counted
    rw [since_append_one]
    split <;> omega
  absent := h.absent
  last := h.last
  tallied := h.tallied
  full := h.full
  bound := h.bound

theorem count (h : Sound w limit m) {underWay due locking : Nat}
    (hunder : m.underWay = underWay + 1) (hdue : m.due = due + 1) {r' : Tally} (hw : 0 < w)
    (hlast : r'.last = m.now) (hlocking : limit ≤ r'.count → 0 < locking)
    (hcount : (∃ r, m.tally = some r ∧ r'.count = r.count + 1 ∧ r'.locked = r.locked) ∨
      (quiet w m.now m.tally = true ∧ r'.count = 1)) :
    Sound w limit { m with
      underWay := underWay, due := due, locking := locking, counted := m.counted ++ [m.now]
      tally := some r' } where
  due_le := by
    have hle := h.due_le
    show due ≤ underWay
    omega
  failed_past := h.failed_past
  counted_past t ht := by
    obtain ht | ht := mem_append.mp ht
    · exact h.counted_past t ht
    · rw [mem_singleton.mp ht]
  failed_le c := by
    show since c m.failed ≤ due + since c (m.counted ++ [m.now])
    by_cases hc : c < m.now
    · have hfailed := h.failed_le c
      rw [since_append_one, if_pos hc]
      omega
    · have hnone : since c m.failed = 0 := since_eq_zero fun t ht => by
        have hle := h.failed_past t ht
        omega
      rw [hnone]
      exact Nat.zero_le _
  absent := by intro hnone; cases hnone
  last := by
    rintro _ ⟨⟩ t ht
    rw [hlast]
    obtain ht | ht := mem_append.mp ht
    · exact h.counted_past t ht
    · rw [mem_singleton.mp ht]
  tallied := by
    rintro _ ⟨⟩ c hc hlock
    rw [since_append_one]
    obtain ⟨r, htally, hnext, hlocked⟩ | ⟨hquiet, hone⟩ := hcount
    · rw [hlocked] at hlock
      have hbefore := h.tallied r htally c hc hlock
      split <;> omega
    · rw [h.since_of_quiet hquiet hc, hone]
      split <;> omega
  full := by
    rintro _ ⟨⟩ hfull
    exact hlocking hfull
  bound := by
    have hbound := h.bound
    show underWay + since (m.now - w) (m.counted ++ [m.now]) ≤ limit
    rw [since_append_one, if_pos (by omega)]
    omega

theorem lock (h : Sound w limit m) (hlimit : 0 < limit) {locking : Nat} : Sound w limit { m with
      locking := locking
      tally := m.tally.map fun r => { r with count := 0, locked := some (m.now + w) } } where
  due_le := h.due_le
  failed_past := h.failed_past
  counted_past := h.counted_past
  failed_le := h.failed_le
  absent hnone := h.absent (map_eq_none_iff.mp hnone)
  last r' hr' t ht := by
    obtain ⟨r, htally, rfl⟩ := map_eq_some_iff.mp hr'
    exact h.last r htally t ht
  tallied r' hr' c hc hlock := by
    obtain ⟨r, -, rfl⟩ := map_eq_some_iff.mp hr'
    have hafter := hlock (m.now + w) rfl
    have hnone : since c m.counted = 0 := since_eq_zero fun t ht => by
      have hle := h.counted_past t ht
      omega
    exact Nat.le_of_eq hnone
  full r' hr' hfull := by
    obtain ⟨r, -, rfl⟩ := map_eq_some_iff.mp hr'
    have hzero : limit ≤ 0 := hfull
    omega
  bound := h.bound

theorem drop (h : Sound w limit m) (hquiet : quiet w m.now m.tally = true) :
    Sound w limit { m with tally := none } where
  due_le := h.due_le
  failed_past := h.failed_past
  counted_past := h.counted_past
  failed_le := h.failed_le
  absent _ := h.since_of_quiet hquiet (Int.le_refl _)
  last := by intro r hr; cases hr
  tallied := by intro r hr; cases hr
  full := by intro r hr; cases hr
  bound := h.bound

end Meter.Sound

/-- How many of the times are in the `w` from `a` on. -/
def within (w a : Int) (times : List Int) : Nat :=
  times.countP fun t => decide (a ≤ t ∧ t < a + w)

theorem within_append_one (w a t : Int) (times : List Int) :
    within w a (times ++ [t]) = within w a times + if a ≤ t ∧ t < a + w then 1 else 0 := by
  unfold within
  rw [countP_append, countP_singleton]
  by_cases h : a ≤ t ∧ t < a + w
  · simp [h]
  · simp [h]

end Sliding
