import Mathlib.Algebra.Order.Ring.Int
import Mathlib.Algebra.BigOperators.Group.List.Basic
import Chicoree.Registryd.Store

/-! # The layers of two images

The layer section of the compare page: a walk over both lists with one position each, and
the rows it leaves once repeated shared layers are dropped. -/

namespace Chicoree.Images

open List Option
open Registryd (Digest)

/-! ## Rows -/

inductive LayerChange where
  | added
  | removed
  | unchanged
deriving DecidableEq

structure LayerInfo where
  digest : Digest
  size : Int
  mediaType : Option String := none
  /-- The Dockerfile instruction from the history of the configuration. -/
  command : Option String := none
deriving DecidableEq

structure LayerDiffRow where
  change : LayerChange
  layer : LayerInfo
  /-- The position in the old image, counted from one. -/
  fromIndex : Option Nat
  /-- The position in the new image, counted from one. -/
  toIndex : Option Nat
deriving DecidableEq

structure LayerDiff where
  rows : List LayerDiffRow
  added : Nat
  removed : Nat
  unchanged : Nat
  addedBytes : Int
  removedBytes : Int
deriving DecidableEq

/-- The rows so far and the two positions of the walk. -/
structure LayerWalk where
  rows : List LayerDiffRow
  f : Nat
  t : Nat
deriving DecidableEq

/-- The maps `fromIdx` and `toIdx`: the first position of a digest. -/
def firstIndex (layers : List LayerInfo) (d : Digest) : Option Nat :=
  layers.findIdx? fun l => decide (l.digest = d)

section

variable (fromLayers toLayers : List LayerInfo)

def LayerWalk.goesOn (w : LayerWalk) : Bool :=
  decide (w.f < fromLayers.length) || decide (w.t < toLayers.length)

/-- One round of the loop, with its branches in the order of the source. -/
def LayerWalk.round (w : LayerWalk) : LayerWalk :=
  match fromLayers[w.f]?.filter fun fl => (firstIndex toLayers fl.digest).isNone with
  | some fl =>
    { w with rows := w.rows ++ [⟨.removed, fl, some (w.f + 1), none⟩], f := w.f + 1 }
  | none =>
    match toLayers[w.t]?.filter fun tl => (firstIndex fromLayers tl.digest).isNone with
    | some tl =>
      { w with rows := w.rows ++ [⟨.added, tl, none, some (w.t + 1)⟩], t := w.t + 1 }
    | none =>
      match fromLayers[w.f]?, toLayers[w.t]? with
      | some fl, some tl =>
        if fl.digest = tl.digest then
          { rows := w.rows ++ [⟨.unchanged, tl, some (w.f + 1), some (w.t + 1)⟩]
            f := w.f + 1
            t := w.t + 1 }
        else
          -- Shared layers in another order: the order of the new image is kept.
          { rows := w.rows ++ [⟨.unchanged, tl,
              some ((firstIndex fromLayers tl.digest).getD 0 + 1), some (w.t + 1)⟩]
            f := if (toLayers.drop (w.t + 1)).any (fun l => decide (l.digest = fl.digest))
              then w.f else w.f + 1
            t := w.t + 1 }
      | some _, none => { w with f := w.f + 1 }
      | none, _ => { w with t := w.t + 1 }

def LayerWalk.loop : Nat → LayerWalk → Option LayerWalk
  | 0, w => if w.goesOn fromLayers toLayers then none else some w
  | n + 1, w =>
    if w.goesOn fromLayers toLayers then LayerWalk.loop n (w.round fromLayers toLayers)
    else some w

def dedupeRows : List Digest → List LayerDiffRow → List LayerDiffRow
  | _, [] => []
  | seen, r :: rest =>
    if r.change ≠ .unchanged then r :: dedupeRows seen rest
    else if r.layer.digest ∈ seen then dedupeRows seen rest
    else r :: dedupeRows (r.layer.digest :: seen) rest

def rowsOf (change : LayerChange) (rows : List LayerDiffRow) : List LayerDiffRow :=
  rows.filter fun r => decide (r.change = change)

def bytesOf (rows : List LayerDiffRow) : Int := rows.foldl (fun s r => s + r.layer.size) 0

def LayerDiff.ofRows (deduped : List LayerDiffRow) : LayerDiff where
  rows := deduped
  added := (rowsOf .added deduped).length
  removed := (rowsOf .removed deduped).length
  unchanged :=
    deduped.length - (rowsOf .added deduped).length - (rowsOf .removed deduped).length
  addedBytes := bytesOf (rowsOf .added deduped)
  removedBytes := bytesOf (rowsOf .removed deduped)

/-- `diffLayers` with its loop cut off after so many rounds. -/
def diffLayersFor (rounds : Nat) : Option LayerDiff :=
  (LayerWalk.loop fromLayers toLayers rounds ⟨[], 0, 0⟩).map fun w =>
    LayerDiff.ofRows (dedupeRows [] w.rows)

end

variable {layers : List LayerInfo} {d : Digest}

theorem firstIndex_isNone :
    (firstIndex layers d).isNone = true ↔ d ∉ layers.map LayerInfo.digest := by
  unfold firstIndex
  rw [isNone_iff_eq_none, findIdx?_eq_none_iff]
  constructor
  · intro hnone hmem
    obtain ⟨l, hl, rfl⟩ := mem_map.mp hmem
    have hne := hnone l hl
    simp at hne
  · intro hmem l hl
    apply decide_eq_false
    intro heq
    exact hmem (mem_map.mpr ⟨l, hl, heq⟩)

theorem firstIndex_points (h : d ∈ layers.map LayerInfo.digest) :
    ∃ i l, firstIndex layers d = some i ∧ layers[i]? = some l ∧ l.digest = d := by
  cases hfirst : firstIndex layers d with
  | none =>
    have hnone : (firstIndex layers d).isNone = true := by rw [hfirst]; rfl
    exact absurd h (firstIndex_isNone.mp hnone)
  | some i =>
    obtain ⟨hlt, hdig, -⟩ := findIdx?_eq_some_iff_getElem.mp hfirst
    exact ⟨i, layers[i], rfl, getElem?_eq_getElem hlt, of_decide_eq_true hdig⟩

variable {i : Nat} {l : LayerInfo}

theorem mem_digests (h : layers[i]? = some l) : l.digest ∈ layers.map LayerInfo.digest :=
  mem_map_of_mem (mem_of_getElem? h)

/-! ## What one round does -/

variable {change : LayerChange} {rows : List LayerDiffRow} {r : LayerDiffRow}

section

variable {fromLayers toLayers : List LayerInfo}

variable {other : List LayerInfo}

theorem absent_filter : (layers[i]?.filter fun x => (firstIndex other x.digest).isNone) = some l ↔
      layers[i]? = some l ∧ l.digest ∉ other.map LayerInfo.digest := by
  rw [filter_eq_some_iff]
  exact and_congr_right fun _ => firstIndex_isNone

theorem shared_of_filter
    (h : (layers[i]?.filter fun x => (firstIndex other x.digest).isNone) = none)
    (hl : layers[i]? = some l) : l.digest ∈ other.map LayerInfo.digest := by
  by_contra habsent
  rw [absent_filter.mpr ⟨hl, habsent⟩] at h
  cases h

theorem LayerWalk.round_cases (fromLayers toLayers : List LayerInfo) (w : LayerWalk) :
    (∃ fl, fromLayers[w.f]? = some fl ∧ fl.digest ∉ toLayers.map LayerInfo.digest ∧
      w.round fromLayers toLayers =
        ⟨w.rows ++ [⟨.removed, fl, some (w.f + 1), none⟩], w.f + 1, w.t⟩) ∨
    (∃ tl, toLayers[w.t]? = some tl ∧ tl.digest ∉ fromLayers.map LayerInfo.digest ∧
      w.round fromLayers toLayers =
        ⟨w.rows ++ [⟨.added, tl, none, some (w.t + 1)⟩], w.f, w.t + 1⟩) ∨
    (∃ fl tl i f', fromLayers[w.f]? = some fl ∧ toLayers[w.t]? = some tl ∧
      fl.digest ∈ toLayers.map LayerInfo.digest ∧
      tl.digest ∈ fromLayers.map LayerInfo.digest ∧
      (∃ l, fromLayers[i]? = some l ∧ l.digest = tl.digest) ∧
      (f' = w.f ∨ f' = w.f + 1 ∧ ∃ j l, j ≤ w.t ∧ toLayers[j]? = some l ∧ l.digest = fl.digest) ∧
      w.round fromLayers toLayers =
        ⟨w.rows ++ [⟨.unchanged, tl, some (i + 1), some (w.t + 1)⟩], f', w.t + 1⟩) ∨
    (∃ fl, fromLayers[w.f]? = some fl ∧ toLayers.length ≤ w.t ∧
      fl.digest ∈ toLayers.map LayerInfo.digest ∧
      w.round fromLayers toLayers = ⟨w.rows, w.f + 1, w.t⟩) ∨
    (fromLayers.length ≤ w.f ∧
      (∀ tl, toLayers[w.t]? = some tl → tl.digest ∈ fromLayers.map LayerInfo.digest) ∧
      w.round fromLayers toLayers = ⟨w.rows, w.f, w.t + 1⟩) := by
  unfold LayerWalk.round
  cases hfilter : fromLayers[w.f]?.filter fun fl => (firstIndex toLayers fl.digest).isNone with
  | some fl =>
    obtain ⟨hfl, habsent⟩ := absent_filter.mp hfilter
    exact .inl ⟨fl, hfl, habsent, rfl⟩
  | none =>
    cases hfilter' : toLayers[w.t]?.filter fun tl => (firstIndex fromLayers tl.digest).isNone with
    | some tl =>
      obtain ⟨htl, habsent⟩ := absent_filter.mp hfilter'
      exact .inr (.inl ⟨tl, htl, habsent, rfl⟩)
    | none =>
      cases hfl : fromLayers[w.f]? with
      | none =>
        have hlen : fromLayers.length ≤ w.f := List.getElem?_eq_none_iff.mp hfl
        exact .inr (.inr (.inr (.inr ⟨hlen, fun tl htl => shared_of_filter hfilter' htl, rfl⟩)))
      | some fl =>
        have hflTo := shared_of_filter hfilter hfl
        cases htl : toLayers[w.t]? with
        | none =>
          have hlen : toLayers.length ≤ w.t := List.getElem?_eq_none_iff.mp htl
          exact .inr (.inr (.inr (.inl ⟨fl, rfl, hlen, hflTo, rfl⟩)))
        | some tl =>
          have htlFrom := shared_of_filter hfilter' htl
          refine .inr (.inr (.inl ?_))
          by_cases heq : fl.digest = tl.digest
          · refine ⟨fl, tl, w.f, w.f + 1, rfl, rfl, hflTo, htlFrom, ⟨fl, hfl, heq⟩, ?_, ?_⟩
            · exact .inr ⟨rfl, w.t, tl, Nat.le_refl _, htl, heq.symm⟩
            · simp only [if_pos heq]
          · obtain ⟨i, l, hfirst, hl, hdig⟩ := firstIndex_points htlFrom
            simp only [if_neg heq, hfirst, getD_some]
            by_cases hlater : (toLayers.drop (w.t + 1)).any fun l => decide (l.digest = fl.digest)
            · refine ⟨fl, tl, i, w.f, rfl, rfl, hflTo, htlFrom, ⟨l, hl, hdig⟩, .inl rfl, ?_⟩
              simp only [if_pos hlater]
            · refine ⟨fl, tl, i, w.f + 1, rfl, rfl, hflTo, htlFrom, ⟨l, hl, hdig⟩, ?_, ?_⟩
              · obtain ⟨x, hx, hxdig⟩ := mem_map.mp hflTo
                obtain ⟨j, hj⟩ := mem_iff_getElem?.mp hx
                refine .inr ⟨rfl, j, x, ?_, hj, hxdig⟩
                -- A later occurrence would have kept the old position.
                by_contra hgt
                apply hlater
                refine any_eq_true.mpr ⟨x, ?_, decide_eq_true hxdig⟩
                refine mem_of_getElem? (i := j - (w.t + 1)) ?_
                rw [getElem?_drop, show w.t + 1 + (j - (w.t + 1)) = j by omega, hj]
              · simp only [if_neg hlater]

/-- The row of a position of the old image whose layer the new one has not. -/
def removedRow (fromLayers toLayers : List LayerInfo) (i : Nat) : Option LayerDiffRow :=
  match fromLayers[i]? with
  | some fl =>
    if fl.digest ∈ toLayers.map LayerInfo.digest then none
    else some ⟨.removed, fl, some (i + 1), none⟩
  | none => none

/-- The row of a position of the new image whose layer the old one has not. -/
def addedRow (fromLayers toLayers : List LayerInfo) (j : Nat) : Option LayerDiffRow :=
  match toLayers[j]? with
  | some tl =>
    if tl.digest ∈ fromLayers.map LayerInfo.digest then none
    else some ⟨.added, tl, none, some (j + 1)⟩
  | none => none

/-- The row names a position of its digest in both images. -/
def LayerDiffRow.Points (fromLayers toLayers : List LayerInfo) (r : LayerDiffRow) : Prop :=
  ∃ i j fl, r.fromIndex = some (i + 1) ∧ r.toIndex = some (j + 1) ∧
    fromLayers[i]? = some fl ∧ fl.digest = r.layer.digest ∧ toLayers[j]? = some r.layer

theorem filterMap_range_succ {α : Type} {g : Nat → Option α} {n : Nat} :
    (List.range (n + 1)).filterMap g = (List.range n).filterMap g ++ (g n).toList := by
  rw [range_succ, filterMap_append]
  cases hg : g n with
  | none | some x => simp [hg]

@[simp] theorem rowsOf_append (change : LayerChange) (rows rows' : List LayerDiffRow) :
    rowsOf change (rows ++ rows') = rowsOf change rows ++ rowsOf change rows' :=
  List.filter_append ..

theorem mem_rowsOf : r ∈ rowsOf change rows ↔ r ∈ rows ∧ r.change = change := by
  simp [rowsOf]

/-! ## The invariant of the walk -/

def Emitted (rows : List LayerDiffRow) (d : Digest) : Prop :=
  ∃ r ∈ rowsOf .unchanged rows, r.layer.digest = d

theorem Emitted.append (h : Emitted rows d)
    (rows' : List LayerDiffRow) : Emitted (rows ++ rows') d := by
  obtain ⟨r, hr, hd⟩ := h
  refine ⟨r, ?_, hd⟩
  rw [rowsOf_append]
  exact mem_append_left _ hr

/-- The layers passed so far that the other image has too each have a row. -/
def Passed (rows : List LayerDiffRow) (layers other : List LayerInfo) (n : Nat) : Prop :=
  ∀ i l, i < n → layers[i]? = some l → l.digest ∈ other.map LayerInfo.digest →
    Emitted rows l.digest

namespace Passed

variable {n : Nat}

theorem append (h : Passed rows layers other n) (rows' : List LayerDiffRow) :
    Passed (rows ++ rows') layers other n :=
  fun i x hi hx hmem => (h i x hi hx hmem).append rows'

theorem succ (h : Passed rows layers other n) (hl : layers[n]? = some l)
    (hnew : l.digest ∈ other.map LayerInfo.digest → Emitted rows l.digest) :
    Passed rows layers other (n + 1) := by
  intro i x hi hx hmem
  obtain hlt | rfl := Nat.lt_succ_iff_lt_or_eq.mp hi
  · exact h i x hlt hx hmem
  · obtain rfl := Option.some.inj (hl.symm.trans hx)
    exact hnew hmem

theorem ended (h : Passed rows layers other n) (hend : layers.length ≤ n)
    (hd : d ∈ layers.map LayerInfo.digest) (hother : d ∈ other.map LayerInfo.digest) :
    Emitted rows d := by
  obtain ⟨x, hx, rfl⟩ := mem_map.mp hd
  obtain ⟨k, hk⟩ := mem_iff_getElem?.mp hx
  exact h k x (Nat.lt_of_lt_of_le (List.getElem?_eq_some_iff.mp hk).1 hend) hk hother

end Passed

/-- What the rows say about the positions passed so far. -/
structure LayerWalk.Covers (fromLayers toLayers : List LayerInfo) (w : LayerWalk) : Prop where
  f_le : w.f ≤ fromLayers.length
  t_le : w.t ≤ toLayers.length
  removed : rowsOf .removed w.rows = (List.range w.f).filterMap (removedRow fromLayers toLayers)
  added : rowsOf .added w.rows = (List.range w.t).filterMap (addedRow fromLayers toLayers)
  points : ∀ r ∈ rowsOf .unchanged w.rows, r.Points fromLayers toLayers
  -- Every position of the new image a row names is one the walk has passed.
  sorted : (w.rows.filterMap LayerDiffRow.toIndex).Pairwise (· < ·)
  passed : ∀ j ∈ w.rows.filterMap LayerDiffRow.toIndex, j ≤ w.t
  sharedTo : ∀ j l, j < w.t → toLayers[j]? = some l →
    l.digest ∈ fromLayers.map LayerInfo.digest → Emitted w.rows l.digest
  sharedFrom : ∀ i l, i < w.f → fromLayers[i]? = some l →
    l.digest ∈ toLayers.map LayerInfo.digest → Emitted w.rows l.digest

theorem LayerWalk.covers_start (fromLayers toLayers : List LayerInfo) :
    LayerWalk.Covers fromLayers toLayers ⟨[], 0, 0⟩ where
  f_le := Nat.zero_le _
  t_le := Nat.zero_le _
  removed := rfl
  added := rfl
  points := by simp [rowsOf]
  sorted := List.Pairwise.nil
  passed := by simp
  sharedTo := by
    intro j l hj
    exact absurd hj (Nat.not_lt_zero j)
  sharedFrom := by
    intro i l hi
    exact absurd hi (Nat.not_lt_zero i)

variable {w : LayerWalk}

theorem LayerWalk.Covers.order (h : w.Covers fromLayers toLayers)
    (hr : r.toIndex = some (w.t + 1)) :
    ((w.rows ++ [r]).filterMap LayerDiffRow.toIndex).Pairwise (· < ·) ∧
      ∀ j ∈ (w.rows ++ [r]).filterMap LayerDiffRow.toIndex, j ≤ w.t + 1 := by
  have hone : [r].filterMap LayerDiffRow.toIndex = [w.t + 1] := by simp [hr]
  rw [filterMap_append, hone]
  constructor
  · refine pairwise_append.mpr ⟨h.sorted, pairwise_singleton _ _, ?_⟩
    intro j hj k hk
    have hle := h.passed j hj
    rw [mem_singleton.mp hk]
    omega
  · intro j hj
    rcases mem_append.mp hj with hj | hj
    · have hle := h.passed j hj
      omega
    · rw [mem_singleton.mp hj]

theorem LayerWalk.Covers.round (h : w.Covers fromLayers toLayers)
    (hon : w.goesOn fromLayers toLayers = true) :
    (w.round fromLayers toLayers).Covers fromLayers toLayers := by
  have hsharedTo : Passed w.rows toLayers fromLayers w.t := h.sharedTo
  have hsharedFrom : Passed w.rows fromLayers toLayers w.f := h.sharedFrom
  rcases w.round_cases fromLayers toLayers with
    ⟨fl, hfl, habsent, hround⟩ | ⟨tl, htl, habsent, hround⟩ |
    ⟨fl, tl, i, f', hfl, htl, hflTo, htlFrom, hi, hf', hround⟩ |
    ⟨fl, hfl, hend, hflTo, hround⟩ | ⟨hend, hshared, hround⟩
  · -- a layer that only the old image has
    have hlt : w.f < fromLayers.length := (List.getElem?_eq_some_iff.mp hfl).1
    have hrow : removedRow fromLayers toLayers w.f = some ⟨.removed, fl, some (w.f + 1), none⟩ := by
      simp only [removedRow, hfl, if_neg habsent]
    rw [hround]
    refine ⟨hlt, h.t_le, ?_, ?_, ?_, ?_, ?_, hsharedTo.append _,
      (hsharedFrom.append _).succ hfl fun hmem => absurd hmem habsent⟩
    · rw [rowsOf_append, h.removed, filterMap_range_succ, hrow]
      rfl
    · rw [rowsOf_append, h.added]
      simp [rowsOf]
    · simpa [rowsOf] using h.points
    · simpa using h.sorted
    · simpa using h.passed
  · -- a layer that only the new image has
    have hlt : w.t < toLayers.length := (List.getElem?_eq_some_iff.mp htl).1
    have hrow : addedRow fromLayers toLayers w.t = some ⟨.added, tl, none, some (w.t + 1)⟩ := by
      simp only [addedRow, htl, if_neg habsent]
    rw [hround]
    refine ⟨h.f_le, hlt, ?_, ?_, ?_, (h.order rfl).1, (h.order rfl).2,
      (hsharedTo.append _).succ htl fun hmem => absurd hmem habsent, hsharedFrom.append _⟩
    · rw [rowsOf_append, h.removed]
      simp [rowsOf]
    · rw [rowsOf_append, h.added, filterMap_range_succ, hrow]
      rfl
    · simpa [rowsOf] using h.points
  · -- both positions hold shared layers
    have hltf : w.f < fromLayers.length := (List.getElem?_eq_some_iff.mp hfl).1
    have hltt : w.t < toLayers.length := (List.getElem?_eq_some_iff.mp htl).1
    have hnew : Emitted (w.rows ++ [⟨.unchanged, tl, some (i + 1), some (w.t + 1)⟩]) tl.digest := by
      refine ⟨⟨.unchanged, tl, some (i + 1), some (w.t + 1)⟩, ?_, rfl⟩
      exact mem_rowsOf.mpr ⟨mem_append_right _ (mem_singleton_self _), rfl⟩
    have hto := (hsharedTo.append _).succ htl fun _ => hnew
    have hrow : removedRow fromLayers toLayers w.f = none := by
      simp only [removedRow, hfl, if_pos hflTo]
    have hrow' : addedRow fromLayers toLayers w.t = none := by
      simp only [addedRow, htl, if_pos htlFrom]
    rw [hround]
    refine ⟨?_, hltt, ?_, ?_, ?_, (h.order rfl).1, (h.order rfl).2, hto, ?_⟩
    · rcases hf' with rfl | ⟨rfl, -⟩
      · exact h.f_le
      · exact hltf
    · have hold : rowsOf .removed w.rows =
          (List.range f').filterMap (removedRow fromLayers toLayers) := by
        rcases hf' with rfl | ⟨rfl, -⟩
        · exact h.removed
        · rw [h.removed, filterMap_range_succ, hrow]
          simp
      simp only [rowsOf_append, hold]
      simp [rowsOf]
    · simp only [rowsOf_append, h.added, filterMap_range_succ, hrow']
      simp [rowsOf]
    · intro r hr
      rw [rowsOf_append] at hr
      rcases mem_append.mp hr with hr | hr
      · exact h.points r hr
      · obtain ⟨l, hl, hdig⟩ := hi
        obtain rfl := mem_singleton.mp (mem_rowsOf.mp hr).1
        exact ⟨i, w.t, l, rfl, rfl, hl, hdig, htl⟩
    · rcases hf' with rfl | ⟨rfl, k, x, hk, hx, hxdig⟩
      · exact hsharedFrom.append _
      · -- the old position is left behind only once its digest has its row
        refine (hsharedFrom.append _).succ hfl fun _ => ?_
        rw [← hxdig]
        refine hto k x (by omega) hx ?_
        rw [hxdig]
        exact mem_digests hfl
  · -- the new image has ended
    have hlt : w.f < fromLayers.length := (List.getElem?_eq_some_iff.mp hfl).1
    have hrow : removedRow fromLayers toLayers w.f = none := by
      simp only [removedRow, hfl, if_pos hflTo]
    rw [hround]
    refine ⟨hlt, h.t_le, ?_, h.added, h.points, h.sorted, h.passed, h.sharedTo,
      hsharedFrom.succ hfl fun hmem => hsharedTo.ended hend hmem (mem_digests hfl)⟩
    simp only [h.removed, filterMap_range_succ, hrow]
    simp
  · -- the old image has ended
    have hlt : w.t < toLayers.length := by
      unfold LayerWalk.goesOn at hon
      simp only [Bool.or_eq_true, decide_eq_true_eq] at hon
      omega
    have htl := getElem?_eq_getElem hlt
    have hrow : addedRow fromLayers toLayers w.t = none := by
      simp only [addedRow, htl, if_pos (hshared _ htl)]
    rw [hround]
    refine ⟨h.f_le, hlt, h.removed, ?_, h.points, h.sorted, fun j hj => ?_,
      hsharedTo.succ htl fun hmem => hsharedFrom.ended hend hmem (mem_digests htl), h.sharedFrom⟩
    · simp only [h.added, filterMap_range_succ, hrow]
      simp
    · exact Nat.le_succ_of_le (h.passed j hj)

theorem LayerWalk.round_passes (fromLayers toLayers : List LayerInfo) (w : LayerWalk) :
    w.f + w.t < (w.round fromLayers toLayers).f + (w.round fromLayers toLayers).t := by
  rcases w.round_cases fromLayers toLayers with
    ⟨_, _, _, hround⟩ | ⟨_, _, _, hround⟩ | ⟨_, _, _, f', _, _, _, _, _, hf', hround⟩ |
    ⟨_, _, _, _, hround⟩ | ⟨_, _, hround⟩
  · rw [hround]
    show w.f + w.t < w.f + 1 + w.t
    omega
  · rw [hround]
    show w.f + w.t < w.f + (w.t + 1)
    omega
  · rw [hround]
    show w.f + w.t < f' + (w.t + 1)
    rcases hf' with rfl | ⟨rfl, -⟩
    · omega
    · omega
  · rw [hround]
    show w.f + w.t < w.f + 1 + w.t
    omega
  · rw [hround]
    show w.f + w.t < w.f + (w.t + 1)
    omega

theorem LayerWalk.Covers.loop (h : w.Covers fromLayers toLayers) (rounds : Nat)
    (hleft : fromLayers.length + toLayers.length ≤ w.f + w.t + rounds) :
    ∃ w', LayerWalk.loop fromLayers toLayers rounds w = some w' ∧
      w'.Covers fromLayers toLayers ∧ w'.f = fromLayers.length ∧ w'.t = toLayers.length := by
  induction rounds generalizing w with
  | zero =>
    have hf := h.f_le
    have ht := h.t_le
    have hoff : w.goesOn fromLayers toLayers = false := by
      unfold LayerWalk.goesOn
      simp only [Bool.or_eq_false_iff, decide_eq_false_iff_not]
      omega
    exact ⟨w, by simp [LayerWalk.loop, hoff], h, by omega, by omega⟩
  | succ rounds ih =>
    by_cases hon : w.goesOn fromLayers toLayers = true
    · have hpass := w.round_passes fromLayers toLayers
      obtain ⟨w', hloop, hrest⟩ := ih (h.round hon) (by omega)
      refine ⟨w', ?_, hrest⟩
      rw [LayerWalk.loop, if_pos hon]
      exact hloop
    · have hf := h.f_le
      have ht := h.t_le
      refine ⟨w, by rw [LayerWalk.loop, if_neg hon], h, ?_, ?_⟩ <;>
      · unfold LayerWalk.goesOn at hon
        simp only [Bool.or_eq_true, decide_eq_true_eq, not_or] at hon
        omega

theorem LayerWalk.loop_more {rounds : Nat} :
    ∀ {w w' : LayerWalk} {n : Nat}, LayerWalk.loop fromLayers toLayers rounds w = some w' →
      rounds ≤ n → LayerWalk.loop fromLayers toLayers n w = some w' := by
  induction rounds with
  | zero =>
    intro w w' n hloop hle
    rw [LayerWalk.loop] at hloop
    by_cases hon : w.goesOn fromLayers toLayers = true
    · rw [if_pos hon] at hloop
      cases hloop
    · rw [if_neg hon] at hloop
      cases n with
      | zero | succ n => rw [LayerWalk.loop, if_neg hon, hloop]
  | succ rounds ih =>
    intro w w' n hloop hle
    obtain ⟨n, rfl⟩ : ∃ m, n = m + 1 := ⟨n - 1, by omega⟩
    rw [LayerWalk.loop] at hloop ⊢
    by_cases hon : w.goesOn fromLayers toLayers = true
    · rw [if_pos hon] at hloop ⊢
      exact ih hloop (by omega)
    · rw [if_neg hon] at hloop ⊢
      exact hloop

end

theorem dedupeRows_sublist : ∀ (rows : List LayerDiffRow) (seen : List Digest),
    (dedupeRows seen rows).Sublist rows := by
  intro rows
  induction rows with
  | nil => exact fun _ => List.Sublist.refl []
  | cons r rest ih =>
    intro seen
    rw [dedupeRows]
    split
    · exact (ih seen).cons_cons r
    · split
      · exact (ih seen).cons r
      · exact (ih _).cons_cons r

theorem rowsOf_dedupeRows (hchange : change ≠ .unchanged) :
    ∀ (rows : List LayerDiffRow) (seen : List Digest),
      rowsOf change (dedupeRows seen rows) = rowsOf change rows := by
  intro rows
  induction rows with
  | nil => exact fun seen => rfl
  | cons r rest ih =>
    intro seen
    rw [dedupeRows]
    split
    · simp only [rowsOf, filter_cons] at ih ⊢
      rw [ih seen]
    · rename_i hkeeps
      have hdrop : rowsOf change (r :: rest) = rowsOf change rest := by
        have hr : r.change ≠ change := fun heq =>
          hkeeps (by rw [heq]; exact hchange)
        simp [rowsOf, hr]
      split
      · rw [ih seen, hdrop]
      · have hr : r.change ≠ change := fun heq =>
          hkeeps (by rw [heq]; exact hchange)
        rw [hdrop, ← ih (r.layer.digest :: seen)]
        simp [rowsOf, hr]

def sharedRows (d : Digest) (rows : List LayerDiffRow) : List LayerDiffRow :=
  (rowsOf .unchanged rows).filter fun r => decide (r.layer.digest = d)

theorem sharedRows_cons_other (h : r.change = .unchanged → r.layer.digest ≠ d) :
    sharedRows d (r :: rows) = sharedRows d rows := by
  unfold sharedRows rowsOf
  by_cases hchange : r.change = .unchanged
  · simp [hchange, h hchange]
  · simp [hchange]

theorem sharedRows_dedupeRows (d : Digest) : ∀ (rows : List LayerDiffRow) (seen : List Digest),
      sharedRows d (dedupeRows seen rows) =
        if d ∈ seen then [] else (sharedRows d rows).head?.toList := by
  intro rows
  induction rows with
  | nil =>
    intro seen
    simp [dedupeRows, sharedRows, rowsOf]
  | cons r rest ih =>
    intro seen
    rw [dedupeRows]
    by_cases hchange : r.change ≠ .unchanged
    · rw [if_pos hchange, sharedRows_cons_other fun heq => absurd heq hchange, ih seen,
        sharedRows_cons_other fun heq => absurd heq hchange]
    · have hun : r.change = .unchanged := not_not.mp hchange
      rw [if_neg hchange]
      by_cases hseen : r.layer.digest ∈ seen
      · rw [if_pos hseen, ih seen]
        by_cases hd : d ∈ seen
        · rw [if_pos hd, if_pos hd]
        · have hne : r.layer.digest ≠ d := fun heq => hd (heq ▸ hseen)
          rw [if_neg hd, if_neg hd, sharedRows_cons_other fun _ => hne]
      · rw [if_neg hseen]
        by_cases heq : r.layer.digest = d
        · have hd : d ∉ seen := heq ▸ hseen
          have hcons (l : List LayerDiffRow) : sharedRows d (r :: l) = r :: sharedRows d l := by
            simp [sharedRows, rowsOf, hun, heq]
          rw [if_neg hd, hcons, hcons, ih, if_pos (by simp [heq])]
          rfl
        · rw [sharedRows_cons_other fun _ => heq, ih, sharedRows_cons_other fun _ => heq]
          have hmem : d ∈ r.layer.digest :: seen ↔ d ∈ seen := by
            rw [mem_cons]
            exact or_iff_right fun h => heq h.symm
          simp only [hmem]

theorem bytesOf_eq_sum (rows : List LayerDiffRow) :
    bytesOf rows = (rows.map fun r => r.layer.size).sum := by
  unfold bytesOf
  rw [sum_eq_foldl, foldl_map]

theorem length_rows (rows : List LayerDiffRow) :
    rows.length = (rowsOf .added rows).length + (rowsOf .removed rows).length +
      (rowsOf .unchanged rows).length := by
  induction rows with
  | nil => rfl
  | cons r rest ih =>
    cases hchange : r.change <;>
    · simp only [rowsOf, filter_cons, hchange, length_cons] at ih ⊢
      simp
      omega

/-- The diff of two lists of layers is there after one round for each position, and more
rounds do not change it. Its removed and added rows are the positions whose layers the other
list has not, every shared digest has one row and that row points at it in both lists, the
positions of the new image are in order, and the totals are those of the rows. -/
theorem diffLayers_faithful (fromLayers toLayers : List LayerInfo) : ∃ d : LayerDiff,
      (∀ rounds, fromLayers.length + toLayers.length ≤ rounds →
        diffLayersFor fromLayers toLayers rounds = some d) ∧
      rowsOf .removed d.rows =
        (List.range fromLayers.length).filterMap (removedRow fromLayers toLayers) ∧
      rowsOf .added d.rows = (List.range toLayers.length).filterMap (addedRow fromLayers toLayers) ∧
      (∀ dg ∈ fromLayers.map LayerInfo.digest, dg ∈ toLayers.map LayerInfo.digest →
        ∃ r, sharedRows dg d.rows = [r] ∧ r.Points fromLayers toLayers) ∧
      (∀ r ∈ rowsOf .unchanged d.rows, r.Points fromLayers toLayers) ∧
      (d.rows.filterMap LayerDiffRow.toIndex).Pairwise (· < ·) ∧
      d.removed = (rowsOf .removed d.rows).length ∧
      d.added = (rowsOf .added d.rows).length ∧
      d.unchanged = (rowsOf .unchanged d.rows).length ∧
      d.removedBytes = ((rowsOf .removed d.rows).map fun r => r.layer.size).sum ∧
      d.addedBytes = ((rowsOf .added d.rows).map fun r => r.layer.size).sum := by
  obtain ⟨w, hloop, hcovers, hf, ht⟩ :=
    (LayerWalk.covers_start fromLayers toLayers).loop (fromLayers.length + toLayers.length)
      (by simp)
  have hsub := dedupeRows_sublist w.rows []
  refine ⟨LayerDiff.ofRows (dedupeRows [] w.rows), ?_, ?_, ?_, ?_, ?_, ?_, rfl, rfl, ?_, ?_, ?_⟩
  · intro rounds hle
    unfold diffLayersFor
    rw [LayerWalk.loop_more hloop hle]
    rfl
  · show rowsOf .removed (dedupeRows [] w.rows) = _
    rw [rowsOf_dedupeRows (by simp), hcovers.removed, hf]
  · show rowsOf .added (dedupeRows [] w.rows) = _
    rw [rowsOf_dedupeRows (by simp), hcovers.added, ht]
  · intro dg hfrom hto
    show ∃ r, sharedRows dg (dedupeRows [] w.rows) = [r] ∧ _
    -- The walk has passed a position of the digest, so a row of it is there.
    obtain ⟨l, hl, hdig⟩ := mem_map.mp hfrom
    obtain ⟨i, hi⟩ := mem_iff_getElem?.mp hl
    have hlt : i < fromLayers.length := (List.getElem?_eq_some_iff.mp hi).1
    obtain ⟨r, hr, hrdig⟩ := hcovers.sharedFrom i l (by omega) hi (hdig ▸ hto)
    have hmem : r ∈ sharedRows dg w.rows := mem_filter.mpr ⟨hr, decide_eq_true (hrdig.trans hdig)⟩
    cases hrows : sharedRows dg w.rows with
    | nil =>
      rw [hrows] at hmem
      cases hmem
    | cons first rest =>
      refine ⟨first, ?_, ?_⟩
      · rw [sharedRows_dedupeRows, if_neg not_mem_nil, hrows]
        rfl
      · have hfirst : first ∈ sharedRows dg w.rows := by
          rw [hrows]
          exact mem_cons_self
        exact hcovers.points first (mem_filter.mp hfirst).1
  · intro r hr
    obtain ⟨hmem, hchange⟩ := mem_rowsOf.mp hr
    exact hcovers.points r (mem_rowsOf.mpr ⟨hsub.subset hmem, hchange⟩)
  · exact hcovers.sorted.sublist (hsub.filterMap _)
  · show (dedupeRows [] w.rows).length - (rowsOf .added (dedupeRows [] w.rows)).length -
      (rowsOf .removed (dedupeRows [] w.rows)).length = _
    have hlen := length_rows (dedupeRows [] w.rows)
    simp only [LayerDiff.ofRows]
    omega
  · exact bytesOf_eq_sum _
  · exact bytesOf_eq_sum _

end Chicoree.Images
