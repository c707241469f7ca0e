import Mathlib.Data.List.Basic

/-! # Rows under a key

A table with a primary key is the list of its rows in insertion order. -/

namespace Table

open List

universe u v
variable {ρ : Type u} {κ : Type v} [DecidableEq κ] {key : ρ → κ} {rows : List ρ} {r x : ρ}

def find (key : ρ → κ) (k : κ) (rows : List ρ) : Option ρ :=
  rows.find? fun r => decide (key r = k)

/-- Insert unless the key is taken (`ON CONFLICT DO NOTHING`). -/
def insertNew (key : ρ → κ) (r : ρ) (rows : List ρ) : List ρ :=
  if rows.any (fun x => decide (key x = key r)) then rows else rows ++ [r]

/-- Insert, or replace the row under the same key (`ON CONFLICT DO UPDATE`). -/
def upsert (key : ρ → κ) (r : ρ) (rows : List ρ) : List ρ :=
  if rows.any (fun x => decide (key x = key r)) then
    rows.map fun x => if key x = key r then r else x
  else rows ++ [r]

theorem find?_of_unique {p : ρ → Bool} (hr : r ∈ rows) (huniq : ∀ x ∈ rows, p x = true → x = r) :
    rows.find? p = if p r then some r else none := by
  split
  · rename_i hp
    cases hf : rows.find? p with
    | none => exact absurd hp (find?_eq_none.mp hf r hr)
    | some x =>
      rw [huniq x (mem_of_find?_eq_some hf) (find?_some hf)]
  · rename_i hp
    refine find?_eq_none.mpr fun x hx hpx => hp ?_
    rw [← huniq x hx hpx]
    exact hpx

theorem find_some {k : κ} (h : find key k rows = some r) : r ∈ rows ∧ key r = k :=
  ⟨mem_of_find?_eq_some h, by simpa using find?_some h⟩

theorem find_none {k : κ} (h : find key k rows = none) (hr : r ∈ rows) : key r ≠ k := by
  simpa using find?_eq_none.mp h r hr

theorem mem_of_mem_insertNew (h : x ∈ insertNew key r rows) : x ∈ rows ∨ x = r := by
  unfold insertNew at h
  split at h
  · exact .inl h
  · simpa using h

theorem mem_insertNew_of_mem (h : x ∈ rows) : x ∈ insertNew key r rows := by
  unfold insertNew
  split
  · exact h
  · exact mem_append_left _ h

theorem exists_key_insertNew (r : ρ) (rows : List ρ) :
    ∃ x ∈ insertNew key r rows, key x = key r := by
  unfold insertNew
  split
  · rename_i htaken
    obtain ⟨x, hx, hkey⟩ := any_eq_true.mp htaken
    exact ⟨x, hx, of_decide_eq_true hkey⟩
  · exact ⟨r, mem_append_right _ (mem_singleton_self r), rfl⟩

theorem mem_of_mem_upsert (h : x ∈ upsert key r rows) : x ∈ rows ∨ x = r := by
  unfold upsert at h
  split at h
  · obtain ⟨y, hy, rfl⟩ := mem_map.mp h
    split
    · exact .inr rfl
    · exact .inl hy
  · simpa using h

theorem mem_upsert_of_ne (h : x ∈ rows) (hk : key x ≠ key r) : x ∈ upsert key r rows := by
  unfold upsert
  split
  · exact mem_map.mpr ⟨x, h, if_neg hk⟩
  · exact mem_append_left _ h

theorem eq_of_mem_upsert (h : x ∈ upsert key r rows) (hk : key x = key r) : x = r := by
  unfold upsert at h
  split at h
  · obtain ⟨y, -, rfl⟩ := mem_map.mp h
    by_cases hyr : key y = key r
    · exact if_pos hyr
    · rw [if_neg hyr] at hk
      exact absurd hk hyr
  · rename_i hnone
    rcases mem_append.mp h with h | h
    · exact absurd (any_eq_true.mpr ⟨x, h, decide_eq_true hk⟩) hnone
    · exact mem_singleton.mp h

theorem mem_upsert_self (r : ρ) (rows : List ρ) : r ∈ upsert key r rows := by
  unfold upsert
  split
  · rename_i htaken
    obtain ⟨x, hx, hkey⟩ := any_eq_true.mp htaken
    exact mem_map.mpr ⟨x, hx, if_pos (of_decide_eq_true hkey)⟩
  · exact mem_append_right _ (mem_singleton_self r)

theorem find_map {f : ρ → ρ} (hf : ∀ r, key (f r) = key r) (k : κ) (rows : List ρ) :
    find key k (rows.map f) = (find key k rows).map f := by
  induction rows with
  | nil => rfl
  | cons r rows ih =>
    unfold find at ih ⊢
    rw [map_cons, find?_cons, find?_cons, hf]
    split
    · rfl
    · exact ih

theorem find_append_of_some {k : κ} {rows new : List ρ} (h : find key k rows = some r) :
    find key k (rows ++ new) = some r := by
  unfold find at h ⊢
  rw [find?_append, h]
  rfl

theorem find_filter_ne {k k' : κ} (hk : k ≠ k') (rows : List ρ) :
    find key k (rows.filter fun r => decide (key r ≠ k')) = find key k rows := by
  unfold find
  rw [find?_filter]
  congr 1
  funext r
  by_cases h : key r = k
  · simp [h, hk]
  · simp [h]

/-! ## Unique keys -/

/-- No two rows under one key. -/
def Keyed (key : ρ → κ) (rows : List ρ) : Prop := (rows.map key).Nodup

instance (rows : List ρ) : Decidable (Keyed key rows) :=
  inferInstanceAs (Decidable (rows.map key).Nodup)

theorem Keyed.find_self (h : Keyed key rows) (hr : r ∈ rows) : find key (key r) rows = some r := by
  induction rows with
  | nil => simp at hr
  | cons x rows ih =>
    obtain ⟨hx, hrows⟩ := nodup_cons.mp (h : (key x :: rows.map key).Nodup)
    rcases mem_cons.mp hr with rfl | hr
    · simp [find]
    · have hne : key x ≠ key r := fun he => hx (he ▸ mem_map_of_mem hr)
      have ih := ih hrows hr
      unfold find at ih ⊢
      simpa [hne] using ih

theorem Keyed.eq_of_key (h : Keyed key rows) {a b : ρ} (ha : a ∈ rows) (hb : b ∈ rows)
    (hk : key a = key b) : a = b := by
  have hfa := h.find_self ha
  rw [hk, h.find_self hb] at hfa
  exact (Option.some.inj hfa).symm

omit [DecidableEq κ] in
theorem Keyed.filter (h : Keyed key rows) (p : ρ → Bool) : Keyed key (rows.filter p) :=
  List.Nodup.sublist (List.Sublist.map key filter_sublist) h

omit [DecidableEq κ] in
/-- More than one row of a kind: one beside the row at hand. -/
theorem Keyed.one_lt_countP (h : Keyed key rows) {p : ρ → Bool} (hr : r ∈ rows) (hp : p r = true) :
    1 < rows.countP p ↔ ∃ x ∈ rows, key x ≠ key r ∧ p x = true := by
  induction rows with
  | nil => cases hr
  | cons y ys ih =>
    obtain ⟨hy, hys⟩ := nodup_cons.mp h
    have hne (x : ρ) (hx : x ∈ ys) : key x ≠ key y := fun heq =>
      hy (heq ▸ mem_map_of_mem hx)
    rcases mem_cons.mp hr with rfl | hr
    · -- the row at hand comes first, any other is among the rest
      rw [countP_cons_of_pos hp, Nat.lt_add_left_iff_pos, countP_pos_iff]
      constructor
      · rintro ⟨x, hx, hpx⟩
        exact ⟨x, mem_cons_of_mem _ hx, hne x hx, hpx⟩
      · rintro ⟨x, hx, hkey, hpx⟩
        rcases mem_cons.mp hx with rfl | hx
        · exact absurd rfl hkey
        · exact ⟨x, hx, hpx⟩
    · by_cases hpy : p y = true
      · have hpos : 0 < ys.countP p := countP_pos_iff.mpr ⟨r, hr, hp⟩
        rw [countP_cons_of_pos hpy]
        refine iff_of_true (by omega) ⟨y, mem_cons_self, ?_, hpy⟩
        exact Ne.symm (hne r hr)
      · rw [countP_cons_of_neg hpy, ih hys hr]
        constructor
        · rintro ⟨x, hx, hrest⟩
          exact ⟨x, mem_cons_of_mem _ hx, hrest⟩
        · rintro ⟨x, hx, hkey, hpx⟩
          rcases mem_cons.mp hx with rfl | hx
          · exact absurd hpx hpy
          · exact ⟨x, hx, hkey, hpx⟩

theorem keys_replace (r : ρ) :
    (rows.map fun x => if key x = key r then r else x).map key = rows.map key := by
  rw [map_map]
  refine map_congr_left fun x _ => ?_
  by_cases hx : key x = key r
  · simp [hx]
  · simp [hx]

omit [DecidableEq κ] in
theorem Keyed.append (h : Keyed key rows) (hr : ∀ x ∈ rows, key x ≠ key r) :
    Keyed key (rows ++ [r]) := by
  unfold Keyed
  rw [map_append, nodup_append]
  refine ⟨h, by simp, ?_⟩
  intro a ha b hb
  obtain ⟨x, hx, rfl⟩ := mem_map.mp ha
  simp only [map_cons, map_nil, mem_singleton] at hb
  exact hb ▸ hr x hx

theorem Keyed.insertNew (h : Keyed key rows) (r : ρ) : Keyed key (insertNew key r rows) := by
  unfold Table.insertNew
  by_cases htaken : (rows.any fun x => decide (key x = key r)) = true
  · rw [if_pos htaken]
    exact h
  · rw [if_neg htaken]
    refine h.append fun x hx hkey => htaken ?_
    exact any_eq_true.mpr ⟨x, hx, decide_eq_true hkey⟩

theorem Keyed.upsert (h : Keyed key rows) (r : ρ) : Keyed key (Table.upsert key r rows) := by
  unfold Table.upsert
  split
  · unfold Keyed
    rw [keys_replace]
    exact h
  · rename_i hn
    exact h.append (by simpa using hn)

theorem find_upsert_self (r : ρ) (rows : List ρ) :
    find key (key r) (upsert key r rows) = some r := by
  unfold find upsert
  split
  · rename_i h
    induction rows with
    | nil => simp at h
    | cons x rows ih =>
      by_cases hx : key x = key r
      · simp [hx]
      · simp only [any_cons, hx, decide_false, Bool.false_or] at h
        simpa [hx] using ih h
  · rename_i h
    rw [find?_append, find?_eq_none.mpr (by simpa using h)]
    simp

theorem find_upsert_ne {k : κ} (hk : k ≠ key r) (rows : List ρ) :
    find key k (upsert key r rows) = find key k rows := by
  unfold find upsert
  split
  · rename_i h
    clear h
    induction rows with
    | nil => rfl
    | cons x rows ih =>
      by_cases hx : key x = key r
      · simpa [hx, Ne.symm hk] using ih
      · by_cases hxk : key x = k
        · simp [hxk, hk]
        · simpa [hx, hxk] using ih
  · simp [find?_append, Ne.symm hk]

theorem filter_upsert {p : ρ → Bool} (hp : ∀ x, key x = key r → p x = false) (rows : List ρ) :
    (upsert key r rows).filter p = rows.filter p := by
  have hr : p r = false := hp r rfl
  unfold upsert
  split
  · rename_i h
    clear h
    induction rows with
    | nil => rfl
    | cons x rows ih =>
      rw [map_cons]
      by_cases hx : key x = key r
      · have hpx : p x = false := hp x hx
        rw [if_pos hx, filter_cons_of_neg (by simp [hr]), filter_cons_of_neg (by simp [hpx]), ih]
      · rw [if_neg hx, filter_cons, filter_cons, ih]
  · rw [filter_append, filter_cons_of_neg (by simp [hr]), filter_nil, append_nil]

/-- Deleting rows from a keyed table deletes what the lookup finds, or leaves it. -/
theorem find_filter {k : κ} (h : Keyed key rows) (p : ρ → Bool) :
    find key k (rows.filter p) = (find key k rows).filter p := by
  induction rows with
  | nil => rfl
  | cons x rows ih =>
    obtain ⟨hx, hrows⟩ := nodup_cons.mp (h : (key x :: rows.map key).Nodup)
    have ih := ih hrows
    unfold find at ih ⊢
    by_cases hp : p x = true
    · rw [filter_cons_of_pos hp]
      by_cases hk : key x = k
      · simp [hk, hp, Option.filter]
      · simpa [hk] using ih
    · rw [filter_cons_of_neg hp, ih]
      by_cases hk : key x = k
      · -- the key of a deleted row occurs nowhere else
        have hnone : rows.find? (fun r => decide (key r = k)) = none := by
          refine find?_eq_none.mpr fun y hy => ?_
          simp only [decide_eq_true_eq]
          rintro rfl
          exact hx (hk ▸ mem_map_of_mem hy)
        simp [hk, hnone, hp, Option.filter]
      · simp [hk]

theorem find_foldl_upsert {new : List ρ} (h : Keyed key new) (k : κ) (rows : List ρ) :
    find key k (new.foldl (fun rows r => upsert key r rows) rows) =
      (find key k new).or (find key k rows) := by
  induction new generalizing rows with
  | nil => rfl
  | cons r new ih =>
    obtain ⟨hr, hnew⟩ := nodup_cons.mp (h : (key r :: new.map key).Nodup)
    rw [foldl_cons, ih hnew]
    by_cases hk : key r = k
    · subst hk
      have hnone : find key (key r) new = none := by
        refine find?_eq_none.mpr fun x hx hkey => hr ?_
        exact of_decide_eq_true hkey ▸ mem_map_of_mem hx
      have hself : find key (key r) (r :: new) = some r := by simp [find]
      rw [hnone, hself, find_upsert_self]
      rfl
    · have hcons : find key k (r :: new) = find key k new := by simp [find, hk]
      rw [hcons, find_upsert_ne (Ne.symm hk)]

theorem Keyed.foldl_upsert (h : Keyed key rows) (new : List ρ) :
    Keyed key (new.foldl (fun rows r => Table.upsert key r rows) rows) := by
  induction new generalizing rows with
  | nil => exact h
  | cons r _ ih => exact ih (h.upsert r)

theorem Keyed.mem_iff (h : Keyed key rows) : r ∈ rows ↔ find key (key r) rows = some r :=
  ⟨h.find_self, fun hfind => (find_some hfind).1⟩

theorem Keyed.find_congr {rows rows' : List ρ} (h : Keyed key rows) (h' : Keyed key rows')
    (hmem : ∀ r, r ∈ rows ↔ r ∈ rows') (k : κ) : find key k rows = find key k rows' := by
  have hfound {l l' : List ρ} (hl' : Keyed key l') (hsub : ∀ r ∈ l, r ∈ l') {r : ρ}
      (hfind : find key k l = some r) : find key k l' = some r := by
    obtain ⟨hr, rfl⟩ := find_some hfind
    exact hl'.find_self (hsub r hr)
  refine Option.ext fun r => ⟨hfound h' fun r hr => (hmem r).mp hr,
    hfound h fun r hr => (hmem r).mpr hr⟩

/-! ## Rows rewritten under a key -/

/-- Rewrite the row under a key (`UPDATE … WHERE key = k`). -/
def update (key : ρ → κ) (k : κ) (f : ρ → ρ) (rows : List ρ) : List ρ :=
  rows.map fun r => if key r = k then f r else r

section update

variable {f : ρ → ρ} {k k' : κ}

theorem key_ite (hf : ∀ r, key (f r) = key r) (k : κ) (r : ρ) :
    key (if key r = k then f r else r) = key r := by
  split
  · exact hf r
  · rfl

theorem keys_update {γ : Type v} {g : ρ → γ} (hf : ∀ r, g (f r) = g r) :
    (update key k f rows).map g = rows.map g := by
  unfold update
  rw [map_map]
  refine map_congr_left fun r _ => ?_
  show g (if key r = k then f r else r) = g r
  split
  · exact hf r
  · rfl

theorem Keyed.update {ι : Type v} {id : ρ → ι} (h : Keyed id rows) (hf : ∀ r, id (f r) = id r) :
    Keyed id (update key k f rows) := by
  unfold Keyed
  rw [keys_update hf]
  exact h

theorem mem_update_self (hr : r ∈ rows) (hk : key r = k) : f r ∈ update key k f rows :=
  mem_map.mpr ⟨r, hr, if_pos hk⟩

theorem mem_update_ne (hr : r ∈ rows) (hk : key r ≠ k) : r ∈ update key k f rows :=
  mem_map.mpr ⟨r, hr, if_neg hk⟩

theorem mem_update (h : r ∈ update key k f rows) :
    (r ∈ rows ∧ key r ≠ k) ∨ ∃ r₀ ∈ rows, key r₀ = k ∧ r = f r₀ := by
  obtain ⟨r₀, hr₀, rfl⟩ := mem_map.mp h
  by_cases hk : key r₀ = k
  · exact .inr ⟨r₀, hr₀, hk, if_pos hk⟩
  · rw [if_neg hk]
    exact .inl ⟨hr₀, hk⟩

theorem find_update_self (hf : ∀ r, key (f r) = key r) :
    find key k (update key k f rows) = (find key k rows).map f := by
  unfold update
  rw [find_map (key_ite hf k)]
  cases hr : find key k rows with
  | none => rfl
  | some r => simp [(find_some hr).2]

theorem find_update_ne (hf : ∀ r, key (f r) = key r) (hk : k ≠ k') :
    find key k (update key k' f rows) = find key k rows := by
  unfold update
  rw [find_map (key_ite hf k')]
  cases hr : find key k rows with
  | none => rfl
  | some r =>
    have hne : key r ≠ k' := fun hthis => hk ((find_some hr).2 ▸ hthis)
    simp [hne]

end update

end Table
