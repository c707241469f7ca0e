import Mathlib.Data.List.Basic

/-! # Shared calls

Work that is shared by key: who comes first leads a call, and who comes while it is listed
joins it. A call that has ended is taken off the list, so that the next one leads again. -/

namespace Flight

open List

universe u v

structure Call (κ : Type u) (β : Type v) where
  key : κ
  work : β
  listed : Bool := true

variable {κ : Type u} {β : Type v} [DecidableEq κ] {calls : List (Call κ β)} {key : κ} {work : β}

def running (key : κ) (calls : List (Call κ β)) : Option Nat :=
  calls.findIdx? fun c => decide (c.key = key) && c.listed

/-- Join the listed call of a key, or lead a new one: the calls, and which it is. -/
def join (key : κ) (work : β) (calls : List (Call κ β)) : List (Call κ β) × Nat :=
  match running key calls with
  | some i => (calls, i)
  | none => (calls ++ [⟨key, work, true⟩], calls.length)

theorem running_some {i : Nat} (h : running key calls = some i) :
    ∃ c, calls[i]? = some c ∧ c.key = key ∧ c.listed = true := by
  obtain ⟨hlt, hc, -⟩ := findIdx?_eq_some_iff_getElem.mp h
  rw [Bool.and_eq_true] at hc
  exact ⟨calls[i], getElem?_eq_getElem hlt, of_decide_eq_true hc.1, hc.2⟩

theorem join_cases (key : κ) (work : β) (calls : List (Call κ β)) :
    (∃ i c, running key calls = some i ∧ calls[i]? = some c ∧ c.key = key ∧
      join key work calls = (calls, i)) ∨
    (running key calls = none ∧
      join key work calls = (calls ++ [⟨key, work, true⟩], calls.length)) := by
  unfold join
  cases h : running key calls with
  | some i =>
    obtain ⟨c, hc, hkey, -⟩ := running_some h
    exact .inl ⟨i, c, rfl, hc, hkey, rfl⟩
  | none => exact .inr ⟨rfl, rfl⟩

theorem getElem?_join {i : Nat} {c : Call κ β} (h : calls[i]? = some c) (key : κ) (work : β) :
    (join key work calls).1[i]? = some c := by
  obtain ⟨_, _, -, -, -, hjoin⟩ | ⟨-, hjoin⟩ := join_cases key work calls
  · rw [hjoin]
    exact h
  · rw [hjoin, getElem?_append_left (List.getElem?_eq_some_iff.mp h).1]
    exact h

/-! ## One call of a key -/

def Exclusive (calls : List (Call κ β)) : Prop :=
  ∀ (i j : Nat) (c d : Call κ β), calls[i]? = some c → calls[j]? = some d →
    c.listed = true → d.listed = true → c.key = d.key → i = j

omit [DecidableEq κ] in
theorem Exclusive.nil : Exclusive ([] : List (Call κ β)) := by
  intro i j c d hc
  cases hc

theorem not_listed_of_running_none (h : running key calls = none) {i : Nat} {c : Call κ β}
    (hc : calls[i]? = some c) (hkey : c.key = key) : c.listed = false := by
  have hno := findIdx?_eq_none_iff.mp h c (mem_of_getElem? hc)
  simpa [hkey] using hno

/-- Who joins or leads leaves one call of each key. -/
theorem Exclusive.join (h : Exclusive calls) (key : κ) (work : β) :
    Exclusive (join key work calls).1 := by
  obtain ⟨_, _, -, -, -, hjoin⟩ | ⟨hnone, hjoin⟩ := join_cases key work calls
  · rw [hjoin]
    exact h
  · rw [hjoin]
    have hnew {i : Nat} {c : Call κ β}
        (hi : (calls ++ [(⟨key, work, true⟩ : Call κ β)])[i]? = some c) :
        calls[i]? = some c ∨ i = calls.length ∧ c = ⟨key, work, true⟩ := by
      by_cases hlt : i < calls.length
      · rw [getElem?_append_left hlt] at hi
        exact .inl hi
      · have hle : i < (calls ++ [(⟨key, work, true⟩ : Call κ β)]).length :=
          (List.getElem?_eq_some_iff.mp hi).1
        rw [length_append, length_singleton] at hle
        obtain rfl : i = calls.length := by omega
        rw [getElem?_concat_length] at hi
        exact .inr ⟨rfl, (Option.some.inj hi).symm⟩
    have hother {i : Nat} {c : Call κ β} (hi : calls[i]? = some c) (hl : c.listed = true)
        (hkey : c.key = key) : False := by
      rw [not_listed_of_running_none hnone hi hkey] at hl
      cases hl
    intro i j c d hi hj hc hd hkeys
    rcases hnew hi with hi | ⟨rfl, rfl⟩
    · rcases hnew hj with hj | ⟨rfl, rfl⟩
      · exact h i j c d hi hj hc hd hkeys
      · exact (hother hi hc hkeys).elim
    · rcases hnew hj with hj | ⟨rfl, rfl⟩
      · exact (hother hj hd hkeys.symm).elim
      · rfl

omit [DecidableEq κ] in
theorem Exclusive.set (h : Exclusive calls) {k : Nat} {c c' : Call κ β} (hk : calls[k]? = some c)
    (hkey : c'.key = c.key) (hlisted : c'.listed = true → c.listed = true) :
    Exclusive (calls.set k c') := by
  have hold {i : Nat} {d : Call κ β} (hi : (calls.set k c')[i]? = some d) :
      ∃ d₀, calls[i]? = some d₀ ∧ d.key = d₀.key ∧ (d.listed = true → d₀.listed = true) := by
    by_cases hik : i = k
    · subst hik
      rw [getElem?_set_self (List.getElem?_eq_some_iff.mp hk).1] at hi
      cases hi
      exact ⟨c, hk, hkey, hlisted⟩
    · rw [getElem?_set_ne (Ne.symm hik)] at hi
      exact ⟨d, hi, rfl, id⟩
  intro i j d e hi hj hd he hkeys
  obtain ⟨d₀, hi, hdkey, hdl⟩ := hold hi
  obtain ⟨e₀, hj, hekey, hel⟩ := hold hj
  exact h i j d₀ e₀ hi hj (hdl hd) (hel he) (by rw [← hdkey, ← hekey, hkeys])

end Flight
