import Mathlib.Data.List.TakeDrop
import Mathlib.Data.List.TakeWhile
import Chicoree.Lib.Trimming

/-! # The host in a URL

What the URL standard reads behind `https://` or `http://`, as far as the host and the port.

* `text` is the text that is read: what stands at its end and in it that no URL has is gone.
* `Names` is the grammar: slashes that are passed over, who asks, the host, the port, the rest.
* `hasHost` finds the parts from the left; `names_iff` says that it accepts what the grammar
  describes.

Which texts are hosts (names under IDNA, IPv4 and IPv6 addresses) is a parameter with the two
laws of `Hosts` that finding the parts needs. -/

namespace UrlHosts

open List

/-! ## The text -/

/-- Control characters and the blank. -/
def isControl (c : Char) : Bool := decide (c.toNat ≤ 0x20)

/-- Tabs and line breaks, which are passed over anywhere. -/
def isBreak (c : Char) : Bool := ['\t', '\n', '\r'].contains c

/-- The text that is read of a text that begins with a scheme. -/
def text (s : List Char) : List Char := (Trimming.trimRight isControl s).filter fun c => !isBreak c

/-! ## The grammar -/

/-- What passes for a slash. -/
def isSlash (c : Char) : Bool := ['/', '\\'].contains c

/-- The characters before which the host and its port end. -/
def isDelimiter (c : Char) : Bool := ['/', '?', '#', '\\'].contains c

/-- The number that digits spell. -/
def value (digits : List Char) : Nat := digits.foldl (fun n c => 10 * n + (c.toNat - 48)) 0

/-- Nothing, or a colon and the digits of a number of 16 bits, if any. -/
def isPort : List Char → Bool
  | [] => true
  | c :: digits => decide (c = ':') && digits.all Char.isDigit && decide (value digits < 0x10000)

/-- Which texts are hosts, and which of them the machine itself. -/
structure Hosts where
  isHost : List Char → Bool
  isLoopback : List Char → Bool
  /-- No host is empty. -/
  nonempty : isHost [] = false
  /-- What a bracket opens, the first one behind it closes, at the end. -/
  closed : ∀ s, isHost ('[' :: s) = true → ∃ w, s = w ++ [']'] ∧ ']' ∉ w
  /-- The machine itself is a host. -/
  isHost_of_isLoopback : ∀ s, isLoopback s = true → isHost s = true

/-- What a text is that names a host behind its scheme. -/
inductive Names (isHost : List Char → Bool) : List Char → Prop where
  | intro {slashes info host port tail : List Char} :
      (∀ c ∈ slashes, isSlash c = true) →
      (info = [] ∨ ∃ user, info = user ++ ['@'] ∧ ∀ c ∈ user, isDelimiter c = false) →
      (∀ c ∈ host, isDelimiter c = false ∧ c ≠ '@') →
      (host.head? = some '[' ∨ ':' ∉ host) →
      isHost host = true →
      isPort port = true →
      (∀ c ∈ tail.head?, isDelimiter c = true) →
      Names isHost (slashes ++ (info ++ (host ++ port) ++ tail))

/-! ## Finding the parts -/

/-- Everything up to the path. -/
def authority (s : List Char) : List Char :=
  (s.dropWhile isSlash).takeWhile fun c => !isDelimiter c

/-- What stands behind the last `@`. -/
def afterInfo (s : List Char) : List Char := s.rtakeWhile (· ≠ '@')

/-- The host and what stands behind it: brackets end where they close, names before a colon. -/
def cutHost : List Char → List Char × List Char
  | '[' :: s =>
    match s.span (· ≠ ']') with
    | (w, c :: port) => ('[' :: (w ++ [c]), port)
    | (w, []) => ('[' :: w, [])
  | s => s.span (· ≠ ':')

/-- Behind the scheme stands a host, and perhaps a port. -/
def hasHost (isHost : List Char → Bool) (s : List Char) : Bool :=
  let (host, port) := cutHost (afterInfo (authority s))
  isHost host && isPort port

section parts

variable {isHost : List Char → Bool} {s u v host port info tail : List Char} {c : Char}
  {p : Char → Bool}

theorem text_append (h : (s.all fun c => !isControl c && !isBreak c) = true) (rest : List Char) :
    text (s ++ rest) = s ++ text rest := by
  simp only [all_eq_true, Bool.and_eq_true, Bool.not_eq_true'] at h
  have hfilter : s.filter (fun c => !isBreak c) = s := by
    rw [filter_eq_self]
    intro c hc
    simp [(h c hc).2]
  have htrim : Trimming.trimRight isControl (s ++ rest) =
      s ++ Trimming.trimRight isControl rest := by
    induction s using List.reverseRecOn with
    | nil => rfl
    | append_singleton s c _ =>
      have hc : isControl c = false := (h c (by simp)).1
      rw [append_assoc, singleton_append, Trimming.trimRight_before hc]
      simp
  unfold text
  rw [htrim, filter_append, hfilter]

theorem isDelimiter_of_isSlash (h : isSlash c = true) : isDelimiter c = true := by
  simp only [isSlash, isDelimiter, contains_cons, contains_nil, Bool.or_eq_true, beq_iff_eq,
    Bool.or_false] at h ⊢
  rcases h with h | h
  · exact .inl h
  · exact .inr (.inr (.inr h))

/-- Ports have none of the characters that end what stands before them. -/
theorem isPort_plain (h : isPort port = true) : ∀ c ∈ port, isDelimiter c = false ∧ c ≠ '@' := by
  have hdigits : ∀ c : Char, c.isDigit = true → isDelimiter c = false ∧ c ≠ '@' := by
    intro c hc
    refine ⟨?_, fun heq => absurd (heq ▸ hc) (by decide)⟩
    by_contra hdelimiter
    simp only [isDelimiter, contains_cons, contains_nil, Bool.or_false, Bool.not_eq_false,
      Bool.or_eq_true, beq_iff_eq] at hdelimiter
    rcases hdelimiter with rfl | rfl | rfl | rfl <;> exact absurd hc (by decide)
  intro c hc
  cases port with
  | nil => cases hc
  | cons d digits =>
    simp only [isPort, Bool.and_eq_true, decide_eq_true_eq, all_eq_true] at h
    obtain ⟨⟨hcolon, hall⟩, -⟩ := h
    rcases mem_cons.mp hc with rfl | hc
    · rw [hcolon]
      decide
    · exact hdigits c (hall c hc)

theorem isPort_head (h : isPort port = true) : ∀ c ∈ port.head?, c = ':' := by
  intro c hc
  cases port with
  | nil => cases hc
  | cons d digits =>
    simp only [isPort, Bool.and_eq_true, decide_eq_true_eq] at h
    cases hc
    exact h.1.1

/-- A text splits at the first character outside a class, wherever that is. -/
theorem takeWhile_class (hu : ∀ c ∈ u, p c = true) (hv : ∀ c ∈ v.head?, p c = false) :
    (u ++ v).takeWhile p = u := by
  rw [takeWhile_append_of_pos hu]
  cases v with
  | nil => simp
  | cons c v => simp [hv c rfl]

theorem dropWhile_class (hu : ∀ c ∈ u, p c = true) (hv : ∀ c ∈ v.head?, p c = false) :
    (u ++ v).dropWhile p = v := by
  rw [dropWhile_append_of_pos hu]
  cases v with
  | nil => rfl
  | cons c v => simp [hv c rfl]

theorem head?_dropWhile_class : ∀ c ∈ (s.dropWhile p).head?, p c = false := by
  intro c hc
  have h := head?_dropWhile_not p s
  rw [Option.mem_def.mp hc] at h
  simpa using h

theorem afterInfo_append (hinfo : info = [] ∨ ∃ user, info = user ++ ['@'])
    (hs : '@' ∉ s) : afterInfo (info ++ s) = s := by
  unfold afterInfo rtakeWhile
  rcases hinfo with rfl | ⟨user, rfl⟩
  · rw [nil_append, takeWhile_eq_self_iff.mpr (Trimming.reverse_ne hs), reverse_reverse]
  · rw [append_assoc, singleton_append, (Trimming.cut_last hs).2]

/-- Before what is found behind the last `@` stands nothing, or what that `@` ends. -/
theorem exists_info (s : List Char) :
    ∃ info, s = info ++ afterInfo s ∧ (info = [] ∨ ∃ user, info = user ++ ['@']) := by
  induction s using List.reverseRecOn with
  | nil => exact ⟨[], rfl, .inl rfl⟩
  | append_singleton s c ih =>
    by_cases hc : c = '@'
    · refine ⟨s ++ [c], ?_, .inr ⟨s, by rw [hc]⟩⟩
      simp [afterInfo, hc]
    · obtain ⟨info, hs, hinfo⟩ := ih
      refine ⟨info, ?_, hinfo⟩
      have hafter : afterInfo (s ++ [c]) = afterInfo s ++ [c] := by
        simp [afterInfo, hc]
      rw [hafter, ← append_assoc, ← hs]

theorem not_mem_afterInfo : '@' ∉ afterInfo s := by
  intro h
  exact absurd (mem_rtakeWhile_imp h) (by simp)

/-- The parts make up the text, and a host without brackets has no colon. -/
theorem cutHost_spec : s = (cutHost s).1 ++ (cutHost s).2 ∧
    ((cutHost s).1.head? = some '[' ∨ ':' ∉ (cutHost s).1) := by
  unfold cutHost
  split
  · rename_i s
    have hsplit := takeWhile_append_dropWhile (p := (· ≠ ']')) (l := s)
    rw [span_eq_takeWhile_dropWhile]
    split
    · rename_i w c port heq
      obtain ⟨htake, hdrop⟩ := Prod.mk.inj heq
      rw [htake, hdrop] at hsplit
      simp [← hsplit]
    · rename_i w heq
      obtain ⟨htake, hdrop⟩ := Prod.mk.inj heq
      rw [htake, hdrop] at hsplit
      simp [← hsplit]
  · rw [span_eq_takeWhile_dropWhile]
    refine ⟨takeWhile_append_dropWhile.symm, .inr fun h => ?_⟩
    exact absurd (mem_takeWhile_imp h) (by simp)

theorem cutHost_append (closed : ∀ s, isHost ('[' :: s) = true → ∃ w, s = w ++ [']'] ∧ ']' ∉ w)
    (hhost : isHost host = true) (hcolon : host.head? = some '[' ∨ ':' ∉ host)
    (hport : isPort port = true) : cutHost (host ++ port) = (host, port) := by
  by_cases hbracket : host.head? = some '['
  · obtain ⟨s, rfl⟩ : ∃ s, host = '[' :: s := by
      cases host with
      | nil => cases hbracket
      | cons c s =>
        cases hbracket
        exact ⟨s, rfl⟩
    obtain ⟨w, rfl, hw⟩ := closed s hhost
    have hall : ∀ c ∈ w, decide (c ≠ ']') = true := by
      intro c hc
      simp only [decide_eq_true_eq]
      rintro rfl
      exact hw hc
    have htake := takeWhile_class (v := ']' :: port) hall (by simp)
    have hdrop := dropWhile_class (v := ']' :: port) hall (by simp)
    rw [cons_append, append_assoc, singleton_append]
    simp only [cutHost, span_eq_takeWhile_dropWhile, htake, hdrop]
  · have hno : ':' ∉ host := hcolon.resolve_left hbracket
    have hall : ∀ c ∈ host, decide (c ≠ ':') = true := by
      intro c hc
      simp only [decide_eq_true_eq]
      rintro rfl
      exact hno hc
    have hhead : ∀ c ∈ port.head?, decide (c ≠ ':') = false := by
      intro c hc
      simp [isPort_head hport c hc]
    have hopen : ∀ s, host ++ port ≠ '[' :: s := by
      intro s heq
      cases host with
      | nil =>
        rw [nil_append] at heq
        exact absurd (isPort_head hport '[' (by simp [heq])) (by decide)
      | cons c host =>
        cases heq
        exact hbracket rfl
    unfold cutHost
    split
    · rename_i s heq
      exact absurd heq (hopen s)
    · rw [span_eq_takeWhile_dropWhile, takeWhile_class hall hhead, dropWhile_class hall hhead]

theorem authority_append {slashes body : List Char} (hslashes : ∀ c ∈ slashes, isSlash c = true)
    (hbody : ∀ c ∈ body, isDelimiter c = false) (hne : body ≠ [])
    (htail : ∀ c ∈ tail.head?, isDelimiter c = true) :
    authority (slashes ++ (body ++ tail)) = body := by
  have hhead : ∀ c ∈ (body ++ tail).head?, isSlash c = false := by
    intro c hc
    rw [head?_append_of_ne_nil _ hne] at hc
    by_contra hslash
    rw [Bool.not_eq_false] at hslash
    have hc' : isDelimiter c = false := hbody c (mem_of_mem_head? hc)
    rw [isDelimiter_of_isSlash hslash] at hc'
    cases hc'
  unfold authority
  rw [dropWhile_class hslashes hhead]
  refine takeWhile_class (fun c hc => ?_) (fun c hc => ?_)
  · simp [hbody c hc]
  · simp [htail c hc]

/-- What the authority is cut from. -/
theorem exists_authority (s : List Char) : ∃ slashes tail, s = slashes ++ (authority s ++ tail) ∧
    (∀ c ∈ slashes, isSlash c = true) ∧ ∀ c ∈ tail.head?, isDelimiter c = true := by
  refine ⟨s.takeWhile isSlash, (s.dropWhile isSlash).dropWhile fun c => !isDelimiter c, ?_, ?_, ?_⟩
  · rw [authority, takeWhile_append_dropWhile, takeWhile_append_dropWhile]
  · intro c hc
    exact mem_takeWhile_imp hc
  · intro c hc
    simpa using head?_dropWhile_class c hc

theorem not_isDelimiter_of_mem_authority (h : c ∈ authority s) : isDelimiter c = false := by
  simpa using mem_takeWhile_imp h

end parts

/-- **The parts are found exactly in the texts of the grammar.** -/
theorem names_iff {isHost : List Char → Bool} (nonempty : isHost [] = false)
    (closed : ∀ s, isHost ('[' :: s) = true → ∃ w, s = w ++ [']'] ∧ ']' ∉ w) {s : List Char} :
    Names isHost s ↔ hasHost isHost s = true := by
  constructor
  · intro h
    cases h with
    | @intro slashes info host port tail hslashes hinfo hplain hcolon hhost hport htail =>
      have hasked : info = [] ∨ ∃ user, info = user ++ ['@'] :=
        hinfo.imp id fun ⟨user, heq, _⟩ => ⟨user, heq⟩
      have hbody : ∀ c ∈ info ++ (host ++ port), isDelimiter c = false := by
        intro c hc
        rcases mem_append.mp hc with hc | hc
        · rcases hinfo with rfl | ⟨user, rfl, huser⟩
          · cases hc
          · rcases mem_append.mp hc with hc | hc
            · exact huser c hc
            · rw [mem_singleton.mp hc]
              decide
        · rcases mem_append.mp hc with hc | hc
          · exact (hplain c hc).1
          · exact (isPort_plain hport c hc).1
      have hat : '@' ∉ host ++ port := by
        intro hc
        rcases mem_append.mp hc with hc | hc
        · exact (hplain _ hc).2 rfl
        · exact (isPort_plain hport _ hc).2 rfl
      have hne : info ++ (host ++ port) ≠ [] := by
        intro hnil
        simp only [append_eq_nil_iff] at hnil
        rw [hnil.2.1, nonempty] at hhost
        cases hhost
      unfold hasHost
      rw [authority_append hslashes hbody hne htail, afterInfo_append hasked hat,
        cutHost_append closed hhost hcolon hport]
      simp [hhost, hport]
  · intro h
    obtain ⟨slashes, tail, hs, hslashes, htail⟩ := exists_authority s
    obtain ⟨info, hauthority, hinfo⟩ := exists_info (authority s)
    obtain ⟨hcut, hcolon⟩ := cutHost_spec (s := afterInfo (authority s))
    simp only [hasHost, Bool.and_eq_true] at h
    rw [hs, hauthority, hcut]
    refine .intro hslashes ?_ ?_ hcolon h.1 h.2 htail
    · refine hinfo.imp id fun ⟨user, huser⟩ => ⟨user, huser, fun c hc => ?_⟩
      refine not_isDelimiter_of_mem_authority (s := s) ?_
      rw [hauthority, huser]
      simp [hc]
    · intro c hc
      have hafter : c ∈ afterInfo (authority s) := by
        rw [hcut]
        exact mem_append_left _ hc
      refine ⟨not_isDelimiter_of_mem_authority (s := s) ?_, ?_⟩
      · rw [hauthority]
        exact mem_append_right _ hafter
      · rintro rfl
        exact not_mem_afterInfo hafter

section hosts

variable (hosts : Hosts) {s : List Char}

theorem Hosts.names_isHost : Names hosts.isHost s ↔ hasHost hosts.isHost s = true :=
  names_iff hosts.nonempty hosts.closed

theorem Hosts.names_isLoopback : Names hosts.isLoopback s ↔ hasHost hosts.isLoopback s = true := by
  refine names_iff ?_ fun s h => hosts.closed s (hosts.isHost_of_isLoopback _ h)
  by_contra h
  rw [Bool.not_eq_false] at h
  simpa [hosts.nonempty] using hosts.isHost_of_isLoopback [] h

end hosts

end UrlHosts
