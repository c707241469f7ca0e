import Chicoree.Lib.Trimming
import Chicoree.RateLimits.LimitGrammar

/-! # The two grammars of trusted proxies

What the web application accepts as an address it has looked at by its characters only. The
entries that registryd reads are those whose IPv6 addresses are addresses and whose prefix
lengths have no leading zero; the list itself survives being joined and split again. -/

namespace Chicoree.RateLimits

open Bool (and_eq_true or_eq_true)
open List
open Trimming (mem_splitOn not_sep_of_mem_splitOn)

variable {s : List Char}

/-! ## The list of entries -/

theorem fieldsFunc_joinEntries {sep : Char → Bool} (hcomma : sep ',' = true)
    (hspace : sep ' ' = true) {entries : List (List Char)}
    (h : ∀ e ∈ entries, e ≠ [] ∧ ∀ c ∈ e, sep c = false) :
    fieldsFunc sep (joinEntries entries).toList = entries := by
  unfold joinEntries
  rw [String.toList_ofList]
  induction entries with
  | nil => rfl
  | cons e es ih =>
    obtain ⟨⟨hne, hplain⟩, hes⟩ := forall_mem_cons.mp h
    have hsplit : e.splitOnP sep = [e] := splitOnP_eq_singleton hplain
    cases es with
    | nil =>
      unfold fieldsFunc
      rw [intercalate_singleton, hsplit]
      simp [hne]
    | cons e' es =>
      have ih := ih hes
      have htext : [',', ' '].intercalate (e :: e' :: es) =
          e ++ ',' :: ([] ++ ' ' :: [',', ' '].intercalate (e' :: es)) := by
        rw [intercalate_cons_cons]
        simp
      unfold fieldsFunc at ih ⊢
      rw [htext, splitOnP_append_cons _ _ hcomma, splitOnP_append_cons _ _ hspace,
        hsplit, splitOnP_nil, filter_append, filter_append, ih]
      simp [hne]

variable {c : Char}

theorem separator_of_proxySeparator (h : isProxySeparator c = true) :
    isEntrySeparator c = true := by
  simp only [isProxySeparator, or_eq_true, decide_eq_true_eq] at h
  rcases h with ((((rfl | rfl) | rfl) | rfl) | rfl) | rfl <;> decide

/-- The stored list is read back into the entries of the form. -/
theorem fieldsFunc_stored (text : String) :
    fieldsFunc isProxySeparator (joinEntries (parseTrustedProxies text).1).toList =
      (parseTrustedProxies text).1 := by
  refine fieldsFunc_joinEntries rfl rfl fun e he => ?_
  obtain ⟨he, hne⟩ := mem_filter.mp he
  refine ⟨by simpa using hne, fun c hc => ?_⟩
  have hsep := (Trimming.of_mem_splitOnP he hc).2
  cases hproxy : isProxySeparator c with
  | false => rfl
  | true => rw [separator_of_proxySeparator hproxy] at hsep; cases hsep

theorem digit_le (h : isDigit c = true) : digit c ≤ 9 := by
  have := isDigit_iff.mp h
  have hzero : '0'.toNat = 48 := rfl
  unfold digit
  omega

theorem isOctet_of_text (h : isOctetText s = true) : isOctet s = true := by
  unfold isOctetText at h
  split at h
  · rename_i a
    have ha := digit_le h
    have hvalue : decimal [a] = digit a := by simp [decimal]
    simp only [isOctet, isPlainDecimal, hvalue, and_eq_true, decide_eq_true_eq]
    refine ⟨?_, by omega⟩
    simpa using h
  · rename_i a b
    simp only [and_eq_true, bne_iff_ne, ne_eq] at h
    obtain ⟨⟨ha, hzero⟩, hb⟩ := h
    have := digit_le ha
    have := digit_le hb
    have hvalue : decimal [a, b] = 10 * digit a + digit b := by simp [decimal]
    simp only [isOctet, isPlainDecimal, hvalue, and_eq_true, decide_eq_true_eq]
    refine ⟨?_, by omega⟩
    simp [ha, hb, hzero]
  · rename_i a b c
    have hvalue : decimal [a, b, c] = 10 * (10 * digit a + digit b) + digit c := by
      simp [decimal]
    simp only [or_eq_true, and_eq_true, beq_iff_eq, decide_eq_true_eq] at h
    have hone : digit '1' = 1 := rfl
    have htwo : digit '2' = 2 := rfl
    have hfive : digit '5' = 5 := rfl
    have hdigits : isDigit '1' = true ∧ isDigit '2' = true ∧ isDigit '5' = true := ⟨rfl, rfl, rfl⟩
    simp only [isOctet, isPlainDecimal, hvalue, and_eq_true, decide_eq_true_eq]
    rcases h with (⟨⟨rfl, hb⟩, hc⟩ | ⟨⟨⟨rfl, rfl⟩, hc⟩, hle⟩) | ⟨⟨⟨rfl, hb⟩, hle⟩, hc⟩
    · have := digit_le hb
      have := digit_le hc
      refine ⟨?_, by omega⟩
      simp [hb, hc, hdigits]
    · refine ⟨?_, by omega⟩
      simp [hc, hdigits]
    · have := digit_le hc
      refine ⟨?_, by omega⟩
      simp [hb, hc, hdigits]
  · cases h

theorem isDotted_of_text (h : isIPv4Text s = true) : isDotted s = true := by
  simp only [isIPv4Text, isDotted, and_eq_true, all_eq_true] at h ⊢
  exact ⟨h.1, fun o ho => isOctet_of_text (h.2 o ho)⟩

theorem isDotted_chars (h : isDotted s = true) : ∀ c ∈ s, isDigit c = true ∨ c = '.' := by
  simp only [isDotted, and_eq_true, all_eq_true] at h
  intro c hc
  rcases mem_splitOn '.' hc with hdot | ⟨f, hf, hcf⟩
  · exact .inr hdot
  · have hoctet := h.2 f hf
    simp only [isOctet, isPlainDecimal, and_eq_true, all_eq_true] at hoctet
    exact .inl (hoctet.1.1.2 c hcf)

theorem dot_of_isDotted (h : isDotted s = true) : '.' ∈ s := by
  by_contra hdot
  simp only [isDotted, and_eq_true] at h
  rw [splitOn_eq_singleton hdot] at h
  cases h.1

/-! ## IPv6 -/

/-- The characters of addresses. -/
def isAddressChar (c : Char) : Bool := isHexDigit c || c = ':' || c = '.'

theorem isAddressChar_of_digit (h : isDigit c = true) : isAddressChar c = true := by
  simp [isAddressChar, isHexDigit, h]

variable {tail : Bool} {fs : List (List Char)} {gs : List Nat}

theorem groups_chars
    (h : groups tail fs = some gs) : ∀ f ∈ fs, ∀ c ∈ f, isAddressChar c = true := by
  have hgroup : ∀ f, isGroup f = true → ∀ c ∈ f, isAddressChar c = true := by
    intro f hf c hc
    simp only [isGroup, and_eq_true, all_eq_true] at hf
    simp [isAddressChar, hf.1.2 c hc]
  induction fs generalizing gs with
  | nil =>
    intro f hf
    cases hf
  | cons f fs ih =>
    cases fs with
    | nil =>
      rw [forall_mem_singleton]
      simp only [groups] at h
      split at h
      · rename_i hf
        exact hgroup f hf
      · split at h
        · rename_i hdotted
          intro c hc
          rcases isDotted_chars (and_eq_true _ _ ▸ hdotted).2 c hc with hdigit | rfl
          · exact isAddressChar_of_digit hdigit
          · rfl
        · cases h
    | cons g fs =>
      simp only [groups] at h
      split at h
      · rename_i hf
        obtain ⟨gs', hgs', -⟩ := Option.map_eq_some_iff.mp h
        exact forall_mem_cons.mpr ⟨hgroup f hf, ih hgs'⟩
      · cases h

theorem chars_of_fields (h : ∀ f ∈ s.splitOn ':', ∀ c ∈ f, isAddressChar c = true) :
    ∀ c ∈ s, isAddressChar c = true := by
  intro c hc
  rcases mem_splitOn ':' hc with rfl | ⟨f, hf, hcf⟩
  · rfl
  · exact h f hf c hcf

theorem chars_of_side (h : groups tail (fields s) = some gs) : ∀ c ∈ s, isAddressChar c = true := by
  unfold fields at h
  split at h
  · rename_i hempty
    intro c hc
    rw [isEmpty_iff.mp hempty] at hc
    cases hc
  · exact chars_of_fields (groups_chars h)

variable {l r : List Char}

theorem cutEllipsis_some (h : cutEllipsis s = some (l, r)) : s = l ++ ':' :: ':' :: r := by
  fun_induction cutEllipsis s generalizing l with
  | case1 s =>
    cases h
    rfl
  | case2 c s _ ih =>
    obtain ⟨⟨l', r'⟩, hcut, heq⟩ := Option.map_eq_some_iff.mp h
    cases heq
    rw [ih hcut]
    rfl
  | case3 => cases h

theorem ipv6Groups_chars (h : (ipv6Groups s).isSome = true) : ∀ c ∈ s, isAddressChar c = true := by
  unfold ipv6Groups at h
  split at h
  · split at h
    · rename_i gs hgs
      exact chars_of_fields (groups_chars hgs)
    · cases h
  · rename_i l r hcut
    split at h
    · rename_i ls rs hls hrs
      rw [cutEllipsis_some hcut]
      intro c hc
      simp only [mem_append, mem_cons] at hc
      rcases hc with hc | rfl | rfl | hc
      · exact chars_of_side hls c hc
      · rfl
      · rfl
      · exact chars_of_side hrs c hc
    · cases h

variable {f : List Char}

theorem not_isGroup_of_dot (h : '.' ∈ f) : isGroup f = false := by
  cases hf : isGroup f with
  | false => rfl
  | true =>
    simp only [isGroup, and_eq_true, all_eq_true] at hf
    exact absurd (hf.1.2 '.' h) (by decide)

theorem groups_dot (hdot : '.' ∈ f)
    (h : tail = false ∨ fs ≠ []) : groups tail (f :: fs) = none := by
  have hf := not_isGroup_of_dot hdot
  cases fs with
  | nil =>
    have htail : tail = false := h.resolve_right fun hne => hne rfl
    simp [groups, hf, htail]
  | cons g fs => simp [groups, hf]

variable {pre post : List Char}

theorem cutEllipsis_before_dot (hpre : ':' ∉ pre)
    (h : cutEllipsis (pre ++ '.' :: post) = some (l, r)) : ∃ l', l = pre ++ '.' :: l' := by
  induction pre generalizing l with
  | nil =>
    rw [nil_append, cutEllipsis] at h
    · obtain ⟨⟨l', r'⟩, -, heq⟩ := Option.map_eq_some_iff.mp h
      cases heq
      exact ⟨l', rfl⟩
    · rintro rest hdot
      cases hdot
  | cons c pre ih =>
    have hc : c ≠ ':' := fun hthis => hpre (hthis ▸ mem_cons_self ..)
    simp only [cons_append] at h
    rw [cutEllipsis] at h
    · obtain ⟨⟨l', r'⟩, hcut, heq⟩ := Option.map_eq_some_iff.mp h
      cases heq
      obtain ⟨l'', rfl⟩ := ih (fun hthis => hpre (mem_cons_of_mem _ hthis)) hcut
      exact ⟨l'', rfl⟩
    · rintro rest rfl
      exact absurd rfl hc

theorem splitOn_dot (post : List Char) (hpre : ':' ∉ pre) :
    ∃ f fs, (pre ++ '.' :: post).splitOn ':' = f :: fs ∧ '.' ∈ f ∧ (':' ∈ post → fs ≠ []) := by
  by_cases hcolon : ':' ∈ post
  · obtain ⟨a, b, rfl, ha⟩ := eq_append_cons_of_mem hcolon
    have htext : pre ++ '.' :: (a ++ ':' :: b) = (pre ++ '.' :: a) ++ ':' :: b := by simp
    have hfield : ':' ∉ pre ++ '.' :: a := by simp [hpre, ha]
    refine ⟨pre ++ '.' :: a, b.splitOn ':', ?_, by simp, fun _ => splitOn_ne_nil _ _⟩
    rw [htext, splitOn_append_cons_self_of_not_mem hfield]
  · have hfield : ':' ∉ pre ++ '.' :: post := by simp [hpre, hcolon]
    exact ⟨_, [], splitOn_eq_singleton hfield, by simp, fun hthis => absurd hthis hcolon⟩

theorem ipv6Groups_dot_first (hpre : ':' ∉ pre) (hcolon : ':' ∈ post) :
    ipv6Groups (pre ++ '.' :: post) = none := by
  unfold ipv6Groups
  split
  · obtain ⟨f, fs, hsplit, hdot, hmore⟩ := splitOn_dot post hpre
    rw [hsplit, groups_dot hdot (.inr (hmore hcolon))]
  · rename_i l r hcut
    obtain ⟨l', rfl⟩ := cutEllipsis_before_dot hpre hcut
    obtain ⟨f, fs, hsplit, hdot, -⟩ := splitOn_dot l' hpre
    have hfields : fields (pre ++ '.' :: l') = f :: fs := by
      unfold fields
      rw [if_neg (by simp), hsplit]
    rw [hfields, groups_dot hdot (.inl rfl)]

theorem isAddress_chars (h : isAddress s = true) : ∀ c ∈ s, isAddressChar c = true := by
  simp only [isAddress, or_eq_true, and_eq_true, all_eq_true] at h
  intro c hc
  rcases h with h | h
  · rcases isDotted_chars (isDotted_of_text h) c hc with hdigit | rfl
    · exact isAddressChar_of_digit hdigit
    · rfl
  · simpa [isAddressChar] using h.1.1.2 c hc

theorem parseAddr_dotted (h : isDotted s = true) :
    parseAddr s = some ⟨true, dottedValue s, ""⟩ ∧ ':' ∉ s := by
  have hchars := isDotted_chars h
  refine ⟨?_, fun hcolon => ?_⟩
  · unfold parseAddr
    cases hfind : s.find? fun c => c = '.' || c = ':' || c = '%' with
    | none =>
      have := find?_eq_none.mp hfind '.' (dot_of_isDotted h)
      simp at this
    | some c =>
      have hmark := find?_some hfind
      rcases hchars c (mem_of_find?_eq_some hfind) with hdigit | rfl
      · simp only [or_eq_true, decide_eq_true_eq] at hmark
        rcases hmark with (rfl | rfl) | rfl <;> cases hdigit
      · simp [parseIPv4, h]
  · rcases hchars ':' hcolon with hdigit | hdot
    · cases hdigit
    · cases hdot

theorem parseIPv6_plain (h : ∀ c ∈ s, c ≠ '%') : parseIPv6 s = (ipv6Groups s).map fun gs =>
      ⟨false, gs.foldl (fun n g => 65536 * n + g) 0, ""⟩ := by
  have hall : ∀ c ∈ s, decide (c ≠ '%') = true := fun c hc => decide_eq_true (h c hc)
  have htake := takeWhile_eq_self_iff.mpr hall
  have hdrop := dropWhile_eq_nil_iff.mpr hall
  unfold parseIPv6
  rw [htake, hdrop]
  rfl

theorem parseAddr_colon (hchars : ∀ c ∈ s, isAddressChar c = true) (hcolon : ':' ∈ s) :
    parseAddr s = (ipv6Groups s).map fun gs =>
      ⟨false, gs.foldl (fun n g => 65536 * n + g) 0, ""⟩ := by
  have hpercent : ∀ c ∈ s, c ≠ '%' := by
    rintro c hc rfl
    cases hchars '%' hc
  unfold parseAddr
  cases hfind : s.find? fun c => c = '.' || c = ':' || c = '%' with
  | none =>
    have := find?_eq_none.mp hfind ':' hcolon
    simp at this
  | some c =>
    have hmark := find?_some hfind
    simp only [or_eq_true, decide_eq_true_eq] at hmark
    rcases hmark with (rfl | rfl) | rfl
    · -- a dot comes first: neither four octets nor an IPv6 address
      obtain ⟨-, pre, post, rfl, hpre⟩ := find?_eq_some_iff_append.mp hfind
      have hnot : ':' ∉ pre := by
        intro hthis
        have := hpre ':' hthis
        simp at this
      have hpost : ':' ∈ post := by
        rcases mem_append.mp hcolon with hthis | hthis
        · exact absurd hthis hnot
        · rcases mem_cons.mp hthis with hthis | hthis
          · cases hthis
          · exact hthis
      have hdotted : isDotted (pre ++ '.' :: post) = false := by
        cases hd : isDotted (pre ++ '.' :: post) with
        | false => rfl
        | true => exact absurd hcolon (parseAddr_dotted hd).2
      rw [ipv6Groups_dot_first hnot hpost]
      simp [parseIPv4, hdotted]
    · exact parseIPv6_plain hpercent
    · exact absurd rfl (hpercent '%' (mem_of_find?_eq_some hfind))

theorem parseAddr_slash (hslash : '/' ∈ s)
    (hchars : ∀ c ∈ s, isAddressChar c = true ∨ c = '/') : parseAddr s = none := by
  have hpercent : ∀ c ∈ s, c ≠ '%' := by
    rintro c hc rfl
    rcases hchars '%' hc with hthis | hthis <;> cases hthis
  unfold parseAddr
  split
  · unfold parseIPv4
    split
    · rename_i hdotted
      rcases isDotted_chars hdotted '/' hslash with hthis | hthis <;> cases hthis
    · rfl
  · rw [parseIPv6_plain hpercent]
    cases hgroups : ipv6Groups s with
    | none => rfl
    | some gs => cases ipv6Groups_chars (hgroups ▸ rfl) '/' hslash
  · rfl

/-! ## Entries -/

/-- What Go asks of an address that the form lets through: whole groups. -/
def wellFormedAddress (s : List Char) : Bool := !s.contains ':' || (ipv6Groups s).isSome

/-- An address, or one with a prefix length that has no leading zero. -/
def wellFormedEntry (e : List Char) : Bool :=
  match e.splitOn '/' with
  | [address] => wellFormedAddress address
  | [address, bits] => wellFormedAddress address && (bits.length == 1 || bits.head? != some '0')
  | _ => true

/-- Of the addresses that the form lets through, Go reads those whose groups are whole. -/
theorem parseAddr_isAddress (h : isAddress s = true) :
    if wellFormedAddress s then
      ∃ a, parseAddr s = some a ∧ a.zone = "" ∧ a.bitLen = if s.contains ':' then 128 else 32
    else parseAddr s = none := by
  by_cases hcolon : ':' ∈ s
  · have hparse := parseAddr_colon (isAddress_chars h) hcolon
    have hcontains : s.contains ':' = true := by simpa using hcolon
    simp only [wellFormedAddress, hcontains, Bool.not_true, Bool.false_or, if_true]
    cases hgroups : ipv6Groups s with
    | none => simp [hparse, hgroups]
    | some gs =>
      rw [hgroups] at hparse
      exact ⟨_, hparse, rfl, rfl⟩
  · have hcontains : s.contains ':' = false := by simpa using hcolon
    have hdotted : isDotted s = true := by
      simp only [isAddress, or_eq_true, and_eq_true, hcontains] at h
      rcases h with h | h
      · exact isDotted_of_text h
      · cases h.1.2
    simp only [wellFormedAddress, hcontains, Bool.not_false, Bool.true_or, if_true]
    exact ⟨_, (parseAddr_dotted hdotted).1, rfl, rfl⟩

variable {e a : List Char}

theorem splitOn_one (h : e.splitOn '/' = [a]) : e = a ∧ '/' ∉ a := by
  have htext : ['/'].intercalate (e.splitOn '/') = e := intercalate_splitOn '/'
  rw [h, intercalate_singleton] at htext
  exact ⟨htext.symm, not_sep_of_mem_splitOn (h ▸ mem_singleton_self a)⟩

variable {b : List Char}

theorem splitOn_two (h : e.splitOn '/' = [a, b]) : e = a ++ '/' :: b ∧ '/' ∉ b := by
  have htext : ['/'].intercalate (e.splitOn '/') = e := intercalate_splitOn '/'
  rw [h, intercalate_cons_cons, intercalate_singleton] at htext
  have hfield : b ∈ e.splitOn '/' := by
    rw [h]
    exact mem_cons_of_mem _ (mem_singleton_self b)
  exact ⟨by simpa using htext.symm, not_sep_of_mem_splitOn hfield⟩

theorem cutLastSlash_append (h : '/' ∉ b) : cutLastSlash (a ++ '/' :: b) = some (a, b) := by
  unfold cutLastSlash
  rw [if_pos (by simp), (Trimming.cut_last h).1, (Trimming.cut_last h).2]

/-- Of the entries that the form lets through, Go reads the well-formed ones. -/
theorem parseProxy_iff (h : entryError e = none) :
    (∃ p, parseProxy e = .ok p) ↔ wellFormedEntry e = true := by
  unfold entryError at h
  split at h
  · rename_i a hsplit
    obtain ⟨rfl, hslash⟩ := splitOn_one hsplit
    split at h
    · rename_i haddress
      have hread := parseAddr_isAddress haddress
      have hprefix : parsePrefix e = none := by
        unfold parsePrefix cutLastSlash
        rw [if_neg hslash]
      simp only [wellFormedEntry, hsplit, parseProxy, hprefix]
      split at hread
      · rename_i hwell
        obtain ⟨a, hparse, -, -⟩ := hread
        simp [hparse, hwell]
      · rename_i hwell
        simp [hread, hwell]
    · cases h
  · rename_i a bits hsplit
    obtain ⟨rfl, hslash⟩ := splitOn_two hsplit
    split at h
    · cases h
    · rename_i haddress
      have haddress : isAddress a = true := by simpa using haddress
      by_cases hbits : (bits.isEmpty || !bits.all isDigit ||
          decide ((if a.contains ':' then 128 else 32) < decimal bits)) = true
      · rw [if_pos hbits] at h
        cases h
      · simp only [or_eq_true, Bool.not_eq_true', decide_eq_true_eq, not_or,
          Bool.not_eq_true, isEmpty_eq_false_iff, Bool.not_eq_false, not_lt] at hbits
        obtain ⟨⟨hne, hdigits⟩, hmax⟩ := hbits
        have hread := parseAddr_isAddress haddress
        have hwhole : parseAddr (a ++ '/' :: bits) = none := by
          refine parseAddr_slash (by simp) fun c hc => ?_
          rcases mem_append.mp hc with hc | hc
          · exact .inl (isAddress_chars haddress c hc)
          · rcases mem_cons.mp hc with rfl | hc
            · exact .inr rfl
            · exact .inl (isAddressChar_of_digit (all_eq_true.mp hdigits c hc))
        have hplain : isPlainDecimal bits = (bits.length == 1 || bits.head? != some '0') := by
          simp [isPlainDecimal, hdigits, hne]
        simp only [wellFormedEntry, hsplit, parseProxy, parsePrefix, cutLastSlash_append hslash,
          hwhole]
        split at hread
        · rename_i hwell
          obtain ⟨x, hparse, hzone, hlen⟩ := hread
          rw [← hlen] at hmax
          simp only [hparse, hzone, ne_eq, not_true_eq_false, if_false, hplain, hwell,
            Bool.true_and]
          cases hzero : (bits.length == 1 || bits.head? != some '0') with
          | false => simp
          | true => simp [hmax]
        · rename_i hwell
          simp [hread, hwell]
  · cases h

end Chicoree.RateLimits
