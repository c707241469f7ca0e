import Chicoree.Web.ManifestReaders

/-! # Two readers of one manifest

registryd decodes a payload with names in any case and repeated members merged, and goes by
its media type; the web app keeps the last member of the exact name, and goes by which
fields there are. -/

namespace Chicoree.Web

open Registryd GoJson CodePoints List Manifest JsonDoc

/-! ## Members by their exact names -/

def exactText (k : String) (x : JsonDoc) : CodePoints :=
  match x.get? k with
  | some (.str s) => s
  | _ => []

def exactEntries (k : String) (doc : JsonDoc) : List JsonDoc :=
  match doc.get? k with
  | some (.arr xs) => xs
  | _ => []

def exactConfig (doc : JsonDoc) : Option JsonDoc :=
  match doc.get? "config" with
  | some (.obj members) => some (.obj members)
  | _ => none

def isNull : JsonDoc → Bool
  | .null => true
  | _ => false

def asText (s : String) : JsonDoc := .str (.ofString s)

variable {v : JsonDoc} {members : List (String × JsonDoc)}

theorem mem_of_last? {k : String} (h : last? k members = some v) : (k, v) ∈ members := by
  obtain ⟨m, hm, rfl⟩ := Option.map_eq_some_iff.mp h
  have hk := find?_some hm
  have hmem := mem_of_find?_eq_some hm
  simp only [decide_eq_true_eq] at hk
  rw [← hk]
  exact mem_reverse.mp hmem

theorem typed_member {σ : Type} {fs : List (StructField σ)} (h : typedMembers fs members = true)
    {k : String} {f : StructField σ} (hf : fieldFor fs k = some f) (hv : last? k members = some v) :
    f.typed v = true := by
  have hmem := all_eq_true.mp h (k, v) (mem_of_last? hv)
  simpa [hf] using hmem

section

variable {x : JsonDoc} {k : String} (h : descriptorTyped x = true)
  (hk : k = "digest" ∨ k = "mediaType")
include h hk

theorem text_member :
    x.get? k = none ∨ x.get? k = some .null ∨ x.get? k = some (.str (exactText k x)) := by
  cases hv : x.get? k with
  | none => exact .inl rfl
  | some v =>
    refine .inr ?_
    cases x with
    | obj members =>
      have hv' : last? k members = some v := hv
      have hfield : ∃ f, fieldFor descriptorFields k = some f ∧ f.typed = stringTyped := by
        rcases hk with rfl | rfl <;> exact ⟨_, rfl, rfl⟩
      obtain ⟨f, hf, htyped⟩ := hfield
      have ht := typed_member h hf hv'
      rw [htyped] at ht
      cases v <;> simp only [stringTyped, Bool.false_eq_true] at ht
      · exact .inl rfl
      · exact .inr (by simp [exactText, hv])
    | _ => cases hv

theorem text_of_nonempty (hne : (exactText k x).isEmpty = false) :
    x.get? k = some (.str (exactText k x)) := by
  rcases text_member h hk with hv | hv | hv
  · simp [exactText, hv] at hne
  · simp [exactText, hv] at hne
  · exact hv

theorem truthy_text : truthy (x.get? k) = !(exactText k x).isEmpty := by
  rcases text_member h hk with hv | hv | hv
  · simp [exactText, hv, truthy]
  · simp [exactText, hv, truthy]
  · rw [hv]
    rfl

end

variable {doc : JsonDoc}

/-- A payload the decoder takes: an object whose fields have their shapes, or `null`. -/
theorem shape_of_typed (h : structTyped rawFields doc = true) :
    doc = .null ∨ ∃ members, doc = .obj members ∧
      (doc.get? "config" = none ∨ doc.get? "config" = some .null ∨
        ∃ x, exactConfig doc = some x ∧ doc.get? "config" = some x ∧
          descriptorTyped x = true ∧ isNull x = false) ∧
      ∀ k, k = "layers" ∨ k = "manifests" → (doc.get? k = none ∨ doc.get? k = some .null ∨
          doc.get? k = some (.arr (exactEntries k doc))) ∧
        ∀ x ∈ exactEntries k doc, descriptorTyped x = true := by
  cases doc with
  | null => exact .inl rfl
  | obj members =>
    refine .inr ⟨members, rfl, ?_, ?_⟩
    · cases hv : (obj members).get? "config" with
      | none => exact .inl rfl
      | some v =>
        have ht := typed_member h (k := "config") rfl hv
        have ht : descriptorTyped v = true := ht
        cases v with
        | null => exact .inr (.inl rfl)
        | obj ms => exact .inr (.inr ⟨.obj ms, by simp [exactConfig, hv], rfl, ht, rfl⟩)
        | _ => cases ht
    · intro k hk
      have hfield : ∃ f, fieldFor rawFields k = some f ∧
          f.typed = sliceTyped descriptorTyped := by
        rcases hk with rfl | rfl <;> exact ⟨_, rfl, rfl⟩
      obtain ⟨f, hf, htyped⟩ := hfield
      cases hv : (obj members).get? k with
      | none =>
        refine ⟨.inl rfl, ?_⟩
        simp [exactEntries, hv]
      | some v =>
        have ht := typed_member h hf hv
        rw [htyped] at ht
        cases v with
        | null =>
          refine ⟨.inr (.inl rfl), ?_⟩
          simp [exactEntries, hv]
        | arr xs =>
          refine ⟨.inr (.inr ?_), ?_⟩
          · simp [exactEntries, hv]
          · simp only [exactEntries, hv]
            exact all_eq_true.mp ht
        | _ => cases ht
  | _ => cases h

/-! ## What the readers find -/

variable {xs : List JsonDoc}

theorem propOfAll_eq {k : String} :
    propOfAll k xs = if xs.any isNull then none else some (xs.map fun x => x.get? k) := by
  induction xs with
  | nil => rfl
  | cons x xs ih =>
    unfold propOfAll
    rw [ih]
    cases x <;> simp only [prop, isNull, any_cons, Bool.true_or, Bool.false_or, if_true]
    all_goals
      by_cases hnull : xs.any isNull = true
      · simp [hnull]
      · simp [hnull]

def exactDigests (xs : List JsonDoc) : List CodePoints :=
  (xs.map (exactText "digest")).filter fun d => !d.isEmpty

theorem truthyOnes_eq (h : ∀ x ∈ xs, descriptorTyped x = true) :
    truthyOnes (xs.map fun x => x.get? "digest") = (exactDigests xs).map .str := by
  induction xs with
  | nil => rfl
  | cons x xs ih =>
    have hx := h x (mem_cons_self ..)
    have hxs := ih fun y hy => h y (mem_cons_of_mem _ hy)
    unfold truthyOnes exactDigests at hxs ⊢
    have htruthy := truthy_text hx (.inl rfl)
    rw [map_cons, filterMap_cons, map_cons, filter_cons, htruthy]
    cases hempty : (exactText "digest" x).isEmpty with
    | true => simpa using hxs
    | false =>
      rw [text_of_nonempty hx (.inl rfl) hempty]
      simpa using hxs

def foreignText (s : CodePoints) : Bool :=
  containsList (ofString "foreign") s ||
    containsList (ofString "nondistributable") s

def exactBlobs (doc : JsonDoc) : List CodePoints :=
  (((exactConfig doc).toList ++ exactEntries "layers" doc).filter fun x =>
    !(exactText "digest" x).isEmpty && !foreignText (exactText "mediaType" x)).map
      (exactText "digest")

theorem keeps_blob {x : JsonDoc} (h : descriptorTyped x = true) :
    (truthy (optProp "digest" (some x)) &&
      !(truthy (optProp "mediaType" (some x)) && matchesForeign (optProp "mediaType" (some x)))) =
    (!(exactText "digest" x).isEmpty && !foreignText (exactText "mediaType" x)) := by
  have hprop : ∀ k, optProp k (some x) = x.get? k := by
    intro k
    cases x <;> rfl
  rw [hprop, hprop, truthy_text h (.inl rfl)]
  congr 1
  rcases text_member h (.inr rfl) with hv | hv | hv
  · have hempty : foreignText [] = false := by decide
    simp [hv, truthy, exactText, hempty]
  · have hempty : foreignText [] = false := by decide
    simp [hv, truthy, exactText, hempty]
  · rw [hv]
    cases hs : exactText "mediaType" x with
    | nil => decide
    | cons c cs => simp [truthy, matchesForeign, foreignText]

theorem blobDigests_eq (h : ∀ x ∈ xs, descriptorTyped x = true) :
    ((((xs.map some).filter fun d => truthy (optProp "digest" d)).filter
        fun d => !(truthy (optProp "mediaType" d) && matchesForeign (optProp "mediaType" d))
        ).filterMap fun d => optProp "digest" d) =
      ((xs.filter fun x => !(exactText "digest" x).isEmpty &&
        !foreignText (exactText "mediaType" x)).map (exactText "digest")).map .str := by
  induction xs with
  | nil => rfl
  | cons x xs ih =>
    have hx := h x (mem_cons_self ..)
    have hxs := ih fun y hy => h y (mem_cons_of_mem _ hy)
    rw [filter_filter] at hxs ⊢
    have hkeeps := keeps_blob hx
    rw [Bool.and_comm] at hkeeps
    rw [map_cons, filter_cons, filter_cons, hkeeps]
    split
    · rename_i hkeep
      simp only [Bool.and_eq_true, Bool.not_eq_true', isEmpty_eq_false_iff] at hkeep
      have hdigest : optProp "digest" (some x) = some (.str (exactText "digest" x)) := by
        have hprop : optProp "digest" (some x) = x.get? "digest" := by cases x <;> rfl
        rw [hprop]
        exact text_of_nonempty hx (.inl rfl) (isEmpty_eq_false_iff.mpr hkeep.1)
      rw [filterMap_cons, hdigest]
      simp only [map_cons, List.cons.injEq, true_and]
      exact hxs
    · exact hxs

section readers

variable {members : List (String × JsonDoc)}

section

variable (h : structTyped rawFields (.obj members) = true)
include h

theorem object_shape : (∀ x, exactConfig (.obj members) = some x → descriptorTyped x = true) ∧
      ∀ k, k = "layers" ∨ k = "manifests" →
        ∀ x ∈ exactEntries k (.obj members), descriptorTyped x = true := by
  rcases shape_of_typed h with hnull | ⟨ms, -, hconfig, hentries⟩
  · cases hnull
  · refine ⟨fun x hx => ?_, fun k hk => (hentries k hk).2⟩
    rcases hconfig with hc | hc | ⟨y, hy, -, ht, -⟩
    · simp [exactConfig, hc] at hx
    · simp [exactConfig, hc] at hx
    · rw [hy] at hx
      cases hx
      exact ht

theorem elements_layers :
    elements ((obj members).get? "layers") =
      some (exactEntries "layers" (.obj members)) := by
  rcases shape_of_typed h with hnull | ⟨ms, -, -, hentries⟩
  · cases hnull
  · rcases (hentries "layers" (.inl rfl)).1 with hv | hv | hv
    · simp [elements, exactEntries, hv]
    · simp [elements, exactEntries, hv]
    · rw [hv]
      rfl

theorem blobsOf_eq :
    blobsOf (some (.obj members)) = some ((exactBlobs (.obj members)).map .str) := by
  obtain ⟨-, hentries⟩ := object_shape h
  have hlayers := hentries "layers" (.inl rfl)
  show (elements ((obj members).get? "layers")).map _ = _
  rw [elements_layers h, Option.map_some]
  have hparsed : parseManifest (some (.obj members)) = .obj members := rfl
  rw [hparsed]
  congr 1
  rcases shape_of_typed h with hnull | ⟨ms, -, hc, -⟩
  · cases hnull
  · rcases hc with hc | hc | ⟨x, hx, hc, ht, -⟩
    · have hnone : exactConfig (.obj members) = none := by simp [exactConfig, hc]
      rw [hc, exactBlobs, hnone]
      exact blobDigests_eq hlayers
    · have hnone : exactConfig (.obj members) = none := by simp [exactConfig, hc]
      rw [hc, exactBlobs, hnone]
      exact blobDigests_eq hlayers
    · rw [hc, exactBlobs, hx]
      refine @blobDigests_eq (x :: exactEntries "layers" (.obj members)) ?_
      intro y hy
      rcases mem_cons.mp hy with rfl | hy
      · exact ht
      · exact hlayers y hy

theorem childrenOf_eq :
    childrenOf (some (.obj members)) =
      if (exactEntries "manifests" (.obj members)).any isNull then none
      else some ((exactDigests (exactEntries "manifests" (.obj members))).map .str) := by
  rcases shape_of_typed h with hnull | ⟨ms, -, -, hentries⟩
  · cases hnull
  · obtain ⟨hshape, htyped⟩ := hentries "manifests" (.inr rfl)
    have hprop : prop "manifests" (parseManifest (some (.obj members))) =
        some ((obj members).get? "manifests") := rfl
    unfold childrenOf
    rw [hprop]
    rcases hshape with hv | hv | hv
    · simp [hv, exactEntries, exactDigests]
    · simp [hv, exactEntries, exactDigests]
    · rw [hv]
      dsimp only
      rw [propOfAll_eq]
      split
      · rfl
      · rw [Option.map_some, truthyOnes_eq htyped]

theorem policyChildren_eq :
    coveredChildren (some (.obj members)) = childrenOf (some (.obj members)) ∧
      blockChildren (some (.obj members)) = (childrenOf (some (.obj members))).getD [] := by
  rcases shape_of_typed h with hnull | ⟨ms, -, -, hentries⟩
  · cases hnull
  · have hprop : prop "manifests" (parseManifest (some (.obj members))) =
        some ((obj members).get? "manifests") := rfl
    have hprop' : prop "manifests" (.obj members) =
        some ((obj members).get? "manifests") := rfl
    unfold coveredChildren blockChildren childrenOf parsedRow
    rw [hprop]
    dsimp only
    rw [hprop']
    rcases (hentries "manifests" (.inr rfl)).1 with hv | hv | hv
    · rw [hv]
      exact ⟨rfl, rfl⟩
    · rw [hv]
      exact ⟨rfl, rfl⟩
    · rw [hv]
      exact ⟨rfl, rfl⟩

theorem layerMediaTypes_eq :
    layerMediaTypes (some (.obj members)) =
      if (exactEntries "layers" (.obj members)).any isNull then none
      else some ((exactEntries "layers" (.obj members)).map
        fun x => .str (exactText "mediaType" x)) := by
  rcases shape_of_typed h with hnull | ⟨ms, -, -, hentries⟩
  · cases hnull
  · obtain ⟨hshape, htyped⟩ := hentries "layers" (.inl rfl)
    unfold layerMediaTypes parsedRow
    rcases hshape with hv | hv | hv
    · simp [hv, exactEntries]
    · simp [hv, exactEntries]
    · rw [hv]
      dsimp only
      rw [propOfAll_eq]
      split
      · rfl
      · rw [Option.map_some, map_map]
        refine congrArg some (map_congr_left fun x hx => ?_)
        show orEmpty (x.get? "mediaType") = .str (exactText "mediaType" x)
        rcases text_member (htyped x hx) (.inr rfl) with hm | hm | hm
        · rw [exactText, hm]
          rfl
        · rw [exactText, hm]
          rfl
        · rw [hm]
          rfl

theorem configMediaType_eq {s : CodePoints} (hs : s ≠ []) :
    configMediaType (some (.obj members)) = some (.str s) ↔
      ∃ x, exactConfig (.obj members) = some x ∧ exactText "mediaType" x = s := by
  unfold configMediaType parsedRow
  rcases shape_of_typed h with hnull | ⟨ms, -, hc, -⟩
  · cases hnull
  · rcases hc with hc | hc | ⟨x, hx, hc, ht, hnull⟩
    · simp [hc, exactConfig, optProp]
    · simp [hc, exactConfig, optProp]
    · have hprop : optProp "mediaType" (some x) = x.get? "mediaType" := by cases x <;> rfl
      rw [hc, hprop, hx]
      rcases text_member ht (.inr rfl) with hm | hm | hm
      · simp [hm, exactText, hs.symm]
      · simp [hm, exactText, hs.symm]
      · rw [hm]
        simp

end

end readers

/-- The web app reads a stored payload as registryd parsed it: an index by its media type
and with its children, which it copies, follows for blocks and covers with a signature; the
blobs it copies; and the media types of an image. -/
structure ReadsAlike (p : Manifest.Parsed) (payload : Option JsonDoc) : Prop where
  index : isIndexRow p.mediaType = p.isIndex
  children : childrenOf payload = some (p.children.map fun c => asText c.digest)
  blobs : blobsOf payload = some (p.blobs.map asText)
  blocked : p.isIndex = true → blockChildren payload = p.children.map fun c => asText c.digest
  covered : p.isIndex = true →
    coveredChildren payload = some (p.children.map fun c => asText c.digest)
  layers : p.isIndex = false →
    layerMediaTypes payload = some (p.layers.map fun l => asText l.mediaType)
  config : p.isIndex = false → configMediaType payload = p.config.map fun c => asText c.mediaType

def required (raw : Manifest.RawManifest) : List Manifest.Descriptor :=
  raw.layers.elems.filter fun l => !isForeignLayer l.mediaType

def ownLayers (doc : JsonDoc) : List JsonDoc :=
  (exactEntries "layers" doc).filter fun x => !foreignText (exactText "mediaType" x)

/-- For an index: the digests under the exact names are those registryd decodes, no entry is
`null`, and no config or layer has a digest. -/
structure AlikeIndex (doc : JsonDoc) (raw : Manifest.RawManifest) : Prop where
  children : exactDigests (exactEntries "manifests" doc) =
    raw.manifests.elems.map fun c => ofString c.digest
  present : (exactEntries "manifests" doc).any isNull = false
  noBlobs : exactBlobs doc = []

/-- For an image: config and layers under the exact names are those registryd decodes, none
is `null` and the config is not foreign, and `manifests` has neither digest nor `null`. -/
structure AlikeImage (doc : JsonDoc) (raw : Manifest.RawManifest) : Prop where
  config : ∃ x c, exactConfig doc = some x ∧ raw.config = some c ∧
    exactText "digest" x = ofString c.digest ∧ exactText "mediaType" x = ofString c.mediaType ∧
        isForeignLayer c.mediaType = false
  present : (exactEntries "layers" doc).any isNull = false
  layerTypes : (exactEntries "layers" doc).map (exactText "mediaType") =
    raw.layers.elems.map fun l => ofString l.mediaType
  layerDigests : (ownLayers doc).map (exactText "digest") =
    (required raw).map fun l => ofString l.digest
  noChildren : exactDigests (exactEntries "manifests" doc) = []
  noNullChild : (exactEntries "manifests" doc).any isNull = false

/-- **The condition on a payload.** It is an object, and for the fields of its kind both
languages' decoders keep the same. -/
def Alike (contentType : String) (doc : JsonDoc) : Prop :=
  ∃ members raw, doc = .obj members ∧ unmarshal doc = some raw ∧
    if isIndexType (mediaTypeOf contentType raw) then AlikeIndex doc raw
    else AlikeImage doc raw

theorem isPrefixOf_map {α β : Type} [DecidableEq α] [DecidableEq β] {f : α → β}
    (hf : Function.Injective f) (part xs : List α) :
    (part.map f).isPrefixOf (xs.map f) = part.isPrefixOf xs := by
  rw [Bool.eq_iff_iff, isPrefixOf_iff_prefix, isPrefixOf_iff_prefix]
  exact prefix_map_iff_of_injective hf

theorem containsList_map {α β : Type} [DecidableEq α] [DecidableEq β] {f : α → β}
    (hf : Function.Injective f) (part xs : List α) :
    containsList (part.map f) (xs.map f) = containsList part xs := by
  induction xs with
  | nil => cases part <;> rfl
  | cons x xs ih =>
    have hpre := isPrefixOf_map hf part (x :: xs)
    rw [map_cons] at hpre
    simp only [map_cons, containsList, hpre, ih]

theorem foreignText_ofString (s : String) : foreignText (ofString s) = isForeignLayer s := by
  have hinj : Function.Injective Char.toNat := fun a b h => Char.toNat_inj.mp h
  unfold foreignText isForeignLayer ofString
  rw [containsList_map hinj, containsList_map hinj]

/-! ## What registryd parsed -/

theorem validateDescriptor_ok {d : Manifest.Descriptor}
    (h : validateDescriptor d = .ok ()) : d.digest ≠ "" ∧ d.mediaType ≠ "" := by
  unfold validateDescriptor at h
  split at h
  · cases h
  · rename_i hdigest
    split at h
    · cases h
    · exact ⟨fun he => hdigest (.inl he), ‹_›⟩

theorem validateAll_ok {ds : List Manifest.Descriptor} (h : validateAll ds = .ok ()) :
    ∀ d ∈ ds, d.digest ≠ "" ∧ d.mediaType ≠ "" := by
  induction ds with
  | nil => simp
  | cons d ds ih =>
    unfold validateAll at h
    split at h
    · cases h
    · rename_i hd
      intro x hx
      rcases mem_cons.mp hx with rfl | hx
      · exact validateDescriptor_ok hd
      · exact ih h x hx

variable {mt : String} {p : Manifest.Parsed}

theorem isIndexRow_eq (h : isIndexType mt = true ∨ isImageType mt = true) :
    isIndexRow mt = isIndexType mt := by
  unfold isIndexType isImageType at h
  simp only [decide_eq_true_eq] at h
  rcases h with (rfl | rfl) | (rfl | rfl) <;> decide +kernel

/-- What registryd keeps of an image. -/
structure ImageFields (raw : Manifest.RawManifest) (p : Manifest.Parsed) : Prop where
  isIndex : p.isIndex = false
  children : p.children = []
  layers : p.layers = raw.layers.elems
  config : p.config = raw.config
  present : ∃ c, raw.config = some c ∧ c.digest ≠ "" ∧ c.mediaType ≠ ""
  valid : ∀ l ∈ raw.layers.elems, l.digest ≠ "" ∧ l.mediaType ≠ ""

/-- What registryd keeps of an index. -/
structure IndexFields (raw : Manifest.RawManifest) (p : Manifest.Parsed) : Prop where
  isIndex : p.isIndex = true
  children : p.children = raw.manifests.elems
  config : p.config = none
  layers : p.layers = []

theorem readFields_cases {raw : Manifest.RawManifest} (h : readFields mt raw = .ok p) :
    isIndexRow p.mediaType = p.isIndex ∧ ((isIndexType mt = true ∧ IndexFields raw p) ∨
        (isIndexType mt = false ∧ ImageFields raw p)) := by
  unfold readFields at h
  split at h
  · rename_i hindex
    split at h <;> cases h
    exact ⟨(isIndexRow_eq (.inl hindex)).trans hindex, .inl ⟨hindex, rfl, rfl, rfl, rfl⟩⟩
  · rename_i hindex
    have hindex : isIndexType mt = false := Bool.eq_false_iff.mpr hindex
    split at h
    · rename_i himage
      split at h
      · cases h
      · rename_i c hc
        split at h
        · cases h
        · rename_i hvalid
          cases h
          have hall := validateAll_ok hvalid
          refine ⟨(isIndexRow_eq (.inr himage)).trans hindex, .inr ⟨hindex, rfl, rfl, rfl, ?_,
            ⟨c, hc, hall c (mem_cons_self ..)⟩, fun l hl => ?_⟩⟩
          · exact hc.symm
          · exact hall l (mem_cons_of_mem _ hl)
    · cases h

theorem parse_cases {ct : String} (h : parse ct (some doc) = .ok p) :
    ∃ raw, unmarshal doc = some raw ∧ isIndexRow p.mediaType = p.isIndex ∧
      ((isIndexType (mediaTypeOf ct raw) = true ∧ IndexFields raw p) ∨
        (isIndexType (mediaTypeOf ct raw) = false ∧ ImageFields raw p)) := by
  unfold parse at h
  split at h
  · cases h
  · rename_i raw hraw
    dsimp only at h
    split at h
    · cases h
    · split at h
      · cases h
      · rename_i p' hfields
        split at h <;> cases h
        exact ⟨raw, hraw, readFields_cases hfields⟩

theorem typed_of_unmarshal {raw : Manifest.RawManifest}
    (h : unmarshal doc = some raw) : structTyped rawFields doc = true := by
  unfold unmarshal at h
  split at h
  · assumption
  · cases h

theorem map_str_injective : Function.Injective (List.map str) :=
  map_injective_iff.mpr fun _ _ h => str.inj h

section kinds

variable {members : List (String × JsonDoc)} {raw : Manifest.RawManifest} {p : Manifest.Parsed}

theorem readsAlike_index (htyped : structTyped rawFields (.obj members) = true)
    (hrow : isIndexRow p.mediaType = p.isIndex) (hp : IndexFields raw p) :
    ReadsAlike p (some (.obj members)) ↔ AlikeIndex (.obj members) raw := by
  obtain ⟨hindex, hchildren, hconfig, hlayers⟩ := hp
  have hblobs : p.blobs = [] := by
    unfold Manifest.Parsed.blobs
    rw [hconfig, hlayers]
    rfl
  have htexts : (p.children.map fun c => asText c.digest) =
      (raw.manifests.elems.map fun c => ofString c.digest).map .str := by
    rw [hchildren, map_map]
    rfl
  obtain ⟨hcovered, hblocked⟩ := policyChildren_eq htyped
  constructor
  · intro h
    have hc := h.children
    rw [childrenOf_eq htyped, htexts] at hc
    split at hc
    · cases hc
    · rename_i hpresent
      refine ⟨map_str_injective (Option.some.inj hc), Bool.eq_false_iff.mpr hpresent, ?_⟩
      have hb := h.blobs
      rw [blobsOf_eq htyped, hblobs] at hb
      exact map_str_injective (Option.some.inj hb)
  · intro h
    have hc : childrenOf (some (.obj members)) =
        some (p.children.map fun c => asText c.digest) := by
      rw [childrenOf_eq htyped, h.present, htexts, ← h.children]
      rfl
    refine ⟨hrow, hc, ?_, fun _ => ?_, fun _ => hcovered.trans hc, ?_, ?_⟩
    · rw [blobsOf_eq htyped, hblobs, h.noBlobs]
      rfl
    · rw [hblocked, hc]
      rfl
    · simp [hindex]
    · simp [hindex]

/-! ## Images -/

theorem ofString_isEmpty {s : String} (h : s ≠ "") : (ofString s).isEmpty = false := by
  rw [isEmpty_eq_false_iff]
  intro hempty
  exact h (ofString_injective (hempty.trans rfl))

theorem length_filter_of_map_eq {α β γ : Type} {f : α → γ} {g : β → γ} {xs : List α}
    {ys : List β} (h : xs.map f = ys.map g) (p : γ → Bool) :
    (xs.filter fun x => p (f x)).length = (ys.filter fun y => p (g y)).length := by
  have hcount := congrArg (countP p) h
  rw [countP_map, countP_map, countP_eq_length_filter, countP_eq_length_filter] at hcount
  exact hcount

theorem exactBlobs_of_config {x : JsonDoc} (hx : exactConfig doc = some x) : exactBlobs doc =
      (if !(exactText "digest" x).isEmpty && !foreignText (exactText "mediaType" x) then
        [exactText "digest" x] else []) ++
      ((ownLayers doc).filter fun y => !(exactText "digest" y).isEmpty).map
        (exactText "digest") := by
  unfold exactBlobs ownLayers
  rw [hx, filter_filter, Option.toList_some, singleton_append, filter_cons]
  split <;> rfl

variable {c : Manifest.Descriptor}

theorem blobs_of_image (hp : ImageFields raw p) (hc : raw.config = some c) :
    p.blobs.map asText = ((c.digest :: (required raw).map (·.digest)).map
      ofString).map .str := by
  unfold Manifest.Parsed.blobs required
  rw [hp.config, hc, hp.layers, map_map]
  rfl

theorem blobs_agree {x : JsonDoc} (hx : exactConfig doc = some x)
    (hmt : exactText "mediaType" x = ofString c.mediaType)
    (htypes : (exactEntries "layers" doc).map (exactText "mediaType") =
      raw.layers.elems.map fun l => ofString l.mediaType)
    (hblobs : exactBlobs doc = (c.digest :: (required raw).map (·.digest)).map ofString) :
    exactText "digest" x = ofString c.digest ∧ isForeignLayer c.mediaType = false ∧
        (ownLayers doc).map (exactText "digest") =
          (required raw).map fun l => ofString l.digest := by
  have hown : (ownLayers doc).length = (required raw).length := by
    have hlen := length_filter_of_map_eq htypes fun s => !foreignText s
    simp only [foreignText_ofString] at hlen
    exact hlen
  rw [exactBlobs_of_config hx] at hblobs
  have hle : ((ownLayers doc).filter fun y => !(exactText "digest" y).isEmpty).length ≤
      (ownLayers doc).length := length_filter_le ..
  have hlen := congrArg List.length hblobs
  simp only [length_append, length_map, length_cons] at hlen
  split at hblobs
  · rename_i hkeep
    simp only [Bool.and_eq_true, Bool.not_eq_true'] at hkeep
    have hall : ((ownLayers doc).filter fun y => !(exactText "digest" y).isEmpty) =
        ownLayers doc := by
      refine filter_sublist.eq_of_length ?_
      simp only [hkeep, Bool.not_false, Bool.and_self, if_true, length_singleton] at hlen
      omega
    rw [hall] at hblobs
    simp only [singleton_append, map_cons, List.cons.injEq, map_map] at hblobs
    refine ⟨hblobs.1, ?_, hblobs.2⟩
    rw [← foreignText_ofString, ← hmt]
    exact hkeep.2
  · rename_i hskip
    simp only [hskip, Bool.false_eq_true, if_false, length_nil] at hlen
    omega

theorem readsAlike_image (htyped : structTyped rawFields (.obj members) = true)
    (hrow : isIndexRow p.mediaType = p.isIndex) (hp : ImageFields raw p) :
    ReadsAlike p (some (.obj members)) ↔ AlikeImage (.obj members) raw := by
  obtain ⟨c, hc, hdigest, hmediaType⟩ := hp.present
  have hblobs := blobs_of_image hp hc
  have hconfigType : (p.config.map fun c => asText c.mediaType) =
      some (.str (ofString c.mediaType)) := by
    rw [hp.config, hc]
    rfl
  have hlayerTypes : (p.layers.map fun l => asText l.mediaType) =
      (raw.layers.elems.map fun l => ofString l.mediaType).map .str := by
    rw [hp.layers, map_map]
    rfl
  have hmt : ofString c.mediaType ≠ [] := isEmpty_eq_false_iff.mp (ofString_isEmpty hmediaType)
  constructor
  · intro h
    have hlayers := h.layers hp.isIndex
    rw [layerMediaTypes_eq htyped, hlayerTypes] at hlayers
    split at hlayers
    · cases hlayers
    · rename_i hpresent
      have htypes := Option.some.inj hlayers
      have htypes := map_str_injective ((map_map ..).trans htypes)
      obtain ⟨x, hx, hxmt⟩ :=
        (configMediaType_eq htyped hmt).mp ((h.config hp.isIndex).trans hconfigType)
      have hb := h.blobs
      rw [blobsOf_eq htyped, hblobs] at hb
      obtain ⟨hxd, hforeign, hown⟩ :=
        blobs_agree hx hxmt htypes (map_str_injective (Option.some.inj hb))
      have hch := h.children
      rw [childrenOf_eq htyped, hp.children] at hch
      split at hch
      · cases hch
      · rename_i hnull
        exact ⟨⟨x, c, hx, hc, hxd, hxmt, hforeign⟩, Bool.eq_false_iff.mpr hpresent, htypes,
          hown, map_str_injective (Option.some.inj hch), Bool.eq_false_iff.mpr hnull⟩
  · intro h
    obtain ⟨x, c', hx, hc', hxd, hxmt, hforeign⟩ := h.config
    rw [hc] at hc'
    cases hc'
    refine ⟨hrow, ?_, ?_, ?_, ?_, fun _ => ?_, fun _ => ?_⟩
    · rw [childrenOf_eq htyped, h.noNullChild, h.noChildren, hp.children]
      rfl
    · have hkeep : (!(exactText "digest" x).isEmpty &&
          !foreignText (exactText "mediaType" x)) = true := by
        rw [hxd, hxmt, foreignText_ofString, hforeign, ofString_isEmpty hdigest]
        rfl
      have hall : ((ownLayers (.obj members)).filter
          fun y => !(exactText "digest" y).isEmpty) = ownLayers (.obj members) := by
        refine filter_eq_self.mpr fun y hy => ?_
        have hmem : exactText "digest" y ∈ (required raw).map fun l => ofString l.digest := by
          rw [← h.layerDigests]
          exact mem_map_of_mem hy
        obtain ⟨l, hl, hyl⟩ := mem_map.mp hmem
        rw [← hyl, ofString_isEmpty (hp.valid l (mem_filter.mp hl).1).1]
        rfl
      rw [blobsOf_eq htyped, hblobs, exactBlobs_of_config hx, if_pos hkeep, hall,
        h.layerDigests, hxd]
      simp [map_map, Function.comp_def]
    · simp [hp.isIndex]
    · simp [hp.isIndex]
    · rw [layerMediaTypes_eq htyped, h.present, hlayerTypes, ← h.layerTypes, map_map]
      rfl
    · exact ((configMediaType_eq htyped hmt).mpr ⟨x, hx, hxmt⟩).trans hconfigType.symm

end kinds

def childDigest : String :=
  "sha256:6e340b9cffb37a989ca544e6bb780a2c78901d3fb33738768511a30617afa01d"

def indexNaming (name : String) : JsonDoc :=
  .obj [("schemaVersion", .int 2), ("mediaType", asText mediaTypeOCIIndex),
    (name, .arr [.obj [("mediaType", asText mediaTypeOCIManifest),
      ("digest", asText childDigest), ("size", .int 2)]])]

def oneChild : Manifest.Parsed where
  mediaType := mediaTypeOCIIndex
  artifactType := ""
  isIndex := true
  children := [{ mediaType := mediaTypeOCIManifest, digest := childDigest, size := 2 }]

end Chicoree.Web
