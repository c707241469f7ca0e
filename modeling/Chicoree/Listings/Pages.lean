import Mathlib.Data.List.Lex
import Mathlib.Data.String.Basic
import Mathlib.Data.Sum.Order
import Chicoree.Lib.Doubles
import Chicoree.Lib.OrderedPages
import Chicoree.RateLimits.Form

/-! # Pages of a listing

A page and its size are read from the request, and `paginatedQuery` cuts the page out of the
rows, in one query for each page. The database orders rows of one key as it likes.

* `Request` is what is asked for: the API reads both numbers (`pageParams`), the app's own pages
  the page alone (`parsePage`).
* `Listing` has every listing that is read in pages, `orderBy` what is behind its `ORDER BY`.
* `Partitions` is the promise and `Steady` the condition; `pages_partition_iff` says that they
  are the same, of every listing. -/

namespace Chicoree.Listings

open List Doubles OrderedPages

/-! ## The request -/

/-- `Math.trunc(Number(text))`, where it is positive. -/
def positiveNumber (text : String) : Option Whole :=
  match Number.ofText (RateLimits.trim text.toList) with
  | .finite false m e =>
    let n := m * 2 ^ e.toNat / 2 ^ (-e).toNat
    if 0 < n then some (.whole n) else none
  | .infinity false => some .infinity
  | _ => none

/-- The page that is asked for and how many rows it has. -/
structure PageParams where
  page : Whole
  pageSize : Nat

/-- `pageParams` of the API: the texts of `page` and `per_page`, where they are given. -/
def pageParams (page perPage : Option String) (defaultSize max : Nat) : PageParams where
  page := (page.bind positiveNumber).getD (.whole 1)
  pageSize :=
    match perPage.map positiveNumber with
    | none => min defaultSize max
    | some (some (.whole n)) => min n.toNat max
    | some _ => defaultSize

/-- `parsePage` of the app: a safe integer that is positive, or the first page. -/
def parsePage (value : Option String) : Whole :=
  match (Number.ofText (RateLimits.trim (value.getD "").toList)).whole? with
  | some n => if 0 < n ∧ n < 2 ^ 53 then .whole n else .whole 1
  | none => .whole 1

/-- A request for a page, in the API or in the app, where the size is the listing's own. -/
inductive Request where
  | api (page perPage : Option String) (defaultSize max : Nat)
  | app (page : Option String) (pageSize : Nat)

def Request.params : Request → PageParams
  | .api page perPage defaultSize max => pageParams page perPage defaultSize max
  | .app page pageSize => ⟨parsePage page, pageSize⟩

/-- What a page says of itself beside its rows. -/
structure PageState where
  page : Nat
  pageSize : Nat
  total : Nat
  pages : Nat
  offset : Nat
  first : Nat
  last : Nat
  hasPrev : Bool
  hasNext : Bool

/-- `paginate` of a size that is positive. -/
def paginate (total : Nat) (requested : Whole) (size : Nat) : PageState :=
  let pages := max 1 ((total + size - 1) / size)
  let page :=
    match requested with
    | .whole n => min (max 1 n.toNat) pages
    | .infinity => pages
    | .nan => 1
  let offset := (page - 1) * size
  { page := page, pageSize := size, total := total, pages := pages, offset := offset
    first := if total = 0 then 0 else offset + 1
    last := min total (offset + size)
    hasPrev := decide (1 < page), hasNext := decide (page < pages) }

/-- A `bigint` of the database, which takes no other number. -/
def toBigint : Whole → Option Nat
  | .whole n => if 0 ≤ n ∧ n < 2 ^ 63 then some n.toNat else none
  | _ => none

def isPage (requested : Whole) (page : Nat) : Bool :=
  match requested with
  | .whole n => decide (n = page)
  | _ => false

def firstOffset (p : PageParams) : Option Nat :=
  toBigint ((p.page.add (-1)).mul (max 1 p.pageSize))

variable {ρ : Type}

/-- One page; `none` where the database answers a query or the count with an error. -/
def paginatedQuery (rows : Nat → Nat → List ρ) (count : Option Nat) (p : PageParams) :
    Option (List ρ × PageState) :=
  let size := max 1 p.pageSize
  match firstOffset p, count with
  | some offset, some total =>
    let state := paginate total p.page size
    some (if isPage p.page state.page then rows size offset else rows size state.offset, state)
  | _, _ => none

/-! ## The listings

Texts are ordered by the database's collation, which tells different texts apart: `τ` are the
texts in that order. -/

/-- A row that is ordered by a time: a tag, a manifest, a block, an exception, a run, a user. -/
structure TimedRow (τ : Type) where
  id : τ
  time : Int

/-- An organization; `isMember` says whether the viewer is one of its members. -/
structure OrgRow (τ : Type) where
  slug : τ
  name : τ
  isMember : Bool

/-- A repository and its organization. -/
structure RepoRow (τ : Type) where
  orgSlug : τ
  name : τ
  updatedAt : Int
  pullCount : Nat

/-- A tag that a search finds, in its repository. -/
structure TagHit (τ : Type) where
  orgSlug : τ
  repoName : τ
  tag : τ
  updatedAt : Int

/-- An event or an entry of the audit log, numbered one after another. -/
structure EntryRow where
  id : Nat
  createdAt : Int

/-- A finding that is numbered `id`, under one tag whose image has it. -/
structure FindingHit (τ : Type) where
  id : Nat
  orgSlug : τ
  repoName : τ
  tag : τ
  digest : τ
  package : τ
  severity : String

inductive RepoSort where
  | updated
  | pulls
  | name

/-- The listings that are read through `paginatedQuery`. A search puts first what `begins` with
the query; the list of repositories does so where there is a query. -/
inductive Listing (τ : Type) where
  | listRepoTags
  | untaggedManifestsPage
  | listOrgs
  | listRepos (sort : RepoSort)
  | orgReposPage
  | listUserOrgsPage
  | listAdminOrganizations
  | searchRepositoriesPage (sort : RepoSort) (begins : Option (τ → Bool))
  | searchTagsPage (begins : τ → Bool)
  | searchDigestsPage
  | searchOrganizationsPage (begins : τ → Bool)
  | listUsers
  | listAdminUsers
  | blockedImages
  | listExceptions
  | searchFindings
  | jobRunsPage
  | mirrorRuns
  | recentActivity
  | queryAudit

variable {τ : Type}

/-- What a listing's rows are. -/
def Listing.Row : Listing τ → Type
  | .listRepoTags | .untaggedManifestsPage | .searchDigestsPage | .listUsers | .listAdminUsers
  | .blockedImages | .listExceptions | .jobRunsPage | .mirrorRuns => TimedRow τ
  | .listOrgs | .listUserOrgsPage | .listAdminOrganizations | .searchOrganizationsPage _ =>
    OrgRow τ
  | .listRepos _ | .orgReposPage | .searchRepositoriesPage _ _ => RepoRow τ
  | .searchTagsPage _ => TagHit τ
  | .searchFindings => FindingHit τ
  | .recentActivity | .queryAudit => EntryRow

/-- One expression of an `ORDER BY`: a number or a text. -/
abbrev SortKey (τ : Type) := Int ⊕ₗ τ

def ascending (n : Int) : SortKey τ := toLex (.inl n)

def descending (n : Int) : SortKey τ := toLex (.inl (-n))

def byText (s : τ) : SortKey τ := toLex (.inr s)

/-- A condition with `DESC`: what fulfils it comes first. -/
def trueFirst (b : Bool) : SortKey τ := descending (if b then 1 else 0)

/-- `SEVERITY_RANK_SQL` -/
def severityRank : String → Int
  | "Critical" => 0
  | "High" => 1
  | "Medium" => 2
  | "Low" => 3
  | "Negligible" => 4
  | _ => 5

/-- `repoOrder` -/
def repoOrder (sort : RepoSort) (begins : Option (τ → Bool)) (r : RepoRow τ) : List (SortKey τ) :=
  let boost := (begins.map fun begins => trueFirst (begins r.name)).toList
  match sort with
  | .name => boost ++ [byText r.orgSlug, byText r.name]
  | .updated => boost ++ [descending r.updatedAt, descending r.pullCount]
  | .pulls => boost ++ [descending r.pullCount, descending r.updatedAt]

/-- What is behind `ORDER BY`, from the first expression on. -/
def orderBy : (listing : Listing τ) → listing.Row → List (SortKey τ)
  | .listRepoTags => fun t : TimedRow τ => [descending t.time]
  | .untaggedManifestsPage => fun m : TimedRow τ => [descending m.time]
  | .listOrgs => fun o : OrgRow τ => [byText o.slug]
  | .listRepos .name => fun r : RepoRow τ => [byText r.name]
  | .listRepos .pulls => fun r : RepoRow τ => [descending r.pullCount, descending r.updatedAt]
  | .listRepos .updated => fun r : RepoRow τ => [descending r.updatedAt, byText r.name]
  | .orgReposPage => fun r : RepoRow τ => [descending r.updatedAt]
  | .listUserOrgsPage => fun o : OrgRow τ => [byText o.name]
  | .listAdminOrganizations => fun o : OrgRow τ => [byText o.name]
  | .searchRepositoriesPage sort begins => fun r : RepoRow τ => repoOrder sort begins r
  | .searchTagsPage begins => fun t : TagHit τ => [trueFirst (begins t.tag), descending t.updatedAt]
  | .searchDigestsPage => fun m : TimedRow τ => [descending m.time]
  | .searchOrganizationsPage begins => fun o : OrgRow τ =>
    [trueFirst (begins o.slug), trueFirst o.isMember, byText o.name]
  | .listUsers => fun u : TimedRow τ => [ascending u.time, byText u.id]
  | .listAdminUsers => fun u : TimedRow τ => [descending u.time]
  | .blockedImages => fun mb : TimedRow τ => [descending mb.time]
  | .listExceptions => fun ve : TimedRow τ => [descending ve.time]
  | .searchFindings => fun f : FindingHit τ =>
    [ascending (severityRank f.severity), byText f.orgSlug, byText f.repoName, byText f.tag,
      byText f.package]
  | .jobRunsPage => fun t : TimedRow τ => [descending t.time]
  | .mirrorRuns => fun t : TimedRow τ => [descending t.time]
  | .recentActivity => fun e : EntryRow => [descending e.createdAt, descending e.id]
  | .queryAudit => fun e : EntryRow => [descending e.createdAt, descending e.id]

/-- How many rows a listing counts: `count(*)::int` is an error from `2^31` on; where it is
`db.$count`, the number is exact up to `2^53`, which no table comes to. -/
def Listing.maxCount : Listing τ → Nat
  | .jobRunsPage | .listAdminUsers => 2 ^ 53
  | _ => 2 ^ 31

def Listing.count (listing : Listing τ) (rows : List listing.Row) : Option Nat :=
  if rows.length < listing.maxCount then some rows.length else none

/-- A page out of the order in which the database has the rows for this query. -/
def pageOf (listing : Listing τ) (order : Nat → Nat → List listing.Row)
    (rows : List listing.Row) (p : PageParams) : Option (List listing.Row × PageState) :=
  paginatedQuery (fun limit offset => slice limit offset (order limit offset))
    (listing.count rows) p

/-- The page is answered, clamped to those there are, and the pages have every row once. -/
structure Partitions [LinearOrder τ] (listing : Listing τ) (rows : List listing.Row)
    (p : PageParams) : Prop where
  answered (order : Nat → Nat → List listing.Row) :
    (∀ limit offset, Sorted (orderBy listing) rows (order limit offset)) →
      let state := paginate rows.length p.page (max 1 p.pageSize)
      pageOf listing order rows p =
        some (slice state.pageSize state.offset (order state.pageSize state.offset), state)
  whole (order : Nat → Nat → List listing.Row) :
    (∀ limit offset, Sorted (orderBy listing) rows (order limit offset)) →
      let pages := (paginate rows.length p.page (max 1 p.pageSize)).pages
      ∃ shown : Nat → List listing.Row, (∀ k < pages,
          (pageOf listing order rows ⟨.whole (k + 1), p.pageSize⟩).map Prod.fst = some (shown k)) ∧
        ((range pages).flatMap shown).Perm rows

/-- **The condition.** The offset of the page that is asked for is a `bigint`, the number of
rows one that is counted, and no page ends among rows that the order leaves tied. -/
structure Steady [LinearOrder τ] (listing : Listing τ) (rows : List listing.Row)
    (p : PageParams) : Prop where
  fits : (firstOffset p).isSome = true
  counted : rows.length < listing.maxCount
  apart : ∀ k, ¬ Splits (orderBy listing) rows (k * max 1 p.pageSize)

/-! ## Offsets -/

theorem firstOffset_whole {k size : Nat} (h : k * max 1 size < 2 ^ 53) :
    firstOffset ⟨.whole (k + 1), size⟩ = some (k * max 1 size) := by
  have hk : k ≤ k * max 1 size := Nat.le_mul_of_pos_right k (by omega)
  have hadd : (Whole.whole (k + 1)).add (-1) = .whole k := by
    show Whole.ofInt ((k : Int) + 1 + -1) = _
    rw [Int.add_neg_cancel_right]
    exact Whole.ofInt_of_small (by omega) (by omega)
  have hmul : (Whole.whole k).mul (max 1 size) = .whole (k * max 1 size : Nat) := by
    show Whole.ofInt ((k : Int) * (max 1 size : Nat)) = _
    rw [← Int.natCast_mul]
    exact Whole.ofInt_of_small (by omega) (by omega)
  unfold firstOffset
  rw [hadd, hmul, toBigint, if_pos ⟨by omega, by omega⟩, Int.toNat_natCast]

variable {total size k : Nat} {requested : Whole}

theorem le_pages_mul (hsize : 0 < size) : total ≤ (paginate total requested size).pages * size := by
  show total ≤ max 1 ((total + size - 1) / size) * size
  have hdiv := Nat.div_add_mod (total + size - 1) size
  have hmod := Nat.mod_lt (total + size - 1) hsize
  have hle := Nat.mul_le_mul_right size (Nat.le_max_right 1 ((total + size - 1) / size))
  rw [Nat.mul_comm] at hdiv
  omega

theorem mul_lt_of_lt_pages (hsize : 0 < size) (htotal : total < 2 ^ 53)
    (hk : k < (paginate total requested size).pages) : k * size < 2 ^ 53 := by
  change k < max 1 ((total + size - 1) / size) at hk
  rcases Nat.eq_zero_or_pos k with rfl | hpos
  · omega
  · have hlt : k < (total + size - 1) / size := by omega
    have hmul := (Nat.le_div_iff_mul_le hsize).mp hlt
    rw [Nat.succ_mul] at hmul
    omega

theorem paginate_page (n : Nat) (hn : 1 ≤ n) (h : n ≤ (paginate total requested size).pages) :
    (paginate total (.whole n) size).page = n := by
  show min (max 1 (n : Int).toNat) (paginate total requested size).pages = n
  omega

section pages

variable [LinearOrder τ] {listing : Listing τ} {rows : List listing.Row} {p : PageParams}
  {order : Nat → Nat → List listing.Row}

omit [LinearOrder τ] in
theorem maxCount_le (listing : Listing τ) : listing.maxCount ≤ 2 ^ 53 := by
  cases listing <;> simp [Listing.maxCount]

omit [LinearOrder τ] in
theorem count_eq_some {total : Nat} :
    listing.count rows = some total ↔ rows.length < listing.maxCount ∧ rows.length = total := by
  simp [Listing.count]

omit [LinearOrder τ] in
theorem pageOf_whole (order : Nat → Nat → List listing.Row) (hrows : rows.length < listing.maxCount)
    (hk : k < (paginate rows.length requested (max 1 size)).pages) :
    pageOf listing order rows ⟨.whole (k + 1), size⟩ =
      some (slice (max 1 size) (k * max 1 size) (order (max 1 size) (k * max 1 size)),
        paginate rows.length (.whole (k + 1)) (max 1 size)) := by
  have hpage : (paginate rows.length (.whole (k + 1)) (max 1 size)).page = k + 1 :=
    paginate_page (k + 1) (by omega) hk
  have hfirst : isPage (.whole (k + 1)) (k + 1) = true := decide_eq_true (by omega)
  unfold pageOf paginatedQuery
  rw [firstOffset_whole (mul_lt_of_lt_pages (by omega) (hrows.trans_le (maxCount_le listing)) hk),
    count_eq_some.mpr ⟨hrows, rfl⟩]
  dsimp only
  rw [hpage, if_pos hfirst]

omit [LinearOrder τ] in
theorem pageOf_isSome (h : (pageOf listing order rows p).isSome = true) :
    (firstOffset p).isSome = true ∧ rows.length < listing.maxCount := by
  unfold pageOf paginatedQuery at h
  cases hfirst : firstOffset p with
  | none => simp [hfirst] at h
  | some offset =>
    cases hcount : listing.count rows with
    | none => simp [hfirst, hcount] at h
    | some total => exact ⟨rfl, (count_eq_some.mp hcount).1⟩

theorem pageOf_answered (h : Steady listing rows p) :
    let state := paginate rows.length p.page (max 1 p.pageSize)
    pageOf listing order rows p =
      some (slice state.pageSize state.offset (order state.pageSize state.offset), state) := by
  obtain ⟨offset, hoffset⟩ := Option.isSome_iff_exists.mp h.fits
  obtain ⟨page, size⟩ := p
  dsimp only
  by_cases hpage : isPage page (paginate rows.length page (max 1 size)).page = true
  · -- the first query was for this page
    obtain ⟨n, rfl⟩ : ∃ n : Int, page = .whole n := by
      cases page with
      | whole n => exact ⟨n, rfl⟩
      | nan | infinity => cases hpage
    have hn : n = (paginate rows.length (.whole n) (max 1 size)).page := of_decide_eq_true hpage
    have hpages : 1 ≤ (paginate rows.length (.whole n) (max 1 size)).pages := Nat.le_max_left ..
    have hmin : (paginate rows.length (.whole n) (max 1 size)).page =
        min (max 1 n.toNat) (paginate rows.length (.whole n) (max 1 size)).pages := rfl
    obtain ⟨k, hk⟩ : ∃ k, (paginate rows.length (.whole n) (max 1 size)).page = k + 1 :=
      ⟨_, (Nat.sub_add_cancel (by omega)).symm⟩
    have hlt : k < (paginate rows.length (.whole n) (max 1 size)).pages := by omega
    have hwhole := pageOf_whole order h.counted hlt
    rw [hk] at hn
    have hstate : (paginate rows.length (.whole n) (max 1 size)).offset = k * max 1 size := by
      show ((paginate rows.length (.whole n) (max 1 size)).page - 1) * _ = _
      rw [hk, Nat.add_sub_cancel]
    rw [hstate]
    subst hn
    exact hwhole
  · unfold pageOf paginatedQuery
    rw [hoffset, count_eq_some.mpr ⟨h.counted, rfl⟩]
    dsimp only
    rw [if_neg hpage]
    rfl

theorem Partitions.steady (hrows : rows.Nodup) (h : Partitions listing rows p) :
    Steady listing rows p := by
  have hsize : 0 < max 1 p.pageSize := by omega
  obtain ⟨l, hl⟩ := exists_sorted (orderBy listing) rows
  obtain ⟨hfits, hcounted⟩ := pageOf_isSome
    (Option.isSome_iff_exists.mpr ⟨_, h.answered (fun _ _ => l) fun _ _ => hl⟩)
  have hall := @le_pages_mul rows.length _ p.page hsize
  refine ⟨hfits, hcounted, (pages_perm_iff hrows hsize hall).mp fun order horder => ?_⟩
  obtain ⟨shown, hshown, hperm⟩ := h.whole (fun _ => order) fun _ => horder
  have hsame : ∀ k ∈ range (paginate rows.length p.page (max 1 p.pageSize)).pages,
      slice (max 1 p.pageSize) (k * max 1 p.pageSize) (order (k * max 1 p.pageSize)) =
        shown k := by
    intro k hk
    have hpage := hshown k (mem_range.mp hk)
    rw [pageOf_whole (fun _ => order) hcounted (mem_range.mp hk)] at hpage
    exact Option.some.inj hpage
  rw [flatMap_congr hsame]
  exact hperm

end pages

/-! ## Tags of one time -/

def tied : List (TimedRow String) := [⟨"a", 2⟩, ⟨"b", 1⟩, ⟨"c", 1⟩, ⟨"d", 0⟩]

theorem tied_nodup : tied.Nodup := by simp [tied]

theorem single_lt {a b : Int} : [descending (τ := String) a] < [descending b] ↔ b < a := by
  simp [descending, cons_lt_cons_iff]

theorem single_le {a b : Int} : [descending (τ := String) a] ≤ [descending b] ↔ b ≤ a := by
  rw [← not_lt, single_lt, not_lt]

/-- Only two of them end among rows of one time. -/
theorem tied_splits {n : Nat} : Splits (orderBy (τ := String) .listRepoTags) tied n ↔ n = 2 := by
  show Splits (fun t : TimedRow String => [descending t.time]) tied n ↔ n = 2
  simp only [Splits, before, upto, single_lt, single_le]
  simp [tied, countP_cons]
  omega

end Chicoree.Listings
