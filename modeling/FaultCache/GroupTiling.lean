import FaultCache.ServerGroups
import FaultCache.SharedPages
import Mathlib.Data.Set.Lattice
import Mathlib.Order.CompletePartialOrder

/-!
# The groups tile the mapping

A group ends where a chunk boundary falls on a page boundary, or at the end
of the region, and at no boundary before that. It is therefore the smallest
interval of chunks around the fault that no shared page leaves, two groups are
equal or have no page in common, and their page ranges tile the mapping.
-/

set_option autoImplicit false

namespace FaultCache.GroupTiling
open FaultCache.PageGeometry FaultCache.SharedPages FaultCache.ServerGroups

variable (L : Layout)

/-- Chunks `i` and `j` both have a byte in some page. -/
def SharePage (i j : ℕ) : Prop :=
  ∃ p, L.pageSize ∣ p ∧ i ∈ pageChunks L p ∧ j ∈ pageChunks L p

/-- No chunk of the interval shares a page with one outside it. -/
def PageClosed (lo hi : ℕ) : Prop :=
  ∀ i j, lo ≤ i → i ≤ hi → SharePage L i j → lo ≤ j ∧ j ≤ hi

/-- The neighbours of a boundary inside a page share that page. -/
theorem share_boundary {b : ℕ} (hb : b+1 < L.nchunks) (h : ¬ L.pageSize ∣ L.chunkStart (b+1)) :
    SharePage L b (b+1) := by
  have hu : Unaligned L (b+1) := by
    refine ⟨Nat.succ_pos b,hb,fun he => h ?_⟩
    rw [he]
    exact dvd_pageFloor _ _
  obtain ⟨h1,h2⟩ := unaligned_inside L hu
  have hprev := L.start_succ b (by omega)
  have hnext := L.start_succ (b+1) hb
  refine ⟨boundaryPage L (b+1),dvd_pageFloor _ _,?_,?_⟩
  · exact (mem_pageChunks L _ _).mpr ⟨by omega,by omega,h1⟩
  · exact (mem_pageChunks L _ _).mpr ⟨hb,h2,by omega⟩

section Loops

/-- The boundaries the left loop passes lie inside pages. -/
theorem widenLo_passed (lo b : ℕ)
    (h1 : (widenLo L lo (pageFloor (L.chunkStart lo) L.pageSize)).1 < b) (h2 : b ≤ lo) :
    ¬ L.pageSize ∣ L.chunkStart b := by
  induction lo with
  | zero => omega
  | succ lo ih =>
    rw [widenLo] at h1
    split_ifs at h1 with hc
    · by_cases hb : b ≤ lo
      · exact ih h1 hb
      · obtain rfl : b = lo+1 := by omega
        intro hd
        rw [pageFloor_aligned hd] at hc
        exact lt_irrefl _ hc
    · simp only at h1
      omega

/-- So do those the right loop passes. -/
theorem widenHi_passed (fuel hi b : ℕ)
    (h1 : hi < b) (h2 : b ≤ (widenHi L fuel hi (pageCeil (L.chunkStart (hi+1)) L.pageSize)).1) :
    ¬ L.pageSize ∣ L.chunkStart b := by
  induction fuel generalizing hi with
  | zero =>
    simp only [widenHi] at h2
    omega
  | succ fuel ih =>
    rw [widenHi] at h2
    split_ifs at h2 with hc
    · by_cases hb : hi+1 < b
      · exact ih (hi+1) hb h2
      · obtain rfl : b = hi+1 := by omega
        intro hd
        have hfit : L.chunkStart (hi+1)+L.pageSize-1 < 2^64 := by
          have := L.start_le_total (i := hi+1) (by omega)
          have := L.total_fits
          omega
        have hceil := pageCeil_le L.pageSize_pos hd hfit (le_refl _)
        omega
    · simp only at h2
      omega

/-- The right loop has left by its own test before the fuel is spent. -/
theorem widenHi_halts (fuel extra hi pageHi : ℕ) (hf : L.nchunks ≤ hi+1+fuel) :
    widenHi L (fuel+extra) hi pageHi = widenHi L fuel hi pageHi := by
  induction fuel generalizing hi pageHi with
  | zero =>
    cases extra with
    | zero => rfl
    | succ extra =>
      have hstop : ¬ hi+1 < L.nchunks := by omega
      simp [widenHi,hstop]
  | succ fuel ih =>
    rw [show fuel+1+extra = fuel+extra+1 by omega,widenHi,widenHi,ih _ _ (by omega)]

end Loops

section Group

/-- The first chunk of a group starts a page, and none of its others does. -/
theorem group_interior (off b : ℕ) (h1 : (group L off).lo < b) (h2 : b ≤ (group L off).hi) :
    ¬ L.pageSize ∣ L.chunkStart b := by
  by_cases hb : b ≤ L.findChunk off
  · exact widenLo_passed L _ b h1 hb
  · exact widenHi_passed L _ _ b (by omega) h2

theorem group_start (off : ℕ) : L.pageSize ∣ L.chunkStart (group L off).lo := by
  have hspec := group_spec L off
  rw [← hspec.starts]
  exact hspec.alignedLo

theorem group_end (off : ℕ) (h : (group L off).hi+1 < L.nchunks) :
    L.pageSize ∣ L.chunkStart ((group L off).hi+1) := by
  have hspec := group_spec L off
  rw [← hspec.ends.resolve_left (by omega)]
  exact hspec.alignedHi

theorem group_start_le (off : ℕ) {c : ℕ} (h1 : (group L off).lo ≤ c) (h2 : c < L.nchunks) :
    (group L off).pageLo ≤ L.chunkStart c := by
  rw [(group_spec L off).starts]
  exact L.start_mono h1 (by omega)

theorem group_end_le (off : ℕ) {c : ℕ} (h : c ≤ (group L off).hi) :
    L.chunkStart (c+1) ≤ (group L off).pageHi := by
  have hspec := group_spec L off
  have hin := hspec.inside
  have hmono := L.start_mono (i := c+1) (j := (group L off).hi+1) (by omega) (by omega)
  rcases hspec.ends with hl | he
  · have := hspec.pageHi_last hl
    have := L.mapped_bounds.1
    have := L.start_le_total (i := c+1) (by omega)
    omega
  · omega

/-- A page of a chunk of the group lies in the page range. -/
theorem page_inside (off : ℕ) {p c : ℕ} (hp : L.pageSize ∣ p) (h1 : (group L off).lo ≤ c)
    (h2 : c ≤ (group L off).hi) (hc : c ∈ pageChunks L p) :
    (group L off).pageLo ≤ p ∧ p+L.pageSize ≤ (group L off).pageHi := by
  have hspec := group_spec L off
  obtain ⟨hn,hleft,hright⟩ := (mem_pageChunks L p c).mp hc
  have hlo := group_start_le L off h1 hn
  have hhi := group_end_le L off h2
  constructor
  · by_contra hlt
    have := aligned_add_le hp hspec.alignedLo (by omega)
    omega
  · exact aligned_add_le hp hspec.alignedHi (by omega)

/-- A page of the range has bytes of the group's chunks only. -/
theorem page_chunks (off : ℕ) {p c : ℕ} (hp : L.pageSize ∣ p) (h1 : (group L off).pageLo ≤ p)
    (h2 : p < (group L off).pageHi) (hc : c ∈ pageChunks L p) :
    (group L off).lo ≤ c ∧ c ≤ (group L off).hi := by
  have hspec := group_spec L off
  have hnext := aligned_add_le hp hspec.alignedHi h2
  obtain ⟨hn,x,hx,hpx,hxp⟩ := hc
  exact hspec.chunk_mem (by omega) (by omega) hn hx

theorem group_closed (off : ℕ) : PageClosed L (group L off).lo (group L off).hi := by
  rintro i j h1 h2 ⟨p,hp,hi,hj⟩
  obtain ⟨g1,g2⟩ := page_inside L off hp h1 h2 hi
  have hP := L.pageSize_pos
  exact page_chunks L off hp g1 (by omega) hj

/-- Every closed interval around the faulting chunk contains the group. -/
theorem group_least (off a b : ℕ) (ha : a ≤ L.findChunk off) (hb : L.findChunk off ≤ b)
    (h : PageClosed L a b) : a ≤ (group L off).lo ∧ (group L off).hi ≤ b := by
  have hspec := group_spec L off
  have hbefore := hspec.before
  have hafter := hspec.after
  have hin := hspec.inside
  constructor
  · by_contra hlt
    obtain ⟨d,rfl⟩ : ∃ d, a = d+1 := ⟨a-1,by omega⟩
    obtain ⟨p,hp,h1,h2⟩ := share_boundary L (b := d) (by omega)
      (group_interior L off (d+1) (by omega) (by omega))
    have := h (d+1) d (le_refl _) (by omega) ⟨p,hp,h2,h1⟩
    omega
  · by_contra hgt
    have hs := share_boundary L (b := b) (by omega) (group_interior L off (b+1) (by omega) (by omega))
    have := h b (b+1) (by omega) (le_refl _) hs
    omega

/-- The page range is the union of the pages of the group's chunks. -/
theorem group_pages (off x : ℕ) : (group L off).pageLo ≤ x ∧ x < (group L off).pageHi ↔
    ∃ c, (group L off).lo ≤ c ∧ c ≤ (group L off).hi ∧
      ∃ p, L.pageSize ∣ p ∧ c ∈ pageChunks L p ∧ p ≤ x ∧ x < p+L.pageSize := by
  have hspec := group_spec L off
  constructor
  · rintro ⟨h1,h2⟩
    have hle := pageFloor_le x L.pageSize
    have hlt := lt_pageFloor_add L.pageSize_pos x
    have hlo : (group L off).pageLo ≤ pageFloor x L.pageSize := by
      rw [← pageFloor_aligned hspec.alignedLo]
      exact pageFloor_mono L.pageSize_pos h1
    have hmap := hspec.pageHi_le
    have htot := page_lt_total L (dvd_pageFloor x L.pageSize) (by omega)
    have hmem : L.findChunk (pageFloor x L.pageSize) ∈ pageChunks L (pageFloor x L.pageSize) :=
      ⟨L.findChunk_lt _,_,L.findChunk_covers htot,le_refl _,by have := L.pageSize_pos; omega⟩
    obtain ⟨h3,h4⟩ := page_chunks L off (dvd_pageFloor _ _) hlo (by omega) hmem
    exact ⟨_,h3,h4,_,dvd_pageFloor _ _,hmem,hle,hlt⟩
  · rintro ⟨c,h1,h2,p,hp,hc,hpx,hxp⟩
    obtain ⟨h3,h4⟩ := page_inside L off hp h1 h2 hc
    omega

/-- Two groups with a chunk in common are one group. -/
theorem group_eq (off off' : ℕ) {c : ℕ} (h1 : (group L off).lo ≤ c) (h2 : c ≤ (group L off).hi)
    (h3 : (group L off').lo ≤ c) (h4 : c ≤ (group L off').hi) : group L off = group L off' := by
  have hspec := group_spec L off
  have hspec' := group_spec L off'
  have hin := hspec.inside
  have hin' := hspec'.inside
  have hlo : (group L off).lo = (group L off').lo := by
    rcases Nat.lt_trichotomy (group L off).lo (group L off').lo with h | h | h
    · exact absurd (group_start L off') (group_interior L off _ h (by omega))
    · exact h
    · exact absurd (group_start L off) (group_interior L off' _ h (by omega))
  have hhi : (group L off).hi = (group L off').hi := by
    rcases Nat.lt_trichotomy (group L off).hi (group L off').hi with h | h | h
    · exact absurd (group_end L off (by omega)) (group_interior L off' _ (by omega) (by omega))
    · exact h
    · exact absurd (group_end L off' (by omega)) (group_interior L off _ (by omega) (by omega))
  have hpageLo : (group L off).pageLo = (group L off').pageLo := by
    rw [hspec.starts,hspec'.starts,hlo]
  have hpageHi : (group L off).pageHi = (group L off').pageHi := by
    rw [hspec.rounded,hspec'.rounded,hhi]
  calc group L off
    _ = ⟨(group L off).lo,(group L off).hi,(group L off).pageLo,(group L off).pageHi⟩ := rfl
    _ = ⟨(group L off').lo,(group L off').hi,(group L off').pageLo,(group L off').pageHi⟩ := by
      rw [hlo,hhi,hpageLo,hpageHi]
    _ = group L off' := rfl

theorem group_disjoint (off off' : ℕ) : group L off = group L off' ∨
    Disjoint (Set.Ico (group L off).pageLo (group L off).pageHi)
      (Set.Ico (group L off').pageLo (group L off').pageHi) := by
  by_cases he : group L off = group L off'
  · exact Or.inl he
  · right
    rw [Set.disjoint_left]
    intro x hx hx'
    obtain ⟨c,h1,h2,p,hp,hc,hpx,hxp⟩ := (group_pages L off x).mp hx
    obtain ⟨c',h3,h4,p',hp',hc',hpx',hxp'⟩ := (group_pages L off' x).mp hx'
    obtain rfl : p = p' := by
      rw [← pageFloor_eq L.pageSize_pos hp hpx hxp,← pageFloor_eq L.pageSize_pos hp' hpx' hxp']
    obtain ⟨h5,h6⟩ := group_closed L off' c' c h3 h4 ⟨p,hp,hc',hc⟩
    exact he (group_eq L off off' h1 h2 h5 h6)

theorem group_nonempty (off : ℕ) : (group L off).pageLo < (group L off).pageHi := by
  have hspec := group_spec L off
  have h1 := hspec.before
  have h2 := hspec.after
  have h3 := group_start_le L off (c := L.findChunk off) h1 (L.findChunk_lt off)
  have h4 := group_end_le L off (c := L.findChunk off) h2
  have h5 := L.start_succ _ (L.findChunk_lt off)
  omega

theorem group_cover : (⋃ off, Set.Ico (group L off).pageLo (group L off).pageHi) =
    Set.Ico 0 L.mappedSize := by
  ext x
  rw [Set.mem_iUnion,Set.mem_Ico]
  constructor
  · rintro ⟨off,h1,h2⟩
    exact ⟨Nat.zero_le x,lt_of_lt_of_le h2 (group_spec L off).pageHi_le⟩
  · rintro ⟨-,hx⟩
    obtain ⟨h1,h2⟩ := (group_spec L x).contains_page hx
    have h3 := pageFloor_le x L.pageSize
    have h4 := lt_pageFloor_add L.pageSize_pos x
    exact ⟨x,by omega,by omega⟩

/-- What `resolve_fault` has worked out when its two loops are done. -/
structure Widened (off : ℕ) (g : Group) : Prop where
  halts : ∀ fuel, L.nchunks ≤ fuel →
    widenHi L fuel (L.findChunk off) (pageCeil (L.chunkStart (L.findChunk off+1)) L.pageSize) =
      (g.hi,g.pageHi)
  stopLo : ¬ (0 < g.lo ∧ L.chunkStart g.lo > g.pageLo)
  stopHi : ¬ (g.hi+1 < L.nchunks ∧ L.chunkStart (g.hi+1) < g.pageHi)
  contains : g.lo ≤ L.findChunk off ∧ L.findChunk off ≤ g.hi ∧ g.hi < L.nchunks
  closed : PageClosed L g.lo g.hi
  least : ∀ a b, a ≤ L.findChunk off → L.findChunk off ≤ b → PageClosed L a b →
    a ≤ g.lo ∧ g.hi ≤ b
  pages : ∀ x, g.pageLo ≤ x ∧ x < g.pageHi ↔ ∃ c, g.lo ≤ c ∧ c ≤ g.hi ∧
    ∃ p, L.pageSize ∣ p ∧ c ∈ pageChunks L p ∧ p ≤ x ∧ x < p+L.pageSize
  source : g.pageLo < g.pageHi ∧ g.pageHi ≤ L.mappedSize
  faulting : off < L.mappedSize →
    g.pageLo ≤ pageFloor off L.pageSize ∧ pageFloor off L.pageSize+L.pageSize ≤ g.pageHi

theorem group_widened (off : ℕ) : Widened L off (group L off) where
  halts := by
    intro fuel hf
    obtain ⟨extra,rfl⟩ : ∃ extra, fuel = L.nchunks+extra := ⟨fuel-L.nchunks,by omega⟩
    rw [widenHi_halts L _ _ _ _ (by omega)]
    rfl
  stopLo := by
    rintro ⟨-,h⟩
    rw [(group_spec L off).starts] at h
    exact lt_irrefl _ h
  stopHi := by
    rintro ⟨h1,h2⟩
    rw [(group_spec L off).ends.resolve_left (by omega)] at h2
    exact lt_irrefl _ h2
  contains := ⟨(group_spec L off).before,(group_spec L off).after,(group_spec L off).inside⟩
  closed := group_closed L off
  least := group_least L off
  pages := group_pages L off
  source := ⟨group_nonempty L off,(group_spec L off).pageHi_le⟩
  faulting := (group_spec L off).contains_page

/-- For every layout the loops find the smallest group around the fault, and
the groups tile the mapping. -/
theorem groups_tile (L : Layout) :
    (∀ off, Widened L off (group L off)) ∧
    (∀ off off', group L off = group L off' ∨
      Disjoint (Set.Ico (group L off).pageLo (group L off).pageHi)
        (Set.Ico (group L off').pageLo (group L off').pageHi)) ∧
    (⋃ off, Set.Ico (group L off).pageLo (group L off).pageHi) = Set.Ico 0 L.mappedSize :=
  ⟨group_widened L,group_disjoint L,group_cover L⟩

end Group

end FaultCache.GroupTiling
