import FaultCache.PageGeometry

/-!
# Groups of chunks that share pages

The server copies whole pages, so it fills all chunks with bytes in the pages
it is about to copy. Starting from the chunk under the fault, the group grows
to the left while its first chunk starts inside a page and to the right while
its last chunk ends inside one.
-/

set_option autoImplicit false

namespace FaultCache.ServerGroups
open FaultCache.PageGeometry

structure Group where
  lo : ℕ
  hi : ℕ
  pageLo : ℕ
  pageHi : ℕ
  deriving DecidableEq, Repr

def widenLo (L : Layout) : ℕ → ℕ → ℕ × ℕ
  | 0, pageLo => (0,pageLo)
  | lo+1, pageLo =>
    if L.chunkStart (lo+1) > pageLo then widenLo L lo (pageFloor (L.chunkStart lo) L.pageSize)
    else (lo+1,pageLo)

def widenHi (L : Layout) : ℕ → ℕ → ℕ → ℕ × ℕ
  | 0, hi, pageHi => (hi,pageHi)
  | fuel+1, hi, pageHi =>
    if hi+1 < L.nchunks ∧ L.chunkStart (hi+1) < pageHi then
      widenHi L fuel (hi+1) (pageCeil (L.chunkStart (hi+2)) L.pageSize)
    else (hi,pageHi)

/-- The chunks and the page range that `resolve_fault` works on. -/
def group (L : Layout) (faultOff : ℕ) : Group :=
  let c0 := L.findChunk faultOff
  let lo := widenLo L c0 (pageFloor (L.chunkStart c0) L.pageSize)
  let hi := widenHi L L.nchunks c0 (pageCeil (L.chunkStart (c0+1)) L.pageSize)
  ⟨lo.1,hi.1,lo.2,hi.2⟩

section Widening
variable (L : Layout)

/-- To the left the loop ends at a chunk that starts a page. -/
theorem widenLo_spec (lo : ℕ) :
    (widenLo L lo (pageFloor (L.chunkStart lo) L.pageSize)).1 ≤ lo ∧
    (widenLo L lo (pageFloor (L.chunkStart lo) L.pageSize)).2 =
      L.chunkStart (widenLo L lo (pageFloor (L.chunkStart lo) L.pageSize)).1 ∧
    L.pageSize ∣ (widenLo L lo (pageFloor (L.chunkStart lo) L.pageSize)).2 := by
  induction lo with
  | zero =>
    simp only [widenLo,L.start_zero]
    exact ⟨le_refl _,pageFloor_aligned (dvd_zero _),dvd_pageFloor _ _⟩
  | succ lo ih =>
    rw [widenLo]
    split_ifs with hc
    · exact ⟨by omega,ih.2⟩
    · have hle := pageFloor_le (L.chunkStart (lo+1)) L.pageSize
      have heq : pageFloor (L.chunkStart (lo+1)) L.pageSize = L.chunkStart (lo+1) := by omega
      exact ⟨le_refl _,heq,dvd_pageFloor _ _⟩

/-- To the right it ends at a chunk that ends a page, or at the last one. -/
theorem widenHi_spec (fuel hi : ℕ) (hf : L.nchunks ≤ hi+1+fuel) (hn : hi < L.nchunks) :
    let out := widenHi L fuel hi (pageCeil (L.chunkStart (hi+1)) L.pageSize)
    hi ≤ out.1 ∧ out.1 < L.nchunks ∧ out.2 = pageCeil (L.chunkStart (out.1+1)) L.pageSize ∧
      (out.1+1 = L.nchunks ∨ out.2 = L.chunkStart (out.1+1)) := by
  induction fuel generalizing hi with
  | zero => exact ⟨le_refl _,hn,rfl,Or.inl (by simp only [widenHi]; omega)⟩
  | succ fuel ih =>
    simp only [widenHi]
    split_ifs with hc
    · obtain ⟨h1,h2⟩ := ih (hi+1) (by omega) hc.1
      exact ⟨le_trans (Nat.le_succ hi) h1,h2⟩
    · refine ⟨le_refl _,hn,rfl,?_⟩
      by_cases hl : hi+1 = L.nchunks
      · exact Or.inl hl
      · right
        have hfit : L.chunkStart (hi+1)+L.pageSize-1 < 2^64 := by
          have := L.start_le_total (i := hi+1) (by omega)
          have := L.total_fits
          omega
        have hceil := (pageCeil_bounds L.pageSize_pos hfit).1
        have hnot : ¬ L.chunkStart (hi+1) < pageCeil (L.chunkStart (hi+1)) L.pageSize :=
          fun h => hc ⟨by omega,h⟩
        simp only
        omega

end Widening

/-- What the widening loops leave behind. -/
structure GroupSpec (L : Layout) (faultOff : ℕ) (g : Group) : Prop where
  before : g.lo ≤ L.findChunk faultOff
  after : L.findChunk faultOff ≤ g.hi
  inside : g.hi < L.nchunks
  starts : g.pageLo = L.chunkStart g.lo
  alignedLo : L.pageSize ∣ g.pageLo
  alignedHi : L.pageSize ∣ g.pageHi
  rounded : g.pageHi = pageCeil (L.chunkStart (g.hi+1)) L.pageSize
  ends : g.hi+1 = L.nchunks ∨ g.pageHi = L.chunkStart (g.hi+1)

theorem group_spec (L : Layout) (faultOff : ℕ) : GroupSpec L faultOff (group L faultOff) := by
  obtain ⟨h1,h2,h3⟩ := widenLo_spec L (L.findChunk faultOff)
  obtain ⟨h4,h5,h6,h7⟩ :=
    widenHi_spec L L.nchunks (L.findChunk faultOff) (by omega) (L.findChunk_lt faultOff)
  exact ⟨h1,h4,h5,h2,h3,(dvd_pageCeil _ _).trans (dvd_of_eq h6.symm),h6,h7⟩

namespace GroupSpec
variable {L : Layout} {faultOff : ℕ} {g : Group}

/-- Past the last chunk the range ends with the mapping. -/
theorem pageHi_last (h : GroupSpec L faultOff g) (hl : g.hi+1 = L.nchunks) : g.pageHi = L.mappedSize := by
  rw [h.rounded,hl,L.start_last,L.mapped_eq]

theorem pageHi_le (h : GroupSpec L faultOff g) : g.pageHi ≤ L.mappedSize := by
  have hin := h.inside
  rcases h.ends with hl | he
  · exact le_of_eq (h.pageHi_last hl)
  · have := L.start_le_total (i := g.hi+1) (by omega)
    have := L.mapped_bounds.1
    omega

/-- The faulting page lies in the range. -/
theorem contains_page (h : GroupSpec L faultOff g) (hoff : faultOff < L.mappedSize) :
    g.pageLo ≤ pageFloor faultOff L.pageSize ∧ pageFloor faultOff L.pageSize+L.pageSize ≤ g.pageHi := by
  have hbefore := h.before
  have hin := h.inside
  obtain ⟨hc,hstart,hlater⟩ := L.findChunk_spec faultOff
  constructor
  · have hle : g.pageLo ≤ faultOff := by
      rw [h.starts]
      exact le_trans (L.start_mono hbefore (by omega)) hstart
    calc g.pageLo = pageFloor g.pageLo L.pageSize := (pageFloor_aligned h.alignedLo).symm
      _ ≤ pageFloor faultOff L.pageSize := pageFloor_mono L.pageSize_pos hle
  · have hlt : faultOff < g.pageHi := by
      by_cases hl : g.hi+1 = L.nchunks
      · rw [h.pageHi_last hl]
        exact hoff
      · rw [h.ends.resolve_left hl]
        exact hlater _ (by have := h.after; omega) (by omega)
    exact aligned_add_le (dvd_pageFloor _ _) h.alignedHi (lt_of_le_of_lt (pageFloor_le _ _) hlt)

/-- Every byte of a chunk in the range belongs to a chunk of the group. -/
theorem chunk_mem (h : GroupSpec L faultOff g) {x c : ℕ} (hlo : g.pageLo ≤ x) (hhi : x < g.pageHi)
    (hc : c < L.nchunks) (hx : L.Covers c x) : g.lo ≤ c ∧ c ≤ g.hi := by
  have hin := h.inside
  constructor
  · by_contra hlt
    have := L.start_mono (i := c+1) (j := g.lo) (by omega) (by have := h.before; have := h.after; omega)
    have := hx.2
    have := h.starts
    omega
  · by_contra hgt
    have hend := h.ends.resolve_left (by omega)
    have := L.start_mono (i := g.hi+1) (j := c) (by omega) (by omega)
    have := hx.1
    omega

end GroupSpec

end FaultCache.ServerGroups
