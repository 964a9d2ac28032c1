import FaultCache.PoolInvariant
import FaultCache.ScratchContract

/-!
# The buffers of one fill

`fill_chunk_locked` again, with the offsets and lengths of the source computed
in `size_t` and a record of what is done to the scratch buffer, to the staging
buffers and to the table of shared pages. Leaving the record out gives the fill
of the pool: none of the subtractions wraps.
-/

set_option autoImplicit false

namespace FaultCache.FillTrace
open FaultCache.PageGeometry FaultCache.SharedPages FaultCache.VmPages FaultCache.PoolMachine
open FaultCache.PoolStaging FaultCache.PoolQueue FaultCache.PoolMemory

/-- `len` bytes at `off` of a buffer of `size` bytes. -/
structure Access where
  size : ℕ
  off : ℕ
  len : ℕ
  deriving DecidableEq, Repr

def Access.Inside (a : Access) : Prop := a.off+a.len ≤ a.size

/-- `install` seals and publishes the staging buffer of a shared page, which has
`size` bytes. `seal` and `consume` are about the scratch buffer. -/
inductive Op where
  | fillChunk (dst : Access)
  | findSharedPage (page : ℕ) (found : Option ℕ)
  | memcpy (k : ℕ) (dst src : Access)
  | install (k size : ℕ) (piece : Piece)
  | seal
  | consume (piece : Piece)
  deriving DecidableEq, Repr

def installSharedPage (r : Region) (vm : PageTable) (k : ℕ) : Option (List Op × Region × PageTable) :=
  match (r.sharedPages k).staging with
  | none => none
  | some scratch =>
    let piece := .publish 0 r.layout.pageSize (r.base+(sharedPage r.layout k).pageOff)
    let page := { r.sharedPages k with staging := none, mapped := true }
    some ([.install k scratch.size piece],
      { r with sharedPages := Function.update r.sharedPages k page },consume vm scratch [piece])

/-- `lo` and `hi` of `stage_into_shared_page`. -/
def sliceLo (L : Layout) (k c : ℕ) : ℕ :=
  let off := (sharedPage L k).pageOff
  if off < L.chunkStart c then L.chunkStart c else off

def sliceHi (L : Layout) (k c : ℕ) : ℕ :=
  let pageEnd := sizeAdd (sharedPage L k).pageOff L.pageSize
  if L.chunkStart (c+1) < pageEnd then L.chunkStart (c+1) else pageEnd

def stageIntoSharedPage (r : Region) (vm : PageTable) (sp : Option ℕ) (c : ℕ) (scratch : Scratch)
    (spanLo : ℕ) : Option (List Op × Region × PageTable) :=
  match sp with
  | none => none
  | some k =>
    let page := r.sharedPages k
    let span := sharedPage r.layout k
    if page.mapped then none
    else
      let staging := page.staging.getD (vmScratchCreate r.layout.pageSize)
      let lo := sliceLo r.layout k c
      let len := sizeSub (sliceHi r.layout k c) lo
      let dst := ⟨staging.size,sizeSub lo span.pageOff,len⟩
      let src := ⟨scratch.size,sizeSub lo spanLo,len⟩
      let bytes := VmPages.memcpy staging.bytes (sizeSub lo span.pageOff) scratch.bytes (sizeSub lo spanLo) len
      let r := { r with
        chunkStaged := Function.update r.chunkStaged c true
        sharedPages := Function.update r.sharedPages k
          ⟨page.staged+1,some { staging with bytes := bytes },page.mapped⟩ }
      if page.staged+1 = span.lastChunk-span.firstChunk+1 then
        (installSharedPage r vm k).map (fun m => (.memcpy k dst src::m.1,m.2))
      else some ([.memcpy k dst src],r,vm)

/-- One of the two conditional calls. -/
def stageWhen (flag : Bool) (r : Region) (vm : PageTable) (page c : ℕ) (scratch : Scratch)
    (spanLo : ℕ) : Option (List Op × Region × PageTable) :=
  if flag then
    let sp := findSharedPage r.layout page
    (stageIntoSharedPage r vm sp c scratch spanLo).map (fun m => (.findSharedPage page sp::m.1,m.2))
  else some ([],r,vm)

/-- The staging of `fill_chunk_locked`. -/
def stageShared (r : Region) (vm : PageTable) (c : ℕ) (scratch : Scratch) :
    Option (List Op × Region × PageTable) :=
  let L := r.layout
  let spanLo := boundaryPage L c
  let tailPage := boundaryPage L (c+1)
  let head := hasHead L c
  let tail := if head && hasTail L c && tailPage == spanLo then false else hasTail L c
  if r.chunkStaged c then some ([],r,vm)
  else
    (stageWhen head r vm spanLo c scratch spanLo).bind (fun m =>
      (stageWhen tail m.2.1 m.2.2 tailPage c scratch spanLo).map (fun m' => (m.1 ++ m'.1,m'.2)))

def fillPieces (L : Layout) (base c : ℕ) : List Piece :=
  let spanLo := pageFloor (L.chunkStart c) L.pageSize
  let spanHi := pageCeil (L.chunkStart (c+1)) L.pageSize
  let exclLo := L.exclLo c
  let exclHi := L.exclHi c
  if exclLo < exclHi then
    .publish (sizeSub exclLo spanLo) (sizeSub exclHi exclLo) (base+exclLo)::
      ((if spanLo < exclLo then [.discard 0 (sizeSub exclLo spanLo)] else []) ++
       (if exclHi < spanHi then [.discard (sizeSub exclHi spanLo) (sizeSub spanHi exclHi)] else []))
  else [.discard 0 (sizeSub spanHi spanLo)]

def fillChunkLocked (s : State) (rid : RegionId) (c : ℕ) : Option (List Op × State) :=
  let r := s.pool.region rid
  let L := r.layout
  let start := L.chunkStart c
  let stop := L.chunkStart (c+1)
  let spanLo := pageFloor start L.pageSize
  let spanHi := pageCeil stop L.pageSize
  let blank := vmScratchCreate (sizeSub spanHi spanLo)
  let dst := ⟨blank.size,sizeSub start spanLo,sizeSub stop start⟩
  let bytes := VmPages.memcpy blank.bytes (sizeSub start spanLo) (r.fillChunk c) 0 (sizeSub stop start)
  let scratch := { blank with bytes := bytes }
  let r := { r with initialized := Function.update r.initialized c true }
  (stageShared r s.vm c scratch).bind (fun m =>
    let p := { s.pool.update rid (fun _ => m.2.1) with
      history := .fill (rid,c) (L.chunkSize c)::s.pool.history }
    (fillAccount p (rid,c)).map (fun p =>
      (.fillChunk dst::m.1 ++ .seal::(fillPieces L r.base c).map .consume,
        ⟨p,consume m.2.2 scratch (fillPieces L r.base c)⟩)))

section Geometry
variable (L : Layout) {c k : ℕ}

theorem mapped_lt : L.mappedSize < 2^64 := by
  have := L.mapped_bounds.2
  have := L.total_fits
  omega

theorem stop_fits (hc : c < L.nchunks) : L.chunkStart (c+1)+L.pageSize-1 < 2^64 := by
  have := L.start_le_total (i := c+1) (by omega)
  have := L.total_fits
  omega

/-- The span of a chunk covers it and ends within the mapping. -/
theorem span_bounds (hc : c < L.nchunks) :
    boundaryPage L c ≤ L.chunkStart c ∧ L.chunkStart c < L.chunkStart (c+1) ∧
    L.chunkStart (c+1) ≤ pageCeil (L.chunkStart (c+1)) L.pageSize ∧
    pageCeil (L.chunkStart (c+1)) L.pageSize ≤ L.mappedSize := by
  have hfit := stop_fits L hc
  have hle := L.start_le_total (i := c+1) (by omega)
  have hmap := L.mapped_bounds.1
  exact ⟨boundaryPage_le L c,L.start_succ c hc,(pageCeil_bounds L.pageSize_pos hfit).1,
    pageCeil_le L.pageSize_pos L.dvd_mapped hfit (hle.trans hmap)⟩

/-- The exclusive pages of a chunk lie in its span. -/
theorem excl_bounds (hc : c < L.nchunks) : boundaryPage L c ≤ L.exclLo c ∧
    L.exclHi c ≤ pageCeil (L.chunkStart (c+1)) L.pageSize := by
  obtain ⟨h1,h2,h3,-⟩ := span_bounds L hc
  have hlo : L.exclLo c ≤ pageCeil (L.chunkStart (c+1)) L.pageSize := by
    have hfit := stop_fits L hc
    exact pageCeil_le L.pageSize_pos (dvd_pageCeil _ _) (by omega) (by omega)
  have hge := exclLo_ge L hc
  have hfl := pageFloor_le (L.chunkStart (c+1)) L.pageSize
  refine ⟨by omega,?_⟩
  simp only [Layout.exclLo,Layout.exclHi,Layout.chunkExclusivePages] at hlo ⊢
  by_cases hlast : c+1 = L.nchunks
  · have hend : L.mappedSize = pageCeil (L.chunkStart (c+1)) L.pageSize := by
      rw [hlast,L.start_last,L.mapped_eq]
    split_ifs <;> omega
  · split_ifs <;> omega

/-- The slice of a chunk in one of its shared pages is not empty. -/
theorem slice_bounds (hk : k < nshared L) (hc : c < L.nchunks) (ht : L.Touches c (sharedPage L k).pageOff) :
    (sharedPage L k).pageOff ≤ sliceLo L k c ∧ L.chunkStart c ≤ sliceLo L k c ∧
    sliceLo L k c < sliceHi L k c ∧ sliceHi L k c ≤ (sharedPage L k).pageOff+L.pageSize ∧
    sliceHi L k c ≤ L.chunkStart (c+1) ∧
    sliceHi L k c = if L.chunkStart (c+1) < (sharedPage L k).pageOff+L.pageSize then L.chunkStart (c+1)
      else (sharedPage L k).pageOff+L.pageSize := by
  obtain ⟨h1,h2⟩ := ht
  have hsucc := L.start_succ c hc
  have hP := L.pageSize_pos
  have hend : (sharedPage L k).pageOff+L.pageSize ≤ L.mappedSize :=
    aligned_add_le (shared_aligned L hk) L.dvd_mapped
      (lt_of_lt_of_le (shared_lt_total L hk) L.mapped_bounds.1)
  have hfits := mapped_lt L
  have hadd : sizeAdd (sharedPage L k).pageOff L.pageSize = (sharedPage L k).pageOff+L.pageSize :=
    sizeAdd_eq (hend.trans_lt hfits)
  simp only [sliceLo,sliceHi,hadd]
  refine ⟨?_,?_,?_,?_,?_,trivial⟩ <;> split_ifs <;> omega

end Geometry

section Erasure
variable {r : Region} {vm : PageTable} {c k : ℕ} {scratch : Scratch}

/-- The buffer that a page stages into, or the one that it would create. -/
def stagingBuffer (r : Region) (k : ℕ) : Scratch :=
  (r.sharedPages k).staging.getD (vmScratchCreate r.layout.pageSize)

/-- The record of one contribution, with differences that do not wrap. -/
def stageOps (r : Region) (k c : ℕ) (scratch : Scratch) : List Op :=
  let L := r.layout
  let off := (sharedPage L k).pageOff
  let len := sliceHi L k c-sliceLo L k c
  .memcpy k ⟨(stagingBuffer r k).size,sliceLo L k c-off,len⟩
    ⟨scratch.size,sliceLo L k c-boundaryPage L c,len⟩::
  if (r.sharedPages k).staged+1 = (sharedPage L k).lastChunk-(sharedPage L k).firstChunk+1 then
    [.install k (stagingBuffer r k).size (.publish 0 L.pageSize (r.base+off))]
  else []

/-- A contribution, with its record left out, is the pool's. -/
theorem stage_traced (hk : k < nshared r.layout) (hc : c < r.layout.nchunks)
    (ht : r.layout.Touches c (sharedPage r.layout k).pageOff) :
    stageIntoSharedPage r vm (some k) c scratch (boundaryPage r.layout c) =
      (PoolMachine.stageIntoSharedPage r vm (some k) c scratch (boundaryPage r.layout c)).map
        (fun m => (stageOps r k c scratch,m)) := by
  obtain ⟨g1,g2,g3,g4,g5,hhi⟩ := slice_bounds r.layout hk hc ht
  obtain ⟨s1,s2,s3,s4⟩ := span_bounds r.layout hc
  have hfits := mapped_lt r.layout
  have hlen : sizeSub (sliceHi r.layout k c) (sliceLo r.layout k c) =
      sliceHi r.layout k c-sliceLo r.layout k c := sizeSub_eq (by omega) (by omega)
  have hdst : sizeSub (sliceLo r.layout k c) (sharedPage r.layout k).pageOff =
      sliceLo r.layout k c-(sharedPage r.layout k).pageOff := sizeSub_eq (by omega) (by omega)
  have hsrc : sizeSub (sliceLo r.layout k c) (boundaryPage r.layout c) =
      sliceLo r.layout k c-boundaryPage r.layout c := sizeSub_eq (by omega) (by omega)
  have hslice : stagedSlice r k c scratch (boundaryPage r.layout c) =
      ⟨(stagingBuffer r k).size,VmPages.memcpy (stagingBuffer r k).bytes
        (sliceLo r.layout k c-(sharedPage r.layout k).pageOff) scratch.bytes
        (sliceLo r.layout k c-boundaryPage r.layout c) (sliceHi r.layout k c-sliceLo r.layout k c)⟩ := by
    rw [hhi]
    rfl
  cases hm : (r.sharedPages k).mapped with
  | true => simp [stageIntoSharedPage,PoolMachine.stageIntoSharedPage,hm]
  | false =>
    rw [stage_eq hm,hslice]
    simp only [stageIntoSharedPage,hm,Bool.false_eq_true,if_false,hlen,hdst,hsrc,stageOps]
    split_ifs with hlast
    · simp [installSharedPage,contributed,stagingBuffer,consume]
    · rfl

/-- The record of a conditional contribution. -/
def whenOps (flag : Bool) (r : Region) (page c : ℕ) (scratch : Scratch) : List Op :=
  if flag then
    .findSharedPage page (findSharedPage r.layout page)::
      (findSharedPage r.layout page).elim [] (fun k => stageOps r k c scratch)
  else []

theorem when_traced {flag : Bool} {b : ℕ} (hc : c < r.layout.nchunks)
    (hu : flag = true → Unaligned r.layout b ∧ r.layout.Touches c (boundaryPage r.layout b)) :
    stageWhen flag r vm (boundaryPage r.layout b) c scratch (boundaryPage r.layout c) =
      (PoolMachine.stageWhen flag r vm (findSharedPage r.layout (boundaryPage r.layout b)) c scratch
        (boundaryPage r.layout c)).map (fun m => (whenOps flag r (boundaryPage r.layout b) c scratch,m)) := by
  cases flag with
  | false => rfl
  | true =>
    obtain ⟨hb,ht⟩ := hu rfl
    obtain ⟨k,hk⟩ := findSharedPage_boundary r.layout hb
    obtain ⟨hkn,hko⟩ := (findSharedPage_some r.layout _ k).mp hk
    simp only [stageWhen,PoolMachine.stageWhen,whenOps,if_true,hk,Option.elim_some]
    rw [stage_traced hkn hc (hko ▸ ht),Option.map_map]
    rfl

/-- Staging changes the staging fields only. -/
theorem stage_fields {sp : Option ℕ} {spanLo : ℕ} {m : Region × PageTable}
    (h : PoolMachine.stageIntoSharedPage r vm sp c scratch spanLo = some m) :
    m.1 = { r with chunkStaged := m.1.chunkStaged, sharedPages := m.1.sharedPages } := by
  cases sp with
  | none => cases h
  | some k =>
    cases hm : (r.sharedPages k).mapped with
    | true => simp [PoolMachine.stageIntoSharedPage,hm] at h
    | false =>
      rw [stage_eq hm] at h
      split_ifs at h
      · cases h
        rfl
      · cases h
        rfl

theorem when_fields {flag : Bool} {sp : Option ℕ} {spanLo : ℕ} {m : Region × PageTable}
    (h : PoolMachine.stageWhen flag r vm sp c scratch spanLo = some m) :
    m.1 = { r with chunkStaged := m.1.chunkStaged, sharedPages := m.1.sharedPages } := by
  cases flag with
  | false =>
    cases h
    rfl
  | true => exact stage_fields h

/-- The tail flag after its correction. -/
theorem tail_flag (L : Layout) (c : ℕ) :
    (if hasHead L c && hasTail L c && boundaryPage L (c+1) == boundaryPage L c then false
      else hasTail L c) = stagesTail L c := by
  unfold stagesTail
  cases hasHead L c <;> cases hasTail L c <;>
    cases boundaryPage L (c+1) == boundaryPage L c <;> rfl

/-- The staging of a first fill, with the records of its two halves. -/
theorem shared_traced (hc : c < r.layout.nchunks) (hst : r.chunkStaged c = false) :
    stageShared r vm c scratch =
      (PoolMachine.stageWhen (hasHead r.layout c) r vm
        (findSharedPage r.layout (boundaryPage r.layout c)) c scratch (boundaryPage r.layout c)).bind
      (fun m => (PoolMachine.stageWhen (stagesTail r.layout c) m.1 m.2
        (findSharedPage r.layout (boundaryPage r.layout (c+1))) c scratch (boundaryPage r.layout c)).map
      (fun m' => (whenOps (hasHead r.layout c) r (boundaryPage r.layout c) c scratch ++
        whenOps (stagesTail r.layout c) m.1 (boundaryPage r.layout (c+1)) c scratch,m'))) := by
  unfold stageShared
  simp only [tail_flag]
  rw [hst,if_neg Bool.false_ne_true,when_traced hc (head_touches r.layout hc)]
  cases hw : PoolMachine.stageWhen (hasHead r.layout c) r vm
      (findSharedPage r.layout (boundaryPage r.layout c)) c scratch (boundaryPage r.layout c) with
  | none => rfl
  | some m =>
    have hl : m.1.layout = r.layout := by rw [when_fields hw]
    have hsecond : stageWhen (stagesTail r.layout c) m.1 m.2 (boundaryPage m.1.layout (c+1)) c scratch
        (boundaryPage m.1.layout c) = _ := when_traced (hl ▸ hc)
      (by rw [hl]; exact tail_touches r.layout hc)
    rw [hl] at hsecond
    simp only [Option.map_some,Option.bind_some]
    rw [hsecond,Option.map_map]
    rfl

theorem fillPieces_eq (L : Layout) (base : ℕ) (hc : c < L.nchunks) :
    fillPieces L base c = PoolMachine.fillPieces L base c := by
  obtain ⟨s1,s2,s3,s4⟩ := span_bounds L hc
  obtain ⟨e1,e2⟩ := excl_bounds L hc
  have hfits := mapped_lt L
  have hle := excl_le L c
  simp only [boundaryPage] at s1 e1
  simp only [fillPieces,PoolMachine.fillPieces]
  rw [sizeSub_eq e1 (by omega),sizeSub_eq hle (by omega),sizeSub_eq (e1.trans hle) (by omega),
    sizeSub_eq e2 (by omega),sizeSub_eq (by omega) (by omega)]

theorem shared_erased (hc : c < r.layout.nchunks) :
    (stageShared r vm c scratch).map Prod.snd = PoolMachine.stageShared r vm c scratch := by
  cases hst : r.chunkStaged c with
  | true => simp [stageShared,PoolMachine.stageShared,hst]
  | false =>
    rw [shared_traced hc hst,Option.map_bind]
    unfold PoolMachine.stageShared
    rw [hst,if_neg Bool.false_ne_true]
    congr 1
    funext m
    rw [Function.comp_apply,Option.map_map]
    exact Option.map_id'

/-- The pages that a chunk has a byte in. -/
def spanLen (L : Layout) (c : ℕ) : ℕ := pageCeil (L.chunkStart (c+1)) L.pageSize-boundaryPage L c

/-- What a fill writes into the scratch buffer, and where. -/
def fillDst (L : Layout) (c : ℕ) : Access :=
  ⟨spanLen L c,L.chunkStart c-boundaryPage L c,L.chunkSize c⟩

/-- The region that a fill stages from. -/
def begun (r : Region) (c : ℕ) : Region :=
  { r with initialized := Function.update r.initialized c true }

/-- A fill with its record, in terms of differences that do not wrap. -/
theorem fill_traced {s : State} {rid : RegionId} (hc : c < (s.pool.region rid).layout.nchunks) :
    let r := s.pool.region rid
    fillChunkLocked s rid c = (stageShared (begun r c) s.vm c (fillScratch r c)).bind (fun m =>
      (fillAccount { s.pool.update rid (fun _ => m.2.1) with
          history := .fill (rid,c) (r.layout.chunkSize c)::s.pool.history } (rid,c)).map (fun p =>
        (.fillChunk (fillDst r.layout c)::m.1 ++
            .seal::(PoolMachine.fillPieces r.layout r.base c).map .consume,
          ⟨p,consume m.2.2 (fillScratch r c) (PoolMachine.fillPieces r.layout r.base c)⟩))) := by
  obtain ⟨s1,s2,s3,s4⟩ := span_bounds (s.pool.region rid).layout hc
  have hfits := mapped_lt (s.pool.region rid).layout
  simp only [boundaryPage] at s1
  simp only [fillChunkLocked,fillPieces_eq _ _ hc]
  rw [sizeSub_eq s1 (by omega),sizeSub_eq s2.le (by omega),sizeSub_eq (by omega) (by omega)]
  rfl

/-- The fill without its record is the fill of the pool. -/
theorem fill_erased (s : State) (rid : RegionId) (hc : c < (s.pool.region rid).layout.nchunks) :
    (fillChunkLocked s rid c).map Prod.snd = PoolMachine.fillChunkLocked s rid c := by
  rw [fill_traced hc,Option.map_bind]
  simp only [PoolMachine.fillChunkLocked]
  have hshared : _ = PoolMachine.stageShared (begun (s.pool.region rid) c) s.vm c
      (fillScratch (s.pool.region rid) c) := shared_erased hc
  rw [begun] at hshared ⊢
  rw [← hshared,Option.bind_map]
  congr 1
  funext m
  simp only [Function.comp_apply,Option.map_map]
  rfl

end Erasure

end FaultCache.FillTrace
