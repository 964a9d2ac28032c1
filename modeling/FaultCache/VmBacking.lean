import FaultCache.VmTrace

/-!
# The seam backs the pool

Along every call the memory behind the seam is what the pool believes it to be:
the same page table, the ranges of the live regions reserved, one page held for
every shared page that is being staged, and no scratch buffer left over. Each of
the calls is allowed when it is made.
-/

set_option autoImplicit false

namespace FaultCache.VmBacking
open FaultCache.SentinelRing FaultCache.PageGeometry FaultCache.SharedPages FaultCache.VmPages
open FaultCache.PoolMachine FaultCache.PoolStaging FaultCache.PoolQueue FaultCache.PoolMemory
open FaultCache.PoolHistory FaultCache.PoolInvariant FaultCache.PoolResolve FaultCache.FaultProcess
open FaultCache.ProcessInvariant FaultCache.LabelledRuns FaultCache.PoolLifetime FaultCache.FaultEffects
open FaultCache.RangeTiling FaultCache.ScratchContract FaultCache.FillSafety
open FaultCache.FillTrace (stagingBuffer spanLen span_bounds slice_bounds excl_bounds)
open FaultCache.VmContract FaultCache.VmTrace

section Buffers
variable {P : ℕ} {m : Memory} {b : Buffer} {h : Held} {x y : Option Held}

@[simp] theorem hold_hold : (m.hold b x).hold b y = m.hold b y := by
  simp [Memory.hold]

theorem hold_same (hb : m.held b = x) : m.hold b x = m := by
  subst hb
  simp [Memory.hold]

/-- A buffer that has been created and written to only. -/
def heldBy (s : Scratch) : Held := ⟨s.size,s.bytes,false,[]⟩

def pending (page : SharedPage) : Option Held := page.staging.map heldBy

/-- Giving away a buffer in one piece. -/
theorem seal_publish {n target : ℕ} (hb : m.held b = some h) (hs : h.sealed = false) (hu : h.used = [])
    (hn : h.size = n) (hp : Pages P 0 n) (ht : P ∣ target) (hr : ∀ q, target ≤ q ∧ q < target+n →
      m.reserved q = true ∧ (P ∣ q → m.table q = .inaccessible)) :
    AllAllowed P m [.seal b,.consume b (.publish 0 n target)] ∧
    calls m [.seal b,.consume b (.publish 0 n target)] =
      { m with table := vmScratchPublish m.table ⟨h.size,h.bytes⟩ 0 n target }.hold b none := by
  subst hn
  have hseal : call m (.seal b) = m.hold b (some { h with sealed := true }) := by
    simp only [call,hb,Option.map_some]
  constructor
  · refine ⟨⟨h,hb,hs,hu⟩,?_,trivial⟩
    rw [hseal]
    refine ⟨_,hold_self _ _ _,⟨hp.start,hp.whole,hp.pos⟩,(Nat.zero_add _).le,?_,rfl,ht,hr⟩
    intro r hr
    rw [hu] at hr
    cases hr
  · have huse : ({ h with sealed := true } : Held).use ⟨0,h.size⟩ = none := by
      simp [Held.use,hu]
    rw [calls_cons,hseal,calls_cons,calls_nil]
    simp only [call,hold_self,Option.elim_some,Option.bind_some,span,huse]
    simp [Memory.hold,consume]

section Pieces
variable {used : List Span} {ps : List Piece}

/-- One piece of a buffer whose pieces are a tiling. -/
theorem use_piece {p : Piece} (ht : Tiles h.size (h.used ++ (p::ps).map span))
    (hlen : ∀ q ∈ ps, 0 < (span q).len) : h.use (span p) =
      if ps = [] then none else some { h with used := h.used ++ [span p] } := by
  have hsplit : Tiles h.size ((h.used ++ [span p]) ++ ps.map span) := by simpa using ht
  have hpos : ∀ r ∈ ps.map span, 0 < r.len := by
    intro r hr
    obtain ⟨q,hq,rfl⟩ := List.mem_map.mp hr
    exact hlen q hq
  have hiff := (hsplit.prefix_total hpos).2
  rw [List.map_eq_nil_iff] at hiff
  rw [Held.use]
  exact if_congr hiff rfl rfl

theorem piece_allowed {p : Piece} (hb : m.held b = some h)
    (ht : Tiles h.size (h.used ++ (p::ps).map span)) (hp : Pages P (span p).off (span p).len)
    (hpl : Placeable P m h p) : Allowed P m (.consume b p) := by
  refine ⟨h,hb,hp,ht.inside (by simp) hp.pos,?_,hpl⟩
  intro r hr
  exact (List.pairwise_append.mp ht.disjoint).2.2 r hr _ (by simp)

theorem discards_used (hb : m.held b = some h) (hne : ps ≠ [])
    (ht : Tiles h.size (h.used ++ ps.map span)) (hp : ∀ p ∈ ps, Pages P (span p).off (span p).len)
    (hd : ∀ p ∈ ps, ∃ off len, p = .discard off len) :
    AllAllowed P m (ps.map (.consume b)) ∧ calls m (ps.map (.consume b)) = m.hold b none := by
  induction ps generalizing m h with
  | nil => exact absurd rfl hne
  | cons p ps ih =>
    obtain ⟨off,len,rfl⟩ := hd p List.mem_cons_self
    have huse := use_piece ht (fun q hq => (hp q (List.mem_cons_of_mem _ hq)).pos)
    have hfirst := piece_allowed hb ht (hp _ List.mem_cons_self) trivial
    have hcall : call m (.consume b (.discard off len)) = m.hold b (h.use (span (.discard off len))) := by
      simp only [call,hb,Option.elim_some,Option.bind_some]
      rfl
    rw [List.map_cons,calls_cons,hcall,huse]
    refine ⟨⟨hfirst,?_⟩,?_⟩
    · rw [hcall,huse]
      split_ifs with hnil
      · subst hnil
        trivial
      · exact (ih (hold_self _ _ _) hnil (by simpa using ht) (fun q hq => hp q (List.mem_cons_of_mem _ hq))
          (fun q hq => hd q (List.mem_cons_of_mem _ hq))).1
    · split_ifs with hnil
      · subst hnil
        rfl
      · rw [(ih (hold_self _ _ _) hnil (by simpa using ht) (fun q hq => hp q (List.mem_cons_of_mem _ hq))
          (fun q hq => hd q (List.mem_cons_of_mem _ hq))).2,hold_hold]

end Pieces

end Buffers

section Stage
variable {P k rid c j : ℕ} {r : Region} {m : Memory} {scratch : Scratch}

/-- The staging buffer is there before the copy, old or new. -/
theorem create_staging (hm : m.held (.staging k rid j) = pending (r.sharedPages j))
    (hl : r.layout.pageSize = P) (cs : List VmCall) :
    (AllAllowed P m ((if (r.sharedPages j).staging.isSome then [] else
        [.create (.staging k rid j) r.layout.pageSize]) ++ cs) ↔
      AllAllowed P (m.hold (.staging k rid j) (some (heldBy (stagingBuffer r j)))) cs) ∧
    calls m ((if (r.sharedPages j).staging.isSome then [] else
        [.create (.staging k rid j) r.layout.pageSize]) ++ cs) =
      calls (m.hold (.staging k rid j) (some (heldBy (stagingBuffer r j)))) cs := by
  cases hs : (r.sharedPages j).staging with
  | some buffer =>
    have hsame : m.hold (.staging k rid j) (some (heldBy (stagingBuffer r j))) = m := by
      refine hold_same ?_
      rw [hm,pending,stagingBuffer,hs]
      rfl
    rw [hsame]
    exact ⟨Iff.rfl,rfl⟩
  | none =>
    have hnew : stagingBuffer r j = vmScratchCreate r.layout.pageSize := by
      rw [stagingBuffer,hs]
      rfl
    have hcall : call m (.create (.staging k rid j) r.layout.pageSize) =
        m.hold (.staging k rid j) (some (heldBy (stagingBuffer r j))) := by
      rw [hnew]
      rfl
    rw [← hcall]
    refine ⟨⟨fun h => h.2,fun h => ⟨⟨⟨dvd_zero P,hl ▸ dvd_refl _,r.layout.pageSize_pos⟩,?_⟩,h⟩⟩,rfl⟩
    rw [hm,pending,hs]
    rfl

theorem copy_slice (P k rid : ℕ) (hb : m.held .scratch = some (heldBy scratch)) (hj : j < nshared r.layout)
    (hc : c < r.layout.nchunks) (ht : r.layout.Touches c (sharedPage r.layout j).pageOff)
    (hs : scratch.size = spanLen r.layout c) (hz : StagingSized r) :
    let off := (sharedPage r.layout j).pageOff
    let lo := if off < r.layout.chunkStart c then r.layout.chunkStart c else off
    let hi := if r.layout.chunkStart (c+1) < off+r.layout.pageSize then r.layout.chunkStart (c+1)
      else off+r.layout.pageSize
    let copy := VmCall.copy (.staging k rid j) (lo-off) .scratch (lo-boundaryPage r.layout c) (hi-lo)
    let m₁ := m.hold (.staging k rid j) (some (heldBy (stagingBuffer r j)))
    Allowed P m₁ copy ∧ call m₁ copy = m.hold (.staging k rid j)
      (some (heldBy (stagedSlice r j c scratch (boundaryPage r.layout c)))) := by
  intro off lo hi copy m₁
  obtain ⟨g1,g2,g3,g4,g5,g6⟩ := slice_bounds r.layout hj hc ht
  obtain ⟨s1,s2,s3,s4⟩ := span_bounds r.layout hc
  have hlo : FillTrace.sliceLo r.layout j c = lo := rfl
  have hhi : FillTrace.sliceHi r.layout j c = hi := g6
  rw [hlo] at g1 g2 g3
  rw [hhi] at g3 g4 g5
  have hoff : (sharedPage r.layout j).pageOff = off := rfl
  have hscr : m₁.held .scratch = some (heldBy scratch) := (hold_of_ne m _ (by simp)).trans hb
  have hown : m₁.held (.staging k rid j) = some (heldBy (stagingBuffer r j)) := hold_self _ _ _
  constructor
  · refine ⟨by simp,⟨_,hown,rfl,rfl,?_⟩,⟨_,hscr,rfl,?_⟩⟩
    · change lo-off+(hi-lo) ≤ (stagingBuffer r j).size
      rw [stagingBuffer_size hz]
      omega
    · change lo-boundaryPage r.layout c+(hi-lo) ≤ scratch.size
      rw [hs,spanLen]
      omega
  · simp only [copy,call,hown,hscr,Option.bind_some,Option.map_some]
    rw [hold_hold]
    rfl

/-- A contribution, on the memory behind the seam. -/
theorem stage_backs {r' : Region} {vm' : PageTable}
    (hm : m.held (.staging k rid j) = pending (r.sharedPages j))
    (hb : m.held .scratch = some (heldBy scratch)) (hj : j < nshared r.layout)
    (hc : c < r.layout.nchunks) (ht : r.layout.Touches c (sharedPage r.layout j).pageOff)
    (hs : scratch.size = spanLen r.layout c) (hz : StagingSized r) (hl : r.layout.pageSize = P)
    (hbase : P ∣ r.base) (hr : ∀ q, InShared r j q →
      m.reserved q = true ∧ (P ∣ q → m.table q = .inaccessible))
    (he : stageIntoSharedPage r m.table (some j) c scratch (boundaryPage r.layout c) = some (r',vm')) :
    AllAllowed P m (stageCalls k rid r j c) ∧ calls m (stageCalls k rid r j c) =
      { m with table := vm' }.hold (.staging k rid j) (pending (r'.sharedPages j)) := by
  obtain ⟨hcopy,hslice⟩ := copy_slice P k rid hb hj hc ht hs hz
  have hmap : (r.sharedPages j).mapped = false := by
    cases hmm : (r.sharedPages j).mapped with
    | false => rfl
    | true => simp [stageIntoSharedPage,hmm] at he
  have hsize : (stagedSlice r j c scratch (boundaryPage r.layout c)).size = r.layout.pageSize :=
    stagingBuffer_size hz j
  have halign : P ∣ r.base+(sharedPage r.layout j).pageOff :=
    (Nat.dvd_add_right hbase).mpr (hl ▸ shared_aligned r.layout hj)
  rw [stage_eq hmap] at he
  simp only [stageCalls]
  obtain ⟨hal,hcs⟩ := create_staging hm hl (.copy (.staging k rid j) _ .scratch _ _::_)
  rw [hal,hcs]
  simp only [AllAllowed,calls_cons]
  rw [hslice]
  by_cases hlast : (r.sharedPages j).staged+1 =
      (sharedPage r.layout j).lastChunk-(sharedPage r.layout j).firstChunk+1
  · rw [if_pos hlast] at he ⊢
    cases he
    have hpub := seal_publish (hold_self m (.staging k rid j) (some (heldBy
      (stagedSlice r j c scratch (boundaryPage r.layout c))))) rfl rfl hsize
      ⟨dvd_zero P,hl ▸ dvd_refl _,r.layout.pageSize_pos⟩ halign hr
    refine ⟨⟨hcopy,hpub.1⟩,hpub.2.trans ?_⟩
    simp [Memory.hold,contributed,pending,heldBy]
  · rw [if_neg hlast] at he ⊢
    cases he
    refine ⟨⟨hcopy,trivial⟩,?_⟩
    simp [contributed,pending]

end Stage

section Fill
variable {P k rid c : ℕ} {L : Layout} {base : ℕ} {m : Memory} {b : Buffer} {h : Held}

theorem excl_dvd (L : Layout) (c : ℕ) : L.pageSize ∣ L.exclLo c ∧ L.pageSize ∣ L.exclHi c := by
  have hlo : L.pageSize ∣ pageCeil (L.chunkStart c) L.pageSize := dvd_pageCeil _ _
  refine ⟨hlo,?_⟩
  simp only [Layout.exclHi,Layout.chunkExclusivePages]
  split_ifs
  · exact hlo
  · exact L.dvd_mapped
  · exact hlo
  · exact dvd_pageFloor _ _

theorem fillPieces_pages (hc : c < L.nchunks) : ∀ p ∈ PoolMachine.fillPieces L base c,
    Pages L.pageSize (span p).off (span p).len := by
  intro p hp
  have hpos := (fillPieces_consume L base hc).nonempty p hp
  obtain ⟨h1,h2⟩ := excl_dvd L c
  have h3 : L.pageSize ∣ boundaryPage L c := dvd_pageFloor _ _
  have h4 : L.pageSize ∣ spanLen L c := Nat.dvd_sub (dvd_pageCeil _ _) h3
  have hlo := Nat.dvd_sub h1 h3
  have hhi := Nat.dvd_sub h2 h3
  have hspans : span p ∈ (PoolMachine.fillPieces L base c).map span := List.mem_map_of_mem hp
  rw [fillPieces_spans L base hc] at hspans
  suffices hd : L.pageSize ∣ (span p).off ∧ L.pageSize ∣ (span p).len from ⟨hd.1,hd.2,hpos⟩
  split_ifs at hspans with hne
  · rcases List.mem_cons.mp hspans with he | hends
    · rw [he]
      exact ⟨hlo,Nat.dvd_sub hhi hlo⟩
    · rcases List.mem_append.mp hends with hm | hm
      · split_ifs at hm
        · rw [List.mem_singleton.mp hm]
          exact ⟨dvd_zero _,hlo⟩
        · cases hm
      · split_ifs at hm
        · rw [List.mem_singleton.mp hm]
          exact ⟨hhi,Nat.dvd_sub h4 hhi⟩
        · cases hm
  · rw [List.mem_singleton.mp hspans]
    exact ⟨dvd_zero _,h4⟩

/-- What the pieces of a fill are: at most one is published, and first. -/
theorem fillPieces_cases (L : Layout) (base c : ℕ) :
    (∃ ds, PoolMachine.fillPieces L base c = .publish (L.exclLo c-boundaryPage L c) (L.exclHi c-L.exclLo c)
        (base+L.exclLo c)::ds ∧ ∀ p ∈ ds, ∃ off len, p = .discard off len) ∨
    PoolMachine.fillPieces L base c ≠ [] ∧
      ∀ p ∈ PoolMachine.fillPieces L base c, ∃ off len, p = .discard off len := by
  simp only [PoolMachine.fillPieces]
  by_cases hne : L.exclLo c < L.exclHi c
  · rw [if_pos hne]
    refine Or.inl ⟨_,rfl,?_⟩
    intro p hp
    rcases List.mem_append.mp hp with hm | hm
    · split_ifs at hm
      · exact ⟨_,_,List.mem_singleton.mp hm⟩
      · cases hm
    · split_ifs at hm
      · exact ⟨_,_,List.mem_singleton.mp hm⟩
      · cases hm
  · rw [if_neg hne]
    exact Or.inr ⟨by simp,fun p hp => ⟨_,_,List.mem_singleton.mp hp⟩⟩

theorem consume_discards (t : PageTable) (s : Scratch) {ps : List Piece}
    (hd : ∀ p ∈ ps, ∃ off len, p = .discard off len) : consume t s ps = t := by
  induction ps with
  | nil => rfl
  | cons p ps ih =>
    obtain ⟨off,len,rfl⟩ := hd p List.mem_cons_self
    exact ih (fun q hq => hd q (List.mem_cons_of_mem _ hq))

/-- The end of a fill: the scratch buffer is sealed and used up. -/
theorem scratch_used {scratch : Scratch} (hb : m.held b = some (heldBy scratch)) (hc : c < L.nchunks)
    (hs : scratch.size = spanLen L c) (hbase : L.pageSize ∣ base)
    (hr : ∀ q, base+L.exclLo c ≤ q ∧ q < base+L.exclHi c →
      m.reserved q = true ∧ (L.pageSize ∣ q → m.table q = .inaccessible)) :
    AllAllowed L.pageSize m (.seal b::(PoolMachine.fillPieces L base c).map (.consume b)) ∧
    calls m (.seal b::(PoolMachine.fillPieces L base c).map (.consume b)) =
      { m with table := consume m.table scratch (PoolMachine.fillPieces L base c) }.hold b none := by
  let sealedBuffer : Held := ⟨scratch.size,scratch.bytes,true,[]⟩
  have hseal : call m (.seal b) = m.hold b (some sealedBuffer) := by
    simp only [call,hb,Option.map_some]
    rfl
  have hc₁ := fillPieces_consume L base hc
  have ht : Tiles sealedBuffer.size (sealedBuffer.used ++ (PoolMachine.fillPieces L base c).map span) := by
    have hsize : sealedBuffer.size = spanLen L c := hs
    rw [hsize]
    exact hc₁.tiles
  have hp : ∀ p ∈ PoolMachine.fillPieces L base c, Pages L.pageSize (span p).off (span p).len :=
    fillPieces_pages hc
  have hown : (m.hold b (some sealedBuffer)).held b = some sealedBuffer := hold_self _ _ _
  simp only [AllAllowed,calls_cons]
  rw [hseal]
  have hallowed : Allowed L.pageSize m (.seal b) := ⟨_,hb,rfl,rfl⟩
  rcases fillPieces_cases L base c with ⟨ds,he,hd⟩ | ⟨hne,hd⟩
  · rw [he] at ht hp ⊢
    have huse := use_piece ht (fun q hq => (hp q (List.mem_cons_of_mem _ hq)).pos)
    have hle := excl_le L c
    have hfirst : Allowed L.pageSize (m.hold b (some sealedBuffer)) (.consume b (.publish
        (L.exclLo c-boundaryPage L c) (L.exclHi c-L.exclLo c) (base+L.exclLo c))) := by
      refine piece_allowed hown ht (hp _ List.mem_cons_self) ⟨rfl,?_,?_⟩
      · exact (Nat.dvd_add_right hbase).mpr (excl_dvd L c).1
      · exact fun q hq => hr q ⟨hq.1,by omega⟩
    let m₁ : Memory := { m with
      table := vmScratchPublish m.table scratch (L.exclLo c-boundaryPage L c) (L.exclHi c-L.exclLo c)
        (base+L.exclLo c) }
    have hcall : call (m.hold b (some sealedBuffer)) (.consume b (.publish
        (L.exclLo c-boundaryPage L c) (L.exclHi c-L.exclLo c) (base+L.exclLo c))) =
        m₁.hold b (sealedBuffer.use (span (.publish (L.exclLo c-boundaryPage L c)
          (L.exclHi c-L.exclLo c) (base+L.exclLo c)))) := by
      simp only [call,hown,Option.elim_some,Option.bind_some]
      simp [Memory.hold,m₁,consume,sealedBuffer]
    have htable : consume m.table scratch (.publish (L.exclLo c-boundaryPage L c)
        (L.exclHi c-L.exclLo c) (base+L.exclLo c)::ds) = m₁.table := consume_discards _ _ hd
    rw [List.map_cons,calls_cons,htable,hcall,huse]
    refine ⟨⟨hallowed,hfirst,?_⟩,?_⟩
    · rw [hcall,huse]
      split_ifs with hnil
      · subst hnil
        trivial
      · exact (discards_used (hold_self _ _ _) hnil (by simpa using ht)
          (fun q hq => hp q (List.mem_cons_of_mem _ hq)) hd).1
    · split_ifs with hnil
      · subst hnil
        rfl
      · rw [(discards_used (hold_self _ _ _) hnil (by simpa using ht)
          (fun q hq => hp q (List.mem_cons_of_mem _ hq)) hd).2,hold_hold]
  · obtain ⟨h1,h2⟩ := discards_used hown hne ht hp hd
    rw [h2,hold_hold,consume_discards _ _ hd]
    exact ⟨⟨hallowed,h1⟩,rfl⟩

end Fill

section Staging
variable {P k rid c j : ℕ} {r r' : Region} {m m₀ : Memory} {scratch : Scratch} {vm' : PageTable}

/-- The memory while a fill stages the slices of its chunk. -/
structure Filling (k rid : ℕ) (r : Region) (scratch : Scratch) (m₀ m : Memory) : Prop where
  reserved : m.reserved = m₀.reserved
  scratch : m.held .scratch = some (heldBy scratch)
  staging : ∀ j < nshared r.layout, m.held (.staging k rid j) = pending (r.sharedPages j)
  others : ∀ b, b ≠ .scratch → (∀ j < nshared r.layout, b ≠ .staging k rid j) → m.held b = m₀.held b

theorem stageCalls_congr (hl : r'.layout = r.layout) (hb : r'.base = r.base)
    (hj : r'.sharedPages j = r.sharedPages j) : stageCalls k rid r' j c = stageCalls k rid r j c := by
  simp only [stageCalls,hl,hb,hj]

theorem page_of_shared {q : ℕ} (hj : j < nshared r.layout) (hl : r.layout.pageSize = P) (hbase : P ∣ r.base)
    (hq : InShared r j q) (hd : P ∣ q) : q = r.base+(sharedPage r.layout j).pageOff := by
  have ha := (Nat.dvd_add_right hbase).mpr (hl ▸ shared_aligned r.layout hj)
  exact (aligned_eq ha hd hq.1 (by have := hq.2; omega)).symm

/-- A contribution that is made when the flag says so. -/
theorem when_backs (flag : Bool) {b : ℕ} (hF : Filling k rid r scratch m₀ m) (hv : SharedShown r m.table)
    (hc : c < r.layout.nchunks)
    (hu : flag = true → Unaligned r.layout b ∧ r.layout.Touches c (boundaryPage r.layout b))
    (hs : scratch.size = spanLen r.layout c) (hz : StagingSized r) (hl : r.layout.pageSize = P)
    (hbase : P ∣ r.base) (hres : ∀ q, InRange r q → m.reserved q = true)
    (he : stageWhen flag r m.table (findSharedPage r.layout (boundaryPage r.layout b)) c scratch
      (boundaryPage r.layout c) = some (r',vm')) :
    let cs := stageWhenCalls k rid flag r (findSharedPage r.layout (boundaryPage r.layout b)) c
    AllAllowed P m cs ∧ (calls m cs).table = vm' ∧ Filling k rid r' scratch m₀ (calls m cs) ∧
      ∀ j < nshared r.layout, (flag = true → (sharedPage r.layout j).pageOff ≠ boundaryPage r.layout b) →
        r'.sharedPages j = r.sharedPages j := by
  intro cs
  cases flag with
  | false =>
    cases he
    exact ⟨trivial,rfl,hF,fun _ _ _ => rfl⟩
  | true =>
    obtain ⟨hb,ht⟩ := hu rfl
    obtain ⟨j,hj⟩ := findSharedPage_boundary r.layout hb
    obtain ⟨hjn,hjo⟩ := (findSharedPage_some r.layout _ j).mp hj
    have hcs : cs = stageCalls k rid r j c := by
      simp only [cs,stageWhenCalls,hj]
      rfl
    rw [stageWhen,if_pos rfl,hj] at he
    have hmap : (r.sharedPages j).mapped = false := by
      cases hmm : (r.sharedPages j).mapped with
      | false => rfl
      | true => simp [stageIntoSharedPage,hmm] at he
    have hpage : ∀ q, InShared r j q → m.reserved q = true ∧ (P ∣ q → m.table q = .inaccessible) := by
      intro q hq
      refine ⟨hres q (shared_inRange hjn hq),fun hd => ?_⟩
      have hshown := hv j hjn
      rw [PageShown,hmap,if_neg Bool.false_ne_true] at hshown
      rw [page_of_shared hjn hl hbase hq hd]
      exact hshown
    obtain ⟨hal,hafter⟩ := stage_backs (hF.staging j hjn) hF.scratch hjn hc (hjo ▸ ht) hs hz hl hbase hpage he
    have hfields := FillTrace.stage_fields he
    have hlay : r'.layout = r.layout := (congrArg Region.layout hfields :)
    have hothers : ∀ i, i ≠ j → r'.sharedPages i = r.sharedPages i := by
      intro i hi
      rw [stage_eq hmap] at he
      split_ifs at he
      · cases he
        exact Function.update_of_ne hi _ _
      · cases he
        exact Function.update_of_ne hi _ _
    rw [hcs,hafter]
    refine ⟨hal,rfl,⟨hF.reserved,?_,?_,?_⟩,?_⟩
    · exact (hold_of_ne _ _ (by simp)).trans hF.scratch
    · intro i hi
      rw [hlay] at hi
      by_cases hij : i = j
      · subst hij
        exact hold_self _ _ _
      · rw [hold_of_ne _ _ (by simp [hij]),hothers i hij]
        exact hF.staging i hi
    · intro b' hb' hno
      rw [hlay] at hno
      rw [hold_of_ne _ _ (hno j hjn)]
      exact hF.others b' hb' hno
    · intro i hi hne
      apply hothers
      rintro rfl
      exact hne rfl hjo

/-- The staging half of a fill. -/
theorem shared_backs {done : Region} (hF : Filling k rid r scratch m₀ m)
    (hst : StagedBy r (fun _ => r.chunkStaged)) (hv : SharedShown r m.table) (hc : c < r.layout.nchunks)
    (hsl : Slices r c scratch) (hs : scratch.size = spanLen r.layout c) (hz : StagingSized r)
    (hl : r.layout.pageSize = P) (hbase : P ∣ r.base) (hres : ∀ q, InRange r q → m.reserved q = true)
    (he : stageShared r m.table c scratch = some (done,vm')) :
    AllAllowed P m (stageSharedCalls k rid r c) ∧ (calls m (stageSharedCalls k rid r c)).table = vm' ∧
      Filling k rid done scratch m₀ (calls m (stageSharedCalls k rid r c)) := by
  unfold stageShared at he
  unfold stageSharedCalls
  cases hs₀ : r.chunkStaged c with
  | true =>
    rw [hs₀] at he
    cases he
    exact ⟨trivial,rfl,hF⟩
  | false =>
    rw [hs₀] at he
    simp only [Bool.false_eq_true,if_false] at he ⊢
    obtain ⟨⟨r₁,vm₁⟩,h₁,h₂⟩ := Option.bind_eq_some_iff.mp he
    obtain ⟨r₁',vm₁',e₁,-,v₁,-,-⟩ := stage_optional (b := c) (hasHead r.layout c) hst hv hc
      (head_touches r.layout hc) (fun _ _ _ _ => hs₀) hsl
    obtain ⟨rfl,rfl⟩ := Prod.mk.inj (Option.some.inj (e₁.symm.trans h₁))
    obtain ⟨a₁,t₁,F₁,o₁⟩ := when_backs (hasHead r.layout c) hF hv hc (head_touches r.layout hc) hs hz hl
      hbase hres h₁
    have hfields := FillTrace.when_fields h₁
    have hlay : r₁'.layout = r.layout := (congrArg Region.layout hfields :)
    have hb : r₁'.base = r.base := (congrArg Region.base hfields :)
    have hz₁ : StagingSized r₁' := when_sized hz h₁
    set m₁ := calls m (stageWhenCalls k rid (hasHead r.layout c) r
      (findSharedPage r.layout (boundaryPage r.layout c)) c) with hm₁
    have hcall : stageWhenCalls k rid (stagesTail r.layout c) r
        (findSharedPage r.layout (boundaryPage r.layout (c+1))) c =
        stageWhenCalls k rid (stagesTail r₁'.layout c) r₁'
        (findSharedPage r₁'.layout (boundaryPage r₁'.layout (c+1))) c := by
      rw [hlay]
      cases htail : stagesTail r.layout c with
      | false => rfl
      | true =>
        obtain ⟨j,hj⟩ := findSharedPage_boundary r.layout (stagesTail_unaligned r.layout htail)
        obtain ⟨hjn,hjo⟩ := (findSharedPage_some r.layout _ j).mp hj
        rw [hj]
        refine (stageCalls_congr hlay hb (o₁ j hjn (fun hh he => ?_))).symm
        exact stagesTail_apart r.layout htail hh (hjo.symm.trans he)
    have h₂' : stageWhen (stagesTail r₁'.layout c) r₁' m₁.table
        (findSharedPage r₁'.layout (boundaryPage r₁'.layout (c+1))) c scratch (boundaryPage r₁'.layout c) =
        some (done,vm') := by
      rw [hlay,t₁]
      exact h₂
    obtain ⟨a₂,t₂,F₂,-⟩ := when_backs (stagesTail r₁'.layout c) F₁ (t₁ ▸ v₁) (hlay ▸ hc)
      (tail_touches r₁'.layout (hlay ▸ hc)) (hlay ▸ hs) hz₁ (hlay ▸ hl) (hb ▸ hbase)
      (fun q hq => by
        rw [F₁.reserved,← hF.reserved]
        exact hres q (by rwa [InRange,hlay,hb] at hq)) h₂'
    rw [hcall,allowed_append,calls_append,← hm₁]
    exact ⟨⟨a₁,a₂⟩,t₂,F₂⟩

end Staging

section Operations
variable {P : ℕ} {k : PoolId} {s s' : State} {hot cold : List Node} {rid : RegionId} {c : ℕ} {e : Event}
  {m : Memory}

/-- The memory behind the seam, seen from pool `k`. -/
structure Backs (k : PoolId) (s : State) (m : Memory) : Prop where
  table : m.table = s.vm
  reserved : ∀ rid ∈ s.pool.regions, ∀ q, InRange (s.pool.region rid) q → m.reserved q = true
  scratch : m.held .scratch = none
  staging : ∀ rid ∈ s.pool.regions, ∀ j < nshared (s.pool.region rid).layout,
    m.held (.staging k rid j) = pending ((s.pool.region rid).sharedPages j)

/-- What calls of pool `k` leave alone. -/
structure Kept (k : PoolId) (p : Pool) (m m' : Memory) : Prop where
  reserved : m'.reserved = m.reserved
  held : ∀ b, (∀ rid ∈ p.regions, ∀ j < nshared (p.region rid).layout, b ≠ .staging k rid j) →
    m'.held b = m.held b

/-- The regions of a pool lie on pages of `P` bytes. -/
def Paged (P : ℕ) (p : Pool) : Prop :=
  ∀ rid ∈ p.regions, (p.region rid).layout.pageSize = P ∧ P ∣ (p.region rid).base

theorem Kept.refl (k : PoolId) (p : Pool) (m : Memory) : Kept k p m m := ⟨rfl,fun _ _ => rfl⟩

theorem Kept.trans {p p' : Pool} {m m' m₂ : Memory} (h : Kept k p m m') (h₂ : Kept k p' m' m₂)
    (hr : p'.regions = p.regions) (hl : SameLayouts p p') : Kept k p m m₂ := by
  refine ⟨h₂.reserved.trans h.reserved,fun b hb => (h₂.held b ?_).trans (h.held b hb)⟩
  intro rid hm j hj
  rw [hl rid] at hj
  exact hb rid (hr ▸ hm) j hj

theorem Paged.of_shapes {p p' : Pool} (h : Paged P p) (hr : p'.regions = p.regions)
    (hs : ∀ rid, SameShape (p.region rid) (p'.region rid)) : Paged P p' := by
  intro rid hm
  rw [(hs rid).layout,(hs rid).base]
  exact h rid (hr ▸ hm)

/-- The calls of one chunk operation. -/
def microCalls (k : PoolId) (s : State) : Event → List VmCall
  | .fill n _ => fillChunkCalls k n.1 (s.pool.region n.1) n.2
  | .promote n => chunkSetReadableCalls (s.pool.region n.1) n.2 true
  | .demote n => chunkSetReadableCalls (s.pool.region n.1) n.2 false
  | .evict n => lruEvictCalls (s.pool.region n.1) n.2

theorem exclusive_offset {r : Region} {q : ℕ} (hl : r.layout.pageSize = P) (hbase : P ∣ r.base)
    (hq : InExclusive r c q) (hd : P ∣ q) : r.layout.pageSize ∣ q-r.base ∧
      (r.layout.exclLo c ≤ q-r.base ∧ q-r.base < r.layout.exclHi c) ∧ r.base+(q-r.base) = q := by
  obtain ⟨h1,h2⟩ := hq
  exact ⟨hl ▸ Nat.dvd_sub hd hbase,⟨by omega,by omega⟩,by omega⟩

/-- The pages of a chunk's own range are populated exactly when it is. -/
theorem exclusive_populated (h : PoolInv s hot cold) (hp : Paged P s.pool) (hl : Live s.pool (rid,c))
    {q : ℕ} (hq : InExclusive (s.pool.region rid) c q) (hd : P ∣ q) :
    s.vm q = .inaccessible ↔ (s.pool.region rid).initialized c = false := by
  obtain ⟨h1,h2⟩ := hp rid hl.1
  obtain ⟨g1,g2,g3⟩ := exclusive_offset h1 h2 hq hd
  have hholds := (h.region rid hl.1).exclusive c hl.2 _ g1 g2
  rw [g3] at hholds
  cases hv : s.vm q with
  | inaccessible =>
    rw [hv] at hholds
    exact iff_of_true rfl hholds
  | hidden b =>
    rw [hv] at hholds
    exact iff_of_false (by simp) (by rw [hholds.1]; simp)
  | readable b =>
    rw [hv] at hholds
    exact iff_of_false (by simp) (by rw [hholds.1]; simp)

/-- The range that a chunk's calls are made on. -/
theorem exclusive_call (h : PoolInv s hot cold) (hp : Paged P s.pool) (hb : Backs k s m)
    (hl : Live s.pool (rid,c)) (hi : (s.pool.region rid).initialized c = true)
    (hne : (s.pool.region rid).layout.exclLo c < (s.pool.region rid).layout.exclHi c) :
    let r := s.pool.region rid
    Pages P (r.base+r.layout.exclLo c) (r.layout.exclHi c-r.layout.exclLo c) ∧
    ∀ q, r.base+r.layout.exclLo c ≤ q ∧ q < r.base+r.layout.exclLo c+(r.layout.exclHi c-r.layout.exclLo c) →
      m.reserved q = true ∧ (P ∣ q → m.table q ≠ .inaccessible) := by
  obtain ⟨h1,h2⟩ := hp rid hl.1
  obtain ⟨g1,g2⟩ := excl_dvd (s.pool.region rid).layout c
  rw [h1] at g1 g2
  refine ⟨⟨(Nat.dvd_add_right h2).mpr g1,Nat.dvd_sub g2 g1,Nat.sub_pos_of_lt hne⟩,?_⟩
  intro q hq
  have hin : InExclusive (s.pool.region rid) c q := ⟨hq.1,by have := hq.2; omega⟩
  refine ⟨hb.reserved rid hl.1 q (exclusive_inRange hl.2 hin),fun hd => ?_⟩
  rw [hb.table,Ne,exclusive_populated h hp hl hin hd,hi]
  simp

theorem setReadable_backs (h : PoolInv s hot cold) (hp : Paged P s.pool) (hb : Backs k s m) {n : Node}
    (hl : Live s.pool n) (hi : (s.pool.region n.1).initialized n.2 = true) (readable : Bool) :
    AllAllowed P m (chunkSetReadableCalls (s.pool.region n.1) n.2 readable) ∧
    calls m (chunkSetReadableCalls (s.pool.region n.1) n.2 readable) =
      { m with table := chunkSetReadable s.pool s.vm n readable } := by
  simp only [chunkSetReadableCalls,chunkSetReadable,← hb.table]
  by_cases hne : (s.pool.region n.1).layout.exclLo n.2 < (s.pool.region n.1).layout.exclHi n.2
  · rw [if_pos hne,if_pos hne]
    exact ⟨⟨exclusive_call h hp hb hl hi hne,trivial⟩,rfl⟩
  · rw [if_neg hne,if_neg hne]
    exact ⟨trivial,rfl⟩

theorem evict_backs (h : PoolInv s hot cold) (hp : Paged P s.pool) (hb : Backs k s m) {n : Node}
    (hl : Live s.pool n) (hi : (s.pool.region n.1).initialized n.2 = true) :
    AllAllowed P m (lruEvictCalls (s.pool.region n.1) n.2) ∧
    calls m (lruEvictCalls (s.pool.region n.1) n.2) =
      { m with table := decommitChunk (s.pool.region n.1) s.vm n.2 } := by
  have hle := excl_le (s.pool.region n.1).layout n.2
  simp only [lruEvictCalls,decommitChunk,← hb.table]
  by_cases hne : (s.pool.region n.1).layout.exclHi n.2 = (s.pool.region n.1).layout.exclLo n.2
  · rw [if_pos hne,if_pos hne]
    exact ⟨trivial,rfl⟩
  · rw [if_neg hne,if_neg hne]
    exact ⟨⟨exclusive_call h hp hb hl hi (by omega),trivial⟩,rfl⟩

/-- An operation that only changes the page table. -/
theorem Backs.retable (hb : Backs k s m) (ht : Touched s e s')
    (hs : ∀ rid, (s'.pool.region rid).sharedPages = (s.pool.region rid).sharedPages) :
    Backs k s' { m with table := s'.vm } := by
  refine ⟨rfl,?_,hb.scratch,?_⟩
  · intro rid hm q hq
    rw [ht.regions] at hm
    exact hb.reserved rid hm q (((ht.shapes rid).inRange q).mp hq)
  · intro rid hm j hj
    rw [ht.regions] at hm
    rw [ht.layouts rid] at hj
    rw [hs rid]
    exact hb.staging rid hm j hj

/-- The scratch buffer of a fill, created and filled. -/
theorem scratch_filled (r : Region) (hb : m.held .scratch = none) (hc : c < r.layout.nchunks)
    (hl : r.layout.pageSize = P) (cs : List VmCall) :
    let start := r.layout.chunkStart c
    let stop := r.layout.chunkStart (c+1)
    let begin := [VmCall.create .scratch (pageCeil stop r.layout.pageSize-boundaryPage r.layout c),
      .write .scratch (start-boundaryPage r.layout c) (r.fillChunk c) (stop-start)]
    (AllAllowed P m (begin ++ cs) ↔ AllAllowed P (m.hold .scratch (some (heldBy (fillScratch r c)))) cs) ∧
    calls m (begin ++ cs) = calls (m.hold .scratch (some (heldBy (fillScratch r c)))) cs := by
  intro start stop begin
  obtain ⟨s1,s2,s3,s4⟩ := span_bounds r.layout hc
  have hcreate : call m (.create .scratch (pageCeil stop r.layout.pageSize-boundaryPage r.layout c)) =
      m.hold .scratch (some ⟨spanLen r.layout c,fun _ => 0,false,[]⟩) := rfl
  have hwrite : call (m.hold .scratch (some ⟨spanLen r.layout c,fun _ => 0,false,[]⟩))
      (.write .scratch (start-boundaryPage r.layout c) (r.fillChunk c) (stop-start)) =
      m.hold .scratch (some (heldBy (fillScratch r c))) := by
    simp only [call,hold_self,Option.map_some,hold_hold]
    rfl
  have hspan : Pages P 0 (spanLen r.layout c) := by
    refine ⟨dvd_zero P,?_,(spanLen_bounds r.layout hc).1⟩
    rw [← hl]
    exact Nat.dvd_sub (dvd_pageCeil _ _) (dvd_pageFloor _ _)
  have hroom : start-boundaryPage r.layout c+(stop-start) ≤ spanLen r.layout c := by
    have h1 : start = r.layout.chunkStart c := rfl
    have h2 : stop = r.layout.chunkStart (c+1) := rfl
    unfold spanLen
    omega
  simp only [begin,List.cons_append,List.nil_append,AllAllowed,calls_cons]
  rw [hcreate,hwrite]
  refine ⟨⟨fun h => h.2.2,fun h => ⟨⟨hspan,hb⟩,?_,h⟩⟩,rfl⟩
  exact ⟨_,hold_self _ _ _,rfl,rfl,hroom⟩

theorem fill_backs (h : PoolInv s hot cold) (hp : Paged P s.pool) (hz : BuffersSized s.pool)
    (hb : Backs k s m) (hl : Live s.pool (rid,c)) (hi : (s.pool.region rid).initialized c = false)
    {size : ℕ}
    (he : fillChunkLocked s rid c = some s') (ht : Touched s (.fill (rid,c) size) s') :
    let cs := fillChunkCalls k rid (s.pool.region rid) c
    AllAllowed P m cs ∧ Backs k s' (calls m cs) ∧ Kept k s.pool m (calls m cs) := by
  intro cs
  set r := s.pool.region rid with hr
  obtain ⟨hpage,hbase⟩ := hp rid hl.1
  have hc : c < r.layout.nchunks := hl.2
  have hinv := h.region rid hl.1
  -- The pool's own fill, taken apart.
  obtain ⟨r₁,vm₁,e₁,-,-,f₁,-⟩ := fill_stage hinv hc
  set r₀ : Region := { r with initialized := Function.update r.initialized c true } with hr₀
  simp only [fillChunkLocked] at he
  rw [← hr,← hr₀,e₁,Option.bind_some] at he
  obtain ⟨p,hpool,rfl⟩ := Option.map_eq_some_iff.mp he
  -- The same on the memory behind the seam.
  set m₁ := m.hold .scratch (some (heldBy (fillScratch r c))) with hm₁
  have hF : Filling k rid r₀ (fillScratch r c) m m₁ := by
    refine ⟨rfl,hold_self _ _ _,?_,?_⟩
    · intro j hj
      exact (hold_of_ne m _ (by simp)).trans (hb.staging rid hl.1 j hj)
    · exact fun b hne _ => hold_of_ne m _ hne
  have htable : m₁.table = s.vm := hb.table
  have hshown : SharedShown r₀ m₁.table := by
    rw [htable]
    exact shared_frame hinv.shared ⟨rfl,rfl,rfl⟩ rfl (fun _ _ => rfl)
  have hstaged : StagedBy r₀ (fun _ => r₀.chunkStaged) := staged_frame hinv.staged ⟨rfl,rfl,rfl⟩ rfl
  have hsized : StagingSized r₀ := (hz rid hl.1).of_same rfl rfl
  obtain ⟨a₂,t₂,F₂⟩ := shared_backs (P := P) hF hstaged hshown hc (fillScratch_slices r c) rfl hsized hpage
    hbase (fun q hq => hb.reserved rid hl.1 q hq) (by rw [htable]; exact e₁)
  set m₂ := calls m₁ (stageSharedCalls k rid r₀ c) with hm₂
  have hfree : ∀ q, r.base+r.layout.exclLo c ≤ q ∧ q < r.base+r.layout.exclHi c →
      m₂.reserved q = true ∧ (r.layout.pageSize ∣ q → m₂.table q = .inaccessible) := by
    intro q hq
    refine ⟨?_,fun hd => ?_⟩
    · rw [F₂.reserved]
      exact hb.reserved rid hl.1 q (exclusive_inRange hc hq)
    · obtain ⟨g1,g2,g3⟩ := exclusive_offset hpage hbase hq (hpage ▸ hd)
      have hapart : ∀ j < nshared r.layout, ¬ InShared r j q := by
        intro j hj
        rw [← g3]
        exact exclusive_not_shared hj hc g1 g2
      rw [t₂,f₁.pages q (fun j hj _ => hapart j hj)]
      exact (exclusive_populated h hp hl hq (hpage ▸ hd)).mpr hi
  obtain ⟨a₃,t₃⟩ := scratch_used F₂.scratch hc rfl (hpage ▸ hbase) hfree
  obtain ⟨hbegin,hrun⟩ := scratch_filled (P := P) r hb.scratch hc hpage
    (stageSharedCalls k rid r c ++ .seal .scratch::(PoolMachine.fillPieces r.layout r.base c).map (.consume .scratch))
  have hcs : cs = [VmCall.create .scratch (pageCeil (r.layout.chunkStart (c+1)) r.layout.pageSize-
      boundaryPage r.layout c),.write .scratch (r.layout.chunkStart c-boundaryPage r.layout c) (r.fillChunk c)
      (r.layout.chunkStart (c+1)-r.layout.chunkStart c)] ++ (stageSharedCalls k rid r c ++
      .seal .scratch::(PoolMachine.fillPieces r.layout r.base c).map (.consume .scratch)) := rfl
  have hafter : calls m cs = { m₂ with
      table := consume vm₁ (fillScratch r c) (PoolMachine.fillPieces r.layout r.base c) }.hold .scratch none := by
    rw [hcs,hrun,calls_append]
    exact t₃.trans (by rw [t₂])
  rw [hafter]
  refine ⟨?_,?_,?_⟩
  · rw [hcs,hbegin,allowed_append]
    exact ⟨a₂,hpage ▸ a₃⟩
  · refine ⟨rfl,?_,hold_self _ _ _,?_⟩
    · intro x hx q hq
      rw [ht.regions] at hx
      exact (congrFun F₂.reserved q).trans (hb.reserved x hx q (((ht.shapes x).inRange q).mp hq))
    · intro x hx j hj
      rw [ht.regions] at hx
      rw [ht.layouts x] at hj
      rw [hold_of_ne _ _ (by simp)]
      by_cases hxr : x = rid
      · subst hxr
        have hkeep : (p.region x).sharedPages = r₁.sharedPages := by
          rw [fillAccount_keeps (g := Region.sharedPages) (fun _ _ => rfl) (fun _ _ => rfl) (fun _ => rfl) hpool]
          simp
        have hlay : r₁.layout = r.layout := by rw [f₁.region]
        rw [hkeep]
        exact F₂.staging j (by rw [hlay]; exact hj)
      · rw [ht.others x hxr]
        refine (F₂.others _ (by simp) (fun i _ => by simp [hxr])).trans (hb.staging x hx j hj)
  · refine ⟨F₂.reserved,fun b hno => ?_⟩
    by_cases hbs : b = .scratch
    · subst hbs
      exact (hold_self _ _ _).trans hb.scratch.symm
    · have hlay : r₁.layout = r.layout := by rw [f₁.region]
      refine (hold_of_ne _ _ hbs).trans (F₂.others b hbs (fun j hj => ?_))
      rw [hlay] at hj
      exact hno rid hl.1 j hj

/-- One chunk operation. -/
theorem micro_backs (h : PoolInv s hot cold) (hp : Paged P s.pool) (hz : BuffersSized s.pool)
    (hb : Backs k s m) (hm : Micro s e s') :
    AllAllowed P m (microCalls k s e) ∧ Backs k s' (calls m (microCalls k s e)) ∧
      Kept k s.pool m (calls m (microCalls k s e)) := by
  obtain ⟨ht,hot',cold',hinv'⟩ := hm.touched h
  have hkeep : ∀ {t : PageTable}, Kept k s.pool m { m with table := t } := ⟨rfl,fun _ _ => rfl⟩
  have hsame : sets e ≠ some true → ∀ rid, (s'.pool.region rid).sharedPages = (s.pool.region rid).sharedPages :=
    fun he => Micro.keeps (g := Region.sharedPages) (fun _ _ => rfl) (fun _ _ _ => rfl) hm h he
  cases hm with
  | fill hl hi he => exact fill_backs h hp hz hb hl hi he ht
  | @promote _ n hr hc he =>
    have hq := (h.queue.order.resident n).mp hr
    obtain ⟨h1,h2⟩ := setReadable_backs h hp hb (h.live hq) (h.queued hq) true
    have hvm : s'.vm = chunkSetReadable s.pool s.vm n true := by
      obtain ⟨e₁,-⟩ := promote_spec h ((h.queue.order.cold_iff hq).mp hc)
      obtain rfl := Option.some.inj (e₁.symm.trans he)
      rfl
    simp only [microCalls]
    rw [h2,← hvm]
    exact ⟨h1,hb.retable ht (hsame (by simp [sets])),hkeep⟩
  | @demote n ht₀ hmid =>
    have hq : n ∈ hot ++ cold := by
      have hn := ht.live
      rw [h.queue.order.midpoint] at hmid
      have := (lastRef_mem hot).resolve_left (by rw [hmid]; simp)
      rw [hmid,mem_refs] at this
      exact List.mem_append_left _ this
    obtain ⟨h1,h2⟩ := setReadable_backs h hp hb (h.live hq) (h.queued hq) false
    simp only [microCalls]
    rw [h2]
    exact ⟨h1,hb.retable ht (hsame (by simp [sets])),hkeep⟩
  | @evict _ n ht₀ hr he =>
    have hq := (h.queue.order.resident n).mp hr
    obtain ⟨h1,h2⟩ := evict_backs h hp hb (h.live hq) (h.queued hq)
    have hvm : s'.vm = decommitChunk (s.pool.region n.1) s.vm n.2 := by
      obtain ⟨e₁,-⟩ := evict_spec h hq ht₀
      obtain rfl := Option.some.inj (e₁.symm.trans he)
      rfl
    simp only [microCalls]
    rw [h2,← hvm]
    exact ⟨h1,hb.retable ht (hsame (by simp [sets])),hkeep⟩

end Operations

end FaultCache.VmBacking
