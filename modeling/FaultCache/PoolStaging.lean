import FaultCache.PoolMachine
import Mathlib.Data.Finset.Card
import Mathlib.Order.Interval.Finset.Nat

/-!
# Staging and publication of shared pages

A shared page is published by its last contributor. Until then the staging
buffer holds the slices of the chunks that have contributed, and zeros. The
count that decides publication is the number of contributors so far. A chunk
contributes to its head page and to its tail page in one fill, so the record
of who has contributed is kept per page while a fill is under way.
-/

set_option autoImplicit false

namespace FaultCache.PoolStaging
open FaultCache.PageGeometry FaultCache.SharedPages FaultCache.VmPages FaultCache.PoolMachine

/-- The byte a reader must see at an offset: the covering chunk's own byte, or
zero in the padding. -/
def content (r : Region) (off : ℕ) : UInt8 :=
  if off < r.layout.totalSize then
    r.fillChunk (r.layout.findChunk off) (off-r.layout.chunkStart (r.layout.findChunk off))
  else 0

def contributors (L : Layout) (k : ℕ) : Finset ℕ :=
  Finset.Icc (sharedPage L k).firstChunk (sharedPage L k).lastChunk

/-- One entry of the table, given which contributors have staged into it. -/
structure PageStaged (r : Region) (k : ℕ) (done : ℕ → Bool) : Prop where
  staged : (r.sharedPages k).staged = ((contributors r.layout k).filter (fun c => done c = true)).card
  mapped : (r.sharedPages k).mapped = true ↔ ∀ c ∈ contributors r.layout k, done c = true
  staging : (r.sharedPages k).staging = none ↔
    (∀ c ∈ contributors r.layout k, done c = false) ∨ (r.sharedPages k).mapped = true
  bytes : ∀ scratch, (r.sharedPages k).staging = some scratch → ∀ i < r.layout.pageSize,
    scratch.bytes i = if done (r.layout.findChunk ((sharedPage r.layout k).pageOff+i)) = true
      then content r ((sharedPage r.layout k).pageOff+i) else 0

/-- The entry's page in the page table: published in full, or not at all. -/
def PageShown (r : Region) (vm : PageTable) (k : ℕ) : Prop :=
  if (r.sharedPages k).mapped = true then
    ∃ b, vm (r.base+(sharedPage r.layout k).pageOff) = .readable b ∧
      ∀ i < r.layout.pageSize, b i = content r ((sharedPage r.layout k).pageOff+i)
  else vm (r.base+(sharedPage r.layout k).pageOff) = .inaccessible

def StagedBy (r : Region) (done : ℕ → ℕ → Bool) : Prop :=
  ∀ k < nshared r.layout, PageStaged r k (done k)

def SharedShown (r : Region) (vm : PageTable) : Prop :=
  ∀ k < nshared r.layout, PageShown r vm k

/-- The scratch buffer of chunk `c`, read at region offsets. -/
def Slices (r : Region) (c : ℕ) (scratch : Scratch) : Prop :=
  ∀ off, r.layout.Covers c off →
    scratch.bytes (off-boundaryPage r.layout c) = r.fillChunk c (off-r.layout.chunkStart c)

theorem mem_contributors (L : Layout) {k c : ℕ} (hk : k < nshared L) (hc : c < L.nchunks) :
    c ∈ contributors L k ↔ L.Touches c (sharedPage L k).pageOff := by
  rw [contributors,Finset.mem_Icc,contributors_iff L hk hc]

theorem contributors_card (L : Layout) {k : ℕ} (hk : k < nshared L) :
    (contributors L k).card = (sharedPage L k).lastChunk-(sharedPage L k).firstChunk+1 := by
  have := two_contributors L hk
  rw [contributors,Nat.card_Icc]
  omega

theorem contributor_lt (L : Layout) {k c : ℕ} (hk : k < nshared L) (hc : c ∈ contributors L k) :
    c < L.nchunks := by
  have := (Finset.mem_Icc.mp hc).2
  have := lastChunk_lt L hk
  omega

/-- The chunk covering a byte of a shared page contributes to it. -/
theorem covering_contributes (L : Layout) {k i : ℕ} (hk : k < nshared L) (hi : i < L.pageSize) :
    L.findChunk ((sharedPage L k).pageOff+i) ∈ contributors L k := by
  obtain ⟨h1,h2,h3⟩ := L.findChunk_spec ((sharedPage L k).pageOff+i)
  rw [mem_contributors L hk h1]
  refine ⟨by omega,?_⟩
  have ht := shared_lt_total L hk
  by_cases hl : L.findChunk ((sharedPage L k).pageOff+i)+1 = L.nchunks
  · rw [hl,L.start_last]; exact ht
  · have := h3 (L.findChunk ((sharedPage L k).pageOff+i)+1) (by omega) (by omega)
    omega

theorem PageStaged.congr {r : Region} {k : ℕ} {done done' : ℕ → Bool} (h : PageStaged r k done)
    (hk : k < nshared r.layout) (he : ∀ c ∈ contributors r.layout k, done' c = done c) :
    PageStaged r k done' where
  staged := by
    rw [h.staged]
    congr 1
    apply Finset.filter_congr
    intro c hc
    rw [he c hc]
  mapped := by
    rw [h.mapped]
    exact ⟨fun g c hc => (he c hc).trans (g c hc),fun g c hc => (he c hc).symm.trans (g c hc)⟩
  staging := by
    rw [h.staging]
    have hf : (∀ c ∈ contributors r.layout k, done c = false) ↔
        ∀ c ∈ contributors r.layout k, done' c = false :=
      ⟨fun g c hc => (he c hc).trans (g c hc),fun g c hc => (he c hc).symm.trans (g c hc)⟩
    rw [hf]
  bytes := by
    intro scratch hs i hi
    rw [h.bytes scratch hs i hi,he _ (covering_contributes r.layout hk hi)]

/-- What an entry's record depends on. -/
theorem PageStaged.transport {r r' : Region} {k : ℕ} {done : ℕ → Bool} (h : PageStaged r k done)
    (hl : r'.layout = r.layout) (hf : r'.fillChunk = r.fillChunk)
    (hp : r'.sharedPages k = r.sharedPages k) : PageStaged r' k done := by
  obtain ⟨h1,h2,h3,h4⟩ := h
  have hcont : content r' = content r := by
    funext off
    simp only [content,hl,hf]
  refine ⟨?_,?_,?_,?_⟩
  · rw [hp,hl]; exact h1
  · rw [hp,hl]; exact h2
  · rw [hp,hl]; exact h3
  · rw [hp,hl,hcont]; exact h4

theorem PageShown.transport {r r' : Region} {vm vm' : PageTable} {k : ℕ} (h : PageShown r vm k)
    (hl : r'.layout = r.layout) (hb : r'.base = r.base) (hf : r'.fillChunk = r.fillChunk)
    (hp : (r'.sharedPages k).mapped = (r.sharedPages k).mapped)
    (hv : vm' (r.base+(sharedPage r.layout k).pageOff) = vm (r.base+(sharedPage r.layout k).pageOff)) :
    PageShown r' vm' k := by
  have hcont : content r' = content r := by
    funext off
    simp only [content,hl,hf]
  unfold PageShown at h ⊢
  rw [hp,hl,hb,hv,hcont]
  exact h

theorem filter_done_card {s : Finset ℕ} {done : ℕ → Bool} {c : ℕ} (hc : c ∈ s)
    (hd : done c = false) :
    (s.filter (fun d => Function.update done c true d = true)).card =
      (s.filter (fun d => done d = true)).card+1 := by
  have he : s.filter (fun d => Function.update done c true d = true) =
      insert c (s.filter (fun d => done d = true)) := by
    ext d
    simp only [Finset.mem_filter,Finset.mem_insert]
    by_cases h : d = c
    · subst h; simp [hc]
    · simp [h]
  rw [he,Finset.card_insert_of_notMem (by simp [hd])]

theorem full_iff (s : Finset ℕ) (done : ℕ → Bool) :
    (s.filter (fun d => done d = true)).card = s.card ↔ ∀ d ∈ s, done d = true := by
  constructor
  · intro h d hd
    have he := Finset.eq_of_subset_of_card_le (Finset.filter_subset (fun d => done d = true) s) h.ge
    rw [← he] at hd
    exact (Finset.mem_filter.mp hd).2
  · intro h
    rw [Finset.filter_true_of_mem h]

/-- The staging buffer after one more contribution. -/
theorem staged_slice_bytes {r : Region} {k c : ℕ} {done : ℕ → Bool} {scratch : Scratch}
    (h : PageStaged r k done) (hk : k < nshared r.layout) (hc : c ∈ contributors r.layout k)
    (hm : (r.sharedPages k).mapped = false) (hs : Slices r c scratch)
    (i : ℕ) (hi : i < r.layout.pageSize) :
    (stagedSlice r k c scratch (boundaryPage r.layout c)).bytes i =
      if Function.update done c true (r.layout.findChunk ((sharedPage r.layout k).pageOff+i)) = true
      then content r ((sharedPage r.layout k).pageOff+i) else 0 := by
  have hcn := contributor_lt r.layout hk hc
  obtain ⟨t1,t2⟩ := (mem_contributors r.layout hk hcn).mp hc
  have hfl := pageFloor_le (r.layout.chunkStart c) r.layout.pageSize
  have hlt := lt_pageFloor_add r.layout.pageSize_pos (r.layout.chunkStart c)
  have hstop := r.layout.start_succ c hcn
  have hold : ((r.sharedPages k).staging.getD (vmScratchCreate r.layout.pageSize)).bytes i =
      if done (r.layout.findChunk ((sharedPage r.layout k).pageOff+i)) = true
      then content r ((sharedPage r.layout k).pageOff+i) else 0 := by
    cases hst : (r.sharedPages k).staging with
    | some scr => exact h.bytes scr hst i hi
    | none =>
      rcases h.staging.mp hst with hz | hz
      · rw [hz _ (covering_contributes r.layout hk hi)]
        rfl
      · rw [hm] at hz; cases hz
  generalize hoff : (sharedPage r.layout k).pageOff = off at *
  simp only [stagedSlice,hoff,memcpy]
  by_cases hcov : r.layout.Covers c (off+i)
  · -- the byte belongs to the slice being copied
    rw [if_pos (by obtain ⟨g1,g2⟩ := hcov; split_ifs <;> omega)]
    rw [r.layout.findChunk_eq hcn hcov,Function.update_self,if_pos rfl]
    have htot : off+i < r.layout.totalSize :=
      lt_of_lt_of_le hcov.2 (r.layout.start_le_total hcn)
    rw [content,if_pos htot,r.layout.findChunk_eq hcn hcov,← hs _ hcov]
    congr 1
    simp only [boundaryPage] at *
    obtain ⟨g1,g2⟩ := hcov
    split_ifs at * <;> omega
  · rw [if_neg (by
      intro hc'
      apply hcov
      constructor
      · obtain ⟨g1,g2⟩ := hc'
        split_ifs at g1 g2 <;> omega
      · obtain ⟨g1,g2⟩ := hc'
        split_ifs at g1 g2 <;> omega),hold]
    by_cases hlast : off+i < r.layout.totalSize
    · have hne : r.layout.findChunk (off+i) ≠ c := by
        rintro rfl
        exact hcov (r.layout.findChunk_covers hlast)
      rw [Function.update_of_ne hne]
    · simp [content,hlast]

/-- What one contribution leaves alone. -/
structure StageStep (r : Region) (vm : PageTable) (k c : ℕ) (r' : Region) (vm' : PageTable) : Prop where
  region : r' = { r with
    chunkStaged := Function.update r.chunkStaged c true
    sharedPages := r'.sharedPages }
  others : ∀ j, j ≠ k → r'.sharedPages j = r.sharedPages j
  unmapped : (r.sharedPages k).mapped = false
  pages : ∀ q, ¬ (r.base+(sharedPage r.layout k).pageOff ≤ q ∧
    q < r.base+(sharedPage r.layout k).pageOff+r.layout.pageSize) → vm' q = vm q

/-- The region after a contribution that leaves entry `k` as `page`. -/
def contributed (r : Region) (k c : ℕ) (page : SharedPage) : Region :=
  { r with
    chunkStaged := Function.update r.chunkStaged c true
    sharedPages := Function.update r.sharedPages k page }

theorem stage_eq {r : Region} {vm : PageTable} {k c : ℕ} {scratch : Scratch} {spanLo : ℕ}
    (hm : (r.sharedPages k).mapped = false) :
    stageIntoSharedPage r vm (some k) c scratch spanLo =
      if (r.sharedPages k).staged+1 =
          (sharedPage r.layout k).lastChunk-(sharedPage r.layout k).firstChunk+1 then
        some (contributed r k c ⟨(r.sharedPages k).staged+1,none,true⟩,
          vmScratchPublish vm (stagedSlice r k c scratch spanLo) 0 r.layout.pageSize
            (r.base+(sharedPage r.layout k).pageOff))
      else some (contributed r k c
        ⟨(r.sharedPages k).staged+1,some (stagedSlice r k c scratch spanLo),false⟩,vm) := by
  simp only [stageIntoSharedPage,hm,Bool.false_eq_true,if_false]
  split_ifs
  · simp [installSharedPage,contributed]
  · rfl

theorem contributed_step {r : Region} {vm vm' : PageTable} {k c : ℕ} {page : SharedPage}
    (hm : (r.sharedPages k).mapped = false)
    (hv : ∀ q, ¬ (r.base+(sharedPage r.layout k).pageOff ≤ q ∧
      q < r.base+(sharedPage r.layout k).pageOff+r.layout.pageSize) → vm' q = vm q) :
    StageStep r vm k c (contributed r k c page) vm' where
  region := rfl
  others := fun _ hj => Function.update_of_ne hj _ _
  unmapped := hm
  pages := hv

/-- A contribution to an unpublished page never aborts. It is counted once,
and the page appears in full exactly when no contributor is missing. -/
theorem stage_page {r : Region} {vm : PageTable} {k c : ℕ} {done : ℕ → Bool} {scratch : Scratch}
    (h : PageStaged r k done) (hv : PageShown r vm k) (hk : k < nshared r.layout)
    (hc : c ∈ contributors r.layout k) (hd : done c = false) (hs : Slices r c scratch) :
    ∃ r' vm', stageIntoSharedPage r vm (some k) c scratch (boundaryPage r.layout c) = some (r',vm') ∧
      PageStaged r' k (Function.update done c true) ∧ PageShown r' vm' k ∧
      StageStep r vm k c r' vm' := by
  have hm : (r.sharedPages k).mapped = false := by
    cases hmm : (r.sharedPages k).mapped with
    | false => rfl
    | true => have := h.mapped.mp hmm c hc; rw [hd] at this; cases this
  have hbytes := staged_slice_bytes h hk hc hm hs
  have hcard := filter_done_card hc hd
  have hfull := full_iff (contributors r.layout k) (Function.update done c true)
  rw [contributors_card r.layout hk,hcard,← h.staged] at hfull
  rw [stage_eq hm]
  by_cases hlast : (r.sharedPages k).staged+1 =
      (sharedPage r.layout k).lastChunk-(sharedPage r.layout k).firstChunk+1
  · have hall := hfull.mp hlast
    rw [if_pos hlast]
    refine ⟨_,_,rfl,⟨?_,?_,?_,?_⟩,?_,contributed_step hm ?_⟩
    · simp [contributed,hcard,h.staged]
    · simpa [contributed] using hall
    · simp [contributed]
    · intro scr hscr
      simp [contributed] at hscr
    · rw [PageShown,if_pos (by simp [contributed])]
      refine ⟨(stagedSlice r k c scratch (boundaryPage r.layout c)).bytes,?_,?_⟩
      · simp [contributed,vmScratchPublish,r.layout.pageSize_pos]
      · intro i hi
        rw [hbytes i hi]
        exact if_pos (hall _ (covering_contributes r.layout hk hi))
    · intro q hq
      simp only [vmScratchPublish,if_neg hq]
  · rw [if_neg hlast]
    refine ⟨_,_,rfl,⟨?_,?_,?_,?_⟩,?_,contributed_step hm (fun q _ => rfl)⟩
    · simp [contributed,hcard,h.staged]
    · simp only [contributed,Function.update_self,Bool.false_eq_true,false_iff]
      exact fun hall => hlast (hfull.mpr hall)
    · simp only [contributed,Function.update_self,reduceCtorEq,Bool.false_eq_true,or_false,false_iff]
      intro hnone
      have := hnone c hc
      simp at this
    · intro scr hscr i hi
      simp only [contributed,Function.update_self,Option.some.injEq] at hscr
      subst hscr
      exact hbytes i hi
    · rw [PageShown,if_neg (by simp [contributed])]
      simpa [PageShown,hm,contributed] using hv

/-- Staging a chunk into one page keeps every other entry. -/
theorem stage_by {r : Region} {vm : PageTable} {k c : ℕ} {done : ℕ → ℕ → Bool} {scratch : Scratch}
    (h : StagedBy r done) (hv : SharedShown r vm) (hk : k < nshared r.layout)
    (hc : c ∈ contributors r.layout k) (hd : done k c = false) (hs : Slices r c scratch) :
    ∃ r' vm', stageIntoSharedPage r vm (some k) c scratch (boundaryPage r.layout c) = some (r',vm') ∧
      StagedBy r' (Function.update done k (Function.update (done k) c true)) ∧
      SharedShown r' vm' ∧ StageStep r vm k c r' vm' := by
  obtain ⟨r',vm',he,hp,hsh,hstep⟩ := stage_page (h k hk) (hv k hk) hk hc hd hs
  have hl : r'.layout = r.layout := by rw [hstep.region]
  have hb : r'.base = r.base := by rw [hstep.region]
  have hf : r'.fillChunk = r.fillChunk := by rw [hstep.region]
  refine ⟨r',vm',he,?_,?_,hstep⟩
  · intro j hj
    rw [hl] at hj
    by_cases hjk : j = k
    · subst hjk
      rw [Function.update_self]
      exact hp
    · rw [Function.update_of_ne hjk]
      exact (h j hj).transport hl hf (hstep.others j hjk)
  · intro j hj
    rw [hl] at hj
    by_cases hjk : j = k
    · subst hjk
      exact hsh
    · apply (hv j hj).transport hl hb hf (by rw [hstep.others j hjk])
      apply hstep.pages
      have hne : (sharedPage r.layout j).pageOff ≠ (sharedPage r.layout k).pageOff :=
        fun hc' => hjk (shared_injective r.layout hj hk hc')
      have ha := shared_aligned r.layout hj
      have hb' := shared_aligned r.layout hk
      intro hc'
      rcases Nat.lt_or_gt_of_ne hne with hlt | hlt
      · omega
      · have := aligned_add_le hb' ha hlt
        omega

/-- What the staging half of a fill leaves alone: every field but the staging
record, every entry that was already published, and every page outside the
entries that were not. -/
structure StageFrame (r : Region) (vm : PageTable) (c : ℕ) (r' : Region) (vm' : PageTable) : Prop where
  region : r' = { r with chunkStaged := r'.chunkStaged, sharedPages := r'.sharedPages }
  flags : ∀ d, d ≠ c → r'.chunkStaged d = r.chunkStaged d
  kept : r.chunkStaged c = true → r'.chunkStaged c = true
  published : ∀ k, (r.sharedPages k).mapped = true → r'.sharedPages k = r.sharedPages k
  pages : ∀ q, (∀ k < nshared r.layout, (r.sharedPages k).mapped = false →
    ¬ (r.base+(sharedPage r.layout k).pageOff ≤ q ∧
      q < r.base+(sharedPage r.layout k).pageOff+r.layout.pageSize)) → vm' q = vm q

theorem StageFrame.rfl' (r : Region) (vm : PageTable) (c : ℕ) : StageFrame r vm c r vm :=
  ⟨rfl,fun _ _ => rfl,id,fun _ _ => rfl,fun _ _ => rfl⟩

theorem StageStep.frame {r r' : Region} {vm vm' : PageTable} {k c : ℕ}
    (hk : k < nshared r.layout) (h : StageStep r vm k c r' vm') : StageFrame r vm c r' vm' := by
  have hst : r'.chunkStaged = Function.update r.chunkStaged c true := by rw [h.region]
  refine ⟨?_,?_,?_,?_,fun q hq => h.pages q (hq k hk h.unmapped)⟩
  · rw [h.region]
  · intro d hd
    rw [hst,Function.update_of_ne hd]
  · intro _
    rw [hst,Function.update_self]
  · intro j hj
    apply h.others
    rintro rfl
    rw [h.unmapped] at hj
    cases hj

theorem StageFrame.trans {r r' r₂ : Region} {vm vm' vm₂ : PageTable} {c : ℕ}
    (h : StageFrame r vm c r' vm') (h₂ : StageFrame r' vm' c r₂ vm₂) :
    StageFrame r vm c r₂ vm₂ := by
  have hl : r'.layout = r.layout := by rw [h.region]
  have hb : r'.base = r.base := by rw [h.region]
  refine ⟨?_,?_,fun hc => h₂.kept (h.kept hc),?_,?_⟩
  · rw [h₂.region,h.region]
  · intro d hd
    rw [h₂.flags d hd,h.flags d hd]
  · intro j hj
    rw [h₂.published j (by rw [h.published j hj]; exact hj),h.published j hj]
  · intro q hq
    rw [h₂.pages q,h.pages q hq]
    intro j hj hmj
    rw [hl] at hj ⊢
    rw [hb]
    apply hq j hj
    cases hm : (r.sharedPages j).mapped with
    | false => rfl
    | true => rw [h.published j hm,hm] at hmj; cases hmj

theorem Slices.transport {r r' : Region} {c : ℕ} {scratch : Scratch} (h : Slices r c scratch)
    (hl : r'.layout = r.layout) (hf : r'.fillChunk = r.fillChunk) : Slices r' c scratch := by
  unfold Slices at h ⊢
  rw [hl,hf]
  exact h

/-- An optional contribution: staged when the flag says so. -/
theorem stage_optional {r : Region} {vm : PageTable} {c b : ℕ} {done : ℕ → ℕ → Bool}
    {scratch : Scratch} (flag : Bool) (h : StagedBy r done) (hv : SharedShown r vm)
    (hc : c < r.layout.nchunks)
    (hu : flag = true → Unaligned r.layout b ∧ r.layout.Touches c (boundaryPage r.layout b))
    (hd : ∀ k < nshared r.layout, (sharedPage r.layout k).pageOff = boundaryPage r.layout b →
      flag = true → done k c = false)
    (hs : Slices r c scratch) :
    ∃ r' vm', stageWhen flag r vm (findSharedPage r.layout (boundaryPage r.layout b)) c scratch
        (boundaryPage r.layout c) = some (r',vm') ∧
      StagedBy r' (fun k d => if flag = true ∧ (sharedPage r.layout k).pageOff = boundaryPage r.layout b
        ∧ d = c then true else done k d) ∧
      SharedShown r' vm' ∧ StageFrame r vm c r' vm' ∧ (flag = true → r'.chunkStaged c = true) := by
  cases flag with
  | false => exact ⟨r,vm,rfl,by simpa using h,hv,StageFrame.rfl' r vm c,by simp⟩
  | true =>
    obtain ⟨hb,ht⟩ := hu rfl
    obtain ⟨k,hk⟩ := findSharedPage_boundary r.layout hb
    obtain ⟨hkn,hko⟩ := (findSharedPage_some r.layout _ k).mp hk
    have hcont : c ∈ contributors r.layout k := (mem_contributors r.layout hkn hc).mpr (hko ▸ ht)
    obtain ⟨r',vm',he,hst,hsh,hstep⟩ := stage_by h hv hkn hcont (hd k hkn hko rfl) hs
    have hl : r'.layout = r.layout := by rw [hstep.region]
    refine ⟨r',vm',?_,?_,hsh,hstep.frame hkn,?_⟩
    · rw [stageWhen,if_pos rfl,hk]
      exact he
    · intro j hj
      rw [hl] at hj
      apply (hst j (by rw [hl]; exact hj)).congr (by rw [hl]; exact hj)
      intro d _
      simp only [true_and]
      by_cases hjk : j = k
      · subst hjk
        by_cases hdc : d = c
        · subst hdc; simp [hko]
        · simp [hdc]
      · have hne : (sharedPage r.layout j).pageOff ≠ boundaryPage r.layout b :=
          fun hc' => hjk (shared_injective r.layout hj hkn (hc'.trans hko.symm))
        simp [hjk,hne]
    · intro _
      rw [hstep.region]
      simp

/-- A chunk has bytes in the pages at both of its boundaries. -/
theorem boundary_touches (L : Layout) {b c : ℕ} (hc : c < L.nchunks) (hb : b = c ∨ b = c+1)
    (hu : Unaligned L b) : L.Touches c (boundaryPage L b) := by
  obtain ⟨h1,h2⟩ := unaligned_inside L hu
  have := L.start_succ c hc
  rcases hb with rfl | rfl
  · exact ⟨by omega,by omega⟩
  · exact ⟨by omega,by omega⟩

/-- The tail is staged separately unless it is the head's page. -/
def stagesTail (L : Layout) (c : ℕ) : Bool :=
  hasTail L c && !(hasHead L c && boundaryPage L (c+1) == boundaryPage L c)

theorem stagesTail_unaligned (L : Layout) {c : ℕ} (h : stagesTail L c = true) : Unaligned L (c+1) := by
  rw [stagesTail,Bool.and_eq_true] at h
  exact tail_unaligned L h.1

theorem stagesTail_apart (L : Layout) {c : ℕ} (h : stagesTail L c = true) (hh : hasHead L c = true) :
    boundaryPage L (c+1) ≠ boundaryPage L c := by
  intro he
  rw [stagesTail,hh,he] at h
  simp at h

theorem head_touches (L : Layout) {c : ℕ} (hc : c < L.nchunks) (hh : hasHead L c = true) :
    Unaligned L c ∧ L.Touches c (boundaryPage L c) :=
  ⟨head_unaligned L hc hh,boundary_touches L hc (Or.inl rfl) (head_unaligned L hc hh)⟩

theorem tail_touches (L : Layout) {c : ℕ} (hc : c < L.nchunks) (ht : stagesTail L c = true) :
    Unaligned L (c+1) ∧ L.Touches c (boundaryPage L (c+1)) :=
  ⟨stagesTail_unaligned L ht,boundary_touches L hc (Or.inr rfl) (stagesTail_unaligned L ht)⟩

/-- Every shared page of a chunk is staged at its head or at its tail. -/
theorem contributor_side (L : Layout) {k c : ℕ} (hk : k < nshared L) (hc : c < L.nchunks)
    (hm : c ∈ contributors L k) :
    hasHead L c = true ∧ (sharedPage L k).pageOff = boundaryPage L c ∨
      stagesTail L c = true ∧ (sharedPage L k).pageOff = boundaryPage L (c+1) := by
  rcases (touches_shared L hk hc).mp ((mem_contributors L hk hc).mp hm) with ⟨hh,ho⟩ | ⟨ht,ho⟩
  · exact Or.inl ⟨hh,ho⟩
  · cases htl : stagesTail L c with
    | true => exact Or.inr ⟨rfl,ho⟩
    | false =>
      rw [stagesTail,ht,Bool.true_and,Bool.not_eq_false',Bool.and_eq_true,beq_iff_eq] at htl
      exact Or.inl ⟨htl.1,ho.trans htl.2⟩

/-- The staging half of a fill. On a first fill the chunk contributes to each
of its shared pages; later fills contribute to none. -/
theorem stage_shared {r : Region} {vm : PageTable} {c : ℕ} {scratch : Scratch}
    (h : StagedBy r (fun _ => r.chunkStaged)) (hv : SharedShown r vm) (hc : c < r.layout.nchunks)
    (hs : Slices r c scratch) :
    ∃ r' vm', stageShared r vm c scratch = some (r',vm') ∧
      StagedBy r' (fun _ => r'.chunkStaged) ∧ SharedShown r' vm' ∧ StageFrame r vm c r' vm' ∧
      ∀ k < nshared r.layout, c ∈ contributors r.layout k → r'.chunkStaged c = true := by
  unfold stageShared
  cases hst : r.chunkStaged c with
  | true => exact ⟨r,vm,rfl,h,hv,StageFrame.rfl' r vm c,fun _ _ _ => hst⟩
  | false =>
    obtain ⟨r₁,vm₁,e₁,s₁,v₁,f₁,c₁⟩ := stage_optional (b := c) (hasHead r.layout c) h hv hc
      (head_touches r.layout hc) (fun _ _ _ _ => hst) hs
    have hl : r₁.layout = r.layout := by rw [f₁.region]
    have hf : r₁.fillChunk = r.fillChunk := by rw [f₁.region]
    obtain ⟨r₂,vm₂,e₂,s₂,v₂,f₂,c₂⟩ := stage_optional (r := r₁) (b := c+1) (stagesTail r.layout c) s₁ v₁
      (hl ▸ hc) (by rw [hl]; exact tail_touches r.layout hc)
      (by
        rw [hl]
        intro k hk hko ht
        rw [if_neg]
        · exact hst
        · rintro ⟨hh,hko',-⟩
          exact stagesTail_apart r.layout ht hh (hko.symm.trans hko'))
      (hs.transport hl hf)
    rw [hl] at e₂ s₂
    have hl₂ : r₂.layout = r.layout := by rw [f₂.region,hl]
    have hflag : ∀ k < nshared r.layout, c ∈ contributors r.layout k → r₂.chunkStaged c = true := by
      intro k hk hck
      rcases contributor_side r.layout hk hc hck with ⟨hh,-⟩ | ⟨ht,-⟩
      · exact f₂.kept (c₁ hh)
      · exact c₂ ht
    refine ⟨r₂,vm₂,?_,?_,v₂,f₁.trans f₂,hflag⟩
    · rw [if_neg (by simp),e₁]
      exact e₂
    · intro k hk
      rw [hl₂] at hk
      apply (s₂ k (by rw [hl₂]; exact hk)).congr (by rw [hl₂]; exact hk)
      intro d hd
      rw [hl₂] at hd
      by_cases hdc : d = c
      · subst hdc
        simp only [hflag k hk hd]
        rcases contributor_side r.layout hk hc hd with ⟨hh,ho⟩ | ⟨ht,ho⟩
        · simp [hh,ho]
        · simp [ht,ho]
      · simp [f₂.flags d hdc,f₁.flags d hdc,hdc]

end FaultCache.PoolStaging
