import FaultCache.PoolQueue
import FaultCache.PoolStaging

/-!
# Page contents against the chunk flags

A page in a chunk's exclusive range is inaccessible while the chunk is not
populated, hidden with its contents while the chunk is cold, and readable
otherwise. The four chunk operations change the page table inside that range
only; a fill also publishes shared pages, which lie outside every range.
-/

set_option autoImplicit false

namespace FaultCache.PoolMemory
open FaultCache.PageGeometry FaultCache.SharedPages FaultCache.VmPages FaultCache.PoolMachine
open FaultCache.PoolStaging

/-- A page of a chunk's exclusive range, by the chunk's flags. -/
def PageHolds (r : Region) (populated cold : Bool) (off : ℕ) : PageState → Prop
  | .inaccessible => populated = false
  | .hidden b => populated = true ∧ cold = true ∧ ∀ i < r.layout.pageSize, b i = content r (off+i)
  | .readable b => populated = true ∧ cold = false ∧ ∀ i < r.layout.pageSize, b i = content r (off+i)

def ExclShown (r : Region) (cold : ℕ → Bool) (vm : PageTable) : Prop :=
  ∀ c < r.layout.nchunks, ∀ off, r.layout.pageSize ∣ off →
    r.layout.exclLo c ≤ off ∧ off < r.layout.exclHi c →
      PageHolds r (r.initialized c) (cold c) off (vm (r.base+off))

/-- The first entries of a counter array, added up in `uint64_t`. -/
def sumTo (f : ℕ → UInt64) : ℕ → UInt64
  | 0 => 0
  | n+1 => sumTo f n+f n

def faultSum (r : Region) : UInt64 := sumTo r.chunkFaultsTotal r.layout.nchunks

theorem sumTo_update (f : ℕ → UInt64) (c : ℕ) (x : UInt64) (n : ℕ) :
    sumTo (Function.update f c (f c+x)) n = sumTo f n+if c < n then x else 0 := by
  induction n with
  | zero => simp [sumTo]
  | succ n ih =>
    rw [sumTo,sumTo,ih]
    rcases Nat.lt_trichotomy c n with hlt | rfl | hgt
    · rw [if_pos hlt,if_pos (by omega),Function.update_of_ne (by omega)]
      ac_rfl
    · rw [if_neg (by omega),if_pos (by omega),Function.update_self,UInt64.add_zero]
      ac_rfl
    · rw [if_neg (by omega),if_neg (by omega),Function.update_of_ne (by omega),UInt64.add_zero,
        UInt64.add_zero]

theorem countFault_faults {r : Region} {c : ℕ} (hc : c < r.layout.nchunks)
    (h : r.faultEventsTotal = faultSum r) :
    (countFault r c).faultEventsTotal = faultSum (countFault r c) := by
  simp only [faultSum,countFault]
  rw [sumTo_update,if_pos hc,h,faultSum]

/-- What holds of one live region. -/
structure RegionInv (r : Region) (cold : ℕ → Bool) (vm : PageTable) : Prop where
  staged : StagedBy r (fun _ => r.chunkStaged)
  contributed : ∀ c < r.layout.nchunks, r.initialized c = true →
    ∀ k < nshared r.layout, c ∈ contributors r.layout k → r.chunkStaged c = true
  shared : SharedShown r vm
  exclusive : ExclShown r cold vm
  faults : r.faultEventsTotal = faultSum r

def InRange (r : Region) (q : ℕ) : Prop := r.base ≤ q ∧ q < r.base+r.layout.mappedSize

instance (r : Region) (q : ℕ) : Decidable (InRange r q) := inferInstanceAs (Decidable (_ ∧ _))

def InExclusive (r : Region) (c q : ℕ) : Prop :=
  r.base+r.layout.exclLo c ≤ q ∧ q < r.base+r.layout.exclHi c

def InShared (r : Region) (k q : ℕ) : Prop :=
  r.base+(sharedPage r.layout k).pageOff ≤ q ∧
    q < r.base+(sharedPage r.layout k).pageOff+r.layout.pageSize

instance (L : Layout) (c off : ℕ) : Decidable (L.Covers c off) :=
  inferInstanceAs (Decidable (_ ∧ _))

instance (r : Region) (c q : ℕ) : Decidable (InExclusive r c q) :=
  inferInstanceAs (Decidable (_ ∧ _))

/-- What a region keeps from its creation on. -/
structure SameShape (r r' : Region) : Prop where
  layout : r'.layout = r.layout
  base : r'.base = r.base
  fillChunk : r'.fillChunk = r.fillChunk

theorem SameShape.refl (r : Region) : SameShape r r := ⟨rfl,rfl,rfl⟩

theorem SameShape.trans {r r' r₂ : Region} (h : SameShape r r') (h₂ : SameShape r' r₂) :
    SameShape r r₂ :=
  ⟨h₂.layout.trans h.layout,h₂.base.trans h.base,h₂.fillChunk.trans h.fillChunk⟩

theorem SameShape.content {r r' : Region} (h : SameShape r r') : content r' = content r := by
  funext off
  simp only [PoolStaging.content,h.layout,h.fillChunk]

theorem SameShape.inRange {r r' : Region} (h : SameShape r r') (q : ℕ) :
    InRange r' q ↔ InRange r q := by
  simp only [InRange,h.layout,h.base]

theorem exclHi_le (L : Layout) {c : ℕ} (hc : c < L.nchunks) (h : L.exclLo c < L.exclHi c) :
    L.exclHi c ≤ L.mappedSize := by
  have hfl := pageFloor_le (L.chunkStart (c+1)) L.pageSize
  have hend := L.start_le_total (i := c+1) (by omega)
  have hmap := L.mapped_bounds.1
  simp only [Layout.exclLo,Layout.exclHi,Layout.chunkExclusivePages] at h ⊢
  split_ifs at h ⊢ <;> omega

theorem exclLo_ge (L : Layout) {c : ℕ} (hc : c < L.nchunks) : L.chunkStart c ≤ L.exclLo c := by
  have := L.start_le_total (Nat.le_of_lt hc)
  have := L.total_fits
  have := (pageCeil_bounds L.pageSize_pos (x := L.chunkStart c) (by omega)).1
  simpa [Layout.exclLo,Layout.chunkExclusivePages] using this

theorem exclusive_inRange {r : Region} {c q : ℕ} (hc : c < r.layout.nchunks)
    (h : InExclusive r c q) : InRange r q := by
  obtain ⟨h1,h2⟩ := h
  have := exclHi_le r.layout hc (by omega)
  exact ⟨by omega,by omega⟩

theorem shared_inRange {r : Region} {k q : ℕ} (hk : k < nshared r.layout) (h : InShared r k q) :
    InRange r q := by
  obtain ⟨h1,h2⟩ := h
  have := shared_lt_mapped r.layout hk
  exact ⟨by omega,by omega⟩

/-- A shared page lies outside every exclusive range. -/
theorem shared_not_exclusive {r : Region} {k c : ℕ} (hk : k < nshared r.layout)
    (hc : c < r.layout.nchunks) :
    ¬ InExclusive r c (r.base+(sharedPage r.layout k).pageOff) := by
  rintro ⟨h1,h2⟩
  have := (exclusive_page r.layout hc (shared_aligned r.layout hk) ⟨by omega,by omega⟩).2.1
  rw [(findSharedPage_some r.layout _ k).mpr ⟨hk,rfl⟩] at this
  cases this

theorem exclusive_not_shared {r : Region} {k c off : ℕ} (hk : k < nshared r.layout)
    (hc : c < r.layout.nchunks) (hp : r.layout.pageSize ∣ off)
    (h : r.layout.exclLo c ≤ off ∧ off < r.layout.exclHi c) : ¬ InShared r k (r.base+off) := by
  rintro ⟨h1,h2⟩
  obtain rfl := aligned_eq (shared_aligned r.layout hk) hp (by omega) (by omega)
  exact shared_not_exclusive hk hc ⟨by omega,by omega⟩

theorem exclusive_apart {r : Region} {c d off : ℕ} (hc : c < r.layout.nchunks)
    (hd : d < r.layout.nchunks) (hne : d ≠ c) (hp : r.layout.pageSize ∣ off)
    (h : r.layout.exclLo d ≤ off ∧ off < r.layout.exclHi d) : ¬ InExclusive r c (r.base+off) := by
  rintro ⟨h1,h2⟩
  have e1 := (exclusive_page r.layout hd hp h).2.2
  have e2 := (exclusive_page r.layout hc hp ⟨by omega,by omega⟩).2.2
  exact hne (e1.symm.trans e2)

theorem PageHolds.congr {r r' : Region} (h : SameShape r r') {populated cold : Bool} {off : ℕ}
    {st : PageState} : PageHolds r' populated cold off st ↔ PageHolds r populated cold off st := by
  cases st <;> simp only [PageHolds,h.layout,h.content]

theorem page_hide {r : Region} {off : ℕ} {st : PageState} (h : PageHolds r true false off st) :
    PageHolds r true true off (st.setReadable false) := by
  cases st with
  | inaccessible => cases h
  | hidden b => cases h.2.1
  | readable b => exact ⟨rfl,rfl,h.2.2⟩

theorem page_unhide {r : Region} {off : ℕ} {st : PageState} (h : PageHolds r true true off st) :
    PageHolds r true false off (st.setReadable true) := by
  cases st with
  | inaccessible => cases h
  | hidden b => exact ⟨rfl,rfl,h.2.2⟩
  | readable b => cases h.2.1

theorem exclusive_address (r : Region) {c off : ℕ}
    (h : r.layout.exclLo c ≤ off ∧ off < r.layout.exclHi c) : InExclusive r c (r.base+off) :=
  ⟨by omega,by omega⟩

/-- An operation on chunk `c` that accounts for the pages of its own range and
changes no other page of the region. -/
theorem ExclShown.update {r r' : Region} {cold cold' : ℕ → Bool} {vm vm' : PageTable} {c : ℕ}
    (h : ExclShown r cold vm) (hs : SameShape r r') (hc : c < r.layout.nchunks)
    (hi : ∀ d, d ≠ c → r'.initialized d = r.initialized d) (hcold : ∀ d, d ≠ c → cold' d = cold d)
    (hv : ∀ d < r.layout.nchunks, d ≠ c → ∀ off, r.layout.pageSize ∣ off →
      r.layout.exclLo d ≤ off ∧ off < r.layout.exclHi d → vm' (r.base+off) = vm (r.base+off))
    (hown : ∀ off, r.layout.pageSize ∣ off → r.layout.exclLo c ≤ off ∧ off < r.layout.exclHi c →
      PageHolds r (r'.initialized c) (cold' c) off (vm' (r.base+off))) :
    ExclShown r' cold' vm' := by
  intro d hd off hp hoff
  rw [hs.layout] at hd hp hoff
  rw [PageHolds.congr hs,hs.base]
  by_cases hdc : d = c
  · subst hdc
    exact hown off hp hoff
  · rw [hi d hdc,hcold d hdc,hv d hd hdc off hp hoff]
    exact h d hd off hp hoff

theorem shared_frame {r r' : Region} {vm vm' : PageTable} (h : SharedShown r vm)
    (hs : SameShape r r') (hp : r'.sharedPages = r.sharedPages)
    (hv : ∀ k < nshared r.layout, vm' (r.base+(sharedPage r.layout k).pageOff) =
      vm (r.base+(sharedPage r.layout k).pageOff)) : SharedShown r' vm' := by
  intro k hk
  rw [hs.layout] at hk
  exact (h k hk).transport hs.layout hs.base hs.fillChunk (by rw [hp]) (hv k hk)

theorem staged_frame {r r' : Region} {done : ℕ → ℕ → Bool} (h : StagedBy r done)
    (hs : SameShape r r') (hp : r'.sharedPages = r.sharedPages) : StagedBy r' done := by
  intro k hk
  rw [hs.layout] at hk
  exact (h k hk).transport hs.layout hs.fillChunk (by rw [hp])

/-- A region is untouched by what happens outside its range. -/
theorem RegionInv.outside {r : Region} {cold cold' : ℕ → Bool} {vm vm' : PageTable}
    (h : RegionInv r cold vm) (hcold : ∀ c, cold' c = cold c)
    (hv : ∀ q, InRange r q → vm' q = vm q) : RegionInv r cold' vm' where
  staged := h.staged
  contributed := h.contributed
  shared := shared_frame h.shared (SameShape.refl r) rfl (fun _ hk =>
    hv _ (shared_inRange hk ⟨le_refl _,by have := r.layout.pageSize_pos; omega⟩))
  exclusive := by
    intro c hc off hp hoff
    rw [hcold c,hv _ (exclusive_inRange hc ⟨by omega,by omega⟩)]
    exact h.exclusive c hc off hp hoff
  faults := h.faults

/-- Promotion, demotion and eviction: no staging, no page outside the range. -/
theorem RegionInv.local {r r' : Region} {cold cold' : ℕ → Bool} {vm vm' : PageTable} {c : ℕ}
    (h : RegionInv r cold vm) (hs : SameShape r r') (hc : c < r.layout.nchunks)
    (hp : r'.sharedPages = r.sharedPages) (hst : r'.chunkStaged = r.chunkStaged)
    (hi : ∀ d, d ≠ c → r'.initialized d = r.initialized d)
    (hic : r'.initialized c = true → r.initialized c = true)
    (hcold : ∀ d, d ≠ c → cold' d = cold d) (hf : r'.faultEventsTotal = faultSum r')
    (hv : ∀ q, ¬ InExclusive r c q → vm' q = vm q)
    (hown : ∀ off, r.layout.pageSize ∣ off → r.layout.exclLo c ≤ off ∧ off < r.layout.exclHi c →
      PageHolds r (r'.initialized c) (cold' c) off (vm' (r.base+off))) :
    RegionInv r' cold' vm' where
  staged := by
    rw [hst]
    exact staged_frame h.staged hs hp
  contributed := by
    intro d hd hid k hk hdk
    rw [hs.layout] at hd hk hdk
    rw [hst]
    refine h.contributed d hd ?_ k hk hdk
    by_cases hdc : d = c
    · subst hdc
      exact hic hid
    · rw [← hi d hdc]
      exact hid
  shared := shared_frame h.shared hs hp (fun _ hk => hv _ (shared_not_exclusive hk hc))
  exclusive := h.exclusive.update hs hc hi hcold
    (fun d hd hne off hoff hex => hv _ (exclusive_apart hc hd hne hoff hex)) hown
  faults := hf

theorem chunkSetReadable_apply (p : Pool) (t : PageTable) (n : Node) (readable : Bool) (q : ℕ) :
    chunkSetReadable p t n readable q =
      if InExclusive (p.region n.1) n.2 q then (t q).setReadable readable else t q := by
  have := excl_le (p.region n.1).layout n.2
  simp only [chunkSetReadable]
  split_ifs with h1 h2 h2
  · exact if_pos ⟨h2.1,by have := h2.2; omega⟩
  · exact if_neg (fun hq => h2 ⟨hq.1,by have := hq.2; omega⟩)
  · obtain ⟨h3,h4⟩ := h2
    omega
  · rfl

theorem decommitChunk_apply (r : Region) (vm : PageTable) (c q : ℕ) :
    decommitChunk r vm c q = if InExclusive r c q then .inaccessible else vm q := by
  have := excl_le r.layout c
  simp only [decommitChunk]
  split_ifs with h1 h2 h2
  · obtain ⟨h3,h4⟩ := h2
    omega
  · rfl
  · exact if_pos ⟨h2.1,by have := h2.2; omega⟩
  · exact if_neg (fun hq => h2 ⟨hq.1,by have := hq.2; omega⟩)

/-- Of a filled scratch mapping exactly the exclusive range is published. -/
theorem consume_fillPieces_apply (r : Region) (vm : PageTable) (scratch : Scratch) (c q : ℕ) :
    consume vm scratch (fillPieces r.layout r.base c) q =
      if InExclusive r c q then .readable (fun i => scratch.bytes
        (r.layout.exclLo c-boundaryPage r.layout c+(q-(r.base+r.layout.exclLo c))+i)) else vm q := by
  have := excl_le r.layout c
  have hpub : ∀ t, vmScratchPublish t scratch (r.layout.exclLo c-boundaryPage r.layout c)
      (r.layout.exclHi c-r.layout.exclLo c) (r.base+r.layout.exclLo c) q =
      if InExclusive r c q then .readable (fun i => scratch.bytes
        (r.layout.exclLo c-boundaryPage r.layout c+(q-(r.base+r.layout.exclLo c))+i)) else t q := by
    intro t
    unfold vmScratchPublish
    split_ifs with h1 h2 h2
    · rfl
    · exact absurd ⟨h1.1,by have := h1.2; omega⟩ h2
    · exact absurd ⟨h2.1,by have := h2.2; omega⟩ h1
    · rfl
  unfold fillPieces
  by_cases hne : r.layout.exclLo c < r.layout.exclHi c
  · simp only [if_pos hne]
    rw [← hpub vm]
    split_ifs <;> rfl
  · simp only [if_neg hne,consume]
    rw [if_neg]
    rintro ⟨h1,h2⟩
    omega

theorem boundaryPage_le (L : Layout) (c : ℕ) : boundaryPage L c ≤ L.chunkStart c := pageFloor_le _ _

/-- Every byte of the scratch mapping, read at its region offset: the chunk's
own byte where the chunk covers it, zero elsewhere. -/
theorem fillScratch_bytes (r : Region) (c off : ℕ) (h : boundaryPage r.layout c ≤ off) :
    (fillScratch r c).bytes (off-boundaryPage r.layout c) =
      if r.layout.Covers c off then r.fillChunk c (off-r.layout.chunkStart c) else 0 := by
  have h1 := boundaryPage_le r.layout c
  change memcpy (fun _ => 0) (r.layout.chunkStart c-boundaryPage r.layout c) (r.fillChunk c) 0
    (r.layout.chunkStart (c+1)-r.layout.chunkStart c) (off-boundaryPage r.layout c) = _
  unfold memcpy
  by_cases hcov : r.layout.Covers c off
  · obtain ⟨h2,h3⟩ := hcov
    rw [if_pos ⟨by omega,by omega⟩,if_pos ⟨h2,h3⟩]
    congr 1
    omega
  · rw [if_neg hcov,if_neg]
    rintro ⟨h2,h3⟩
    exact hcov ⟨by omega,by omega⟩

theorem fillScratch_slices (r : Region) (c : ℕ) : Slices r c (fillScratch r c) := by
  intro off hoff
  have := boundaryPage_le r.layout c
  have := hoff.1
  rw [fillScratch_bytes r c off (by omega),if_pos hoff]

/-- In an exclusive page the scratch bytes are the final contents: what the
chunk does not cover there is the padding of the last chunk. -/
theorem fillScratch_content (r : Region) {c off i : ℕ} (hc : c < r.layout.nchunks)
    (hp : r.layout.pageSize ∣ off) (h : r.layout.exclLo c ≤ off ∧ off < r.layout.exclHi c)
    (hi : i < r.layout.pageSize) :
    (fillScratch r c).bytes (off+i-boundaryPage r.layout c) = content r (off+i) := by
  obtain ⟨h1,h2,h3⟩ := (exclusive_iff r.layout hc hp).mp h
  have := boundaryPage_le r.layout c
  rw [fillScratch_bytes r c (off+i) (by omega)]
  by_cases hcov : r.layout.Covers c (off+i)
  · have ht := r.layout.start_le_total (i := c+1) (by omega)
    have hlt := hcov.2
    rw [if_pos hcov,content,if_pos (by omega),r.layout.findChunk_eq hc hcov]
  · have hge : r.layout.chunkStart (c+1) ≤ off+i := by
      by_contra hlt
      exact hcov ⟨by omega,by omega⟩
    have hlast : c+1 = r.layout.nchunks := by omega
    rw [hlast,r.layout.start_last] at hge
    rw [if_neg hcov,content,if_neg (by omega)]

end FaultCache.PoolMemory
