import FaultCache.PoolMemory
import FaultCache.PoolHistory

/-!
# One invariant for the four chunk operations

Filling, promoting, demoting and evicting a chunk each record one event.
`Touched` says once what such an operation can do to the rest of the pool and
to the page table; the pool invariant follows from it and from what the
operation makes of its own region and of the queue.
-/

set_option autoImplicit false

namespace FaultCache.PoolInvariant
open FaultCache.SentinelRing FaultCache.PageGeometry FaultCache.SharedPages FaultCache.VmPages
open FaultCache.PoolMachine FaultCache.PoolStaging FaultCache.PoolQueue FaultCache.PoolMemory
open FaultCache.PoolHistory

def coldFlags (p : Pool) (r : RegionId) : ℕ → Bool := fun c => p.cold (r,c)

structure PoolInv (s : State) (hot cold : List Node) : Prop where
  queue : Queue s.pool hot cold
  region : ∀ r ∈ s.pool.regions, RegionInv (s.pool.region r) (coldFlags s.pool r) s.vm
  apart : ∀ r ∈ s.pool.regions, ∀ r' ∈ s.pool.regions, r ≠ r' → ∀ q,
    InRange (s.pool.region r) q → ¬ InRange (s.pool.region r') q
  alternates : ∀ n, Alternates n s.pool.history
  populated : ∀ n, Live s.pool n →
    populated n s.pool.history = (s.pool.region n.1).initialized n.2
  unbounded : s.pool.targetSize = 0 → ∀ n, .evict n ∉ s.pool.history ∧ .demote n ∉ s.pool.history

/-- What one operation on a chunk leaves alone, and how the flag it records
fits its event. A page changes only inside the chunk's exclusive range, or
because a fill published a shared page for the first time. -/
structure Touched (s : State) (e : Event) (s' : State) : Prop where
  live : Live s.pool (node e)
  regions : s'.pool.regions = s.pool.regions
  target : s'.pool.targetSize = s.pool.targetSize
  history : s'.pool.history = e::s.pool.history
  shape : SameShape (s.pool.region (node e).1) (s'.pool.region (node e).1)
  others : ∀ r, r ≠ (node e).1 → s'.pool.region r = s.pool.region r
  flags : ∀ c, c ≠ (node e).2 → (s'.pool.region (node e).1).initialized c =
    (s.pool.region (node e).1).initialized c
  before : ∀ b, sets e = some b → (s.pool.region (node e).1).initialized (node e).2 = !b
  after : (s'.pool.region (node e).1).initialized (node e).2 =
    (sets e).getD ((s.pool.region (node e).1).initialized (node e).2)
  cold : ∀ m, m ≠ node e → s'.pool.cold m = s.pool.cold m
  published : ∀ k, ((s.pool.region (node e).1).sharedPages k).mapped = true →
    (s'.pool.region (node e).1).sharedPages k = (s.pool.region (node e).1).sharedPages k
  pages : ∀ q, s'.vm q ≠ s.vm q → InExclusive (s.pool.region (node e).1) (node e).2 q ∨
    sets e = some true ∧ ∃ k < nshared (s.pool.region (node e).1).layout,
      ((s.pool.region (node e).1).sharedPages k).mapped = false ∧
      InShared (s.pool.region (node e).1) k q
  bounded : s.pool.targetSize = 0 → ∀ n, e ≠ .evict n ∧ e ≠ .demote n

theorem Touched.shapes {s s' : State} {e : Event} (h : Touched s e s') (r : RegionId) :
    SameShape (s.pool.region r) (s'.pool.region r) := by
  by_cases hr : r = (node e).1
  · subst hr
    exact h.shape
  · rw [h.others r hr]
    exact SameShape.refl _

theorem Touched.layouts {s s' : State} {e : Event} (h : Touched s e s') :
    SameLayouts s.pool s'.pool := fun r => (h.shapes r).layout

theorem Touched.live_iff {s s' : State} {e : Event} (h : Touched s e s') (n : Node) :
    Live s'.pool n ↔ Live s.pool n := by
  rw [Live,Live,h.regions,h.layouts n.1]

/-- The page table changes inside the region that is worked on. -/
theorem Touched.inRange {s s' : State} {e : Event} (h : Touched s e s') {q : ℕ}
    (hq : s'.vm q ≠ s.vm q) : InRange (s.pool.region (node e).1) q := by
  rcases h.pages q hq with hx | ⟨-,k,hk,-,hx⟩
  · exact exclusive_inRange h.live.2 hx
  · exact shared_inRange hk hx

theorem Touched.initialized {s s' : State} {e : Event} (h : Touched s e s') (n : Node)
    (hn : n ≠ node e) :
    (s'.pool.region n.1).initialized n.2 = (s.pool.region n.1).initialized n.2 := by
  by_cases hr : n.1 = (node e).1
  · have hc : n.2 ≠ (node e).2 := fun hc => hn (Prod.ext hr hc)
    rw [hr]
    exact h.flags n.2 hc
  · rw [h.others n.1 hr]

/-- The rest of the pool follows once the queue and the region worked on are
accounted for. -/
theorem Touched.inv {s s' : State} {e : Event} {hot cold hot' cold' : List Node}
    (ht : Touched s e s') (h : PoolInv s hot cold) (hq : Queue s'.pool hot' cold')
    (hr : RegionInv (s'.pool.region (node e).1) (coldFlags s'.pool (node e).1) s'.vm) :
    PoolInv s' hot' cold' where
  queue := hq
  region := by
    intro r hm
    rw [ht.regions] at hm
    by_cases hre : r = (node e).1
    · subst hre
      exact hr
    · rw [ht.others r hre]
      refine (h.region r hm).outside (fun c => ht.cold (r,c) (fun he => hre (congrArg Prod.fst he))) ?_
      intro q hin
      by_contra hne
      exact h.apart r hm _ ht.live.1 hre q hin (ht.inRange hne)
  apart := by
    intro r hm r' hm' hne q hin
    rw [ht.regions] at hm hm'
    rw [(ht.shapes r').inRange]
    exact h.apart r hm r' hm' hne q ((ht.shapes r).inRange q |>.mp hin)
  alternates := by
    intro n
    rw [ht.history]
    refine ⟨?_,h.alternates n⟩
    rintro rfl b hb
    rw [h.populated _ ht.live]
    exact ht.before b hb
  populated := by
    intro n hn
    rw [ht.live_iff] at hn
    rw [ht.history,PoolHistory.populated,h.populated n hn]
    split_ifs with he
    · rw [← he]
      exact ht.after.symm
    · exact (ht.initialized n (fun hc => he hc.symm)).symm
  unbounded := by
    intro h0 n
    rw [ht.target] at h0
    rw [ht.history,List.mem_cons,List.mem_cons]
    have := h.unbounded h0 n
    have hb := ht.bounded h0 n
    exact ⟨fun hc => hc.elim (fun he => hb.1 he.symm) this.1,
      fun hc => hc.elim (fun he => hb.2 he.symm) this.2⟩

section Queued
variable {s : State} {hot cold : List Node} {n : Node}

theorem PoolInv.initialized_iff (h : PoolInv s hot cold) (hl : Live s.pool n) :
    (s.pool.region n.1).initialized n.2 = true ↔ n ∈ hot ++ cold :=
  h.queue.account.initialized n.1 hl.1 n.2 hl.2

theorem PoolInv.live (h : PoolInv s hot cold) (hn : n ∈ hot ++ cold) : Live s.pool n :=
  h.queue.account.live n hn

theorem PoolInv.queued (h : PoolInv s hot cold) (hn : n ∈ hot ++ cold) :
    (s.pool.region n.1).initialized n.2 = true :=
  (h.initialized_iff (h.live hn)).mpr hn

end Queued

theorem coldFlags_of_ne {p p' : Pool} {n : Node} (h : ∀ m, m ≠ n → p'.cold m = p.cold m) (c : ℕ)
    (hc : c ≠ n.2) : coldFlags p' n.1 c = coldFlags p n.1 c :=
  h (n.1,c) (fun he => hc (congrArg Prod.snd he))

theorem demote_spec {s : State} {hot cold : List Node} {n : Node} (h : PoolInv s (hot ++ [n]) cold)
    (ht : 0 < s.pool.targetSize) :
    Touched s (.demote n) (demote s n) ∧ PoolInv (demote s n) hot (n::cold) := by
  have hn : n ∈ hot ++ [n] ++ cold := by simp
  have hl := h.live hn
  have hhot : s.pool.cold n = false := h.queue.order.hotFlag n (by simp)
  have hvm : ∀ q, ¬ InExclusive (s.pool.region n.1) n.2 q → (demote s n).vm q = s.vm q := by
    intro q hq
    exact (chunkSetReadable_apply s.pool s.vm n false q).trans (if_neg hq)
  have hcold : ∀ m, m ≠ n → (demote s n).pool.cold m = s.pool.cold m :=
    fun m hm => Function.update_of_ne hm _ _
  have htouch : Touched s (.demote n) (demote s n) := by
    refine ⟨hl,rfl,rfl,rfl,SameShape.refl _,fun _ _ => rfl,fun _ _ => rfl,?_,rfl,hcold,
      fun _ _ => rfl,?_,by omega⟩
    · rintro b ⟨⟩
    · intro q hq
      by_contra hc
      exact hq (hvm q (fun hx => hc (Or.inl hx)))
  have hreg : RegionInv (s.pool.region n.1) (coldFlags (demote s n).pool n.1) (demote s n).vm := by
    apply (h.region n.1 hl.1).local (SameShape.refl _) hl.2 rfl rfl (fun _ _ => rfl) id
      (fun d hd => coldFlags_of_ne hcold d hd) (h.region n.1 hl.1).faults hvm
    intro off hp hoff
    have hold := (h.region n.1 hl.1).exclusive n.2 hl.2 off hp hoff
    rw [h.queued hn,show coldFlags s.pool n.1 n.2 = false from hhot] at hold
    rw [h.queued hn,show coldFlags (demote s n).pool n.1 n.2 = true from Function.update_self _ _ _]
    change PageHolds _ _ _ off (chunkSetReadable s.pool s.vm n false ((s.pool.region n.1).base+off))
    rw [chunkSetReadable_apply,if_pos (exclusive_address _ hoff)]
    exact page_hide hold
  exact ⟨htouch,htouch.inv h (demote_queue h.queue) hreg⟩

theorem promote_spec {s : State} {hot cold : List Node} {n : Node} (h : PoolInv s hot cold)
    (hn : n ∈ cold) :
    promoteChunk s n.1 n.2 = some (promoted s n) ∧ Touched s (.promote n) (promoted s n) ∧
      PoolInv (promoted s n) (n::hot) (cold.erase n) := by
  have hm : n ∈ hot ++ cold := List.mem_append_right _ hn
  have hl := h.live hm
  have hr : (promoted s n).pool.region n.1 = countFault (s.pool.region n.1) n.2 := by
    simp [promoted]
  have hs : SameShape (s.pool.region n.1) (countFault (s.pool.region n.1) n.2) := ⟨rfl,rfl,rfl⟩
  have hvm : ∀ q, ¬ InExclusive (s.pool.region n.1) n.2 q → (promoted s n).vm q = s.vm q := by
    intro q hq
    exact (chunkSetReadable_apply s.pool s.vm n true q).trans (if_neg hq)
  obtain ⟨he,hq⟩ := promote_queue h.queue hn
  have hcold : ∀ m, m ≠ n → (promoted s n).pool.cold m = s.pool.cold m :=
    fun m hm => Function.update_of_ne hm _ _
  have htouch : Touched s (.promote n) (promoted s n) := by
    refine ⟨hl,rfl,rfl,rfl,by rw [node,hr]; exact hs,?_,by rw [node,hr]; exact fun _ _ => rfl,?_,
      by rw [node,hr]; rfl,hcold,by rw [node,hr]; exact fun _ _ => rfl,?_,?_⟩
    · intro r hrn
      exact update_region_of_ne (inserted (unlinked s.pool n) n) n.1 (fun r => countFault r n.2) hrn
    · rintro b ⟨⟩
    · intro q hq
      by_contra hc
      exact hq (hvm q (fun hx => hc (Or.inl hx)))
    · exact fun _ _ => ⟨by simp,by simp⟩
  have hreg : RegionInv ((promoted s n).pool.region n.1) (coldFlags (promoted s n).pool n.1)
      (promoted s n).vm := by
    rw [hr]
    apply (h.region n.1 hl.1).local hs hl.2 rfl rfl (fun _ _ => rfl) id
      (fun d hd => coldFlags_of_ne hcold d hd)
      (countFault_faults hl.2 (h.region n.1 hl.1).faults) hvm
    intro off hp hoff
    have hold := (h.region n.1 hl.1).exclusive n.2 hl.2 off hp hoff
    rw [h.queued hm,show coldFlags s.pool n.1 n.2 = true from h.queue.order.coldFlag n hn] at hold
    rw [show (countFault (s.pool.region n.1) n.2).initialized n.2 = true from h.queued hm,
      show coldFlags (promoted s n).pool n.1 n.2 = false from Function.update_self _ _ _]
    change PageHolds _ _ _ off (chunkSetReadable s.pool s.vm n true ((s.pool.region n.1).base+off))
    rw [chunkSetReadable_apply,if_pos (exclusive_address _ hoff)]
    exact page_unhide hold
  exact ⟨he,htouch,htouch.inv h hq hreg⟩

/-- The state after an eviction. -/
def evicted (s : State) (n : Node) : State :=
  ⟨{ forgotten (unlinked s.pool n) n (lruNodeSize s.pool n) with
      history := .evict n::s.pool.history },
    decommitChunk (dropChunk (s.pool.region n.1) n.2 (lruNodeSize s.pool n)) s.vm n.2⟩

theorem evict_spec {s : State} {hot cold : List Node} {n : Node} (h : PoolInv s hot cold)
    (hn : n ∈ hot ++ cold) (ht : 0 < s.pool.targetSize) :
    lruEvictChunk s n = some (evicted s n) ∧ Touched s (.evict n) (evicted s n) ∧
      PoolInv (evicted s n) (hot.erase n) (cold.erase n) := by
  have hl := h.live hn
  set r' := dropChunk (s.pool.region n.1) n.2 (lruNodeSize s.pool n) with hr'
  have hr : (evicted s n).pool.region n.1 = r' := forgotten_region_self _ _ _
  have hs : SameShape (s.pool.region n.1) r' := ⟨rfl,rfl,rfl⟩
  have hvm : ∀ q, ¬ InExclusive (s.pool.region n.1) n.2 q → (evicted s n).vm q = s.vm q := by
    intro q hq
    exact (decommitChunk_apply r' s.vm n.2 q).trans (if_neg hq)
  obtain ⟨he,hq⟩ := forget_queue h.queue hn
  have hqueue : Queue (evicted s n).pool (hot.erase n) (cold.erase n) :=
    ⟨hq.order.transport (fun _ => rfl) rfl rfl rfl rfl rfl,
      hq.account.transport (fun _ => rfl) rfl rfl (fun _ _ => rfl) (fun _ _ => rfl) (fun _ _ => rfl),
      hq.distinct,hq.fits⟩
  have htouch : Touched s (.evict n) (evicted s n) := by
    refine ⟨hl,rfl,rfl,rfl,by rw [node,hr]; exact hs,?_,?_,?_,?_,?_,?_,?_,by omega⟩
    · exact fun r hrn => forgotten_region_of_ne _ _ _ hrn
    · intro c hc
      rw [node,hr]
      exact Function.update_of_ne hc _ _
    · rintro b ⟨⟩
      exact h.queued hn
    · rw [node,hr]
      exact Function.update_self _ _ _
    · exact fun _ _ => rfl
    · rw [node,hr]
      exact fun _ _ => rfl
    · intro q hq
      by_contra hc
      exact hq (hvm q (fun hx => hc (Or.inl hx)))
  have hreg : RegionInv ((evicted s n).pool.region n.1) (coldFlags (evicted s n).pool n.1)
      (evicted s n).vm := by
    rw [hr]
    apply (h.region n.1 hl.1).local hs hl.2 rfl rfl (fun d hd => Function.update_of_ne hd _ _)
      (fun _ => h.queued hn) (fun _ _ => rfl) (h.region n.1 hl.1).faults hvm
    intro off hp hoff
    rw [show r'.initialized n.2 = false from Function.update_self _ _ _]
    change PageHolds _ _ _ off (decommitChunk r' s.vm n.2 (r'.base+off))
    rw [decommitChunk_apply,if_pos (exclusive_address r' hoff)]
    rfl
  refine ⟨?_,htouch,htouch.inv h hqueue hreg⟩
  rw [lruEvictChunk,he,Option.map_some,forgotten_region_self]
  rfl

/-- The region after a fill whose staging half left it as `r`. -/
def filledRegion (r : Region) (c size : ℕ) : Region :=
  { addChunk (countFault r c) size with chunksResolved := r.chunksResolved+1 }

theorem fill_region {r r₁ : Region} {cold cold' : ℕ → Bool} {vm vm₁ : PageTable} {c size : ℕ}
    (h : RegionInv r cold vm) (hc : c < r.layout.nchunks)
    (hs : StagedBy r₁ (fun _ => r₁.chunkStaged)) (hv : SharedShown r₁ vm₁)
    (hf : StageFrame { r with initialized := Function.update r.initialized c true } vm c r₁ vm₁)
    (hst : ∀ k < nshared r.layout, c ∈ contributors r.layout k → r₁.chunkStaged c = true)
    (hcold : ∀ d, d ≠ c → cold' d = cold d) (hcc : cold' c = false) :
    RegionInv (filledRegion r₁ c size) cold'
      (consume vm₁ (fillScratch r c) (fillPieces r.layout r.base c)) := by
  have hl : r₁.layout = r.layout := by rw [hf.region]
  have hb : r₁.base = r.base := by rw [hf.region]
  have hfl : r₁.fillChunk = r.fillChunk := by rw [hf.region]
  have hi : r₁.initialized = Function.update r.initialized c true := by rw [hf.region]
  have hshape : SameShape r (filledRegion r₁ c size) := ⟨hl,hb,hfl⟩
  have hvm : ∀ q, ¬ InExclusive r c q →
      consume vm₁ (fillScratch r c) (fillPieces r.layout r.base c) q = vm₁ q :=
    fun q hq => (consume_fillPieces_apply r vm₁ _ c q).trans (if_neg hq)
  refine ⟨?_,?_,?_,?_,?_⟩
  · exact staged_frame hs ⟨rfl,rfl,rfl⟩ rfl
  · intro d hd hid k hk hdk
    change d < r₁.layout.nchunks at hd
    change r₁.initialized d = true at hid
    change k < nshared r₁.layout at hk
    change d ∈ contributors r₁.layout k at hdk
    change r₁.chunkStaged d = true
    rw [hl] at hd hk hdk
    by_cases hdc : d = c
    · subst hdc
      exact hst k hk hdk
    · rw [hi,Function.update_of_ne hdc] at hid
      rw [hf.flags d hdc]
      exact h.contributed d hd hid k hk hdk
  · apply shared_frame hv ⟨rfl,rfl,rfl⟩ rfl
    intro k hk
    rw [hl] at hk
    rw [hl,hb]
    exact hvm _ (shared_not_exclusive hk hc)
  · apply h.exclusive.update hshape hc
    · intro d hd
      change r₁.initialized d = _
      rw [hi,Function.update_of_ne hd]
    · exact hcold
    · intro d hd hne off hp hoff
      rw [hvm _ (exclusive_apart hc hd hne hp hoff)]
      exact hf.pages _ (fun k hk _ => exclusive_not_shared (r := r) hk hd hp hoff)
    · intro off hp hoff
      have hlo := ((exclusive_iff r.layout hc hp).mp hoff).1
      have hlo' := hoff.1
      have hexcl : boundaryPage r.layout c ≤ r.layout.exclLo c := by
        have h1 := boundaryPage_le r.layout c
        have h2 := exclLo_ge r.layout hc
        omega
      rw [show (filledRegion r₁ c size).initialized c = true by
        change r₁.initialized c = true; rw [hi,Function.update_self],hcc,consume_fillPieces_apply,
        if_pos (exclusive_address r hoff)]
      refine ⟨rfl,rfl,?_⟩
      intro i hip
      rw [← fillScratch_content r hc hp hoff hip]
      exact congrArg (fillScratch r c).bytes (by omega)
  · change (countFault r₁ c).faultEventsTotal = faultSum (countFault r₁ c)
    apply countFault_faults (by rw [hl]; exact hc)
    have he : r₁.faultEventsTotal = r.faultEventsTotal := by rw [hf.region]
    have ht : r₁.chunkFaultsTotal = r.chunkFaultsTotal := by rw [hf.region]
    rw [he,faultSum,ht,hl]
    exact h.faults

/-- The staging half of a fill. -/
theorem fill_stage {r : Region} {cold : ℕ → Bool} {vm : PageTable} {c : ℕ} (h : RegionInv r cold vm)
    (hc : c < r.layout.nchunks) :
    ∃ r₁ vm₁, stageShared { r with initialized := Function.update r.initialized c true } vm c
        (fillScratch r c) = some (r₁,vm₁) ∧
      StagedBy r₁ (fun _ => r₁.chunkStaged) ∧ SharedShown r₁ vm₁ ∧
      StageFrame { r with initialized := Function.update r.initialized c true } vm c r₁ vm₁ ∧
      ∀ k < nshared r.layout, c ∈ contributors r.layout k → r₁.chunkStaged c = true :=
  stage_shared (r := { r with initialized := Function.update r.initialized c true })
    (staged_frame h.staged ⟨rfl,rfl,rfl⟩ rfl) (shared_frame h.shared ⟨rfl,rfl,rfl⟩ rfl (fun _ _ => rfl))
    hc (fillScratch_slices r c)

/-- A fill of a chunk that is not populated never aborts. -/
theorem fill_spec {s : State} {hot cold : List Node} {rid : RegionId} {c : ℕ}
    (h : PoolInv s hot cold) (hl : Live s.pool (rid,c))
    (hi : (s.pool.region rid).initialized c = false) :
    ∃ s', fillChunkLocked s rid c = some s' ∧
      Touched s (.fill (rid,c) ((s.pool.region rid).layout.chunkSize c)) s' ∧
      PoolInv s' ((rid,c)::hot) cold := by
  have hr := h.region rid hl.1
  set r := s.pool.region rid with hrdef
  obtain ⟨r₁,vm₁,e₁,s₁,v₁,f₁,c₁⟩ := fill_stage hr hl.2
  set r₀ : Region := { r with initialized := Function.update r.initialized c true } with hr₀
  have hlay : r₁.layout = r.layout := by rw [f₁.region]
  have hinit : r₁.initialized = Function.update r.initialized c true := by rw [f₁.region]
  have hn : (rid,c) ∉ hot ++ cold := by
    intro hm
    have := h.queued hm
    rw [hi] at this
    cases this
  set p₁ : Pool := { s.pool.update rid (fun _ => r₁) with
    history := .fill (rid,c) (r.layout.chunkSize c)::s.pool.history } with hp₁
  have hself : p₁.region rid = r₁ := update_region_self s.pool rid (fun _ => r₁)
  have hother : ∀ q, q ≠ rid → p₁.region q = s.pool.region q :=
    fun q hq => update_region_of_ne s.pool rid (fun _ => r₁) hq
  have hL : SameLayouts s.pool p₁ := same_layouts_update (p := s.pool) (f := fun _ => r₁) hlay
  obtain ⟨ea,hq⟩ := fill_queue (n := (rid,c)) h.queue hn hl
    (h.queue.order.transport hL rfl rfl rfl rfl rfl) hL rfl rfl hother
    (by rw [hself]; exact hinit) (by rw [hself,f₁.region]) (by rw [hself,f₁.region])
  set s' : State := ⟨filledPool p₁ (rid,c),consume vm₁ (fillScratch r c) (fillPieces r.layout r.base c)⟩
    with hs'
  have hregion : s'.pool.region rid = filledRegion r₁ c (lruNodeSize p₁ (rid,c)) := by
    have := filledPool_region_self p₁ (rid,c)
    rw [hself] at this
    exact this
  have hcold : ∀ m, m ≠ (rid,c) → s'.pool.cold m = s.pool.cold m :=
    fun m hm => Function.update_of_ne hm _ _
  have htouch : Touched s (.fill (rid,c) (r.layout.chunkSize c)) s' := by
    refine ⟨hl,rfl,rfl,rfl,?_,?_,?_,?_,?_,hcold,?_,?_,?_⟩
    · simp only [node,hregion]
      exact ⟨hlay,by rw [← hrdef]; exact (by rw [f₁.region] : r₁.base = r.base),
        (by rw [f₁.region] : r₁.fillChunk = r.fillChunk)⟩
    · exact fun q hq => (filledPool_region_of_ne p₁ (rid,c) hq).trans (hother q hq)
    · intro d hd
      simp only [node,hregion]
      change r₁.initialized d = _
      rw [hinit,Function.update_of_ne (show d ≠ c from hd)]
    · rintro b ⟨⟩
      exact hi
    · simp only [node,hregion]
      change r₁.initialized c = true
      rw [hinit,Function.update_self]
    · intro k hk
      simp only [node,hregion]
      exact f₁.published k hk
    · intro q hq
      by_contra hc
      rw [not_or] at hc
      apply hq
      refine (consume_fillPieces_apply r vm₁ _ c q).trans ((if_neg hc.1).trans (f₁.pages q ?_))
      exact fun k hk hm hx => hc.2 ⟨rfl,k,hk,hm,hx⟩
    · exact fun _ _ => ⟨by simp,by simp⟩
  have hreg : RegionInv (s'.pool.region rid) (coldFlags s'.pool rid) s'.vm := by
    rw [hregion]
    exact fill_region hr hl.2 s₁ v₁ f₁ c₁ (fun d hd => coldFlags_of_ne hcold d hd)
      (Function.update_self _ _ _)
  refine ⟨s',?_,htouch,htouch.inv h hq hreg⟩
  simp only [fillChunkLocked]
  rw [← hrdef,← hr₀,e₁,Option.bind_some]
  simp only
  rw [← hp₁,ea]
  rfl

/-- The counters of a fill are all that its account changes in a region. -/
theorem fillAccount_keeps {β : Type} {g : Region → β} (hcount : ∀ r c, g (countFault r c) = g r)
    (hadd : ∀ r size, g (addChunk r size) = g r)
    (hres : ∀ r : Region, g { r with chunksResolved := r.chunksResolved+1 } = g r) {p q : Pool} {n : Node}
    (h : fillAccount p n = some q) (rid : RegionId) : g (q.region rid) = g (p.region rid) := by
  obtain ⟨p₁,he,rfl⟩ := Option.map_eq_some_iff.mp h
  have hqueued : g (p₁.region rid) = g ((p.update n.1 (fun r => countFault r n.2)).region rid) := by
    unfold enqueue lruInsertMru at he
    split_ifs at he
    · cases he
      rfl
    · obtain ⟨_,hins,rfl⟩ := Option.map_eq_some_iff.mp he
      cases hins
      exact update_keeps (f := fun r => addChunk r _) _ n.1 (fun r => hadd r _) rid
  rw [update_keeps (g := g) (f := fun r => { r with chunksResolved := r.chunksResolved+1 }) p₁ n.1 hres rid,
    hqueued,update_keeps (g := g) (f := fun r => countFault r n.2) p n.1 (fun r => hcount r _) rid]

/-- After a fill the chunk counts as staged wherever it contributes. -/
theorem fill_staged {s s' : State} {hot cold : List Node} {rid : RegionId} {c : ℕ}
    (h : PoolInv s hot cold) (hl : Live s.pool (rid,c)) (hf : fillChunkLocked s rid c = some s') :
    (∀ d, d ≠ c → (s'.pool.region rid).chunkStaged d = (s.pool.region rid).chunkStaged d) ∧
    ∀ k < nshared (s.pool.region rid).layout, c ∈ contributors (s.pool.region rid).layout k →
      (s'.pool.region rid).chunkStaged c = true := by
  obtain ⟨r₁,vm₁,e₁,-,-,f₁,c₁⟩ := fill_stage (h.region rid hl.1) hl.2
  simp only [fillChunkLocked] at hf
  rw [e₁,Option.bind_some] at hf
  obtain ⟨p,hp,rfl⟩ := Option.map_eq_some_iff.mp hf
  have hsame : (p.region rid).chunkStaged = r₁.chunkStaged := by
    rw [fillAccount_keeps (g := Region.chunkStaged) (fun _ _ => rfl) (fun _ _ => rfl) (fun _ => rfl) hp]
    simp
  simp only [hsame]
  exact ⟨f₁.flags,c₁⟩

end FaultCache.PoolInvariant
