import FaultCache.FaultThreads
import Mathlib.Algebra.Order.BigOperators.Group.Finset

/-!
# An access that needs two pages at once

A load across a page boundary faults on the first page that is not readable,
is retried, and faults again until both pages are readable. Each resolution
may evict or demote the chunk behind the other page.
-/

set_option autoImplicit false

namespace FaultCache.RetryLoop
open FaultCache.PageGeometry FaultCache.SharedPages FaultCache.VmPages FaultCache.PoolMachine
open FaultCache.PoolQueue FaultCache.PoolMemory FaultCache.PoolInvariant FaultCache.PoolResolve
open FaultCache.FaultProcess FaultCache.ProcessInvariant FaultCache.ProcessContract
open FaultCache.FaultThreads FaultCache.BudgetPrefix FaultCache.SplitRecency

/-- One execution of the access: done, or one fault resolved. -/
def retryOnce (a b : ℕ) (pr : Process) : Option Process :=
  if readable pr a then
    if readable pr b then some pr else (faultTryResolve pr b).map Prod.snd
  else (faultTryResolve pr a).map Prod.snd

def retry (a b : ℕ) : ℕ → Process → Option Process
  | 0, pr => some pr
  | n+1, pr => (retryOnce a b pr).bind (retry a b n)

/-- The access completes after finitely many resolutions. -/
def Settles (a b : ℕ) (pr : Process) : Prop :=
  ∃ n pr', retry a b n pr = some pr' ∧ readable pr' a = true ∧ readable pr' b = true

theorem settles_now {a b : ℕ} {pr : Process} (ha : readable pr a = true) (hb : readable pr b = true) :
    Settles a b pr := ⟨0,pr,rfl,ha,hb⟩

theorem settles_next {a b : ℕ} {pr pr' : Process} (h : retryOnce a b pr = some pr')
    (hs : Settles a b pr') : Settles a b pr := by
  obtain ⟨n,pr₂,hr,ha,hb⟩ := hs
  exact ⟨n+1,pr₂,by rw [retry,h]; exact hr,ha,hb⟩

/-- The region the access falls into, and the queue of its pool. -/
structure Focus (k : PoolId) (rid : RegionId) (L : Layout) (base target : ℕ) (w : Node → ℕ)
    (pr : Process) (hot cold : List Node) : Prop where
  inv : ProcessInv pr
  pool : k ∈ pr.pools
  region : rid ∈ (pr.pool k).regions
  layout : ((pr.pool k).region rid).layout = L
  address : ((pr.pool k).region rid).base = base
  budget : (pr.pool k).targetSize = target
  sizes : lruNodeSize (pr.pool k) = w
  queue : PoolInv ⟨pr.pool k,pr.vm⟩ hot cold

section Loop
variable {k : PoolId} {rid : RegionId} {L : Layout} {base target : ℕ} {w : Node → ℕ} {pr : Process}
  {hot cold : List Node}

theorem Focus.inRange (h : Focus k rid L base target w pr hot cold) {q : ℕ} (hq : q < L.mappedSize) :
    InRange ((pr.pool k).region rid) (base+q) := by
  refine ⟨by rw [h.address]; omega,?_⟩
  rw [h.address,h.layout]
  omega

theorem Focus.readable_page (h : Focus k rid L base target w pr hot cold) {q : ℕ}
    (hq : q < L.mappedSize) : readable pr (base+q) = pageReadable (pr.pool k) rid q := by
  rw [readable_eq h.inv h.pool h.region (h.inRange hq),h.address,Nat.add_sub_cancel_left]

theorem Focus.readable_hot (h : Focus k rid L base target w pr hot cold) {q : ℕ} (hd : L.pageSize ∣ q)
    (hq : q < L.mappedSize) (hf : findSharedPage L q = none) :
    readable pr (base+q) = true ↔ (rid,L.findChunk q) ∈ hot := by
  have hfix : pageFloor q ((pr.pool k).region rid).layout.pageSize = q := by
    rw [h.layout]
    exact pageFloor_aligned hd
  have hfl : findSharedPage ((pr.pool k).region rid).layout
      (pageFloor q ((pr.pool k).region rid).layout.pageSize) = none := by
    rw [hfix,h.layout]
    exact hf
  have hiff := readable_iff_hot h.queue h.region hfl
  simp only [hfix] at hiff
  rw [h.readable_page hq,hiff,h.layout]

/-- The published pages of the region. -/
def mapped (k : PoolId) (rid : RegionId) (pr : Process) (j : ℕ) : Bool :=
  (((pr.pool k).region rid).sharedPages j).mapped

theorem Focus.readable_shared (h : Focus k rid L base target w pr hot cold) {q j : ℕ}
    (hd : L.pageSize ∣ q) (hq : q < L.mappedSize) (hf : findSharedPage L q = some j) :
    readable pr (base+q) = mapped k rid pr j := by
  rw [h.readable_page hq]
  apply PoolResolve.readable_shared
  rw [h.layout,pageFloor_aligned hd]
  exact hf

/-- One resolution: the page is readable afterwards, published pages stay, and
an exclusive page moves its chunk to the front of the queue. -/
theorem Focus.resolve (h : Focus k rid L base target w pr hot cold) (ht : 0 < target) {q : ℕ}
    (hd : L.pageSize ∣ q) (hq : q < L.mappedSize) (hun : readable pr (base+q) = false) :
    ∃ pr' hot' cold', (faultTryResolve pr (base+q)).map Prod.snd = some pr' ∧
      Focus k rid L base target w pr' hot' cold' ∧ readable pr' (base+q) = true ∧
      (∀ j, mapped k rid pr j = true → mapped k rid pr' j = true) ∧
      (findSharedPage L q = none →
        MovesToFront w target (rid,L.findChunk q) hot cold hot' cold') := by
  have hoff : base+q-((pr.pool k).region rid).base = q := by rw [h.address,Nat.add_sub_cancel_left]
  have hread : pageReadable (pr.pool k) rid q = false := by rw [← h.readable_page hq]; exact hun
  obtain ⟨s₁,hot',cold',hs,hreach,hup,hmove⟩ := resolve_spec h.queue h.region hread
  have hcall : faultTryResolve pr (base+q) = some (true,withState pr k (countHandled s₁ rid)) := by
    apply (faultScan_live h.inv h.pool h.region (h.inRange hq) pr.pools (fun _ hj => hj)).2 h.pool
    · rw [hoff]
      exact hread
    · rw [hoff]
      exact hs
  have hframe := hreach.run.frame ⟨hot,cold,h.queue⟩
  have hregion : ∀ r, ∃ n, ((withState pr k (countHandled s₁ rid)).pool k).region r =
      { s₁.pool.region r with faultsHandled := n } := by
    intro r
    rw [withState_pool_self]
    exact countHandled_region s₁ rid r
  obtain ⟨n,hn⟩ := hregion rid
  have hlay : (s₁.pool.region rid).layout = L := ((hframe.shape rid).layout).trans h.layout
  have hfocus : Focus k rid L base target w (withState pr k (countHandled s₁ rid)) hot' cold' := by
    refine ⟨step_inv h.inv (.fault _ _ _ _ hcall),h.pool,?_,?_,?_,?_,?_,?_⟩
    · rw [withState_pool_self]
      exact (hreach.regions.symm ▸ h.region : rid ∈ s₁.pool.regions)
    · rw [hn]
      exact hlay
    · rw [hn]
      exact (hframe.shape rid).base.trans h.address
    · rw [withState_pool_self]
      exact hreach.target.trans h.budget
    · rw [← h.sizes]
      funext m
      obtain ⟨x,hx⟩ := hregion m.1
      rw [lruNodeSize,hx,lruNodeSize]
      exact congrArg (fun (M : Layout) => M.chunkSize m.2) (hreach.layouts m.1)
    · rw [withState_pool_self]
      exact countHandled_inv hreach.inv rid
  refine ⟨_,hot',cold',by rw [hcall]; rfl,hfocus,?_,?_,?_⟩
  · rw [hfocus.readable_page hq,withState_pool_self]
    obtain ⟨x,hx⟩ := countHandled_region s₁ rid rid
    rw [← hup]
    simp only [pageReadable,hx]
    rfl
  · intro j hj
    rw [mapped,hn]
    exact (congrArg SharedPage.mapped (hframe.published rid j hj)).trans hj
  · intro hf
    have hfix : pageFloor q L.pageSize = q := pageFloor_aligned hd
    have hm := hmove (by rw [h.budget]; exact ht) (by
      simp only [h.layout,hfix]
      exact hf)
    simp only [h.layout,hfix,h.sizes,h.budget] at hm
    exact hm

/-- Resolving the second page when the first is readable. -/
theorem retry_second {a b : ℕ} (ha : readable pr a = true) (hb : readable pr b = false) :
    retryOnce a b pr = (faultTryResolve pr b).map Prod.snd := by
  rw [retryOnce,ha,if_pos rfl,hb]
  rfl

theorem retry_first {a b : ℕ} (ha : readable pr a = false) :
    retryOnce a b pr = (faultTryResolve pr a).map Prod.snd := by
  rw [retryOnce,ha]
  rfl

section Pages
variable {q : ℕ}

/-- A published first page stays; one resolution of the second is enough. -/
theorem settles_left_mapped (h : Focus k rid L base target w pr hot cold) (ht : 0 < target)
    (hd : L.pageSize ∣ q) (hq : q+L.pageSize < L.mappedSize) {j : ℕ}
    (hf : findSharedPage L q = some j) (hm : mapped k rid pr j = true) :
    Settles (base+q) (base+(q+L.pageSize)) pr := by
  have ha : readable pr (base+q) = true := by rw [h.readable_shared hd (by omega) hf,hm]
  cases hb : readable pr (base+(q+L.pageSize)) with
  | true => exact settles_now ha hb
  | false =>
    obtain ⟨pr',hot',cold',e,h',hup,hkeep,-⟩ := h.resolve ht (Nat.dvd_add_self_right.mpr hd) hq hb
    refine settles_next ((retry_second ha hb).trans e) (settles_now ?_ hup)
    rw [h'.readable_shared hd (by omega) hf]
    exact hkeep j hm

theorem settles_right_mapped (h : Focus k rid L base target w pr hot cold) (ht : 0 < target)
    (hd : L.pageSize ∣ q) (hq : q+L.pageSize < L.mappedSize) {j : ℕ}
    (hf : findSharedPage L (q+L.pageSize) = some j) (hm : mapped k rid pr j = true) :
    Settles (base+q) (base+(q+L.pageSize)) pr := by
  have hd' : L.pageSize ∣ q+L.pageSize := Nat.dvd_add_self_right.mpr hd
  have hb : readable pr (base+(q+L.pageSize)) = true := by rw [h.readable_shared hd' hq hf,hm]
  cases ha : readable pr (base+q) with
  | true => exact settles_now ha hb
  | false =>
    obtain ⟨pr',hot',cold',e,h',hup,hkeep,-⟩ := h.resolve ht hd (by omega) ha
    refine settles_next ((retry_first ha).trans e) (settles_now hup ?_)
    rw [h'.readable_shared hd' hq hf]
    exact hkeep j hm

theorem settles_left_shared (h : Focus k rid L base target w pr hot cold) (ht : 0 < target)
    (hd : L.pageSize ∣ q) (hq : q+L.pageSize < L.mappedSize) {j : ℕ}
    (hf : findSharedPage L q = some j) : Settles (base+q) (base+(q+L.pageSize)) pr := by
  have hj := h.readable_shared hd (by omega) hf
  cases hm : mapped k rid pr j with
  | true => exact settles_left_mapped h ht hd hq hf hm
  | false =>
    rw [hm] at hj
    obtain ⟨pr',hot',cold',e,h',hup,-,-⟩ := h.resolve ht hd (by omega) hj
    rw [h'.readable_shared hd (by omega) hf] at hup
    exact settles_next ((retry_first hj).trans e) (settles_left_mapped h' ht hd hq hf hup)

/-- With the second page shared the first may have to be resolved twice. -/
theorem settles_right_shared (h : Focus k rid L base target w pr hot cold) (ht : 0 < target)
    (hd : L.pageSize ∣ q) (hq : q+L.pageSize < L.mappedSize) {j : ℕ}
    (hf : findSharedPage L (q+L.pageSize) = some j) :
    Settles (base+q) (base+(q+L.pageSize)) pr := by
  have hd' : L.pageSize ∣ q+L.pageSize := Nat.dvd_add_self_right.mpr hd
  have hsecond : ∀ {pr : Process} {hot cold : List Node}, Focus k rid L base target w pr hot cold →
      readable pr (base+q) = true → Settles (base+q) (base+(q+L.pageSize)) pr := by
    intro pr hot cold h ha
    have hj := h.readable_shared hd' hq hf
    cases hm : mapped k rid pr j with
    | true => exact settles_right_mapped h ht hd hq hf hm
    | false =>
      rw [hm] at hj
      obtain ⟨pr',hot',cold',e,h',hup,-,-⟩ := h.resolve ht hd' hq hj
      rw [h'.readable_shared hd' hq hf] at hup
      exact settles_next ((retry_second ha hj).trans e) (settles_right_mapped h' ht hd hq hf hup)
  cases ha : readable pr (base+q) with
  | true => exact hsecond h ha
  | false =>
    obtain ⟨pr',hot',cold',e,h',hup,-,-⟩ := h.resolve ht hd (by omega) ha
    exact settles_next ((retry_first ha).trans e) (hsecond h' hup)

/-- Two exclusive pages of one chunk come and go together. -/
theorem settles_same_chunk (h : Focus k rid L base target w pr hot cold) (ht : 0 < target)
    (hd : L.pageSize ∣ q) (hq : q+L.pageSize < L.mappedSize) (hf : findSharedPage L q = none)
    (hf' : findSharedPage L (q+L.pageSize) = none)
    (hsame : L.findChunk q = L.findChunk (q+L.pageSize)) :
    Settles (base+q) (base+(q+L.pageSize)) pr := by
  have hboth : ∀ {pr : Process} {hot cold : List Node}, Focus k rid L base target w pr hot cold →
      readable pr (base+q) = readable pr (base+(q+L.pageSize)) := by
    intro pr hot cold h
    rw [Bool.eq_iff_iff,h.readable_hot hd (by omega) hf,
      h.readable_hot (Nat.dvd_add_self_right.mpr hd) hq hf',hsame]
  cases ha : readable pr (base+q) with
  | true => exact settles_now ha ((hboth h).symm.trans ha)
  | false =>
    obtain ⟨pr',hot',cold',e,h',hup,-,-⟩ := h.resolve ht hd (by omega) ha
    exact settles_next ((retry_first ha).trans e) (settles_now hup ((hboth h').symm.trans hup))

/-- Two adjacent exclusive pages of different chunks `x` and `y` that fit the
budget together. -/
structure Pair (rid : RegionId) (L : Layout) (target : ℕ) (w : Node → ℕ) (q : ℕ) (x y : Node) : Prop where
  aligned : L.pageSize ∣ q
  inside : q+L.pageSize < L.mappedSize
  first : findSharedPage L q = none
  second : findSharedPage L (q+L.pageSize) = none
  left : x = (rid,L.findChunk q)
  right : y = (rid,L.findChunk (q+L.pageSize))
  distinct : x ≠ y
  fits : w x+w y ≤ target
  leftPos : 0 < w x
  rightPos : 0 < w y

variable {x y : Node}

theorem Pair.readable_left (p : Pair rid L target w q x y)
    (h : Focus k rid L base target w pr hot cold) : readable pr (base+q) = true ↔ x ∈ hot := by
  have := p.inside
  rw [p.left]
  exact h.readable_hot p.aligned (by omega) p.first

theorem Pair.readable_right (p : Pair rid L target w q x y)
    (h : Focus k rid L base target w pr hot cold) :
    readable pr (base+(q+L.pageSize)) = true ↔ y ∈ hot := by
  rw [p.right]
  exact h.readable_hot (Nat.dvd_add_self_right.mpr p.aligned) p.inside p.second

/-- One execution of the access that has to resolve a fault moves the missing
chunk to the front. -/
theorem Pair.once (p : Pair rid L target w q x y) (h : Focus k rid L base target w pr hot cold)
    (hmiss : ¬ (x ∈ hot ∧ y ∈ hot)) :
    ∃ pr' hot' cold', retryOnce (base+q) (base+(q+L.pageSize)) pr = some pr' ∧
      Focus k rid L base target w pr' hot' cold' ∧
      (x ∉ hot ∧ MovesToFront w target x hot cold hot' cold' ∨
        x ∈ hot ∧ y ∉ hot ∧ MovesToFront w target y hot cold hot' cold') := by
  have hin := p.inside
  have hx := p.fits
  have hxp := p.leftPos
  by_cases hxh : x ∈ hot
  · have hyh : y ∉ hot := fun hy => hmiss ⟨hxh,hy⟩
    have ha := (p.readable_left h).mpr hxh
    have hb : readable pr (base+(q+L.pageSize)) = false :=
      Bool.eq_false_iff.mpr (fun hc => hyh ((p.readable_right h).mp hc))
    obtain ⟨pr',hot',cold',e,h',-,-,hmove⟩ :=
      h.resolve (by omega) (Nat.dvd_add_self_right.mpr p.aligned) hin hb
    refine ⟨pr',hot',cold',(retry_second ha hb).trans e,h',Or.inr ⟨hxh,hyh,?_⟩⟩
    rw [p.right]
    exact hmove p.second
  · have ha : readable pr (base+q) = false :=
      Bool.eq_false_iff.mpr (fun hc => hxh ((p.readable_left h).mp hc))
    obtain ⟨pr',hot',cold',e,h',-,-,hmove⟩ := h.resolve (by omega) p.aligned (by omega) ha
    refine ⟨pr',hot',cold',(retry_first ha).trans e,h',Or.inl ⟨hxh,?_⟩⟩
    rw [p.left]
    exact hmove p.first

theorem Focus.nodup (h : Focus k rid L base target w pr hot cold) : (hot ++ cold).Nodup :=
  h.queue.queue.order.nodup

/-- Without enough beside them the two chunks displace each other for ever. -/
theorem Pair.never (p : Pair rid L target w q x y) (n : ℕ) :
    ∀ (pr : Process) (hot cold : List Node), Focus k rid L base target w pr hot cold →
      ¬ (x ∈ hot ∧ y ∈ hot) → ¬ w x+w y ≤ weight w (beside w target x y (hot ++ cold)) →
      ∀ pr', retry (base+q) (base+(q+L.pageSize)) n pr = some pr' →
        ¬ (readable pr' (base+q) = true ∧ readable pr' (base+(q+L.pageSize)) = true) := by
  induction n with
  | zero =>
    intro pr hot cold h hmiss _ pr' hr
    obtain rfl := Option.some.inj hr
    rintro ⟨ha,hb⟩
    exact hmiss ⟨(p.readable_left h).mp ha,(p.readable_right h).mp hb⟩
  | succ n ih =>
    intro pr hot cold h hmiss hlight pr' hr
    obtain ⟨pr₁,hot₁,cold₁,e₁,h₁,hmove⟩ := p.once h hmiss
    rw [retry,e₁] at hr
    have hfits' : w y+w x ≤ target := by rw [Nat.add_comm]; exact p.fits
    have hsame : beside w target x y (hot₁ ++ cold₁) = beside w target x y (hot ++ cold) := by
      rcases hmove with ⟨-,hm⟩ | ⟨-,-,hm⟩
      · exact hm.beside_eq h.nodup p.fits
      · rw [beside_comm x y,beside_comm x y]
        exact hm.beside_eq h.nodup hfits'
    have hmiss₁ : ¬ (x ∈ hot₁ ∧ y ∈ hot₁) := by
      rintro ⟨hx,hy⟩
      apply hlight
      rcases hmove with ⟨-,hm⟩ | ⟨-,-,hm⟩
      · exact beside_ge_of_both_hot hm h.nodup p.distinct p.fits p.rightPos hy
      · rw [Nat.add_comm,beside_comm]
        exact beside_ge_of_both_hot hm h.nodup p.distinct.symm hfits' p.leftPos hx
    exact ih pr₁ hot₁ cold₁ h₁ hmiss₁ (by rw [hsame]; exact hlight) pr' hr

/-- With enough beside them the second resolution makes both hot. -/
theorem Pair.settles (p : Pair rid L target w q x y) (h : Focus k rid L base target w pr hot cold)
    (hge : w x+w y ≤ weight w (beside w target x y (hot ++ cold))) :
    Settles (base+q) (base+(q+L.pageSize)) pr := by
  have hnow : ∀ {pr : Process} {hot cold : List Node}, Focus k rid L base target w pr hot cold →
      x ∈ hot ∧ y ∈ hot → Settles (base+q) (base+(q+L.pageSize)) pr := by
    intro pr hot cold h hh
    exact settles_now ((p.readable_left h).mpr hh.1) ((p.readable_right h).mpr hh.2)
  have hfits' : w y+w x ≤ target := by rw [Nat.add_comm]; exact p.fits
  have hfront : ∀ {z : Node} {hot cold hot' cold' : List Node},
      MovesToFront w target z hot cold hot' cold' → ∃ hs, hot' = z::hs := fun hm => ⟨_,hm.front⟩
  by_cases hmiss : x ∈ hot ∧ y ∈ hot
  · exact hnow h hmiss
  obtain ⟨pr₁,hot₁,cold₁,e₁,h₁,hmove⟩ := p.once h hmiss
  refine settles_next e₁ ?_
  by_cases hmiss₁ : x ∈ hot₁ ∧ y ∈ hot₁
  · exact hnow h₁ hmiss₁
  obtain ⟨pr₂,hot₂,cold₂,e₂,h₂,hmove₂⟩ := p.once h₁ hmiss₁
  refine settles_next e₂ (hnow h₂ ?_)
  rcases hmove with ⟨-,hm⟩ | ⟨-,-,hm⟩
  · -- First `x`, so it is hot and the second resolution is for `y`.
    obtain ⟨hs,he⟩ := hfront hm
    have hx₁ : x ∈ hot₁ := by rw [he]; exact List.mem_cons_self
    obtain ⟨-,-,hm₂⟩ := hmove₂.resolve_left (fun hc => hc.1 hx₁)
    have hy₂ : y ∈ hot₂ := by rw [hm₂.front]; exact List.mem_cons_self
    refine ⟨both_hot_of_beside_ge hm₂ h₁.nodup p.distinct p.fits ⟨hs,he⟩ ?_,hy₂⟩
    rw [hm.beside_eq h.nodup p.fits]
    exact hge
  · obtain ⟨hs,he⟩ := hfront hm
    have hy₁ : y ∈ hot₁ := by rw [he]; exact List.mem_cons_self
    obtain ⟨-,hm₂⟩ := hmove₂.resolve_right (fun hc => hc.2.1 hy₁)
    have hx₂ : x ∈ hot₂ := by rw [hm₂.front]; exact List.mem_cons_self
    refine ⟨hx₂,both_hot_of_beside_ge hm₂ h₁.nodup p.distinct.symm hfits' ⟨hs,he⟩ ?_⟩
    rw [hm.beside_eq h.nodup hfits',Nat.add_comm,beside_comm]
    exact hge

end Pages

end Loop

/-- The size of the distinct chunks with bytes in the pages at `q` and after it. -/
def pairBytes (L : Layout) (q : ℕ) : ℕ :=
  ∑ c ∈ (Finset.range L.nchunks).filter (fun c => L.Touches c q ∨ L.Touches c (q+L.pageSize)),
    L.chunkSize c

/-- When an access to the pages at `q` and after it completes: both are
readable already, one of them is shared, one chunk serves both, or the queued
chunks that fit beside the two weigh as much as the two together. -/
def PairFits (p : Pool) (rid : RegionId) (q : ℕ) : Prop :=
  let L := (p.region rid).layout
  let x : Node := (rid,L.findChunk q)
  let y : Node := (rid,L.findChunk (q+L.pageSize))
  (pageReadable p rid q = true ∧ pageReadable p rid (q+L.pageSize) = true) ∨
  findSharedPage L q ≠ none ∨ findSharedPage L (q+L.pageSize) ≠ none ∨ x = y ∨
  lruNodeSize p x+lruNodeSize p y ≤
    weight (lruNodeSize p) (beside (lruNodeSize p) p.targetSize x y (lruList p))

theorem touches_first (L : Layout) {q : ℕ} (hd : L.pageSize ∣ q) (hq : q < L.mappedSize) :
    L.Touches (L.findChunk q) q := by
  obtain ⟨h1,h2⟩ := L.findChunk_covers (page_lt_total L hd hq)
  have := L.pageSize_pos
  exact ⟨by omega,h2⟩

/-- Two different chunks, each with bytes in one of the pages. -/
theorem pairBytes_ge (L : Layout) {q : ℕ} (hd : L.pageSize ∣ q) (hq : q+L.pageSize < L.mappedSize)
    (hne : L.findChunk q ≠ L.findChunk (q+L.pageSize)) :
    L.chunkSize (L.findChunk q)+L.chunkSize (L.findChunk (q+L.pageSize)) ≤ pairBytes L q := by
  rw [pairBytes,← Finset.sum_pair hne]
  apply Finset.sum_le_sum_of_subset
  intro c hc
  rw [Finset.mem_filter,Finset.mem_range]
  rcases Finset.mem_insert.mp hc with rfl | hc
  · exact ⟨L.findChunk_lt q,Or.inl (touches_first L hd (by omega))⟩
  · rw [Finset.mem_singleton] at hc
    subst hc
    exact ⟨L.findChunk_lt _,Or.inr (touches_first L (Nat.dvd_add_self_right.mpr hd) hq)⟩

section Reached
variable {pr : Process} {k : PoolId} {rid : RegionId} {q : ℕ}

theorem focus_of_inv (h : ProcessInv pr) (hk : k ∈ pr.pools) (hr : rid ∈ (pr.pool k).regions) :
    ∃ hot cold, Focus k rid ((pr.pool k).region rid).layout ((pr.pool k).region rid).base
      (pr.pool k).targetSize (lruNodeSize (pr.pool k)) pr hot cold := by
  obtain ⟨hot,cold,hp⟩ := h.pool k hk
  exact ⟨hot,cold,h,hk,hr,rfl,rfl,rfl,rfl,hp⟩

theorem pair_of_exclusive (hd : ((pr.pool k).region rid).layout.pageSize ∣ q)
    (hq : q+((pr.pool k).region rid).layout.pageSize < ((pr.pool k).region rid).layout.mappedSize)
    (hT : pairBytes ((pr.pool k).region rid).layout q ≤ (pr.pool k).targetSize)
    (hf : findSharedPage ((pr.pool k).region rid).layout q = none)
    (hf' : findSharedPage ((pr.pool k).region rid).layout
      (q+((pr.pool k).region rid).layout.pageSize) = none)
    (hne : ((pr.pool k).region rid).layout.findChunk q ≠
      ((pr.pool k).region rid).layout.findChunk (q+((pr.pool k).region rid).layout.pageSize)) :
    Pair rid ((pr.pool k).region rid).layout (pr.pool k).targetSize (lruNodeSize (pr.pool k)) q
      (rid,((pr.pool k).region rid).layout.findChunk q)
      (rid,((pr.pool k).region rid).layout.findChunk (q+((pr.pool k).region rid).layout.pageSize)) := by
  refine ⟨hd,hq,hf,hf',rfl,rfl,fun he => hne (congrArg Prod.snd he),?_,?_,?_⟩
  · exact le_trans (pairBytes_ge _ hd hq hne) hT
  · exact Layout.chunkSize_pos _ (Layout.findChunk_lt _ _)
  · exact Layout.chunkSize_pos _ (Layout.findChunk_lt _ _)

theorem settles_of_fits (h : ProcessInv pr) (hk : k ∈ pr.pools) (hr : rid ∈ (pr.pool k).regions)
    (ht : 0 < (pr.pool k).targetSize) (hd : ((pr.pool k).region rid).layout.pageSize ∣ q)
    (hq : q+((pr.pool k).region rid).layout.pageSize < ((pr.pool k).region rid).layout.mappedSize)
    (hT : pairBytes ((pr.pool k).region rid).layout q ≤ (pr.pool k).targetSize)
    (hfits : PairFits (pr.pool k) rid q) :
    Settles (((pr.pool k).region rid).base+q)
      (((pr.pool k).region rid).base+(q+((pr.pool k).region rid).layout.pageSize)) pr := by
  obtain ⟨hot,cold,hfocus⟩ := focus_of_inv h hk hr
  set L := ((pr.pool k).region rid).layout with hL
  cases hf : findSharedPage L q with
  | some j => exact settles_left_shared hfocus ht hd hq hf
  | none =>
    cases hf' : findSharedPage L (q+L.pageSize) with
    | some j => exact settles_right_shared hfocus ht hd hq hf'
    | none =>
      by_cases hsame : L.findChunk q = L.findChunk (q+L.pageSize)
      · exact settles_same_chunk hfocus ht hd hq hf hf' hsame
      · rcases hfits with ⟨ha,hb⟩ | hc | hc | hc | hge
        · apply settles_now
          · rw [hfocus.readable_page (by omega)]
            exact ha
          · rw [hfocus.readable_page hq]
            exact hb
        · exact absurd hf hc
        · exact absurd hf' hc
        · exact absurd (congrArg Prod.snd hc) hsame
        · rw [hfocus.queue.queue.lruList_eq] at hge
          exact (pair_of_exclusive hd hq hT hf hf' hsame).settles hfocus hge

theorem fits_of_settles (h : ProcessInv pr) (hk : k ∈ pr.pools) (hr : rid ∈ (pr.pool k).regions)
    (hd : ((pr.pool k).region rid).layout.pageSize ∣ q)
    (hq : q+((pr.pool k).region rid).layout.pageSize < ((pr.pool k).region rid).layout.mappedSize)
    (hT : pairBytes ((pr.pool k).region rid).layout q ≤ (pr.pool k).targetSize)
    (hs : Settles (((pr.pool k).region rid).base+q)
      (((pr.pool k).region rid).base+(q+((pr.pool k).region rid).layout.pageSize)) pr) :
    PairFits (pr.pool k) rid q := by
  obtain ⟨hot,cold,hfocus⟩ := focus_of_inv h hk hr
  by_contra hno
  simp only [PairFits,not_or,not_not] at hno
  obtain ⟨hread,hf,hf',hne,hlight⟩ := hno
  have hp := pair_of_exclusive hd hq hT hf hf' (fun he => hne (by rw [he]))
  obtain ⟨n,pr',hrun,ha,hb⟩ := hs
  refine hp.never n pr hot cold hfocus ?_ ?_ pr' hrun ⟨ha,hb⟩
  · rintro ⟨hx,hy⟩
    apply hread
    rw [← hfocus.readable_page (by omega),← hfocus.readable_page hq]
    exact ⟨(hp.readable_left hfocus).mpr hx,(hp.readable_right hfocus).mpr hy⟩
  · rw [← hfocus.queue.queue.lruList_eq]
    exact hlight

/-- The retry loop of an access to two adjacent pages ends exactly when the
pair fits. -/
theorem straddling_access_settles_iff (k : PoolId) (rid : RegionId) (q : ℕ) (h : Reachable pr)
    (hk : k ∈ pr.pools) (hr : rid ∈ (pr.pool k).regions) (ht : 0 < (pr.pool k).targetSize)
    (hd : ((pr.pool k).region rid).layout.pageSize ∣ q)
    (hq : q+((pr.pool k).region rid).layout.pageSize < ((pr.pool k).region rid).layout.mappedSize)
    (hT : pairBytes ((pr.pool k).region rid).layout q ≤ (pr.pool k).targetSize) :
    Settles (((pr.pool k).region rid).base+q)
      (((pr.pool k).region rid).base+(q+((pr.pool k).region rid).layout.pageSize)) pr ↔
    PairFits (pr.pool k) rid q :=
  ⟨fits_of_settles (reachable_inv h) hk hr hd hq hT,settles_of_fits (reachable_inv h) hk hr ht hd hq hT⟩

end Reached

/-- A region of two pages in a pool that has room for exactly its eight bytes. -/
def twoPages (sizes : List ℕ) (h : Accepted 4 sizes 8) : Process :=
  fcRegionCreate (fcPoolCreate (start 4 (fun _ => .inaccessible)) 8) 0 sizes 8 h
    (fun c i => (16*c+i+1).toUInt8) 16

theorem twoPages_reachable (sizes : List ℕ) (h : Accepted 4 sizes 8) : Reachable (twoPages sizes h) := by
  refine ⟨4,fun _ => .inaccessible,?_⟩
  refine Relation.ReflTransGen.tail (Relation.ReflTransGen.single (Step.poolCreate _ 8)) ?_
  exact Step.regionCreate _ 0 sizes 8 _ 16 (by decide) h
    ⟨by decide,by decide,by simp [fcPoolCreate,start,poolInit]⟩

theorem accepted_shared_end : Accepted 4 [6,2] 8 :=
  ⟨by decide,by decide,by decide,by decide,by decide,by decide⟩

/-- The second page is shared by both chunks. -/
theorem straddling_access_settles_iff_shared_end :
    let pr := twoPages [6,2] accepted_shared_end
    PairFits (pr.pool 0) 0 0 ∧ (Settles (16+0) (16+(0+4)) pr ↔ PairFits (pr.pool 0) 0 0) :=
  ⟨Or.inr (Or.inr (Or.inl (by decide))),
    straddling_access_settles_iff 0 0 0 (twoPages_reachable _ accepted_shared_end) (by decide)
      (by decide) (by decide) (by decide) (by decide) (by decide)⟩

theorem accepted_whole_pages : Accepted 4 [4,4] 8 :=
  ⟨by decide,by decide,by decide,by decide,by decide,by decide⟩

/-- Each of the two chunks is more than half of what is resident, so every
resolution hides the other page again. -/
theorem straddling_access_livelocks :
    ¬ ∀ pr k rid q, Reachable pr → k ∈ pr.pools → rid ∈ (pr.pool k).regions →
      0 < (pr.pool k).targetSize → ((pr.pool k).region rid).layout.pageSize ∣ q →
      q+((pr.pool k).region rid).layout.pageSize < ((pr.pool k).region rid).layout.mappedSize →
      pairBytes ((pr.pool k).region rid).layout q ≤ (pr.pool k).targetSize →
      Settles (((pr.pool k).region rid).base+q)
        (((pr.pool k).region rid).base+(q+((pr.pool k).region rid).layout.pageSize)) pr := by
  intro hall
  have hreach := twoPages_reachable _ accepted_whole_pages
  have hs := hall _ 0 0 0 hreach (by decide) (by decide) (by decide) (by decide) (by decide)
    (by decide)
  have hfits := fits_of_settles (reachable_inv hreach) (k := 0) (by decide) (by decide) (by decide)
    (by decide) (by decide) hs
  revert hfits
  unfold PairFits
  decide

end FaultCache.RetryLoop
