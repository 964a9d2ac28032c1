import FaultCache.ColdFlags
import FaultCache.RecencyWindow

/-!
# A working set that fits is filled once

The pool learns of accesses only through faults, so its queue is not in the
order of the last accesses. It still does not thrash: over any stretch of a run
in which the faults of a pool need chunks of no more than its target size
together, a chunk that has been filled or promoted in that stretch is neither
evicted nor filled again, whatever was in the queue before.
-/

set_option autoImplicit false

namespace FaultCache.WorkingSet
open FaultCache.SentinelRing FaultCache.PageGeometry FaultCache.SharedPages FaultCache.VmPages
open FaultCache.PoolMachine FaultCache.PoolQueue FaultCache.PoolMemory FaultCache.PoolHistory
open FaultCache.PoolInvariant FaultCache.PoolResolve FaultCache.FaultProcess
open FaultCache.ProcessInvariant FaultCache.ProcessContract FaultCache.BudgetPrefix
open FaultCache.RecencyWindow FaultCache.LabelledRuns FaultCache.PoolLifetime FaultCache.FaultEffects
open FaultCache.HotHalf FaultCache.RegionRemoval FaultCache.ColdFlags

/-- No chunk is filled or evicted after a fill or promotion of it, newest event
first. -/
def Settled (es : List Event) : Prop :=
  es.Pairwise (fun e older => node e = node older → refreshes older = true → sets e = none)

/-- The front of the queue holds what the events since `h₀` have used. -/
structure Window (W : List Node) (h₀ : List Event) (p : Pool) (used : List Node) : Prop where
  isPrefix : used <+: lruList p
  inside : used ⊆ W
  since : ∃ es, p.history = es ++ h₀ ∧ Settled es ∧
    ∀ e ∈ es, refreshes e = true → Live p (node e) → node e ∈ used

variable {W used : List Node} {h₀ : List Event}

section Operations
variable {s s' : State} {hot cold : List Node} {e : Event}

theorem Window.micro (h : PoolInv s hot cold) (hm : Micro s e s') (hw : Window W h₀ s.pool used)
    (hin : refreshes e = true → node e ∈ W) (hev : ∀ n, e = .evict n → n ∉ used) :
    Window W h₀ s'.pool (if refreshes e then bring (node e) used else used) := by
  obtain ⟨ht,hot',cold',h',hq⟩ := hm.spec h
  obtain ⟨es,hh,hset,hused⟩ := hw.since
  have hlist : lruList s'.pool = requeued e (lruList s.pool) := by
    rw [h'.queue.lruList_eq,hq,h.queue.lruList_eq]
  refine ⟨?_,?_,e::es,by rw [ht.history,hh]; rfl,?_,?_⟩
  · rw [hlist]
    cases e with
    | fill n size => exact bring_prefix hw.isPrefix n
    | promote n => exact bring_prefix hw.isPrefix n
    | demote n => exact hw.isPrefix
    | evict n => exact erase_behind hw.isPrefix (hev n rfl)
  · split_ifs with hr
    · intro n hn
      rcases mem_bring.mp hn with rfl | hn
      · exact hin hr
      · exact hw.inside hn
    · exact hw.inside
  · refine List.pairwise_cons.mpr ⟨?_,hset⟩
    intro older ho hnode href
    by_contra hne
    obtain ⟨b,hb⟩ := Option.ne_none_iff_exists'.mp hne
    have hmem : node e ∈ used := by
      rw [hnode]
      exact hused older ho href (hnode ▸ ht.live)
    have hqueued : node e ∈ hot ++ cold := by
      rw [← h.queue.lruList_eq]
      exact hw.isPrefix.subset hmem
    have hflag := ht.before b hb
    rw [h.queued hqueued] at hflag
    cases e with
    | evict n => exact hev n rfl hmem
    | fill n size =>
      cases hb
      cases hflag
    | promote n => cases hb
    | demote n => cases hb
  · intro e' he' href hlive
    have hold : e' ∈ es → node e' ∈ used := fun hm' => hused e' hm' href ((ht.live_iff _).mp hlive)
    rcases List.mem_cons.mp he' with rfl | he'
    · rw [if_pos href]
      exact List.mem_cons_self
    · split_ifs
      · exact mem_bring.mpr (Or.inr (hold he'))
      · exact hold he'

/-- Uses widen the window. -/
theorem Window.uses {ms : List (State × Event)} (hr : Run Micro s ms s') (h : PoolInv s hot cold)
    (hw : Window W h₀ s.pool used) (hg : ∀ m ∈ ms, refreshes m.2 = true ∧ node m.2 ∈ W) :
    ∃ used', Window W h₀ s'.pool used' := by
  have hkeep : ∀ {v v' e hot cold}, PoolInv v hot cold → Micro v e v' →
      refreshes e = true ∧ node e ∈ W → (∃ used, Window W h₀ v.pool used) →
      ∃ used, Window W h₀ v'.pool used := by
    rintro v v' e hot₁ cold₁ hi hm ⟨he,hin⟩ ⟨us,hus⟩
    refine ⟨_,Window.micro hi hm hus (fun _ => hin) ?_⟩
    rintro n rfl
    cases he
  let Has : State → Prop := fun v => ∃ used, Window W h₀ v.pool used
  exact (run_keeps _ hkeep hr ⟨hot,cold,h⟩ (show Has s from ⟨used,hw⟩) hg).1.1

/-- Evictions behind the window and demotions leave it alone. -/
theorem Window.behind {ms : List (State × Event)} (hr : Run Micro s ms s') (h : PoolInv s hot cold)
    (hw : Window W h₀ s.pool used)
    (hg : ∀ m ∈ ms, refreshes m.2 = false ∧ ∀ n, m.2 = .evict n → n ∉ used) :
    Window W h₀ s'.pool used := by
  have hkeep : ∀ {v v' e hot cold}, PoolInv v hot cold → Micro v e v' →
      (refreshes e = false ∧ ∀ n, e = .evict n → n ∉ used) → Window W h₀ v.pool used →
      Window W h₀ v'.pool used := by
    rintro v v' e hot₁ cold₁ hi hm ⟨he,hev⟩ hv
    have hnext := Window.micro hi hm hv (fun hr => by rw [he] at hr; cases hr) hev
    rwa [if_neg (by rw [he]; simp)] at hnext
  let Kept : State → Prop := fun v => Window W h₀ v.pool used
  exact (run_keeps _ hkeep hr ⟨hot,cold,h⟩ (show Kept s from hw) hg).1.1

/-- What has been evicted stays out of the queue until it is filled again. -/
theorem evicted_gone {ms : List (State × Event)} (hr : Run Micro s ms s') (h : PoolInv s hot cold)
    (hs : ∀ m ∈ ms, refreshes m.2 = false) {n : Node} (hn : .evict n ∈ ms.map Prod.snd) :
    s'.pool.resident n = false := by
  induction hr with
  | start => cases hn
  | @move ms v v' l hrun hm ih =>
    obtain ⟨-,hot₁,cold₁,hv⟩ := run_history hrun ⟨hot,cold,h⟩
    obtain ⟨-,hot',cold',hv',hq⟩ := hm.spec hv
    have hstale : refreshes l = false := hs _ List.mem_cons_self
    rw [← Bool.not_eq_true,hv'.queue.order.resident,hq]
    rcases List.mem_cons.mp hn with hl | hn
    · obtain rfl : Event.evict n = l := hl
      exact hv.queue.order.nodup.not_mem_erase
    · have hgone := ih (fun m hmem => hs m (List.mem_cons_of_mem _ hmem)) hn
      rw [← Bool.not_eq_true,hv.queue.order.resident] at hgone
      cases l with
      | fill m size => cases hstale
      | promote m => cases hstale
      | demote m => exact hgone
      | evict m => exact fun hc => hgone (List.mem_of_mem_erase hc)

end Operations

/-- The window over a pool that has only lost some of its chunks. -/
theorem Window.shrink {p p' : Pool} (hw : Window W h₀ p used) (keep : Node → Bool)
    (hq : lruList p' = (lruList p).filter keep) (hh : p'.history = p.history)
    (hl : ∀ e ∈ p.history, Live p' (node e) → Live p (node e) ∧ keep (node e) = true) :
    Window W h₀ p' (used.filter keep) := by
  obtain ⟨es,hes,hset,hused⟩ := hw.since
  refine ⟨?_,?_,es,by rw [hh,hes],hset,?_⟩
  · rw [hq]
    exact hw.isPrefix.filter keep
  · exact fun n hn => hw.inside (List.mem_filter.mp hn).1
  · intro e he href hlive
    obtain ⟨hold,hkeep⟩ := hl e (by rw [hes]; exact List.mem_append_left _ he) hlive
    exact List.mem_filter.mpr ⟨hused e he href hold,hkeep⟩

theorem Window.same {p p' : Pool} (hw : Window W h₀ p used) (hq : lruList p' = lruList p)
    (hh : p'.history = p.history) (hl : ∀ e ∈ p.history, Live p' (node e) → Live p (node e)) :
    Window W h₀ p' used := by
  have hall : ∀ q : List Node, q.filter (fun _ => true) = q := fun q => List.filter_true q
  have h : Window W h₀ p' (used.filter (fun _ => true)) :=
    hw.shrink (fun _ => true) (by rw [hall,hq]) hh (fun e he hlive => ⟨hl e he hlive,rfl⟩)
  rwa [hall] at h

section Fault
variable {s : State} {rid : RegionId} {page : ℕ} {hot cold : List Node} {w : Node → ℕ}

/-- Serving a page uses chunks behind it and does nothing else. -/
theorem Serves.uses {p : Pool} {lo hi : ℕ} {hot₁ cold₁ : List Node} {es : List Event}
    (h : Serves p rid page hot cold lo hi hot₁ cold₁ es) (hd : (p.region rid).layout.pageSize ∣ page)
    (hm : page < (p.region rid).layout.mappedSize) :
    ∀ e ∈ es, refreshes e = true ∧ Behind p rid page (node e) := by
  intro e he
  rw [← h.protected_iff hd hm]
  cases h with
  | shared hf hlo hhi =>
    obtain ⟨n,hn,rfl⟩ := List.mem_map.mp he
    obtain ⟨h1,h2,h3,-⟩ := (mem_missingNodes _ _).mp hn
    exact ⟨rfl,h1,h2,by simp only [node]; omega⟩
  | exclusive hf hc hn =>
    rw [List.mem_singleton] at he
    subst he
    split_ifs
    · exact ⟨rfl,rfl,le_refl _,le_refl _⟩
    · exact ⟨rfl,rfl,le_refl _,le_refl _⟩

/-- A fault whose chunks are in a set that fits widens the window. -/
theorem Stages.window (h : PoolInv s hot cold) (st : Stages s rid page hot cold)
    (hw : Window W h₀ s.pool used) (hd : (s.pool.region rid).layout.pageSize ∣ page)
    (hm : page < (s.pool.region rid).layout.mappedSize) (hin : ∀ n, Behind s.pool rid page n → n ∈ W)
    (hsize : ∀ n, Live s.pool n → lruNodeSize s.pool n = w n)
    (hfit : s.pool.targetSize = 0 ∨ weight w W ≤ s.pool.targetSize) :
    ∃ used', Window W h₀ (countHandled st.settled rid).pool used' := by
  obtain ⟨ms₁,r₁⟩ := MicroRun.labelled st.first.run
  obtain ⟨ms₂,r₂,hev⟩ := evict_run st.first.inv st.evict
  obtain ⟨ms₃,r₃,hdem⟩ := rebalance_run st.second.inv st.rebalance
  have hserve : ms₁.map Prod.snd = st.events :=
    List.append_cancel_right ((run_history r₁ ⟨hot,cold,h⟩).1.symm.trans st.logged)
  obtain ⟨us,hus⟩ := hw.uses r₁ h (by
    intro m hmem
    have he : m.2 ∈ st.events := hserve ▸ List.mem_map_of_mem hmem
    obtain ⟨h1,h2⟩ := Serves.uses st.serves hd hm _ he
    exact ⟨h1,hin _ h2⟩)
  -- The window is within the budget, so it is still there after eviction.
  have hfront : us <+: st.hot₁ ++ st.cold₁ := st.first.inv.queue.lruList_eq ▸ hus.isPrefix
  have hstale : ∀ m ∈ ms₂, refreshes m.2 = false := by
    intro m hmem
    obtain ⟨n,he,-⟩ := hev m.1 m.2 hmem
    rw [he]
    rfl
  have hkept : ∀ n, .evict n ∈ ms₂.map Prod.snd → n ∉ us := by
    intro n hn hmem
    have hlog := (run_history r₂ ⟨_,_,st.first.inv⟩).1
    by_cases ht : s.pool.targetSize = 0
    · refine (st.second.inv.unbounded ?_ n).1 (by rw [hlog]; exact List.mem_append_left _ hn)
      rw [st.second.target,st.first.target,ht]
    · have hx := st.evicted (by omega)
      have hle : sizeSum s.pool us ≤ s.pool.targetSize := by
        have heq : sizeSum s.pool us = weight w us := by
          refine congrArg List.sum (List.map_congr_left (fun m hm' => ?_))
          obtain ⟨h1,h2⟩ := st.first.inv.live (hfront.subset hm')
          exact hsize m ⟨st.first.regions ▸ h1,by rwa [st.first.layouts m.1] at h2⟩
        have hnd := st.first.inv.queue.order.nodup.sublist hfront.sublist
        rw [heq]
        exact (weight_le_of_subset hnd hus.inside).trans (hfit.resolve_left ht)
      have hkeep := (Trims.mk hx.isPrefix hx.longest).keeps hfront hle
      have hgone := evicted_gone r₂ st.first.inv hstale hn
      rw [(st.second.inv.queue.order.resident n).mpr (hkeep.subset hmem)] at hgone
      cases hgone
  have h₂ : Window W h₀ st.trimmed.pool us := hus.behind r₂ st.first.inv (fun m hmem =>
    ⟨hstale m hmem,fun n he => hkept n (he ▸ List.mem_map_of_mem (f := Prod.snd) hmem)⟩)
  have h₃ : Window W h₀ st.settled.pool us := by
    refine h₂.behind r₃ st.second.inv (fun m hmem => ?_)
    obtain ⟨n,he⟩ := hdem m.1 m.2 hmem
    rw [he]
    refine ⟨rfl,fun n' hc => ?_⟩
    cases hc
  refine ⟨us,h₃.same ?_ rfl (fun e _ hlive => ?_)⟩
  · rw [(countHandled_inv st.third.inv rid).queue.lruList_eq,st.third.inv.queue.lruList_eq]
  · obtain ⟨x,hx⟩ := countHandled_region st.settled rid (node e).1
    rw [Live,hx] at hlive
    exact hlive

end Fault

section Calls
variable {k : PoolId} {w : Node → ℕ}

/-- What identifies a pool and its regions, live or not, over some calls. -/
structure Endures (k : PoolId) (pr pr' : Process) : Prop where
  target : (pr'.pool k).targetSize = (pr.pool k).targetSize
  layout : ∀ rid < pr.nextRegion, ((pr'.pool k).region rid).layout = ((pr.pool k).region rid).layout
  pools : pr.nextPool ≤ pr'.nextPool
  regions : pr.nextRegion ≤ pr'.nextRegion

theorem Endures.refl (k : PoolId) (pr : Process) : Endures k pr pr :=
  ⟨rfl,fun _ _ => rfl,le_refl _,le_refl _⟩

theorem Endures.trans {pr pr' pr₂ : Process} (h : Endures k pr pr') (h₂ : Endures k pr' pr₂) :
    Endures k pr pr₂ :=
  ⟨h₂.target.trans h.target,
    fun rid hr => (h₂.layout rid (lt_of_lt_of_le hr h.regions)).trans (h.layout rid hr),
    h.pools.trans h₂.pools,h.regions.trans h₂.regions⟩

theorem endures_withState {pr : Process} {j : PoolId} {s : State}
    (ht : s.pool.targetSize = (pr.pool j).targetSize) (hl : SameLayouts (pr.pool j) s.pool) :
    Endures k pr (withState pr j s) := by
  refine ⟨?_,fun rid _ => ?_,le_refl _,le_refl _⟩
  · by_cases hkj : k = j
    · subst hkj
      rw [withState_pool_self,ht]
    · rw [withState_pool_of_ne pr s hkj]
  · by_cases hkj : k = j
    · subst hkj
      rw [withState_pool_self,hl rid]
    · rw [withState_pool_of_ne pr s hkj]

theorem step_endures {pr pr' : Process} (h : ProcessInv pr) (hs : Step pr pr') (hk : k < pr.nextPool) :
    Endures k pr pr' := by
  cases hs with
  | poolCreate target =>
    have hp : (fcPoolCreate pr target).pool k = pr.pool k := Function.update_of_ne (Nat.ne_of_lt hk) _ _
    exact ⟨by rw [hp],fun _ _ => by rw [hp],Nat.le_succ _,le_refl _⟩
  | regionCreate j sizes total fill base hj ha hb =>
    have hp : (fcRegionCreate pr j sizes total ha fill base).pool k = Function.update pr.pool j
        (regionListInsert (pr.pool j) pr.nextRegion
          (regionInit (Layout.ofSizes pr.pageSize sizes total ha) base fill)) k := rfl
    refine ⟨?_,fun rid hr => ?_,le_refl _,Nat.le_succ _⟩
    · rw [hp]
      by_cases hkj : k = j
      · subst hkj
        rw [Function.update_self]
        rfl
      · rw [Function.update_of_ne hkj]
    · rw [hp]
      by_cases hkj : k = j
      · subst hkj
        rw [Function.update_self,insert_region_of_ne (Nat.ne_of_lt hr)]
      · rw [Function.update_of_ne hkj]
  | fault addr ours _ he =>
    rcases faultScan_cases he with ⟨-,rfl⟩ | ⟨-,j,hj,x,s,hfind,hun,hs,rfl⟩
    · exact Endures.refl k _
    · obtain ⟨hot,cold,hp⟩ := h.pool j hj
      obtain ⟨s₁,hot',cold',hs₁,hreach,-⟩ := resolve_spec hp (findRegionLocked_some hfind).1 hun
      obtain rfl := Option.some.inj (hs₁.symm.trans hs)
      refine endures_withState hreach.target (fun rid => ?_)
      obtain ⟨y,hy⟩ := countHandled_region s₁ x rid
      rw [hy]
      exact hreach.layouts rid
  | regionDestroy j x _ hj hx he =>
    obtain ⟨p,-,hf,he',-⟩ := destroy_spec h hj hx
    obtain rfl := Option.some.inj (he'.symm.trans he)
    have hl : SameLayouts (pr.pool j) p := forgets_layouts hf
    exact endures_withState (s := ⟨regionListRemove p x,_⟩) hf.target hl
  | poolDestroy j hj => exact ⟨rfl,fun _ _ => rfl,le_refl _,le_refl _⟩

/-- The chunks behind the page that a fault at `addr` finds unreadable in pool `k`. -/
def Uses (pr : Process) (k : PoolId) (addr : ℕ) (n : Node) : Prop :=
  ∃ rid ∈ (pr.pool k).regions, InRange ((pr.pool k).region rid) addr ∧
    pageReadable (pr.pool k) rid (addr-((pr.pool k).region rid).base) = false ∧
    Behind (pr.pool k) rid (pageFloor (addr-((pr.pool k).region rid).base)
      ((pr.pool k).region rid).layout.pageSize) n

theorem insert_window {pr : Process} (h : ProcessInv pr) {sizes : List ℕ} {total base : ℕ}
    {fill : ℕ → ℕ → UInt8} (hk : k ∈ pr.pools) (ha : Accepted pr.pageSize sizes total)
    (hb : Reservable pr base (pageCeil total pr.pageSize)) (hw : Window W h₀ (pr.pool k) used) :
    Window W h₀ ((fcRegionCreate pr k sizes total ha fill base).pool k) used := by
  obtain ⟨hot,cold,hp⟩ := h.pool k hk
  have hf : pr.nextRegion ∉ (pr.pool k).regions := fun hm => lt_irrefl _ (h.freshRegion k hk _ hm)
  have hvac : ∀ r ∈ (pr.pool k).regions, ∀ q,
      InRange (regionInit (Layout.ofSizes pr.pageSize sizes total ha) base fill) q →
      ¬ InRange ((pr.pool k).region r) q := fun r hr q hq => hb.vacant k hk r hr q hq
  have hq := regionInsert_queue hp hf (h.placed k hk) hb.fits hvac
  rw [show (fcRegionCreate pr k sizes total ha fill base).pool k = _ from Function.update_self _ _ _]
  refine hw.same (by rw [hq.lruList_eq,hp.queue.lruList_eq]) rfl ?_
  rintro e he ⟨hr,hc⟩
  have hne : (node e).1 ≠ pr.nextRegion := Nat.ne_of_lt (h.freshEvent k hk e he)
  rw [insert_region_of_ne hne] at hc
  exact ⟨(List.mem_cons.mp hr).resolve_left hne,hc⟩

theorem destroy_window {pr pr' : Process} (h : ProcessInv pr) {rid : RegionId} (hk : k ∈ pr.pools)
    (hr : rid ∈ (pr.pool k).regions) (he : fcRegionDestroy pr k rid = some pr')
    (hw : Window W h₀ (pr.pool k) used) : ∃ used', Window W h₀ (pr'.pool k) used' := by
  obtain ⟨p,-,hf,e₁,-⟩ := destroy_spec h hk hr
  obtain ⟨pr₂,e₂,hrem⟩ := destroy_removed h hk hr
  obtain rfl := Option.some.inj (e₁.symm.trans he)
  obtain rfl := Option.some.inj (e₂.symm.trans he)
  obtain ⟨hot,cold,hp⟩ := h.pool k hk
  refine ⟨_,hw.shrink (fun n => decide (n.1 ≠ rid)) hrem.queue ?_ ?_⟩
  · rw [withState_pool_self]
    exact hf.history
  · rintro e - ⟨hm,hc⟩
    rw [hrem.regions,hp.queue.distinct.mem_erase_iff] at hm
    rw [hrem.region _ hm.1] at hc
    exact ⟨⟨hm.2,hc⟩,decide_eq_true hm.1⟩

/-- One call, which uses nothing outside the set if it is a fault. -/
theorem called_window {pr pr' : Process} {l : Call} (h : ProcessInv pr) (hc : Called pr l pr')
    (hk : k ∈ pr.pools) (hw : Window W h₀ (pr.pool k) used)
    (hsize : ∀ n, Live (pr.pool k) n → lruNodeSize (pr.pool k) n = w n)
    (hfit : (pr.pool k).targetSize = 0 ∨ weight w W ≤ (pr.pool k).targetSize)
    (hin : ∀ addr, l = .fault addr → ∀ n, Uses pr k addr n → n ∈ W) :
    ∃ used', Window W h₀ (pr'.pool k) used' := by
  cases hc with
  | poolCreate target =>
    rw [show (fcPoolCreate pr target).pool k = pr.pool k from
      Function.update_of_ne (Nat.ne_of_lt (h.freshPool k hk)) _ _]
    exact ⟨used,hw⟩
  | regionCreate j sizes total fill base hj ha hb =>
    by_cases hkj : k = j
    · subst hkj
      exact ⟨used,insert_window h hk ha hb hw⟩
    · rw [show (fcRegionCreate pr j sizes total ha fill base).pool k = pr.pool k from
        Function.update_of_ne hkj _ _]
      exact ⟨used,hw⟩
  | fault addr ours _ he =>
    rcases faultScan_cases he with ⟨-,rfl⟩ | ⟨-,j,hj,rid,s,hfind,hun,hs,rfl⟩
    · exact ⟨used,hw⟩
    by_cases hkj : k = j
    · subst hkj
      obtain ⟨hr,hinr⟩ := findRegionLocked_some hfind
      obtain ⟨hot,cold,hp⟩ := h.pool k hk
      obtain ⟨hd,hm⟩ := page_of_address hinr
      obtain ⟨st,rfl⟩ := resolve_stages hp hr hun hs
      rw [withState_pool_self]
      exact Stages.window hp st hw hd hm (fun n hn => hin addr rfl n ⟨rid,hr,hinr,hun,hn⟩) hsize hfit
    · rw [withState_pool_of_ne pr s hkj]
      exact ⟨used,hw⟩
  | regionDestroy j rid _ hj hr he =>
    by_cases hkj : k = j
    · subst hkj
      exact destroy_window h hk hr he hw
    · obtain ⟨pr₂,e₂,hrem⟩ := destroy_removed h hj hr
      obtain rfl := Option.some.inj (e₂.symm.trans he)
      rw [hrem.pool k hkj]
      exact ⟨used,hw⟩
  | poolDestroy j hj => exact ⟨used,hw⟩

theorem run_endures {pr pr' : Process} {ms : List (Process × Call)} (h : ProcessInv pr)
    (hr : Run Called pr ms pr') (hk : k < pr.nextPool) :
    (ProcessInv pr' ∧ Endures k pr pr') ∧ ∀ m ∈ ms, ProcessInv m.1 ∧ Endures k pr m.1 := by
  let Good : Process → Prop := fun v => ProcessInv v ∧ Endures k pr v
  refine hr.invariant (show Good pr from ⟨h,Endures.refl k pr⟩) ?_
  rintro v v' l ⟨hv,he⟩ hc
  have hs : Step v v' := (step_iff_called v v').mpr ⟨l,hc⟩
  exact ⟨step_inv hv hs,he.trans (step_endures hv hs (lt_of_lt_of_le hk he.pools))⟩

theorem pool_persists {pr pr' : Process} {l : Call} (hc : Called pr l pr') (hk : k < pr.nextPool)
    (hm : k ∈ pr'.pools) : k ∈ pr.pools := by
  cases hc with
  | poolCreate target => exact (List.mem_cons.mp hm).resolve_left (Nat.ne_of_lt hk)
  | regionCreate j sizes total fill base hj ha hb => exact hm
  | fault addr ours _ he =>
    rcases faultScan_cases he with ⟨-,rfl⟩ | ⟨-,j,hj,x,s,hfind,hun,hs,rfl⟩
    · exact hm
    · exact hm
  | regionDestroy j x _ hj hx he =>
    obtain ⟨p,hp,rfl⟩ := Option.map_eq_some_iff.mp he
    exact hm
  | poolDestroy j hj => exact List.mem_of_mem_erase hm

/-- A pool does not thrash on chunks that fit into it: over any stretch of a
run whose faults in the pool use a set of no more than its target size, nothing
is filled or evicted after it has been filled or promoted in the stretch, and
all of that is resident at the end unless its region is gone. -/
theorem fitting_set_filled_once {pr pr' : Process} {ms : List (Process × Call)} {W : List Node}
    (h : Reachable pr) (hr : Run Called pr ms pr') (hk : k ∈ pr.pools) (hk' : k ∈ pr'.pools)
    (hfit : (pr'.pool k).targetSize = 0 ∨ sizeSum (pr'.pool k) W ≤ (pr'.pool k).targetSize)
    (huse : ∀ v addr, (v,.fault addr) ∈ ms → ∀ n, Uses v k addr n → n ∈ W) :
    ∃ es, (pr'.pool k).history = es ++ (pr.pool k).history ∧ Settled es ∧
      ∀ e ∈ es, refreshes e = true → Live (pr'.pool k) (node e) →
        (pr'.pool k).resident (node e) = true := by
  have hnext := (reachable_inv h).freshPool k hk
  obtain ⟨⟨hinv',-⟩,hall⟩ := run_endures (reachable_inv h) hr hnext
  let Good : Process → Prop := fun v => (ProcessInv v ∧ k < v.nextPool) ∧
    (k ∈ v.pools → ∃ used, Window W (pr.pool k).history (v.pool k) used)
  let Guard : Process → Call → Prop := fun v l => Endures k v pr' ∧
    ∀ addr, l = .fault addr → ∀ n, Uses v k addr n → n ∈ W
  have hempty : Window W (pr.pool k).history (pr.pool k) [] :=
    ⟨List.nil_prefix,List.nil_subset _,[],rfl,.nil,fun _ he => absurd he List.not_mem_nil⟩
  have hstep : ∀ {v v' l}, Good v → Called v l v' → Guard v l → Good v' := by
    rintro v v' l ⟨⟨hv,hn⟩,hwin⟩ hc ⟨he,hu⟩
    have hs : Step v v' := (step_iff_called v v').mpr ⟨l,hc⟩
    refine ⟨⟨step_inv hv hs,lt_of_lt_of_le hn (step_endures hv hs hn).pools⟩,fun hm => ?_⟩
    have hold := pool_persists hc hn hm
    obtain ⟨used,hused⟩ := hwin hold
    -- Sizes and the target are the same at the end of the run as here.
    refine called_window (w := lruNodeSize (pr'.pool k)) hv hc hold hused ?_ (he.target ▸ hfit) hu
    intro n hl
    rw [lruNodeSize,lruNodeSize,he.layout n.1 (hv.freshRegion k hold _ hl.1)]
  have hguard : ∀ m ∈ ms, Guard m.1 m.2 := by
    rintro ⟨v,l⟩ hm
    obtain ⟨hv,hev⟩ := hall _ hm
    obtain ⟨ns,hns⟩ := hr.rest hm
    refine ⟨(run_endures hv hns (lt_of_lt_of_le hnext hev.pools)).1.2,?_⟩
    rintro addr rfl
    exact huse v addr hm
  obtain ⟨⟨-,hwin⟩,-⟩ := Run.guarded Guard (show Good pr from ⟨⟨reachable_inv h,hnext⟩,fun _ => ⟨[],hempty⟩⟩)
    hstep hr hguard
  obtain ⟨used,hused⟩ := hwin hk'
  obtain ⟨es,hes,hset,hback⟩ := hused.since
  refine ⟨es,hes,hset,fun e he href hlive => ?_⟩
  obtain ⟨hot,cold,hp⟩ := hinv'.pool k hk'
  rw [hp.queue.order.resident,← hp.queue.lruList_eq]
  exact hused.isPrefix.subset (hback e he href hlive)

/-- Chunk 1 has been filled in place of chunk 0, and chunk 2 promoted again. -/
def mixedPromoted : Process := afterFault mixedEvicted 28

def promotedRun : List (Process × Call) := [(mixedEvicted,.fault 28),(mixedFilled,.fault 24)]

theorem promotedRun_run : Run Called mixedFilled promotedRun mixedPromoted := by
  refine .move (.move .start (.fault _ 24 true _ ?_)) (.fault _ 28 true _ ?_)
  · exact afterFault_resolved (by decide +kernel)
  · exact afterFault_resolved (by decide +kernel)

theorem promotedRun_uses : ∀ v addr, (v,.fault addr) ∈ promotedRun → ∀ n, Uses v 0 addr n →
    n ∈ [((0 : RegionId),1),(0,2)] := by
  have hone : ∀ v addr, (∀ r ∈ (v.pool 0).regions, r = 0 ∧ ∀ c < ((v.pool 0).region r).layout.nchunks,
      ((v.pool 0).region r).layout.Touches c (pageFloor (addr-((v.pool 0).region r).base)
        ((v.pool 0).region r).layout.pageSize) → c = 1 ∨ c = 2) →
      ∀ n, Uses v 0 addr n → n ∈ [((0 : RegionId),1),(0,2)] := by
    rintro v addr hall n ⟨rid,hrid,-,-,rfl,hlt,ht⟩
    obtain ⟨hz,hc⟩ := hall _ hrid
    rcases hc _ hlt ht with h1 | h2
    · exact List.mem_cons.mpr (Or.inl (Prod.ext hz h1))
    · exact List.mem_cons_of_mem _ (List.mem_singleton.mpr (Prod.ext hz h2))
  intro v addr hm
  apply hone
  rw [promotedRun,List.mem_pair,Prod.mk.injEq,Prod.mk.injEq,Call.fault.injEq,Call.fault.injEq] at hm
  rcases hm with ⟨hv,ha⟩ | ⟨hv,ha⟩
  · rw [hv,ha]
    decide +kernel
  · rw [hv,ha]
    decide +kernel

theorem fitting_set_filled_once_mixed :
    (∃ m, (mixedPromoted.pool 0).history = m ++ (mixedFilled.pool 0).history ∧ .evict (0,0) ∈ m) ∧
    ∃ es, (mixedPromoted.pool 0).history = es ++ (mixedFilled.pool 0).history ∧ Settled es ∧
      ∀ e ∈ es, refreshes e = true → Live (mixedPromoted.pool 0) (node e) →
        (mixedPromoted.pool 0).resident (node e) = true :=
  ⟨⟨[.demote (0,1),.promote (0,2),.demote (0,2),.evict (0,0),.fill (0,1) 6],by decide +kernel,by decide⟩,
    fitting_set_filled_once mixedFilled_reachable promotedRun_run (by decide +kernel) (by decide +kernel)
      (Or.inr (by decide +kernel)) promotedRun_uses⟩

end Calls

end FaultCache.WorkingSet
