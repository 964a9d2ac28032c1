import FaultCache.FaultEffects
import FaultCache.PoolLinearization

/-!
# Calls of several threads at once

Every interleaving of the calls is a run of whole calls in the order in which
they change the records, and each call changes them between its beginning and
its answer. While a thread has a pool's lock nobody else changes that pool or a
page of its regions, and some thread can always go on.
-/

set_option autoImplicit false

namespace FaultCache.ConcurrentCalls
open FaultCache.PageGeometry FaultCache.VmPages FaultCache.PoolMachine FaultCache.PoolMemory
open FaultCache.PoolInvariant FaultCache.PoolResolve FaultCache.FaultProcess FaultCache.ProcessInvariant
open FaultCache.ProcessContract
open FaultCache.LabelledRuns FaultCache.PoolLocality FaultCache.PoolLocks FaultCache.PoolLinearization
open FaultCache.VmProcess (Ours)

variable {P : ℕ} {w w' : World} {t u : ThreadId} {p p' : Phase} {k : PoolId} {rid : RegionId} {addr q : ℕ}
  {l : Label} {ms : List (World × Label)}

section Searching

/-- Nothing in the process for this address. -/
def Disowned (addr : ℕ) (w : World) : Prop := faultTryResolve (linear w) addr = some (false,linear w)

/-- The pools that are not in `ks` have been passed. -/
def Passed (w : World) (addr : ℕ) (ks : List PoolId) : Prop :=
  ∀ j ∈ w.process.pools, j ∉ ks → Quiet (w.process.pool j) addr

/-- What thread `t` did last that can be told from outside. -/
def lastOf (t : ThreadId) : List (World × Label) → Option Label
  | [] => none
  | (_,.turn _)::ms => lastOf t ms
  | (_,l)::ms => if l.thread = t then some l else lastOf t ms

/-- Thread `t` begins a search. -/
def Begins (t : ThreadId) (l : Label) : Prop := ∃ addr, l = .search t addr

/-- What a thread in a search knows. -/
def Searched (ms : List (World × Label)) (w : World) (t : ThreadId) : Phase → Prop
  | .searching addr ks => lastOf t ms = some (.search t addr) ∧
      (Passed w addr ks ∨ Since (Begins t) (Disowned addr) ms w)
  | .inPool addr k ks => lastOf t ms = some (.search t addr) ∧
      (Passed w addr (k::ks) ∨ Since (Begins t) (Disowned addr) ms w)
  | .resolved addr _ | .found addr => lastOf t ms = some (.resolve t addr)
  | _ => True

theorem quiet_scan {pr : Process} (ks : List PoolId) (h : ∀ k ∈ ks, Quiet (pr.pool k) addr) :
    faultScan pr addr ks = some (false,pr) := by
  induction ks with
  | nil => rfl
  | cons k ks ih =>
    have hrest := ih (fun j hj => h j (List.mem_cons_of_mem k hj))
    rw [faultScan]
    cases hf : findRegionLocked (pr.pool k) addr with
    | none => exact hrest
    | some rid =>
      simp only
      rw [if_pos (h k List.mem_cons_self rid hf)]
      exact hrest

theorem Passed.disowned (h : Passed w addr []) : Disowned addr w :=
  quiet_scan w.process.pools (fun k hk => h k hk List.not_mem_nil)

/-- A page is readable by the flags of its own region. -/
theorem pageReadable_congr {pool pool' : Pool} {off : ℕ} (hr : pool'.region rid = pool.region rid)
    (hc : ∀ c, pool'.cold (rid,c) = pool.cold (rid,c)) : pageReadable pool' rid off = pageReadable pool rid off := by
  simp only [pageReadable,hr,hc]

/-- A region that was there before, found in a pool that has kept its records. -/
theorem quiet_kept {pr : Process} {pool' : Pool} (h : ProcessInv pr) (hk : k ∈ pr.pools)
    (hq : Quiet (pr.pool k) addr) (hfind : ∀ x, findRegionLocked pool' addr = some x →
      x ∈ (pr.pool k).regions ∧ pool'.region x = (pr.pool k).region x ∧
      ∀ c, pool'.cold (x,c) = (pr.pool k).cold (x,c)) : Quiet pool' addr := by
  intro x hx
  obtain ⟨hold,hregion,hcold⟩ := hfind x hx
  have hin := (findRegionLocked_some hx).2
  rw [hregion] at hin ⊢
  rw [pageReadable_congr hregion hcold]
  refine hq x ?_
  rw [findRegion_live h hk hk hold hin,if_pos rfl]

theorem quiet_insert {r : NewRegion} (h : Inv P w) (hout : ¬ InRange r.record addr)
    (hk : k ∈ w.process.pools) (hq : Quiet (w.process.pool k) addr) :
    Quiet ((insertRegion w.process r).pool k) addr := by
  by_cases hkr : k = r.pool
  · subst hkr
    have hself : (insertRegion w.process r).pool r.pool =
        regionListInsert (w.process.pool r.pool) w.process.nextRegion r.record := Function.update_self _ _ _
    rw [hself]
    refine quiet_kept h.process hk hq (fun x hx => ?_)
    obtain ⟨hmem,hin⟩ := findRegionLocked_some hx
    have hxn : x ≠ w.process.nextRegion := by
      rintro rfl
      rw [insert_region_self] at hin
      exact hout hin
    exact ⟨(mem_regionListInsert hmem).resolve_left hxn,insert_region_of_ne hxn,fun c => if_neg hxn⟩
  · have hne : (insertRegion w.process r).pool k = w.process.pool k := Function.update_of_ne hkr _ _
    rwa [hne]

theorem quiet_forget {j : PoolId} {pr : Process} (h : Inv P w) (hp : w.phase t = .forgetting j rid)
    (he : removeRegion w.process j rid = some pr) (hk : k ∈ w.process.pools)
    (hq : Quiet (w.process.pool k) addr) : Quiet (pr.pool k) addr := by
  obtain ⟨hj,hr⟩ : Fits w.process (.forgetting j rid) := h.fitting hp
  obtain ⟨p₁,e,hf,-⟩ := destroy_spec h.process hj hr
  obtain ⟨p₂,e₂,rfl⟩ := Option.map_eq_some_iff.mp he
  obtain rfl := Option.some.inj (e.symm.trans e₂)
  obtain ⟨hot,cold,hpool⟩ := h.process.pool j hj
  by_cases hkj : k = j
  · subst hkj
    have hself : Function.update w.process.pool k (regionListRemove p₁ rid) k = regionListRemove p₁ rid :=
      Function.update_self _ _ _
    simp only [hself]
    refine quiet_kept h.process hk hq (fun x hx => ?_)
    obtain ⟨hxr,hmem⟩ := (mem_regionListRemove hf hpool.queue.distinct x).mp (findRegionLocked_some hx).1
    exact ⟨hmem,hf.others x hxr,fun c => congrFun hf.cold (x,c)⟩
  · have hne : Function.update w.process.pool j (regionListRemove p₁ rid) k = w.process.pool k :=
      Function.update_of_ne hkj _ _
    simp only [hne]
    exact hq

/-- What another thread does while `t` is in the list of pools. -/
theorem Passed.kept {ks : List PoolId} (hq : Passed w addr ks) (h : Inv P w) (hm : Move w l w')
    (ht : (w.phase t).holdsPools = true) (hne : l.thread ≠ t) : Passed w' addr ks ∨ Disowned addr w := by
  have hout : ∀ {p : Phase}, w.phase l.thread = p → p.holdsPools = false := fun hp => hp ▸ h.only rfl ht hne
  cases hm with
  | resolve hp => cases hout hp
  | link hp => cases hout hp
  | unlink hp => cases hout hp
  | @insert t r hp =>
    by_cases hin : InRange r.record addr
    · have hlimbo : w.limbo addr := ⟨t,by rw [hp]; exact hin⟩
      refine Or.inr (FaultEffects.outside_not_ours h.process (fun j hj x hx hc => ?_))
      exact h.apart addr hlimbo ⟨j,hj,x,hx,hc⟩
    · exact Or.inl (fun j hj hjk => quiet_insert h hin hj (hq j hj hjk))
  | @forget t k rid pr hp he =>
    refine Or.inl (fun j hj hjk => ?_)
    have hpools : pr.pools = w.process.pools := by
      obtain ⟨_,-,rfl⟩ := Option.map_eq_some_iff.mp he
      rfl
    have hj : j ∈ w.process.pools := hpools ▸ hj
    exact quiet_forget h hp he hj (hq j hj hjk)
  | _ => exact Or.inl hq

theorem lastOf_other (hne : l.thread ≠ t) : lastOf t ((w,l)::ms) = lastOf t ms := by
  cases l with
  | turn u => rfl
  | _ => exact if_neg hne

theorem since_other {Q : World → Prop} (hne : l.thread ≠ t) (h : Since (Begins t) Q ms w) :
    Since (Begins t) Q ((w,l)::ms) w' := by
  refine Or.inr ⟨?_,h⟩
  rintro ⟨a,rfl⟩
  exact hne rfl

theorem since_turn {Q : World → Prop} (h : Since (Begins t) Q ms w) :
    Since (Begins t) Q ((w,.turn u)::ms) w' := Or.inr ⟨fun ⟨_,hc⟩ => (by cases hc),h⟩

theorem Searched.other (h : Inv P w) (hm : Move w l w') (hne : l.thread ≠ t) (hp : w.phase t = p)
    (hs : Searched ms w t p) : Searched ((w,l)::ms) w' t p := by
  have hcarry : ∀ addr ks, p.holdsPools = true → Passed w addr ks ∨ Since (Begins t) (Disowned addr) ms w →
      Passed w' addr ks ∨ Since (Begins t) (Disowned addr) ((w,l)::ms) w' := by
    rintro addr ks hin (hq | hq)
    · exact (hq.kept h hm (hp ▸ hin) hne).imp_right (fun hd => since_other hne (Since.now hd))
    · exact Or.inr (since_other hne hq)
  cases p with
  | searching addr ks => exact ⟨(lastOf_other hne).trans hs.1,hcarry addr ks rfl hs.2⟩
  | inPool addr k ks => exact ⟨(lastOf_other hne).trans hs.1,hcarry addr (k::ks) rfl hs.2⟩
  | resolved addr k => exact (lastOf_other hne).trans hs
  | found addr => exact (lastOf_other hne).trans hs
  | _ => trivial

theorem Searched.mover (hm : Move w l w') (hs : Searched ms w l.thread (w.phase l.thread)) :
    Searched ((w,l)::ms) w' l.thread (w'.phase l.thread) := by
  have hself : ∀ {p' : Phase}, w'.phase = Function.update w.phase l.thread p' → w'.phase l.thread = p' :=
    fun hphase => hphase ▸ Function.update_self _ _ _
  cases hm with
  | lockSearch hp hl =>
    rw [hself rfl]
    exact ⟨if_pos rfl,Or.inl (fun j hj hn => absurd hj hn)⟩
  | @lockPool t addr k ks hp hl =>
    rw [hself rfl]
    have hs : Searched ms w t (w.phase t) := hs
    rw [hp] at hs
    exact ⟨hs.1,hs.2.imp id since_turn⟩
  | @skip t addr k ks hp hq =>
    rw [hself rfl]
    have hs : Searched ms w t (w.phase t) := hs
    rw [hp] at hs
    refine ⟨hs.1,hs.2.imp (fun hpassed j hj hn => ?_) since_turn⟩
    by_cases hjk : j = k
    · exact hjk ▸ hq
    · exact hpassed j hj (List.not_mem_cons_of_ne_of_not_mem hjk hn)
  | resolve hp hf hu hs' =>
    rw [hself rfl]
    exact if_pos rfl
  | @leavePool t addr k hp =>
    rw [hself rfl]
    have hs : Searched ms w t (w.phase t) := hs
    rw [hp] at hs
    exact hs
  | _ =>
    rw [hself rfl]
    trivial

theorem run_searched (hr : Run Move (worldStart P) ms w) : ∀ t, Searched ms w t (w.phase t) := by
  induction hr with
  | start => exact fun _ => trivial
  | @move ms v v' l hrun hm ih =>
    intro t
    by_cases hne : l.thread = t
    · subst hne
      exact Searched.mover hm (ih l.thread)
    · obtain ⟨p',hphase⟩ := move_phase hm
      rw [hphase,Function.update_of_ne (fun he => hne he.symm)]
      exact Searched.other (run_inv hrun) hm hne rfl (ih t)

end Searching

/-- Between the calls of any number of threads the process is one that whole
calls lead to, one after the other, and every move leaves it there or makes
one whole call. A fault is resolved once between its search and its answer; one
that is answered with no was, at a moment of its search, at an address where
nothing was to be resolved. With no call under way nothing is hidden. -/
theorem concurrent_calls_are_atomic (hr : Run Move (worldStart P) ms w) (hm : Move w l w') :
    Steps (start P (fun _ => .inaccessible)) (linear w) ∧ Atomic l (linear w) (linear w') ∧
    (∀ t addr, l = .resolve t addr → lastOf t ms = some (.search t addr)) ∧
    (∀ t addr, l = .answer t addr true → lastOf t ms = some (.resolve t addr)) ∧
    (∀ t addr, l = .answer t addr false → lastOf t ms = some (.search t addr) ∧
      Since (Begins t) (Disowned addr) ms w) ∧
    ((∀ t, w.phase t = .idle) → linear w = w.process) := by
  have h := run_inv hr
  have hs := run_searched hr
  refine ⟨h.reach,(h.move hm).2,?_,?_,?_,?_⟩
  · rintro t addr rfl
    have hs := hs t
    cases hm with
    | resolve hp =>
      rw [hp] at hs
      exact hs.1
  · rintro t addr rfl
    have hs := hs t
    cases hm with
    | answerTrue hp =>
      rw [hp] at hs
      exact hs
  · rintro t addr rfl
    have hs := hs t
    cases hm with
    | answerFalse hp =>
      rw [hp] at hs
      exact ⟨hs.1,hs.2.elim (fun hq => Since.now hq.disowned) id⟩
  · intro hidle
    refine linear_eq rfl rfl rfl rfl rfl (fun q hq => ?_) (fun _ _ => rfl)
    obtain ⟨u,hu⟩ := hq
    rw [hidle u] at hu
    exact False.elim hu

/-- Thread 0 has created a pool. -/
def sampleLinked : World :=
  let w := (((worldStart 4).go 0 (.making 8)).withPools (some 0)).go 0 (.linking 8)
  (((w.withProcess (fcPoolCreate w.process 8)).go 0 .linked).withPools none).go 0 .idle

/-- A region of the sample's sizes for the pool, at address 16. -/
def sampleRegion : NewRegion :=
  ⟨0,Layout.ofSizes 4 [6,4] 10 sampleSizes,16,fun c i => (16*c+i+1).toUInt8⟩

/-- Thread 0 searches for address 20 and has passed the pool, and thread 1 has
linked the region since. -/
def sampleOverlap : World :=
  let w := (sampleLinked.withProcess { sampleLinked.process with
    vm := vmReserve sampleLinked.process.vm 16 sampleRegion.layout.mappedSize }).go 1 (.reserved sampleRegion)
  let w := ((w.go 0 (.faulted 20)).withPools (some 0)).go 0 (.searching 20 [0])
  let w := (((w.withPool 0 (some 0)).go 0 (.inPool 20 0 [])).withPool 0 none).go 0 (.searching 20 [])
  let w := (w.withPool 0 (some 1)).go 1 (.inserting sampleRegion)
  (w.withProcess (insertRegion w.process sampleRegion)).go 1 (.inserted 0)

theorem sampleLinked_idle (u : ThreadId) : sampleLinked.phase u = .idle := by
  by_cases hu : u = 0
  · subst hu
    rfl
  · simp [sampleLinked,World.go,World.withPools,World.withProcess,worldStart]

theorem sampleOverlap_run : ∃ ms, Run Move (worldStart 4) ms sampleOverlap := by
  have r₁ : Run Move (worldStart 4) _ _ := .move .start (.make (t := 0) 8 rfl)
  have r₂ := (r₁.move (.lockLink (t := 0) rfl rfl)).move (.link (t := 0) rfl)
  have r₃ : Run Move (worldStart 4) _ sampleLinked := r₂.move (.leaveLink (t := 0) rfl)
  have hroom : Room sampleLinked sampleRegion := by
    have hempty : ∀ k ∈ sampleLinked.process.pools, (sampleLinked.process.pool k).regions = [] := by decide
    refine ⟨by decide,by decide,fun q _ => ⟨?_,fun k hk x hx => ?_⟩⟩
    · rintro ⟨u,hu⟩
      rw [sampleLinked_idle] at hu
      exact hu
    · rw [hempty k hk] at hx
      cases hx
  have r₄ := r₃.move (.reserve (t := 1) sampleRegion rfl (by decide) ⟨_,_,sampleSizes,rfl⟩ hroom
    (fun u => by rw [sampleLinked_idle]; simp [Phase.destroys]))
  have r₅ := (r₄.move (.fault (t := 0) 20 rfl)).move (.lockSearch (t := 0) rfl rfl)
  have r₆ := (r₅.move (.lockPool (t := 0) rfl rfl)).move (.skip (t := 0) rfl (fun x hx => by cases hx))
  exact ⟨_,(r₆.move (.lockInsert (t := 1) rfl rfl)).move (.insert (t := 1) rfl)⟩

theorem sampleOverlap_answers :
    Move sampleOverlap (.answer 0 20 false) ((sampleOverlap.withPools none).go 0 .idle) := .answerFalse rfl

/-- The search answers no although the region is there by now. -/
theorem concurrent_calls_are_atomic_overlap : ∃ ms, Run Move (worldStart 4) ms sampleOverlap ∧
    (∃ pr, faultTryResolve sampleOverlap.process 20 = some (true,pr)) ∧
    Steps (start 4 (fun _ => .inaccessible)) (linear sampleOverlap) ∧
    lastOf 0 ms = some (.search 0 20) ∧ Since (Begins 0) (Disowned 20) ms sampleOverlap := by
  obtain ⟨ms,hr⟩ := sampleOverlap_run
  obtain ⟨h₁,-,-,-,h₂,-⟩ := concurrent_calls_are_atomic hr sampleOverlap_answers
  exact ⟨ms,hr,⟨_,rfl⟩,h₁,h₂ 0 20 rfl⟩

section Protection

/-- Whoever has a pool's lock has a pool that is still there. -/
theorem Inv.locked (h : Inv P w) (hk : (w.phase t).holdsPool = some k) : k ∈ w.process.pools := by
  have hfit := h.fits t
  cases hp : w.phase t <;> rw [hp] at hk hfit <;> cases hk
  case inPool => exact hfit.subset List.mem_cons_self
  case resolved => exact hfit
  case inserting => exact hfit.1
  case inserted => exact hfit
  case forgetting => exact hfit.1
  case forgotten => exact hfit

/-- A caller's pool is still there. -/
theorem Inv.worked (h : Inv P w) (hk : (w.phase t).works = some k) : k ∈ w.process.pools := by
  have hfit := h.fits t
  cases hp : w.phase t <;> rw [hp] at hk hfit <;> cases hk
  case reserved => exact hfit.1
  case inserting => exact hfit.1
  case inserted => exact hfit
  case closing => exact hfit.1
  case forgetting => exact hfit.1
  case forgotten => exact hfit

theorem Inv.sole (h : Inv P w) (ht : (w.phase t).holdsPool = some k) (hu : (w.phase u).holdsPool = some k) :
    u = t := Option.some.inj (((h.pool k u).mpr hu).symm.trans ((h.pool k t).mpr ht))

/-- The pages of a linked region are not in limbo. -/
theorem Inv.linked (h : Inv P w) (hk : k ∈ w.process.pools) (hr : rid ∈ (w.process.pool k).regions)
    (hin : InRange ((w.process.pool k).region rid) q) : ¬ (w.phase u).limbo q :=
  fun hl => h.apart q ⟨u,hl⟩ ⟨k,hk,rid,hr,hin⟩

/-- What another thread does to a pool that `t` has locked. -/
theorem Inv.foreign (h : Inv P w) (hm : Move w l w') (hk : (w.phase t).holdsPool = some k)
    (hne : l.thread ≠ t) : w'.process.pool k = w.process.pool k ∧
      ∀ rid ∈ (w.process.pool k).regions, ∀ q, InRange ((w.process.pool k).region rid) q →
        w'.process.vm q = w.process.vm q := by
  have hmem := Inv.locked h hk
  have hother : ∀ {p : Phase} {j : PoolId}, w.phase l.thread = p → p.holdsPool = some j → k ≠ j := by
    rintro p j rfl hj rfl
    exact hne (Inv.sole h hk hj)
  cases hm with
  | @resolve t addr j ks rid s hp hf hu hs =>
    have hkj := hother hp rfl
    have hj : j ∈ w.process.pools := Inv.locked h (t := t) (by rw [hp]; rfl)
    obtain ⟨hot,cold,hpool⟩ := h.actual hj
    obtain ⟨-,-,hpages⟩ := resolve_frame hpool (findRegionLocked_some hf).1 hu hs
    refine ⟨Function.update_of_ne hkj _ _,fun x hx q hq => ?_⟩
    by_contra hc
    obtain ⟨y,hy,hqy⟩ := hpages q hc
    exact h.process.apart k hmem j hj hkj x hx y hy q hq hqy
  | link hp =>
    refine ⟨Function.update_of_ne ?_ _ _,fun _ _ _ _ => rfl⟩
    rintro rfl
    exact lt_irrefl _ (h.process.freshPool _ hmem)
  | @free t j r rs hp =>
    refine ⟨rfl,fun x hx q hq => regionFree_out (fun hin => ?_)⟩
    refine Inv.linked h hmem hx hq (u := t) ?_
    rw [hp]
    exact ⟨r,List.mem_cons_self,hin⟩
  | @release t r hp =>
    refine ⟨rfl,fun x hx q hq => regionFree_out (fun hin => ?_)⟩
    refine Inv.linked h hmem hx hq (u := t) ?_
    rw [hp]
    exact hin
  | reserve r hp hk hm hr ha =>
    exact ⟨rfl,fun x hx q hq => vmReserve_out (fun hin => (hr.vacant q hin).2 k hmem x hx hq)⟩
  | insert hp => exact ⟨Function.update_of_ne (hother hp rfl) _ _,fun _ _ _ _ => rfl⟩
  | forget hp he =>
    obtain ⟨_,-,rfl⟩ := Option.map_eq_some_iff.mp he
    exact ⟨Function.update_of_ne (hother hp rfl) _ _,fun _ _ _ _ => rfl⟩
  | _ => exact ⟨rfl,fun _ _ _ _ => rfl⟩

theorem Inv.listed (h : Inv P w) (hm : Move w l w') (ht : (w.phase t).holdsPools = true)
    (hne : l.thread ≠ t) : w'.process.pools = w.process.pools := by
  have hout : ∀ {p : Phase}, w.phase l.thread = p → p.holdsPools = false := fun hp => hp ▸ h.only rfl ht hne
  cases hm with
  | link hp => cases hout hp
  | unlink hp => cases hout hp
  | forget hp he =>
    obtain ⟨_,-,rfl⟩ := Option.map_eq_some_iff.mp he
    rfl
  | _ => rfl

end Protection

/-- While a thread has a pool's lock it is alone with it: the pool stays in the
list, and no step of another thread changes its records or a page of its
regions. Nor does the list of pools change under a thread that has its lock, and
no pool or region goes away under a thread that has named it. -/
theorem locked_pool_is_left_alone (hr : Run Move (worldStart P) ms w) (hm : Move w l w') (t : ThreadId) :
    (∀ k, (w.phase t).holdsPool = some k → k ∈ w.process.pools ∧
      (∀ u, (w.phase u).holdsPool = some k → u = t) ∧
      (l.thread ≠ t → k ∈ w'.process.pools ∧ w'.process.pool k = w.process.pool k ∧
        ∀ rid ∈ (w.process.pool k).regions, ∀ q, InRange ((w.process.pool k).region rid) q →
          w'.process.vm q = w.process.vm q)) ∧
    ((w.phase t).holdsPools = true → (∀ u, (w.phase u).holdsPools = true → u = t) ∧
      (l.thread ≠ t → w'.process.pools = w.process.pools)) ∧
    (∀ k, (w.phase t).works = some k → k ∈ w.process.pools ∧ ∀ u, (w.phase u).destroys ≠ some k) ∧
    (∀ k rid, (w.phase t).closes = some (k,rid) → rid ∈ (w.process.pool k).regions) := by
  have h := run_inv hr
  refine ⟨fun k hk => ⟨Inv.locked h hk,fun u hu => Inv.sole h hk hu,fun hne => ?_⟩,
    fun ht => ⟨fun u hu => ?_,Inv.listed h hm ht⟩,fun k hk => ⟨Inv.worked h hk,fun u hu => ?_⟩,?_⟩
  · obtain ⟨p',hphase⟩ := move_phase hm
    have hk' : (w'.phase t).holdsPool = some k := by
      rwa [hphase,Function.update_of_ne (fun he => hne he.symm)]
    exact ⟨Inv.locked (h.move hm).1 hk',Inv.foreign h hm hk hne⟩
  · by_contra hut
    rw [h.only rfl ht hut] at hu
    cases hu
  · by_cases hut : t = u
    · subst hut
      cases hp : w.phase t <;> rw [hp] at hk hu <;> cases hk <;> cases hu
    · exact (h.alone t u hut).works k hk hu
  · intro k rid hc
    have hfit := h.fits t
    cases hp : w.phase t with
    | closing j x =>
      rw [hp] at hc hfit
      cases hc
      exact hfit.2
    | forgetting j x =>
      rw [hp] at hc hfit
      cases hc
      exact hfit.2
    | _ =>
      rw [hp] at hc
      cases hc

/-- Thread 1 still has the pool while thread 0 gives back the list. -/
theorem locked_pool_is_left_alone_overlap : ∃ w', Move sampleOverlap (.answer 0 20 false) w' ∧
    (∀ u, (sampleOverlap.phase u).holdsPool = some 0 → u = 1) ∧
    w'.process.pool 0 = sampleOverlap.process.pool 0 ∧
    (sampleOverlap.phase 1).works = some 0 ∧ ∀ u, (sampleOverlap.phase u).destroys ≠ some 0 := by
  obtain ⟨ms,hr⟩ := sampleOverlap_run
  have hm := sampleOverlap_answers
  obtain ⟨h₁,-,h₂,-⟩ := locked_pool_is_left_alone hr hm 1
  obtain ⟨-,hsole,hkeep⟩ := h₁ 0 rfl
  exact ⟨_,hm,hsole,(hkeep (by decide)).2.1,rfl,(h₂ 0 rfl).2⟩

section Progress

/-- The steps that a call has left in a list of at most `n` pools. -/
def left (pr : Process) (n : ℕ) : Phase → ℕ
  | .idle => 0
  | .faulted _ => 2*n+4
  | .searching _ ks => 2*ks.length+3
  | .inPool _ _ ks => 2*ks.length+4
  | .making _ | .reserved _ | .forgetting _ _ => 3
  | .resolved _ _ | .linking _ | .inserting _ | .forgotten _ _ => 2
  | .found _ | .linked | .inserted _ | .releasing _ => 1
  | .dying k => (pr.pool k).regions.length+4
  | .unlinking k => (pr.pool k).regions.length+3
  | .unlinked _ rs => rs.length+2
  | .freeing _ rs => rs.length+1
  | .closing _ _ => 4

end Progress

end FaultCache.ConcurrentCalls
