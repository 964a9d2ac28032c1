import FaultCache.PoolLocks
import FaultCache.VmProcess

/-!
# Concurrent calls behave like serialised ones

What the threads have done together is a run of whole calls, one after the
other. A call counts where it changes the records: a fault where it is resolved,
a creation where it is linked, a destruction where it is unlinked. Addresses that
are reserved ahead of that or freed after it are nobody's, and count as
inaccessible.
-/

set_option autoImplicit false

namespace FaultCache.PoolLinearization
open FaultCache.PageGeometry FaultCache.VmPages FaultCache.PoolMachine FaultCache.PoolMemory
open FaultCache.PoolInvariant FaultCache.PoolResolve FaultCache.FaultProcess FaultCache.ProcessInvariant
open FaultCache.LabelledRuns FaultCache.PoolLocality FaultCache.PoolLocks
open FaultCache.VmProcess (Ours)

open Classical in
/-- The process as it is between whole calls. -/
noncomputable def linear (w : World) : Process :=
  { w.process with vm := fun q => if w.limbo q then .inaccessible else w.process.vm q }

/-- What a phase takes for granted. -/
def Fits (pr : Process) : Phase → Prop
  | .searching _ ks => ks <:+ pr.pools
  | .inPool _ k ks => (k::ks) <:+ pr.pools
  | .resolved _ k | .inserted k | .forgotten k _ | .dying k | .unlinking k => k ∈ pr.pools
  | .unlinked k _ | .freeing k _ => k < pr.nextPool ∧ k ∉ pr.pools
  | .reserved r | .inserting r => r.pool ∈ pr.pools ∧ Made pr.pageSize r ∧ pr.pageSize ∣ r.base ∧
      r.base+r.layout.mappedSize < 2^64 ∧ ∀ q, InRange r.record q → pr.vm q = .inaccessible
  | .closing k rid | .forgetting k rid => k ∈ pr.pools ∧ rid ∈ (pr.pool k).regions
  | _ => True

/-- Two threads that do not get in each other's way. -/
structure Apart (p p' : Phase) : Prop where
  works : ∀ k, p.works = some k → p'.destroys ≠ some k
  destroyed : ∀ k, p.destroys = some k → p'.works ≠ some k
  destroys : ∀ k, p.destroys = some k → p'.destroys ≠ some k
  closes : ∀ x, p.closes = some x → p'.closes ≠ some x
  limbo : ∀ q, p.limbo q → ¬ p'.limbo q

theorem Apart.symm {p p' : Phase} (h : Apart p p') : Apart p' p :=
  ⟨fun k hw hd => h.destroyed k hd hw,fun k hd hw => h.works k hw hd,fun k hd hd' => h.destroys k hd' hd,
    fun x hc hc' => h.closes x hc' hc,fun q hq hq' => h.limbo q hq' hq⟩

/-- The later phase claims no more than the earlier one. -/
structure Claims (p p' : Phase) : Prop where
  works : ∀ k, p'.works = some k → p.works = some k
  destroys : ∀ k, p'.destroys = some k → p.destroys = some k
  closes : ∀ x, p'.closes = some x → p.closes = some x
  limbo : ∀ q, p'.limbo q → p.limbo q

theorem Claims.apart {p p' u : Phase} (h : Claims p p') (ha : Apart p u) : Apart p' u :=
  ⟨fun k hk => ha.works k (h.works k hk),fun k hk => ha.destroyed k (h.destroys k hk),
    fun k hk => ha.destroys k (h.destroys k hk),fun x hx => ha.closes x (h.closes x hx),
    fun q hq => ha.limbo q (h.limbo q hq)⟩

/-- What holds at every moment of every run. -/
structure Inv (P : ℕ) (w : World) : Prop where
  reach : Steps (start P (fun _ => .inaccessible)) (linear w)
  size : w.process.pageSize = P
  blank : ∀ q, ¬ w.limbo q → ¬ Ours w.process q → w.process.vm q = .inaccessible
  apart : ∀ q, w.limbo q → ¬ Ours w.process q
  pools : ∀ t, w.poolsLock = some t ↔ (w.phase t).holdsPools = true
  pool : ∀ k t, w.poolLock k = some t ↔ (w.phase t).holdsPool = some k
  fits : ∀ t, Fits w.process (w.phase t)
  alone : ∀ t u, t ≠ u → Apart (w.phase t) (w.phase u)

/-- What a move does to the process as it is between whole calls. -/
def Atomic : Label → Process → Process → Prop
  | .resolve _ addr, a, a' => faultTryResolve a addr = some (true,a')
  | .poolCreate _ targetSize, a, a' => a' = fcPoolCreate a targetSize
  | .poolDestroy _ k, a, a' => a' = fcPoolDestroy a k
  | .regionCreate _ r, a, a' => ∃ sizes total, ∃ ha : Accepted a.pageSize sizes total,
      r.layout = Layout.ofSizes a.pageSize sizes total ha ∧
      a' = fcRegionCreate a r.pool sizes total ha r.fill r.base
  | .regionDestroy _ k rid, a, a' => fcRegionDestroy a k rid = some a'
  | _, a, a' => a' = a

variable {P : ℕ} {w w' : World} {t u : ThreadId} {p p' : Phase} {k : PoolId} {rid : RegionId} {addr q : ℕ}
  {l : Label}

theorem Inv.process (h : Inv P w) : ProcessInv (linear w) := reachable_inv ⟨P,_,h.reach⟩

theorem Inv.fitting (h : Inv P w) (hp : w.phase t = p) : Fits w.process p := hp ▸ h.fits t

theorem Inv.apartFrom (h : Inv P w) (hp : w.phase t = p) : ∀ u, u ≠ t → Apart p (w.phase u) :=
  fun u hut => hp ▸ h.alone t u (Ne.symm hut)

theorem linear_vm_limbo (hq : w.limbo q) : (linear w).vm q = .inaccessible := if_pos hq

theorem linear_vm_of (hq : ¬ w.limbo q) : (linear w).vm q = w.process.vm q := if_neg hq

/-- Only the fields of the records and the masked page table count. -/
theorem linear_eq {a : Process} (hpages : a.pageSize = w.process.pageSize) (hpools : a.pools = w.process.pools)
    (hpool : a.pool = w.process.pool) (hnext : a.nextPool = w.process.nextPool)
    (hregion : a.nextRegion = w.process.nextRegion) (hlimbo : ∀ q, w.limbo q → a.vm q = .inaccessible)
    (hvm : ∀ q, ¬ w.limbo q → a.vm q = w.process.vm q) : linear w = a := by
  have htable : (linear w).vm = a.vm := by
    funext q
    by_cases hq : w.limbo q
    · rw [linear_vm_limbo hq,hlimbo q hq]
    · rw [linear_vm_of hq,hvm q hq]
  cases a
  simp only [linear] at *
  simp only [Process.mk.injEq]
  exact ⟨hpages.symm,htable,hpools.symm,hpool.symm,hnext.symm,hregion.symm⟩

theorem limbo_update (hphase : w'.phase = Function.update w.phase t p') :
    w'.limbo q ↔ p'.limbo q ∨ ∃ u, u ≠ t ∧ (w.phase u).limbo q := by
  constructor
  · rintro ⟨u,hu⟩
    rw [hphase] at hu
    by_cases hut : u = t
    · subst hut
      rw [Function.update_self] at hu
      exact Or.inl hu
    · rw [Function.update_of_ne hut] at hu
      exact Or.inr ⟨u,hut,hu⟩
  · rintro (ht | ⟨u,hut,hu⟩)
    · refine ⟨t,?_⟩
      rw [hphase,Function.update_self]
      exact ht
    · refine ⟨u,?_⟩
      rw [hphase,Function.update_of_ne hut]
      exact hu

theorem limbo_split (hp : w.phase t = p) : w.limbo q ↔ p.limbo q ∨ ∃ u, u ≠ t ∧ (w.phase u).limbo q := by
  refine limbo_update (t := t) ?_
  rw [← hp]
  exact (Function.update_eq_self t w.phase).symm

section Phases
variable (hphase : w'.phase = Function.update w.phase t p')
include hphase

theorem fits_update (hother : ∀ u, u ≠ t → Fits w'.process (w.phase u)) (ht : Fits w'.process p') :
    ∀ u, Fits w'.process (w'.phase u) := by
  intro u
  rw [hphase]
  by_cases hut : u = t
  · subst hut
    rwa [Function.update_self]
  · rw [Function.update_of_ne hut]
    exact hother u hut

theorem alone_update (h : ∀ t u, t ≠ u → Apart (w.phase t) (w.phase u))
    (ht : ∀ u, u ≠ t → Apart p' (w.phase u)) : ∀ x u, x ≠ u → Apart (w'.phase x) (w'.phase u) := by
  intro x u hxu
  rw [hphase]
  by_cases hx : x = t
  · subst hx
    rw [Function.update_self,Function.update_of_ne (Ne.symm hxu)]
    exact ht u (Ne.symm hxu)
  · rw [Function.update_of_ne hx]
    by_cases hu : u = t
    · subst hu
      rw [Function.update_self]
      exact (ht x hxu).symm
    · rw [Function.update_of_ne hu]
      exact h x u hxu

theorem pools_update (h : ∀ u, w.poolsLock = some u ↔ (w.phase u).holdsPools = true)
    (hother : ∀ u, u ≠ t → (w'.poolsLock = some u ↔ w.poolsLock = some u))
    (ht : w'.poolsLock = some t ↔ p'.holdsPools = true) :
    ∀ u, w'.poolsLock = some u ↔ (w'.phase u).holdsPools = true := by
  intro u
  rw [hphase]
  by_cases hut : u = t
  · subst hut
    rwa [Function.update_self]
  · rw [Function.update_of_ne hut,← h u]
    exact hother u hut

theorem pool_update (h : ∀ k u, w.poolLock k = some u ↔ (w.phase u).holdsPool = some k)
    (hother : ∀ k u, u ≠ t → (w'.poolLock k = some u ↔ w.poolLock k = some u))
    (ht : ∀ k, w'.poolLock k = some t ↔ p'.holdsPool = some k) :
    ∀ k u, w'.poolLock k = some u ↔ (w'.phase u).holdsPool = some k := by
  intro k u
  rw [hphase]
  by_cases hut : u = t
  · subst hut
    rw [Function.update_self]
    exact ht k
  · rw [Function.update_of_ne hut,← h k u]
    exact hother k u hut

end Phases

/-- What a phase takes for granted, after a move of another thread. -/
structure Serves (pr pr' : Process) (p : Phase) : Prop where
  size : pr'.pageSize = pr.pageSize
  next : pr.nextPool ≤ pr'.nextPool
  suffix : p.holdsPools = true → ∀ ks, ks <:+ pr.pools → ks <:+ pr'.pools
  named : ∀ k, p.works = some k ∨ p.destroys = some k ∨ p.holdsPool = some k → k ∈ pr.pools → k ∈ pr'.pools
  gone : ∀ k, p.destroys = some k → k < pr.nextPool → k ∉ pr.pools → k ∉ pr'.pools
  closed : ∀ k rid, p.closes = some (k,rid) → k ∈ pr.pools → rid ∈ (pr.pool k).regions →
    rid ∈ (pr'.pool k).regions
  fresh : ∀ q, p.limbo q → pr'.vm q = pr.vm q ∨ pr'.vm q = .inaccessible

theorem Serves.fits {pr pr' : Process} (hs : Serves pr pr' p) (h : Fits pr p) : Fits pr' p := by
  have hfresh : ∀ r : NewRegion, (∀ q, p.limbo q ↔ InRange r.record q) →
      (∀ q, InRange r.record q → pr.vm q = .inaccessible) →
      ∀ q, InRange r.record q → pr'.vm q = .inaccessible :=
    fun r hr hq q hin => (hs.fresh q ((hr q).mpr hin)).elim (fun he => he.trans (hq q hin)) id
  cases p with
  | idle => trivial
  | faulted => trivial
  | found => trivial
  | making => trivial
  | linking => trivial
  | linked => trivial
  | releasing => trivial
  | searching addr ks => exact hs.suffix rfl _ h
  | inPool addr k ks => exact hs.suffix rfl _ h
  | resolved addr k => exact hs.named k (Or.inr (Or.inr rfl)) h
  | inserted k => exact hs.named k (Or.inl rfl) h
  | forgotten k r => exact hs.named k (Or.inl rfl) h
  | dying k => exact hs.named k (Or.inr (Or.inl rfl)) h
  | unlinking k => exact hs.named k (Or.inr (Or.inl rfl)) h
  | unlinked k rs => exact ⟨h.1.trans_le hs.next,hs.gone k rfl h.1 h.2⟩
  | freeing k rs => exact ⟨h.1.trans_le hs.next,hs.gone k rfl h.1 h.2⟩
  | closing k rid => exact ⟨hs.named k (Or.inl rfl) h.1,hs.closed k rid rfl h.1 h.2⟩
  | forgetting k rid => exact ⟨hs.named k (Or.inl rfl) h.1,hs.closed k rid rfl h.1 h.2⟩
  | reserved r =>
    obtain ⟨h1,h2,h3,h4,h5⟩ := h
    exact ⟨hs.named r.pool (Or.inl rfl) h1,by rwa [hs.size],by rwa [hs.size],h4,
      hfresh r (fun _ => Iff.rfl) h5⟩
  | inserting r =>
    obtain ⟨h1,h2,h3,h4,h5⟩ := h
    exact ⟨hs.named r.pool (Or.inl rfl) h1,by rwa [hs.size],by rwa [hs.size],h4,
      hfresh r (fun _ => Iff.rfl) h5⟩

/-- A change of the page table alone. -/
theorem serves_vm {pr : Process} {vm' : PageTable} (hvm : ∀ q, vm' q = pr.vm q ∨ vm' q = .inaccessible) :
    Serves pr { pr with vm := vm' } p :=
  ⟨rfl,le_refl _,fun _ _ => id,fun _ _ => id,fun _ _ _ => id,fun _ _ _ _ => id,fun q _ => hvm q⟩

/-- A move that leaves the records alone and clears pages that are nobody's. -/
theorem Inv.still {vm' : PageTable} (h : Inv P w) (hp : w.phase t = p)
    (hphase : w'.phase = Function.update w.phase t p') (hpr : w'.process = { w.process with vm := vm' })
    (hvm : ∀ q, vm' q = w.process.vm q ∨ vm' q = .inaccessible)
    (hkeep : ∀ q, ¬ p.limbo q → ¬ p'.limbo q → vm' q = w.process.vm q)
    (hdrop : ∀ q, p.limbo q → ¬ p'.limbo q → vm' q = .inaccessible)
    (htake : ∀ q, p'.limbo q → p.limbo q ∨ ¬ w.limbo q ∧ ¬ Ours w.process q)
    (ha : ∀ u, u ≠ t → Apart p' (w.phase u)) (hf : Fits w'.process p')
    (hpools : ∀ u, w'.poolsLock = some u ↔ (w'.phase u).holdsPools = true)
    (hpool : ∀ k u, w'.poolLock k = some u ↔ (w'.phase u).holdsPool = some k) :
    Inv P w' ∧ linear w' = linear w := by
  have hnew := fun q => limbo_update (q := q) hphase
  have hold := fun q => limbo_split (q := q) hp
  have hours : ∀ q, Ours w'.process q ↔ Ours w.process q := by
    intro q
    rw [hpr]
    exact Iff.rfl
  have hvm' : ∀ q, w'.process.vm q = vm' q := fun q => by rw [hpr]
  -- A page that is not in limbo shows what the masked table showed.
  have hclear : ∀ q, ¬ w'.limbo q → (linear w).vm q = w'.process.vm q := by
    intro q hq
    obtain ⟨hq₁,hq₂⟩ := not_or.mp ((hnew q).not.mp hq)
    rw [hvm']
    by_cases hlp : p.limbo q
    · rw [linear_vm_limbo ((hold q).mpr (Or.inl hlp)),hdrop q hlp hq₁]
    · rw [hkeep q hlp hq₁]
      exact linear_vm_of (fun hc => ((hold q).mp hc).elim hlp hq₂)
  have hlimbo : ∀ q, w'.limbo q → (linear w).vm q = .inaccessible ∧ ¬ Ours w.process q := by
    intro q hq
    by_cases hlw : w.limbo q
    · exact ⟨linear_vm_limbo hlw,h.apart q hlw⟩
    · have htaken : ¬ w.limbo q ∧ ¬ Ours w.process q := by
        rcases (hnew q).mp hq with ht | hu
        · exact (htake q ht).resolve_left (fun hc => hlw ((hold q).mpr (Or.inl hc)))
        · exact absurd ((hold q).mpr (Or.inr hu)) hlw
      rw [linear_vm_of htaken.1]
      exact ⟨h.blank q htaken.1 htaken.2,htaken.2⟩
  have hlin : linear w' = linear w := by
    refine linear_eq ?_ ?_ ?_ ?_ ?_ (fun q hq => (hlimbo q hq).1) hclear
    all_goals
      rw [hpr]
      rfl
  refine ⟨⟨hlin.symm ▸ h.reach,?_,?_,?_,hpools,hpool,?_,?_⟩,hlin⟩
  · rw [hpr]
    exact h.size
  · intro q hq ho
    rw [← hclear q hq]
    by_cases hlw : w.limbo q
    · exact linear_vm_limbo hlw
    · rw [linear_vm_of hlw]
      exact h.blank q hlw ((hours q).not.mp ho)
  · exact fun q hq => (hours q).not.mpr (hlimbo q hq).2
  · refine fits_update hphase (fun u _ => ?_) hf
    rw [hpr]
    exact (serves_vm hvm).fits (h.fits u)
  · exact alone_update hphase h.alone ha

/-- A thread goes on to a phase that claims no more. -/
theorem Inv.turn (h : Inv P w) (hp : w.phase t = p) (hphase : w'.phase = Function.update w.phase t p')
    (hpr : w'.process = w.process) (hc : Claims p p') (hl : ∀ q, p.limbo q → p'.limbo q)
    (hf : Fits w.process p') (hpools : ∀ u, w'.poolsLock = some u ↔ (w'.phase u).holdsPools = true)
    (hpool : ∀ k u, w'.poolLock k = some u ↔ (w'.phase u).holdsPool = some k) :
    Inv P w' ∧ linear w' = linear w := by
  refine h.still hp hphase hpr (fun _ => Or.inl rfl) (fun _ _ _ => rfl)
    (fun q hq hq' => absurd (hl q hq) hq') (fun q hq => Or.inl (hc.limbo q hq)) ?_ (hpr.symm ▸ hf) hpools hpool
  exact fun u hut => hc.apart (h.apartFrom hp u hut)

/-- A thread goes on to a phase that claims the same. -/
theorem Inv.advance (h : Inv P w) (hp : w.phase t = p) (hphase : w'.phase = Function.update w.phase t p')
    (hpr : w'.process = w.process) (hs : p'.works = p.works ∧ p'.destroys = p.destroys ∧ p'.closes = p.closes)
    (hl : p'.limbo = p.limbo) (hf : Fits w.process p')
    (hpools : ∀ u, w'.poolsLock = some u ↔ (w'.phase u).holdsPools = true)
    (hpool : ∀ k u, w'.poolLock k = some u ↔ (w'.phase u).holdsPool = some k) :
    Inv P w' ∧ linear w' = linear w := by
  obtain ⟨hw,hd,hc⟩ := hs
  refine h.turn hp hphase hpr ⟨?_,?_,?_,?_⟩ ?_ hf hpools hpool
  · exact fun k hk => hw ▸ hk
  · exact fun k hk => hd ▸ hk
  · exact fun x hx => hc ▸ hx
  · exact fun q hq => hl ▸ hq
  · exact fun q hq => hl ▸ hq

section Locks
variable (h : Inv P w) (hp : w.phase t = p)
include h hp

/-- The locks stay as they are. -/
theorem pools_same (hphase : w'.phase = Function.update w.phase t p') (hs : p'.holdsPools = p.holdsPools)
    (hl : w'.poolsLock = w.poolsLock) : ∀ u, w'.poolsLock = some u ↔ (w'.phase u).holdsPools = true := by
  refine pools_update hphase h.pools (fun _ _ => by rw [hl]) ?_
  rw [hl,h.pools t,hp,hs]

theorem pool_same (hphase : w'.phase = Function.update w.phase t p') (hs : p'.holdsPool = p.holdsPool)
    (hl : w'.poolLock = w.poolLock) : ∀ k u, w'.poolLock k = some u ↔ (w'.phase u).holdsPool = some k := by
  refine pool_update hphase h.pool (fun _ _ _ => by rw [hl]) (fun k => ?_)
  rw [hl,h.pool k t,hp,hs]

omit hp in
theorem pools_take (hphase : w'.phase = Function.update w.phase t p') (hs : p'.holdsPools = true)
    (hfree : w.poolsLock = none) (hl : w'.poolsLock = some t) :
    ∀ u, w'.poolsLock = some u ↔ (w'.phase u).holdsPools = true := by
  refine pools_update hphase h.pools (fun u hut => ?_) ?_
  · rw [hl,hfree]
    exact iff_of_false (fun hc => hut (Option.some.inj hc).symm) (fun hc => by cases hc)
  · rw [hl,hs]
    exact iff_of_true rfl rfl

theorem pools_drop (hphase : w'.phase = Function.update w.phase t p') (hs : p.holdsPools = true)
    (hs' : p'.holdsPools = false) (hl : w'.poolsLock = none) :
    ∀ u, w'.poolsLock = some u ↔ (w'.phase u).holdsPools = true := by
  have hmine : w.poolsLock = some t := (h.pools t).mpr (hp ▸ hs)
  refine pools_update hphase h.pools (fun u hut => ?_) ?_
  · rw [hl,hmine]
    exact iff_of_false (fun hc => by cases hc) (fun hc => hut (Option.some.inj hc).symm)
  · rw [hl,hs']
    exact iff_of_false (fun hc => by cases hc) Bool.false_ne_true

theorem pool_take (hphase : w'.phase = Function.update w.phase t p') (hn : p.holdsPool = none)
    (hs : p'.holdsPool = some k) (hfree : w.poolLock k = none)
    (hl : w'.poolLock = Function.update w.poolLock k (some t)) :
    ∀ j u, w'.poolLock j = some u ↔ (w'.phase u).holdsPool = some j := by
  refine pool_update hphase h.pool (fun j u hut => ?_) (fun j => ?_)
  · rw [hl]
    by_cases hjk : j = k
    · subst hjk
      rw [Function.update_self,hfree]
      exact iff_of_false (fun hc => hut (Option.some.inj hc).symm) (fun hc => by cases hc)
    · rw [Function.update_of_ne hjk]
  · rw [hl,hs]
    by_cases hjk : j = k
    · subst hjk
      rw [Function.update_self]
      exact iff_of_true rfl rfl
    · rw [Function.update_of_ne hjk,h.pool j t,hp,hn]
      exact iff_of_false (fun hc => by cases hc) (fun hc => hjk (Option.some.inj hc).symm)

theorem pool_drop (hphase : w'.phase = Function.update w.phase t p') (hs : p.holdsPool = some k)
    (hn : p'.holdsPool = none) (hl : w'.poolLock = Function.update w.poolLock k none) :
    ∀ j u, w'.poolLock j = some u ↔ (w'.phase u).holdsPool = some j := by
  have hmine : w.poolLock k = some t := (h.pool k t).mpr (hp ▸ hs)
  refine pool_update hphase h.pool (fun j u hut => ?_) (fun j => ?_)
  · rw [hl]
    by_cases hjk : j = k
    · subst hjk
      rw [Function.update_self,hmine]
      exact iff_of_false (fun hc => by cases hc) (fun hc => hut (Option.some.inj hc).symm)
    · rw [Function.update_of_ne hjk]
  · rw [hl,hn]
    by_cases hjk : j = k
    · subst hjk
      rw [Function.update_self]
      exact iff_of_false (fun hc => by cases hc) (fun hc => by cases hc)
    · rw [Function.update_of_ne hjk,h.pool j t,hp,hs]
      exact iff_of_false (fun hc => hjk (Option.some.inj hc).symm) (fun hc => by cases hc)

end Locks

/-- A move that changes the records, and no page that is nobody's. -/
theorem Inv.records (h : Inv P w) (hphase : w'.phase = Function.update w.phase t p')
    (hsize : w'.process.pageSize = w.process.pageSize) (hstep : Step (linear w) (linear w'))
    (hclaimed : ∀ q, w'.limbo q ∨ Ours w'.process q ↔ w.limbo q ∨ Ours w.process q)
    (hvm : ∀ q, ¬ w.limbo q → ¬ Ours w.process q → w'.process.vm q = w.process.vm q)
    (hapart : ∀ q, w'.limbo q → ¬ Ours w'.process q)
    (hserves : ∀ u, u ≠ t → Serves w.process w'.process (w.phase u)) (hf : Fits w'.process p')
    (ha : ∀ u, u ≠ t → Apart p' (w.phase u))
    (hpools : ∀ u, w'.poolsLock = some u ↔ (w'.phase u).holdsPools = true)
    (hpool : ∀ k u, w'.poolLock k = some u ↔ (w'.phase u).holdsPool = some k) : Inv P w' := by
  refine ⟨h.reach.tail hstep,hsize.trans h.size,?_,hapart,hpools,hpool,?_,alone_update hphase h.alone ha⟩
  · intro q hq ho
    obtain ⟨hq₁,ho₁⟩ := not_or.mp ((hclaimed q).not.mp (not_or.mpr ⟨hq,ho⟩))
    rw [hvm q hq₁ ho₁]
    exact h.blank q hq₁ ho₁
  · exact fits_update hphase (fun u hut => (hserves u hut).fits (h.fits u)) hf

theorem limbo_same (hp : w.phase t = p) (hphase : w'.phase = Function.update w.phase t p')
    (hs : p'.limbo q ↔ p.limbo q) : w'.limbo q ↔ w.limbo q := by
  rw [limbo_update hphase,limbo_split hp,hs]

/-- Only one thread is in the list of pools. -/
theorem Inv.only (h : Inv P w) (hp : w.phase t = p) (ht : p.holdsPools = true) (hut : u ≠ t) :
    (w.phase u).holdsPools = false := by
  have hmine : w.poolsLock = some t := (h.pools t).mpr (hp ▸ ht)
  rw [Bool.eq_false_iff]
  intro hu
  exact hut (Option.some.inj (((h.pools u).mpr hu).symm.trans hmine))

theorem lock_named (h : p.holdsPool = some k) : p.works = some k ∨ p.holdsPools = true := by
  cases p <;> first | exact Or.inl h | exact Or.inr rfl | cases h

/-- The addresses of a live region are the region's. -/
theorem ours_of {pr : Process} (hk : k ∈ pr.pools) (hr : rid ∈ (pr.pool k).regions)
    (hin : InRange ((pr.pool k).region rid) q) : Ours pr q := ⟨k,hk,rid,hr,hin⟩

theorem Inv.link {targetSize : ℕ} (h : Inv P w) (hp : w.phase t = .linking targetSize) :
    let w' := (w.withProcess (fcPoolCreate w.process targetSize)).go t .linked
    Inv P w' ∧ linear w' = fcPoolCreate (linear w) targetSize := by
  intro w'
  have hphase : w'.phase = Function.update w.phase t .linked := rfl
  have hlimbo : ∀ q, w'.limbo q ↔ w.limbo q := fun q => limbo_same hp hphase Iff.rfl
  have hfresh : w.process.nextPool ∉ w.process.pools :=
    fun hm => absurd (h.process.freshPool _ hm) (lt_irrefl _)
  have hours : ∀ q, Ours w'.process q ↔ Ours w.process q := fun q => VmProcess.ours_poolCreate hfresh
  have hlin : linear w' = fcPoolCreate (linear w) targetSize :=
    linear_eq rfl rfl rfl rfl rfl (fun q hq => linear_vm_limbo ((hlimbo q).mp hq))
      (fun q hq => linear_vm_of ((hlimbo q).not.mp hq))
  refine ⟨h.records hphase rfl ?_ ?_ (fun _ _ _ => rfl) ?_ ?_ trivial ?_ (pools_same h hp hphase rfl rfl)
    (pool_same h hp hphase rfl rfl),hlin⟩
  · rw [hlin]
    exact .poolCreate _ targetSize
  · exact fun q => or_congr (hlimbo q) (hours q)
  · exact fun q hq => (hours q).not.mpr (h.apart q ((hlimbo q).mp hq))
  · intro u _
    refine ⟨rfl,Nat.le_succ _,fun _ ks hks => hks.trans (List.suffix_cons _ _),
      fun _ _ hk => List.mem_cons_of_mem _ hk,?_,?_,fun _ _ => Or.inl rfl⟩
    · exact fun k _ hlt hno => List.not_mem_cons_of_ne_of_not_mem (Nat.ne_of_lt hlt) hno
    · intro k rid _ hk hr
      have hne : k ≠ w.process.nextPool := by
        rintro rfl
        exact hfresh hk
      have hkeep : w'.process.pool k = w.process.pool k := Function.update_of_ne hne _ _
      rwa [hkeep]
  · have hc : Claims (.linking targetSize) .linked := ⟨fun _ => id,fun _ => id,fun _ => id,fun _ => id⟩
    exact fun u hut => hc.apart (h.apartFrom hp u hut)

theorem regionFree_in {vm : PageTable} {r : Region} (h : InRange r q) : regionFree vm r q = .inaccessible :=
  if_pos h

theorem free_all_in (p : Pool) (rs : List RegionId) (vm : PageTable) (h : ∃ r ∈ rs, InRange (p.region r) q) :
    rs.foldl (fun vm r => regionFree vm (p.region r)) vm q = .inaccessible := by
  induction rs generalizing vm with
  | nil =>
    obtain ⟨r,hr,-⟩ := h
    cases hr
  | cons r rs ih =>
    rw [List.foldl_cons]
    by_cases hlater : ∃ x ∈ rs, InRange (p.region x) q
    · exact ih _ hlater
    · have hno : ∀ x ∈ rs, ¬ InRange (p.region x) q := fun x hx hin => hlater ⟨x,hx,hin⟩
      rw [free_all_out p rs _ q hno]
      obtain ⟨x,hx,hin⟩ := h
      rcases List.mem_cons.mp hx with rfl | hx
      · exact regionFree_in hin
      · exact absurd hin (hno x hx)

theorem Inv.unlink (h : Inv P w) (hp : w.phase t = .unlinking k) :
    let w' := (w.withProcess (unlinkPool w.process k)).go t
      (.unlinked k ((w.process.pool k).regions.map (w.process.pool k).region))
    Inv P w' ∧ linear w' = fcPoolDestroy (linear w) k := by
  intro w'
  have hk : k ∈ w.process.pools := h.fitting hp
  have hphase : w'.phase = Function.update w.phase t
      (.unlinked k ((w.process.pool k).regions.map (w.process.pool k).region)) := rfl
  have hmem : ∀ j, j ∈ w'.process.pools ↔ j ≠ k ∧ j ∈ w.process.pools :=
    fun j => h.process.distinct.mem_erase_iff
  have hdead : ∀ q, (∃ r ∈ (w.process.pool k).regions.map (w.process.pool k).region, InRange r q) ↔
      ∃ rid ∈ (w.process.pool k).regions, InRange ((w.process.pool k).region rid) q := by
    intro q
    simp only [List.mem_map,exists_exists_and_eq_and]
  have hnew : ∀ q, w'.limbo q ↔
      (∃ rid ∈ (w.process.pool k).regions, InRange ((w.process.pool k).region rid) q) ∨ w.limbo q := by
    intro q
    rw [limbo_update hphase,limbo_split hp]
    exact or_congr (hdead q) (false_or _).to_iff.symm
  have hours : ∀ q, Ours w'.process q ↔ Ours w.process q ∧
      ∀ rid ∈ (w.process.pool k).regions, ¬ InRange ((w.process.pool k).region rid) q := by
    intro q
    have hlinear : Ours (linear w') q ↔ Ours (linear w) q ∧
        ∀ rid ∈ ((linear w).pool k).regions, ¬ InRange (((linear w).pool k).region rid) q :=
      VmProcess.ours_erase h.process hk rfl rfl
    exact hlinear
  have hlin : linear w' = fcPoolDestroy (linear w) k := by
    refine linear_eq rfl rfl rfl rfl rfl (fun q hq => ?_) (fun q hq => ?_)
    · by_cases hin : ∃ rid ∈ (w.process.pool k).regions, InRange ((w.process.pool k).region rid) q
      · exact free_all_in _ _ _ hin
      · exact (free_all_out _ _ _ q (fun rid hr hc => hin ⟨rid,hr,hc⟩)).trans
          (linear_vm_limbo (((hnew q).mp hq).resolve_left hin))
    · obtain ⟨hin,hold⟩ := not_or.mp ((hnew q).not.mp hq)
      exact (free_all_out _ _ _ q (fun rid hr hc => hin ⟨rid,hr,hc⟩)).trans (linear_vm_of hold)
  refine ⟨h.records hphase rfl ?_ ?_ (fun _ _ _ => rfl) ?_ ?_ ?_ ?_ (pools_same h hp hphase rfl rfl)
    (pool_same h hp hphase rfl rfl),hlin⟩
  · rw [hlin]
    exact .poolDestroy _ k hk
  · intro q
    rw [hnew,hours]
    constructor
    · rintro ((⟨rid,hr,hin⟩ | hl) | ⟨ho,-⟩)
      · exact Or.inr (ours_of hk hr hin)
      · exact Or.inl hl
      · exact Or.inr ho
    · rintro (hl | ho)
      · exact Or.inl (Or.inr hl)
      · by_cases hin : ∃ rid ∈ (w.process.pool k).regions, InRange ((w.process.pool k).region rid) q
        · exact Or.inl (Or.inl hin)
        · exact Or.inr ⟨ho,fun rid hr hc => hin ⟨rid,hr,hc⟩⟩
  · intro q hq ho
    obtain ⟨ho,hno⟩ := (hours q).mp ho
    rcases (hnew q).mp hq with ⟨rid,hr,hin⟩ | hl
    · exact hno rid hr hin
    · exact h.apart q hl ho
  · -- Nobody else is in the list, and nobody works on this pool.
    intro u hut
    have hout : (w.phase u).holdsPools = false := h.only hp rfl hut
    have hapart : Apart (w.phase t) (w.phase u) := h.alone t u (Ne.symm hut)
    have hdes : (w.phase t).destroys = some k := by rw [hp]; rfl
    refine ⟨rfl,le_refl _,fun hin => ?_,?_,fun j _ _ hno hm => hno ((hmem j).mp hm).2,fun _ _ _ _ => id,
      fun _ _ => Or.inl rfl⟩
    · rw [hout] at hin
      cases hin
    · intro j hj hjm
      have hworks : (w.phase u).works ≠ some k := hapart.destroyed k hdes
      refine (hmem j).mpr ⟨?_,hjm⟩
      rintro rfl
      rcases hj with hj | hj | hj
      · exact hworks hj
      · exact hapart.destroys _ hdes hj
      · rcases lock_named hj with hj | hj
        · exact hworks hj
        · rw [hout] at hj
          cases hj
  · exact ⟨h.process.freshPool k hk,fun hm => ((hmem k).mp hm).1 rfl⟩
  · intro u hut
    have hapart : Apart (.unlinking k) (w.phase u) := h.apartFrom hp u hut
    refine ⟨hapart.works,hapart.destroyed,hapart.destroys,hapart.closes,?_⟩
    intro q hq hu
    obtain ⟨rid,hr,hin⟩ := (hdead q).mp hq
    exact h.apart q ⟨u,hu⟩ (ours_of hk hr hin)

theorem Inv.insert {r : NewRegion} (h : Inv P w) (hp : w.phase t = .inserting r) :
    let w' := (w.withProcess (insertRegion w.process r)).go t (.inserted r.pool)
    Inv P w' ∧ ∃ sizes total, ∃ ha : Accepted w.process.pageSize sizes total,
      r.layout = Layout.ofSizes w.process.pageSize sizes total ha ∧
      linear w' = fcRegionCreate (linear w) r.pool sizes total ha r.fill r.base := by
  intro w'
  obtain ⟨hk,⟨sizes,total,ha,hlayout⟩,haligned,hfits,hblank⟩ : Fits w.process (.inserting r) := h.fitting hp
  have hphase : w'.phase = Function.update w.phase t (.inserted r.pool) := rfl
  have hold : ∀ q, w.limbo q ↔ InRange r.record q ∨ ∃ u, u ≠ t ∧ (w.phase u).limbo q :=
    fun q => limbo_split hp
  have hnew : ∀ q, w'.limbo q ↔ ∃ u, u ≠ t ∧ (w.phase u).limbo q :=
    fun q => (limbo_update hphase).trans (false_or _).to_iff
  have hfresh : w.process.nextRegion ∉ (w.process.pool r.pool).regions :=
    fun hm => absurd (h.process.freshRegion r.pool hk _ hm) (lt_irrefl _)
  have hself : w'.process.pool r.pool =
      regionListInsert (w.process.pool r.pool) w.process.nextRegion r.record := Function.update_self _ _ _
  have hne : ∀ j, j ≠ r.pool → w'.process.pool j = w.process.pool j :=
    fun j hj => Function.update_of_ne hj _ _
  have hours : ∀ q, Ours w'.process q ↔ InRange r.record q ∨ Ours w.process q :=
    fun q => VmProcess.ours_insert hk hfresh rfl hself hne
  have hapart : ∀ u, u ≠ t → Apart (.inserting r) (w.phase u) := h.apartFrom hp
  have hrecord : regionInit (Layout.ofSizes w.process.pageSize sizes total ha) r.base r.fill = r.record := by
    rw [NewRegion.record,hlayout]
  have hsize : pageCeil total w.process.pageSize = r.layout.mappedSize := by
    rw [hlayout]
    rfl
  have hin : ∀ q, r.base ≤ q ∧ q < r.base+pageCeil total w.process.pageSize ↔ InRange r.record q := by
    intro q
    rw [hsize]
    exact Iff.rfl
  have hlin : linear w' = fcRegionCreate (linear w) r.pool sizes total ha r.fill r.base := by
    refine linear_eq rfl rfl ?_ rfl rfl (fun q hq => ?_) (fun q hq => ?_)
    · change Function.update w.process.pool r.pool (regionListInsert (w.process.pool r.pool)
        w.process.nextRegion (regionInit (Layout.ofSizes w.process.pageSize sizes total ha) r.base r.fill)) = _
      rw [hrecord]
      rfl
    · by_cases hqr : InRange r.record q
      · exact vmReserve_in ((hin q).mpr hqr)
      · exact (vmReserve_out ((hin q).not.mpr hqr)).trans
          (linear_vm_limbo ((hold q).mpr (Or.inr ((hnew q).mp hq))))
    · by_cases hqr : InRange r.record q
      · exact (vmReserve_in ((hin q).mpr hqr)).trans (hblank q hqr).symm
      · exact (vmReserve_out ((hin q).not.mpr hqr)).trans
          (linear_vm_of (fun hc => ((hold q).mp hc).elim hqr ((hnew q).not.mp hq)))
  refine ⟨h.records hphase rfl ?_ ?_ (fun _ _ _ => rfl) ?_ ?_ hk ?_ (pools_same h hp hphase rfl rfl)
    (pool_same h hp hphase rfl rfl),sizes,total,ha,hlayout,hlin⟩
  · rw [hlin]
    refine .regionCreate (linear w) r.pool sizes total r.fill r.base hk ha ⟨haligned,?_,?_⟩
    · change r.base+pageCeil total w.process.pageSize < 2^64
      rw [hsize]
      exact hfits
    · exact fun k hkm x hx q hq hc => h.apart q ((hold q).mpr (Or.inl ((hin q).mp hq))) (ours_of hkm hx hc)
  · intro q
    rw [hnew,hours,hold]
    exact or_left_comm.trans or_assoc.symm
  · rintro q hq ho
    obtain ⟨u,hut,hu⟩ := (hnew q).mp hq
    rcases (hours q).mp ho with hqr | ho
    · exact (hapart u hut).limbo q hqr hu
    · exact h.apart q ⟨u,hu⟩ ho
  · intro u _
    refine ⟨rfl,le_refl _,fun _ _ => id,fun _ _ => id,fun _ _ _ => id,?_,fun _ _ => Or.inl rfl⟩
    intro k rid _ _ hr
    by_cases hkr : k = r.pool
    · subst hkr
      rw [hself]
      exact List.mem_cons_of_mem _ hr
    · rwa [hne k hkr]
  · have hc : Claims (.inserting r) (.inserted r.pool) :=
      ⟨fun _ => id,fun _ => id,fun _ => id,fun _ hq => False.elim hq⟩
    exact fun u hut => hc.apart (hapart u hut)

theorem Inv.forget {pr : Process} (h : Inv P w) (hp : w.phase t = .forgetting k rid)
    (he : removeRegion w.process k rid = some pr) :
    let w' := (w.withProcess pr).go t (.forgotten k ((w.process.pool k).region rid))
    Inv P w' ∧ fcRegionDestroy (linear w) k rid = some (linear w') := by
  intro w'
  obtain ⟨hk,hr⟩ : Fits w.process (.forgetting k rid) := h.fitting hp
  obtain ⟨p₁,e,hf,hdestroy,-⟩ := destroy_spec h.process hk hr
  obtain ⟨p₂,e₂,rfl⟩ := Option.map_eq_some_iff.mp he
  obtain rfl := Option.some.inj (e.symm.trans e₂)
  set r := (w.process.pool k).region rid with hreg
  obtain ⟨hot,cold,hpool⟩ := h.process.pool k hk
  have hmem := mem_regionListRemove hf hpool.queue.distinct
  have hphase : w'.phase = Function.update w.phase t (.forgotten k r) := rfl
  have hself : w'.process.pool k = regionListRemove p₁ rid := Function.update_self _ _ _
  have hne : ∀ j, j ≠ k → w'.process.pool j = w.process.pool j := fun j hj => Function.update_of_ne hj _ _
  have hnew : ∀ q, w'.limbo q ↔ InRange r q ∨ w.limbo q := by
    intro q
    rw [limbo_update hphase,limbo_split hp]
    exact or_congr_right (false_or _).to_iff.symm
  have hours : ∀ q, Ours w'.process q ↔ Ours w.process q ∧ ¬ InRange r q := by
    intro q
    have hlinear : Ours (linear w') q ↔ Ours (linear w) q ∧ ¬ InRange (((linear w).pool k).region rid) q :=
      VmProcess.ours_remove h.process hk hr hf rfl hself hne
    exact hlinear
  have hlin : linear w' = withState (linear w) k ⟨regionListRemove p₁ rid,regionFree (linear w).vm r⟩ := by
    refine linear_eq rfl rfl rfl rfl rfl (fun q hq => ?_) (fun q hq => ?_)
    · by_cases hin : InRange r q
      · exact regionFree_in hin
      · exact (regionFree_out hin).trans (linear_vm_limbo (((hnew q).mp hq).resolve_left hin))
    · obtain ⟨hin,hold⟩ := not_or.mp ((hnew q).not.mp hq)
      exact (regionFree_out hin).trans (linear_vm_of hold)
  have hcall : fcRegionDestroy (linear w) k rid = some (linear w') := by
    rw [hlin]
    exact hdestroy
  refine ⟨h.records hphase rfl (.regionDestroy _ k rid _ hk hr hcall) ?_ (fun _ _ _ => rfl) ?_ ?_ hk ?_
    (pools_same h hp hphase rfl rfl) (pool_same h hp hphase rfl rfl),hcall⟩
  · intro q
    rw [hnew,hours]
    constructor
    · rintro ((hin | hl) | ⟨ho,-⟩)
      · exact Or.inr (ours_of hk hr hin)
      · exact Or.inl hl
      · exact Or.inr ho
    · rintro (hl | ho)
      · exact Or.inl (Or.inr hl)
      · by_cases hin : InRange r q
        · exact Or.inl (Or.inl hin)
        · exact Or.inr ⟨ho,hin⟩
  · intro q hq ho
    obtain ⟨ho,hno⟩ := (hours q).mp ho
    exact ((hnew q).mp hq).elim hno (fun hl => h.apart q hl ho)
  · intro u hut
    refine ⟨rfl,le_refl _,fun _ _ => id,fun _ _ => id,fun _ _ _ => id,?_,fun _ _ => Or.inl rfl⟩
    intro j x hc _ hx
    by_cases hjk : j = k
    · subst hjk
      have hxr : x ≠ rid := by
        rintro rfl
        have hclose : (w.phase t).closes = some (j,x) := by rw [hp]; rfl
        exact (h.alone t u (Ne.symm hut)).closes _ hclose hc
      rw [hself]
      exact (hmem x).mpr ⟨hxr,hx⟩
    · rwa [hne j hjk]
  · intro u hut
    have hapart : Apart (.forgetting k rid) (w.phase u) := h.apartFrom hp u hut
    refine ⟨hapart.works,hapart.destroyed,hapart.destroys,fun x hx => (by cases hx),?_⟩
    exact fun q hq hu => h.apart q ⟨u,hu⟩ (ours_of hk hr hq)

/-- The pages of a linked pool are never in limbo, so the real table shows them as well. -/
theorem Inv.actual (h : Inv P w) (hk : k ∈ w.process.pools) :
    ∃ hot cold, PoolInv ⟨w.process.pool k,w.process.vm⟩ hot cold := by
  obtain ⟨hot,cold,hlinear⟩ := h.process.pool k hk
  refine ⟨hot,cold,pool_outside hlinear (fun x hx q hq => (linear_vm_of ?_).symm)⟩
  exact fun hl => h.apart q hl (ours_of hk hx hq)

/-- What a resolved fault leaves alone. -/
theorem resolve_frame {pool : Pool} {vm : PageTable} {hot cold : List Node} {off : ℕ} {s : State}
    (h : PoolInv ⟨pool,vm⟩ hot cold) (hr : rid ∈ pool.regions) (hun : pageReadable pool rid off = false)
    (hs : resolveFaultLocked ⟨pool,vm⟩ rid off = some s) :
    s.pool.regions = pool.regions ∧ (∀ x, SameShape (pool.region x) (s.pool.region x)) ∧
      ∀ q, s.vm q ≠ vm q → ∃ x ∈ pool.regions, InRange (pool.region x) q := by
  obtain ⟨s₁,hot',cold',e,hreach,-⟩ := resolve_spec h hr hun
  obtain rfl := Option.some.inj (e.symm.trans hs)
  have hf := hreach.run.frame ⟨hot,cold,h⟩
  refine ⟨hf.regions,fun x => (hf.shape x).trans ?_,hf.pages⟩
  obtain ⟨y,hy⟩ := countHandled_region s₁ rid x
  rw [hy]
  exact ⟨rfl,rfl,rfl⟩

theorem Inv.resolve {ks : List PoolId} {s : State} (h : Inv P w) (hp : w.phase t = .inPool addr k ks)
    (hf : findRegionLocked (w.process.pool k) addr = some rid)
    (hu : pageReadable (w.process.pool k) rid (addr-((w.process.pool k).region rid).base) = false)
    (hs : resolveFaultLocked ⟨w.process.pool k,w.process.vm⟩ rid
      (addr-((w.process.pool k).region rid).base) = some s) :
    let w' := (w.withProcess (withState w.process k s)).go t (.resolved addr k)
    Inv P w' ∧ faultTryResolve (linear w) addr = some (true,linear w') := by
  intro w'
  have hsuffix : (k::ks) <:+ w.process.pools := h.fitting hp
  have hk : k ∈ w.process.pools := hsuffix.subset List.mem_cons_self
  obtain ⟨hr,hin⟩ := findRegionLocked_some hf
  have hphase : w'.phase = Function.update w.phase t (.resolved addr k) := rfl
  have hlimbo : ∀ q, w'.limbo q ↔ w.limbo q := fun q => limbo_same hp hphase Iff.rfl
  obtain ⟨hot,cold,hlinear⟩ := h.process.pool k hk
  obtain ⟨_,_,hactual⟩ := h.actual hk
  have hmine : ∀ x ∈ (w.process.pool k).regions, ∀ q, InRange ((w.process.pool k).region x) q →
      ¬ w.limbo q := fun x hx q hq hl => h.apart q hl (ours_of hk hx hq)
  obtain ⟨s₁,hs₁,-⟩ := resolve_inv h.process hk hr hu
  have halike : ∀ q, ¬ w.limbo q → Alike q s s₁ := by
    intro q hq
    have hstart : Alike q ⟨w.process.pool k,w.process.vm⟩ ⟨w.process.pool k,(linear w).vm⟩ :=
      ⟨rfl,linear_vm_of hq⟩
    have hrel := resolve_alike hstart rid (addr-((w.process.pool k).region rid).base)
    have hs₂ : resolveFaultLocked ⟨w.process.pool k,(linear w).vm⟩ rid
      (addr-((w.process.pool k).region rid).base) = some s₁ := hs₁
    rw [hs,hs₂] at hrel
    cases hrel with
    | some hrel => exact hrel
  have hpool : s₁.pool = s.pool := (halike addr (hmine rid hr addr hin)).pool
  obtain ⟨hregions,hshape,hpages⟩ := resolve_frame hactual hr hu hs
  obtain ⟨-,-,hpages₁⟩ := resolve_frame hlinear hr hu hs₁
  have hother : ∀ q, (∀ x ∈ (w.process.pool k).regions, ¬ InRange ((w.process.pool k).region x) q) →
      s.vm q = w.process.vm q := by
    intro q hq
    by_contra hc
    obtain ⟨x,hx,hqx⟩ := hpages q hc
    exact hq x hx hqx
  have hours : ∀ q, Ours w'.process q ↔ Ours w.process q := fun q => VmProcess.ours_replace hregions hshape
  have hlin : linear w' = withState (linear w) k s₁ := by
    refine linear_eq rfl rfl ?_ rfl rfl (fun q hq => ?_) (fun q hq => ?_)
    · change Function.update w.process.pool k s₁.pool = Function.update w.process.pool k s.pool
      rw [hpool]
    · by_contra hc
      have hq := (hlimbo q).mp hq
      obtain ⟨x,hx,hqx⟩ := hpages₁ q (fun he => hc (he.trans (linear_vm_limbo hq)))
      exact hmine x hx q hqx hq
    · exact (halike q ((hlimbo q).not.mp hq)).page
  have hfault : faultTryResolve (linear w) addr = some (true,linear w') := by
    rw [hlin]
    exact (faultScan_live h.process hk hr hin (linear w).pools (fun _ hj => hj)).2 hk hu s₁ hs₁
  refine ⟨h.records hphase rfl (.fault _ addr true _ hfault) ?_ ?_ ?_ ?_ hk ?_
    (pools_same h hp hphase rfl rfl) (pool_same h hp hphase rfl rfl),hfault⟩
  · exact fun q => or_congr (hlimbo q) (hours q)
  · exact fun q _ ho => hother q (fun x hx hq => ho (ours_of hk hx hq))
  · exact fun q hq => (hours q).not.mpr (h.apart q ((hlimbo q).mp hq))
  · intro u _
    refine ⟨rfl,le_refl _,fun _ _ => id,fun _ _ => id,fun _ _ _ => id,?_,fun q hq => Or.inl ?_⟩
    · intro j x _ _ hx
      by_cases hjk : j = k
      · subst hjk
        have hself : w'.process.pool j = s.pool := Function.update_self _ _ _
        rwa [hself,hregions]
      · have hkeep : w'.process.pool j = w.process.pool j := Function.update_of_ne hjk _ _
        rwa [hkeep]
    · exact hother q (fun x hx hqx => hmine x hx q hqx ⟨u,hq⟩)
  · have hc : Claims (.inPool addr k ks) (.resolved addr k) := ⟨fun _ => id,fun _ => id,fun _ => id,fun _ => id⟩
    exact fun u hut => hc.apart (h.apartFrom hp u hut)

theorem start_inv (P : ℕ) : Inv P (worldStart P) where
  reach := by
    have hlin : linear (worldStart P) = start P (fun _ => .inaccessible) := by
      refine linear_eq rfl rfl rfl rfl rfl (fun q hq => ?_) (fun _ _ => rfl)
      obtain ⟨u,hu⟩ := hq
      exact False.elim hu
    rw [hlin]
    exact Relation.ReflTransGen.refl
  size := rfl
  blank := fun _ _ _ => rfl
  apart := fun q hq => by
    obtain ⟨u,hu⟩ := hq
    exact False.elim hu
  pools := fun t => iff_of_false (fun hc => by cases hc) (fun hc => by cases hc)
  pool := fun k t => iff_of_false (fun hc => by cases hc) (fun hc => by cases hc)
  fits := fun _ => trivial
  alone := fun _ _ _ => ⟨fun _ hc => (by cases hc),fun _ hc => (by cases hc),fun _ hc => (by cases hc),
    fun _ hc => (by cases hc),fun _ hc => False.elim hc⟩

/-- Only the mover's phase changes. -/
theorem move_phase (hm : Move w l w') : ∃ p', w'.phase = Function.update w.phase l.thread p' := by
  cases hm <;> exact ⟨_,rfl⟩

/-- A thread that had claimed nothing names a pool or a region. -/
theorem Inv.name (h : Inv P w) (hp : w.phase t = .idle) (hphase : w'.phase = Function.update w.phase t p')
    (hpr : w'.process = w.process) (hlocks : w'.poolsLock = w.poolsLock ∧ w'.poolLock = w.poolLock)
    (hl : ∀ q, ¬ p'.limbo q) (hf : Fits w.process p') (hs : p'.holdsPools = false ∧ p'.holdsPool = none)
    (ha : ∀ u, u ≠ t → Apart p' (w.phase u)) : Inv P w' ∧ linear w' = linear w :=
  h.still hp hphase hpr (fun _ => Or.inl rfl) (fun _ _ _ => rfl)
    (fun _ hq => False.elim hq) (fun q hq => absurd hq (hl q)) ha (hpr.symm ▸ hf)
    (pools_same h hp hphase hs.1 hlocks.1) (pool_same h hp hphase hs.2 hlocks.2)

/-- Every move keeps what holds between the calls, and is atomic there. -/
theorem Inv.move (h : Inv P w) (hm : Move w l w') : Inv P w' ∧ Atomic l (linear w) (linear w') := by
  cases hm with
  | fault addr hp =>
    exact h.advance hp rfl rfl ⟨rfl,rfl,rfl⟩ rfl trivial
      (pools_same h hp rfl rfl rfl) (pool_same h hp rfl rfl rfl)
  | lockSearch hp hl =>
    exact h.advance hp rfl rfl ⟨rfl,rfl,rfl⟩ rfl List.suffix_rfl
      (pools_take h rfl rfl hl rfl) (pool_same h hp rfl rfl rfl)
  | lockPool hp hl =>
    have hfit := h.fitting hp
    exact h.advance hp rfl rfl ⟨rfl,rfl,rfl⟩ rfl hfit
      (pools_same h hp rfl rfl rfl) (pool_take h hp rfl rfl rfl hl rfl)
  | skip hp hq =>
    have hfit := h.fitting hp
    exact h.advance hp rfl rfl ⟨rfl,rfl,rfl⟩ rfl
      ((List.suffix_cons _ _).trans hfit) (pools_same h hp rfl rfl rfl) (pool_drop h hp rfl rfl rfl rfl)
  | resolve hp hf hu hs => exact h.resolve hp hf hu hs
  | leavePool hp =>
    exact h.advance hp rfl rfl ⟨rfl,rfl,rfl⟩ rfl trivial
      (pools_same h hp rfl rfl rfl) (pool_drop h hp rfl rfl rfl rfl)
  | answerTrue hp =>
    exact h.advance hp rfl rfl ⟨rfl,rfl,rfl⟩ rfl trivial
      (pools_drop h hp rfl rfl rfl rfl) (pool_same h hp rfl rfl rfl)
  | answerFalse hp =>
    exact h.advance hp rfl rfl ⟨rfl,rfl,rfl⟩ rfl trivial
      (pools_drop h hp rfl rfl rfl rfl) (pool_same h hp rfl rfl rfl)
  | make targetSize hp =>
    exact h.advance hp rfl rfl ⟨rfl,rfl,rfl⟩ rfl trivial
      (pools_same h hp rfl rfl rfl) (pool_same h hp rfl rfl rfl)
  | lockLink hp hl =>
    exact h.advance hp rfl rfl ⟨rfl,rfl,rfl⟩ rfl trivial
      (pools_take h rfl rfl hl rfl) (pool_same h hp rfl rfl rfl)
  | link hp => exact h.link hp
  | leaveLink hp =>
    exact h.advance hp rfl rfl ⟨rfl,rfl,rfl⟩ rfl trivial
      (pools_drop h hp rfl rfl rfl rfl) (pool_same h hp rfl rfl rfl)
  | die k hp hk ha =>
    refine h.name hp rfl rfl ⟨rfl,rfl⟩ (fun _ => id) hk ⟨rfl,rfl⟩ (fun u _ => ?_)
    refine ⟨fun _ hc => (by cases hc),?_,?_,fun _ hc => (by cases hc),fun _ hc => False.elim hc⟩
    · rintro j hj
      obtain rfl := Option.some.inj hj
      exact (ha u).1
    · rintro j hj
      obtain rfl := Option.some.inj hj
      exact (ha u).2
  | lockUnlink hp hl =>
    have hfit := h.fitting hp
    exact h.advance hp rfl rfl ⟨rfl,rfl,rfl⟩ rfl hfit
      (pools_take h rfl rfl hl rfl) (pool_same h hp rfl rfl rfl)
  | unlink hp => exact h.unlink hp
  | leaveUnlink hp =>
    have hfit := h.fitting hp
    exact h.advance hp rfl rfl ⟨rfl,rfl,rfl⟩ rfl hfit
      (pools_drop h hp rfl rfl rfl rfl) (pool_same h hp rfl rfl rfl)
  | @free t k r rs hp =>
    have hclaims : Claims (.freeing k (r::rs)) (.freeing k rs) :=
      ⟨fun _ => id,fun _ => id,fun _ => id,fun q ⟨x,hx,hq⟩ => ⟨x,List.mem_cons_of_mem r hx,hq⟩⟩
    refine h.still hp rfl rfl (fun q => ?_) (fun q hq _ => ?_) (fun q hq hq' => ?_)
      (fun q hq => Or.inl (hclaims.limbo q hq)) (fun u hut => hclaims.apart (h.apartFrom hp u hut))
      (h.fitting hp) (pools_same h hp rfl rfl rfl) (pool_same h hp rfl rfl rfl)
    · by_cases hin : InRange r q
      · exact Or.inr (regionFree_in hin)
      · exact Or.inl (regionFree_out hin)
    · exact regionFree_out (fun hin => hq ⟨r,List.mem_cons_self,hin⟩)
    · obtain ⟨x,hx,hin⟩ := hq
      rcases List.mem_cons.mp hx with rfl | hx
      · exact regionFree_in hin
      · exact absurd ⟨x,hx,hin⟩ hq'
  | freed hp =>
    exact h.turn hp rfl rfl ⟨fun _ hc => (by cases hc),fun _ hc => (by cases hc),fun _ hc => (by cases hc),
      fun _ hc => False.elim hc⟩ (fun q ⟨x,hx,_⟩ => (by cases hx)) trivial (pools_same h hp rfl rfl rfl)
      (pool_same h hp rfl rfl rfl)
  | reserve r hp hk hm hr ha =>
    have hvacant : ∀ q, InRange r.record q → ¬ w.limbo q ∧ ¬ Ours w.process q := by
      refine fun q hq => ⟨(hr.vacant q hq).1,?_⟩
      rintro ⟨j,hj,x,hx,hin⟩
      exact (hr.vacant q hq).2 j hj x hx hin
    refine h.still hp rfl rfl (fun q => ?_) (fun q _ hq => vmReserve_out hq) (fun q hq => False.elim hq)
      (fun q hq => Or.inr (hvacant q hq)) (fun u _ => ?_)
      ⟨hk,hm,hr.aligned,hr.fits,fun q hq => vmReserve_in hq⟩ (pools_same h hp rfl rfl rfl)
      (pool_same h hp rfl rfl rfl)
    · by_cases hin : InRange r.record q
      · exact Or.inr (vmReserve_in hin)
      · exact Or.inl (vmReserve_out hin)
    · refine ⟨?_,fun _ hc => (by cases hc),fun _ hc => (by cases hc),fun _ hc => (by cases hc),
        fun q hq hu => (hvacant q hq).1 ⟨u,hu⟩⟩
      rintro j hj
      obtain rfl := Option.some.inj hj
      exact ha u
  | lockInsert hp hl =>
    have hfit := h.fitting hp
    exact h.advance hp rfl rfl ⟨rfl,rfl,rfl⟩ rfl hfit
      (pools_same h hp rfl rfl rfl) (pool_take h hp rfl rfl rfl hl rfl)
  | insert hp =>
    obtain ⟨hinv,hcall⟩ := h.insert hp
    exact ⟨hinv,hcall⟩
  | leaveInsert hp =>
    exact h.turn hp rfl rfl ⟨fun _ hc => (by cases hc),fun _ => id,fun _ => id,fun _ => id⟩ (fun _ => id) trivial
      (pools_same h hp rfl rfl rfl) (pool_drop h hp rfl rfl rfl rfl)
  | close k rid hp hk hr ha =>
    refine h.name hp rfl rfl ⟨rfl,rfl⟩ (fun _ => id) ⟨hk,hr⟩ ⟨rfl,rfl⟩ (fun u _ => ?_)
    refine ⟨?_,fun _ hc => (by cases hc),fun _ hc => (by cases hc),?_,fun _ hc => False.elim hc⟩
    · rintro j hj
      obtain rfl := Option.some.inj hj
      exact (ha u).1
    · rintro x hx
      obtain rfl := Option.some.inj hx
      exact (ha u).2
  | lockForget hp hl =>
    have hfit := h.fitting hp
    exact h.advance hp rfl rfl ⟨rfl,rfl,rfl⟩ rfl hfit
      (pools_same h hp rfl rfl rfl) (pool_take h hp rfl rfl rfl hl rfl)
  | forget hp he => exact h.forget hp he
  | leaveForget hp =>
    exact h.turn hp rfl rfl ⟨fun _ hc => (by cases hc),fun _ => id,fun _ => id,fun _ => id⟩ (fun _ => id) trivial
      (pools_same h hp rfl rfl rfl) (pool_drop h hp rfl rfl rfl rfl)
  | @release t r hp =>
    have hclaims : Claims (.releasing r) .idle := ⟨fun _ => id,fun _ => id,fun _ => id,fun _ hc => False.elim hc⟩
    refine h.still hp rfl rfl (fun q => ?_) (fun q hq _ => regionFree_out hq) (fun q hq _ => regionFree_in hq)
      (fun q hq => False.elim hq) (fun u hut => hclaims.apart (h.apartFrom hp u hut)) trivial
      (pools_same h hp rfl rfl rfl) (pool_same h hp rfl rfl rfl)
    by_cases hin : InRange r q
    · exact Or.inr (regionFree_in hin)
    · exact Or.inl (regionFree_out hin)

theorem run_inv {ms : List (World × Label)} (hr : Run Move (worldStart P) ms w) : Inv P w :=
  (hr.invariant (start_inv P) (fun h hm => (h.move hm).1)).1

end FaultCache.PoolLinearization
