import FaultCache.LabelledRuns
import FaultCache.ProcessContract

/-!
# Faults in flight on several threads

A read of an unreadable page raises a fault, and the handler's call of
`fault_try_resolve` runs some time later, when the thread gets the lock. By
then other faults may have been resolved. Whether the call counts the fault as
its own depends on the page at that later moment.
-/

set_option autoImplicit false

namespace FaultCache.FaultThreads
open FaultCache.PageGeometry FaultCache.SharedPages FaultCache.VmPages FaultCache.PoolMachine
open FaultCache.PoolMemory FaultCache.PoolInvariant FaultCache.PoolResolve FaultCache.FaultProcess
open FaultCache.ProcessInvariant FaultCache.ProcessContract FaultCache.LabelledRuns

abbrev ThreadId := ℕ

/-- The page table's answer for the page that holds `addr`. -/
def readable (pr : Process) (addr : ℕ) : Bool := (pr.vm (pageFloor addr pr.pageSize)).isReadable

/-- `addr` is a byte of a live region. -/
def IsByte (pr : Process) (addr : ℕ) : Prop :=
  ∃ k ∈ pr.pools, ∃ rid ∈ (pr.pool k).regions, ((pr.pool k).region rid).base ≤ addr ∧
    addr < ((pr.pool k).region rid).base+((pr.pool k).region rid).layout.totalSize

/-- The process and, for each thread, the fault it has raised and not yet had
an answer for. -/
structure World where
  process : Process
  waiting : ThreadId → Option ℕ

inductive Label where
  | read (t : ThreadId) (addr : ℕ)
  | resolve (t : ThreadId) (addr : ℕ) (ours : Bool)
  | call

/-- One step of one thread. A region may not go away under a pending read. -/
inductive Move : World → Label → World → Prop
  | hit {w : World} {t : ThreadId} {addr : ℕ} (hw : w.waiting t = none) (hb : IsByte w.process addr)
      (hr : readable w.process addr = true) : Move w (.read t addr) w
  | raise {w : World} {t : ThreadId} {addr : ℕ} (hw : w.waiting t = none)
      (hb : IsByte w.process addr) (hr : readable w.process addr = false) :
      Move w (.read t addr) ⟨w.process,Function.update w.waiting t (some addr)⟩
  | resolve {w : World} {t : ThreadId} {addr : ℕ} {ours : Bool} {pr' : Process}
      (hw : w.waiting t = some addr) (h : faultTryResolve w.process addr = some (ours,pr')) :
      Move w (.resolve t addr ours) ⟨pr',Function.update w.waiting t none⟩
  | call {w : World} {pr' : Process} (h : Step w.process pr')
      (hlive : ∀ t addr, w.waiting t = some addr → IsByte pr' addr) :
      Move w .call ⟨pr',w.waiting⟩

def Initial (w : World) : Prop := ∃ pageSize vm, w = ⟨start pageSize vm,fun _ => none⟩

/-- Every `fault_try_resolve` call of the run claimed its fault. -/
def AllOurs (ms : List (World × Label)) : Prop :=
  ∀ w t addr ours, (w,.resolve t addr ours) ∈ ms → ours = true

/-- Every call of the run found the page still unreadable. -/
def AllUnreadable (ms : List (World × Label)) : Prop :=
  ∀ w t addr ours, (w,.resolve t addr ours) ∈ ms → readable w.process addr = false

theorem byte_inRange {r : Region} {addr : ℕ} (h : r.base ≤ addr ∧ addr < r.base+r.layout.totalSize) :
    InRange r addr := by
  have := r.layout.mapped_bounds.1
  exact ⟨h.1,by omega⟩

/-- `page_readable` and the page table agree at every address of a region. -/
theorem readable_eq {pr : Process} (h : ProcessInv pr) {k : PoolId} (hk : k ∈ pr.pools)
    {rid : RegionId} (hr : rid ∈ (pr.pool k).regions) {addr : ℕ}
    (hin : InRange ((pr.pool k).region rid) addr) :
    readable pr addr = pageReadable (pr.pool k) rid (addr-((pr.pool k).region rid).base) := by
  obtain ⟨hot,cold,hp⟩ := h.pool k hk
  obtain ⟨hP,hal,-⟩ := h.placed k hk rid hr
  set r := (pr.pool k).region rid with hrdef
  set off := pageFloor (addr-r.base) r.layout.pageSize with hoff
  have hle : off ≤ addr-r.base := pageFloor_le _ _
  have hlt := lt_pageFloor_add r.layout.pageSize_pos (addr-r.base)
  have hdvd : r.layout.pageSize ∣ off := dvd_pageFloor _ _
  obtain ⟨h1,h2⟩ := hin
  have hpage : pageFloor addr pr.pageSize = r.base+off := by
    rw [← hP]
    apply pageFloor_eq r.layout.pageSize_pos
    · exact Nat.dvd_add (by rw [hP]; exact hal) hdvd
    · omega
    · omega
  have hshown := (page_shown hp hr hdvd (by simp only [← hrdef]; omega)).1
  have hsame : pageReadable (pr.pool k) rid off = pageReadable (pr.pool k) rid (addr-r.base) := by
    simp only [pageReadable,← hrdef,pageFloor_aligned hdvd,← hoff]
  rw [readable,hpage,← hsame]
  exact Bool.eq_iff_iff.mpr hshown

/-- The call returns, and its answer is whether the page is unreadable now. -/
theorem resolve_answer {pr : Process} (h : ProcessInv pr) {addr : ℕ} (hb : IsByte pr addr) :
    ∃ pr', faultTryResolve pr addr = some (!readable pr addr,pr') := by
  obtain ⟨k,hk,rid,hr,hin⟩ := hb
  have hrange := byte_inRange hin
  obtain ⟨h1,h2⟩ := faultScan_live h hk hr hrange pr.pools (fun _ hj => hj)
  rw [readable_eq h hk hr hrange]
  cases hread : pageReadable (pr.pool k) rid (addr-((pr.pool k).region rid).base) with
  | true => exact ⟨pr,h1 (Or.inr hread)⟩
  | false =>
    obtain ⟨hot,cold,hp⟩ := h.pool k hk
    obtain ⟨s₁,hot',cold',hs,-⟩ := resolve_spec hp hr hread
    exact ⟨_,h2 hk hread _ hs⟩

/-- Resolving a fault keeps every region in its place. -/
theorem fault_keeps_bytes {pr pr' : Process} (h : ProcessInv pr) {addr : ℕ} {ours : Bool}
    (he : faultTryResolve pr addr = some (ours,pr')) {a : ℕ} (ha : IsByte pr a) : IsByte pr' a := by
  obtain ⟨k,hk,rid,hr,hin⟩ := ha
  have hsur := fault_survives h he hk hr
  have hpools : k ∈ pr'.pools ∧ rid ∈ (pr'.pool k).regions := by
    rcases faultScan_cases he with ⟨-,rfl⟩ | ⟨-,j,hj,x,s,hfind,hun,hs,rfl⟩
    · exact ⟨hk,hr⟩
    · refine ⟨hk,?_⟩
      by_cases hjk : k = j
      · subst hjk
        obtain ⟨hot,cold,hp⟩ := h.pool k hk
        obtain ⟨s₁,hot',cold',hs₁,hreach,-⟩ := resolve_spec hp (findRegionLocked_some hfind).1 hun
        obtain rfl := Option.some.inj (hs₁.symm.trans hs)
        rw [withState_pool_self]
        exact (hreach.regions.symm ▸ hr : rid ∈ s₁.pool.regions)
      · rwa [withState_pool_of_ne pr _ hjk]
  refine ⟨k,hpools.1,rid,hpools.2,?_⟩
  rw [hsur.shape.base,hsur.shape.layout]
  exact hin

structure WorldInv (w : World) : Prop where
  process : ProcessInv w.process
  waiting : ∀ t addr, w.waiting t = some addr → IsByte w.process addr

theorem move_inv {w w' : World} {l : Label} (h : WorldInv w) (hm : Move w l w') : WorldInv w' := by
  cases hm with
  | hit => exact h
  | @raise t addr hw hb hr =>
    refine ⟨h.process,?_⟩
    intro t' a ha
    by_cases ht : t' = t
    · subst ht
      simp only [Function.update_self,Option.some.injEq] at ha
      exact ha ▸ hb
    · simp only [Function.update_of_ne ht] at ha
      exact h.waiting t' a ha
  | @resolve t addr ours pr' hw he =>
    refine ⟨step_inv h.process (.fault _ _ _ _ he),?_⟩
    intro t' a ha
    apply fault_keeps_bytes h.process he
    by_cases ht : t' = t
    · subst ht
      simp at ha
    · simp only [Function.update_of_ne ht] at ha
      exact h.waiting t' a ha
  | call hs hlive => exact ⟨step_inv h.process hs,hlive⟩

theorem initial_inv {w : World} (h : Initial w) : WorldInv w := by
  obtain ⟨pageSize,vm,rfl⟩ := h
  refine ⟨start_inv pageSize vm,?_⟩
  intro t addr ht
  cases ht

/-- A `resolve` entry of a run was a call on a pending read. -/
theorem run_resolve {w₀ w v : World} {ms : List (World × Label)} (hr : Run Move w₀ ms w)
    {t : ThreadId} {addr : ℕ} {ours : Bool} (hm : (v,.resolve t addr ours) ∈ ms) :
    v.waiting t = some addr ∧ ∃ pr', faultTryResolve v.process addr = some (ours,pr') := by
  obtain ⟨v',hmove⟩ := hr.made hm
  cases hmove with
  | resolve hw hres => exact ⟨hw,_,hres⟩

/-- Over every run: all calls claim their faults exactly when each of them
finds its page still unreadable. A pending call always returns, and it claims
its fault exactly when the page is unreadable at that moment. -/
theorem reads_are_ours_iff {w₀ w : World} {ms : List (World × Label)} (h₀ : Initial w₀)
    (hr : Run Move w₀ ms w) :
    (AllOurs ms ↔ AllUnreadable ms) ∧
    ∀ t addr, w.waiting t = some addr →
      ∃ pr', faultTryResolve w.process addr = some (!readable w.process addr,pr') := by
  obtain ⟨hw,hms⟩ := hr.invariant (initial_inv h₀) move_inv
  have hanswer : ∀ v t addr ours, (v,.resolve t addr ours) ∈ ms → ours = !readable v.process addr := by
    intro v t addr ours hm
    obtain ⟨hwait,pr',he⟩ := run_resolve hr hm
    have hinv := hms _ hm
    obtain ⟨pr₂,he₂⟩ := resolve_answer hinv.process (hinv.waiting t addr hwait)
    exact (Prod.mk.inj (Option.some.inj (he.symm.trans he₂))).1
  refine ⟨⟨?_,?_⟩,fun t addr ht => resolve_answer hw.process (hw.waiting t addr ht)⟩
  · intro h v t addr ours hm
    have ho := h v t addr ours hm
    rw [hanswer v t addr ours hm] at ho
    simpa using ho
  · intro h v t addr ours hm
    rw [hanswer v t addr ours hm,h v t addr ours hm]
    rfl

/-- The sample process with no read in progress. -/
def sampleWorld : World := ⟨sample,fun _ => none⟩

def sampleStart : World := ⟨start 4 (fun _ => .inaccessible),fun _ => none⟩

theorem sample_byte : IsByte sample 20 := ⟨0,by decide,0,by decide,by decide⟩

theorem sample_run : ∃ ms, Run Move sampleStart ms sampleWorld ∧ ∀ m ∈ ms, m.2 = .call := by
  refine ⟨_,.move (.move .start (.call (.poolCreate _ 8) ?_)) (.call ?_ ?_),?_⟩
  · intro t addr ht
    cases ht
  · exact .regionCreate _ 0 [6,4] 10 _ 16 (by decide) sampleSizes
      ⟨by decide,by decide,by simp [fcPoolCreate,start,poolInit,sampleStart]⟩
  · intro t addr ht
    cases ht
  · simp

/-- Two threads read the same unreadable page before either fault is handled.
The second call finds the page readable and disowns the fault. -/
theorem second_reader_is_disowned :
    ¬ ∀ w₀ ms w, Initial w₀ → Run Move w₀ ms w → AllOurs ms := by
  intro hall
  obtain ⟨ms,hrun,-⟩ := sample_run
  have h0 : Run Move sampleStart _ _ := .move hrun (.raise (t := 0) rfl sample_byte (by decide))
  have h1 : Run Move sampleStart _ _ := .move h0 (.raise (t := 1) rfl sample_byte (by decide))
  have h2 : Run Move sampleStart _ _ := .move h1 (.resolve (t := 0) rfl sample_fault)
  -- The page is readable now, so the answer to the second fault is no.
  have hbyte := fault_keeps_bytes (reachable_inv sample_reachable) sample_fault sample_byte
  obtain ⟨pr',he⟩ := resolve_answer (reachable_inv sampleFaulted_reachable) hbyte
  rw [show readable sampleFaulted 20 = true by decide] at he
  have h3 : Run Move sampleStart _ _ := .move h2 (.resolve (t := 1) rfl he)
  have hbad := hall _ _ _ ⟨4,_,rfl⟩ h3 _ 1 20 false List.mem_cons_self
  cases hbad

/-- One thread faulting on the sample's shared page. -/
theorem reads_are_ours_iff_sample : ∃ ms w, Run Move sampleStart ms w ∧
    ((∃ v, (v,.resolve 0 20 true) ∈ ms) ∧ (AllOurs ms ↔ AllUnreadable ms)) := by
  obtain ⟨ms,hrun,-⟩ := sample_run
  have h0 : Run Move sampleStart _ _ := .move hrun (.raise (t := 0) rfl sample_byte (by decide))
  have h1 : Run Move sampleStart _ _ := .move h0 (.resolve (t := 0) rfl sample_fault)
  exact ⟨_,_,h1,⟨_,List.mem_cons_self⟩,(reads_are_ours_iff ⟨4,_,rfl⟩ h1).1⟩

/-- While a fault is pending, the only move is its own resolution. -/
def Serial (ms : List (World × Label)) : Prop :=
  ∀ v l, (v,l) ∈ ms → ∀ t addr, v.waiting t = some addr → ∃ ours, l = .resolve t addr ours

/-- One fault at a time, as in a single-threaded program, is always safe. -/
theorem serial_pending_unreadable {w₀ w : World} {ms : List (World × Label)} (h₀ : Initial w₀)
    (hr : Run Move w₀ ms w) (hs : Serial ms) :
    AllUnreadable ms ∧ ∀ t addr, w.waiting t = some addr → readable w.process addr = false := by
  induction hr with
  | start =>
    obtain ⟨pageSize,vm,rfl⟩ := h₀
    constructor
    · intro v t addr ours hm
      cases hm
    · intro t addr ht
      cases ht
  | @move ms w w' l hrun hm ih =>
    obtain ⟨ih1,ih2⟩ := ih (fun v l hv => hs v l (List.mem_cons_of_mem _ hv))
    have hnow := hs w l List.mem_cons_self
    constructor
    · intro v t addr ours hv
      rcases List.mem_cons.mp hv with he | hv
      · obtain ⟨rfl,rfl⟩ := Prod.mk.inj he
        exact ih2 t addr (run_resolve (.move hrun hm) List.mem_cons_self).1
      · exact ih1 v t addr ours hv
    · intro t addr ht
      cases hm with
      | hit hw hb hread =>
        obtain ⟨ours,ho⟩ := hnow t addr ht
        cases ho
      | @raise t' addr' hw hb hread =>
        by_cases htt : t = t'
        · subst htt
          simp only [Function.update_self,Option.some.injEq] at ht
          exact ht ▸ hread
        · simp only [Function.update_of_ne htt] at ht
          obtain ⟨ours,ho⟩ := hnow t addr ht
          cases ho
      | @resolve t' addr' ours pr' hw he =>
        by_cases htt : t = t'
        · subst htt
          simp at ht
        · simp only [Function.update_of_ne htt] at ht
          obtain ⟨ours',ho⟩ := hnow t addr ht
          cases ho
          exact absurd rfl htt
      | call hstep hlive =>
        obtain ⟨ours,ho⟩ := hnow t addr ht
        cases ho

end FaultCache.FaultThreads
