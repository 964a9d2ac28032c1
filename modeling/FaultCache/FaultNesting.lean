import FaultCache.SignalMachine
import FaultCache.ProcessInvariant

/-!
# Faults inside handlers

`g_chaining` is one flag for the thread. It is set while a fault is passed on
and cleared when that call returns, so a second fault that a foreign handler
raises meanwhile is taken for the first one come back, and a handler that
leaves by `siglongjmp` leaves the flag set for good.
-/

set_option autoImplicit false

namespace FaultCache.FaultNesting
open FaultCache.FaultProcess FaultCache.PoolMachine FaultCache.PoolMemory FaultCache.LabelledRuns
open FaultCache.ProcessInvariant FaultCache.SignalMachine

/-- A jump of the run went past a call of `g_old_action`, which never returned. -/
def Abandoned (ms : List (Thread × Label)) : Prop :=
  ∃ t target, (t,.jump target) ∈ ms ∧ passes target < passes t.stack

theorem abandoned_cons {ms : List (Thread × Label)} {t : Thread} {l : Label} : Abandoned ((t,l)::ms) ↔
    (∃ target, l = .jump target ∧ passes target < passes t.stack) ∨ Abandoned ms := by
  constructor
  · rintro ⟨u,target,hmem,hlt⟩
    rcases List.mem_cons.mp hmem with he | hmem
    · obtain ⟨rfl,rfl⟩ := Prod.mk.inj he
      exact Or.inl ⟨target,rfl,hlt⟩
    · exact Or.inr ⟨u,target,hmem,hlt⟩
  · rintro (⟨target,rfl,hlt⟩ | ⟨u,target,hmem,hlt⟩)
    · exact ⟨t,target,List.mem_cons_self,hlt⟩
    · exact ⟨u,target,List.mem_cons_of_mem _ hmem,hlt⟩

/-- The flag is set while a call of `g_old_action` is active, and for good once
one has been abandoned. -/
structure Flagged (t : Thread) (abandoned : Prop) : Prop where
  chaining : t.chaining = true ↔ passes t.stack = 1 ∨ abandoned
  single : passes t.stack ≤ 1
  lost : abandoned → passes t.stack = 0

section Flag
variable {t t' t₀ : Thread} {l : Label} {x : Fault} {abandoned : Prop}

/-- A move that leaves the flag and the frames of our handler alone. -/
theorem Flagged.same (h : Flagged t abandoned) (hc : t'.chaining = t.chaining)
    (hp : passes t'.stack = passes t.stack) : Flagged t' abandoned :=
  ⟨by rw [hc,hp]; exact h.chaining,by rw [hp]; exact h.single,by rw [hp]; exact h.lost⟩

theorem segv_flagged (h : Flagged t abandoned) (he : segvHandler t x = some t') :
    Flagged t' abandoned := by
  obtain ⟨⟨branch,pr⟩,hb,rfl⟩ := Option.map_eq_some_iff.mp he
  cases branch with
  | resolved => exact h.same rfl rfl
  | cycle => exact h.same rfl rfl
  | passed =>
    have hoff : t.chaining = false := by
      obtain ⟨⟨ours,pr'⟩,-,hr⟩ := Option.map_eq_some_iff.mp hb
      simp only [Prod.mk.injEq] at hr
      cases hc : t.chaining with
      | false => rfl
      | true =>
        rw [hc] at hr
        cases ours <;> cases hr.1
    have hnone : ¬ (passes t.stack = 1 ∨ abandoned) := by
      rw [← h.chaining,hoff]
      decide
    have hsingle := h.single
    simp only
    split_ifs with hcall
    · refine ⟨iff_of_true rfl (Or.inl ?_),?_,fun ha => absurd (Or.inr ha) hnone⟩
      all_goals
        simp only [Thread.call,passes_passing]
        omega
    · exact h.same rfl rfl

theorem Flagged.congr {abandoned' : Prop} (h : Flagged t abandoned) (he : abandoned' ↔ abandoned) :
    Flagged t abandoned' :=
  ⟨by rw [he]; exact h.chaining,h.single,by rw [he]; exact h.lost⟩

/-- The call of `g_old_action` on top returns. It was the only one, and none had
been abandoned. -/
theorem Flagged.leave {below : List Frame} (h : Flagged t abandoned) (hs : t.stack = .passing x::below) :
    Flagged { t with stack := below, chaining := false } abandoned := by
  have hsingle := h.single
  have hlost := h.lost
  rw [hs,passes_passing] at hsingle hlost
  have hnone : passes below = 0 := by omega
  have hkept : ¬ abandoned := by
    intro ha
    have := hlost ha
    omega
  refine ⟨iff_of_false (by simp) ?_,hnone.le.trans zero_le_one,fun _ => hnone⟩
  rintro (hone | ha)
  · have h1 : passes below = 1 := hone
    omega
  · exact hkept ha

/-- A jump abandons the call of `g_old_action` or leaves it where it is. -/
theorem Flagged.jump {target : List Frame} (h : Flagged t abandoned)
    (hle : passes target ≤ passes t.stack) :
    Flagged { t with stack := target } (passes target < passes t.stack ∨ abandoned) := by
  have hsingle := h.single
  have hlost := h.lost
  have hflag : (passes t.stack = 1 ∨ abandoned) ↔
      (passes target = 1 ∨ passes target < passes t.stack ∨ abandoned) := by
    constructor
    · rintro (hone | ha)
      · rcases Nat.lt_or_ge (passes target) (passes t.stack) with hlt | hge
        · exact Or.inr (Or.inl hlt)
        · exact Or.inl (by omega)
      · exact Or.inr (Or.inr ha)
    · rintro (hone | hlt | ha)
      · exact Or.inl (by omega)
      · exact Or.inl (by omega)
      · exact Or.inr ha
  have hgone : passes target < passes t.stack ∨ abandoned → passes target = 0 := by
    rintro (hlt | ha)
    · omega
    · have := hlost ha
      omega
  exact ⟨h.chaining.trans hflag,hle.trans hsingle,hgone⟩

theorem move_flagged (h : Flagged t abandoned) (hm : Move t l t') :
    Flagged t' ((∃ target, l = .jump target ∧ passes target < passes t.stack) ∨ abandoned) := by
  have hother : (∀ target, l ≠ .jump target) → Flagged t' abandoned →
      Flagged t' ((∃ target, l = .jump target ∧ passes target < passes t.stack) ∨ abandoned) :=
    fun hl hf => hf.congr (or_iff_right (fun ⟨target,hc,_⟩ => hl target hc))
  cases hm with
  | raise => exact hother (by simp) (h.same rfl rfl)
  | segv hc he => exact hother (by simp) (segv_flagged h he)
  | @foreign f x hc => exact hother (by simp) (h.same rfl (passes_foreign f x false t.stack))
  | @pass f x again below a hc hs =>
    refine hother (by simp) (h.same rfl ?_)
    rw [hs,passes_foreign]
    exact passes_foreign f x true below
  | @leaveForeign f x passed below hc hs =>
    refine hother (by simp) (h.same rfl ?_)
    rw [hs,passes_foreign]
  | leaveSegv hc hs => exact hother (by simp) (h.leave hs)
  | @jump f x passed below target hc hs ht ho =>
    have hle : passes target ≤ passes t.stack := by
      rw [hs,passes_foreign]
      exact ht.sublist.countP_le
    exact (h.jump hle).congr (by simp)
  | install => exact hother (by simp) (h.same rfl rfl)
  | elsewhere => exact hother (by simp) (h.same rfl rfl)

/-- A thread before its first fault. -/
def Fresh (t : Thread) : Prop :=
  ∃ ignored pageSize vm,
    t = ⟨signalsStart ignored,start pageSize vm,false,[],.running,0,[]⟩

theorem run_flagged {ms : List (Thread × Label)} (h : Fresh t₀) (hr : Run Move t₀ ms t) :
    Flagged t (Abandoned ms) := by
  induction hr with
  | start =>
    obtain ⟨ignored,pageSize,vm,rfl⟩ := h
    have hnone : ¬ Abandoned [] := by
      rintro ⟨u,target,hmem,-⟩
      cases hmem
    exact ⟨iff_of_false (by simp) (by rintro (hc | hc); cases hc; exact hnone hc),Nat.zero_le _,
      fun hc => absurd hc hnone⟩
  | move _ hm ih =>
    have hstep := move_flagged ih hm
    rw [← abandoned_cons] at hstep
    exact hstep

/-- `older` is the run up to the call of `segv_handler` in state `t` with fault
`x`. -/
def Arrival (ms older : List (Thread × Label)) (t : Thread) (x : Fault) : Prop :=
  (∃ newer, ms = newer ++ (t,.activate .segvHandler)::older) ∧ t.control = .calling .segvHandler x

/-- The cycle branch is taken for a fault that an active call of ours is passing
on already, and every other fault outside the regions is passed on. -/
def CycleJustified (t : Thread) (x : Fault) : Prop :=
  (∀ pr, segvBranch t x = some (.cycle,pr) → .passing x ∈ t.stack) ∧
  ((∀ k ∈ t.process.pools, ∀ rid ∈ (t.process.pool k).regions,
    ¬ InRange ((t.process.pool k).region rid) x.addr) → .passing x ∉ t.stack →
    ∃ pr, segvBranch t x = some (.passed,pr))

/-- The address lies in no region, or on a page that can be read already. -/
def NotOurs (pr : Process) (addr : ℕ) : Prop :=
  ∀ k ∈ pr.pools, ∀ rid, findRegionLocked (pr.pool k) addr = some rid →
    pageReadable (pr.pool k) rid (addr-((pr.pool k).region rid).base) = true

theorem scan_notOurs {pr pr' : Process} {addr : ℕ} {ks : List PoolId}
    (h : faultScan pr addr ks = some (false,pr')) : ∀ k ∈ ks, ∀ rid,
      findRegionLocked (pr.pool k) addr = some rid →
        pageReadable (pr.pool k) rid (addr-((pr.pool k).region rid).base) = true := by
  induction ks with
  | nil =>
    intro k hk
    cases hk
  | cons j ks ih =>
    intro k hk rid hfind
    rw [faultScan] at h
    cases hj : findRegionLocked (pr.pool j) addr with
    | none =>
      rw [hj] at h
      rcases List.mem_cons.mp hk with rfl | hk
      · rw [hj] at hfind
        cases hfind
      · exact ih h k hk rid hfind
    | some y =>
      simp only [hj] at h
      split_ifs at h with hread
      · rcases List.mem_cons.mp hk with rfl | hk
        · rw [hj] at hfind
          cases hfind
          exact hread
        · exact ih h k hk rid hfind
      · obtain ⟨s,-,hs⟩ := Option.map_eq_some_iff.mp h
        cases hs

theorem notOurs_iff {pr pr' : Process} {addr : ℕ} {ours : Bool}
    (h : faultTryResolve pr addr = some (ours,pr')) : NotOurs pr addr ↔ ours = false := by
  rcases faultScan_cases h with ⟨rfl,-⟩ | ⟨rfl,k,hk,rid,s,hfind,hun,-⟩
  · exact iff_of_true (scan_notOurs h) rfl
  · refine iff_of_false (fun hnot => ?_) (by decide)
    rw [hnot k hk rid hfind] at hun
    cases hun

/-- When a fault that is not ours arrives, every earlier call of `g_old_action`
has returned, or an active one is passing on this very fault. -/
def NoOtherPass (older : List (Thread × Label)) (t : Thread) (x : Fault) : Prop :=
  NotOurs t.process x.addr → (¬ Abandoned older ∧ passes t.stack = 0) ∨ .passing x ∈ t.stack

theorem cycle_justified_iff {older : List (Thread × Label)} (hf : Flagged t (Abandoned older))
    (he : segvHandler t x = some t') : CycleJustified t x ↔ NoOtherPass older t x := by
  obtain ⟨b,hb,-⟩ := Option.map_eq_some_iff.mp he
  obtain ⟨⟨ours,pr⟩,hr,-⟩ := Option.map_eq_some_iff.mp hb
  have hbranch : segvBranch t x =
      some (if ours then .resolved else if t.chaining then .cycle else .passed,pr) := by
    rw [segvBranch,hr]
    rfl
  simp only [CycleJustified,NoOtherPass,hbranch,notOurs_iff hr]
  cases ours with
  | true =>
    refine iff_of_true ⟨fun pr' h => by simp at h,fun hout _ => ?_⟩ (fun h => by cases h)
    rcases faultScan_cases hr with ⟨h,-⟩ | ⟨-,j,hj,y,s,hfind,-⟩
    · cases h
    · obtain ⟨hy,hin⟩ := findRegionLocked_some hfind
      exact absurd hin (hout j hj y hy)
  | false =>
    have hchain := hf.chaining
    have hsingle := hf.single
    cases hc : t.chaining with
    | true =>
      rw [hc] at hchain
      have hunder := hchain.mp rfl
      constructor
      · rintro ⟨hcycle,-⟩ -
        exact Or.inr (hcycle pr rfl)
      · intro hno
        have hmem : .passing x ∈ t.stack := by
          rcases hno rfl with ⟨ha,hp⟩ | hmem
          · rcases hunder with h1 | h1
            · omega
            · exact absurd h1 ha
          · exact hmem
        exact ⟨fun _ _ => hmem,fun _ hnot => absurd hmem hnot⟩
    | false =>
      have hnone : ¬ (passes t.stack = 1 ∨ Abandoned older) := by
        rw [← hchain,hc]
        decide
      rw [not_or] at hnone
      refine iff_of_true ⟨fun pr' h => by simp at h,fun _ _ => ⟨pr,rfl⟩⟩ ?_
      exact fun _ => Or.inl ⟨hnone.2,by omega⟩

/-- Over a whole run, the cycle branch is left to faults that have come round
exactly when no fault of anyone else's arrives while another one is still being
passed on, or after one that never came back. -/
theorem cycles_justified_iff {ms : List (Thread × Label)} (h : Fresh t₀) (hr : Run Move t₀ ms t) :
    (∀ older v x, Arrival ms older v x → CycleJustified v x) ↔
      ∀ older v x, Arrival ms older v x → NoOtherPass older v x := by
  refine forall_congr' fun older => forall_congr' fun v => forall_congr' fun x =>
    forall_congr' fun ha => ?_
  obtain ⟨⟨newer,rfl⟩,hctl⟩ := ha
  obtain ⟨v',hm⟩ := hr.made (List.mem_append_right _ List.mem_cons_self)
  cases hm with
  | segv hc he =>
    obtain ⟨-,rfl⟩ := Control.calling.inj (hc.symm.trans hctl)
    exact cycle_justified_iff (run_flagged h hr.before) he

/-- The frames above our active call all belong to the fault that it passes on. -/
def PassesOn (x : Fault) : List Frame → Prop
  | [] => False
  | .passing y::_ => y = x
  | .foreign _ y _::below => y = x ∧ PassesOn x below

theorem PassesOn.mem {stack : List Frame} (h : PassesOn x stack) : .passing x ∈ stack := by
  induction stack with
  | nil => exact h.elim
  | cons fr below ih =>
    cases fr with
    | passing y => exact h ▸ List.mem_cons_self
    | foreign f y passed => exact List.mem_cons_of_mem _ (ih h.2)

theorem PassesOn.suffix {stack target : List Frame} (h : PassesOn x stack) (hs : target <:+ stack)
    (hp : passes target = passes stack) : PassesOn x target := by
  induction stack with
  | nil => exact h.elim
  | cons fr below ih =>
    rcases List.suffix_cons_iff.mp hs with rfl | hbelow
    · exact h
    · have hle : passes target ≤ passes below := hbelow.sublist.countP_le
      cases fr with
      | passing y =>
        rw [passes_passing] at hp
        omega
      | foreign f y passed =>
        rw [passes_foreign] at hp
        exact ih h.2 hbelow hp

/-- No fault is raised beneath a call of `g_old_action`, and no jump goes past one. -/
def Quiet (t : Thread) : Label → Prop
  | .raise _ => passes t.stack = 0
  | .jump target => passes target = passes t.stack
  | _ => True

/-- Whatever is called beneath our active call is called for the fault it passes on. -/
def OneFault (t : Thread) : Prop :=
  passes t.stack = 0 ∨ ∃ x, PassesOn x t.stack ∧ ∀ h y, t.control = .calling h y → y = x

theorem segv_oneFault (h : OneFault t) (he : segvHandler t x = some t') : OneFault t' := by
  obtain ⟨⟨branch,pr⟩,-,rfl⟩ := Option.map_eq_some_iff.mp he
  have hsame : ∀ s, OneFault { t with process := pr, control := .running, signals := s } := by
    intro s
    rcases h with h0 | ⟨y,hy,-⟩
    · exact Or.inl h0
    · exact Or.inr ⟨y,hy,fun _ _ hc => by cases hc⟩
  cases branch with
  | resolved => exact hsame _
  | cycle => exact hsame _
  | passed =>
    simp only
    split_ifs with hcall
    · exact Or.inr ⟨x,rfl,fun _ _ hc => ((Control.calling.inj hc).2).symm⟩
    · exact hsame _

theorem move_oneFault {abandoned : Prop} (hf : Flagged t abandoned) (h : OneFault t)
    (hm : Move t l t') (hq : Quiet t l) : OneFault t' := by
  cases hm with
  | raise => exact Or.inl hq
  | segv hc he => exact segv_oneFault h he
  | @foreign f x hc =>
    rcases h with h0 | ⟨y,hy,hcall⟩
    · exact Or.inl ((passes_foreign f x false t.stack).trans h0)
    · exact Or.inr ⟨y,⟨hcall _ _ hc,hy⟩,fun _ _ hc' => by cases hc'⟩
  | @pass f x again below a hc hs =>
    rcases h with h0 | ⟨y,hy,-⟩
    · rw [hs,passes_foreign] at h0
      exact Or.inl ((passes_foreign f x true below).trans h0)
    · rw [hs] at hy
      exact Or.inr ⟨y,hy,fun _ _ hc' => (Control.calling.inj hc').2 ▸ hy.1⟩
  | @leaveForeign f x passed below hc hs =>
    rcases h with h0 | ⟨y,hy,-⟩
    · rw [hs,passes_foreign] at h0
      exact Or.inl h0
    · rw [hs] at hy
      exact Or.inr ⟨y,hy.2,fun _ _ hc' => by cases hc.symm.trans hc'⟩
  | @leaveSegv x below hc hs =>
    have hsingle := hf.single
    rw [hs,passes_passing] at hsingle
    exact Or.inl (show passes below = 0 by omega)
  | @jump f x passed below target hc hs ht ho =>
    rcases h with h0 | ⟨y,hy,-⟩
    · exact Or.inl (hq.trans h0)
    · have htarget : target <:+ t.stack := by
        rw [hs]
        exact ht.trans (List.suffix_cons _ _)
      exact Or.inr ⟨y,hy.suffix htarget hq,fun _ _ hc' => by cases hc.symm.trans hc'⟩
  | install => exact h
  | elsewhere => exact h

theorem quiet_oneFault {ms : List (Thread × Label)} (h : Fresh t₀) (hr : Run Move t₀ ms t)
    (hq : ∀ m ∈ ms, Quiet m.1 m.2) : OneFault t := by
  induction hr with
  | start =>
    obtain ⟨ignored,pageSize,vm,rfl⟩ := h
    exact Or.inl rfl
  | move hr hm ih =>
    exact move_oneFault (run_flagged h hr) (ih (fun m hmem => hq m (List.mem_cons_of_mem _ hmem))) hm
      (hq _ List.mem_cons_self)

/-- Foreign handlers that neither fault beneath our call nor jump past it are safe. -/
theorem quiet_arrival {ms older : List (Thread × Label)} {v : Thread} (h : Fresh t₀)
    (hr : Run Move t₀ ms t) (hq : ∀ m ∈ ms, Quiet m.1 m.2) (ha : Arrival ms older v x) :
    NoOtherPass older v x := by
  obtain ⟨⟨newer,rfl⟩,hctl⟩ := ha
  have hquiet : ∀ m ∈ older, Quiet m.1 m.2 := fun m hm =>
    hq m (List.mem_append_right _ (List.mem_cons_of_mem _ hm))
  intro _
  rcases quiet_oneFault h hr.before hquiet with h0 | ⟨y,hy,hcall⟩
  · refine Or.inl ⟨?_,h0⟩
    rintro ⟨u,target,hmem,hlt⟩
    have hsame : passes target = passes u.stack := hquiet _ hmem
    omega
  · rw [hcall _ _ hctl]
    exact Or.inr hy.mem

/-- A library below us, and then `fc_init`. -/
def below : Signals := fcInit (installForeign (signalsStart false) 0 true)

def freshThread : Thread :=
  ⟨signalsStart false,start 4 (fun _ => .inaccessible),false,[],.running,0,[]⟩

theorem freshThread_fresh : Fresh freshThread := ⟨false,4,_,rfl⟩

/-- The library faults at address 200 while it handles the fault at address 100. -/
def nestedThread : Thread :=
  ⟨below,start 4 (fun _ => .inaccessible),true,[.foreign 0 ⟨0,100⟩ false,.passing ⟨0,100⟩],
    .calling .segvHandler ⟨1,200⟩,2,[.segvHandler,.foreign 0,.segvHandler]⟩

/-- The library has left its handler for the fault at address 100 by a jump. -/
def jumpedThread : Thread :=
  ⟨below,start 4 (fun _ => .inaccessible),true,[],
    .calling .segvHandler ⟨1,200⟩,2,[.segvHandler,.foreign 0,.segvHandler]⟩

theorem nested_runs : (∃ ms, Run Move freshThread ms nestedThread) ∧
    ∃ ms, Run Move freshThread ms jumpedThread := by
  have h0 : Run Move freshThread [] freshThread := .start
  have h1 := h0.move (Move.install (Install.foreign _ 0 true rfl))
  have h2 := h1.move (Move.install (Install.init _))
  have h3 := h2.move (Move.raise 100 rfl trivial rfl)
  have h4 := h3.move (Move.segv rfl rfl)
  have h5 := h4.move (Move.foreign rfl)
  have h6 := h5.move (Move.jump rfl rfl (List.nil_suffix) trivial)
  exact ⟨⟨_,h5.move (Move.raise 200 rfl trivial rfl)⟩,_,h6.move (Move.raise 200 rfl trivial rfl)⟩

/-- The second fault of these runs is taken for a cycle, and nobody is passing
it on. -/
theorem second_fault_taken_for_cycle : Fresh freshThread ∧
    ∀ v, v = nestedThread ∨ v = jumpedThread → ∃ ms t older, Run Move freshThread ms t ∧
      Arrival ms older v ⟨1,200⟩ ∧ ¬ CycleJustified v ⟨1,200⟩ := by
  refine ⟨freshThread_fresh,?_⟩
  obtain ⟨⟨ms₁,h₁⟩,ms₂,h₂⟩ := nested_runs
  rintro v (rfl | rfl)
  · refine ⟨_,_,ms₁,h₁.move (.segv rfl rfl),⟨⟨[],rfl⟩,rfl⟩,fun hc => ?_⟩
    exact absurd (hc.1 _ rfl) (by decide)
  · refine ⟨_,_,ms₂,h₂.move (.segv rfl rfl),⟨⟨[],rfl⟩,rfl⟩,fun hc => ?_⟩
    exact absurd (hc.1 _ rfl) (by decide)

theorem cycles_justified_iff_nested : ∃ ms t, Run Move freshThread ms t ∧
    ((∀ older v x, Arrival ms older v x → CycleJustified v x) ↔
      ∀ older v x, Arrival ms older v x → NoOtherPass older v x) := by
  obtain ⟨⟨ms,h⟩,-⟩ := nested_runs
  exact ⟨_,_,h.move (.segv rfl rfl),cycles_justified_iff freshThread_fresh (h.move (.segv rfl rfl))⟩

end Flag

end FaultCache.FaultNesting
