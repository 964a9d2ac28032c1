import FaultCache.LabelledRuns
import Mathlib.Logic.Function.Basic

/-!
# Two locks on the way to a Python callback

Python threads read a region in two ways. `Region.__getitem__` lets go of the
interpreter lock around its native `memcpy`, so a fault in there is taken
without it. An element read through a `Region.view()` takes its fault with the
interpreter lock held. Either way the handler first takes `g_pools_lock` and
then runs the callback, and the callback needs the interpreter lock.
-/

set_option autoImplicit false

namespace FaultCache.GilThreads
open FaultCache.LabelledRuns

abbrev ThreadId := ℕ

/-- Where a Python thread is. `held` tells whether the fault was taken with
the interpreter lock held. -/
inductive Phase where
  /-- wants to go on with Python code -/
  | waiting
  | python
  /-- in the native `memcpy` of `_read` -/
  | memcpy
  /-- at `g_pools_lock` in `fault_try_resolve` -/
  | faulted (held : Bool)
  | resolving (held : Bool)
  /-- at `PyGILState_Ensure` in `fill_trampoline` -/
  | ensuring (held : Bool)
  /-- in the user's `fill_chunk` -/
  | filling (held : Bool)
  /-- in the user's `fill_chunk`, which has let go of the interpreter lock -/
  | yielded (held : Bool)
  deriving DecidableEq, Repr

def Phase.holdsGil : Phase → Bool
  | .python => true
  | .faulted held => held
  | .resolving held => held
  | .ensuring held => held
  | .filling _ => true
  | _ => false

def Phase.holdsPoolsLock : Phase → Bool
  | .resolving _ => true
  | .ensuring _ => true
  | .filling _ => true
  | .yielded _ => true
  | _ => false

/-- Between raising a fault and returning from its handler. -/
def Phase.inFault : Phase → Bool
  | .faulted _ => true
  | p => p.holdsPoolsLock

def Phase.waitsForGil : Phase → Bool
  | .ensuring held => !held
  | .yielded _ => true
  | .waiting => true
  | _ => false

structure Threads where
  gil : Option ThreadId
  poolsLock : Option ThreadId
  phase : ThreadId → Phase

inductive Label where
  | fault (t : ThreadId) (held : Bool)
  | turn (t : ThreadId)

def become (s : Threads) (gil poolsLock : Option ThreadId) (t : ThreadId) (p : Phase) : Threads :=
  ⟨gil,poolsLock,Function.update s.phase t p⟩

/-- One step of one thread. -/
inductive Move : Threads → Label → Threads → Prop
  | acquire {s : Threads} {t : ThreadId} (hp : s.phase t = .waiting) (hg : s.gil = none) :
      Move s (.turn t) (become s (some t) s.poolsLock t .python)
  | switch {s : Threads} {t : ThreadId} (hp : s.phase t = .python) :
      Move s (.turn t) (become s none s.poolsLock t .waiting)
  | getitem {s : Threads} {t : ThreadId} (hp : s.phase t = .python) :
      Move s (.turn t) (become s none s.poolsLock t .memcpy)
  | copied {s : Threads} {t : ThreadId} (hp : s.phase t = .memcpy) :
      Move s (.turn t) (become s s.gil s.poolsLock t .waiting)
  | faultInCopy {s : Threads} {t : ThreadId} (hp : s.phase t = .memcpy) :
      Move s (.fault t false) (become s s.gil s.poolsLock t (.faulted false))
  | faultInView {s : Threads} {t : ThreadId} (hp : s.phase t = .python) :
      Move s (.fault t true) (become s s.gil s.poolsLock t (.faulted true))
  | lock {s : Threads} {t : ThreadId} {held : Bool} (hp : s.phase t = .faulted held)
      (hl : s.poolsLock = none) : Move s (.turn t) (become s s.gil (some t) t (.resolving held))
  | fill {s : Threads} {t : ThreadId} {held : Bool} (hp : s.phase t = .resolving held) :
      Move s (.turn t) (become s s.gil s.poolsLock t (.ensuring held))
  | ensureHeld {s : Threads} {t : ThreadId} (hp : s.phase t = .ensuring true) :
      Move s (.turn t) (become s s.gil s.poolsLock t (.filling true))
  | ensure {s : Threads} {t : ThreadId} (hp : s.phase t = .ensuring false) (hg : s.gil = none) :
      Move s (.turn t) (become s (some t) s.poolsLock t (.filling false))
  | yield {s : Threads} {t : ThreadId} {held : Bool} (hp : s.phase t = .filling held) :
      Move s (.turn t) (become s none s.poolsLock t (.yielded held))
  | resume {s : Threads} {t : ThreadId} {held : Bool} (hp : s.phase t = .yielded held)
      (hg : s.gil = none) : Move s (.turn t) (become s (some t) s.poolsLock t (.filling held))
  | releaseHeld {s : Threads} {t : ThreadId} (hp : s.phase t = .filling true) :
      Move s (.turn t) (become s s.gil s.poolsLock t (.resolving true))
  | release {s : Threads} {t : ThreadId} (hp : s.phase t = .filling false) :
      Move s (.turn t) (become s none s.poolsLock t (.resolving false))
  | unlock {s : Threads} {t : ThreadId} {held : Bool} (hp : s.phase t = .resolving held) :
      Move s (.turn t) (become s s.gil none t (if held then .python else .memcpy))

def start : Threads := ⟨none,none,fun _ => .waiting⟩

/-- One thread has the interpreter lock and waits for `g_pools_lock`, another
has that one and waits for the interpreter lock. -/
def Deadlock (s : Threads) : Prop :=
  ∃ a b, s.gil = some a ∧ (∃ held, s.phase a = .faulted held) ∧
    s.poolsLock = some b ∧ (s.phase b).waitsForGil = true

/-- The threads agree with the locks about who holds them. -/
structure Owned (s : Threads) : Prop where
  gil : ∀ t, s.gil = some t ↔ (s.phase t).holdsGil = true
  poolsLock : ∀ t, s.poolsLock = some t ↔ (s.phase t).holdsPoolsLock = true

section Ownership
variable {s s' : Threads} {t : ThreadId} {l : Label}

@[simp] theorem become_self (s : Threads) (g k : Option ThreadId) (t : ThreadId) (p : Phase) :
    (become s g k t p).phase t = p := Function.update_self ..

theorem become_of_ne (s : Threads) (g k : Option ThreadId) {t u : ThreadId} (p : Phase) (h : u ≠ t) :
    (become s g k t p).phase u = s.phase u := Function.update_of_ne h ..

/-- A lock that one thread took, kept or let go of, seen by the others. -/
def SameForOthers (t : ThreadId) (before after : Option ThreadId) : Prop :=
  ∀ u ≠ t, (after = some u ↔ before = some u)

theorem others_keep (t : ThreadId) (k : Option ThreadId) : SameForOthers t k k := fun _ _ => Iff.rfl

theorem others_take {t : ThreadId} {k : Option ThreadId} (h : k = none) : SameForOthers t k (some t) := by
  intro u hu
  subst h
  simp [hu.symm]

theorem others_drop {t : ThreadId} {k : Option ThreadId} (h : k = some t) : SameForOthers t k none := by
  intro u hu
  subst h
  simp [hu.symm]

theorem become_owned (h : Owned s) {g k : Option ThreadId} {p : Phase}
    (hg : g = some t ↔ p.holdsGil = true) (hgo : SameForOthers t s.gil g)
    (hk : k = some t ↔ p.holdsPoolsLock = true) (hko : SameForOthers t s.poolsLock k) :
    Owned (become s g k t p) := by
  constructor
  · intro u
    by_cases hu : u = t
    · subst hu
      rw [become_self]
      exact hg
    · rw [become_of_ne s g k p hu,← h.gil u]
      exact hgo u hu
  · intro u
    by_cases hu : u = t
    · subst hu
      rw [become_self]
      exact hk
    · rw [become_of_ne s g k p hu,← h.poolsLock u]
      exact hko u hu

theorem move_owned (h : Owned s) (hm : Move s l s') : Owned s' := by
  -- What the phase `q` before the step says about the locks after it.
  have keepGil : ∀ {t} {q p : Phase}, s.phase t = q → q.holdsGil = p.holdsGil →
      (s.gil = some t ↔ p.holdsGil = true) := fun hp he => he ▸ hp ▸ h.gil _
  have keepLock : ∀ {t} {q p : Phase}, s.phase t = q → q.holdsPoolsLock = p.holdsPoolsLock →
      (s.poolsLock = some t ↔ p.holdsPoolsLock = true) := fun hp he => he ▸ hp ▸ h.poolsLock _
  have dropGil : ∀ {t} {q : Phase}, s.phase t = q → q.holdsGil = true → SameForOthers t s.gil none :=
    fun hp hq => others_drop ((h.gil _).mpr (hp ▸ hq))
  cases hm with
  | acquire hp hg =>
    exact become_owned h (by simp [Phase.holdsGil]) (others_take hg) (keepLock hp rfl) (others_keep _ _)
  | switch hp =>
    exact become_owned h (by simp [Phase.holdsGil]) (dropGil hp rfl) (keepLock hp rfl) (others_keep _ _)
  | getitem hp =>
    exact become_owned h (by simp [Phase.holdsGil]) (dropGil hp rfl) (keepLock hp rfl) (others_keep _ _)
  | copied hp =>
    exact become_owned h (keepGil hp rfl) (others_keep _ _) (keepLock hp rfl) (others_keep _ _)
  | faultInCopy hp =>
    exact become_owned h (keepGil hp rfl) (others_keep _ _) (keepLock hp rfl) (others_keep _ _)
  | faultInView hp =>
    exact become_owned h (keepGil hp rfl) (others_keep _ _) (keepLock hp rfl) (others_keep _ _)
  | lock hp hl =>
    exact become_owned h (keepGil hp rfl) (others_keep _ _) (by simp [Phase.holdsPoolsLock])
      (others_take hl)
  | fill hp =>
    exact become_owned h (keepGil hp rfl) (others_keep _ _) (keepLock hp rfl) (others_keep _ _)
  | ensureHeld hp =>
    exact become_owned h (keepGil hp rfl) (others_keep _ _) (keepLock hp rfl) (others_keep _ _)
  | ensure hp hg =>
    exact become_owned h (by simp [Phase.holdsGil]) (others_take hg) (keepLock hp rfl) (others_keep _ _)
  | yield hp =>
    exact become_owned h (by simp [Phase.holdsGil]) (dropGil hp rfl) (keepLock hp rfl) (others_keep _ _)
  | resume hp hg =>
    exact become_owned h (by simp [Phase.holdsGil]) (others_take hg) (keepLock hp rfl) (others_keep _ _)
  | releaseHeld hp =>
    exact become_owned h (keepGil hp rfl) (others_keep _ _) (keepLock hp rfl) (others_keep _ _)
  | release hp =>
    exact become_owned h (by simp [Phase.holdsGil]) (dropGil hp rfl) (keepLock hp rfl) (others_keep _ _)
  | @unlock t held hp =>
    refine become_owned h ?_ (others_keep _ _) ?_ (others_drop ((h.poolsLock t).mpr (by rw [hp]; rfl)))
    · cases held
      · exact keepGil hp rfl
      · exact keepGil hp rfl
    · cases held <;> simp [Phase.holdsPoolsLock]

theorem start_owned : Owned start :=
  ⟨by simp [start,Phase.holdsGil],by simp [start,Phase.holdsPoolsLock]⟩

end Ownership

/-- When a thread may fault: with the interpreter lock, while no other fault is
in progress; without it, while nobody waits for `g_pools_lock` with it. -/
def Clear (s : Threads) : Bool → Prop
  | true => ∀ u, (s.phase u).inFault = false
  | false => ∀ u, s.phase u ≠ .faulted true

/-- Every fault of the run was raised at such a moment. -/
def AllClear (ms : List (Threads × Label)) : Prop :=
  ∀ s t held, (s,.fault t held) ∈ ms → Clear s held

/-- A fault that waits with the interpreter lock held is the only one. -/
def Calm (s : Threads) : Prop :=
  ∀ a b, s.phase a = .faulted true → (s.phase b).inFault = true → a = b

section Calmness
variable {s s' : Threads} {t : ThreadId} {l : Label}

/-- A step that raises no fault. -/
theorem become_calm (h : Calm s) {g k : Option ThreadId} {p : Phase} (hp : p ≠ .faulted true)
    (hin : p.inFault = true → (s.phase t).inFault = true) : Calm (become s g k t p) := by
  intro a b ha hb
  have hat : a ≠ t := by
    rintro rfl
    rw [become_self] at ha
    exact hp ha
  rw [become_of_ne s g k p hat] at ha
  by_cases hbt : b = t
  · subst hbt
    rw [become_self] at hb
    exact h a b ha (hin hb)
  · rw [become_of_ne s g k p hbt] at hb
    exact h a b ha hb

theorem fault_calm {held : Bool} (hc : Clear s held) {g k : Option ThreadId} :
    Calm (become s g k t (.faulted held)) := by
  intro a b ha hb
  have hold : ∀ {u}, u ≠ t → (become s g k t (.faulted held)).phase u = s.phase u :=
    fun hu => become_of_ne s g k _ hu
  cases held with
  | true =>
    have honly : ∀ u, ((become s g k t (.faulted true)).phase u).inFault = true → u = t := by
      intro u hu
      by_contra hne
      rw [hold hne,hc u] at hu
      cases hu
    exact (honly a (by rw [ha]; rfl)).trans (honly b hb).symm
  | false =>
    have hat : a ≠ t := by
      rintro rfl
      rw [become_self] at ha
      cases ha
    rw [hold hat] at ha
    exact absurd ha (hc a)

theorem move_calm (h : Calm s) (hm : Move s l s') (hc : ∀ t held, l = .fault t held → Clear s held) :
    Calm s' := by
  cases hm with
  | faultInCopy hp => exact fault_calm (hc _ _ rfl)
  | faultInView hp => exact fault_calm (hc _ _ rfl)
  | @unlock t held hp =>
    cases held
    · exact become_calm h (by simp) (by simp [Phase.inFault,Phase.holdsPoolsLock])
    · exact become_calm h (by simp) (by simp [Phase.inFault,Phase.holdsPoolsLock])
  | lock hp => exact become_calm h (by simp) (fun _ => by rw [hp]; rfl)
  | fill hp => exact become_calm h (by simp) (fun _ => by rw [hp]; rfl)
  | ensureHeld hp => exact become_calm h (by simp) (fun _ => by rw [hp]; rfl)
  | ensure hp => exact become_calm h (by simp) (fun _ => by rw [hp]; rfl)
  | yield hp => exact become_calm h (by simp) (fun _ => by rw [hp]; rfl)
  | resume hp => exact become_calm h (by simp) (fun _ => by rw [hp]; rfl)
  | releaseHeld hp => exact become_calm h (by simp) (fun _ => by rw [hp]; rfl)
  | release hp => exact become_calm h (by simp) (fun _ => by rw [hp]; rfl)
  | _ => exact become_calm h (by simp) (by simp [Phase.inFault,Phase.holdsPoolsLock])

/-- Calm threads are not deadlocked. -/
theorem not_deadlock (ho : Owned s) (h : Calm s) : ¬ Deadlock s := by
  rintro ⟨a,b,hg,⟨held,ha⟩,hl,hw⟩
  have hheld : held = true := by
    have := (ho.gil a).mp hg
    rwa [ha] at this
  subst hheld
  have hb : (s.phase b).holdsPoolsLock = true := (ho.poolsLock b).mp hl
  have hin : (s.phase b).inFault = true := by
    cases hp : s.phase b with
    | faulted held' => rfl
    | _ => rw [hp] at hb; exact hb
  obtain rfl := h a b ha hin
  rw [ha] at hb
  cases hb

end Calmness

section Reaching
variable {s : Threads} {a b : ThreadId}

/-- Whoever has `g_pools_lock` while another thread waits for it with the
interpreter lock may still call the callback. -/
theorem deadlocks_of_locked (ho : Owned s) (ha : s.phase a = .faulted true) (hl : s.poolsLock = some b) :
    ∃ ms s', Run Move s ms s' ∧ Deadlock s' := by
  have hg : s.gil = some a := (ho.gil a).mpr (by rw [ha]; rfl)
  have hb := (ho.poolsLock b).mp hl
  have hne : a ≠ b := by
    rintro rfl
    rw [ha] at hb
    cases hb
  have hnot : (s.phase b).holdsGil = true → False := fun h =>
    hne (Option.some.inj (hg.symm.trans ((ho.gil b).mpr h)))
  cases hp : s.phase b with
  | waiting => rw [hp] at hb; cases hb
  | python => rw [hp] at hb; cases hb
  | memcpy => rw [hp] at hb; cases hb
  | faulted held => rw [hp] at hb; cases hb
  | filling held => exact absurd (by rw [hp]; rfl) hnot
  | yielded held => exact ⟨[],s,.start,a,b,hg,⟨true,ha⟩,hl,by rw [hp]; rfl⟩
  | ensuring held =>
    cases held with
    | true => exact absurd (by rw [hp]; rfl) hnot
    | false => exact ⟨[],s,.start,a,b,hg,⟨true,ha⟩,hl,by rw [hp]; rfl⟩
  | resolving held =>
    cases held with
    | true => exact absurd (by rw [hp]; rfl) hnot
    | false =>
      refine ⟨_,_,.move .start (.fill hp),a,b,hg,⟨true,?_⟩,hl,?_⟩
      · rw [become_of_ne _ _ _ _ hne]
        exact ha
      · rw [become_self]
        rfl

/-- Two faults in progress, one of them waiting with the interpreter lock. -/
theorem deadlocks_of_faults (ho : Owned s) (ha : s.phase a = .faulted true)
    (hb : (s.phase b).inFault = true) (hne : a ≠ b) : ∃ ms s', Run Move s ms s' ∧ Deadlock s' := by
  cases hl : s.poolsLock with
  | some c => exact deadlocks_of_locked ho ha hl
  | none =>
    -- The lock is free, so the other fault can get it first.
    have hfree : (s.phase b).holdsPoolsLock = false := by
      rw [← Bool.not_eq_true,← ho.poolsLock b,hl]
      simp
    cases hp : s.phase b with
    | faulted held =>
      have hm : Move s (.turn b) _ := .lock hp hl
      obtain ⟨ms,s',hr,hd⟩ := deadlocks_of_locked (a := a) (move_owned ho hm)
        ((become_of_ne _ _ _ _ hne).trans ha) rfl
      exact ⟨_,s',(Run.move .start hm).append hr,hd⟩
    | _ =>
      rw [hp] at hb hfree
      exact absurd (hb.symm.trans hfree) (by simp)

end Reaching

theorem start_calm : Calm start := by
  intro a b ha
  cases ha

/-- No state of a run is deadlocked when each of its faults was raised at a
clear moment, and a fault raised at any other moment can end in a deadlock. -/
theorem no_deadlock_when_clear {ms : List (Threads × Label)} {s : Threads} (hr : Run Move start ms s) :
    (AllClear ms → ¬ Deadlock s ∧ ∀ m ∈ ms, ¬ Deadlock m.1) ∧
    ∀ t held s', Move s (.fault t held) s' → ¬ Clear s held →
      ∃ ns s'', Run Move s' ns s'' ∧ Deadlock s'' := by
  obtain ⟨ho,hos⟩ := hr.invariant start_owned move_owned
  constructor
  · intro hall
    obtain ⟨hc,hcs⟩ := Run.guarded (fun s l => ∀ t held, l = .fault t held → Clear s held) start_calm
      move_calm hr (fun m hm t held hl => hall m.1 t held (hl ▸ hm))
    exact ⟨not_deadlock ho hc,fun m hm => not_deadlock (hos m hm) (hcs m hm)⟩
  · intro t held s' hm hnot
    have ho' := move_owned ho hm
    cases hm with
    | faultInCopy hp =>
      -- Somebody already waits with the interpreter lock, and `t` joins in.
      simp only [Clear,not_forall,not_not] at hnot
      obtain ⟨a,ha⟩ := hnot
      have hat : a ≠ t := by
        rintro rfl
        rw [hp] at ha
        cases ha
      exact deadlocks_of_faults ho' ((become_of_ne _ _ _ _ hat).trans ha)
        (by rw [become_self]; rfl) hat
    | faultInView hp =>
      simp only [Clear,not_forall,Bool.not_eq_false] at hnot
      obtain ⟨b,hb⟩ := hnot
      have hbt : b ≠ t := by
        rintro rfl
        rw [hp] at hb
        cases hb
      exact deadlocks_of_faults ho' (become_self ..) (by rw [become_of_ne _ _ _ _ hbt]; exact hb)
        hbt.symm

/-- Thread 0 slices the region and its fault has `g_pools_lock`; thread 1 gets
the interpreter lock and reads an element of a view. -/
theorem view_reader_deadlocks : ¬ ∀ ms s, Run Move start ms s → ¬ Deadlock s := by
  intro hall
  have h1 : Run Move start _ _ := .move .start (.acquire (t := 0) rfl rfl)
  have h2 : Run Move start _ _ := .move h1 (.getitem (t := 0) rfl)
  have h3 : Run Move start _ _ := .move h2 (.faultInCopy (t := 0) rfl)
  have h4 : Run Move start _ _ := .move h3 (.lock (t := 0) rfl rfl)
  have h5 : Run Move start _ _ := .move h4 (.acquire (t := 1) rfl rfl)
  have h6 : Run Move start _ _ := .move h5 (.faultInView (t := 1) rfl)
  have h7 : Run Move start _ _ := .move h6 (.fill (t := 0) rfl)
  exact hall _ _ h7 ⟨1,0,rfl,⟨true,rfl⟩,rfl,rfl⟩

/-- A single reader of a view is clear. -/
theorem no_deadlock_when_clear_view : ∃ ms s, Run Move start ms s ∧ AllClear ms ∧
    s.phase 0 = .faulted true ∧ ¬ Deadlock s := by
  have h1 : Run Move start _ _ := .move .start (.acquire (t := 0) rfl rfl)
  have h2 : Run Move start _ _ := .move h1 (.faultInView (t := 0) rfl)
  suffices hclear : AllClear _ from ⟨_,_,h2,hclear,rfl,((no_deadlock_when_clear h2).1 hclear).1⟩
  intro s t held hm
  simp only [List.mem_cons,Prod.mk.injEq,Label.fault.injEq,reduceCtorEq,and_false,List.not_mem_nil,
    or_false] at hm
  obtain ⟨rfl,rfl,rfl⟩ := hm
  intro u
  by_cases hu : u = 0
  · subst hu
    rfl
  · rw [become_of_ne _ _ _ _ hu]
    rfl

end FaultCache.GilThreads
