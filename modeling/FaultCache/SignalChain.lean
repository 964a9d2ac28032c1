import FaultCache.SignalMachine
import FaultCache.FaultEffects

/-!
# One fault on its way down the chain

A foreign handler leads to whatever was installed when it came, and
`g_old_action` to what the last arming displaced. The handlers that came after
it lead down to ours, the ones before it down to the first disposition or to
ours again, where the chain ends.
-/

set_option autoImplicit false

namespace FaultCache.SignalChain
open FaultCache.FaultProcess FaultCache.ProcessInvariant FaultCache.PoolMemory FaultCache.LabelledRuns
open FaultCache.ProcessContract FaultCache.FaultEffects FaultCache.SignalMachine
open scoped List

/-- The action is one of the handlers in `l`, ours, or nothing to call. -/
structure Leads (l : List ForeignId) (a : SigAction) : Prop where
  target : ∀ f, a.handler = .foreign f → f ∈ l
  info : a.siginfo = true → a.handler ≠ .sigDfl ∧ a.handler ≠ .sigIgn
  ours : a.handler = .segvHandler → a.siginfo = true

/-- Each handler of the list, newest first, has saved one that is older. -/
def Descends (saved : ForeignId → Option SigAction) : List ForeignId → Prop
  | [] => True
  | f::l => (∀ a, saved f = some a → Leads l a) ∧ Descends saved l

/-- The foreign handlers installed after our last arming, and those before it. -/
structure Layered (s : Signals) (new old : List ForeignId) : Prop where
  nodup : (new ++ old).Nodup
  known : ∀ f, s.saved f = none ↔ f ∉ new ++ old
  newer : Descends s.saved new
  older : Descends s.saved old
  top : Leads new s.disposition
  tail : Leads old s.oldAction
  notOurs : s.oldAction.handler ≠ .segvHandler

section Installing
variable {l l' new old : List ForeignId} {a : SigAction} {s s' : Signals}
  {saved saved' : ForeignId → Option SigAction}

theorem Leads.mono (h : Leads l a) (hl : ∀ f ∈ l, f ∈ l') : Leads l' a :=
  ⟨fun f hf => hl f (h.target f hf),h.info,h.ours⟩

theorem Leads.callable (h : Leads l a) :
    a.callable = true ↔ a.handler = .segvHandler ∨ ∃ f ∈ l, a.handler = .foreign f := by
  have htarget := h.target
  have hinfo := h.info
  obtain ⟨info,handler⟩ := a
  cases handler with
  | sigDfl =>
    cases info with
    | true => exact absurd rfl (hinfo rfl).1
    | false => simp [SigAction.callable]
  | sigIgn =>
    cases info with
    | true => exact absurd rfl (hinfo rfl).2
    | false => simp [SigAction.callable]
  | segvHandler => simp [SigAction.callable]
  | foreign f => simpa [SigAction.callable] using htarget f rfl

/-- What the code tests is whether there is a handler. -/
theorem Leads.callable_iff (h : Leads l a) :
    a.callable = true ↔ a.handler ≠ .sigDfl ∧ a.handler ≠ .sigIgn := by
  have hinfo := h.info
  obtain ⟨info,handler⟩ := a
  cases info with
  | true => exact iff_of_true rfl (hinfo rfl)
  | false => simp [SigAction.callable]

theorem Descends.append (h : Descends saved l) (h' : Descends saved l') : Descends saved (l ++ l') := by
  induction l with
  | nil => exact h'
  | cons f l ih => exact ⟨fun a ha => (h.1 a ha).mono (fun g hg => List.mem_append_left _ hg),ih h.2⟩

theorem Descends.congr (h : Descends saved l) (he : ∀ f ∈ l, saved' f = saved f) :
    Descends saved' l := by
  induction l with
  | nil => trivial
  | cons f l ih =>
    refine ⟨fun a ha => h.1 a (by rw [← he f List.mem_cons_self]; exact ha),?_⟩
    exact ih h.2 (fun g hg => he g (List.mem_cons_of_mem _ hg))

/-- From one handler of the list on, only later ones of the list follow. -/
theorem Descends.suffix {f : ForeignId} {rest : List ForeignId} (h : Descends saved l)
    (hs : f::rest <:+ l) (ha : saved f = some a) : Leads rest a := by
  induction l with
  | nil => exact absurd (List.suffix_nil.mp hs) (by simp)
  | cons g l ih =>
    rcases List.suffix_cons_iff.mp hs with he | hs
    · obtain ⟨rfl,rfl⟩ := List.cons.inj he
      exact h.1 a ha
    · exact ih h.2 hs

theorem installHandler_layered (h : Layered s new old) :
    Layered (installHandler s) [] (new ++ old) := by
  refine ⟨h.nodup,h.known,trivial,h.newer.append h.older,
    ⟨by simp [installHandler],by simp [installHandler],by simp [installHandler]⟩,?_,?_⟩
  · simp only [installHandler]
    split_ifs
    · exact h.tail.mono (fun f hf => List.mem_append_right _ hf)
    · exact h.top.mono (fun f hf => List.mem_append_left _ hf)
  · simp only [installHandler]
    split_ifs with hours
    · exact h.notOurs
    · intro hc
      exact hours (by rw [h.top.ours hc,hc]; rfl)

theorem start_layered (ignored : Bool) : Layered (signalsStart ignored) [] [] := by
  cases ignored <;>
    exact ⟨List.nodup_nil,by simp [signalsStart],trivial,trivial,
      ⟨by simp [signalsStart],by simp [signalsStart],by simp [signalsStart]⟩,
      ⟨by simp [signalsStart],by simp [signalsStart],by simp [signalsStart]⟩,by simp [signalsStart]⟩

/-- Arming starts a new layer, and a foreign handler goes on top of the newest. -/
theorem install_layered (h : Layered s new old) (hi : Install s s') :
    ∃ new' old', Layered s' new' old' := by
  have hset : ∀ {v : Signals}, v.disposition = s.disposition → v.oldAction = s.oldAction →
      v.saved = s.saved → Layered v new old := by
    rintro ⟨d,o,-,-,sv⟩ rfl rfl rfl
    exact ⟨h.nodup,h.known,h.newer,h.older,h.top,h.tail,h.notOurs⟩
  cases hi with
  | init =>
    unfold fcInit
    split_ifs
    · exact ⟨new,old,h⟩
    · exact ⟨_,_,installHandler_layered (hset rfl rfl rfl)⟩
  | rearm hr =>
    unfold fcRearmHandler at hr
    split_ifs at hr
    obtain rfl := Option.some.inj hr
    exact ⟨_,_,installHandler_layered h⟩
  | foreign f siginfo hf =>
    have hnot := (h.known f).mp hf
    have hother : ∀ g ∈ new ++ old, (installForeign s f siginfo).saved g = s.saved g := by
      intro g hg
      exact Function.update_of_ne (fun hc : g = f => hnot (hc ▸ hg)) _ _
    refine ⟨f::new,old,List.nodup_cons.mpr ⟨hnot,h.nodup⟩,?_,⟨?_,?_⟩,?_,?_,h.tail,h.notOurs⟩
    · intro g
      by_cases hg : g = f
      · subst hg
        simp [installForeign]
      · simp only [installForeign,Function.update_of_ne hg,List.cons_append,List.mem_cons,hg,false_or]
        exact h.known g
    · intro a ha
      obtain rfl := Option.some.inj (ha.symm.trans (Function.update_self f _ _))
      exact h.top
    · exact h.newer.congr (fun g hg => hother g (List.mem_append_left _ hg))
    · exact h.older.congr (fun g hg => hother g (List.mem_append_right _ hg))
    · exact ⟨by simp [installForeign],by simp [installForeign],by simp [installForeign]⟩

theorem installed_layered (h : Installed s) : ∃ new old, Layered s new old := by
  obtain ⟨ignored,hs⟩ := h
  induction hs with
  | refl => exact ⟨[],[],start_layered ignored⟩
  | tail _ hi ih =>
    obtain ⟨new,old,hl⟩ := ih
    exact install_layered hl hi

end Installing

/-- The handlers that one fault may be handed to, in order. -/
def path (new old : List ForeignId) : List Handler :=
  new.map .foreign ++ .segvHandler::(old.map .foreign ++ [.segvHandler])

/-- A place on the path: the handler there, whether ours has passed the fault
on before it, and the rest of the path. -/
inductive Reach (new old : List ForeignId) : Handler → Bool → List Handler → Prop
  | upper {f : ForeignId} {l : List ForeignId} (h : f::l <:+ new) :
      Reach new old (.foreign f) false
        (l.map .foreign ++ .segvHandler::(old.map .foreign ++ [.segvHandler]))
  | first : Reach new old .segvHandler false (old.map .foreign ++ [.segvHandler])
  | lower {f : ForeignId} {l : List ForeignId} (h : f::l <:+ old) :
      Reach new old (.foreign f) true (l.map .foreign ++ [.segvHandler])
  | second : Reach new old .segvHandler true []

section Places
variable {new old l : List ForeignId} {s : Signals} {a : SigAction} {f : ForeignId} {chaining : Bool}
  {rest : List Handler}

theorem mem_place (hf : f ∈ l) (tail : List Handler) : ∃ later, f::later <:+ l ∧
    .foreign f::(later.map .foreign ++ tail) <+ l.map .foreign ++ tail := by
  obtain ⟨before,later,rfl⟩ := List.append_of_mem hf
  refine ⟨later,List.suffix_append _ _,?_⟩
  rw [List.map_append,List.append_assoc]
  exact List.sublist_append_right _ _

theorem Leads.above (old : List ForeignId) (h : Leads l a) (hl : l <:+ new) (hcall : a.callable = true) :
    ∃ rest, Reach new old a.handler false rest ∧ a.handler::rest <+
      l.map .foreign ++ .segvHandler::(old.map .foreign ++ [.segvHandler]) := by
  rcases h.callable.mp hcall with he | ⟨f,hf,he⟩
  · rw [he]
    exact ⟨_,.first,List.sublist_append_right _ _⟩
  · rw [he]
    obtain ⟨later,hs,hsub⟩ := mem_place hf (.segvHandler::(old.map .foreign ++ [.segvHandler]))
    exact ⟨_,.upper (hs.trans hl),hsub⟩

theorem Leads.below (new : List ForeignId) (h : Leads l a) (hl : l <:+ old) (hcall : a.callable = true) :
    ∃ rest, Reach new old a.handler true rest ∧
      a.handler::rest <+ l.map .foreign ++ [.segvHandler] := by
  rcases h.callable.mp hcall with he | ⟨f,hf,he⟩
  · rw [he]
    exact ⟨_,.second,List.sublist_append_right _ _⟩
  · rw [he]
    obtain ⟨later,hs,hsub⟩ := mem_place hf [.segvHandler]
    exact ⟨_,.lower (hs.trans hl),hsub⟩

/-- A foreign handler hands the fault to a later place of the path. -/
theorem Reach.next (h : Reach new old (.foreign f) chaining rest) (hl : Layered s new old)
    (ha : s.saved f = some a) (hcall : a.callable = true) :
    ∃ rest', Reach new old a.handler chaining rest' ∧ a.handler::rest' <+ rest := by
  cases h with
  | upper hs => exact (hl.newer.suffix hs ha).above old ((List.suffix_cons _ _).trans hs) hcall
  | lower hs => exact (hl.older.suffix hs ha).below new ((List.suffix_cons _ _).trans hs) hcall

theorem path_count (hl : Layered s new old) :
    (path new old).count .segvHandler = 2 ∧ ∀ f, (path new old).count (.foreign f) ≤ 1 := by
  constructor
  · have hours : ∀ l : List ForeignId, (l.map Handler.foreign).count .segvHandler = 0 := by
      intro l
      rw [List.count_eq_zero]
      simp
    simp [path,List.count_append,hours]
  · intro f
    have hinj : Function.Injective Handler.foreign := fun _ _ h => Handler.foreign.inj h
    have hf : (path new old).count (.foreign f) =
        ((new ++ old).map Handler.foreign).count (.foreign f) := by
      simp [path,List.count_append]
    rw [hf,List.count_map_of_injective _ _ hinj]
    exact List.nodup_iff_count_le_one.mp hl.nodup f

end Places

/-- Nothing is left to do in the frame but to return. -/
def Spent : Frame → Prop
  | .passing _ => True
  | .foreign _ _ passed => passed = true

/-- Ours was called, and the first time it called `g_old_action` at once. -/
def Passed (s : Signals) (calls : List Handler) : Prop :=
  ∃ later earlier, calls = later ++ s.oldAction.handler::.segvHandler::earlier ∧
    .segvHandler ∉ earlier

/-- The disposition once the fault has been dealt with. -/
def settled (s : Signals) (calls : List Handler) : SigAction :=
  if 2 ≤ calls.count .segvHandler then ⟨false,.sigDfl⟩
  else if .segvHandler ∈ calls ∧ s.oldAction.callable = false then s.oldAction
  else s.disposition

/-- The fault is on its way down; `pending` calls of ours have not run yet. -/
structure Underway (s : Signals) (pr : Process) (t : Thread) (pending : ℕ) : Prop where
  signals : t.signals = s
  process : t.process = pr
  flagged : passes t.stack = t.chaining.toNat
  count : t.calls.count .segvHandler = t.chaining.toNat+pending
  passed : t.chaining = true → s.oldAction.callable = true ∧ Passed s t.calls

structure Returning (s : Signals) (pr : Process) (t : Thread) : Prop where
  signals : t.signals = { s with disposition := settled s t.calls }
  process : t.process = pr
  flagged : passes t.stack = t.chaining.toNat
  passed : s.oldAction.callable = true → .segvHandler ∈ t.calls → Passed s t.calls

/-- Where the fault is, and a bound on the moves that are left. -/
inductive Phase (s : Signals) (pr : Process) (x : Fault) (new old : List ForeignId) : Thread → ℕ → Prop
  | descending {t : Thread} {h : Handler} {past rest : List Handler} (hc : t.control = .calling h x)
      (hh : t.calls = h::past)
      (hu : Underway s pr t (if h = .segvHandler then 1 else 0)) (hr : Reach new old h t.chaining rest)
      (hp : t.calls.reverse ++ rest <+ path new old) (hs : ∀ fr ∈ t.stack, Spent fr) :
      Phase s pr x new old t (4*(rest.length+1)+t.stack.length)
  | top {t : Thread} {f : ForeignId} {below : List Frame} {rest : List Handler}
      (hc : t.control = .running) (ht : t.stack = .foreign f x false::below)
      (hu : Underway s pr t 0) (hr : Reach new old (.foreign f) t.chaining rest)
      (hp : t.calls.reverse ++ rest <+ path new old) (hs : ∀ fr ∈ below, Spent fr) :
      Phase s pr x new old t (4*rest.length+below.length+2)
  | returning {t : Thread} (hc : t.control = .running) (hr : Returning s pr t)
      (hp : t.calls.reverse <+ path new old) (hs : ∀ fr ∈ t.stack, Spent fr) :
      Phase s pr x new old t t.stack.length

section Dispatch
variable {s : Signals} {pr : Process} {x : Fault} {new old : List ForeignId} {t t' : Thread} {l : Label}
  {m : ℕ}

/-- A fault that is not ours changes nothing but the flag and the disposition. -/
theorem segvHandler_foreign (ho : faultTryResolve t.process x.addr = some (false,t.process)) :
    segvHandler t x = some (if t.chaining then
        { t with control := .running, signals := { t.signals with disposition := ⟨false,.sigDfl⟩ } }
      else if t.signals.oldAction.callable then
        Thread.call { t with control := .running, chaining := true, stack := .passing x::t.stack }
          t.signals.oldAction.handler x
      else { t with control := .running, signals := { t.signals with disposition := t.signals.oldAction } }) := by
  simp only [segvHandler,segvBranch,ho,Option.map_some]
  cases t.chaining <;> rfl

theorem Underway.notCalled (h : Underway s pr t 0) (hc : t.chaining = false) :
    .segvHandler ∉ t.calls := by
  rw [← List.count_eq_zero,h.count,hc]
  rfl

/-- The descent is over when a foreign handler returns without passing on. -/
theorem Underway.returns (h : Underway s pr t 0) : Returning s pr t := by
  have hle : t.calls.count .segvHandler ≤ 1 := by
    rw [h.count]
    exact Bool.toNat_le _
  refine ⟨?_,h.process,h.flagged,?_⟩
  · have hset : settled s t.calls = s.disposition := by
      rw [settled,if_neg (by omega),if_neg]
      rintro ⟨hmem,hcall⟩
      cases hc : t.chaining with
      | false => exact h.notCalled hc hmem
      | true =>
        rw [(h.passed hc).1] at hcall
        cases hcall
    rw [hset,h.signals]
  · intro _ hmem
    cases hc : t.chaining with
    | false => exact absurd hmem (h.notCalled hc)
    | true => exact (h.passed hc).2

theorem Passed.cons {calls : List Handler} (h : Passed s calls) (g : Handler) : Passed s (g::calls) := by
  obtain ⟨later,earlier,rfl,he⟩ := h
  exact ⟨g::later,earlier,rfl,he⟩

theorem calls_sublist {calls rest rest' p : List Handler} {h : Handler}
    (hp : calls.reverse ++ rest <+ p) (hs : h::rest' <+ rest) : (h::calls).reverse ++ rest' <+ p := by
  rw [List.reverse_cons,List.append_assoc]
  exact ((List.Sublist.refl _).append hs).trans hp

/-- A call of ours: the cycle ends at the default disposition, the first call
goes down to `g_old_action`. -/
theorem segv_phase {past rest : List Handler} (hl : Layered s new old)
    (ho : faultTryResolve pr x.addr = some (false,pr)) (hh : t.calls = .segvHandler::past)
    (hu : Underway s pr t 1) (hr : Reach new old .segvHandler t.chaining rest)
    (hp : t.calls.reverse ++ rest <+ path new old) (hs : ∀ fr ∈ t.stack, Spent fr)
    (he : segvHandler t x = some t') :
    ∃ m', Phase s pr x new old t' m' ∧ m' < 4*(rest.length+1)+t.stack.length := by
  obtain ⟨rfl,rfl,hflag,hcount,hpassed⟩ := hu
  rw [segvHandler_foreign ho,Option.some.injEq] at he
  cases hc : t.chaining with
  | true =>
    rw [if_pos hc] at he
    subst he
    rw [hc] at hcount
    refine ⟨t.stack.length,.returning rfl ⟨?_,rfl,hflag,fun _ _ => (hpassed hc).2⟩
      ((List.sublist_append_left _ _).trans hp) hs,by omega⟩
    have hset : settled t.signals t.calls = ⟨false,.sigDfl⟩ := if_pos hcount.ge
    simp only [hset]
  | false =>
    rw [if_neg (by rw [hc]; decide)] at he
    rw [hc] at hcount hflag hr
    have hpast : .segvHandler ∉ past := by
      rw [hh,List.count_cons_self,Bool.toNat_false] at hcount
      exact List.count_eq_zero.mp (by omega)
    have hours := hl.notOurs
    cases hr with
    | first =>
      cases hcall : t.signals.oldAction.callable with
      | true =>
        rw [if_pos hcall] at he
        subst he
        obtain ⟨rest',hreach,hsub⟩ := hl.tail.below new (List.suffix_refl old) hcall
        have hlen := hsub.length_le
        rw [List.length_cons] at hlen
        refine ⟨4*(rest'.length+1)+(t.stack.length+1),.descending rfl rfl ⟨rfl,rfl,?_,?_,?_⟩ hreach
          (calls_sublist hp hsub) ?_,by omega⟩
        · rw [Thread.call,passes_passing,hflag]
          rfl
        · rw [if_neg hours]
          exact (List.count_cons_of_ne hours).trans hcount
        · refine fun _ => ⟨hcall,[],past,?_,hpast⟩
          rw [Thread.call,hh]
          rfl
        · intro fr hfr
          rcases List.mem_cons.mp hfr with rfl | hfr
          · trivial
          · exact hs fr hfr
      | false =>
        rw [if_neg (by rw [hcall]; decide)] at he
        subst he
        refine ⟨t.stack.length,.returning rfl ⟨?_,rfl,?_,?_⟩
          ((List.sublist_append_left _ _).trans hp) hs,by omega⟩
        · have hset : settled t.signals t.calls = t.signals.oldAction := by
            rw [settled,if_neg (by rw [hcount]; decide),if_pos ⟨hh ▸ List.mem_cons_self,hcall⟩]
          simp only [hset]
        · rw [hc]
          exact hflag
        · intro hcall'
          rw [hcall] at hcall'
          cases hcall'

/-- A foreign handler passes the fault on to what it displaced. -/
theorem pass_phase {f : ForeignId} {below : List Frame} {rest : List Handler} {a : SigAction}
    (hl : Layered s new old) (ht : t.stack = .foreign f x false::below) (hu : Underway s pr t 0)
    (hr : Reach new old (.foreign f) t.chaining rest) (hp : t.calls.reverse ++ rest <+ path new old)
    (hs : ∀ fr ∈ below, Spent fr) (ha : t.signals.saved f = some a) (hcall : a.callable = true) :
    ∃ m', Phase s pr x new old
      (Thread.call { t with stack := .foreign f x true::below } a.handler x) m' ∧
        m' < 4*rest.length+below.length+2 := by
  obtain ⟨rfl,rfl,hflag,hcount,hpassed⟩ := hu
  obtain ⟨rest',hreach,hsub⟩ := hr.next hl ha hcall
  have hlen := hsub.length_le
  rw [List.length_cons] at hlen
  refine ⟨4*(rest'.length+1)+(below.length+1),.descending rfl rfl ⟨rfl,rfl,?_,?_,?_⟩ hreach
    (calls_sublist hp hsub) ?_,by omega⟩
  · rw [ht,passes_foreign] at hflag
    exact (passes_foreign f x true below).trans hflag
  · simp only [Thread.call,List.count_cons,hcount,beq_iff_eq]
    omega
  · exact fun hc => ⟨(hpassed hc).1,(hpassed hc).2.cons _⟩
  · intro fr hfr
    rcases List.mem_cons.mp hfr with rfl | hfr
    · rfl
    · exact hs fr hfr

/-- One move of the fault takes at least one from the bound. -/
theorem Phase.step (h : Phase s pr x new old t m) (hl : Layered s new old)
    (ho : faultTryResolve pr x.addr = some (false,pr)) (hm : Move t l t') (hc : l.chains = true) :
    ∃ m', Phase s pr x new old t' m' ∧ m' < m := by
  cases h with
  | @descending g past rest hctl hh hu hr hp hs =>
    cases hm with
    | segv hc' he =>
      obtain ⟨rfl,rfl⟩ := Control.calling.inj (hctl.symm.trans hc')
      exact segv_phase hl ho hh hu hr hp hs he
    | @foreign f _ hc' =>
      obtain ⟨rfl,rfl⟩ := Control.calling.inj (hctl.symm.trans hc')
      obtain ⟨rfl,rfl,hflag,hcount,hpassed⟩ := hu
      refine ⟨4*rest.length+t.stack.length+2,.top rfl rfl ⟨rfl,rfl,?_,?_,hpassed⟩ hr hp hs,by omega⟩
      · rw [passes_foreign]
        exact hflag
      · rw [if_neg (fun he => Handler.noConfusion he)] at hcount
        exact hcount
    | pass hc' => cases hctl.symm.trans hc'
    | leaveForeign hc' => cases hctl.symm.trans hc'
    | leaveSegv hc' => cases hctl.symm.trans hc'
    | raise | jump | install | elsewhere => cases hc
  | @top f below rest hctl ht hu hr hp hs =>
    cases hm with
    | segv hc' => cases hctl.symm.trans hc'
    | foreign hc' => cases hctl.symm.trans hc'
    | pass hc' hst ha hcall =>
      obtain ⟨he,rfl⟩ := List.cons.inj (ht.symm.trans hst)
      cases he
      exact pass_phase hl ht hu hr hp hs ha hcall
    | leaveForeign hc' hst =>
      obtain ⟨-,rfl⟩ := List.cons.inj (ht.symm.trans hst)
      have hret := hu.returns
      have hflag := hret.flagged
      rw [ht,passes_foreign] at hflag
      exact ⟨below.length,.returning hc' ⟨hret.signals,hret.process,hflag,hret.passed⟩
        ((List.sublist_append_left _ _).trans hp) hs,by omega⟩
    | leaveSegv hc' hst => cases (List.cons.inj (ht.symm.trans hst)).1
    | raise | jump | install | elsewhere => cases hc
  | returning hctl hr hp hs =>
    obtain ⟨hsig,hproc,hflag,hpassed⟩ := hr
    cases hm with
    | segv hc' => cases hctl.symm.trans hc'
    | foreign hc' => cases hctl.symm.trans hc'
    | @pass f y again below a hc' hst ha hcall =>
      have hspent : again = true := hs (.foreign f y again) (by rw [hst]; exact List.mem_cons_self)
      subst hspent
      cases hc
    | @leaveForeign f y passed below hc' hst =>
      rw [hst] at hflag hs ⊢
      rw [passes_foreign] at hflag
      exact ⟨below.length,.returning hc' ⟨hsig,hproc,hflag,hpassed⟩ hp
        (fun fr hfr => hs fr (List.mem_cons_of_mem _ hfr)),by simp⟩
    | @leaveSegv y below hc' hst =>
      have hle := Bool.toNat_le t.chaining
      rw [hst] at hflag hs ⊢
      rw [passes_passing] at hflag
      have hnone : passes below = 0 := by omega
      exact ⟨below.length,.returning hc' ⟨hsig,hproc,hnone,hpassed⟩ hp
        (fun fr hfr => hs fr (List.mem_cons_of_mem _ hfr)),by simp⟩
    | raise | jump | install | elsewhere => cases hc

/-- Until the stack is empty there is a move to make. -/
theorem Phase.progress (h : Phase s pr x new old t m)
    (ho : faultTryResolve pr x.addr = some (false,pr)) :
    (t.control = .running ∧ t.stack = []) ∨ ∃ l t', l.chains = true ∧ Move t l t' := by
  cases h with
  | @descending g past rest hctl hh hu hr hp hs =>
    right
    generalize t.chaining = chaining at hr
    cases hr with
    | upper => exact ⟨_,_,rfl,.foreign hctl⟩
    | lower => exact ⟨_,_,rfl,.foreign hctl⟩
    | first => exact ⟨_,_,rfl,.segv hctl (segvHandler_foreign (by rw [hu.process]; exact ho))⟩
    | second => exact ⟨_,_,rfl,.segv hctl (segvHandler_foreign (by rw [hu.process]; exact ho))⟩
  | top hctl ht => exact Or.inr ⟨_,_,rfl,.leaveForeign hctl ht⟩
  | returning hctl =>
    cases hst : t.stack with
    | nil => exact Or.inl ⟨hctl,rfl⟩
    | cons fr below =>
      cases fr with
      | passing y => exact Or.inr ⟨_,_,rfl,.leaveSegv hctl hst⟩
      | foreign f y passed => exact Or.inr ⟨_,_,rfl,.leaveForeign hctl hst⟩

theorem Phase.run {ms : List (Thread × Label)} (h : Phase s pr x new old t m) (hl : Layered s new old)
    (ho : faultTryResolve pr x.addr = some (false,pr)) (hr : Run Move t ms t')
    (hc : ∀ v ∈ ms, v.2.chains = true) : ∃ m', Phase s pr x new old t' m' ∧ ms.length+m' ≤ m := by
  induction hr with
  | start => exact ⟨m,h,by simp⟩
  | move _ hm ih =>
    obtain ⟨m₁,h₁,hle⟩ := ih (fun v hv => hc v (List.mem_cons_of_mem _ hv))
    obtain ⟨m₂,h₂,hlt⟩ := h₁.step hl ho hm (hc _ List.mem_cons_self)
    exact ⟨m₂,h₂,by rw [List.length_cons]; omega⟩

theorem Phase.counts (h : Phase s pr x new old t m) (hl : Layered s new old) :
    t.calls.count .segvHandler ≤ 2 ∧ ∀ f, t.calls.count (.foreign f) ≤ 1 := by
  have hsub : t.calls.reverse <+ path new old := by
    cases h with
    | descending _ _ _ _ hp => exact (List.sublist_append_left _ _).trans hp
    | top _ _ _ _ hp => exact (List.sublist_append_left _ _).trans hp
    | returning _ _ hp => exact hp
  obtain ⟨h1,h2⟩ := path_count hl
  constructor
  · rw [← List.count_reverse,← h1]
    exact hsub.count_le _
  · intro f
    rw [← List.count_reverse]
    exact (hsub.count_le _).trans (h2 f)

/-- Nothing has happened on the thread since `raised` faults. -/
def idle (s : Signals) (pr : Process) (raised : ℕ) : Thread := ⟨s,pr,false,[],.running,raised,[]⟩

def Ended (t : Thread) : Prop := t.control = .running ∧ t.stack = []

theorem raise_phase {raised addr : ℕ} (hl : Layered s new old)
    (hm : Move (idle s pr raised) (.raise ⟨raised,addr⟩) t) :
    ∃ m, Phase s pr ⟨raised,addr⟩ new old t m ∧ m ≤ 4*(path new old).length := by
  cases hm with
  | raise _ _ _ hd =>
    obtain ⟨rest,hreach,hsub⟩ := hl.top.above old (List.suffix_refl new) hd
    have hlen : rest.length+1 ≤ (path new old).length := hsub.length_le
    refine ⟨4*(rest.length+1)+0,.descending rfl rfl ⟨rfl,rfl,rfl,?_,?_⟩ hreach hsub ?_,by omega⟩
    · simp only [Thread.call,idle,List.count_cons,List.count_nil,beq_iff_eq]
      rfl
    · exact fun hc => Bool.noConfusion hc
    · exact fun fr hfr => absurd hfr List.not_mem_nil

/-- A fault outside the regions comes to an end: ours is called at most twice
and every foreign handler at most once. The first call of ours goes on to the
handler it displaced, and our handler stays installed unless the fault comes
back to it. -/
theorem fault_dispatch_bounded {addr : ℕ} (hs : Installed s) (hpr : Reachable pr)
    (hout : ∀ k ∈ pr.pools, ∀ rid ∈ (pr.pool k).regions, ¬ InRange ((pr.pool k).region rid) addr)
    (raised : ℕ) : s.oldAction.handler ≠ .segvHandler ∧
    ∃ bound, ∀ t₁, Move (idle s pr raised) (.raise ⟨raised,addr⟩) t₁ → ∀ ms t, Run Move t₁ ms t →
      (∀ v ∈ ms, v.2.chains = true) →
      ms.length ≤ bound ∧ (Ended t ∨ ∃ l t', l.chains = true ∧ Move t l t') ∧
      t.calls.count .segvHandler ≤ 2 ∧ (∀ f, t.calls.count (.foreign f) ≤ 1) ∧
      (Ended t → t.chaining = false ∧
        (s.oldAction.handler ≠ .sigDfl ∧ s.oldAction.handler ≠ .sigIgn → .segvHandler ∈ t.calls →
          Passed s t.calls) ∧
        (t.calls.count .segvHandler ≤ 1 → (.segvHandler ∈ t.calls →
          s.oldAction.handler ≠ .sigDfl ∧ s.oldAction.handler ≠ .sigIgn) → t.signals = s)) := by
  obtain ⟨new,old,hl⟩ := installed_layered hs
  have ho := outside_not_ours (reachable_inv hpr) hout
  refine ⟨hl.notOurs,4*(path new old).length,?_⟩
  intro t₁ hraise ms t hr hc
  obtain ⟨m,hphase,hm⟩ := raise_phase hl hraise
  obtain ⟨m',h,hle⟩ := hphase.run hl ho hr hc
  obtain ⟨h1,h2⟩ := h.counts hl
  refine ⟨by omega,h.progress ho,h1,h2,?_⟩
  rintro ⟨hctl,hst⟩
  rw [← hl.tail.callable_iff]
  cases h with
  | descending hc' => cases hctl.symm.trans hc'
  | top _ ht => cases hst.symm.trans ht
  | returning _ hret =>
    obtain ⟨hsig,-,hflag,hpassed⟩ := hret
    refine ⟨?_,hpassed,?_⟩
    · rw [hst] at hflag
      cases hc' : t.chaining with
      | false => rfl
      | true =>
        rw [hc'] at hflag
        cases hflag
    · intro hle hcall
      have hset : settled s t.calls = s.disposition := by
        rw [settled,if_neg (by omega),if_neg]
        rintro ⟨hmem,hno⟩
        rw [hcall hmem] at hno
        cases hno
      rw [hsig,hset]

/-- A library that chains comes after `fc_init`, and is displaced in turn. -/
def cycleSignals : Signals := installHandler (installForeign (fcInit (signalsStart false)) 0 true)

theorem cycleSignals_installed : Installed cycleSignals := by
  have hforeign := (Relation.ReflTransGen.single (Install.init (signalsStart false))).tail
    (Install.foreign (fcInit (signalsStart false)) 0 true rfl)
  exact ⟨false,hforeign.tail (Install.rearm rfl)⟩

/-- The two of them point at each other. -/
theorem fault_dispatch_bounded_cycle :
    cycleSignals.oldAction = ⟨true,.foreign 0⟩ ∧ cycleSignals.saved 0 = some ⟨true,.segvHandler⟩ ∧
    ∃ bound, ∀ t₁, Move (idle cycleSignals sample 0) (.raise ⟨0,100⟩) t₁ → ∀ ms t, Run Move t₁ ms t →
      (∀ v ∈ ms, v.2.chains = true) → ms.length ≤ bound ∧ t.calls.count .segvHandler ≤ 2 := by
  refine ⟨rfl,rfl,?_⟩
  have hout : ∀ k ∈ sample.pools, ∀ rid ∈ (sample.pool k).regions,
      ¬ InRange ((sample.pool k).region rid) 100 := by decide
  obtain ⟨-,bound,h⟩ := fault_dispatch_bounded cycleSignals_installed sample_reachable hout 0
  exact ⟨bound,fun t₁ hraise ms t hr hc => ⟨(h t₁ hraise ms t hr hc).1,(h t₁ hraise ms t hr hc).2.2.1⟩⟩

end Dispatch

end FaultCache.SignalChain
