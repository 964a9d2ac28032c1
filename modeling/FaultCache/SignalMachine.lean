import FaultCache.FaultProcess
import FaultCache.LabelledRuns

/-!
# SIGSEGV: who is installed, and who calls whom

Every handler saves the disposition that it displaces. Our own handler keeps it
in `g_old_action`, and does not when it displaces itself. A fault that is not
ours is passed on by a plain call, so the handlers of one fault are frames of
one stack, and a handler on this stack may raise a fault of its own or leave by
`siglongjmp`.
-/

set_option autoImplicit false

namespace FaultCache.SignalMachine
open FaultCache.FaultProcess FaultCache.LabelledRuns

abbrev ForeignId := ℕ

inductive Handler where
  | sigDfl
  | sigIgn
  | segvHandler
  | foreign (f : ForeignId)
  deriving DecidableEq, Repr

/-- `struct sigaction`: the bit `SA_SIGINFO` and the pointer. -/
structure SigAction where
  siginfo : Bool
  handler : Handler
  deriving DecidableEq, Repr

/-- The test of `segv_handler` that there is something to call. -/
def SigAction.callable (a : SigAction) : Bool :=
  a.siginfo || (a.handler ≠ .sigDfl && a.handler ≠ .sigIgn)

/-- The disposition of the process, the globals of the handler, and what each
foreign handler displaced when it was installed. -/
structure Signals where
  disposition : SigAction
  oldAction : SigAction
  handlerOnce : Bool
  handlerInstalled : Bool
  saved : ForeignId → Option SigAction

def installHandler (s : Signals) : Signals :=
  let prev := s.disposition
  { s with
    disposition := ⟨true,.segvHandler⟩
    oldAction := if prev.siginfo && prev.handler = .segvHandler then s.oldAction else prev
    handlerInstalled := true }

/-- `fault_arm`: `pthread_once`. -/
def fcInit (s : Signals) : Signals :=
  if s.handlerOnce then s else installHandler { s with handlerOnce := true }

/-- Reported as misuse before `fc_init`. -/
def fcRearmHandler (s : Signals) : Option Signals :=
  if s.handlerInstalled then some (installHandler s) else none

def installForeign (s : Signals) (f : ForeignId) (siginfo : Bool) : Signals :=
  { s with
    disposition := ⟨siginfo,.foreign f⟩
    saved := Function.update s.saved f (some s.disposition) }

inductive Install : Signals → Signals → Prop
  | init (s : Signals) : Install s (fcInit s)
  | rearm {s s' : Signals} (h : fcRearmHandler s = some s') : Install s s'
  | foreign (s : Signals) (f : ForeignId) (siginfo : Bool) (h : s.saved f = none) :
      Install s (installForeign s f siginfo)

/-- A process inherits the default disposition, or an ignored signal. -/
def signalsStart (ignored : Bool) : Signals :=
  ⟨⟨false,if ignored then .sigIgn else .sigDfl⟩,⟨false,.sigDfl⟩,false,false,fun _ => none⟩

def Installed (s : Signals) : Prop :=
  ∃ ignored, Relation.ReflTransGen Install (signalsStart ignored) s

/-- One delivery of the signal. The retried instruction raises another one. -/
structure Fault where
  id : ℕ
  addr : ℕ
  deriving DecidableEq, Repr

/-- A frame of `segv_handler` inside its call of `g_old_action`, or one of a
foreign handler, which has passed its fault on or not yet. -/
inductive Frame where
  | passing (x : Fault)
  | foreign (f : ForeignId) (x : Fault) (passed : Bool)
  deriving DecidableEq, Repr

/-- A handler is about to run, or the topmost frame is running. -/
inductive Control where
  | calling (h : Handler) (x : Fault)
  | running
  deriving DecidableEq, Repr

/-- One thread. `chaining` is its `g_chaining`; `calls` logs the handlers that
were called, newest first. -/
structure Thread where
  signals : Signals
  process : Process
  chaining : Bool
  stack : List Frame
  control : Control
  raised : ℕ
  calls : List Handler

def Thread.call (t : Thread) (h : Handler) (x : Fault) : Thread :=
  { t with control := .calling h x, calls := h::t.calls }

inductive Branch where
  | resolved
  | cycle
  | passed
  deriving DecidableEq, Repr

/-- The branch that `segv_handler` takes. -/
def segvBranch (t : Thread) (x : Fault) : Option (Branch × Process) :=
  (faultTryResolve t.process x.addr).map (fun r =>
    (if r.1 then .resolved else if t.chaining then .cycle else .passed,r.2))

/-- `segv_handler` up to its call of `g_old_action`, or to its end where it
makes none. -/
def segvHandler (t : Thread) (x : Fault) : Option Thread :=
  (segvBranch t x).map (fun r =>
    let t := { t with process := r.2, control := .running }
    match r.1 with
    | .resolved => t
    | .cycle => { t with signals := { t.signals with disposition := ⟨false,.sigDfl⟩ } }
    | .passed =>
      if t.signals.oldAction.callable then
        Thread.call { t with chaining := true, stack := .passing x::t.stack }
          t.signals.oldAction.handler x
      else { t with signals := { t.signals with disposition := t.signals.oldAction } })

/-- Code that is not ours is running: the program itself or a foreign handler. -/
def Outside : List Frame → Prop
  | [] => True
  | .passing _::_ => False
  | .foreign _ _ _::_ => True

inductive Label where
  | raise (x : Fault)
  | activate (h : Handler)
  | pass (again : Bool)
  | leave
  | jump (target : List Frame)
  | install
  | elsewhere
  deriving DecidableEq, Repr

/-- What one fault needs: each handler passes it on at most once and returns. -/
def Label.chains : Label → Bool
  | .activate _ => true
  | .pass again => !again
  | .leave => true
  | _ => false

inductive Move : Thread → Label → Thread → Prop
  | raise {t : Thread} (addr : ℕ) (hc : t.control = .running) (ho : Outside t.stack)
      (hd : t.signals.disposition.callable = true) :
      Move t (.raise ⟨t.raised,addr⟩)
        (Thread.call { t with raised := t.raised+1 } t.signals.disposition.handler ⟨t.raised,addr⟩)
  | segv {t t' : Thread} {x : Fault} (hc : t.control = .calling .segvHandler x)
      (h : segvHandler t x = some t') : Move t (.activate .segvHandler) t'
  | foreign {t : Thread} {f : ForeignId} {x : Fault} (hc : t.control = .calling (.foreign f) x) :
      Move t (.activate (.foreign f))
        { t with stack := .foreign f x false::t.stack, control := .running }
  | pass {t : Thread} {f : ForeignId} {x : Fault} {again : Bool} {below : List Frame} {a : SigAction}
      (hc : t.control = .running) (hs : t.stack = .foreign f x again::below)
      (ha : t.signals.saved f = some a) (hcall : a.callable = true) :
      Move t (.pass again) (Thread.call { t with stack := .foreign f x true::below } a.handler x)
  | leaveForeign {t : Thread} {f : ForeignId} {x : Fault} {passed : Bool} {below : List Frame}
      (hc : t.control = .running) (hs : t.stack = .foreign f x passed::below) :
      Move t .leave { t with stack := below }
  | leaveSegv {t : Thread} {x : Fault} {below : List Frame} (hc : t.control = .running)
      (hs : t.stack = .passing x::below) : Move t .leave { t with stack := below, chaining := false }
  | jump {t : Thread} {f : ForeignId} {x : Fault} {passed : Bool} {below target : List Frame}
      (hc : t.control = .running) (hs : t.stack = .foreign f x passed::below) (ht : target <:+ below)
      (ho : Outside target) : Move t (.jump target) { t with stack := target }
  | install {t : Thread} {s : Signals} (h : Install t.signals s) : Move t .install { t with signals := s }
  | elsewhere {t : Thread} {pr : Process} (a : SigAction) (h : Steps t.process pr)
      (ha : a = t.signals.disposition ∨ a = ⟨false,.sigDfl⟩ ∨ a = t.signals.oldAction) :
      Move t .elsewhere { t with process := pr, signals := { t.signals with disposition := a } }

def Frame.isPassing : Frame → Bool
  | .passing _ => true
  | .foreign _ _ _ => false

/-- The number of calls of `g_old_action` that have not returned. -/
def passes (stack : List Frame) : ℕ := stack.countP Frame.isPassing

@[simp] theorem passes_passing (x : Fault) (stack : List Frame) :
    passes (.passing x::stack) = passes stack+1 := List.countP_cons_of_pos rfl

@[simp] theorem passes_foreign (f : ForeignId) (x : Fault) (passed : Bool) (stack : List Frame) :
    passes (.foreign f x passed::stack) = passes stack := List.countP_cons_of_neg (by simp [Frame.isPassing])

end FaultCache.SignalMachine
