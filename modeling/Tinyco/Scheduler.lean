import Mathlib.Logic.Function.Basic
import Tinyco.AssocMap
import Tinyco.Heap

/-! The coroutine scheduler of `frame.cc` and `thread.cc`. The state is the class
`Frame` with the objects it points to, the events registered with libevent and
the context that holds the processor. -/

namespace Tinyco

/-- A `Thread` object. Addresses are never reused. -/
abbrev Tid := Nat

abbrev Fd := Int

abbrev WorkId := Nat

inductive ThreadState where
  | stop | runnable | pending | dead
  deriving DecidableEq, Repr

inductive BeginFrom where
  | mainThreadLoop
  | handleProcess (w : WorkId)
  deriving DecidableEq, Repr

/-- What `setcontext` on a `ucontext_t` resumes. A context taken by `getcontext`
resumes the coroutine that took it, after the `Schedule()` call that follows. -/
inductive Context where
  | unset
  | start (f : BeginFrom)
  | saved (owner : Tid)
  deriving DecidableEq, Repr

/-- The constructor initialises nothing, `none` is a field not written yet.
`stack` numbers the allocations of `Stack::Init`. -/
structure Thread where
  fn : Option BeginFrom := none
  stack : Option Nat := none
  state : Option ThreadState := none
  uc : Context := .unset
  wakeupTs : Nat := 0
  deriving DecidableEq, Repr

inductive EvFlag where
  | timeout | read | write | closed
  deriving DecidableEq, Repr

/-- The calls of `Frame` that park a coroutine on a descriptor. -/
inductive SockCall where
  | accept | connect | send | recv | recvfrom
  deriving DecidableEq, Repr

def SockCall.events : SockCall → List EvFlag
  | .accept => [.read]
  | .connect => [.write, .read]
  | .send => [.write]
  | .recv => [.read, .closed]
  | .recvfrom => [.read, .closed]

/-- An event added to the base. `owner` is the coroutine on whose stack it lies. -/
structure Event where
  fd : Fd
  events : List EvFlag
  owner : Tid
  deriving DecidableEq, Repr

inductive LoopPhase where
  | update | eventLoop | wakeup | schedule
  deriving DecidableEq, Repr

/-- The code that is executing; `fault` is the use of a null pointer or of a
context that was never set. -/
inductive Cpu where
  | mainLoop (phase : LoopPhase)
  | coroutine (t : Tid)
  | fault
  deriving DecidableEq, Repr

structure Frame where
  ioWaitMap : AssocMap Fd (Option Tid) := .empty
  threadRunnable : List (Option Tid) := []
  threadFree : List Tid := []
  threadPending : List Tid := []
  mainThread : Option Tid := none
  runningThread : Option Tid := none
  base : Option Nat := none
  lastLoopTs : Nat := 0
  threads : Tid → Thread := fun _ => {}
  allocated : Nat := 0
  stacksMade : Nat := 0
  basesMade : Nat := 0
  events : List Event := []
  cpu : Cpu := .fault

namespace Frame

def setThread (s : Frame) (t : Tid) (f : Thread → Thread) : Frame :=
  { s with threads := Function.update s.threads t (f (s.threads t)) }

def newThread (s : Frame) : Tid × Frame :=
  (s.allocated, { s with allocated := s.allocated + 1 })

def initThread (s : Frame) (t : Tid) : Frame :=
  { s.setThread t (fun th => { th with stack := some s.stacksMade, state := some .stop }) with
    stacksMade := s.stacksMade + 1 }

def setContext (s : Frame) (t : Tid) (f : BeginFrom) : Frame :=
  s.setThread t (fun th => { th with fn := some f, uc := .start f })

/-- `Thread::Schedule` of `t`, called by the coroutine that is executing. -/
def saveContext (s : Frame) (t : Tid) : Frame :=
  match s.cpu with
  | .coroutine c => s.setThread t (fun th => { th with uc := .saved c })
  | _ => s

def restoreContext (s : Frame) : Option Tid → Frame
  | none => { s with cpu := .fault }
  | some t =>
    match (s.threads t).uc with
    | .unset => { s with cpu := .fault }
    | .start .mainThreadLoop => { s with cpu := .mainLoop .update }
    | .start (.handleProcess _) => { s with cpu := .coroutine t }
    | .saved c => { s with cpu := .coroutine c }

def getEventBase (s : Frame) : Frame :=
  match s.base with
  | some _ => s
  | none => { s with base := some s.basesMade, basesMade := s.basesMade + 1 }

/-- `for (auto i = 0; i < n; i++) thread_free_.push_back(new Thread())`. -/
def fillFree : Nat → Frame → Frame
  | 0, s => s
  | n + 1, s =>
    let (t, s) := s.newThread
    fillFree n { s with threadFree := s.threadFree ++ [t] }

/-- `Frame::Init` with `pool` free threads. The caller goes on as the coroutine
`running_thread_`. -/
def initWith (pool : Nat) (s : Frame) : Bool × Frame :=
  if s.mainThread.isSome || s.base.isSome then (false, s)
  else
    let (m, s) := s.newThread
    let s := (s.initThread m).setContext m .mainThreadLoop
    let s := { s with mainThread := some m }
    let (r, s) := s.newThread
    let s := ({ s with runningThread := some r }).initThread r
    let s := fillFree pool s
    let s := ({ s with cpu := .coroutine r }).saveContext r
    (true, { s with base := none })

def init (s : Frame) : Bool × Frame := s.initWith 1000

def schedule (s : Frame) : Frame :=
  match s.threadRunnable with
  | [] => s.restoreContext s.mainThread
  | t :: rest => ({ s with runningThread := t, threadRunnable := rest }).restoreContext t

def allocNewThread (s : Frame) : Tid × Frame :=
  match s.threadFree.getLast? with
  | none => s.newThread
  | some t =>
    (t, ({ s with threadFree := s.threadFree.dropLast }).setThread t
      (fun th => { th with state := some .stop }))

def createThread (s : Frame) (w : WorkId) : Tid × Frame :=
  let (t, s) := s.allocNewThread
  let s := (s.initThread t).setContext t (.handleProcess w)
  (t, { s with threadRunnable := s.threadRunnable ++ [some t] })

def recycleRunningThread (s : Frame) : Frame :=
  match s.runningThread with
  | none => { s with cpu := .fault }
  | some r =>
    { s.setThread r (fun th => { th with state := some .dead }) with
      threadFree := s.threadFree ++ [r], runningThread := none }

/-- The end of `Frame::HandleProcess`, once `w->Run()` has returned. -/
def handleProcess (s : Frame) : Frame :=
  match s.runningThread with
  | none => { s with cpu := .fault }
  | some _ => s.recycleRunningThread.schedule

/-- The lines that `accept`, `connect`, `send`, `recv` and `recvfrom` run when the
kernel would block: register the event, enter the map, give up control. -/
def waitEvent (s : Frame) (c : Tid) (call : SockCall) (fd : Fd) : Frame :=
  let s := s.getEventBase
  let s := { s with events := s.events ++ [Event.mk fd call.events c],
                    ioWaitMap := s.ioWaitMap.assign fd s.runningThread }
  match s.runningThread with
  | none => { s with cpu := .fault }
  | some r =>
    ((s.saveContext r).setThread r (fun th => { th with state := some .stop })).schedule

/-- The callback of an event. `io_wait_map_[fd]` is null for a missing key. -/
def socketReadOrWrite (s : Frame) (e : Event) : Frame :=
  { s with
    events := s.events.erase e
    threadRunnable := s.threadRunnable ++ [(s.ioWaitMap.find e.fd).getD none]
    ioWaitMap := s.ioWaitMap.erase e.fd }

def wakeupTime (s : Frame) (t : Tid) : Nat := (s.threads t).wakeupTs

def pendThread (H : HeapAlgo Tid) (s : Frame) (t : Tid) : Frame :=
  { s with threadPending := H.pushHeap s.wakeupTime (s.threadPending ++ [t]) }

def sleep (H : HeapAlgo Tid) (s : Frame) (mstime ms : Nat) : Frame :=
  match s.runningThread with
  | none => s.schedule
  | some r =>
    let s := s.setThread r (fun th => { th with wakeupTs := mstime + ms, state := some .stop })
    let s := (s.pendThread H r).saveContext r
    ({ s with runningThread := none }).schedule

def popPendingTop (H : HeapAlgo Tid) (s : Frame) : Option Tid × Frame :=
  let l := H.popHeap s.wakeupTime s.threadPending
  (l.getLast?, { s with threadPending := l.dropLast })

def makeRunnable (s : Frame) (n : Tid) : Frame :=
  { s.setThread n (fun th => { th with wakeupTs := 0, state := some .runnable }) with
    threadRunnable := s.threadRunnable ++ [some n] }

/-- The loop of `WakeupPendingThread`; `n` is the last value read from the front. -/
def wakeupLoop (H : HeapAlgo Tid) : Nat → Option Tid → Frame → Frame
  | 0, _, s => s
  | _ + 1, none, s => s
  | sz + 1, some n, s =>
    if s.wakeupTime n ≤ s.lastLoopTs then
      match s.popPendingTop H with
      | (none, s) => s
      | (some n, s) =>
        let s := s.makeRunnable n
        wakeupLoop H sz s.threadPending.head? s
    else s

def wakeupPendingThread (H : HeapAlgo Tid) (s : Frame) : Frame :=
  wakeupLoop H s.threadPending.length s.threadPending.head? s

end Frame

/-- The steps of a run: those of the executing coroutine, then those of one turn
of `MainThreadLoop` in its order. -/
inductive SchedLabel where
  | create (w : WorkId)
  | wait (call : SockCall) (fd : Fd)
  | sleep (mstime ms : Nat)
  | finish
  | update (mstime : Nat)
  | fire (e : Event)
  | endEvents
  | wakeup
  | schedule
  deriving DecidableEq, Repr

def Frame.step (H : HeapAlgo Tid) (s : Frame) : SchedLabel → Option Frame
  | .create w =>
    match s.cpu with
    | .coroutine _ => some (s.createThread w).2
    | _ => none
  | .wait call fd =>
    match s.cpu with
    | .coroutine c => some (s.waitEvent c call fd)
    | _ => none
  | .sleep mstime ms =>
    match s.cpu with
    | .coroutine _ => some (s.sleep H mstime ms)
    | _ => none
  | .finish =>
    match s.cpu with
    | .coroutine c =>
      match (s.threads c).fn with
      | some (.handleProcess _) => some s.handleProcess
      | _ => none
    | _ => none
  | .update mstime =>
    if s.cpu = .mainLoop .update then
      some { s.getEventBase with lastLoopTs := mstime, cpu := .mainLoop .eventLoop }
    else none
  | .fire e =>
    if s.cpu = .mainLoop .eventLoop ∧ e ∈ s.events then some (s.socketReadOrWrite e) else none
  | .endEvents =>
    if s.cpu = .mainLoop .eventLoop then some { s with cpu := .mainLoop .wakeup } else none
  | .wakeup =>
    if s.cpu = .mainLoop .wakeup then
      some { s.wakeupPendingThread H with cpu := .mainLoop .schedule }
    else none
  | .schedule => if s.cpu = .mainLoop .schedule then some s.schedule else none

/-- The state in which `Frame::Init` returns to a program that has just started. -/
def Frame.start : Frame := (Frame.init {}).2

end Tinyco
