import Mathlib.Data.Finset.Basic
import Mathlib.Data.List.FinRange
import Tinyco.AcceptLoop

/-! The accept locks of `mutex.cc` under worker processes that run the accept loops
and a master that runs `MasterRun`. A process is named by its pid. The loops may be of
either kind, although the workers of `ServerImpl` run those of `TcpSrvWork` only: the
`proto_` of a `UdpListener` is "tcp" too. -/

namespace Tinyco

/-- `AtomicCompareAndSet`: the word afterwards and the result. -/
def atomicCompareAndSet (word old n : Nat) : Nat × Bool :=
  if word = old then (n, true) else (word, false)

/-- The accept loop of a worker on one listener. `sawZero` is the point inside
`TryLock` between the read of the word and the compare-and-set. -/
structure WorkerLoop where
  loop : SrvLoop := {}
  sawZero : Bool := false
  deriving DecidableEq, Repr

/-- Where the master is in `MasterRun`. `rest` are the pids the pass has not come to
yet, `ls` the listeners whose word is still to be compared with `pid`. -/
inductive MasterPoint (n : Nat) where
  | sleep
  | pick (rest : List Nat)
  | compare (pid : Nat) (ls : List (Fin n)) (rest : List Nat)
  | store (pid : Nat) (l : Fin n) (ls : List (Fin n)) (rest : List Nat)
  | fault
  deriving DecidableEq, Repr

/-- A dead worker is in `zombies` until the master has waited for it, and keeps its pid
as long. `workerProcesses` is the pid column of `worker_processes_`. -/
structure Cluster (n : Nat) where
  words : Fin n → Nat := fun _ => 0
  live : Finset Nat
  zombies : Finset Nat := ∅
  loops : Nat → Fin n → WorkerLoop := fun _ _ => {}
  workerProcesses : List Nat
  restartWorkerPid : List Nat := []
  master : MasterPoint n := .sleep

inductive WaitResult where
  | none | eintr | error
  | exited (pid : Nat)
  deriving DecidableEq, Repr

inductive ClusterLabel (n : Nat) where
  | tryLockRead (p : Nat) (l : Fin n)
  | tryLockCas (p : Nat) (l : Fin n)
  | unlock (p : Nat) (l : Fin n)
  | reply (p : Nat) (l : Fin n) (r : SrvReply)
  | die (p : Nat)
  | getWorkerStatus (rs : List WaitResult)
  | beginPass
  | pick
  | compare
  | store
  | fork (newWorkerPid : Option Nat)
  | endPass
  deriving DecidableEq, Repr

def SrvReply.ofMutex : SrvReply → Bool
  | .tryLock _ | .unlock _ => true
  | _ => false

/-- `w->pid = q` for the last slot of the table that holds `p`; none if there is no
such slot and `w` is null. -/
def replaceLast (p q : Nat) : List Nat → Option (List Nat)
  | [] => none
  | x :: xs =>
    match replaceLast p q xs with
    | some ys => some (x :: ys)
    | none => if x = p then some (q :: xs) else none

namespace Cluster

variable {n : Nat}

/-- After `Initialize` has forked the workers `pids`. -/
def start (n : Nat) (pids : List Nat) : Cluster n :=
  { live := pids.toFinset, workerProcesses := pids }

def setLoop (s : Cluster n) (p : Nat) (l : Fin n) (v : WorkerLoop) : Cluster n :=
  { s with loops := Function.update s.loops p (Function.update (s.loops p) l v) }

def setWord (s : Cluster n) (l : Fin n) (w : Nat) : Cluster n :=
  { s with words := Function.update s.words l w }

def goOn (c : Fin n → SrvWork) (s : Cluster n) (p : Nat) (l : Fin n) (r : SrvReply) :
    Option (Cluster n) :=
  ((s.loops p l).loop.next (c l) r).map fun v => s.setLoop p l { loop := v }

def tryLockRead (c : Fin n → SrvWork) (s : Cluster n) (p : Nat) (l : Fin n) :
    Option (Cluster n) :=
  if (s.loops p l).loop.point = .tryLock ∧ (s.loops p l).sawZero = false then
    if s.words l = 0 then some (s.setLoop p l { s.loops p l with sawZero := true })
    else s.goOn c p l (.tryLock (-1))
  else none

def tryLockCas (c : Fin n → SrvWork) (s : Cluster n) (p : Nat) (l : Fin n) :
    Option (Cluster n) :=
  if (s.loops p l).sawZero = true then
    let cas := atomicCompareAndSet (s.words l) 0 p
    (s.setWord l cas.1).goOn c p l (.tryLock (if cas.2 then 0 else -1))
  else none

def unlock (c : Fin n → SrvWork) (s : Cluster n) (p : Nat) (l : Fin n) : Option (Cluster n) :=
  let cas := atomicCompareAndSet (s.words l) p 0
  (s.setWord l cas.1).goOn c p l (.unlock (if cas.2 then 0 else -1))

def die (s : Cluster n) (p : Nat) : Cluster n :=
  { s with live := s.live.erase p, zombies := insert p s.zombies }

/-- `ServerImpl::GetWorkerStatus`, from what `waitpid` returns each time it is called. -/
def getWorkerStatus (s : Cluster n) : List WaitResult → Option (Cluster n)
  | [] => none
  | .none :: _ => some s
  | .eintr :: rs => s.getWorkerStatus rs
  | .error :: _ => some s
  | .exited pid :: _ =>
    -- the loop is left after one child, and 0 is queued for one that has no slot
    if pid ∈ s.zombies then
      some { s with
        zombies := s.zombies.erase pid
        restartWorkerPid :=
          s.restartWorkerPid ++ [if pid ∈ s.workerProcesses then pid else 0] }
    else none

/-- The result of `fork` in the master. A new pid differs from those of the processes
that exist, the dead ones not yet waited for among them, and from the queued ones. -/
def fork (s : Cluster n) (pid : Nat) (rest : List Nat) : Option Nat → Option (Cluster n)
  | none => some { s with master := .pick rest }
  | some q =>
    if q ≠ 0 ∧ q ∉ s.live ∧ q ∉ s.zombies ∧ q ∉ s.restartWorkerPid then
      let s' := { s with
        live := insert q s.live
        loops := Function.update s.loops q fun _ => {} }
      match replaceLast pid q s.workerProcesses with
      | none => some { s' with master := .fault }
      | some table => some { s' with workerProcesses := table, master := .pick rest }
    else none

/-- The master runs as a coroutine, `getWorkerStatus` therefore only while it sleeps. -/
def step (c : Fin n → SrvWork) (s : Cluster n) (a : ClusterLabel n) : Option (Cluster n) :=
  match a with
  | .tryLockRead p l => if p ∈ s.live then s.tryLockRead c p l else none
  | .tryLockCas p l => if p ∈ s.live then s.tryLockCas c p l else none
  | .unlock p l => if p ∈ s.live then s.unlock c p l else none
  | .reply p l r => if p ∈ s.live ∧ r.ofMutex = false then s.goOn c p l r else none
  | .die p => if p ∈ s.live then some (s.die p) else none
  | .getWorkerStatus rs => if s.master = .sleep then s.getWorkerStatus rs else none
  | .beginPass =>
    if s.master = .sleep then some { s with master := .pick s.restartWorkerPid } else none
  | .pick =>
    match s.master with
    | .pick (pid :: rest) => some { s with master := .compare pid (List.finRange n) rest }
    | _ => none
  | .compare =>
    match s.master with
    | .compare pid (l :: ls) rest =>
      some { s with
        master := if s.words l = pid then .store pid l ls rest else .compare pid ls rest }
    | _ => none
  | .store =>
    match s.master with
    | .store pid l ls rest => some { s.setWord l 0 with master := .compare pid ls rest }
    | _ => none
  | .fork q =>
    match s.master with
    | .compare pid [] rest => s.fork pid rest q
    | _ => none
  | .endPass =>
    match s.master with
    | .pick [] => some { s with restartWorkerPid := [], master := .sleep }
    | _ => none

end Cluster

end Tinyco
