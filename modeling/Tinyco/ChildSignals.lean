import Tinyco.AcceptLockSafety
import Tinyco.Simulation
import Tinyco.WorkerModes

/-! How the master comes to wait for its workers: it calls `GetWorkerStatus` once for each `SIGCHLD`
that it reads from the socket pair. The signal of a death is pending as one bit, and what the handler
has written may be read by a worker. -/

namespace Tinyco

variable {n : Nat}

def ClusterLabel.reaps : ClusterLabel n → Bool
  | .getWorkerStatus _ => true
  | _ => false

def ClusterLabel.dies : ClusterLabel n → Bool
  | .die _ => true
  | _ => false

/-- The server with the notifications of the master. `sigchldPending` is the signal that its handler
has still to be called for, and `pair` the socket pair of all processes. -/
structure Notified (n : Nat) where
  cluster : Cluster n
  sigchldPending : Bool := false
  pair : List Signo := []

/-- `deliver` is a call of the handler for another signal, in any process. -/
inductive NotifiedLabel (n : Nat) where
  | step (a : ClusterLabel n)
  | deliver (signo : Signo)
  | handle
  | readWorker (p : Nat)
  | readMaster (rs : List WaitResult)
  deriving DecidableEq, Repr

namespace Notified

def start (n : Nat) (pids : List Nat) : Notified n := { cluster := .start n pids }

/-- What the master's `SignalHelper` does with the int it has read. -/
def signalCallback (s : Notified n) (signo : Signo) (rs : List WaitResult) : Option (Notified n) :=
  match signo with
  | .sigchld => (s.cluster.getWorkerStatus rs).map fun t => { s with cluster := t }
  | .sighup | .sigusr1 => some s

def step (c : Fin n → SrvWork) (s : Notified n) : NotifiedLabel n → Option (Notified n)
  | .step a =>
    if a.reaps then none
    else (s.cluster.step c a).map fun t =>
      { s with cluster := t, sigchldPending := s.sigchldPending || a.dies }
  | .deliver signo => some { s with pair := s.pair ++ [signo] }
  | .handle =>
    if s.sigchldPending then
      some { s with sigchldPending := false, pair := s.pair ++ [.sigchld] }
    else none
  -- a worker does not change the cluster by what it reads
  | .readWorker p =>
    match s.pair with
    | _ :: rest => if p ∈ s.cluster.live then some { s with pair := rest } else none
    | [] => none
  | .readMaster rs =>
    match s.pair with
    | signo :: rest =>
      if s.cluster.master = .sleep then { s with pair := rest }.signalCallback signo rs else none
    | [] => none

/-- The notifications of deaths that the master can still read. -/
def unread (s : Notified n) : Nat := s.pair.count .sigchld + s.sigchldPending.toNat

variable {c : Fin n → SrvWork} {s t : Notified n} {b : NotifiedLabel n}

/-- A step is one of the cluster or leaves it as it is. -/
theorem cluster_step (h : s.step c b = some t) :
    (t.cluster = s.cluster ∧ ∀ a, b ≠ .step a) ∨
      ∃ a, s.cluster.step c a = some t.cluster ∧
        (b = .step a ∨ ∃ rs, b = .readMaster rs ∧ a = .getWorkerStatus rs) := by
  cases b with
  | step a =>
    simp only [step, Option.ite_none_left_eq_some, Option.map_eq_some_iff] at h
    obtain ⟨-, u, hu, rfl⟩ := h
    exact .inr ⟨a, hu, .inl rfl⟩
  | deliver signo =>
    obtain rfl := Option.some.inj h
    exact .inl ⟨rfl, by simp⟩
  | handle =>
    simp only [step, Option.ite_none_right_eq_some, Option.some.injEq] at h
    obtain ⟨-, rfl⟩ := h
    exact .inl ⟨rfl, by simp⟩
  | readWorker p =>
    simp only [step] at h
    split at h
    · rw [Option.ite_none_right_eq_some, Option.some.injEq] at h
      obtain ⟨-, rfl⟩ := h
      exact .inl ⟨rfl, by simp⟩
    · cases h
  | readMaster rs =>
    simp only [step] at h
    split at h
    · next signo rest _ =>
      rw [Option.ite_none_right_eq_some] at h
      obtain ⟨hm, h⟩ := h
      cases signo with
      | sigchld =>
        obtain ⟨u, hu, rfl⟩ := Option.map_eq_some_iff.mp h
        exact .inr ⟨.getWorkerStatus rs, by rw [Cluster.step, if_pos hm]; exact hu,
          .inr ⟨rs, rfl, rfl⟩⟩
      | sighup | sigusr1 =>
        obtain rfl := Option.some.inj h
        exact .inl ⟨rfl, by simp⟩
    · cases h

theorem exec_cluster {bs : List (NotifiedLabel n)} (h : exec (step c) s bs = some t) :
    ∃ as, exec (Cluster.step c) s.cluster as = some t.cluster ∧
      as.count (.fork none) = bs.count (.step (.fork none)) ∧
      ∀ a ∈ as, .step a ∈ bs ∨ a.reaps = true := by
  induction bs generalizing s with
  | nil => exact ⟨[], by rw [Option.some.inj h]; rfl, rfl, by simp⟩
  | cons b bs ih =>
    obtain ⟨u, hu, h⟩ := Option.bind_eq_some_iff.mp h
    obtain ⟨as, has, hcount, hmem⟩ := ih h
    have hlater {a : ClusterLabel n} (ha : a ∈ as) : .step a ∈ b :: bs ∨ a.reaps = true :=
      (hmem a ha).imp_left (List.mem_cons_of_mem b)
    rcases cluster_step hu with ⟨hsame, hb⟩ | ⟨a, ha, hb⟩
    · refine ⟨as, hsame ▸ has, ?_, fun a => hlater⟩
      rw [hcount, List.count_cons_of_ne (hb _)]
    · refine ⟨a :: as, by rw [exec_cons, ha, Option.bind_some]; exact has, ?_, ?_⟩
      · rw [List.count_cons, List.count_cons, hcount]
        rcases hb with rfl | ⟨rs, rfl, rfl⟩
        · simp
        · simp
      · intro a' ha'
        rcases List.mem_cons.mp ha' with rfl | ha'
        · rcases hb with rfl | ⟨rs, rfl, rfl⟩
          · exact .inl List.mem_cons_self
          · exact .inr rfl
        · exact hlater ha'

/-- A step of the cluster in which no worker dies leaves the notifications. -/
theorem step_of_cluster {a : ClusterLabel n} {u : Cluster n} (hreaps : a.reaps = false)
    (hdies : a.dies = false) (h : s.cluster.step c a = some u) :
    s.step c (.step a) = some { s with cluster := u } := by
  simp [step, hreaps, hdies, h]

theorem lockInvariant_step (h : LockInvariant s.cluster) (hs : s.step c b = some t) :
    LockInvariant t.cluster := by
  rcases cluster_step hs with ⟨hsame, -⟩ | ⟨a, ha, -⟩
  · exact hsame ▸ h
  · exact h.step ha

end Notified

namespace RunningServer

variable {pr : RunningServer} {rs : List WaitResult}

/-- The member of the master in which the queue is kept is the queue of the cluster. -/
def Mirrors (pr : RunningServer) (s : Cluster n) : Prop :=
  pr.workerProcesses = s.workerProcesses ∧ pr.restartWorkerPid = s.restartWorkerPid

theorem getWorkerStatus_mirrors {s t : Cluster n} (h : pr.Mirrors s)
    (hs : s.getWorkerStatus rs = some t) : ∃ pr', pr.getWorkerStatus rs = some pr' ∧ pr'.Mirrors t := by
  induction rs with
  | nil => cases hs
  | cons r rs ih =>
    cases r with
    | none => exact ⟨pr, rfl, Option.some.inj hs ▸ h⟩
    | error => exact ⟨pr, rfl, Option.some.inj hs ▸ h⟩
    | eintr => exact ih hs
    | exited pid =>
      simp only [Cluster.getWorkerStatus, Option.ite_none_right_eq_some, Option.some.injEq] at hs
      obtain ⟨-, rfl⟩ := hs
      exact ⟨_, rfl, h.1, by rw [h.1, h.2]⟩

/-- The notification that the master reads is a move of its process, with the same queue after it. -/
theorem signal_mirrors {c : Fin n → SrvWork} {s t : Notified n} {signo : Signo} {rest : List Signo}
    (hmode : pr.server.mode = .master) (hpoint : pr.point = .masterSleep) (h : pr.Mirrors s.cluster)
    (hpair : s.pair = signo :: rest) (hs : s.step c (.readMaster rs) = some t) :
    ∃ pr', pr.move (.signal signo rs) = some pr' ∧ pr'.Mirrors t.cluster := by
  simp only [Notified.step, hpair, Option.ite_none_right_eq_some] at hs
  cases signo with
  | sigchld =>
    obtain ⟨u, hu, rfl⟩ := Option.map_eq_some_iff.mp hs.2
    have h' : ({ pr with server := pr.server.signalCallback .sigchld } : RunningServer).Mirrors
      s.cluster := h
    obtain ⟨pr', hpr', hmirrors⟩ := getWorkerStatus_mirrors h' hu
    exact ⟨pr', by simpa [move, hpoint, signalCallback, hmode] using hpr', hmirrors⟩
  | sighup =>
    obtain rfl := Option.some.inj hs.2
    exact ⟨{ pr with server := pr.server.signalCallback .sighup },
      by simp [move, hpoint, signalCallback], h⟩
  | sigusr1 =>
    obtain rfl := Option.some.inj hs.2
    exact ⟨{ pr with server := pr.server.signalCallback .sigusr1 },
      by simp [move, hpoint, signalCallback], h⟩

end RunningServer

end Tinyco
