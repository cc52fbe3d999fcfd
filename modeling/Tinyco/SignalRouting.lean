import Mathlib.Logic.Function.Basic
import Tinyco.Runs

/-! The signal notifications of `server.cc`. A handler writes the signal number to the
socket pair of its process and a `SignalHelper` coroutine reads it from there. The
pair is made before the workers are forked. -/

namespace Tinyco

inductive Signo where
  | sigchld | sighup | sigusr1
  deriving DecidableEq, Repr

inductive WorkMode where
  | unknown | master | worker
  deriving DecidableEq, Repr

/-- The part of a `ServerImpl` the signals act on. `sigPair` is the socket pair behind
`sig_read_fd_` and `sig_write_fd_`, `statusCalls` counts the calls of `GetWorkerStatus`. -/
structure ServerProcess where
  mode : WorkMode := .unknown
  sigPair : Option Nat := none
  gracefulShutdown : Bool := false
  statusCalls : Nat := 0
  deriving DecidableEq, Repr

structure Callback where
  executor : Nat
  target : Nat
  signo : Signo
  deriving DecidableEq, Repr

/-- All processes of the server by pid. An int in a socket pair carries the pid of the
process that wrote it; `delivered` and `callbacks` record what has happened. -/
structure ServerProcesses where
  procs : Nat → Option ServerProcess := fun _ => none
  pairs : Nat → List (Nat × Signo) := fun _ => []
  pairsMade : Nat := 0
  delivered : List (Nat × Signo) := []
  callbacks : List Callback := []

inductive SignalLabel where
  | deliver (p : Nat) (signo : Signo)
  | read (p : Nat)
  deriving DecidableEq, Repr

def ServerProcess.signalCallback (pr : ServerProcess) (signo : Signo) : ServerProcess :=
  match pr.mode, signo with
  | .master, .sigchld => { pr with statusCalls := pr.statusCalls + 1 }
  | .worker, .sighup => { pr with gracefulShutdown := true }
  | _, _ => pr

namespace ServerProcesses

def modify (s : ServerProcesses) (p : Nat) (f : ServerProcess → ServerProcess) :
    ServerProcesses :=
  { s with procs := Function.update s.procs p ((s.procs p).map f) }

/-- `InitSigAction` makes a socket pair and keeps its descriptors. -/
def initSigAction (s : ServerProcesses) (p : Nat) : ServerProcesses :=
  { s.modify p (fun pr => { pr with sigPair := some s.pairsMade }) with
    pairsMade := s.pairsMade + 1 }

/-- The child has the memory of its parent and the same open descriptors. -/
def fork (s : ServerProcesses) (parent child : Nat) : ServerProcesses :=
  { s with procs := Function.update s.procs child (s.procs parent) }

/-- `if ((childpid = fork()) == 0) break;` with what the child then does. -/
def forkWorker (m : Nat) (s : ServerProcesses) (w : Nat) : ServerProcesses :=
  (s.fork m w).modify w fun pr => { pr with mode := .worker }

/-- `ServerImpl::Initialize` in the process `m`, which forks the workers `ws`. -/
def initializeServer (m : Nat) (ws : List Nat) : ServerProcesses :=
  let s : ServerProcesses := { procs := Function.update (fun _ => none) m (some {}) }
  (ws.foldl (forkWorker m) (s.initSigAction m)).modify m fun pr => { pr with mode := .master }

/-- `SignalHelper::AllInOneCallback`, the signal handler, in `p`. -/
def allInOneCallback (s : ServerProcesses) (p : Nat) (signo : Signo) : Option ServerProcesses :=
  ((s.procs p).bind ServerProcess.sigPair).map fun k =>
    { s with
      pairs := Function.update s.pairs k (s.pairs k ++ [(p, signo)])
      delivered := s.delivered ++ [(p, signo)] }

/-- One round of the loop of `SignalHelper::Run` in `p`. -/
def signalHelperRun (s : ServerProcesses) (p : Nat) : Option ServerProcesses :=
  ((s.procs p).bind ServerProcess.sigPair).bind fun k =>
    match s.pairs k with
    | [] => none
    | (w, signo) :: rest =>
      some { s.modify p (·.signalCallback signo) with
        pairs := Function.update s.pairs k rest
        callbacks := s.callbacks ++ [⟨p, w, signo⟩] }

def step (s : ServerProcesses) : SignalLabel → Option ServerProcesses
  | .deliver p signo => s.allInOneCallback p signo
  | .read p => s.signalHelperRun p

def waiting (s : ServerProcesses) (p : Nat) (signo : Signo) : Nat :=
  match (s.procs p).bind ServerProcess.sigPair with
  | none => 0
  | some k => (s.pairs k).count (p, signo)

/-- Each signal delivered to `p` has had one callback, in `p`, or is still to be read,
and no other process has had a callback for it. -/
def RoutedRight (s : ServerProcesses) : Prop :=
  ∀ p signo, s.callbacks.count ⟨p, p, signo⟩ + s.waiting p signo = s.delivered.count (p, signo) ∧
    ∀ e, e ≠ p → ⟨e, p, signo⟩ ∉ s.callbacks

def OnePair (s : ServerProcesses) : Prop :=
  ∀ p pr, s.procs p = some pr → pr.sigPair = some 0

def nextInt (s : ServerProcesses) (p : Nat) : Option (Nat × Signo) :=
  ((s.procs p).bind ServerProcess.sigPair).bind fun k => (s.pairs k).head?

end ServerProcesses

/-- The int that is read was written by the process that reads it. -/
def SignalLabel.ReadsOwn (s : ServerProcesses) : SignalLabel → Prop
  | .deliver _ _ => True
  | .read p => ∀ x, s.nextInt p = some x → x.1 = p

namespace ServerProcesses

variable {s s' : ServerProcesses} {p q : Nat}

theorem modify_delivered (s : ServerProcesses) (p : Nat) (f : ServerProcess → ServerProcess) :
    (s.modify p f).delivered = s.delivered := rfl

theorem isSome_modify (s : ServerProcesses) (p q : Nat) (f : ServerProcess → ServerProcess) :
    ((s.modify p f).procs q).isSome = (s.procs q).isSome := by
  by_cases hqp : q = p
  · subst hqp
    simp [modify]
  · simp [modify, hqp]

theorem OnePair.modify (h : OnePair s) {f : ServerProcess → ServerProcess}
    (hf : ∀ pr, (f pr).sigPair = pr.sigPair) : OnePair (s.modify p f) := by
  intro q pr hq
  by_cases hqp : q = p
  · subst hqp
    simp only [ServerProcesses.modify, Function.update_self, Option.map_eq_some_iff] at hq
    obtain ⟨pr', hpr, rfl⟩ := hq
    exact (hf pr').trans (h q pr' hpr)
  · simp only [ServerProcesses.modify, Function.update_of_ne hqp] at hq
    exact h q pr hq

theorem OnePair.fork (h : OnePair s) : OnePair (s.fork p q) := by
  intro r pr hr
  by_cases hrq : r = q
  · subst hrq
    simp only [ServerProcesses.fork, Function.update_self] at hr
    exact h p pr hr
  · simp only [ServerProcesses.fork, Function.update_of_ne hrq] at hr
    exact h r pr hr

theorem OnePair.foldl_forkWorker (h : OnePair s) (m : Nat) (ws : List Nat) :
    OnePair (ws.foldl (forkWorker m) s) := by
  induction ws generalizing s with
  | nil => exact h
  | cons w ws ih => exact ih (h.fork.modify fun _ => rfl)

theorem onePair_initializeServer (m : Nat) (ws : List Nat) : OnePair (initializeServer m ws) := by
  refine OnePair.modify (OnePair.foldl_forkWorker (fun p pr hp => ?_) m ws) fun _ => rfl
  by_cases hpm : p = m
  · subst hpm
    simp only [initSigAction, ServerProcesses.modify, Function.update_self, Option.map_some,
      Option.some.injEq] at hp
    exact hp ▸ rfl
  · simp [initSigAction, ServerProcesses.modify, hpm] at hp

theorem foldl_forkWorker_logs (m : Nat) (ws : List Nat) (s : ServerProcesses) :
    (ws.foldl (forkWorker m) s).pairs = s.pairs ∧
      (ws.foldl (forkWorker m) s).delivered = s.delivered ∧
      (ws.foldl (forkWorker m) s).callbacks = s.callbacks := by
  induction ws generalizing s with
  | nil => exact ⟨rfl, rfl, rfl⟩
  | cons w ws ih => exact ih _

theorem routedRight_initializeServer (m : Nat) (ws : List Nat) :
    RoutedRight (initializeServer m ws) := by
  obtain ⟨hp, hd, hc⟩ := foldl_forkWorker_logs m ws
    (initSigAction { procs := Function.update (fun _ => none) m (some {}) } m)
  have hp : (initializeServer m ws).pairs = fun _ => [] := hp
  have hd : (initializeServer m ws).delivered = [] := hd
  have hc : (initializeServer m ws).callbacks = [] := hc
  intro p signo
  rw [hc, hd, waiting, hp]
  split <;> simp

theorem OnePair.step (h : OnePair s) {a : SignalLabel} (hs : s.step a = some s') :
    OnePair s' := by
  cases a with
  | deliver p signo =>
    obtain ⟨k, _, rfl⟩ := Option.map_eq_some_iff.mp hs
    exact h
  | read p =>
    obtain ⟨k, _, hs⟩ := Option.bind_eq_some_iff.mp hs
    split at hs
    · cases hs
    · next w signo rest _ =>
      have hsame (pr : ServerProcess) : (pr.signalCallback signo).sigPair = pr.sigPair := by
        unfold ServerProcess.signalCallback
        split <;> rfl
      cases hs
      exact h.modify hsame

theorem OnePair.eq_zero (h : OnePair s) {k : Nat}
    (hk : (s.procs p).bind ServerProcess.sigPair = some k) : k = 0 := by
  obtain ⟨pr, hpr, hk⟩ := Option.bind_eq_some_iff.mp hk
  exact Option.some.inj (hk.symm.trans (h p pr hpr))

theorem OnePair.waiting_eq (h : OnePair s) (signo : Signo) :
    s.waiting p signo = if (s.procs p).isSome then (s.pairs 0).count (p, signo) else 0 := by
  cases hp : s.procs p with
  | none => simp [waiting, hp]
  | some pr => simp [waiting, hp, h p pr hp]

theorem RoutedRight.deliver (h : RoutedRight s) (h1 : OnePair s) {signo : Signo}
    (hs : s.allInOneCallback p signo = some s') : RoutedRight s' := by
  have h1' : OnePair s' := h1.step (a := .deliver p signo) hs
  obtain ⟨k, hk, rfl⟩ := Option.map_eq_some_iff.mp hs
  obtain rfl := h1.eq_zero hk
  obtain ⟨pr, hpr, _⟩ := Option.bind_eq_some_iff.mp hk
  intro q signo'
  obtain ⟨hcount, hnone⟩ := h q signo'
  refine ⟨?_, hnone⟩
  rw [h1.waiting_eq] at hcount
  rw [h1'.waiting_eq]
  simp only [Function.update_self, List.count_append]
  by_cases hqp : (p, signo) = (q, signo')
  · obtain ⟨rfl, rfl⟩ := Prod.mk.injEq .. ▸ hqp
    simp only [hpr, Option.isSome_some, if_true, List.count_singleton_self] at hcount ⊢
    omega
  · have h0 : [(p, signo)].count (q, signo') = 0 := by simpa [List.count_singleton] using hqp
    simpa only [h0, Nat.add_zero] using hcount

theorem RoutedRight.read_iff (h : RoutedRight s) (h1 : OnePair s)
    (hs : s.signalHelperRun p = some s') : RoutedRight s' ↔ (SignalLabel.read p).ReadsOwn s := by
  have h1' : OnePair s' := h1.step (a := .read p) hs
  obtain ⟨k, hk, hs⟩ := Option.bind_eq_some_iff.mp hs
  obtain rfl := h1.eq_zero hk
  split at hs
  · cases hs
  next w signo rest hq =>
  have hown : (SignalLabel.read p).ReadsOwn s ↔ w = p := by
    simp [SignalLabel.ReadsOwn, nextInt, hk, hq]
  cases hs
  rw [hown]
  constructor
  · intro hr
    by_contra hne
    exact (hr w signo).2 p (Ne.symm hne) (by simp)
  · rintro rfl q signo'
    obtain ⟨hcount, hnone⟩ := h q signo'
    refine ⟨?_, fun e he hmem => ?_⟩
    · rw [h1.waiting_eq, hq] at hcount
      rw [h1'.waiting_eq, isSome_modify, modify_delivered]
      simp only [Function.update_self, List.count_append, List.count_cons, List.count_nil] at hcount ⊢
      by_cases hx : w = q ∧ signo = signo'
      · obtain ⟨rfl, rfl⟩ := hx
        obtain ⟨pr, hpr, _⟩ := Option.bind_eq_some_iff.mp hk
        simp only [hpr, Option.isSome_some, if_true, beq_self_eq_true] at hcount ⊢
        omega
      · have hc : ((⟨w, w, signo⟩ : Callback) == ⟨q, q, signo'⟩) = false := by
          simp only [beq_eq_false_iff_ne, ne_eq, Callback.mk.injEq]
          exact fun hh => hx ⟨hh.1, hh.2.2⟩
        have hp : ((w, signo) == (q, signo')) = false := by
          simpa only [beq_eq_false_iff_ne, ne_eq, Prod.mk.injEq] using hx
        simpa [hc, hp] using hcount
    · rcases List.mem_append.mp hmem with hmem | hmem
      · exact hnone e he hmem
      · simp only [List.mem_singleton, Callback.mk.injEq] at hmem
        exact he (hmem.1.trans hmem.2.1.symm)

end ServerProcesses

/-- The signals are routed right throughout a run exactly when each read takes an int
that the reading process has written itself. -/
theorem routed_right_iff_reads_own (m : Nat) (ws : List Nat) (as : List SignalLabel) :
    (∀ s, Visits ServerProcesses.step (.initializeServer m ws) as s → s.RoutedRight) ↔
      ∀ s a s', Takes ServerProcesses.step (.initializeServer m ws) as s a s' → a.ReadsOwn s := by
  refine forall_visits_iff_forall_takes_under (ServerProcesses.routedRight_initializeServer m ws)
    (ServerProcesses.onePair_initializeServer m ws) (fun _ _ _ hone hu => hone.step hu)
    fun t a u hright hone hu => ?_
  cases a with
  | deliver p signo => exact iff_of_true (hright.deliver hone hu) trivial
  | read p => exact hright.read_iff hone hu

/-- `SIGHUP` is sent to worker 2 and worker 3 shuts down. -/
theorem signal_handled_by_another_worker :
    (exec ServerProcesses.step (.initializeServer 1 [2, 3]) [.deliver 2 .sighup, .read 3]).map
        (fun s => (s.callbacks, s.procs 2, s.procs 3)) =
      some ([⟨3, 2, .sighup⟩], some ⟨.worker, some 0, false, 0⟩, some ⟨.worker, some 0, true, 0⟩) ∧
    ¬ ∀ m ws as s, Visits ServerProcesses.step (.initializeServer m ws) as s → s.RoutedRight := by
  have he : (exec ServerProcesses.step (.initializeServer 1 [2, 3])
      [.deliver 2 .sighup, .read 3]).map (fun s => (s.callbacks, s.procs 2, s.procs 3)) =
      some ([⟨3, 2, .sighup⟩], some ⟨.worker, some 0, false, 0⟩,
        some ⟨.worker, some 0, true, 0⟩) := by
    decide
  refine ⟨he, fun h => ?_⟩
  obtain ⟨s, hs, hq⟩ := Option.map_eq_some_iff.mp he
  have hc : s.callbacks = [⟨3, 2, .sighup⟩] := congrArg Prod.fst hq
  exact (h 1 [2, 3] _ s (.of_exec hs) 2 .sighup).2 3 (by decide) (by simp [hc])

end Tinyco
