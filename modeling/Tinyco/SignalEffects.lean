import Tinyco.SignalRouting

/-! What the signals of a server come to. The notifications of all processes are read in the order
of their delivery, each by one process, and what a notification does depends on its reader only. -/

namespace Tinyco

namespace ServerProcesses

variable {s s' : ServerProcesses} {a : SignalLabel} {p : Nat}

/-- The signals for which `p` has called `SignalCallback`. -/
def handledBy (s : ServerProcesses) (p : Nat) : List Signo :=
  (s.callbacks.filter fun c => decide (c.executor = p)).map Callback.signo

/-- The delivered signals are those that have been handled, and then those in the socket pair. -/
def InOrder (s : ServerProcesses) : Prop :=
  s.delivered = s.callbacks.map (fun c => (c.target, c.signo)) ++ s.pairs 0

theorem InOrder.step (h : s.InOrder) (hone : s.OnePair) (hs : s.step a = some s') : s'.InOrder := by
  cases a with
  | deliver p signo =>
    obtain ⟨k, hk, rfl⟩ := Option.map_eq_some_iff.mp hs
    obtain rfl := hone.eq_zero hk
    simp only [InOrder, Function.update_self, ← List.append_assoc]
    exact congrArg (· ++ [(p, signo)]) h
  | read p =>
    obtain ⟨k, hk, hs⟩ := Option.bind_eq_some_iff.mp hs
    obtain rfl := hone.eq_zero hk
    split at hs
    · cases hs
    · next w signo rest hq =>
      cases hs
      rw [InOrder, hq] at h
      simpa [InOrder, modify] using h

/-- A step changes a process only by the callbacks that the process itself executes. -/
theorem procs_step (hs : s.step a = some s') (p : Nat) :
    ∃ signos, s'.handledBy p = s.handledBy p ++ signos ∧
      s'.procs p = (s.procs p).map fun pr => signos.foldl ServerProcess.signalCallback pr := by
  cases a with
  | deliver q signo =>
    obtain ⟨k, -, rfl⟩ := Option.map_eq_some_iff.mp hs
    exact ⟨[], by simp [handledBy], by simp⟩
  | read q =>
    obtain ⟨k, -, hs⟩ := Option.bind_eq_some_iff.mp hs
    split at hs
    · cases hs
    · next w signo rest _ =>
      cases hs
      by_cases hqp : q = p
      · subst hqp
        exact ⟨[signo], by simp [handledBy], by simp [modify]⟩
      · exact ⟨[], by simp [handledBy, hqp], by simp [modify, Function.update_of_ne (Ne.symm hqp)]⟩

/-- Every process is what its own callbacks have made of it. -/
theorem procs_run {s₀ : ServerProcesses} {as : List SignalLabel} (h : exec step s₀ as = some s)
    (hnew : s₀.callbacks = []) (p : Nat) :
    s.procs p = (s₀.procs p).map fun pr => (s.handledBy p).foldl ServerProcess.signalCallback pr := by
  refine (Visits.of_exec h).invariant (I := fun t => t.procs p =
    (s₀.procs p).map fun pr => (t.handledBy p).foldl ServerProcess.signalCallback pr) ?_ ?_
  · simp [handledBy, hnew]
  · intro t a u ht hu
    obtain ⟨signos, hhandled, hprocs⟩ := procs_step hu p
    rw [hprocs, ht, hhandled, Option.map_map]
    simp [Function.comp_def]

end ServerProcesses

namespace ServerProcess

variable {pr : ServerProcess}

/-- The master calls `GetWorkerStatus` for every `SIGCHLD` and nothing else. -/
theorem foldl_signalCallback_master (h : pr.mode = .master) (signos : List Signo) :
    signos.foldl signalCallback pr =
      { pr with statusCalls := pr.statusCalls + signos.count .sigchld } := by
  induction signos generalizing pr with
  | nil => rfl
  | cons signo signos ih =>
    have hmode : (pr.signalCallback signo).mode = .master := by
      cases signo <;> simp [signalCallback, h]
    rw [List.foldl_cons, ih hmode]
    cases signo <;> simp [signalCallback, h, Nat.add_assoc, Nat.add_comm 1]

/-- A worker shuts down after a `SIGHUP` and does nothing else. -/
theorem foldl_signalCallback_worker (h : pr.mode = .worker) (signos : List Signo) :
    signos.foldl signalCallback pr =
      { pr with gracefulShutdown := pr.gracefulShutdown || decide (.sighup ∈ signos) } := by
  induction signos generalizing pr with
  | nil => simp
  | cons signo signos ih =>
    have hmode : (pr.signalCallback signo).mode = .worker := by
      cases signo <;> simp [signalCallback, h]
    rw [List.foldl_cons, ih hmode]
    cases signo <;> simp [signalCallback, h]

end ServerProcess

namespace ServerProcesses

theorem procs_forkWorkers {m : Nat} {ws : List Nat} (hm : m ∉ ws) (s : ServerProcesses)
    (pr : ServerProcess) (hpr : s.procs m = some pr) :
    (ws.foldl (forkWorker m) s).procs m = some pr ∧
      ∀ w ∈ ws, (ws.foldl (forkWorker m) s).procs w = some { pr with mode := .worker } := by
  induction ws using List.reverseRecOn with
  | nil => exact ⟨hpr, by simp⟩
  | append_singleton ws w ih =>
    rw [List.mem_append, List.mem_singleton, not_or] at hm
    obtain ⟨hmaster, hworkers⟩ := ih hm.1
    simp only [List.foldl_append, List.foldl_cons, List.foldl_nil]
    refine ⟨?_, fun v hv => ?_⟩
    · simp [forkWorker, modify, fork, Function.update_of_ne hm.2, hmaster]
    · by_cases hvw : v = w
      · subst hvw
        simp [forkWorker, modify, fork, hmaster]
      · have hmem : v ∈ ws := by simpa [hvw] using hv
        simp [forkWorker, modify, fork, Function.update_of_ne hvw, hworkers v hmem]

theorem procs_initializeServer {m : Nat} {ws : List Nat} (hm : m ∉ ws) :
    (initializeServer m ws).procs m = some { mode := .master, sigPair := some 0 } ∧
      ∀ w ∈ ws, (initializeServer m ws).procs w = some { mode := .worker, sigPair := some 0 } := by
  obtain ⟨hmaster, hworkers⟩ := procs_forkWorkers hm
    (initSigAction { procs := Function.update (fun _ => none) m (some {}) } m)
    { sigPair := some 0 } (by simp [initSigAction, modify])
  refine ⟨?_, fun w hw => ?_⟩
  · simp only [initializeServer, modify, Function.update_self, hmaster, Option.map_some]
  · have hne : w ≠ m := fun h => hm (h ▸ hw)
    simp only [initializeServer, modify, Function.update_of_ne hne]
    exact hworkers w hw

theorem logs_initializeServer (m : Nat) (ws : List Nat) :
    (initializeServer m ws).InOrder ∧ (initializeServer m ws).callbacks = [] := by
  obtain ⟨hp, hd, hc⟩ := foldl_forkWorker_logs m ws
    (initSigAction { procs := Function.update (fun _ => none) m (some {}) } m)
  have hp : (initializeServer m ws).pairs = fun _ => [] := hp
  have hd : (initializeServer m ws).delivered = [] := hd
  have hc : (initializeServer m ws).callbacks = [] := hc
  exact ⟨by rw [InOrder, hp, hd, hc]; rfl, hc⟩

theorem inOrder_run {m : Nat} {ws : List Nat} {as : List SignalLabel} {s : ServerProcesses}
    (h : exec step (initializeServer m ws) as = some s) : s.InOrder := by
  refine ((Visits.of_exec h).invariant (I := fun t => t.InOrder ∧ t.OnePair)
    ⟨(logs_initializeServer m ws).1, onePair_initializeServer m ws⟩ fun t a u ht hu => ?_).1
  exact ⟨ht.1.step ht.2 hu, ht.2.step hu⟩

end ServerProcesses

/-- However deliveries and reads interleave in the master and the workers it has forked, every
signal that was delivered is handled once, in the order of delivery, or is still in the socket pair.
It acts on the process that reads it, whichever process it was sent to: the master calls
`GetWorkerStatus` once for each `SIGCHLD` it has read itself, a worker shuts down exactly if it has
read a `SIGHUP`, and what the others read of these has no effect. -/
theorem signals_act_where_read (m : Nat) (ws : List Nat) (hm : m ∉ ws) (as : List SignalLabel)
    (s : ServerProcesses) (h : exec ServerProcesses.step (.initializeServer m ws) as = some s) :
    s.delivered = s.callbacks.map (fun c => (c.target, c.signo)) ++ s.pairs 0 ∧
      s.procs m = some ⟨.master, some 0, false, (s.handledBy m).count .sigchld⟩ ∧
      ∀ w ∈ ws, s.procs w = some ⟨.worker, some 0, decide (.sighup ∈ s.handledBy w), 0⟩ := by
  obtain ⟨hmaster, hworkers⟩ := ServerProcesses.procs_initializeServer hm
  have hprocs := ServerProcesses.procs_run h (ServerProcesses.logs_initializeServer m ws).2
  refine ⟨ServerProcesses.inOrder_run h, ?_, fun w hw => ?_⟩
  · rw [hprocs m, hmaster, Option.map_some, ServerProcess.foldl_signalCallback_master rfl,
      Nat.zero_add]
  · rw [hprocs w, hworkers w hw, Option.map_some, ServerProcess.foldl_signalCallback_worker rfl,
      Bool.false_or]

/-- A worker reads the `SIGCHLD` of the master, and the master the `SIGHUP` of a worker. -/
theorem signals_act_where_read_crossed :
    ∃ s, exec ServerProcesses.step (.initializeServer 1 [2, 3])
        [.deliver 1 .sigchld, .deliver 3 .sighup, .read 2, .read 1] = some s ∧
      s.procs 1 = some ⟨.master, some 0, false, 0⟩ ∧ s.procs 3 = some ⟨.worker, some 0, false, 0⟩ := by
  refine ⟨_, rfl, ?_⟩
  obtain ⟨-, hmaster, hworkers⟩ := signals_act_where_read 1 [2, 3] (by decide)
    [.deliver 1 .sigchld, .deliver 3 .sighup, .read 2, .read 1] _ rfl
  exact ⟨hmaster, hworkers 3 (by decide)⟩

end Tinyco
