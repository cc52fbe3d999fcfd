import Tinyco.AcceptLock
import Tinyco.SignalRouting

/-! The processes of a server from the forks of `Initialize` on: what each of them executes,
and its copy of the members of `ServerImpl` that `Run` and the signals use. -/

namespace Tinyco

inductive WorkerCaller where
  | run | masterRun
  deriving DecidableEq, Repr

/-- What a process executes: the loop of forks in `Initialize`, `MasterRun` in its sleep or in
its pass over the queue, or `WorkerRun`. -/
inductive ServerPoint where
  | forking (left : Nat)
  | masterSleep
  | masterPass (rest : List Nat)
  | workerRun (caller : WorkerCaller)
  | returned (ret : Int)
  | fault
  deriving DecidableEq, Repr

/-- `workerReturned` says that `WorkerRun` has returned in this process. -/
structure RunningServer where
  server : ServerProcess := {}
  point : ServerPoint
  workerProcesses : List Nat := []
  restartWorkerPid : List Nat := []
  workerReturned : Bool := false
  deriving DecidableEq, Repr

inductive RunMove where
  | run
  | wake
  | endPass
  | signal (signo : Signo) (rs : List WaitResult)
  | serve (connSize : Nat)
  deriving DecidableEq, Repr

inductive RunAction where
  | move (m : RunMove)
  | fork (newPid : Option Nat)
  | die
  deriving DecidableEq, Repr

namespace RunningServer

def setMode (pr : RunningServer) (mode : WorkMode) : RunningServer :=
  { pr with server := { pr.server with mode := mode } }

def getWorkerStatus (pr : RunningServer) : List WaitResult → Option RunningServer
  | [] => none
  | .none :: _ => some pr
  | .eintr :: rs => pr.getWorkerStatus rs
  | .error :: _ => some pr
  | .exited pid :: _ =>
    some { pr with
      restartWorkerPid := pr.restartWorkerPid ++ [if pid ∈ pr.workerProcesses then pid else 0] }

def signalCallback (pr : RunningServer) (signo : Signo) (rs : List WaitResult) :
    Option RunningServer :=
  let pr' := { pr with server := pr.server.signalCallback signo }
  if pr.server.mode = .master ∧ signo = .sigchld then pr'.getWorkerStatus rs else some pr'

/-- `WorkerRun` returns: to `Run`, which returns, or to the pass, which is left by `break`. -/
def leaveWorkerRun (pr : RunningServer) : WorkerCaller → RunningServer
  | .run => { pr with point := .returned 0, workerReturned := true }
  -- `break` leaves the loop over the queue, not the one around it
  | .masterRun => { pr with point := .masterSleep, restartWorkerPid := [], workerReturned := true }

/-- The moves a process makes on its own. The signal coroutine runs while it sleeps. -/
def move (pr : RunningServer) : RunMove → Option RunningServer
  | .run =>
    if pr.point = .forking 0 then some { pr.setMode .master with point := .masterSleep }
    else none
  | .wake =>
    if pr.point = .masterSleep then some { pr with point := .masterPass pr.restartWorkerPid }
    else none
  | .endPass =>
    if pr.point = .masterPass [] then
      some { pr with point := .masterSleep, restartWorkerPid := [] }
    else none
  | .signal signo rs =>
    match pr.point with
    | .masterSleep | .workerRun _ => pr.signalCallback signo rs
    | _ => none
  | .serve connSize =>
    match pr.point with
    | .workerRun caller =>
      if pr.server.gracefulShutdown = true ∧ connSize = 0 then some (pr.leaveWorkerRun caller)
      else some pr
    | _ => none

/-- The two calls of `fork`: the parent afterwards and the child, which is in `WorkerRun`. -/
def fork (pr : RunningServer) (newPid : Option Nat) :
    Option (RunningServer × Option RunningServer) :=
  match pr.point, newPid with
  | .forking (_ + 1), none => some ({ pr with point := .returned (-115) }, none)
  | .forking (left + 1), some q =>
    some ({ pr with point := .forking left, workerProcesses := pr.workerProcesses ++ [q] },
      some { pr.setMode .worker with point := .workerRun .run })
  | .masterPass (_ :: rest), none => some ({ pr with point := .masterPass rest }, none)
  | .masterPass (pid :: rest), some q =>
    some (match replaceLast pid q pr.workerProcesses with
        | none => { pr with point := .fault }
        | some table => { pr with point := .masterPass rest, workerProcesses := table },
      -- the child goes on with the mode of the master
      some { pr with point := .workerRun .masterRun, workerReturned := false })
  | _, _ => none

/-- A process in `WorkerRun` is a worker and heeds SIGHUP, and is out of `Run` after it. -/
structure RightWorker (pr : RunningServer) : Prop where
  mode : ∀ caller, pr.point = .workerRun caller → pr.server.mode = .worker
  hup : ∀ caller, pr.point = .workerRun caller →
    (pr.server.signalCallback .sighup).gracefulShutdown = true
  leaves : pr.workerReturned = true → ∃ ret, pr.point = .returned ret

/-- The mode goes with the caller of what a process executes. -/
def ModeAsCalled (pr : RunningServer) : Prop :=
  match pr.point with
  | .forking _ | .returned _ | .fault => True
  | .masterSleep | .masterPass _ | .workerRun .masterRun => pr.server.mode = .master
  | .workerRun .run => pr.server.mode = .worker

end RunningServer

abbrev ServerTree := Nat → Option RunningServer

namespace ServerTree

def start (m workerNum : Nat) : ServerTree :=
  Function.update (fun _ => none) m (some { point := .forking workerNum })

def step (s : ServerTree) (a : Nat × RunAction) : Option ServerTree :=
  (s a.1).bind fun pr =>
    match a.2 with
    | .move m => (pr.move m).map fun pr' => Function.update s a.1 (some pr')
    | .die => some (Function.update s a.1 none)
    | .fork none => (pr.fork none).map fun r => Function.update s a.1 (some r.1)
    | .fork (some q) =>
      if s q = none then
        (pr.fork (some q)).map fun r =>
          Function.update (Function.update s a.1 (some r.1)) q r.2
      else none

def All (P : RunningServer → Prop) (s : ServerTree) : Prop := ∀ p pr, s p = some pr → P pr

/-- No worker is forked in `MasterRun`. -/
def NoRestart (s : ServerTree) (a : Nat × RunAction) : Prop :=
  ∀ q pr rest, a.2 = .fork (some q) → s a.1 = some pr → pr.point ≠ .masterPass rest

end ServerTree

namespace RunningServer

variable {pr pr' : RunningServer} {m : RunMove}

theorem signalCallback_mode (sv : ServerProcess) (signo : Signo) :
    (sv.signalCallback signo).mode = sv.mode := by
  unfold ServerProcess.signalCallback
  split <;> rfl

theorem getWorkerStatus_eq {rs : List WaitResult} (h : pr.getWorkerStatus rs = some pr') :
    ∃ l, pr' = { pr with restartWorkerPid := pr.restartWorkerPid ++ l } := by
  induction rs with
  | nil => cases h
  | cons r rs ih =>
    cases r with
    | none =>
      obtain rfl := Option.some.inj h
      exact ⟨[], by simp⟩
    | eintr => exact ih h
    | error =>
      obtain rfl := Option.some.inj h
      exact ⟨[], by simp⟩
    | exited pid => exact ⟨_, (Option.some.inj h).symm⟩

theorem signalCallback_keeps {signo : Signo} {rs : List WaitResult}
    (h : pr.signalCallback signo rs = some pr') :
    pr'.server.mode = pr.server.mode ∧ pr'.point = pr.point ∧
      pr'.workerReturned = pr.workerReturned := by
  simp only [signalCallback] at h
  split_ifs at h
  · obtain ⟨l, rfl⟩ := getWorkerStatus_eq h
    exact ⟨signalCallback_mode pr.server signo, rfl, rfl⟩
  · obtain rfl := Option.some.inj h
    exact ⟨signalCallback_mode pr.server signo, rfl, rfl⟩

/-- What a move does: it goes to another point of `Run`, or stays there with the same mode. -/
inductive Moved (pr : RunningServer) : RunningServer → Prop where
  | run (hp : pr.point = .forking 0) : Moved pr { pr.setMode .master with point := .masterSleep }
  | wake (hp : pr.point = .masterSleep) :
    Moved pr { pr with point := .masterPass pr.restartWorkerPid }
  | endPass (hp : pr.point = .masterPass []) :
    Moved pr { pr with point := .masterSleep, restartWorkerPid := [] }
  | leave (caller : WorkerCaller) (hp : pr.point = .workerRun caller) :
    Moved pr (pr.leaveWorkerRun caller)
  | stay {pr' : RunningServer} (hmode : pr'.server.mode = pr.server.mode) (hp : pr'.point = pr.point)
    (hret : pr'.workerReturned = pr.workerReturned) : Moved pr pr'

theorem moved_of_move (hm : pr.move m = some pr') : Moved pr pr' := by
  cases m with
  | run =>
    simp only [RunningServer.move, Option.ite_none_right_eq_some, Option.some.injEq] at hm
    obtain ⟨hp, rfl⟩ := hm
    exact .run hp
  | wake =>
    simp only [RunningServer.move, Option.ite_none_right_eq_some, Option.some.injEq] at hm
    obtain ⟨hp, rfl⟩ := hm
    exact .wake hp
  | endPass =>
    simp only [RunningServer.move, Option.ite_none_right_eq_some, Option.some.injEq] at hm
    obtain ⟨hp, rfl⟩ := hm
    exact .endPass hp
  | signal signo rs =>
    have hsignal : pr.signalCallback signo rs = some pr' := by
      simp only [RunningServer.move] at hm
      split at hm
      · exact hm
      · exact hm
      · cases hm
    obtain ⟨hmode, hpoint, hret⟩ := signalCallback_keeps hsignal
    exact .stay hmode hpoint hret
  | serve connSize =>
    simp only [RunningServer.move] at hm
    split at hm
    · next caller hp =>
      split_ifs at hm <;> obtain rfl := Option.some.inj hm
      · exact .leave caller hp
      · exact .stay rfl rfl rfl
    · cases hm

theorem ModeAsCalled.move (h : pr.ModeAsCalled) (hm : pr.move m = some pr') :
    pr'.ModeAsCalled := by
  cases moved_of_move hm with
  | run hp => rfl
  | wake hp => simpa [ModeAsCalled, hp] using h
  | endPass hp => simpa [ModeAsCalled, hp] using h
  | leave caller hp =>
    cases caller with
    | run => trivial
    | masterRun => simpa [ModeAsCalled, hp, leaveWorkerRun] using h
  | stay hmode hp hret => simpa only [ModeAsCalled, hmode, hp] using h

theorem signalCallback_sighup {sv : ServerProcess} (hmode : sv.mode = .worker) :
    (sv.signalCallback .sighup).gracefulShutdown = true := by
  simp [ServerProcess.signalCallback, hmode]

theorem RightWorker.of_worker (hmode : pr.server.mode = .worker) (hret : pr.workerReturned = false) :
    pr.RightWorker :=
  ⟨fun _ _ => hmode, fun _ _ => signalCallback_sighup hmode, fun h => by simp [hret] at h⟩

theorem RightWorker.of_not_worker (hp : ∀ caller, pr.point ≠ .workerRun caller)
    (hret : pr.workerReturned = true → ∃ ret, pr.point = .returned ret) : pr.RightWorker :=
  ⟨fun c hc => absurd hc (hp c), fun c hc => absurd hc (hp c), hret⟩

theorem RightWorker.workerReturned_eq (h : pr.RightWorker) (hp : ∀ ret, pr.point ≠ .returned ret) :
    pr.workerReturned = false := by
  by_contra hr
  obtain ⟨ret, hret⟩ := h.leaves (by simpa using hr)
  exact hp ret hret

theorem RightWorker.move (h : pr.RightWorker) (hmode : pr.ModeAsCalled)
    (hm : pr.move m = some pr') : pr'.RightWorker := by
  cases moved_of_move hm with
  | run hp =>
    have hret := h.workerReturned_eq (by simp [hp])
    exact .of_not_worker (by simp) (by simp [setMode, hret])
  | wake hp =>
    have hret := h.workerReturned_eq (by simp [hp])
    exact .of_not_worker (by simp) (by simp [hret])
  | endPass hp =>
    have hret := h.workerReturned_eq (by simp [hp])
    exact .of_not_worker (by simp) (by simp [hret])
  | leave caller hp =>
    cases caller with
    | run => exact .of_not_worker (by simp [leaveWorkerRun]) fun _ => ⟨0, rfl⟩
    | masterRun =>
      have hworker := h.mode _ hp
      simp [ModeAsCalled, hp, hworker] at hmode
  | stay hsame hp hret =>
    have hworker (caller) (hc : pr'.point = .workerRun caller) : pr'.server.mode = .worker :=
      hsame.trans (h.mode caller (hp.symm.trans hc))
    exact ⟨hworker, fun c hc => signalCallback_sighup (hworker c hc),
      fun hr => hp ▸ h.leaves (hret.symm.trans hr)⟩

theorem not_rightWorker_restarted (hmode : pr.ModeAsCalled) {rest : List Nat}
    (hp : pr.point = .masterPass rest) :
    ¬ ({ pr with point := .workerRun .masterRun, workerReturned := false } :
      RunningServer).RightWorker := by
  intro h
  have hworker := h.mode .masterRun rfl
  have hmaster : pr.server.mode = .master := by simpa [ModeAsCalled, hp] using hmode
  simp [hmaster] at hworker

theorem fork_none {r : RunningServer × Option RunningServer} (hf : pr.fork none = some r)
    (hmode : pr.ModeAsCalled) :
    r.1.ModeAsCalled ∧ (pr.RightWorker → r.1.RightWorker) := by
  cases hp : pr.point with
  | forking left =>
    cases left with
    | zero => simp [fork, hp] at hf
    | succ left =>
      simp only [fork, hp, Option.some.injEq] at hf
      subst hf
      exact ⟨trivial, fun _ => .of_not_worker (by simp) fun _ => ⟨_, rfl⟩⟩
  | masterPass rest =>
    cases rest with
    | nil => simp [fork, hp] at hf
    | cons pid rest =>
      simp only [fork, hp, Option.some.injEq] at hf
      subst hf
      refine ⟨by simpa [ModeAsCalled, hp] using hmode, fun h => ?_⟩
      have hret := h.workerReturned_eq (by simp [hp])
      exact .of_not_worker (by simp) (by simp [hret])
  | masterSleep | workerRun _ | returned _ | fault => simp [fork, hp] at hf

theorem fork_some {q : Nat} {r : RunningServer × Option RunningServer}
    (hf : pr.fork (some q) = some r) (hmode : pr.ModeAsCalled) :
    ∃ child, r.2 = some child ∧ r.1.ModeAsCalled ∧ child.ModeAsCalled ∧
      (pr.RightWorker → ((r.1.RightWorker ∧ child.RightWorker) ↔
        ∀ rest, pr.point ≠ .masterPass rest)) := by
  cases hp : pr.point with
  | forking left =>
    cases left with
    | zero => simp [fork, hp] at hf
    | succ left =>
      simp only [fork, hp, Option.some.injEq] at hf
      subst hf
      refine ⟨_, rfl, trivial, rfl, fun h => iff_of_true ?_ (by simp)⟩
      have hret := h.workerReturned_eq (by simp [hp])
      exact ⟨.of_not_worker (by simp) (by simp [hret]), .of_worker rfl hret⟩
  | masterPass rest =>
    cases rest with
    | nil => simp [fork, hp] at hf
    | cons pid rest =>
      simp only [fork, hp, Option.some.injEq] at hf
      subst hf
      refine ⟨_, rfl, ?_, by simpa [ModeAsCalled, hp] using hmode, fun _ => iff_of_false ?_ ?_⟩
      · split
        · trivial
        · simpa [ModeAsCalled, hp] using hmode
      · exact fun hr => not_rightWorker_restarted hmode hp hr.2
      · exact fun hr => hr _ rfl
  | masterSleep | workerRun _ | returned _ | fault => simp [fork, hp] at hf

end RunningServer

namespace ServerTree

variable {P : RunningServer → Prop} {s s' : ServerTree} {p q : Nat} {pr child : RunningServer}
  {a : Nat × RunAction}

theorem all_update (h : s.All P) (hpr : P pr) : All P (Function.update s p (some pr)) := by
  intro q x hq
  by_cases hqp : q = p
  · subst hqp
    rw [Function.update_self] at hq
    exact Option.some.inj hq ▸ hpr
  · rw [Function.update_of_ne hqp] at hq
    exact h q x hq

theorem all_update_none (h : s.All P) (p : Nat) : All P (Function.update s p none) := by
  intro q x hq
  by_cases hqp : q = p
  · subst hqp
    simp at hq
  · rw [Function.update_of_ne hqp] at hq
    exact h q x hq

theorem all_fork_iff (h : s.All P) (hpq : p ≠ q) :
    All P (Function.update (Function.update s p (some pr)) q (some child)) ↔ P pr ∧ P child := by
  constructor
  · intro hall
    refine ⟨hall p pr ?_, hall q child (Function.update_self ..)⟩
    rw [Function.update_of_ne hpq, Function.update_self]
  · rintro ⟨hpr, hchild⟩
    exact all_update (all_update h hpr) hchild

/-- The mode stays as called, and all is right as long as no worker is forked in `MasterRun`. -/
theorem step_spec (hmode : s.All RunningServer.ModeAsCalled) (hs : s.step a = some s') :
    s'.All RunningServer.ModeAsCalled ∧
      (s.All RunningServer.RightWorker → (s'.All RunningServer.RightWorker ↔ s.NoRestart a)) := by
  obtain ⟨p, act⟩ := a
  obtain ⟨pr, hpr, hs⟩ := Option.bind_eq_some_iff.mp hs
  have hm := hmode p pr hpr
  cases act with
  | move m =>
    obtain ⟨pr', hpr', rfl⟩ := Option.map_eq_some_iff.mp hs
    refine ⟨all_update hmode (hm.move hpr'), fun h => iff_of_true ?_ (by simp [NoRestart])⟩
    exact all_update h ((h p pr hpr).move hm hpr')
  | die =>
    obtain rfl := Option.some.inj hs
    exact ⟨all_update_none hmode p, fun h => iff_of_true (all_update_none h p) (by simp [NoRestart])⟩
  | fork newPid =>
    cases newPid with
    | none =>
      obtain ⟨r, hr, rfl⟩ := Option.map_eq_some_iff.mp hs
      obtain ⟨hm', hright⟩ := RunningServer.fork_none hr hm
      refine ⟨all_update hmode hm', fun h => iff_of_true ?_ (by simp [NoRestart])⟩
      exact all_update h (hright (h p pr hpr))
    | some q =>
      simp only [Option.ite_none_right_eq_some] at hs
      obtain ⟨hq, hs⟩ := hs
      obtain ⟨r, hr, rfl⟩ := Option.map_eq_some_iff.mp hs
      obtain ⟨child, hchild, hm', hmc, hright⟩ := RunningServer.fork_some hr hm
      have hpq : p ≠ q := by
        rintro rfl
        simp [hq] at hpr
      rw [hchild]
      refine ⟨(all_fork_iff hmode hpq).mpr ⟨hm', hmc⟩, fun h => ?_⟩
      rw [all_fork_iff h hpq, hright (h p pr hpr)]
      constructor
      · intro hp q' pr' rest _ hpr'
        obtain rfl := Option.some.inj (hpr.symm.trans hpr')
        exact hp rest
      · exact fun hn rest => hn q pr rest rfl hpr

theorem all_start {workerNum : Nat} (hP : P { point := .forking workerNum }) (m : Nat) :
    (start m workerNum).All P :=
  all_update (by simp [All]) hP

end ServerTree

/-- Every process in `WorkerRun` is a worker that heeds SIGHUP and leaves `Run` afterwards,
exactly in the runs in which no dead worker is replaced. -/
theorem workers_right_iff_none_restarted (m workerNum : Nat) (as : List (Nat × RunAction)) :
    (∀ s, Visits ServerTree.step (.start m workerNum) as s → s.All RunningServer.RightWorker) ↔
      ∀ s a s', Takes ServerTree.step (.start m workerNum) as s a s' → s.NoRestart a := by
  have hmode : (ServerTree.start m workerNum).All RunningServer.ModeAsCalled :=
    ServerTree.all_start trivial m
  have hright : (ServerTree.start m workerNum).All RunningServer.RightWorker :=
    ServerTree.all_start (.of_not_worker (by simp) (by simp)) m
  exact forall_visits_iff_forall_takes_under hright hmode
    (fun _ _ _ hm hs => (ServerTree.step_spec hm hs).1)
    fun _ _ _ hr hm hs => (ServerTree.step_spec hm hs).2 hr

/-- Worker 2 dies and is replaced by 3, which is in `WorkerRun` with the mode of the master
and stays there after SIGHUP. -/
theorem restarted_worker_ignores_sighup :
    ((exec ServerTree.step (.start 1 1) [(1, .fork (some 2)), (1, .move .run), (2, .die),
        (1, .move (.signal .sigchld [.exited 2])), (1, .move .wake), (1, .fork (some 3)),
        (3, .move (.signal .sighup [])), (3, .move (.serve 0))]).bind (· 3)).map
      (fun pr => (pr.point, pr.server.mode, pr.server.gracefulShutdown)) =
        some (.workerRun .masterRun, .master, false) ∧
    ¬ ∀ m workerNum as s, Visits ServerTree.step (.start m workerNum) as s →
      s.All RunningServer.RightWorker := by
  have hrun : ∃ s pr, exec ServerTree.step (.start 1 1) [(1, .fork (some 2)), (1, .move .run),
      (2, .die), (1, .move (.signal .sigchld [.exited 2])), (1, .move .wake), (1, .fork (some 3))] =
        some s ∧ s 3 = some pr ∧ pr.point = .workerRun .masterRun ∧ pr.server.mode = .master :=
    ⟨_, _, rfl, rfl, rfl, rfl⟩
  refine ⟨rfl, fun hall => ?_⟩
  obtain ⟨s, pr, hs, hpr, hp, hmode⟩ := hrun
  have hworker := (hall 1 1 _ s (.of_exec hs) 3 pr hpr).mode _ hp
  simp [hmode] at hworker

end Tinyco
