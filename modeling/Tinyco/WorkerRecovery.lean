import Mathlib.Data.Fintype.EquivFin
import Tinyco.ChildSignals
import Tinyco.ListenerShut
import Tinyco.WorkerPool
import Tinyco.WorkerReap

/-! From which states the master can fill every slot again, but those for which a fork has failed: it
has to read a `SIGCHLD` for each dead worker. -/

namespace Tinyco

variable {n : Nat} {c : Fin n → SrvWork}

/-- What the master does in a pass, with forks that succeed. -/
def ClusterLabel.passes : ClusterLabel n → Bool
  | .beginPass | .pick | .compare | .store | .fork (some _) | .endPass => true
  | _ => false

theorem ClusterLabel.quiet_of_passes {a : ClusterLabel n} (ha : a.passes = true) :
    a.reaps = false ∧ a.dies = false := by
  cases a <;> simp [passes, reaps, dies] at ha ⊢

section Passes

variable {s t : Cluster n}

/-- The master gets from one state to the other in its passes. -/
abbrev Cluster.Passes (c : Fin n → SrvWork) : Cluster n → Cluster n → Prop :=
  Leads (Cluster.step c) fun a => a.passes = true

theorem LockInvariant.passes (hinv : LockInvariant s) (h : Cluster.Passes c s t) :
    LockInvariant t :=
  Leads.invariant hinv (fun _ _ _ hi hs => hi.step hs) h

namespace Cluster

/-- The words of the listeners that are left are looked at, and cleared if need be. -/
theorem passes_compare {pid : Nat} {ls : List (Fin n)} {rest : List Nat}
    (hm : s.master = .compare pid ls rest) :
    ∃ t, Passes c s t ∧ t.master = .compare pid [] rest ∧ t.zombies = s.zombies := by
  induction ls generalizing s with
  | nil => exact ⟨s, .refl s, hm, rfl⟩
  | cons l ls ih =>
    have hcompare : s.step c .compare = some { s with
        master := if s.words l = pid then .store pid l ls rest else .compare pid ls rest } := by
      simp only [step, hm]
    by_cases hword : s.words l = pid
    · rw [if_pos hword] at hcompare
      obtain ⟨t, ht, hmt, hz⟩ := ih (s := { s.setWord l 0 with master := .compare pid ls rest }) rfl
      exact ⟨t, .cons rfl hcompare (.cons (a := .store) rfl rfl ht), hmt, hz⟩
    · rw [if_neg hword] at hcompare
      obtain ⟨t, ht, hmt, hz⟩ := ih (s := { s with master := .compare pid ls rest }) rfl
      exact ⟨t, .cons rfl hcompare ht, hmt, hz⟩

theorem passes_fork {pid : Nat} {rest : List Nat} (hinv : LockInvariant s)
    (hm : s.master = .compare pid [] rest) :
    ∃ t, Passes c s t ∧ t.master = .pick rest ∧ t.zombies = s.zombies := by
  obtain ⟨q, hq⟩ := Infinite.exists_notMem_finset
    (insert 0 (s.live ∪ s.zombies ∪ s.restartWorkerPid.toFinset))
  simp only [Finset.mem_insert, Finset.mem_union, List.mem_toFinset, not_or] at hq
  have hpid : pid ∈ s.workerProcesses :=
    hinv.pids.in_table pid (.inr (.inr (by rw [unprocessed, hm]; exact List.mem_cons_self)))
  cases ht : replaceLast pid q s.workerProcesses with
  | none => exact absurd hpid (replaceLast_eq_none ht)
  | some table =>
    have hstep : s.step c (.fork (some q)) = some { s with
        live := insert q s.live
        loops := Function.update s.loops q fun _ => {}
        workerProcesses := table
        master := .pick rest } := by
      simp only [step, hm, fork, ht, hq, ne_eq, not_false_eq_true, and_self, if_true]
    exact ⟨_, .cons rfl hstep (.refl _), rfl, rfl⟩

theorem passes_pick {rest : List Nat} (hinv : LockInvariant s) (hm : s.master = .pick rest) :
    ∃ t, Passes c s t ∧ t.master = .pick [] ∧ t.zombies = s.zombies := by
  induction rest generalizing s with
  | nil => exact ⟨s, .refl s, hm, rfl⟩
  | cons pid rest ih =>
    have hpick : Passes c s { s with master := .compare pid (List.finRange n) rest } :=
      .cons (a := .pick) rfl (by simp only [step, hm]) (.refl _)
    obtain ⟨t, ht, hmt, hzt⟩ := passes_compare (c := c)
      (s := { s with master := .compare pid (List.finRange n) rest }) rfl
    have hst := hpick.trans ht
    obtain ⟨u, hu, hmu, hzu⟩ := passes_fork (c := c) (hinv.passes hst) hmt
    have hsu := hst.trans hu
    obtain ⟨v, hv, hmv, hzv⟩ := ih (hinv.passes hsu) hmu
    exact ⟨v, hsu.trans hv, hmv, hzv.trans (hzu.trans hzt)⟩

/-- A pass, from its beginning or from where it is, ends with an empty queue. -/
theorem passes_pass (hinv : LockInvariant s) :
    ∃ t, Passes c s t ∧ t.master = .sleep ∧ t.restartWorkerPid = [] ∧ t.zombies = s.zombies := by
  have hend {rest : List Nat} {u : Cluster n} (hu : Passes c s u) (hm : u.master = .pick rest)
      (hz : u.zombies = s.zombies) : ∃ t, Passes c s t ∧ t.master = .sleep ∧
        t.restartWorkerPid = [] ∧ t.zombies = s.zombies := by
    obtain ⟨v, hv, hmv, hzv⟩ := passes_pick (c := c) (hinv.passes hu) hm
    refine ⟨{ v with restartWorkerPid := [], master := .sleep }, (hu.trans hv).trans
      (.cons (a := .endPass) rfl (by simp only [step, hmv]) (.refl _)), rfl, rfl, hzv.trans hz⟩
  have hcompare {pid : Nat} {ls : List (Fin n)} {rest : List Nat} {u : Cluster n}
      (hu : Passes c s u) (hm : u.master = .compare pid ls rest) (hz : u.zombies = s.zombies) :
      ∃ t, Passes c s t ∧ t.master = .sleep ∧ t.restartWorkerPid = [] ∧ t.zombies = s.zombies := by
    obtain ⟨v, hv, hmv, hzv⟩ := passes_compare (c := c) hm
    have hsv := hu.trans hv
    obtain ⟨w, hw, hmw, hzw⟩ := passes_fork (c := c) (hinv.passes hsv) hmv
    exact hend (hsv.trans hw) hmw (hzw.trans (hzv.trans hz))
  cases hm : s.master with
  | sleep =>
    exact hend (u := { s with master := .pick s.restartWorkerPid })
      (.cons (a := .beginPass) rfl (by simp only [step, hm, if_true]) (.refl _)) rfl rfl
  | pick rest => exact hend (.refl s) hm rfl
  | compare pid ls rest => exact hcompare (.refl s) hm rfl
  | store pid l ls rest =>
    exact hcompare (u := { s.setWord l 0 with master := .compare pid ls rest })
      (.cons (a := .store) rfl (by simp only [step, hm]) (.refl _)) rfl rfl
  | fault => exact absurd hm hinv.no_fault

/-- One call of `GetWorkerStatus` reaps at most one worker. -/
theorem card_getWorkerStatus {rs : List WaitResult} (hs : s.getWorkerStatus rs = some t) :
    s.zombies.card ≤ t.zombies.card + 1 := by
  induction rs with
  | nil => cases hs
  | cons r rs ih =>
    cases r with
    | none => exact Option.some.inj hs ▸ Nat.le_succ _
    | error => exact Option.some.inj hs ▸ Nat.le_succ _
    | eintr => exact ih hs
    | exited pid =>
      simp only [getWorkerStatus, Option.ite_none_right_eq_some, Option.some.injEq] at hs
      obtain ⟨hpid, rfl⟩ := hs
      rw [Finset.card_erase_add_one hpid]

/-- Apart from deaths and `GetWorkerStatus`, the dead workers stay as they are. -/
theorem zombies_step {a : ClusterLabel n} (hreaps : a.reaps = false) (hdies : a.dies = false)
    (hs : s.step c a = some t) : t.zombies = s.zombies := by
  cases moved_of_step hs with
  | die => cases hdies
  | getWorkerStatus => cases hreaps
  | _ => rfl

end Cluster

end Passes

/-- What the master does on its own, with forks that succeed. -/
def NotifiedLabel.recovers : NotifiedLabel n → Bool
  | .step a => a.passes
  | .handle | .readMaster _ => true
  | .deliver _ | .readWorker _ => false

/-- No notification is lost in the step: no worker reads one, no worker dies while the signal of
another death is pending, and `waitpid` returns a dead worker if there is one. -/
def NotifiedLabel.Keeps (s : Notified n) : NotifiedLabel n → Prop
  | .step a => a.dies = true → s.sigchldPending = false
  | .readWorker _ => s.pair.head? ≠ some .sigchld
  | .readMaster rs => s.pair.head? = some .sigchld → s.cluster.WaitAnswers rs
  | .deliver _ | .handle => True

namespace Notified

variable {s t : Notified n} {b : NotifiedLabel n}

/-- The master gets from one state to the other on its own. -/
abbrev Recovers (c : Fin n → SrvWork) : Notified n → Notified n → Prop :=
  Leads (Notified.step c) fun b => b.recovers = true

theorem recovers_of_passes {u : Cluster n} (h : Cluster.Passes c s.cluster u) :
    Recovers c s { s with cluster := u } := by
  refine Leads.lift (f := fun k => ({ s with cluster := k } : Notified n)) .step
    (fun k a k' ha hk => ?_) h
  obtain ⟨hreaps, hdies⟩ := ClusterLabel.quiet_of_passes ha
  exact ⟨ha, step_of_cluster hreaps hdies hk⟩

/-- The handler is called if the signal is pending. -/
theorem recovers_handle (s : Notified n) :
    ∃ t, Recovers c s t ∧ t.cluster = s.cluster ∧ t.pair.count .sigchld = s.unread := by
  cases hp : s.sigchldPending with
  | false => exact ⟨s, .refl s, rfl, by simp [unread, hp]⟩
  | true =>
    exact ⟨{ s with sigchldPending := false, pair := s.pair ++ [.sigchld] },
      .single (a := .handle) rfl (by simp [step, hp]), rfl, by simp [unread, hp]⟩

/-- The master reads up to the next notification and waits for `w`. -/
theorem recovers_reap_one {w : Nat} (hm : s.cluster.master = .sleep) (hw : w ∈ s.cluster.zombies)
    (hpos : 0 < s.pair.count .sigchld) :
    ∃ t, Recovers c s t ∧ t.cluster = s.cluster.reap w ∧
      t.pair.count .sigchld + 1 = s.pair.count .sigchld := by
  induction hpair : s.pair generalizing s with
  | nil => simp [hpair] at hpos
  | cons signo rest ih =>
    have hskip (hs : s.step c (.readMaster []) = some { s with pair := rest })
        (hcount : s.pair.count .sigchld = rest.count .sigchld) :
        ∃ t, Recovers c s t ∧ t.cluster = s.cluster.reap w ∧
          t.pair.count .sigchld + 1 = (signo :: rest).count .sigchld := by
      obtain ⟨t, ht, hreap, hleft⟩ := ih (s := { s with pair := rest }) hm hw (hcount ▸ hpos) rfl
      exact ⟨t, .cons (a := .readMaster []) rfl hs ht, hreap, by rw [hleft, ← hcount, hpair]⟩
    cases signo with
    | sigchld =>
      refine ⟨{ s with cluster := s.cluster.reap w, pair := rest },
        .single (a := .readMaster [.exited w]) rfl ?_, rfl, by simp⟩
      simp [step, hpair, hm, signalCallback, Cluster.getWorkerStatus, hw, Cluster.reap]
    | sighup => exact hskip (by simp [step, hpair, hm, signalCallback]) (by simp [hpair])
    | sigusr1 => exact hskip (by simp [step, hpair, hm, signalCallback]) (by simp [hpair])

theorem recovers_reap (hm : s.cluster.master = .sleep)
    (hle : s.cluster.zombies.card ≤ s.pair.count .sigchld) :
    ∃ t, Recovers c s t ∧ t.cluster.master = .sleep ∧ t.cluster.zombies = ∅ := by
  induction hk : s.cluster.zombies.card generalizing s with
  | zero => exact ⟨s, .refl s, hm, Finset.card_eq_zero.mp hk⟩
  | succ k ih =>
    obtain ⟨w, hw⟩ : s.cluster.zombies.Nonempty := Finset.card_pos.mp (by omega)
    obtain ⟨u, hu, hreap, hcount⟩ := recovers_reap_one (c := c) hm hw (by omega)
    have hcard : u.cluster.zombies.card = k := by
      rw [hreap, Cluster.reap, Finset.card_erase_of_mem hw, hk, Nat.add_sub_cancel]
    obtain ⟨t, ht, hmt, hz⟩ := ih (s := u) (by rw [hreap]; exact hm) (by omega) hcard
    exact ⟨t, hu.trans ht, hmt, hz⟩

/-- The pass under way is ended, the dead are waited for, and a pass restarts them. -/
theorem recovers_all (hinv : LockInvariant s.cluster) (hle : s.cluster.zombies.card ≤ s.unread) :
    ∃ t, Recovers c s t ∧ t.cluster.master = .sleep ∧ t.cluster.restartWorkerPid = [] ∧
      t.cluster.zombies = ∅ := by
  obtain ⟨k, hk, hm, -, hz⟩ := Cluster.passes_pass (c := c) hinv
  have h₁ := recovers_of_passes hk
  obtain ⟨u, h₂, hu, hcount⟩ := recovers_handle (c := c) { s with cluster := k }
  have hunread : ({ s with cluster := k } : Notified n).unread = s.unread := rfl
  obtain ⟨v, h₃, hmv, hzv⟩ := recovers_reap (c := c) (s := u) (by rw [hu]; exact hm)
    (by rw [hu, hcount, hunread]; exact hz ▸ hle)
  have h₁₃ := (h₁.trans h₂).trans h₃
  have hinv' : LockInvariant v.cluster :=
    h₁₃.invariant (I := fun x => LockInvariant x.cluster) hinv fun _ _ _ => lockInvariant_step
  obtain ⟨k', hk', hm', hq, hz'⟩ := Cluster.passes_pass (c := c) hinv'
  exact ⟨{ v with cluster := k' }, h₁₃.trans (recovers_of_passes hk'), hm', hq, hz'.trans hzv⟩

/-- What the master does on its own reaps no more workers than it reads notifications. -/
theorem unread_step (hb : b.recovers = true) (hs : s.step c b = some t) :
    s.cluster.zombies.card + t.unread ≤ t.cluster.zombies.card + s.unread := by
  cases b with
  | step a =>
    simp only [step, Option.ite_none_left_eq_some, Option.map_eq_some_iff] at hs
    obtain ⟨-, k, hk, rfl⟩ := hs
    obtain ⟨hreaps, hdies⟩ := ClusterLabel.quiet_of_passes hb
    simp [unread, hdies, Cluster.zombies_step hreaps hdies hk]
  | handle =>
    simp only [step, Option.ite_none_right_eq_some, Option.some.injEq] at hs
    obtain ⟨hp, rfl⟩ := hs
    simp [unread, hp]
  | readMaster rs =>
    simp only [step] at hs
    split at hs
    · next signo rest hpair =>
      rw [Option.ite_none_right_eq_some] at hs
      cases signo with
      | sigchld =>
        obtain ⟨k, hk, rfl⟩ := Option.map_eq_some_iff.mp hs.2
        have hcard : s.cluster.zombies.card ≤ k.zombies.card + 1 := Cluster.card_getWorkerStatus hk
        simp only [unread, hpair, List.count_cons_self]
        omega
      | sighup | sigusr1 =>
        obtain rfl := Option.some.inj hs.2
        simp [unread, hpair]
    · cases hs
  | deliver signo => cases hb
  | readWorker p => cases hb

theorem unread_of_recovers (h : Recovers c s t) :
    s.cluster.zombies.card + t.unread ≤ t.cluster.zombies.card + s.unread := by
  refine Leads.invariant_of
    (I := fun u => s.cluster.zombies.card + u.unread ≤ u.cluster.zombies.card + s.unread) le_rfl
    (fun u b v hb hu hs => ?_) h
  have := unread_step hb hs
  omega

/-- There is a notification for every dead worker as long as none is lost. -/
theorem keeps_step (h : s.cluster.zombies.card ≤ s.unread) (hb : b.Keeps s)
    (hs : s.step c b = some t) : t.cluster.zombies.card ≤ t.unread := by
  cases b with
  | step a =>
    simp only [step, Option.ite_none_left_eq_some, Option.map_eq_some_iff] at hs
    obtain ⟨hreaps, k, hk, rfl⟩ := hs
    cases hdies : a.dies with
    | false =>
      rw [Cluster.zombies_step (by simpa using hreaps) hdies hk]
      simpa [unread, hdies] using h
    | true =>
      have hp := hb hdies
      cases a <;> simp only [ClusterLabel.dies, reduceCtorEq] at hdies
      simp only [Cluster.step, Option.ite_none_right_eq_some, Option.some.injEq] at hk
      obtain ⟨-, rfl⟩ := hk
      refine (Finset.card_insert_le _ _).trans ?_
      simpa [unread, ClusterLabel.dies, hp] using h
  | deliver signo =>
    obtain rfl := Option.some.inj hs
    refine h.trans ?_
    simp [unread, List.count_append]
  | handle =>
    simp only [step, Option.ite_none_right_eq_some, Option.some.injEq] at hs
    obtain ⟨hp, rfl⟩ := hs
    simpa [unread, hp] using h
  | readWorker p =>
    simp only [step] at hs
    split at hs
    · next signo rest hpair =>
      rw [Option.ite_none_right_eq_some, Option.some.injEq] at hs
      obtain ⟨-, rfl⟩ := hs
      have hne : signo ≠ .sigchld := by simpa [NotifiedLabel.Keeps, hpair] using hb
      simpa [unread, hpair, List.count_cons_of_ne hne] using h
    · cases hs
  | readMaster rs =>
    simp only [step] at hs
    split at hs
    · next signo rest hpair =>
      rw [Option.ite_none_right_eq_some] at hs
      cases signo with
      | sigchld =>
        obtain ⟨k, hk, rfl⟩ := Option.map_eq_some_iff.mp hs.2
        simp only [unread, hpair, List.count_cons_self] at h ⊢
        rcases Cluster.getWorkerStatus_cases (hb (by rw [hpair]; rfl)) with ⟨hz, hsame⟩ | ⟨w, hw, hreap⟩
        · obtain rfl := Option.some.inj (hsame.symm.trans hk)
          simp [hz]
        · obtain rfl := Option.some.inj (hreap.symm.trans hk)
          have hcard := Finset.card_erase_add_one hw
          simp only [Cluster.reap]
          omega
      | sighup | sigusr1 =>
        obtain rfl := Option.some.inj hs.2
        simpa [unread, hpair] using h
    · cases hs

end Notified

/-- The master can on its own get from a state that a run has reached to one in which every slot has a
running worker again, but for one slot for each fork that has failed, exactly if it can still read as
many notifications as there are dead workers it has not waited for. This is so as long as none is
lost. -/
theorem workers_recoverable (c : Fin n → SrvWork) {pids : List Nat} (h0 : 0 ∉ pids)
    (hnodup : pids.Nodup) {bs : List (NotifiedLabel n)} {s : Notified n}
    (h : exec (Notified.step c) (Notified.start n pids) bs = some s) :
    ((∃ (ds : List (NotifiedLabel n)) (t : Notified n), (∀ d ∈ ds, d.recovers = true) ∧
        exec (Notified.step c) s ds = some t ∧ t.cluster.master = .sleep ∧ t.cluster.zombies = ∅ ∧
        t.cluster.restartWorkerPid = [] ∧
        t.cluster.live.card + bs.count (.step (.fork none)) = pids.length) ↔
      s.cluster.zombies.card ≤ s.unread) ∧
    ((∀ x b y, Takes (Notified.step c) (Notified.start n pids) bs x b y → b.Keeps x) →
      s.cluster.zombies.card ≤ s.unread) := by
  refine ⟨⟨?_, fun hle => ?_⟩, fun hkeeps => ?_⟩
  · rintro ⟨ds, t, hds, ht, -, hz, -⟩
    have hbound := Notified.unread_of_recovers ⟨ds, hds, ht⟩
    rw [hz, Finset.card_empty] at hbound
    omega
  · have hinv : LockInvariant s.cluster := (Visits.of_exec h).invariant
      (I := fun x => LockInvariant x.cluster) (.start h0) fun _ _ _ => Notified.lockInvariant_step
    obtain ⟨as, has, hforks, -⟩ := Notified.exec_cluster h
    obtain ⟨lost, hslots, hlen⟩ := (Cluster.slotsBut_start hnodup).exec (.start h0) has
    obtain ⟨t, ⟨ds, hds, ht⟩, hm, hq, hz⟩ := Notified.recovers_all (c := c) hinv hle
    obtain ⟨as', has', hforks', -⟩ := Notified.exec_cluster ht
    have hnone : ds.count (.step (.fork none)) = 0 :=
      List.count_eq_zero.mpr fun hmem => Bool.noConfusion (hds _ hmem)
    obtain ⟨lost', hslots', hlen'⟩ := hslots.exec hinv has'
    refine ⟨ds, t, hds, ht, hm, hz, hq, ?_⟩
    have hcard := hslots'.card
    rw [hz, Cluster.unprocessed, hm, MasterPoint.unprocessed, hq] at hcard
    simpa [hlen', hlen, hforks, hforks', hnone] using hcard
  · exact (Visits.of_exec h).invariant_takes
      (I := fun x => x.cluster.zombies.card ≤ x.unread) (Nat.zero_le _)
      fun x b y hx hxy => Notified.keeps_step hx (hkeeps x b y hxy) hxy.step_eq

-- worker 8 can be restarted, but not when it dies while the signal of worker 7 is pending
theorem workers_recoverable_two_dead :
    (∃ s : Notified 0, exec (Notified.step fun i => i.elim0) (Notified.start 0 [7, 8])
        [.step (.die 7), .handle, .step (.die 8), .handle, .readMaster [.exited 7],
          .step .beginPass, .step .pick] = some s ∧ s.cluster.live = ∅ ∧
      ∃ (ds : List (NotifiedLabel 0)) (t : Notified 0),
        exec (Notified.step fun i => i.elim0) s ds = some t ∧ t.cluster.live.card + 0 = 2) ∧
    ∃ s : Notified 0, exec (Notified.step fun i => i.elim0) (Notified.start 0 [7, 8])
        [.step (.die 7), .step (.die 8), .handle] = some s ∧
      ¬ ∃ (ds : List (NotifiedLabel 0)) (t : Notified 0), (∀ d ∈ ds, d.recovers = true) ∧
        exec (Notified.step fun i => i.elim0) s ds = some t ∧ t.cluster.master = .sleep ∧
        t.cluster.zombies = ∅ ∧ t.cluster.restartWorkerPid = [] ∧
        t.cluster.live.card + 0 = 2 := by
  refine ⟨?_, ?_⟩
  · obtain ⟨s, hs, hlive, hle⟩ : ∃ s, exec (Notified.step fun i => i.elim0)
        (Notified.start 0 [7, 8]) [.step (.die 7), .handle, .step (.die 8), .handle,
          .readMaster [.exited 7], .step .beginPass, .step .pick] = some s ∧ s.cluster.live = ∅ ∧
        s.cluster.zombies.card ≤ s.unread := ⟨_, rfl, by decide, by decide⟩
    obtain ⟨ds, t, -, ht, -, -, -, hcard⟩ :=
      (workers_recoverable _ (by decide) (by decide) hs).1.mpr hle
    exact ⟨s, hs, hlive, ds, t, ht, hcard⟩
  · obtain ⟨s, hs, hlt⟩ : ∃ s, exec (Notified.step fun i => i.elim0)
        (Notified.start 0 [7, 8]) [.step (.die 7), .step (.die 8), .handle] = some s ∧
        s.unread < s.cluster.zombies.card := ⟨_, rfl, by decide⟩
    exact ⟨s, hs, fun hex =>
      absurd ((workers_recoverable _ (by decide) (by decide) hs).1.mp hex) (by omega)⟩

end Tinyco
