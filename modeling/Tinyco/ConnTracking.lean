import Tinyco.AcceptLoop
import Tinyco.FdOwners

/-! The connections of a worker: accept loops on its listeners that make a `TcpReqWork` for
each, the `ConnTracker` that counts them, and the loop of `WorkerRun` that waits for the last
one. The coroutines of a worker run one at a time. -/

namespace Tinyco

/-- The descriptor a loop has accepted and not yet passed on. -/
def SrvPoint.inHand : SrvPoint → Option Int
  | .unlock fd | .setNonBlock fd | .close fd | .build fd => some fd
  | _ => none

/-- The calls in which the loop may be switched out, or is over. -/
def SrvPoint.yields : SrvPoint → Bool
  | .herdSleep | .lockSleep _ | .accept | .recvfrom | .returned _ | .fault => true
  | _ => false

/-- `works` are the `sockfd_` of the `TcpReqWork` objects, `listenFds` those of the listeners
that have not been deleted, `running` is the accept loop that has control, `left` says that
`WorkerRun` has left its loop. -/
structure ConnWorker (n : Nat) where
  loops : Fin n → SrvLoop := fun _ => {}
  listenFds : Fin n → Option Int
  openFds : Finset Int
  works : List Int := []
  conns : AssocMap Int Unit := .empty
  running : Option (Fin n) := none
  gracefulShutdown : Bool := false
  left : Bool := false

/-- `openFd` and `closeFd` are of business work that has descriptors of its own. -/
inductive ConnLabel (n : Nat) where
  | srv (i : Fin n) (r : SrvReply)
  | finish (fd : Int)
  | openFd (fd : Int)
  | closeFd (fd : Int)
  | sighup
  | workerLoop
  deriving DecidableEq, Repr

namespace ConnWorker

variable {n : Nat}

def srvWork (workBuilder : Bool) : SrvWork := ⟨.tcp, workBuilder, true⟩

/-- `ConnTracker::GetConnSize`, a `uint32_t`. -/
def getConnSize (s : ConnWorker n) : Nat := s.conns.keys.length % 2 ^ 32

/-- `~TcpSrvWork` deletes the listener, which closes its descriptor. -/
def deleteListener (s : ConnWorker n) (i : Fin n) : ConnWorker n :=
  match s.listenFds i with
  | none => s
  | some l =>
    { s with
      listenFds := Function.update s.listenFds i none
      openFds := s.openFds.erase l }

/-- What the calls of a loop do to the descriptors and the tracker when it goes from `old` to
the point it is at. An accepted descriptor was not open. -/
def afterSrv (s : ConnWorker n) (i : Fin n) (old new : SrvPoint) : Option (ConnWorker n) :=
  match old, new with
  | .accept, .unlock fd =>
    if fd ∉ s.openFds ∧ fd < 2 ^ 31 then some { s with openFds := insert fd s.openFds } else none
  | .close fd, _ => some { s with openFds := s.openFds.erase fd }
  | .build _, .createThread fd =>
    some { s with works := s.works ++ [fd], conns := s.conns.assign fd () }
  | _, .returned _ => some (s.deleteListener i)
  | _, _ => some s

/-- `HandleProcess` deletes the work, whose destructor removes and closes its descriptor. -/
def finish (s : ConnWorker n) (fd : Int) : ConnWorker n :=
  { s with
    works := s.works.erase fd
    conns := s.conns.erase fd
    openFds := s.openFds.erase fd }

def step (workBuilder : Bool) (s : ConnWorker n) (a : ConnLabel n) : Option (ConnWorker n) :=
  if s.left then none
  else match a with
  | .srv i r =>
    if (s.running = none ∨ s.running = some i) ∧
        ∀ b, r = .gracefulShutdown b → b = s.gracefulShutdown then
      ((s.loops i).next (srvWork workBuilder) r).bind fun v =>
        ({ s with
          loops := Function.update s.loops i v
          running := if v.point.yields then none else some i }).afterSrv i (s.loops i).point v.point
    else none
  | .finish fd => if s.running = none ∧ fd ∈ s.works then some (s.finish fd) else none
  | .openFd fd =>
    if s.running = none ∧ fd ∉ s.openFds then
      some { s with openFds := insert fd s.openFds }
    else none
  | .closeFd fd =>
    if s.running = none ∧ fd ∉ s.works ∧ ∀ i, s.listenFds i ≠ some fd then
      some { s with openFds := s.openFds.erase fd }
    else none
  | .sighup => if s.running = none then some { s with gracefulShutdown := true } else none
  | .workerLoop =>
    if s.running = none then
      some (if s.gracefulShutdown = true ∧ s.getConnSize = 0 then { s with left := true } else s)
    else none

/-- The tracker knows the works, and the worker does not leave before the last is done. -/
structure Tracked (s : ConnWorker n) : Prop where
  keys : ∀ fd, fd ∈ s.conns.keys ↔ fd ∈ s.works
  nodup : s.works.Nodup
  isOpen : ∀ fd ∈ s.works, fd ∈ s.openFds
  size : s.getConnSize = s.works.length
  exit : s.left = true → s.gracefulShutdown = true ∧ s.works = [] ∧ s.running = none

end ConnWorker

/-- What a TCP loop may do with the descriptor in its hand: it takes it, closes it, passes it to
a work, ends, or does nothing the tracker or the kernel would notice. -/
inductive SrvMove : SrvPoint → SrvPoint → Prop where
  | accept {fd : Int} (h0 : 0 ≤ fd) : SrvMove .accept (.unlock fd)
  | close (fd : Int) : SrvMove (.close fd) .loopStart
  | build (fd : Int) : SrvMove (.build fd) (.createThread fd)
  | stop {old : SrvPoint} (ret : Int) (hclose : ∀ fd, old ≠ .close fd)
    (hbuild : ∀ fd, old ≠ .build fd) : SrvMove old (.returned ret)
  | quiet {old new : SrvPoint} (hnew : new.inHand = none ∨ new.inHand = old.inHand)
    (hquiet : ∀ {n : Nat} (s : ConnWorker n) (i : Fin n), s.afterSrv i old new = some s) :
    SrvMove old new

theorem SrvLoop.next_ne_recvfrom {c : SrvWork} {v v' : SrvLoop} {r : SrvReply} (hc : c.proto = .tcp)
    (h : v.next c r = some v') : v'.point ≠ .recvfrom := by
  cases hp : v.point <;> cases r <;> simp only [next, hp, Option.some.injEq, reduceCtorEq] at h
  case accept.accept rs =>
    obtain ⟨fd, -, rfl⟩ := Option.map_eq_some_iff.mp h
    by_cases hfd : fd < 0 <;> simp [afterAccept, hfd]
  case recvfrom.recvfrom rs =>
    obtain ⟨n, -, rfl⟩ := Option.map_eq_some_iff.mp h
    by_cases hn : 0 < n <;> by_cases hn' : n < 0 <;> simp [afterRecvfrom, hn, hn']
  all_goals subst h
  case loopStart.resume => by_cases h15 : v.accepted > 15 <;> simp [atLoopStart, hc, h15]
  case tryLock.tryLock ret => by_cases hr : ret < 0 <;> simp [afterTryLock, hc, hr]
  case unlock.unlock got ret => simp [afterUnlock, hc]
  case setNonBlock.setNonBlock fd ret =>
    by_cases hr : ret < 0 <;> cases hb : c.workBuilder <;> simp [afterSetNonBlock, hr, hb]
  case build.build got work => cases work <;> simp [afterBuild]
  case createThread.resume => cases hct : c.ct <;> simp [afterCreateThread, hc, hct]
  case gracefulShutdown.gracefulShutdown b => cases b <;> simp
  all_goals simp

theorem SrvLoop.next_tcp {v v' : SrvLoop} {workBuilder : Bool} {r : SrvReply}
    (hp : v.point ≠ .recvfrom) (h : v.next (ConnWorker.srvWork workBuilder) r = some v') :
    SrvMove v.point v'.point := by
  unfold SrvLoop.next at h
  split at h
  · next heq =>
    obtain rfl := Option.some.inj h
    rw [heq]
    simp only [atLoopStart, ConnWorker.srvWork]
    split_ifs
    all_goals exact .quiet (.inl rfl) fun _ _ => rfl
  · next heq =>
    obtain rfl := Option.some.inj h
    rw [heq]
    exact .quiet (.inl rfl) fun _ _ => rfl
  · next heq =>
    obtain rfl := Option.some.inj h
    rw [heq]
    simp only [afterTryLock, ConnWorker.srvWork]
    split_ifs
    all_goals exact .quiet (.inl rfl) fun _ _ => rfl
  · next heq =>
    obtain rfl := Option.some.inj h
    rw [heq]
    exact .quiet (.inl rfl) fun _ _ => rfl
  · next heq =>
    obtain ⟨fd, -, rfl⟩ := Option.map_eq_some_iff.mp h
    rw [heq]
    simp only [afterAccept]
    split_ifs with hfd
    · exact .stop 0 (by simp) (by simp)
    · exact .accept (by omega)
  · next heq => exact absurd heq hp
  · next heq =>
    obtain rfl := Option.some.inj h
    rw [heq]
    exact .quiet (.inr rfl) fun _ _ => rfl
  · next fd ret heq =>
    obtain rfl := Option.some.inj h
    rw [heq]
    by_cases hret : ret < 0
    · simp only [afterSetNonBlock, hret, if_true]
      exact .stop 0 (by simp) (by simp)
    · simp only [afterSetNonBlock, hret, if_false]
      cases workBuilder
      all_goals exact .quiet (.inr rfl) fun _ _ => rfl
  · next heq =>
    obtain rfl := Option.some.inj h
    rw [heq]
    exact .close _
  · next heq =>
    obtain rfl := Option.some.inj h
    rw [heq]
    simp only [afterBuild]
    split_ifs
    · exact .build _
    · exact .quiet (.inl rfl) fun _ _ => rfl
  · next heq =>
    obtain rfl := Option.some.inj h
    rw [heq]
    exact .quiet (.inl rfl) fun _ _ => rfl
  · next heq =>
    obtain rfl := Option.some.inj h
    rw [heq]
    simp only
    split_ifs
    · exact .stop 0 (by simp) (by simp)
    · exact .quiet (.inl rfl) fun _ _ => rfl
  · cases h

namespace ConnWorker

variable {n : Nat} {workBuilder : Bool} {s s' : ConnWorker n} {i : Fin n}

def inHand (s : ConnWorker n) : Option Int := s.running.bind fun i => (s.loops i).point.inHand

structure Invariant (s : ConnWorker n) : Prop where
  fds : FdInvariant s.inHand s.listenFds s.openFds s.works s.conns
  empty_handed : ∀ i, s.running ≠ some i → (s.loops i).point.inHand = none
  tcp : ∀ i, (s.loops i).point ≠ .recvfrom
  exit : s.left = true → s.gracefulShutdown = true ∧ s.works = [] ∧ s.running = none

theorem Invariant.tracked (h : s.Invariant) : s.Tracked :=
  ⟨h.fds.keys, h.fds.nodup, h.fds.isOpen, h.fds.length_keys, h.exit⟩

theorem inHand_of_yields {p : SrvPoint} (h : p.yields = true) : p.inHand = none := by
  cases p <;> simp [SrvPoint.yields, SrvPoint.inHand] at *

theorem Invariant.inHand_eq (h : s.Invariant) (hi : s.running = none ∨ s.running = some i) :
    s.inHand = (s.loops i).point.inHand := by
  rcases hi with hi | hi
  · rw [inHand, hi, h.empty_handed i (by simp [hi])]
    rfl
  · simp [inHand, hi]

theorem fdInvariant_afterSrv {t : ConnWorker n} {old new : SrvPoint}
    (h : FdInvariant old.inHand s.listenFds s.openFds s.works s.conns) (hm : SrvMove old new)
    (ht : s.afterSrv i old new = some t) :
    FdInvariant new.inHand t.listenFds t.openFds t.works t.conns ∧ t.loops = s.loops ∧
      t.running = s.running ∧ t.left = s.left := by
  cases hm with
  | accept h0 =>
    simp only [afterSrv, Option.ite_none_right_eq_some, Option.some.injEq] at ht
    obtain ⟨⟨hfd, hlt⟩, rfl⟩ := ht
    exact ⟨FdInvariant.accept h hfd h0 hlt, rfl, rfl, rfl⟩
  | close fd =>
    obtain rfl := Option.some.inj ht
    exact ⟨FdInvariant.close h, rfl, rfl, rfl⟩
  | build fd =>
    obtain rfl := Option.some.inj ht
    exact ⟨FdInvariant.build h, rfl, rfl, rfl⟩
  | stop ret hclose hbuild =>
    have ht' : t = s.deleteListener i := by
      unfold afterSrv at ht
      split at ht
      all_goals simp_all
    subst ht'
    unfold deleteListener
    split
    · exact ⟨h.forget, rfl, rfl, rfl⟩
    · next l hl => exact ⟨h.forget.deleteListener hl, rfl, rfl, rfl⟩
  | quiet hnew hquiet =>
    obtain rfl := Option.some.inj ((hquiet s i).symm.trans ht)
    refine ⟨?_, rfl, rfl, rfl⟩
    rcases hnew with hnew | hnew
    · exact hnew ▸ h.forget
    · exact hnew ▸ h

theorem Invariant.srv (h : s.Invariant) (hleft : s.left = false)
    (hi : s.running = none ∨ s.running = some i) {v : SrvLoop} {r : SrvReply}
    (hv : (s.loops i).next (srvWork workBuilder) r = some v)
    (hs : ({ s with
      loops := Function.update s.loops i v
      running := if v.point.yields then none else some i } : ConnWorker n).afterSrv i
        (s.loops i).point v.point = some s') : s'.Invariant := by
  have htcp := SrvLoop.next_ne_recvfrom rfl hv
  have hm := SrvLoop.next_tcp (h.tcp i) hv
  have hfds := h.fds
  rw [h.inHand_eq hi] at hfds
  obtain ⟨hfds', hloops, hrun, hleft'⟩ := fdInvariant_afterSrv (s := { s with
      loops := Function.update s.loops i v
      running := if v.point.yields then none else some i }) hfds hm hs
  have hself : (s'.loops i) = v := by simp [hloops]
  have hother (j : Fin n) (hj : j ≠ i) : s'.loops j = s.loops j := by simp [hloops, hj]
  have hothers (j : Fin n) (hj : j ≠ i) : (s'.loops j).point.inHand = none := by
    rw [hother j hj]
    refine h.empty_handed j fun hr => hj ?_
    rcases hi with hi | hi <;> simp_all
  refine ⟨?_, fun j hj => ?_, fun j => ?_, fun hl => ?_⟩
  · have hhand : s'.inHand = v.point.inHand := by
      by_cases hy : v.point.yields = true
      · simp [inHand, hrun, hy, inHand_of_yields hy]
      · simp [inHand, hrun, hy, hself]
    rwa [hhand]
  · by_cases hji : j = i
    · subst hji
      rw [hself]
      by_contra hne
      have hy : v.point.yields ≠ true := fun hy => hne (inHand_of_yields hy)
      exact hj (by simp [hrun, hy])
    · exact hothers j hji
  · by_cases hji : j = i
    · rw [hji, hself]
      exact htcp
    · rw [hother j hji]
      exact h.tcp j
  · rw [hleft'] at hl
    simp [hleft] at hl

theorem Invariant.fds_idle (h : s.Invariant) (hi : s.running = none) :
    FdInvariant none s.listenFds s.openFds s.works s.conns := by
  simpa [inHand, hi] using h.fds

theorem Invariant.idle (h : s.Invariant) (hi : s.running = none)
    (hfds : FdInvariant none s'.listenFds s'.openFds s'.works s'.conns)
    (hloops : s'.loops = s.loops) (hrun : s'.running = s.running)
    (hexit : s'.left = true → s'.gracefulShutdown = true ∧ s'.works = []) : s'.Invariant := by
  refine ⟨by simpa [inHand, hrun, hi] using hfds, fun j hj => ?_, fun j => ?_, fun hl => ?_⟩
  · rw [hloops]
    exact h.empty_handed j (hrun ▸ hj)
  · rw [hloops]
    exact h.tcp j
  · exact ⟨(hexit hl).1, (hexit hl).2, hrun.trans hi⟩

theorem Invariant.step {a : ConnLabel n} (h : s.Invariant)
    (hs : s.step workBuilder a = some s') : s'.Invariant := by
  have hleft : ¬ s.left = true := fun hl => by simp [ConnWorker.step, hl] at hs
  simp only [ConnWorker.step, if_neg hleft] at hs
  have hstay {P : Prop} (hl : s.left = true) : P := absurd hl hleft
  cases a with
  | srv i r =>
    simp only [Option.ite_none_right_eq_some] at hs
    obtain ⟨⟨hi, -⟩, hs⟩ := hs
    obtain ⟨v, hv, hs⟩ := Option.bind_eq_some_iff.mp hs
    exact h.srv (by simpa using hleft) hi hv hs
  | finish fd =>
    simp only [Option.ite_none_right_eq_some, Option.some.injEq] at hs
    obtain ⟨⟨hi, hfd⟩, rfl⟩ := hs
    exact h.idle hi ((h.fds_idle hi).finish hfd) rfl rfl hstay
  | openFd fd =>
    simp only [Option.ite_none_right_eq_some, Option.some.injEq] at hs
    obtain ⟨⟨hi, -⟩, rfl⟩ := hs
    exact h.idle hi ((h.fds_idle hi).open_fd fd) rfl rfl hstay
  | closeFd fd =>
    simp only [Option.ite_none_right_eq_some, Option.some.injEq] at hs
    obtain ⟨⟨hi, hw, hl⟩, rfl⟩ := hs
    exact h.idle hi ((h.fds_idle hi).close_fd hw hl) rfl rfl hstay
  | sighup =>
    simp only [Option.ite_none_right_eq_some, Option.some.injEq] at hs
    obtain ⟨hi, rfl⟩ := hs
    exact h.idle hi (h.fds_idle hi) rfl rfl hstay
  | workerLoop =>
    simp only [Option.ite_none_right_eq_some, Option.some.injEq] at hs
    obtain ⟨hi, rfl⟩ := hs
    split_ifs with hend
    · refine h.idle hi (h.fds_idle hi) rfl rfl fun _ => ⟨hend.1, ?_⟩
      have hsize : s.getConnSize = s.works.length := h.fds.length_keys
      exact List.length_eq_zero_iff.mp (hsize.symm.trans hend.2)
    · exact h

def start (listenFds : Fin n → Int) (openFds : Finset Int) : ConnWorker n :=
  { listenFds := fun i => some (listenFds i), openFds := openFds }

theorem invariant_start {listenFds : Fin n → Int} {openFds : Finset Int}
    (hinj : Function.Injective listenFds) (hopen : ∀ i, listenFds i ∈ openFds) :
    (start listenFds openFds).Invariant := by
  refine ⟨⟨by simp [start], List.nodup_nil, by simp [start], by simp [start], ?_, ?_, ?_⟩,
    by simp [start, SrvPoint.inHand], by simp [start], by simp [start]⟩
  · simp [start, inHand]
  · intro i fd hfd
    obtain rfl := Option.some.inj hfd
    exact ⟨hopen i, by simp [start]⟩
  · intro i j fd hi hj
    exact hinj (Option.some.inj (hi.trans hj.symm))

end ConnWorker

/-- Whatever the order of accepts and completions, the tracker knows exactly the connections
that are served, and the worker leaves its loop only after SIGHUP and the last of them. -/
theorem connections_tracked {n : Nat} (workBuilder : Bool) {listenFds : Fin n → Int}
    {openFds : Finset Int} (hinj : Function.Injective listenFds)
    (hopen : ∀ i, listenFds i ∈ openFds) {as : List (ConnLabel n)} {s : ConnWorker n}
    (hv : Visits (ConnWorker.step workBuilder) (.start listenFds openFds) as s) : s.Tracked :=
  (hv.invariant (ConnWorker.invariant_start hinj hopen) fun _ _ _ h hs => h.step hs).tracked

/-- Descriptor 4 is accepted, served, closed and accepted again; SIGHUP comes before it is
closed again. -/
def descriptorReused : List (ConnLabel 1) :=
  [.srv 0 .resume, .srv 0 (.tryLock 0), .srv 0 (.accept [.ok 4]), .srv 0 (.unlock 0),
    .srv 0 (.setNonBlock 0), .srv 0 (.build true), .srv 0 .resume,
    .srv 0 (.gracefulShutdown false), .srv 0 .resume, .srv 0 (.tryLock 0), .finish 4,
    .srv 0 (.accept [.err .eagain, .ok 4]), .srv 0 (.unlock 0), .srv 0 (.setNonBlock 0),
    .srv 0 (.build true), .srv 0 .resume, .srv 0 (.gracefulShutdown false), .srv 0 .resume,
    .srv 0 (.tryLock (-1)), .sighup, .workerLoop, .finish 4, .workerLoop]

theorem connections_tracked_until_exit :
    ∃ s : ConnWorker 1,
      exec (ConnWorker.step true) (.start (fun _ => 3) {3}) descriptorReused = some s ∧
      s.left = true ∧ s.Tracked := by
  have h : (exec (ConnWorker.step true) (.start (fun _ => 3) {3}) descriptorReused).map
      ConnWorker.left = some true := rfl
  obtain ⟨s, hs, hleft⟩ := Option.map_eq_some_iff.mp h
  exact ⟨s, hs, hleft, connections_tracked true (Function.injective_of_subsingleton _) (by simp)
    (.of_exec hs)⟩

end Tinyco
