import Tinyco.ListenerShut
import Tinyco.WorkerRecovery

/-! As long as every `accept` and `recvfrom` on a listener yields something, the lock of the listener
can be had again, wherever workers have died, unless a worker has died with it of which the master
gets no notification: every worker can get to its next call. -/

namespace Tinyco

def SrvPoint.ended : SrvPoint → Bool
  | .returned _ | .fault => true
  | _ => false

/-- Not a call on the mutex, and no call that yields nothing. -/
def SrvReply.Smooth (r : SrvReply) : Prop := r.ofMutex = false ∧ r.Delivers

namespace SrvLoop

variable {w : SrvWork} {v : SrvLoop}

section ToTryLock

variable (hct : w.ct = true)

include hct

end ToTryLock

end SrvLoop

/-- No worker dies, and no call on a listener yields nothing. -/
def ClusterLabel.Smooth {n : Nat} : ClusterLabel n → Prop
  | .die _ | .getWorkerStatus _ => False
  | .reply _ _ r => r.Delivers
  | _ => True

theorem ClusterLabel.Smooth.quiet {n : Nat} {a : ClusterLabel n} (h : a.Smooth) :
    a.reaps = false ∧ a.dies = false := by
  cases a <;> simp [Smooth, reaps, dies] at h ⊢

/-- Besides, no signal is sent. -/
def NotifiedLabel.Smooth {n : Nat} : NotifiedLabel n → Prop
  | .step a => a.Smooth
  | .deliver _ => False
  | .handle | .readWorker _ | .readMaster _ => True

namespace Cluster

variable {n : Nat} {c : Fin n → SrvWork} {s t : Cluster n} {a : ClusterLabel n} {p q : Nat} {l : Fin n}

theorem setLoop_setLoop (s : Cluster n) (p : Nat) (l : Fin n) (v v' : WorkerLoop) :
    (s.setLoop p l v).setLoop p l v' = s.setLoop p l v' := by
  simp [setLoop]

theorem loops_setLoop (s : Cluster n) (p : Nat) (l : Fin n) (v : WorkerLoop) :
    (s.setLoop p l v).loops p l = v := by
  simp [setLoop]

/-- Every loop on the listener has the lock just while it is in the calls that the lock guards. -/
def Calm (s : Cluster n) (l : Fin n) : Prop :=
  ∀ p, (s.loops p l).loop.Balanced ∧
    ((s.loops p l).sawZero = true → (s.loops p l).loop.point = .tryLock)

theorem Calm.step (h : s.Calm l) (hr : ∀ p r, a = .reply p l r → r.Delivers)
    (hs : s.step c a = some t) : t.Calm l := by
  intro p
  obtain ⟨-, hloop⟩ := step_loop p l hs
  generalize t.loops p l = w at hloop ⊢
  cases hloop with
  | same => exact h p
  | read _ hpoint => exact ⟨(h p).1, fun _ => hpoint⟩
  | @next r v _ hlabel _ hv =>
    refine ⟨(SrvLoop.balanced_next_iff (h p).1 hv).mpr ?_, fun hz => Bool.noConfusion hz⟩
    rcases hlabel with hmutex | ha
    · cases r <;> trivial
    · exact hr p r ha
  | new => exact ⟨rfl, fun hz => Bool.noConfusion hz⟩

end Cluster

namespace Cluster

variable {n : Nat} {c : Fin n → SrvWork} {s t : Cluster n} {p : Nat} {l : Fin n}

end Cluster

namespace Notified

variable {n : Nat} {c : Fin n → SrvWork} {s t : Notified n} {p : Nat} {l : Fin n}

end Notified

end Tinyco
