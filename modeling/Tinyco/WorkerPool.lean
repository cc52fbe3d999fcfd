import Mathlib.Data.Finset.Card
import Tinyco.AcceptLockSafety

/-! The slots of `worker_processes_` over whole runs: where the worker of each slot is. -/

namespace Tinyco

variable {n : Nat} {c : Fin n → SrvWork} {s t : Cluster n} {as : List (ClusterLabel n)}

theorem replaceLast_perm {p q : Nat} {xs ys : List Nat} (h : replaceLast p q xs = some ys) :
    (p :: ys).Perm (q :: xs) := by
  induction xs generalizing ys with
  | nil => cases h
  | cons x xs ih =>
    cases hr : replaceLast p q xs with
    | some zs =>
      simp only [replaceLast, hr, Option.some.injEq] at h
      subst h
      calc p :: x :: zs
        List.Perm _ (x :: p :: zs) := .swap x p zs
        List.Perm _ (x :: q :: xs) := .cons x (ih hr)
        List.Perm _ (q :: x :: xs) := .swap q x xs
    | none =>
      simp only [replaceLast, hr, Option.ite_none_right_eq_some, Option.some.injEq] at h
      obtain ⟨rfl, rfl⟩ := h
      exact .swap q x xs

namespace Cluster

/-- The workers that run, are dead and not waited for, or are queued and still to be restarted. -/
def inCare (s : Cluster n) : Multiset Nat :=
  s.live.val + s.zombies.val + (s.unprocessed : Multiset Nat)

/-- There are `k` slots, each with the pid of a worker in care of the master, but for the slots
`lost`. -/
structure SlotsBut (s : Cluster n) (k : Nat) (lost : List Nat) : Prop where
  length : s.workerProcesses.length = k
  slots : (s.workerProcesses : Multiset Nat) = s.inCare + (lost : Multiset Nat)

variable {k : Nat} {lost : List Nat}

theorem SlotsBut.of_same (h : s.SlotsBut k lost) (htable : t.workerProcesses = s.workerProcesses)
    (hcare : t.inCare = s.inCare) : t.SlotsBut k lost :=
  ⟨htable ▸ h.length, by rw [htable, hcare]; exact h.slots⟩

theorem inCare_goOn {p : Nat} {l : Fin n} {r : SrvReply} (h : s.goOn c p l r = some t) :
    t.workerProcesses = s.workerProcesses ∧ t.inCare = s.inCare := by
  obtain ⟨v, -, rfl⟩ := Option.map_eq_some_iff.mp h
  exact ⟨rfl, rfl⟩

theorem inCare_die {p : Nat} (hinv : LockInvariant s) (hp : p ∈ s.live) :
    (s.die p).inCare = s.inCare := by
  have hz : p ∉ s.zombies := hinv.pids.live_running p hp
  have hlive : s.live.val = p ::ₘ (s.live.erase p).val := by
    rw [Finset.erase_val, Multiset.cons_erase hp]
  simp only [inCare, die, Finset.insert_val_of_notMem hz, hlive, unprocessed, Multiset.add_cons,
    Multiset.cons_add]

theorem inCare_getWorkerStatus {rs : List WaitResult} (hinv : LockInvariant s)
    (hm : s.master = .sleep) (h : s.getWorkerStatus rs = some t) :
    t.workerProcesses = s.workerProcesses ∧ t.inCare = s.inCare := by
  induction rs with
  | nil => cases h
  | cons r rs ih =>
    cases r with
    | none => exact Option.some.inj h ▸ ⟨rfl, rfl⟩
    | error => exact Option.some.inj h ▸ ⟨rfl, rfl⟩
    | eintr => exact ih h
    | exited p =>
      simp only [getWorkerStatus, Option.ite_none_right_eq_some, Option.some.injEq] at h
      obtain ⟨hp, rfl⟩ := h
      have htable : p ∈ s.workerProcesses := hinv.pids.in_table p (.inr (.inl hp))
      have hz : s.zombies.val = p ::ₘ (s.zombies.erase p).val := by
        rw [Finset.erase_val, Multiset.cons_erase hp]
      have hqueue : ((s.restartWorkerPid ++ [p] : List Nat) : Multiset Nat) =
          p ::ₘ (s.restartWorkerPid : Multiset Nat) :=
        Multiset.coe_eq_coe.mpr (List.perm_append_singleton p _)
      refine ⟨rfl, ?_⟩
      simp only [inCare, unprocessed, hm, MasterPoint.unprocessed, if_pos htable, hz, hqueue,
        Multiset.add_cons, Multiset.cons_add]

theorem SlotsBut.fork {rest : List Nat} {pid : Nat} {q : Option Nat} (hinv : LockInvariant s)
    (h : s.SlotsBut k lost) (hm : s.master = .compare pid [] rest)
    (hs : s.fork pid rest q = some t) : t.SlotsBut k (if q = none then pid :: lost else lost) := by
  have hslots : (s.workerProcesses : Multiset Nat) =
      s.live.val + s.zombies.val + (pid ::ₘ (rest : Multiset Nat)) + (lost : Multiset Nat) := by
    rw [h.slots, inCare, unprocessed, hm]
    rfl
  cases q with
  | none =>
    obtain rfl := Option.some.inj hs
    refine ⟨h.length, hslots.trans ?_⟩
    rw [if_pos rfl, ← Multiset.cons_coe, Multiset.add_cons, Multiset.add_cons, Multiset.cons_add]
    rfl
  | some q =>
    simp only [Cluster.fork, Option.ite_none_right_eq_some] at hs
    obtain ⟨⟨-, hql, -, -⟩, hs⟩ := hs
    split at hs
    · next hnone =>
      have hpid : pid ∈ s.workerProcesses :=
        hinv.pids.in_table pid (.inr (.inr (by rw [unprocessed, hm]; exact List.mem_cons_self)))
      exact absurd hpid (replaceLast_eq_none hnone)
    · next table htable =>
      obtain rfl := Option.some.inj hs
      have hperm := replaceLast_perm htable
      refine ⟨(Nat.succ.inj hperm.length_eq).trans h.length, (Multiset.cons_inj_right pid).mp ?_⟩
      refine (Multiset.coe_eq_coe.mpr hperm : pid ::ₘ (table : Multiset Nat) =
        q ::ₘ (s.workerProcesses : Multiset Nat)).trans ?_
      rw [← Multiset.cons_coe, hslots, if_neg (by simp)]
      simp only [inCare, unprocessed, MasterPoint.unprocessed, Finset.insert_val_of_notMem hql,
        Multiset.add_cons, Multiset.cons_add]
      exact Multiset.cons_swap _ _ _

/-- A step loses a slot only if it is a fork that fails. -/
theorem SlotsBut.step {a : ClusterLabel n} (hinv : LockInvariant s) (h : s.SlotsBut k lost)
    (hs : s.step c a = some t) :
    ∃ lost', t.SlotsBut k lost' ∧ lost'.length = lost.length + [a].count (.fork none) := by
  have hsame (hne : a ≠ .fork none) (ht : t.workerProcesses = s.workerProcesses ∧ t.inCare = s.inCare) :
      ∃ lost', t.SlotsBut k lost' ∧ lost'.length = lost.length + [a].count (.fork none) :=
    ⟨lost, h.of_same ht.1 ht.2, by simp [hne]⟩
  cases a with
  | tryLockRead p l =>
    simp only [Cluster.step, Option.ite_none_right_eq_some, tryLockRead] at hs
    obtain ⟨-, -, hs⟩ := hs
    split_ifs at hs
    · obtain rfl := Option.some.inj hs
      exact hsame (by simp) ⟨rfl, rfl⟩
    · exact hsame (by simp) (inCare_goOn hs)
  | tryLockCas p l =>
    simp only [Cluster.step, Option.ite_none_right_eq_some, tryLockCas] at hs
    obtain ⟨-, -, hs⟩ := hs
    have ht := inCare_goOn hs
    exact hsame (by simp) ht
  | unlock p l =>
    simp only [Cluster.step, Option.ite_none_right_eq_some, unlock] at hs
    have ht := inCare_goOn hs.2
    exact hsame (by simp) ht
  | reply p l r =>
    simp only [Cluster.step, Option.ite_none_right_eq_some] at hs
    exact hsame (by simp) (inCare_goOn hs.2)
  | die p =>
    simp only [Cluster.step, Option.ite_none_right_eq_some, Option.some.injEq] at hs
    obtain ⟨hp, rfl⟩ := hs
    exact hsame (by simp) ⟨rfl, inCare_die hinv hp⟩
  | getWorkerStatus rs =>
    simp only [Cluster.step, Option.ite_none_right_eq_some] at hs
    exact hsame (by simp) (inCare_getWorkerStatus hinv hs.1 hs.2)
  | beginPass =>
    simp only [Cluster.step, Option.ite_none_right_eq_some, Option.some.injEq] at hs
    obtain ⟨hm, rfl⟩ := hs
    exact hsame (by simp) ⟨rfl, by simp [inCare, unprocessed, hm, MasterPoint.unprocessed]⟩
  | pick =>
    simp only [Cluster.step] at hs
    split at hs
    · next hm =>
      obtain rfl := Option.some.inj hs
      exact hsame (by simp) ⟨rfl, by simp [inCare, unprocessed, hm, MasterPoint.unprocessed]⟩
    · cases hs
  | compare =>
    simp only [Cluster.step] at hs
    split at hs
    · next hm =>
      obtain rfl := Option.some.inj hs
      refine hsame (by simp) ⟨rfl, ?_⟩
      simp only [inCare, unprocessed, hm]
      split_ifs <;> rfl
    · cases hs
  | store =>
    simp only [Cluster.step] at hs
    split at hs
    · next hm =>
      obtain rfl := Option.some.inj hs
      exact hsame (by simp)
        ⟨rfl, by simp [inCare, unprocessed, hm, MasterPoint.unprocessed, setWord]⟩
    · cases hs
  | fork q =>
    simp only [Cluster.step] at hs
    split at hs
    · next pid rest hm =>
      refine ⟨_, h.fork hinv hm hs, ?_⟩
      cases q <;> simp
    · cases hs
  | endPass =>
    simp only [Cluster.step] at hs
    split at hs
    · next hm =>
      obtain rfl := Option.some.inj hs
      exact hsame (by simp) ⟨rfl, by simp [inCare, unprocessed, hm, MasterPoint.unprocessed]⟩
    · cases hs

theorem SlotsBut.exec (hinv : LockInvariant s) (h : s.SlotsBut k lost)
    (hs : exec (Cluster.step c) s as = some t) :
    ∃ lost', t.SlotsBut k lost' ∧ lost'.length = lost.length + as.count (.fork none) := by
  induction as generalizing s lost with
  | nil => exact ⟨lost, Option.some.inj hs ▸ h, rfl⟩
  | cons a as ih =>
    obtain ⟨u, hu, hs⟩ := Option.bind_eq_some_iff.mp hs
    obtain ⟨lost₁, h₁, hlen₁⟩ := h.step hinv hu
    obtain ⟨lost₂, h₂, hlen₂⟩ := ih (hinv.step hu) h₁ hs
    refine ⟨lost₂, h₂, ?_⟩
    rw [hlen₂, hlen₁, Nat.add_assoc, ← List.count_append]
    rfl

theorem slotsBut_start {pids : List Nat} (hnodup : pids.Nodup) :
    (start n pids).SlotsBut pids.length [] := by
  refine ⟨rfl, ?_⟩
  simp [inCare, start, unprocessed, MasterPoint.unprocessed, List.toFinset_val, hnodup.dedup]

theorem SlotsBut.card (h : s.SlotsBut k lost) :
    s.live.card + s.zombies.card + s.unprocessed.length + lost.length = k := by
  have hcard := congrArg Multiset.card h.slots
  simp only [inCare, Multiset.card_add, Multiset.coe_card, Finset.card_val] at hcard
  exact hcard.symm.trans h.length

end Cluster

/-- Over every run of the workers and the master, whoever dies and whenever, the slots are those of
the workers that run, of the dead ones not waited for, of the queued ones, and one for each fork
that has failed; and the master does not fault. -/
theorem worker_slots_accounted (c : Fin n → SrvWork) {pids : List Nat} (h0 : 0 ∉ pids)
    (hnodup : pids.Nodup) (h : exec (Cluster.step c) (Cluster.start n pids) as = some s) :
    s.master ≠ .fault ∧
      (∃ lost : List Nat, lost.length = as.count (.fork none) ∧
        (s.workerProcesses : Multiset Nat) = s.live.val + s.zombies.val +
          (s.unprocessed : Multiset Nat) + (lost : Multiset Nat)) ∧
      s.live.card + s.zombies.card + s.unprocessed.length + as.count (.fork none) = pids.length := by
  have hinv : LockInvariant s :=
    (Visits.of_exec h).invariant (.start h0) fun _ _ _ hi hs => hi.step hs
  obtain ⟨lost, hslots, hlen⟩ := (Cluster.slotsBut_start hnodup).exec (.start h0) h
  rw [List.length_nil, Nat.zero_add] at hlen
  exact ⟨hinv.no_fault, ⟨lost, hlen, hslots.slots⟩, hlen ▸ hslots.card⟩

/-- A worker dies twice in a slot, the first time with a fork that fails. -/
theorem worker_slots_accounted_failed_fork :
    ∃ s : Cluster 0, exec (Cluster.step fun i => i.elim0) (Cluster.start 0 [7, 8])
        [.die 7, .getWorkerStatus [.exited 7], .beginPass, .pick, .fork none, .endPass, .die 8] =
          some s ∧
      s.live.card + s.zombies.card + s.unprocessed.length + 1 = 2 := by
  obtain ⟨s, hs⟩ : ∃ s, exec (Cluster.step fun i => i.elim0) (Cluster.start 0 [7, 8])
      [.die 7, .getWorkerStatus [.exited 7], .beginPass, .pick, .fork none, .endPass, .die 8] =
        some s := ⟨_, rfl⟩
  exact ⟨s, hs, (worker_slots_accounted _ (by decide) (by decide) hs).2.2⟩

end Tinyco
