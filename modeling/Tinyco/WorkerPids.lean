import Tinyco.AcceptLock

/-! The pids the master deals with: those of the live workers, of the dead workers not
yet waited for, the queued ones and the table of workers. -/

namespace Tinyco

variable {p q : Nat}

/-- A pid is of a live worker, of a dead one, or queued, and has its slot in the table
unless its pass is over. -/
structure PidInvariant (live zombies : Finset Nat) (restart unprocessed table : List Nat) :
    Prop where
  ne_zero : ∀ p, p ∈ live ∨ p ∈ zombies ∨ p ∈ restart → p ≠ 0
  live_running : ∀ p ∈ live, p ∉ zombies
  restart_gone : ∀ p ∈ restart, p ∉ live ∧ p ∉ zombies
  restart_nodup : restart.Nodup
  suffix : unprocessed <:+ restart
  in_table : ∀ p, p ∈ live ∨ p ∈ zombies ∨ p ∈ unprocessed → p ∈ table

theorem replaceLast_eq_none {p q : Nat} {xs : List Nat} (h : replaceLast p q xs = none) :
    p ∉ xs := by
  induction xs with
  | nil => simp
  | cons x xs ih =>
    cases hr : replaceLast p q xs with
    | some ys => simp [replaceLast, hr] at h
    | none =>
      by_cases hx : x = p
      · simp [replaceLast, hr, hx] at h
      · simp [Ne.symm hx, ih hr]

theorem replaceLast_eq_some {p q : Nat} {xs ys : List Nat} (h : replaceLast p q xs = some ys) :
    q ∈ ys ∧ ∀ x ∈ xs, x ≠ p → x ∈ ys := by
  induction xs generalizing ys with
  | nil => cases h
  | cons x xs ih =>
    cases hr : replaceLast p q xs with
    | some zs =>
      simp only [replaceLast, hr, Option.some.injEq] at h
      obtain ⟨hq, hzs⟩ := ih hr
      subst h
      refine ⟨by simp [hq], fun y hy hyp => ?_⟩
      rcases List.mem_cons.mp hy with rfl | hy
      · simp
      · simp [hzs y hy hyp]
    | none =>
      simp only [replaceLast, hr, Option.ite_none_right_eq_some, Option.some.injEq] at h
      obtain ⟨rfl, rfl⟩ := h
      refine ⟨by simp, fun y hy hyp => ?_⟩
      rcases List.mem_cons.mp hy with rfl | hy
      · exact absurd rfl hyp
      · simp [hy]

namespace PidInvariant

variable {live zombies : Finset Nat} {restart unprocessed rest table table' : List Nat}

theorem die (h : PidInvariant live zombies restart unprocessed table) (hp : p ∈ live) :
    PidInvariant (live.erase p) (insert p zombies) restart unprocessed table := by
  have hback {q : Nat} {r : Prop} (hq : q ∈ live.erase p ∨ q ∈ insert p zombies ∨ r) :
      q ∈ live ∨ q ∈ zombies ∨ r := by
    rcases hq with hq | hq | hq
    · exact .inl (Finset.mem_of_mem_erase hq)
    · rcases Finset.mem_insert.mp hq with rfl | hq
      · exact .inl hp
      · exact .inr (.inl hq)
    · exact .inr (.inr hq)
  refine ⟨fun q hq => h.ne_zero q (hback hq), fun q hq => ?_, fun q hq => ?_, h.restart_nodup,
    h.suffix, fun q hq => h.in_table q (hback hq)⟩
  · obtain ⟨hne, hq⟩ := Finset.mem_erase.mp hq
    simp [hne, h.live_running q hq]
  · obtain ⟨hl, hz⟩ := h.restart_gone q hq
    have hne : q ≠ p := fun hqp => hl (hqp ▸ hp)
    simp [hl, hz, hne]

theorem reap (h : PidInvariant live zombies restart restart table) (hz : p ∈ zombies) :
    PidInvariant live (zombies.erase p) (restart ++ [p]) (restart ++ [p]) table := by
  have hback {q : Nat} (hq : q ∈ live ∨ q ∈ zombies.erase p ∨ q ∈ restart ++ [p]) :
      q ∈ live ∨ q ∈ zombies ∨ q ∈ restart := by
    rcases hq with hq | hq | hq
    · exact .inl hq
    · exact .inr (.inl (Finset.mem_of_mem_erase hq))
    · rcases List.mem_append.mp hq with hq | hq
      · exact .inr (.inr hq)
      · exact .inr (.inl (List.mem_singleton.mp hq ▸ hz))
  have hp : p ∉ restart := fun hr => (h.restart_gone p hr).2 hz
  refine ⟨fun q hq => h.ne_zero q (hback hq), fun q hq => ?_, fun q hq => ?_, ?_,
    List.suffix_rfl, fun q hq => h.in_table q (hback hq)⟩
  · simp [h.live_running q hq]
  · rcases List.mem_append.mp hq with hq | hq
    · obtain ⟨hl, hqz⟩ := h.restart_gone q hq
      simp [hl, hqz]
    · obtain rfl := List.mem_singleton.mp hq
      exact ⟨fun hl => h.live_running q hl hz, Finset.notMem_erase q zombies⟩
  · rw [List.nodup_append]
    refine ⟨h.restart_nodup, by simp, fun x hx y hy hxy => hp ?_⟩
    rwa [← List.mem_singleton.mp hy, ← hxy]

theorem skip (h : PidInvariant live zombies restart (p :: rest) table) :
    PidInvariant live zombies restart rest table where
  ne_zero := h.ne_zero
  live_running := h.live_running
  restart_gone := h.restart_gone
  restart_nodup := h.restart_nodup
  suffix := (List.suffix_cons p rest).trans h.suffix
  in_table q hq := h.in_table q (hq.imp_right (Or.imp_right (List.mem_cons_of_mem p)))

theorem fork (h : PidInvariant live zombies restart (p :: rest) table)
    (hq : q ≠ 0 ∧ q ∉ live ∧ q ∉ zombies ∧ q ∉ restart)
    (ht : replaceLast p q table = some table') :
    PidInvariant (insert q live) zombies restart rest table' := by
  obtain ⟨hq0, hql, hqz, hqr⟩ := hq
  obtain ⟨hqt, hkeep⟩ := replaceLast_eq_some ht
  obtain ⟨hpl, hpz⟩ := h.restart_gone p (h.suffix.subset List.mem_cons_self)
  refine ⟨fun x hx => ?_, fun x hx => ?_, fun x hx => ?_, h.restart_nodup, h.skip.suffix,
    fun x hx => ?_⟩
  · rcases hx with hx | hx | hx
    · rcases Finset.mem_insert.mp hx with rfl | hx
      · exact hq0
      · exact h.ne_zero x (.inl hx)
    · exact h.ne_zero x (.inr (.inl hx))
    · exact h.ne_zero x (.inr (.inr hx))
  · rcases Finset.mem_insert.mp hx with rfl | hx
    · exact hqz
    · exact h.live_running x hx
  · obtain ⟨hl, hz⟩ := h.restart_gone x hx
    have hne : x ≠ q := fun hxq => hqr (hxq ▸ hx)
    simp [hl, hz, hne]
  · have hnodup : (p :: rest).Nodup := h.suffix.sublist.nodup h.restart_nodup
    rcases hx with hx | hx | hx
    · rcases Finset.mem_insert.mp hx with rfl | hx
      · exact hqt
      · exact hkeep x (h.in_table x (.inl hx)) (fun hxp => hpl (hxp ▸ hx))
    · exact hkeep x (h.in_table x (.inr (.inl hx))) (fun hxp => hpz (hxp ▸ hx))
    · refine hkeep x (h.in_table x (.inr (.inr (List.mem_cons_of_mem p hx)))) (fun hxp => ?_)
      exact (List.nodup_cons.mp hnodup).1 (hxp ▸ hx)

theorem clear (h : PidInvariant live zombies restart [] table) :
    PidInvariant live zombies [] [] table where
  ne_zero q hq := h.ne_zero q (hq.imp_right (Or.imp_right (by simp)))
  live_running := h.live_running
  restart_gone := by simp
  restart_nodup := List.nodup_nil
  suffix := List.suffix_rfl
  in_table := h.in_table

end PidInvariant

end Tinyco
