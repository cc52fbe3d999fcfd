import Tinyco.Runs

/-! The descriptors of one owner as its calls leave them, and what it means that it owns the
one it has a number of. -/

namespace Tinyco

/-- A call of `socket` that gave a descriptor, or a call of `close`. -/
inductive FdCall where
  | socket (fd : Int)
  | close (fd : Int)
  deriving DecidableEq, Repr

/-- `stray` are the descriptors that were closed while they were not open. -/
structure FdTable where
  opened : List Int := []
  stray : List Int := []
  deriving DecidableEq, Repr

namespace FdTable

variable {t t' : FdTable} {fd fd' : Int} {calls : List FdCall}

/-- The system gives out descriptors that are not open; a negative number is none. -/
def step (t : FdTable) : FdCall → Option FdTable
  | .socket fd =>
    if 0 ≤ fd ∧ fd ∉ t.opened then some { t with opened := t.opened ++ [fd] } else none
  | .close fd =>
    if fd ∈ t.opened then some { t with opened := t.opened.erase fd }
    else if 0 ≤ fd then some { t with stray := t.stray ++ [fd] }
    else some t

def owned (fd : Int) : List Int := if 0 ≤ fd then [fd] else []

/-- The descriptors opened and not closed are `fd` and no other, and none was closed twice. -/
structure Owns (t : FdTable) (fd : Int) : Prop where
  opened : t.opened = owned fd
  stray : t.stray = []

theorem owns_iff : t.Owns fd ↔ t = ⟨owned fd, []⟩ := by
  constructor
  · rintro ⟨ho, hs⟩
    cases t
    simp_all
  · rintro rfl
    exact ⟨rfl, rfl⟩

theorem owned_of_nonneg (h : 0 ≤ fd) : owned fd = [fd] := if_pos h

theorem owned_of_neg (h : fd < 0) : owned fd = [] := if_neg (by omega)

theorem step_socket_eq_some_iff :
    t.step (.socket fd) = some t' ↔
      (0 ≤ fd ∧ fd ∉ t.opened) ∧ t' = { t with opened := t.opened ++ [fd] } := by
  by_cases h : 0 ≤ fd ∧ fd ∉ t.opened
  · simp [step, h, eq_comm]
  · simp [step, h]

theorem step_close_mem (h : fd ∈ t.opened) :
    t.step (.close fd) = some { t with opened := t.opened.erase fd } := by
  simp [step, h]

theorem step_close_stray (h : fd ∉ t.opened) (hpos : 0 ≤ fd) :
    t.step (.close fd) = some { t with stray := t.stray ++ [fd] } := by
  simp [step, h, hpos]

theorem step_close_neg (h : fd ∉ t.opened) (hneg : fd < 0) : t.step (.close fd) = some t := by
  have hn : ¬ 0 ≤ fd := by omega
  simp [step, h, hn]

/-- What an attempt to open a descriptor comes to: no descriptor, one, or one that is closed
again; `fd` is the number the owner is left with. -/
inductive Opening : List FdCall → Int → Prop where
  | failed {fd : Int} (h : fd < 0) : Opening [] fd
  | given (fd : Int) : Opening [.socket fd] fd
  | undone (s : Int) {fd : Int} (h : fd < 0) : Opening [.socket s, .close s] fd

theorem exec_opening (h : Opening calls fd') (he : exec step t calls = some t') :
    t' = { t with opened := t.opened ++ owned fd' } := by
  cases h with
  | failed hneg =>
    obtain rfl := Option.some.inj he
    simp [owned_of_neg hneg]
  | given =>
    obtain ⟨u, hu, he⟩ := Option.bind_eq_some_iff.mp he
    obtain ⟨⟨hpos, -⟩, rfl⟩ := step_socket_eq_some_iff.mp hu
    obtain rfl := Option.some.inj he
    simp [owned_of_nonneg hpos]
  | undone s hneg =>
    obtain ⟨u, hu, he⟩ := Option.bind_eq_some_iff.mp he
    obtain ⟨⟨-, hnew⟩, rfl⟩ := step_socket_eq_some_iff.mp hu
    rw [exec_cons, step_close_mem (by simp), Option.bind_some, exec_nil, Option.some.injEq] at he
    rw [← he, owned_of_neg hneg]
    simp [List.erase_append_right, hnew]

theorem exec_close_close (h : fd ∈ t.opened) (hgone : fd ∉ t.opened.erase fd) (hpos : 0 ≤ fd) :
    exec step t [.close fd, .close fd] = some ⟨t.opened.erase fd, t.stray ++ [fd]⟩ := by
  have hstray : step { t with opened := t.opened.erase fd } (.close fd) =
      some ⟨t.opened.erase fd, t.stray ++ [fd]⟩ := step_close_stray hgone hpos
  rw [exec_cons, step_close_mem h, Option.bind_some, exec_cons, hstray, Option.bind_some, exec_nil]

theorem exec_close_twice {s : Int} (he : exec step t [.socket s, .close s, .close s] = some t') :
    t' = { t with stray := t.stray ++ [s] } := by
  obtain ⟨u, hu, he⟩ := Option.bind_eq_some_iff.mp he
  obtain ⟨⟨hpos, hnew⟩, rfl⟩ := step_socket_eq_some_iff.mp hu
  have hback : (t.opened ++ [s]).erase s = t.opened := by simp [List.erase_append_right, hnew]
  have hclose : exec step { t with opened := t.opened ++ [s] } [.close s, .close s] =
      some ⟨(t.opened ++ [s]).erase s, t.stray ++ [s]⟩ :=
    exec_close_close (by simp) (by rwa [hback]) hpos
  rw [hclose, hback, Option.some.injEq] at he
  exact he.symm

theorem exec_close_other {s : Int}
    (he : exec step ⟨[fd], []⟩ [.socket s, .close fd, .close s] = some t') : t' = ⟨[], []⟩ := by
  obtain ⟨u, hu, he⟩ := Option.bind_eq_some_iff.mp he
  obtain ⟨-, rfl⟩ := step_socket_eq_some_iff.mp hu
  rw [exec_cons, step_close_mem (by simp), Option.bind_some, exec_cons,
    step_close_mem (by simp), Option.bind_some, exec_nil, Option.some.injEq] at he
  simpa [eq_comm] using he

/-- An attempt is safe exactly if the owner has no descriptor yet. -/
theorem owns_opening_iff (ht : t.Owns fd) (h : Opening calls fd')
    (he : exec step t calls = some t') : t'.Owns fd' ↔ fd < 0 := by
  obtain rfl := owns_iff.mp ht
  rw [exec_opening h he]
  by_cases hneg : fd < 0
  · refine iff_of_true ⟨?_, rfl⟩ hneg
    simp [owned_of_neg hneg]
  · have hpos : 0 ≤ fd := by omega
    refine iff_of_false (fun ho => ?_) hneg
    have hlen := congrArg List.length ho.opened
    simp [owned_of_nonneg hpos] at hlen

theorem owns_close (ht : t.Owns fd)
    (he : exec step t (if -1 ≠ fd then [.close fd] else []) = some t') : t'.Owns (-1) := by
  have hnone : owned (-1) = [] := owned_of_neg (by omega)
  obtain rfl := owns_iff.mp ht
  by_cases hpos : 0 ≤ fd
  · have hne : -1 ≠ fd := by omega
    rw [if_pos hne, exec_cons, step_close_mem (by simp [owned_of_nonneg hpos]), Option.bind_some,
      exec_nil, Option.some.injEq] at he
    rw [← he]
    exact ⟨by simp [owned_of_nonneg hpos, hnone], rfl⟩
  · have hneg : fd < 0 := by omega
    have hsame : t' = ⟨owned fd, []⟩ := by
      split_ifs at he
      · rw [exec_cons, step_close_neg (by simp [owned_of_neg hneg]) hneg] at he
        exact (Option.some.inj he).symm
      · exact (Option.some.inj he).symm
    rw [hsame, owns_iff, owned_of_neg hneg, hnone]

end FdTable

end Tinyco
