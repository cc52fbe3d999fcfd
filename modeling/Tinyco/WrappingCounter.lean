import Mathlib.Data.List.Nodup
import Mathlib.Data.List.Perm.Subperm
import Mathlib.Data.List.Range
import Mathlib.Data.Nat.ModEq

/-! Round robin over `n` places by a counter that wraps at `N`: the places that
consecutive values of the counter select. -/

namespace Tinyco

variable {N n i : ℕ}

/-- The places that `n` consecutive values of the counter, from `i` on, select. -/
def wrappedPlaces (N n i : ℕ) : List ℕ :=
  (List.range n).map fun j => (i + j) % N % n

@[simp] theorem length_wrappedPlaces : (wrappedPlaces N n i).length = n := by
  simp [wrappedPlaces]

theorem lt_of_mem_wrappedPlaces (hn : 0 < n) {p : ℕ} (hp : p ∈ wrappedPlaces N n i) : p < n := by
  obtain ⟨j, -, rfl⟩ := List.mem_map.mp hp
  exact Nat.mod_lt _ hn

theorem wrappedPlaces_perm_iff_nodup (hn : 0 < n) :
    (wrappedPlaces N n i).Perm (List.range n) ↔ (wrappedPlaces N n i).Nodup := by
  constructor
  · intro h
    exact h.nodup_iff.mpr List.nodup_range
  · intro h
    have hsub : wrappedPlaces N n i ⊆ List.range n := fun p hp =>
      List.mem_range.mpr (lt_of_mem_wrappedPlaces hn hp)
    exact (List.subperm_of_subset h hsub).perm_of_length_le (by simp)

theorem wrappedPlaces_nodup_iff :
    (wrappedPlaces N n i).Nodup ↔
      ∀ j < n, ∀ k < n, (i + j) % N % n = (i + k) % N % n → j = k := by
  simp only [wrappedPlaces, List.nodup_map_iff_inj_on List.nodup_range, List.mem_range]

theorem eq_of_add_mod_eq {j k : ℕ} (hj : j < n) (hk : k < n) (h : (i + j) % n = (i + k) % n) :
    j = k :=
  Nat.ModEq.eq_of_lt_of_lt (Nat.ModEq.add_left_cancel' i h) hj hk

theorem exists_place_twice (hn : 0 < n) (hi : i < N) (hwrap : N < i + n) (hdvd : ¬ n ∣ N) :
    ∃ j < n, ∃ k < n, (i + j) % N % n = (i + k) % N % n ∧ j ≠ k := by
  have hr : 0 < N % n := Nat.pos_of_ne_zero fun h => hdvd (Nat.dvd_of_mod_eq_zero h)
  have hrn : N % n < n := Nat.mod_lt N hn
  have hrN : N % n ≤ N := Nat.mod_le N n
  rcases Nat.lt_or_ge (N - i) (N % n) with hlt | hge
  · refine ⟨0, hn, N % n, hrn, ?_, by omega⟩
    obtain ⟨p, hp⟩ : ∃ p, p = N % n - (N - i) := ⟨_, rfl⟩
    have hsum : i = n * (N / n) + p := by
      have := Nat.div_add_mod N n
      omega
    have hfirst : i % n = p := by
      rw [hsum, Nat.mul_add_mod, Nat.mod_eq_of_lt (by omega)]
    have hsecond : (i + N % n) % N = p := by
      rw [show i + N % n = p + N by omega, Nat.add_mod_right, Nat.mod_eq_of_lt (by omega)]
    rw [Nat.add_zero, Nat.mod_eq_of_lt hi, hfirst, hsecond, Nat.mod_eq_of_lt (by omega)]
  · refine ⟨N - i - N % n, by omega, N - i, by omega, ?_, by omega⟩
    have hfirst : (i + (N - i - N % n)) % N = n * (N / n) := by
      have := Nat.div_add_mod N n
      rw [Nat.mod_eq_of_lt (by omega)]
      omega
    rw [hfirst, show i + (N - i) = N by omega, Nat.mod_self, Nat.mul_mod_right, Nat.zero_mod]

/-- `n` consecutive values select every place once exactly when the counter does not wrap among
them or wraps at a multiple of `n`. -/
theorem wrappedPlaces_perm_iff (hn : 0 < n) (hi : i < N) :
    (wrappedPlaces N n i).Perm (List.range n) ↔ i + n ≤ N ∨ n ∣ N := by
  rw [wrappedPlaces_perm_iff_nodup hn, wrappedPlaces_nodup_iff]
  constructor
  · intro h
    by_contra hc
    obtain ⟨hwrap, hdvd⟩ := not_or.mp hc
    obtain ⟨j, hj, k, hk, heq, hne⟩ := exists_place_twice hn hi (by omega) hdvd
    exact hne (h j hj k hk heq)
  · rintro (hle | hdvd) j hj k hk h
    · rw [Nat.mod_eq_of_lt (show i + j < N by omega), Nat.mod_eq_of_lt (show i + k < N by omega)] at h
      exact eq_of_add_mod_eq hj hk h
    · rw [Nat.mod_mod_of_dvd _ hdvd, Nat.mod_mod_of_dvd _ hdvd] at h
      exact eq_of_add_mod_eq hj hk h

end Tinyco
