import Mathlib.Data.List.Induction
import Mathlib.Data.Set.Basic

/-! Messages at the front of a word: the words that are complete, those that may still become
so, and where a word ends its first message or goes wrong. -/

namespace Tinyco

/-- No complete word goes on, and the way to it is live. A live word need not become complete
by further letters, the end of the input may complete it. -/
structure Framing (α : Type*) where
  complete : Set (List α)
  live : Set (List α)
  nil_live : [] ∈ live
  live_of_prefix : ∀ {p b}, p <+: b → b ∈ live → p ∈ live
  live_of_complete : ∀ {p x}, p <+: x → x ∈ complete → p ≠ x → p ∈ live
  not_live : ∀ {x}, x ∈ complete → x ∉ live

namespace Framing

variable {α : Type*} (G : Framing α)

def EndsAt (b : List α) (m : Nat) : Prop := m ≤ b.length ∧ b.take m ∈ G.complete

/-- The letter at `k` is the first that cannot stand where it does. -/
def FailsAt (b : List α) (k : Nat) : Prop :=
  k < b.length ∧ b.take k ∈ G.live ∧ b.take (k + 1) ∉ G.live ∧ b.take (k + 1) ∉ G.complete

variable {G} {b q x : List α} {m m' k k' : Nat}

theorem EndsAt.append (h : G.EndsAt b m) (q : List α) : G.EndsAt (b ++ q) m := by
  obtain ⟨hle, hc⟩ := h
  refine ⟨by simp only [List.length_append]; omega, ?_⟩
  rwa [List.take_append_of_le_length hle]

theorem FailsAt.append (h : G.FailsAt b k) (q : List α) : G.FailsAt (b ++ q) k := by
  obtain ⟨hlt, hlive, hdead, hnot⟩ := h
  refine ⟨by simp only [List.length_append]; omega, ?_, ?_, ?_⟩
  · rwa [List.take_append_of_le_length hlt.le]
  · rwa [List.take_append_of_le_length hlt]
  · rwa [List.take_append_of_le_length hlt]

theorem endsAt_of_complete (h : x ∈ G.complete) (q : List α) : G.EndsAt (x ++ q) x.length :=
  ⟨by simp, by simpa using h⟩

/-- Every word ends a message, goes wrong or is live. -/
theorem verdict (G : Framing α) (b : List α) :
    (∃ m, G.EndsAt b m) ∨ (∃ k, G.FailsAt b k) ∨ b ∈ G.live := by
  induction b using List.reverseRecOn with
  | nil => exact .inr (.inr G.nil_live)
  | append_singleton l a ih =>
    rcases ih with ⟨m, hm⟩ | ⟨k, hk⟩ | hlive
    · exact .inl ⟨m, hm.append [a]⟩
    · exact .inr (.inl ⟨k, hk.append [a]⟩)
    · have htake : (l ++ [a]).take (l.length + 1) = l ++ [a] := List.take_of_length_le (by simp)
      by_cases hc : l ++ [a] ∈ G.complete
      · exact .inl ⟨l.length + 1, by simp, by rwa [htake]⟩
      · by_cases hl : l ++ [a] ∈ G.live
        · exact .inr (.inr hl)
        · refine .inr (.inl ⟨l.length, by simp, ?_, ?_, ?_⟩)
          · simpa using hlive
          · rwa [htake]
          · rwa [htake]

theorem EndsAt.not_live (h : G.EndsAt b m) : b ∉ G.live := fun hb =>
  G.not_live h.2 (G.live_of_prefix (List.take_prefix m b) hb)

theorem FailsAt.not_live (h : G.FailsAt b k) : b ∉ G.live := fun hb =>
  h.2.2.1 (G.live_of_prefix (List.take_prefix (k + 1) b) hb)

theorem EndsAt.not_failsAt (h : G.EndsAt b m) : ¬ G.FailsAt b k := by
  rintro ⟨hlt, hlive, hdead, hnot⟩
  rcases Nat.lt_or_ge k m with hkm | hmk
  · have hp : b.take (k + 1) <+: b.take m := List.take_prefix_take_left hkm
    by_cases he : b.take (k + 1) = b.take m
    · exact hnot (he ▸ h.2)
    · exact hdead (G.live_of_complete hp h.2 he)
  · exact G.not_live h.2 (G.live_of_prefix (List.take_prefix_take_left hmk) hlive)

theorem EndsAt.le (h : G.EndsAt b m) (h' : G.EndsAt b m') : m ≤ m' := by
  by_contra hlt
  have hp : b.take m' <+: b.take m := List.take_prefix_take_left (by omega)
  have hne : b.take m' ≠ b.take m := fun he => by
    have hlen := congrArg List.length he
    rw [List.length_take_of_le h.1, List.length_take_of_le h'.1] at hlen
    omega
  exact G.not_live h'.2 (G.live_of_complete hp h.2 hne)

theorem EndsAt.unique (h : G.EndsAt b m) (h' : G.EndsAt b m') : m = m' :=
  le_antisymm (h.le h') (h'.le h)

theorem FailsAt.le (h : G.FailsAt b k) (h' : G.FailsAt b k') : k ≤ k' := by
  by_contra hlt
  exact h'.2.2.1 (G.live_of_prefix (List.take_prefix_take_left (by omega)) h.2.1)

theorem FailsAt.unique (h : G.FailsAt b k) (h' : G.FailsAt b k') : k = k' :=
  le_antisymm (h.le h') (h'.le h)

/-- A word that has gone wrong is not the start of any message. -/
theorem FailsAt.no_message (h : G.FailsAt b k) (q : List α) : ¬ ∃ m, G.EndsAt (b ++ q) m :=
  fun ⟨_, hm⟩ => hm.not_failsAt (h.append q)

def single (x : List α) (hx : x ≠ []) : Framing α where
  complete := {y | y = x}
  live := {p | p <+: x ∧ p ≠ x}
  nil_live := ⟨List.nil_prefix, hx.symm⟩
  live_of_prefix {p b} hp hb := by
    refine ⟨hp.trans hb.1, fun he => hb.2 ?_⟩
    exact hb.1.eq_of_length (le_antisymm hb.1.length_le (he ▸ hp.length_le))
  live_of_complete {p y} hp hy hne := by
    obtain rfl : y = x := hy
    exact ⟨hp, hne⟩
  not_live hy hlive := hlive.2 hy

end Framing

end Tinyco
