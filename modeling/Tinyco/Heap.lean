import Mathlib.Data.List.Sort

/-! Binary heaps in the layout of the C++ standard library, with the contract of
its two heap algorithms. Which of several elements with equal keys comes first
is left to the algorithm. -/

namespace Tinyco

variable {α : Type*} {key key' : α → Nat} {l : List α} {x : α}

/-- No element has a smaller key than its parent, so the first is a least one. -/
def IsMinHeap (key : α → Nat) (l : List α) : Prop :=
  ∀ i (h : i < l.length), 0 < i → key (l[(i - 1) / 2]) ≤ key l[i]

/-- `std::push_heap` and `std::pop_heap` for the comparison of keys by `>`. -/
structure HeapAlgo (α : Type*) where
  pushHeap : (α → Nat) → List α → List α
  popHeap : (α → Nat) → List α → List α
  pushHeap_spec : ∀ {key l x}, IsMinHeap key l →
    (pushHeap key (l ++ [x])).Perm (l ++ [x]) ∧ IsMinHeap key (pushHeap key (l ++ [x]))
  popHeap_spec : ∀ {key l x}, IsMinHeap key (x :: l) →
    ∃ r, popHeap key (x :: l) = r ++ [x] ∧ r.Perm l ∧ IsMinHeap key r

theorem isMinHeap_nil : IsMinHeap key [] := by
  intro i h
  simp at h

theorem IsMinHeap.congr (h : IsMinHeap key l) (he : ∀ a ∈ l, key a = key' a) : IsMinHeap key' l := by
  intro i hi hpos
  rw [← he _ (List.getElem_mem _), ← he _ (List.getElem_mem _)]
  exact h i hi hpos

/-- Along the parents every element leads to the first. -/
theorem IsMinHeap.head_le (h : IsMinHeap key (x :: l)) {y : α} (hy : y ∈ x :: l) : key x ≤ key y := by
  have hall (i : Nat) (hi : i < (x :: l).length) : key x ≤ key (x :: l)[i] := by
    induction i using Nat.strong_induction_on with
    | h i ih =>
      rcases Nat.eq_zero_or_pos i with rfl | hpos
      · exact le_rfl
      · exact (ih ((i - 1) / 2) (by omega) (by omega)).trans (h i hi hpos)
  obtain ⟨i, hi, rfl⟩ := List.mem_iff_getElem.mp hy
  exact hall i hi

theorem isMinHeap_of_pairwise (h : l.Pairwise (fun a b => key a ≤ key b)) : IsMinHeap key l := by
  intro i hi hpos
  exact List.pairwise_iff_getElem.mp h _ _ _ _ (by omega)

theorem isMinHeap_insertionSort (key : α → Nat) (l : List α) :
    IsMinHeap key (l.insertionSort (fun a b => key a ≤ key b)) := by
  have : Std.Total (fun a b : α => key a ≤ key b) := ⟨fun a b => Nat.le_total _ _⟩
  have : IsTrans α (fun a b => key a ≤ key b) := ⟨fun _ _ _ => Nat.le_trans⟩
  exact isMinHeap_of_pairwise (List.pairwise_insertionSort _ _)

/-- Keeping the range sorted meets the contract. -/
def sortedHeap (α : Type*) : HeapAlgo α where
  pushHeap key l := l.insertionSort (fun a b => key a ≤ key b)
  popHeap key l := l.tail.insertionSort (fun a b => key a ≤ key b) ++ l.head?.toList
  pushHeap_spec {key _ _} _ := ⟨List.perm_insertionSort _ _, isMinHeap_insertionSort key _⟩
  popHeap_spec {key l _} _ :=
    ⟨l.insertionSort (fun a b => key a ≤ key b), by simp, List.perm_insertionSort _ _,
      isMinHeap_insertionSort key l⟩

end Tinyco
