import Mathlib.Data.List.TakeWhile
import Tinyco.Bytes

/-! The string functions of `util/string.h` and `util/string.cc`. -/

namespace Tinyco

/-- The results of `std::getline` on `acc` and what follows it, until it fails. The
end of the input ends the last item only if there is something in it. -/
def getlines (delim : UInt8) (acc : Bytes) : Bytes → List Bytes
  | [] => if acc = [] then [] else [acc]
  | c :: s => if c = delim then acc :: getlines delim [] s else getlines delim (acc ++ [c]) s

def split (s : Bytes) (delim : UInt8) : List Bytes :=
  match getlines delim [] s with
  | [] => [s]
  | elems => elems

/-- `std::isspace` in the C locale. -/
def isspace (c : UInt8) : Bool := c == 32 || (9 ≤ c && c ≤ 13)

def ltrim (s : Bytes) : Bytes := s.dropWhile isspace

def rtrim (s : Bytes) : Bytes := (s.reverse.dropWhile isspace).reverse

def trim (s : Bytes) : Bytes := rtrim (ltrim s)

section SplitOn

variable {α : Type*} [DecidableEq α] {d : α} {s p q : List α} {rest : List (List α)}

theorem splitOn_eq_singleton_iff : s.splitOn d = [p] ↔ s = p ∧ d ∉ p := by
  constructor
  · intro h
    by_cases hd : d ∈ s
    · obtain ⟨a, b, rfl⟩ := List.append_of_mem hd
      rw [List.splitOn_append_cons_self] at h
      have hlen := congrArg List.length h
      have ha := List.length_pos_of_ne_nil (List.splitOn_ne_nil d a)
      have hb := List.length_pos_of_ne_nil (List.splitOn_ne_nil d b)
      simp only [List.length_append, List.length_singleton] at hlen
      omega
    · rw [List.splitOn_eq_singleton hd, List.singleton_inj] at h
      exact ⟨h, h ▸ hd⟩
  · rintro ⟨rfl, hd⟩
    exact List.splitOn_eq_singleton hd

theorem splitOn_eq_cons_cons_iff :
    s.splitOn d = p :: q :: rest ↔ ∃ t, s = p ++ d :: t ∧ d ∉ p ∧ t.splitOn d = q :: rest := by
  constructor
  · intro h
    have hd : d ∈ s := by
      by_contra hd
      rw [List.splitOn_eq_singleton hd] at h
      simp at h
    obtain ⟨a, b, rfl, ha⟩ := List.eq_append_cons_of_mem hd
    rw [List.splitOn_append_cons_self_of_not_mem ha] at h
    obtain ⟨rfl, hb⟩ := List.cons.inj h
    exact ⟨b, rfl, ha, hb⟩
  · rintro ⟨t, rfl, hp, ht⟩
    rw [List.splitOn_append_cons_self_of_not_mem hp, ht]

theorem takeWhile_ne_eq_self (hd : d ∉ s) : s.takeWhile (· ≠ d) = s :=
  List.takeWhile_eq_self_iff.mpr fun c hc => by simpa using fun h : c = d => hd (h ▸ hc)

theorem takeWhile_ne_append_cons (hd : d ∉ p) (q : List α) :
    (p ++ d :: q).takeWhile (· ≠ d) = p := by
  rw [List.takeWhile_append_of_pos fun c hc => by simpa using fun h : c = d => hd (h ▸ hc)]
  simp

theorem exists_splitOn_eq_takeWhile (d : α) (s : List α) :
    ∃ rest, s.splitOn d = s.takeWhile (· ≠ d) :: rest := by
  by_cases hd : d ∈ s
  · obtain ⟨a, b, rfl, ha⟩ := List.eq_append_cons_of_mem hd
    exact ⟨b.splitOn d, by
      rw [List.splitOn_append_cons_self_of_not_mem ha, takeWhile_ne_append_cons ha]⟩
  · exact ⟨[], by rw [List.splitOn_eq_singleton hd, takeWhile_ne_eq_self hd]⟩

end SplitOn

theorem modifyHead_nil_append {α : Type*} (l : List (List α)) : l.modifyHead ([] ++ ·) = l := by
  cases l <;> rfl

theorem getlines_append_delim (d : UInt8) (acc t : Bytes) :
    getlines d acc (t ++ [d]) = (t.splitOn d).modifyHead (acc ++ ·) := by
  induction t generalizing acc with
  | nil => simp [getlines]
  | cons c t ih =>
    rw [List.cons_append, getlines, List.splitOn_cons_eq_if_modifyHead]
    by_cases hc : c = d
    · rw [if_pos hc, if_pos (beq_iff_eq.mpr hc), ih, modifyHead_nil_append]
      simp
    · simp [hc, ih, Function.comp_def]

theorem getlines_eq_splitOn {d : UInt8} {acc s : Bytes} (hlast : s.getLast? ≠ some d)
    (hne : acc ++ s ≠ []) : getlines d acc s = (s.splitOn d).modifyHead (acc ++ ·) := by
  induction s generalizing acc with
  | nil =>
    have hacc : acc ≠ [] := by simpa using hne
    simp [getlines, hacc]
  | cons c s ih =>
    rw [getlines, List.splitOn_cons_eq_if_modifyHead]
    by_cases hc : c = d
    · have hs : s ≠ [] := by
        rintro rfl
        simp [hc] at hlast
      have hrest : s.getLast? ≠ some d := by rwa [List.getLast?_cons_of_ne_nil hs] at hlast
      rw [if_pos hc, if_pos (beq_iff_eq.mpr hc), ih hrest (by simpa using hs), modifyHead_nil_append]
      simp
    · have hrest : s.getLast? ≠ some d := by
        cases s with
        | nil => simp
        | cons _ _ => rwa [List.getLast?_cons_of_ne_nil (List.cons_ne_nil _ _)] at hlast
      simp [hc, ih hrest, Function.comp_def]

theorem split_of_getlines {s : Bytes} {d : UInt8} {items : List Bytes} (hne : items ≠ [])
    (h : getlines d [] s = items) : split s d = items := by
  unfold split
  rw [h]
  cases items with
  | nil => exact absurd rfl hne
  | cons _ _ => rfl

/-- A delimiter at the end of the string is ignored. -/
theorem split_append_delim (t : Bytes) (d : UInt8) : split (t ++ [d]) d = t.splitOn d := by
  refine split_of_getlines (List.splitOn_ne_nil d t) ?_
  rw [getlines_append_delim, modifyHead_nil_append]

theorem split_eq_splitOn {s : Bytes} {d : UInt8} (hlast : s.getLast? ≠ some d) :
    split s d = s.splitOn d := by
  by_cases hs : s = []
  · subst hs
    rfl
  · refine split_of_getlines (List.splitOn_ne_nil d s) ?_
    rw [getlines_eq_splitOn hlast (by simpa using hs), modifyHead_nil_append]

/-- Where the empty string counts for nothing, `Split` cuts at every delimiter. -/
theorem filterMap_split {β : Type*} {f : Bytes → Option β} (hf : f [] = none) (s : Bytes) (d : UInt8) :
    (split s d).filterMap f = (s.splitOn d).filterMap f := by
  by_cases hlast : s.getLast? = some d
  · obtain ⟨t, rfl⟩ := List.getLast?_eq_some_iff.mp hlast
    rw [split_append_delim, List.splitOn_append_cons_self, List.filterMap_append]
    simp [hf]
  · rw [split_eq_splitOn hlast]

theorem splitOn_eq_pair_iff {α : Type*} [DecidableEq α] {d : α} {s p q : List α} :
    s.splitOn d = [p, q] ↔ s = p ++ d :: q ∧ d ∉ p ∧ d ∉ q := by
  rw [splitOn_eq_cons_cons_iff]
  simp [splitOn_eq_singleton_iff]

theorem split_eq_pair_iff {s p q : Bytes} {d : UInt8} :
    split s d = [p, q] ↔ d ∉ p ∧ d ∉ q ∧ (s = p ++ d :: q ∧ q ≠ [] ∨ s = p ++ d :: q ++ [d]) := by
  by_cases hlast : s.getLast? = some d
  · obtain ⟨t, rfl⟩ := List.getLast?_eq_some_iff.mp hlast
    have hfirst : d ∉ q → ¬ (t ++ [d] = p ++ d :: q ∧ q ≠ []) := by
      rintro hq ⟨heq, hne⟩
      rw [heq, List.getLast?_append_cons, List.getLast?_cons_of_ne_nil hne] at hlast
      exact hq (List.mem_of_getLast? hlast)
    rw [split_append_delim, splitOn_eq_pair_iff, List.append_left_inj]
    tauto
  · have hsecond : s ≠ p ++ d :: q ++ [d] := by
      rintro rfl
      exact hlast List.getLast?_concat
    have hfirst : s = p ++ d :: q → q ≠ [] := by
      rintro rfl rfl
      simp at hlast
    rw [split_eq_splitOn hlast, splitOn_eq_pair_iff]
    tauto

theorem delim_notMem_splitOn {α : Type*} [DecidableEq α] {d : α} {s p : List α}
    (hp : p ∈ s.splitOn d) : d ∉ p := by
  induction s generalizing p with
  | nil =>
    have hnil : p = [] := by simpa using hp
    simp [hnil]
  | cons c s ih =>
    rw [List.splitOn_cons_eq_if_modifyHead] at hp
    obtain ⟨first, rest, hs⟩ := List.exists_cons_of_ne_nil (List.splitOn_ne_nil d s)
    rw [hs] at hp ih
    by_cases hc : c = d
    · rw [if_pos (beq_iff_eq.mpr hc), List.mem_cons] at hp
      rcases hp with rfl | hp
      · exact List.not_mem_nil
      · exact ih hp
    · rw [if_neg (by simpa using hc), List.modifyHead_cons, List.mem_cons] at hp
      rcases hp with rfl | hp
      · have hfirst := ih List.mem_cons_self
        simp [hfirst, Ne.symm hc]
      · exact ih (List.mem_cons_of_mem _ hp)

theorem length_splitOn {α : Type*} [DecidableEq α] (d : α) (s : List α) :
    (s.splitOn d).length = s.count d + 1 := by
  induction s with
  | nil => rfl
  | cons c s ih =>
    rw [List.splitOn_cons_eq_if_modifyHead]
    by_cases hc : c = d
    · subst hc
      simp [ih]
    · simp [hc, ih]

/-- What the callers of `Split` rely on: the pieces hold no delimiter, they join to the
string up to one delimiter at its end, and so their number is known. -/
theorem split_pieces (s : Bytes) (d : UInt8) :
    split s d ≠ [] ∧ (∀ p ∈ split s d, d ∉ p) ∧
      [d].intercalate (split s d) = (if s.getLast? = some d then s.dropLast else s) ∧
      (split s d).length =
        if s = [] then 1 else s.count d + 1 - (if s.getLast? = some d then 1 else 0) := by
  by_cases hlast : s.getLast? = some d
  · obtain ⟨t, rfl⟩ := List.getLast?_eq_some_iff.mp hlast
    have hne : t ++ [d] ≠ [] := by simp
    rw [split_append_delim, if_pos hlast, if_neg hne, if_pos hlast]
    refine ⟨List.splitOn_ne_nil d t, fun p => delim_notMem_splitOn, ?_, ?_⟩
    · rw [List.intercalate_splitOn, List.dropLast_concat]
    · have hcount : (t ++ [d]).count d = t.count d + 1 := by simp
      rw [length_splitOn, hcount]
      omega
  · rw [split_eq_splitOn hlast, if_neg hlast, if_neg hlast]
    refine ⟨List.splitOn_ne_nil d s, fun p => delim_notMem_splitOn, ?_, ?_⟩
    · exact List.intercalate_splitOn d
    · rw [length_splitOn]
      by_cases hs : s = []
      · simp [hs]
      · simp [hs]

example : split (bytes "a=1&&b=2&") 38 = [bytes "a=1", [], bytes "b=2"] := by decide

end Tinyco
