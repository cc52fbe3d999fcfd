import Mathlib.Data.List.Induction
import Mathlib.Data.List.Perm.Basic
import Mathlib.Data.List.Lookmap
import Mathlib.Data.List.Nodup

/-! Finite maps with an iteration order, as a hash container has one: a new key
goes to the end of the entries, an assigned one keeps its place. -/

namespace Tinyco

variable {κ ν : Type*}

structure AssocMap (κ ν : Type*) where
  entries : List (κ × ν)
  nodupKeys : (entries.map Prod.fst).Nodup
  deriving DecidableEq

namespace AssocMap

def empty : AssocMap κ ν := ⟨[], List.nodup_nil⟩

def keys (m : AssocMap κ ν) : List κ := m.entries.map Prod.fst

def values (m : AssocMap κ ν) : List ν := m.entries.map Prod.snd

@[simp] theorem keys_empty : (empty : AssocMap κ ν).keys = [] := rfl

@[simp] theorem values_empty : (empty : AssocMap κ ν).values = [] := rfl

theorem value_unique {es : List (κ × ν)} (h : (es.map Prod.fst).Nodup) {k : κ} {v v' : ν}
    (hv : (k, v) ∈ es) (hv' : (k, v') ∈ es) : v = v' :=
  congrArg Prod.snd (List.inj_on_of_nodup_map h hv hv' rfl)

variable [DecidableEq κ]

def find (m : AssocMap κ ν) (k : κ) : Option ν :=
  (m.entries.find? (fun e => decide (e.1 = k))).map Prod.snd

def assignEntries (k : κ) (v : ν) : List (κ × ν) → List (κ × ν)
  | [] => [(k, v)]
  | e :: es => if e.1 = k then (k, v) :: es else e :: assignEntries k v es

theorem map_fst_assignEntries (k : κ) (v : ν) (es : List (κ × ν)) :
    (assignEntries k v es).map Prod.fst =
      if k ∈ es.map Prod.fst then es.map Prod.fst else es.map Prod.fst ++ [k] := by
  induction es with
  | nil => simp [assignEntries]
  | cons e es ih =>
    by_cases he : e.1 = k
    · simp [assignEntries, he]
    · have hk : k ≠ e.1 := fun h => he h.symm
      simp only [assignEntries, he, if_false, List.map_cons, ih, List.mem_cons, hk, false_or]
      split_ifs <;> rfl

/-- `m[k] = v`. -/
def assign (m : AssocMap κ ν) (k : κ) (v : ν) : AssocMap κ ν where
  entries := assignEntries k v m.entries
  nodupKeys := by
    rw [map_fst_assignEntries]
    split_ifs with h
    · exact m.nodupKeys
    · exact List.nodup_append.mpr ⟨m.nodupKeys, List.nodup_singleton k, by
        intro a ha b hb he
        exact h (by simpa [he, List.mem_singleton.mp hb] using ha)⟩

def erase (m : AssocMap κ ν) (k : κ) : AssocMap κ ν where
  entries := m.entries.filter (fun e => decide (e.1 ≠ k))
  nodupKeys := m.nodupKeys.sublist (List.filter_sublist.map Prod.fst)

def assignAll (m : AssocMap κ ν) (kvs : List (κ × ν)) : AssocMap κ ν :=
  kvs.foldl (fun m e => m.assign e.1 e.2) m

@[simp] theorem find_empty (k : κ) : (empty : AssocMap κ ν).find k = none := rfl

theorem keys_assign (m : AssocMap κ ν) (k : κ) (v : ν) :
    (m.assign k v).keys = if k ∈ m.keys then m.keys else m.keys ++ [k] :=
  map_fst_assignEntries k v m.entries

theorem mem_keys_assign {m : AssocMap κ ν} {k k' : κ} {v : ν} :
    k' ∈ (m.assign k v).keys ↔ k' = k ∨ k' ∈ m.keys := by
  rw [keys_assign]
  split_ifs with h
  · constructor
    · exact .inr
    · rintro (rfl | hk)
      · exact h
      · exact hk
  · simp [or_comm]

theorem find_isSome_iff {m : AssocMap κ ν} {k : κ} : (m.find k).isSome ↔ k ∈ m.keys := by
  simp [find, keys, List.find?_isSome]

theorem find_eq_none_iff {m : AssocMap κ ν} {k : κ} : m.find k = none ↔ k ∉ m.keys := by
  rw [← find_isSome_iff, Option.not_isSome_iff_eq_none]

theorem find_assignEntries (k k' : κ) (v : ν) (es : List (κ × ν)) :
    ((assignEntries k v es).find? (fun e => decide (e.1 = k'))).map Prod.snd =
      if k = k' then some v else (es.find? (fun e => decide (e.1 = k'))).map Prod.snd := by
  induction es with
  | nil => by_cases h : k = k' <;> simp [assignEntries, h]
  | cons e es ih =>
    by_cases he : e.1 = k
    · by_cases h : k = k' <;> simp [assignEntries, he, h]
    · by_cases h : e.1 = k'
      · have hk : k ≠ k' := fun hh => he (h.trans hh.symm)
        simp [assignEntries, h, hk, Ne.symm hk]
      · simpa [assignEntries, he, h] using ih

theorem find_assign (m : AssocMap κ ν) (k k' : κ) (v : ν) :
    (m.assign k v).find k' = if k = k' then some v else m.find k' :=
  find_assignEntries k k' v m.entries

@[simp] theorem find_assign_self (m : AssocMap κ ν) (k : κ) (v : ν) :
    (m.assign k v).find k = some v := by simp [find_assign]

theorem find_assign_ne (m : AssocMap κ ν) {k k' : κ} (v : ν) (h : k ≠ k') :
    (m.assign k v).find k' = m.find k' := by simp [find_assign, h]

theorem find_erase (m : AssocMap κ ν) (k k' : κ) :
    (m.erase k).find k' = if k = k' then none else m.find k' := by
  simp only [find, erase, List.find?_filter]
  split_ifs with h
  · subst h
    simp
  · congr 2
    funext e
    by_cases he : e.1 = k'
    · simp [he, Ne.symm h]
    · simp [he]

theorem find_eq_some_iff {m : AssocMap κ ν} {k : κ} {v : ν} :
    m.find k = some v ↔ (k, v) ∈ m.entries := by
  have hmem {v' : ν} (h : m.find k = some v') : (k, v') ∈ m.entries := by
    obtain ⟨e, he, rfl⟩ := Option.map_eq_some_iff.mp h
    have hk : e.1 = k := by simpa using List.find?_some he
    rw [← hk]
    exact List.mem_of_find?_eq_some he
  refine ⟨hmem, fun h => ?_⟩
  obtain ⟨v', hv'⟩ := Option.isSome_iff_exists.mp (find_isSome_iff.mpr (List.mem_map_of_mem h))
  rw [hv', value_unique m.nodupKeys h (hmem hv')]

theorem mem_keys_erase {m : AssocMap κ ν} {k k' : κ} :
    k' ∈ (m.erase k).keys ↔ k' ≠ k ∧ k' ∈ m.keys := by
  rw [← find_isSome_iff, ← find_isSome_iff, find_erase]
  split_ifs with h
  · simp [h]
  · simp [Ne.symm h]

theorem assignEntries_of_not_mem {k : κ} {v : ν} {es : List (κ × ν)} (h : k ∉ es.map Prod.fst) :
    assignEntries k v es = es ++ [(k, v)] := by
  induction es with
  | nil => rfl
  | cons e es ih =>
    simp only [List.map_cons, List.mem_cons, not_or] at h
    simp [assignEntries, Ne.symm h.1, ih h.2]

theorem values_assign_of_not_mem {m : AssocMap κ ν} {k : κ} (v : ν) (h : k ∉ m.keys) :
    (m.assign k v).values = m.values ++ [v] := by
  simp [values, assign, assignEntries_of_not_mem (show k ∉ m.entries.map Prod.fst from h)]

theorem values_perm_erase {m : AssocMap κ ν} {k : κ} {v : ν} (h : m.find k = some v) :
    m.values.Perm (v :: (m.erase k).values) := by
  obtain ⟨es, hnd⟩ := m
  simp only [find, values, erase] at h ⊢
  induction es with
  | nil => simp at h
  | cons e es ih =>
    have hnd' := List.nodup_cons.mp hnd
    by_cases he : e.1 = k
    · have hv : e.2 = v := by simpa [he] using h
      have hrest : es.filter (fun e => decide (e.1 ≠ k)) = es := by
        apply List.filter_eq_self.mpr
        intro a ha
        have hne : a.1 ≠ e.1 := fun hh => hnd'.1 (hh ▸ List.mem_map_of_mem ha)
        simpa [he] using hne
      rw [List.filter_cons_of_neg (by simp [he]), hrest, List.map_cons, hv]
    · have hh := ih hnd'.2 (by simpa [he] using h)
      simpa [he] using (hh.cons e.2).trans (List.Perm.swap v e.2 _)

theorem assignAll_append (m : AssocMap κ ν) (as bs : List (κ × ν)) :
    m.assignAll (as ++ bs) = (m.assignAll as).assignAll bs := by
  simp [assignAll, List.foldl_append]

theorem foldl_eq_assignAll {σ : Type*} {f : AssocMap κ ν → σ} {g : σ → κ × ν → σ}
    (h : ∀ m e, g (f m) e = f (m.assign e.1 e.2)) (m : AssocMap κ ν) (kvs : List (κ × ν)) :
    kvs.foldl g (f m) = f (m.assignAll kvs) := by
  induction kvs generalizing m with
  | nil => rfl
  | cons e kvs ih =>
    rw [List.foldl_cons, h, ih]
    rfl

theorem mem_keys_assignAll {m : AssocMap κ ν} {kvs : List (κ × ν)} {k : κ} :
    k ∈ (m.assignAll kvs).keys ↔ k ∈ kvs.map Prod.fst ∨ k ∈ m.keys := by
  induction kvs generalizing m with
  | nil => simp [assignAll]
  | cons e kvs ih =>
    have hh : k ∈ ((m.assign e.1 e.2).assignAll kvs).keys ↔ _ := ih
    simp only [assignAll, List.foldl_cons] at hh ⊢
    rw [hh, mem_keys_assign]
    simp [or_assoc, or_left_comm]

theorem find_assignAll_congr {m m' : AssocMap κ ν} {kvs : List (κ × ν)} {k : κ}
    (h : k ∈ kvs.map Prod.fst ∨ m.find k = m'.find k) :
    (m.assignAll kvs).find k = (m'.assignAll kvs).find k := by
  induction kvs generalizing m m' with
  | nil => simpa [assignAll] using h
  | cons e kvs ih =>
    apply ih
    by_cases he : e.1 = k
    · exact .inr (by simp [he])
    · simp only [List.map_cons, List.mem_cons, Ne.symm he, false_or] at h
      exact h.imp_right fun hh => by simp [find_assign, he, hh]

theorem find_assignAll_of_not_mem {m : AssocMap κ ν} {kvs : List (κ × ν)} {k : κ}
    (h : k ∉ kvs.map Prod.fst) : (m.assignAll kvs).find k = m.find k := by
  induction kvs generalizing m with
  | nil => rfl
  | cons e kvs ih =>
    simp only [List.map_cons, List.mem_cons, not_or] at h
    exact (ih h.2).trans (find_assign_ne m e.2 (Ne.symm h.1))

theorem find_assignAll (m : AssocMap κ ν) (kvs : List (κ × ν)) (k : κ) :
    (m.assignAll kvs).find k = ((empty.assignAll kvs).find k).or (m.find k) := by
  by_cases hk : k ∈ kvs.map Prod.fst
  · have hsome : ((empty.assignAll kvs).find k).isSome :=
      find_isSome_iff.mpr (mem_keys_assignAll.mpr (.inl hk))
    rw [Option.or_of_isSome hsome]
    exact find_assignAll_congr (.inl hk)
  · rw [find_assignAll_of_not_mem hk, find_assignAll_of_not_mem hk, find_empty, Option.none_or]

theorem find_assignAll_unchanged_iff {m : AssocMap κ ν} {kvs : List (κ × ν)} :
    (∀ k, (m.assignAll kvs).find k = m.find k) ↔
      ∀ k v, (empty.assignAll kvs).find k = some v → m.find k = some v := by
  constructor
  · intro h k v hv
    rw [← h k, find_assignAll, hv, Option.some_or]
  · intro h k
    rw [find_assignAll]
    cases hv : (empty.assignAll kvs).find k with
    | none => rfl
    | some v => rw [Option.some_or, h k v hv]

theorem mem_or_find_of_find_assignAll {m : AssocMap κ ν} {kvs : List (κ × ν)} {k : κ} {v : ν}
    (h : (m.assignAll kvs).find k = some v) : (k, v) ∈ kvs ∨ m.find k = some v := by
  induction kvs generalizing m with
  | nil => exact .inr h
  | cons e kvs ih =>
    rcases ih h with hmem | hfind
    · exact .inl (List.mem_cons_of_mem _ hmem)
    · rw [find_assign] at hfind
      split_ifs at hfind with he
      · cases hfind
        exact .inl (by simp [← he])
      · exact .inr hfind

theorem find_assignAll_eq_getLast? (kvs : List (κ × ν)) (k : κ) :
    (empty.assignAll kvs).find k =
      ((kvs.filter fun e => decide (e.1 = k)).map Prod.snd).getLast? := by
  induction kvs using List.reverseRecOn with
  | nil => rfl
  | append_singleton kvs e ih =>
    have hlast : (empty.assignAll (kvs ++ [e])).find k =
        if e.1 = k then some e.2 else (empty.assignAll kvs).find k := by
      rw [assignAll_append]
      exact find_assign _ e.1 k e.2
    rw [hlast, List.filter_append, List.map_append, ih]
    by_cases he : e.1 = k
    · simp [he]
    · simp [he]

theorem find_assignAll_of_nodup {kvs : List (κ × ν)} (h : (kvs.map Prod.fst).Nodup) {k : κ} {v : ν} :
    (empty.assignAll kvs).find k = some v ↔ (k, v) ∈ kvs := by
  have hmem {v' : ν} (hv' : (empty.assignAll kvs).find k = some v') : (k, v') ∈ kvs := by
    simpa using mem_or_find_of_find_assignAll hv'
  refine ⟨hmem, fun hv => ?_⟩
  have hkey : k ∈ (empty.assignAll kvs).keys :=
    mem_keys_assignAll.mpr (.inl (List.mem_map_of_mem hv))
  obtain ⟨v', hv'⟩ := Option.isSome_iff_exists.mp (find_isSome_iff.mpr hkey)
  rw [hv', value_unique h hv (hmem hv')]

/-- The same assignments into a used map and into an empty one give the same
contents exactly when they overwrite every key of the used one. -/
theorem find_assignAll_eq_iff {m : AssocMap κ ν} {kvs : List (κ × ν)} :
    (∀ k, (m.assignAll kvs).find k = (empty.assignAll kvs).find k) ↔
      ∀ k ∈ m.keys, k ∈ kvs.map Prod.fst := by
  constructor
  · intro h k hk
    have hmem : k ∈ (m.assignAll kvs).keys := mem_keys_assignAll.mpr (.inr hk)
    rw [← find_isSome_iff, h k, find_isSome_iff, mem_keys_assignAll] at hmem
    simpa using hmem
  · intro h k
    apply find_assignAll_congr
    by_cases hk : k ∈ m.keys
    · exact .inl (h k hk)
    · exact .inr (by rw [find_eq_none_iff.mpr hk, find_empty])

end AssocMap

end Tinyco
