import Tinyco.ResponseFraming

/-! The rotation loop of `LocalLog::WriteLog` over a directory of named files. -/

namespace Tinyco

/-- The files by name, and what the calls so far have destroyed: by `remove`, and by a
`rename` onto a file that was there. -/
structure FileSystem where
  files : Bytes → Option Bytes
  removed : List (Bytes × Bytes) := []
  overwritten : List (Bytes × Bytes) := []

namespace FileSystem

/-- `access(fp, F_OK) != -1`. -/
def access (fs : FileSystem) (fp : Bytes) : Bool := (fs.files fp).isSome

def remove (fs : FileSystem) (fp : Bytes) : FileSystem :=
  { fs with
    files := Function.update fs.files fp none
    removed := fs.removed ++ (fs.files fp).toList.map (fp, ·) }

def rename (fs : FileSystem) (fp fpNew : Bytes) : FileSystem :=
  if fp = fpNew then fs
  else
    { fs with
      files := Function.update (Function.update fs.files fpNew (fs.files fp)) fp none
      overwritten := fs.overwritten ++ (fs.files fpNew).toList.map (fpNew, ·) }

end FileSystem

namespace LocalLog

def logFile (filepath : Bytes) (i : Nat) : Bytes :=
  if 0 < i then filepath ++ bytes "_" ++ decimal i ++ bytes ".log" else filepath ++ bytes ".log"

def rotateFile (filepath : Bytes) (kMaxFilsNum : UInt32) (i : Nat) (fs : FileSystem) : FileSystem :=
  let fp := logFile filepath i
  if fs.access fp then
    if i = (kMaxFilsNum - 1).toNat then fs.remove fp
    else fs.rename fp (filepath ++ bytes "_" ++ decimal (i + 1) ++ bytes ".log")
  else fs

/-- The turns of the loop that are left when `i` is one less than the count. -/
def rotateFrom (filepath : Bytes) (kMaxFilsNum : UInt32) : Nat → FileSystem → FileSystem
  | 0, fs => fs
  | i + 1, fs => rotateFrom filepath kMaxFilsNum i (rotateFile filepath kMaxFilsNum i fs)

/-- The loop. Its `int i` starts at `kMaxFilsNum - 1`, and a negative `i` ends it. -/
def rotate (filepath : Bytes) (kMaxFilsNum : UInt32) (fs : FileSystem) : FileSystem :=
  rotateFrom filepath kMaxFilsNum (toInt32 (kMaxFilsNum - 1).toNat + 1).toNat fs

/-- `fs'` is `fs` with each of the `n` files moved to the next index and the last one gone. -/
structure Rotated (filepath : Bytes) (n : Nat) (fs fs' : FileSystem) : Prop where
  moved : ∀ k, k + 1 < n → fs'.files (logFile filepath (k + 1)) = fs.files (logFile filepath k)
  current : fs'.files (logFile filepath 0) = none
  others : ∀ fp, (∀ k < n, fp ≠ logFile filepath k) → fs'.files fp = fs.files fp
  removed : fs'.removed = fs.removed ++
    (fs.files (logFile filepath (n - 1))).toList.map (logFile filepath (n - 1), ·)
  overwritten : fs'.overwritten = fs.overwritten

variable {filepath : Bytes} {kMaxFilsNum : UInt32}

theorem logFile_succ (filepath : Bytes) (i : Nat) :
    logFile filepath (i + 1) = filepath ++ bytes "_" ++ decimal (i + 1) ++ bytes ".log" :=
  if_pos (Nat.succ_pos i)

theorem logFile_injective (filepath : Bytes) : Function.Injective (logFile filepath) := by
  have hzero (j : Nat) : logFile filepath 0 ≠ logFile filepath (j + 1) := by
    intro h
    rw [logFile_succ, logFile, if_neg (Nat.lt_irrefl 0), List.append_left_inj] at h
    have hlen := congrArg List.length h
    simp only [List.length_append] at hlen
    have hdig := List.length_pos_of_ne_nil (decimal_ne_nil (j + 1))
    omega
  intro i j h
  cases i with
  | zero =>
    cases j with
    | zero => rfl
    | succ j => exact absurd h (hzero j)
  | succ i =>
    cases j with
    | zero => exact absurd h.symm (hzero i)
    | succ j =>
      rw [logFile_succ, logFile_succ, List.append_left_inj, List.append_right_inj] at h
      exact decimal_injective h

theorem logFile_ne {i j : Nat} (h : i ≠ j) : logFile filepath i ≠ logFile filepath j :=
  (logFile_injective filepath).ne h

theorem update_absent {fs : FileSystem} {fp : Bytes} (h : fs.files fp = none) :
    Function.update fs.files fp none = fs.files := by
  rw [Function.update_eq_self_iff, h]

/-- One turn that does not reach the last index, when the next file is out of the way. -/
theorem rotateFile_eq_rename (kMaxFilsNum : UInt32) {i : Nat} {fs : FileSystem} (hi : i ≠ (kMaxFilsNum - 1).toNat)
    (habsent : fs.files (logFile filepath (i + 1)) = none) :
    rotateFile filepath kMaxFilsNum i fs = { fs with
      files := Function.update (Function.update fs.files (logFile filepath (i + 1))
        (fs.files (logFile filepath i))) (logFile filepath i) none } := by
  have hne : logFile filepath i ≠ logFile filepath (i + 1) := logFile_ne (Nat.ne_of_lt (Nat.lt_succ_self i))
  by_cases hacc : fs.access (logFile filepath i)
  · simp only [rotateFile, hacc, if_true, if_neg hi, ← logFile_succ, FileSystem.rename, if_neg hne,
      habsent, Option.toList_none, List.map_nil, List.append_nil]
  · have hnone : fs.files (logFile filepath i) = none := by simpa [FileSystem.access] using hacc
    simp only [rotateFile, hacc, Bool.false_eq_true, if_false, hnone, update_absent habsent,
      update_absent hnone]

/-- The turns below an index whose file is out of the way move every file up by one. -/
theorem rotateFrom_spec (kMaxFilsNum : UInt32) (i : Nat) {fs : FileSystem} (hi : i ≤ (kMaxFilsNum - 1).toNat)
    (habsent : fs.files (logFile filepath i) = none) :
    (∀ k < i, (rotateFrom filepath kMaxFilsNum i fs).files (logFile filepath (k + 1)) =
        fs.files (logFile filepath k)) ∧
      (rotateFrom filepath kMaxFilsNum i fs).files (logFile filepath 0) = none ∧
      (∀ fp, (∀ k ≤ i, fp ≠ logFile filepath k) →
        (rotateFrom filepath kMaxFilsNum i fs).files fp = fs.files fp) ∧
      (rotateFrom filepath kMaxFilsNum i fs).removed = fs.removed ∧
      (rotateFrom filepath kMaxFilsNum i fs).overwritten = fs.overwritten := by
  induction i generalizing fs with
  | zero =>
    refine ⟨fun k hk => absurd hk (Nat.not_lt_zero k), habsent, fun _ _ => rfl, rfl, rfl⟩
  | succ i ih =>
    have hturn := rotateFile_eq_rename kMaxFilsNum (i := i) (by omega) habsent
    have hfree : (rotateFile filepath kMaxFilsNum i fs).files (logFile filepath i) = none := by
      rw [hturn]
      exact Function.update_self _ _ _
    obtain ⟨hmoved, hcur, hothers, hrem, hover⟩ := ih (by omega) hfree
    have hkept (fp : Bytes) (h : fp ≠ logFile filepath i) (h' : fp ≠ logFile filepath (i + 1)) :
        (rotateFile filepath kMaxFilsNum i fs).files fp = fs.files fp := by
      rw [hturn]
      exact (Function.update_of_ne h _ _).trans (Function.update_of_ne h' _ _)
    have hnext : (rotateFile filepath kMaxFilsNum i fs).files (logFile filepath (i + 1)) =
        fs.files (logFile filepath i) := by
      rw [hturn]
      exact (Function.update_of_ne (logFile_ne (Nat.succ_ne_self i)) _ _).trans
        (Function.update_self _ _ _)
    refine ⟨fun k hk => ?_, hcur, fun fp hfp => ?_, ?_, ?_⟩
    · rcases Nat.lt_succ_iff_lt_or_eq.mp hk with hk | rfl
      · have hkeep := hkept (logFile filepath k) (logFile_ne (by omega)) (logFile_ne (by omega))
        exact (hmoved k hk).trans hkeep
      · have hstays := hothers (logFile filepath (k + 1)) fun j hj => logFile_ne (by omega)
        exact hstays.trans hnext
    · have hrest := hothers fp fun k hk => hfp k (by omega)
      exact hrest.trans (hkept fp (hfp i (by omega)) (hfp (i + 1) (by omega)))
    · rw [rotateFrom, hrem, hturn]
    · rw [rotateFrom, hover, hturn]

theorem rotateFile_last (filepath : Bytes) (fs : FileSystem) :
    rotateFile filepath kMaxFilsNum (kMaxFilsNum - 1).toNat fs =
      fs.remove (logFile filepath (kMaxFilsNum - 1).toNat) := by
  by_cases hacc : fs.access (logFile filepath (kMaxFilsNum - 1).toNat)
  · simp [rotateFile, hacc]
  · have hnone : fs.files (logFile filepath (kMaxFilsNum - 1).toNat) = none := by
      simpa [FileSystem.access] using hacc
    simp [rotateFile, hacc, FileSystem.remove, hnone, update_absent hnone]

/-- For every number of files an `int` can count, whichever of them exist, the rotation moves
each file to the next index and destroys the last one only. -/
theorem rotate_moves_files (filepath : Bytes) (kMaxFilsNum : UInt32) (fs : FileSystem)
    (hpos : 1 ≤ kMaxFilsNum.toNat) (hint : kMaxFilsNum.toNat ≤ 2 ^ 31) :
    Rotated filepath kMaxFilsNum.toNat fs (rotate filepath kMaxFilsNum fs) := by
  have hlast : (kMaxFilsNum - 1).toNat = kMaxFilsNum.toNat - 1 :=
    UInt32.toNat_sub_of_le kMaxFilsNum 1 (UInt32.le_iff_toNat_le.mpr hpos)
  have hcount : (toInt32 (kMaxFilsNum - 1).toNat + 1).toNat = (kMaxFilsNum - 1).toNat + 1 := by
    rw [toInt32_of_lt (by omega)]
    omega
  have hfirst : rotate filepath kMaxFilsNum fs = rotateFrom filepath kMaxFilsNum
      (kMaxFilsNum - 1).toNat (fs.remove (logFile filepath (kMaxFilsNum - 1).toNat)) := by
    rw [rotate, hcount, rotateFrom, rotateFile_last]
  have hgone : (fs.remove (logFile filepath (kMaxFilsNum - 1).toNat)).files
      (logFile filepath (kMaxFilsNum - 1).toNat) = none := Function.update_self _ _ _
  have hkept (fp : Bytes) (h : fp ≠ logFile filepath (kMaxFilsNum - 1).toNat) :
      (fs.remove (logFile filepath (kMaxFilsNum - 1).toNat)).files fp = fs.files fp :=
    Function.update_of_ne h _ _
  obtain ⟨hmoved, hcur, hothers, hrem, hover⟩ :=
    rotateFrom_spec kMaxFilsNum (kMaxFilsNum - 1).toNat le_rfl hgone
  rw [hfirst]
  refine ⟨fun k hk => ?_, hcur, fun fp hfp => ?_, ?_, hover⟩
  · have hbelow := hkept (logFile filepath k) (logFile_ne (by omega))
    exact (hmoved k (by omega)).trans hbelow
  · have hrest := hothers fp fun k hk => hfp k (by omega)
    exact hrest.trans (hkept fp (hfp _ (by omega)))
  · rw [hrem, FileSystem.remove, hlast]

theorem rotate_hundred_files : ∃ fs : FileSystem, fs.files (logFile (bytes "a") 3) = none ∧
    fs.files (logFile (bytes "a") 7) = some (bytes "x") ∧
    Rotated (bytes "a") (UInt32.toNat 100) fs (rotate (bytes "a") 100 fs) := by
  let fs : FileSystem := { files := fun fp => if fp = logFile (bytes "a") 7 then some (bytes "x") else none }
  have h37 : logFile (bytes "a") 3 ≠ logFile (bytes "a") 7 := logFile_ne (by decide)
  have h3 : fs.files (logFile (bytes "a") 3) = none := by simp [fs, h37]
  have h7 : fs.files (logFile (bytes "a") 7) = some (bytes "x") := by simp [fs]
  exact ⟨fs, h3, h7, rotate_moves_files (bytes "a") 100 fs (by decide) (by decide)⟩

/-- With 2^31 + 1 files the `int` starts below zero and nothing is moved. -/
theorem rotate_not_beyond_int : ∃ fs : FileSystem,
    fs.files (logFile (bytes "a") 0) = some (bytes "x") ∧
    rotate (bytes "a") 2147483649 fs = fs ∧
    ¬ Rotated (bytes "a") (UInt32.toNat 2147483649) fs (rotate (bytes "a") 2147483649 fs) := by
  let fs : FileSystem := { files := fun fp => if fp = logFile (bytes "a") 0 then some (bytes "x") else none }
  have h0 : fs.files (logFile (bytes "a") 0) = some (bytes "x") := by simp [fs]
  have hcount : (toInt32 (2147483649 - 1 : UInt32).toNat + 1).toNat = 0 := by decide
  have hskip : rotate (bytes "a") 2147483649 fs = fs := by
    rw [rotate, hcount, rotateFrom]
  refine ⟨fs, h0, hskip, fun h => ?_⟩
  have hcur := h.current
  rw [hskip, h0] at hcur
  cases hcur

end LocalLog

end Tinyco
