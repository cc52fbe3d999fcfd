import Tinyco.LogProcesses

/-! The directory of the log files under the steps that the processes take in it, one at a time: a
file that has a name keeps one, but for the last file of a pass. -/

namespace Tinyco

namespace LogDir

variable {filepath fp : Bytes} {d d' d'' : LogDir} {n : Nat}

/-- The entries are of files that exist. -/
def Known (d : LogDir) : Prop := ∀ fp n, d.names fp = some n → n < d.fresh

/-- Nothing that was written is overwritten. -/
structure Grows (d d' : LogDir) : Prop where
  fresh : d.fresh ≤ d'.fresh
  content : ∀ n < d.fresh, d.content n <+: d'.content n

theorem Grows.refl (d : LogDir) : d.Grows d := ⟨le_rfl, fun _ _ => List.prefix_refl _⟩

theorem Grows.trans (h : d.Grows d') (h' : d'.Grows d'') : d.Grows d'' :=
  ⟨h.fresh.trans h'.fresh, fun n hn =>
    (h.content n hn).trans (h'.content n (Nat.lt_of_lt_of_le hn h.fresh))⟩

theorem grows_append (d : LogDir) (f : Nat) (data : Bytes) : d.Grows (d.append f data) := by
  refine ⟨le_rfl, fun n _ => ?_⟩
  simp only [append, Function.update_apply]
  split_ifs with hn
  · exact hn ▸ List.prefix_append _ _
  · exact List.prefix_refl _

theorem move_files (filepath : Bytes) (d : LogDir) (i : Nat) :
    (d.move filepath i).content = d.content ∧ (d.move filepath i).fresh = d.fresh := by
  rw [move]
  split_ifs
  · exact ⟨rfl, rfl⟩
  · rw [rename]
    split_ifs <;> exact ⟨rfl, rfl⟩

theorem grows_move (d : LogDir) (i : Nat) : d.Grows (d.move filepath i) := by
  obtain ⟨hcontent, hfresh⟩ := d.move_files filepath i
  exact ⟨hfresh.ge, fun n _ => by rw [hcontent]⟩

theorem openFile_of_none (h : d.names fp = none) : d.openFile fp = (d.fresh, {
    names := Function.update d.names fp (some d.fresh)
    content := Function.update d.content d.fresh []
    fresh := d.fresh + 1 }) := by
  simp only [openFile, h]

theorem openFile_of_some (h : d.names fp = some n) : d.openFile fp = (n, d) := by
  simp only [openFile, h]

theorem grows_openFile (d : LogDir) (fp : Bytes) : d.Grows (d.openFile fp).2 := by
  cases h : d.names fp with
  | some n => exact openFile_of_some h ▸ .refl d
  | none =>
    rw [openFile_of_none h]
    refine ⟨Nat.le_succ _, fun n hn => ?_⟩
    change d.content n <+: Function.update d.content d.fresh [] n
    rw [Function.update_of_ne (Nat.ne_of_lt hn)]

theorem Known.move (h : d.Known) (i : Nat) : (d.move filepath i).Known := by
  intro fp n hn
  rw [(d.move_files filepath i).2]
  simp only [LogDir.move, remove, rename] at hn
  split_ifs at hn
  · simp only [Function.update_apply, Option.ite_none_left_eq_some] at hn
    exact h fp n hn.2
  · exact h fp n hn
  · simp only [Function.update_apply, Option.ite_none_left_eq_some] at hn
    obtain ⟨-, hn⟩ := hn
    split_ifs at hn
    · exact h _ n hn
    · exact h fp n hn

theorem Known.openFile (h : d.Known) (fp : Bytes) : (d.openFile fp).2.Known := by
  cases hfp : d.names fp with
  | some n => exact openFile_of_some hfp ▸ h
  | none =>
    rw [openFile_of_none hfp]
    intro fp' n hn
    simp only [Function.update_apply] at hn
    split_ifs at hn
    · exact Option.some.inj hn ▸ Nat.lt_succ_self _
    · exact Nat.lt_succ_of_lt (h fp' n hn)

end LogDir

/-- What a step does to the entries while `l` turns of a pass are left, and whether it begins one. -/
inductive LogDir.Effect (filepath : Bytes) (d : LogDir) (l : Nat) : Bool → LogDir → Nat → Prop where
  | same {d' : LogDir} (hnames : d'.names = d.names) : Effect filepath d l false d' l
  | opened : Effect filepath d l false (d.openFile (LocalLog.logFile filepath 0)).2 l
  | rotate (hl : l = 0) : Effect filepath d l true d 100
  | skip {i : Nat} (hl : l = i + 1) (hnone : d.names (LocalLog.logFile filepath i) = none) :
    Effect filepath d l false d i
  | move {i : Nat} (hl : l = i + 1) : Effect filepath d l false (d.move filepath i) i

namespace LogDir

variable {filepath : Bytes} {d d' : LogDir} {l l' i k n : Nat} {b : Bool}

theorem move_last (filepath : Bytes) (d : LogDir) :
    (d.move filepath 99).names = Function.update d.names (LocalLog.logFile filepath 99) none := by
  rw [move, if_pos (by decide), remove]

theorem move_names (hi : i < 99) (hfree : d.names (LocalLog.logFile filepath (i + 1)) = none) :
    (d.move filepath i).names = Function.update (Function.update d.names
      (LocalLog.logFile filepath (i + 1)) (d.names (LocalLog.logFile filepath i)))
      (LocalLog.logFile filepath i) none := by
  have hlast : i ≠ (LocalLog.kMaxFilsNum - 1).toNat := Nat.ne_of_lt hi
  have hne : LocalLog.logFile filepath i ≠ LocalLog.logFile filepath (i + 1) :=
    LocalLog.logFile_ne (Nat.ne_of_lt (Nat.lt_succ_self i))
  rw [move, if_neg hlast, ← LocalLog.logFile_succ, rename]
  split_ifs with h
  · have hnone := h.resolve_right hne
    have hself (fp : Bytes) (hfp : d.names fp = none) : Function.update d.names fp none = d.names :=
      Function.update_eq_self_iff.mpr hfp.symm
    rw [hnone, hself _ hfree, hself _ hnone]
  · rfl

/-- The index `k` has when the `l` turns that are left are over. -/
def dueIndex (l k : Nat) : Nat := if k < l then k + 1 else k

/-- While turns are left, the file of the next one has a free place to go to. -/
def Vacant (filepath : Bytes) (d : LogDir) (l : Nat) : Prop :=
  0 < l → l < 100 → d.names (LocalLog.logFile filepath l) = none

theorem names_openFile (hk : d.names (LocalLog.logFile filepath k) = some n ∨ 0 < k) :
    (d.openFile (LocalLog.logFile filepath 0)).2.names (LocalLog.logFile filepath k) =
      d.names (LocalLog.logFile filepath k) := by
  cases h : d.names (LocalLog.logFile filepath 0) with
  | some m => rw [openFile_of_some h]
  | none =>
    rw [openFile_of_none h]
    refine Function.update_of_ne (LocalLog.logFile_ne ?_) _ _
    rintro rfl
    rcases hk with hk | hk
    · exact absurd (h.symm.trans hk) (by simp)
    · exact Nat.lt_irrefl 0 hk

theorem Effect.vacant (h : Effect filepath d l b d' l') (hl : l ≤ 100) (hv : d.Vacant filepath l) :
    l' ≤ 100 ∧ d'.Vacant filepath l' := by
  cases h with
  | same hnames => exact ⟨hl, fun h0 h1 => by rw [hnames, hv h0 h1]⟩
  | opened => exact ⟨hl, fun h0 h1 => by rw [names_openFile (n := 0) (.inr h0), hv h0 h1]⟩
  | rotate => exact ⟨le_rfl, fun _ h1 => absurd h1 (Nat.lt_irrefl _)⟩
  | skip hl' hnone => exact ⟨by omega, fun _ _ => hnone⟩
  | move hl' =>
    refine ⟨by omega, fun _ _ => ?_⟩
    rcases Nat.lt_or_ge l' 99 with hi | hi
    · rw [move_names hi (hl' ▸ hv (by omega) (by omega)), Function.update_self]
    · obtain rfl : l' = 99 := by omega
      rw [move_last, Function.update_self]

/-- A file that is not the last one of a pass keeps a name, and its index goes on with each pass. -/
theorem Effect.keeps (h : Effect filepath d l b d' l') (hl : l ≤ 100) (hv : d.Vacant filepath l)
    (hk : k < 100) (hn : d.names (LocalLog.logFile filepath k) = some n)
    (hdue : dueIndex l k + b.toNat < 100) :
    ∃ k' < 100, d'.names (LocalLog.logFile filepath k') = some n ∧
      dueIndex l' k' = dueIndex l k + b.toNat := by
  cases h with
  | same hnames => exact ⟨k, hk, by rw [hnames, hn], rfl⟩
  | opened => exact ⟨k, hk, by rw [names_openFile (.inl hn), hn], rfl⟩
  | rotate hl0 =>
    subst hl0
    exact ⟨k, hk, hn, by simp [dueIndex, hk]⟩
  | skip hl' hnone =>
    have hne : k ≠ l' := by
      rintro rfl
      simp [hnone] at hn
    refine ⟨k, hk, hn, ?_⟩
    simp only [dueIndex, hl', Bool.toNat_false, Nat.add_zero]
    split_ifs <;> omega
  | move hl' =>
    rcases Nat.lt_or_ge l' 99 with hi | hi
    · have hfree : d.names (LocalLog.logFile filepath (l' + 1)) = none :=
        hl' ▸ hv (by omega) (by omega)
      have hne : k ≠ l' + 1 := by
        rintro rfl
        simp [hfree] at hn
      rw [move_names hi hfree]
      by_cases hkl : k = l'
      · subst hkl
        refine ⟨k + 1, by omega, ?_, by simp [dueIndex, hl']⟩
        rw [Function.update_of_ne (LocalLog.logFile_ne (Nat.succ_ne_self k)), Function.update_self, hn]
      · refine ⟨k, hk, ?_, ?_⟩
        · rw [Function.update_of_ne (LocalLog.logFile_ne hkl),
            Function.update_of_ne (LocalLog.logFile_ne hne), hn]
        · simp only [dueIndex, hl', Bool.toNat_false, Nat.add_zero]
          split_ifs <;> omega
    · obtain rfl : l' = 99 := by omega
      have hkl : k ≠ 99 := by
        rintro rfl
        simp [dueIndex, hl'] at hdue
      refine ⟨k, hk, by rw [move_last, Function.update_of_ne (LocalLog.logFile_ne hkl), hn], ?_⟩
      simp only [dueIndex, hl', Bool.toNat_false, Nat.add_zero]
      split_ifs <;> omega

end LogDir

/-- The turns of the loop that have not moved their file. -/
def LogPoint.turnsLeft : LogPoint → Nat
  | .turn i | .move i => i + 1
  | _ => 0

def LogPoint.rotating : LogPoint → Bool
  | .rotate | .turn _ | .move _ | .reopen true => true
  | _ => false

namespace LogProcess

variable {filepath : Bytes} {d d' : LogDir} {x y : LogProcess} {c : LogCall}

@[simp] theorem turnsLeft_nextTurn (i : Nat) : (nextTurn i).turnsLeft = i := by
  cases i <;> rfl

/-- What a call can do to the directory, and which step of a rotation it is. -/
inductive Does (filepath : Bytes) (d : LogDir) (x : LogProcess) :
    LogCall → LogDir → LogProcess → Prop where
  | stay {c : LogCall} {y : LogProcess} (hc : c ≠ .rotate)
    (hleft : y.point.turnsLeft = x.point.turnsLeft)
    (hrot : y.point.rotating = true → x.point.rotating = true ∨ x.parent = 1) : Does filepath d x c d y
  | append {n f : Nat} {data : Bytes} {y : LogProcess} (hleft : y.point.turnsLeft = 0)
    (hleft' : x.point.turnsLeft = 0) (hrot : y.point.rotating = false) :
    Does filepath d x (.write n) (d.append f data) y
  | rotate (hx : x.point = .rotate) : Does filepath d x .rotate d { x with point := .turn 99 }
  | skip {i : Nat} (hx : x.point = .turn i) (hnone : d.names (LocalLog.logFile filepath i) = none) :
    Does filepath d x .turn d { x with point := nextTurn i }
  | move {i : Nat} (hx : x.point = .move i) :
    Does filepath d x .move (d.move filepath i) { x with point := nextTurn i }
  | opened {rotated : Bool} {y : LogProcess} (hx : x.point = .reopen rotated)
    (hleft : y.point.turnsLeft = 0) (hrot : y.point.rotating = false) :
    Does filepath d x (.reopen true) (d.openFile (LocalLog.logFile filepath 0)).2 y

theorem does_of_step (h : x.step filepath d c = some (d', y)) :
    Does filepath d x c d' y ∧ y.parent = x.parent := by
  cases c with
  | log line =>
    simp only [step] at h
    split at h
    · next f hp hf =>
      cases h
      exact ⟨.stay (by simp) (by rw [hp]; rfl) (by simp [LogPoint.rotating]), rfl⟩
    · next hp hf =>
      cases h
      exact ⟨.stay (by simp) rfl .inl, rfl⟩
    · cases h
  | write n =>
    simp only [step] at h
    split at h
    · next rest f hp hf =>
      simp only [Option.ite_none_right_eq_some] at h
      obtain ⟨-, h⟩ := h
      cases h
      refine ⟨.append ?_ (by rw [hp]; rfl) ?_, rfl⟩
      all_goals
        dsimp only
        split_ifs <;> rfl
    · cases h
  | worker first now =>
    simp only [step] at h
    split at h
    · next hp =>
      have hleft : x.point.turnsLeft = 0 := by rw [hp]; rfl
      split_ifs at h <;> cases h <;> exact ⟨.stay (by simp) hleft.symm (by simp [LogPoint.rotating]), rfl⟩
    · cases h
  | master =>
    simp only [step] at h
    split at h
    · next hp =>
      have hleft : x.point.turnsLeft = 0 := by rw [hp]; rfl
      split_ifs at h with hbig
      · cases h
        exact ⟨.stay (by simp) hleft.symm fun _ => .inr hbig.1, rfl⟩
      · cases h
        exact ⟨.stay (by simp) hleft.symm (by simp [LogPoint.rotating]), rfl⟩
    · cases h
  | rotate =>
    simp only [step] at h
    split at h
    · next hp =>
      cases h
      exact ⟨.rotate hp, rfl⟩
    · cases h
  | turn =>
    simp only [step] at h
    split at h
    · next i hp =>
      by_cases hacc : d.access (LocalLog.logFile filepath i) = true
      · rw [if_pos hacc] at h
        cases h
        exact ⟨.stay (by simp) (by rw [hp]; rfl) fun _ => .inl (by rw [hp]; rfl), rfl⟩
      · rw [if_neg hacc] at h
        cases h
        exact ⟨.skip hp (by simpa [LogDir.access] using hacc), rfl⟩
    · cases h
  | move =>
    simp only [step] at h
    split at h
    · next i hp =>
      cases h
      exact ⟨.move hp, rfl⟩
    · cases h
  | reopen ok =>
    simp only [step] at h
    split at h
    · next rotated hp =>
      have hleft : (if rotated = true then LogPoint.idle else LogPoint.master).turnsLeft = 0 := by
        cases rotated <;> rfl
      have hrot : (if rotated = true then LogPoint.idle else LogPoint.master).rotating = false := by
        cases rotated <;> rfl
      cases ok with
      | true =>
        cases h
        exact ⟨.opened hp hleft hrot, rfl⟩
      | false =>
        cases h
        refine ⟨.stay (by simp) (hleft.trans (by rw [hp]; rfl)) fun h => ?_, rfl⟩
        exact absurd (hrot.symm.trans h) (by decide)
    · cases h

theorem Does.not_rotating (h : Does filepath d x c d' y) (hx : x.point.rotating = false)
    (hparent : x.parent ≠ 1) : y.point.rotating = false := by
  cases h with
  | stay _ _ hrot =>
    refine Bool.eq_false_iff.mpr fun hy => ?_
    exact (hrot hy).elim (by simp [hx]) hparent
  | append _ _ hrot => exact hrot
  | opened _ _ hrot => exact hrot
  | rotate hx' | skip hx' | move hx' => simp [hx', LogPoint.rotating] at hx

theorem Does.dir (h : Does filepath d x c d' y) (hd : d.Known) : d.Grows d' ∧ d'.Known := by
  cases h with
  | stay | rotate | skip => exact ⟨.refl d, hd⟩
  | append => exact ⟨d.grows_append _ _, hd⟩
  | move => exact ⟨d.grows_move _, hd.move _⟩
  | opened => exact ⟨d.grows_openFile _, hd.openFile _⟩

end LogProcess

end Tinyco
