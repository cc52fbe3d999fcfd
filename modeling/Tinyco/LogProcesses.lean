import Tinyco.LogRotation
import Tinyco.Simulation

/-! `LocalLog` in a master and its workers. They log through handles of their own into files of one
directory, which the master rotates and in which the workers open the current file again. -/

namespace Tinyco

/-- The entries of the directory, and the files by number. Numbers from `fresh` on are unused. -/
structure LogDir where
  names : Bytes → Option Nat
  content : Nat → Bytes
  fresh : Nat

namespace LogDir

def access (d : LogDir) (fp : Bytes) : Bool := (d.names fp).isSome

def remove (d : LogDir) (fp : Bytes) : LogDir := { d with names := Function.update d.names fp none }

def rename (d : LogDir) (fp fpNew : Bytes) : LogDir :=
  if d.names fp = none ∨ fp = fpNew then d
  else { d with names := Function.update (Function.update d.names fpNew (d.names fp)) fp none }

def append (d : LogDir) (n : Nat) (data : Bytes) : LogDir :=
  { d with content := Function.update d.content n (d.content n ++ data) }

/-- `file_.open(fp, out | app)`: the file it opens, which it makes if there is none. -/
def openFile (d : LogDir) (fp : Bytes) : Nat × LogDir :=
  match d.names fp with
  | some n => (n, d)
  | none => (d.fresh, {
      names := Function.update d.names fp (some d.fresh)
      content := Function.update d.content d.fresh []
      fresh := d.fresh + 1 })

/-- `tellg` of a stream that is not open is -1. -/
def filesize (d : LogDir) (fp : Bytes) : UInt32 :=
  match d.names fp with
  | some n => UInt32.ofNat (d.content n).length
  | none => UInt32.ofNat (2 ^ 32 - 1)

end LogDir

namespace LocalLog

def kMaxFilesize : UInt32 := 1024 * 1024

def kMaxFilsNum : UInt32 := 100

end LocalLog

/-- The call of the turn of index `i` for a file that is there. -/
def LogDir.move (filepath : Bytes) (i : Nat) (d : LogDir) : LogDir :=
  if i = (LocalLog.kMaxFilsNum - 1).toNat then d.remove (LocalLog.logFile filepath i)
  else d.rename (LocalLog.logFile filepath i)
    (filepath ++ bytes "_" ++ decimal (i + 1) ++ bytes ".log")

/-- Where a process is in `LocalLog::WriteLog`: with `rest` still in the stream, before the tests of
its parent, before the loop of the rotation, at `access` and behind it in the turn of index `i`, and
before `file_.open`, which in the end of the rotation is the last call. -/
inductive LogPoint where
  | idle
  | write (rest : Bytes)
  | worker
  | master
  | rotate
  | turn (i : Nat)
  | move (i : Nat)
  | reopen (rotated : Bool)
  deriving DecidableEq, Repr

/-- `parent` is what `getppid` returns, `lasts` the static variable once it has a value. -/
structure LogProcess where
  parent : Nat
  file : Option Nat
  lasts : Option UInt32 := none
  point : LogPoint := .idle
  deriving DecidableEq, Repr

/-- `first` and `now` are the two readings of the clock. -/
inductive LogCall where
  | log (line : Bytes)
  | write (n : Nat)
  | worker (first now : UInt32)
  | master
  | rotate
  | turn
  | move
  | reopen (ok : Bool)
  deriving DecidableEq, Repr

namespace LogProcess

/-- `i--` and the test of the loop. -/
def nextTurn : Nat → LogPoint
  | 0 => .reopen true
  | i + 1 => .turn i

/-- A process logs one line after the other. The lines that the signal handler of a server logs while
`WriteLog` executes are left out. -/
def step (filepath : Bytes) (d : LogDir) (x : LogProcess) : LogCall → Option (LogDir × LogProcess)
  | .log line =>
    match x.point, x.file with
    | .idle, some _ => some (d, { x with point := .write (line ++ bytes "\n") })
    -- the line goes to `stderr`
    | .idle, none => some (d, x)
    | _, _ => none
  | .write n =>
    match x.point, x.file with
    | .write rest, some f =>
      if 0 < n ∧ n ≤ rest.length then
        some (d.append f (rest.take n), { x with
          point := if n = rest.length then .worker else .write (rest.drop n) })
      else none
    | _, _ => none
  | .worker first now =>
    match x.point with
    | .worker =>
      if 1 < x.parent then
        let x := { x with lasts := some (x.lasts.getD first) }
        -- `lasts` is not set again
        if x.lasts.getD first + 10 < now then
          some (d, { x with file := none, point := .reopen false })
        else some (d, { x with point := .master })
      else some (d, { x with point := .master })
    | _ => none
  | .master =>
    match x.point with
    | .master =>
      if x.parent = 1 ∧ LocalLog.kMaxFilesize ≤ d.filesize (LocalLog.logFile filepath 0) then
        some (d, { x with point := .rotate })
      else some (d, { x with point := .idle })
    | _ => none
  | .rotate =>
    match x.point with
    | .rotate => some (d, { x with point := .turn (LocalLog.kMaxFilsNum - 1).toNat })
    | _ => none
  | .turn =>
    match x.point with
    | .turn i =>
      some (d, { x with
        point := if d.access (LocalLog.logFile filepath i) then .move i else nextTurn i })
    | _ => none
  | .move =>
    match x.point with
    | .move i => some (d.move filepath i, { x with point := nextTurn i })
    | _ => none
  | .reopen ok =>
    match x.point with
    | .reopen rotated =>
      let x := { x with point := if rotated then .idle else .master }
      if ok then
        let r := d.openFile (LocalLog.logFile filepath 0)
        some (r.2, { x with file := some r.1 })
      else some (d, { x with file := none })
    | _ => none

/-- What the death of the process `p` leaves of another. -/
def orphan (p : Nat) (x : LogProcess) : LogProcess :=
  { x with parent := if x.parent = p then 1 else x.parent }

end LogProcess

structure LogSystem where
  dir : LogDir
  procs : Nat → Option LogProcess

inductive LogLabel where
  | call (p : Nat) (c : LogCall)
  | fork (p : Nat)
  | die (p : Nat)
  deriving DecidableEq, Repr

namespace LogSystem

/-- The process `root` behind `LocalLog::Initialize`. -/
def start (filepath : Bytes) (root parent : Nat) (d : LogDir) : LogSystem :=
  let r := d.openFile (LocalLog.logFile filepath 0)
  { dir := r.2, procs := Function.update (fun _ => none) root (some ⟨parent, some r.1, none, .idle⟩) }

/-- Only `root` forks; its children go to process 1 when it dies. -/
def step (filepath : Bytes) (root : Nat) (s : LogSystem) : LogLabel → Option LogSystem
  | .call p c =>
    match s.procs p with
    | some x => (x.step filepath s.dir c).map fun r =>
        { dir := r.1, procs := Function.update s.procs p (some r.2) }
    | none => none
  | .fork p =>
    match s.procs root, s.procs p with
    | some x, none =>
      if x.point = .idle then
        some { s with procs := Function.update s.procs p (some { x with parent := root }) }
      else none
    | _, _ => none
  | .die p =>
    if (s.procs p).isSome then
      some { s with
        procs := fun q => if q = p then none else (s.procs q).map (LogProcess.orphan p) }
    else none

end LogSystem

/-- What the names of the directory show of the files. -/
def LogDir.view (d : LogDir) : FileSystem := { files := fun fp => (d.names fp).map d.content }

section UndisturbedPass

variable {filepath : Bytes} {root p i : Nat} {s : LogSystem} {x : LogProcess}

theorem LogDir.view_move (d : LogDir) (hacc : d.access (LocalLog.logFile filepath i) = true) :
    (d.move filepath i).view.files =
      (LocalLog.rotateFile filepath LocalLog.kMaxFilsNum i d.view).files := by
  have hview : d.view.access (LocalLog.logFile filepath i) = true := by
    simpa [FileSystem.access, view, access] using hacc
  have hsome : d.names (LocalLog.logFile filepath i) ≠ none := by
    simpa [access, Option.isSome_iff_ne_none] using hacc
  simp only [move, LocalLog.rotateFile, hview, if_true]
  split_ifs with hlast
  · funext fp
    simp only [remove, FileSystem.remove, view, Function.update_apply]
    split_ifs <;> rfl
  · simp only [rename, FileSystem.rename, hsome, false_or]
    split_ifs
    · rfl
    · funext fp
      simp only [view, Function.update_apply]
      split_ifs <;> rfl

theorem LogSystem.step_call (root : Nat) {c : LogCall} {d : LogDir} {y : LogProcess} (hp : s.procs p = some x)
    (hc : x.step filepath s.dir c = some (d, y)) :
    s.step filepath root (.call p c) =
      some { dir := d, procs := Function.update s.procs p (some y) } := by
  simp only [step, hp, hc, Option.map_some]

theorem LocalLog.rotateFrom_congr {fs fs' : FileSystem} (h : fs.files = fs'.files) (n : UInt32) :
    (rotateFrom filepath n i fs).files = (rotateFrom filepath n i fs').files := by
  induction i generalizing fs fs' with
  | zero => exact h
  | succ i ih =>
    refine ih ?_
    obtain ⟨files, removed, overwritten⟩ := fs
    obtain rfl : files = fs'.files := h
    by_cases hacc : (fs'.files (logFile filepath i)).isSome = true
    · simp only [rotateFile, FileSystem.access, hacc, if_true, FileSystem.remove, FileSystem.rename]
      split_ifs <;> rfl
    · simp only [rotateFile, FileSystem.access, hacc, Bool.false_eq_true, if_false]

theorem turn_undisturbed (filepath : Bytes) (root : Nat) (hp : s.procs p = some x)
    (hx : x.point = .turn i) :
    ∃ t, Leads (LogSystem.step filepath root) (fun a => a = .call p .turn ∨ a = .call p .move) s t ∧
      t.procs p = some { x with point := LogProcess.nextTurn i } ∧
      t.dir.view.files = (LocalLog.rotateFile filepath LocalLog.kMaxFilsNum i s.dir.view).files := by
  have hturn : x.step filepath s.dir .turn = some (s.dir, { x with
      point := if s.dir.access (LocalLog.logFile filepath i) then .move i
        else LogProcess.nextTurn i }) := by
    simp only [LogProcess.step, hx]
  by_cases hacc : s.dir.access (LocalLog.logFile filepath i) = true
  · rw [if_pos hacc] at hturn
    refine ⟨_, .cons (.inl rfl) (LogSystem.step_call root hp hturn) (.single (.inr rfl)
      (LogSystem.step_call root (Function.update_self ..) rfl)), Function.update_self .., ?_⟩
    exact s.dir.view_move hacc
  · rw [if_neg hacc] at hturn
    refine ⟨_, .single (.inl rfl) (LogSystem.step_call root hp hturn), Function.update_self .., ?_⟩
    have hview : ¬ s.dir.view.access (LocalLog.logFile filepath i) = true := by
      simpa [FileSystem.access, LogDir.view, LogDir.access] using hacc
    simp only [LocalLog.rotateFile, hview, Bool.false_eq_true, if_false]

/-- A pass that nothing comes in between is the loop on what the names show. -/
theorem pass_undisturbed (hp : s.procs p = some x) (hx : x.point = .turn i) :
    ∃ t, Leads (LogSystem.step filepath root) (fun a => a = .call p .turn ∨ a = .call p .move) s t ∧
      t.procs p = some { x with point := .reopen true } ∧
      t.dir.view.files =
        (LocalLog.rotateFrom filepath LocalLog.kMaxFilsNum (i + 1) s.dir.view).files := by
  induction i generalizing s x with
  | zero => exact turn_undisturbed filepath root hp hx
  | succ i ih =>
    obtain ⟨t, ht, hpt, hview⟩ := turn_undisturbed filepath root hp hx
    obtain ⟨u, hu, hpu, hviewu⟩ := ih hpt rfl
    exact ⟨u, ht.trans hu, hpu, hviewu.trans (LocalLog.rotateFrom_congr hview _)⟩

end UndisturbedPass

end Tinyco
