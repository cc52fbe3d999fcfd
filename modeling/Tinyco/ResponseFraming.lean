import Mathlib.Data.List.TakeWhile
import Tinyco.HttpParser

/-! A reader of HTTP messages: the first line, the header fields and the rest, and the
number of bytes a message with a `Content-Length` takes. -/

namespace Tinyco

/-- The lines before the blank one, and the bytes after it; `line` is the part of the
current line that was read. -/
def readHead (line : Bytes) : Bytes → Option (List Bytes × Bytes)
  | [] => none
  | [_] => none
  | c :: d :: s =>
    if c = 13 ∧ d = 10 then
      if line = [] then some ([], s) else (readHead [] s).map fun t => (line :: t.1, t.2)
    else readHead (line ++ [c]) (d :: s)

theorem readHead_line {l : Bytes} (hl : 13 ∉ l) (line s : Bytes) :
    readHead line (l ++ crlf ++ s) =
      if line ++ l = [] then some ([], s)
      else (readHead [] s).map fun t => ((line ++ l) :: t.1, t.2) := by
  induction l generalizing line with
  | nil => simp [crlf, readHead]
  | cons c l ih =>
    simp only [List.mem_cons, not_or] at hl
    have hstep : readHead line (c :: l ++ crlf ++ s) = readHead (line ++ [c]) (l ++ crlf ++ s) := by
      cases l <;> simp [crlf, readHead, Ne.symm hl.1]
    rw [hstep, ih hl.2]
    simp

theorem readHead_lines {ls : List Bytes} (h : ∀ l ∈ ls, l ≠ [] ∧ 13 ∉ l) (s : Bytes) :
    readHead [] ((ls.map (· ++ crlf)).flatten ++ crlf ++ s) = some (ls, s) := by
  induction ls with
  | nil => exact readHead_line (List.not_mem_nil) [] s
  | cons l ls ih =>
    obtain ⟨hne, hcr⟩ := h l List.mem_cons_self
    have hls := ih fun l' hl' => h l' (List.mem_cons_of_mem _ hl')
    rw [List.map_cons, List.flatten_cons, List.append_assoc, List.append_assoc, readHead_line hcr,
      ← List.append_assoc, hls]
    simp [hne]

theorem readHead_append {line s rest : Bytes} {ls : List Bytes}
    (h : readHead line s = some (ls, rest)) (t : Bytes) :
    readHead line (s ++ t) = some (ls, rest ++ t) := by
  induction line, s using readHead.induct generalizing ls rest with
  | case1 line => simp [readHead] at h
  | case2 line c => simp [readHead] at h
  | case3 c d s hcd => simp_all [readHead]
  | case4 line c d s hcd hne ih =>
    simp only [readHead, hcd, and_self, if_true, hne, if_false, Option.map_eq_some_iff] at h
    obtain ⟨⟨ls', rest'⟩, hread, he⟩ := h
    cases he
    simp [readHead, hcd, hne, ih hread]
  | case5 line c d s hcd ih =>
    simp only [readHead, hcd, if_false] at h
    simpa [readHead, hcd] using ih h

theorem length_readHead_le {line s rest : Bytes} {ls : List Bytes}
    (h : readHead line s = some (ls, rest)) : rest.length ≤ s.length := by
  induction line, s using readHead.induct generalizing ls rest with
  | case1 line => simp [readHead] at h
  | case2 line c => simp [readHead] at h
  | case3 c d s hcd =>
    obtain ⟨-, rfl⟩ : [] = ls ∧ s = rest := by simpa [readHead, hcd] using h
    simp only [List.length_cons]
    omega
  | case4 line c d s hcd hne ih =>
    simp only [readHead, hcd, and_self, if_true, hne, if_false, Option.map_eq_some_iff] at h
    obtain ⟨⟨ls', rest'⟩, hread, he⟩ := h
    cases he
    have hle := ih hread
    simp only [List.length_cons]
    omega
  | case5 line c d s hcd ih =>
    simp only [readHead, hcd, if_false] at h
    have hle := ih h
    simp only [List.length_cons] at hle ⊢
    omega

structure RawMessage where
  start : Bytes
  fields : List (Bytes × Bytes)
  body : Bytes
  deriving DecidableEq, Repr

namespace RawMessage

def toBytes (m : RawMessage) : Bytes :=
  m.start ++ crlf ++ (m.fields.map HttpResponse.headerLine).flatten ++ crlf ++ m.body

/-- A field at its first colon, without the blank. -/
def splitField (l : Bytes) : Bytes × Bytes :=
  (l.takeWhile (· ≠ 58), (l.dropWhile (· ≠ 58)).drop 2)

def read (buf : Bytes) : Option RawMessage :=
  match readHead [] buf with
  | some (start :: ls, rest) => some ⟨start, ls.map splitField, rest⟩
  | _ => none

/-- No line of the message ends before its `CRLF`, and no field name before its colon. -/
structure WellFormed (m : RawMessage) : Prop where
  start_ne : m.start ≠ []
  start_cr : 13 ∉ m.start
  name_colon : ∀ e ∈ m.fields, 58 ∉ e.1
  name_cr : ∀ e ∈ m.fields, 13 ∉ e.1
  value_cr : ∀ e ∈ m.fields, 13 ∉ e.2

def fieldLine (e : Bytes × Bytes) : Bytes := e.1 ++ bytes ": " ++ e.2

theorem splitField_fieldLine {e : Bytes × Bytes} (h : 58 ∉ e.1) : splitField (fieldLine e) = e := by
  have hne : ∀ c ∈ e.1, decide (c ≠ 58) = true := by
    intro c hc
    simpa using fun he : c = 58 => h (he ▸ hc)
  have hcolon : bytes ": " ++ e.2 = 58 :: 32 :: e.2 := rfl
  rw [splitField, fieldLine, List.append_assoc, List.takeWhile_append_of_pos hne,
    List.dropWhile_append_of_pos hne, hcolon]
  simp

theorem WellFormed.lines {m : RawMessage} (h : m.WellFormed) :
    ∀ l ∈ m.start :: m.fields.map fieldLine, l ≠ [] ∧ 13 ∉ l := by
  intro l hl
  rcases List.mem_cons.mp hl with rfl | hl
  · exact ⟨h.start_ne, h.start_cr⟩
  · obtain ⟨e, he, rfl⟩ := List.mem_map.mp hl
    have hcolon : bytes ": " = [58, 32] := rfl
    simp [fieldLine, hcolon, h.name_cr e he, h.value_cr e he]

theorem read_toBytes {m : RawMessage} (h : m.WellFormed) : read m.toBytes = some m := by
  have hlines : m.toBytes =
      ((m.start :: m.fields.map fieldLine).map (· ++ crlf)).flatten ++ crlf ++ m.body := by
    have hline : HttpResponse.headerLine = (· ++ crlf) ∘ fieldLine := rfl
    simp [toBytes, hline]
  have hfields : (m.fields.map fieldLine).map splitField = m.fields := by
    rw [List.map_map]
    exact (List.map_congr_left fun e he => splitField_fieldLine (h.name_colon e he)).trans
      (List.map_id' _)
  rw [read, hlines, readHead_lines h.lines]
  simp only [hfields]

theorem read_append {s : Bytes} {m : RawMessage} (h : read s = some m) (t : Bytes) :
    read (s ++ t) = some { m with body := m.body ++ t } := by
  unfold read at h
  split at h
  · next start ls rest hread =>
    cases h
    simp [read, readHead_append hread t]
  · simp at h

theorem length_body_le {s : Bytes} {m : RawMessage} (h : read s = some m) :
    m.body.length ≤ s.length := by
  unfold read at h
  split at h
  · next start ls rest hread =>
    cases h
    exact length_readHead_le hread
  · simp at h

end RawMessage

def readDecimal (s : Bytes) : Option Nat :=
  if s ≠ [] ∧ s.all (fun c => 48 ≤ c && c ≤ 57) then some (stoul s) else none

theorem toNat_of_isDigit {d : Char} (h : d.isDigit = true) : 48 ≤ d.toNat ∧ d.toNat ≤ 57 := by
  simpa [Char.isDigit, UInt32.le_iff_toNat_le] using h

theorem toNat_ofNat_of_isDigit {d : Char} (h : d.isDigit = true) :
    (UInt8.ofNat d.toNat).toNat = d.toNat := by
  have hd := toNat_of_isDigit h
  simp only [UInt8.toNat_ofNat']
  omega

theorem isDigit_of_mem_decimal {n : Nat} {d : Char} (h : d ∈ Nat.toDigits 10 n) :
    d.isDigit = true :=
  Nat.isDigit_of_mem_toDigits (by decide) (by decide) h

theorem mem_decimal {n : Nat} {c : UInt8} (h : c ∈ decimal n) : (48 ≤ c && c ≤ 57) = true := by
  obtain ⟨d, hd, rfl⟩ := List.mem_map.mp h
  have hdigit := isDigit_of_mem_decimal hd
  simpa [UInt8.le_iff_toNat_le, toNat_ofNat_of_isDigit hdigit] using toNat_of_isDigit hdigit

theorem stoul_decimal (n : Nat) : stoul (decimal n) = n := by
  have hall : (decimal n).takeWhile (fun c => 48 ≤ c && c ≤ 57) = decimal n :=
    List.takeWhile_eq_self_iff.mpr fun c hc => mem_decimal hc
  have hfold (ds : List Char) (h : ∀ d ∈ ds, d.isDigit = true) (m : Nat) :
      (ds.map fun c => UInt8.ofNat c.toNat).foldl (fun n c => 10 * n + (c.toNat - 48)) m =
        Nat.ofDigitChars 10 ds m := by
    induction ds generalizing m with
    | nil => rfl
    | cons d ds ih =>
      rw [List.map_cons, List.foldl_cons, ih fun d' hd' => h d' (List.mem_cons_of_mem _ hd'),
        toNat_ofNat_of_isDigit (h d List.mem_cons_self)]
      rfl
  rw [stoul, hall, decimal, hfold _ fun d hd => isDigit_of_mem_decimal hd]
  exact Nat.ofDigitChars_toDigits (by decide) (by decide)

theorem decimal_injective : Function.Injective decimal :=
  Function.LeftInverse.injective stoul_decimal

theorem readDecimal_decimal (n : Nat) : readDecimal (decimal n) = some n := by
  have hall : (decimal n).all (fun c => 48 ≤ c && c ≤ 57) = true :=
    List.all_eq_true.mpr fun c hc => mem_decimal hc
  rw [readDecimal, if_pos ⟨decimal_ne_nil n, hall⟩, stoul_decimal]

namespace RawMessage

def contentLength (m : RawMessage) : Option Nat :=
  (m.fields.lookup (bytes "Content-Length")).bind readDecimal

end RawMessage

/-- The length of the message `buf` begins with, if its head has no more than `maxHead`
bytes and the body is all there. -/
def frame (maxHead : Nat) (buf : Bytes) : Option Nat :=
  (RawMessage.read buf).bind fun m => m.contentLength.bind fun n =>
    if buf.length - m.body.length ≤ maxHead ∧ n ≤ m.body.length then
      some (buf.length - m.body.length + n)
    else none

theorem frame_eq_some_iff {maxHead : Nat} {buf : Bytes} {k : Nat} :
    frame maxHead buf = some k ↔ ∃ m n, RawMessage.read buf = some m ∧ m.contentLength = some n ∧
      buf.length - m.body.length ≤ maxHead ∧ n ≤ m.body.length ∧
      buf.length - m.body.length + n = k := by
  simp only [frame, Option.bind_eq_some_iff, Option.ite_none_right_eq_some, Option.some.injEq]
  constructor
  · rintro ⟨m, hm, n, hn, ⟨hhead, hbody⟩, hk⟩
    exact ⟨m, n, hm, hn, hhead, hbody, hk⟩
  · rintro ⟨m, n, hm, hn, hhead, hbody, hk⟩
    exact ⟨m, hm, n, hn, ⟨hhead, hbody⟩, hk⟩

theorem frame_le_length {maxHead : Nat} {buf : Bytes} {k : Nat} (h : frame maxHead buf = some k) :
    k ≤ buf.length := by
  obtain ⟨m, n, hm, -, -, hn, rfl⟩ := frame_eq_some_iff.mp h
  have hle := RawMessage.length_body_le hm
  omega

theorem frame_append {maxHead : Nat} {buf : Bytes} {k : Nat} (h : frame maxHead buf = some k)
    (t : Bytes) : frame maxHead (buf ++ t) = some k := by
  obtain ⟨m, n, hm, hc, hhead, hn, hk⟩ := frame_eq_some_iff.mp h
  refine frame_eq_some_iff.mpr ⟨_, n, RawMessage.read_append hm t, hc, ?_⟩
  simp only [List.length_append]
  omega

theorem frame_eq_none_of_isPrefix {maxHead : Nat} {p b : Bytes} (h : frame maxHead b = some b.length)
    (hp : p <+: b) (hne : p ≠ b) : frame maxHead p = none := by
  rw [Option.eq_none_iff_forall_ne_some]
  intro k hk
  obtain ⟨t, rfl⟩ := hp
  have hlen : k = (p ++ t).length := Option.some.inj ((frame_append hk t).symm.trans h)
  have hle := frame_le_length hk
  have ht : t = [] := List.length_eq_zero_iff.mp (by simp only [List.length_append] at hlen; omega)
  exact hne (by simp [ht])

end Tinyco
