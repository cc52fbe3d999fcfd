import Tinyco.Bytes

/-! The client connection `TcpConn`: connecting, sending a request and receiving the answer.
The results of system calls and of `Frame::connect`, `Frame::send` and `Frame::recv` are
arguments; an error comes with the text of `strerror(errno)`. -/

namespace Tinyco

structure TcpConn where
  ip : Nat := 0
  port : Nat := 0
  fd : Int := -1
  strlog : String := ""
  deriving DecidableEq, Repr

structure FcntlReply where
  getOk : Bool
  setOk : Bool

/-- What a call of `Init` gets: a descriptor from `socket`, the results of `fcntl` and that of
`Frame::connect`. -/
structure InitReply where
  socket : Int
  fcntl : FcntlReply
  connect : Int
  error : String

structure SendReply where
  ret : Int
  error : String

inductive RecvReply where
  | data (recvbuf : Bytes)
  | closed (error : String)
  | error (error : String)

/-- Bytes that were handed to `Frame::send` and reported as sent. -/
structure Fragment where
  addr : Nat
  count : Nat
  deriving DecidableEq, Repr

def kInvalidFd : Int := -1

def checkIncomplete : Int := -2

def addresses (fs : List Fragment) : List Nat := fs.flatMap fun f => List.range' f.addr f.count

namespace TcpConn

def log (c : TcpConn) (text : String) : TcpConn := { c with strlog := c.strlog ++ text }

def close (c : TcpConn) : TcpConn := { c with fd := kInvalidFd, strlog := "" }

def setBlocking (c : TcpConn) (r : FcntlReply) : Int × TcpConn :=
  if !r.getOk then (-1, c.log "|fcntl GET error")
  else if !r.setOk then (-1, c.log "|fcntl SET error")
  else (0, c)

def init (c : TcpConn) (ip port : Nat) (r : InitReply) : Int × TcpConn :=
  if 0 = ip ∨ 0 = port then (-1, c)
  else
    let c := { c with ip := ip, port := port, fd := r.socket }
    if -1 = c.fd then (-1, c.log ("|socket error: " ++ r.error))
    else
      let b := c.setBlocking r.fcntl
      if b.1 < 0 then (-1, b.2.close.log "|SetBlocking error")
      else if r.connect < 0 then (-1, b.2.close.log ("|tinyco::connect error: " ++ r.error))
      else (0, b.2)

def tryReConnect (c : TcpConn) (r : InitReply) : Int × TcpConn := c.init c.ip c.port r

/-- The connection is made again if it is closed. An error ends the caller with -1. -/
def ensureConnected (c : TcpConn) (r : InitReply) : Except TcpConn TcpConn :=
  if kInvalidFd = c.fd then
    let t := (c.log "|try to reconnect server").tryReConnect r
    if t.1 < 0 then .error (t.2.log "|reconnect server error") else .ok t.2
  else .ok c

/-- `while (left > 0)`. There is no result while `Frame::send` has not returned. -/
def transmit (buf size : Nat) (c : TcpConn) :
    Int → List SendReply → Option (Except TcpConn TcpConn × List Fragment)
  | left, [] => if left > 0 then none else some (.ok c, [])
  | left, r :: rs =>
    if left > 0 then
      if r.ret < 0 then some (.error (c.log ("|tinyco::send error: " ++ r.error)), [])
      else if r.ret = 0 then
        some (.error (c.log ("|tinyco::send error: server close the connection: " ++ r.error)), [])
      else if r.ret > left then
        some (.error (c.log ("|tinyco::send werid error: " ++ r.error)), [])
      else
        (transmit buf size c (left - r.ret) rs).map fun t =>
          (t.1, ⟨((buf + size : Nat) - left).toNat, r.ret.toNat⟩ :: t.2)
    else some (.ok c, [])

def send (c : TcpConn) (buf size : Nat) (r : InitReply) (rs : List SendReply) :
    Option (Int × TcpConn × List Fragment) :=
  match c.ensureConnected r with
  | .error c => some (-1, c, [])
  | .ok c =>
    if 0 = buf ∨ 0 = size then some (-1, c, [])
    else
      (c.transmit buf size (toInt32 size) rs).map fun t =>
        match t.1 with
        | .error c => (-1, c, t.2)
        | .ok c => (0, c, t.2)

/-- `SendAndReceive` up to its receive loop, which it enters if there is no error. -/
def sendRequest (c : TcpConn) (buf size output : Nat) (r : InitReply) (rs : List SendReply) :
    Option (Except TcpConn TcpConn × List Fragment) :=
  if 0 = output ∨ 0 = buf ∨ 0 = size then some (.error c, [])
  else
    match c.ensureConnected r with
    | .error c => some (.error c, [])
    | .ok c => c.transmit buf size (toInt32 size) rs

/-- The end of `SendAndReceive`: its result and what is assigned to `*output`. A number that is
larger than the buffer makes `assign` read behind it. -/
inductive RecvEnd where
  | returned (ret : Int) (c : TcpConn) (output : Option Bytes)
  | overread

def assign (c : TcpConn) (realBuf : Bytes) (eof : Int) : RecvEnd :=
  if eof < 0 then .returned (-1) (c.log "|func eof error.") none
  else if eof.toNat ≤ realBuf.length then .returned 0 c (some (realBuf.take eof.toNat))
  else .overread

/-- The receive loop; `realBuf` holds the `recvd` bytes received before. -/
def receive (func : Bytes → Int) (c : TcpConn) (realBuf : Bytes) : List RecvReply → Option RecvEnd
  | [] => none
  | .error e :: _ => some (.returned (-1) (c.log ("|tinyco::recv error: " ++ e)) none)
  | .closed e :: _ =>
    some (.returned (-1) (c.log ("|tinyco::recv error: server close the connection: " ++ e ++
      "|recvd=" ++ toString (toInt32 realBuf.length))) none)
  | .data d :: rs =>
    let eof := func (realBuf ++ d)
    if eof > 0 then some (c.assign (realBuf ++ d) eof)
    else if eof < 0 ∧ eof ≠ checkIncomplete then
      some ((c.log ("|recv error data: ret_code=" ++ toString eof)).assign (realBuf ++ d) eof)
    else receive func c (realBuf ++ d) rs

def sendAndReceive (func : Bytes → Int) (c : TcpConn) (buf size output : Nat) (r : InitReply)
    (rs : List SendReply) (ds : List RecvReply) : Option RecvEnd :=
  (c.sendRequest buf size output r rs).bind fun t =>
    match t.1 with
    | .error c => some (.returned (-1) c none)
    | .ok c => c.receive func [] ds

section Receive

variable {func : Bytes → Int} {c c' : TcpConn} {b d out : Bytes} {rs : List RecvReply}

theorem receive_of_pos (h : 0 < func (b ++ d)) :
    c.receive func b (.data d :: rs) = some (c.assign (b ++ d) (func (b ++ d))) := by
  simp [receive, h]

theorem assign_whole (c : TcpConn) (b : Bytes) :
    c.assign b b.length = .returned 0 c (some b) := by
  have hneg : ¬ (b.length : Int) < 0 := by omega
  simp [assign, hneg]

theorem receive_of_wait (h : func (b ++ d) = 0 ∨ func (b ++ d) = checkIncomplete) :
    c.receive func b (.data d :: rs) = c.receive func (b ++ d) rs := by
  rcases h with h | h <;> simp [receive, h, checkIncomplete]

theorem receive_of_neg (c : TcpConn) (rs : List RecvReply) (h : func (b ++ d) < 0)
    (hne : func (b ++ d) ≠ checkIncomplete) :
    ∃ c'', c.receive func b (.data d :: rs) = some (.returned (-1) c'' none) := by
  have hpos : ¬ func (b ++ d) > 0 := by omega
  simp [receive, hpos, h, hne, assign]

theorem output_length_lt (hf : ∀ b, func b < 2 ^ 31)
    (h : c.receive func b rs = some (.returned 0 c' (some out))) : out.length < 2 ^ 31 := by
  induction rs generalizing b with
  | nil => simp [receive] at h
  | cons r rs ih =>
    cases r with
    | closed e => simp [receive] at h
    | error e => simp [receive] at h
    | data d =>
      by_cases hwait : func (b ++ d) = 0 ∨ func (b ++ d) = checkIncomplete
      · exact ih (receive_of_wait hwait ▸ h)
      · by_cases hpos : 0 < func (b ++ d)
        · rw [receive_of_pos hpos, assign, if_neg (by omega)] at h
          split_ifs at h
          · have hlt := hf (b ++ d)
            simp only [Option.some.injEq, RecvEnd.returned.injEq, true_and] at h
            rw [← h.2, List.length_take]
            omega
          · simp at h
        · rw [not_or] at hwait
          obtain ⟨c'', he⟩ := receive_of_neg c rs (show func (b ++ d) < 0 by omega) hwait.2
          simp [he] at h

end Receive

variable {buf size : Nat} {c c' : TcpConn} {left : Int} {rs : List SendReply} {fs : List Fragment}

/-- A loop that ends without an error has sent the last `left` bytes. -/
theorem addresses_of_transmit (hle : left ≤ size)
    (h : c.transmit buf size left rs = some (.ok c', fs)) :
    addresses fs = List.range' (buf + (size - left.toNat)) left.toNat := by
  induction rs generalizing left fs with
  | nil =>
    simp only [transmit, Option.ite_none_left_eq_some, Option.some.injEq, Prod.mk.injEq] at h
    obtain ⟨hleft, -, rfl⟩ := h
    simp [addresses, show left.toNat = 0 by omega]
  | cons r rs ih =>
    simp only [transmit] at h
    split_ifs at h with hleft hneg hzero hgt
    · simp at h
    · simp at h
    · simp at h
    · obtain ⟨⟨e, fs'⟩, ht, heq⟩ := Option.map_eq_some_iff.mp h
      obtain ⟨rfl, rfl⟩ := Prod.mk.inj heq
      have hrest := ih (by omega) ht
      have haddr : ((buf + size : Nat) - left).toNat = buf + (size - left.toNat) := by omega
      have hnext : buf + (size - (left - r.ret).toNat) =
          buf + (size - left.toNat) + r.ret.toNat := by omega
      have hcount : left.toNat = r.ret.toNat + (left - r.ret).toNat := by omega
      rw [addresses] at hrest ⊢
      rw [List.flatMap_cons, hrest, haddr, hnext, List.range'_append_1, ← hcount]
    · obtain ⟨-, rfl⟩ := by simpa using h
      simp [addresses, show left.toNat = 0 by omega]

theorem exists_transmit (c : TcpConn) (buf size : Nat) (left : Int) :
    ∃ rs fs, c.transmit buf size left rs = some (.ok c, fs) := by
  by_cases hleft : left > 0
  · have hneg : ¬ left < 0 := by omega
    have hne : left ≠ 0 := by omega
    exact ⟨[⟨left, ""⟩], _, by simp [transmit, hleft, hneg, hne]; rfl⟩
  · exact ⟨[], [], by simp [transmit, hleft]⟩

theorem toInt32_le (n : Nat) : toInt32 n ≤ n := by
  by_cases hn : n < 2 ^ 31
  · rw [toInt32_of_lt hn]
  · have hlt := toInt32_lt n
    omega

theorem range_eq_iff_fits_int (buf size : Nat) :
    List.range' (buf + (size - (toInt32 size).toNat)) (toInt32 size).toNat =
      List.range' buf size ↔ size < 2 ^ 31 := by
  constructor
  · intro h
    have hlen := congrArg List.length h
    have hlt := toInt32_lt size
    simp only [List.length_range'] at hlen
    omega
  · intro hfit
    rw [toInt32_of_lt hfit]
    simp

theorem addresses_of_send {r : InitReply} (h : c.send buf size r rs = some (0, c', fs)) :
    addresses fs = List.range' (buf + (size - (toInt32 size).toNat)) (toInt32 size).toNat := by
  simp only [send] at h
  split at h
  · simp at h
  · split_ifs at h
    · simp at h
    · obtain ⟨⟨e, fs'⟩, ht, heq⟩ := Option.map_eq_some_iff.mp h
      cases e with
      | error d => simp at heq
      | ok d =>
        obtain ⟨-, rfl, rfl⟩ := by simpa using heq
        exact addresses_of_transmit (toInt32_le size) ht

theorem addresses_of_sendRequest {r : InitReply} {output : Nat}
    (h : c.sendRequest buf size output r rs = some (.ok c', fs)) :
    addresses fs = List.range' (buf + (size - (toInt32 size).toNat)) (toInt32 size).toNat := by
  simp only [sendRequest] at h
  split_ifs at h
  · simp at h
  · split at h
    · simp at h
    · exact addresses_of_transmit (toInt32_le size) h

theorem ensureConnected_of_fd (hfd : kInvalidFd ≠ c.fd) (r : InitReply) :
    c.ensureConnected r = .ok c := by
  rw [ensureConnected, if_neg hfd]

theorem exists_send (buf size : Nat) (hbuf : buf ≠ 0) (hsize : size ≠ 0) (r : InitReply) :
    ∃ c rs c' fs, send c buf size r rs = some (0, c', fs) := by
  obtain ⟨rs, fs, ht⟩ := exists_transmit { fd := 3 } buf size (toInt32 size)
  refine ⟨{ fd := 3 }, rs, { fd := 3 }, fs, ?_⟩
  rw [send, ensureConnected_of_fd (by decide)]
  simp [hbuf.symm, hsize.symm, ht]

theorem exists_sendRequest (buf size output : Nat) (hbuf : buf ≠ 0) (hsize : size ≠ 0)
    (houtput : output ≠ 0) (r : InitReply) :
    ∃ c rs c' fs, sendRequest c buf size output r rs = some (.ok c', fs) := by
  obtain ⟨rs, fs, ht⟩ := exists_transmit { fd := 3 } buf size (toInt32 size)
  refine ⟨{ fd := 3 }, rs, { fd := 3 }, fs, ?_⟩
  rw [sendRequest, ensureConnected_of_fd (by decide)]
  simp [hbuf.symm, hsize.symm, houtput.symm, ht]

end TcpConn

/-- Success of `Send`, and the receive phase of `SendAndReceive`, mean that the bytes from
`buf` on were sent in order and each once, exactly for the sizes an `int` can hold. -/
theorem transmits_whole_buffer_iff (size : Nat) :
    ((∀ c buf r rs c' fs, TcpConn.send c buf size r rs = some (0, c', fs) →
        addresses fs = List.range' buf size) ↔ size < 2 ^ 31) ∧
    ((∀ c buf output r rs c' fs,
        TcpConn.sendRequest c buf size output r rs = some (.ok c', fs) →
        addresses fs = List.range' buf size) ↔ size < 2 ^ 31) := by
  let r : InitReply := ⟨3, ⟨true, true⟩, 0, ""⟩
  refine ⟨⟨fun h => ?_, fun hfit c buf r rs c' fs hs => ?_⟩,
    ⟨fun h => ?_, fun hfit c buf output r rs c' fs hs => ?_⟩⟩
  · rcases Nat.eq_zero_or_pos size with rfl | hpos
    · decide
    obtain ⟨c, rs, c', fs, hs⟩ := TcpConn.exists_send 1 size (by decide) (by omega) r
    rw [← TcpConn.range_eq_iff_fits_int 1, ← TcpConn.addresses_of_send hs]
    exact h _ _ _ _ _ _ hs
  · rw [TcpConn.addresses_of_send hs]
    exact (TcpConn.range_eq_iff_fits_int buf size).mpr hfit
  · rcases Nat.eq_zero_or_pos size with rfl | hpos
    · decide
    obtain ⟨c, rs, c', fs, hs⟩ :=
      TcpConn.exists_sendRequest 1 size 1 (by decide) (by omega) (by decide) r
    rw [← TcpConn.range_eq_iff_fits_int 1, ← TcpConn.addresses_of_sendRequest hs]
    exact h _ _ _ _ _ _ _ hs
  · rw [TcpConn.addresses_of_sendRequest hs]
    exact (TcpConn.range_eq_iff_fits_int buf size).mpr hfit

/-- Of 4 GiB nothing is sent, and of five bytes more the last five; both are reported as
success, and an answer is waited for. -/
theorem four_gigabytes_not_sent :
    (∀ r, TcpConn.send { fd := 3 } 16 (2 ^ 32) r [] = some (0, { fd := 3 }, []) ∧
      TcpConn.sendRequest { fd := 3 } 16 (2 ^ 32) 8 r [] = some (.ok { fd := 3 }, []) ∧
      TcpConn.send { fd := 3 } 16 (2 ^ 32 + 5) r [⟨5, ""⟩] =
        some (0, { fd := 3 }, [⟨16 + 2 ^ 32, 5⟩])) ∧
    ¬ ∀ size c buf r rs c' fs, 0 < size → size < 2 ^ 64 →
      TcpConn.send c buf size r rs = some (0, c', fs) → addresses fs = List.range' buf size := by
  have hsend (r) : TcpConn.send { fd := 3 } 16 (2 ^ 32) r [] = some (0, { fd := 3 }, []) := rfl
  refine ⟨fun r => ⟨hsend r, rfl, rfl⟩, fun hall => ?_⟩
  have haddr := hall _ _ _ ⟨3, ⟨true, true⟩, 0, ""⟩ _ _ _ (by decide) (by decide) (hsend _)
  have hlen := congrArg List.length haddr
  rw [List.length_range'] at hlen
  exact absurd hlen (by decide)

end Tinyco
