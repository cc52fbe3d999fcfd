import Mathlib.Algebra.Order.BigOperators.Group.List
import Tinyco.ClientFds

/-! A `TcpConn` whose peer has gone. The calls that find it out leave the descriptor as it is, so the
connection is never made again unless the caller closes it. -/

namespace Tinyco

/-- The calls that make the connection again if there is no descriptor. -/
def ClientOp.exchanges : ClientOp → Bool
  | .send .. | .sendAndReceive .. => true
  | _ => false

def RecvReply.gone : RecvReply → Bool
  | .data _ => false
  | .closed _ | .error _ => true

/-- `Frame::recv` finds that the peer has gone while `func` waits for more than the chunks before. -/
def RecvReply.Lost (func : Bytes → Int) (ds : List RecvReply) : Prop :=
  ∃ (cs : List Bytes) (d : RecvReply) (ds' : List RecvReply), ds = cs.map .data ++ d :: ds' ∧
    d.gone = true ∧
    ∀ k, 0 < k → k ≤ cs.length →
      func (cs.take k).flatten = 0 ∨ func (cs.take k).flatten = checkIncomplete

/-- `Frame::send` fails or takes nothing while some of the `size` bytes are left. -/
def SendReply.Lost (size : Int) (rs : List SendReply) : Prop :=
  ∃ ps r rs', rs = ps ++ r :: rs' ∧ r.ret ≤ 0 ∧ (∀ p ∈ ps, 0 < p.ret) ∧ (ps.map (·.ret)).sum < size

/-- The exchange finds that its peer has gone. -/
def ClientOp.Lost : ClientOp → Prop
  | .send _ size _ rs => SendReply.Lost (toInt32 size) rs
  | .sendAndReceive func _ size _ _ rs ds =>
    SendReply.Lost (toInt32 size) rs ∨ RecvReply.Lost func ds
  | _ => False

/-- What the exchange returns on the connection `c`. -/
def ClientOp.ret (c : TcpConn) : ClientOp → Option Int
  | .send buf size r rs => (c.send buf size r rs).map (·.1)
  | .sendAndReceive func buf size output r rs ds =>
    (c.sendAndReceive func buf size output r rs ds).bind fun e =>
      match e with
      | .returned ret _ _ => some ret
      | .overread => none
  | _ => none

namespace TcpConn

variable {c : TcpConn} {func : Bytes → Int} {buf size output : Nat} {r : InitReply}
  {rs : List SendReply} {ds : List RecvReply}

theorem transmit_of_lost (c : TcpConn) (buf size : Nat) {left : Int} (h : SendReply.Lost left rs) :
    ∃ c' fs, c.transmit buf size left rs = some (.error c', fs) := by
  obtain ⟨ps, q, rs', rfl, hq, hps, hsum⟩ := h
  induction ps generalizing left with
  | nil =>
    have hleft : left > 0 := by simpa using hsum
    rw [List.nil_append, transmit, if_pos hleft]
    rcases lt_or_eq_of_le hq with hneg | hzero
    · exact ⟨_, _, if_pos hneg⟩
    · rw [if_neg (by omega), if_pos hzero]
      exact ⟨_, _, rfl⟩
  | cons p ps ih =>
    have hp : 0 < p.ret := hps p (List.mem_cons_self ..)
    have hrest : 0 ≤ (ps.map (·.ret)).sum := List.sum_nonneg fun x hx => by
      obtain ⟨p', hp', rfl⟩ := List.mem_map.mp hx
      exact (hps p' (List.mem_cons_of_mem _ hp')).le
    rw [List.map_cons, List.sum_cons] at hsum
    have hsum' : (ps.map (·.ret)).sum < left - p.ret := by omega
    obtain ⟨c', fs, hfail⟩ := ih (fun p' hp' => hps p' (List.mem_cons_of_mem _ hp')) hsum'
    refine ⟨c', ⟨((buf + size : Nat) - left).toNat, p.ret.toNat⟩ :: fs, ?_⟩
    rw [List.cons_append, transmit, if_pos (by omega), if_neg (by omega), if_neg (by omega),
      if_neg (by omega), hfail]
    rfl

theorem send_of_lost (c : TcpConn) (buf : Nat) (r : InitReply)
    (h : SendReply.Lost (toInt32 size) rs) :
    ∃ c' fs, c.send buf size r rs = some (-1, c', fs) := by
  rw [send]
  cases c.ensureConnected r with
  | error c' => exact ⟨_, _, rfl⟩
  | ok c' =>
    obtain ⟨c'', fs, hfail⟩ := transmit_of_lost c' buf size h
    dsimp only
    split_ifs
    · exact ⟨_, _, rfl⟩
    · exact ⟨c'', fs, by rw [hfail]; rfl⟩

theorem sendRequest_of_lost (c : TcpConn) (buf output : Nat) (r : InitReply)
    (h : SendReply.Lost (toInt32 size) rs) :
    ∃ c' fs, c.sendRequest buf size output r rs = some (.error c', fs) := by
  rw [sendRequest]
  split_ifs
  · exact ⟨_, _, rfl⟩
  · cases c.ensureConnected r with
    | error c' => exact ⟨_, _, rfl⟩
    | ok c' => exact transmit_of_lost c' buf size h

theorem receive_of_gone {d : RecvReply} (hd : d.gone = true) (b : Bytes) :
    ∃ c', c.receive func b (d :: ds) = some (.returned (-1) c' none) := by
  cases d with
  | data x => cases hd
  | closed text => exact ⟨_, rfl⟩
  | error text => exact ⟨_, rfl⟩

/-- The chunks for which `func` waits are passed over, up to the reply that ends the loop. -/
theorem receive_waits (b : Bytes) {cs : List Bytes}
    (hcs : ∀ k, 0 < k → k ≤ cs.length →
      func (b ++ (cs.take k).flatten) = 0 ∨ func (b ++ (cs.take k).flatten) = checkIncomplete) :
    c.receive func b (cs.map .data ++ ds) = c.receive func (b ++ cs.flatten) ds := by
  induction cs generalizing b with
  | nil => simp
  | cons x cs ih =>
    have hx := hcs 1 Nat.one_pos (by simp)
    rw [List.take_succ_cons, List.take_zero, List.flatten_cons, List.flatten_nil,
      List.append_nil] at hx
    rw [List.map_cons, List.cons_append, receive_of_wait hx, ih, List.flatten_cons,
      List.append_assoc]
    intro k _ hle
    have hk := hcs (k + 1) k.succ_pos (Nat.succ_le_succ hle)
    rwa [List.take_succ_cons, List.flatten_cons, ← List.append_assoc] at hk

theorem receive_of_lost (h : RecvReply.Lost func ds) :
    ∃ c', c.receive func [] ds = some (.returned (-1) c' none) := by
  obtain ⟨cs, d, ds', rfl, hd, hcs⟩ := h
  rw [receive_waits [] (by simpa using hcs)]
  exact receive_of_gone hd _

/-- An exchange that finds its peer gone fails if it comes to an end. -/
theorem sendAndReceive_of_lost {e : RecvEnd}
    (h : SendReply.Lost (toInt32 size) rs ∨ RecvReply.Lost func ds)
    (he : c.sendAndReceive func buf size output r rs ds = some e) :
    ∃ c', e = .returned (-1) c' none := by
  obtain ⟨⟨t, fs⟩, ht, he⟩ := Option.bind_eq_some_iff.mp he
  cases t with
  | error c' => exact ⟨c', (Option.some.inj he).symm⟩
  | ok c' =>
    rcases h with hsend | hrecv
    · obtain ⟨c'', fs', hfail⟩ := sendRequest_of_lost c buf output r hsend
      rw [hfail] at ht
      simp at ht
    · obtain ⟨c'', hlost⟩ := receive_of_lost (c := c') hrecv
      exact ⟨c'', Option.some.inj (he.symm.trans hlost)⟩

end TcpConn

namespace ClientFds

variable {s t : ClientFds} {a : ClientOp} {ops : List ClientOp}

theorem exec_nil_calls {conn : TcpConn} (h : s.after conn [] = some t) :
    t.conn = conn ∧ t.fds = s.fds := by
  obtain ⟨hfds, hconn⟩ := after_eq_some h
  exact ⟨hconn, (Option.some.inj hfds).symm⟩

/-- An exchange on a connection that has a descriptor makes no call of `socket` or `close`, whatever
comes of it. -/
theorem exchange_step (hfd : kInvalidFd ≠ s.conn.fd) (ha : a.exchanges = true)
    (hs : s.step a = some t) : t.conn.fd = s.conn.fd ∧ t.fds = s.fds := by
  have hquiet (r : InitReply) := TcpConn.ensureConnected_quiet hfd r
  simp only [step, Option.ite_none_left_eq_some] at hs
  cases a with
  | send buf size r rs =>
    obtain ⟨⟨ret, conn, fs⟩, hsend, hs⟩ := Option.bind_eq_some_iff.mp hs.2
    rw [(hquiet r).1] at hs
    obtain ⟨hconn, hfds⟩ := exec_nil_calls hs
    refine ⟨?_, hfds⟩
    rw [hconn, TcpConn.send_fd hsend, (hquiet r).2]
  | sendAndReceive func buf size output r rs ds =>
    obtain ⟨e, hrecv, hs⟩ := Option.bind_eq_some_iff.mp hs.2
    cases e with
    | overread => cases hs
    | returned ret conn out =>
      rcases TcpConn.sendAndReceive_fd hrecv with ⟨hconn, hcalls⟩ | ⟨hconn, hcalls⟩
      · rw [hcalls] at hs
        obtain ⟨hsame, hfds⟩ := exec_nil_calls hs
        exact ⟨by rw [hsame, hconn], hfds⟩
      · rw [hcalls, (hquiet r).1] at hs
        obtain ⟨hsame, hfds⟩ := exec_nil_calls hs
        exact ⟨by rw [hsame, hconn, (hquiet r).2], hfds⟩
  | init http ip port r => cases ha
  | close => cases ha
  | destroy http => cases ha

/-- An exchange that has found its peer gone returns -1 when it comes to an end. -/
theorem ret_of_lost (ha : a.Lost) (hs : s.step a = some t) : a.ret s.conn = some (-1) := by
  simp only [step, Option.ite_none_left_eq_some] at hs
  cases a with
  | send buf size r rs =>
    obtain ⟨c', fs, hsend⟩ := TcpConn.send_of_lost s.conn buf r ha
    simp [ClientOp.ret, hsend]
  | sendAndReceive func buf size output r rs ds =>
    obtain ⟨e, he, -⟩ := Option.bind_eq_some_iff.mp hs.2
    obtain ⟨c', rfl⟩ := TcpConn.sendAndReceive_of_lost ha he
    simp [ClientOp.ret, he]
  | init http ip port r => cases ha
  | close => cases ha
  | destroy http => cases ha

theorem exchanges_run (hfd : kInvalidFd ≠ s.conn.fd) (hops : ∀ a ∈ ops, a.exchanges = true)
    (h : exec step s ops = some t) : t.conn.fd = s.conn.fd ∧ t.fds = s.fds := by
  refine (Visits.of_exec h).invariant_takes (I := fun u => u.conn.fd = s.conn.fd ∧ u.fds = s.fds)
    ⟨rfl, rfl⟩ fun u a v hu huv => ?_
  obtain ⟨hconn, hfds⟩ := exchange_step (hu.1 ▸ hfd) (hops a huv.mem) huv.step_eq
  exact ⟨hconn.trans hu.1, hfds.trans hu.2⟩

/-- However many exchanges a client makes on a connection, and whatever has become of them, they all
use the descriptor it had: no `socket` is called. So every exchange that comes to an end after it has
found the peer gone, in `send` or in `recv` and after any number of chunks, returns -1 and leaves the
descriptor as it was, also when a new connection could be made. -/
theorem lost_peer_never_reconnected (s : ClientFds) (ops : List ClientOp) (t : ClientFds)
    (hfd : kInvalidFd ≠ s.conn.fd) (hops : ∀ a ∈ ops, a.exchanges = true)
    (h : exec step s ops = some t) :
    t.conn.fd = s.conn.fd ∧ t.fds = s.fds ∧
      ∀ x a y, Takes step s ops x a y →
        x.conn.fd = s.conn.fd ∧ y.conn.fd = s.conn.fd ∧ (a.Lost → a.ret x.conn = some (-1)) := by
  obtain ⟨hconn, hfds⟩ := exchanges_run hfd hops h
  refine ⟨hconn, hfds, fun x a y hxy => ?_⟩
  obtain ⟨pre, hpre, hx, hy⟩ := hxy
  have hmem : ∀ a ∈ pre, a.exchanges = true := fun a ha =>
    hops a (hpre.subset (List.mem_append_left _ ha))
  have hxfd := (exchanges_run hfd hmem hx).1
  have hyfd := (exchange_step (hxfd ▸ hfd) (hops a (hpre.subset (by simp))) hy).1
  exact ⟨hxfd, hyfd.trans hxfd, fun ha => ret_of_lost ha hy⟩

/-- The client sends its five bytes, receives two and finds that the peer has closed the connection. -/
def closedExchange : ClientOp :=
  .sendAndReceive (fun b => if b.length < 5 then 0 else b.length) 1 5 1 ⟨4, ⟨true, true⟩, 0, ""⟩
    [⟨5, ""⟩] [.data [72, 84], .closed ""]

theorem closedExchange_lost : closedExchange.Lost := by
  refine Or.inr ⟨[[72, 84]], .closed "", [], rfl, rfl, fun k hpos hle => Or.inl ?_⟩
  obtain rfl : k = 1 := le_antisymm hle hpos
  rfl

theorem lost_peer_never_reconnected_twice :
    ∃ t : ClientFds, exec step { conn := { ip := 1, port := 80, fd := 3 }, fds := ⟨[3], []⟩ }
        [closedExchange, closedExchange] = some t ∧ t.conn.fd = 3 ∧ t.fds = ⟨[3], []⟩ ∧
      ∀ x a y, Takes step { conn := { ip := 1, port := 80, fd := 3 }, fds := ⟨[3], []⟩ }
        [closedExchange, closedExchange] x a y → a.ret x.conn = some (-1) := by
  refine ⟨_, rfl, ?_⟩
  obtain ⟨hconn, hfds, hret⟩ := lost_peer_never_reconnected
    { conn := { ip := 1, port := 80, fd := 3 }, fds := ⟨[3], []⟩ } [closedExchange, closedExchange] _
    (by decide) (by simp [closedExchange, ClientOp.exchanges]) rfl
  refine ⟨hconn, hfds, fun x a y hxy => (hret x a y hxy).2.2 ?_⟩
  have ha : a ∈ [closedExchange, closedExchange] := hxy.mem
  obtain rfl : a = closedExchange := by simpa using ha
  exact closedExchange_lost

end ClientFds

end Tinyco
