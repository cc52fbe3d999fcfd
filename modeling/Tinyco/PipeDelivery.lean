import Tinyco.Simulation
import Tinyco.SocketPipe

/-! What arrives through a pipe is what was sent, and sender and receiver never end up waiting for
each other. -/

namespace Tinyco

namespace Pipe

variable {cap : Nat} {bufs : List Bytes} {s t : Pipe} {a : PipeLabel}

/-- What the receiver has got and what is on its way is what the sender's calls have handed to the
kernel, and with what they still have to send it is what was to be sent. -/
structure Sound (cap : Nat) (bufs : List Bytes) (s : Pipe) : Prop where
  stream : s.stream.Open
  send : s.send.Steady s.buf
  bytes : s.stream.passed = s.sent ++ s.send.accepted
  order : s.sent ++ s.buf ++ s.todo.flatten = bufs.flatten
  small : ∀ b ∈ s.buf :: s.todo, b.length < 2 ^ 31
  room : s.inFlight ≤ cap

theorem smooth_of_sendAllowed {b : SendLabel} (hcap : cap < 2 ^ 31) (h : s.SendAllowed cap b) :
    b.Smooth ∧ b.FitsInt := by
  match b with
  | .send (.ok n) =>
    obtain ⟨hpos, hroom⟩ := h
    exact ⟨by simpa [SendLabel.Smooth] using Nat.pos_iff_ne_zero.mp hpos, show n < 2 ^ 31 by omega⟩
  | .send (.err e) => exact ⟨h.imp_right And.left, trivial⟩
  | .wake ev =>
    obtain ⟨rfl, -⟩ := h
    exact ⟨by simp [SendLabel.Smooth], trivial⟩

theorem Sound.sends (hcap : cap < 2 ^ 31) (h : s.Sound cap bufs) {b : SendLabel} {c : SendCall}
    (hb : s.SendAllowed cap b) (hc : s.send.step s.buf b = some c) : (s.carry c).Sound cap bufs := by
  obtain ⟨hsmooth, hfits⟩ := smooth_of_sendAllowed hcap hb
  obtain ⟨x, hx, hlen⟩ := SendCall.accepted_of_step hc
  have hdrop : c.accepted.drop s.send.accepted.length = x := by rw [hx, List.drop_left]
  have hopen := h.stream
  refine ⟨⟨hopen.opened, ⟨?_, hopen.wakeful.woken⟩, hopen.goes_on, hopen.asks⟩,
    h.send.step (h.small _ List.mem_cons_self) hsmooth hfits hc, ?_, h.order, h.small, ?_⟩
  · exact fun hcl => absurd hcl (by simp [carry, hopen.opened])
  · change s.stream.got ++ s.stream.unread ++ (s.stream.coming ++ c.accepted.drop _) =
      s.sent ++ c.accepted
    rw [hdrop, hx, ← List.append_assoc, ← List.append_assoc, ← h.bytes, RecvStream.passed]
  · have hroom := h.room
    simp only [inFlight, carry, hdrop, List.length_append] at hroom ⊢
    rcases hlen with rfl | ⟨n, rfl, hle⟩
    · simpa using hroom
    · have hfree : s.inFlight + n ≤ cap := hb.2
      rw [inFlight] at hfree
      omega

theorem Sound.receives (hcap : cap < 2 ^ 31) (h : s.Sound cap bufs) {b : StreamLabel}
    {r : RecvStream} (hb : RecvAllowed b = true) (hr : s.stream.step b = some r) :
    ({ s with stream := r } : Pipe).Sound cap bufs := by
  have hroom : s.stream.coming.length + s.stream.unread.length ≤ cap := h.room
  obtain ⟨hopen, hpassed⟩ := h.stream.step hb (by omega) hr
  exact ⟨hopen, h.send, hpassed.trans h.bytes, h.order, h.small,
    (RecvStream.onWay_le hr).trans hroom⟩

theorem Sound.step (hcap : cap < 2 ^ 31) (h : s.Sound cap bufs) (hs : s.step cap a = some t) :
    t.Sound cap bufs := by
  cases a with
  | send b =>
    simp only [Pipe.step, Option.ite_none_right_eq_some, Option.map_eq_some_iff] at hs
    obtain ⟨hb, c, hc, rfl⟩ := hs
    exact h.sends hcap hb hc
  | recv b =>
    simp only [Pipe.step, Option.ite_none_right_eq_some, Option.map_eq_some_iff] at hs
    obtain ⟨hb, r, hr, rfl⟩ := hs
    exact h.receives hcap hb hr
  | next =>
    simp only [Pipe.step] at hs
    split at hs
    · next ret b todo hp htodo =>
      obtain rfl := Option.some.inj hs
      have hacc := h.send.accepted_eq hp
      refine ⟨h.stream, SendCall.steady_start (h.small b (by simp [htodo])) _, ?_, ?_, ?_, h.room⟩
      · change s.stream.passed = s.sent ++ s.send.accepted ++ (SendCall.start b _).accepted
        rw [h.bytes]
        exact (List.append_nil _).symm
      · change s.sent ++ s.send.accepted ++ b ++ todo.flatten = _
        rw [hacc, ← h.order, htodo, List.flatten_cons, List.append_assoc _ b]
      · exact fun c hc => h.small c (by simp only [htodo]; exact List.mem_cons_of_mem _ hc)
    · cases hs

theorem sound_start (hbufs : ∀ b ∈ bufs, b.length < 2 ^ 31) : (start bufs).Sound cap bufs where
  stream := ⟨rfl, ⟨by simp [start], by simp [start]⟩, by simp [start], by simp [start]⟩
  send := SendCall.steady_start (show ([] : Bytes).length < 2 ^ 31 by simp) none
  bytes := rfl
  order := rfl
  small := by simpa [start] using hbufs
  room := Nat.zero_le _

theorem Sound.sent_prefix (h : s.Sound cap bufs) : s.sent ++ s.send.accepted <+: bufs.flatten := by
  rw [← h.order, h.send.right.accepted, List.append_assoc, List.prefix_append_right_inj]
  exact (List.take_prefix _ _).trans (List.prefix_append _ _)

theorem sound_visits (hcap : cap < 2 ^ 31) (hbufs : ∀ b ∈ bufs, b.length < 2 ^ 31)
    {as : List PipeLabel} (h : Visits (step cap) (start bufs) as s) : s.Sound cap bufs :=
  h.invariant (sound_start hbufs) fun _ _ _ => Sound.step hcap

end Pipe

/-- Between two calls of `Frame::send` and in each of them, what the peer has got, what its socket
holds and what is on its way are, in this order, the bytes sent so far. -/
theorem pipe_bytes_in_order {cap : Nat} {bufs : List Bytes} {as : List PipeLabel} {s : Pipe}
    (hcap : cap < 2 ^ 31) (hbufs : ∀ b ∈ bufs, b.length < 2 ^ 31)
    (h : Visits (Pipe.step cap) (Pipe.start bufs) as s) :
    s.stream.got ++ s.stream.unread ++ s.stream.coming = s.sent ++ s.send.accepted ∧
      s.sent ++ s.send.accepted <+: bufs.flatten ∧ s.inFlight ≤ cap ∧
      ∀ ret, s.send.point = .returned ret → ret = s.buf.length ∧ s.send.accepted = s.buf := by
  have hs := Pipe.sound_visits hcap hbufs h
  exact ⟨hs.bytes, hs.sent_prefix, hs.room,
    fun ret hret => ⟨hs.send.whole ret hret, hs.send.accepted_eq hret⟩⟩

-- the buffer is full after two bytes, and the receiver has taken one of them
theorem pipe_bytes_in_order_full : ∃ s, Visits (Pipe.step 2) (Pipe.start [bytes "abc"])
      [.next, .send (.send (.ok 2)), .send (.send (.err .eagain)), .recv (.call 1), .recv (.arrive 2),
        .recv (.recv (.ok 1))] s ∧ s.send.point = .parked ∧ s.stream.got = bytes "a" ∧
    s.sent ++ s.send.accepted <+: [bytes "abc"].flatten ∧ s.inFlight ≤ 2 := by
  obtain ⟨s, hs, hp, hgot⟩ : ∃ s, exec (Pipe.step 2) (Pipe.start [bytes "abc"])
      [.next, .send (.send (.ok 2)), .send (.send (.err .eagain)), .recv (.call 1), .recv (.arrive 2),
        .recv (.recv (.ok 1))] = some s ∧ s.send.point = .parked ∧ s.stream.got = bytes "a" :=
    ⟨_, rfl, by decide, by decide⟩
  obtain ⟨-, hsent, hroom, -⟩ := pipe_bytes_in_order (by decide) (by decide) (.of_exec hs)
  exact ⟨s, .of_exec hs, hp, hgot, hsent, hroom⟩

/-- No system call fails. -/
def StreamLabel.succeeds : StreamLabel → Bool
  | .recv (.err _) => false
  | _ => true

def PipeLabel.succeeds : PipeLabel → Bool
  | .send (.send (.err _)) => false
  | .recv b => b.succeeds
  | _ => true

namespace RecvStream

variable {s t : RecvStream}

abbrev Progresses (s t : RecvStream) : Prop :=
  Leads step (fun b => Pipe.RecvAllowed b = true ∧ b.succeeds = true) s t

theorem Open.to_recv (h : s.Open) (hne : s.unread ≠ []) :
    ∃ len, 0 < len ∧ s.Progresses { s with point := .recv len } := by
  cases hp : s.point with
  | idle => exact ⟨1, Nat.one_pos, .single (a := .call 1) ⟨rfl, rfl⟩ (by simp only [RecvStream.step, hp])⟩
  | recv len => exact ⟨len, h.asks len (.inl hp), by rw [← hp]; exact .refl s⟩
  | parked len =>
    have hready : s.ready = [.read] := by simp [ready, hne, h.opened]
    refine ⟨len, h.asks len (.inr (.inl hp)), .cons (a := .fire) ⟨rfl, rfl⟩
      (t := { s with point := .woken len [.read] }) (by simp [RecvStream.step, hp, hready]) ?_⟩
    exact .single (a := .resume) ⟨rfl, rfl⟩
      (congrArg some (afterWake_of_read (by decide) (by decide) (by decide)))
  | woken len ev =>
    obtain ⟨ht, hc, hr⟩ := h.not_closed hp
    exact ⟨len, h.asks len (.inr (.inr ⟨ev, hp⟩)), .single (a := .resume) ⟨rfl, rfl⟩
      (by simp only [RecvStream.step, hp, afterWake_of_read ht hc hr])⟩
  | returned ret =>
    have hret : ret ≠ 0 := fun h0 => h.goes_on (h0 ▸ hp)
    exact ⟨1, Nat.one_pos, .single (a := .call 1) ⟨rfl, rfl⟩ (by
      simp only [RecvStream.step, hp, if_pos hret])⟩

theorem recv_one {len : Nat} (hp : s.point = .recv len) (hlen : 0 < len) (hne : s.unread ≠ []) :
    ∃ t, s.step (.recv (.ok 1)) = some t ∧ t.got.length = s.got.length + 1 := by
  have hpos := List.length_pos_iff.mpr hne
  have hallows : s.Allows len (.ok 1) := .inl ⟨Nat.one_pos, hlen, hpos⟩
  have hstep : s.step (.recv (.ok 1)) = some (({ s with unread := s.unread.drop 1 }).afterRecv len
      (toInt32 1) (s.unread.take 1)) := by
    simp only [RecvStream.step, hp, hallows, if_true]
    rfl
  refine ⟨_, hstep, ?_⟩
  rw [afterRecv_got, show toInt32 1 = 1 from rfl, List.length_append]
  simp only [Int.toNat_one, List.take_take, min_self, List.length_take]
  omega

/-- Whatever it does, the receiver can get one more of the bytes on their way. -/
theorem Open.get_one (h : s.Open) (hne : s.unread ++ s.coming ≠ []) :
    ∃ t, s.Progresses t ∧ t.got.length = s.got.length + 1 := by
  have harrive : s.step (.arrive s.coming.length) =
      some { s with unread := s.unread ++ s.coming, coming := [] } := by
    simp [RecvStream.step, h.opened]
  have hopen : ({ s with unread := s.unread ++ s.coming, coming := [] } : RecvStream).Open :=
    ⟨h.opened, h.wakeful.step harrive, h.goes_on, h.asks⟩
  obtain ⟨len, hlen, hto⟩ := hopen.to_recv hne
  obtain ⟨t, ht, hgot⟩ := recv_one (s := { s with
    point := .recv len, unread := s.unread ++ s.coming, coming := [] }) rfl hlen hne
  exact ⟨t, .cons (a := .arrive _) ⟨rfl, rfl⟩ harrive
    (hto.trans (.single (a := .recv (.ok 1)) ⟨rfl, rfl⟩ ht)), hgot⟩

end RecvStream

namespace Pipe

variable {cap : Nat} {bufs : List Bytes} {s t : Pipe}

abbrev Progresses (cap : Nat) (s t : Pipe) : Prop :=
  Leads (step cap) (fun a => a.succeeds = true) s t

/-- The bytes the receiver has not got, those the senders have not sent, and the calls to come. -/
def left (bufs : List Bytes) (s : Pipe) : Nat :=
  (bufs.flatten.length - s.stream.got.length) +
    (bufs.flatten.length - (s.sent ++ s.send.accepted).length) + s.todo.length

/-- All calls of `Frame::send` have returned and nothing is on its way. -/
def Done (s : Pipe) : Prop :=
  s.todo = [] ∧ (∃ ret, s.send.point = .returned ret) ∧ s.inFlight = 0

theorem Sound.sent_length (h : s.Sound cap bufs) :
    (s.sent ++ s.send.accepted).length = s.stream.got.length + s.inFlight ∧
      (s.sent ++ s.send.accepted).length ≤ bufs.flatten.length := by
  refine ⟨?_, h.sent_prefix.length_le⟩
  rw [← h.bytes, RecvStream.passed, inFlight]
  simp only [List.length_append]
  omega

theorem progresses_recv {r : RecvStream} (h : s.stream.Progresses r) :
    Progresses cap s { s with stream := r } := by
  refine Leads.lift (Q := fun a => a.succeeds = true) (f := fun r => { s with stream := r })
    PipeLabel.recv (fun r b r' hb hr => ⟨hb.2, ?_⟩) h
  simp only [step, hb.1, if_true, hr, Option.map_some]

theorem progresses_send {b : SendLabel} {c : SendCall} (hb : s.SendAllowed cap b)
    (hok : (PipeLabel.send b).succeeds = true) (hc : s.send.step s.buf b = some c) :
    Progresses cap s (s.carry c) :=
  .single (a := .send b) hok (by simp only [step, hb, if_true, hc, Option.map_some])

/-- While bytes are on their way the receiver can get one, whatever the sender waits for. -/
theorem Sound.drain (h : s.Sound cap bufs) (hpos : 0 < s.inFlight) :
    ∃ t, Progresses cap s t ∧ t.left bufs < s.left bufs := by
  have hne : s.stream.unread ++ s.stream.coming ≠ [] := by
    rw [inFlight, Nat.add_comm, ← List.length_append] at hpos
    exact List.length_pos_iff.mp hpos
  obtain ⟨r, hr, hgot⟩ := h.stream.get_one hne
  obtain ⟨hsent, hle⟩ := h.sent_length
  refine ⟨_, progresses_recv hr, ?_⟩
  simp only [left, hgot]
  omega

theorem Sound.send_one (hcap : cap < 2 ^ 31) (hroom : 0 < cap) (h : s.Sound cap bufs)
    (h0 : s.inFlight = 0) (hp : s.send.point = .send) :
    ∃ t, Progresses cap s t ∧ t.left bufs < s.left bufs := by
  have hlt := h.send.busy (.inl hp)
  have hb : s.SendAllowed cap (.send (.ok 1)) := ⟨Nat.one_pos, by omega⟩
  obtain ⟨c, hc, hacc⟩ : ∃ c, s.send.step s.buf (.send (.ok 1)) = some c ∧
      c.accepted = s.send.accepted ++ slice s.buf (s.send.nsend, 1) :=
    ⟨_, if_pos ⟨hp, by omega⟩, SendCall.afterSend_accepted _ _ _⟩
  have hone : (slice s.buf (s.send.nsend, 1)).length = 1 := by
    simp only [slice, List.length_take, List.length_drop]
    omega
  have hle := (h.sends hcap hb hc).sent_length.2
  refine ⟨_, progresses_send hb rfl hc, ?_⟩
  simp only [left, carry, hacc, List.length_append, hone] at hle ⊢
  omega

/-- As long as not all is sent and got, some calls of the two bring the end nearer. -/
theorem Sound.lower (hcap : cap < 2 ^ 31) (hroom : 0 < cap) (h : s.Sound cap bufs)
    (hdone : ¬ s.Done) : ∃ t, Progresses cap s t ∧ t.left bufs < s.left bufs := by
  rcases Nat.eq_zero_or_pos s.inFlight with h0 | hpos
  · cases hp : s.send.point with
    | send => exact h.send_one hcap hroom h0 hp
    | parked =>
      have hb : s.SendAllowed cap (.wake [.write]) := ⟨rfl, by omega⟩
      have hc : s.send.step s.buf (.wake [.write]) = some (s.send.loopHead s.buf) := if_pos hp
      have hlt := h.send.busy (.inr hp)
      obtain ⟨t, ht, hleft⟩ := (h.sends hcap hb hc).send_one hcap hroom
        (by simpa [inFlight, carry, SendCall.loopHead] using h0)
        (by simp [carry, SendCall.loopHead, hlt])
      exact ⟨t, (progresses_send hb rfl hc).trans ht, hleft⟩
    | returned ret =>
      obtain ⟨b, todo, htodo⟩ : ∃ b todo, s.todo = b :: todo :=
        List.exists_cons_of_ne_nil fun htodo => hdone ⟨htodo, ⟨ret, hp⟩, h0⟩
      have hnext : s.step cap .next = some { s with
          buf := b
          send := .start b s.send.errno
          sent := s.sent ++ s.send.accepted
          todo := todo } := by
        simp only [Pipe.step, hp, htodo]
      refine ⟨_, .single (a := .next) rfl hnext, ?_⟩
      have hstart : (SendCall.start b s.send.errno).accepted = [] := rfl
      simp only [left, hstart, htodo, List.append_nil, List.length_cons]
      omega
  · exact h.drain hpos

theorem Sound.got_of_done (h : s.Sound cap bufs) (hdone : s.Done) :
    s.stream.got = bufs.flatten := by
  obtain ⟨htodo, ⟨ret, hret⟩, h0⟩ := hdone
  have hacc := h.send.accepted_eq hret
  have hbytes := h.bytes
  have hcoming := List.length_eq_zero_iff.mp (Nat.eq_zero_of_add_eq_zero_right h0)
  have hunread := List.length_eq_zero_iff.mp (Nat.eq_zero_of_add_eq_zero_left h0)
  rw [RecvStream.passed, hcoming, hunread, List.append_nil, List.append_nil, hacc] at hbytes
  rw [hbytes, ← h.order, htodo, List.flatten_nil, List.append_nil]

end Pipe

/-- However the two ends have got to where they are, with the sender parked for room or the receiver
for bytes, they can go on until all calls of `Frame::send` have returned and all bytes are read. -/
theorem pipe_completes {cap : Nat} {bufs : List Bytes} {as : List PipeLabel} {s : Pipe}
    (hroom : 0 < cap) (hcap : cap < 2 ^ 31) (hbufs : ∀ b ∈ bufs, b.length < 2 ^ 31)
    (h : Visits (Pipe.step cap) (Pipe.start bufs) as s) :
    ∃ (bs : List PipeLabel) (t : Pipe), (∀ a ∈ bs, a.succeeds = true) ∧
      exec (Pipe.step cap) s bs = some t ∧ t.todo = [] ∧ t.send.point = .returned t.buf.length ∧
      t.stream.got = bufs.flatten := by
  have hs := Pipe.sound_visits hcap hbufs h
  have hkeep (t : Pipe) (a : PipeLabel) (u : Pipe) (ht : t.Sound cap bufs)
      (hu : t.step cap a = some u) : u.Sound cap bufs := ht.step hcap hu
  obtain ⟨t, hst, hdone⟩ := Leads.to_goal (P := fun a => a.succeeds = true) (Pipe.left bufs) hkeep
    (fun _ ht hd => ht.lower hcap hroom hd) hs
  have ht := hst.invariant hs hkeep
  obtain ⟨bs, hbs, hexec⟩ := hst
  obtain ⟨ret, hret⟩ := hdone.2.1
  exact ⟨bs, t, hbs, hexec, hdone.1, ht.send.whole ret hret ▸ hret, ht.got_of_done hdone⟩

-- the sender waits for room and the receiver for bytes that have not arrived
theorem pipe_completes_both_parked : ∃ s, Visits (Pipe.step 1) (Pipe.start [bytes "ab", bytes "c"])
      [.next, .send (.send (.ok 1)), .send (.send (.err .eagain)), .recv (.call 4),
        .recv (.recv (.err .eagain))] s ∧ s.send.point = .parked ∧ s.stream.point = .parked 4 ∧
    ∃ (bs : List PipeLabel) (t : Pipe), exec (Pipe.step 1) s bs = some t ∧
      t.stream.got = [bytes "ab", bytes "c"].flatten := by
  obtain ⟨s, hs, hp, hr⟩ : ∃ s, exec (Pipe.step 1) (Pipe.start [bytes "ab", bytes "c"])
      [.next, .send (.send (.ok 1)), .send (.send (.err .eagain)), .recv (.call 4),
        .recv (.recv (.err .eagain))] = some s ∧ s.send.point = .parked ∧
      s.stream.point = .parked 4 := ⟨_, rfl, by decide, by decide⟩
  obtain ⟨bs, t, -, ht, -, -, hgot⟩ :=
    pipe_completes (by decide) (by decide) (by decide) (.of_exec hs)
  exact ⟨s, .of_exec hs, hp, hr, bs, t, ht, hgot⟩

end Tinyco
