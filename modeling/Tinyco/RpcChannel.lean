import Tinyco.HttpOp

/-! `Channel::CallMethod`: a remote call is a request by `HttpOp::HttpRequest`. Calls that share a
controller are steps of a run on it. -/

namespace Tinyco

structure EndPoint where
  ip : IP := 0
  port : UInt16 := 0

structure Controller where
  errorCode : Int := 0
  hreqHeader : HttpRequest := ({} : HttpRequest).setMethod httpRequestMethodPost
  deriving DecidableEq

/-- The messages of a method: how a request is serialized, and whether a string is a response, with
what is then in the message that was to take it. -/
structure RpcMessages (Q R : Type*) where
  serializeToString : Q → Bytes
  parseFromString : Bytes → R → Bool × R

/-- A call with the server of its channel and what the client gets from the system. -/
structure RpcCall (Q R : Type*) where
  server : EndPoint
  replies : Replies
  request : Q
  response : R

namespace Channel

variable {Q R : Type*} (L : HttpLib) (O : IterationOrder) (m : RpcMessages Q R)

def exchange (hreqHeader : HttpRequest) (k : RpcCall Q R) : OpResult :=
  HttpOp.httpRequest L O k.replies k.server.ip k.server.port.toNat
    (hreqHeader.setContent (m.serializeToString k.request)) {}

/-- The controller and the response, if `HttpRequest` returns. A string that is not a response is
only logged. -/
def callMethod (cntl : Controller) (k : RpcCall Q R) : Option (Controller × R) :=
  let hrsp : HttpResponse := {}
  -- tested before there is an answer
  if hrsp.status ≠ 200 then some (cntl, k.response)
  else
    let t := exchange L O m cntl.hreqHeader k
    t.ret.map fun ret =>
      if ret < 0 then ({ cntl with errorCode := -1 }, k.response)
      else (cntl, (m.parseFromString t.response.content k.response).2)

def step (cntl : Controller) (k : RpcCall Q R) : Option Controller :=
  (callMethod L O m cntl k).map Prod.fst

def Fails (hreqHeader : HttpRequest) (k : RpcCall Q R) : Prop :=
  ∃ ret ∈ (exchange L O m hreqHeader k).ret, ret < 0

def Completes (hreqHeader : HttpRequest) (k : RpcCall Q R) : Prop :=
  ∃ ret ∈ (exchange L O m hreqHeader k).ret, 0 ≤ ret

def Answered (hreqHeader : HttpRequest) (k : RpcCall Q R) : Prop :=
  (exchange L O m hreqHeader k).response.status = 200 ∧
    (m.parseFromString (exchange L O m hreqHeader k).response.content k.response).1 = true

def Succeeds (hreqHeader : HttpRequest) (k : RpcCall Q R) : Prop :=
  Completes L O m hreqHeader k ∧ Answered L O m hreqHeader k

instance (hreqHeader : HttpRequest) (k : RpcCall Q R) : Decidable (Succeeds L O m hreqHeader k) :=
  inferInstanceAs (Decidable ((∃ ret ∈ _, 0 ≤ ret) ∧ _ ∧ _))

section Run

variable {L O m} {c d : Controller} {k : RpcCall Q R} {ks : List (RpcCall Q R)}

/-- A call that fails sets the code, any other leaves the controller as it is. -/
theorem step_cases (h : step L O m c k = some d) :
    Fails L O m c.hreqHeader k ∧ d = { c with errorCode := -1 } ∨
      Completes L O m c.hreqHeader k ∧ d = c := by
  obtain ⟨⟨d, rsp⟩, hcall, rfl⟩ := Option.map_eq_some_iff.mp h
  rw [callMethod, if_neg (by decide)] at hcall
  obtain ⟨ret, hret, hend⟩ := Option.map_eq_some_iff.mp hcall
  by_cases hneg : ret < 0
  · rw [if_pos hneg] at hend
    exact .inl ⟨⟨ret, hret, hneg⟩, (congrArg Prod.fst hend).symm⟩
  · rw [if_neg hneg] at hend
    exact .inr ⟨⟨ret, hret, not_lt.mp hneg⟩, (congrArg Prod.fst hend).symm⟩

theorem not_fails_of_completes {h : HttpRequest} (hk : Completes L O m h k) : ¬ Fails L O m h k := by
  rintro ⟨r, hr, hneg⟩
  obtain ⟨ret, hret, hpos⟩ := hk
  have heq := Option.mem_unique hr hret
  omega

theorem step_errorCode (h : step L O m c k = some d) :
    d.hreqHeader = c.hreqHeader ∧
      (d.errorCode = 0 ↔ c.errorCode = 0 ∧ ¬ Fails L O m c.hreqHeader k) := by
  rcases step_cases h with ⟨hfails, rfl⟩ | ⟨hret, rfl⟩
  · simp [hfails]
  · simp [not_fails_of_completes hret]

theorem exec_errorCode (h : exec (step L O m) c ks = some d) :
    d.hreqHeader = c.hreqHeader ∧
      (d.errorCode = 0 ↔ c.errorCode = 0 ∧ ∀ k ∈ ks, ¬ Fails L O m c.hreqHeader k) := by
  induction ks generalizing c with
  | nil =>
    cases h
    simp
  | cons k ks ih =>
    obtain ⟨e, hstep, hrest⟩ := Option.bind_eq_some_iff.mp h
    obtain ⟨hheader, hcode⟩ := step_errorCode hstep
    obtain ⟨hheader', hcode'⟩ := ih hrest
    rw [hheader', hcode', hcode, hheader, List.forall_mem_cons, and_assoc]
    exact ⟨rfl, Iff.rfl⟩

end Run

/-- After earlier calls on a controller, the code after a call is zero exactly for a success if and
only if the exchange fails, or the answer is good exactly when the code was zero at first and no
earlier exchange has failed. -/
theorem errorCode_right_iff (c₀ c d : Controller) (earlier : List (RpcCall Q R)) (k : RpcCall Q R)
    (hrun : exec (step L O m) c₀ earlier = some c) (hstep : step L O m c k = some d) :
    (d.errorCode = 0 ↔ Succeeds L O m c.hreqHeader k) ↔
      Fails L O m c.hreqHeader k ∨
        (Answered L O m c.hreqHeader k ↔
          c₀.errorCode = 0 ∧ ∀ j ∈ earlier, ¬ Fails L O m c₀.hreqHeader j) := by
  rw [← (exec_errorCode hrun).2, (step_errorCode hstep).2, Succeeds]
  rcases step_cases hstep with ⟨hfails, -⟩ | ⟨hret, -⟩
  · have hnot : ¬ Completes L O m c.hreqHeader k := fun h => not_fails_of_completes h hfails
    simp [hfails, hnot]
  · have hnot := not_fails_of_completes hret
    simp only [hnot, not_false_eq_true, and_true, hret, true_and, false_or]
    exact iff_comm

def answerText (line : String) : Bytes :=
  bytes line ++ crlf ++ bytes "Content-Length: 2" ++ crlf ++ crlf ++ bytes "ok"

def answerScan (line : String) (status : ℕ) : ParserScan where
  events := [(.headerField (bytes "Content-Length"), line.utf8ByteSize + 17),
    (.headerValue (bytes "2"), line.utf8ByteSize + 20),
    (.headersComplete, line.utf8ByteSize + 22), (.body (bytes "ok"), line.utf8ByteSize + 24),
    (.messageComplete, (answerText line).length)]
  nparsed := (answerText line).length
  statusCode := status

def answerLib (line : String) (status : ℕ) : HttpLib :=
  .ofTables [((.both, answerText line), answerScan line status),
    ((.response, answerText line), answerScan line status)] []

def rawMessages : RpcMessages Bytes Bytes := ⟨id, fun s _ => (true, s)⟩

/-- A call of a server that takes the connection, or does not, and answers with a status line. -/
def lineCall (connect : Int) (line : String) : RpcCall Bytes Bytes where
  server := ⟨1, 80⟩
  replies :=
    { http := ⟨⟨3, ⟨true, true⟩, connect, ""⟩, ⟨3, ⟨true, true⟩, connect, ""⟩, [⟨37, ""⟩],
        [.data (answerText line)]⟩
      https := ⟨⟨-1, 0, 0, 0, 0, 0, false, false, 0, false, 0, 0⟩, [], []⟩ }
  request := []
  response := []

theorem ok_call_right :
    step (answerLib "HTTP/1.1 200 OK" 200) insertionOrder rawMessages {} (lineCall 0 "HTTP/1.1 200 OK") =
        some {} ∧
      (({} : Controller).errorCode = 0 ↔ Succeeds (answerLib "HTTP/1.1 200 OK" 200) insertionOrder
        rawMessages ({} : Controller).hreqHeader (lineCall 0 "HTTP/1.1 200 OK")) := by
  have hstep : step (answerLib "HTTP/1.1 200 OK" 200) insertionOrder rawMessages {}
      (lineCall 0 "HTTP/1.1 200 OK") = some {} := by decide +kernel
  have hanswered : Answered (answerLib "HTTP/1.1 200 OK" 200) insertionOrder rawMessages
      ({} : Controller).hreqHeader (lineCall 0 "HTTP/1.1 200 OK") := ⟨by decide +kernel, rfl⟩
  exact ⟨hstep, (errorCode_right_iff _ _ _ {} {} {} [] _ rfl hstep).mpr
    (.inr (iff_of_true hanswered (by simp)))⟩

/-- An answer 404 is taken for a success, and a failure is reported again after a success. -/
theorem not_found_is_success_and_failure_stays :
    (step (answerLib "HTTP/1.1 404 Not Found" 404) insertionOrder rawMessages {}
        (lineCall 0 "HTTP/1.1 404 Not Found") = some {} ∧
      ({} : Controller).errorCode = 0 ∧
      ¬ Succeeds (answerLib "HTTP/1.1 404 Not Found" 404) insertionOrder rawMessages
        ({} : Controller).hreqHeader (lineCall 0 "HTTP/1.1 404 Not Found")) ∧
    exec (step (answerLib "HTTP/1.1 200 OK" 200) insertionOrder rawMessages) {}
        [lineCall (-1) "HTTP/1.1 200 OK", lineCall 0 "HTTP/1.1 200 OK"] = some { errorCode := -1 } ∧
      Succeeds (answerLib "HTTP/1.1 200 OK" 200) insertionOrder rawMessages
        ({} : Controller).hreqHeader (lineCall 0 "HTTP/1.1 200 OK") := by
  decide +kernel

end Channel

end Tinyco
