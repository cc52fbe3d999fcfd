import Tinyco.SelfDelimiting

/-! Requests and responses are read back from their serialisation, in any order of the headers. -/

namespace Tinyco

/-- A header field of the message; a missing one reads as empty. -/
def readField (fields : List (Bytes × Bytes)) (field : Bytes) : Bytes :=
  ((AssocMap.empty.assignAll fields).find field).getD []

/-- What a message says: its first line as far as it is read, its header fields and its content. -/
@[ext] structure MessageView (σ : Type) where
  start : σ
  header : Bytes → Bytes
  content : Bytes

def readMessage {σ : Type} (readStart : Bytes → Option σ) (b : Bytes) : Option (MessageView σ) :=
  (RawMessage.read b).bind fun m => (readStart m.start).map fun start =>
    ⟨start, readField m.fields, m.body⟩

def readMethod (s : Bytes) : Option UInt8 :=
  if s = bytes "GET" then some httpRequestMethodGet
  else if s = bytes "POST" then some httpRequestMethodPost
  else none

/-- The method and the URI, which stand before and after the first blank. -/
def readRequestLine (l : Bytes) : Option (UInt8 × Bytes) :=
  match l.splitOn 32 with
  | [method, uri, _] => (readMethod method).map fun m => (m, uri)
  | _ => none

def readInt : Bytes → Option Int
  | 45 :: s => (readDecimal s).map fun n => -Int.ofNat n
  | s => (readDecimal s).map Int.ofNat

def readStatusLine (l : Bytes) : Option Int :=
  match l.splitOn 32 with
  | _ :: status :: _ => readInt status
  | _ => none

def CleanHeaders (headers : AssocMap Bytes Bytes) : Prop :=
  ∀ e ∈ headers.entries, (58 ∉ e.1 ∧ 13 ∉ e.1 ∧ 10 ∉ e.1) ∧ 13 ∉ e.2 ∧ 10 ∉ e.2

structure HttpRequest.Clean (r : HttpRequest) : Prop where
  method : r.method = httpRequestMethodGet ∨ r.method = httpRequestMethodPost
  uri : 32 ∉ r.struri ∧ 13 ∉ r.struri ∧ 10 ∉ r.struri
  headers : CleanHeaders r.headers

def HttpRequest.view (r : HttpRequest) : MessageView (UInt8 × Bytes) :=
  ⟨(r.method, r.struri), r.getHeader, r.content⟩

def HttpResponse.view (r : HttpResponse) : MessageView Int := ⟨r.status, r.getHeader, r.content⟩

section Headers

variable {O : IterationOrder} {headers : AssocMap Bytes Bytes}

def printedEntries (O : IterationOrder) (headers : AssocMap Bytes Bytes) : List (Bytes × Bytes) :=
  (O.order headers.entries).filter fun e => decide (e.2 ≠ [])

theorem mem_printedEntries {e : Bytes × Bytes} :
    e ∈ printedEntries O headers ↔ e ∈ headers.entries ∧ e.2 ≠ [] := by
  rw [printedEntries, List.mem_filter, (O.order_perm _).mem_iff, decide_eq_true_eq]

theorem readField_printedEntries (field : Bytes) :
    readField (printedEntries O headers) field = (headers.find field).getD [] := by
  have hread {v : Bytes} : (AssocMap.empty.assignAll (printedEntries O headers)).find field = some v ↔
      headers.find field = some v ∧ v ≠ [] := by
    have hnodup : ((printedEntries O headers).map Prod.fst).Nodup := O.nodup_keys_filter headers _
    rw [AssocMap.find_assignAll_of_nodup hnodup, mem_printedEntries, AssocMap.find_eq_some_iff]
  rw [readField]
  cases hr : (AssocMap.empty.assignAll (printedEntries O headers)).find field with
  | some v => rw [(hread.mp hr).1]
  | none =>
    cases hf : headers.find field with
    | none => rfl
    | some v =>
      by_contra hne
      have hv : v ≠ [] := fun h0 => hne (by simp [h0])
      rw [hread.mpr ⟨hf, hv⟩] at hr
      cases hr

theorem wellFormed_of_clean (hheaders : CleanHeaders headers) {start : Bytes} (hne : start ≠ [])
    (hcr : 13 ∉ start) (O : IterationOrder) (body : Bytes) :
    RawMessage.WellFormed ⟨start, printedEntries O headers, body⟩ where
  start_ne := hne
  start_cr := hcr
  name_colon e he := (hheaders e (mem_printedEntries.mp he).1).1.1
  name_cr e he := (hheaders e (mem_printedEntries.mp he).1).1.2.1
  value_cr e he := (hheaders e (mem_printedEntries.mp he).1).2.1

theorem readMessage_clean {σ : Type} {readStart : Bytes → Option σ} {start : Bytes} {st : σ}
    (hst : readStart start = some st) (hheaders : CleanHeaders headers) (hne : start ≠ [])
    (hcr : 13 ∉ start) (O : IterationOrder) (body : Bytes) :
    readMessage readStart (RawMessage.toBytes ⟨start, printedEntries O headers, body⟩) =
      some ⟨st, fun field => (headers.find field).getD [], body⟩ := by
  rw [readMessage, RawMessage.read_toBytes (wellFormed_of_clean hheaders hne hcr O body),
    Option.bind_some, hst, Option.map_some]
  have hfields : readField (printedEntries O headers) = fun field => (headers.find field).getD [] :=
    funext readField_printedEntries
  rw [← hfields]

end Headers

section Requests

variable {r : HttpRequest}

theorem HttpRequest.Clean.exists_methodText (h : r.Clean) :
    ∃ name : Bytes, methodText r.method = some (name ++ [32]) ∧ readMethod name = some r.method ∧
      32 ∉ name ∧ 13 ∉ name := by
  rcases h.method with hm | hm
  · exact ⟨bytes "GET", by rw [hm]; decide, by rw [hm]; decide, by decide, by decide⟩
  · exact ⟨bytes "POST", by rw [hm]; decide, by rw [hm]; decide, by decide, by decide⟩

theorem readRequestLine_eq {name uri : Bytes} {m : UInt8} (hname : 32 ∉ name) (huri : 32 ∉ uri)
    (hm : readMethod name = some m) :
    readRequestLine (name ++ [32] ++ uri ++ bytes " " ++ bytes "HTTP/1.1") = some (m, uri) := by
  have hparts : (name ++ [32] ++ uri ++ bytes " " ++ bytes "HTTP/1.1").splitOn 32 =
      [name, uri, bytes "HTTP/1.1"] := by
    have hline : name ++ [32] ++ uri ++ bytes " " ++ bytes "HTTP/1.1" =
        name ++ 32 :: (uri ++ 32 :: bytes "HTTP/1.1") := by
      have hblank : bytes " " = [32] := by decide
      simp [hblank]
    rw [hline, List.splitOn_append_cons_self_of_not_mem hname,
      List.splitOn_append_cons_self_of_not_mem huri, List.splitOn_eq_singleton (by decide)]
  rw [readRequestLine, hparts]
  simp [hm]

theorem HttpRequest.Clean.read_serialize (h : r.Clean) (O : IterationOrder) (output : Bytes) :
    (r.serializeToString O output).1 = true ∧
      readMessage readRequestLine (r.serializeToString O output).2 = some r.view := by
  obtain ⟨name, htext, hm, hname, hcr⟩ := h.exists_methodText
  have hser : r.serializeToString O output = (true, RawMessage.toBytes
      ⟨name ++ [32] ++ r.struri ++ bytes " " ++ bytes "HTTP/1.1", printedEntries O r.headers,
        r.content⟩) := by
    rw [HttpRequest.serializeToString, htext]
    rfl
  have hstart : 13 ∉ name ++ [32] ++ r.struri ++ bytes " " ++ bytes "HTTP/1.1" := by
    simp only [List.mem_append, not_or]
    exact ⟨⟨⟨⟨hcr, by decide⟩, h.uri.2.1⟩, by decide⟩, by decide⟩
  rw [hser]
  exact ⟨rfl, readMessage_clean (readRequestLine_eq hname h.uri.1 hm) h.headers (by simp) hstart O _⟩

end Requests

section Responses

variable {r : HttpResponse}

theorem not_mem_decimal {c : UInt8} (hc : (48 ≤ c && c ≤ 57) = false) (n : Nat) : c ∉ decimal n := by
  intro h
  rw [mem_decimal h] at hc
  cases hc

theorem not_mem_decimalInt {c : UInt8} (hc : (48 ≤ c && c ≤ 57) = false) (hminus : c ≠ 45) (n : Int) :
    c ∉ HttpResponse.decimalInt n := by
  have hdash : bytes "-" = [45] := by decide
  unfold HttpResponse.decimalInt
  split
  · simp [hdash, hminus, not_mem_decimal hc]
  · exact not_mem_decimal hc _

theorem readInt_decimalInt (n : Int) : readInt (HttpResponse.decimalInt n) = some n := by
  unfold HttpResponse.decimalInt
  split
  next hneg =>
    have hdash : bytes "-" = [45] := by decide
    rw [hdash, List.singleton_append, readInt, readDecimal_decimal, Option.map_some,
      Option.some.injEq, Int.ofNat_eq_natCast]
    omega
  next hpos =>
    unfold readInt
    split
    next s heq =>
      have hmem : 45 ∈ decimal n.natAbs := by
        rw [heq]
        exact List.mem_cons_self
      exact absurd hmem (not_mem_decimal (by decide) _)
    next =>
      rw [readDecimal_decimal, Option.map_some, Option.some.injEq, Int.ofNat_eq_natCast]
      omega

theorem readStatusLine_startLine (status : Int) :
    readStatusLine (HttpResponse.startLine status) = some status := by
  have hline : HttpResponse.startLine status = bytes "HTTP/1.1" ++ 32 ::
      (HttpResponse.decimalInt status ++ 32 :: HttpResponse.reason status) := by
    have hversion : bytes "HTTP/1.1 " = bytes "HTTP/1.1" ++ [32] := by decide
    have hblank : bytes " " = [32] := by decide
    simp [HttpResponse.startLine, hversion, hblank]
  rw [readStatusLine, hline, List.splitOn_append_cons_self_of_not_mem (by decide),
    List.splitOn_append_cons_self_of_not_mem (not_mem_decimalInt (by decide) (by decide) status)]
  exact readInt_decimalInt status

theorem cr_not_mem_startLine (status : Int) : 13 ∉ HttpResponse.startLine status := by
  have hreason : 13 ∉ HttpResponse.reason status := by
    unfold HttpResponse.reason
    split_ifs <;> decide
  have hnumber := not_mem_decimalInt (c := 13) (by decide) (by decide) status
  simp only [HttpResponse.startLine, List.mem_append, not_or]
  exact ⟨⟨⟨by decide, hnumber⟩, by decide⟩, hreason⟩

theorem HttpResponse.read_serialize (h : CleanHeaders r.headers) (O : IterationOrder) :
    readMessage readStatusLine (r.serializeToString O) = some r.view := by
  have hne : HttpResponse.startLine r.status ≠ [] := by
    have hversion : bytes "HTTP/1.1 " = 72 :: bytes "TTP/1.1 " := by decide
    simp [HttpResponse.startLine, hversion]
  exact readMessage_clean (readStatusLine_startLine r.status) h hne (cr_not_mem_startLine r.status) O _

end Responses

/-- A clean message is read back from its serialisation in any order of its headers, so messages
with one serialisation say the same, and a method other than GET and POST writes nothing. -/
theorem serialize_round_trip :
    (∀ (O : IterationOrder) (r : HttpRequest) (output : Bytes), r.Clean →
      (r.serializeToString O output).1 = true ∧
        readMessage readRequestLine (r.serializeToString O output).2 = some r.view) ∧
    (∀ (O : IterationOrder) (r : HttpResponse), CleanHeaders r.headers →
      readMessage readStatusLine (r.serializeToString O) = some r.view) ∧
    (∀ (O O' : IterationOrder) (r r' : HttpRequest) (output output' : Bytes), r.Clean → r'.Clean →
      (r.serializeToString O output).2 = (r'.serializeToString O' output').2 → r.view = r'.view) ∧
    (∀ (O O' : IterationOrder) (r r' : HttpResponse), CleanHeaders r.headers →
      CleanHeaders r'.headers → r.serializeToString O = r'.serializeToString O' →
        r.view = r'.view) ∧
    ∀ (O : IterationOrder) (r : HttpRequest) (output : Bytes), r.method ≠ httpRequestMethodGet →
      r.method ≠ httpRequestMethodPost → r.serializeToString O output = (false, output) := by
  refine ⟨fun O r output h => h.read_serialize O output, fun O r h => HttpResponse.read_serialize h O,
    fun O O' r r' output output' h h' heq => ?_, fun O O' r r' h h' heq => ?_,
    fun O r output hget hpost => ?_⟩
  · have hread := (h.read_serialize O output).2
    rw [heq, (h'.read_serialize O' output').2] at hread
    exact (Option.some.inj hread).symm
  · have hread := HttpResponse.read_serialize h O
    rw [heq, HttpResponse.read_serialize h' O'] at hread
    exact (Option.some.inj hread).symm
  · simp [HttpRequest.serializeToString, HttpRequest.methodText, hget, hpost]

def postSample : HttpRequest where
  method := httpRequestMethodPost
  struri := bytes "/rpc"
  content := bytes "\r\nx"
  headers := AssocMap.empty.assign (bytes "Host") (bytes "h:80")

theorem post_round_trip :
    postSample.Clean ∧
      readMessage readRequestLine (bytes "POST /rpc HTTP/1.1\r\nHost: h:80\r\n\r\n\r\nx") =
        some postSample.view := by
  have hclean : postSample.Clean := by
    refine ⟨.inr rfl, by decide, fun e he => ?_⟩
    obtain rfl : e = (bytes "Host", bytes "h:80") := List.mem_singleton.mp he
    decide
  have hser : (postSample.serializeToString insertionOrder []).2 =
      bytes "POST /rpc HTTP/1.1\r\nHost: h:80\r\n\r\n\r\nx" := by decide
  rw [← hser]
  exact ⟨hclean, (serialize_round_trip.1 _ postSample [] hclean).2⟩

end Tinyco
