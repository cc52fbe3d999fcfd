import Tinyco.RequestIsolation

/-! Messages whose header names, header values and body the parser hands over in several
fragments. Each fragment of a name or a value is stored as a string of its own. -/

namespace Tinyco

/-- A header as the callbacks for its name, then those for its value. -/
structure HeaderFragments where
  name : List Bytes
  value : List Bytes
  name_ne : name ≠ [] := by simp
  value_ne : value ≠ [] := by simp

/-- The callbacks of one message; trailers are the headers behind a chunked body. -/
structure MessageFragments where
  urls : List Bytes := []
  headers : List HeaderFragments := []
  body : List Bytes := []
  trailers : List HeaderFragments := []

namespace HeaderFragments

def events (h : HeaderFragments) : List ParserEvent :=
  h.name.map .headerField ++ h.value.map .headerValue

def strings (h : HeaderFragments) : List Bytes := h.name ++ h.value

def pair (h : HeaderFragments) : Bytes × Bytes := (h.name.flatten, h.value.flatten)

def counts (h : HeaderFragments) : Nat × Nat := (h.name.length, h.value.length)

def refill (name : HeaderFragments → Bytes) (value : Bytes) (h : HeaderFragments) :
    HeaderFragments where
  name := List.replicate h.name.length (name h)
  value := List.replicate h.value.length value
  name_ne := by simpa using h.name_ne
  value_ne := by simpa using h.value_ne

end HeaderFragments

namespace MessageFragments

def events (m : MessageFragments) : List ParserEvent :=
  m.urls.map .url ++ m.headers.flatMap HeaderFragments.events ++ [.headersComplete] ++
    m.body.map .body ++ m.trailers.flatMap HeaderFragments.events ++ [.messageComplete]

def fields (m : MessageFragments) : List HeaderFragments := m.headers ++ m.trailers

def pairs (m : MessageFragments) : List (Bytes × Bytes) := m.fields.map HeaderFragments.pair

/-- The fragments as they are stored, before they are taken in pairs. -/
def strings (m : MessageFragments) : List Bytes := m.fields.flatMap HeaderFragments.strings

def counts (m : MessageFragments) : List (Nat × Nat) × List (Nat × Nat) × Nat :=
  (m.headers.map HeaderFragments.counts, m.trailers.map HeaderFragments.counts, m.body.length)

def Whole (m : MessageFragments) : Prop :=
  (∀ c ∈ m.counts.1 ++ m.counts.2.1, c = (1, 1)) ∧ m.counts.2.2 ≤ 1

/-- A message that comes in as many fragments as `m`, with other texts. -/
def refill (name : HeaderFragments → Bytes) (value body : Bytes) (m : MessageFragments) :
    MessageFragments where
  urls := m.urls
  headers := m.headers.map (HeaderFragments.refill name value)
  body := List.replicate m.body.length body
  trailers := m.trailers.map (HeaderFragments.refill name value)

end MessageFragments

/-- The parser makes the callbacks of `m` and reads the whole buffer. -/
def ParserScan.Delivers (sc : ParserScan) (m : MessageFragments) (size : Nat) : Prop :=
  sc.events.map Prod.fst = m.events ∧ sc.nparsed = size

/-- Every header has the value of the message, the last one if there are several, and the
content is the body. -/
def MessageFragments.StoredIn (m : MessageFragments) (headers : AssocMap Bytes Bytes)
    (content : Bytes) : Prop :=
  content = m.body.flatten ∧
    ∀ n ∈ m.pairs.map Prod.fst, headers.find n = (AssocMap.empty.assignAll m.pairs).find n

def RequestStored (L : HttpLib) (buf : Bytes) (m : MessageFragments) (r : HttpRequest) : Prop :=
  (HttpParserImpl.parseHttpRequest L buf r).1 = 0 ∧
    m.StoredIn (HttpParserImpl.parseHttpRequest L buf r).2.headers
      (HttpParserImpl.parseHttpRequest L buf r).2.content

def ResponseStored (L : HttpLib) (buf : Bytes) (m : MessageFragments) (r : HttpResponse) : Prop :=
  ∃ r', HttpParserImpl.parseHttpResponse L buf r = some (0, r') ∧ m.StoredIn r'.headers r'.content

def ParserEvent.headerString : ParserEvent → Option Bytes
  | .headerField data => some data
  | .headerValue data => some data
  | _ => none

def ParserEvent.bodyText : ParserEvent → Option Bytes
  | .body data => some data
  | _ => none

theorem headerStringsOf_eq (es : List (ParserEvent × Nat)) :
    headerStringsOf es = (es.map Prod.fst).filterMap ParserEvent.headerString := by
  rw [List.filterMap_map]
  rfl

theorem bodiesOf_eq (es : List (ParserEvent × Nat)) :
    bodiesOf es = (es.map Prod.fst).filterMap ParserEvent.bodyText := by
  rw [List.filterMap_map]
  rfl

theorem HeaderFragments.filterMap_events (hs : List HeaderFragments) :
    (hs.flatMap HeaderFragments.events).filterMap ParserEvent.headerString =
        hs.flatMap HeaderFragments.strings ∧
      (hs.flatMap HeaderFragments.events).filterMap ParserEvent.bodyText = [] := by
  have hname (l : List Bytes) : (l.map ParserEvent.headerField).filterMap ParserEvent.headerString =
      l := by simp [List.filterMap_map, Function.comp_def, ParserEvent.headerString]
  have hvalue (l : List Bytes) : (l.map ParserEvent.headerValue).filterMap ParserEvent.headerString =
      l := by simp [List.filterMap_map, Function.comp_def, ParserEvent.headerString]
  induction hs with
  | nil => exact ⟨rfl, rfl⟩
  | cons h hs ih =>
    simp only [List.flatMap_cons, List.filterMap_append, HeaderFragments.events,
      HeaderFragments.strings, hname, hvalue]
    refine ⟨congrArg (_ ++ ·) ih.1, ?_⟩
    rw [show List.filterMap ParserEvent.bodyText (hs.flatMap _) = [] from ih.2]
    simp [List.filterMap_map, Function.comp_def, ParserEvent.bodyText]

namespace ParserScan.Delivers

variable {sc : ParserScan} {m : MessageFragments} {size : Nat}

theorem headerStrings (h : sc.Delivers m size) : sc.headerStrings = m.strings := by
  rw [ParserScan.headerStrings, headerStringsOf_eq, h.1, MessageFragments.events,
    MessageFragments.strings, MessageFragments.fields, List.flatMap_append]
  simp only [List.filterMap_append, (HeaderFragments.filterMap_events _).1]
  simp [List.filterMap_map, Function.comp_def, ParserEvent.headerString, List.filterMap_cons]

theorem bodies (h : sc.Delivers m size) : sc.bodies = m.body := by
  rw [ParserScan.bodies, bodiesOf_eq, h.1, MessageFragments.events]
  simp only [List.filterMap_append, (HeaderFragments.filterMap_events _).2]
  simp [List.filterMap_map, Function.comp_def, ParserEvent.bodyText, List.filterMap_cons]

theorem accepts_iff (h : sc.Delivers m size) : sc.Accepts size ↔ m.strings.length % 2 = 0 := by
  rw [ParserScan.Accepts, h.headerStrings]
  exact and_iff_right h.2

end ParserScan.Delivers

namespace MessageFragments

def writes (m : MessageFragments) : List (Bytes × Bytes) :=
  m.body.map (fun b => (bytes "Content-Length", decimal b.length)) ++
    HttpParserImpl.headerPairs m.strings

def Stored (m : MessageFragments) (headers : AssocMap Bytes Bytes) (content : Bytes) : Prop :=
  m.strings.length % 2 = 0 ∧
    m.StoredIn (headers.assignAll m.writes) (lastWritten some content m.body)

end MessageFragments

section Stored

variable {L : HttpLib} {buf : Bytes} {m m₀ : MessageFragments} {headers : AssocMap Bytes Bytes}
  {content : Bytes}

theorem requestStored_iff (h : (L.scan .request buf).Delivers m buf.length) (r : HttpRequest) :
    RequestStored L buf m r ↔ m.Stored r.headers r.content := by
  rw [RequestStored, HttpParserImpl.parseHttpRequest_zero_iff, h.accepts_iff]
  refine and_congr_right fun he => ?_
  rw [HttpParserImpl.parseHttpRequest_eq r (h.accepts_iff.mpr he), setKeepAlive_eq]
  simp only [HttpParserImpl.written, ParserScan.writtenHeaders, h.bodies, h.headerStrings]
  rfl

theorem responseStored_iff (h : (L.scan .response buf).Delivers m buf.length) (r : HttpResponse) :
    ResponseStored L buf m r ↔ m.Stored r.headers r.content := by
  constructor
  · rintro ⟨r', hr', hstored⟩
    have ha := HttpParserImpl.accepts_of_parseHttpResponse hr'
    rw [HttpParserImpl.parseHttpResponse_eq r ha] at hr'
    obtain rfl := (Prod.mk.inj (Option.some.inj hr')).2
    simp only [ParserScan.writtenHeaders, h.bodies, h.headerStrings] at hstored
    exact ⟨h.accepts_iff.mp ha, hstored⟩
  · rintro ⟨he, hstored⟩
    refine ⟨_, HttpParserImpl.parseHttpResponse_eq r (h.accepts_iff.mpr he), ?_⟩
    simp only [ParserScan.writtenHeaders, h.bodies, h.headerStrings]
    exact hstored

end Stored

namespace MessageFragments

variable {m m' : MessageFragments} {headers : AssocMap Bytes Bytes} {content : Bytes}

theorem whole_iff : m.Whole ↔ (∀ h ∈ m.fields, h.counts = (1, 1)) ∧ m.body.length ≤ 1 := by
  simp only [Whole, counts, ← List.map_append, List.forall_mem_map, fields]

theorem counts_refill (name : HeaderFragments → Bytes) (value body : Bytes) (m : MessageFragments) :
    (m.refill name value body).counts = m.counts := by
  simp [refill, counts, HeaderFragments.counts, HeaderFragments.refill]

theorem fields_refill (name : HeaderFragments → Bytes) (value body : Bytes) (m : MessageFragments) :
    (m.refill name value body).fields = m.fields.map (HeaderFragments.refill name value) := by
  simp [refill, fields]

theorem headerPairs_of_single {hs : List HeaderFragments} (h : ∀ f ∈ hs, f.counts = (1, 1)) :
    HttpParserImpl.headerPairs (hs.flatMap HeaderFragments.strings) =
        hs.map HeaderFragments.pair ∧
      (hs.flatMap HeaderFragments.strings).length = 2 * hs.length := by
  induction hs with
  | nil => exact ⟨rfl, rfl⟩
  | cons f hs ih =>
    obtain ⟨hn, hv⟩ := Prod.mk.inj (h f (by simp))
    obtain ⟨n, hn⟩ := List.length_eq_one_iff.mp hn
    obtain ⟨v, hv⟩ := List.length_eq_one_iff.mp hv
    obtain ⟨hpairs, hlen⟩ := ih fun f hf => h f (List.mem_cons_of_mem _ hf)
    have hs' : f.strings = [n, v] := by simp [HeaderFragments.strings, hn, hv]
    constructor
    · simp [hs', HttpParserImpl.headerPairs, hpairs, HeaderFragments.pair, hn, hv]
    · simp only [List.flatMap_cons, hs', List.length_append, hlen, List.length_cons,
        List.length_nil]
      omega

theorem lastWritten_body (hbody : m.body.length ≤ 1) (hcontent : m.body = [] → content = []) :
    lastWritten some content m.body = m.body.flatten := by
  cases hb : m.body with
  | nil => simp [lastWritten, hcontent hb]
  | cons b bs =>
    have hbs : bs = [] := by
      simp only [hb, List.length_cons] at hbody
      exact List.length_eq_zero_iff.mp (by omega)
    simp [hbs, lastWritten]

theorem Whole.stored (h : m.Whole) (hcontent : m.body = [] → content = [])
    (headers : AssocMap Bytes Bytes) : m.Stored headers content := by
  obtain ⟨hsingle, hbody⟩ := whole_iff.mp h
  obtain ⟨hpairs, hlen⟩ := headerPairs_of_single hsingle
  have hstrings : HttpParserImpl.headerPairs m.strings = m.pairs := hpairs
  refine ⟨?_, lastWritten_body hbody hcontent, fun n hn => ?_⟩
  · have : m.strings.length = 2 * m.fields.length := hlen
    omega
  · rw [writes, hstrings, AssocMap.assignAll_append]
    exact AssocMap.find_assignAll_congr (.inl hn)

/-- Whatever is found under a name of the message was written, or stored as a fragment. -/
theorem Stored.mem_strings {n v : Bytes} (h : m.Stored .empty content) (hn : (n, v) ∈ m.pairs)
    (hne : n ≠ bytes "Content-Length") :
    n ∈ m.strings ∧ ∃ v', (n, v') ∈ m.pairs ∧ v' ∈ m.strings := by
  have hmem : n ∈ m.pairs.map Prod.fst := List.mem_map_of_mem (f := Prod.fst) hn
  have hsome : ((AssocMap.empty.assignAll m.pairs).find n).isSome := by
    rw [AssocMap.find_isSome_iff, AssocMap.mem_keys_assignAll]
    exact .inl hmem
  obtain ⟨v', hv'⟩ := Option.isSome_iff_exists.mp hsome
  have hstored : (AssocMap.empty.assignAll m.writes).find n = some v' :=
    (h.2.2 n hmem).trans hv'
  rcases AssocMap.mem_or_find_of_find_assignAll hstored with hw | hw
  · rcases List.mem_append.mp hw with hb | hp
    · obtain ⟨b, -, he⟩ := List.mem_map.mp hb
      exact absurd (Prod.mk.inj he).1.symm hne
    · obtain ⟨h1, h2⟩ := HttpParserImpl.mem_of_mem_headerPairs hp
      rcases AssocMap.mem_or_find_of_find_assignAll hv' with hpair | hpair
      · exact ⟨h1, v', hpair, h2⟩
      · simp at hpair
  · simp at hw

theorem lastWritten_replicate (content b : Bytes) (k : Nat) :
    lastWritten some content (List.replicate (k + 1) b) = b := by
  induction k generalizing content with
  | zero => rfl
  | succ k ih =>
    rw [List.replicate_succ, lastWritten_cons]
    exact ih _

theorem body_of_stored (h : (m.refill (fun _ => [97]) [98] [99]).Stored .empty content) :
    m.body.length ≤ 1 := by
  have hc := h.2.1
  cases hk : m.body.length with
  | zero => omega
  | succ k =>
    simp only [refill, hk, lastWritten_replicate] at hc
    have hlen := congrArg List.length hc
    simp at hlen
    omega

theorem mem_strings_refill {name : HeaderFragments → Bytes} {value body s : Bytes}
    (h : s ∈ (m.refill name value body).strings) : s = value ∨ ∃ f ∈ m.fields, s = name f := by
  simp only [strings, fields_refill, List.mem_flatMap, List.mem_map] at h
  obtain ⟨f, ⟨g, hg, rfl⟩, hs⟩ := h
  rcases List.mem_append.mp hs with hs | hs
  · exact .inr ⟨g, hg, (List.mem_replicate.mp hs).2⟩
  · exact .inl (List.mem_replicate.mp hs).2

theorem pair_refill_mem (name : HeaderFragments → Bytes) (value body : Bytes) {f : HeaderFragments}
    (hf : f ∈ m.fields) :
    ((List.replicate f.name.length (name f)).flatten,
      (List.replicate f.value.length value).flatten) ∈ (m.refill name value body).pairs := by
  rw [pairs, fields_refill, List.map_map]
  exact List.mem_map_of_mem (f := HeaderFragments.pair ∘ HeaderFragments.refill name value) hf

theorem flatten_replicate_singleton (k : Nat) (c : UInt8) :
    (List.replicate k [c]).flatten = List.replicate k c := by simp

theorem replicate_ne_contentLength (k : Nat) :
    List.replicate k (97 : UInt8) ≠ bytes "Content-Length" := by
  intro h
  have h67 : (67 : UInt8) ∈ List.replicate k (97 : UInt8) := by
    rw [h]
    decide
  exact absurd (List.mem_replicate.mp h67).2 (by decide)

theorem names_of_stored (h : (m.refill (fun _ => [97]) [98] [99]).Stored .empty content) :
    ∀ f ∈ m.fields, f.name.length = 1 := by
  intro f hf
  have hmem := pair_refill_mem (fun _ => [97]) [98] [99] hf
  rw [flatten_replicate_singleton] at hmem
  obtain ⟨hn, -⟩ := h.mem_strings hmem (replicate_ne_contentLength _)
  rcases mem_strings_refill hn with he | ⟨g, -, he⟩
  · have hlen := congrArg List.length he
    simpa using hlen
  · have hlen := congrArg List.length he
    simpa using hlen

/-- The names tell the number of fragments of the value. -/
theorem values_of_stored (hnames : ∀ f ∈ m.fields, f.name.length = 1)
    (h : (m.refill (fun f => List.replicate f.value.length 97) [98] [99]).Stored .empty content) :
    ∀ f ∈ m.fields, f.value.length = 1 := by
  intro f hf
  have hmem := pair_refill_mem (fun f => List.replicate f.value.length 97) [98] [99] hf
  rw [hnames f hf, flatten_replicate_singleton, List.replicate_one, List.flatten_singleton] at hmem
  obtain ⟨-, v', hv', hstr⟩ := h.mem_strings hmem (replicate_ne_contentLength _)
  rw [pairs, fields_refill, List.map_map] at hv'
  obtain ⟨g, hg, he⟩ := List.mem_map.mp hv'
  obtain ⟨hname, rfl⟩ := Prod.mk.inj he
  simp only [HeaderFragments.refill, hnames g hg, List.replicate_one, List.flatten_singleton] at hname
  have hgf : g.value.length = f.value.length := by simpa using congrArg List.length hname
  have hpos : 0 < g.value.length := List.length_pos_iff.mpr g.value_ne
  rcases mem_strings_refill hstr with hv | ⟨g', -, hv⟩
  · have hlen := congrArg List.length hv
    simp [HeaderFragments.refill] at hlen
    omega
  · have h98 : (98 : UInt8) ∈ List.replicate g'.value.length (97 : UInt8) := by
      rw [← hv]
      simpa [HeaderFragments.refill] using g.value_ne
    exact absurd (List.mem_replicate.mp h98).2 (by decide)

end MessageFragments

/-- A library that makes the callbacks of `m` for every buffer. -/
def HttpLib.delivering (m : MessageFragments) : HttpLib where
  scan _ _ := { events := m.events.map fun e => (e, 0) }
  parseUrl _ := none
  curlUnescape := id

theorem HttpLib.delivering_delivers (m : MessageFragments) (ty : ParserType) :
    ((HttpLib.delivering m).scan ty []).Delivers m 0 := by
  refine ⟨?_, rfl⟩
  simp [HttpLib.delivering, Function.comp_def]

/-- However the texts are chosen, messages that come in these numbers of fragments are stored
right exactly if there is one fragment for each name and each value and at most one for the
body, which has to come if the object has a content. -/
theorem fragments_stored_iff (m₀ : MessageFragments) (content : Bytes) :
    (∀ (L : HttpLib) (buf : Bytes) (m : MessageFragments), m.counts = m₀.counts →
      ((L.scan .request buf).Delivers m buf.length →
        ∀ r : HttpRequest, r.content = content → RequestStored L buf m r) ∧
      ((L.scan .response buf).Delivers m buf.length →
        ∀ r : HttpResponse, r.content = content → ResponseStored L buf m r)) ↔
    m₀.Whole ∧ (m₀.body = [] → content = []) := by
  constructor
  · intro hall
    have hstored (m : MessageFragments) (hm : m.counts = m₀.counts) : m.Stored .empty content := by
      have hd := HttpLib.delivering_delivers m .request
      exact (requestStored_iff hd { content := content }).mp
        ((hall (.delivering m) [] m hm).1 hd { content := content } rfl)
    have hsame := hstored _ (m₀.counts_refill (fun _ => [97]) [98] [99])
    have hnames := MessageFragments.names_of_stored hsame
    have hvalues := MessageFragments.values_of_stored hnames (hstored _ (m₀.counts_refill _ _ _))
    refine ⟨MessageFragments.whole_iff.mpr ⟨fun f hf => ?_, MessageFragments.body_of_stored hsame⟩,
      fun hb => ?_⟩
    · exact Prod.ext (hnames f hf) (hvalues f hf)
    · have hc := (hstored m₀ rfl).2.1
      simpa [hb, lastWritten] using hc
  · rintro ⟨hwhole, hcontent⟩ L buf m hm
    have hm' : m.Whole := by rwa [MessageFragments.Whole, hm]
    have hlen : m.body.length = m₀.body.length := congrArg (fun c => c.2.2) hm
    have hc : m.body = [] → content = [] := fun hb =>
      hcontent (List.length_eq_zero_iff.mp (by rw [← hlen, hb, List.length_nil]))
    refine ⟨fun hd r hr => ?_, fun hd r hr => ?_⟩
    · exact (requestStored_iff hd r).mpr (hr ▸ hm'.stored (hr ▸ hc) r.headers)
    · exact (responseStored_iff hd r).mpr (hr ▸ hm'.stored (hr ▸ hc) r.headers)

/-- A folded `Host` line gives an odd number of strings; of a body in two chunks the second is
stored. -/
theorem fragments_lost :
    (HttpParserImpl.parseHttpRequest
        (.delivering { headers := [⟨[bytes "Host"], [bytes "a", bytes "b"], by simp, by simp⟩] })
        [] {}).1 = -2 ∧
    HttpParserImpl.parseHttpResponse
        (.delivering { headers := [⟨[bytes "Host"], [bytes "a", bytes "b"], by simp, by simp⟩] })
        [] {} = none ∧
    (HttpParserImpl.parseHttpRequest (.delivering { body := [bytes "he", bytes "llo"] }) [] {}).2.content
      = bytes "llo" ∧
    ¬ ∀ (L : HttpLib) (buf : Bytes) (m : MessageFragments) (r : HttpRequest),
      (L.scan .request buf).Delivers m buf.length → RequestStored L buf m r := by
  refine ⟨by decide, by decide, by decide, fun hall => ?_⟩
  have hstored := hall (.delivering { body := [bytes "he", bytes "llo"] }) [] _ {}
    (HttpLib.delivering_delivers _ _)
  exact absurd hstored.2.1 (by decide)

end Tinyco
