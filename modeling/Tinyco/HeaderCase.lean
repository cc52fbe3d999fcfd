import Tinyco.HeaderRecasing

/-! What of a parsed request depends on the case of its field names. -/

namespace Tinyco

open HttpParserImpl

/-- The header `name` after assignments, of which the last one comes first. -/
def lastValue (name : Bytes) (init : Option Bytes) : List (Bytes × Bytes) → Option Bytes
  | [] => init
  | e :: es => if e.1 = name then some e.2 else lastValue name init es

theorem find_assignAll_eq_lastValue (m : AssocMap Bytes Bytes) (kvs : List (Bytes × Bytes))
    (name : Bytes) : (m.assignAll kvs).find name = lastValue name (m.find name) kvs.reverse := by
  induction kvs using List.reverseRecOn with
  | nil => rfl
  | append_singleton kvs e ih =>
    rw [AssocMap.assignAll_append, List.reverse_append, List.reverse_singleton,
      List.singleton_append, lastValue, ← ih]
    exact AssocMap.find_assign (m.assignAll kvs) e.1 name e.2

def HeaderString.Always (P : Bytes → Prop) : HeaderString → Prop
  | .name v => ∀ v' : Bytes, v.map tolower = v'.map tolower → P v'
  | .value v => P v

theorem HeaderString.always_iff {P : Bytes → Prop} {y : HeaderString} :
    y.Always P ↔ ∀ y', y.Recased y' → P y'.text := by
  cases y with
  | name v =>
    constructor
    · intro h y' hy
      cases hy with
      | name hv => exact h _ hv
    · intro h v' hv
      exact h (.name v') (.name hv)
  | value v =>
    constructor
    · intro h y' hy
      cases hy
      exact h
    · intro h
      exact h (.value v) (.value v)

variable {β : Type*}

/-- Whatever the case of the names, `f` gives `w` for the header `name`: the pairs, last one first,
that can be stored under it have values that give `w`, back to one that is stored under it in any
case or to what was there before. -/
def Settled (f : Option Bytes → β) (w : β) (name : Bytes) (init : Option Bytes) :
    List (HeaderString × HeaderString) → Prop
  | [] => f init = w
  | (.value k, y) :: ps =>
    if k = name then y.Always fun v => f (some v) = w else Settled f w name init ps
  | (.name k, y) :: ps =>
    (k.map tolower = name.map tolower → y.Always fun v => f (some v) = w) ∧
      Settled f w name init ps

theorem map_tolower_idem (s : Bytes) : (s.map tolower).map tolower = s.map tolower := by
  have hbyte (c : UInt8) : tolower (tolower c) = tolower c := by
    by_cases hc : 65 ≤ c ∧ c ≤ 90
    · have hout : ¬ (65 ≤ c + 32 ∧ c + 32 ≤ 90) := by
        simp only [UInt8.le_iff_toNat_le, UInt8.toNat_add, UInt8.toNat_ofNat] at hc ⊢
        omega
      rw [tolower, tolower, if_pos hc, if_neg hout]
    · rw [tolower, tolower, if_neg hc, if_neg hc]
  simp [hbyte]

theorem forall_forall₂_cons {α : Type*} {R : α → α → Prop} {a : α} {l : List α}
    {Q : List α → Prop} :
    (∀ l', List.Forall₂ R (a :: l) l' → Q l') ↔
      ∀ b l', R a b → List.Forall₂ R l l' → Q (b :: l') := by
  constructor
  · intro h b l' hab hl
    exact h _ (.cons hab hl)
  · intro h l' hl
    obtain ⟨b, l', hab, htail, rfl⟩ := List.forall₂_cons_left_iff.mp hl
    exact h b l' hab htail

def AlwaysGives (f : Option Bytes → β) (w : β) (name : Bytes) (init : Option Bytes)
    (ps : List (HeaderString × HeaderString)) : Prop :=
  ∀ qs, List.Forall₂ PairRecased ps qs → f (lastValue name init (qs.map pairText)) = w

section AlwaysGives

variable {f : Option Bytes → β} {w : β} {name k : Bytes} {init : Option Bytes} {y : HeaderString}
  {ps qs : List (HeaderString × HeaderString)}

theorem lastValue_pair_eq (x : HeaderString) (h : x.text = name) :
    lastValue name init (((x, y) :: qs).map pairText) = some y.text := if_pos h

theorem lastValue_pair_ne (x : HeaderString) (h : x.text ≠ name) :
    lastValue name init (((x, y) :: qs).map pairText) = lastValue name init (qs.map pairText) :=
  if_neg h

theorem forall₂_recased_self : List.Forall₂ PairRecased ps ps :=
  List.forall₂_same.mpr fun q _ => .refl q

theorem alwaysGives_value_eq :
    AlwaysGives f w name init ((.value name, y) :: ps) ↔ y.Always fun v => f (some v) = w := by
  rw [AlwaysGives, forall_forall₂_cons, HeaderString.always_iff]
  constructor
  · intro h y' hy
    have hh := h (.value name, y') ps ⟨.value name, hy⟩ forall₂_recased_self
    rwa [lastValue_pair_eq (.value name) (rfl : _ = name)] at hh
  · rintro h ⟨x', y'⟩ qs ⟨hx, hy⟩ -
    cases hx
    rw [lastValue_pair_eq (.value name) (rfl : _ = name)]
    exact h y' hy

theorem alwaysGives_value_ne (hk : k ≠ name) :
    AlwaysGives f w name init ((.value k, y) :: ps) ↔ AlwaysGives f w name init ps := by
  rw [AlwaysGives, forall_forall₂_cons]
  constructor
  · intro h qs hqs
    have hh := h (.value k, y) qs (.refl _) hqs
    rwa [lastValue_pair_ne (.value k) hk] at hh
  · rintro h ⟨x', y'⟩ qs ⟨hx, -⟩ hqs
    cases hx
    rw [lastValue_pair_ne (.value k) hk]
    exact h qs hqs

theorem alwaysGives_name (hname : name.map tolower ≠ name) :
    AlwaysGives f w name init ((.name k, y) :: ps) ↔
      (k.map tolower = name.map tolower → y.Always fun v => f (some v) = w) ∧
        AlwaysGives f w name init ps := by
  rw [AlwaysGives, forall_forall₂_cons, HeaderString.always_iff]
  constructor
  · intro h
    refine ⟨fun hk y' hy => ?_, fun qs hqs => ?_⟩
    · have hh := h (.name name, y') ps ⟨.name hk, hy⟩ forall₂_recased_self
      rwa [lastValue_pair_eq (.name name) (rfl : _ = name)] at hh
    · have hne : k.map tolower ≠ name := by
        intro heq
        rw [← heq, map_tolower_idem] at hname
        exact hname rfl
      have hh := h (.name (k.map tolower), y) qs ⟨.name (map_tolower_idem k).symm, .refl y⟩ hqs
      rwa [lastValue_pair_ne (.name _) hne] at hh
  · rintro ⟨hhit, hrest⟩ ⟨x', y'⟩ qs ⟨hx, hy⟩ hqs
    cases hx with
    | @name _ k' hk =>
      by_cases heq : k' = name
      · rw [lastValue_pair_eq (.name k') heq]
        exact hhit (heq ▸ hk) y' hy
      · rw [lastValue_pair_ne (.name k') heq]
        exact hrest qs hqs

theorem alwaysGives_iff_settled (f : Option Bytes → β) (w : β) (name : Bytes)
    (hname : name.map tolower ≠ name) (init : Option Bytes)
    (ps : List (HeaderString × HeaderString)) :
    AlwaysGives f w name init ps ↔ Settled f w name init ps := by
  induction ps with
  | nil => simp [AlwaysGives, lastValue, Settled]
  | cons p ps ih =>
    obtain ⟨x, y⟩ := p
    cases x with
    | value k =>
      rw [Settled]
      split_ifs with hk
      · rw [hk, alwaysGives_value_eq]
      · rw [alwaysGives_value_ne hk, ih]
    | name k => rw [Settled, alwaysGives_name hname, ih]

end AlwaysGives

namespace ParserScan

variable {sc sc' : ParserScan}

def lastPairs (sc : ParserScan) : List (HeaderString × HeaderString) :=
  (stringPairs sc.strings).reverse

/-- What `SetContent` leaves in `Content-Length`. -/
def lengthSet (sc : ParserScan) : Option Bytes := sc.bodies.getLast?.map fun b => decimal b.length

def header (sc : ParserScan) (name : Bytes) : Option Bytes :=
  (AssocMap.empty.assignAll sc.writtenHeaders).find name

theorem header_eq_lastValue (sc : ParserScan) (name : Bytes) :
    sc.header name = lastValue name ((AssocMap.empty.assignAll (sc.bodies.map fun b =>
      (bytes "Content-Length", decimal b.length))).find name) (sc.lastPairs.map pairText) := by
  rw [header, writtenHeaders, AssocMap.assignAll_append, find_assignAll_eq_lastValue,
    headerStrings_eq, headerPairs_map_text, ← List.map_reverse]
  rfl

theorem header_connection (sc : ParserScan) : sc.header (bytes "Connection") =
    lastValue (bytes "Connection") none (sc.lastPairs.map pairText) := by
  rw [header_eq_lastValue, AssocMap.find_assignAll_of_not_mem, AssocMap.find_empty]
  intro hmem
  obtain ⟨e, he, hk⟩ := List.mem_map.mp hmem
  obtain ⟨b, -, rfl⟩ := List.mem_map.mp he
  exact absurd (show bytes "Content-Length" = bytes "Connection" from hk) (by decide)

theorem header_contentLength (sc : ParserScan) : sc.header (bytes "Content-Length") =
    lastValue (bytes "Content-Length") sc.lengthSet (sc.lastPairs.map pairText) := by
  rw [header_eq_lastValue, find_assignAll_eq_lastValue, lengthSet]
  congr 1
  rcases List.eq_nil_or_concat sc.bodies with hb | ⟨bs, b, hb⟩
  · rw [hb]
    rfl
  · rw [hb]
    simp [lastValue]

theorem Recased.lastPairs (h : sc.Recased sc') :
    List.Forall₂ PairRecased sc.lastPairs sc'.lastPairs :=
  List.forall₂_reverse_iff.mpr (forall₂_stringPairs h.strings)

theorem exists_recased_lastPairs (heven : sc.headerStrings.length % 2 = 0)
    {qs : List (HeaderString × HeaderString)} (h : List.Forall₂ PairRecased sc.lastPairs qs) :
    ∃ sc', sc.Recased sc' ∧ sc'.lastPairs = qs := by
  rw [headerStrings_eq, List.length_map] at heven
  rw [ParserScan.lastPairs, ← List.reverse_reverse qs, List.forall₂_reverse_iff] at h
  obtain ⟨us, hus, hqs⟩ := exists_forall₂_stringPairs heven h
  obtain ⟨sc', hsc, rfl⟩ := sc.exists_recased hus
  exact ⟨sc', hsc, by rw [ParserScan.lastPairs, hqs, List.reverse_reverse]⟩

theorem Recased.accepts (h : sc.Recased sc') {n : Nat} (hsc : sc.Accepts n) : sc'.Accepts n := by
  refine ⟨h.nparsed.trans hsc.1, ?_⟩
  have hlen := hsc.2
  rw [headerStrings_eq, List.length_map] at hlen ⊢
  rwa [← h.strings.length_eq]

end ParserScan

/-- A buffer with another case of the field names makes the library report those names. -/
def HttpLib.CaseBlind (L : HttpLib) : Prop :=
  ∀ buf sc', (L.scan .request buf).Accepts buf.length → (L.scan .request buf).Recased sc' →
    ∃ buf', buf'.length = buf.length ∧ L.scan .request buf' = sc'

structure SameConnection (r r' : HttpRequest) : Prop where
  keepalive : r'.keepalive = r.keepalive
  connection : r'.getHeader (bytes "Connection") = r.getHeader (bytes "Connection")
  contentLength : r'.getHeader (bytes "Content-Length") = r.getHeader (bytes "Content-Length")

theorem keepaliveAfter_new_inj {a b : Option Bytes} (hget : a.getD [] = b.getD [])
    (hkeep : keepaliveAfter a false = keepaliveAfter b false) : a = b := by
  have hempty : keepaliveAfter (some []) false = false := by decide
  cases a with
  | none =>
    cases b with
    | none => rfl
    | some v =>
      obtain rfl : [] = v := hget
      rw [hempty] at hkeep
      cases hkeep
  | some v =>
    cases b with
    | none =>
      obtain rfl : v = [] := hget
      rw [hempty] at hkeep
      cases hkeep
    | some v' => exact congrArg some hget

variable {L : HttpLib} {buf buf' : Bytes}

theorem sameConnection_iff (h : (L.scan .request buf).Accepts buf.length)
    (h' : (L.scan .request buf').Accepts buf'.length) :
    SameConnection (parseHttpRequest L buf {}).2 (parseHttpRequest L buf' {}).2 ↔
      (L.scan .request buf').header (bytes "Connection") =
          (L.scan .request buf).header (bytes "Connection") ∧
        ((L.scan .request buf').header (bytes "Content-Length")).getD [] =
          ((L.scan .request buf).header (bytes "Content-Length")).getD [] := by
  rw [parseHttpRequest_eq {} h, parseHttpRequest_eq {} h', setKeepAlive_eq, setKeepAlive_eq]
  constructor
  · rintro ⟨hkeep, hconn, hlen⟩
    exact ⟨keepaliveAfter_new_inj hconn hkeep, hlen⟩
  · rintro ⟨hconn, hlen⟩
    exact ⟨congrArg (keepaliveAfter · false) hconn, congrArg (Option.getD · []) hconn, hlen⟩

/-- For a request that is accepted into a new object, the case of the field names does not matter
exactly when both headers are settled. -/
theorem recased_sameConnection_iff (L : HttpLib) (hL : L.CaseBlind) (buf : Bytes)
    (hbuf : (parseHttpRequest L buf {}).1 = 0) :
    (∀ buf', buf'.length = buf.length → (L.scan .request buf).Recased (L.scan .request buf') →
        (parseHttpRequest L buf' {}).1 = 0 ∧
          SameConnection (parseHttpRequest L buf {}).2 (parseHttpRequest L buf' {}).2) ↔
      (∃ w, Settled id w (bytes "Connection") none (L.scan .request buf).lastPairs) ∧
        ∃ w, Settled (·.getD []) w (bytes "Content-Length") (L.scan .request buf).lengthSet
          (L.scan .request buf).lastPairs := by
  have hacc := parseHttpRequest_zero_iff.mp hbuf
  have hconn (w : Option Bytes) := alwaysGives_iff_settled id w (bytes "Connection") (by decide)
    none (L.scan .request buf).lastPairs
  have hlen (w : Bytes) := alwaysGives_iff_settled (·.getD []) w (bytes "Content-Length")
    (by decide) (L.scan .request buf).lengthSet (L.scan .request buf).lastPairs
  constructor
  · intro h
    have hsame (qs : List (HeaderString × HeaderString))
        (hqs : List.Forall₂ PairRecased (L.scan .request buf).lastPairs qs) :
        ∃ sc' : ParserScan, sc'.lastPairs = qs ∧ sc'.lengthSet = (L.scan .request buf).lengthSet ∧
          sc'.header (bytes "Connection") = (L.scan .request buf).header (bytes "Connection") ∧
          (sc'.header (bytes "Content-Length")).getD [] =
            ((L.scan .request buf).header (bytes "Content-Length")).getD [] := by
      obtain ⟨sc', hre, rfl⟩ := ParserScan.exists_recased_lastPairs hacc.2 hqs
      obtain ⟨buf', hsize, rfl⟩ := hL buf sc' hacc hre
      have hacc' : (L.scan .request buf').Accepts buf'.length := hsize ▸ hre.accepts hacc
      have heq := (sameConnection_iff hacc hacc').mp (h buf' hsize hre).2
      exact ⟨_, rfl, by rw [ParserScan.lengthSet, hre.bodies]; rfl, heq⟩
    refine ⟨⟨(L.scan .request buf).header (bytes "Connection"), (hconn _).mp fun qs hqs => ?_⟩,
      ⟨((L.scan .request buf).header (bytes "Content-Length")).getD [], (hlen _).mp fun qs hqs => ?_⟩⟩
    · obtain ⟨sc', rfl, -, heq, -⟩ := hsame qs hqs
      rw [← heq, ParserScan.header_connection, id]
    · obtain ⟨sc', rfl, hset, -, heq⟩ := hsame qs hqs
      rw [← heq, ParserScan.header_contentLength, hset]
  · rintro ⟨⟨w, hw⟩, ⟨w', hw'⟩⟩ buf' hsize hre
    have hacc' : (L.scan .request buf').Accepts buf'.length := hsize ▸ hre.accepts hacc
    refine ⟨parseHttpRequest_zero_iff.mpr hacc', (sameConnection_iff hacc hacc').mpr ⟨?_, ?_⟩⟩
    · rw [ParserScan.header_connection, ParserScan.header_connection]
      exact ((hconn w).mpr hw _ hre.lastPairs).trans ((hconn w).mpr hw _ forall₂_recased_self).symm
    · have hset : (L.scan .request buf').lengthSet = (L.scan .request buf).lengthSet := by
        rw [ParserScan.lengthSet, hre.bodies]
        rfl
      rw [ParserScan.header_contentLength, ParserScan.header_contentLength, hset]
      exact ((hlen w').mpr hw' _ hre.lastPairs).trans ((hlen w').mpr hw' _ forall₂_recased_self).symm

/-- Where every name is followed by one value, a header is settled if all the pairs that can be
stored under it repeat what is there without them. -/
theorem settled_iff_of_unfolded (f : Option Bytes → β) (w : β) (name : Bytes) (init : Option Bytes)
    {ps : List (HeaderString × HeaderString)} (h : ∀ p ∈ ps, ∃ k v, p = (.name k, .value v)) :
    Settled f w name init ps ↔ f init = w ∧
      ∀ p ∈ ps, p.1.text.map tolower = name.map tolower → f (some p.2.text) = w := by
  induction ps with
  | nil => simp [Settled]
  | cons p ps ih =>
    obtain ⟨k, v, rfl⟩ := h p (by simp)
    rw [Settled, ih fun q hq => h q (by simp [hq]), List.forall_mem_cons]
    exact and_left_comm

def hostBuffer (name : Bytes) : Bytes :=
  bytes "GET / HTTP/1.1\r\n" ++ name ++ bytes ": x\r\n\r\n"

def hostBufferScan (name : Bytes) : ParserScan where
  events := [(.url (bytes "/"), 5), (.headerField name, 20), (.headerValue (bytes "x"), 23),
    (.headersComplete, 26), (.messageComplete, 26)]
  nparsed := 27
  method := 1

/-- It reads the request with the one field `Host`, whatever the case of its name. -/
def hostLib : HttpLib where
  scan _ buf :=
    let name := slice buf (16, 4)
    if buf = hostBuffer name ∧ name.map tolower = bytes "host" then hostBufferScan name else {}
  parseUrl s := if s = bytes "/" then some { path := some (0, 1) } else none
  curlUnescape := id

theorem hostLib_scan {name : Bytes} (h : name.map tolower = bytes "host") (ty : ParserType) :
    hostLib.scan ty (hostBuffer name) = hostBufferScan name := by
  have hlen : name.length = 4 := by
    rw [← List.length_map tolower, h]
    decide
  have hname : slice (hostBuffer name) (16, 4) = name := by
    rw [hostBuffer, List.append_assoc, slice, List.drop_left' (by decide), List.take_left' hlen]
  simp only [hostLib, hname, h, and_self, if_true]

theorem hostBufferScan_recased {name : Bytes} {sc' : ParserScan}
    (h : (hostBufferScan name).Recased sc') :
    ∃ name', name'.map tolower = name.map tolower ∧ sc' = hostBufferScan name' := by
  obtain ⟨events, nparsed, method, statusCode⟩ := sc'
  obtain ⟨hevents, hn, hm, hs⟩ := h
  cases hn
  cases hm
  cases hs
  simp only [hostBufferScan, List.forall₂_cons_left_iff, List.forall₂_nil_left_iff] at hevents
  obtain ⟨⟨e₁, o₁⟩, _, ⟨h₁, rfl⟩, ⟨⟨e₂, o₂⟩, _, ⟨h₂, rfl⟩, ⟨⟨e₃, o₃⟩, _, ⟨h₃, rfl⟩,
    ⟨⟨e₄, o₄⟩, _, ⟨h₄, rfl⟩, ⟨⟨e₅, o₅⟩, _, ⟨h₅, rfl⟩, rfl, rfl⟩, rfl⟩, rfl⟩, rfl⟩, rfl⟩ := hevents
  cases h₁
  cases h₃
  cases h₄
  cases h₅
  cases h₂ with
  | refl => exact ⟨name, rfl, rfl⟩
  | @name _ name' h => exact ⟨name', h.symm, rfl⟩

theorem length_hostBuffer {name name' : Bytes} (h : name'.map tolower = name.map tolower) :
    (hostBuffer name').length = (hostBuffer name).length := by
  have hlen : name'.length = name.length := by simpa using congrArg List.length h
  simp [hostBuffer, hlen]

theorem hostLib_caseBlind : hostLib.CaseBlind := by
  intro buf sc' hacc hre
  by_cases hbuf : buf = hostBuffer (slice buf (16, 4)) ∧
      (slice buf (16, 4)).map tolower = bytes "host"
  · obtain ⟨hbuf, hhost⟩ := hbuf
    rw [hbuf, hostLib_scan hhost] at hre
    obtain ⟨name', hname, rfl⟩ := hostBufferScan_recased hre
    refine ⟨hostBuffer name', ?_, hostLib_scan (hname.trans hhost) _⟩
    rw [length_hostBuffer hname, ← hbuf]
  · have hscan : hostLib.scan .request buf = {} := if_neg hbuf
    rw [hscan] at hre
    obtain ⟨events, nparsed, method, statusCode⟩ := sc'
    obtain ⟨hevents, hn, hm, hs⟩ := hre
    cases hn
    cases hm
    cases hs
    obtain rfl := List.forall₂_nil_left_iff.mp hevents
    exact ⟨buf, rfl, hscan⟩

theorem host_recased_sameConnection :
    hostLib.CaseBlind ∧ (parseHttpRequest hostLib (hostBuffer (bytes "Host")) {}).1 = 0 ∧
      ∀ buf', buf'.length = (hostBuffer (bytes "Host")).length →
        (hostLib.scan .request (hostBuffer (bytes "Host"))).Recased (hostLib.scan .request buf') →
        (parseHttpRequest hostLib buf' {}).1 = 0 ∧
          SameConnection (parseHttpRequest hostLib (hostBuffer (bytes "Host")) {}).2
            (parseHttpRequest hostLib buf' {}).2 := by
  have hscan : hostLib.scan .request (hostBuffer (bytes "Host")) = hostBufferScan (bytes "Host") :=
    hostLib_scan (by decide) _
  have hzero : (parseHttpRequest hostLib (hostBuffer (bytes "Host")) {}).1 = 0 :=
    parseHttpRequest_zero_iff.mpr (by rw [hscan]; exact ⟨by decide, by decide⟩)
  have hpairs : (hostBufferScan (bytes "Host")).lastPairs =
      [(.name (bytes "Host"), .value (bytes "x"))] := rfl
  refine ⟨hostLib_caseBlind, hzero, ?_⟩
  refine (recased_sameConnection_iff hostLib hostLib_caseBlind _ hzero).mpr ?_
  rw [hscan, hpairs]
  refine ⟨⟨none, ?_⟩, ⟨[], ?_⟩⟩
  · exact (settled_iff_of_unfolded _ _ _ _ (by simp)).mpr ⟨rfl, by simp; decide⟩
  · exact (settled_iff_of_unfolded _ _ _ _ (by simp)).mpr ⟨rfl, by simp; decide⟩

def closeBufferScan (name : Bytes) : ParserScan where
  events := [(.url (bytes "/"), 5), (.headerField name, 26), (.headerValue (bytes "close"), 33),
    (.headersComplete, 36), (.messageComplete, 36)]
  nparsed := 37
  method := 1

def closeBuffer (name : Bytes) : Bytes :=
  bytes "GET / HTTP/1.1\r\n" ++ name ++ bytes ": close\r\n\r\n"

def closeBufferLib : HttpLib :=
  .ofTables ([bytes "Connection", bytes "connection"].map fun name =>
    ((.request, closeBuffer name), closeBufferScan name)) []

/-- With its name in lower case the wish to close the connection is not honoured. -/
theorem lower_case_close_ignored :
    (parseHttpRequest closeBufferLib (closeBuffer (bytes "Connection")) {}).1 = 0 ∧
      (closeBufferLib.scan .request (closeBuffer (bytes "Connection"))).Recased
        (closeBufferLib.scan .request (closeBuffer (bytes "connection"))) ∧
      ¬ SameConnection (parseHttpRequest closeBufferLib (closeBuffer (bytes "Connection")) {}).2
        (parseHttpRequest closeBufferLib (closeBuffer (bytes "connection")) {}).2 := by
  have hupper : closeBufferLib.scan .request (closeBuffer (bytes "Connection")) =
      closeBufferScan (bytes "Connection") := by decide
  have hlower : closeBufferLib.scan .request (closeBuffer (bytes "connection")) =
      closeBufferScan (bytes "connection") := by decide
  refine ⟨by decide, ?_, fun h => absurd h.keepalive (by decide)⟩
  rw [hupper, hlower]
  refine ⟨?_, rfl, rfl, rfl⟩
  exact .cons ⟨.refl _, rfl⟩ (.cons ⟨.name (by decide), rfl⟩
    (.cons ⟨.refl _, rfl⟩ (.cons ⟨.refl _, rfl⟩ (.cons ⟨.refl _, rfl⟩ .nil))))

end Tinyco
