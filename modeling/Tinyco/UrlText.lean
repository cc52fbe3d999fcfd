import Tinyco.ParsedMessage

/-! A URL as the text of its components, the offsets `http_parser_parse_url` reports for them and
the request target that `ParseUrl` makes of a URL without a fragment. -/

namespace Tinyco

open HttpParserImpl

theorem slice_append (a t b : Bytes) : slice (a ++ t ++ b) (a.length, t.length) = t := by
  simp [slice]

/-- The components of a URL; a bracketed host is an IPv6 address. -/
structure UrlText where
  schema : Option Bytes := none
  userinfo : Option Bytes := none
  bracketed : Bool := false
  host : Bytes := []
  port : Option Bytes := none
  path : Bytes := []
  query : Option Bytes := none
  hashes : ℕ := 0
  fragment : Bytes := []

namespace UrlText

variable {u : UrlText}

def schemaText (u : UrlText) : Bytes := u.schema.elim [] (· ++ bytes "://")

def beforeHost (u : UrlText) : Bytes :=
  u.schemaText ++ u.userinfo.elim [] (· ++ bytes "@") ++ if u.bracketed then bytes "[" else []

def beforePort (u : UrlText) : Bytes :=
  u.beforeHost ++ u.host ++ if u.bracketed then bytes "]" else []

def beforePath (u : UrlText) : Bytes := u.beforePort ++ u.port.elim [] (58 :: ·)

def queryText (u : UrlText) : Bytes := u.query.elim [] (63 :: ·)

def toBytes (u : UrlText) : Bytes :=
  u.beforePath ++ u.path ++ u.queryText ++ List.replicate u.hashes 35 ++ u.fragment

/-- An empty component is not reported. -/
def field (before text : Bytes) : Option (ℕ × ℕ) :=
  if text = [] then none else some (before.length, text.length)

def fields (u : UrlText) : UrlFields where
  schema := u.schema.map fun t => (0, t.length)
  userinfo := field u.schemaText (u.userinfo.getD [])
  host := field u.beforeHost u.host
  port := field (u.beforePort ++ bytes ":") (u.port.getD [])
  path := field u.beforePath u.path
  query := field (u.beforePath ++ u.path ++ bytes "?") (u.query.getD [])
  fragment := field (u.beforePath ++ u.path ++ u.queryText ++ List.replicate u.hashes 35) u.fragment

/-- What is known of the URLs the library accepts: a schema is made of letters, without one there
is only a path, a port is a number below 65536 and a fragment follows a `#`. -/
structure WellFormed (u : UrlText) : Prop where
  schema_colon : ∀ t, u.schema = some t → 58 ∉ t
  relative : u.schema = none → u.beforePath = [] ∧ (u.path.head? = some 47 ∨ u.path.head? = some 42)
  port_lt : ∀ p, u.port = some p → p ≠ [] ∧ stoul p < 2 ^ 16
  fragment_hash : u.hashes = 0 → u.fragment = []

end UrlText

/-- The library reports the components of the URLs it accepts. -/
def HttpLib.ReadsUrls (L : HttpLib) : Prop :=
  ∀ s f, L.parseUrl s = some f → ∃ u : UrlText, u.WellFormed ∧ s = u.toBytes ∧ f = u.fields

/-- The path, or `/` without one, and the query behind a `?`, as they were reported. -/
def urlTarget (s : Bytes) (f : UrlFields) : Bytes :=
  (if f.path = none then bytes "/" else (f.path.map (slice s)).getD []) ++
    (f.query.map (slice s)).elim [] (63 :: ·)

/-- There is no query, and one byte follows the path, if there is a path, or none follows `/`. -/
def TargetKept (s : Bytes) (f : UrlFields) : Prop :=
  f.query = none ∧ ∀ p, f.path = some p →
    s.length = p.1 + p.2 + 1 ∨ slice s p = bytes "/" ∧ s.length = p.1 + p.2

namespace UrlText

variable {u : UrlText}

theorem toBytes_of_no_hash (hu : u.WellFormed) (h : 35 ∉ u.toBytes) :
    u.toBytes = u.beforePath ++ (u.path ++ u.queryText) := by
  have hzero : u.hashes = 0 := by
    by_contra hne
    exact h (by simp [toBytes, List.mem_replicate, hne])
  simp [toBytes, hzero, hu.fragment_hash hzero]

/-- What is taken for the target: everything from the path on but the last byte. -/
theorem urlUri_fields (hpath : u.path ≠ []) (hs : u.toBytes = u.beforePath ++ (u.path ++ u.queryText)) :
    urlUri u.toBytes u.fields [] =
      if (u.path ++ u.queryText).dropLast = [] then bytes "/" else (u.path ++ u.queryText).dropLast := by
  have hfield : u.fields.path = some (u.beforePath.length, u.path.length) := by
    simp [fields, field, hpath]
  have hslice : slice u.toBytes (u.beforePath.length, u.toBytes.length - u.beforePath.length - 1) =
      (u.path ++ u.queryText).dropLast := by
    rw [slice, hs, List.drop_left, List.dropLast_eq_take, List.length_append, Nat.add_sub_cancel_left]
  simp only [urlUri, hfield, hslice]

theorem urlUri_fields_of_no_path (hpath : u.path = []) : urlUri u.toBytes u.fields [] = bytes "/" := by
  simp [urlUri, fields, field, hpath]

theorem fields_query_eq_none_iff : u.fields.query = none ↔ u.query = none ∨ u.query = some [] := by
  cases hq : u.query <;> simp [fields, field, hq]

theorem slice_path (u : UrlText) :
    slice u.toBytes (u.beforePath.length, u.path.length) = u.path := by
  rw [toBytes, List.append_assoc, List.append_assoc]
  exact slice_append _ _ _

theorem slice_query {q : Bytes} (hq : u.query = some q) :
    slice u.toBytes ((u.beforePath ++ u.path ++ bytes "?").length, q.length) = q := by
  have hmark : u.queryText = bytes "?" ++ q := by
    rw [queryText, hq]
    rfl
  rw [toBytes, hmark, ← List.append_assoc (u.beforePath ++ u.path), List.append_assoc _ _ u.fragment]
  exact slice_append _ _ _

theorem schemaText_prefix (u : UrlText) : u.schemaText <+: u.toBytes := by
  simp only [toBytes, beforePath, beforePort, beforeHost, List.append_assoc]
  exact List.prefix_append _ _

theorem schema_of_begins (hu : u.WellFormed) {t : Bytes} (ht : t ≠ []) (hcolon : 58 ∉ t)
    (hpath : 47 ∉ t ∧ 42 ∉ t) (h : t ++ bytes "://" <+: u.toBytes) : u.schema = some t := by
  obtain ⟨rest, hrest⟩ := h
  cases hs : u.schema with
  | none =>
    obtain ⟨hnil, hhead⟩ := hu.relative hs
    have hmem : u.path.head? = t.head? := by
      obtain ⟨c, p, hp⟩ := List.exists_cons_of_ne_nil (l := u.path) fun h => by simp [h] at hhead
      obtain ⟨d, w, rfl⟩ := List.exists_cons_of_ne_nil ht
      have hfirst := congrArg List.head? hrest
      simpa [toBytes, hnil, hp] using hfirst.symm
    rw [hmem] at hhead
    rcases hhead with h47 | h42
    · exact absurd (List.mem_of_mem_head? h47) hpath.1
    · exact absurd (List.mem_of_mem_head? h42) hpath.2
  | some w =>
    obtain ⟨after, hafter⟩ := u.schemaText_prefix
    have htext : t ++ 58 :: (bytes "//" ++ rest) = w ++ 58 :: (bytes "//" ++ after) := by
      simpa [schemaText, hs, show bytes "://" = 58 :: bytes "//" by decide] using
        hrest.trans hafter.symm
    have hcut := congrArg (List.takeWhile (· ≠ (58 : UInt8))) htext
    rw [takeWhile_ne_append_cons hcolon, takeWhile_ne_append_cons (hu.schema_colon w hs)] at hcut
    rw [hcut]

theorem slice_schema {t : Bytes} (h : u.schema = some t) : slice u.toBytes (0, t.length) = t := by
  obtain ⟨rest, hrest⟩ := u.schemaText_prefix
  rw [← hrest, schemaText, h, Option.elim_some, List.append_assoc]
  exact slice_append [] t _

theorem slice_port {p : Bytes} (h : u.port = some p) :
    slice u.toBytes ((u.beforePort ++ bytes ":").length, p.length) = p := by
  have htext : u.beforePath = u.beforePort ++ bytes ":" ++ p := by
    simp [beforePath, h, show bytes ":" = [58] by decide]
  rw [toBytes, htext, List.append_assoc, List.append_assoc, List.append_assoc]
  exact slice_append _ _ _

theorem reported_port (hu : u.WellFormed) :
    u.fields.port.map (fun p => stoul (slice u.toBytes p)) = u.port.map stoul := by
  cases h : u.port with
  | none => simp [fields, field, h]
  | some p =>
    have hfield : u.fields.port = some ((u.beforePort ++ bytes ":").length, p.length) := by
      simp only [fields, field, h, Option.getD_some, (hu.port_lt p h).1, if_false]
    rw [hfield, Option.map_some, slice_port h, Option.map_some]

theorem urlTarget_fields (u : UrlText) :
    urlTarget u.toBytes u.fields =
      (if u.path = [] then bytes "/" else u.path) ++
        if u.query.getD [] = [] then [] else 63 :: u.query.getD [] := by
  have hpath : (if u.fields.path = none then bytes "/"
      else (u.fields.path.map (slice u.toBytes)).getD []) =
        if u.path = [] then bytes "/" else u.path := by
    by_cases hp : u.path = []
    · simp [fields, field, hp]
    · simp [fields, field, hp, slice_path]
  have hquery : (u.fields.query.map (slice u.toBytes)).elim [] (63 :: ·) =
      if u.query.getD [] = [] then [] else 63 :: u.query.getD [] := by
    cases hq : u.query with
    | none => simp [fields, field, hq]
    | some q =>
      by_cases hne : q = []
      · simp [fields, field, hq, hne]
      · simp only [fields, field, hq, Option.getD_some, hne, if_false, Option.map_some,
          slice_query hq, Option.elim_some]
  rw [urlTarget, hpath, hquery]

theorem targetKept_fields_iff (hpath : u.path ≠ [])
    (hs : u.toBytes = u.beforePath ++ (u.path ++ u.queryText)) :
    TargetKept u.toBytes u.fields ↔ u.query = some [] ∨ u.query = none ∧ u.path = bytes "/" := by
  have hfield : u.fields.path = some (u.beforePath.length, u.path.length) := by
    simp [fields, field, hpath]
  have hlen : u.toBytes.length = u.beforePath.length + u.path.length + u.queryText.length := by
    rw [hs, List.length_append, List.length_append, Nat.add_assoc]
  rw [TargetKept, hfield, fields_query_eq_none_iff, hlen]
  simp only [Option.some.injEq, forall_eq', slice_path]
  cases hq : u.query with
  | none => simp [queryText, hq]
  | some q => simp +contextual [queryText, hq]

end UrlText

theorem dropLast_or_slash_eq_iff {t : Bytes} (ht : t ≠ []) :
    (if t.dropLast = [] then bytes "/" else t.dropLast) = t ↔ t = bytes "/" := by
  constructor
  · intro h
    split_ifs at h with hnil
    · exact h.symm
    · have hlen := congrArg List.length h
      have hpos := List.length_pos_of_ne_nil ht
      rw [List.length_dropLast] at hlen
      omega
  · rintro rfl
    rfl

/-- For a URL without a fragment, the target that `ParseUrl` stores in a new object is that of the
URL exactly when there is no query and a byte that is no part of it follows the path, or nothing
follows the path `/`. -/
theorem parseUrl_uri_eq_target_iff (L : HttpLib) (hL : L.ReadsUrls) (s : Bytes) (f : UrlFields)
    (hs : L.parseUrl s = some f) (hfrag : 35 ∉ s) :
    (parseUrl L s {}).2.uri = urlTarget s f ↔ TargetKept s f := by
  obtain ⟨u, hu, rfl, rfl⟩ := hL s f hs
  have htext := UrlText.toBytes_of_no_hash hu hfrag
  rw [parseUrl_of_some hs]
  simp only [UrlText.urlTarget_fields]
  by_cases hpath : u.path = []
  · rw [UrlText.urlUri_fields_of_no_path hpath]
    have hnone : u.fields.path = none := by simp [UrlText.fields, UrlText.field, hpath]
    simp only [TargetKept, hnone, UrlText.fields_query_eq_none_iff]
    cases hq : u.query <;> simp [hpath]
  · rw [UrlText.urlUri_fields hpath htext, if_neg hpath, UrlText.targetKept_fields_iff hpath htext]
    cases hq : u.query with
    | none =>
      have htail : u.queryText = [] := by simp [UrlText.queryText, hq]
      simpa [htail] using dropLast_or_slash_eq_iff hpath
    | some q =>
      have htail : u.queryText = 63 :: q := by simp [UrlText.queryText, hq]
      rw [htail, List.dropLast_append_cons]
      cases q with
      | nil => simp [hpath]
      | cons c q =>
        refine iff_of_false (fun heq => ?_) (by simp)
        have hne : u.path ++ (63 :: c :: q).dropLast ≠ [] := by simp [hpath]
        have hlen := congrArg List.length heq
        rw [if_neg hne] at hlen
        simp at hlen

def urlLib (us : List UrlText) : HttpLib where
  scan _ _ := {}
  parseUrl s := (us.find? fun u => u.toBytes = s).map UrlText.fields
  curlUnescape := id

theorem urlLib_readsUrls {us : List UrlText} (h : ∀ u ∈ us, u.WellFormed) :
    (urlLib us).ReadsUrls := by
  intro s f hf
  obtain ⟨u, hu, rfl⟩ := Option.map_eq_some_iff.mp hf
  have hs : u.toBytes = s := by simpa using List.find?_some hu
  exact ⟨u, h u (List.mem_of_find?_eq_some hu), hs.symm, rfl⟩

def plainUrl (schema path : Bytes) : UrlText := { schema := some schema, host := bytes "h", path := path }

theorem plainUrl_wellFormed {schema path : Bytes} (h : 58 ∉ schema) :
    (plainUrl schema path).WellFormed where
  schema_colon t ht := by
    cases ht
    exact h
  relative h := by cases h
  port_lt p hp := by cases hp
  fragment_hash _ := rfl

theorem root_target_kept :
    (urlLib [plainUrl (bytes "http") (bytes "/")]).ReadsUrls ∧
      (parseUrl (urlLib [plainUrl (bytes "http") (bytes "/")]) (bytes "http://h/") {}).2.uri =
        urlTarget (bytes "http://h/") (plainUrl (bytes "http") (bytes "/")).fields := by
  have hL : (urlLib [plainUrl (bytes "http") (bytes "/")]).ReadsUrls :=
    urlLib_readsUrls (by simpa using plainUrl_wellFormed (by decide))
  refine ⟨hL, (parseUrl_uri_eq_target_iff _ hL _ _ (by decide) (by decide)).mpr ⟨by decide, ?_⟩⟩
  intro p hp
  cases hp
  exact .inr (by decide)

/-- Of the path `/abc` the last byte is lost. -/
theorem path_byte_dropped :
    (urlLib [plainUrl (bytes "http") (bytes "/abc")]).ReadsUrls ∧
      (urlLib [plainUrl (bytes "http") (bytes "/abc")]).parseUrl (bytes "http://h/abc") =
        some (plainUrl (bytes "http") (bytes "/abc")).fields ∧
      35 ∉ bytes "http://h/abc" ∧
      (parseUrl (urlLib [plainUrl (bytes "http") (bytes "/abc")]) (bytes "http://h/abc") {}).2.uri ≠
        urlTarget (bytes "http://h/abc") (plainUrl (bytes "http") (bytes "/abc")).fields :=
  ⟨urlLib_readsUrls (by simpa using plainUrl_wellFormed (by decide)), by decide, by decide, by decide⟩

end Tinyco
