import Tinyco.RemoteCall

/-! `HttpPost` of a URL whose host runs a `TinycoRpc`: the service that is called is the one for the
path without its last byte. -/

namespace Tinyco

open HttpParserImpl

/-- A URL that ends with its path and is sent in clear text. -/
structure PostTarget (u : UrlText) : Prop extends u.WellFormed where
  http : u.schema = some (bytes "http")
  port : u.port.map stoul ≠ some 443
  query : u.query = none
  hashes : u.hashes = 0
  host : PlainField (bytes "Host", u.host)
  path_ne : u.path.dropLast ≠ []
  slash : u.path.head? = some 47
  path : ∀ c ∈ u.path, 32 < c ∧ c < 127 ∧ c ∉ bytes "#:?"

/-- The request that `HttpPost` makes for the URL. -/
def postedRequest (u : UrlText) (extraHeaders : List (Bytes × Bytes)) (content : Bytes) : HttpRequest :=
  extraHeaders.foldl (fun r e => r.setHeader e.1 e.2)
    (((({} : HttpRequest).setMethod httpRequestMethodPost).setUri u.path.dropLast).setHeader
      (bytes "Host") u.host |>.setContent content)

/-- Headers that do not bear on where the message ends. -/
def PlainHeaders (extraHeaders : List (Bytes × Bytes)) : Prop :=
  ∀ e ∈ extraHeaders, e.1 ≠ bytes "Content-Length" ∧ (e.2 ≠ [] → PlainField e)

section Request

variable {L : HttpLib} {u : UrlText} {extraHeaders : List (Bytes × Bytes)} {content : Bytes}

theorem postedRequest_eq (u : UrlText) (extraHeaders : List (Bytes × Bytes)) (content : Bytes) :
    postedRequest u extraHeaders content =
      { method := httpRequestMethodPost
        struri := u.path.dropLast
        content := content
        headers := ((AssocMap.empty.assign (bytes "Host") u.host).assign (bytes "Content-Length")
          (decimal content.length)).assignAll extraHeaders } := by
  rw [postedRequest, foldl_setHeader_request]
  rfl

theorem PostTarget.slash_dropLast (hu : PostTarget u) : u.path.dropLast.head? = some 47 := by
  have hslash := hu.slash
  have hne := hu.path_ne
  cases hp : u.path with
  | nil => rw [hp] at hne; exact absurd rfl hne
  | cons c p =>
    cases p with
    | nil => rw [hp] at hne; exact absurd rfl hne
    | cons d p => rw [hp] at hslash; exact hslash

theorem PostTarget.plainHeader (hu : PostTarget u) (hextra : PlainHeaders extraHeaders)
    (content : Bytes) : PlainHeader (postedRequest u extraHeaders content) := by
  rw [postedRequest_eq]
  refine ⟨.inr rfl, hu.slash_dropLast, fun c hc => ?_, fun e he hne hk => ?_⟩
  · obtain ⟨hlo, hhi, -⟩ := hu.path c (List.mem_of_mem_dropLast hc)
    exact ⟨hlo, hhi⟩
  · obtain ⟨k, v⟩ := e
    rcases AssocMap.mem_or_find_of_find_assignAll (AssocMap.find_eq_some_iff.mpr he) with hmem | hfind
    · exact (hextra _ hmem).2 hne
    · rw [AssocMap.find_assign_ne _ _ (Ne.symm hk), AssocMap.find_assign] at hfind
      split_ifs at hfind with hhost
      · cases hhost
        cases hfind
        exact hu.host
      · cases hfind

theorem PostTarget.plainRequest (hu : PostTarget u) (hextra : PlainHeaders extraHeaders)
    (O : IterationOrder) (content : Bytes) :
    PlainRequest ((postedRequest u extraHeaders content).raw O) httpRequestMethodPost
      u.path.dropLast := by
  have hlen : (postedRequest u extraHeaders content).headers.find (bytes "Content-Length") =
      some (decimal (postedRequest u extraHeaders content).content.length) := by
    simp only [postedRequest_eq]
    rw [AssocMap.find_assignAll_of_not_mem, AssocMap.find_assign_self]
    intro hmem
    obtain ⟨e, he, hk⟩ := List.mem_map.mp hmem
    exact (hextra e he).1 hk
  have hplain := (hu.plainHeader hextra content).plainRequest_raw O hlen
  simpa only [postedRequest_eq] using hplain

end Request

section Call

variable {M : Type*} {L : HttpLib} {maxHead : Nat}

end Call

end Tinyco
