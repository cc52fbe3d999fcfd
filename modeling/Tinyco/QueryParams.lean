import Tinyco.ParsedMessage

/-! The query parameters that `ParseUrl` stores against those a query stands for: every piece
between `&` that has a `=` is a key and a value, cut at the first `=` and percent-decoded. -/

namespace Tinyco

open HttpParserImpl

def hexDigit (c : UInt8) : Option Nat :=
  if 48 ≤ c ∧ c ≤ 57 then some (c.toNat - 48)
  else if 65 ≤ c ∧ c ≤ 70 then some (c.toNat - 55)
  else if 97 ≤ c ∧ c ≤ 102 then some (c.toNat - 87)
  else none

def escape (c a b : UInt8) : Option UInt8 :=
  if c = 37 then (hexDigit a).bind fun x => (hexDigit b).map fun y => UInt8.ofNat (16 * x + y)
  else none

def percentDecode : Bytes → Bytes
  | c :: a :: b :: s =>
    match escape c a b with
    | some x => x :: percentDecode s
    | none => c :: percentDecode (a :: b :: s)
  | c :: s => c :: percentDecode s
  | [] => []

def upToEq (s : Bytes) : Bytes := s.takeWhile (· ≠ 61)

def queryEntry (piece : Bytes) : Option (Bytes × Bytes) :=
  if 61 ∈ piece then some (upToEq piece, (piece.dropWhile (· ≠ 61)).drop 1) else none

def queryEntries (q : Bytes) : List (Bytes × Bytes) := (q.splitOn 38).filterMap queryEntry

/-- The parameters of a query, of which a later one replaces an earlier one. -/
def readQuery (q : Bytes) : AssocMap Bytes Bytes :=
  AssocMap.empty.assignAll ((queryEntries q).map fun e => (percentDecode e.1, percentDecode e.2))

def queryValues (q k : Bytes) : List Bytes :=
  ((queryEntries q).filter fun e => decide (percentDecode e.1 = k)).map Prod.snd

/-- The last value is not empty and has no `=` in it, or it is empty and the last one before it that
is not begins with `=`. -/
def ValuesKept (vs : List Bytes) : Prop :=
  ∀ v, vs.getLast? = some v → (v ≠ [] ∧ 61 ∉ v) ∨
    (v = [] ∧ ∃ w, (vs.filter fun v => decide (v ≠ [])).getLast? = some w ∧ w.head? = some 61)

section Decode

theorem percentDecode_cons_of_escape {c : UInt8} {s : Bytes}
    (h : ∀ a b t, s = a :: b :: t → escape c a b = none) :
    percentDecode (c :: s) = c :: percentDecode s := by
  rcases s with _ | ⟨a, _ | ⟨b, t⟩⟩
  · rfl
  · rfl
  · rw [percentDecode, h a b t rfl]

theorem percentDecode_of_escape {c a b x : UInt8} (h : escape c a b = some x) (s : Bytes) :
    percentDecode (c :: a :: b :: s) = x :: percentDecode s := by
  rw [percentDecode, h]

/-- A byte that is neither `%` nor a hexadecimal digit is no part of an encoded one. -/
theorem percentDecode_append_cons {d : UInt8} (hd : hexDigit d = none) (hpercent : d ≠ 37)
    (s t : Bytes) : percentDecode (s ++ d :: t) = percentDecode s ++ d :: percentDecode t := by
  have hhead : percentDecode (d :: t) = d :: percentDecode t :=
    percentDecode_cons_of_escape fun a b _ _ => by simp [escape, hpercent]
  induction s using percentDecode.induct with
  | case1 c a b s x hx ih =>
    rw [percentDecode_of_escape hx, List.cons_append, List.cons_append, List.cons_append,
      percentDecode_of_escape hx, ih, List.cons_append]
  | case2 c a b s hx ih =>
    have hnone (l : Bytes) : ∀ a' b' t', a :: b :: l = a' :: b' :: t' → escape c a' b' = none := by
      intro a' b' t' heq
      cases heq
      exact hx
    have hlong : percentDecode (c :: (a :: b :: s ++ d :: t)) =
        c :: percentDecode (a :: b :: s ++ d :: t) :=
      percentDecode_cons_of_escape (hnone (s ++ d :: t))
    rw [List.cons_append, hlong, ih, percentDecode_cons_of_escape (hnone s), List.cons_append]
  | case3 c s hne ih =>
    have hnone : ∀ a b t', s ++ d :: t = a :: b :: t' → escape c a b = none := by
      intro a' b' t' heq
      rcases s with _ | ⟨a, _ | ⟨b, s⟩⟩
      · cases heq
        simp [escape, hd]
      · cases heq
        simp [escape, hd]
      · exact absurd rfl (hne a b s)
    rw [List.cons_append, percentDecode_cons_of_escape hnone, ih,
      percentDecode_cons_of_escape fun a b t' heq => absurd heq (hne a b t'), List.cons_append]
  | case4 => exact hhead

theorem percentDecode_eq_nil_iff {s : Bytes} : percentDecode s = [] ↔ s = [] := by
  cases s using percentDecode.induct <;> simp_all [percentDecode]

theorem mem_percentDecode_of_mem_splitOn {d : UInt8} (hd : hexDigit d = none) (hpercent : d ≠ 37)
    {s p : Bytes} (hp : p ∈ s.splitOn d) {c : UInt8} (hc : c ∈ percentDecode p) :
    c ∈ percentDecode s := by
  induction hn : s.length using Nat.strong_induction_on generalizing s with
  | _ n ih =>
    by_cases hmem : d ∈ s
    · obtain ⟨a, t, rfl, ha⟩ := List.eq_append_cons_of_mem hmem
      rw [percentDecode_append_cons hd hpercent]
      rw [List.splitOn_append_cons_self_of_not_mem ha] at hp
      rcases List.mem_cons.mp hp with rfl | hp
      · exact List.mem_append_left _ hc
      · have ht := ih t.length (by simp at hn; omega) hp rfl
        exact List.mem_append_right _ (List.mem_cons_of_mem _ ht)
    · rw [List.splitOn_eq_singleton hmem, List.mem_singleton] at hp
      exact hp ▸ hc

end Decode

section Entries

/-- What `ParseUrl` takes of a piece: the part up to the first `=` and the part from there up to the
next, unless the piece ends with its first `=`. -/
def storedEntry (e : Bytes × Bytes) : Option (Bytes × Bytes) :=
  if e.2 = [] then none else some (e.1, upToEq e.2)

theorem upToEq_append {k : Bytes} (hk : 61 ∉ k) (v : Bytes) : upToEq (k ++ 61 :: v) = k :=
  takeWhile_ne_append_cons hk v

theorem upToEq_of_not_mem {v : Bytes} (hv : 61 ∉ v) : upToEq v = v := takeWhile_ne_eq_self hv

theorem exists_splitOn_eq_upToEq (v : Bytes) : ∃ rest, v.splitOn 61 = upToEq v :: rest :=
  exists_splitOn_eq_takeWhile 61 v

theorem queryEntry_append {k v : Bytes} (hk : 61 ∉ k) : queryEntry (k ++ 61 :: v) = some (k, v) := by
  have hdrop : (k ++ 61 :: v).dropWhile (· ≠ 61) = 61 :: v := by
    rw [List.dropWhile_append_of_pos fun c hc => by simpa using fun h : c = 61 => hk (h ▸ hc)]
    simp
  rw [queryEntry, if_pos (by simp), upToEq_append hk, hdrop]
  rfl

theorem queryEntry_cases (piece : Bytes) :
    (61 ∉ piece ∧ queryEntry piece = none) ∨
      ∃ k v, piece = k ++ 61 :: v ∧ 61 ∉ k ∧ queryEntry piece = some (k, v) := by
  by_cases h : 61 ∈ piece
  · obtain ⟨k, v, rfl, hk⟩ := List.eq_append_cons_of_mem h
    exact .inr ⟨k, v, rfl, hk, queryEntry_append hk⟩
  · exact .inl ⟨h, if_neg h⟩

/-- `Split` of a piece at `=` begins with the two parts that are taken. -/
theorem split_piece {k v : Bytes} (hk : 61 ∉ k) :
    if v = [] then split (k ++ 61 :: v) 61 = [k]
    else ∃ rest, split (k ++ 61 :: v) 61 = k :: upToEq v :: rest := by
  split_ifs with hv
  · rw [hv, split_append_delim, List.splitOn_eq_singleton hk]
  · by_cases hlast : v.getLast? = some 61
    · obtain ⟨w, rfl⟩ := List.getLast?_eq_some_iff.mp hlast
      have hsame : upToEq (w ++ [61]) = upToEq w := by
        by_cases hw : 61 ∈ w
        · obtain ⟨a, b, rfl, ha⟩ := List.eq_append_cons_of_mem hw
          rw [List.append_assoc, List.cons_append, upToEq_append ha, upToEq_append ha]
        · rw [upToEq_append hw, upToEq_of_not_mem hw]
      obtain ⟨rest, hrest⟩ := exists_splitOn_eq_upToEq w
      refine ⟨rest, ?_⟩
      rw [show k ++ 61 :: (w ++ [61]) = k ++ 61 :: w ++ [61] by simp, split_append_delim,
        List.splitOn_append_cons_self_of_not_mem hk, hrest, hsame]
    · obtain ⟨rest, hrest⟩ := exists_splitOn_eq_upToEq v
      refine ⟨rest, ?_⟩
      rw [split_eq_splitOn, List.splitOn_append_cons_self_of_not_mem hk, hrest]
      rwa [List.getLast?_append_cons, List.getLast?_cons_of_ne_nil hv]

theorem queryPairs_eq (L : HttpLib) (q : Bytes) :
    queryPairs L q = ((queryEntries q).filterMap storedEntry).map fun e =>
      (L.curlUnescape e.1, L.curlUnescape e.2) := by
  rw [queryPairs, filterMap_split (by rfl), queryEntries, List.filterMap_filterMap,
    List.map_filterMap]
  refine List.filterMap_congr fun piece _ => ?_
  rcases queryEntry_cases piece with ⟨hmem, hnone⟩ | ⟨k, v, rfl, hk, hsome⟩
  · have hlast : piece.getLast? ≠ some 61 := fun h => hmem (List.mem_of_getLast? h)
    rw [split_eq_splitOn hlast, List.splitOn_eq_singleton hmem, hnone]
    rfl
  · have hsplit := split_piece (v := v) hk
    rw [hsome, Option.bind_some, storedEntry]
    split_ifs at hsplit ⊢ with hv
    · rw [hsplit]
      rfl
    · obtain ⟨rest, hrest⟩ := hsplit
      rw [hrest]
      rfl

/-- The strings that are decoded are cut out of the query at `&` and `=`. -/
theorem mem_splitOn_of_stored {q : Bytes} {e : Bytes × Bytes}
    (he : e ∈ (queryEntries q).filterMap storedEntry) :
    ∃ piece ∈ q.splitOn 38, e.1 ∈ piece.splitOn 61 ∧ e.2 ∈ piece.splitOn 61 := by
  obtain ⟨e', he', hstored⟩ := List.mem_filterMap.mp he
  obtain ⟨piece, hpiece, hentry⟩ := List.mem_filterMap.mp he'
  refine ⟨piece, hpiece, ?_⟩
  rcases queryEntry_cases piece with ⟨-, hnone⟩ | ⟨k, v, rfl, hk, hsome⟩
  · rw [hnone] at hentry
    cases hentry
  · rw [hsome] at hentry
    cases hentry
    rw [storedEntry] at hstored
    split_ifs at hstored with hv
    cases hstored
    obtain ⟨rest, hrest⟩ := exists_splitOn_eq_upToEq v
    rw [List.splitOn_append_cons_self_of_not_mem hk, hrest]
    simp

end Entries

theorem percentDecode_upToEq_eq_iff {v : Bytes} :
    percentDecode (upToEq v) = percentDecode v ↔ 61 ∉ v := by
  by_cases hv : 61 ∈ v
  · obtain ⟨a, b, rfl, ha⟩ := List.eq_append_cons_of_mem hv
    rw [upToEq_append ha, percentDecode_append_cons (by decide) (by decide)]
    simp
  · simp [upToEq_of_not_mem hv, hv]

theorem upToEq_eq_nil_iff {w : Bytes} (hw : w ≠ []) : upToEq w = [] ↔ w.head? = some 61 := by
  obtain ⟨c, t, rfl⟩ := List.exists_cons_of_ne_nil hw
  by_cases hc : c = 61 <;> simp [upToEq, hc]

theorem valuesKept_iff (vs : List Bytes) :
    (vs.filter fun v => decide (v ≠ [])).getLast?.map (fun v => percentDecode (upToEq v)) =
        vs.getLast?.map percentDecode ↔ ValuesKept vs := by
  rcases List.eq_nil_or_concat' vs with rfl | ⟨ws, v, rfl⟩
  · simp [ValuesKept]
  · by_cases hv : v = []
    · have hfilter : (ws ++ [v]).filter (fun v => decide (v ≠ [])) =
          ws.filter fun v => decide (v ≠ []) := by simp [hv]
      rw [ValuesKept, List.getLast?_concat, hfilter]
      cases hw : (ws.filter fun v => decide (v ≠ [])).getLast? with
      | none => simp [hv]
      | some w =>
        have hne : w ≠ [] := by simpa using (List.mem_filter.mp (List.mem_of_getLast? hw)).2
        have hnil : percentDecode [] = [] := rfl
        simp [hv, hnil, percentDecode_eq_nil_iff, upToEq_eq_nil_iff hne]
    · have hfilter : (ws ++ [v]).filter (fun v => decide (v ≠ [])) =
          ws.filter (fun v => decide (v ≠ [])) ++ [v] := by simp [hv]
      rw [ValuesKept, List.getLast?_concat, hfilter, List.getLast?_concat]
      simp [hv, percentDecode_upToEq_eq_iff]

/-- `curl_unescape` returns a C string, which ends at an encoded zero. -/
def HttpLib.Unescapes (L : HttpLib) : Prop :=
  ∀ s, L.curlUnescape s = (percentDecode s).takeWhile (· ≠ 0)

variable {L : HttpLib} {q : Bytes}

theorem filterMap_storedEntry (es : List (Bytes × Bytes)) :
    es.filterMap storedEntry =
      (es.filter fun e => decide (e.2 ≠ [])).map fun e => (e.1, upToEq e.2) := by
  induction es with
  | nil => rfl
  | cons e es ih =>
    by_cases he : e.2 = []
    · simpa [storedEntry, he] using ih
    · simpa [storedEntry, he] using ih

theorem queryPairs_of_unescapes (hL : L.Unescapes) (hnul : 0 ∉ percentDecode q) :
    queryPairs L q = ((queryEntries q).filter fun e => decide (e.2 ≠ [])).map fun e =>
      (percentDecode e.1, percentDecode (upToEq e.2)) := by
  have hwhole {p piece : Bytes} (hpiece : piece ∈ q.splitOn 38) (hp : p ∈ piece.splitOn 61) :
      L.curlUnescape p = percentDecode p := by
    rw [hL p]
    refine takeWhile_ne_eq_self fun hc => hnul ?_
    exact mem_percentDecode_of_mem_splitOn (by decide) (by decide) hpiece
      (mem_percentDecode_of_mem_splitOn (by decide) (by decide) hp hc)
  have hdecode : queryPairs L q = ((queryEntries q).filterMap storedEntry).map fun e =>
      (percentDecode e.1, percentDecode e.2) := by
    rw [queryPairs_eq]
    refine List.map_congr_left fun e he => ?_
    obtain ⟨piece, hpiece, hk, hv⟩ := mem_splitOn_of_stored he
    rw [hwhole hpiece hk, hwhole hpiece hv]
  rw [hdecode, filterMap_storedEntry, List.map_map]
  rfl

theorem find_readQuery (q k : Bytes) :
    (readQuery q).find k = (queryValues q k).getLast?.map percentDecode := by
  rw [readQuery, AssocMap.find_assignAll_eq_getLast?, queryValues, ← List.getLast?_map,
    List.filter_map, List.map_map, List.map_map]
  rfl

theorem find_queryPairs (hL : L.Unescapes) (hnul : 0 ∉ percentDecode q) (k : Bytes) :
    (AssocMap.empty.assignAll (queryPairs L q)).find k =
      ((queryValues q k).filter fun v => decide (v ≠ [])).getLast?.map
        fun v => percentDecode (upToEq v) := by
  rw [queryPairs_of_unescapes hL hnul, AssocMap.find_assignAll_eq_getLast?, queryValues,
    ← List.getLast?_map, List.filter_map, List.filter_map, List.map_map, List.map_map,
    List.filter_filter, List.filter_filter]
  simp only [Function.comp_def, Bool.and_comm]

theorem isSome_find_readQuery_iff {k : Bytes} :
    ((readQuery q).find k).isSome ↔ ∃ e ∈ queryEntries q, percentDecode e.1 = k := by
  rw [AssocMap.find_isSome_iff, readQuery, AssocMap.mem_keys_assignAll]
  simp

/-- The parameters of a URL with the query `q` are those `q` stands for exactly when for every key
the values are kept. -/
theorem queryParams_eq_readQuery_iff (L : HttpLib) (hL : L.Unescapes) (s : Bytes) (f : UrlFields)
    (hs : L.parseUrl s = some f) (q : Bytes) (hq : f.query.map (slice s) = some q)
    (hnul : 0 ∉ percentDecode q) :
    ((∀ k, (parseUrl L s {}).2.queryParams.find k = (readQuery q).find k) ∧
        ∀ k, (parseUrl L s {}).2.isSet k = true ↔ ∃ e ∈ queryEntries q, percentDecode e.1 = k) ↔
      ∀ k, ValuesKept (queryValues q k) := by
  have hparams : (parseUrl L s {}).2.queryParams = AssocMap.empty.assignAll (queryPairs L q) := by
    rw [parseUrl_of_some hs, hq]
    rfl
  have hkept (k : Bytes) : (parseUrl L s {}).2.queryParams.find k = (readQuery q).find k ↔
      ValuesKept (queryValues q k) := by
    rw [hparams, find_queryPairs hL hnul, find_readQuery, valuesKept_iff]
  constructor
  · rintro ⟨hfind, -⟩ k
    exact (hkept k).mp (hfind k)
  · intro h
    refine ⟨fun k => (hkept k).mpr (h k), fun k => ?_⟩
    rw [URL.isSet, (hkept k).mpr (h k), isSome_find_readQuery_iff]

theorem valuesKept_of_plain (h : ∀ e ∈ queryEntries q, e.2 ≠ [] ∧ 61 ∉ e.2) (k : Bytes) :
    ValuesKept (queryValues q k) := by
  intro v hv
  obtain ⟨e, he, rfl⟩ := List.mem_map.mp (List.mem_of_getLast? hv)
  exact .inl (h e (List.mem_filter.mp he).1)

def queryLib (q : Bytes) : HttpLib where
  scan _ _ := {}
  parseUrl s := if s = bytes "/?" ++ q then some { path := some (0, 1), query := some (2, q.length) }
    else none
  curlUnescape s := (percentDecode s).takeWhile (· ≠ 0)

theorem plain_query_read :
    (queryLib (bytes "a=1&b=%20")).Unescapes ∧ 0 ∉ percentDecode (bytes "a=1&b=%20") ∧
      ∀ k, (parseUrl (queryLib (bytes "a=1&b=%20")) (bytes "/?a=1&b=%20") {}).2.queryParams.find k =
        (readQuery (bytes "a=1&b=%20")).find k := by
  have hplain : ∀ e ∈ queryEntries (bytes "a=1&b=%20"), e.2 ≠ [] ∧ 61 ∉ e.2 := by decide
  have hright := queryParams_eq_readQuery_iff (queryLib (bytes "a=1&b=%20")) (fun _ => rfl)
    (bytes "/?a=1&b=%20") { path := some (0, 1), query := some (2, 9) } (by decide)
    (bytes "a=1&b=%20") (by decide) (by decide)
  exact ⟨fun _ => rfl, by decide, (hright.mpr (valuesKept_of_plain hplain)).1⟩

/-- A value that ends with `=` is cut off at it. -/
theorem padded_value_cut :
    (queryLib (bytes "a=b==")).Unescapes ∧ 0 ∉ percentDecode (bytes "a=b==") ∧
      (parseUrl (queryLib (bytes "a=b==")) (bytes "/?a=b==") {}).2.query = bytes "a=b==" ∧
      (parseUrl (queryLib (bytes "a=b==")) (bytes "/?a=b==") {}).2.queryParams.find (bytes "a") ≠
        (readQuery (bytes "a=b==")).find (bytes "a") :=
  ⟨fun _ => rfl, by decide, by decide, by decide⟩

end Tinyco
