import Tinyco.RpcService

/-! `ServerImpl::AddRpcService` against a reading of the mappings that cuts them at every `,` and
every `>`: which mappings it accepts and what it leaves in the method map. -/

namespace Tinyco

variable {M : Type*} {service : RpcService M} {map : MethodMap M}

def mappingEntry (service : RpcService M) : List Bytes → Option (Bytes × MethodDescriptor M)
  | [path, method] => (service.findMethodByName (trim method)).map fun pmd =>
      (trim path, ⟨service, trim method, pmd.fullName⟩)
  | _ => none

/-- The entries of the items before the first one that is refused. -/
def storedMappings (service : RpcService M) : List Bytes → List (Bytes × MethodDescriptor M)
  | [] => []
  | item :: items =>
    match mappingEntry service (split item 62) with
    | none => []
    | some e => e :: storedMappings service items

theorem addMappings_cons (service : RpcService M) (item : Bytes) (items : List Bytes)
    (map : MethodMap M) :
    addMappings service (item :: items) map =
      match mappingEntry service (split item 62) with
      | none => (false, map)
      | some e => addMappings service items (map.assign e.1 e.2) := by
  rw [addMappings]
  split
  next path method hsplit =>
    cases hm : service.findMethodByName (trim method) <;> simp [hsplit, mappingEntry, hm]
  next hne =>
    have hnone : mappingEntry service (split item 62) = none := by
      unfold mappingEntry
      split
      next path method hsplit => exact absurd hsplit (hne path method)
      next => rfl
    rw [hnone]

theorem addMappings_snd (items : List Bytes) (map : MethodMap M) :
    (addMappings service items map).2 = map.assignAll (storedMappings service items) := by
  induction items generalizing map with
  | nil => rfl
  | cons item items ih =>
    rw [addMappings_cons, storedMappings]
    cases mappingEntry service (split item 62) with
    | none => rfl
    | some e => exact ih (map.assign e.1 e.2)

theorem addMappings_fst (items : List Bytes) (map : MethodMap M) :
    (addMappings service items map).1 = true ↔
      ∀ item ∈ items, (mappingEntry service (split item 62)).isSome := by
  induction items generalizing map with
  | nil => simp [addMappings]
  | cons item items ih =>
    rw [addMappings_cons]
    cases h : mappingEntry service (split item 62) with
    | none => simp [h]
    | some e => simp [h, ih]

theorem storedMappings_of_forall {items : List Bytes}
    (h : ∀ item ∈ items, (mappingEntry service (split item 62)).isSome) :
    storedMappings service items =
      items.filterMap fun item => mappingEntry service (split item 62) := by
  induction items with
  | nil => rfl
  | cons item items ih =>
    obtain ⟨e, he⟩ := Option.isSome_iff_exists.mp (h item (by simp))
    rw [storedMappings, he, List.filterMap_cons, he]
    exact congrArg (e :: ·) (ih fun i hi => h i (by simp [hi]))

/-- Success exactly if every item between commas is a path and a method of the service with one `>`
between them, and then an entry for each of them; otherwise no change. -/
def AddsAllOrNothing (service : RpcService M) (map : MethodMap M) (mappings : Bytes) : Prop :=
  let r := addRpcService map service mappings
  let entry := fun item : Bytes => mappingEntry service (item.splitOn 62)
  (r.1 = true ↔ ∀ item ∈ mappings.splitOn 44, (entry item).isSome) ∧
  (r.1 = true → ∀ path,
    r.2.find path = (map.assignAll ((mappings.splitOn 44).filterMap entry)).find path) ∧
  (r.1 = false → ∀ path, r.2.find path = map.find path)

def PlainMapping (service : RpcService M) (item : Bytes) : Prop :=
  ∃ path method, item.splitOn 62 = [path, method] ∧ method ≠ [] ∧
    (service.findMethodByName (trim method)).isSome

theorem isSome_mappingEntry_iff {parts : List Bytes} :
    (mappingEntry service parts).isSome ↔
      ∃ path method, parts = [path, method] ∧ (service.findMethodByName (trim method)).isSome := by
  unfold mappingEntry
  split
  next path method => simp
  next hne =>
    constructor
    · intro h
      cases h
    · rintro ⟨path, method, rfl, -⟩
      exact absurd rfl (hne path method)

theorem PlainMapping.split_eq {item : Bytes} (h : PlainMapping service item) :
    split item 62 = item.splitOn 62 := by
  obtain ⟨path, method, hparts, hne, -⟩ := h
  obtain ⟨hitem, hpath, hmethod⟩ := splitOn_eq_pair_iff.mp hparts
  rw [hparts]
  exact split_eq_pair_iff.mpr ⟨hpath, hmethod, .inl ⟨hitem, hne⟩⟩

theorem plainMapping_iff {item : Bytes} :
    PlainMapping service item ↔ (mappingEntry service (item.splitOn 62)).isSome ∧
      (mappingEntry service (split item 62)).isSome := by
  constructor
  · intro h
    rw [h.split_eq, and_self, isSome_mappingEntry_iff]
    obtain ⟨path, method, hparts, -, hm⟩ := h
    exact ⟨path, method, hparts, hm⟩
  · simp only [isSome_mappingEntry_iff]
    rintro ⟨⟨path, method, hparts, hm⟩, path', method', hparts', -⟩
    refine ⟨path, method, hparts, ?_, hm⟩
    rintro rfl
    obtain ⟨rfl, hpath, -⟩ := splitOn_eq_pair_iff.mp hparts
    rw [split_append_delim, List.splitOn_eq_singleton hpath] at hparts'
    cases hparts'

/-- A comma at the end leaves an empty item, which is no mapping. -/
theorem split_comma_of_isSome {mappings : Bytes}
    (h : ∀ item ∈ mappings.splitOn 44, (mappingEntry service (item.splitOn 62)).isSome) :
    split mappings 44 = mappings.splitOn 44 := by
  apply split_eq_splitOn
  intro hlast
  obtain ⟨t, rfl⟩ := List.getLast?_eq_some_iff.mp hlast
  have hempty := h [] (by simp [List.splitOn_append_cons_self])
  cases hempty

theorem addRpcService_of_plain {mappings : Bytes}
    (h : ∀ item ∈ mappings.splitOn 44, PlainMapping service item) :
    addRpcService map service mappings = (true, map.assignAll ((mappings.splitOn 44).filterMap
      fun item => mappingEntry service (item.splitOn 62))) := by
  have hread : ∀ item ∈ mappings.splitOn 44, (mappingEntry service (item.splitOn 62)).isSome :=
    fun item hi => (plainMapping_iff.mp (h item hi)).1
  have hcode : ∀ item ∈ mappings.splitOn 44, (mappingEntry service (split item 62)).isSome :=
    fun item hi => (plainMapping_iff.mp (h item hi)).2
  rw [addRpcService, split_comma_of_isSome hread]
  refine Prod.ext ((addMappings_fst _ map).mpr hcode) ?_
  rw [addMappings_snd, storedMappings_of_forall hcode]
  exact congrArg map.assignAll (List.filterMap_congr fun item hi => by rw [(h item hi).split_eq])

/-- `AddRpcService` is all or nothing exactly when every item is a plain mapping, or some item is
refused by either reading and the items before the first refused one repeat what the map has. -/
theorem addsAllOrNothing_iff (service : RpcService M) (map : MethodMap M) (mappings : Bytes) :
    AddsAllOrNothing service map mappings ↔
      (∀ item ∈ mappings.splitOn 44, PlainMapping service item) ∨
      ((∃ item ∈ mappings.splitOn 44, mappingEntry service (item.splitOn 62) = none) ∧
        (∃ item ∈ split mappings 44, mappingEntry service (split item 62) = none) ∧
        ∀ path md, (AssocMap.empty.assignAll (storedMappings service (split mappings 44))).find path
          = some md → map.find path = some md) := by
  have hfst : (addRpcService map service mappings).1 = true ↔ _ := addMappings_fst _ map
  have hsnd : (addRpcService map service mappings).2 = _ := addMappings_snd _ map
  constructor
  · rintro ⟨hread, -, hfail⟩
    cases hr : (addRpcService map service mappings).1 with
    | true =>
      refine .inl fun item hi => plainMapping_iff.mpr ⟨hread.mp hr item hi, ?_⟩
      exact hfst.mp hr item (by rwa [split_comma_of_isSome (hread.mp hr)])
    | false =>
      refine .inr ⟨?_, ?_, ?_⟩
      · simpa [hr] using hread
      · simpa [hr] using hfst
      · rw [← AssocMap.find_assignAll_unchanged_iff, ← hsnd]
        exact hfail hr
  · rintro (hplain | ⟨hread, hcode, hsame⟩)
    · have hall : ∀ item ∈ mappings.splitOn 44, (mappingEntry service (item.splitOn 62)).isSome :=
        fun item hi => (plainMapping_iff.mp (hplain item hi)).1
      rw [AddsAllOrNothing, addRpcService_of_plain hplain]
      exact ⟨iff_of_true rfl hall, fun _ _ => rfl, fun h => by cases h⟩
    · have hr : (addRpcService map service mappings).1 = false := by
        rw [← Bool.not_eq_true, hfst]
        obtain ⟨item, hi, hnone⟩ := hcode
        exact fun h => by simpa [hnone] using h item hi
      refine ⟨?_, by simp [hr], fun _ => ?_⟩
      · obtain ⟨item, hi, hnone⟩ := hread
        rw [hr]
        exact iff_of_false Bool.false_ne_true fun h => by simpa [hnone] using h item hi
      · rw [hsnd, AssocMap.find_assignAll_unchanged_iff]
        exact hsame

def statusService : RpcService Unit where
  methods := [⟨bytes "Status", bytes "demo.Status"⟩]
  parseFromString _ _ := some ()
  callMethod _ _ := ()
  serializeToString _ := []
  length_serialize_lt _ := by decide

/-- The second mapping is refused and the first one stays in the map. -/
theorem refused_mappings_stay :
    ¬ AddsAllOrNothing statusService .empty (bytes "/a>Status,/b>Nope") := by
  rintro ⟨-, -, hfail⟩
  have hkept := hfail (by decide) (bytes "/a")
  have hsome : ((addRpcService .empty statusService (bytes "/a>Status,/b>Nope")).2.find
      (bytes "/a")).isSome := by decide
  rw [hkept] at hsome
  cases hsome

end Tinyco
