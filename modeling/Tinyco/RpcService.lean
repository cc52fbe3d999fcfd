import Tinyco.HttpServer

/-! `ServerImpl::AddRpcService` and `TinycoRpc::Serve`. A service is given by its method
table and by what it makes of a message; its messages are of any type. -/

namespace Tinyco

structure MethodInfo where
  name : Bytes
  fullName : Bytes
  deriving DecidableEq, Repr

/-- A `google::protobuf::Service`; the functions take the name of a method. A message
that serializes to 2 GiB or more is refused by the library. -/
structure RpcService (M : Type*) where
  methods : List MethodInfo
  parseFromString : Bytes → Bytes → Option M
  callMethod : Bytes → M → M
  serializeToString : M → Bytes
  length_serialize_lt : ∀ m, (serializeToString m).length < 2 ^ 31

structure MethodDescriptor (M : Type*) where
  service : RpcService M
  method : Bytes
  fullName : Bytes

abbrev MethodMap (M : Type*) := AssocMap Bytes (MethodDescriptor M)

variable {M : Type*}

def RpcService.findMethodByName (sv : RpcService M) (name : Bytes) : Option MethodInfo :=
  sv.methods.find? fun i => decide (i.name = name)

/-- The loop of `AddRpcService` over the mappings. What was stored before a failure
stays. -/
def addMappings (service : RpcService M) : List Bytes → MethodMap M → Bool × MethodMap M
  | [], map => (true, map)
  | item :: items, map =>
    match split item 62 with
    | [path, method] =>
      match service.findMethodByName (trim method) with
      | none => (false, map)
      | some pmd =>
        addMappings service items (map.assign (trim path) ⟨service, trim method, pmd.fullName⟩)
    | _ => (false, map)

def addRpcService (map : MethodMap M) (service : RpcService M) (mappings : Bytes) :
    Bool × MethodMap M :=
  addMappings service (split mappings 44) map

/-- The map after calls of `AddRpcService`, whatever they return. -/
def methodMap (calls : List (RpcService M × Bytes)) : MethodMap M :=
  calls.foldl (fun map c => (addRpcService map c.1 c.2).2) .empty

namespace TinycoRpc

/-- `HttpSrvWork::Reply`: what it makes of `hrsp_` and what it sends. -/
def reply (O : IterationOrder) (hreq : HttpRequest) (hrsp : HttpResponse) :
    HttpResponse × List Bytes :=
  let hrsp :=
    if hreq.isHeader (bytes "Connection") then
      hrsp.setHeader (bytes "Connection") (hreq.getHeader (bytes "Connection"))
    else hrsp
  (hrsp, [hrsp.serializeToString O])

def reply404 (O : IterationOrder) (hreq : HttpRequest) (hrsp : HttpResponse) :
    HttpResponse × List Bytes :=
  reply O hreq (hrsp.setStatus 404)

def serve (O : IterationOrder) (map : MethodMap M) : Serve := fun hreq hrsp =>
  match map.find hreq.uri.path with
  | none => reply404 O hreq hrsp
  | some md =>
    if md.service.methods.length = 0 then reply404 O hreq hrsp
    else
      match md.service.findMethodByName md.method with
      | none => reply404 O hreq hrsp
      | some method =>
        match md.service.parseFromString method.name hreq.content with
        | none => (hrsp, [])
        | some request =>
          reply O hreq (hrsp.setContent
            (md.service.serializeToString (md.service.callMethod method.name request)))

end TinycoRpc

/-- The three ways out of `Serve`: no such method, a body that does not parse, or the
response of the method. -/
inductive RpcOutcome where
  | notFound
  | badBody
  | ok (response : Bytes)
  deriving DecidableEq, Repr

def rpcOutcome (map : MethodMap M) (hreq : HttpRequest) : RpcOutcome :=
  match map.find hreq.uri.path with
  | none => .notFound
  | some md =>
    match md.service.findMethodByName md.method with
    | none => .notFound
    | some method =>
      match md.service.parseFromString method.name hreq.content with
      | none => .badBody
      | some request => .ok (md.service.serializeToString (md.service.callMethod method.name request))

/-- Every descriptor of the map names a method of its service. -/
def Registered (map : MethodMap M) : Prop :=
  ∀ path md, map.find path = some md → (md.service.findMethodByName md.method).isSome

theorem Registered.addMappings {service : RpcService M} {items : List Bytes} {map : MethodMap M}
    (h : Registered map) : Registered (addMappings service items map).2 := by
  induction items generalizing map with
  | nil => exact h
  | cons item items ih =>
    simp only [Tinyco.addMappings]
    split
    · next path method _ =>
      split
      · exact h
      · next pmd hpmd =>
        refine ih fun p md hp => ?_
        rw [AssocMap.find_assign] at hp
        split_ifs at hp
        · cases hp
          simp [hpmd]
        · exact h p md hp
    · exact h

theorem registered_methodMap (calls : List (RpcService M × Bytes)) :
    Registered (methodMap calls) := by
  have hfold (map : MethodMap M) (h : Registered map) : Registered
      (calls.foldl (fun map c => (addRpcService map c.1 c.2).2) map) := by
    induction calls generalizing map with
    | nil => exact h
    | cons c calls ih => exact ih _ h.addMappings
  exact hfold _ (by simp [Registered])

theorem rpcOutcome_notFound_iff {calls : List (RpcService M × Bytes)} {hreq : HttpRequest} :
    rpcOutcome (methodMap calls) hreq = .notFound ↔ hreq.uri.path ∉ (methodMap calls).keys := by
  rw [← AssocMap.find_eq_none_iff]
  cases h : (methodMap calls).find hreq.uri.path with
  | none => simp [rpcOutcome, h]
  | some md =>
    obtain ⟨method, hm⟩ := Option.isSome_iff_exists.mp (registered_methodMap calls _ md h)
    simp only [rpcOutcome, h, hm, reduceCtorEq, iff_false]
    split <;> simp

theorem TinycoRpc.serve_eq (O : IterationOrder) (map : MethodMap M) (hreq : HttpRequest)
    (hrsp : HttpResponse) :
    TinycoRpc.serve O map hreq hrsp =
      match rpcOutcome map hreq with
      | .notFound => TinycoRpc.reply404 O hreq hrsp
      | .badBody => (hrsp, [])
      | .ok response => TinycoRpc.reply O hreq (hrsp.setContent response) := by
  cases h : map.find hreq.uri.path with
  | none => simp [TinycoRpc.serve, rpcOutcome, h]
  | some md =>
    cases hm : md.service.findMethodByName md.method with
    | none => simp [TinycoRpc.serve, rpcOutcome, h, hm]
    | some method =>
      have hcount : md.service.methods.length ≠ 0 := by
        intro h0
        simp [RpcService.findMethodByName, List.length_eq_zero_iff.mp h0] at hm
      cases hp : md.service.parseFromString method.name hreq.content <;>
        simp [TinycoRpc.serve, rpcOutcome, h, hm, hcount, hp]

end Tinyco
