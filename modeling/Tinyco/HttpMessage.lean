import Tinyco.AssocMap
import Tinyco.Bytes

/-! The message classes of `http_request.h` and `http_response.h`. -/

namespace Tinyco

/-- The `port` of a new object is not initialised. -/
structure URL where
  schema : Bytes := []
  host : Bytes := []
  port : Option Nat := none
  uri : Bytes := []
  path : Bytes := []
  query : Bytes := []
  fragment : Bytes := []
  userinfo : Bytes := []
  queryParams : AssocMap Bytes Bytes := .empty
  deriving DecidableEq

def URL.isHttps (u : URL) : Bool := u.port = some 443

def URL.isSet (u : URL) (param : Bytes) : Bool := (u.queryParams.find param).isSome

def httpRequestMethodUnknown : UInt8 := 255
def httpRequestMethodGet : UInt8 := 0
def httpRequestMethodPost : UInt8 := 1

structure HttpRequest where
  method : UInt8 := httpRequestMethodUnknown
  struri : Bytes := []
  uri : URL := {}
  content : Bytes := []
  headers : AssocMap Bytes Bytes := .empty
  keepalive : Bool := false
  deriving DecidableEq

namespace HttpRequest

def setMethod (r : HttpRequest) (method : UInt8) : HttpRequest := { r with method := method }

def setUri (r : HttpRequest) (uri : Bytes) : HttpRequest := { r with struri := uri }

def setHeader (r : HttpRequest) (field value : Bytes) : HttpRequest :=
  { r with headers := r.headers.assign field value }

def setContent (r : HttpRequest) (content : Bytes) : HttpRequest :=
  { r with
    content := content
    headers := r.headers.assign (bytes "Content-Length") (decimal content.length) }

def isHeader (r : HttpRequest) (header : Bytes) : Bool := (r.headers.find header).isSome

def getHeader (r : HttpRequest) (header : Bytes) : Bytes := (r.headers.find header).getD []

end HttpRequest

structure HttpResponse where
  status : Int := 200
  content : Bytes := []
  headers : AssocMap Bytes Bytes := .empty
  deriving DecidableEq

/-- The order in which an `unordered_map` is gone through, which depends on how the
entries came into it. -/
structure IterationOrder where
  order : List (Bytes × Bytes) → List (Bytes × Bytes)
  order_perm : ∀ es, (order es).Perm es

def insertionOrder : IterationOrder := ⟨id, fun es => .refl es⟩

theorem IterationOrder.nodup_keys_filter (O : IterationOrder) (headers : AssocMap Bytes Bytes)
    (p : Bytes × Bytes → Bool) : (((O.order headers.entries).filter p).map Prod.fst).Nodup := by
  have hnodup := ((O.order_perm headers.entries).map Prod.fst).nodup_iff.mpr headers.nodupKeys
  exact hnodup.sublist (List.filter_sublist.map Prod.fst)

namespace HttpResponse

def setHeader (r : HttpResponse) (field value : Bytes) : HttpResponse :=
  { r with headers := r.headers.assign field value }

def setStatus (r : HttpResponse) (status : Int) : HttpResponse := { r with status := status }

def setContent (r : HttpResponse) (content : Bytes) : HttpResponse :=
  { r with
    content := content
    headers := r.headers.assign (bytes "Content-Length") (decimal content.length) }

def reason (status : Int) : Bytes :=
  if status = 200 then bytes "OK"
  else if status = 400 then bytes "Bad Request"
  else if status = 404 then bytes "Not Found"
  else if status = 500 then bytes "Internal Server Error"
  else []

/-- A number with its sign as an output stream writes it. -/
def decimalInt (n : Int) : Bytes :=
  if n < 0 then bytes "-" ++ decimal n.natAbs else decimal n.natAbs

def statusLine (status : Int) : Bytes :=
  bytes "HTTP/1.1 " ++ decimalInt status ++ bytes " " ++ reason status ++ crlf

def headerLine (e : Bytes × Bytes) : Bytes := e.1 ++ bytes ": " ++ e.2 ++ crlf

/-- A header with an empty value is left out. -/
def printedHeaders (O : IterationOrder) (r : HttpResponse) : List (Bytes × Bytes) :=
  (O.order r.headers.entries).filter fun e => decide (e.2 ≠ [])

def serializeToString (O : IterationOrder) (r : HttpResponse) : Bytes :=
  statusLine r.status ++ ((r.printedHeaders O).map headerLine).flatten ++ crlf ++ r.content

def getHeader (r : HttpResponse) (header : Bytes) : Bytes := (r.headers.find header).getD []

end HttpResponse

namespace HttpRequest

def printedHeaders (O : IterationOrder) (r : HttpRequest) : List (Bytes × Bytes) :=
  (O.order r.headers.entries).filter fun e => decide (e.2 ≠ [])

/-- The start of the request line; other methods are not supported. -/
def methodText (method : UInt8) : Option Bytes :=
  if method = httpRequestMethodGet then some (bytes "GET ")
  else if method = httpRequestMethodPost then some (bytes "POST ")
  else none

/-- The result and what `*output` is then. -/
def serializeToString (O : IterationOrder) (r : HttpRequest) (output : Bytes) : Bool × Bytes :=
  match methodText r.method with
  | none => (false, output)
  | some method =>
    (true, method ++ r.struri ++ bytes " " ++ bytes "HTTP/1.1" ++ crlf ++
      ((r.printedHeaders O).map HttpResponse.headerLine).flatten ++ crlf ++ r.content)

end HttpRequest

end Tinyco
