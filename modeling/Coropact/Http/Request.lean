/-
The parsed request (`include/coropact/http/http_request.h`, `src/http/http_request.cc`, `src/http/http_types.cc`).

`headers` holds the entries of the `unordered_map` in the order of insertion; the order in which the map is walked is
unspecified in C++, so whatever walks it takes the order as an argument. Names are stored lower-cased, `emplace` keeps
the first value of a name, and Host, Connection and Content-Length are cached when they are inserted.

Left out: `path_params_`, `receive_time_` and the arena the strings live in, which nothing modelled here reads.
-/
import Coropact.Http.Ascii

namespace Coropact.Http

inductive Method where
  | invalid | get | post | put | delete | head | options | patch | connect | trace
deriving DecidableEq, Repr

inductive Version where
  | unknown | http10 | http11
deriving DecidableEq, Repr

theorem get_ne_invalid : Method.get ≠ .invalid := by decide

theorem http11_ne_unknown : Version.http11 ≠ .unknown := by decide

/-- `MethodToString` -/
def methodToString : Method → Bytes
  | .get => str "GET"
  | .post => str "POST"
  | .put => str "PUT"
  | .delete => str "DELETE"
  | .head => str "HEAD"
  | .options => str "OPTIONS"
  | .patch => str "PATCH"
  | .connect => str "CONNECT"
  | .trace => str "TRACE"
  | .invalid => str "INVALID"

structure HttpRequest where
  method : Method := .invalid
  version : Version := .unknown
  path : Bytes := []
  query : Bytes := []
  body : Bytes := []
  headers : List (Bytes × Bytes) := []
  host : Bytes := []
  connection : Bytes := []
  contentLength : Bytes := []
deriving DecidableEq, Repr

namespace HttpRequest

def cacheHeader (req : HttpRequest) (field value : Bytes) : HttpRequest :=
  if field = str "host" then { req with host := value }
  else if field = str "connection" then { req with connection := value }
  else if field = str "content-length" then { req with contentLength := value }
  else req

/-- `headers_.emplace`: nothing happens when an equal name is present -/
def insertHeader (headers : List (Bytes × Bytes)) (kv : Bytes × Bytes) : List (Bytes × Bytes) :=
  if headers.any fun e => asciiCaseEqual e.1 kv.1 then headers else headers ++ [kv]

def addHeaderLowered (req : HttpRequest) (field value : Bytes) : HttpRequest :=
  if req.headers.any fun e => asciiCaseEqual e.1 field then req
  else cacheHeader { req with headers := insertHeader req.headers (field, trim value) } field (trim value)

def keepAlive (req : HttpRequest) : Bool :=
  match req.version with
  | .http11 => req.connection != str "close"
  | .http10 => req.connection == str "keep-alive"
  | .unknown => false

theorem cacheHeader_frame (req : HttpRequest) (field value : Bytes) :
    (cacheHeader req field value).method = req.method ∧ (cacheHeader req field value).version = req.version ∧
    (cacheHeader req field value).path = req.path ∧ (cacheHeader req field value).query = req.query ∧
    (cacheHeader req field value).body = req.body ∧ (cacheHeader req field value).headers = req.headers := by
  unfold cacheHeader
  split_ifs <;> simp

theorem addHeaderLowered_frame (req : HttpRequest) (field value : Bytes) :
    (addHeaderLowered req field value).method = req.method ∧
    (addHeaderLowered req field value).version = req.version ∧
    (addHeaderLowered req field value).path = req.path ∧ (addHeaderLowered req field value).query = req.query ∧
    (addHeaderLowered req field value).body = req.body := by
  unfold addHeaderLowered
  split_ifs
  · simp
  · obtain ⟨h1, h2, h3, h4, h5, -⟩ :=
      cacheHeader_frame { req with headers := insertHeader req.headers (field, trim value) } field (trim value)
    exact ⟨h1, h2, h3, h4, h5⟩

theorem addHeaderLowered_headers (req : HttpRequest) (field value : Bytes) :
    (addHeaderLowered req field value).headers = insertHeader req.headers (field, trim value) := by
  unfold addHeaderLowered
  split_ifs with h
  · simp only [insertHeader, h, if_true]
  · exact (cacheHeader_frame _ _ _).2.2.2.2.2

/-- the caches follow the map: each is empty or holds the value of its header -/
structure Cached (req : HttpRequest) : Prop where
  host : req.host = [] ∨ (str "host", req.host) ∈ req.headers
  connection : req.connection = [] ∨ (str "connection", req.connection) ∈ req.headers
  contentLength : req.contentLength = [] ∨ (str "content-length", req.contentLength) ∈ req.headers

theorem addHeaderLowered_cached {req : HttpRequest} (h : Cached req) (field value : Bytes) :
    Cached (addHeaderLowered req field value) := by
  unfold addHeaderLowered
  split_ifs with hany
  · exact h
  · have hmem : ∀ kv ∈ req.headers, kv ∈ insertHeader req.headers (field, trim value) := by
      intro kv hkv
      simp [insertHeader, hany, hkv]
    have hnew : (field, trim value) ∈ insertHeader req.headers (field, trim value) := by
      simp [insertHeader, hany]
    unfold cacheHeader
    split_ifs with h1 h2 h3
    · exact ⟨.inr (h1 ▸ hnew), h.connection.imp_right (hmem _), h.contentLength.imp_right (hmem _)⟩
    · exact ⟨h.host.imp_right (hmem _), .inr (h2 ▸ hnew), h.contentLength.imp_right (hmem _)⟩
    · exact ⟨h.host.imp_right (hmem _), h.connection.imp_right (hmem _), .inr (h3 ▸ hnew)⟩
    · exact ⟨h.host.imp_right (hmem _), h.connection.imp_right (hmem _), h.contentLength.imp_right (hmem _)⟩

end HttpRequest

end Coropact.Http
