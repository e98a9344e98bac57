/-
Responses the gateway makes itself (`include/coropact/http/http_response.h`, `src/http/http_response.cc`, the status
codes of `include/coropact/http/http_types.h`).

`ToString` is a function of the response and of the date it stamps. The header map is a list, in the order the map is
walked in. The calls that change a response are values of `ResponseCall`; what a handler does with its response is a
list of them.
-/
import Coropact.Http.Parser
import Coropact.Http.Response

namespace Coropact.Http

open Coropact.Text List Function

/-! ## Model -/

inductive StatusCode where
  | cont | switchingProtocols
  | ok | created | noContent | partialContent
  | movedPermanently | found | seeOther | notModified
  | badRequest | unauthorized | forbidden | notFound | methodNotAllowed | requestTimeout | payloadTooLarge | uriTooLong
  | unsupportedMediaType | tooManyRequests | requestHeaderFieldsTooLarge
  | internalServerError | notImplemented | badGateway | serviceUnavailable | gatewayTimeout | httpVersionNotSupported
deriving DecidableEq, Repr

def StatusCode.code : StatusCode → ℕ
  | .cont => 100
  | .switchingProtocols => 101
  | .ok => 200
  | .created => 201
  | .noContent => 204
  | .partialContent => 206
  | .movedPermanently => 301
  | .found => 302
  | .seeOther => 303
  | .notModified => 304
  | .badRequest => 400
  | .unauthorized => 401
  | .forbidden => 403
  | .notFound => 404
  | .methodNotAllowed => 405
  | .requestTimeout => 408
  | .payloadTooLarge => 413
  | .uriTooLong => 414
  | .unsupportedMediaType => 415
  | .tooManyRequests => 429
  | .requestHeaderFieldsTooLarge => 431
  | .internalServerError => 500
  | .notImplemented => 501
  | .badGateway => 502
  | .serviceUnavailable => 503
  | .gatewayTimeout => 504
  | .httpVersionNotSupported => 505

def statusMessage : StatusCode → Bytes
  | .cont => str "Continue"
  | .switchingProtocols => str "Switching Protocols"
  | .ok => str "OK"
  | .created => str "Created"
  | .noContent => str "No Content"
  | .partialContent => str "Partial Content"
  | .movedPermanently => str "Moved Permanently"
  | .found => str "Found"
  | .seeOther => str "See Other"
  | .notModified => str "Not Modified"
  | .badRequest => str "Bad Request"
  | .unauthorized => str "Unauthorized"
  | .forbidden => str "Forbidden"
  | .notFound => str "Not Found"
  | .methodNotAllowed => str "Method Not Allowed"
  | .requestTimeout => str "Request Timeout"
  | .payloadTooLarge => str "Payload Too Large"
  | .uriTooLong => str "URI Too Long"
  | .unsupportedMediaType => str "Unsupported Media Type"
  | .tooManyRequests => str "Too Many Requests"
  | .requestHeaderFieldsTooLarge => str "Request Header Fields Too Large"
  | .internalServerError => str "Internal Server Error"
  | .notImplemented => str "Not Implemented"
  | .badGateway => str "Bad Gateway"
  | .serviceUnavailable => str "Service Unavailable"
  | .gatewayTimeout => str "Gateway Timeout"
  | .httpVersionNotSupported => str "HTTP Version Not Supported"

def parseStatusToStatusCode : ParseStatus → StatusCode
  | .uriTooLong => .uriTooLong
  | .headerTooLarge => .requestHeaderFieldsTooLarge
  | .payloadTooLarge => .payloadTooLarge
  | .badMethod => .notImplemented
  | .badVersion => .httpVersionNotSupported
  | _ => .badRequest

def kServerSignature : Bytes := str "aresna/0.1"

/-- what `FormatHttpDateNow` may return: a text on one line -/
structure HttpDate where
  text : Bytes
  clean : Clean text
deriving DecidableEq, Repr

structure HttpResponse where
  statusCode : StatusCode := .ok
  closeConnection : Bool := true
  headers : List (Bytes × Bytes) := []
  body : Bytes := []
deriving DecidableEq, Repr

/-- `IsRestrictedResponseHeader`, of a name in lower case -/
def isRestrictedResponseHeader (lowerKey : Bytes) : Bool :=
  lowerKey.head? == some colon ||
    [str "content-length", str "transfer-encoding", str "connection", str "keep-alive", str "upgrade", str "te",
      str "trailer", str "proxy-connection", str "proxy-authenticate", str "proxy-authorization", str "date",
      str "server"].contains lowerKey

inductive ResponseCall where
  | setStatusCode (code : StatusCode)
  | setBody (body : Bytes)
  | setContentType (contentType : Bytes)
  | addHeader (key value : Bytes)
  | setCloseConnection (close : Bool)
deriving DecidableEq, Repr

namespace HttpResponse

/-- `headers_.insert_or_assign` -/
def assign (headers : List (Bytes × Bytes)) (key value : Bytes) : List (Bytes × Bytes) :=
  headers.filter (·.1 ≠ key) ++ [(key, value)]

def apply (r : HttpResponse) : ResponseCall → HttpResponse
  | .setStatusCode code => { r with statusCode := code }
  | .setBody body => { r with body := body }
  | .setContentType contentType => { r with headers := assign r.headers (str "Content-Type") contentType }
  | .addHeader key value =>
    if isRestrictedResponseHeader (lowerCopy key) then r else { r with headers := assign r.headers key value }
  | .setCloseConnection close => { r with closeConnection := close }

/-- the lines between the status line and the empty line, as names and values -/
def fields (r : HttpResponse) (date : HttpDate) : List (Bytes × Bytes) :=
  [(str "Content-Length", toText r.body.length),
    (str "Connection", if r.closeConnection then str "close" else str "keep-alive"),
    (str "Date", date.text), (str "Server", kServerSignature)] ++ r.headers

/-- a line as `ToString` writes it: name, colon, blank and value -/
def line (kv : Bytes × Bytes) : Bytes := fieldLine (kv.1, SP :: kv.2)

/-- `ToString`, at a given date -/
def toBytes (r : HttpResponse) (date : HttpDate) : Bytes :=
  str "HTTP/1.1 " ++ toText r.statusCode.code ++ str " " ++ statusMessage r.statusCode ++ CRLF ++
    ((r.fields date).map fun kv => line kv ++ CRLF).flatten ++ CRLF ++ r.body

/-! ## A response is well formed -/

structure Harmless (kv : Bytes × Bytes) : Prop where
  name : Clean kv.1 ∧ colon ∉ kv.1
  value : Clean kv.2
  length : lowerCopy kv.1 ≠ str "content-length"
  coding : lowerCopy kv.1 ≠ str "transfer-encoding"

theorem code_spec (s : StatusCode) : (toText s.code).length = 3 ∧ Clean (statusMessage s) := by
  cases s <;> decide +kernel

theorem clean_line {kv : Bytes × Bytes} (hname : Clean kv.1) (hvalue : Clean kv.2) :
    line kv ≠ [] ∧ Clean (line kv) := by
  have hmem : ∀ b, b ≠ colon → b ≠ SP → b ∉ kv.1 → b ∉ kv.2 → b ∉ line kv := by
    intro b h1 h2 h3 h4
    simp [line, fieldLine, h1, h2, h3, h4]
  refine ⟨by simp [line, fieldLine], hmem CR (by decide) (by decide) hname.1 hvalue.1,
    hmem LF (by decide) (by decide) hname.2 hvalue.2⟩

variable {r : HttpResponse} {date : HttpDate}

theorem fields_clean (hheaders : ∀ kv ∈ r.headers, Harmless kv) :
    ∀ kv ∈ r.fields date, Clean kv.1 ∧ colon ∉ kv.1 ∧ Clean kv.2 := by
  have hfixed : ∀ name ∈ [str "Content-Length", str "Connection", str "Date", str "Server"],
      Clean name ∧ colon ∉ name := by decide
  intro kv hkv
  rcases mem_append.1 hkv with hkv | hkv
  · have hname := hfixed kv.1 (by
      simp only [mem_cons, not_mem_nil, or_false] at hkv ⊢
      rcases hkv with rfl | rfl | rfl | rfl <;> simp)
    refine ⟨hname.1, hname.2, ?_⟩
    simp only [mem_cons, not_mem_nil, or_false] at hkv
    rcases hkv with rfl | rfl | rfl | rfl
    · exact clean_toText _
    · cases r.closeConnection <;> decide
    · exact date.clean
    · decide
  · exact ⟨(hheaders kv hkv).name.1, (hheaders kv hkv).name.2, (hheaders kv hkv).value⟩

def head (r : HttpResponse) (date : HttpDate) (hheaders : ∀ kv ∈ r.headers, Harmless kv) :
    ResponseHead where
  version := str "HTTP/1.1"
  code := toText r.statusCode.code
  reason := SP :: statusMessage r.statusCode
  lines := (r.fields date).map line
  version_ok := http11_ok
  code_ok := ⟨(code_spec r.statusCode).1, (toText_spec _).2.1⟩
  reason_ok := by
    obtain ⟨hcr, hlf⟩ := (code_spec r.statusCode).2
    exact ⟨by simpa [SP, CR] using hcr, by simpa [SP, LF] using hlf⟩
  lines_ok := by
    intro l hl
    obtain ⟨kv, hkv, rfl⟩ := mem_map.1 hl
    obtain ⟨hname, -, hvalue⟩ := fields_clean hheaders kv hkv
    exact clean_line hname hvalue

/-- **A response is its head and its body.** -/
theorem toBytes_eq (hheaders : ∀ kv ∈ r.headers, Harmless kv) :
    r.toBytes date = (r.head date hheaders).bytes ++ r.body := by
  have hversion : str "HTTP/1.1 " = str "HTTP/1.1" ++ [SP] := by decide
  have hblank : str " " = [SP] := by decide
  simp [toBytes, ResponseHead.bytes, ResponseHead.statusLine, head, hversion, hblank, map_map, comp_def]

theorem lineField_line {kv : Bytes × Bytes} (h : colon ∉ kv.1) :
    lineField (line kv) = some (lowerCopy kv.1, trimBlanks (SP :: kv.2)) := by
  rw [lineField, line, fieldLine, cutAt_append h]
  rfl

theorem trimBlanks_toText (n : ℕ) : trimBlanks (SP :: toText n) = toText n := by
  have hblank : ∀ b ∈ toText n, isBlank b = false := by
    intro b hb
    have hdigit := (toText_spec n).2.1 b hb
    rw [isBlank, isDigit_ne hdigit (by decide), isDigit_ne hdigit (by decide)]
    rfl
  have hdrop : trimBlanks (SP :: toText n) = trimBlanks (toText n) := by
    rw [trimBlanks, trimBy, dropWhile_cons_of_pos (by decide)]
    rfl
  rw [hdrop, trimBlanks, trimBy_of_none hblank]

def fieldValues (r : HttpResponse) (date : HttpDate) (name : Bytes) : List Bytes :=
  (r.fields date).filterMap fun kv => if lowerCopy kv.1 = name then some (trimBlanks (SP :: kv.2)) else none

theorem values_head (hheaders : ∀ kv ∈ r.headers, Harmless kv) (name : Bytes) :
    (r.head date hheaders).values name = r.fieldValues date name := by
  rw [ResponseHead.values, head, filterMap_map]
  refine filterMap_congr fun kv hkv => ?_
  rw [comp_apply, lineField_line (fields_clean hheaders kv hkv).2.1]
  rfl

theorem fieldValues_fixed {name : Bytes} (hname : ∀ kv ∈ r.headers, lowerCopy kv.1 ≠ name) :
    r.fieldValues date name = fieldValues { r with headers := [] } date name := by
  have hrest : (r.headers.filterMap fun kv =>
      if lowerCopy kv.1 = name then some (trimBlanks (SP :: kv.2)) else none) = [] := by
    rw [filterMap_eq_nil_iff]
    exact fun kv hkv => if_neg (hname kv hkv)
  rw [fieldValues, fieldValues, fields, fields, filterMap_append, hrest, append_nil, append_nil]

theorem fieldValues_contentLength (hname : ∀ kv ∈ r.headers, lowerCopy kv.1 ≠ str "content-length") :
    r.fieldValues date (str "content-length") = [toText r.body.length] := by
  rw [fieldValues_fixed hname]
  simp +decide [fieldValues, fields, trimBlanks_toText]

theorem fieldValues_coding (hname : ∀ kv ∈ r.headers, lowerCopy kv.1 ≠ str "transfer-encoding") :
    r.fieldValues date (str "transfer-encoding") = [] := by
  rw [fieldValues_fixed hname]
  simp +decide [fieldValues, fields]

theorem fieldValues_connection (hname : ∀ kv ∈ r.headers, lowerCopy kv.1 ≠ str "connection") :
    r.fieldValues date (str "connection") = [if r.closeConnection then str "close" else str "keep-alive"] := by
  have hvalue : trimBlanks (SP :: if r.closeConnection then str "close" else str "keep-alive") =
      if r.closeConnection then str "close" else str "keep-alive" := by cases r.closeConnection <;> decide
  rw [fieldValues_fixed hname]
  simp +decide [fieldValues, fields, hvalue]

theorem contentLength_head (hheaders : ∀ kv ∈ r.headers, Harmless kv) :
    (r.head date hheaders).values (str "content-length") = [toText r.body.length] := by
  rw [values_head, fieldValues_contentLength fun kv hkv => (hheaders kv hkv).length]

theorem coding_head (hheaders : ∀ kv ∈ r.headers, Harmless kv) :
    (r.head date hheaders).values (str "transfer-encoding") = [] := by
  rw [values_head, fieldValues_coding fun kv hkv => (hheaders kv hkv).coding]

/-- **The head announces the end of the connection exactly when `close_connection_` is set.** -/
theorem closes_head (hheaders : ∀ kv ∈ r.headers, Harmless kv)
    (hname : ∀ kv ∈ r.headers, lowerCopy kv.1 ≠ str "connection") :
    (r.head date hheaders).Closes ↔ r.closeConnection = true := by
  rw [ResponseHead.Closes, values_head, fieldValues_connection hname]
  simp only [mem_singleton, exists_eq_left]
  cases r.closeConnection <;> decide

/-- status codes of final responses that may have a body -/
def AllowsBody (s : StatusCode) : Prop := 200 ≤ s.code ∧ s.code ≠ 204 ∧ s.code ≠ 304

instance (s : StatusCode) : Decidable (AllowsBody s) := by
  unfold AllowsBody
  infer_instance

/-- a response that can be framed for a client of method `m`: it is final, its headers leave the framing alone, and it
has no body where that client reads none -/
structure Fits (m : Method) (r : HttpResponse) : Prop where
  headers : ∀ kv ∈ r.headers, Harmless kv
  final : 200 ≤ r.statusCode.code
  bodyless : m = .head ∨ r.statusCode.code = 204 ∨ r.statusCode.code = 304 → r.body = []

theorem status_head (hheaders : ∀ kv ∈ r.headers, Harmless kv) : (r.head date hheaders).status = r.statusCode.code :=
  (toText_spec _).2.2

theorem bodyOf_head {m : Method} (hheaders : ∀ kv ∈ r.headers, Harmless kv) :
    BodyOf m (r.head date hheaders) r.body ↔
      (m = .head ∨ r.statusCode.code = 204 ∨ r.statusCode.code = 304 → r.body = []) := by
  rw [BodyOf]
  split_ifs with hbodyless <;> rw [ResponseHead.Bodyless, status_head] at hbodyless
  · exact ⟨fun h _ => h, fun h => h hbodyless⟩
  · refine iff_of_true (Or.inr ⟨coding_head hheaders, ?_⟩) fun h => absurd h hbodyless
    rw [contentLength_head]
    simpa [PlainDecimal] using toText_spec r.body.length

/-- **A response of the gateway shows its own end**, if it fits its request. -/
theorem Fits.complete {m : Method} (h : Fits m r) : CompleteResponse m (r.toBytes date) := by
  refine ⟨r.head date h.headers, r.body, toBytes_eq h.headers, fun hinterim => ?_, (bodyOf_head h.headers).2 h.bodyless⟩
  have hlt := hinterim.2
  have hfinal := h.final
  rw [status_head] at hlt
  omega

theorem toBytes_complete {m : Method} (hm : m ≠ .head) (hstatus : AllowsBody r.statusCode)
    (hheaders : ∀ kv ∈ r.headers, Harmless kv) : CompleteResponse m (r.toBytes date) := by
  obtain ⟨hfinal, h204, h304⟩ := hstatus
  have hfits : Fits m r :=
    { headers := hheaders
      final := hfinal
      bodyless := fun hbodyless => (hbodyless.elim hm (Or.elim · h204 h304)).elim }
  exact hfits.complete

/-! ## What a handler can write -/

/-- the values of the headers of a name in a text, without blanks around name and value -/
def namedValues (text name : Bytes) : List Bytes :=
  (headFields text).filterMap fun nv => if trimBlanks nv.1 = name then some (trimBlanks nv.2) else none

/-- a name and a value that make one header line: no CRLF in them, and no colon in the name or blank around it -/
structure OneHeader (key value : Bytes) : Prop where
  name : PairFree CR LF key ∧ colon ∉ key
  trimmed : trimBlanks (lowerCopy key) = lowerCopy key
  value : PairFree CR LF value

def OneLine : ResponseCall → Prop
  | .setContentType contentType => PairFree CR LF contentType
  | .addHeader key value => OneHeader key value
  | _ => True

structure Contained (kv : Bytes × Bytes) : Prop extends OneHeader kv.1 kv.2 where
  unframing : lowerCopy kv.1 ∉ [str "content-length", str "transfer-encoding", str "connection"]

theorem forall_mem_assign {headers : List (Bytes × Bytes)} {p : Bytes × Bytes → Prop} {key value : Bytes}
    (h : ∀ kv ∈ headers, p kv) (hnew : p (key, value)) : ∀ kv ∈ assign headers key value, p kv := by
  intro kv hkv
  rcases mem_append.1 hkv with hkv | hkv
  · exact h kv (mem_of_mem_filter hkv)
  · rw [mem_singleton.1 hkv]
    exact hnew

theorem contained_apply (h : ∀ kv ∈ r.headers, Contained kv) {call : ResponseCall} (hcall : OneLine call) :
    ∀ kv ∈ (r.apply call).headers, Contained kv := by
  cases call with
  | setStatusCode code => exact h
  | setBody body => exact h
  | setCloseConnection close => exact h
  | setContentType contentType =>
    have hkey : (PairFree CR LF (str "Content-Type") ∧ colon ∉ str "Content-Type") ∧
        trimBlanks (lowerCopy (str "Content-Type")) = lowerCopy (str "Content-Type") ∧
        lowerCopy (str "Content-Type") ∉ [str "content-length", str "transfer-encoding", str "connection"] := by decide
    exact forall_mem_assign h ⟨⟨hkey.1, hkey.2.1, hcall⟩, hkey.2.2⟩
  | addHeader key value =>
    rw [apply]
    split_ifs with hrestricted
    · exact h
    · refine forall_mem_assign h ⟨hcall, fun hname => hrestricted ?_⟩
      rw [isRestrictedResponseHeader, Bool.or_eq_true, contains_iff_mem]
      simp only [mem_cons, not_mem_nil, or_false] at hname ⊢
      tauto

theorem contained_foldl (h : ∀ kv ∈ r.headers, Contained kv) {calls : List ResponseCall}
    (hcalls : ∀ call ∈ calls, OneLine call) :
    ∀ kv ∈ (calls.foldl apply r).headers, Contained kv := by
  induction calls generalizing r with
  | nil => exact h
  | cons call calls ih =>
    obtain ⟨hcall, hcalls⟩ := forall_mem_cons.1 hcalls
    exact ih (contained_apply h hcall) hcalls

def statusText (r : HttpResponse) : Bytes :=
  str "HTTP/1.1 " ++ toText r.statusCode.code ++ str " " ++ statusMessage r.statusCode

theorem statusText_pairFree (r : HttpResponse) : PairFree CR LF r.statusText := by
  have hall : ∀ s : StatusCode, CR ∉ str "HTTP/1.1 " ++ toText s.code ++ str " " ++ statusMessage s := by
    intro s
    cases s <;> decide +kernel
  exact pairFree_of_not_mem (.inl (hall r.statusCode))

theorem toBytes_lines (r : HttpResponse) (date : HttpDate) :
    r.toBytes date = joinPair CR LF
      (r.statusText :: ((r.fields date).map fun kv => (kv.1, SP :: kv.2)).map fieldLine) ++
      CR :: LF :: CR :: LF :: r.body := by
  have hlines : r.toBytes date = ((r.statusText :: ((r.fields date).map fun kv => (kv.1, SP :: kv.2)).map fieldLine).map
      (· ++ [CR, LF])).flatten ++ [CR, LF] ++ r.body := by
    simp [toBytes, statusText, line, CRLF, map_map, comp_def]
  rw [hlines, flatten_map_append_pair CR LF (cons_ne_nil _ _)]
  simp

theorem fields_lines (h : ∀ kv ∈ r.headers, Contained kv) :
    ∀ kv ∈ r.fields date, colon ∉ kv.1 ∧ PairFree CR LF (fieldLine (kv.1, SP :: kv.2)) ∧
      trimBlanks (lowerCopy kv.1) = lowerCopy kv.1 := by
  have hline : ∀ {key value : Bytes}, PairFree CR LF key → PairFree CR LF value →
    PairFree CR LF (fieldLine (key, SP :: value)) :=
    fun hkey hvalue => pairFree_append_cons (by decide) (by decide) hkey
      (@pairFree_append_cons _ _ _ SP (by decide) (by decide) [] _ (pairFree_nil _ _) hvalue)
  intro kv hkv
  rcases mem_append.1 hkv with hkv | hkv
  · have hfixed : ∀ name ∈ [str "Content-Length", str "Connection", str "Date", str "Server"],
        PairFree CR LF name ∧ colon ∉ name ∧ trimBlanks (lowerCopy name) = lowerCopy name := by decide
    have hmem : kv ∈ ({ r with headers := [] } : HttpResponse).fields date := by
      rw [fields, append_nil]
      exact hkv
    have hclean := fields_clean (forall_mem_nil _) kv hmem
    obtain ⟨hname, hcolon, htrimmed⟩ := hfixed kv.1 (by
      simp only [mem_cons, not_mem_nil, or_false] at hkv ⊢
      rcases hkv with rfl | rfl | rfl | rfl <;> simp)
    exact ⟨hcolon, hline hname (pairFree_of_not_mem (.inl hclean.2.2.1)), htrimmed⟩
  · have hkv := h kv hkv
    exact ⟨hkv.name.2, hline hkv.name.1 hkv.value, hkv.trimmed⟩

theorem find_toBytes (h : ∀ kv ∈ r.headers, Contained kv) :
    ∃ head, r.toBytes date = head ++ (CRLF ++ CRLF) ++ r.body ∧ find (CRLF ++ CRLF) (r.toBytes date) =
      some head.length := by
  refine ⟨joinPair CR LF (r.statusText :: ((r.fields date).map fun kv => (kv.1, SP :: kv.2)).map fieldLine), ?_, ?_⟩
  · rw [toBytes_lines]
    simp [CRLF]
  · rw [toBytes_lines]
    refine find_joinPair (by decide) _ _ r.statusText_pairFree (fun l hl => ?_) _
    obtain ⟨fv, hfv, rfl⟩ := mem_map.1 hl
    obtain ⟨kv, hkv, rfl⟩ := mem_map.1 hfv
    exact ⟨(fields_lines h kv hkv).2.1, HttpParser.fieldLine_ne_nil _⟩

theorem namedValues_toBytes (h : ∀ kv ∈ r.headers, Contained kv) (name : Bytes) :
    namedValues (r.toBytes date) name = r.fieldValues date name := by
  have hlines : ∀ fv ∈ (r.fields date).map fun kv => (kv.1, SP :: kv.2), colon ∉ fv.1 ∧
      PairFree CR LF (fieldLine fv) := by
    intro fv hfv
    obtain ⟨kv, hkv, rfl⟩ := mem_map.1 hfv
    exact ⟨(fields_lines h kv hkv).1, (fields_lines h kv hkv).2.1⟩
  have hjoin : r.toBytes date = r.statusText ++ CR :: LF ::
      (joinPair CR LF (((r.fields date).map fun kv => (kv.1, SP :: kv.2)).map fieldLine) ++
        CR :: LF :: CR :: LF :: r.body) := by
    rw [toBytes_lines, fields, cons_append, map_cons, map_cons, joinPair_cons_cons]
    simp
  rw [namedValues, hjoin, headFields_lines r.statusText_pairFree hlines, map_map, filterMap_map]
  refine filterMap_congr fun kv hkv => ?_
  rw [comp_apply, comp_apply, (fields_lines h kv hkv).2.2]

/-- **Handlers cannot break the framing** with calls that write one header line each. -/
theorem response_framed (close : Bool) {calls : List ResponseCall} (hcalls : ∀ call ∈ calls, OneLine call)
    {iter : List (Bytes × Bytes)} (hiter : iter.Perm (calls.foldl apply { closeConnection := close }).headers)
    (date : HttpDate) :
    let r := { calls.foldl apply { closeConnection := close } with headers := iter }
    (∃ head, r.toBytes date = head ++ (CRLF ++ CRLF) ++ r.body ∧ find (CRLF ++ CRLF) (r.toBytes date) =
      some head.length) ∧
      namedValues (r.toBytes date) (str "content-length") = [toText r.body.length] ∧
      namedValues (r.toBytes date) (str "connection") = [if r.closeConnection then str "close" else str "keep-alive"] ∧
      namedValues (r.toBytes date) (str "transfer-encoding") = [] := by
  intro r
  have hcontained : ∀ kv ∈ r.headers, Contained kv := fun kv hkv =>
    contained_foldl (forall_mem_nil _) hcalls kv (hiter.mem_iff.1 hkv)
  have hunframing : ∀ name ∈ [str "content-length", str "transfer-encoding", str "connection"],
      ∀ kv ∈ r.headers, lowerCopy kv.1 ≠ name := fun name hname kv hkv heq =>
        (hcontained kv hkv).unframing (heq ▸ hname)
  refine ⟨find_toBytes hcontained, ?_, ?_, ?_⟩
  · rw [namedValues_toBytes hcontained, fieldValues_contentLength (hunframing _ (by simp))]
  · rw [namedValues_toBytes hcontained, fieldValues_connection (hunframing _ (by simp))]
  · rw [namedValues_toBytes hcontained, fieldValues_coding (hunframing _ (by simp))]

def undated : HttpDate := ⟨[], by decide⟩

theorem response_framed_tagged :
    let r : HttpResponse := { closeConnection := false, headers := [(str "X-Tag", str "1")], body := str "hi" }
    namedValues (r.toBytes undated) (str "content-length") = [str "2"] ∧
      namedValues (r.toBytes undated) (str "transfer-encoding") = [] := by
  have hcalls : ∀ call ∈ [ResponseCall.addHeader (str "X-Tag") (str "1"),
    .addHeader (str "Transfer-Encoding") (str "chunked"),
      .setBody (str "hi")], OneLine call := by
    simp only [forall_mem_cons, OneLine]
    exact ⟨⟨by decide, by decide, by decide⟩, ⟨by decide, by decide, by decide⟩, trivial, forall_mem_nil _⟩
  have hframed := response_framed false hcalls (List.Perm.refl _) undated
  exact ⟨hframed.2.1, hframed.2.2.2⟩

/-- a value with an empty line in it ends the head, and a name with a blank behind it passes for another name -/
theorem response_misframed :
    let broken := HttpResponse.apply { body := str "hi" } (.addHeader (str "X-Tag") (str "1\r\n\r\nbye"))
    let doubled := HttpResponse.apply { body := str "hi" } (.addHeader (str "Content-Length ") (str "0"))
    (find (CRLF ++ CRLF) (broken.toBytes undated)).map (fun n => (broken.toBytes undated).drop (n + 4)) =
        some (str "bye\r\n\r\nhi") ∧
      namedValues (doubled.toBytes undated) (str "content-length") = [str "2", str "0"] := by
  decide +kernel

end HttpResponse

end Coropact.Http
