/-
The round trip of a serialized request through `HttpParser` (`src/http/http_parser.cc`, `src/http/http_request.cc`).

`MessageParts` is a request before it is written out: a supported method and version, a target, one or more header lines
with distinct names, and a body that the Content-Length line announces, all within the caps of the parser. `serialize`
writes it as HTTP/1 text. A header is given by its name and the text behind the colon, so that "name: value" and
"name:value" are both covered; `ParseHeaderLine` removes the spaces.

The end of the head is looked for behind the CRLF of the request line, so that a request without headers needs a second
empty line: with one, `ParseAvailable` waits, or takes what follows for headers (`bare_request_waits`).
-/
import Coropact.Http.Parser

namespace Coropact.Http

open Coropact.Text HttpParser List

/-! ## Distinct names -/

theorem addFields_headers {req : HttpRequest} (hreq : req.headers = []) {fields : List (Bytes × Bytes)}
    (hn : (fields.map fun fv => lowerCopy fv.1).Nodup) : (addFields req fields).headers = fields.map entry := by
  induction fields using List.reverseRecOn with
  | nil => exact hreq
  | append_singleton fields fv ih =>
    rw [map_append, nodup_append] at hn
    obtain ⟨hfields, -, hdisj⟩ := hn
    have hany : ¬ ((addFields req fields).headers.any fun e => asciiCaseEqual e.1 (lowerCopy fv.1)) = true := by
      rw [(addFields_holds hreq fields).any_iff fv.1]
      rintro ⟨gv, hgv, heq⟩
      exact hdisj _ (mem_map_of_mem hgv) _ (mem_singleton.2 rfl) heq
    rw [addFields_snoc, HttpRequest.addHeaderLowered_headers, HttpRequest.insertHeader, if_neg hany, ih hfields,
      map_append]
    rfl

theorem entry_eq (fv : Bytes × Bytes) : entry fv = (lowerCopy fv.1, trim fv.2) := by
  rw [entry, fieldValue, trim, trimBy, dropWhile_idempotent]
  rfl

theorem filter_contentLength {fields : List (Bytes × Bytes)} (hn : (fields.map fun fv => lowerCopy fv.1).Nodup) :
    fields.filter isContentLength = [] ∨ ∃ fv ∈ fields, fields.filter isContentLength = [fv] := by
  have hsub : ((fields.filter isContentLength).map fun fv => lowerCopy fv.1).Nodup :=
    hn.sublist (filter_sublist.map _)
  have hname : ∀ fv ∈ fields.filter isContentLength, lowerCopy fv.1 = str "content-length" := by
    intro fv hfv
    exact eq_of_beq (mem_filter.1 hfv).2
  have hmem : ∀ fv ∈ fields.filter isContentLength, fv ∈ fields := fun fv hfv => (mem_filter.1 hfv).1
  match hf : fields.filter isContentLength with
  | [] => exact .inl rfl
  | [fv] => exact .inr ⟨fv, hmem fv (by simp [hf]), rfl⟩
  | fv :: gv :: rest =>
    rw [hf] at hsub hname
    rw [map_cons, nodup_cons] at hsub
    refine absurd ?_ hsub.1
    rw [hname fv (by simp), ← hname gv (by simp)]
    simp

/-! ## Messages -/

/-- the text behind the colon of a Content-Length line that announces `n` bytes: spaces, then digits only -/
def LengthText (text : Bytes) (n : ℕ) : Prop :=
  ∃ k d, text = List.replicate k SP ++ d ∧ d ≠ [] ∧ (∀ b ∈ d, isDigit b = true) ∧ decimal d = n

theorem fromChars_lengthText {field text : Bytes} {n : ℕ} (h : LengthText text n) (hn : n < 2 ^ 64) :
    fromChars (2 ^ 64) (fieldValue (field, text)) = some (n, []) := by
  obtain ⟨k, d, rfl, hne, hd, rfl⟩ := h
  have hhead : ∀ b ∈ d.head?, (b == SP) = false := by
    intro b hb
    exact isDigit_ne (hd b (mem_of_mem_head? hb)) (by decide)
  have hval : fieldValue (field, List.replicate k SP ++ d) = d :=
    (takeWhile_of_all (fun b hb => by simp [eq_of_mem_replicate hb]) hhead).2
  rw [hval]
  simpa using fromChars_digits hne hd (by simp : ∀ b ∈ ([] : Bytes).head?, isDigit b = false) hn

/-- a request to be written out -/
structure MessageParts where
  method : Method
  version : Version
  target : Bytes
  /-- names, and the text behind the colon -/
  headers : List (Bytes × Bytes)
  body : Bytes
  method_ok : method ≠ .invalid
  version_ok : version ≠ .unknown
  target_ok : SP ∉ target ∧ Clean target
  headers_ne : headers ≠ []
  names_ok : ∀ fv ∈ headers, fv.1 ≠ [] ∧ colon ∉ fv.1 ∧ Clean fv.1 ∧ lowerCopy fv.1 ≠ str "transfer-encoding"
  names_nodup : (headers.map fun fv => lowerCopy fv.1).Nodup
  values_ok : ∀ fv ∈ headers, Clean fv.2
  length_ok : ∀ fv ∈ headers, lowerCopy fv.1 = str "content-length" → LengthText fv.2 body.length
  body_none : (∀ fv ∈ headers, lowerCopy fv.1 ≠ str "content-length") → body = []
  requestLine_le : (methodToString method ++ SP :: (target ++ SP :: versionToString version)).length ≤ kMaxRequestLine
  headerLine_le : ∀ fv ∈ headers, (fieldLine fv).length ≤ kMaxHeaderLine
  headerCount_le : headers.length ≤ kMaxHeaderCount
  headerBytes_le : (headers.map fieldLine).flatten.length ≤ kMaxHeaderBytes
  body_le : body.length ≤ kMaxBodyBytes

namespace MessageParts

def serialize (r : MessageParts) : Bytes :=
  methodToString r.method ++ SP :: (r.target ++ SP :: versionToString r.version) ++ CRLF ++
    (r.headers.map fun fv => fieldLine fv ++ CRLF).flatten ++ CRLF ++ r.body

structure ReadAs (r : MessageParts) (req : HttpRequest) : Prop where
  method : req.method = r.method
  version : req.version = r.version
  path : question ∉ req.path
  target : r.target = req.path ∧ req.query = [] ∨ r.target = req.path ++ question :: req.query
  headers : req.headers = r.headers.map fun fv => (lowerCopy fv.1, trim fv.2)
  body : req.body = r.body

theorem announce (r : MessageParts) : Announce r.headers r.body.length := by
  have hlt : r.body.length < 2 ^ 64 := r.body_le.trans_lt (by decide)
  rcases filter_contentLength r.names_nodup with hnone | ⟨fv, hfv, hone⟩
  · simp only [Announce, hnone]
    rw [r.body_none fun fv hfv hname => ?_]
    · rfl
    · rw [filter_eq_nil_iff] at hnone
      exact hnone fv hfv (beq_iff_eq.2 hname)
  · simp only [Announce, hone]
    have hname : isContentLength fv = true := (mem_filter.1 (hone ▸ mem_singleton.2 rfl)).2
    exact fromChars_lengthText (r.length_ok fv hfv (eq_of_beq hname)) hlt

/-- the message as a text the parser accepts -/
def toText (r : MessageParts) : RequestText where
  method := r.method
  uri := r.target
  version := r.version
  fields := r.headers
  body := r.body
  method_ok := r.method_ok
  version_ok := r.version_ok
  uri_ok := ⟨r.target_ok.1, pairFree_of_not_mem (.inl r.target_ok.2.1)⟩
  fields_ok := by
    intro fv hfv
    obtain ⟨hne, hcolon, hclean, hte⟩ := r.names_ok fv hfv
    refine ⟨hne, hcolon, ?_, hte⟩
    exact pairFree_append_cons (by decide) (by decide) (pairFree_of_not_mem (.inl hclean.1))
      (pairFree_of_not_mem (.inl (r.values_ok fv hfv).1))
  body_ok := r.announce

theorem toText_bytes (r : MessageParts) : r.toText.bytes = r.serialize := by
  have hlines : (r.headers.map fun fv => fieldLine fv ++ CRLF).flatten =
      joinPair CR LF (r.headers.map fieldLine) ++ CRLF := by
    have hjoin := flatten_map_append_pair CR LF (by simpa using r.headers_ne : r.headers.map fieldLine ≠ [])
    rwa [map_map] at hjoin
  simp [RequestText.bytes, RequestText.requestLine, serialize, hlines, toText]

theorem toText_within (r : MessageParts) : r.toText.Within kLimits := by
  constructor
  · exact decide_eq_false (not_lt.2 r.requestLine_le)
  · intro fv hfv
    exact decide_eq_false (not_lt.2 (r.headerLine_le fv hfv))
  · exact decide_eq_false (not_lt.2 r.headerCount_le)
  · exact decide_eq_false (not_lt.2 r.headerBytes_le)
  · exact decide_eq_false (not_lt.2 r.body_le)

theorem readAs_request (r : MessageParts) : r.ReadAs r.toText.request := by
  obtain ⟨h1, h2, h3, h4, -⟩ := addFields_frame r.toText.start r.headers
  obtain ⟨hpath, htarget⟩ := splitUri_spec r.target
  have hheaders : r.toText.request.headers = r.headers.map entry := addFields_headers rfl r.names_nodup
  refine ⟨h1, h2, ?_, ?_, ?_, rfl⟩
  · exact h3 ▸ hpath
  · exact h3 ▸ h4 ▸ htarget
  · rw [hheaders]
    exact map_congr_left fun fv _ => entry_eq fv

/-- **Round trip.** `ParseAvailable` on a serialized request and any bytes behind it reports a complete request with the
parts that were written, and leaves exactly those bytes pending. -/
theorem parseAvailable_serialize (r : MessageParts) (p : HttpParser) (trailing : Bytes) :
    ∃ q, parseAvailable kLimits { p with pending := r.serialize ++ trailing, gotAll := false } = (.gotAll, q) ∧
      r.ReadAs q.request ∧ q.pending = trailing := by
  obtain ⟨q, hq, hreq, hpend⟩ := parseAvailable_of_within
    (p := { p with pending := r.serialize ++ trailing, gotAll := false }) rfl r.toText r.toText_within trailing
    (by rw [toText_bytes])
  exact ⟨q, hq, hreq ▸ r.readAs_request, hpend⟩

end MessageParts

/-- a body that looks like the end of a header section -/
def putMessage : MessageParts where
  method := .put
  version := .http11
  target := str "/a?b=c?d"
  headers := [(str "Host", str " x "), (str "Content-Length", str " 4")]
  body := CRLF ++ CRLF
  method_ok := by decide
  version_ok := http11_ne_unknown
  target_ok := by decide +kernel
  headers_ne := by decide
  names_ok := by decide +kernel
  names_nodup := by decide +kernel
  values_ok := by decide +kernel
  length_ok := by
    intro fv hfv hname
    rcases mem_cons.1 hfv with rfl | hfv
    · exact absurd hname (by decide +kernel)
    · obtain rfl := mem_singleton.1 hfv
      exact ⟨1, str "4", by decide +kernel⟩
  body_none := fun h => absurd rfl (h (str "Content-Length", str " 4") (by simp))
  requestLine_le := by decide +kernel
  headerLine_le := by decide +kernel
  headerCount_le := by decide
  headerBytes_le := by decide +kernel
  body_le := by decide +kernel

theorem parseAvailable_put :
    ∃ q, parseAvailable kLimits { pending := putMessage.serialize ++ str "GET" } = (.gotAll, q) ∧
      putMessage.ReadAs q.request ∧ q.pending = str "GET" :=
  MessageParts.parseAvailable_serialize putMessage {} (str "GET")

/-! ## No headers -/

def requestLine (method : Method) (target : Bytes) (version : Version) : Bytes :=
  methodToString method ++ SP :: (target ++ SP :: versionToString version)

theorem ne_append_crlf (method : Method) (target : Bytes) (version : Version) (line : Bytes) :
    requestLine method target version ≠ line ++ CRLF := by
  intro h
  have hlast : (SP :: versionToString version).getLast? = CRLF.getLast? := by
    rw [← getLast?_append_of_ne_nil (methodToString method ++ SP :: target) (cons_ne_nil _ _),
      ← getLast?_append_of_ne_nil line (show CRLF ≠ [] by decide), ← h]
    simp [requestLine]
  cases version <;> exact absurd hlast (by decide)

/-- **A request without headers is never one.** Whatever follows the empty line, the parser does not answer with the
request and leave what follows: the end of the head is looked for behind the CRLF of the request line, so a third CRLF
is taken. -/
theorem bare_request_never (lim : Limits) (method : Method) (target : Bytes) (version : Version) (following : Bytes) :
    ¬ ∃ q, parseAvailable lim { pending := requestLine method target version ++ CRLF ++ CRLF ++ following } =
      (.gotAll, q) ∧
      q.request.headers = [] ∧ q.request.body = [] ∧ q.pending = following := by
  rintro ⟨q, hq, hheaders, hbody, rfl⟩
  obtain ⟨t, htext, hreq⟩ := parseAvailable_gotAll rfl hq
  rw [hreq] at hheaders hbody
  have hfields : t.fields = [] := by
    rw [eq_nil_iff_forall_not_mem]
    intro fv hfv
    obtain ⟨gv, hgv, -⟩ := exists_isFirst hfv
    have hmem := (t.request_holds.mem_iff (entry gv)).2 ⟨gv, hgv, rfl⟩
    rw [hheaders] at hmem
    exact not_mem_nil hmem
  have hnone : t.body = [] := hbody
  have hbytes : t.bytes = t.requestLine ++ CRLF ++ CRLF ++ CRLF := by
    simp [RequestText.bytes, hfields, hnone, joinPair]
  rw [hbytes] at htext
  refine ne_append_crlf method target version t.requestLine ?_
  exact append_cancel_right (append_cancel_right (append_cancel_right htext))

/-- behind one empty line the parser waits; the empty line becomes a bad header when a request with headers follows -/
theorem bare_request_waits :
    (parseAvailable kLimits { pending := str "GET / HTTP/1.0\r\n\r\n" }).1 = .cont ∧
      (parseAvailable kLimits
        { pending := str "GET / HTTP/1.0\r\n\r\nGET / HTTP/1.0\r\nHost: a\r\n\r\n" }).1 = .badRequest := by
  decide +kernel

end Coropact.Http
