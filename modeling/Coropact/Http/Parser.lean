/-
The incremental HTTP/1 request parser (`src/http/http_parser.cc`, `src/http/parse_status.cc`).

`ParseAvailable` starts over from the front of `pending_` on every call, so the model works on the bytes at hand:
the request line is what stands before the first CRLF, the header section what stands between it and the first
CRLFCRLF after it, and the header lines are the CRLF-separated pieces of that section. In the source the end of a
line is looked up in the whole of `pending_`; it is never found behind `headers_end`, where a CRLF starts, so the
`BadRequest` for that case is not reachable and has no counterpart here.

The caps are an argument (`Limits`): `kLimits` holds the constants of the source, `unlimited` sets them aside.
-/
import Coropact.Core.Text
import Coropact.Http.Request

namespace Coropact.Http

open Coropact.Text List

inductive ParseStatus where
  | cont | gotAll | badRequest | uriTooLong | headerTooLarge | payloadTooLarge | badMethod | badVersion
deriving DecidableEq, Repr

/-! ## Model -/

/-- a size or count cap, `none` for no cap -/
structure Limits where
  maxRequestLine : Option ℕ
  maxHeaderLine : Option ℕ
  maxHeaderCount : Option ℕ
  maxHeaderBytes : Option ℕ
  maxBodyBytes : Option ℕ
deriving DecidableEq, Repr

def kMaxRequestLine : ℕ := 8 * 1024
def kMaxHeaderLine : ℕ := 8 * 1024
def kMaxHeaderCount : ℕ := 100
def kMaxHeaderBytes : ℕ := 32 * 1024
def kMaxBodyBytes : ℕ := 8 * 1024 * 1024

def kLimits : Limits :=
  ⟨some kMaxRequestLine, some kMaxHeaderLine, some kMaxHeaderCount, some kMaxHeaderBytes, some kMaxBodyBytes⟩

def unlimited : Limits := ⟨none, none, none, none, none⟩

def exceeds (n : ℕ) : Option ℕ → Bool
  | none => false
  | some cap => cap < n

structure HttpParser where
  pending : Bytes := []
  request : HttpRequest := {}
  bodyBytesExpected : ℕ := 0
  headerCount : ℕ := 0
  headerBytes : ℕ := 0
  contentLengthSeen : Bool := false
  gotAll : Bool := false
deriving DecidableEq, Repr

namespace HttpParser

def reset (p : HttpParser) : HttpParser := { pending := p.pending }

def parseMethod (s : Bytes) : Option Method :=
  if s = str "GET" then some .get
  else if s = str "PUT" then some .put
  else if s = str "POST" then some .post
  else if s = str "HEAD" then some .head
  else if s = str "PATCH" then some .patch
  else if s = str "TRACE" then some .trace
  else if s = str "DELETE" then some .delete
  else if s = str "OPTIONS" then some .options
  else if s = str "CONNECT" then some .connect
  else none

def parseVersion (s : Bytes) : Option Version :=
  if s = str "HTTP/1.1" then some .http11
  else if s = str "HTTP/1.0" then some .http10
  else none

def parseRequestLine (p : HttpParser) (line : Bytes) : ParseStatus × HttpParser :=
  match cutAt SP line with
  | none => (.badRequest, p)
  | some (methodSv, rest) =>
    match cutAt SP rest with
    | none => (.badRequest, p)
    | some (uri, versionSv) =>
      match parseMethod methodSv with
      | none => (.badMethod, p)
      | some m =>
        let p := { p with request := { p.request with method := m } }
        match parseVersion versionSv with
        | none => (.badVersion, p)
        | some v =>
          let p := { p with request := { p.request with version := v } }
          match cutAt question uri with
          | none => (.cont, { p with request := { p.request with path := uri, query := [] } })
          | some (path, query) => (.cont, { p with request := { p.request with path := path, query := query } })

def parseHeaderLine (lim : Limits) (p : HttpParser) (line : Bytes) : ParseStatus × HttpParser :=
  let p := { p with headerCount := p.headerCount + 1 }
  if exceeds p.headerCount lim.maxHeaderCount then (.headerTooLarge, p)
  else
    let p := { p with headerBytes := p.headerBytes + line.length }
    if exceeds p.headerBytes lim.maxHeaderBytes then (.headerTooLarge, p)
    else
      match cutAt colon line with
      | none => (.badRequest, p)
      | some (field, value) =>
        let value := value.dropWhile (· == SP)
        if field = [] then (.badRequest, p)
        else
          let lowerField := lowerCopy field
          if lowerField = str "transfer-encoding" then (.badRequest, p)
          else if lowerField = str "content-length" then
            if p.contentLengthSeen then (.badRequest, p)
            else
              let p := { p with contentLengthSeen := true }
              -- `ec != std::errc{} || ptr != value.data() + value.size()`
              match fromChars (2 ^ 64) value with
              | some (len, []) =>
                if exceeds len lim.maxBodyBytes then (.payloadTooLarge, p)
                else
                  (.cont, { p with bodyBytesExpected := len
                                   request := p.request.addHeaderLowered lowerField value })
              | _ => (.badRequest, p)
          else (.cont, { p with request := p.request.addHeaderLowered lowerField value })

def parseHeaders (lim : Limits) : HttpParser → List Bytes → ParseStatus × HttpParser
  | p, [] => (.cont, p)
  | p, line :: lines =>
    if exceeds line.length lim.maxHeaderLine then (.headerTooLarge, p)
    else
      match parseHeaderLine lim p line with
      | (.cont, p) => parseHeaders lim p lines
      | r => r

/-- the lines of a header section, the bytes from `headers_begin` up to `headers_end` -/
def headerLines (block : Bytes) : List Bytes := if block = [] then [] else splitPair CR LF block

/-- the end of `ParseAvailable`: the body is cut off the bytes behind the header section -/
def takeBody (p : HttpParser) (rest : Bytes) : HttpParser :=
  { p with
    request := if p.bodyBytesExpected ≠ 0 then { p.request with body := rest.take p.bodyBytesExpected } else p.request
    pending := rest.drop p.bodyBytesExpected
    gotAll := true }

def parseAvailable (lim : Limits) (p : HttpParser) : ParseStatus × HttpParser :=
  if p.gotAll then (.gotAll, p)
  else
    let p := p.reset
    match find [CR, LF] p.pending with
    | none => if exceeds p.pending.length lim.maxRequestLine then (.uriTooLong, p) else (.cont, p)
    | some lineEnd =>
      if exceeds lineEnd lim.maxRequestLine then (.uriTooLong, p)
      else
        match parseRequestLine p (p.pending.take lineEnd) with
        | (.cont, p) =>
          let section_ := p.pending.drop (lineEnd + 2)
          match find [CR, LF, CR, LF] section_ with
          | none => if exceeds section_.length lim.maxHeaderBytes then (.headerTooLarge, p) else (.cont, p)
          | some headersEnd =>
            match parseHeaders lim p (headerLines (section_.take headersEnd)) with
            | (.cont, p) =>
              let rest := section_.drop (headersEnd + 4)
              if rest.length < p.bodyBytesExpected then (.cont, p) else (.gotAll, p.takeBody rest)
            | r => r
        | r => r

def feed (lim : Limits) (p : HttpParser) (bytes : Bytes) : ParseStatus × HttpParser :=
  parseAvailable lim { p with pending := p.pending ++ bytes }

end HttpParser

/-! ## The grammar of what is accepted -/

def versionToString : Version → Bytes
  | .http11 => str "HTTP/1.1"
  | .http10 => str "HTTP/1.0"
  | .unknown => []

/-- path and query of a request target -/
def splitUri (uri : Bytes) : Bytes × Bytes := (cutAt question uri).getD (uri, [])

theorem splitUri_spec (uri : Bytes) :
    question ∉ (splitUri uri).1 ∧
      (uri = (splitUri uri).1 ∧ (splitUri uri).2 = [] ∨ uri = (splitUri uri).1 ++ question :: (splitUri uri).2) := by
  unfold splitUri
  cases h : cutAt question uri with
  | none => exact ⟨cutAt_eq_none_iff.1 h, .inl ⟨rfl, rfl⟩⟩
  | some r =>
    obtain ⟨h1, h2⟩ := cutAt_eq_some_iff.1 h
    exact ⟨h2, .inr h1⟩

theorem splitUri_of_not_mem {path : Bytes} (h : question ∉ path) : splitUri path = (path, []) := by
  rw [splitUri, cutAt_eq_none_iff.2 h]
  rfl

theorem splitUri_append {path : Bytes} (h : question ∉ path) (query : Bytes) :
    splitUri (path ++ question :: query) = (path, query) := by
  rw [splitUri, cutAt_append h]
  rfl

/-- a header line as the parser cuts it: name, and the text after the colon -/
def fieldLine (fv : Bytes × Bytes) : Bytes := fv.1 ++ colon :: fv.2

/-- the value as `ParseHeaderLine` passes it on -/
def fieldValue (fv : Bytes × Bytes) : Bytes := fv.2.dropWhile (· == SP)

def isContentLength (fv : Bytes × Bytes) : Bool := lowerCopy fv.1 == str "content-length"

def addFields (req : HttpRequest) (fields : List (Bytes × Bytes)) : HttpRequest :=
  fields.foldl (fun r fv => HttpRequest.addHeaderLowered r (lowerCopy fv.1) (fieldValue fv)) req

theorem addFields_frame (req : HttpRequest) (fields : List (Bytes × Bytes)) :
    (addFields req fields).method = req.method ∧ (addFields req fields).version = req.version ∧
    (addFields req fields).path = req.path ∧ (addFields req fields).query = req.query ∧
    (addFields req fields).body = req.body := by
  induction fields generalizing req with
  | nil => exact ⟨rfl, rfl, rfl, rfl, rfl⟩
  | cons fv fields ih =>
    obtain ⟨h1, h2, h3, h4, h5⟩ := ih (req.addHeaderLowered (lowerCopy fv.1) (fieldValue fv))
    obtain ⟨g1, g2, g3, g4, g5⟩ := req.addHeaderLowered_frame (lowerCopy fv.1) (fieldValue fv)
    exact ⟨h1.trans g1, h2.trans g2, h3.trans g3, h4.trans g4, h5.trans g5⟩

/-- the header fields announce exactly `n` body bytes: one content length of that value, or none and no byte -/
def Announce (fields : List (Bytes × Bytes)) (n : ℕ) : Prop :=
  match fields.filter isContentLength with
  | [] => n = 0
  | [fv] => fromChars (2 ^ 64) (fieldValue fv) = some (n, [])
  | _ => False

instance (fields : List (Bytes × Bytes)) (n : ℕ) : Decidable (Announce fields n) :=
  match h : fields.filter isContentLength with
  | [] => decidable_of_iff (n = 0) (by simp only [Announce, h])
  | [fv] => decidable_of_iff (fromChars (2 ^ 64) (fieldValue fv) = some (n, [])) (by simp only [Announce, h])
  | _ :: _ :: _ => isFalse (by simp only [Announce, h, not_false_eq_true])

theorem announce_filter (fields : List (Bytes × Bytes)) (n : ℕ) :
    Announce (fields.filter isContentLength) n ↔ Announce fields n := by
  simp only [Announce, filter_filter, Bool.and_self]

/-- a request as text, with what makes it well formed -/
structure RequestText where
  method : Method
  uri : Bytes
  version : Version
  fields : List (Bytes × Bytes)
  body : Bytes
  method_ok : method ≠ .invalid
  version_ok : version ≠ .unknown
  uri_ok : SP ∉ uri ∧ PairFree CR LF uri
  fields_ok : ∀ fv ∈ fields, fv.1 ≠ [] ∧ colon ∉ fv.1 ∧ PairFree CR LF (fieldLine fv) ∧
    lowerCopy fv.1 ≠ str "transfer-encoding"
  body_ok : Announce fields body.length

namespace RequestText

def requestLine (t : RequestText) : Bytes :=
  methodToString t.method ++ SP :: (t.uri ++ SP :: versionToString t.version)

def bytes (t : RequestText) : Bytes :=
  t.requestLine ++ CRLF ++ joinPair CR LF (t.fields.map fieldLine) ++ CRLF ++ CRLF ++ t.body

def start (t : RequestText) : HttpRequest :=
  { method := t.method, version := t.version, path := (splitUri t.uri).1, query := (splitUri t.uri).2 }

def request (t : RequestText) : HttpRequest := { addFields t.start t.fields with body := t.body }

/-- the text keeps to the caps -/
structure Within (lim : Limits) (t : RequestText) : Prop where
  requestLine : exceeds t.requestLine.length lim.maxRequestLine = false
  headerLine : ∀ fv ∈ t.fields, exceeds (fieldLine fv).length lim.maxHeaderLine = false
  headerCount : exceeds t.fields.length lim.maxHeaderCount = false
  headerBytes : exceeds (t.fields.map fieldLine).flatten.length lim.maxHeaderBytes = false
  bodyBytes : exceeds t.body.length lim.maxBodyBytes = false

end RequestText

theorem exceeds_of_le {m n : ℕ} {cap : Option ℕ} (hmn : m ≤ n) (h : exceeds n cap = false) : exceeds m cap = false := by
  cases cap with
  | none => rfl
  | some cap =>
    simp only [exceeds, decide_eq_false_iff_not, not_lt] at h ⊢
    exact hmn.trans h

variable {fields : List (Bytes × Bytes)} {fv kv : Bytes × Bytes} {s line : Bytes}

namespace HttpParser

/-! ## The request line -/

variable {p q : HttpParser} {lim : Limits} {v : Version} {lines : List Bytes} {m : Method} {n : ℕ}

theorem parseMethod_methodToString (h : m ≠ .invalid) : parseMethod (methodToString m) = some m := by
  cases m <;> first | exact absurd rfl h | decide

theorem parseMethod_some (h : parseMethod s = some m) : m ≠ .invalid ∧ s = methodToString m := by
  iterate 9
    rcases ite_eq_iff.1 h with ⟨hs, hm⟩ | ⟨-, h⟩
    · obtain rfl := Option.some.inj hm
      exact ⟨nofun, hs⟩
  cases h

theorem parseVersion_versionToString (h : v ≠ .unknown) :
    parseVersion (versionToString v) = some v := by
  cases v <;> first | exact absurd rfl h | decide

theorem parseVersion_some (h : parseVersion s = some v) :
    v ≠ .unknown ∧ s = versionToString v := by
  unfold parseVersion at h
  split_ifs at h with h1 h2 <;> cases h <;> exact ⟨by decide, by assumption⟩

/-- method, target and version of a request line, put into the request -/
def setRequestLine (p : HttpParser) (m : Method) (uri : Bytes) (v : Version) : HttpParser :=
  { p with request := { p.request with
      method := m, version := v, path := (splitUri uri).1, query := (splitUri uri).2 } }

theorem parseRequestLine_of (p : HttpParser) {uri : Bytes} (hm : m ≠ .invalid) (hv : v ≠ .unknown) (hu : SP ∉ uri) :
    parseRequestLine p (methodToString m ++ SP :: (uri ++ SP :: versionToString v)) =
      (.cont, setRequestLine p m uri v) := by
  unfold parseRequestLine
  rw [cutAt_append (by cases m <;> decide)]
  simp only [cutAt_append hu, parseMethod_methodToString hm, parseVersion_versionToString hv]
  cases hq : cutAt question uri with
  | none => simp [setRequestLine, splitUri, hq]
  | some r => simp [setRequestLine, splitUri, hq]

theorem parseRequestLine_cont (h : parseRequestLine p line = (.cont, q)) :
    ∃ m uri v, m ≠ .invalid ∧ v ≠ .unknown ∧ SP ∉ uri ∧
      line = methodToString m ++ SP :: (uri ++ SP :: versionToString v) ∧ q = setRequestLine p m uri v := by
  have h' := h
  revert h
  fun_cases parseRequestLine p line <;> intro h <;> try cases congrArg Prod.fst h
  all_goals
    obtain ⟨hm, rfl⟩ := parseMethod_some ‹parseMethod _ = some _›
    obtain ⟨hv, rfl⟩ := parseVersion_some ‹parseVersion _ = some _›
    obtain ⟨rfl, hu⟩ := cutAt_eq_some_iff.1 ‹cutAt SP _ = some (_, versionToString _)›
    obtain ⟨rfl, -⟩ := cutAt_eq_some_iff.1 ‹cutAt SP line = some _›
    rw [parseRequestLine_of p hm hv hu] at h'
    exact ⟨_, _, _, hm, hv, hu, rfl, (Prod.mk.inj h').2.symm⟩

/-! ## The header lines -/

/-- the parser with a header line taken, that expects `n` body bytes from then on -/
def took (p : HttpParser) (fv : Bytes × Bytes) (n : ℕ) : HttpParser :=
  { p with
    headerCount := p.headerCount + 1
    headerBytes := p.headerBytes + (fieldLine fv).length
    contentLengthSeen := p.contentLengthSeen || isContentLength fv
    bodyBytesExpected := n
    request := p.request.addHeaderLowered (lowerCopy fv.1) (fieldValue fv) }

theorem cont_of_check {c : Prop} [Decidable c] {status : ParseStatus} {r : ParseStatus × HttpParser}
    (h : (if c then (status, p) else r) = (.cont, q)) (hstatus : status ≠ .cont) : ¬c ∧ r = (.cont, q) := by
  rcases ite_eq_iff.1 h with ⟨-, hstop⟩ | hgo
  · exact absurd (congrArg Prod.fst hstop) hstatus
  · exact hgo

theorem parseHeaderLine_iff : parseHeaderLine lim p line = (.cont, q) ↔
    ∃ fv n, line = fieldLine fv ∧ (fv.1 ≠ [] ∧ colon ∉ fv.1 ∧ lowerCopy fv.1 ≠ str "transfer-encoding") ∧
      exceeds (p.headerCount + 1) lim.maxHeaderCount = false ∧
      exceeds (p.headerBytes + line.length) lim.maxHeaderBytes = false ∧
      (if isContentLength fv then p.contentLengthSeen = false ∧ fromChars (2 ^ 64) (fieldValue fv) = some (n, []) ∧
        exceeds n lim.maxBodyBytes = false else n = p.bodyBytesExpected) ∧ q = p.took fv n := by
  constructor
  · intro h
    obtain ⟨hcount, h⟩ := cont_of_check h nofun
    obtain ⟨hbytes, h⟩ := cont_of_check h nofun
    rw [Bool.not_eq_true] at hcount hbytes
    cases hcut : cutAt colon line with
    | none =>
      rw [hcut] at h
      cases congrArg Prod.fst h
    | some fv =>
      obtain ⟨hline, hcolon⟩ := cutAt_eq_some_iff.1 hcut
      rw [hcut] at h
      obtain ⟨hne, h⟩ := cont_of_check h nofun
      obtain ⟨hte, h⟩ := cont_of_check h nofun
      subst hline
      rcases ite_eq_iff.1 h with ⟨hlow, h⟩ | ⟨hlow, h⟩
      · have hcl : isContentLength fv = true := beq_iff_eq.2 hlow
        obtain ⟨hseen, h⟩ := cont_of_check h nofun
        split at h
        · rename_i len hlen
          obtain ⟨hcap, h⟩ := cont_of_check h nofun
          rw [Bool.not_eq_true] at hseen hcap
          refine ⟨fv, len, rfl, ⟨hne, hcolon, hte⟩, hcount, hbytes, by rw [if_pos hcl]; exact ⟨hseen, hlen, hcap⟩, ?_⟩
          rw [← (Prod.mk.inj h).2, took, hcl, Bool.or_true]
          rfl
        · cases congrArg Prod.fst h
      · have hcl : isContentLength fv = false := beq_eq_false_iff_ne.2 hlow
        refine ⟨fv, _, rfl, ⟨hne, hcolon, hte⟩, hcount, hbytes, by rw [hcl]; exact rfl, ?_⟩
        rw [← (Prod.mk.inj h).2, took, hcl, Bool.or_false]
        rfl
  · rintro ⟨fv, n, rfl, ⟨hne, hcolon, hte⟩, hcount, hbytes, hn, rfl⟩
    have hcut : cutAt colon (fieldLine fv) = some (fv.1, fv.2) := cutAt_append hcolon fv.2
    simp only [parseHeaderLine, hcount, hbytes, Bool.false_eq_true, if_false, hcut, hne, hte]
    cases hcl : isContentLength fv with
    | true =>
      have hlow : lowerCopy fv.1 = str "content-length" := beq_iff_eq.1 hcl
      obtain ⟨hseen, hchars, hcap⟩ := if_pos hcl ▸ hn
      rw [fieldValue] at hchars
      simp only [hlow, if_true, hseen, Bool.false_eq_true, if_false, hchars, hcap, took, hcl, Bool.or_true]
      rfl
    | false =>
      obtain rfl : n = p.bodyBytesExpected := by simpa [hcl] using hn
      simp only [beq_eq_false_iff_ne.1 hcl, if_false, took, hcl, Bool.or_false]
      rfl

theorem parseHeaders_snoc_iff : parseHeaders lim p (lines ++ [line]) = (.cont, q) ↔
    ∃ p', parseHeaders lim p lines = (.cont, p') ∧ exceeds line.length lim.maxHeaderLine = false ∧
      parseHeaderLine lim p' line = (.cont, q) := by
  induction lines generalizing p with
  | nil =>
    simp only [nil_append, parseHeaders, Prod.mk.injEq, true_and, exists_eq_left']
    cases exceeds line.length lim.maxHeaderLine with
    | true => simp
    | false => rcases parseHeaderLine lim p line with ⟨- | -, p'⟩ <;> simp
  | cons l lines ih =>
    simp only [cons_append, parseHeaders]
    cases exceeds l.length lim.maxHeaderLine with
    | true => simp
    | false => rcases parseHeaderLine lim p l with ⟨- | -, p'⟩ <;> simp [ih]

/-- the fields are taken, and announce `n` body bytes -/
structure Takes (lim : Limits) (fields : List (Bytes × Bytes)) (n : ℕ) : Prop where
  ok : ∀ fv ∈ fields, fv.1 ≠ [] ∧ colon ∉ fv.1 ∧ lowerCopy fv.1 ≠ str "transfer-encoding"
  headerLine : ∀ fv ∈ fields, exceeds (fieldLine fv).length lim.maxHeaderLine = false
  headerCount : exceeds fields.length lim.maxHeaderCount = false
  headerBytes : exceeds (fields.map fieldLine).flatten.length lim.maxHeaderBytes = false
  bodyBytes : exceeds n lim.maxBodyBytes = false
  announce : Announce fields n

theorem exceeds_zero (cap : Option ℕ) : exceeds 0 cap = false := by
  cases cap <;> simp [exceeds]

theorem takes_nil : Takes lim [] n ↔ n = 0 := by
  refine ⟨fun h => h.announce, ?_⟩
  rintro rfl
  exact ⟨by simp, by simp, exceeds_zero _, exceeds_zero _, exceeds_zero _, rfl⟩

theorem announce_snoc : Announce (fields ++ [fv]) n ↔
    if isContentLength fv then fields.any isContentLength = false ∧ fromChars (2 ^ 64) (fieldValue fv) = some (n, [])
    else Announce fields n := by
  have hany : fields.any isContentLength = false ↔ fields.filter isContentLength = [] := by simp
  rw [hany, Announce, Announce, filter_append]
  cases hcl : isContentLength fv with
  | false => simp [hcl]
  | true => rcases fields.filter isContentLength with - | ⟨g, - | ⟨g', gs⟩⟩ <;> simp [hcl]

theorem takes_snoc : Takes lim (fields ++ [fv]) n ↔ ∃ m, Takes lim fields m ∧
    (fv.1 ≠ [] ∧ colon ∉ fv.1 ∧ lowerCopy fv.1 ≠ str "transfer-encoding") ∧
    exceeds (fieldLine fv).length lim.maxHeaderLine = false ∧
    exceeds (fields.length + 1) lim.maxHeaderCount = false ∧
    exceeds ((fields.map fieldLine).flatten.length + (fieldLine fv).length) lim.maxHeaderBytes = false ∧
    if isContentLength fv then fields.any isContentLength = false ∧ fromChars (2 ^ 64) (fieldValue fv) = some (n, []) ∧
      exceeds n lim.maxBodyBytes = false else n = m := by
  have hlen : ((fields ++ [fv]).map fieldLine).flatten.length =
      (fields.map fieldLine).flatten.length + (fieldLine fv).length := by simp
  constructor
  · rintro ⟨hok, hline, hcount, hbytes, hbody, hannounce⟩
    rw [length_append, length_singleton] at hcount
    rw [hlen] at hbytes
    obtain ⟨hok, hok'⟩ := forall_mem_append.1 hok
    obtain ⟨hline, hline'⟩ := forall_mem_append.1 hline
    have htakes : ∀ m ≤ n, Announce fields m → Takes lim fields m := fun m hm h =>
      ⟨hok, hline, exceeds_of_le (Nat.le_add_right _ _) hcount, exceeds_of_le (Nat.le_add_right _ _) hbytes,
        exceeds_of_le hm hbody, h⟩
    rw [announce_snoc] at hannounce
    split_ifs at hannounce ⊢ with hcl
    -- the fields in front of the one content length announce no byte
    · have hnone : fields.filter isContentLength = [] := by simpa using hannounce.1
      exact ⟨0, htakes 0 n.zero_le (by rw [Announce, hnone]), hok' fv mem_cons_self, hline' fv mem_cons_self, hcount,
        hbytes, hannounce.1, hannounce.2, hbody⟩
    · exact ⟨n, htakes n le_rfl hannounce, hok' fv mem_cons_self, hline' fv mem_cons_self, hcount, hbytes, rfl⟩
  · rintro ⟨m, h, hok, hline, hcount, hbytes, hn⟩
    refine ⟨forall_mem_append.2 ⟨h.ok, forall_mem_singleton.2 hok⟩,
      forall_mem_append.2 ⟨h.headerLine, forall_mem_singleton.2 hline⟩, ?_, hlen ▸ hbytes, ?_, announce_snoc.2 ?_⟩
    · rwa [length_append, length_singleton]
    · split_ifs at hn
      · exact hn.2.2
      · exact hn ▸ h.bodyBytes
    · split_ifs at hn ⊢
      · exact ⟨hn.1, hn.2.1⟩
      · exact hn ▸ h.announce

/-- the parser behind these header fields, that expects `n` body bytes -/
def behind (p : HttpParser) (fields : List (Bytes × Bytes)) (n : ℕ) : HttpParser :=
  { p with
    headerCount := fields.length
    headerBytes := (fields.map fieldLine).flatten.length
    contentLengthSeen := fields.any isContentLength
    bodyBytesExpected := n
    request := addFields p.request fields }

theorem took_behind {m : ℕ} : (p.behind fields m).took fv n = p.behind (fields ++ [fv]) n := by
  simp [took, behind, addFields]

/-- **The header lines that are taken**, and the parser that has taken them. -/
theorem parseHeaders_iff (hp : p.behind [] 0 = p) : parseHeaders lim p lines = (.cont, q) ↔
    ∃ fields n, lines = fields.map fieldLine ∧ Takes lim fields n ∧ q = p.behind fields n := by
  induction lines using List.reverseRecOn generalizing q with
  | nil =>
    constructor
    · intro h
      obtain rfl := (Prod.mk.inj h).2
      exact ⟨[], 0, rfl, takes_nil.2 rfl, hp.symm⟩
    · rintro ⟨fields, n, hnil, htakes, rfl⟩
      obtain rfl := map_eq_nil_iff.1 hnil.symm
      rw [takes_nil.1 htakes, hp]
      rfl
  | append_singleton lines line ih =>
    rw [parseHeaders_snoc_iff]
    constructor
    · rintro ⟨p', hp', hlen, hline⟩
      obtain ⟨fields, m, rfl, htakes, rfl⟩ := ih.1 hp'
      obtain ⟨fv, n, rfl, hok, hcount, hbytes, hn, rfl⟩ := parseHeaderLine_iff.1 hline
      exact ⟨fields ++ [fv], n, by simp, takes_snoc.2 ⟨m, htakes, hok, hlen, hcount, hbytes, hn⟩, took_behind⟩
    · rintro ⟨all, n, hlines, htakes, rfl⟩
      obtain ⟨fields, last, rfl, rfl, hlast⟩ := append_eq_map_iff.1 hlines
      obtain ⟨fv, rfl, rfl⟩ := map_eq_singleton_iff.1 hlast
      obtain ⟨m, htakes, hok, hlen, hcount, hbytes, hn⟩ := takes_snoc.1 htakes
      exact ⟨_, ih.2 ⟨fields, m, rfl, htakes, rfl⟩, hlen,
        parseHeaderLine_iff.2 ⟨fv, n, rfl, hok, hcount, hbytes, hn, took_behind.symm⟩⟩

/-! ## Whole requests -/

theorem headerLines_joinPair (h : ∀ l ∈ lines, PairFree CR LF l ∧ l ≠ []) :
    headerLines (joinPair CR LF lines) = lines := by
  cases lines with
  | nil => rfl
  | cons l ls =>
    have hne : joinPair CR LF (l :: ls) ≠ [] := by
      cases ls with
      | nil => exact (h l (by simp)).2
      | cons l' ls => simp [joinPair]
    rw [headerLines, if_neg hne]
    exact splitPair_joinPair (by decide) (by simp) fun m hm => (h m hm).1

theorem joinPair_headerLines (block : Bytes) : joinPair CR LF (headerLines block) = block := by
  unfold headerLines
  split_ifs with h
  · exact h.symm
  · exact joinPair_splitPair CR LF block

theorem headerLines_pairFree (block : Bytes) : ∀ l ∈ headerLines block, PairFree CR LF l := by
  unfold headerLines
  split_ifs
  · simp
  · exact splitPair_pairFree CR LF block

theorem fieldLine_ne_nil (fv : Bytes × Bytes) : fieldLine fv ≠ [] := by simp [fieldLine]

theorem find_headers (fields : List (Bytes × Bytes)) (h : ∀ fv ∈ fields, PairFree CR LF (fieldLine fv)) (rest : Bytes) :
    find [CR, LF, CR, LF] (joinPair CR LF (fields.map fieldLine) ++ CR :: LF :: CR :: LF :: rest) =
      some (joinPair CR LF (fields.map fieldLine)).length := by
  cases fields with
  | nil => exact find_joinPair (by decide) [] [] (pairFree_nil _ _) (by simp) rest
  | cons fv fields =>
    refine find_joinPair (by decide) _ _ (h fv (by simp)) (fun m hm => ?_) rest
    obtain ⟨gv, hgv, rfl⟩ := mem_map.1 hm
    exact ⟨h gv (mem_cons_of_mem _ hgv), fieldLine_ne_nil gv⟩

theorem requestLine_pairFree {uri : Bytes} (h : PairFree CR LF uri) :
    PairFree CR LF (methodToString m ++ SP :: (uri ++ SP :: versionToString v)) :=
  pairFree_append_cons (by decide) (by decide) (by cases m <;> decide)
    (pairFree_append_cons (by decide) (by decide) h (by cases v <;> decide))

theorem parseRequestLine_ne_gotAll (p : HttpParser) (line : Bytes) : (parseRequestLine p line).1 ≠ .gotAll := by
  unfold parseRequestLine
  repeat' split
  all_goals simp

theorem status_ite {c : Prop} [Decidable c] {r r' : ParseStatus × HttpParser} {statuses : List ParseStatus}
    (h : r.1 ∈ statuses) (h' : r'.1 ∈ statuses) : (if c then r else r').1 ∈ statuses := by
  split_ifs
  · exact h
  · exact h'

theorem parseHeaderLine_status (lim : Limits) (p : HttpParser) (line : Bytes) :
    (parseHeaderLine lim p line).1 = .headerTooLarge ∧ (exceeds (p.headerCount + 1) lim.maxHeaderCount = true ∨
        exceeds (p.headerBytes + line.length) lim.maxHeaderBytes = true) ∨
      (parseHeaderLine lim p line).1 ∈ [ParseStatus.cont, .badRequest, .payloadTooLarge] ∧
        ¬(exceeds (p.headerCount + 1) lim.maxHeaderCount = true ∨
          exceeds (p.headerBytes + line.length) lim.maxHeaderBytes = true) := by
  by_cases hcount : exceeds (p.headerCount + 1) lim.maxHeaderCount = true
  · exact .inl ⟨by rw [parseHeaderLine, if_pos hcount], .inl hcount⟩
  by_cases hbytes : exceeds (p.headerBytes + line.length) lim.maxHeaderBytes = true
  · exact .inl ⟨by rw [parseHeaderLine, if_neg hcount, if_pos hbytes], .inr hbytes⟩
  refine .inr ⟨?_, not_or.2 ⟨hcount, hbytes⟩⟩
  have hcont : ParseStatus.cont ∈ [ParseStatus.cont, .badRequest, .payloadTooLarge] := by decide
  have hbad : ParseStatus.badRequest ∈ [ParseStatus.cont, .badRequest, .payloadTooLarge] := by decide
  rw [parseHeaderLine, if_neg hcount, if_neg hbytes]
  cases cutAt colon line with
  | none => exact hbad
  | some fv =>
    refine status_ite hbad (status_ite hbad (status_ite (status_ite hbad ?_) hcont))
    split
    · exact status_ite (by simp) hcont
    · exact hbad

theorem parseHeaders_status (lim : Limits) (p : HttpParser) (lines : List Bytes) :
    (parseHeaders lim p lines).1 ∈ [ParseStatus.cont, .headerTooLarge, .badRequest, .payloadTooLarge] := by
  induction lines generalizing p with
  | nil => simp [parseHeaders]
  | cons line lines ih =>
    refine status_ite (by simp) ?_
    split
    · exact ih _
    · rcases parseHeaderLine_status lim p line with ⟨hlarge, -⟩ | ⟨hother, -⟩
      · rw [hlarge]
        decide
      · exact (by decide : [ParseStatus.cont, .badRequest, .payloadTooLarge] ⊆ _) hother

theorem parseHeaders_ne_gotAll (lim : Limits) (p : HttpParser) (lines : List Bytes) :
    (parseHeaders lim p lines).1 ≠ .gotAll := by
  intro h
  have hmem := parseHeaders_status lim p lines
  rw [h] at hmem
  exact absurd hmem (by decide)

theorem parseAvailable_stages (hp : p.gotAll = false) (h : parseAvailable lim p = (.gotAll, q)) :
    ∃ lineEnd headersEnd p₁ p₂,
      find CRLF p.pending = some lineEnd ∧ exceeds lineEnd lim.maxRequestLine = false ∧
      parseRequestLine p.reset (p.pending.take lineEnd) = (.cont, p₁) ∧
      find (CRLF ++ CRLF) (p₁.pending.drop (lineEnd + 2)) = some headersEnd ∧
      parseHeaders lim p₁ (headerLines ((p₁.pending.drop (lineEnd + 2)).take headersEnd)) = (.cont, p₂) ∧
      p₂.bodyBytesExpected ≤ ((p₁.pending.drop (lineEnd + 2)).drop (headersEnd + 4)).length ∧
      q = p₂.takeBody ((p₁.pending.drop (lineEnd + 2)).drop (headersEnd + 4)) := by
  revert h
  fun_cases parseAvailable lim p <;> intro h <;> try cases congrArg Prod.fst h
  case case1.refl hgot => exact absurd (hgot.symm.trans hp) (by decide)
  case case8.refl lineEnd hline hcap p₁ hp₁ _ headersEnd hend p₂ hp₂ _ hlen =>
    obtain rfl := (Prod.mk.inj h).2
    exact ⟨lineEnd, headersEnd, p₁, p₂, hline, Bool.eq_false_iff.2 hcap, hp₁, hend, hp₂, not_lt.1 hlen, rfl⟩
  case case9 => exact absurd (congrArg Prod.fst h) (parseHeaders_ne_gotAll _ _ _)
  case case10 => exact absurd (congrArg Prod.fst h) (parseRequestLine_ne_gotAll _ _)

theorem takeBody_request (h : p.request.body = []) (rest : Bytes) :
    (p.takeBody rest).request = { p.request with body := rest.take p.bodyBytesExpected } := by
  by_cases hn : p.bodyBytesExpected = 0
  · simp [takeBody, hn, ← h]
  · simp only [takeBody, ne_eq, hn, not_false_eq_true, if_true]

/-- **What is accepted is well formed.** When the parser reports a complete request, the bytes it held are a request
text followed by what it leaves pending, and the request it hands out is the one that text denotes. The text keeps to
the caps. -/
theorem parseAvailable_gotAll_within (hp : p.gotAll = false) (h : parseAvailable lim p = (.gotAll, q)) :
    ∃ t : RequestText, p.pending = t.bytes ++ q.pending ∧ q.request = t.request ∧ t.Within lim := by
  obtain ⟨lineEnd, headersEnd, p₁, p₂, hline, hcap, hp₁, hend, hp₂, hlen, rfl⟩ := parseAvailable_stages hp h
  obtain ⟨m, uri, v, hm, hv, hu, hl, rfl⟩ := parseRequestLine_cont hp₁
  have hsplit : p.pending = p.pending.take lineEnd ++ CRLF ++ p.pending.drop (lineEnd + 2) :=
    find_split (by decide) hline
  have hfree : PairFree CR LF (p.pending.take lineEnd) := find_pair_pairFree hline
  have hrest : (setRequestLine p.reset m uri v).pending.drop (lineEnd + 2) = p.pending.drop (lineEnd + 2) := rfl
  rw [hrest] at hend hp₂ hlen ⊢
  generalize p.pending.drop (lineEnd + 2) = rest at hsplit hend hp₂ hlen ⊢
  obtain ⟨fields, n, hfields, htakes, rfl⟩ := (parseHeaders_iff rfl).1 hp₂
  have hsplit' : rest = rest.take headersEnd ++ (CRLF ++ CRLF) ++ rest.drop (headersEnd + 4) :=
    find_split (by decide) hend
  generalize rest.drop (headersEnd + 4) = tail at hsplit' hlen ⊢
  have hblock : joinPair CR LF (fields.map fieldLine) = rest.take headersEnd := by
    rw [← hfields, joinPair_headerLines]
  have hbody : (tail.take n).length = n := by
    rw [length_take]
    exact min_eq_left hlen
  have huri : PairFree CR LF uri := by
    refine hfree.of_isInfix ⟨methodToString m ++ [SP], SP :: versionToString v, ?_⟩
    rw [hl]
    simp
  have hpf : ∀ fv ∈ fields, PairFree CR LF (fieldLine fv) := by
    intro fv hfv
    refine headerLines_pairFree (rest.take headersEnd) _ ?_
    rw [hfields]
    exact mem_map_of_mem hfv
  refine ⟨⟨m, uri, v, fields, tail.take n, hm, hv, ⟨hu, huri⟩, fun fv hfv =>
    ⟨(htakes.ok fv hfv).1, (htakes.ok fv hfv).2.1, hpf fv hfv, (htakes.ok fv hfv).2.2⟩, hbody.symm ▸ htakes.announce⟩,
    ?_, ?_, ?_⟩
  · simp only [RequestText.bytes, RequestText.requestLine]
    rw [hblock, ← hl]
    conv_lhs => rw [hsplit, hsplit']
    simp [takeBody, behind]
  · rw [takeBody_request (addFields_frame _ _).2.2.2.2]
    rfl
  · have hlineLen : (p.pending.take lineEnd).length = lineEnd := by
      rw [length_take, min_eq_left]
      exact (Nat.le_add_right _ _).trans (find_length_le (by decide) hline)
    refine ⟨?_, htakes.headerLine, htakes.headerCount, htakes.headerBytes, hbody.symm ▸ htakes.bodyBytes⟩
    rw [← hlineLen, hl] at hcap
    exact hcap

theorem parseAvailable_gotAll (hp : p.gotAll = false) (h : parseAvailable lim p = (.gotAll, q)) :
    ∃ t : RequestText, p.pending = t.bytes ++ q.pending ∧ q.request = t.request := by
  obtain ⟨t, hpend, hreq, -⟩ := parseAvailable_gotAll_within hp h
  exact ⟨t, hpend, hreq⟩

theorem bytes_append (t : RequestText) (left : Bytes) : t.bytes ++ left =
    t.requestLine ++ CR :: LF ::
      (joinPair CR LF (t.fields.map fieldLine) ++ CR :: LF :: CR :: LF :: (t.body ++ left)) := by
  simp [RequestText.bytes, CRLF]

theorem find_line (t : RequestText) (left : Bytes) : find CRLF (t.bytes ++ left) = some t.requestLine.length := by
  rw [bytes_append]
  exact find_pair (by decide) (requestLine_pairFree t.uri_ok.2) _

theorem take_line (t : RequestText) (left : Bytes) : (t.bytes ++ left).take t.requestLine.length = t.requestLine := by
  rw [bytes_append, take_left]

theorem drop_line (t : RequestText) (left : Bytes) : (t.bytes ++ left).drop (t.requestLine.length + 2) =
    joinPair CR LF (t.fields.map fieldLine) ++ CR :: LF :: CR :: LF :: (t.body ++ left) := by
  rw [bytes_append, ← drop_drop, drop_left]
  rfl

theorem find_section (t : RequestText) (left : Bytes) :
    find (CRLF ++ CRLF) ((t.bytes ++ left).drop (t.requestLine.length + 2)) =
      some (joinPair CR LF (t.fields.map fieldLine)).length := by
  rw [drop_line]
  exact find_headers t.fields (fun fv hfv => (t.fields_ok fv hfv).2.2.1) (t.body ++ left)

/-- **Every well-formed request that keeps to the caps is accepted**, and what follows it is left pending. -/
theorem parseAvailable_of_within (hp : p.gotAll = false) (t : RequestText) (hlim : t.Within lim) (left : Bytes)
    (h : p.pending = t.bytes ++ left) :
    ∃ q, parseAvailable lim p = (.gotAll, q) ∧ q.request = t.request ∧ q.pending = left := by
  set block := joinPair CR LF (t.fields.map fieldLine) with hblock
  have hpend : p.reset.pending = t.bytes ++ left := h
  have hline : find [CR, LF] p.reset.pending = some t.requestLine.length := hpend ▸ find_line t left
  have htake : p.reset.pending.take t.requestLine.length = t.requestLine := hpend ▸ take_line t left
  have hrl : parseRequestLine p.reset t.requestLine = (.cont, setRequestLine p.reset t.method t.uri t.version) :=
    parseRequestLine_of _ t.method_ok t.version_ok t.uri_ok.1
  have hdrop : (setRequestLine p.reset t.method t.uri t.version).pending.drop (t.requestLine.length + 2) =
      block ++ CR :: LF :: CR :: LF :: (t.body ++ left) := by
    change p.reset.pending.drop _ = _
    rw [hpend, drop_line]
  have hend : find [CR, LF, CR, LF] (block ++ CR :: LF :: CR :: LF :: (t.body ++ left)) = some block.length := by
    rw [← drop_line]
    exact find_section t left
  have hlines : headerLines block = t.fields.map fieldLine := by
    refine headerLines_joinPair fun l hl => ?_
    obtain ⟨fv, hfv, rfl⟩ := mem_map.1 hl
    exact ⟨(t.fields_ok fv hfv).2.2.1, fieldLine_ne_nil fv⟩
  have htakes : Takes lim t.fields t.body.length := ⟨fun fv hfv =>
    ⟨(t.fields_ok fv hfv).1, (t.fields_ok fv hfv).2.1, (t.fields_ok fv hfv).2.2.2⟩, hlim.headerLine, hlim.headerCount,
    hlim.headerBytes, hlim.bodyBytes, t.body_ok⟩
  have hq := (parseHeaders_iff (p := setRequestLine p.reset t.method t.uri t.version) rfl).2
    ⟨t.fields, t.body.length, rfl, htakes, rfl⟩
  have htail : (block ++ CR :: LF :: CR :: LF :: (t.body ++ left)).drop (block.length + 4) = t.body ++ left := by
    rw [← drop_drop, drop_left]
    rfl
  have hlen : ¬ (t.body ++ left).length < t.body.length := by
    rw [length_append]
    omega
  refine ⟨((p.reset.setRequestLine t.method t.uri t.version).behind t.fields t.body.length).takeBody (t.body ++ left),
    ?_, ?_, drop_left⟩
  · simp only [parseAvailable, hp, Bool.false_eq_true, if_false, hline, htake, hrl, hdrop, hend, take_left, hlines,
      hq, htail, hlim.requestLine]
    exact if_neg hlen
  · rw [takeBody_request (addFields_frame _ _).2.2.2.2]
    show ({ addFields t.start t.fields with body := (t.body ++ left).take t.body.length } : HttpRequest) = _
    rw [take_left]
    rfl

theorem parseAvailable_of_text (hp : p.gotAll = false) (t : RequestText) (left : Bytes)
    (h : p.pending = t.bytes ++ left) :
    ∃ q, parseAvailable unlimited p = (.gotAll, q) ∧ q.request = t.request ∧ q.pending = left :=
  parseAvailable_of_within hp t ⟨rfl, fun _ _ => rfl, rfl, rfl, rfl⟩ left h

end HttpParser

/-! ## The header map of a request text -/

def entry (fv : Bytes × Bytes) : Bytes × Bytes := (lowerCopy fv.1, trim (fieldValue fv))

/-- the first line of its name, the one whose value the map keeps -/
def IsFirst (fields : List (Bytes × Bytes)) (fv : Bytes × Bytes) : Prop :=
  ∃ l r, fields = l ++ fv :: r ∧ ∀ gv ∈ l, lowerCopy gv.1 ≠ lowerCopy fv.1

theorem IsFirst.mem (h : IsFirst fields fv) : fv ∈ fields := by
  obtain ⟨l, r, rfl, -⟩ := h
  simp

theorem IsFirst.snoc (h : IsFirst fields fv) (gv : Bytes × Bytes) :
    IsFirst (fields ++ [gv]) fv := by
  obtain ⟨l, r, rfl, hl⟩ := h
  exact ⟨l, r ++ [gv], by simp, hl⟩

theorem isFirst_snoc_iff {gv : Bytes × Bytes} :
    IsFirst (fields ++ [gv]) fv ↔
      IsFirst fields fv ∨ fv = gv ∧ ∀ hv ∈ fields, lowerCopy hv.1 ≠ lowerCopy gv.1 := by
  constructor
  · rintro ⟨l, r, hl, hne⟩
    rcases eq_nil_or_concat r with rfl | ⟨r', g, rfl⟩
    · obtain ⟨rfl, hg⟩ := append_inj' hl rfl
      simp only [List.cons.injEq, and_true] at hg
      exact .inr ⟨hg.symm, hg ▸ hne⟩
    · rw [concat_eq_append, ← cons_append, ← append_assoc] at hl
      obtain ⟨rfl, -⟩ := append_inj' hl rfl
      exact .inl ⟨l, r', rfl, hne⟩
  · rintro (h | ⟨rfl, h⟩)
    · exact h.snoc gv
    · exact ⟨fields, [], rfl, h⟩

theorem exists_isFirst (h : fv ∈ fields) :
    ∃ gv, IsFirst fields gv ∧ lowerCopy gv.1 = lowerCopy fv.1 := by
  induction fields with
  | nil => simp at h
  | cons g fields ih =>
    by_cases hg : lowerCopy g.1 = lowerCopy fv.1
    · exact ⟨g, ⟨[], fields, rfl, by simp⟩, hg⟩
    · have hmem : fv ∈ fields := by
        rcases mem_cons.1 h with rfl | h
        · exact absurd rfl hg
        · exact h
      obtain ⟨gv, ⟨l, r, rfl, hl⟩, hlow⟩ := ih hmem
      refine ⟨gv, ⟨g :: l, r, rfl, fun hv hhv => ?_⟩, hlow⟩
      rcases mem_cons.1 hhv with rfl | hhv
      · exact fun hc => hg (hc.trans hlow)
      · exact hl hv hhv

theorem pairFree_lowerCopy (h : PairFree CR LF s) : PairFree CR LF (lowerCopy s) := by
  rintro ⟨l, r, hlr⟩
  obtain ⟨s₁, s₂, rfl, h₁, -⟩ := map_eq_append_iff.1 hlr.symm
  obtain ⟨s₃, s₄, rfl, -, h₄⟩ := map_eq_append_iff.1 h₁
  obtain ⟨x, s₅, rfl, hx, h₅⟩ := map_eq_cons_iff.1 h₄
  obtain ⟨y, s₆, rfl, hy, h₆⟩ := map_eq_cons_iff.1 h₅
  obtain rfl := map_eq_nil_iff.1 h₆
  obtain rfl := (lowerByte_eq_iff (by decide) x).1 hx
  obtain rfl := (lowerByte_eq_iff (by decide) y).1 hy
  exact h ⟨s₃, s₂, rfl⟩

theorem filter_fst_eq {l : List (Bytes × Bytes)} (hn : (l.map Prod.fst).Nodup) (h : kv ∈ l) :
    l.filter (fun e => e.1 == kv.1) = [kv] := by
  induction l with
  | nil => simp at h
  | cons e l ih =>
    rw [map_cons, nodup_cons] at hn
    rcases mem_cons.1 h with rfl | h
    · have hnone : l.filter (fun e => e.1 == kv.1) = [] := by
        rw [filter_eq_nil_iff]
        intro e he hk
        exact hn.1 (mem_map.2 ⟨e, he, eq_of_beq hk⟩)
      rw [filter_cons_of_pos (by simp), hnone]
    · have hne : e.1 ≠ kv.1 := fun hc => hn.1 (hc ▸ mem_map_of_mem h)
      rw [filter_cons_of_neg (by simpa using hne), ih hn.2 h]

/-- what the map holds of the header lines -/
structure Holds (headers fields : List (Bytes × Bytes)) : Prop where
  mem_iff : ∀ kv, kv ∈ headers ↔ ∃ fv, IsFirst fields fv ∧ kv = entry fv
  nodup : (headers.map Prod.fst).Nodup

theorem addFields_snoc (req : HttpRequest) (fields : List (Bytes × Bytes)) (fv : Bytes × Bytes) :
    addFields req (fields ++ [fv]) = (addFields req fields).addHeaderLowered (lowerCopy fv.1) (fieldValue fv) := by
  simp [addFields]

theorem Holds.any_iff {headers : List (Bytes × Bytes)} (h : Holds headers fields) (f : Bytes) :
    (headers.any fun e => asciiCaseEqual e.1 (lowerCopy f)) = true ↔ ∃ fv ∈ fields, lowerCopy fv.1 = lowerCopy f := by
  simp only [any_eq_true, asciiCaseEqual_iff, lowerCopy_idem]
  constructor
  · rintro ⟨kv, hkv, heq⟩
    obtain ⟨fv, hfv, rfl⟩ := (h.mem_iff kv).1 hkv
    exact ⟨fv, hfv.mem, by rw [← heq, entry, lowerCopy_idem]⟩
  · rintro ⟨fv, hfv, heq⟩
    obtain ⟨gv, hgv, hlow⟩ := exists_isFirst hfv
    exact ⟨entry gv, (h.mem_iff _).2 ⟨gv, hgv, rfl⟩, by rw [entry, lowerCopy_idem, hlow, heq]⟩

theorem holds_snoc {headers : List (Bytes × Bytes)} (h : Holds headers fields) (fv : Bytes × Bytes) :
    Holds (HttpRequest.insertHeader headers (entry fv)) (fields ++ [fv]) := by
  unfold HttpRequest.insertHeader
  split_ifs with hany
  · refine ⟨fun kv => (h.mem_iff kv).trans ⟨?_, ?_⟩, h.nodup⟩
    · rintro ⟨gv, hgv, rfl⟩
      exact ⟨gv, hgv.snoc fv, rfl⟩
    · rintro ⟨gv, hgv, rfl⟩
      rcases isFirst_snoc_iff.1 hgv with hgv | ⟨rfl, hnew⟩
      · exact ⟨gv, hgv, rfl⟩
      · obtain ⟨hv, hhv, heq⟩ := (h.any_iff gv.1).1 hany
        exact absurd heq (hnew hv hhv)
  · have hnew : ∀ hv ∈ fields, lowerCopy hv.1 ≠ lowerCopy fv.1 :=
      fun hv hhv heq => hany ((h.any_iff fv.1).2 ⟨hv, hhv, heq⟩)
    constructor
    · intro kv
      simp only [mem_append, mem_singleton, h.mem_iff]
      constructor
      · rintro (⟨gv, hgv, rfl⟩ | rfl)
        · exact ⟨gv, hgv.snoc fv, rfl⟩
        · exact ⟨fv, isFirst_snoc_iff.2 (.inr ⟨rfl, hnew⟩), rfl⟩
      · rintro ⟨gv, hgv, rfl⟩
        rcases isFirst_snoc_iff.1 hgv with hgv | ⟨rfl, -⟩
        · exact .inl ⟨gv, hgv, rfl⟩
        · exact .inr rfl
    · rw [map_append, nodup_append]
      refine ⟨h.nodup, by simp, ?_⟩
      intro k hk k' hk'
      obtain ⟨kv, hkv, rfl⟩ := mem_map.1 hk
      obtain ⟨gv, hgv, rfl⟩ := (h.mem_iff kv).1 hkv
      simp only [map_cons, map_nil, mem_singleton] at hk'
      rw [hk']
      exact hnew gv hgv.mem

theorem addFields_holds {req : HttpRequest} (hreq : req.headers = []) (fields : List (Bytes × Bytes)) :
    Holds (addFields req fields).headers fields := by
  induction fields using List.reverseRecOn with
  | nil =>
    refine ⟨fun kv => ?_, ?_⟩
    · simp [addFields, hreq, IsFirst]
    · simp [addFields, hreq]
  | append_singleton fields fv ih =>
    rw [addFields_snoc, HttpRequest.addHeaderLowered_headers]
    exact holds_snoc ih fv

theorem addFields_cached {req : HttpRequest} (h : req.Cached) (fields : List (Bytes × Bytes)) :
    (addFields req fields).Cached := by
  induction fields using List.reverseRecOn with
  | nil => exact h
  | append_singleton fields fv ih =>
    rw [addFields_snoc]
    exact HttpRequest.addHeaderLowered_cached ih _ _

namespace RequestText

theorem request_holds (t : RequestText) : Holds t.request.headers t.fields := addFields_holds rfl t.fields

theorem request_cached (t : RequestText) : t.request.Cached := by
  obtain ⟨h1, h2, h3⟩ : (addFields t.start t.fields).Cached :=
    addFields_cached ⟨.inl rfl, .inl rfl, .inl rfl⟩ t.fields
  exact ⟨h1, h2, h3⟩

theorem request_line (t : RequestText) : t.request.method = t.method ∧ t.request.path = (splitUri t.uri).1 ∧
    t.request.query = (splitUri t.uri).2 ∧ t.request.body = t.body := by
  obtain ⟨h1, -, h3, h4, -⟩ := addFields_frame t.start t.fields
  exact ⟨h1, h3, h4, rfl⟩

theorem request_headers_mem (t : RequestText) (h : kv ∈ t.request.headers) :
    ∃ fv ∈ t.fields, kv = entry fv := by
  obtain ⟨fv, hfv, rfl⟩ := (t.request_holds.mem_iff kv).1 h
  exact ⟨fv, hfv.mem, rfl⟩

theorem request_headers_ok (t : RequestText) (h : kv ∈ t.request.headers) :
    kv.1 ≠ [] ∧ colon ∉ kv.1 ∧ lowerCopy kv.1 = kv.1 ∧ kv.1 ≠ str "transfer-encoding" ∧ PairFree CR LF kv.1 ∧
      PairFree CR LF kv.2 := by
  obtain ⟨fv, hfv, rfl⟩ := t.request_headers_mem h
  obtain ⟨h1, h2, h3, h4⟩ := t.fields_ok fv hfv
  have hv : trim (fieldValue fv) <:+: fv.2 := (trimBy_isInfix _ _).trans (dropWhile_suffix _).isInfix
  refine ⟨by simpa [entry] using h1, fun hc => h2 ((mem_lowerCopy_iff (by decide) _).1 hc), lowerCopy_idem _, h4,
    pairFree_lowerCopy (h3.of_isInfix ⟨[], colon :: fv.2, by simp [fieldLine]⟩), ?_⟩
  exact (h3.of_isInfix ⟨fv.1 ++ [colon], [], by simp [fieldLine]⟩).of_isInfix hv

theorem request_contentLength (t : RequestText) :
    t.body = [] ∧ t.request.headers.filter (fun kv => kv.1 == str "content-length") = [] ∨
      ∃ v, t.request.headers.filter (fun kv => kv.1 == str "content-length") = [(str "content-length", v)] ∧
        fromChars (2 ^ 64) v = some (t.body.length, []) := by
  have hann := t.body_ok
  unfold Announce at hann
  split at hann
  · rename_i hnil
    refine .inl ⟨length_eq_zero_iff.1 hann, filter_eq_nil_iff.2 fun kv hkv hk => ?_⟩
    obtain ⟨fv, hfv, rfl⟩ := t.request_headers_mem hkv
    exact filter_eq_nil_iff.1 hnil fv hfv hk
  · rename_i fv hone
    have hmem : fv ∈ t.fields.filter isContentLength := by rw [hone]; simp
    obtain ⟨hfv, hcl⟩ := mem_filter.1 hmem
    obtain ⟨gv, hgv, hlow⟩ := exists_isFirst hfv
    have hgv' : gv ∈ t.fields.filter isContentLength :=
      mem_filter.2 ⟨hgv.mem, by rw [isContentLength, hlow]; exact hcl⟩
    rw [hone, mem_singleton] at hgv'
    subst hgv'
    have hkey : (entry gv).1 = str "content-length" := by simpa [isContentLength, entry] using hcl
    obtain ⟨d, -, hd, hval, -, -⟩ := fromChars_some hann
    have htrim : trim (fieldValue gv) = fieldValue gv := by
      refine trimBy_of_none fun b hb => ?_
      rw [hval, append_nil] at hb
      exact isDigit_ne (hd b hb) (by decide)
    have hin : entry gv ∈ t.request.headers := (t.request_holds.mem_iff _).2 ⟨gv, hgv, rfl⟩
    refine .inr ⟨trim (fieldValue gv), ?_, by rw [htrim]; exact hann⟩
    have := filter_fst_eq t.request_holds.nodup hin
    rw [hkey] at this
    rw [this, ← hkey]
    rfl
  · exact absurd hann id

end RequestText

/-! ## Reading a head -/

/-- the header lines of a message: names in lower case, and the text behind the colon -/
def headFields (text : Bytes) : List (Bytes × Bytes) :=
  match find CRLF text with
  | none => []
  | some lineEnd =>
    match find (CRLF ++ CRLF) (text.drop (lineEnd + 2)) with
    | none => []
    | some headEnd => (HttpParser.headerLines ((text.drop (lineEnd + 2)).take headEnd)).filterMap fun line =>
        (cutAt colon line).map fun nv => (lowerCopy nv.1, nv.2)

theorem headFields_lines (hline : PairFree CR LF line) (h : ∀ fv ∈ fields, colon ∉ fv.1 ∧ PairFree CR LF (fieldLine fv))
    (rest : Bytes) :
    headFields (line ++ CR :: LF :: (joinPair CR LF (fields.map fieldLine) ++ CR :: LF :: CR :: LF :: rest)) =
      fields.map fun fv => (lowerCopy fv.1, fv.2) := by
  have hlines : HttpParser.headerLines (joinPair CR LF (fields.map fieldLine)) = fields.map fieldLine := by
    refine HttpParser.headerLines_joinPair fun l hl => ?_
    obtain ⟨fv, hfv, rfl⟩ := mem_map.1 hl
    exact ⟨(h fv hfv).2, HttpParser.fieldLine_ne_nil fv⟩
  have hdrop : ∀ s : Bytes, (line ++ CR :: LF :: s).drop (line.length + 2) = s := fun s => by
    rw [← drop_drop, drop_left]
    rfl
  have hend : find (CRLF ++ CRLF) (joinPair CR LF (fields.map fieldLine) ++ CR :: LF :: CR :: LF :: rest) =
      some (joinPair CR LF (fields.map fieldLine)).length :=
        HttpParser.find_headers fields (fun fv hfv => (h fv hfv).2) rest
  simp only [headFields, CRLF, find_pair (show CR ≠ LF by decide) hline, hdrop]
  simp only [CRLF] at hend
  rw [hend]
  dsimp only
  rw [take_left, hlines, filterMap_map, ← filterMap_eq_map]
  refine filterMap_congr fun fv hfv => ?_
  rw [Function.comp_apply, fieldLine, cutAt_append (h fv hfv).1]
  rfl

end Coropact.Http
