/-
The request the gateway sends upstream (`BuildRequestInto`, `NamedByConnection`, `IsHopByHop` and `AppendHeader` in
`src/gateway/proxy_pass.cc`, `UpstreamPeer::host_port` in `include/coropact/gateway/upstream_peer.h`).

The header map of the client's request is walked in an order C++ leaves open, so the order is an argument (`iter`) that
holds the same entries. The text written so far is kept as the list of headers appended to it.
-/
import Coropact.Http.Parser

namespace Coropact.Gateway

open Coropact.Http Coropact.Text HttpParser List

/-! ## Model -/

structure UpstreamPeerConfig where
  host : Bytes := []
  port : UInt16 := 0
deriving DecidableEq, Repr

def UpstreamPeerConfig.hostPort (c : UpstreamPeerConfig) : Bytes := c.host ++ str ":" ++ toText c.port.toNat

structure ForwardedHeaderContext where
  clientIp : Bytes := []
  scheme : Bytes := []
  gatewayName : Bytes := []
  requestId : Bytes := []
deriving DecidableEq, Repr

/-- the pieces of a Connection value that the loop of `NamedByConnection` looks at: it stops when nothing is left, so
there is no empty piece behind a trailing comma -/
def connectionTokens : Bytes → List Bytes
  | [] => []
  | b :: s =>
    if b = comma then [] :: connectionTokens s
    else
      match connectionTokens s with
      | [] => [[b]]
      | t :: ts => (b :: t) :: ts

def namedByConnection (header connection : Bytes) : Bool :=
  (connectionTokens connection).any fun token => asciiCaseEqual header (trimBlanks token)

def hopByHopHeaders : List Bytes :=
  [str "connection", str "keep-alive", str "proxy-connection", str "proxy-authenticate", str "proxy-authorization",
    str "te", str "trailer", str "transfer-encoding", str "upgrade"]

def isHopByHop (header : Bytes) : Bool := hopByHopHeaders.contains header

def appendHeader (kv : Bytes × Bytes) : Bytes := kv.1 ++ str ": " ++ kv.2 ++ CRLF

structure Walk where
  kept : List (Bytes × Bytes) := []
  previousXff : Bytes := []
  previousVia : Bytes := []
  existingRequestId : Bytes := []
deriving DecidableEq, Repr

def walkHeader (connection : Bytes) (w : Walk) (kv : Bytes × Bytes) : Walk :=
  if kv.1 = str "host" ∨ isHopByHop kv.1 ∨ namedByConnection kv.1 connection then w
  else if kv.1 = str "x-forwarded-for" then { w with previousXff := kv.2 }
  else if kv.1 = str "via" then { w with previousVia := kv.2 }
  else if kv.1 = str "x-request-id" then { w with existingRequestId := kv.2 }
  else if kv.1 = str "x-real-ip" ∨ kv.1 = str "x-forwarded-proto" ∨ kv.1 = str "x-forwarded-host" ∨
      kv.1 = str "x-forwarded-port" then w
  else { w with kept := w.kept ++ [kv] }

def unlessEmpty (name value : Bytes) : List (Bytes × Bytes) := if value = [] then [] else [(name, value)]

def forwardedFor (previous clientIp : Bytes) : List (Bytes × Bytes) :=
  if previous ≠ [] ∧ clientIp ≠ [] then [(str "x-forwarded-for", previous ++ str ", " ++ clientIp)]
  else if previous ≠ [] then [(str "x-forwarded-for", previous)]
  else unlessEmpty (str "x-forwarded-for") clientIp

def viaHeader (previous gatewayName : Bytes) : List (Bytes × Bytes) :=
  if previous ≠ [] ∧ gatewayName ≠ [] then [(str "via", previous ++ str ", 1.1 " ++ gatewayName)]
  else if previous ≠ [] then [(str "via", previous)]
  else if gatewayName ≠ [] then [(str "via", str "1.1 " ++ gatewayName)]
  else []

def requestIdHeader (existing requestId : Bytes) : List (Bytes × Bytes) :=
  if existing ≠ [] then [(str "x-request-id", existing)] else unlessEmpty (str "x-request-id") requestId

def addedHeaders (w : Walk) (originalHost : Bytes) (peer : UpstreamPeerConfig) (forwarded : ForwardedHeaderContext) :
    List (Bytes × Bytes) :=
  forwardedFor w.previousXff forwarded.clientIp ++ unlessEmpty (str "x-real-ip") forwarded.clientIp ++
    unlessEmpty (str "x-forwarded-proto") forwarded.scheme ++ unlessEmpty (str "x-forwarded-host") originalHost ++
    viaHeader w.previousVia forwarded.gatewayName ++ requestIdHeader w.existingRequestId forwarded.requestId ++
    [(str "host", peer.hostPort), (str "connection", str "keep-alive")]

def walkHeaders (req : HttpRequest) (iter : List (Bytes × Bytes)) : Walk :=
  iter.foldl (walkHeader req.connection) {}

def forwardPath (req : HttpRequest) : Bytes := if req.path = [] then str "/" else req.path

def forwardUri (req : HttpRequest) : Bytes :=
  forwardPath req ++ if req.query = [] then [] else question :: req.query

def buildRequestInto (req : HttpRequest) (iter : List (Bytes × Bytes)) (peer : UpstreamPeerConfig)
    (forwarded : ForwardedHeaderContext) : Bytes :=
  let w := walkHeaders req iter
  methodToString req.method ++ str " " ++ forwardUri req ++ str " HTTP/1.1\r\n" ++
    ((w.kept ++ addedHeaders w req.host peer forwarded).map appendHeader).flatten ++ CRLF ++ req.body

/-! ## The text as lines -/

/-- the headers sent upstream, in the order they are written -/
def sentHeaders (req : HttpRequest) (iter : List (Bytes × Bytes)) (peer : UpstreamPeerConfig)
    (forwarded : ForwardedHeaderContext) : List (Bytes × Bytes) :=
  (walkHeaders req iter).kept ++ addedHeaders (walkHeaders req iter) req.host peer forwarded

/-- a header as the parser cuts its line: the blank after the colon belongs to the value -/
def spaced (kv : Bytes × Bytes) : Bytes × Bytes := (kv.1, SP :: kv.2)

theorem sentHeaders_ne_nil (req : HttpRequest) (iter : List (Bytes × Bytes)) (peer : UpstreamPeerConfig)
    (forwarded : ForwardedHeaderContext) : sentHeaders req iter peer forwarded ≠ [] := by
  simp [sentHeaders, addedHeaders]

theorem appendHeader_eq (kv : Bytes × Bytes) : appendHeader kv = fieldLine (spaced kv) ++ CRLF := by
  have h : str ": " = [colon, SP] := by decide
  simp [appendHeader, fieldLine, spaced, h]

theorem buildRequestInto_eq (req : HttpRequest) (iter : List (Bytes × Bytes)) (peer : UpstreamPeerConfig)
    (forwarded : ForwardedHeaderContext) :
    buildRequestInto req iter peer forwarded =
      methodToString req.method ++ SP :: (forwardUri req ++ SP :: versionToString .http11) ++ CRLF ++
        joinPair CR LF (((sentHeaders req iter peer forwarded).map spaced).map fieldLine) ++ CRLF ++ CRLF ++
        req.body := by
  have h1 : str " HTTP/1.1\r\n" = SP :: versionToString .http11 ++ CRLF := by decide
  have h2 : str " " = [SP] := by decide
  have h3 : ((sentHeaders req iter peer forwarded).map appendHeader).flatten =
      joinPair CR LF (((sentHeaders req iter peer forwarded).map spaced).map fieldLine) ++ CRLF := by
    rw [CRLF, ← flatten_map_append_pair CR LF (by simp [sentHeaders_ne_nil])]
    simp only [map_map]
    congr 2
    funext kv
    exact appendHeader_eq kv
  simp only [sentHeaders] at h3
  simp only [buildRequestInto, sentHeaders, h1, h2, h3]
  simp

/-! ## Which headers are sent -/

/-- headers of the client that are written back unchanged -/
def Passes (connection k : Bytes) : Prop :=
  ¬ (k = str "host" ∨ isHopByHop k ∨ namedByConnection k connection) ∧ k ≠ str "x-forwarded-for" ∧ k ≠ str "via" ∧
    k ≠ str "x-request-id" ∧
    ¬ (k = str "x-real-ip" ∨ k = str "x-forwarded-proto" ∨ k = str "x-forwarded-host" ∨ k = str "x-forwarded-port")

instance (connection k : Bytes) : Decidable (Passes connection k) := by
  unfold Passes
  infer_instance

theorem walkHeader_kept (connection : Bytes) (w : Walk) (kv : Bytes × Bytes) :
    (walkHeader connection w kv).kept = w.kept ++ if Passes connection kv.1 then [kv] else [] := by
  unfold walkHeader
  by_cases h1 : kv.1 = str "host" ∨ isHopByHop kv.1 ∨ namedByConnection kv.1 connection
  · rw [if_pos h1, if_neg fun h => h.1 h1, append_nil]
  rw [if_neg h1]
  by_cases h2 : kv.1 = str "x-forwarded-for"
  · rw [if_pos h2, if_neg fun h => h.2.1 h2, append_nil]
  rw [if_neg h2]
  by_cases h3 : kv.1 = str "via"
  · rw [if_pos h3, if_neg fun h => h.2.2.1 h3, append_nil]
  rw [if_neg h3]
  by_cases h4 : kv.1 = str "x-request-id"
  · rw [if_pos h4, if_neg fun h => h.2.2.2.1 h4, append_nil]
  rw [if_neg h4]
  by_cases h5 : kv.1 = str "x-real-ip" ∨ kv.1 = str "x-forwarded-proto" ∨ kv.1 = str "x-forwarded-host" ∨
      kv.1 = str "x-forwarded-port"
  · rw [if_pos h5, if_neg fun h => h.2.2.2.2 h5, append_nil]
  · rw [if_neg h5, if_pos ⟨h1, h2, h3, h4, h5⟩]

theorem walkHeaders_snoc (req : HttpRequest) (iter : List (Bytes × Bytes)) (kv : Bytes × Bytes) :
    walkHeaders req (iter ++ [kv]) = walkHeader req.connection (walkHeaders req iter) kv := by
  simp [walkHeaders]

theorem walkHeaders_kept (req : HttpRequest) (iter : List (Bytes × Bytes)) :
    (walkHeaders req iter).kept = iter.filter fun kv => Passes req.connection kv.1 := by
  induction iter using List.reverseRecOn with
  | nil => rfl
  | append_singleton iter kv ih =>
    rw [walkHeaders_snoc, walkHeader_kept, ih, filter_append]
    congr 1
    by_cases h : Passes req.connection kv.1 <;> simp [h]

variable {P : Bytes → Prop} {kv : Bytes × Bytes} {peer : UpstreamPeerConfig} {forwarded : ForwardedHeaderContext}
  {iter : List (Bytes × Bytes)}

theorem walkHeaders_captured (h0 : P []) (req : HttpRequest) (h : ∀ kv ∈ iter, P kv.2) :
    P (walkHeaders req iter).previousXff ∧ P (walkHeaders req iter).previousVia ∧
      P (walkHeaders req iter).existingRequestId := by
  induction iter using List.reverseRecOn with
  | nil => exact ⟨h0, h0, h0⟩
  | append_singleton iter kv ih =>
    obtain ⟨i1, i2, i3⟩ := ih fun gv hgv => h gv (by simp [hgv])
    have hkv : P kv.2 := h kv (by simp)
    rw [walkHeaders_snoc, walkHeader]
    split_ifs <;> exact ⟨by assumption, by assumption, by assumption⟩

def UpstreamPeerConfig.Clean (c : UpstreamPeerConfig) : Prop := Http.Clean c.host

instance (c : UpstreamPeerConfig) : Decidable c.Clean := inferInstanceAs (Decidable (Http.Clean c.host))

/-- no string of the forwarded context contains CR or LF -/
structure ForwardedHeaderContext.Clean (c : ForwardedHeaderContext) : Prop where
  clientIp : Http.Clean c.clientIp
  scheme : Http.Clean c.scheme
  gatewayName : Http.Clean c.gatewayName
  requestId : Http.Clean c.requestId

/-- a property of texts that the gateway's concatenations keep -/
structure Gluable (P : Bytes → Prop) : Prop where
  clean : ∀ s, Clean s → P s
  glue : ∀ a x b, x ≠ CR → x ≠ LF → P a → P b → P (a ++ x :: b)

theorem gluable_clean : Gluable Clean := by
  refine ⟨fun s h => h, fun a x b h1 h2 ha hb => ?_⟩
  simp only [Clean, mem_append, mem_cons, not_or]
  exact ⟨⟨ha.1, Ne.symm h1, hb.1⟩, ha.2, Ne.symm h2, hb.2⟩

theorem gluable_pairFree : Gluable (PairFree CR LF) :=
  ⟨fun _ h => pairFree_of_not_mem (.inl h.1), fun _ _ _ h1 h2 ha hb => pairFree_append_cons h1 h2 ha hb⟩

theorem gluable_true : Gluable fun _ => True := ⟨fun _ _ => trivial, fun _ _ _ _ _ _ _ => trivial⟩

theorem Gluable.glueText (hP : Gluable P) {a b : Bytes} (lit : Bytes) (hne : lit ≠ []) (hlit : Clean lit) (ha : P a)
    (hb : P b) : P (a ++ lit ++ b) := by
  induction lit generalizing a with
  | nil => exact absurd rfl hne
  | cons x lit ih =>
    simp only [Clean, mem_cons, not_or] at hlit
    cases lit with
    | nil => simpa using hP.glue a x b (Ne.symm hlit.1.1) (Ne.symm hlit.2.1) ha hb
    | cons y lit =>
      have hax : P (a ++ [x]) := by
        simpa using hP.glue a x [] (Ne.symm hlit.1.1) (Ne.symm hlit.2.1) ha (hP.clean [] (by decide))
      have := ih (a := a ++ [x]) (by simp) ⟨hlit.1.2, hlit.2.2⟩ hax
      simpa using this

def addedNames : List Bytes :=
  [str "x-forwarded-for", str "x-real-ip", str "x-forwarded-proto", str "x-forwarded-host", str "via",
    str "x-request-id", str "host", str "connection"]

/-- what was received, and behind it what the gateway adds -/
def joined (previous own : Bytes) : Bytes :=
  if previous = [] then own else if own = [] then previous else previous ++ str ", " ++ own

theorem joined_ne_nil {previous own : Bytes} : joined previous own ≠ [] ↔ previous ≠ [] ∨ own ≠ [] := by
  unfold joined
  split_ifs with h1 h2 <;> simp [h1]

theorem Gluable.joined (hP : Gluable P) {previous own : Bytes} (h1 : P previous) (h2 : P own) :
    P (joined previous own) := by
  unfold Gateway.joined
  split_ifs
  · exact h2
  · exact h1
  · exact hP.glueText _ (by decide) (by decide) h1 h2

def viaEntry (gatewayName : Bytes) : Bytes := if gatewayName = [] then [] else str "1.1 " ++ gatewayName

/-- the headers that the gateway adds; those without a value are not written -/
def ownValues (w : Walk) (originalHost : Bytes) (peer : UpstreamPeerConfig) (forwarded : ForwardedHeaderContext) :
    List (Bytes × Bytes) :=
  [(str "x-forwarded-for", joined w.previousXff forwarded.clientIp), (str "x-real-ip", forwarded.clientIp),
    (str "x-forwarded-proto", forwarded.scheme), (str "x-forwarded-host", originalHost),
    (str "via", joined w.previousVia (viaEntry forwarded.gatewayName)),
    (str "x-request-id", if w.existingRequestId = [] then forwarded.requestId else w.existingRequestId),
    (str "host", peer.hostPort), (str "connection", str "keep-alive")]

theorem addedHeaders_eq (w : Walk) (originalHost : Bytes) : addedHeaders w originalHost peer forwarded =
    (ownValues w originalHost peer forwarded).filter (·.2 ≠ []) := by
  have hone : ∀ n v : Bytes, unlessEmpty n v = [(n, v)].filter (·.2 ≠ []) := fun n v => by
    unfold unlessEmpty
    split_ifs with h <;> simp [h]
  have hxff : forwardedFor w.previousXff forwarded.clientIp =
      unlessEmpty (str "x-forwarded-for") (joined w.previousXff forwarded.clientIp) := by
    unfold forwardedFor unlessEmpty joined
    split_ifs <;> simp_all
  have hvia : viaHeader w.previousVia forwarded.gatewayName =
      unlessEmpty (str "via") (joined w.previousVia (viaEntry forwarded.gatewayName)) := by
    have hcomma : str ", 1.1 " = str ", " ++ str "1.1 " := by decide
    unfold viaHeader unlessEmpty joined viaEntry
    split_ifs <;> simp_all
  have hid : requestIdHeader w.existingRequestId forwarded.requestId = unlessEmpty (str "x-request-id")
      (if w.existingRequestId = [] then forwarded.requestId else w.existingRequestId) := by
    unfold requestIdHeader unlessEmpty
    split_ifs <;> simp_all
  have hlast : [(str "host", peer.hostPort), (str "connection", str "keep-alive")] =
      [(str "host", peer.hostPort), (str "connection", str "keep-alive")].filter (·.2 ≠ []) := by
    refine (filter_eq_self.2 ?_).symm
    simp [UpstreamPeerConfig.hostPort, show str "keep-alive" ≠ [] by decide, show str ":" ≠ [] by decide]
  rw [addedHeaders, hxff, hvia, hid, hlast]
  simp only [hone, ← filter_append]
  rfl

theorem addedHeaders_mem (hP : Gluable P) {w : Walk} {originalHost : Bytes} (hxff : P w.previousXff)
    (hvia : P w.previousVia) (hid : P w.existingRequestId) (hhost : P originalHost) (hpeer : peer.Clean)
    (hfwd : forwarded.Clean) (h : kv ∈ addedHeaders w originalHost peer forwarded) : kv.1 ∈ addedNames ∧ P kv.2 := by
  have hentry : P (viaEntry forwarded.gatewayName) := by
    unfold viaEntry
    split_ifs
    · exact hP.clean [] (by decide)
    · exact hP.glueText (str "1.1 ") (by decide) (by decide) (hP.clean [] (by decide)) (hP.clean _ hfwd.gatewayName)
  have hall : ∀ kv ∈ ownValues w originalHost peer forwarded, P kv.2 := by
    simp only [ownValues, forall_mem_cons]
    refine ⟨hP.joined hxff (hP.clean _ hfwd.clientIp), hP.clean _ hfwd.clientIp, hP.clean _ hfwd.scheme, hhost,
      hP.joined hvia hentry, ?_, ?_, hP.clean _ (by decide), forall_mem_nil _⟩
    · split_ifs
      · exact hP.clean _ hfwd.requestId
      · exact hid
    · exact hP.clean _ (gluable_clean.glueText (str ":") (by decide) (by decide) hpeer (clean_toText _))
  rw [addedHeaders_eq] at h
  have hmem := mem_of_mem_filter h
  exact ⟨show kv.1 ∈ (ownValues w originalHost peer forwarded).map Prod.fst from mem_map_of_mem hmem, hall kv hmem⟩

theorem sentHeaders_mem (hP : Gluable P) {req : HttpRequest} (hiter : ∀ kv ∈ iter, P kv.2) (hhost : P req.host)
    (hpeer : peer.Clean) (hfwd : forwarded.Clean) (h : kv ∈ sentHeaders req iter peer forwarded) :
    (kv ∈ iter ∧ Passes req.connection kv.1 ∨ kv.1 ∈ addedNames) ∧ P kv.2 := by
  rcases mem_append.1 h with h | h
  · rw [walkHeaders_kept, mem_filter, decide_eq_true_eq] at h
    exact ⟨.inl h, hiter kv h.1⟩
  · obtain ⟨h1, h2, h3⟩ := walkHeaders_captured (hP.clean [] (by decide)) req hiter
    obtain ⟨hn, hv⟩ := addedHeaders_mem hP h1 h2 h3 hhost hpeer hfwd h
    exact ⟨.inr hn, hv⟩

theorem sentHeaders_filter (q : Bytes → Bool) (hq : ∀ k ∈ addedNames, q k = false) {req : HttpRequest}
    (hpeer : peer.Clean) (hfwd : forwarded.Clean) :
    (sentHeaders req iter peer forwarded).filter (fun kv => q kv.1) =
      (iter.filter fun kv => Passes req.connection kv.1).filter fun kv => q kv.1 := by
  have hnone : (addedHeaders (walkHeaders req iter) req.host peer forwarded).filter (fun kv => q kv.1) = [] := by
    rw [filter_eq_nil_iff]
    intro kv hkv
    have hmem : kv.1 ∈ addedNames :=
      (addedHeaders_mem gluable_true trivial trivial trivial trivial hpeer hfwd hkv).1
    simp [hq kv.1 hmem]
  rw [sentHeaders, filter_append, hnone, append_nil, walkHeaders_kept]

/-! ## The forwarded request as a request text -/

section Forwarded

variable (t : RequestText)

theorem forwardUri_spec : SP ∉ forwardUri t.request ∧ PairFree CR LF (forwardUri t.request) ∧
    splitUri (forwardUri t.request) = (forwardPath t.request, t.request.query) := by
  obtain ⟨-, hpath, hquery, -⟩ := t.request_line
  obtain ⟨hq, huri⟩ := splitUri_spec t.uri
  have hinf1 : t.request.path <:+: t.uri := by
    rw [hpath]
    rcases huri with ⟨h, -⟩ | h
    · exact h ▸ infix_rfl
    · exact ⟨[], question :: (splitUri t.uri).2, by rw [nil_append]; exact h.symm⟩
  have hinf2 : t.request.query <:+: t.uri := by
    rw [hquery]
    rcases huri with ⟨-, h⟩ | h
    · exact h ▸ nil_infix
    · exact ⟨(splitUri t.uri).1 ++ [question], [], by rw [append_nil, append_assoc]; exact h.symm⟩
  have hslash : SP ∉ forwardPath t.request ∧ PairFree CR LF (forwardPath t.request) ∧
      question ∉ forwardPath t.request := by
    unfold forwardPath
    split_ifs
    · decide
    · exact ⟨fun h => t.uri_ok.1 (hinf1.subset h), t.uri_ok.2.of_isInfix hinf1, hpath ▸ hq⟩
  unfold forwardUri
  split_ifs with hnil
  · rw [append_nil, hnil]
    exact ⟨hslash.1, hslash.2.1, splitUri_of_not_mem hslash.2.2⟩
  · refine ⟨?_, pairFree_append_cons (by decide) (by decide) hslash.2.1 (t.uri_ok.2.of_isInfix hinf2),
      splitUri_append hslash.2.2 _⟩
    simp only [mem_append, mem_cons, not_or]
    exact ⟨hslash.1, by decide, fun h => t.uri_ok.1 (hinf2.subset h)⟩

variable {t} {iter : List (Bytes × Bytes)} {peer : UpstreamPeerConfig} {forwarded : ForwardedHeaderContext}
  (hiter : iter.Perm t.request.headers) (hpeer : peer.Clean) (hfwd : forwarded.Clean)

include hiter hpeer hfwd

theorem sentHeaders_ok : ∀ fv ∈ (sentHeaders t.request iter peer forwarded).map spaced, fv.1 ≠ [] ∧ colon ∉ fv.1 ∧
    PairFree CR LF (fieldLine fv) ∧ lowerCopy fv.1 ≠ str "transfer-encoding" := by
  intro fv hfv
  obtain ⟨kv, hkv, rfl⟩ := mem_map.1 hfv
  have hhost : PairFree CR LF t.request.host := by
    rcases t.request_cached.host with h | h
    · rw [h]
      exact pairFree_nil _ _
    · exact (t.request_headers_ok h).2.2.2.2.2
  obtain ⟨hname, hval⟩ := sentHeaders_mem gluable_pairFree
    (fun kv hkv => (t.request_headers_ok (hiter.subset hkv)).2.2.2.2.2) hhost hpeer hfwd hkv
  have hk : kv.1 ≠ [] ∧ colon ∉ kv.1 ∧ PairFree CR LF kv.1 ∧ lowerCopy kv.1 ≠ str "transfer-encoding" := by
    rcases hname with ⟨hmem, -⟩ | hadded
    · obtain ⟨h1, h2, h3, h4, h5, -⟩ := t.request_headers_ok (hiter.subset hmem)
      exact ⟨h1, h2, h5, h3.symm ▸ h4⟩
    · have hall : ∀ k ∈ addedNames,
          k ≠ [] ∧ colon ∉ k ∧ PairFree CR LF k ∧ lowerCopy k ≠ str "transfer-encoding" := by decide
      exact hall kv.1 hadded
  refine ⟨hk.1, hk.2.1, ?_, hk.2.2.2⟩
  refine pairFree_append_cons (by decide) (by decide) hk.2.2.1 (pairFree_cons.2 ⟨?_, hval⟩)
  intro h
  exact absurd (cons_prefix_cons.1 h).1 (by decide)

omit hpeer hfwd in
theorem passing_contentLength :
    (iter.filter fun kv => Passes t.request.connection kv.1).filter (fun kv => kv.1 == str "content-length") =
      if namedByConnection (str "content-length") t.request.connection then []
      else t.request.headers.filter fun kv => kv.1 == str "content-length" := by
  have hperm : (iter.filter fun kv => kv.1 == str "content-length") =
      t.request.headers.filter fun kv => kv.1 == str "content-length" := by
    have hp := hiter.filter fun kv => kv.1 == str "content-length"
    rcases t.request_contentLength with ⟨-, h⟩ | ⟨v, h, -⟩
    · rw [h] at hp ⊢
      exact hp.eq_nil
    · rw [h] at hp ⊢
      exact perm_singleton.1 hp
  rw [filter_comm, hperm]
  split_ifs with hnamed
  · refine filter_eq_nil_iff.2 fun kv hkv hpass => ?_
    have hk := eq_of_beq (mem_filter.1 hkv).2
    rw [decide_eq_true_eq, hk] at hpass
    exact hpass.1 (.inr (.inr hnamed))
  · refine filter_eq_self.2 fun kv hkv => ?_
    have hk := eq_of_beq (mem_filter.1 hkv).2
    rw [decide_eq_true_eq, hk]
    refine ⟨?_, by decide, by decide, by decide, by decide⟩
    rintro (h | h | h)
    · exact absurd h (by decide)
    · exact absurd h (by decide)
    · exact hnamed h

theorem sentHeaders_contentLength :
    ((sentHeaders t.request iter peer forwarded).map spaced).filter isContentLength =
      ((iter.filter fun kv => Passes t.request.connection kv.1).filter fun kv =>
        kv.1 == str "content-length").map spaced := by
  rw [filter_map]
  congr 1
  have hadd : ∀ k ∈ addedNames, (lowerCopy k == str "content-length") = false := by decide
  refine (sentHeaders_filter (fun k => lowerCopy k == str "content-length") hadd hpeer hfwd).trans
    (filter_congr fun kv hkv => ?_)
  have hmem : kv ∈ t.request.headers := hiter.subset (mem_filter.1 hkv).1
  rw [(t.request_headers_ok hmem).2.2.1]

theorem sentHeaders_announce (n : ℕ) : Announce ((sentHeaders t.request iter peer forwarded).map spaced) n ↔
    n = if namedByConnection (str "content-length") t.request.connection then 0 else t.body.length := by
  unfold Announce
  rw [sentHeaders_contentLength hiter hpeer hfwd, passing_contentLength hiter]
  split_ifs with hnamed
  · rfl
  · rcases t.request_contentLength with ⟨hbody, h⟩ | ⟨v, h, hv⟩
    · rw [h, hbody]
      rfl
    · obtain ⟨d, -, hd, hval, -, -⟩ := fromChars_some hv
      have hdrop : fieldValue (spaced (str "content-length", v)) = v := by
        change (SP :: v).dropWhile (· == SP) = v
        rw [dropWhile_cons_of_pos (by decide), hval, append_nil]
        exact dropWhile_of_none fun b hb => isDigit_ne (hd b hb) (by decide)
      rw [h]
      simp only [map_cons, map_nil, hdrop, hv, Option.some.injEq, Prod.mk.injEq, and_true]
      exact eq_comm

/-- the forwarded request as text, when the sent headers announce `body.length` bytes -/
def forwardText (body : Bytes) (hbody : Announce ((sentHeaders t.request iter peer forwarded).map spaced) body.length) :
    RequestText where
  method := t.method
  uri := forwardUri t.request
  version := .http11
  fields := (sentHeaders t.request iter peer forwarded).map spaced
  body := body
  method_ok := t.method_ok
  version_ok := http11_ne_unknown
  uri_ok := ⟨(forwardUri_spec t).1, (forwardUri_spec t).2.1⟩
  fields_ok := sentHeaders_ok hiter hpeer hfwd
  body_ok := hbody

theorem forwardText_bytes (body left : Bytes) (h : t.request.body = body ++ left)
    (hbody : Announce ((sentHeaders t.request iter peer forwarded).map spaced) body.length) :
    buildRequestInto t.request iter peer forwarded =
      (forwardText hiter hpeer hfwd body hbody).bytes ++ left := by
  rw [buildRequestInto_eq, h, t.request_line.1]
  simp [RequestText.bytes, RequestText.requestLine, forwardText]

/-- what the upstream's parser makes of the forwarded request: the request line is read back, and as many body bytes as
the sent headers announce -/
theorem feed_forwarded (body left : Bytes) (h : t.request.body = body ++ left)
    (hbody : Announce ((sentHeaders t.request iter peer forwarded).map spaced) body.length) :
    ∃ q, feed unlimited {} (buildRequestInto t.request iter peer forwarded) = (.gotAll, q) ∧
      q.request.method = t.request.method ∧ q.request.path = forwardPath t.request ∧
      q.request.query = t.request.query ∧ q.request.body = body ∧ q.pending = left := by
  obtain ⟨q, hq, hreq, hpend⟩ := parseAvailable_of_text
    (p := { pending := buildRequestInto t.request iter peer forwarded }) rfl
    (forwardText hiter hpeer hfwd body hbody) left (forwardText_bytes hiter hpeer hfwd body left h hbody)
  obtain ⟨h1, h2, h3, h4⟩ := (forwardText hiter hpeer hfwd body hbody).request_line
  have hsplit := (forwardUri_spec t).2.2
  refine ⟨q, hq, ?_, ?_, ?_, ?_, hpend⟩
  · rw [hreq, h1, t.request_line.1]
    rfl
  · rw [hreq, h2]
    exact congrArg Prod.fst hsplit
  · rw [hreq, h3]
    exact congrArg Prod.snd hsplit
  · rw [hreq, h4]
    rfl

end Forwarded

/-- the forwarded text is parsed again as one request: same method, path, query and body, and nothing left over -/
def ForwardedAgain (req : HttpRequest) (iter : List (Bytes × Bytes)) (peer : UpstreamPeerConfig)
    (forwarded : ForwardedHeaderContext) : Prop :=
  ∃ q, feed unlimited {} (buildRequestInto req iter peer forwarded) = (.gotAll, q) ∧
    q.request.method = req.method ∧ q.request.path = (if req.path = [] then str "/" else req.path) ∧
    q.request.query = req.query ∧ q.request.body = req.body ∧ q.pending = []

/-- **Round trip of accepted requests.** A request the parser accepted, forwarded to any peer in any context and with
its header map walked in any order, is read back as the same request exactly when it has no body or its Connection
header does not name content-length. -/
theorem forwarded_again_iff {lim : Limits} {p q : HttpParser} (hp : p.gotAll = false)
    (h : parseAvailable lim p = (.gotAll, q)) {iter : List (Bytes × Bytes)} {peer : UpstreamPeerConfig}
    {forwarded : ForwardedHeaderContext} (hiter : iter.Perm q.request.headers) (hpeer : peer.Clean)
    (hfwd : forwarded.Clean) :
    ForwardedAgain q.request iter peer forwarded ↔
      q.request.body = [] ∨ namedByConnection (str "content-length") q.request.connection = false := by
  obtain ⟨t, -, hreq⟩ := parseAvailable_gotAll hp h
  rw [hreq] at hiter ⊢
  have hann := sentHeaders_announce hiter hpeer hfwd
  have hbody : t.request.body = t.body := t.request_line.2.2.2
  constructor
  · rintro ⟨q', hq', -, -, -, hb, -⟩
    by_contra hcon
    rw [not_or, Bool.not_eq_false] at hcon
    -- with content-length dropped the upstream reads no body
    obtain ⟨q'', hq'', -, -, -, hb', -⟩ := feed_forwarded hiter hpeer hfwd [] t.request.body rfl
      ((hann 0).2 (by rw [if_pos hcon.2]))
    rw [hq'', Prod.mk.injEq] at hq'
    rw [← hq'.2, hb'] at hb
    exact hcon.1 hb.symm
  · intro hcond
    have hlen : t.body.length =
        if namedByConnection (str "content-length") t.request.connection then 0 else t.body.length := by
      rcases hcond with hnil | hnamed
      · rw [← hbody, hnil]
        simp
      · rw [hnamed]
        rfl
    exact feed_forwarded hiter hpeer hfwd t.body [] (by rw [hbody, append_nil]) ((hann _).2 hlen)

/-- a peer and a context for the concrete requests below -/
def localPeer : UpstreamPeerConfig := { host := str "127.0.0.1", port := 9001 }

def localContext : ForwardedHeaderContext := { clientIp := str "10.0.0.7", scheme := str "http", requestId := str "r1" }

/-- the parser after a request, read under the caps of the source -/
def parsed (bytes : Bytes) : HttpParser := (parseAvailable kLimits { pending := bytes }).2

theorem parseAvailable_parsed {bytes : Bytes} (h : (parseAvailable kLimits { pending := bytes }).1 = .gotAll) :
    parseAvailable kLimits { pending := bytes } = (.gotAll, parsed bytes) := Prod.ext h rfl

def postText : Bytes := str "POST /a?b HTTP/1.1\r\nHost: x\r\nContent-Length: 3\r\nTe: gzip\r\n\r\nabc"

theorem forwarded_again_post : ForwardedAgain (parsed postText).request (parsed postText).request.headers localPeer
    localContext ∧ (parsed postText).request.body = str "abc" := by
  have hfacts : (parseAvailable kLimits { pending := postText }).1 = .gotAll ∧
      namedByConnection (str "content-length") (parsed postText).request.connection = false ∧
      (parsed postText).request.body = str "abc" := by decide +kernel
  obtain ⟨hstatus, hnamed, hbody⟩ := hfacts
  have hpeer : localPeer.Clean := by decide
  have hcontext : localContext.Clean := ⟨by decide, by decide, by decide, by decide⟩
  have hiff := forwarded_again_iff rfl (parseAvailable_parsed hstatus) (List.Perm.refl _) hpeer hcontext
  exact ⟨hiff.2 (.inr hnamed), hbody⟩

def droppedLengthText : Bytes :=
  str "POST /a HTTP/1.1\r\nContent-Length: 3\r\nConnection: content-length\r\n\r\nabc"

/-- the client names content-length in Connection: it is dropped, and the upstream reads an empty body and finds the
body's bytes in front of the next request -/
theorem forwarded_again_dropped_length :
    parseAvailable kLimits { pending := droppedLengthText } = (.gotAll, parsed droppedLengthText) ∧
      ¬ ForwardedAgain (parsed droppedLengthText).request (parsed droppedLengthText).request.headers localPeer
        localContext := by
  have hfacts : (parseAvailable kLimits { pending := droppedLengthText }).1 = .gotAll ∧
      (feed unlimited {} (buildRequestInto (parsed droppedLengthText).request
        (parsed droppedLengthText).request.headers localPeer localContext)).2.pending = str "abc" := by decide +kernel
  obtain ⟨hstatus, hleft⟩ := hfacts
  refine ⟨parseAvailable_parsed hstatus, ?_⟩
  rintro ⟨q, hq, -, -, -, -, hpend⟩
  rw [hq] at hleft
  exact absurd (hpend.symm.trans hleft) (by decide)

end Coropact.Gateway
