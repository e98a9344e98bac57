/-
Whether a session goes on with a client connection, and what the client was told about it.

A response may announce that the connection closes, and a request may ask for it. The session decides on its own: it
goes on behind a response that it sends itself unless `close_after_send` is set, and behind a forwarded request unless
`Forward` failed. `SendResponse` leaves `close_after_send` false by default, while every response of `MakeError` and
every fallback announces close; of a forwarded request and its response neither is asked. For the handler of a direct
route the response is made with `close_connection_` set as `keep_alive` says, and that is a comparison of the whole
value with one spelling.

`Replying` says by program point what the client has of the response and why the session stops. `Exchange` is a run that
takes one request off its input and answers it. `Agreeable` says which exchanges go as announced.
-/
import Coropact.Gateway.ClientReuse
import Coropact.Http.Incremental

/-! ## What a request allows -/

namespace Coropact.Http

open Coropact.Text List

theorem trimBy_around {p : UInt8 → Bool} {l s r : Bytes} (hl : ∀ b ∈ l, p b = true) (hs : ∀ b ∈ s, p b = false)
    (hr : ∀ b ∈ r, p b = true) : trimBy p (l ++ (s ++ r)) = s := by
  have hdrop : (r.reverse ++ s.reverse).dropWhile p = s.reverse := by
    rw [dropWhile_append_of_pos fun b hb => hr b (mem_reverse.1 hb)]
    exact dropWhile_of_none fun b hb => hs b (mem_reverse.1 hb)
  rw [trimBy, dropWhile_append_of_pos hl]
  cases s with
  | nil =>
    have hnil : r.dropWhile p = [] := dropWhile_eq_nil_iff.2 hr
    rw [nil_append, hnil]
    rfl
  | cons b s =>
    rw [cons_append, dropWhile_cons_of_neg (by simp [hs b (by simp)]), ← cons_append, List.rdropWhile,
      reverse_append, hdrop, reverse_reverse]

namespace RequestText

variable {t t' : RequestText}

/-- the Connection fields list an option, in any case and at any place -/
def Lists (t : RequestText) (option : Bytes) : Prop :=
  ∃ fv ∈ t.fields, lowerCopy fv.1 = str "connection" ∧ option ∈ elements fv.2

instance (t : RequestText) (option : Bytes) : Decidable (t.Lists option) :=
  decidable_of_iff
    ((t.fields.any fun fv => lowerCopy fv.1 == str "connection" && (elements fv.2).contains option) = true)
    (by simp [Lists])

/-- the request lets its connection be used for another one -/
def AllowsReuse (t : RequestText) : Prop :=
  match t.version with
  | .http11 => ¬ t.Lists (str "close")
  | .http10 => t.Lists (str "keep-alive")
  | .unknown => False

/-- an HTTP/1.1 request that lists close says nothing else in its first Connection field, and says it in lower case -/
def Plain (t : RequestText) : Prop := t.version = .http11 → t.Lists (str "close") → t.request.connection = str "close"

theorem lists_connection (hne : t.request.connection ≠ [])
    (hone : ∀ b ∈ t.request.connection, isBlank b = false ∧ b ≠ comma) : t.Lists (lowerCopy t.request.connection) := by
  obtain ⟨fv, hfv, hentry⟩ := t.request_headers_mem (t.request_cached.connection.resolve_left hne)
  obtain ⟨hname, hvalue⟩ := Prod.mk.inj hentry
  generalize t.request.connection = v at hvalue hone ⊢
  have htrim : trimBy (· == SP) fv.2 = v := by
    rw [hvalue, trim, fieldValue, trimBy, trimBy, dropWhile_idempotent]
  obtain ⟨r, hr, hblanks⟩ := dropWhile_eq_trimBy_append (· == SP) fv.2
  have hspace : ∀ b : UInt8, (b == SP) = true → isBlank b = true := by
    intro b hb
    rw [isBlank, hb, Bool.true_or]
  have hblank : trimBlanks fv.2 = v := by
    rw [← takeWhile_append_dropWhile (p := (· == SP)) (l := fv.2), hr, htrim]
    exact trimBy_around (fun b hb => hspace b (mem_takeWhile_imp (p := (· == SP)) hb))
      (fun b hb => (hone b hb).1)
      fun b hb => hspace b (hblanks b hb)
  have hcomma : comma ∉ fv.2 := by
    intro hmem
    rw [← mem_trimBy_iff (p := (· == SP)) (by decide), htrim] at hmem
    exact (hone comma hmem).2 rfl
  refine ⟨fv, hfv, hname.symm, ?_⟩
  rw [elements, pieces_of_not_mem hcomma, map_singleton, hblank]
  exact mem_singleton_self _

/-- **What `keep_alive` keeps may be kept**, if close is said plainly. -/
theorem allowsReuse_of_keepAlive (hplain : t.Plain) (h : t.request.keepAlive = true) : t.AllowsReuse := by
  have hversion : t.request.version = t.version := (addFields_frame t.start t.fields).2.1
  rw [HttpRequest.keepAlive, hversion] at h
  unfold AllowsReuse
  cases hv : t.version with
  | http11 =>
    rw [hv] at h
    intro hlists
    exact absurd (hplain hv hlists) (bne_iff_ne.1 h)
  | http10 =>
    rw [hv] at h
    have hvalue : t.request.connection = str "keep-alive" := eq_of_beq h
    have hlists := lists_connection (t := t) (by rw [hvalue]; decide) (by rw [hvalue]; decide)
    rw [hvalue] at hlists
    exact hlists
  | unknown =>
    rw [hv] at h
    cases h

theorem request_of_bytes (h : t.bytes = t'.bytes) : t.request = t'.request := by
  obtain ⟨q, hq, hreq, -⟩ :=
    HttpParser.parseAvailable_of_text (p := { pending := t.bytes }) rfl t [] (append_nil _).symm
  obtain ⟨q', hq', hreq', -⟩ := HttpParser.parseAvailable_of_text (p := { pending := t.bytes }) rfl t' [] (by simp [h])
  obtain rfl : q = q' := (Prod.mk.inj (hq.symm.trans hq')).2
  exact hreq.symm.trans hreq'

theorem request_of_parse {lim : Http.Limits} {p q : HttpParser} {status : ParseStatus}
    (h : HttpParser.parseAvailable lim p = (status, q)) (hstatus : status = .cont ∨ status = .gotAll)
    (hgot : q.gotAll = true) (hinput : p.pending = t.bytes ++ q.pending) : q.request = t.request := by
  cases hp : p.gotAll with
  | true =>
    rw [HttpParser.parseAvailable, hp] at h
    obtain ⟨-, rfl⟩ := Prod.mk.inj h
    -- nothing was taken off
    have hnil : t.bytes = [] := self_eq_append_left.1 hinput
    simp [RequestText.bytes, CRLF] at hnil
  | false =>
    rcases hstatus with rfl | rfl
    · exact absurd hgot (by simp [(HttpParser.parseAvailable_cont h).2])
    · obtain ⟨t', hinput', hreq⟩ := HttpParser.parseAvailable_gotAll hp h
      rw [hreq]
      exact request_of_bytes (append_cancel_right (hinput'.symm.trans hinput))

end RequestText

end Coropact.Http

namespace Coropact.Gateway

open Coropact.Http Coropact.Text Coropact.Machine List

/-! ## What a response announces -/

/-- the head at the front of a text, or one behind interim heads, says that the connection closes -/
inductive Announces : Bytes → Prop
  | head (h : ResponseHead) (rest : Bytes) (hcloses : h.Closes) : Announces (h.bytes ++ rest)
  | interim (h : ResponseHead) (rest : Bytes) (hinterim : h.Interim) (hrest : Announces rest) :
      Announces (h.bytes ++ rest)

section Heads

variable {h h' : ResponseHead} {rest : Bytes}

theorem closes_congr (hlines : h.lines = h'.lines) : h.Closes ↔ h'.Closes := by
  rw [ResponseHead.Closes, ResponseHead.Closes, ResponseHead.values, ResponseHead.values, hlines]

theorem status_congr (hstatus : h.statusLine = h'.statusLine) : h.status = h'.status := by
  have hsame : (h.status : ℤ) = h'.status := by
    rw [← firstLineStatus_statusLine, ← firstLineStatus_statusLine, hstatus]
  exact Int.ofNat_inj.1 hsame

theorem interim_congr (hstatus : h.statusLine = h'.statusLine) : h.Interim ↔ h'.Interim := by
  rw [ResponseHead.Interim, ResponseHead.Interim, status_congr hstatus]

theorem announces_iff : Announces (h.bytes ++ rest) ↔ h.Closes ∨ h.Interim ∧ Announces rest := by
  constructor
  · intro hannounces
    generalize htext : h.bytes ++ rest = text at hannounces
    cases hannounces with
    | head h' rest' hcloses =>
      obtain ⟨-, hlines, -⟩ := head_unique htext
      exact .inl ((closes_congr hlines).2 hcloses)
    | interim h' rest' hinterim hrest =>
      obtain ⟨hstatus, -, rfl⟩ := head_unique htext
      exact .inr ⟨(interim_congr hstatus).2 hinterim, hrest⟩
  · rintro (hcloses | ⟨hinterim, hrest⟩)
    · exact .head h rest hcloses
    · exact .interim h rest hinterim hrest

/-- **The relay passes on what the upstream announces.** -/
theorem announces_relayed {m : Method} {state : ResponseState} {text : Bytes}
    (hprog : progress m (h.bytes ++ rest) = some (state, text)) : Announces text ↔ Announces (h.bytes ++ rest) := by
  rw [progress_head, Option.some.injEq, Prod.mk.injEq] at hprog
  have hcloses : (rewriteHead h).Closes ↔ h.Closes := by
    rw [ResponseHead.Closes, ResponseHead.Closes, rewriteHead_values (by decide)]
  have hinterim : (rewriteHead h).Interim ↔ h.Interim := Iff.rfl
  rw [← hprog.2, announces_iff, announces_iff, hcloses, hinterim]
  refine or_congr_right (and_congr_right fun hint => ?_)
  rw [forward_noBody (noBody_iff.2 (.inr hint))]

end Heads

theorem head502_ok : (str "502").length = 3 ∧ ∀ b ∈ str "502", isDigit b = true := by decide

theorem reason502_ok : Clean (str " Bad Gateway") := by decide

theorem lines502_ok : ∀ l ∈ [str "Content-Type: text/plain", str "Content-Length: 11", str "Connection: close"],
    l ≠ [] ∧ Clean l := by decide

def head502 : ResponseHead where
  version := str "HTTP/1.1"
  code := str "502"
  reason := str " Bad Gateway"
  lines := [str "Content-Type: text/plain", str "Content-Length: 11", str "Connection: close"]
  version_ok := http11_ok
  code_ok := head502_ok
  reason_ok := reason502_ok
  lines_ok := lines502_ok

theorem k502_eq : k502 = head502.bytes ++ str "Bad Gateway" := by decide +kernel

theorem head502_closes : head502.Closes := by
  have hline : lineField (str "Connection: close") = some (str "connection", str "close") := by decide
  exact ⟨str "close", mem_values.2 ⟨str "Connection: close", by simp [head502], hline⟩, by decide⟩

theorem announces_502 {sent rest left : Bytes} {h : ResponseHead} (htext : sent ++ left = k502)
    (hsent : sent = h.bytes ++ rest) : Announces sent := by
  rw [hsent, append_assoc, k502_eq] at htext
  obtain ⟨-, hlines, -⟩ := head_unique htext
  rw [hsent]
  exact .head h rest ((closes_congr hlines).2 head502_closes)

/-! ## Handlers -/

def Handled.response : Handled → HttpResponse
  | .returned r => r
  | .threw what => { makeError .internalServerError what with closeConnection := true }

theorem direct_eq {P : Type*} (handled : Handled) (date : HttpDate) : (direct handled date : Action P) =
    .send (handled.response.toBytes date) handled.response.closeConnection := by
  unfold direct
  cases handled with
  | returned r => rfl
  | threw what => rfl

/-- a response with a final status whose own headers neither break a line nor speak about framing or the connection; it
is kept open only if `keep` says so -/
structure PlainResponse (keep : Prop) (r : HttpResponse) : Prop where
  headers : ∀ kv ∈ r.headers, HttpResponse.Harmless kv
  unnamed : ∀ kv ∈ r.headers, lowerCopy kv.1 ≠ str "connection"
  final : 200 ≤ r.statusCode.code
  keeps : r.closeConnection = false → keep

variable {t : RequestText} {r : HttpResponse} {answers : Answers} {keep : Prop}

theorem PlainResponse.mono {keep' : Prop} (h : PlainResponse keep r) (himp : keep → keep') :
    PlainResponse keep' r :=
  { h with keeps := fun hclose => himp (h.keeps hclose) }

/-- **A plain response announces close exactly when `close_connection_` is set.** -/
theorem announces_toBytes (h : PlainResponse keep r) (date : HttpDate) :
    Announces (r.toBytes date) ↔ r.closeConnection = true := by
  have hstatus : (r.head date h.headers).status = r.statusCode.code := (toText_spec _).2.2
  have hfinal : ¬ (r.head date h.headers).Interim := by
    rintro ⟨-, hlt⟩
    have hcode := h.final
    omega
  rw [HttpResponse.toBytes_eq h.headers, announces_iff, HttpResponse.closes_head h.headers h.unnamed]
  exact or_iff_left fun hint => hfinal hint.1

theorem plain_makeError (code : StatusCode) (hcode : 200 ≤ code.code) (msg : Bytes) :
    PlainResponse False (makeError code msg) where
  headers := harmless_contentType (by decide)
  unnamed := by
    intro kv hkv
    obtain rfl := mem_singleton.1 hkv
    decide
  final := hcode
  keeps := fun hclose => (by cases hclose)

def ResponseCall.Plain : ResponseCall → Prop
  | .setStatusCode code => 200 ≤ code.code
  | .setBody _ => True
  | .setContentType contentType => Clean contentType
  | .addHeader key value => Clean key ∧ colon ∉ key ∧ Clean value
  | .setCloseConnection close => close = true

theorem PlainResponse.apply (h : PlainResponse keep r) {call : ResponseCall} (hcall : ResponseCall.Plain call) :
    PlainResponse keep (r.apply call) := by
  cases call with
  | setStatusCode code => exact { h with final := hcall }
  | setBody body => exact { h with }
  | setContentType contentType =>
    have hname : lowerCopy (str "Content-Type") ≠ str "connection" := by decide
    exact { h with
      headers := HttpResponse.forall_mem_assign h.headers (harmless_contentType hcall _ (mem_singleton_self _))
      unnamed := HttpResponse.forall_mem_assign h.unnamed hname }
  | addHeader key value =>
    obtain ⟨hkey, hcolon, hvalue⟩ := hcall
    rw [HttpResponse.apply]
    split_ifs with hrestricted
    · exact h
    · simp only [isRestrictedResponseHeader, Bool.or_eq_true, contains_iff_mem, not_or, mem_cons] at hrestricted
      obtain ⟨-, hlength, hcoding, hconnection, -⟩ := hrestricted
      exact { h with
        headers := HttpResponse.forall_mem_assign h.headers ⟨⟨hkey, hcolon⟩, hvalue, hlength, hcoding⟩
        unnamed := HttpResponse.forall_mem_assign h.unnamed hconnection }
  | setCloseConnection close =>
    obtain rfl : close = true := hcall
    exact { h with keeps := fun hclose => (by cases hclose) }

/-- what `HandleRequest` gives a handler, after the calls the handler makes -/
def handlerResponse (req : HttpRequest) (calls : List ResponseCall) : HttpResponse :=
  calls.foldl HttpResponse.apply { closeConnection := !req.keepAlive }

theorem plain_handlerResponse (req : HttpRequest) {calls : List ResponseCall}
    (h : ∀ call ∈ calls, ResponseCall.Plain call) :
    PlainResponse (req.keepAlive = true) (handlerResponse req calls) := by
  have hstart : PlainResponse (req.keepAlive = true) { closeConnection := !req.keepAlive } :=
    { headers := forall_mem_nil _
      unnamed := forall_mem_nil _
      final := show 200 ≤ StatusCode.ok.code by decide
      keeps := fun hclose => by simpa using hclose }
  unfold handlerResponse
  generalize ({ closeConnection := !req.keepAlive } : HttpResponse) = r at hstart
  induction calls generalizing r with
  | nil => exact hstart
  | cons call calls ih =>
    obtain ⟨hcall, hcalls⟩ := forall_mem_cons.1 h
    exact ih hcalls _ (hstart.apply hcall)

/-- The handler throws; or it makes plain calls only, for a request that is plain. The headers are walked in any order.
-/
def Handled.Keeps (t : RequestText) : Handled → Prop
  | .threw _ => True
  | .returned r => t.Plain ∧ ∃ calls, (∀ call ∈ calls, ResponseCall.Plain call) ∧
      r.headers.Perm (handlerResponse t.request calls).headers ∧
      r = { handlerResponse t.request calls with headers := r.headers }

theorem Handled.Keeps.plain {handled : Handled} (h : handled.Keeps t) :
    PlainResponse t.AllowsReuse handled.response := by
  cases handled with
  | threw what =>
    exact (plain_makeError .internalServerError (by decide) what).mono False.elim
  | returned r =>
    obtain ⟨hplain, calls, hcalls, hperm, hr⟩ := h
    have hbuilt := (plain_handlerResponse t.request hcalls).mono (RequestText.allowsReuse_of_keepAlive hplain)
    rw [hr]
    exact { hbuilt with
      headers := fun kv hkv => hbuilt.headers kv (hperm.mem_iff.1 hkv)
      unnamed := fun kv hkv => hbuilt.unnamed kv (hperm.mem_iff.1 hkv) }

/-! ## The session goes on or stops -/

section Session

variable {P S : Type*} [DecidableEq P] [DecidableEq S] {core : GatewayCore P} {clientIp : Bytes}

/-- an event with which the session takes input for a further request -/
def SessionEvent.takes : SessionEvent P S → Bool
  | .read _ _ | .next _ => true
  | _ => false

/-- the session comes to take input for a further request -/
def ReadsOn (core : GatewayCore P) (clientIp : Bytes) (s : Session P S) : Prop :=
  ∃ l s', run (sessionStep core clientIp) s l = some s' ∧ ∃ e ∈ l, e.takes = true

def SessionPc.isServed : SessionPc P S → Bool
  | .served _ => true
  | _ => false

def SessionPc.stops : SessionPc P S → Bool
  | .shuttingDown | .closing | .closed => true
  | _ => false

variable {s : Session P S} {e : SessionEvent P S} {buf : Bytes} {close : Bool}

theorem readsOn_of_served (h : s.pc.isServed = true) : ReadsOn core clientIp s := by
  obtain ⟨p, pc⟩ := s
  cases pc with
  | served job => exact ⟨[.next someDate], _, rfl, .next someDate, mem_singleton_self _, rfl⟩
  | _ => cases h

theorem step_stops {s' : Session P S} (hmove : SessionMove core clientIp s e s') (h : s.pc.stops = true) :
    s'.pc.stops = true ∧ e.takes = false := by
  cases hmove with
  | shutdown | close => exact ⟨rfl, rfl⟩
  | _ => cases h

theorem not_readsOn_of_stops (h : s.pc.stops = true) : ¬ ReadsOn core clientIp s := by
  rintro ⟨l, s', hrun, e, he, htakes⟩
  have hinv : s'.pc.stops = true ∧ ∀ e ∈ l, e.takes = false := by
    refine run_induct (fun l (s : Session P S) => s.pc.stops = true ∧ ∀ e ∈ l, e.takes = false)
      ⟨h, forall_mem_nil _⟩ ?_ l s' hrun
    intro l s e s' _ ih hstep
    obtain ⟨hstops, hnot⟩ := step_stops (sessionMove_of_step hstep) ih.1
    exact ⟨hstops, forall_mem_append.2 ⟨ih.2, forall_mem_singleton.2 hnot⟩⟩
  rw [hinv.2 e he] at htakes
  cases htakes

/-! ## What the client has of the response -/

/-- what the session is to send itself, and whether it stops behind it -/
def Decision.sends : Decision P → Option (Bytes × Bool)
  | .act (.send response close) => some (response, close)
  | _ => none

/-- The session sends a response itself, of which the client does not have `rest` yet. Where nothing was decided to be
sent, it is the fallback of an open breaker. -/
structure Sent (d : Decision P) (cur : List (SessionEvent P S)) (rest : Bytes) (close : Bool) : Prop where
  text : d.sends = some (clientBytes cur ++ rest, close) ∨ d.sends = none ∧ close = false
  quiet : forwardEvents cur = []

/-- why the session stops: the response said so, it could not be written, or `Forward` failed -/
def Stopped (core : GatewayCore P) (d : Decision P) (cur : List (SessionEvent P S)) : Prop :=
  Sent d cur [] true ∨ (∃ e ∈ cur, e.writeFails = true) ∨
    d.sends = none ∧ ∃ job, Calling core job cur (.returned .upstreamFailed)

def Replying (core : GatewayCore P) (d : Decision P) (cur : List (SessionEvent P S)) : SessionPc P S → Prop
  | .reading | .handling => False
  | .asking _ => d.sends = none ∧ forwardEvents cur = [] ∧ clientBytes cur = []
  | .proxying job pc => d.sends = none ∧ Calling core job cur pc
  | .fallback job buf => d.sends = none ∧ Refused core job cur buf
  | .sending buf close => Sent d cur buf close
  | .served none => Sent d cur [] false
  | .served (some job) => d.sends = none ∧ Served core job cur
  | .shuttingDown => Sent d cur [] true
  | .closing | .closed => Stopped core d cur

variable {d : Decision P} {cur : List (SessionEvent P S)}

omit [DecidableEq P] [DecidableEq S] in
theorem sent_snoc {rest : Bytes} (h : Sent d cur rest close) (he : e.forwardEvent = none) (hc : e.toClient = []) :
    Sent d (cur ++ [e]) rest close := by
  refine ⟨?_, ?_⟩
  · rw [clientBytes_snoc, hc, append_nil]
    exact h.text
  · rw [forwardEvents_snoc, he, h.quiet]
    rfl

omit [DecidableEq P] [DecidableEq S] in
theorem sent_write (h : Sent d cur buf close) (n : ℕ) :
    Sent d (cur ++ [.write buf (some n)]) (buf.drop n) close := by
  refine ⟨?_, ?_⟩
  · rw [clientBytes_snoc]
    change d.sends = some (_ ++ buf.take n ++ buf.drop n, close) ∨ _
    rw [append_assoc, take_append_drop]
    exact h.text
  · rw [forwardEvents_snoc, h.quiet]
    rfl

theorem stopped_snoc (h : Stopped core d cur) (he : e.forwardEvent = none) (hc : e.toClient = []) :
    Stopped core d (cur ++ [e]) := by
  rcases h with hsent | ⟨e', hmem, hfails⟩ | ⟨hnone, job, hcalling⟩
  · exact .inl (sent_snoc hsent he hc)
  · exact .inr (.inl ⟨e', mem_append_left _ hmem, hfails⟩)
  · exact .inr (.inr ⟨hnone, job, calling_snoc hcalling he hc⟩)

theorem replying_startSend (h : Sent d cur buf close) :
    Replying core d cur (startSend buf close) := by
  unfold startSend
  split_ifs with hnil
  · rw [hnil] at h
    cases close with
    | true => exact h
    | false => exact h
  · exact h

theorem replying_startFallback {job : Job P} (hnone : d.sends = none) (h : Refused core job cur buf) :
    Replying core d cur (startFallback job buf) := by
  unfold startFallback
  split_ifs with hnil
  · exact ⟨hnone, .inr ⟨buf, h, .inl hnil⟩⟩
  · exact ⟨hnone, h⟩

theorem replying_decided (core : GatewayCore P) (request : HttpRequest) (iter : List (Bytes × Bytes)) (d : Decision P) :
    Replying core d ([] : List (SessionEvent P S)) (decided request iter d) := by
  cases d with
  | ask target => exact ⟨rfl, rfl, rfl⟩
  | act a =>
    cases a with
    | send response close => exact replying_startSend ⟨.inl rfl, rfl⟩
    | proxy target => exact ⟨rfl, calling_start _ rfl rfl⟩

theorem replying_afterForward {job : Job P} {status : ProxyForwardStatus} (hnone : d.sends = none)
    (h : Calling core job cur (.returned status)) (date : HttpDate) :
    Replying core d cur (afterForward job date status) := by
  cases status with
  | completed => exact ⟨hnone, .inl h⟩
  | noPeer => exact replying_startFallback hnone ⟨h.run, date, by rw [h.client]⟩
  | upstreamFailed => exact .inr (.inr ⟨hnone, job, h⟩)
  | clientClosed => exact (run_linked h.run).elim

theorem step_replying {s' : Session P S} (h : Replying core d cur s.pc) (hnot : e.takes = false)
    (hmove : SessionMove core clientIp s e s') : Replying core d (cur ++ [e]) s'.pc := by
  cases hmove with
  | readEnd | read | next => cases hnot
  | handle => exact h.elim
  | allow p job ok date =>
    obtain ⟨hnone, hevents, hclient⟩ := h
    have hevents' : forwardEvents (cur ++ [(.allow job.target.upstream.name ok date : SessionEvent P S)]) = [] := by
      rw [forwardEvents_snoc, hevents]
      rfl
    cases ok with
    | true =>
      refine ⟨hnone, calling_start _ hevents' ?_⟩
      rw [clientBytes_snoc, hclient]
      rfl
    | false => exact replying_startSend ⟨.inr ⟨hnone, rfl⟩, hevents'⟩
  | forward p job pc pc' e hstep =>
    obtain ⟨hnone, hcalling⟩ := h
    exact ⟨hnone, calling_forward hcalling hstep⟩
  | forwarded p job status date => exact replying_afterForward h.1 (calling_snoc h.2 rfl rfl) date
  | fallbackFailed p job buf r hr => exact ⟨h.1, served_of_failed h.2 hr⟩
  | fallbackSome p job buf n => exact replying_startFallback h.1 (refused_write h.2 (some n))
  | sendFailed p buf close r hr =>
    refine .inr (.inl ⟨.write buf r, by simp, ?_⟩)
    simpa [SessionEvent.writeFails] using writeRest_eq_none.1 hr
  | sendSome p buf close n => exact replying_startSend (sent_write h n)
  | shutdown p => exact .inl (sent_snoc h rfl rfl)
  | close p => exact stopped_snoc h rfl rfl

/-- **What the client has of the response**, at every program point until the session takes further input. -/
theorem run_replying {p : HttpParser} {request : HttpRequest} {iter : List (Bytes × Bytes)}
    (h : run (sessionStep core clientIp) ⟨p, decided request iter d⟩ cur = some s)
    (halone : ∀ e ∈ cur, e.takes = false) :
    Replying core d cur s.pc := by
  refine run_induct (fun cur (s : Session P S) => (∀ e ∈ cur, e.takes = false) → Replying core d cur s.pc)
    (fun _ => replying_decided core request iter d) ?_ cur s h halone
  intro cur s e s' _ ih hstep halone
  obtain ⟨hcur, he⟩ := forall_mem_append.1 halone
  exact step_replying (ih hcur) (he e (mem_singleton_self _)) (sessionMove_of_step hstep)

/-! ## Exchanges -/

def Session.input (s : Session P S) : SessionEvent P S → Option Bytes
  | .read (some chunk) _ => some (s.parser.pending ++ chunk)
  | .next _ => some s.parser.pending
  | _ => none

/-- A run of the session takes the request `t` off its input, handles it, and comes to `s` with the events `cur`, before
it takes input for a further request. -/
structure Exchange (core : GatewayCore P) (clientIp : Bytes) (t : RequestText) (answers : Answers)
    (cur : List (SessionEvent P S)) (s : Session P S) : Prop where
  replied : ∃ l s₁ e s₀ iter, run (sessionStep core clientIp) {} l = some s₁ ∧
    sessionStep core clientIp s₁ e = some s₀ ∧
    s₁.input e = some (t.bytes ++ s₀.parser.pending) ∧
    run (sessionStep core clientIp) s₀ (.handle iter answers :: cur) = some s
  alone : ∀ e ∈ cur, e.takes = false

omit [DecidableEq P] [DecidableEq S] in
theorem handleParseStatus_handling {r : ParseStatus × HttpParser} {date : HttpDate}
    (h : (handleParseStatus r date : Session P S).pc = .handling) : (r.1 = .cont ∨ r.1 = .gotAll) ∧
      r.2.gotAll = true := by
  unfold handleParseStatus startSend afterSend at h
  split_ifs at h with hstatus hgot
  · exact ⟨hstatus, hgot⟩

theorem request_of_input {s₁ s₀ : Session P S} (hstep : sessionStep core clientIp s₁ e = some s₀)
    (hinput : s₁.input e = some (t.bytes ++ s₀.parser.pending)) (hpc : s₀.pc = .handling) :
    s₀.parser.request = t.request := by
  cases sessionMove_of_step hstep with
  | read p chunk date =>
    obtain ⟨hstatus, hgot⟩ := handleParseStatus_handling hpc
    exact RequestText.request_of_parse (p := { p with pending := p.pending ++ chunk }) rfl hstatus hgot
      (Option.some.inj hinput)
  | next p job date =>
    obtain ⟨hstatus, hgot⟩ := handleParseStatus_handling hpc
    exact RequestText.request_of_parse (p := p.reset) rfl hstatus hgot (Option.some.inj hinput)
  | readEnd => cases hpc
  | _ => cases hinput

theorem Exchange.replying (h : Exchange core clientIp t answers cur s) :
    Replying core (core.handleRequest t.request clientIp answers) cur s.pc := by
  obtain ⟨⟨l, s₁, e, s₀, iter, -, hstep, hinput, hrun⟩, halone⟩ := h
  obtain ⟨s₂, hhandle, hrun⟩ := Option.bind_eq_some_iff.1 hrun
  cases sessionMove_of_step hhandle with
  | handle p iter answers hperm =>
    rw [show p.request = t.request from request_of_input hstep hinput rfl] at hrun
    exact run_replying hrun halone

/-- the client has the head of a response, and nothing that the session wrote itself was lost -/
def Responded (cur : List (SessionEvent P S)) : Prop :=
  (∀ e ∈ cur, e.writeFails = false) ∧ ∃ (h : ResponseHead) (rest : Bytes), clientBytes cur = h.bytes ++ rest

/-- The exchange goes as announced: a direct route answers, with a handler that leaves the connection alone; or an
upstream does, relays fail only while the client has nothing of the attempt, and a response that was relayed has a
well-formed head, announces no close and answers a request that asked for none. -/
inductive Agreeable (core : GatewayCore P) (t : RequestText) (answers : Answers) (cur : List (SessionEvent P S)) : Prop
  | direct (route : Route) (hlimit : (core.rateLimiter && !(answers.globalOk && answers.perIpOk)) = false)
      (hroute : core.matchRoute t.request.path = some route) (htype : route.type = .direct)
      (hkeeps : (answers.handled route.handler).Keeps t)
  | forwarded (a : Attempt P) (past : List (Attempt P)) (hattempts : attempts (forwardEvents cur) = a :: past)
      (hclean : EachStep CleanFailure [] (forwardEvents cur))
      (hkeeps : a.relayed ≠ [] →
        t.AllowsReuse ∧ (∃ (h : ResponseHead) (rest : Bytes), a.reads = h.bytes ++ rest) ∧ ¬ Announces a.reads)

omit [DecidableEq P] in
theorem handleRequest_direct {route : Route}
    (hlimit : (core.rateLimiter && !(answers.globalOk && answers.perIpOk)) = false)
    (hroute : core.matchRoute t.request.path = some route) (htype : route.type = .direct) :
    (core.handleRequest t.request clientIp answers).sends =
      some ((answers.handled route.handler).response.toBytes answers.date,
        (answers.handled route.handler).response.closeConnection) := by
  rw [GatewayCore.handleRequest, hlimit, hroute]
  dsimp only
  rw [htype]
  rw [direct_eq]
  rfl

/-- whether the session goes on, where that is known behind a response and of a session that stops -/
theorem Replying.served_iff {Q : Prop} (h : Replying core d cur s.pc) (hdone : s.pc.isServed = true ∨ s.pc.stops = true)
    (hserved : ∀ job, Replying core d cur (.served job) → Q) (hstopped : Stopped core d cur → ¬Q) :
    s.pc.isServed = true ↔ Q := by
  obtain ⟨p, pc⟩ := s
  cases pc with
  | served job => exact iff_of_true rfl (hserved job h)
  | shuttingDown => exact iff_of_false Bool.false_ne_true (hstopped (.inl h))
  | closing | closed => exact iff_of_false Bool.false_ne_true (hstopped h)
  | _ => rcases hdone with h | h <;> cases h

theorem agrees_direct (hreply : Replying core d cur s.pc) (hdone : s.pc.isServed = true ∨ s.pc.stops = true)
    (hwritten : ∀ e ∈ cur, e.writeFails = false) {handled : Handled} (hkeeps : handled.Keeps t)
    (hsends : d.sends = some (handled.response.toBytes answers.date, handled.response.closeConnection)) :
    s.pc.isServed = true ↔ ¬ Announces (clientBytes cur) ∧ t.AllowsReuse := by
  have hplain := hkeeps.plain
  have hannounces := announces_toBytes hplain answers.date
  -- what was sent is the response, and the session stops as its flag says
  have hsent : ∀ close, Sent d cur [] close → handled.response.closeConnection = close ∧
      (Announces (clientBytes cur) ↔ handled.response.closeConnection = true) := by
    intro close hsent
    rcases hsent.text with htext | ⟨hnone, -⟩
    · rw [hsends, append_nil] at htext
      obtain ⟨htext, hclose⟩ := Prod.mk.inj (Option.some.inj htext)
      exact ⟨hclose, htext ▸ hannounces⟩
    · rw [hnone] at hsends
      cases hsends
  have hnone : d.sends ≠ none := by
    rw [hsends]
    exact Option.some_ne_none _
  refine hreply.served_iff hdone (fun job hserved => ?_) ?_
  · cases job with
    | some job => exact absurd hserved.1 hnone
    | none =>
      obtain ⟨hclose, hiff⟩ := hsent false hserved
      exact ⟨fun hann => absurd (hiff.1 hann) (by simp [hclose]), hplain.keeps hclose⟩
  · rintro (hs | ⟨e, he, hfails⟩ | ⟨hno, -⟩) ⟨hquiet, -⟩
    · obtain ⟨hclose, hiff⟩ := hsent true hs
      exact hquiet (hiff.2 hclose)
    · exact absurd hfails (by simp [hwritten e he])
    · exact hnone hno

theorem agrees_forwarded {a : Attempt P} {past : List (Attempt P)} (hreply : Replying core d cur s.pc)
    (hdone : s.pc.isServed = true ∨ s.pc.stops = true) (hresponded : Responded cur)
    (hattempts : attempts (forwardEvents cur) = a :: past) (hclean : EachStep CleanFailure [] (forwardEvents cur))
    (hkeeps : a.relayed ≠ [] →
      t.AllowsReuse ∧ (∃ (h : ResponseHead) (rest : Bytes), a.reads = h.bytes ++ rest) ∧ ¬ Announces a.reads) :
    s.pc.isServed = true ↔ ¬ Announces (clientBytes cur) ∧ t.AllowsReuse := by
  obtain ⟨hwritten, h, rest, hhead⟩ := hresponded
  have hquiet : forwardEvents cur ≠ [] := by
    intro hnil
    rw [hnil] at hattempts
    cases hattempts
  refine hreply.served_iff hdone (fun job hserved => ?_) ?_
  · cases job with
    | none => exact absurd hserved.quiet hquiet
    | some job =>
      rcases hserved.2 with hcalling | ⟨left, hrefused, -⟩
      · obtain ⟨a', past', state, hattempts', hprog⟩ := completed_client hcalling hclean
        obtain ⟨rfl, rfl⟩ := List.cons.inj (hattempts.symm.trans hattempts')
        obtain ⟨b, past', hsame, -, -, hclient⟩ := run_sourced hcalling.run hclean
        obtain ⟨rfl, rfl⟩ := List.cons.inj (hattempts.symm.trans hsame)
        have hrelayed : a.relayed ≠ [] := by
          rw [← hclient, ← hcalling.client, hhead]
          obtain ⟨i, hi, -⟩ := find_head h
          intro hnil
          have hlen := congrArg List.length hnil
          rw [length_append, length_nil] at hlen
          omega
        obtain ⟨hallows, ⟨h', rest', hreads⟩, hno⟩ := hkeeps hrelayed
        rw [hreads] at hprog hno
        exact ⟨fun hann => hno ((announces_relayed hprog).1 hann), hallows⟩
      · have hnil := (refused_client hrefused hclean).1
        rw [hattempts] at hnil
        cases hnil
  · rintro (hs | ⟨e, he, hfails⟩ | ⟨-, job, hcalling⟩) ⟨hno, -⟩
    · exact hquiet hs.quiet
    · exact absurd hfails (by simp [hwritten e he])
    · obtain ⟨left, h502⟩ := run_sourced hcalling.run hclean
      have htext : clientBytes cur ++ left = k502 := by
        rw [hcalling.client, h502.client]
        exact h502.text
      exact hno (announces_502 htext hhead)

/-- **Persistence agrees with what was sent.** For every run of a session and every request in it that was answered, if
the exchange is `Agreeable`: the session takes input for a further request exactly if the response announced no close
and the request allows it. -/
theorem persistence_agrees {t : RequestText} {answers : Answers} {s : Session P S}
    (h : Exchange core clientIp t answers cur s) (hdone : s.pc.isServed = true ∨ s.pc.stops = true)
    (hresponded : Responded cur) (hagree : Agreeable core t answers cur) :
    ReadsOn core clientIp s ↔ ¬ Announces (clientBytes cur) ∧ t.AllowsReuse := by
  have hreads : ReadsOn core clientIp s ↔ s.pc.isServed = true := by
    rcases hdone with hserved | hstops
    · exact iff_of_true (readsOn_of_served hserved) hserved
    · refine iff_of_false (not_readsOn_of_stops hstops) fun hserved => ?_
      cases hpc : s.pc with
      | served job => rw [hpc] at hstops; cases hstops
      | _ => rw [hpc] at hserved; cases hserved
  rw [hreads]
  cases hagree with
  | direct route hlimit hroute htype hkeeps =>
    exact agrees_direct h.replying hdone hresponded.1 hkeeps (handleRequest_direct hlimit hroute htype)
  | forwarded a past hattempts hclean hkeeps =>
    exact agrees_forwarded h.replying hdone hresponded hattempts hclean hkeeps

end Session

/-! ## Four exchanges -/

theorem exists_exchange {P S : Type*} [DecidableEq P] [DecidableEq S] {core : GatewayCore P} {clientIp : Bytes}
    {cur : List (SessionEvent P S)} {Q : Session P S → Prop} (iter : List (Bytes × Bytes))
    (h : (∃ s ∈ run (sessionStep core clientIp) {} (.read (some t.bytes) someDate :: .handle iter answers :: cur),
        s.pc.isServed = true) ∧
      (({} : HttpParser).feed kLimits t.bytes).2.pending = [] ∧ ∀ e ∈ cur, e.takes = false)
    (hQ : ∀ s, Exchange core clientIp t answers cur s → s.pc.isServed = true → Q s) :
    ∃ s, Exchange core clientIp t answers cur s ∧ Q s := by
  obtain ⟨⟨s, hrun, hserved⟩, hpending, halone⟩ := h
  obtain ⟨s₀, hstep, hrun⟩ := Option.bind_eq_some_iff.1 hrun
  have hnil : s₀.parser.pending = [] := by
    cases sessionMove_of_step hstep with
    | readEnd => rfl
    | read => exact hpending
  have hex : Exchange core clientIp t answers cur s := by
    refine ⟨⟨[], {}, _, s₀, iter, rfl, hstep, ?_, hrun⟩, halone⟩
    rw [hnil, append_nil]
    rfl
  exact ⟨s, hex, hQ s hex hserved⟩

theorem getFields_ok {value : Bytes} (h : PairFree CR LF (fieldLine (str "Connection", value))) :
    ∀ fv ∈ [(str "Connection", value)], fv.1 ≠ [] ∧ colon ∉ fv.1 ∧ PairFree CR LF (fieldLine fv) ∧
      lowerCopy fv.1 ≠ str "transfer-encoding" := by
  have hname : str "Connection" ≠ [] ∧ colon ∉ str "Connection" ∧
      lowerCopy (str "Connection") ≠ str "transfer-encoding" := by decide
  intro fv hfv
  obtain rfl := mem_singleton.1 hfv
  exact ⟨hname.1, hname.2.1, h, hname.2.2⟩

theorem getBody_ok (value : Bytes) : Announce [(str "Connection", value)] ([] : Bytes).length := by
  have hname : (lowerCopy (str "Connection") == str "content-length") = false := by decide
  simp [Announce, isContentLength, hname]

def getWith (uri value : Bytes) (huri : SP ∉ uri ∧ PairFree CR LF uri)
    (hvalue : PairFree CR LF (fieldLine (str "Connection", value))) : RequestText where
  method := .get
  uri := uri
  version := .http11
  fields := [(str "Connection", value)]
  body := []
  method_ok := get_ne_invalid
  version_ok := http11_ne_unknown
  uri_ok := huri
  fields_ok := getFields_ok hvalue
  body_ok := getBody_ok value

def helloCore : GatewayCore Unit := (GatewayCore.make (str "gw") {} someDate).addDirectRoute (str "/hello") 0 someDate

def helloAnswers (response : HttpResponse) : Answers where
  globalOk := true
  perIpOk := true
  handled := fun _ => .returned response
  requestId := str "1"
  date := someDate

def writeAll (response : HttpResponse) : List (SessionEvent Unit Unit) :=
  [.write (response.toBytes someDate) (some (response.toBytes someDate).length)]

theorem clientBytes_writeAll (response : HttpResponse) :
    clientBytes (writeAll response) = response.toBytes someDate := by
  simp [clientBytes, writeAll, SessionEvent.toClient]

theorem responded_writeAll {response : HttpResponse} (h : PlainResponse keep response) :
    Responded (writeAll response) := by
  refine ⟨?_, response.head someDate h.headers, response.body, ?_⟩
  · intro e he
    obtain rfl := mem_singleton.1 he
    simp [SessionEvent.writeFails, HttpResponse.toBytes, CRLF]
  · rw [clientBytes_writeAll, HttpResponse.toBytes_eq h.headers]

def keepText : RequestText := getWith (str "/hello") (str " keep-alive") (by decide) (by decide)

def keepCalls : List ResponseCall := [.setContentType (str "text/plain"), .setBody (str "hi")]

def keepResponse : HttpResponse := handlerResponse keepText.request keepCalls

theorem keepResponse_keeps : ((helloAnswers keepResponse).handled 0).Keeps keepText := by
  have hcalls : ∀ call ∈ keepCalls, ResponseCall.Plain call := by
    intro call hcall
    simp only [keepCalls, mem_cons, not_mem_nil, or_false] at hcall
    rcases hcall with rfl | rfl
    · exact (by decide : Clean (str "text/plain"))
    · trivial
  have hlists : ¬ keepText.Lists (str "close") := by decide
  exact ⟨fun _ hlist => absurd hlist hlists, keepCalls, hcalls, List.Perm.refl _, rfl⟩

theorem persistence_agrees_keepText :
    ∃ s, Exchange helloCore (str "10.0.0.1") keepText (helloAnswers keepResponse) (writeAll keepResponse) s ∧
      s.pc.isServed = true ∧
      (ReadsOn helloCore (str "10.0.0.1") s ↔
        ¬ Announces (clientBytes (writeAll keepResponse)) ∧ keepText.AllowsReuse) := by
  refine exists_exchange [(str "connection", str "keep-alive")] (by decide +kernel) fun s hex hserved => ⟨hserved, ?_⟩
  exact persistence_agrees hex (.inl hserved) (responded_writeAll keepResponse_keeps.plain)
    (.direct _ rfl rfl rfl keepResponse_keeps)

def missText : RequestText := getWith (str "/") (str " keep-alive") (by decide) (by decide)

def capitalText : RequestText := getWith (str "/hello") (str " Close") (by decide) (by decide)

def capitalResponse : HttpResponse := handlerResponse capitalText.request []

/-- close, asked of a path that is forwarded -/
def closeText : RequestText := getWith (str "/") (str " close") (by decide) (by decide)

/-- what `smallCore` sends upstream for it -/
def closeForward : Bytes :=
  buildRequestInto closeText.request [(str "connection", str "close")] { host := str "up", port := 80 }
    { clientIp := str "10.0.0.1", scheme := str "http", gatewayName := str "gw", requestId := str "1" }

def closeCall : List (FwdEvent Unit Unit) :=
  [.slotLoad 0, .slotCas 0 true 0, .lbSelect (some ()), .peerAdd (), .peerRequests (), .poolAcquire () (some ()),
    .upstreamWrite () closeForward (some closeForward.length), .relay () (.read (some okResponse)),
      .relay () .peerSuccess,
    .relay () (.write okResponse (some okResponse.length)), .poolRelease () (), .peerSub (), .slotSub]

def closeRun : List (SessionEvent Unit Unit) :=
  closeCall.map (SessionEvent.forward (str "up")) ++ [SessionEvent.forwarded someDate]

theorem responded_closeRun : Responded closeRun := by
  have hfacts : (∀ e ∈ closeRun, e.writeFails = false) ∧ clientBytes closeRun =
      (okHead [str "Content-Length: 2"] (by decide)).bytes ++ str "ab" := by decide +kernel
  exact ⟨hfacts.1, _, _, hfacts.2⟩

/-- **Persistence differs from what was sent or asked.** The session takes input for a further request behind a 404 that
announced close; behind the response of a handler to a request that asked for `Close`; and behind a forwarded request
that asked for `close`. -/
theorem persistence_differs :
    (∃ s, Exchange helloCore (str "10.0.0.1") missText (helloAnswers {})
        (writeAll (makeError .notFound (str "not found"))) s ∧
      Responded (writeAll (makeError .notFound (str "not found"))) ∧ ReadsOn helloCore (str "10.0.0.1") s ∧
      Announces (clientBytes (writeAll (makeError .notFound (str "not found"))))) ∧
    (∃ s, Exchange helloCore (str "10.0.0.1") capitalText (helloAnswers capitalResponse) (writeAll capitalResponse) s ∧
      Responded (writeAll capitalResponse) ∧ ReadsOn helloCore (str "10.0.0.1") s ∧ ¬ capitalText.AllowsReuse) ∧
    ∃ s, Exchange smallCore (str "10.0.0.1") closeText (helloAnswers {}) closeRun s ∧ Responded closeRun ∧
      ReadsOn smallCore (str "10.0.0.1") s ∧ ¬ closeText.AllowsReuse := by
  have hmiss := plain_makeError .notFound (by decide) (str "not found")
  have hcapital := plain_handlerResponse capitalText.request (forall_mem_nil ResponseCall.Plain)
  have hlists : capitalText.Lists (str "close") ∧ closeText.Lists (str "close") := by decide
  refine ⟨?_, ?_, ?_⟩
  · refine exists_exchange [(str "connection", str "keep-alive")] (by decide +kernel) fun s _ hserved =>
      ⟨responded_writeAll hmiss, readsOn_of_served hserved, ?_⟩
    rw [clientBytes_writeAll]
    exact (announces_toBytes hmiss someDate).2 rfl
  · exact exists_exchange [(str "connection", str "Close")] (by decide +kernel) fun s _ hserved =>
      ⟨responded_writeAll hcapital, readsOn_of_served hserved, fun hno => hno hlists.1⟩
  · exact exists_exchange [(str "connection", str "close")] (by decide +kernel) fun s _ hserved =>
      ⟨responded_closeRun, readsOn_of_served hserved, fun hno => hno hlists.2⟩

end Coropact.Gateway
