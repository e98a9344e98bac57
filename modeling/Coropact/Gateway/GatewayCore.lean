/-
What the gateway decides about a request before it is forwarded (`include/coropact/gateway/gateway_core.h`,
`src/gateway/gateway_core.cc`, `include/coropact/gateway/fallback_config.h`,
`include/coropact/gateway/upstream_registry.h`).

Upstreams and routes are set up at startup and only read afterwards. `HandleRequest` is a function of the request and of
the answers it gets on the way (`Answers`): what the rate limiter says, what each handler would do, the request id and
the date. Its call of `AllowRequest` is a step of its own: `handleRequest` ends at the question, `afterAllow` goes on
with the answer.

Left out: the method of a route, which nothing reads; the load balancer, which answers as it likes.
-/
import Coropact.Gateway.Forward
import Coropact.Http.HttpResponse

namespace Coropact.Gateway

open Coropact.Http Coropact.Text List

/-! ## Fallbacks -/

structure FallbackConfig where
  enabled : Bool := false
  statusCode : StatusCode := .serviceUnavailable
  contentType : Bytes := str "application/json; charset=utf-8"
  body : Bytes := str "\x7b\"error\":\"service temporarily unavailable\"\x7d"
  preRendered : Bytes := []
deriving DecidableEq, Repr

/-- the response `Init` renders -/
def FallbackConfig.response (f : FallbackConfig) : HttpResponse where
  statusCode := f.statusCode
  closeConnection := true
  headers := [(str "Content-Type", f.contentType)]
  body := f.body

def FallbackConfig.init (f : FallbackConfig) (date : HttpDate) : FallbackConfig :=
  if f.enabled then { f with preRendered := f.response.toBytes date } else f

/-! ## Routes and upstreams -/

inductive RouteType where
  | direct | proxy
deriving DecidableEq, Repr

inductive MatchType where
  | exact | prefixed
deriving DecidableEq, Repr

/-- a route; its fallback has been through `Init`, and handlers are told apart by numbers -/
structure Route where
  type : RouteType
  matchType : MatchType := .exact
  path : Bytes
  handler : ℕ := 0
  upstreamName : Bytes := []
  fallback : FallbackConfig := {}
  circuitBreakerEnabled : Bool := false
  fallback_init : ∃ date, fallback.init date = fallback

/-- an upstream; `circuitBreaker` says whether a breaker is attached -/
structure Upstream (P : Type*) where
  name : Bytes
  circuitBreakerEnabled : Bool := false
  maxConcurrentRequests : BitVec 64 := 1024
  peers : List P
  config : P → UpstreamPeerConfig
  circuitBreaker : Bool := false

theorem nodup_empty {P : Type*} : (([] : List (Upstream P)).map Upstream.name).Nodup := nodup_nil

/-- the upstreams by name; `emplace` keeps the first of a name -/
structure UpstreamRegistry (P : Type*) where
  entries : List (Upstream P) := []
  nodup : (entries.map Upstream.name).Nodup := by exact nodup_empty

variable {P : Type*}

namespace UpstreamRegistry

def find (r : UpstreamRegistry P) (name : Bytes) : Option (Upstream P) := r.entries.find? fun u => u.name = name

def add (r : UpstreamRegistry P) (u : Upstream P) : UpstreamRegistry P :=
  if h : u.name ∈ r.entries.map Upstream.name then r
  else
    { entries := r.entries ++ [u]
      nodup := by
        rw [map_append, nodup_append]
        refine ⟨r.nodup, nodup_singleton _, fun a ha b hb heq => h ?_⟩
        rw [map_singleton, mem_singleton] at hb
        exact hb ▸ heq ▸ ha }

/-- what `AddProxyRoute` does to the upstream of a route with a breaker -/
def attachBreaker (r : UpstreamRegistry P) (name : Bytes) : UpstreamRegistry P where
  entries := r.entries.map fun u => if u.name = name ∧ u.circuitBreakerEnabled then { u with circuitBreaker := true }
    else u
  nodup := by
    have hname : Upstream.name ∘ (fun u : Upstream P =>
        if u.name = name ∧ u.circuitBreakerEnabled then { u with circuitBreaker := true } else u) = Upstream.name := by
      funext u
      simp only [Function.comp_apply]
      split_ifs <;> rfl
    rw [map_map, hname]
    exact r.nodup

end UpstreamRegistry

structure GatewayCore (P : Type*) where
  name : Bytes
  registry : UpstreamRegistry P
  routes : List Route := []
  rateLimiter : Bool := false
  rateLimitResponse429 : Bytes

def jsonError (msg : Bytes) : Bytes := str "\x7b\"error\":\"" ++ msg ++ str "\"\x7d"

def makeError (code : StatusCode) (msg : Bytes) : HttpResponse where
  statusCode := code
  closeConnection := true
  headers := [(str "Content-Type", str "application/json; charset=utf-8")]
  body := jsonError msg

namespace GatewayCore

def make (name : Bytes) (registry : UpstreamRegistry P) (date : HttpDate) : GatewayCore P where
  name := name
  registry := registry
  rateLimitResponse429 := (makeError .tooManyRequests (str "rate limit exceeded")).toBytes date

/-- `Get` and `Post`: the method is not kept -/
def addDirectRoute (core : GatewayCore P) (path : Bytes) (handler : ℕ) (date : HttpDate) : GatewayCore P :=
  { core with
    routes := core.routes ++ [{ type := .direct, path := path, handler := handler, fallback_init := ⟨date, rfl⟩ }] }

def addProxyRoute (core : GatewayCore P) (path upstreamName : Bytes) (date : HttpDate) : GatewayCore P :=
  { core with
    routes := core.routes ++
      [{ type := .proxy, matchType := .prefixed, path := path, upstreamName := upstreamName,
         fallback_init := ⟨date, rfl⟩ }] }

def addProxyRouteWith (core : GatewayCore P) (path upstreamName : Bytes) (fallback : FallbackConfig)
    (circuitBreakerEnabled : Bool) (date : HttpDate) : GatewayCore P :=
  { core with
    registry := if circuitBreakerEnabled then core.registry.attachBreaker upstreamName else core.registry
    routes := core.routes ++
      [{ type := .proxy, matchType := .prefixed, path := path, upstreamName := upstreamName,
         fallback := fallback.init date, circuitBreakerEnabled := circuitBreakerEnabled,
         fallback_init := ⟨date, by unfold FallbackConfig.init; split_ifs <;> simp_all [FallbackConfig.response]⟩ }] }

end GatewayCore

/-! ## Requests -/

/-- a route that matches by its beginning ends at a segment of the path -/
def atSegment (routePath path : Bytes) : Bool :=
  path.length = routePath.length ∨ routePath = [] ∨ routePath.getLast? = some slash ∨
    path[routePath.length]? = some slash

/-- the first exact match, and without one the first route that the path starts with -/
def GatewayCore.matchRoute (core : GatewayCore P) (path : Bytes) : Option Route :=
  (core.routes.find? fun r => r.matchType = .exact ∧ r.path = path).or
    (core.routes.find? fun r => r.matchType = .prefixed ∧ r.path <+: path ∧ atSegment r.path path)

/-- where a request is forwarded to; `circuitBreaker` says whether a breaker comes along -/
structure ProxyTarget (P : Type*) where
  route : Route
  upstream : Upstream P
  circuitBreaker : Bool
  clientIp : Bytes
  requestId : Bytes

inductive Action (P : Type*) where
  | send (response : Bytes) (closeAfterSend : Bool)
  | proxy (target : ProxyTarget P)

/-- what a handler does -/
inductive Handled where
  | returned (response : HttpResponse)
  | threw (what : Bytes)
deriving DecidableEq, Repr

structure Answers where
  globalOk : Bool
  perIpOk : Bool
  /-- of the handler with this number, if it is called -/
  handled : ℕ → Handled
  requestId : Bytes
  date : HttpDate

/-- how far `HandleRequest` gets on its own: to an action, or to the question to the breaker -/
inductive Decision (P : Type*) where
  | act (a : Action P)
  | ask (target : ProxyTarget P)

def renderFallback (route : Route) (reason : Bytes) (date : HttpDate) : Bytes :=
  if route.fallback.enabled then route.fallback.preRendered
  else (makeError .serviceUnavailable reason).toBytes date

/-- the direct branch of `HandleRequest` -/
def direct (handled : Handled) (date : HttpDate) : Action P :=
  let response :=
    match handled with
    | .returned response => response
    | .threw what => { makeError .internalServerError what with closeConnection := true }
  .send (response.toBytes date) response.closeConnection

/-- only a breaker is asked -/
def consider (target : ProxyTarget P) : Decision P :=
  if target.circuitBreaker then .ask target else .act (.proxy target)

namespace GatewayCore

def handleRequest (core : GatewayCore P) (req : HttpRequest) (clientIp : Bytes) (answers : Answers) : Decision P :=
  if core.rateLimiter && !(answers.globalOk && answers.perIpOk) then .act (.send core.rateLimitResponse429 false)
  else
    match core.matchRoute req.path with
    | none => .act (.send ((makeError .notFound (str "not found")).toBytes answers.date) false)
    | some route =>
      match route.type with
      | .direct => .act (direct (answers.handled route.handler) answers.date)
      | .proxy =>
        match core.registry.find route.upstreamName with
        | none =>
          .act (.send (renderFallback route (str "upstream not found: " ++ route.upstreamName) answers.date) false)
        | some upstream =>
          consider
            { route := route, upstream := upstream
              circuitBreaker := route.circuitBreakerEnabled && upstream.circuitBreaker
              clientIp := clientIp, requestId := answers.requestId }

def makeForwardedContext (core : GatewayCore P) (target : ProxyTarget P) : ForwardedHeaderContext where
  clientIp := target.clientIp
  scheme := str "http"
  gatewayName := core.name
  requestId := target.requestId

end GatewayCore

/-- the rest of `HandleRequest` behind `AllowRequest` -/
def afterAllow (target : ProxyTarget P) (ok : Bool) (date : HttpDate) : Action P :=
  if ok then .proxy target else .send (renderFallback target.route (str "circuit open") date) false

def handleParseError (status : ParseStatus) (date : HttpDate) : Bytes :=
  (makeError (parseStatusToStatusCode status) (statusMessage (parseStatusToStatusCode status))).toBytes date

def proxyUnavailable (route : Route) (date : HttpDate) : Bytes :=
  renderFallback route (str "no available upstream peer") date

/-! ## What the breaker is asked about -/

/-- the breaker is asked exactly about the requests that take it along -/
def Decision.Consistent : Decision P → Prop
  | .ask target => target.circuitBreaker = true
  | .act (.proxy target) => target.circuitBreaker = false
  | .act (.send _ _) => True

inductive Decided (core : GatewayCore P) (req : HttpRequest) (answers : Answers) : Decision P → Prop
  | limited (hlimit : core.rateLimiter && !(answers.globalOk && answers.perIpOk)) :
      Decided core req answers (.act (.send core.rateLimitResponse429 false))
  | missing (hroute : core.matchRoute req.path = none) :
      Decided core req answers (.act (.send ((makeError .notFound (str "not found")).toBytes answers.date) false))
  | direct (route : Route) (hroute : core.matchRoute req.path = some route) (htype : route.type = .direct) :
      Decided core req answers (.act (direct (answers.handled route.handler) answers.date))
  | fallback (route : Route) (hroute : core.matchRoute req.path = some route) (htype : route.type = .proxy)
      (reason : Bytes) :
      Decided core req answers (.act (.send (renderFallback route reason answers.date) false))
  | proxy (target : ProxyTarget P) (hroute : core.matchRoute req.path = some target.route)
      (htype : target.route.type = .proxy) : Decided core req answers (consider target)

theorem handleRequest_decided (core : GatewayCore P) (req : HttpRequest) (clientIp : Bytes) (answers : Answers) :
    Decided core req answers (core.handleRequest req clientIp answers) := by
  unfold GatewayCore.handleRequest
  split
  case isTrue hlimit => exact .limited hlimit
  case isFalse =>
    split
    case h_1 hroute => exact .missing hroute
    case h_2 route hroute =>
      split
      case h_1 htype => exact .direct route hroute htype
      case h_2 htype =>
        split
        case h_1 => exact .fallback route hroute htype _
        case h_2 => exact .proxy _ hroute htype

theorem handleRequest_consistent (core : GatewayCore P) (req : HttpRequest) (clientIp : Bytes) (answers : Answers) :
    (core.handleRequest req clientIp answers).Consistent := by
  have hdecided := handleRequest_decided core req clientIp answers
  generalize core.handleRequest req clientIp answers = d at hdecided ⊢
  cases hdecided with
  | limited | missing | direct | fallback => trivial
  | proxy target =>
    unfold consider
    split_ifs with h
    · exact h
    · exact Bool.eq_false_iff.2 h

/-! ## Fallbacks are complete responses -/

/-- a fallback that is off, or that is a response with a body and a content type on one line -/
def FallbackConfig.Sane (f : FallbackConfig) : Prop :=
  f.enabled = true → HttpResponse.AllowsBody f.statusCode ∧ Clean f.contentType

instance (f : FallbackConfig) : Decidable f.Sane := by
  unfold FallbackConfig.Sane
  infer_instance

theorem harmless_contentType {v : Bytes} (h : Clean v) :
    ∀ kv ∈ [(str "Content-Type", v)], HttpResponse.Harmless kv := by
  intro kv hkv
  obtain rfl := mem_singleton.1 hkv
  have hname : (Clean (str "Content-Type") ∧ colon ∉ str "Content-Type") ∧
      lowerCopy (str "Content-Type") ≠ str "content-length" ∧
      lowerCopy (str "Content-Type") ≠ str "transfer-encoding" := by decide
  exact ⟨hname.1, h, hname.2.1, hname.2.2⟩

/-- **What the client gets instead of a response is complete**, unless it asked with HEAD. -/
theorem renderFallback_complete {m : Method} (hm : m ≠ .head) (route : Route) (hsane : route.fallback.Sane)
    (reason : Bytes) (date : HttpDate) : CompleteResponse m (renderFallback route reason date) := by
  unfold renderFallback
  split_ifs with henabled
  · obtain ⟨hstatus, htype⟩ := hsane henabled
    obtain ⟨start, hinit⟩ := route.fallback_init
    rw [FallbackConfig.init, if_pos henabled] at hinit
    have htext : route.fallback.preRendered = route.fallback.response.toBytes start :=
      (congrArg FallbackConfig.preRendered hinit).symm
    rw [htext]
    exact HttpResponse.toBytes_complete hm hstatus (harmless_contentType htype)
  · have hstatus : HttpResponse.AllowsBody .serviceUnavailable := by decide
    exact HttpResponse.toBytes_complete hm hstatus (harmless_contentType (by decide))

end Coropact.Gateway
