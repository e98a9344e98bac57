/-
The configuration of a gateway and its check (`include/coropact/gateway/gateway_config.h`, `ValidateGatewayConfig` in
`src/gateway/gateway_config_yaml.cc`).

The loader reads the fields out of a YAML document, each integer within limits (`Parsed`), and then validates the whole.
Validation throws at the first field that is wrong, with a text that names the field; here it returns that text.
`validateEach` is the loop over peers, upstreams and routes, each with the set of names it has seen. `inet_pton` accepts
four decimal numbers up to 255 without leading zeros.

Left out are the fields that no check reads: the contents of the status endpoint and of the fallbacks, and the circuit
breakers.
-/
import Coropact.Gateway.GatewayCore
import Coropact.Gateway.Strategies

namespace Coropact.Gateway

open Coropact.Http Coropact.Text List

/-! ## The configuration -/

/-- a `double`, as the comparisons see it -/
inductive Double where
  | nan | negInf | posInf
  | finite (q : ℚ)
deriving DecidableEq, Repr

/-- `<= 0.0` -/
def Double.nonPositive : Double → Bool
  | .nan => false
  | .negInf => true
  | .posInf => false
  | .finite q => q ≤ 0

structure GatewayServerConfig where
  name : Bytes := str "gateway"
  host : Bytes := str "127.0.0.1"
  port : UInt16 := 8080
  threads : ℤ := 0
deriving DecidableEq, Repr

structure GatewayStatusEndpointConfig where
  enabled : Bool := false
  path : Bytes := str "/healthz"
deriving DecidableEq, Repr

structure HealthCheckConfig where
  path : Bytes := str "/health"
  intervalSec : Double := .finite 10
  timeoutSec : Double := .finite 3
  unhealthyThreshold : ℤ := 3
  healthyThreshold : ℤ := 2
deriving DecidableEq, Repr

structure GatewayHealthCheckConfig where
  enabled : Bool := false
  config : HealthCheckConfig := {}
deriving DecidableEq, Repr

structure GatewayRateLimitBucketConfig where
  enabled : Bool := false
  rate : Double := .finite 1000
  burst : Double := .finite 2000
deriving DecidableEq, Repr

structure GatewayRateLimitConfig where
  «global» : GatewayRateLimitBucketConfig := {}
  perIp : GatewayRateLimitBucketConfig := { rate := .finite 10, burst := .finite 20 }
deriving DecidableEq, Repr

/-- an upstream; the timeout is in milliseconds -/
structure GatewayUpstreamConfig where
  name : Bytes
  circuitBreakerEnabled : Bool := false
  maxConcurrentRequests : BitVec 64 := 1024
  requestTimeout : ℤ := 5000
  peers : List PeerConfig
deriving DecidableEq, Repr

structure GatewayRouteConfig where
  path : Bytes
  upstreamName : Bytes
  matchKind : Bytes := str "prefix"
  loadBalance : Bytes := str "p2c"
deriving DecidableEq, Repr

structure GatewayConfig where
  server : GatewayServerConfig := {}
  statusEndpoint : GatewayStatusEndpointConfig := {}
  healthCheck : GatewayHealthCheckConfig := {}
  rateLimit : GatewayRateLimitConfig := {}
  upstreams : List GatewayUpstreamConfig := []
  routes : List GatewayRouteConfig := []
deriving DecidableEq, Repr

/-! ## Failing -/

/-- `JoinPath` -/
def fieldPath (base key : Bytes) : Bytes := if base = [] then key else base ++ str "." ++ key

/-- `base[i]` -/
def indexPath (base : Bytes) (i : ℕ) : Bytes := base ++ str "[" ++ toText i ++ str "]"

/-- the text of the error that `Fail` throws -/
def failText (ctx msg : Bytes) : Bytes := ctx ++ str ": " ++ msg

def failIf (bad : Bool) (ctx : Bytes) (msg : String) : Except Bytes Unit :=
  if bad then .error (failText ctx (str msg)) else .ok ()

/-- a loop that checks each element with the names seen so far -/
def validateEach {α : Type*} (check : ℕ → List Bytes → α → Except Bytes (List Bytes)) :
    ℕ → List Bytes → List α → Except Bytes (List Bytes)
  | _, seen, [] => .ok seen
  | i, seen, a :: rest => (check i seen a).bind fun seen => validateEach check (i + 1) seen rest

/-! ## The checks -/

def isOctet (s : Bytes) : Bool := s ≠ [] ∧ s.all isDigit ∧ (s.head? = some 48 → s.length = 1) ∧ decimal s ≤ 255

/-- whether `ParseIPv4Address` succeeds -/
def parseIPv4Address (ip : Bytes) : Bool := (0 : UInt8) ∉ ip ∧ (pieces 46 ip).length = 4 ∧ (pieces 46 ip).all isOctet

def validatePath (path ctx : Bytes) : Except Bytes Unit :=
    failIf (path.head? ≠ some slash) ctx "path must start with '/'"

def validateIPv4Endpoint (host ctx : Bytes) : Except Bytes Unit :=
  failIf (!parseIPv4Address host) ctx "expected a numeric IPv4 address"

def validateBucket (bucket : GatewayRateLimitBucketConfig) (ctx : Bytes) : Except Bytes Unit :=
  if bucket.enabled then do
    failIf bucket.rate.nonPositive (fieldPath ctx (str "rate")) "must be > 0"
    failIf bucket.burst.nonPositive (fieldPath ctx (str "burst")) "must be > 0"
  else .ok ()

def validateStatusEndpoint (endpoint : GatewayStatusEndpointConfig) : Except Bytes Unit :=
  if endpoint.enabled then validatePath endpoint.path (str "status_endpoint.path") else .ok ()

def validateHealthCheck (health : GatewayHealthCheckConfig) : Except Bytes Unit :=
  if health.enabled then do
    validatePath health.config.path (str "health_check.path")
    failIf health.config.intervalSec.nonPositive (str "health_check.interval_sec") "must be > 0"
    failIf health.config.timeoutSec.nonPositive (str "health_check.timeout_sec") "must be > 0"
  else .ok ()

def validateServer (server : GatewayServerConfig) : Except Bytes Unit := do
  failIf (server.name = []) (str "server.name") "must not be empty"
  validateIPv4Endpoint server.host (str "server.listen")
  failIf (server.threads < 0 ∨ 1 < server.threads) (str "server.threads")
    "must be 0 or 1 until ReactorServer owns worker creation"

def validatePeer (upstreamCtx : Bytes) (j : ℕ) (peerNames : List Bytes) (peer : PeerConfig) :
    Except Bytes (List Bytes) := do
  let ctx := indexPath (upstreamCtx ++ str ".peers") j
  failIf (peer.name = []) (fieldPath ctx (str "name")) "must not be empty"
  failIf (peerNames.contains peer.name) (fieldPath ctx (str "name")) "duplicate peer name in upstream"
  failIf (peer.host = []) (fieldPath ctx (str "host")) "must not be empty"
  validateIPv4Endpoint peer.host (fieldPath ctx (str "host"))
  failIf (peer.weight < 0) (fieldPath ctx (str "weight")) "must be >= 0"
  failIf (peer.maxFails ≤ 0) (fieldPath ctx (str "max_fails")) "must be > 0"
  failIf (peer.failTimeout < 0) (fieldPath ctx (str "fail_timeout_ms")) "must be >= 0"
  .ok (peer.name :: peerNames)

def validateUpstream (i : ℕ) (upstreamNames : List Bytes) (upstream : GatewayUpstreamConfig) :
    Except Bytes (List Bytes) := do
  let ctx := indexPath (str "upstreams") i
  failIf (upstream.name = []) (fieldPath ctx (str "name")) "must not be empty"
  failIf (upstreamNames.contains upstream.name) (fieldPath ctx (str "name")) "duplicate upstream name"
  failIf (upstream.peers = []) (fieldPath ctx (str "peers")) "must not be empty"
  failIf (upstream.requestTimeout ≤ 0) (fieldPath ctx (str "request_timeout_ms")) "must be > 0"
  let _ ← validateEach (validatePeer ctx) 0 [] upstream.peers
  .ok (upstream.name :: upstreamNames)

def GatewayRouteConfig.key (route : GatewayRouteConfig) : Bytes := route.matchKind ++ str ":" ++ route.path

def validateRoute (upstreamNames : List Bytes) (i : ℕ) (routeKeys : List Bytes) (route : GatewayRouteConfig) :
    Except Bytes (List Bytes) := do
  let ctx := indexPath (str "routes") i
  validatePath route.path (fieldPath ctx (str "path"))
  failIf (route.upstreamName = []) (fieldPath ctx (str "upstream")) "must not be empty"
  failIf (!upstreamNames.contains route.upstreamName) (fieldPath ctx (str "upstream")) "unknown upstream"
  failIf (route.matchKind ≠ str "prefix") (fieldPath ctx (str "match")) "only 'prefix' proxy routes are supported"
  failIf (createLoadBalancer (P := Unit) route.loadBalance).isNone
    (fieldPath ctx (str "load_balance")) "unknown load balancer"
  failIf (routeKeys.contains route.key) (fieldPath ctx (str "path")) "duplicate route"
  .ok (route.key :: routeKeys)

def validateGatewayConfig (config : GatewayConfig) : Except Bytes Unit := do
  validateServer config.server
  validateStatusEndpoint config.statusEndpoint
  validateHealthCheck config.healthCheck
  validateBucket config.rateLimit.global (str "rate_limit.global")
  validateBucket config.rateLimit.perIp (str "rate_limit.per_ip")
  let upstreamNames ← validateEach validateUpstream 0 [] config.upstreams
  let _ ← validateEach (validateRoute upstreamNames) 0 [] config.routes
  .ok ()

/-! ## What is accepted -/

theorem failIf_ok_iff {bad : Bool} {ctx : Bytes} {msg : String} : failIf bad ctx msg = .ok () ↔ bad = false := by
  unfold failIf
  cases bad <;> simp

theorem bind_ok_iff {α β : Type*} {x : Except Bytes α} {f : α → Except Bytes β} {r : β} :
    x.bind f = .ok r ↔ ∃ a, x = .ok a ∧ f a = .ok r := by
  cases x with
  | error e => simp [Except.bind]
  | ok a => simp [Except.bind]

theorem then_ok_iff {β : Type} {x : Except Bytes Unit} {f : Unit → Except Bytes β} {r : β} :
    (x >>= f) = .ok r ↔ x = .ok () ∧ f () = .ok r := by
  rw [show (x >>= f) = x.bind f from rfl, bind_ok_iff]
  exact ⟨fun ⟨(), h⟩ => h, fun h => ⟨(), h⟩⟩

/-- a check that passes the elements that are good and new -/
def ChecksNew {α : Type*} (check : ℕ → List Bytes → α → Except Bytes (List Bytes)) (good : α → Prop)
    (key : α → Bytes) : Prop :=
  ∀ i seen a seen', check i seen a = .ok seen' ↔ good a ∧ key a ∉ seen ∧ seen' = key a :: seen

theorem validateEach_ok_iff {α : Type*} {check : ℕ → List Bytes → α → Except Bytes (List Bytes)} {good : α → Prop}
    {key : α → Bytes} (hcheck : ChecksNew check good key) (l : List α) (i : ℕ) (seen seen' : List Bytes) :
    validateEach check i seen l = .ok seen' ↔
      (∀ a ∈ l, good a) ∧ (l.map key).Nodup ∧ (∀ a ∈ l, key a ∉ seen) ∧ seen' = (l.map key).reverse ++ seen := by
  induction l generalizing i seen with
  | nil => simp [validateEach, eq_comm]
  | cons a rest ih =>
    rw [validateEach, bind_ok_iff]
    constructor
    · rintro ⟨seen₁, ha, hrest⟩
      obtain ⟨hgood, hnew, rfl⟩ := (hcheck i seen a seen₁).1 ha
      obtain ⟨hgoods, hnodup, hnews, rfl⟩ := (ih (i + 1) _).1 hrest
      refine ⟨forall_mem_cons.2 ⟨hgood, hgoods⟩, ?_, ?_, by simp⟩
      · rw [map_cons, nodup_cons]
        refine ⟨fun hmem => ?_, hnodup⟩
        obtain ⟨b, hb, hkey⟩ := mem_map.1 hmem
        exact hnews b hb (hkey ▸ mem_cons_self)
      · exact forall_mem_cons.2 ⟨hnew, fun b hb hmem => hnews b hb (mem_cons_of_mem _ hmem)⟩
    · rintro ⟨hgoods, hnodup, hnews, rfl⟩
      obtain ⟨hgood, hgoods⟩ := forall_mem_cons.1 hgoods
      obtain ⟨hnew, hnews⟩ := forall_mem_cons.1 hnews
      rw [map_cons, nodup_cons] at hnodup
      refine ⟨key a :: seen, (hcheck i seen a _).2 ⟨hgood, hnew, rfl⟩, (ih (i + 1) _).2 ⟨hgoods, hnodup.2, ?_, by simp⟩⟩
      intro b hb hmem
      rcases mem_cons.1 hmem with hkey | hmem
      · exact hnodup.1 (hkey ▸ mem_map_of_mem hb)
      · exact hnews b hb hmem

structure PeerConfig.WellFormed (peer : PeerConfig) : Prop where
  name_ne : peer.name ≠ []
  host : parseIPv4Address peer.host = true
  weight : 0 ≤ peer.weight
  maxFails : 0 < peer.maxFails
  failTimeout : 0 ≤ peer.failTimeout

structure GatewayUpstreamConfig.WellFormed (upstream : GatewayUpstreamConfig) : Prop where
  name_ne : upstream.name ≠ []
  peers_ne : upstream.peers ≠ []
  requestTimeout : 0 < upstream.requestTimeout
  peers : ∀ peer ∈ upstream.peers, peer.WellFormed
  names_nodup : (upstream.peers.map PeerConfig.name).Nodup

structure GatewayRouteConfig.WellFormed (upstreamNames : List Bytes) (route : GatewayRouteConfig) : Prop where
  path : route.path.head? = some slash
  upstream_ne : route.upstreamName ≠ []
  upstream : route.upstreamName ∈ upstreamNames
  matchKind : route.matchKind = str "prefix"
  loadBalance : (createLoadBalancer (P := Unit) route.loadBalance).isSome = true

structure GatewayRateLimitBucketConfig.WellFormed (bucket : GatewayRateLimitBucketConfig) : Prop where
  rate : bucket.rate.nonPositive = false
  burst : bucket.burst.nonPositive = false

structure HealthCheckConfig.WellFormed (health : HealthCheckConfig) : Prop where
  path : health.path.head? = some slash
  intervalSec : health.intervalSec.nonPositive = false
  timeoutSec : health.timeoutSec.nonPositive = false

structure GatewayServerConfig.WellFormed (server : GatewayServerConfig) : Prop where
  name_ne : server.name ≠ []
  host : parseIPv4Address server.host = true
  threads_nonneg : 0 ≤ server.threads
  threads_le : server.threads ≤ 1

namespace GatewayConfig

structure WellFormed (config : GatewayConfig) : Prop where
  server : config.server.WellFormed
  statusEndpoint : config.statusEndpoint.enabled = true → config.statusEndpoint.path.head? = some slash
  healthCheck : config.healthCheck.enabled = true → config.healthCheck.config.WellFormed
  rateLimitGlobal : config.rateLimit.global.enabled = true → config.rateLimit.global.WellFormed
  rateLimitPerIp : config.rateLimit.perIp.enabled = true → config.rateLimit.perIp.WellFormed
  upstreams : ∀ upstream ∈ config.upstreams, upstream.WellFormed
  upstreams_nodup : (config.upstreams.map GatewayUpstreamConfig.name).Nodup
  routes : ∀ route ∈ config.routes, route.WellFormed (config.upstreams.map GatewayUpstreamConfig.name)
  routes_nodup : (config.routes.map GatewayRouteConfig.key).Nodup

end GatewayConfig

theorem validatePath_ok_iff {path ctx : Bytes} : validatePath path ctx = .ok () ↔ path.head? = some slash := by
  rw [validatePath, failIf_ok_iff, decide_eq_false_iff_not, not_not]

theorem validateIPv4Endpoint_ok_iff {host ctx : Bytes} :
    validateIPv4Endpoint host ctx = .ok () ↔ parseIPv4Address host = true := by
  rw [validateIPv4Endpoint, failIf_ok_iff, Bool.not_eq_false']

theorem checksNew_validatePeer (ctx : Bytes) : ChecksNew (validatePeer ctx) PeerConfig.WellFormed PeerConfig.name := by
  intro j seen peer seen'
  unfold validatePeer
  simp only [then_ok_iff, failIf_ok_iff, validateIPv4Endpoint_ok_iff, decide_eq_false_iff_not, contains_eq_mem, not_lt,
    not_le, Except.ok.injEq]
  constructor
  · rintro ⟨hname, hnew, -, hhost, hweight, hfails, htimeout, rfl⟩
    exact ⟨⟨hname, hhost, hweight, hfails, htimeout⟩, hnew, rfl⟩
  · rintro ⟨h, hnew, rfl⟩
    refine ⟨h.name_ne, hnew, ?_, h.host, h.weight, h.maxFails, h.failTimeout, rfl⟩
    intro hnil
    have hhost := h.host
    rw [hnil] at hhost
    exact absurd hhost (by decide)

theorem checksNew_validateUpstream :
    ChecksNew validateUpstream GatewayUpstreamConfig.WellFormed GatewayUpstreamConfig.name := by
  intro i seen upstream seen'
  have hpeers := validateEach_ok_iff (checksNew_validatePeer (indexPath (str "upstreams") i)) upstream.peers 0 []
  unfold validateUpstream
  simp only [then_ok_iff, failIf_ok_iff, decide_eq_false_iff_not, contains_eq_mem, not_le]
  constructor
  · rintro ⟨hname, hnew, hne, htimeout, hrest⟩
    obtain ⟨names, hnames, heq⟩ := bind_ok_iff.1 hrest
    obtain ⟨hgood, hnodup, -, -⟩ := (hpeers names).1 hnames
    exact ⟨⟨hname, hne, htimeout, hgood, hnodup⟩, hnew, (Except.ok.inj heq).symm⟩
  · rintro ⟨h, hnew, rfl⟩
    refine ⟨h.name_ne, hnew, h.peers_ne, h.requestTimeout,
      bind_ok_iff.2 ⟨_, (hpeers _).2 ⟨h.peers, h.names_nodup, ?_, rfl⟩, rfl⟩⟩
    exact fun _ _ => not_mem_nil

theorem checksNew_validateRoute (upstreamNames : List Bytes) :
    ChecksNew (validateRoute upstreamNames) (GatewayRouteConfig.WellFormed upstreamNames) GatewayRouteConfig.key := by
  intro i seen route seen'
  unfold validateRoute
  simp only [then_ok_iff, failIf_ok_iff, validatePath_ok_iff, decide_eq_false_iff_not, contains_eq_mem, not_not,
    Bool.not_eq_false', decide_eq_true_eq, Option.isNone_eq_false_iff, Except.ok.injEq]
  constructor
  · rintro ⟨hpath, hne, hknown, hmatch, hlb, hnew, rfl⟩
    exact ⟨⟨hpath, hne, hknown, hmatch, hlb⟩, hnew, rfl⟩
  · rintro ⟨h, hnew, rfl⟩
    exact ⟨h.path, h.upstream_ne, h.upstream, h.matchKind, h.loadBalance, hnew, rfl⟩

theorem validateBucket_ok_iff {bucket : GatewayRateLimitBucketConfig} {ctx : Bytes} :
    validateBucket bucket ctx = .ok () ↔ (bucket.enabled = true → bucket.WellFormed) := by
  unfold validateBucket
  split_ifs with henabled
  · rw [then_ok_iff, failIf_ok_iff, failIf_ok_iff]
    exact ⟨fun h _ => ⟨h.1, h.2⟩, fun h => ⟨(h henabled).rate, (h henabled).burst⟩⟩
  · exact iff_of_true rfl fun h => absurd h henabled

theorem validateStatusEndpoint_ok_iff {endpoint : GatewayStatusEndpointConfig} :
    validateStatusEndpoint endpoint = .ok () ↔ (endpoint.enabled = true → endpoint.path.head? = some slash) := by
  unfold validateStatusEndpoint
  split_ifs with henabled
  · rw [validatePath_ok_iff]
    exact ⟨fun h _ => h, fun h => h henabled⟩
  · exact iff_of_true rfl fun h => absurd h henabled

theorem validateHealthCheck_ok_iff {health : GatewayHealthCheckConfig} :
    validateHealthCheck health = .ok () ↔ (health.enabled = true → health.config.WellFormed) := by
  unfold validateHealthCheck
  split_ifs with henabled
  · rw [then_ok_iff, then_ok_iff, validatePath_ok_iff, failIf_ok_iff, failIf_ok_iff]
    exact ⟨fun h _ => ⟨h.1, h.2.1, h.2.2⟩, fun h =>
      ⟨(h henabled).path, (h henabled).intervalSec, (h henabled).timeoutSec⟩⟩
  · exact iff_of_true rfl fun h => absurd h henabled

theorem validateServer_ok_iff {server : GatewayServerConfig} : validateServer server = .ok () ↔ server.WellFormed := by
  unfold validateServer
  rw [then_ok_iff, then_ok_iff, failIf_ok_iff, validateIPv4Endpoint_ok_iff, failIf_ok_iff, decide_eq_false_iff_not,
    decide_eq_false_iff_not, not_or, not_lt, not_lt]
  exact ⟨fun h => ⟨h.1, h.2.1, h.2.2.1, h.2.2.2⟩, fun h => ⟨h.name_ne, h.host, h.threads_nonneg, h.threads_le⟩⟩

/-- **What is accepted is well formed**, and the other way round. -/
theorem validateGatewayConfig_ok_iff (config : GatewayConfig) : validateGatewayConfig config = .ok () ↔
    config.WellFormed := by
  have hupstreams := validateEach_ok_iff checksNew_validateUpstream config.upstreams 0 []
  have hroutes := fun names => validateEach_ok_iff (checksNew_validateRoute names) config.routes 0 []
  unfold validateGatewayConfig
  rw [then_ok_iff, then_ok_iff, then_ok_iff, then_ok_iff, then_ok_iff, validateServer_ok_iff,
    validateStatusEndpoint_ok_iff, validateHealthCheck_ok_iff, validateBucket_ok_iff, validateBucket_ok_iff]
  constructor
  · rintro ⟨hserver, hendpoint, hhealth, hglobal, hperIp, hrest⟩
    obtain ⟨names, hnames, hrest⟩ := bind_ok_iff.1 hrest
    obtain ⟨keys, hkeys, -⟩ := bind_ok_iff.1 hrest
    obtain ⟨hgood, hnodup, -, rfl⟩ := (hupstreams names).1 hnames
    obtain ⟨hgoodRoutes, hnodupRoutes, -, -⟩ := (hroutes _ keys).1 hkeys
    refine ⟨hserver, hendpoint, hhealth, hglobal, hperIp, hgood, hnodup, fun route hroute => ?_, hnodupRoutes⟩
    obtain ⟨hpath, hne, hknown, hmatch, hlb⟩ := hgoodRoutes route hroute
    rw [append_nil, mem_reverse] at hknown
    exact ⟨hpath, hne, hknown, hmatch, hlb⟩
  · intro h
    refine ⟨h.server, h.statusEndpoint, h.healthCheck, h.rateLimitGlobal, h.rateLimitPerIp, ?_⟩
    refine bind_ok_iff.2 ⟨_, (hupstreams _).2 ⟨h.upstreams, h.upstreams_nodup, fun _ _ => not_mem_nil, rfl⟩, ?_⟩
    refine bind_ok_iff.2 ⟨_, (hroutes _ _).2 ⟨fun route hroute => ?_, h.routes_nodup, fun _ _ => not_mem_nil, rfl⟩, rfl⟩
    obtain ⟨hpath, hne, hknown, hmatch, hlb⟩ := h.routes route hroute
    refine ⟨hpath, hne, ?_, hmatch, hlb⟩
    rwa [append_nil, mem_reverse]

/-! ## Loading -/

@[mk_iff] structure PeerConfig.Parsed (peer : PeerConfig) : Prop where
  port : peer.port ≠ 0
  weight_nonneg : 0 ≤ peer.weight
  weight_le : peer.weight ≤ kIntMax
  maxFails_pos : 1 ≤ peer.maxFails
  maxFails_le : peer.maxFails ≤ kIntMax
  failTimeout_nonneg : 0 ≤ peer.failTimeout
  failTimeout_le : peer.failTimeout ≤ kIntMax

instance (peer : PeerConfig) : Decidable peer.Parsed := decidable_of_iff' _ (PeerConfig.parsed_iff peer)

namespace GatewayConfig

@[mk_iff] structure Parsed (config : GatewayConfig) : Prop where
  threads : 0 ≤ config.server.threads ∧ config.server.threads ≤ 1
  port : config.server.port ≠ 0
  unhealthyThreshold : 1 ≤ config.healthCheck.config.unhealthyThreshold ∧
    config.healthCheck.config.unhealthyThreshold ≤ kIntMax
  healthyThreshold : 1 ≤ config.healthCheck.config.healthyThreshold ∧
    config.healthCheck.config.healthyThreshold ≤ kIntMax
  requestTimeout : ∀ upstream ∈ config.upstreams, 1 ≤ upstream.requestTimeout ∧ upstream.requestTimeout ≤ kIntMax
  peers : ∀ upstream ∈ config.upstreams, ∀ peer ∈ upstream.peers, peer.Parsed

instance (config : GatewayConfig) : Decidable config.Parsed := decidable_of_iff' _ (parsed_iff config)

/-- the configurations the loader returns -/
@[mk_iff] structure Accepted (config : GatewayConfig) : Prop where
  parsed : config.Parsed
  validated : validateGatewayConfig config = .ok ()

instance (config : GatewayConfig) : Decidable config.Accepted := decidable_of_iff' _ (accepted_iff config)

end GatewayConfig

namespace GatewayUpstreamConfig

/-- the peers `BuildGatewayUpstreamRegistry` makes for an upstream, by position -/
def group (upstream : GatewayUpstreamConfig) : PeerGroup (Fin upstream.peers.length) where
  peers := List.finRange upstream.peers.length
  config := upstream.peers.get
  state i := .make (upstream.peers.get i)

theorem name_injective {upstream : GatewayUpstreamConfig} (h : upstream.WellFormed) {i j : Fin upstream.peers.length}
    (heq : (upstream.group.config i).name = (upstream.group.config j).name) : i = j := by
  have hinj := nodup_iff_injective_get.1 h.names_nodup
  have hlength : (upstream.peers.map PeerConfig.name).length = upstream.peers.length := length_map _
  have hcast : Fin.cast hlength.symm i = Fin.cast hlength.symm j := hinj (by simpa [group] using heq)
  exact Fin.cast_injective _ hcast

end GatewayUpstreamConfig

theorem Balancing.reached_group {config : GatewayConfig} (h : config.Accepted) {upstream : GatewayUpstreamConfig}
    (hupstream : upstream ∈ config.upstreams) (hashing : Hashing (Fin upstream.peers.length))
    {lb : LoadBalancer (Fin upstream.peers.length)} (hlb : Constructed lb) :
    Balancing.Reached hashing upstream.group.peers upstream.group.config ⟨upstream.group, lb⟩ where
  peers_eq := rfl
  config_eq := rfl
  inWeight := by
    intro p _
    have hwell := ((validateGatewayConfig_ok_iff config).1 h.validated).upstreams upstream hupstream
    exact ⟨(hwell.peers _ (get_mem upstream.peers p)).weight, le_rfl⟩
  remembers := Balancing.remembers_constructed hlb

end Coropact.Gateway
