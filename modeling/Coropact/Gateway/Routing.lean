/-
Which handler a request reaches (`GatewayCore::Get`, `Post`, `AddProxyRoute`, `MatchRoute` and `HandleRequest` in
`src/gateway/gateway_core.cc`).

A routing table is the list of the registrations that made it. `Get` and `Post` push the same `Route`: neither sets its
`method`, and `MatchRoute` is not told the method of the request. The method a handler was registered for is therefore
known to the registration only, and `dispatch` is `MatchRoute` over registrations.
-/
import Coropact.Gateway.GatewayCore

namespace Coropact.Gateway

open Coropact.Http Coropact.Text List Option

/-! ## Registrations -/

inductive Registration where
  | get (path : Bytes) (handler : ℕ)
  | post (path : Bytes) (handler : ℕ)
  | addProxyRoute (path upstreamName : Bytes)
  | addProxyRouteWith (path upstreamName : Bytes) (fallback : FallbackConfig) (circuitBreakerEnabled : Bool)
deriving DecidableEq

variable {P : Type*}

namespace Registration

def path : Registration → Bytes
  | .get path _ | .post path _ | .addProxyRoute path _ | .addProxyRouteWith path _ _ _ => path

def handler : Registration → Option ℕ
  | .get _ handler | .post _ handler => some handler
  | .addProxyRoute _ _ | .addProxyRouteWith _ _ _ _ => none

def method : Registration → Option Method
  | .get _ _ => some .get
  | .post _ _ => some .post
  | .addProxyRoute _ _ | .addProxyRouteWith _ _ _ _ => none

def isDirect (r : Registration) : Bool := r.handler.isSome

def matchType : Registration → MatchType
  | .get _ _ | .post _ _ => .exact
  | .addProxyRoute _ _ | .addProxyRouteWith _ _ _ _ => .prefixed

end Registration

namespace GatewayCore

def register (date : HttpDate) (core : GatewayCore P) : Registration → GatewayCore P
  | .get path handler => core.addDirectRoute path handler date
  | .post path handler => core.addDirectRoute path handler date
  | .addProxyRoute path upstreamName => core.addProxyRoute path upstreamName date
  | .addProxyRouteWith path upstreamName fallback enabled =>
    core.addProxyRouteWith path upstreamName fallback enabled date

def build (core : GatewayCore P) (date : HttpDate) (regs : List Registration) : GatewayCore P :=
  regs.foldl (register date) core

end GatewayCore

/-- the first exact match, and without one the first proxy route that the path starts with -/
def dispatch (regs : List Registration) (path : Bytes) : Option Registration :=
  (regs.find? fun r => r.matchType = .exact ∧ r.path = path).or
    (regs.find? fun r => r.matchType = .prefixed ∧ r.path <+: path ∧ atSegment r.path path)

/-- the registration whose handler `HandleRequest` runs -/
def handlerRun (core : GatewayCore P) (regs : List Registration) (req : HttpRequest) (answers : Answers) :
    Option Registration :=
  if core.rateLimiter && !(answers.globalOk && answers.perIpOk) then none
  else (dispatch regs req.path).filter Registration.isDirect

/-! ## The table a sequence of registrations makes -/

/-- a route is what a registration pushes -/
structure Pushed (r : Registration) (route : Route) : Prop where
  path : route.path = r.path
  matchType : route.matchType = r.matchType
  type : route.type = if r.isDirect then .direct else .proxy
  handler : ∀ h, r.handler = some h → route.handler = h

theorem routes_register (date : HttpDate) (core : GatewayCore P) (r : Registration) :
    ∃ route, Pushed r route ∧ (core.register date r).routes = core.routes ++ [route] := by
  cases r with
  | get path handler => exact ⟨_, ⟨rfl, rfl, rfl, fun _ h => by cases h; rfl⟩, rfl⟩
  | post path handler => exact ⟨_, ⟨rfl, rfl, rfl, fun _ h => by cases h; rfl⟩, rfl⟩
  | addProxyRoute path upstreamName => exact ⟨_, ⟨rfl, rfl, rfl, fun _ h => by cases h⟩, rfl⟩
  | addProxyRouteWith path upstreamName fallback enabled => exact ⟨_, ⟨rfl, rfl, rfl, fun _ h => by cases h⟩, rfl⟩

theorem routes_build (core : GatewayCore P) (date : HttpDate) (regs : List Registration) :
    ∃ routes, List.Forall₂ Pushed regs routes ∧ (core.build date regs).routes = core.routes ++ routes := by
  induction regs generalizing core with
  | nil => exact ⟨[], .nil, (append_nil _).symm⟩
  | cons r regs ih =>
    obtain ⟨route, hroute, heq⟩ := routes_register date core r
    obtain ⟨routes, hroutes, hbuild⟩ := ih (core.register date r)
    refine ⟨route :: routes, .cons hroute hroutes, ?_⟩
    rw [GatewayCore.build]
    exact hbuild.trans (by rw [heq, append_assoc, singleton_append])

theorem find_pushed {regs : List Registration} {routes : List Route} (h : List.Forall₂ Pushed regs routes)
    (p : MatchType → Bytes → Bool) :
    Option.Rel Pushed (regs.find? fun r => p r.matchType r.path) (routes.find? fun r => p r.matchType r.path) := by
  induction h with
  | nil => exact .none
  | @cons r route regs routes hr _ ih =>
    rw [List.find?_cons, List.find?_cons, hr.path, hr.matchType]
    cases p r.matchType r.path with
    | true => exact .some hr
    | false => exact ih

theorem rel_or {α β : Type*} {R : α → β → Prop} {a a' : Option α} {b b' : Option β} (h : Option.Rel R a b)
    (h' : Option.Rel R a' b') : Option.Rel R (a.or a') (b.or b') := by
  cases h with
  | some h => exact .some h
  | none => exact h'

/-- **`MatchRoute` finds the route of the registration `dispatch` finds.** -/
theorem matchRoute_build {core : GatewayCore P} (hempty : core.routes = []) (date : HttpDate)
    (regs : List Registration) (path : Bytes) :
    Option.Rel Pushed (dispatch regs path) ((core.build date regs).matchRoute path) := by
  obtain ⟨routes, hroutes, heq⟩ := routes_build core date regs
  rw [hempty] at heq
  rw [GatewayCore.matchRoute, heq]
  exact rel_or (find_pushed hroutes fun m p => m = .exact ∧ p = path)
    (find_pushed hroutes fun m p => m = .prefixed ∧ p <+: path ∧ atSegment p path)

theorem rateLimiter_build (core : GatewayCore P) (date : HttpDate) (regs : List Registration) :
    (core.build date regs).rateLimiter = core.rateLimiter := by
  induction regs generalizing core with
  | nil => rfl
  | cons r regs ih =>
    rw [GatewayCore.build]
    refine (ih (core.register date r)).trans ?_
    cases r <;> rfl

/-! ## What `HandleRequest` runs -/

section HandleRequest

variable {core : GatewayCore P} {regs : List Registration} {date : HttpDate} {req : HttpRequest} {answers : Answers}

theorem handlerRun_some {r : Registration} (h : handlerRun core regs req answers = some r) :
    ¬(core.rateLimiter && !(answers.globalOk && answers.perIpOk)) ∧ dispatch regs req.path = some r ∧
      r.isDirect = true := by
  rw [handlerRun] at h
  split_ifs at h with hlimit
  exact ⟨hlimit, filter_eq_some_iff.1 h⟩

/-- **The handler that is named decides about the response.** -/
theorem handleRequest_runs (hempty : core.routes = []) (clientIp : Bytes) {r : Registration} {h : ℕ}
    (hrun : handlerRun core regs req answers = some r) (hhandler : r.handler = some h) :
    (core.build date regs).handleRequest req clientIp answers = .act (direct (answers.handled h) answers.date) := by
  obtain ⟨hlimit, hdispatch, hdirect⟩ := handlerRun_some hrun
  have hmatch := matchRoute_build hempty date regs req.path
  rw [GatewayCore.handleRequest, rateLimiter_build, if_neg hlimit]
  rw [hdispatch] at hmatch
  generalize (core.build date regs).matchRoute req.path = found at hmatch ⊢
  cases hmatch with
  | @some _ route hpushed =>
    have htype : route.type = .direct := by rw [hpushed.type, if_pos hdirect]
    simp only [htype, hpushed.handler h hhandler]

/-- **Where no handler is named none has a say.** -/
theorem handleRequest_idle (hempty : core.routes = []) (clientIp : Bytes)
    (hrun : handlerRun core regs req answers = none) (handled : ℕ → Handled) :
    (core.build date regs).handleRequest req clientIp { answers with handled := handled } =
      (core.build date regs).handleRequest req clientIp answers := by
  rw [handlerRun] at hrun
  rw [GatewayCore.handleRequest, GatewayCore.handleRequest, rateLimiter_build]
  split_ifs at hrun ⊢ with hlimit
  · rfl
  · have hmatch := matchRoute_build hempty date regs req.path
    generalize (core.build date regs).matchRoute req.path = found at hmatch ⊢
    generalize dispatch regs req.path = named at hmatch hrun
    cases hmatch with
    | none => rfl
    | @some _ route hpushed =>
      have htype : route.type = .proxy := by
        rw [hpushed.type, if_neg]
        exact filter_eq_none_iff.1 hrun _ rfl
      simp only [htype]

/-- **One handler at most decides about a request**, for every sequence of registrations: that of the registration
`dispatch` finds, if it is a direct one and the request is within the limits. -/
theorem handled_by_registration (hempty : core.routes = []) (clientIp : Bytes) :
    (∀ r, handlerRun core regs req answers = some r → ∃ h, r.handler = some h ∧
      (core.build date regs).handleRequest req clientIp answers = .act (direct (answers.handled h) answers.date)) ∧
    (handlerRun core regs req answers = none → ∀ handled : ℕ → Handled,
      (core.build date regs).handleRequest req clientIp { answers with handled := handled } =
        (core.build date regs).handleRequest req clientIp answers) := by
  refine ⟨fun r hrun => ?_, handleRequest_idle hempty clientIp⟩
  obtain ⟨h, hhandler⟩ := isSome_iff_exists.1 (handlerRun_some hrun).2.2
  exact ⟨h, hhandler, handleRequest_runs hempty clientIp hrun hhandler⟩

end HandleRequest

/-! ## Methods and segments -/

/-- a place of a path between two segments, or at its ends -/
def Boundary (path : Bytes) (i : ℕ) : Prop :=
  i = 0 ∨ i = path.length ∨ path[i]? = some slash ∨ path[i - 1]? = some slash

/-- the first direct registration for the path of the request, if there is one, is for its method -/
def MethodFirst (regs : List Registration) (req : HttpRequest) : Prop :=
  ∀ r ∈ regs.find? fun r => r.isDirect ∧ r.path = req.path, r.method = some req.method

section Dispatch

variable {regs : List Registration} {r : Registration} {path : Bytes}

theorem exact_iff (r : Registration) : r.matchType = .exact ↔ r.isDirect = true := by
  cases r with
  | get | post => exact iff_of_true rfl rfl
  | addProxyRoute | addProxyRouteWith => exact iff_of_false (by simp [Registration.matchType]) Bool.false_ne_true

theorem isDirect_of_method {m : Method} (h : r.method = some m) : r.isDirect = true := by
  cases r with
  | get | post => rfl
  | addProxyRoute | addProxyRouteWith => cases h

theorem find_exact (regs : List Registration) (path : Bytes) :
    (regs.find? fun r => r.matchType = .exact ∧ r.path = path) = regs.find? fun r => r.isDirect ∧ r.path = path := by
  simp only [exact_iff]

theorem dispatch_direct (h : dispatch regs path = some r) (hr : r.isDirect = true) :
    regs.find? (fun r => r.isDirect ∧ r.path = path) = some r := by
  rw [dispatch, find_exact] at h
  rcases or_eq_some_iff.1 h with hfirst | ⟨-, hproxy⟩
  · exact hfirst
  · have hmatch := List.find?_some hproxy
    rw [decide_eq_true_eq, (exact_iff r).2 hr] at hmatch
    cases hmatch.1

/-- **A proxy route matches at a boundary of segments, and only where no direct route is.** -/
theorem dispatch_proxy (h : dispatch regs path = some r) (hr : r.isDirect = false) :
    r ∈ regs ∧ r.path <+: path ∧ Boundary path r.path.length ∧ ∀ r' ∈ regs, r'.isDirect = true → r'.path ≠ path := by
  rw [dispatch, find_exact] at h
  rcases or_eq_some_iff.1 h with hfirst | ⟨hnone, hproxy⟩
  · have hmatch := List.find?_some hfirst
    rw [decide_eq_true_eq, hr] at hmatch
    cases hmatch.1
  · have hmatch := List.find?_some hproxy
    rw [decide_eq_true_eq] at hmatch
    obtain ⟨-, hprefix, hseg⟩ := hmatch
    refine ⟨mem_of_find?_eq_some hproxy, hprefix, ?_, ?_⟩
    · rw [atSegment, decide_eq_true_eq] at hseg
      rcases hseg with hlen | hnil | hlast | hnext
      · exact .inr (.inl hlen.symm)
      · exact .inl (by rw [hnil]; rfl)
      · -- the slash is the last byte of the route's own path
        obtain ⟨rest, rfl⟩ := hprefix
        have hpos : r.path.length - 1 < r.path.length := by
          cases hpath : r.path with
          | nil => rw [hpath] at hlast; cases hlast
          | cons b p => simp
        rw [List.getLast?_eq_getElem?] at hlast
        exact .inr (.inr (.inr (by rw [List.getElem?_append_left hpos, hlast])))
      · exact .inr (.inr (.inl hnext))
    · intro r' hr' hdirect hpath
      have hno := List.find?_eq_none.1 hnone r' hr'
      exact hno (by simp [hdirect, hpath])

theorem find_direct {req : HttpRequest} (hfirst : MethodFirst regs req)
    (hr : regs.find? (fun r => r.method = some req.method ∧ r.path = req.path) = some r) :
    regs.find? (fun r => r.isDirect ∧ r.path = req.path) = some r := by
  have hmatch := List.find?_some hr
  rw [decide_eq_true_eq] at hmatch
  obtain ⟨r₀, hr₀⟩ : ∃ r₀, regs.find? (fun r => r.isDirect ∧ r.path = req.path) = some r₀ :=
    isSome_iff_exists.1
      (List.find?_isSome.2 ⟨r, mem_of_find?_eq_some hr, by simp [isDirect_of_method hmatch.1, hmatch.2]⟩)
  obtain ⟨hp₀, as, bs, hregs, hbefore⟩ := List.find?_eq_some_iff_append.1 hr₀
  rw [decide_eq_true_eq] at hp₀
  have hnone : as.find? (fun r => r.method = some req.method ∧ r.path = req.path) = none := by
    rw [List.find?_eq_none]
    intro a ha hp
    rw [decide_eq_true_eq] at hp
    have hnot := hbefore a ha
    simp [isDirect_of_method hp.1, hp.2] at hnot
  have hhit : regs.find? (fun r => r.method = some req.method ∧ r.path = req.path) = some r₀ := by
    rw [hregs, List.find?_append, hnone, none_or]
    simp [hfirst r₀ hr₀, hp₀.2]
  rw [hr₀, hhit.symm.trans hr]

end Dispatch

/-- the handler that runs was registered for the path and the method of the request, and where the request is within the
limits the first one that was runs -/
structure ByMethod (core : GatewayCore P) (regs : List Registration) (req : HttpRequest) (answers : Answers) :
    Prop where
  own : ∀ r, handlerRun core regs req answers = some r → r.path = req.path ∧ r.method = some req.method
  reached : ¬(core.rateLimiter && !(answers.globalOk && answers.perIpOk)) →
    ∀ r ∈ regs.find? (fun r => r.method = some req.method ∧ r.path = req.path),
      handlerRun core regs req answers = some r

/-- **Dispatch by method.** For every sequence of registrations, a request that is within the limits goes by its method
exactly if the first direct registration for its path, if there is one, is for its method. A proxy route is taken at a
boundary of segments only, and never where a direct route is registered for the path. -/
theorem dispatch_by_method (core : GatewayCore P) (regs : List Registration) (req : HttpRequest) (answers : Answers) :
    (ByMethod core regs req answers ↔
      (core.rateLimiter && !(answers.globalOk && answers.perIpOk)) ∨ MethodFirst regs req) ∧
    ∀ r, dispatch regs req.path = some r → r.isDirect = false →
      r.path <+: req.path ∧ Boundary req.path r.path.length ∧
        ∀ r' ∈ regs, r'.isDirect = true → r'.path ≠ req.path := by
  refine ⟨⟨fun hby => ?_, fun hcond => ⟨fun r hrun => ?_, fun hlimit r hr => ?_⟩⟩,
    fun r hr hproxy => (dispatch_proxy hr hproxy).2⟩
  · by_cases hlimit : core.rateLimiter && !(answers.globalOk && answers.perIpOk)
    · exact .inl hlimit
    · refine .inr fun r hr => (hby.own r ?_).2
      have hdirect := List.find?_some hr
      rw [decide_eq_true_eq] at hdirect
      rw [handlerRun, if_neg hlimit, dispatch, find_exact, hr, some_or, filter_some, if_pos hdirect.1]
  · obtain ⟨hlimit, hdispatch, hdirect⟩ := handlerRun_some hrun
    have hfound := dispatch_direct hdispatch hdirect
    have hpath := List.find?_some hfound
    rw [decide_eq_true_eq] at hpath
    exact ⟨hpath.2, hcond.resolve_left hlimit r hfound⟩
  · have hfound := find_direct (hcond.resolve_left hlimit) hr
    have hdirect := List.find?_some hfound
    rw [decide_eq_true_eq] at hdirect
    rw [handlerRun, if_neg hlimit, dispatch, find_exact, hfound, some_or, filter_some, if_pos hdirect.1]

theorem clean_nil : Clean [] := by decide

def noDate : HttpDate := ⟨[], clean_nil⟩

def emptyCore : GatewayCore Unit := GatewayCore.make (str "gw") {} noDate

def withinLimits : Answers where
  globalOk := true
  perIpOk := true
  handled := fun _ => .returned {}
  requestId := []
  date := noDate

def getAndPost : List Registration :=
  [.addProxyRoute (str "/") (str "up"), .get (str "/list") 0, .post (str "/add") 1]

theorem handled_by_registration_getAndPost :
    (emptyCore.build noDate getAndPost).handleRequest { method := .post, path := str "/add" } [] withinLimits =
      .act (direct (withinLimits.handled 1) noDate) := by
  obtain ⟨h, hhandler, hrun⟩ : ∃ h, (Registration.post (str "/add") 1).handler = some h ∧
      (emptyCore.build noDate getAndPost).handleRequest { method := .post, path := str "/add" } [] withinLimits =
        .act (direct (withinLimits.handled h) noDate) := (handled_by_registration rfl []).1 _ (by decide)
  obtain rfl := some.inj hhandler
  exact hrun

def bothOnOnePath : List Registration := [.get (str "/item") 0, .post (str "/item") 1]

/-- **Dispatch does not look at the method.** With `Get` and `Post` registered for one path a POST runs the handler of
`Get`, and with `Get` alone a DELETE does. -/
theorem dispatch_ignores_method :
    handlerRun emptyCore bothOnOnePath { method := .post, path := str "/item" } withinLimits =
      some (.get (str "/item") 0) ∧
      handlerRun emptyCore [.get (str "/item") 0] { method := .delete, path := str "/item" } withinLimits =
        some (.get (str "/item") 0) := by
  decide

end Coropact.Gateway
