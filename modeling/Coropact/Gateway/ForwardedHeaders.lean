/-
Which headers of a request the gateway passes on (`ProxyPass::BuildRequestInto` and `NamedByConnection` in
`src/gateway/proxy_pass.cc`, `HttpRequest::AddHeaderLowered` in `src/http/http_request.cc`).

Both the bytes received and the head that is built are read as lines (`headFields`), so that what is said about headers
is said about the bytes. The map keeps the first line of a name only: a second Connection line names nothing
(`second_connection_ignored`), and the values of a second line are lost (`second_cookie_lost`).
-/
import Coropact.Gateway.BuildRequest
import Coropact.Http.Serialize
import Coropact.Http.Response

namespace Coropact.Gateway

open Coropact.Http Coropact.Text HttpParser List

/-! ## Lines -/

/-- the values of the lines of a name, behind the blank that is written after the colon -/
def headValues (text name : Bytes) : List Bytes := ((headFields text).filter (·.1 = name)).map (·.2.drop 1)

theorem headFields_bytes (t : RequestText) (left : Bytes) :
    headFields (t.bytes ++ left) = t.fields.map fun fv => (lowerCopy fv.1, fv.2) := by
  rw [bytes_append]
  exact headFields_lines (requestLine_pairFree t.uri_ok.2)
    (fun fv hfv => ⟨(t.fields_ok fv hfv).2.1, (t.fields_ok fv hfv).2.2.1⟩) _

section Build

variable {t : RequestText} {iter : List (Bytes × Bytes)} {peer : UpstreamPeerConfig}
  {forwarded : ForwardedHeaderContext}

theorem headFields_build (hiter : iter.Perm t.request.headers) (hpeer : peer.Clean) (hfwd : forwarded.Clean) :
    headFields (buildRequestInto t.request iter peer forwarded) =
      (sentHeaders t.request iter peer forwarded).map spaced := by
  obtain ⟨body, left, hsplit, hlen⟩ : ∃ body left, t.request.body = body ++ left ∧ body.length =
      if namedByConnection (str "content-length") t.request.connection then 0 else t.body.length := by
    split_ifs
    · exact ⟨[], t.request.body, rfl, rfl⟩
    · exact ⟨t.request.body, [], (append_nil _).symm, congrArg _ t.request_line.2.2.2⟩
  rw [forwardText_bytes hiter hpeer hfwd body left hsplit ((sentHeaders_announce hiter hpeer hfwd _).2 hlen),
    headFields_bytes]
  change ((sentHeaders t.request iter peer forwarded).map spaced).map _ = _
  rw [map_map]
  refine map_congr_left fun kv hkv => ?_
  have hlower : lowerCopy kv.1 = kv.1 := by
    rcases (sentHeaders_mem gluable_true (fun _ _ => trivial) trivial hpeer hfwd hkv).1 with ⟨hmem, -⟩ | hadded
    · exact (t.request_headers_ok (hiter.subset hmem)).2.2.1
    · have hall : ∀ k ∈ addedNames, lowerCopy k = k := by decide
      exact hall kv.1 hadded
  exact Prod.ext hlower rfl

/-! ## The gateway's own headers -/

theorem sentHeaders_own {name : Bytes} (hown : ∀ connection, ¬Passes connection name) (req : HttpRequest) :
    (sentHeaders req iter peer forwarded).filter (·.1 = name) =
      ((ownValues (walkHeaders req iter) req.host peer forwarded).filter (·.1 = name)).filter (·.2 ≠ []) := by
  have hkept : (walkHeaders req iter).kept.filter (·.1 = name) = [] := by
    rw [walkHeaders_kept]
    refine filter_eq_nil_iff.2 fun kv hkv hname => hown req.connection ?_
    rw [← of_decide_eq_true hname]
    exact of_decide_eq_true (mem_filter.1 hkv).2
  rw [sentHeaders, filter_append, hkept, nil_append, addedHeaders_eq, filter_comm]

/-- **The gateway's own headers** in the request that is built: one Host and one Connection line, the client's address
and the scheme where they are known, the host received, and an X-Forwarded-For that ends with the client's address. -/
theorem gateway_headers_owned {lim : Http.Limits} {p q : HttpParser} (hp : p.gotAll = false)
    (h : parseAvailable lim p = (.gotAll, q)) (hiter : iter.Perm q.request.headers) (hpeer : peer.Clean)
    (hfwd : forwarded.Clean) :
    let values := headValues (buildRequestInto q.request iter peer forwarded)
    values (str "host") = [peer.hostPort] ∧ values (str "connection") = [str "keep-alive"] ∧
      values (str "x-real-ip") = (if forwarded.clientIp = [] then [] else [forwarded.clientIp]) ∧
      values (str "x-forwarded-proto") = (if forwarded.scheme = [] then [] else [forwarded.scheme]) ∧
      values (str "x-forwarded-host") = (if q.request.host = [] then [] else [q.request.host]) ∧
      (q.request.host = [] ∨ (str "host", q.request.host) ∈ q.request.headers) ∧
      values (str "x-forwarded-port") = [] ∧
      (forwarded.clientIp ≠ [] → ∃ previous, values (str "x-forwarded-for") = [previous ++ forwarded.clientIp]) := by
  obtain ⟨t, -, hreq⟩ := parseAvailable_gotAll hp h
  rw [hreq] at hiter ⊢
  have hvalues : ∀ name, (∀ connection, ¬Passes connection name) →
      headValues (buildRequestInto t.request iter peer forwarded) name =
        (((ownValues (walkHeaders t.request iter) t.request.host peer forwarded).filter (·.1 = name)).filter
          (·.2 ≠ [])).map Prod.snd := by
    intro name hown
    rw [headValues, headFields_build hiter hpeer hfwd, ← sentHeaders_own hown, filter_map, map_map]
    rfl
  have hone : ∀ name value : Bytes, ([(name, value)].filter (·.2 ≠ [])).map Prod.snd =
      if value = [] then [] else [value] := by
    intro name value
    split_ifs with hempty <;> simp [hempty]
  intro values
  refine ⟨(hvalues _ fun c hc => ?_).trans ((hone _ peer.hostPort).trans (if_neg ?_)), hvalues _ fun c hc => ?_,
    (hvalues _ fun c hc => ?_).trans (hone _ _), (hvalues _ fun c hc => ?_).trans (hone _ _),
    (hvalues _ fun c hc => ?_).trans (hone _ _), t.request_cached.host, hvalues _ fun c hc => ?_, fun hip => ?_⟩
  · exact hc.1 (.inl rfl)
  · simp [UpstreamPeerConfig.hostPort, show str ":" ≠ [] by decide]
  · exact hc.1 (.inr (.inl (by decide)))
  · exact hc.2.2.2.2 (.inl rfl)
  · exact hc.2.2.2.2 (.inr (.inl rfl))
  · exact hc.2.2.2.2 (.inr (.inr (.inl rfl)))
  · exact hc.2.2.2.2 (.inr (.inr (.inr rfl)))
  · obtain ⟨before, hbefore⟩ : ∃ before, joined (walkHeaders t.request iter).previousXff forwarded.clientIp =
        before ++ forwarded.clientIp := by
      unfold joined
      split_ifs
      · exact ⟨[], rfl⟩
      · exact ⟨_, rfl⟩
    refine ⟨before, (hvalues _ fun c hc => hc.2.1 rfl).trans ((hone _ _).trans ?_)⟩
    rw [hbefore, if_neg (by simp [hip])]

end Build

theorem gateway_headers_owned_post :
    headValues (buildRequestInto (parsed postText).request (parsed postText).request.headers localPeer localContext)
      (str "host") = [localPeer.hostPort] := by
  have hstatus : (parseAvailable kLimits { pending := postText }).1 = .gotAll := by decide +kernel
  have hcontext : localContext.Clean := ⟨by decide, by decide, by decide, by decide⟩
  have hpeer : localPeer.Clean := by decide
  exact (gateway_headers_owned rfl (parseAvailable_parsed hstatus) (List.Perm.refl _) hpeer hcontext).1

/-! ## Connection -/

def NamedByLine (fields : List (Bytes × Bytes)) (name : Bytes) : Prop :=
  ∃ fv ∈ fields, fv.1 = str "connection" ∧ name ∈ elements (trim fv.2)

theorem connectionTokens_spec (s : Bytes) :
    pieces comma s = connectionTokens s ∨ pieces comma s = connectionTokens s ++ [[]] := by
  induction s with
  | nil => exact .inr rfl
  | cons b s ih =>
    rw [pieces, connectionTokens]
    split_ifs
    · exact ih.imp (congrArg _) (congrArg _)
    · rcases ih with h | h
      · rw [h]
        cases connectionTokens s <;> exact .inl rfl
      · rw [h]
        cases connectionTokens s with
        | nil => exact .inl rfl
        | cons token tokens => exact .inr rfl

theorem namedByConnection_iff {name connection : Bytes} (hlower : lowerCopy name = name) (hne : name ≠ []) :
    namedByConnection name connection = true ↔ name ∈ elements connection := by
  have hempty : lowerCopy (trimBlanks []) ≠ name := hne.symm
  have hiff : namedByConnection name connection = true ↔
      name ∈ (connectionTokens connection).map fun e => lowerCopy (trimBlanks e) := by
    rw [namedByConnection, any_eq_true, mem_map]
    exact exists_congr fun e => and_congr_right fun _ => by rw [asciiCaseEqual_iff, hlower, eq_comm]
  rw [hiff, elements]
  rcases connectionTokens_spec connection with h | h
  · rw [h]
  · rw [h, map_append, mem_append]
    exact ⟨.inl, fun hmem => hmem.resolve_right fun hlast => hempty (mem_singleton.1 hlast).symm⟩

theorem addHeaderLowered_connection {req : HttpRequest}
    (h : ∀ v, (str "connection", v) ∈ req.headers → req.connection = v)
    (field value : Bytes) (v : Bytes) (hv : (str "connection", v) ∈ (req.addHeaderLowered field value).headers) :
    (req.addHeaderLowered field value).connection = v := by
  rw [HttpRequest.addHeaderLowered_headers, HttpRequest.insertHeader] at hv
  unfold HttpRequest.addHeaderLowered
  split_ifs at hv ⊢ with hany
  · exact h v hv
  · unfold HttpRequest.cacheHeader
    rcases mem_append.1 hv with hold | hnew
    · have hne : field ≠ str "connection" := by
        rintro rfl
        exact hany (any_eq_true.2 ⟨_, hold, by rw [asciiCaseEqual_iff]⟩)
      rw [if_neg hne]
      split_ifs <;> exact h v hold
    · obtain ⟨hfield, hvalue⟩ := Prod.mk.inj (mem_singleton.1 hnew)
      rw [← hfield, if_neg (by decide), if_pos rfl]
      exact hvalue.symm

theorem request_connection (t : RequestText) {v : Bytes} (hv : (str "connection", v) ∈ t.request.headers) :
    t.request.connection = v := by
  have hall : ∀ fields : List (Bytes × Bytes), ∀ v, (str "connection", v) ∈ (addFields t.start fields).headers →
      (addFields t.start fields).connection = v := by
    intro fields
    induction fields using List.reverseRecOn with
    | nil => exact fun v hv => absurd hv not_mem_nil
    | append_singleton fields fv ih =>
      rw [addFields_snoc]
      exact addHeaderLowered_connection ih _ _
  exact hall t.fields v hv

/-! ## What becomes of a name -/

/-- the trimmed value of the first line of a name, the one the map keeps -/
def firstValue (fields : List (Bytes × Bytes)) (name : Bytes) : Option Bytes := (fields.lookup name).map trim

/-- named by the first Connection line -/
def NamedByFirst (fields : List (Bytes × Bytes)) (name : Bytes) : Prop :=
  ∃ v ∈ firstValue fields (str "connection"), name ∈ elements v

def ownedNames : List Bytes :=
  [str "host", str "x-real-ip", str "x-forwarded-proto", str "x-forwarded-host", str "x-forwarded-port"]

/-- the headers that the gateway writes again itself, if there is a value -/
def rewrittenNames : List Bytes := [str "x-forwarded-for", str "via", str "x-request-id"]

/-- a line of the request that is passed on unless Connection names it -/
def Carried (fields : List (Bytes × Bytes)) (name : Bytes) : Prop :=
  name ∉ hopByHopHeaders ∧ name ∉ ownedNames ∧ ∃ v ∈ firstValue fields name, name ∈ rewrittenNames → v ≠ []

/-- the gateway has something of its own to write under the name -/
def OwnLine (host : Bytes) (forwarded : ForwardedHeaderContext) (name : Bytes) : Prop :=
  name = str "host" ∨ (name = str "x-forwarded-for" ∨ name = str "x-real-ip") ∧ forwarded.clientIp ≠ [] ∨
    name = str "x-forwarded-proto" ∧ forwarded.scheme ≠ [] ∨ name = str "x-forwarded-host" ∧ host ≠ [] ∨
    name = str "via" ∧ forwarded.gatewayName ≠ [] ∨ name = str "x-request-id" ∧ forwarded.requestId ≠ []

theorem mem_ownedNames {name : Bytes} : name ∈ ownedNames ↔ name = str "host" ∨ name = str "x-real-ip" ∨
    name = str "x-forwarded-proto" ∨ name = str "x-forwarded-host" ∨ name = str "x-forwarded-port" := by
  simp [ownedNames]

theorem mem_rewrittenNames {name : Bytes} : name ∈ rewrittenNames ↔
    name = str "x-forwarded-for" ∨ name = str "via" ∨ name = str "x-request-id" := by
  simp [rewrittenNames]

theorem passes_iff {connection name : Bytes} : Passes connection name ↔
    name ∉ hopByHopHeaders ∧ name ∉ ownedNames ∧ name ∉ rewrittenNames ∧ ¬namedByConnection name connection := by
  rw [mem_ownedNames, mem_rewrittenNames, Passes, isHopByHop, contains_iff_mem]
  constructor
  · rintro ⟨hout, hxff, hvia, hid, hown⟩
    exact ⟨fun h => hout (.inr (.inl h)), fun h => h.elim (hout ∘ .inl) hown, fun h => h.elim hxff fun h =>
      h.elim hvia hid,
      fun h => hout (.inr (.inr h))⟩
  · rintro ⟨hhop, hown, hagain, hnamed⟩
    exact ⟨fun h => h.elim (hown ∘ .inl) fun h => h.elim hhop hnamed, hagain ∘ .inl, hagain ∘ .inr ∘ .inl,
      hagain ∘ .inr ∘ .inr, hown ∘ .inr⟩

theorem lookup_eq_some_of_nodup {l : List (Bytes × Bytes)} (hn : (l.map Prod.fst).Nodup) {name value : Bytes} :
    l.lookup name = some value ↔ (name, value) ∈ l := by
  rw [lookup_eq_some_iff]
  constructor
  · rintro ⟨l₁, l₂, rfl, -⟩
    exact mem_append_right _ mem_cons_self
  · intro hmem
    obtain ⟨l₁, l₂, rfl⟩ := append_of_mem hmem
    rw [map_append, nodup_append] at hn
    refine ⟨l₁, l₂, rfl, fun kv hkv => bne_iff_ne.2 fun heq => ?_⟩
    exact hn.2.2 _ (mem_map_of_mem hkv) _ mem_cons_self heq.symm

/-- the value that the loop keeps back under one of the names written again -/
def captured (connection : Bytes) (iter : List (Bytes × Bytes)) (name : Bytes) : Bytes :=
  if namedByConnection name connection then [] else (iter.lookup name).getD []

theorem captured_snoc {connection : Bytes} {iter : List (Bytes × Bytes)} {new : Bytes × Bytes}
    (hnew : new.1 ∉ iter.map Prod.fst) (name : Bytes) : captured connection (iter ++ [new]) name =
      if new.1 = name ∧ ¬namedByConnection name connection then new.2 else captured connection iter name := by
  unfold captured
  by_cases hnamed : namedByConnection name connection = true
  · simp [hnamed]
  rw [if_neg hnamed, if_neg hnamed, lookup_append]
  by_cases hname : new.1 = name
  · have hnone : iter.lookup name = none := lookup_eq_none_iff.2 fun kv hkv =>
      bne_iff_ne.2 fun heq => hnew (hname ▸ heq ▸ mem_map_of_mem hkv)
    have hone : [new].lookup name = some new.2 := lookup_eq_some_iff.2 ⟨[], [], by rw [← hname]; rfl, by simp⟩
    rw [if_pos ⟨hname, hnamed⟩, hnone, hone]
    rfl
  · have hnone : [new].lookup name = none := lookup_eq_none_iff.2 fun kv hkv =>
      bne_iff_ne.2 (mem_singleton.1 hkv ▸ Ne.symm hname)
    rw [if_neg fun h => hname h.1, hnone, Option.or_none]

theorem walkHeader_captures (connection : Bytes) (w : Walk) (kv : Bytes × Bytes) :
    let value := fun name old => if kv.1 = name ∧ ¬namedByConnection name connection then kv.2 else old
    (walkHeader connection w kv).previousXff = value (str "x-forwarded-for") w.previousXff ∧
      (walkHeader connection w kv).previousVia = value (str "via") w.previousVia ∧
      (walkHeader connection w kv).existingRequestId = value (str "x-request-id") w.existingRequestId := by
  intro value
  by_cases hout : kv.1 = str "host" ∨ isHopByHop kv.1 ∨ namedByConnection kv.1 connection
  · have hno : ∀ name ∈ rewrittenNames, ¬(kv.1 = name ∧ ¬namedByConnection name connection) := by
      rintro name hname ⟨rfl, hnamed⟩
      have hall : ∀ name ∈ rewrittenNames, name ≠ str "host" ∧ ¬isHopByHop name := by decide
      exact hout.elim (hall _ hname).1 fun h => h.elim (hall _ hname).2 hnamed
    have hsame : walkHeader connection w kv = w := if_pos hout
    rw [hsame]
    exact ⟨(if_neg (hno _ (by decide))).symm, (if_neg (hno _ (by decide))).symm, (if_neg (hno _ (by decide))).symm⟩
  · have hvalue : ∀ name old, value name old = if kv.1 = name then kv.2 else old := by
      intro name old
      refine if_congr ⟨And.left, ?_⟩ rfl rfl
      rintro rfl
      exact ⟨rfl, fun h => hout (.inr (.inr h))⟩
    rw [hvalue, hvalue, hvalue, walkHeader, if_neg hout]
    by_cases hxff : kv.1 = str "x-forwarded-for"
    · simp [hxff, show str "x-forwarded-for" ≠ str "via" by decide, show str "x-forwarded-for" ≠
        str "x-request-id" by decide]
    by_cases hvia : kv.1 = str "via"
    · simp [hvia, show str "via" ≠ str "x-forwarded-for" by decide, show str "via" ≠ str "x-request-id" by decide]
    by_cases hid : kv.1 = str "x-request-id"
    · simp [hid, show str "x-request-id" ≠ str "x-forwarded-for" by decide, show str "x-request-id" ≠
        str "via" by decide]
    rw [if_neg hxff, if_neg hvia, if_neg hid, if_neg hxff, if_neg hvia, if_neg hid]
    split_ifs <;> exact ⟨rfl, rfl, rfl⟩

theorem walkHeaders_captures (req : HttpRequest) {iter : List (Bytes × Bytes)} (hnodup : (iter.map Prod.fst).Nodup) :
    (walkHeaders req iter).previousXff = captured req.connection iter (str "x-forwarded-for") ∧
      (walkHeaders req iter).previousVia = captured req.connection iter (str "via") ∧
      (walkHeaders req iter).existingRequestId = captured req.connection iter (str "x-request-id") := by
  induction iter using List.reverseRecOn with
  | nil => exact ⟨(ite_self _).symm, (ite_self _).symm, (ite_self _).symm⟩
  | append_singleton iter new ih =>
    rw [map_append, map_singleton, nodup_append] at hnodup
    obtain ⟨hnodup, -, hdisjoint⟩ := hnodup
    have hnew : new.1 ∉ iter.map Prod.fst := fun h => hdisjoint _ h _ mem_cons_self rfl
    obtain ⟨h1, h2, h3⟩ := ih hnodup
    rw [walkHeaders_snoc, captured_snoc hnew, captured_snoc hnew, captured_snoc hnew, ← h1, ← h2, ← h3]
    exact walkHeader_captures _ _ _

section Lines

variable {lim : Http.Limits} {p q : HttpParser} {t : RequestText} {iter : List (Bytes × Bytes)}
  {peer : UpstreamPeerConfig}
  {forwarded : ForwardedHeaderContext} {name value : Bytes}

/-- the header lines of a request text -/
def lines (t : RequestText) : List (Bytes × Bytes) := t.fields.map fun fv => (lowerCopy fv.1, fv.2)

theorem lookup_iter (hiter : iter.Perm t.request.headers) (name : Bytes) :
    iter.lookup name = firstValue (lines t) name := by
  have hnodup : (iter.map Prod.fst).Nodup := (hiter.map Prod.fst).nodup_iff.2 t.request_holds.nodup
  ext value
  rw [lookup_eq_some_of_nodup hnodup, hiter.mem_iff, t.request_holds.mem_iff, firstValue, Option.map_eq_some_iff]
  simp only [entry_eq, Prod.mk.injEq, lookup_eq_some_iff]
  constructor
  · rintro ⟨fv, ⟨l, r, hfields, hfirst⟩, rfl, rfl⟩
    refine ⟨fv.2, ⟨l.map fun gv => (lowerCopy gv.1, gv.2), r.map fun gv => (lowerCopy gv.1, gv.2), ?_,
      fun kv hkv => ?_⟩, rfl⟩
    · rw [lines, hfields, map_append, map_cons]
    · obtain ⟨gv, hgv, rfl⟩ := mem_map.1 hkv
      exact bne_iff_ne.2 fun heq => hfirst gv hgv heq.symm
  · rintro ⟨v, ⟨l', r', hlines, hfirst⟩, rfl⟩
    obtain ⟨l, r, hfields, rfl, hr⟩ := map_eq_append_iff.1 hlines
    obtain ⟨fv, r, rfl, hfv, rfl⟩ := map_eq_cons_iff.1 hr
    obtain ⟨rfl, rfl⟩ := Prod.mk.inj hfv
    refine ⟨fv, ⟨l, r, hfields, fun gv hgv heq => ?_⟩, rfl, rfl⟩
    exact bne_iff_ne.1 (hfirst _ (mem_map_of_mem hgv)) heq.symm

theorem named_iff (hlower : lowerCopy name = name) (hne : name ≠ []) :
    namedByConnection name t.request.connection = true ↔ NamedByFirst (lines t) name := by
  rw [namedByConnection_iff hlower hne, NamedByFirst, ← lookup_iter (Perm.refl _)]
  constructor
  · intro hmem
    rcases t.request_cached.connection with hempty | hheader
    · rw [hempty] at hmem
      exact absurd (mem_singleton.1 hmem) hne
    · exact ⟨_, (lookup_eq_some_of_nodup t.request_holds.nodup).2 hheader, hmem⟩
  · rintro ⟨v, hv, hmem⟩
    rwa [request_connection t ((lookup_eq_some_of_nodup t.request_holds.nodup).1 hv)]

theorem rewrittenNames_ok : ∀ name ∈ rewrittenNames,
    name ∉ hopByHopHeaders ∧ name ∉ ownedNames ∧ lowerCopy name = name ∧ name ≠ [] := by decide

theorem captured_ne_nil (hiter : iter.Perm t.request.headers) (hname : name ∈ rewrittenNames) :
    captured t.request.connection iter name ≠ [] ↔ Carried (lines t) name ∧ ¬NamedByFirst (lines t) name := by
  obtain ⟨hhop, howned, hlower, hne⟩ := rewrittenNames_ok name hname
  rw [captured, lookup_iter hiter, ← named_iff hlower hne, Carried]
  by_cases hnamed : namedByConnection name t.request.connection = true
  · simp [hnamed]
  · cases firstValue (lines t) name <;> simp [hnamed, hhop, howned, hname]

theorem kept_iff (hiter : iter.Perm t.request.headers) : (name, value) ∈ (walkHeaders t.request iter).kept ↔
    name ∉ hopByHopHeaders ∧ name ∉ ownedNames ∧ name ∉ rewrittenNames ∧ firstValue (lines t) name = some value ∧
      ¬NamedByFirst (lines t) name := by
  have hnodup : (iter.map Prod.fst).Nodup := (hiter.map Prod.fst).nodup_iff.2 t.request_holds.nodup
  rw [walkHeaders_kept, mem_filter, decide_eq_true_eq, passes_iff, ← lookup_eq_some_of_nodup hnodup, lookup_iter hiter]
  have hiff : firstValue (lines t) name = some value →
      (namedByConnection name t.request.connection = true ↔ NamedByFirst (lines t) name) := by
    intro hfirst
    rw [← lookup_iter hiter, lookup_eq_some_of_nodup hnodup] at hfirst
    obtain ⟨hne, -, hlower, -⟩ := t.request_headers_ok (hiter.subset hfirst)
    exact named_iff hlower hne
  constructor
  · rintro ⟨hfirst, hhop, howned, hagain, hnamed⟩
    exact ⟨hhop, howned, hagain, hfirst, fun h => hnamed ((hiff hfirst).2 h)⟩
  · rintro ⟨hhop, howned, hagain, hfirst, hnamed⟩
    exact ⟨hfirst, hhop, howned, hagain, fun h => hnamed ((hiff hfirst).1 h)⟩

/-- the names of the lines sent -/
theorem sent_iff (hiter : iter.Perm t.request.headers) :
    (∃ v, (name, v) ∈ sentHeaders t.request iter peer forwarded) ↔ name = str "connection" ∨
      OwnLine t.request.host forwarded name ∨ Carried (lines t) name ∧ ¬NamedByFirst (lines t) name := by
  have hnodup : (iter.map Prod.fst).Nodup := (hiter.map Prod.fst).nodup_iff.2 t.request_holds.nodup
  obtain ⟨hxff, hvia, hid⟩ := walkHeaders_captures t.request hnodup
  have hkept : (∃ v, (name, v) ∈ (walkHeaders t.request iter).kept) ↔ name ∉ rewrittenNames ∧
      Carried (lines t) name ∧ ¬NamedByFirst (lines t) name := by
    simp only [kept_iff hiter, exists_and_left, exists_and_right, Carried]
    constructor
    · rintro ⟨hhop, howned, hagain, ⟨v, hv⟩, hnamed⟩
      exact ⟨hagain, ⟨hhop, howned, v, hv, fun h => absurd h hagain⟩, hnamed⟩
    · rintro ⟨hagain, ⟨hhop, howned, v, hv, -⟩, hnamed⟩
      exact ⟨hhop, howned, hagain, ⟨v, hv⟩, hnamed⟩
  have hcaptured : ∀ own ∈ rewrittenNames, ∀ P : Prop, (name = own ∧ (captured t.request.connection iter own ≠ [] ∨ P) ↔
      name = own ∧ (Carried (lines t) name ∧ ¬NamedByFirst (lines t) name ∨ P)) := by
    intro own hown P
    refine and_congr_right ?_
    rintro rfl
    rw [captured_ne_nil hiter hown]
  have hentry : viaEntry forwarded.gatewayName ≠ [] ↔ forwarded.gatewayName ≠ [] := by
    unfold viaEntry
    split_ifs with h <;> simp [h, show str "1.1 " ≠ [] by decide]
  have hrequestId : ∀ a b : Bytes, (if a = [] then b else a) ≠ [] ↔ a ≠ [] ∨ b ≠ [] := by
    intro a b
    split_ifs with h <;> simp [h]
  have hhost : peer.hostPort ≠ [] := by simp [UpstreamPeerConfig.hostPort, show str ":" ≠ [] by decide]
  have halive : str "keep-alive" ≠ [] := by decide
  rw [mem_rewrittenNames] at hkept
  simp only [sentHeaders, mem_append, exists_or, hkept, addedHeaders_eq, mem_filter, decide_eq_true_eq, ownValues,
    mem_cons, not_mem_nil, or_false, Prod.mk.injEq, or_and_right, and_assoc, exists_and_left, exists_eq_left,
    joined_ne_nil, hentry, hrequestId, hxff, hvia, hid]
  rw [hcaptured _ (by decide), hcaptured _ (by decide), hcaptured _ (by decide), OwnLine]
  generalize (Carried (lines t) name ∧ ¬NamedByFirst (lines t) name) = carried
  clear hkept hcaptured hentry hrequestId
  grind

theorem not_hop_of_sent {host : Bytes}
    (h : OwnLine host forwarded name ∨ Carried (lines t) name ∧ ¬NamedByFirst (lines t) name) :
    name ∉ hopByHopHeaders := by
  rcases h with h | h
  · rcases h with rfl | ⟨rfl | rfl, -⟩ | ⟨rfl, -⟩ | ⟨rfl, -⟩ | ⟨rfl, -⟩ | ⟨rfl, -⟩ <;> decide
  · exact h.1.1

/-- **No hop-by-hop header is passed on** exactly if every name on a Connection line is one the gateway has nothing of
its own to write under, and the first Connection line has it where a line of the request would be passed on. -/
theorem hop_headers_dropped (hp : p.gotAll = false) (h : parseAvailable lim p = (.gotAll, q))
    (hiter : iter.Perm q.request.headers) (hpeer : peer.Clean) (hfwd : forwarded.Clean) :
    (∀ kv ∈ headFields (buildRequestInto q.request iter peer forwarded), kv ≠ (str "connection", str " keep-alive") →
      kv.1 ∉ hopByHopHeaders ∧ ¬NamedByLine (headFields p.pending) kv.1) ↔
    ∀ name, NamedByLine (headFields p.pending) name → ¬OwnLine q.request.host forwarded name ∧
      (Carried (headFields p.pending) name → NamedByFirst (headFields p.pending) name) := by
  obtain ⟨t, hpending, hreq⟩ := parseAvailable_gotAll hp h
  rw [hreq] at hiter ⊢
  rw [hpending, headFields_bytes, headFields_build hiter hpeer hfwd, ← lines]
  constructor
  · intro hall name hnamed
    suffices hnot : ¬(OwnLine t.request.host forwarded name ∨ Carried (lines t) name ∧
      ¬NamedByFirst (lines t) name) from
      ⟨fun h => hnot (.inl h), fun h => by_contra fun hfirst => hnot (.inr ⟨h, hfirst⟩)⟩
    intro hsent
    obtain ⟨v, hv⟩ := (sent_iff hiter).2 (.inr hsent)
    refine (hall (spaced (name, v)) (mem_map_of_mem hv) ?_).2 hnamed
    intro hline
    have hname : name = str "connection" := congrArg Prod.fst hline
    exact not_hop_of_sent hsent (hname ▸ mem_cons_self)
  · intro hall _ hmap hline
    obtain ⟨kv, hkv, rfl⟩ := mem_map.1 hmap
    rcases (sent_iff hiter).1 ⟨kv.2, hkv⟩ with hname | hsent
    · -- the only Connection line sent is the gateway's own
      have hfilter := @sentHeaders_own iter peer forwarded (str "connection")
        (fun c hc => hc.1 (.inr (.inl (by decide)))) t.request
      have hmem : kv ∈ (sentHeaders t.request iter peer forwarded).filter (·.1 = str "connection") :=
        mem_filter.2 ⟨hkv, decide_eq_true hname⟩
      rw [hfilter] at hmem
      obtain rfl := mem_singleton.1 hmem
      exact absurd rfl hline
    · refine ⟨not_hop_of_sent hsent, fun hnamed => ?_⟩
      obtain ⟨hown, hfirst⟩ := hall _ hnamed
      exact hsent.elim hown fun h => h.2 (hfirst h.1)

def cookieText : Bytes := str "GET /a HTTP/1.1\r\nHost: x\r\nConnection: te\r\nTe: gzip\r\nCookie: a=1\r\n\r\n"

theorem hop_headers_dropped_cookie : (parseAvailable kLimits { pending := cookieText }).1 = .gotAll ∧
    ∀ kv ∈ headFields
      (buildRequestInto (parsed cookieText).request (parsed cookieText).request.headers localPeer localContext),
      kv ≠ (str "connection", str " keep-alive") → kv.1 ∉ hopByHopHeaders ∧
        ¬NamedByLine (headFields cookieText) kv.1 := by
  have hstatus : (parseAvailable kLimits { pending := cookieText }).1 = .gotAll := by decide +kernel
  have hcontext : localContext.Clean := ⟨by decide, by decide, by decide, by decide⟩
  have hpeer : localPeer.Clean := by decide
  have hnames : ∀ fv ∈ headFields cookieText, fv.1 = str "connection" → ∀ name ∈ elements (trim fv.2),
      ¬OwnLine (parsed cookieText).request.host localContext name ∧ name ∈ hopByHopHeaders := by
    unfold OwnLine
    decide +kernel
  refine ⟨hstatus,
    (hop_headers_dropped (p := { pending := cookieText }) rfl (parseAvailable_parsed hstatus) (List.Perm.refl _)
    hpeer hcontext).2 ?_⟩
  rintro name ⟨fv, hfv, hconnection, hname⟩
  obtain ⟨hown, hhop⟩ := hnames fv hfv hconnection name hname
  exact ⟨hown, fun h => absurd hhop h.1⟩

/-- the second of two Connection lines names a header that is passed on -/
theorem second_connection_ignored :
    let text := str "GET /a HTTP/1.1\r\nConnection: te\r\nConnection: x-token\r\nX-Token: 1\r\n\r\n"
    (parseAvailable kLimits { pending := text }).1 = .gotAll ∧ NamedByLine (headFields text) (str "x-token") ∧
      (str "x-token", str " 1") ∈
        headFields (buildRequestInto (parsed text).request (parsed text).request.headers localPeer localContext) := by
  unfold NamedByLine
  decide +kernel


/-! ## End-to-end headers -/

/-- what the gateway makes of a value it passes on -/
def extended (forwarded : ForwardedHeaderContext) (name value : Bytes) : Bytes :=
  if name = str "x-forwarded-for" ∧ forwarded.clientIp ≠ [] then value ++ str ", " ++ forwarded.clientIp
  else if name = str "via" ∧ forwarded.gatewayName ≠ [] then value ++ str ", 1.1 " ++ forwarded.gatewayName
  else value

/-- The trimmed value is that of the first line of the name, and not empty where the gateway writes the header again.
(Behind an empty X-Request-Id line it may also be the gateway's own request id.) -/
def Kept (fields : List (Bytes × Bytes)) (forwarded : ForwardedHeaderContext) (fv : Bytes × Bytes) : Prop :=
  (fv.1 ∈ rewrittenNames → trim fv.2 ≠ []) ∧ ∃ v ∈ firstValue fields fv.1,
    trim fv.2 = v ∨ fv.1 = str "x-request-id" ∧ v = [] ∧ trim fv.2 = forwarded.requestId

theorem joined_eq_iff {v own : Bytes} : (if own = [] then value else value ++ str ", " ++ own) = joined v own ∧
    joined v own ≠ [] ↔ value ≠ [] ∧ value = v := by
  unfold joined
  by_cases hv : v = []
  · have hcomma : str ", " ≠ [] := by decide
    by_cases hown : own = [] <;> simp [hv, hown, hcomma, -append_assoc]
  · have hiff : value ≠ [] ∧ value = v ↔ value = v := ⟨And.right, fun h => ⟨h ▸ hv, h⟩⟩
    by_cases hown : own = [] <;> simp [hiff, hv, hown]

theorem extended_eq (forwarded : ForwardedHeaderContext) (value : Bytes) :
    extended forwarded (str "x-forwarded-for") value =
      (if forwarded.clientIp = [] then value else value ++ str ", " ++ forwarded.clientIp) ∧
    extended forwarded (str "via") value = (if viaEntry forwarded.gatewayName = [] then value
      else value ++ str ", " ++ viaEntry forwarded.gatewayName) ∧
    extended forwarded (str "x-request-id") value = value := by
  have hvia : str "x-forwarded-for" ≠ str "via" := by decide
  have hid : str "x-request-id" ≠ str "x-forwarded-for" ∧ str "x-request-id" ≠ str "via" := by decide
  have hentry : str "1.1 " ≠ [] ∧ str ", 1.1 " = str ", " ++ str "1.1 " := by decide
  unfold extended viaEntry
  refine ⟨?_, ?_, by simp [hid]⟩
  · by_cases h : forwarded.clientIp = [] <;> simp [h, hvia]
  · by_cases h : forwarded.gatewayName = [] <;> simp [h, hvia.symm, hentry]

theorem NamedByFirst.line {fields : List (Bytes × Bytes)} (h : NamedByFirst fields name) : NamedByLine fields name := by
  obtain ⟨_, hv, hname⟩ := h
  obtain ⟨v, hlookup, rfl⟩ := Option.map_eq_some_iff.1 hv
  obtain ⟨l, r, rfl, -⟩ := lookup_eq_some_iff.1 hlookup
  exact ⟨_, mem_append_right _ mem_cons_self, rfl, hname⟩

theorem extended_plain (hagain : name ∉ rewrittenNames) : extended forwarded name value = value := by
  rw [mem_rewrittenNames, not_or, not_or] at hagain
  rw [extended, if_neg fun h => hagain.1 h.1, if_neg fun h => hagain.2.1 h.1]

/-- a line that the gateway does not write again -/
theorem sent_plain (hiter : iter.Perm t.request.headers) (hpeer : peer.Clean) (hfwd : forwarded.Clean)
    (hhop : name ∉ hopByHopHeaders) (howned : name ∉ ownedNames) (hagain : name ∉ rewrittenNames)
    (hnamed : ¬NamedByFirst (lines t) name) :
    (name, value) ∈ sentHeaders t.request iter peer forwarded ↔ firstValue (lines t) name = some value := by
  have hadded : (name, value) ∉ addedHeaders (walkHeaders t.request iter) t.request.host peer forwarded := by
    have hall : ∀ n ∈ addedNames, n ∈ hopByHopHeaders ∨ n ∈ ownedNames ∨ n ∈ rewrittenNames := by decide
    intro hmem
    exact (hall _ (addedHeaders_mem gluable_true trivial trivial trivial trivial hpeer hfwd hmem).1).elim hhop
      fun h => h.elim howned hagain
  rw [sentHeaders, mem_append, or_iff_left hadded, kept_iff hiter]
  exact ⟨fun h => h.2.2.2.1, fun h => ⟨hhop, howned, hagain, h, hnamed⟩⟩

/-- a line that the gateway writes again -/
theorem sent_again (hiter : iter.Perm t.request.headers) (hagain : name ∈ rewrittenNames)
    (hnamed : ¬NamedByFirst (lines t) name) {v : Bytes} (hv : firstValue (lines t) name = some v) :
    (name, extended forwarded name value) ∈ sentHeaders t.request iter peer forwarded ↔
      value ≠ [] ∧ (value = v ∨ name = str "x-request-id" ∧ v = [] ∧ value = forwarded.requestId) := by
  obtain ⟨-, -, hlower, hne⟩ := rewrittenNames_ok name hagain
  have hcaptured : captured t.request.connection iter name = v := by
    rw [captured, if_neg fun h => hnamed ((named_iff hlower hne).1 h), lookup_iter hiter, hv]
    rfl
  obtain ⟨hxff, hvia, hid⟩ := walkHeaders_captures t.request ((hiter.map Prod.fst).nodup_iff.2 t.request_holds.nodup)
  have hown : ∀ c, ¬Passes c name := fun c hc => (passes_iff.1 hc).2.2.1 hagain
  have hsent : ∀ x value', (ownValues (walkHeaders t.request iter) t.request.host peer forwarded).filter (·.1 = name) =
      [(name, x)] → ((name, value') ∈ sentHeaders t.request iter peer forwarded ↔ value' = x ∧ x ≠ []) := by
    intro x value' hx
    have hmem : (name, value') ∈ (sentHeaders t.request iter peer forwarded).filter (·.1 = name) ↔
        (name, value') ∈ sentHeaders t.request iter peer forwarded := by simp
    rw [← hmem, sentHeaders_own hown, hx]
    by_cases h : x = [] <;> simp [h]
  obtain ⟨hext, hext', hext''⟩ := extended_eq forwarded value
  rcases mem_rewrittenNames.1 hagain with rfl | rfl | rfl
  · have hid : str "x-forwarded-for" ≠ str "x-request-id" := by decide
    rw [hsent _ _ rfl, hext, hxff, hcaptured, or_iff_left fun h => hid h.1]
    exact joined_eq_iff
  · have hid : str "via" ≠ str "x-request-id" := by decide
    rw [hsent _ _ rfl, hext', hvia, hcaptured, or_iff_left fun h => hid h.1]
    exact joined_eq_iff
  · rw [hsent _ _ rfl, hext'', hid, hcaptured, and_iff_right rfl]
    by_cases h : v = []
    · rw [if_pos h]
      grind
    · rw [if_neg h]
      grind

/-- **No end-to-end header line is lost** exactly if the first line of its name has the same value, and that value is
not empty where the gateway writes the header again. -/
theorem end_to_end_kept (hp : p.gotAll = false) (h : parseAvailable lim p = (.gotAll, q))
    (hiter : iter.Perm q.request.headers) (hpeer : peer.Clean) (hfwd : forwarded.Clean) {fv : Bytes × Bytes}
    (hfv : fv ∈ headFields p.pending) (hhop : fv.1 ∉ hopByHopHeaders)
    (hnamed : ¬NamedByLine (headFields p.pending) fv.1) (howned : fv.1 ∉ ownedNames) :
    spaced (fv.1, extended forwarded fv.1 (trim fv.2)) ∈ headFields (buildRequestInto q.request iter peer forwarded) ↔
      Kept (headFields p.pending) forwarded fv := by
  obtain ⟨t, hpending, hreq⟩ := parseAvailable_gotAll hp h
  rw [hreq] at hiter ⊢
  rw [hpending, headFields_bytes, ← lines] at hfv hnamed ⊢
  have hspaced : Function.Injective spaced := by
    rintro ⟨n, v⟩ ⟨n', v'⟩ heq
    obtain ⟨rfl, hv⟩ := Prod.mk.inj heq
    exact congrArg _ (cons.inj hv).2
  rw [headFields_build hiter hpeer hfwd, mem_map_of_injective hspaced, Kept]
  have hnot : ¬NamedByFirst (lines t) fv.1 := fun h => hnamed h.line
  obtain ⟨v, hv⟩ : ∃ v, firstValue (lines t) fv.1 = some v := by
    rw [← Option.isSome_iff_exists, firstValue, Option.isSome_map, Option.isSome_iff_ne_none]
    exact fun h => bne_iff_ne.1 (lookup_eq_none_iff.1 h fv hfv) rfl
  simp only [hv, Option.mem_some_iff, exists_eq_left']
  by_cases hagain : fv.1 ∈ rewrittenNames
  · rw [sent_again hiter hagain hnot hv, imp_iff_right hagain]
  · have hid : fv.1 ≠ str "x-request-id" := fun h => hagain (h ▸ by decide)
    rw [extended_plain hagain, sent_plain hiter hpeer hfwd hhop howned hagain hnot, hv, or_iff_left fun h => hid h.1]
    exact ⟨fun h => ⟨fun h => absurd h hagain, (Option.some.inj h).symm⟩, fun h => congrArg some h.2.symm⟩

end Lines

theorem end_to_end_kept_cookie : (str "cookie", str " a=1") ∈ headFields
    (buildRequestInto (parsed cookieText).request (parsed cookieText).request.headers localPeer localContext) := by
  have hstatus : (parseAvailable kLimits { pending := cookieText }).1 = .gotAll := by decide +kernel
  have hcontext : localContext.Clean := ⟨by decide, by decide, by decide, by decide⟩
  have hpeer : localPeer.Clean := by decide
  have hcookie : (str "cookie", str " a=1") ∈ headFields cookieText := by decide +kernel
  have hkept := end_to_end_kept (p := { pending := cookieText }) rfl (parseAvailable_parsed hstatus)
    (List.Perm.refl _) hpeer
    hcontext hcookie (by decide +kernel) (by unfold NamedByLine; decide +kernel) (by decide +kernel)
  exact hkept.2 ⟨by decide +kernel, str "a=1", by decide +kernel, .inl (by decide +kernel)⟩

/-- the second of two Cookie lines is not passed on -/
theorem second_cookie_lost :
    let text := str "GET /a HTTP/1.1\r\nCookie: a=1\r\nCookie: b=2\r\n\r\n"
    (parseAvailable kLimits { pending := text }).1 = .gotAll ∧
      (str "cookie", str " b=2") ∈ headFields text ∧
      headValues (buildRequestInto (parsed text).request (parsed text).request.headers localPeer localContext)
        (str "cookie") =
        [str "a=1"] := by
  decide +kernel

end Coropact.Gateway
