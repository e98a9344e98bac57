/-
The effective weight of a peer under concurrent reports (`OnFailure` and `OnSuccess` of
`include/coropact/gateway/upstream_peer.h`), one atomic access at a time.

A call loads the weight and leaves if it is at the bound; otherwise it tries a compare-exchange until one succeeds or
fails with a value at the bound. A weak compare-exchange may fail although it finds the expected value. Every call is a
machine of its own over the shared word, so a thread that makes several calls is several machines, each invoked after
the one before it has returned. The accesses to `fails` and `checked_ms`, which come first, are to other words and left
out.

A call takes effect at the compare-exchange that succeeds, or at the read that finds the bound.
-/
import Coropact.Core.Machine
import Coropact.Gateway.UpstreamPeer

namespace Coropact.Gateway

open Coropact.Machine List Function
open Coropact.Http (str)

/-! ## Model -/

inductive Report where
  | failure
  | success
deriving DecidableEq, Repr

inductive ReportEvent where
  | invoke
  | load (seen : ℤ)
  /-- `compare_exchange_weak(expected, desired)`, which found `seen` -/
  | exchange (expected desired seen : ℤ) (ok : Bool)
  | return
deriving DecidableEq, Repr

inductive ReportPc where
  | idle
  | load
  /-- in the loop, with `cur` -/
  | exchange (cur : ℤ)
  /-- behind the loop -/
  | done
  | returned
deriving DecidableEq, Repr

namespace Report

/-- the test at the head of the loop fails -/
def atBound (weight : ℤ) : Report → ℤ → Bool
  | .failure, cur => !decide (cur > 0)
  | .success, cur => !decide (cur < weight)

def desired : Report → ℤ → ℤ
  | .failure, cur => cur - 1
  | .success, cur => cur + 1

def loop (weight : ℤ) (r : Report) (cur : ℤ) : ReportPc := if r.atBound weight cur then .done else .exchange cur

def step (weight : ℤ) (r : Report) : ReportPc → ReportEvent → Option ReportPc
  | .idle, .invoke => some .load
  | .load, .load seen => some (r.loop weight seen)
  | .exchange cur, .exchange expected desired seen ok =>
    if expected = cur ∧ desired = r.desired cur then some (if ok then .done else r.loop weight seen) else none
  | .done, .return => some .returned
  | _, _ => none

/-- what the report is for: one down unless at 0, one up unless at the weight -/
def apply (weight : ℤ) : Report → ℤ → ℤ
  | .failure, v => if v = 0 then v else v - 1
  | .success, v => if v = weight then v else v + 1

def commits (weight : ℤ) (r : Report) : ReportEvent → Bool
  | .load seen => r.atBound weight seen
  | .exchange _ _ seen ok => ok || r.atBound weight seen
  | _ => false

end Report

def weightMemory (v : ℤ) : ReportEvent → Option ℤ
  | .load seen => if seen = v then some v else none
  | .exchange expected desired seen ok =>
    if seen = v ∧ (ok = true → seen = expected) then some (if ok then desired else v) else none
  | .invoke | .return => some v

variable {ι : Type*} [DecidableEq ι]

/-- any number of calls; `report i` is what call `i` reports -/
def weightStep (config : PeerConfig) (report : ι → Report) :
    ℤ × (ι → ReportPc) → ι × ReportEvent → Option (ℤ × (ι → ReportPc)) :=
  Par.step weightMemory fun i => (report i).step config.weight

def weightInit (config : PeerConfig) : ℤ × (ι → ReportPc) :=
  ((UpstreamPeerState.make config).effectiveWeight, fun _ => .idle)

def effectOrder (config : PeerConfig) (report : ι → Report) (tr : List (ι × ReportEvent)) : List ι :=
  (tr.filter fun e => (report e.1).commits config.weight e.2).map Prod.fst

/-! ## What a step can do -/

def ReportPc.finished : ReportPc → Bool
  | .done | .returned => true
  | _ => false

/-- the loop goes on only with a value off the bound -/
def ReportPc.Off (weight : ℤ) (r : Report) (pc : ReportPc) : Prop := ∀ cur, pc = .exchange cur →
    r.atBound weight cur = false

section Move

variable {weight v v' : ℤ} {r : Report} {pc pc' : ReportPc} {e : ReportEvent}

theorem apply_effectiveWeight {s : UpstreamPeerState} {config : PeerConfig} (h : s.InWeight config) (nowMs : ℕ) :
    (s.onFailure nowMs).effectiveWeight = Report.failure.apply config.weight s.effectiveWeight ∧
      (s.onSuccess config).effectiveWeight = Report.success.apply config.weight s.effectiveWeight := by
  obtain ⟨hnonneg, hle⟩ := h
  simp only [UpstreamPeerState.onFailure, UpstreamPeerState.onSuccess, Report.apply]
  constructor <;> split_ifs <;> omega

theorem apply_of_atBound (hrange : 0 ≤ v ∧ v ≤ weight) (h : r.atBound weight v = true) : r.apply weight v = v := by
  cases r <;>
    · simp only [Report.atBound, Report.apply, Bool.not_eq_true', decide_eq_false_iff_not] at h ⊢
      split_ifs <;> omega

theorem apply_of_not_atBound (hrange : 0 ≤ v ∧ v ≤ weight) (h : r.atBound weight v = false) :
    r.apply weight v = r.desired v ∧ 0 ≤ r.desired v ∧ r.desired v ≤ weight := by
  cases r <;>
    · simp only [Report.atBound, Report.apply, Report.desired, Bool.not_eq_false', decide_eq_true_eq] at h ⊢
      split_ifs <;> omega

theorem loop_cases (weight : ℤ) (r : Report) (cur : ℤ) :
    (r.loop weight cur).finished = r.atBound weight cur ∧ (r.loop weight cur).Off weight r ∧
      r.loop weight cur ≠ .returned := by
  unfold Report.loop
  split_ifs with h
  · exact ⟨h.symm, fun _ hpc => (by cases hpc), by simp⟩
  · have hoff : r.atBound weight cur = false := Bool.eq_false_iff.2 h
    exact ⟨hoff.symm, fun _ hpc => (by cases hpc; exact hoff), by simp⟩

theorem read_effect (hrange : 0 ≤ v ∧ v ≤ weight) (hpc : pc.finished = false)
    (he : r.commits weight e = r.atBound weight v) :
    (r.loop weight v).Off weight r ∧ (0 ≤ v ∧ v ≤ weight) ∧
      (r.commits weight e = true ∧ pc.finished = false ∧ (r.loop weight v).finished = true ∧ r.apply weight v = v ∨
        r.commits weight e = false ∧ v = v ∧ (r.loop weight v).finished = pc.finished) := by
  obtain ⟨hfinished, hloop, -⟩ := loop_cases weight r v
  refine ⟨hloop, hrange, ?_⟩
  rw [he, hfinished, hpc]
  cases hbound : r.atBound weight v with
  | true => exact .inl ⟨rfl, rfl, rfl, apply_of_atBound hrange hbound⟩
  | false => exact .inr ⟨rfl, rfl, rfl⟩

/-- **One step.** It takes effect and finishes the call, or it leaves the weight and what the call has done. -/
theorem move_effect (hrange : 0 ≤ v ∧ v ≤ weight) (hoff : pc.Off weight r) (hm : weightMemory v e = some v')
    (hp : r.step weight pc e = some pc') :
    pc'.Off weight r ∧ (0 ≤ v' ∧ v' ≤ weight) ∧
      (r.commits weight e = true ∧ pc.finished = false ∧ pc'.finished = true ∧ r.apply weight v = v' ∨
        r.commits weight e = false ∧ v' = v ∧ pc'.finished = pc.finished) := by
  revert hp
  fun_cases Report.step weight r pc e <;> intro hp <;> cases hp
  case case1 | case5 =>
    cases hm
    exact ⟨fun _ h => (by cases h), hrange, .inr ⟨rfl, rfl, rfl⟩⟩
  case case2 =>
    obtain ⟨rfl, rfl⟩ := of_ite_some hm
    exact read_effect hrange rfl rfl
  case case3 cur seen ok hsame =>
    obtain ⟨rfl, rfl⟩ := hsame
    obtain ⟨⟨rfl, hok⟩, rfl⟩ := of_ite_some hm
    cases ok with
    | true =>
      obtain rfl := hok rfl
      obtain ⟨happly, hnew⟩ := apply_of_not_atBound hrange (hoff seen rfl)
      exact ⟨fun _ h => (by cases h), hnew, .inl ⟨rfl, rfl, rfl, happly⟩⟩
    | false => exact read_effect hrange rfl rfl

theorem move_ends (hp : r.step weight pc e = some pc') :
    (e = .invoke ↔ pc = .idle) ∧ (e = .return ↔ pc' = .returned) := by
  revert hp
  fun_cases Report.step weight r pc e <;> intro hp <;> cases hp
  case case2 seen => simp [loop_cases weight r seen]
  case case3 cur expected desired seen ok _ =>
    cases ok <;> simp [loop_cases weight r seen]
  all_goals simp

end Move

/-! ## Every run -/

variable {config : PeerConfig} {report : ι → Report} {tr l r : List (ι × ReportEvent)} {s t : ℤ × (ι → ReportPc)}

structure WeightInv (config : PeerConfig) (report : ι → Report) (tr : List (ι × ReportEvent)) (s : ℤ × (ι → ReportPc)) :
    Prop where
  range : 0 ≤ s.1 ∧ s.1 ≤ config.weight
  value : (effectOrder config report tr).foldl (fun v i => (report i).apply config.weight v) config.weight = s.1
  nodup : (effectOrder config report tr).Nodup
  off : ∀ i, (s.2 i).Off config.weight (report i)
  invoked : ∀ i, s.2 i ≠ .idle → (i, .invoke) ∈ tr
  returned : ∀ i, (i, .return) ∈ tr → s.2 i = .returned
  finished : ∀ i, i ∈ effectOrder config report tr ↔ (s.2 i).finished = true

omit [DecidableEq ι] in
theorem effectOrder_append : effectOrder config report (l ++ r) = effectOrder config report l ++
    effectOrder config report r := by
  simp [effectOrder]

theorem WeightInv.step {i : ι} {e : ReportEvent} (inv : WeightInv config report tr s)
    (hst : weightStep config report s (i, e) = some t) : WeightInv config report (tr ++ [(i, e)]) t := by
  obtain ⟨v', pcs'⟩ := t
  obtain ⟨pc', hm, hp, rfl⟩ := Par.step_some hst
  dsimp only at hm hp
  obtain ⟨hoff, hrange, heffect⟩ := move_effect inv.range (inv.off i) hm hp
  obtain ⟨hinvoke, hreturn⟩ := move_ends hp
  have horder : effectOrder config report (tr ++ [(i, e)]) =
      effectOrder config report tr ++ if (report i).commits config.weight e then [i] else [] := by
    rw [effectOrder_append]
    cases hc : (report i).commits config.weight e <;> simp [effectOrder, hc]
  refine ⟨hrange, ?_, ?_, (forall_update_iff s.2 _).2 ⟨hoff, fun j _ => inv.off j⟩,
    (forall_update_iff s.2 fun j pc => pc ≠ .idle → (j, .invoke) ∈ tr ++ [(i, e)]).2
      ⟨fun _ => ?_, fun j _ hj => mem_append_left _ (inv.invoked j hj)⟩,
    (forall_update_iff s.2 fun j pc => (j, .return) ∈ tr ++ [(i, e)] → pc = .returned).2
      ⟨fun hi => ?_, fun j hj hmem => inv.returned j (by simpa [hj] using hmem)⟩,
    (forall_update_iff s.2 fun j pc =>
      j ∈ effectOrder config report (tr ++ [(i, e)]) ↔ pc.finished = true).2 ⟨?_, fun j hj => ?_⟩⟩
  · rw [horder, foldl_append, inv.value]
    rcases heffect with ⟨hc, -, -, happly⟩ | ⟨hc, hsame, -⟩
    · rw [hc]
      exact happly
    · rw [hc]
      exact hsame.symm
  · rw [horder]
    rcases heffect with ⟨hc, hnot, -⟩ | ⟨hc, -⟩
    · rw [hc, if_pos rfl]
      refine nodup_append.2 ⟨inv.nodup, nodup_singleton i, ?_⟩
      rintro j hj k hk rfl
      rw [mem_singleton.1 hk] at hj
      cases hnot.symm.trans ((inv.finished i).1 hj)
    · simpa [hc] using inv.nodup
  · by_cases hpc : s.2 i = .idle
    · rw [hinvoke.2 hpc]
      exact mem_append_right _ mem_cons_self
    · exact mem_append_left _ (inv.invoked i hpc)
  · rcases mem_append.1 hi with hold | hnew
    · rw [inv.returned i hold] at hp
      cases hp
    · exact hreturn.1 (Prod.mk.inj (mem_singleton.1 hnew)).2.symm
  · rw [horder, mem_append, inv.finished]
    rcases heffect with ⟨hc, -, hdone, -⟩ | ⟨hc, -, hsame⟩
    · simp [hc, hdone]
    · simp [hc, hsame]
  · rw [horder, mem_append, inv.finished]
    split_ifs <;> simp [hj]

theorem run_weightInv (hweight : 0 ≤ config.weight) :
    ∀ (tr : List (ι × ReportEvent)) (s : ℤ × (ι → ReportPc)),
      run (weightStep config report) (weightInit config) tr = some s → WeightInv config report tr s := by
  refine run_induct (WeightInv config report) ?_ fun l s e t _ inv hst => inv.step hst
  exact ⟨⟨hweight, le_rfl⟩, rfl, .nil, fun i cur h => (by cases h), fun i h => absurd rfl h, fun i h => (by cases h),
    fun i => by simp [weightInit, effectOrder, ReportPc.finished]⟩

/-- **A clamped counter.** In every run the effective weight is between 0 and the configured weight, and it is the
configured weight with calls applied one by one: each call that has returned, and no call that was not invoked, each
once, and one that returned before another was invoked in front of it. -/
theorem effective_weight_linearizable (hweight : 0 ≤ config.weight)
    (hrun : run (weightStep config report) (weightInit config) tr = some s) :
    0 ≤ s.1 ∧ s.1 ≤ config.weight ∧ ∃ order : List ι, order.Nodup ∧
      (∀ i, (i, .return) ∈ tr → i ∈ order) ∧ (∀ i ∈ order, (i, .invoke) ∈ tr) ∧
      (∀ l r i j, tr = l ++ r → (i, .return) ∈ l → (j, .invoke) ∈ r → j ∈ order →
        ∃ before after, order = before ++ j :: after ∧ i ∈ before) ∧
      s.1 = order.foldl (fun v i => (report i).apply config.weight v) config.weight := by
  have inv := run_weightInv hweight tr s hrun
  refine ⟨inv.range.1, inv.range.2, effectOrder config report tr, inv.nodup, fun i hi => ?_, fun i hi => ?_, ?_,
    inv.value.symm⟩
  · rw [inv.finished, inv.returned i hi]
    rfl
  · refine inv.invoked i fun hidle => ?_
    rw [inv.finished, hidle] at hi
    cases hi
  · rintro l r i j rfl hi hj hmem
    -- when the one call is invoked it has not taken effect and the other has
    obtain ⟨r₁, r₂, rfl⟩ := append_of_mem hj
    rw [← append_assoc] at hrun hmem ⊢
    obtain ⟨u, hl, hr⟩ := run_append_some hrun
    obtain ⟨w, hst, -⟩ := Option.bind_eq_some_iff.1 hr
    obtain ⟨pc', -, hp, -⟩ := Par.step_some hst
    have hmid := run_weightInv hweight (l ++ r₁) u hl
    have hfirst : i ∈ effectOrder config report (l ++ r₁) := by
      rw [hmid.finished, hmid.returned i (mem_append_left _ hi)]
      rfl
    have hnot : j ∉ effectOrder config report (l ++ r₁) := by
      rw [hmid.finished, (move_ends hp).1.1 rfl]
      exact Bool.false_ne_true
    rw [effectOrder_append] at hmem ⊢
    obtain ⟨before, after, heq⟩ := append_of_mem ((mem_append.1 hmem).resolve_left hnot)
    exact ⟨_ ++ before, after, by rw [heq, append_assoc], mem_append_left _ hfirst⟩

/-- the report as the sequential method makes it -/
def Report.perform (config : PeerConfig) (nowMs : ℕ) : Report → UpstreamPeerState → UpstreamPeerState
  | .failure, p => p.onFailure nowMs
  | .success, p => p.onSuccess config

omit [DecidableEq ι] in
theorem foldl_perform (nowMs : ι → ℕ) (order : List ι) {p : UpstreamPeerState} (h : p.InWeight config) :
    (order.foldl (fun p i => (report i).perform config (nowMs i) p) p).effectiveWeight =
      order.foldl (fun v i => (report i).apply config.weight v) p.effectiveWeight := by
  induction order generalizing p with
  | nil => rfl
  | cons i order ih =>
    obtain ⟨hfailure, hsuccess⟩ := apply_effectiveWeight h (nowMs i)
    rw [foldl_cons, foldl_cons]
    cases hi : report i with
    | failure => rw [← hfailure]; exact ih (UpstreamPeerState.inWeight_onFailure h _)
    | success => rw [← hsuccess]; exact ih (UpstreamPeerState.inWeight_onSuccess h)

/-- **Concurrent reports leave the weight that reports one after the other leave**: the sequential methods applied in
the order in which the calls took effect, at whatever times. -/
theorem weight_refines_sequential (hweight : 0 ≤ config.weight)
    (hrun : run (weightStep config report) (weightInit config) tr = some s) (nowMs : ι → ℕ) :
    s.1 = ((effectOrder config report tr).foldl (fun p i => (report i).perform config (nowMs i) p)
      (.make config)).effectiveWeight := by
  rw [foldl_perform nowMs _ (p := .make config) ⟨hweight, le_rfl⟩]
  exact (run_weightInv hweight tr s hrun).value.symm

def weightOne : PeerConfig := { name := str "up", host := str "up", port := 80 }

/-- a success that leaves at the bound while a failure is between its load and its exchanges, of which the first is
spurious; then another success puts the weight back -/
def reportRun : List (ℕ × ReportEvent) :=
  [(0, .invoke), (0, .load 1), (1, .invoke), (1, .load 1), (0, .exchange 1 0 1 false), (0, .exchange 1 0 1 true),
    (0, .return), (1, .return), (2, .invoke), (2, .load 0), (2, .exchange 0 1 0 true), (2, .return)]

def reportOf (i : ℕ) : Report := if i = 0 then .failure else .success

theorem effective_weight_linearizable_reportRun :
    ∃ s ∈ run (weightStep weightOne reportOf) (weightInit weightOne) reportRun,
    s.1 = 1 ∧ ∃ order : List ℕ, order.Nodup ∧ (∀ i, (i, .return) ∈ reportRun → i ∈ order) ∧
      (∀ i ∈ order, (i, .invoke) ∈ reportRun) ∧
      (∀ l r i j, reportRun = l ++ r → (i, .return) ∈ l → (j, .invoke) ∈ r → j ∈ order →
        ∃ before after, order = before ++ j :: after ∧ i ∈ before) ∧
      s.1 = order.foldl (fun v i => (reportOf i).apply weightOne.weight v) weightOne.weight := by
  have hfacts : ∃ s ∈ run (weightStep weightOne reportOf) (weightInit weightOne) reportRun, s.1 = 1 := by decide +kernel
  obtain ⟨s, hs, hvalue⟩ := hfacts
  exact ⟨s, hs, hvalue, (effective_weight_linearizable (by decide) hs).2.2⟩

theorem weight_refines_sequential_reportRun :
    ∃ s ∈ run (weightStep weightOne reportOf) (weightInit weightOne) reportRun,
      s.1 = ((effectOrder weightOne reportOf reportRun).foldl (fun p i => (reportOf i).perform weightOne 0 p)
        (.make weightOne)).effectiveWeight := by
  have hfacts : (run (weightStep weightOne reportOf) (weightInit weightOne) reportRun).isSome = true :=
    by decide +kernel
  obtain ⟨s, hs⟩ := Option.isSome_iff_exists.1 hfacts
  exact ⟨s, hs, weight_refines_sequential (by decide) hs fun _ => 0⟩

end Coropact.Gateway
