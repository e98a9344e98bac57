/-
How many requests of a client pass the rate limiter (the head of `GatewayCore::HandleRequest` in
`src/gateway/gateway_core.cc`, over `include/coropact/gateway/rate_limiter.h`).

`HandleRequest` asks the bucket of all clients first and the bucket of the client only then. The bound of a bucket holds
of what passes through the whole limiter. Neither the requests of others, nor the limit for all, nor the eviction of the
buckets of idle clients under a cap lets a client have more. The numbers are exact, as in the model of the bucket.
-/
import Coropact.Gateway.AdmissionBound

namespace Coropact.Gateway

open Coropact.Http Coropact.Machine List

theorem TokenBucket.accepted_le_rate {b : TokenBucket} {t₁ t₂ : ℕ} {times : List ℕ} (hrate : 0 ≤ b.rate)
    (hburst : 0 ≤ b.burst) (hsorted : times.Pairwise (· ≤ ·)) (hle : t₁ ≤ t₂) :
    (b.accepted t₁ t₂ times : ℚ) ≤ b.burst + b.rate * (t₂ - t₁ : ℕ) / 1000 := by
  have hscale : (0 : ℚ) < kScale := by norm_num [kScale]
  refine le_of_mul_le_mul_left ?_ hscale
  calc (kScale * b.accepted t₁ t₂ times : ℚ) ≤ b.burst * kScale + inflow b.rate (t₂ - t₁) :=
    accepted_le hrate hburst hsorted hle
    _ = kScale * (b.burst + b.rate * (t₂ - t₁ : ℕ) / 1000) := by
      unfold inflow
      ring

/-! ## Requests -/

/-- a call of `HandleRequest`, with the times it reads -/
structure LimitedCall where
  client : Bytes
  global : ℕ
  reads : Reads
  global_le : global ≤ reads.evict

inductive Verdict where
  | admitted | globalRejected | perIpRejected
deriving DecidableEq, Repr

/-- the head of `HandleRequest`: `global_ok && AllowPerIP(..)` -/
def RateLimiter.judge (l : RateLimiter) (c : LimitedCall) : Verdict × RateLimiter :=
  if (l.allowGlobal c.global).1 then
    let r := (l.allowGlobal c.global).2.allowPerIp c.client c.reads
    (if r.1 = .allowed then .admitted else .perIpRejected, r.2)
  else (.globalRejected, (l.allowGlobal c.global).2)

def limitedStep (l : RateLimiter) (x : LimitedCall × Verdict) : Option RateLimiter :=
  if (l.judge x.1).1 = x.2 then some (l.judge x.1).2 else none

def InOrder (start : ℕ) (tr : List (LimitedCall × Verdict)) : Prop :=
  (∀ x ∈ tr, start ≤ x.1.global) ∧ tr.Pairwise fun x y => x.1.reads.consume ≤ y.1.global

def RateLimiter.bucketFor (l : RateLimiter) (ip : Bytes) (now : ℕ) : TokenBucket :=
  (l.ipBuckets.lookup ip).getD (.make l.config.perIpRate l.config.perIpBurst now)

theorem limitedStep_some {l l' : RateLimiter} {c : LimitedCall} {v : Verdict} (h : limitedStep l (c, v) = some l') :
    (l.judge c).1 = v ∧ (l.judge c).2 = l' := of_ite_some h

section Passed

variable {t₁ t₂ now : ℕ} {tr : List (LimitedCall × Verdict)} {config : RateLimiterConfig} {client : Bytes}
  {l l' : RateLimiter} {b : TokenBucket}

/-- the bucket that stands for a client: its own, also if it was dropped, or a full one -/
def StandsFor (config : RateLimiterConfig) (client : Bytes) (now : ℕ) (l : RateLimiter) (b : TokenBucket) : Prop :=
  config.perIpEnabled = true ∧ ∃ u, Simulates config now l u ∧
    b = (u.ipBuckets.lookup client).getD (.make config.perIpRate config.perIpBurst 0)

/-- without a cap a call just asks the bucket of its client -/
theorem allowPerIp_uncapped {u : RateLimiter} (hon : u.config.perIpEnabled = true) (hcap : u.config.perIpMaxBuckets = 0)
    (ip : Bytes) (t : Reads) : u.allowPerIp ip t = u.consumeFrom ip (u.bucketFor ip t.create) t.consume := by
  have hplace : ∀ l : RateLimiter, ¬(u.config.perIpMaxBuckets ≠ 0 ∧ l.full = true) := fun l hfull => hfull.1 hcap
  rw [RateLimiter.allowPerIp, if_pos hon, RateLimiter.bucketFor, RateLimiter.makeRoom, if_neg (hplace u)]
  cases u.ipBuckets.lookup ip with
  | some b => rfl
  | none => simp only [if_neg (hplace u), Option.getD_none]

theorem judge_perIp (h : StandsFor config client now l b) (c : LimitedCall) (hnow : now ≤ c.global) :
    StandsFor config client c.reads.consume (l.judge c).2 b ∧
        ((l.judge c).1 = .admitted → c.client ≠ client) ∨
      StandsFor config client c.reads.consume (l.judge c).2 (b.tryConsume c.reads.consume).2 ∧
        ((l.judge c).1 = .admitted → (b.tryConsume c.reads.consume).1 = true) := by
  obtain ⟨hon, u, hsim, rfl⟩ := h
  have hevict : now ≤ c.reads.evict := hnow.trans c.global_le
  have hlast : now ≤ c.reads.consume := hevict.trans (c.reads.evict_le.trans c.reads.create_le)
  have hglobal : Simulates config now (l.allowGlobal c.global).2 u := by
    unfold RateLimiter.allowGlobal
    split_ifs
    · exact { hsim with }
    · exact hsim
  unfold RateLimiter.judge
  by_cases hok : (l.allowGlobal c.global).1 = true
  · rw [if_pos hok]
    rcases hglobal.allowPerIp c.client c.reads hevict with ⟨hplace, hnext⟩ | ⟨-, hsame, hnext⟩
    · exact .inl ⟨⟨hon, u, hnext, rfl⟩, by simp [hplace]⟩
    · have huncapped := hsim.uncapped
      have hask := allowPerIp_uncapped (u := u) (by rw [huncapped]; exact hon) (by rw [huncapped]) c.client c.reads
      rw [hask] at hsame hnext
      by_cases hclient : c.client = client
      · subst hclient
        -- a bucket that is made now is as full as one that was made before
        have hbucket : (u.bucketFor c.client c.reads.create).tryConsume c.reads.consume =
            ((u.ipBuckets.lookup c.client).getD (.make config.perIpRate config.perIpBurst 0)).tryConsume
              c.reads.consume := by
          rw [RateLimiter.bucketFor, huncapped]
          cases u.ipBuckets.lookup c.client with
          | some b => rfl
          | none =>
            refine TokenBucket.tryConsume_congr rfl rfl ?_
            rw [Option.getD_none, TokenBucket.newTokens_make, Option.getD_none, TokenBucket.newTokens_make]
            rfl
        refine .inr ⟨⟨hon, _, hnext, ?_⟩, fun hadmitted => ?_⟩
        · simp [RateLimiter.consumeFrom, hbucket]
        · by_contra hnot
          simp [hsame, RateLimiter.consumeFrom, hbucket, hnot] at hadmitted
      · refine .inl ⟨⟨hon, _, hnext, ?_⟩, by simp [hclient]⟩
        simp [RateLimiter.consumeFrom, AList.lookup_insert_ne (Ne.symm hclient)]
  · rw [if_neg hok]
    exact .inl ⟨⟨hon, u, hglobal.later hlast, rfl⟩, fun h => (by cases h)⟩

/-- the requests of a client that pass, with their tokens taken between `t₁` and `t₂` -/
def passed (client : Bytes) (t₁ t₂ : ℕ) (tr : List (LimitedCall × Verdict)) : ℕ :=
  tr.countP fun x => x.2 = .admitted ∧ x.1.client = client ∧ t₁ ≤ x.1.reads.consume ∧ x.1.reads.consume ≤ t₂

/-- no more pass than the bucket lets through that stands for the client -/
theorem run_passed_le (h : StandsFor config client now l b) (horder : InOrder now tr)
    (hrun : run limitedStep l tr = some l') :
    ∃ times, times <+ tr.map (·.1.reads.consume) ∧ passed client t₁ t₂ tr ≤ b.accepted t₁ t₂ times := by
  induction tr generalizing now l b with
  | nil => exact ⟨[], .slnil, le_rfl⟩
  | cons x tr ih =>
    obtain ⟨c, v⟩ := x
    obtain ⟨m, hstep, hrest⟩ := Option.bind_eq_some_iff.1 hrun
    obtain ⟨rfl, rfl⟩ := limitedStep_some hstep
    obtain ⟨hfirst, hlater⟩ := pairwise_cons.1 horder.2
    rw [passed, countP_cons]
    rcases judge_perIp h c (horder.1 _ mem_cons_self) with ⟨hnext, hother⟩ | ⟨hnext, hok⟩
    · obtain ⟨times, hsub, hle⟩ := ih hnext ⟨hfirst, hlater⟩ hrest
      refine ⟨times, hsub.cons _, ?_⟩
      rw [if_neg (by simpa using fun hv hc => absurd hc (hother hv))]
      exact hle
    · obtain ⟨times, hsub, hle⟩ := ih hnext ⟨hfirst, hlater⟩ hrest
      refine ⟨c.reads.consume :: times, hsub.cons_cons _, ?_⟩
      rw [TokenBucket.accepted, add_comm]
      refine add_le_add ?_ hle
      split_ifs <;> simp_all

/-- **How many requests of a client pass.** In every run of `HandleRequest` at times that do not go back, with the limit
per client on: of the requests of a client that take their tokens within a stretch of time, no more pass than the burst
and what the rate brings in that time. This is so whatever the others send, and whatever cap there is on the buckets. -/
theorem requests_passed_bound (start : ℕ) (horder : InOrder start tr)
    (hrun : run limitedStep (.make config start) tr = some l)
    (hon : config.perIpEnabled = true) (hrate : 0 ≤ config.perIpRate) (hburst : 0 ≤ config.perIpBurst) (hle : t₁ ≤ t₂) :
    (passed client t₁ t₂ tr : ℚ) ≤ config.perIpBurst + config.perIpRate * (t₂ - t₁ : ℕ) / 1000 := by
  have hstart : Simulates config start (.make config start) (.make { config with perIpMaxBuckets := 0 } start) :=
    ⟨rfl, rfl, fun ip b hb => (by cases hb), fun ip b hb => (by cases hb), fun ip b hb => (by cases hb)⟩
  have hstands : StandsFor config client start (.make config start) _ := ⟨hon, _, hstart, rfl⟩
  obtain ⟨times, hsub, hpassed⟩ := run_passed_le hstands horder hrun
  have hreads : ∀ c : LimitedCall, c.global ≤ c.reads.consume := fun c =>
    c.global_le.trans (c.reads.evict_le.trans c.reads.create_le)
  have hsorted : times.Pairwise (· ≤ ·) :=
    (pairwise_map.2 (horder.2.imp fun {_ y} h => h.trans (hreads y.1))).sublist hsub
  calc (passed client t₁ t₂ tr : ℚ) ≤ (TokenBucket.accepted _ t₁ t₂ times : ℕ) := Nat.cast_le.2 hpassed
    _ ≤ _ := TokenBucket.accepted_le_rate hrate hburst hsorted hle

end Passed

/-- three requests for all, one for each client; the tokens come back very slowly -/
def tightLimits : RateLimiterConfig where
  globalEnabled := true
  globalRate := 1 / 1000
  globalBurst := 3
  perIpEnabled := true
  perIpRate := 1 / 1000
  perIpBurst := 1

def callFrom (client : Bytes) (now : ℕ) : LimitedCall := ⟨client, now, .at now, le_rfl⟩

/-- two clients, of which the first is slowed down by its own limit -/
def slowedRun : List (LimitedCall × Verdict) :=
  [(callFrom [1] 0, .admitted), (callFrom [1] 1, .perIpRejected), (callFrom [2] 2, .admitted)]

theorem requests_passed_bound_slowed : ∃ l, run limitedStep (.make tightLimits 0) slowedRun = some l ∧
    (passed [1] 0 1 slowedRun : ℚ) ≤ 1 + 1 / 1000 * (1 - 0 : ℕ) / 1000 := by
  have hfacts : (run limitedStep (.make tightLimits 0) slowedRun).isSome = true := by decide +kernel
  obtain ⟨l, hrun⟩ := Option.isSome_iff_exists.1 hfacts
  refine ⟨l, hrun, requests_passed_bound 0 ?_ hrun rfl ?_ ?_ (by decide)⟩
  · simp [InOrder, slowedRun, callFrom, Reads.at]
  · norm_num [tightLimits]
  · norm_num [tightLimits]

end Coropact.Gateway
