/-
One backend of an upstream (`include/coropact/gateway/upstream_peer.h`): its configuration, its state and the passive
health check.

The state is a record of values; `OnFailure` and `OnSuccess` are taken as one step each. An `int` is an integer, wrapped
to 32 bits where a result is stored (`int32`); in C++ a result that does not fit is undefined behaviour. `fails_` is the
64-bit counter it is, since `AvailableAt` casts it to `int`.
-/
import Coropact.Gateway.BuildRequest

namespace Coropact.Gateway

open Coropact.Http

/-! ## `int` -/

/-- the value an `int` holds after an arithmetic result is stored in it -/
def int32 (x : ℤ) : ℤ := Int.bmod x (2 ^ 32)

def kIntMax : ℤ := 2 ^ 31 - 1
def kIntMin : ℤ := -2 ^ 31

theorem int32_of_fits {x : ℤ} (hmin : kIntMin ≤ x) (hmax : x ≤ kIntMax) : int32 x = x := by
  unfold kIntMin at hmin
  unfold kIntMax at hmax
  exact Int.bmod_eq_of_le (by omega) (by omega)

/-! ## Peers -/

/-- the configuration of a peer; the times are in milliseconds -/
structure PeerConfig extends UpstreamPeerConfig where
  name : Bytes
  weight : ℤ := 1
  maxFails : ℤ := 3
  failTimeout : ℤ := 10000
deriving DecidableEq, Repr

structure UpstreamPeerState where
  down : Bool := false
  active : ℤ := 0
  fails : BitVec 64 := 0
  checkedMs : ℕ := 0
  effectiveWeight : ℤ
deriving DecidableEq, Repr

namespace UpstreamPeerState

def make (config : PeerConfig) : UpstreamPeerState := { effectiveWeight := config.weight }

def isUp (s : UpstreamPeerState) : Bool := !s.down

def availableAt (s : UpstreamPeerState) (config : PeerConfig) (nowMs : ℕ) : Bool :=
  if !s.isUp then false
  else if (s.fails.setWidth 32).toInt < config.maxFails then true
  else s.checkedMs ≤ nowMs ∧ (config.failTimeout % 2 ^ 64).toNat ≤ nowMs - s.checkedMs

def onFailure (s : UpstreamPeerState) (nowMs : ℕ) : UpstreamPeerState :=
  { s with
    fails := s.fails + 1
    checkedMs := nowMs
    effectiveWeight := if 0 < s.effectiveWeight then s.effectiveWeight - 1 else s.effectiveWeight }

def onSuccess (s : UpstreamPeerState) (config : PeerConfig) : UpstreamPeerState :=
  { s with
    fails := 0
    effectiveWeight := if s.effectiveWeight < config.weight then s.effectiveWeight + 1 else s.effectiveWeight }

/-! ## The effective weight -/

/-- the effective weight is between 0 and the configured weight -/
def InWeight (s : UpstreamPeerState) (config : PeerConfig) : Prop :=
  0 ≤ s.effectiveWeight ∧ s.effectiveWeight ≤ config.weight

variable {s : UpstreamPeerState} {config : PeerConfig}

theorem inWeight_onFailure (h : s.InWeight config) (nowMs : ℕ) : (s.onFailure nowMs).InWeight config := by
  obtain ⟨hnonneg, hle⟩ := h
  unfold InWeight onFailure
  dsimp only
  split_ifs <;> omega

theorem inWeight_onSuccess (h : s.InWeight config) : (s.onSuccess config).InWeight config := by
  obtain ⟨hnonneg, hle⟩ := h
  unfold InWeight onSuccess
  dsimp only
  split_ifs <;> omega

end UpstreamPeerState

end Coropact.Gateway
