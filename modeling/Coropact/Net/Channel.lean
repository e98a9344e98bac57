/-
The dispatch of ready events to the callbacks of a channel (`src/net/channel.cc`, `src/net/epoll_poller.cc`).

A callback is a function on the state of the channel's owner. The dispatch looks at the events in a fixed order (close,
error, read, write) and does not ask in between whether the channel is still there.
-/
import Coropact.Core.Errno
import Mathlib.Tactic

namespace Coropact.Net

structure Events where
  read : Bool := false
  write : Bool := false
  error : Bool := false
  hup : Bool := false
deriving DecidableEq, Repr

structure EpollEvents where
  epollIn : Bool := false
  epollPri : Bool := false
  epollOut : Bool := false
  epollErr : Bool := false
  epollHup : Bool := false
  epollRdHup : Bool := false
deriving DecidableEq, Repr

def fromEpollEvents (e : EpollEvents) : Events where
  read := e.epollIn || e.epollPri
  write := e.epollOut
  error := e.epollErr
  hup := e.epollHup || e.epollRdHup

/-- the callbacks of a channel; an unset one is `none` -/
structure Channel (σ : Type*) where
  readCallback : Option (σ → σ) := none
  writeCallback : Option (σ → σ) := none
  closeCallback : Option (σ → σ) := none
  errorCallback : Option (σ → σ) := none

section Dispatch

variable {σ : Type*}

/-- `if (event) if (callback) callback()` -/
def callIf (event : Bool) (callback : Option (σ → σ)) (s : σ) : σ := if event then (callback.getD id) s else s

def Channel.handleEventWithGuard (c : Channel σ) (revents : Events) (s : σ) : σ :=
  callIf revents.write c.writeCallback <|
    callIf revents.read c.readCallback <|
      callIf revents.error c.errorCallback <|
        callIf (revents.hup && !revents.read) c.closeCallback s

theorem callIf_induct {P : σ → Prop} {event : Bool} {callback : Option (σ → σ)} {s : σ}
    (hcall : ∀ f ∈ callback, ∀ s, P s → P (f s)) (h : P s) : P (callIf event callback s) := by
  cases event with
  | false => exact h
  | true =>
    cases callback with
    | none => exact h
    | some f => exact hcall f rfl s h

/-- **Dispatch rule.** What each callback of the channel keeps holds after the dispatch. -/
theorem handleEventWithGuard_induct {P : σ → Prop} {c : Channel σ} {revents : Events} {s : σ}
    (hclose : ∀ f ∈ c.closeCallback, ∀ s, P s → P (f s)) (herror : ∀ f ∈ c.errorCallback, ∀ s, P s → P (f s))
    (hread : ∀ f ∈ c.readCallback, ∀ s, P s → P (f s)) (hwrite : ∀ f ∈ c.writeCallback, ∀ s, P s → P (f s)) (h : P s) :
    P (c.handleEventWithGuard revents s) := by
  apply callIf_induct hwrite
  apply callIf_induct hread
  apply callIf_induct herror
  exact callIf_induct hclose h

end Dispatch

end Coropact.Net
