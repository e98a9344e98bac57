/-
The bookkeeping of the poller (`UpdateChannel`, `RemoveChannel` and `Update` of `src/net/epoll_poller.cc`, and the
interest changes of `include/coropact/net/channel.h`).

A step is a call on a channel with the answer of the `epoll_ctl` that it may issue. The kernel refuses to add a
descriptor that is in the set, and to change or delete one that is not; it may refuse anything else. The poller sets the
index of a channel whether the call has succeeded or not, and it adds a channel also if that has no interest
(`poller_disagrees`). Descriptors are distinct, so each channel is kept together with the entry of the epoll set for its
descriptor.
-/
import Coropact.Core.Machine

namespace Coropact.Net

open Coropact.Machine Function

structure Interest where
  read : Bool := false
  write : Bool := false
deriving DecidableEq, Repr

inductive ChannelState where
  | kNew
  | kAdded
  | kDeleted
deriving DecidableEq, Repr

inductive CtlOp where
  | add
  | mod
  | del
deriving DecidableEq, Repr

inductive InterestChange where
  | enableReading
  | disableReading
  | enableWriting
  | disableWriting
  | disableAll
deriving DecidableEq, Repr

def InterestChange.apply (e : Interest) : InterestChange → Interest
  | .enableReading => { e with read := true }
  | .disableReading => { e with read := false }
  | .enableWriting => { e with write := true }
  | .disableWriting => { e with write := false }
  | .disableAll => {}

/-- a channel, what its descriptor is registered for, and the calls of `epoll_ctl` with whether it was registered -/
structure PolledChannel where
  events : Interest := {}
  index : ChannelState := .kNew
  registered : Option Interest := none
  calls : List (CtlOp × Bool) := []
deriving DecidableEq, Repr

namespace PolledChannel

/-- `Update`; a failure is only logged -/
def update (s : PolledChannel) (op : CtlOp) (ok : Bool) : PolledChannel :=
  { s with
    calls := s.calls ++ [(op, s.registered.isSome)]
    registered :=
      if ok = true ∧ (op = .add ↔ s.registered = none) then (if op = .del then none else some s.events)
        else s.registered }

def updateChannel (s : PolledChannel) (ok : Bool) : PolledChannel :=
  if s.index = .kNew ∨ s.index = .kDeleted then { s with index := .kAdded }.update .add ok
  else if s.events = {} then { s.update .del ok with index := .kDeleted }
  else s.update .mod ok

def change (s : PolledChannel) (c : InterestChange) (ok : Bool) : PolledChannel :=
  { s with events := c.apply s.events }.updateChannel ok

def removeChannel (s : PolledChannel) (ok : Bool) : PolledChannel :=
  { if s.index = .kAdded then s.update .del ok else s with index := .kNew }

/-- poller and kernel agree about a channel -/
structure Agrees (s : PolledChannel) : Prop where
  added : s.index = .kAdded ↔ s.registered.isSome
  current : ∀ e ∈ s.registered, e = s.events ∧ e ≠ {}
  calls : ∀ c ∈ s.calls, c.1 = .add ↔ c.2 = false

variable {s : PolledChannel}

theorem Agrees.change (h : s.Agrees) {c : InterestChange} (hc : s.index ≠ .kAdded → c.apply s.events ≠ {}) :
    (s.change c true).Agrees := by
  unfold PolledChannel.change updateChannel
  dsimp only
  by_cases hadded : s.index = .kAdded
  · obtain ⟨e, he⟩ := Option.isSome_iff_exists.1 (h.added.1 hadded)
    by_cases hnone : c.apply s.events = {}
    · refine ⟨by simp [hadded, hnone, update, he], by simp [hadded, hnone, update, he], ?_⟩
      simpa [hadded, hnone, update, he, or_imp, forall_and] using h.calls
    · refine ⟨by simp [hadded, hnone, update, he], by simp [hadded, hnone, update, he], ?_⟩
      simpa [hadded, hnone, update, he, or_imp, forall_and] using h.calls
  · have hnone : s.registered = none := by
      rw [h.added] at hadded
      simpa using hadded
    have hindex : s.index = .kNew ∨ s.index = .kDeleted := by
      cases hs : s.index with
      | kAdded => exact absurd hs hadded
      | kNew => exact .inl rfl
      | kDeleted => exact .inr rfl
    rw [if_pos hindex]
    refine ⟨by simp [update, hnone], by simpa [update, hnone] using hc hadded, ?_⟩
    simpa [update, hnone, or_imp, forall_and] using h.calls

theorem Agrees.remove (h : s.Agrees) : (s.removeChannel true).Agrees := by
  unfold removeChannel
  by_cases hadded : s.index = .kAdded
  · obtain ⟨e, he⟩ := Option.isSome_iff_exists.1 (h.added.1 hadded)
    refine ⟨by simp [hadded, update, he], by simp [hadded, update, he], ?_⟩
    simpa [hadded, update, he, or_imp, forall_and] using h.calls
  · have hnone : s.registered = none := by
      rw [h.added] at hadded
      simpa using hadded
    refine ⟨by simp [hadded, hnone], by simp [hadded, hnone], ?_⟩
    simpa [hadded] using h.calls

end PolledChannel

inductive PollEvent (ι : Type*) where
  | change (fd : ι) (c : InterestChange) (ok : Bool)
  | remove (fd : ι) (ok : Bool)

section Runs

variable {ι : Type*} [DecidableEq ι]

def pollStep (s : ι → PolledChannel) : PollEvent ι → Option (ι → PolledChannel)
  | .change fd c ok => some (update s fd ((s fd).change c ok))
  | .remove fd ok => some (update s fd ((s fd).removeChannel ok))

/-- no call of `epoll_ctl` fails, and a channel that is not added is not left without interest -/
def Careful (s : ι → PolledChannel) : PollEvent ι → Prop
  | .change fd c ok => ok = true ∧ ((s fd).index ≠ .kAdded → c.apply (s fd).events ≠ {})
  | .remove _ ok => ok = true

def CarefulAt (tr : List (PollEvent ι)) (e : PollEvent ι) : Prop :=
  ∀ s ∈ run pollStep (fun _ => {}) tr, Careful s e

/-- **Poller and kernel agree** about every channel after every careful run. -/
theorem poller_agrees {tr : List (PollEvent ι)} {s : ι → PolledChannel} (hrun : run pollStep (fun _ => {}) tr = some s)
    (hcareful : EachStep CarefulAt [] tr) : ∀ fd, (s fd).Agrees := by
  refine run_induct_of CarefulAt (fun _ s => ∀ fd, (s fd).Agrees) (fun _ => ⟨by simp, by simp, by simp⟩)
    (fun l s e t hl h hcare hst => ?_) tr s hrun hcareful
  have hupdate : ∀ fd x, x.Agrees → ∀ fd', (update s fd x fd').Agrees := fun fd x hx =>
    (forall_update_iff s fun _ y => y.Agrees).2 ⟨hx, fun fd' _ => h fd'⟩
  have hcare := hcare s hl
  cases e with
  | change fd c ok =>
    obtain ⟨rfl, hc⟩ := hcare
    cases hst
    exact hupdate fd _ ((h fd).change hc)
  | remove fd ok =>
    obtain rfl : ok = true := hcare
    cases hst
    exact hupdate fd _ (h fd).remove

end Runs

/-- two channels; one changes its interest and is removed -/
def twoChannels : List (PollEvent Bool) :=
  [.change false .enableReading true, .change true .enableWriting true, .change false .disableAll true,
    .remove false true]

theorem poller_agrees_twoChannels : ∃ s, run pollStep (fun _ => {}) twoChannels = some s ∧ ∀ fd, (s fd).Agrees := by
  have hrun : run pollStep (fun _ => {}) twoChannels = some _ := rfl
  refine ⟨_, hrun, poller_agrees hrun ?_⟩
  simp [twoChannels, EachStep, CarefulAt, Careful, run_cons, pollStep]
  decide

/-- A failed ADD leaves the channel added and its next change to a descriptor that is not registered; and a channel
without interest is added when it is disabled once more. -/
theorem poller_disagrees :
    (∃ s, run pollStep (fun _ => {}) [.change () .enableReading false, .change () .enableWriting true] = some s ∧
      (s ()).index = .kAdded ∧ (s ()).registered = none ∧ (.mod, false) ∈ (s ()).calls) ∧
    ∃ s, run pollStep (fun _ => {}) [.change () .disableAll true] = some s ∧ (s ()).registered = some {} :=
  ⟨⟨_, rfl, rfl, rfl, by decide⟩, ⟨_, rfl, rfl⟩⟩

end Coropact.Net
