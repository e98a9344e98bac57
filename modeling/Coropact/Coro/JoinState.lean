/-
The state a spawned coroutine shares with its join handle (`include/coropact/coro/detail/join_state.h`,
`include/coropact/coro/spawn.h`).

Two parties, interleaved one access at a time:
- the producer is `RunSpawn`: it stores the result and calls `Complete`, which finishes, resumes a parked joiner, or
  deletes the state if the handle was released before;
- the consumer is a `JoinHandle`: it may be awaited any number of times (`IsFinished`, `TryParkJoiner`, `TakeResult`)
  and is released once (`ConsumerRelease`, by `Detach` or the destructor), which detaches or deletes the state.
`joiner.resume()` continues the parked coroutine, so that event moves the consumer on. A memory that has been deleted is
left as it is: an access after the delete is an event of the run like any other, and that there is none is what has to
be shown. `Wait` is not used here.

The phase passes the ownership, but `Complete` releases the semaphore after it has set kFinished: a consumer that sees
kFinished takes the result, releases the handle and deletes the state, and the semaphore of a deleted state is released
(`ready_released_after_delete`). If the consumer's delete does not fall in between, the protocol is right
(`join_protocol`).
-/
import Coropact.Core.Machine

namespace Coropact.Coro

open Coropact.Machine List Option

/-! ## Model -/

inductive Phase where
  | kIdle | kRunningJoinable | kRunningJoining | kRunningDetached | kFinished | kZombie
deriving DecidableEq, Repr

/-- `H` are the handles of coroutines; `engaged` says that the result slot is filled -/
structure JoinState (H : Type*) where
  phase : Phase := .kRunningJoinable
  joiner : Option H := none
  engaged : Bool := false
  ready : ℕ := 0
deriving DecidableEq, Repr

inductive ProducerPc (H : Type*) where
  | running
  -- `Complete`
  | complete | releaseReady | loadJoiner | storeZombie (joiner : Option H) | releaseParked (joiner : Option H)
  | resume (joiner : Option H) | delete
  | done
deriving DecidableEq, Repr

inductive ConsumerPc (H : Type*) where
  /-- the handle is held, and may be awaited or released -/
  | holding
  -- `TryParkJoiner`
  | park | parkCas (joiner : H) | parked (joiner : H) | clearJoiner
  /-- `await_resume` -/
  | take
  -- `ConsumerRelease`
  | delete | gone
deriving DecidableEq, Repr

inductive JoinEvent (H : Type*) where
  /-- the task has finished; its result, if there is one, is stored -/
  | setResult
  /-- the compare-exchange of `Complete`, from kRunningJoinable to kFinished -/
  | completeCas (seen : Phase)
  | loadJoiner (joiner : Option H)
  | storeZombie
  | readyRelease
  | resume (joiner : Option H)
  | producerDelete
  | isFinished (seen : Phase)
  /-- `joiner_ = joiner` -/
  | setJoiner (joiner : H)
  /-- the compare-exchange of `TryParkJoiner`, from kRunningJoinable to kRunningJoining -/
  | parkCas (seen : Phase)
  | clearJoiner
  | takeResult
  /-- the compare-exchange of `ConsumerRelease`, from kRunningJoinable to kRunningDetached -/
  | releaseCas (seen : Phase)
  | consumerDelete
deriving DecidableEq, Repr

structure JoinSystem (H : Type*) where
  state : JoinState H := {}
  producer : ProducerPc H := .running
  consumer : ConsumerPc H := .holding
deriving DecidableEq, Repr

section Model

variable {H : Type*} [DecidableEq H]

def joinStep (s : JoinSystem H) : JoinEvent H → Option (JoinSystem H)
  | .setResult =>
    if s.producer = .running then some { s with state := { s.state with engaged := true }, producer := .complete }
      else none
  | .completeCas seen =>
    if s.producer = .complete ∧ seen = s.state.phase then
      some (if seen = .kRunningJoinable then
          { s with state := { s.state with phase := .kFinished }, producer := .releaseReady }
        else if seen = .kRunningJoining then { s with producer := .loadJoiner }
        else { s with producer := .delete })
    else none
  | .loadJoiner joiner =>
    if s.producer = .loadJoiner ∧ joiner = s.state.joiner then some { s with producer := .storeZombie joiner } else none
  | .storeZombie =>
    match s.producer with
    | .storeZombie joiner =>
        some { s with state := { s.state with phase := .kZombie }, producer := .releaseParked joiner }
    | _ => none
  | .readyRelease =>
    match s.producer with
    | .releaseReady => some { s with state := { s.state with ready := s.state.ready + 1 }, producer := .done }
    | .releaseParked joiner =>
        some { s with state := { s.state with ready := s.state.ready + 1 }, producer := .resume joiner }
    | _ => none
  | .resume joiner =>
    if s.producer = .resume joiner then
      -- the coroutine goes on with `await_resume` if it is the one that is parked
      some { s with producer := .done, consumer := if joiner.map .parked = some s.consumer then .take else s.consumer }
    else none
  | .producerDelete => if s.producer = .delete then some { s with producer := .done } else none
  | .isFinished seen =>
    if s.consumer = .holding ∧ seen = s.state.phase then
      some { s with consumer := if seen = .kFinished then .take else .park }
    else none
  | .setJoiner joiner =>
    if s.consumer = .park then
      some { s with state := { s.state with joiner := some joiner }, consumer := .parkCas joiner }
    else none
  | .parkCas seen =>
    match s.consumer with
    | .parkCas joiner =>
      if seen = s.state.phase then
        some (if seen = .kRunningJoinable then
            { s with state := { s.state with phase := .kRunningJoining }, consumer := .parked joiner }
          else { s with consumer := .clearJoiner })
      else none
    | _ => none
  | .clearJoiner =>
    if s.consumer = .clearJoiner then some { s with state := { s.state with joiner := none }, consumer := .take }
      else none
  | .takeResult => if s.consumer = .take then some { s with consumer := .holding } else none
  | .releaseCas seen =>
    if s.consumer = .holding ∧ seen = s.state.phase then
      some (if seen = .kRunningJoinable then
          { s with state := { s.state with phase := .kRunningDetached }, consumer := .gone }
        else { s with consumer := .delete })
    else none
  | .consumerDelete => if s.consumer = .delete then some { s with consumer := .gone } else none

/-! ## Statements -/

/-- an operation on the shared state; the parked handle has been copied before it is resumed -/
def JoinEvent.touches : JoinEvent H → Bool
  | .resume _ => false
  | _ => true

def JoinEvent.isDelete : JoinEvent H → Bool
  | .producerDelete | .consumerDelete => true
  | _ => false

def JoinEvent.parks : JoinEvent H → Bool
  | .parkCas .kRunningJoinable => true
  | _ => false

def JoinEvent.resumes : JoinEvent H → Bool
  | .resume _ => true
  | _ => false

def deletes (tr : List (JoinEvent H)) : ℕ := tr.countP (·.isDelete)

def parks (tr : List (JoinEvent H)) : ℕ := tr.countP (·.parks)

def resumes (tr : List (JoinEvent H)) : ℕ := tr.countP (·.resumes)

structure JoinProtocol (tr : List (JoinEvent H)) : Prop where
  deletedOnce : deletes tr ≤ 1
  /-- and not less, when both parties are done -/
  deleted : ∀ s, run joinStep {} tr = some s → s.producer = .done → s.consumer = .gone → deletes tr = 1
  untouched : ∀ l e r, tr = l ++ e :: r → e.touches = true → deletes l = 0
  /-- only the parked joiner is resumed, and no second time -/
  resumesParked : ∀ l joiner r, tr = l ++ .resume joiner :: r →
    resumes l = 0 ∧ ∃ s h, run joinStep {} l = some s ∧ s.consumer = .parked h ∧ joiner = some h
  /-- a parked joiner has been resumed when the producer is done -/
  resumed : ∀ s, run joinStep {} tr = some s → s.producer = .done → resumes tr = parks tr
  stored : ∀ l r, tr = l ++ .takeResult :: r → .setResult ∈ l

/-- the consumer does not delete the state while the producer is between setting kFinished and releasing the semaphore
-/
def DeletesAfterRelease (l : List (JoinEvent H)) (e : JoinEvent H) : Prop :=
  e = .consumerDelete → ∀ s ∈ run joinStep ({} : JoinSystem H) l, s.producer ≠ .releaseReady

instance (l : List (JoinEvent H)) (e : JoinEvent H) : Decidable (DeletesAfterRelease l e) :=
  inferInstanceAs (Decidable (_ → ∀ s ∈ run joinStep ({} : JoinSystem H) l, s.producer ≠ .releaseReady))

end Model

/-! ## What a step can do -/

inductive JoinMove {H : Type*} : JoinSystem H → JoinEvent H → JoinSystem H → Prop
  -- the producer
  | setResult (st : JoinState H) (c : ConsumerPc H) :
      JoinMove ⟨st, .running, c⟩ .setResult ⟨{ st with engaged := true }, .complete, c⟩
  | finish (st : JoinState H) (c : ConsumerPc H) (h : st.phase = .kRunningJoinable) :
      JoinMove ⟨st, .complete, c⟩ (.completeCas .kRunningJoinable) ⟨{ st with phase := .kFinished }, .releaseReady, c⟩
  | foundJoiner (st : JoinState H) (c : ConsumerPc H) (h : st.phase = .kRunningJoining) :
      JoinMove ⟨st, .complete, c⟩ (.completeCas .kRunningJoining) ⟨st, .loadJoiner, c⟩
  | foundOther (st : JoinState H) (c : ConsumerPc H) (h : st.phase ≠ .kRunningJoinable)
      (h' : st.phase ≠ .kRunningJoining) :
      JoinMove ⟨st, .complete, c⟩ (.completeCas st.phase) ⟨st, .delete, c⟩
  | loadJoiner (st : JoinState H) (c : ConsumerPc H) :
      JoinMove ⟨st, .loadJoiner, c⟩ (.loadJoiner st.joiner) ⟨st, .storeZombie st.joiner, c⟩
  | storeZombie (st : JoinState H) (joiner : Option H) (c : ConsumerPc H) :
      JoinMove ⟨st, .storeZombie joiner, c⟩ .storeZombie ⟨{ st with phase := .kZombie }, .releaseParked joiner, c⟩
  | releaseReady (st : JoinState H) (c : ConsumerPc H) :
      JoinMove ⟨st, .releaseReady, c⟩ .readyRelease ⟨{ st with ready := st.ready + 1 }, .done, c⟩
  | releaseParked (st : JoinState H) (joiner : Option H) (c : ConsumerPc H) :
      JoinMove ⟨st, .releaseParked joiner, c⟩ .readyRelease ⟨{ st with ready := st.ready + 1 }, .resume joiner, c⟩
  | resume (st : JoinState H) (h : H) : JoinMove ⟨st, .resume (some h), .parked h⟩ (.resume (some h)) ⟨st, .done, .take⟩
  | resumeOther (st : JoinState H) (joiner : Option H) (c : ConsumerPc H) (h : joiner.map .parked ≠ some c) :
      JoinMove ⟨st, .resume joiner, c⟩ (.resume joiner) ⟨st, .done, c⟩
  | producerDelete (st : JoinState H) (c : ConsumerPc H) : JoinMove ⟨st, .delete, c⟩ .producerDelete ⟨st, .done, c⟩
  -- the consumer
  | finished (st : JoinState H) (p : ProducerPc H) (h : st.phase = .kFinished) :
      JoinMove ⟨st, p, .holding⟩ (.isFinished .kFinished) ⟨st, p, .take⟩
  | unfinished (st : JoinState H) (p : ProducerPc H) (h : st.phase ≠ .kFinished) :
      JoinMove ⟨st, p, .holding⟩ (.isFinished st.phase) ⟨st, p, .park⟩
  | setJoiner (st : JoinState H) (p : ProducerPc H) (h : H) :
      JoinMove ⟨st, p, .park⟩ (.setJoiner h) ⟨{ st with joiner := some h }, p, .parkCas h⟩
  | park (st : JoinState H) (p : ProducerPc H) (h : H) (hphase : st.phase = .kRunningJoinable) :
      JoinMove ⟨st, p, .parkCas h⟩ (.parkCas .kRunningJoinable) ⟨{ st with phase := .kRunningJoining }, p, .parked h⟩
  | parkLate (st : JoinState H) (p : ProducerPc H) (h : H) (hphase : st.phase ≠ .kRunningJoinable) :
      JoinMove ⟨st, p, .parkCas h⟩ (.parkCas st.phase) ⟨st, p, .clearJoiner⟩
  | clearJoiner (st : JoinState H) (p : ProducerPc H) :
      JoinMove ⟨st, p, .clearJoiner⟩ .clearJoiner ⟨{ st with joiner := none }, p, .take⟩
  | takeResult (st : JoinState H) (p : ProducerPc H) : JoinMove ⟨st, p, .take⟩ .takeResult ⟨st, p, .holding⟩
  | detach (st : JoinState H) (p : ProducerPc H) (h : st.phase = .kRunningJoinable) :
      JoinMove ⟨st, p, .holding⟩ (.releaseCas .kRunningJoinable) ⟨{ st with phase := .kRunningDetached }, p, .gone⟩
  | own (st : JoinState H) (p : ProducerPc H) (h : st.phase ≠ .kRunningJoinable) :
      JoinMove ⟨st, p, .holding⟩ (.releaseCas st.phase) ⟨st, p, .delete⟩
  | consumerDelete (st : JoinState H) (p : ProducerPc H) : JoinMove ⟨st, p, .delete⟩ .consumerDelete ⟨st, p, .gone⟩

section Inversion

variable {H : Type*} [DecidableEq H]

theorem joinStep_move {s t : JoinSystem H} {e : JoinEvent H} (h : joinStep s e = some t) : JoinMove s e t := by
  obtain ⟨st, p, c⟩ := s
  revert h
  fun_cases joinStep ⟨st, p, c⟩ e <;> intro h <;> cases h <;> dsimp only at *
  case case3 hat =>
    obtain ⟨rfl, rfl⟩ := hat
    split_ifs with hjoinable hjoining
    · rw [hjoinable]
      exact .finish st c hjoinable
    · rw [hjoining]
      exact .foundJoiner st c hjoining
    · exact .foundOther st c hjoinable hjoining
  case case5 hat =>
    obtain ⟨rfl, rfl⟩ := hat
    exact .loadJoiner st c
  case case12 joiner hat =>
    subst hat
    split_ifs with hparked
    · obtain ⟨k, rfl, rfl⟩ := map_eq_some_iff.1 hparked
      exact .resume st k
    · exact .resumeOther st joiner c hparked
  case case16 hat =>
    obtain ⟨rfl, rfl⟩ := hat
    split_ifs with hphase
    · rw [hphase]
      exact .finished st p hphase
    · exact .unfinished st p hphase
  case case20 joiner hat =>
    subst hat
    split_ifs with hphase
    · rw [hphase]
      exact .park st p joiner hphase
    · exact .parkLate st p joiner hphase
  case case27 hat =>
    obtain ⟨rfl, rfl⟩ := hat
    split_ifs with hphase
    · rw [hphase]
      exact .detach st p hphase
    · exact .own st p hphase
  all_goals
    subst_vars
    constructor

end Inversion

/-! ## The invariant -/

/-- the program points that go with a phase -/
inductive Agree {H : Type*} : Phase → Option H → ProducerPc H → ConsumerPc H → Prop
  | joinable {joiner : Option H} {p : ProducerPc H} {c : ConsumerPc H} (hp : p = .running ∨ p = .complete)
      (hc : c = .holding ∨ c = .park ∨ ∃ h, c = .parkCas h ∧ joiner = some h) : Agree .kRunningJoinable joiner p c
  | joining {h : H} {p : ProducerPc H}
      (hp : p = .running ∨ p = .complete ∨ p = .loadJoiner ∨ p = .storeZombie (some h)) :
      Agree .kRunningJoining (some h) p (.parked h)
  | detached {joiner : Option H} {p : ProducerPc H} (hp : p = .running ∨ p = .complete ∨ p = .delete ∨ p = .done) :
      Agree .kRunningDetached joiner p .gone
  /-- once the consumer is gone the producer is done: this is what the condition gives -/
  | finished {joiner : Option H} {p : ProducerPc H} {c : ConsumerPc H} (hp : p = .releaseReady ∨ p = .done)
      (hc : ∀ h, c ≠ .parked h) (hgone : c = .gone → p = .done) : Agree .kFinished joiner p c
  | zombie {joiner : Option H} {h : H} {p : ProducerPc H} (hp : p = .releaseParked (some h) ∨ p = .resume (some h)) :
      Agree .kZombie joiner p (.parked h)
  | joined {joiner : Option H} {c : ConsumerPc H} (hc : ∀ h, c ≠ .parked h) : Agree .kZombie joiner .done c

section Invariant

variable {H : Type*}

variable {p : ProducerPc H} {c c' : ConsumerPc H} {joiner : Option H} {phase : Phase}

/-- after the producer has finished, the consumer moves alone: it may go anywhere but into the parked state -/
theorem Agree.settled {joiner' : Option H} (h : Agree phase joiner p c) (hphase : phase = .kFinished ∨ phase = .kZombie)
    (hc : ∀ k, c ≠ .parked k) (hc' : ∀ k, c' ≠ .parked k) (hgone : c' = .gone → p = .done) :
      Agree phase joiner' p c' := by
  cases h with
  | finished hp _ _ => exact .finished hp hc' hgone
  | joined _ => exact .joined hc'
  | zombie _ => exact absurd rfl (hc _)
  | _ => simp at hphase

theorem Agree.phase_of_ne (h : Agree phase joiner p c) (hc : ∀ k, c ≠ .parked k) (hgone : c ≠ .gone)
    (hphase : phase ≠ .kRunningJoinable) :
    phase = .kFinished ∨ phase = .kZombie := by
  cases h with
  | joinable => exact absurd rfl hphase
  | joining => exact absurd rfl (hc _)
  | detached => exact absurd rfl hgone
  | finished => exact .inl rfl
  | zombie => exact .inr rfl
  | joined => exact .inr rfl

variable [DecidableEq H] {l : List (JoinEvent H)} {s t : JoinSystem H} {e : JoinEvent H}

def deletesAt (s : JoinSystem H) : ℕ :=
  match s.state.phase with
  | .kRunningDetached => if s.producer = .done then 1 else 0
  | .kFinished | .kZombie => if s.consumer = .gone then 1 else 0
  | _ => 0

def parksAt (s : JoinSystem H) : ℕ := if s.state.phase = .kRunningJoining ∨ s.state.phase = .kZombie then 1 else 0

def resumesAt (s : JoinSystem H) : ℕ := if s.state.phase = .kZombie ∧ s.producer = .done then 1 else 0

structure JoinInv (l : List (JoinEvent H)) (s : JoinSystem H) : Prop where
  agree : Agree s.state.phase s.state.joiner s.producer s.consumer
  deleteCount : deletes l = deletesAt s
  parkCount : parks l = parksAt s
  resumeCount : resumes l = resumesAt s
  stored : s.producer = .running ∨ .setResult ∈ l

omit [DecidableEq H] in
theorem deletes_snoc : deletes (l ++ [e]) = deletes l + if e.isDelete then 1 else 0 := by
  simp [deletes, countP_append, countP_cons]

omit [DecidableEq H] in
theorem parks_snoc : parks (l ++ [e]) = parks l + if e.parks then 1 else 0 := by
  simp [parks, countP_append, countP_cons]

omit [DecidableEq H] in
theorem resumes_snoc : resumes (l ++ [e]) = resumes l + if e.resumes then 1 else 0 := by
  simp [resumes, countP_append, countP_cons]

def Counted (s : JoinSystem H) (e : JoinEvent H) (t : JoinSystem H) : Prop :=
  deletesAt t = deletesAt s + (if e.isDelete then 1 else 0) ∧ parksAt t = parksAt s + (if e.parks then 1 else 0) ∧
    resumesAt t = resumesAt s + if e.resumes then 1 else 0

open JoinEvent

theorem JoinMove.producer_agree {st st' : JoinState H} {p' : ProducerPc H} (hmove : JoinMove ⟨st, p, c⟩ e ⟨st', p', c'⟩)
    (hp : p ≠ p') (h : Agree st.phase st.joiner p c) :
    Agree st'.phase st'.joiner p' c' ∧ Counted ⟨st, p, c⟩ e ⟨st', p', c'⟩ := by
  obtain ⟨phase, joiner, engaged, ready⟩ := st
  cases hmove with
  | setResult =>
    cases h with
    | joinable _ hc => exact ⟨.joinable (.inr rfl) hc, rfl, rfl, rfl⟩
    | joining _ => exact ⟨.joining (.inr (.inl rfl)), rfl, rfl, rfl⟩
    | detached _ => exact ⟨.detached (.inr (.inl rfl)), rfl, rfl, rfl⟩
    | _ => simp_all
  | finish _ _ hphase =>
    cases h with
    | joinable _ hc =>
      have hnot : c ≠ .gone ∧ ∀ k, c ≠ .parked k := by rcases hc with rfl | rfl | ⟨k, rfl, -⟩ <;> simp
      refine ⟨.finished (.inl rfl) hnot.2 fun hc => absurd hc hnot.1, ?_, rfl, rfl⟩
      simp [deletesAt, hnot.1, isDelete]
    | _ => cases hphase
  | foundJoiner _ _ hphase =>
    cases h with
    | joining _ => exact ⟨.joining (.inr (.inr (.inl rfl))), rfl, rfl, rfl⟩
    | _ => cases hphase
  | foundOther _ _ hjoinable hjoining =>
    cases h with
    | detached _ => exact ⟨.detached (.inr (.inr (.inl rfl))), rfl, rfl, rfl⟩
    | _ => simp_all
  | loadJoiner =>
    cases h with
    | joining _ => exact ⟨.joining (.inr (.inr (.inr rfl))), rfl, rfl, rfl⟩
    | _ => simp_all
  | storeZombie _ joiner' =>
    cases h with
    | joining hp =>
      obtain rfl : joiner' = some _ := by simpa using hp
      exact ⟨.zombie (.inl rfl), rfl, rfl, rfl⟩
    | _ => simp_all
  | releaseReady =>
    cases h with
    | finished _ hc _ => exact ⟨.finished (.inr rfl) hc fun _ => rfl, rfl, rfl, rfl⟩
    | _ => simp_all
  | releaseParked _ joiner' =>
    cases h with
    | zombie hp =>
      obtain rfl : joiner' = some _ := by simpa using hp
      exact ⟨.zombie (.inr rfl), rfl, rfl, rfl⟩
    | _ => simp_all
  | resume _ k =>
    cases h with
    | zombie _ => exact ⟨.joined (by simp), rfl, rfl, rfl⟩
    | _ => simp_all
  | resumeOther _ joiner' _ hother =>
    cases h with
    | zombie hp =>
      obtain rfl : joiner' = some _ := by simpa using hp
      exact absurd rfl hother
    | _ => simp_all
  | producerDelete =>
    cases h with
    | detached _ => exact ⟨.detached (.inr (.inr (.inr rfl))), rfl, rfl, rfl⟩
    | _ => simp_all
  | _ => exact absurd rfl hp

omit [DecidableEq H] in
theorem parks_parkCas (h : phase ≠ .kRunningJoinable) : (parkCas (H := H) phase).parks = false := by
  cases phase with
  | kRunningJoinable => exact absurd rfl h
  | _ => rfl

theorem JoinMove.consumer_agree {st st' : JoinState H} (hmove : JoinMove ⟨st, p, c⟩ e ⟨st', p, c'⟩)
    (h : Agree st.phase st.joiner p c) (hrel : e = .consumerDelete → p ≠ .releaseReady) :
    Agree st'.phase st'.joiner p c' ∧ Counted ⟨st, p, c⟩ e ⟨st', p, c'⟩ := by
  -- the consumer moves after the producer has finished
  have hsettled : st.phase ≠ .kRunningJoinable → (∀ k, c ≠ .parked k) ∧ c ≠ .gone ∧ (∀ k, c' ≠ .parked k) →
      st'.phase = st.phase → (c' = .gone → p = .done) →
      e.parks = false ∧ e.resumes = false ∧ (e.isDelete = true ↔ c' = .gone) →
      Agree st'.phase st'.joiner p c' ∧ Counted ⟨st, p, c⟩ e ⟨st', p, c'⟩ := by
    rintro hphase ⟨hc, hgone, hc'⟩ heq hgone' ⟨hparks, hresumes, hdelete⟩
    have hlate := h.phase_of_ne hc hgone hphase
    refine ⟨heq ▸ h.settled hlate hc hc' hgone', ?_, ?_, ?_⟩
    · rcases hlate with hlate | hlate <;> simp [deletesAt, heq, hlate, hgone, hdelete]
    · simp [parksAt, heq, hparks]
    · simp [resumesAt, heq, hresumes]
  -- a consumer that clears the joiner, takes the result or deletes has seen that the producer has finished
  have hjoinable : st.phase = .kRunningJoinable → (p = .running ∨ p = .complete) ∧
      (c = .holding ∨ c = .park ∨ ∃ k, c = .parkCas k ∧ st.joiner = some k) := by
    intro hphase
    rw [hphase] at h
    cases h with
    | joinable hp hc => exact ⟨hp, hc⟩
  cases hmove with
  | finished _ _ hphase =>
    exact hsettled (by simp [hphase]) (by simp) rfl (by simp) ⟨rfl, rfl, by simp [isDelete]⟩
  | unfinished =>
    by_cases hphase : st.phase = .kRunningJoinable
    · obtain ⟨hp, -⟩ := hjoinable hphase
      refine ⟨?_, ?_, rfl, rfl⟩
      · rw [hphase]
        exact .joinable hp (.inr (.inl rfl))
      · simp [deletesAt, hphase, isDelete]
    · exact hsettled hphase (by simp) rfl (by simp) ⟨rfl, rfl, by simp [isDelete]⟩
  | setJoiner _ _ k =>
    by_cases hphase : st.phase = .kRunningJoinable
    · obtain ⟨hp, -⟩ := hjoinable hphase
      refine ⟨?_, ?_, rfl, rfl⟩
      · rw [show ({ st with joiner := some k } : JoinState H).phase = .kRunningJoinable from hphase]
        exact .joinable hp (.inr (.inr ⟨k, rfl, rfl⟩))
      · simp [deletesAt, hphase, isDelete]
    · exact hsettled hphase (by simp) rfl (by simp) ⟨rfl, rfl, by simp [isDelete]⟩
  | park _ _ k hphase =>
    obtain ⟨hp, hc⟩ := hjoinable hphase
    have hjoiner : st.joiner = some k := by simpa using hc
    refine ⟨?_, ?_, ?_, ?_⟩
    · show Agree .kRunningJoining st.joiner p (.parked k)
      rw [hjoiner]
      exact .joining (hp.imp_right .inl)
    · simp [deletesAt, hphase, isDelete]
    · simp [parksAt, hphase, JoinEvent.parks]
    · simp [resumesAt, hphase, JoinEvent.resumes]
  | parkLate _ _ k hphase =>
    exact hsettled hphase (by simp) rfl (by simp) ⟨parks_parkCas hphase, rfl, by simp [isDelete]⟩
  | clearJoiner =>
    exact hsettled (fun hphase => by simpa using (hjoinable hphase).2) (by simp) rfl (by simp)
      ⟨rfl, rfl, by simp [isDelete]⟩
  | takeResult =>
    exact hsettled (fun hphase => by simpa using (hjoinable hphase).2) (by simp) rfl (by simp)
      ⟨rfl, rfl, by simp [isDelete]⟩
  | detach _ _ hphase =>
    obtain ⟨hp, -⟩ := hjoinable hphase
    refine ⟨.detached (hp.imp_right .inl), ?_, ?_, ?_⟩
    · rcases hp with rfl | rfl <;> simp [deletesAt, hphase, isDelete]
    · simp [parksAt, hphase, JoinEvent.parks]
    · simp [resumesAt, hphase, JoinEvent.resumes]
  | own _ _ hphase =>
    exact hsettled hphase (by simp) rfl (by simp) ⟨rfl, rfl, by simp [isDelete]⟩
  | consumerDelete =>
    refine hsettled (fun hphase => by simpa using (hjoinable hphase).2) (by simp) rfl (fun _ => ?_)
      ⟨rfl, rfl, by simp [isDelete]⟩
    generalize st.phase = phase, st.joiner = joiner at h
    cases h with
    | finished hp _ _ => exact hp.resolve_left (hrel rfl)
    | joined _ => rfl
    | joinable _ hc => simp at hc

theorem JoinMove.agree (hmove : JoinMove s e t) (h : Agree s.state.phase s.state.joiner s.producer s.consumer)
    (hrel : e = .consumerDelete → s.producer ≠ .releaseReady) :
    Agree t.state.phase t.state.joiner t.producer t.consumer ∧ Counted s e t := by
  obtain ⟨st, p, c⟩ := s
  obtain ⟨st', p', c'⟩ := t
  by_cases hp : p = p'
  · subst hp
    exact hmove.consumer_agree h hrel
  · exact hmove.producer_agree hp h

omit [DecidableEq H] in
theorem JoinMove.stored (hmove : JoinMove s e t) (h : s.producer = .running ∨ .setResult ∈ l) :
    t.producer = .running ∨ .setResult ∈ l ++ [e] := by
  rcases h with hp | hmem
  · cases hmove with
    | setResult => exact .inr (by simp)
    | finished | unfinished | setJoiner | park | parkLate | clearJoiner | takeResult | detach | own | consumerDelete =>
      exact .inl hp
    | _ => cases hp
  · exact .inr (mem_append_left _ hmem)

theorem step_joinInv (inv : JoinInv l s) (hst : joinStep s e = some t)
    (hrel : e = .consumerDelete → s.producer ≠ .releaseReady) : JoinInv (l ++ [e]) t := by
  have hmove := joinStep_move hst
  obtain ⟨hagree, hdel, hpark, hres⟩ := hmove.agree inv.agree hrel
  refine ⟨hagree, ?_, ?_, ?_, hmove.stored inv.stored⟩
  · rw [deletes_snoc, inv.deleteCount, hdel]
  · rw [parks_snoc, inv.parkCount, hpark]
  · rw [resumes_snoc, inv.resumeCount, hres]

theorem run_joinInv : ∀ (l : List (JoinEvent H)) (s : JoinSystem H), run joinStep {} l = some s →
    EachStep DeletesAfterRelease [] l → JoinInv l s :=
  run_induct_of DeletesAfterRelease JoinInv ⟨.joinable (.inl rfl) (.inl rfl), rfl, rfl, rfl, .inl rfl⟩
    fun _ s _ _ hl inv hrel hst =>
    step_joinInv inv hst fun he => hrel he s hl

/-! ## The protocol -/

theorem JoinInv.done_of_deleted (inv : JoinInv l s) (hdel : deletes l ≠ 0) : s.producer = .done ∧
    s.consumer = .gone := by
  have hagree := inv.agree
  rw [inv.deleteCount, deletesAt] at hdel
  obtain ⟨⟨phase, joiner, engaged, ready⟩, p, c⟩ := s
  cases hagree with
  | detached hp =>
    simp at hdel
    exact ⟨hdel, rfl⟩
  | finished _ _ hgone =>
    simp at hdel
    exact ⟨hgone hdel, hdel⟩
  | joined hc =>
    simp at hdel
    exact ⟨rfl, hdel⟩
  | _ => simp at hdel

omit [DecidableEq H] in
theorem not_joinMove_of_done (hp : s.producer = .done) (hc : s.consumer = .gone) : ¬JoinMove s e t := by
  intro hmove
  cases hmove <;> simp_all

theorem JoinInv.deletes_le (inv : JoinInv l s) : deletes l ≤ 1 := by
  rw [inv.deleteCount, deletesAt]
  split
  · split <;> simp
  · split <;> simp
  · split <;> simp
  · simp

theorem JoinInv.resumes_parked (inv : JoinInv l s) (hmove : JoinMove s (.resume joiner) t) :
    resumes l = 0 ∧ ∃ h, s.consumer = .parked h ∧ joiner = some h := by
  have hagree := inv.agree
  have hres := inv.resumeCount
  obtain ⟨st, p, c⟩ := s
  have hp : p = .resume joiner := by cases hmove <;> rfl
  subst hp
  rw [hres]
  refine ⟨by simp [resumesAt], ?_⟩
  generalize st.phase = phase, st.joiner = joiner' at hagree
  cases hagree with
  | @zombie _ h _ hp =>
    obtain rfl : joiner = some h := by simpa using hp
    exact ⟨h, rfl, rfl⟩
  | _ => simp_all

theorem JoinInv.resumes_eq_parks (inv : JoinInv l s) (hp : s.producer = .done) : resumes l = parks l := by
  have hagree := inv.agree
  rw [inv.resumeCount, inv.parkCount, resumesAt, parksAt]
  obtain ⟨⟨phase, joiner, engaged, ready⟩, p, c⟩ := s
  cases hagree <;> simp_all

theorem JoinInv.stored_of_take (inv : JoinInv l s) (hc : s.consumer = .take) : .setResult ∈ l := by
  have hagree := inv.agree
  refine inv.stored.resolve_left fun hp => ?_
  rw [hp, hc] at hagree
  generalize s.state.phase = phase, s.state.joiner = joiner at hagree
  cases hagree <;> simp_all

/-- **The join protocol**, in every run in which the consumer does not delete the state between the producer's exchange
to kFinished and its release of the semaphore. -/
theorem join_protocol {tr : List (JoinEvent H)} (hrun : run joinStep {} tr = some s)
    (hrel : EachStep DeletesAfterRelease [] tr) : JoinProtocol tr := by
  have inv := run_joinInv tr s hrun hrel
  -- the state in which an event of the run happened
  have hat : ∀ l e r, tr = l ++ e :: r → ∃ u v, run joinStep {} l = some u ∧ JoinInv l u ∧ JoinMove u e v := by
    rintro l e r rfl
    obtain ⟨u, hu, hrest⟩ := run_append_some hrun
    obtain ⟨v, hv, -⟩ := bind_eq_some_iff.1 hrest
    exact ⟨u, v, hu, run_joinInv l u hu (eachStep_append.1 hrel).1, joinStep_move hv⟩
  refine ⟨inv.deletes_le, ?_, ?_, ?_, ?_, ?_⟩
  · intro u hu hp hc
    obtain rfl := some.inj (hrun.symm.trans hu)
    have hagree := inv.agree
    rw [inv.deleteCount, deletesAt]
    rw [hp, hc] at hagree ⊢
    generalize s.state.phase = phase, s.state.joiner = joiner at hagree ⊢
    cases hagree <;> simp_all
  · intro l e r htr _
    obtain ⟨u, v, -, hinv, hmove⟩ := hat l e r htr
    by_contra hdel
    obtain ⟨hp, hc⟩ := hinv.done_of_deleted hdel
    exact not_joinMove_of_done hp hc hmove
  · intro l joiner r htr
    obtain ⟨u, v, hu, hinv, hmove⟩ := hat l _ r htr
    obtain ⟨hres, h, hc, hj⟩ := hinv.resumes_parked hmove
    exact ⟨hres, u, h, hu, hc, hj⟩
  · intro u hu hp
    obtain rfl := some.inj (hrun.symm.trans hu)
    exact inv.resumes_eq_parks hp
  · intro l r htr
    obtain ⟨u, v, -, hinv, hmove⟩ := hat l _ r htr
    refine hinv.stored_of_take ?_
    cases hmove
    rfl

end Invariant

/-! ## Runs of one joiner -/

/-- the joiner is parked, the task finishes, the joiner is resumed and releases the handle -/
def parkedRun : List (JoinEvent ℕ) :=
  [.isFinished .kRunningJoinable, .setJoiner 7, .parkCas .kRunningJoinable, .setResult, .completeCas .kRunningJoining,
   .loadJoiner (some 7), .storeZombie, .readyRelease, .resume (some 7), .takeResult, .releaseCas .kZombie,
     .consumerDelete]

theorem join_protocol_parkedRun : JoinProtocol parkedRun ∧ deletes parkedRun = 1 ∧ resumes parkedRun = 1 := by
  have hsome : (run joinStep {} parkedRun).isSome = true := by decide
  obtain ⟨s, hs⟩ := isSome_iff_exists.1 hsome
  exact ⟨join_protocol hs (by decide), by decide, by decide⟩

/-- the producer sets kFinished; before it releases the semaphore, the consumer sees kFinished, takes the result,
releases the handle and deletes the state -/
def deletedRun : List (JoinEvent ℕ) :=
  [.setResult, .completeCas .kRunningJoinable, .isFinished .kFinished, .takeResult, .releaseCas .kFinished,
    .consumerDelete]

/-- **The semaphore of a deleted state is released.** -/
theorem ready_released_after_delete : (run joinStep {} (deletedRun ++ [.readyRelease])).isSome = true ∧
    deletes deletedRun = 1 ∧ ¬JoinProtocol (deletedRun ++ [.readyRelease]) := by
  refine ⟨by decide, by decide, fun h => ?_⟩
  have hzero := h.untouched deletedRun .readyRelease [] rfl rfl
  exact absurd hzero (by decide)

end Coropact.Coro
