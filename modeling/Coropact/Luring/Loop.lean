/-
Submitting and completing operations on an io_uring loop (`include/coropact/luring/loop.h`, `src/luring/loop.cc`).

`SubmitOp` prepares an entry of the submission queue, after a flush if the queue is full. `FlushSubmit` submits until
nothing is pending; each submit is answered by the kernel with how many of the prepared entries it accepted, in their
order, or with an error. An accepted entry completes once. The loop's own wake poll is an entry like the others: it is
armed at the start and again when it completes. `accepted` holds the entries that have not completed, `batches` what
each submit accepted; the loop itself has only the counters and flags.

`PendingSubmitCount` and `InflightCount` take the wake poll out of the counters through two flags. The flags change
together as soon as a submit accepts anything, whether or not the wake poll is among what was accepted.
-/
import Coropact.Core.Errno
import Coropact.Core.Machine

namespace Coropact.Luring

open Coropact.Machine List Option

/-! ## Model -/

/-- an entry: the operation, `none` for the wake poll, and IOSQE_IO_LINK -/
structure Sqe (Op : Type*) where
  op : Option Op
  link : Bool := false
deriving DecidableEq, Repr

structure LUringLoop (Op : Type*) where
  entries : ℕ
  prepared : List (Sqe Op) := []
  accepted : List (Sqe Op) := []
  batches : List (List (Sqe Op)) := []
  pendingSubmit : ℕ := 0
  inflight : ℕ := 0
  wakePending : Bool := false
  wakeInflight : Bool := false
  quit : Bool := false
deriving DecidableEq, Repr

inductive SubmitAnswer where
  | error (errno : ℕ)
  | submitted (n : ℕ)
deriving DecidableEq, Repr

section Model

variable {Op : Type*}

/-- the kernel accepts the first `n` prepared entries -/
def LUringLoop.accept (l : LUringLoop Op) (n : ℕ) : LUringLoop Op :=
  let taken := min n l.pendingSubmit
  { l with
    prepared := l.prepared.drop n
    accepted := l.accepted ++ l.prepared.take n
    batches := l.batches ++ [l.prepared.take n]
    pendingSubmit := l.pendingSubmit - taken
    inflight := l.inflight + taken
    wakePending := if l.wakePending ∧ 0 < taken then false else l.wakePending
    wakeInflight := if l.wakePending ∧ 0 < taken then true else l.wakeInflight }

/-- the answers are those of the submits of this flush, in order; `none` if they are not -/
def LUringLoop.flushSubmit (l : LUringLoop Op) : List SubmitAnswer → Option (LUringLoop Op × Except ℕ Unit)
  | [] => if l.pendingSubmit = 0 then some (l, .ok ()) else none
  | answer :: rest =>
    if l.pendingSubmit = 0 then none
    else match answer with
      | .error errno => if rest = [] then some (l, .error errno) else none
      | .submitted 0 => if rest = [] then some (l, .error EAGAIN) else none
      | .submitted (n + 1) => if n < l.prepared.length then (l.accept (n + 1)).flushSubmit rest else none

/-- `GetSqe` gives an entry while the queue is not full -/
def LUringLoop.hasSqe (l : LUringLoop Op) : Prop := l.prepared.length < l.entries

instance (l : LUringLoop Op) : Decidable l.hasSqe := inferInstanceAs (Decidable (_ < _))

def LUringLoop.prepare (l : LUringLoop Op) (sqe : Sqe Op) : LUringLoop Op :=
  { l with prepared := l.prepared ++ [sqe], pendingSubmit := l.pendingSubmit + 1 }

def LUringLoop.submitOp (l : LUringLoop Op) (sqe : Sqe Op) (answers : List SubmitAnswer) :
    Option (LUringLoop Op × Except ℕ Unit) :=
  if l.hasSqe then
    if answers = [] then some (l.prepare sqe, .ok ()) else none
  else
    match l.flushSubmit answers with
    | none => none
    | some (l, .error errno) => some (l, .error errno)
    | some (l, .ok _) => if l.hasSqe then some (l.prepare sqe, .ok ()) else some (l, .error ENOSPC)

def LUringLoop.armWakePoll (l : LUringLoop Op) (answers : List SubmitAnswer) :
    Option (LUringLoop Op × Except ℕ Unit) :=
  match l.submitOp ⟨none, false⟩ answers with
  | some (l, .ok _) => some ({ l with wakePending := true }, .ok ())
  | other => other

/-- `HandleCqe`, of an entry that was accepted; the completion of an operation may submit others, as events of their own
-/
def LUringLoop.handleCqe [DecidableEq Op] (l : LUringLoop Op) (sqe : Sqe Op) (answers : List SubmitAnswer) :
    Option (LUringLoop Op) :=
  if sqe ∈ l.accepted then
    let l := { l with accepted := l.accepted.erase sqe, inflight := l.inflight - 1 }
    match sqe.op with
    | some _ => if answers = [] then some l else none
    | none =>
      let l := { l with wakeInflight := false }
      if l.quit then
        if answers = [] then some l else none
      else
        match l.armWakePoll answers with
        | none => none
        | some (l, .ok _) => some l
        | some (l, .error _) => some { l with quit := true }
  else none

inductive LoopEvent (Op : Type*) where
  | submitOp (op : Op) (link : Bool) (answers : List SubmitAnswer)
  | flush (answers : List SubmitAnswer)
  | complete (sqe : Sqe Op) (answers : List SubmitAnswer)
  /-- a message from another ring, which is no operation of this one -/
  | notification
  | quit
deriving DecidableEq, Repr

def loopStep [DecidableEq Op] (l : LUringLoop Op) : LoopEvent Op → Option (LUringLoop Op)
  | .submitOp op link answers => (l.submitOp ⟨some op, link⟩ answers).map Prod.fst
  | .flush answers => (l.flushSubmit answers).map Prod.fst
  | .complete sqe answers => l.handleCqe sqe answers
  | .notification => some l
  | .quit => some { l with quit := true }

/-- after `Init`: the wake poll is prepared -/
def loopInit (entries : ℕ) : LUringLoop Op :=
  { entries := entries, prepared := [⟨none, false⟩], pendingSubmit := 1, wakePending := true }

/-- as an integer; the source's unsigned count wraps where this is negative -/
def LUringLoop.pendingSubmitCount (l : LUringLoop Op) : ℤ := l.pendingSubmit - if l.wakePending then 1 else 0

def LUringLoop.inflightCount (l : LUringLoop Op) : ℤ := l.inflight - if l.wakeInflight then 1 else 0

def LUringLoop.isDrained (l : LUringLoop Op) : Prop := l.pendingSubmitCount = 0 ∧ l.inflightCount = 0

/-- the loop condition of `RunUntilIdle`; an unsigned count is positive if it is not zero -/
def LUringLoop.staysBusy (l : LUringLoop Op) (hasReadyWork : Bool) : Prop :=
  hasReadyWork = true ∨ l.pendingSubmitCount ≠ 0 ∨ l.inflightCount ≠ 0

/-! ## Statements -/

def users (sqes : List (Sqe Op)) : ℕ := sqes.countP fun x => x.op.isSome

def wakes (sqes : List (Sqe Op)) : ℕ := sqes.countP fun x => x.op.isNone

structure Accounting (l : LUringLoop Op) : Prop where
  pending : l.pendingSubmitCount = users l.prepared
  inflight : l.inflightCount = users l.accepted
  drained : l.isDrained ↔ (∀ x ∈ l.prepared, x.op = none) ∧ ∀ x ∈ l.accepted, x.op = none
  idle : ∀ hasReadyWork, ¬l.staysBusy hasReadyWork ↔
    hasReadyWork = false ∧ (∀ x ∈ l.prepared, x.op = none) ∧ ∀ x ∈ l.accepted, x.op = none

def acceptedBy (answers : List SubmitAnswer) : ℕ :=
  (answers.map fun a => match a with | .submitted n => n | .error _ => 0).sum

def LoopEvent.answers : LoopEvent Op → List SubmitAnswer
  | .submitOp _ _ answers | .flush answers | .complete _ answers => answers
  | _ => []

/-- a flush of which the kernel accepts something does not leave the wake poll in the queue -/
def LUringLoop.WakeAccepted (l : LUringLoop Op) (e : LoopEvent Op) : Prop :=
  0 < acceptedBy e.answers → wakes (l.prepared.drop (acceptedBy e.answers)) = 0

instance (l : LUringLoop Op) (e : LoopEvent Op) : Decidable (l.WakeAccepted e) :=
  inferInstanceAs (Decidable (_ → _))

end Model

/-! ## What a flush does -/

section Flush

variable {Op : Type*} {l l' : LUringLoop Op} {answers : List SubmitAnswer} {result : Except ℕ Unit}

/-- the loop after a flush of which `n` entries were accepted, up to the batches -/
structure Flushed (l : LUringLoop Op) (n : ℕ) (l' : LUringLoop Op) : Prop where
  entries : l'.entries = l.entries
  prepared : l'.prepared = l.prepared.drop n
  accepted : l'.accepted = l.accepted ++ l.prepared.take n
  pendingSubmit : l'.pendingSubmit = l.pendingSubmit - n
  inflight : l'.inflight = l.inflight + n
  wakePending : l'.wakePending = if 0 < n then false else l.wakePending
  wakeInflight : l'.wakeInflight = if 0 < n ∧ l.wakePending then true else l.wakeInflight
  quit : l'.quit = l.quit
  le : n ≤ l.prepared.length

theorem Flushed.refl (l : LUringLoop Op) : Flushed l 0 l := by
  constructor <;> simp

theorem flushed_accept {n : ℕ} (hpending : l.pendingSubmit = l.prepared.length) (hn : 0 < n)
    (hle : n ≤ l.prepared.length) : Flushed l n (l.accept n) := by
  have hmin : min n l.pendingSubmit = n := by omega
  constructor <;> simp [LUringLoop.accept, hmin, hn, hle]

theorem Flushed.trans {l'' : LUringLoop Op} {n m : ℕ} (h : Flushed l n l') (h' : Flushed l' m l'') :
    Flushed l (n + m) l'' where
  entries := h'.entries.trans h.entries
  prepared := by rw [h'.prepared, h.prepared, drop_drop]
  accepted := by rw [h'.accepted, h.accepted, h.prepared, append_assoc, ← take_add]
  pendingSubmit := by
    have := h.pendingSubmit
    have := h'.pendingSubmit
    omega
  inflight := by
    have := h.inflight
    have := h'.inflight
    omega
  wakePending := by
    rw [h'.wakePending, h.wakePending]
    split_ifs <;> first | rfl | omega
  wakeInflight := by
    rw [h'.wakeInflight, h.wakePending, h.wakeInflight]
    by_cases hn : 0 < n
    · simp [hn]
    · obtain rfl : n = 0 := by omega
      simp
  quit := h'.quit.trans h.quit
  le := by
    have hle := h.le
    have hle' := h'.le
    rw [h.prepared, length_drop] at hle'
    omega

theorem acceptedBy_cons (a : SubmitAnswer) (rest : List SubmitAnswer) :
    acceptedBy (a :: rest) = (match a with | .submitted n => n | .error _ => 0) + acceptedBy rest := by
  cases a <;> simp [acceptedBy]

/-- what holds before a flush, with the answers it will get, and is kept by each submit that accepts something, holds
after it, with answers that accept nothing -/
theorem flushSubmit_induct {P : LUringLoop Op → List SubmitAnswer → Prop}
    (haccept : ∀ l n rest, n < l.prepared.length → P l (.submitted (n + 1) :: rest) → P (l.accept (n + 1)) rest)
    (h : l.flushSubmit answers = some (l', result)) (hP : P l answers) :
    ∃ rest, P l' rest ∧ acceptedBy rest = 0 ∧ (result = .ok () → l'.pendingSubmit = 0) := by
  fun_induction LUringLoop.flushSubmit l answers <;> try cases h
  case case1 hzero => exact ⟨[], hP, rfl, fun _ => hzero⟩
  case case4 | case6 => exact ⟨_, hP, rfl, fun hok => by cases hok⟩
  case case8 rest _ n hlt ih => exact ih h (haccept _ n rest hlt hP)

/-- **A flush** accepts a number of entries from the front; it succeeds when nothing is left. -/
theorem flushSubmit_out (hpending : l.pendingSubmit = l.prepared.length)
    (h : l.flushSubmit answers = some (l', result)) :
    Flushed l (acceptedBy answers) l' ∧ (result = .ok () → l'.prepared = []) := by
  let P (l₁ : LUringLoop Op) (rest : List SubmitAnswer) : Prop :=
    l₁.pendingSubmit = l₁.prepared.length ∧ ∃ n, n + acceptedBy rest = acceptedBy answers ∧ Flushed l n l₁
  have haccept : ∀ l₁ n rest, n < l₁.prepared.length → P l₁ (.submitted (n + 1) :: rest) →
      P (l₁.accept (n + 1)) rest := by
    rintro l₁ n rest hlt ⟨hlen, m, hsum, hflushed⟩
    have hnext := flushed_accept hlen (Nat.succ_pos n) hlt
    refine ⟨?_, m + (n + 1), ?_, hflushed.trans hnext⟩
    · rw [hnext.pendingSubmit, hnext.prepared, length_drop, hlen]
    · rw [acceptedBy_cons] at hsum
      dsimp only at hsum
      omega
  obtain ⟨rest, ⟨hlen, n, hsum, hflushed⟩, hzero, hok⟩ :=
    flushSubmit_induct haccept h ⟨hpending, 0, Nat.zero_add _, .refl l⟩
  rw [hzero, Nat.add_zero] at hsum
  exact ⟨hsum ▸ hflushed, fun hres => length_eq_zero_iff.1 (hlen.symm.trans (hok hres))⟩

theorem submitOp_out {sqe : Sqe Op} (h : l.submitOp sqe answers = some (l', result)) :
    ∃ l₁, ((l.hasSqe ∧ answers = [] ∧ l₁ = l) ∨
        (¬l.hasSqe ∧ ∃ flushed, l.flushSubmit answers = some (l₁, flushed) ∧ (result = .ok () → flushed = .ok ()))) ∧
      ((result = .ok () ∧ l₁.hasSqe ∧ l' = l₁.prepare sqe) ∨ ((∃ errno, result = .error errno) ∧ l' = l₁)) := by
  revert h
  fun_cases LUringLoop.submitOp l sqe answers <;> intro h <;> cases h
  case case1 hroom hans => exact ⟨l, .inl ⟨hroom, hans, rfl⟩, .inl ⟨rfl, hroom, rfl⟩⟩
  case case4 hfull errno hflush => exact ⟨_, .inr ⟨hfull, _, hflush, id⟩, .inr ⟨⟨errno, rfl⟩, rfl⟩⟩
  case case5 hfull _ _ hflush hroom => exact ⟨_, .inr ⟨hfull, _, hflush, id⟩, .inl ⟨rfl, hroom, rfl⟩⟩
  case case6 hfull _ hflush _ => exact ⟨_, .inr ⟨hfull, _, hflush, fun _ => rfl⟩, .inr ⟨⟨ENOSPC, rfl⟩, rfl⟩⟩

theorem armWakePoll_out (h : l.armWakePoll answers = some (l', result)) :
    ∃ l₁, l.submitOp ⟨none, false⟩ answers = some (l₁, result) ∧
      ((result = .ok () ∧ l' = { l₁ with wakePending := true }) ∨ ((∃ errno, result = .error errno) ∧ l' = l₁)) := by
  revert h
  fun_cases LUringLoop.armWakePoll l answers <;> intro h
  case case1 l₁ _ hsubmit =>
    cases h
    exact ⟨l₁, hsubmit, .inl ⟨rfl, rfl⟩⟩
  case case2 hother =>
    refine ⟨l', h, .inr ⟨?_, rfl⟩⟩
    cases result with
    | error errno => exact ⟨errno, rfl⟩
    | ok _ => exact absurd h (hother _ _)

theorem handleCqe_out [DecidableEq Op] {sqe : Sqe Op} (h : l.handleCqe sqe answers = some l') :
    sqe ∈ l.accepted ∧
      ((sqe.op.isSome ∧ answers = [] ∧ l' = { l with accepted := l.accepted.erase sqe, inflight := l.inflight - 1 }) ∨
       (sqe.op.isNone ∧ ∃ l₁,
         l₁ = { l with accepted := l.accepted.erase sqe, inflight := l.inflight - 1, wakeInflight := false } ∧
         ((l.quit = true ∧ answers = [] ∧ l' = l₁) ∨
          (∃ l₂ result, l₁.armWakePoll answers = some (l₂, result) ∧ (l' = l₂ ∨ l' = { l₂ with quit := true }))))) := by
  revert h
  fun_cases LUringLoop.handleCqe l sqe answers <;> intro h <;> first | cases h | obtain rfl := some.inj h
  case case1 hmem _ _ hop hans => exact ⟨hmem, .inl ⟨by rw [hop]; rfl, hans, rfl⟩⟩
  all_goals refine ⟨‹_›, .inr ⟨by rw [‹sqe.op = none›]; rfl, _, rfl, ?_⟩⟩
  case case3 hquit hans => exact .inl ⟨hquit, hans, rfl⟩
  case case6 harm => exact .inr ⟨_, _, harm, .inl rfl⟩
  case case7 harm => exact .inr ⟨_, _, harm, .inr rfl⟩

end Flush

/-! ## The counters -/

section Accounting

variable {Op : Type*} {l l' : LUringLoop Op} {answers : List SubmitAnswer} {result : Except ℕ Unit}

structure LoopInv (l : LUringLoop Op) : Prop where
  pendingSubmit : l.pendingSubmit = l.prepared.length
  inflight : l.inflight = l.accepted.length
  wakePending : wakes l.prepared = if l.wakePending then 1 else 0
  wakeInflight : wakes l.accepted = if l.wakeInflight then 1 else 0
  one : wakes l.prepared + wakes l.accepted ≤ 1

theorem wakes_append (a b : List (Sqe Op)) : wakes (a ++ b) = wakes a + wakes b := countP_append ..

theorem users_add_wakes (sqes : List (Sqe Op)) : users sqes + wakes sqes = sqes.length := by
  rw [users, wakes, length_eq_countP_add_countP fun x => x.op.isSome]
  congr 1
  exact countP_congr fun x _ => by cases x.op <;> simp

theorem users_eq_zero_iff {sqes : List (Sqe Op)} : users sqes = 0 ↔ ∀ x ∈ sqes, x.op = none := by
  rw [users, countP_eq_zero]
  simp

theorem LoopInv.flush {n : ℕ} (inv : LoopInv l) (hflush : Flushed l n l')
    (hwake : 0 < n → wakes (l.prepared.drop n) = 0) : LoopInv l' := by
  have hsplit : wakes (l.prepared.take n) + wakes (l.prepared.drop n) = wakes l.prepared := by
    rw [← wakes_append, take_append_drop]
  have hle := hflush.le
  have hone := inv.one
  have hpre := inv.wakePending
  have hacc := inv.wakeInflight
  refine ⟨?_, ?_, ?_, ?_, ?_⟩
  · rw [hflush.pendingSubmit, hflush.prepared, length_drop, inv.pendingSubmit]
  · rw [hflush.inflight, hflush.accepted, length_append, length_take, inv.inflight]
    omega
  · rw [hflush.prepared, hflush.wakePending]
    by_cases hn : 0 < n
    · rw [hwake hn, if_pos hn]
      rfl
    · obtain rfl : n = 0 := by omega
      simpa using hpre
  · rw [hflush.accepted, hflush.wakeInflight, wakes_append]
    by_cases hn : 0 < n
    · have hleft := hwake hn
      cases hp : l.wakePending <;> cases hi : l.wakeInflight <;> simp_all
    · obtain rfl : n = 0 := by omega
      simpa [wakes] using hacc
  · rw [hflush.prepared, hflush.accepted, wakes_append]
    omega

theorem LoopInv.prepare (inv : LoopInv l) {sqe : Sqe Op} (wake : Bool) (hsqe : sqe.op.isNone = wake)
    (hnone : wake = true → wakes l.prepared + wakes l.accepted = 0) :
    LoopInv { l.prepare sqe with wakePending := wake || l.wakePending } := by
  have hone : wakes [sqe] = if wake then 1 else 0 := by
    simp [wakes, countP_cons, hsqe]
  have hadd : wakes (l.prepared ++ [sqe]) = wakes l.prepared + if wake then 1 else 0 := by rw [wakes_append, hone]
  have hle := inv.one
  refine ⟨?_, inv.inflight, ?_, inv.wakeInflight, ?_⟩
  · simp [LUringLoop.prepare, inv.pendingSubmit]
  · show wakes (l.prepared ++ [sqe]) = _
    rw [hadd]
    cases wake with
    | false => simpa using inv.wakePending
    | true =>
      have := hnone rfl
      simp
      omega
  · show wakes (l.prepared ++ [sqe]) + wakes l.accepted ≤ 1
    rw [hadd]
    cases wake with
    | false => simpa using hle
    | true =>
      have := hnone rfl
      simp
      omega

theorem LoopInv.submit (inv : LoopInv l) {sqe : Sqe Op} (h : l.submitOp sqe answers = some (l', result))
    (hwake : 0 < acceptedBy answers → wakes (l.prepared.drop (acceptedBy answers)) = 0) :
    ∃ l₁, LoopInv l₁ ∧ wakes l₁.prepared + wakes l₁.accepted = wakes l.prepared + wakes l.accepted ∧
      ((result = .ok () ∧ l' = l₁.prepare sqe) ∨ ((∃ errno, result = .error errno) ∧ l' = l₁)) := by
  obtain ⟨l₁, hbefore, hafter⟩ := submitOp_out h
  refine ⟨l₁, ?_, ?_, hafter.imp_left fun ⟨hok, _, hl'⟩ => ⟨hok, hl'⟩⟩
  · rcases hbefore with ⟨-, -, rfl⟩ | ⟨-, flushed, hflush, -⟩
    · exact inv
    · exact inv.flush (flushSubmit_out inv.pendingSubmit hflush).1 hwake
  · rcases hbefore with ⟨-, -, rfl⟩ | ⟨-, flushed, hflush, -⟩
    · rfl
    · have hout := (flushSubmit_out inv.pendingSubmit hflush).1
      rw [hout.prepared, hout.accepted, wakes_append, Nat.add_comm (wakes l.accepted), ← Nat.add_assoc,
        Nat.add_comm (wakes (List.drop _ _)), ← wakes_append, take_append_drop]

theorem LoopInv.submitUser (inv : LoopInv l) {op : Op} {link : Bool}
    (h : l.submitOp ⟨some op, link⟩ answers = some (l', result))
    (hwake : 0 < acceptedBy answers → wakes (l.prepared.drop (acceptedBy answers)) = 0) : LoopInv l' := by
  obtain ⟨l₁, inv₁, -, ⟨-, rfl⟩ | ⟨-, rfl⟩⟩ := inv.submit h hwake
  · exact inv₁.prepare false rfl (by simp)
  · exact inv₁

theorem LoopInv.armWakePoll (inv : LoopInv l) (hnone : wakes l.prepared + wakes l.accepted = 0)
    (h : l.armWakePoll answers = some (l', result)) : LoopInv l' := by
  have hwake : 0 < acceptedBy answers → wakes (l.prepared.drop (acceptedBy answers)) = 0 := by
    intro _
    have hsplit : wakes (l.prepared.take (acceptedBy answers)) + wakes (l.prepared.drop (acceptedBy answers)) =
        wakes l.prepared := by rw [← wakes_append, take_append_drop]
    omega
  obtain ⟨l₁, hsubmit, harm⟩ := armWakePoll_out h
  obtain ⟨l₀, inv₀, hsame, ⟨hok, rfl⟩ | ⟨⟨errno, herr⟩, rfl⟩⟩ := inv.submit hsubmit hwake
  · rcases harm with ⟨-, rfl⟩ | ⟨⟨errno, herr⟩, -⟩
    · exact inv₀.prepare true rfl fun _ => hsame.trans hnone
    · cases hok.symm.trans herr
  · rcases harm with ⟨hok, -⟩ | ⟨-, rfl⟩
    · cases hok.symm.trans herr
    · exact inv₀

variable [DecidableEq Op]

theorem LoopInv.complete (inv : LoopInv l) {sqe : Sqe Op} (h : l.handleCqe sqe answers = some l') : LoopInv l' := by
  obtain ⟨hmem, hcases⟩ := handleCqe_out h
  have hlen : (l.accepted.erase sqe).length = l.accepted.length - 1 := length_erase_of_mem hmem
  have herase : wakes (l.accepted.erase sqe) = wakes l.accepted - if sqe.op.isNone then 1 else 0 := by
    rw [wakes, wakes, countP_erase]
    simp [hmem]
  have hone := inv.one
  rcases hcases with ⟨huser, -, rfl⟩ | ⟨hwake, l₁, rfl, hcases⟩
  · have hsame : wakes (l.accepted.erase sqe) = wakes l.accepted := by
      rw [herase, isNone_eq_false_iff.2 huser]
      simp
    exact ⟨inv.pendingSubmit, by rw [hlen, inv.inflight], inv.wakePending, hsame.trans inv.wakeInflight,
      by rw [hsame]; exact hone⟩
  · -- the wake poll, which is the only one
    have hpos : 0 < wakes l.accepted := countP_pos_iff.2 ⟨sqe, hmem, hwake⟩
    rw [hwake, if_pos rfl] at herase
    have hnone : wakes l.prepared + wakes (l.accepted.erase sqe) = 0 := by omega
    have inv₁ : LoopInv { l with
        accepted := l.accepted.erase sqe
        inflight := l.inflight - 1
        wakeInflight := false } :=
      ⟨inv.pendingSubmit, by rw [hlen, inv.inflight], inv.wakePending, by dsimp only; simp; omega, by dsimp only; omega⟩
    rcases hcases with ⟨-, -, rfl⟩ | ⟨l₂, result, harm, rfl | rfl⟩
    · exact inv₁
    · exact inv₁.armWakePoll hnone harm
    · have inv₂ := inv₁.armWakePoll hnone harm
      exact ⟨inv₂.pendingSubmit, inv₂.inflight, inv₂.wakePending, inv₂.wakeInflight, inv₂.one⟩

theorem loopStep_inv {e : LoopEvent Op} (inv : LoopInv l) (hwake : l.WakeAccepted e) (h : loopStep l e = some l') :
    LoopInv l' := by
  cases e with
  | submitOp op link answers =>
    obtain ⟨⟨l₁, result⟩, hsubmit, rfl⟩ := map_eq_some_iff.1 h
    exact inv.submitUser hsubmit hwake
  | flush answers =>
    obtain ⟨⟨l₁, result⟩, hflush, rfl⟩ := map_eq_some_iff.1 h
    exact inv.flush (flushSubmit_out inv.pendingSubmit hflush).1 hwake
  | complete sqe answers => exact inv.complete h
  | notification => exact some.inj h ▸ inv
  | quit =>
    obtain rfl := some.inj h
    exact ⟨inv.pendingSubmit, inv.inflight, inv.wakePending, inv.wakeInflight, inv.one⟩

def KeepsWake (entries : ℕ) (tr : List (LoopEvent Op)) (e : LoopEvent Op) : Prop :=
  ∀ l ∈ run loopStep (loopInit entries) tr, l.WakeAccepted e

instance (entries : ℕ) (tr : List (LoopEvent Op)) (e : LoopEvent Op) : Decidable (KeepsWake entries tr e) :=
  inferInstanceAs (Decidable (∀ l ∈ run loopStep (loopInit entries) tr, l.WakeAccepted e))

theorem run_loopInv (entries : ℕ) : ∀ (tr : List (LoopEvent Op)) (l : LUringLoop Op),
    run loopStep (loopInit entries) tr = some l → EachStep (KeepsWake entries) [] tr → LoopInv l :=
  run_induct_of (KeepsWake entries) (fun _ l => LoopInv l) (by constructor <;> simp [loopInit, wakes])
    fun _ l _ _ hl inv hwake hst =>
    loopStep_inv inv (hwake l hl) hst

omit [DecidableEq Op] in
theorem LoopInv.accounting (inv : LoopInv l) : Accounting l := by
  have hpending : l.pendingSubmitCount = users l.prepared := by
    have hsum := users_add_wakes l.prepared
    rw [inv.wakePending, ← inv.pendingSubmit] at hsum
    rw [LUringLoop.pendingSubmitCount, ← hsum]
    split <;> simp
  have hinflight : l.inflightCount = users l.accepted := by
    have hsum := users_add_wakes l.accepted
    rw [inv.wakeInflight, ← inv.inflight] at hsum
    rw [LUringLoop.inflightCount, ← hsum]
    split <;> simp
  have hdrained : l.isDrained ↔ (∀ x ∈ l.prepared, x.op = none) ∧ ∀ x ∈ l.accepted, x.op = none := by
    rw [LUringLoop.isDrained, hpending, hinflight, Int.natCast_eq_zero, Int.natCast_eq_zero, users_eq_zero_iff,
      users_eq_zero_iff]
  refine ⟨hpending, hinflight, hdrained, fun hasReadyWork => ?_⟩
  rw [← hdrained, LUringLoop.staysBusy, LUringLoop.isDrained]
  simp

/-- **The loop's counts are right** in every run in which no flush that gets something accepted leaves the wake poll in
the queue. -/
theorem loop_accounting {entries : ℕ} {tr : List (LoopEvent Op)} (hrun : run loopStep (loopInit entries) tr = some l)
    (hwake : EachStep (KeepsWake entries) [] tr) : Accounting l :=
  (run_loopInv entries tr l hrun hwake).accounting

end Accounting

/-- the wake poll is accepted and fires; it is armed again behind a user operation, and a flush accepts both -/
def wholeRun : List (LoopEvent ℕ) :=
  [.flush [.submitted 1], .submitOp 1 false [], .complete ⟨none, false⟩ [], .flush [.submitted 1, .submitted 1]]

theorem loop_accounting_wholeRun :
    ∃ l, run loopStep (loopInit 8) wholeRun = some l ∧ Accounting l ∧ l.inflightCount = 1 :=
  ⟨_, rfl, loop_accounting (rfl : run loopStep (loopInit 8) wholeRun = some _) (by decide), by decide⟩

/-- the same, but the second submit of the flush fails; then the user operation completes -/
def partialRun : List (LoopEvent ℕ) :=
  [.flush [.submitted 1], .submitOp 1 false [], .complete ⟨none, false⟩ [], .flush [.submitted 1, .error 16],
   .complete ⟨some 1, false⟩ []]

/-- **The count of operations in flight goes below zero.** After the flush that fails the wake poll is still prepared,
but its flag says in flight: a user operation that is prepared no more is counted as prepared, and none as in flight.
When the operation has completed, no user operation is left, and `InflightCount` is -1, which wraps. -/
theorem inflight_wraps :
    (∃ l, run loopStep (loopInit 8) (partialRun.take 4) = some l ∧ l.prepared = [⟨none, false⟩] ∧
      l.accepted = [⟨some 1, false⟩] ∧ l.pendingSubmitCount = 1 ∧ l.inflightCount = 0) ∧
    ∃ l, run loopStep (loopInit 8) partialRun = some l ∧ l.prepared = [⟨none, false⟩] ∧ l.accepted = [] ∧
      l.inflightCount = -1 ∧ ¬l.isDrained := by
  refine ⟨⟨_, rfl, ?_⟩, ⟨_, rfl, ?_⟩⟩
  · decide
  · refine ⟨by decide, by decide, by decide, fun h => ?_⟩
    exact absurd h.2 (by decide)

end Coropact.Luring
