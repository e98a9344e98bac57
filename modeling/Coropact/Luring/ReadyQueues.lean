/-
The ready queues of an io_uring loop (`Schedule`, `ScheduleCompletion` and `RunReady` of `src/luring/loop.cc`).

Works that are ready are in one of two queues, one for works that a completion made ready and one for all others.
`RunReady` makes a turn: it runs works from the front of the queues until both are empty or a budget is used up, at most
so many works, at most so many completion works while there are others, and no further work once so much time has
passed. Completion works come first, unless the other queue is overdue: a queue that is not empty has the time since
when it has not been, and the normal queue is overdue if that was some time ago when the turn starts.

A work that runs may schedule itself and others. The stamp of a queue is reset only when the queue becomes empty. So a
normal queue that never becomes empty is overdue from some time on, for ever: every turn runs normal works only, and a
completion work waits for as long as normal works go on (`ready_queues_starve`).

A step is a call of `Schedule` or `ScheduleCompletion`, by a work or between turns, or a part of `RunReady`: its start,
the choice of a work, the return of the work, the end of the turn. The clock is steady. The depths of the source are the
lengths of the queues. That a work stays at the front of its queue means that no work of that queue is run.

Left out: the statistics.
-/
import Coropact.Core.Machine

namespace Coropact.Luring

open Coropact.Machine List Option

/-! ## Model -/

/-- the options of the loop; times in microseconds -/
structure ReadyOptions where
  maxReadyWorkPerTurn : ℕ := 256
  maxReadyTimePerTurn : ℤ := 50
  maxCompletionWorkPerTurn : ℕ := 64
  completionQueueAgeThreshold : ℤ := 0
  maxUrgentCompletionWorkPerTurn : ℕ := 80
  normalQueueAgeThreshold : ℤ := 5000
deriving DecidableEq, Repr

open ReadyOptions

/-- in nanoseconds; a negative time is zero -/
def toNanoseconds (microseconds : ℤ) : ℕ := microseconds.toNat * 1000

def ReadyOptions.timeBudget (o : ReadyOptions) : ℕ := toNanoseconds o.maxReadyTimePerTurn
def ReadyOptions.completionAge (o : ReadyOptions) : ℕ := toNanoseconds o.completionQueueAgeThreshold
def ReadyOptions.normalAge (o : ReadyOptions) : ℕ := toNanoseconds o.normalQueueAgeThreshold

structure Turn where
  start : ℕ
  normalIsOverdue : Bool
  completionBudget : ℕ
  resumed : ℕ := 0
  completionResumed : ℕ := 0
deriving DecidableEq, Repr

inductive ReadyPc where
  | outside
  | choosing (turn : Turn)
  /-- in `Run` -/
  | working (turn : Turn)
deriving DecidableEq, Repr

structure ReadyQueues (W : Type*) where
  ready : List W := []
  completionReady : List W := []
  readyNonemptySince : ℕ := 0
  completionReadyNonemptySince : ℕ := 0
  pc : ReadyPc := .outside
  clock : ℕ := 0
  normalRan : ℕ := 0
  completionRan : ℕ := 0
deriving DecidableEq, Repr

inductive ReadyEvent (W : Type*) where
  | schedule (work : W) (now : ℕ)
  | scheduleCompletion (work : W) (now : ℕ)
  | runReady (now : ℕ)
  | runWork
  | workReturns (now : ℕ)
  | turnEnds
deriving DecidableEq, Repr

section Model

variable {W : Type*}

namespace ReadyQueues

def schedule (s : ReadyQueues W) (work : W) (now : ℕ) : ReadyQueues W :=
  { s with
    readyNonemptySince := if s.ready.length = 0 then now else s.readyNonemptySince
    ready := s.ready ++ [work]
    clock := now }

def scheduleCompletion (s : ReadyQueues W) (work : W) (now : ℕ) : ReadyQueues W :=
  { s with
    completionReadyNonemptySince := if s.completionReady.length = 0 then now else s.completionReadyNonemptySince
    completionReady := s.completionReady ++ [work]
    clock := now }

/-- `RunReady` up to its loop -/
def startTurn (o : ReadyOptions) (s : ReadyQueues W) (now : ℕ) : Turn :=
  let completionIsUrgent : Bool :=
    0 < s.completionReady.length ∧ o.completionAge ≠ 0 ∧ o.completionAge ≤ now - s.completionReadyNonemptySince
  let normalIsOverdue : Bool := 0 < s.ready.length ∧ o.normalAge ≠ 0 ∧ o.normalAge ≤ now - s.readyNonemptySince
  let useUrgentCompletionBudget := completionIsUrgent && !normalIsOverdue
  { start := now
    normalIsOverdue := normalIsOverdue
    completionBudget :=
      if useUrgentCompletionBudget ∧ o.maxUrgentCompletionWorkPerTurn ≠ 0 then o.maxUrgentCompletionWorkPerTurn
      else o.maxCompletionWorkPerTurn }

def goesOn (o : ReadyOptions) (s : ReadyQueues W) (turn : Turn) : Bool :=
  (!s.ready.isEmpty || !s.completionReady.isEmpty) &&
    (o.maxReadyWorkPerTurn == 0 || turn.resumed < o.maxReadyWorkPerTurn)

/-- `run_completion` -/
def runsCompletion (s : ReadyQueues W) (turn : Turn) : Bool :=
  !s.completionReady.isEmpty &&
    (s.ready.isEmpty || (!turn.normalIsOverdue &&
      (turn.completionBudget == 0 || turn.completionResumed < turn.completionBudget)))

def popCompletion (s : ReadyQueues W) (turn : Turn) : ReadyQueues W :=
  { s with
    completionReady := s.completionReady.tail
    completionReadyNonemptySince := if s.completionReady.tail.length = 0 then 0 else s.completionReadyNonemptySince
    completionRan := s.completionRan + 1
    pc := .working { turn with completionResumed := turn.completionResumed + 1 } }

def popNormal (s : ReadyQueues W) (turn : Turn) : ReadyQueues W :=
  { s with
    ready := s.ready.tail
    readyNonemptySince := if s.ready.tail.length = 0 then 0 else s.readyNonemptySince
    normalRan := s.normalRan + 1
    pc := .working turn }

def runWork (s : ReadyQueues W) (turn : Turn) : ReadyQueues W :=
  if s.runsCompletion turn then s.popCompletion turn else s.popNormal turn

/-- the rest of the round; the turn ends if its time is used up -/
def workReturns (o : ReadyOptions) (s : ReadyQueues W) (turn : Turn) (now : ℕ) : ReadyQueues W :=
  { s with
    clock := now
    pc := if o.timeBudget ≠ 0 ∧ o.timeBudget ≤ now - turn.start then .outside
      else .choosing { turn with resumed := turn.resumed + 1 } }

end ReadyQueues

/-- works are scheduled between turns and by works -/
def ReadyPc.mayCall : ReadyPc → Bool
  | .choosing _ => false
  | _ => true

def readyStep (o : ReadyOptions) (s : ReadyQueues W) : ReadyEvent W → Option (ReadyQueues W)
  | .schedule work now => if s.pc.mayCall ∧ s.clock ≤ now then some (s.schedule work now) else none
  | .scheduleCompletion work now => if s.pc.mayCall ∧ s.clock ≤ now then some (s.scheduleCompletion work now) else none
  | .runReady now =>
    if s.pc = .outside ∧ s.clock ≤ now then some { s with pc := .choosing (s.startTurn o now), clock := now } else none
  | .runWork =>
    match s.pc with
    | .choosing turn => if s.goesOn o turn then some (s.runWork turn) else none
    | _ => none
  | .workReturns now =>
    match s.pc with
    | .working turn => if s.clock ≤ now then some (s.workReturns o turn now) else none
    | _ => none
  | .turnEnds =>
    match s.pc with
    | .choosing turn => if s.goesOn o turn then none else some { s with pc := .outside }
    | _ => none

/-! ## Statements -/

/-- the per-turn budgets are positive -/
structure ReadyOptions.Positive (o : ReadyOptions) : Prop where
  work : 0 < o.maxReadyWorkPerTurn
  time : 0 < o.maxReadyTimePerTurn
  completion : 0 < o.maxCompletionWorkPerTurn
  urgent : 0 < o.maxUrgentCompletionWorkPerTurn

def NotOverdue (o : ReadyOptions) (tr : List (ReadyEvent W)) : ReadyEvent W → Prop
  | .runReady now => ∀ s ∈ run (readyStep o) {} tr, (s.startTurn o now).normalIsOverdue = false
  | _ => True

instance (o : ReadyOptions) (tr : List (ReadyEvent W)) (e : ReadyEvent W) : Decidable (NotOverdue o tr e) :=
  match e with
  | .runReady _ => inferInstanceAs (Decidable (∀ s ∈ run (readyStep o) {} tr, _))
  | .schedule _ _ | .scheduleCompletion _ _ | .runWork | .workReturns _ | .turnEnds => isTrue trivial

def ReadyOptions.completionMax (o : ReadyOptions) : ℕ := max o.maxCompletionWorkPerTurn o.maxUrgentCompletionWorkPerTurn

/-! ## The steps -/

section Steps

variable {o : ReadyOptions} {s t : ReadyQueues W}

theorem runWork_some (h : readyStep o s .runWork = some t) :
    ∃ turn, s.pc = .choosing turn ∧ s.goesOn o turn = true ∧ t = s.runWork turn := by
  simp only [readyStep] at h
  split at h
  · obtain ⟨hgoes, rfl⟩ := of_ite_some h
    exact ⟨_, ‹_›, hgoes, rfl⟩
  · cases h

variable {e : ReadyEvent W} {n since now : ℕ}

theorem workReturns_some (h : readyStep o s (.workReturns now) = some t) :
    ∃ turn, s.pc = .working turn ∧ s.clock ≤ now ∧ t = s.workReturns o turn now := by
  simp only [readyStep] at h
  split at h
  · obtain ⟨hclock, rfl⟩ := of_ite_some h
    exact ⟨_, ‹_›, hclock, rfl⟩
  · cases h

theorem turnEnds_some (h : readyStep o s .turnEnds = some t) :
    ∃ turn, s.pc = .choosing turn ∧ s.goesOn o turn = false ∧ t = { s with pc := .outside } := by
  simp only [readyStep] at h
  split at h
  · obtain ⟨hgoes, h⟩ := ite_none_left_eq_some.1 h
    exact ⟨_, ‹_›, Bool.eq_false_iff.2 hgoes, (some.inj h).symm⟩
  · cases h

theorem goesOn_resumed (hpos : o.Positive) {turn : Turn} (h : s.goesOn o turn = true) :
    turn.resumed < o.maxReadyWorkPerTurn := by
  have hwork := hpos.work
  simp only [ReadyQueues.goesOn, Bool.and_eq_true, Bool.or_eq_true, beq_iff_eq, decide_eq_true_eq] at h
  omega

theorem not_goesOn_resumed {turn : Turn} (hready : s.ready ≠ []) (h : s.goesOn o turn = false) :
    o.maxReadyWorkPerTurn ≤ turn.resumed := by
  have hempty : s.ready.isEmpty = false := Bool.eq_false_iff.2 fun he => hready (isEmpty_iff.1 he)
  simp only [ReadyQueues.goesOn, hempty, Bool.not_false, Bool.true_or, Bool.true_and, Bool.or_eq_false_iff,
    decide_eq_false_iff_not, not_lt] at h
  exact h.2

theorem runsCompletion_fresh {turn : Turn} (hcompletion : s.completionReady ≠ [])
    (hoverdue : turn.normalIsOverdue = false) (hresumed : turn.completionResumed = 0) :
      s.runsCompletion turn = true := by
  have hempty : s.completionReady.isEmpty = false :=
    Bool.eq_false_iff.2 fun he => hcompletion (isEmpty_iff.1 he)
  simp only [ReadyQueues.runsCompletion, hempty, hoverdue, hresumed, Bool.not_false, Bool.true_and, Bool.or_eq_true,
    beq_iff_eq, decide_eq_true_eq]
  omega

theorem runsCompletion_budget {turn : Turn} (hready : s.ready ≠ []) (h : s.runsCompletion turn = true) :
    turn.normalIsOverdue = false ∧ (turn.completionBudget = 0 ∨ turn.completionResumed < turn.completionBudget) := by
  have hempty : s.ready.isEmpty = false := Bool.eq_false_iff.2 fun he => hready (isEmpty_iff.1 he)
  simpa only [ReadyQueues.runsCompletion, hempty, Bool.false_or, Bool.and_eq_true, Bool.not_eq_true', Bool.or_eq_true,
    beq_iff_eq, decide_eq_true_eq, and_assoc] using (Bool.and_eq_true_iff.1 h).2

theorem ran_mono (h : readyStep o s e = some t) :
    s.normalRan ≤ t.normalRan ∧ s.completionRan ≤ t.completionRan := by
  cases e with
  | schedule work now | scheduleCompletion work now | runReady now =>
    obtain ⟨-, rfl⟩ := of_ite_some h
    exact ⟨le_rfl, le_rfl⟩
  | runWork =>
    obtain ⟨turn, -, -, rfl⟩ := runWork_some h
    unfold ReadyQueues.runWork
    split_ifs
    · exact ⟨le_rfl, Nat.le_succ _⟩
    · exact ⟨Nat.le_succ _, le_rfl⟩
  | workReturns now =>
    obtain ⟨turn, -, -, rfl⟩ := workReturns_some h
    exact ⟨le_rfl, le_rfl⟩
  | turnEnds =>
    obtain ⟨turn, -, -, rfl⟩ := turnEnds_some h
    exact ⟨le_rfl, le_rfl⟩

/-! ## The stamp and the budget -/

def ReadyPc.turn : ReadyPc → Option Turn
  | .outside => none
  | .choosing turn | .working turn => some turn

structure TurnInv (o : ReadyOptions) (s : ReadyQueues W) : Prop where
  since : s.ready ≠ [] → s.readyNonemptySince ≤ s.clock
  budget : ∀ turn ∈ s.pc.turn, 0 < turn.completionBudget ∧ turn.completionBudget ≤ o.completionMax

theorem startTurn_budget (hpos : o.Positive) (s : ReadyQueues W) (now : ℕ) :
    0 < (s.startTurn o now).completionBudget ∧ (s.startTurn o now).completionBudget ≤ o.completionMax := by
  unfold ReadyQueues.startTurn
  dsimp only
  split_ifs
  · exact ⟨hpos.urgent, le_max_right _ _⟩
  · exact ⟨hpos.completion, le_max_left _ _⟩

theorem turnInv_step (hpos : o.Positive) (inv : TurnInv o s) (h : readyStep o s e = some t) :
    TurnInv o t := by
  cases e with
  | schedule work now =>
    obtain ⟨⟨-, hclock⟩, rfl⟩ := of_ite_some h
    refine ⟨fun _ => ?_, inv.budget⟩
    unfold ReadyQueues.schedule
    split_ifs with hempty
    · exact le_rfl
    · exact (inv.since fun hnil => hempty (by rw [hnil]; rfl)).trans hclock
  | scheduleCompletion work now =>
    obtain ⟨⟨-, hclock⟩, rfl⟩ := of_ite_some h
    exact ⟨fun hready => (inv.since hready).trans hclock, inv.budget⟩
  | runReady now =>
    obtain ⟨⟨-, hclock⟩, rfl⟩ := of_ite_some h
    refine ⟨fun hready => (inv.since hready).trans hclock, fun turn hturn => ?_⟩
    exact some.inj hturn ▸ startTurn_budget hpos s now
  | runWork =>
    obtain ⟨turn, hpc, -, rfl⟩ := runWork_some h
    have hbudget := inv.budget turn (by rw [hpc]; rfl)
    unfold ReadyQueues.runWork
    split_ifs
    · exact ⟨inv.since, fun turn' hturn => some.inj hturn ▸ hbudget⟩
    · refine ⟨fun hready => ?_, fun turn' hturn => some.inj hturn ▸ hbudget⟩
      have hstamp : (s.popNormal turn).readyNonemptySince = s.readyNonemptySince :=
        if_neg fun hlen => hready (length_eq_zero_iff.1 hlen)
      rw [hstamp]
      exact inv.since fun hnil => hready (by rw [ReadyQueues.popNormal, hnil]; rfl)
  | workReturns now =>
    obtain ⟨turn, hpc, hclock, rfl⟩ := workReturns_some h
    have hbudget := inv.budget turn (by rw [hpc]; rfl)
    refine ⟨fun hready => (inv.since hready).trans hclock, fun turn' hturn => ?_⟩
    unfold ReadyQueues.workReturns at hturn
    split_ifs at hturn
    · cases hturn
    · exact some.inj hturn ▸ hbudget
  | turnEnds =>
    obtain ⟨turn, -, -, rfl⟩ := turnEnds_some h
    exact ⟨inv.since, fun turn' hturn => by cases hturn⟩

theorem run_turnInv (hpos : o.Positive) : ∀ (tr : List (ReadyEvent W)) (s : ReadyQueues W),
    run (readyStep o) {} tr = some s → TurnInv o s :=
  run_induct (fun _ s => TurnInv o s) ⟨fun hready => absurd rfl hready, fun turn hturn => by cases hturn⟩
    fun _ _ _ _ _ inv hst => turnInv_step hpos inv hst

/-! ## Normal works, while a completion work waits -/

/-- no more than `n` normal works are run in all, unless a completion work is run: what the turn may still run is within
`n`, or the turn is going to run a completion work -/
structure NormalBound (o : ReadyOptions) (n : ℕ) (s : ReadyQueues W) : Prop where
  waits : s.completionReady ≠ []
  bound : match s.pc with
    | .outside => s.normalRan ≤ n
    | .choosing turn =>
      s.normalRan + (o.maxReadyWorkPerTurn - turn.resumed) ≤ n ∨
        (s.normalRan ≤ n ∧ turn.normalIsOverdue = false ∧ turn.completionResumed = 0)
    | .working turn => s.normalRan + (o.maxReadyWorkPerTurn - (turn.resumed + 1)) ≤ n

theorem NormalBound.ran_le (h : NormalBound o n s) : s.normalRan ≤ n := by
  have hbound := h.bound
  split at hbound
  · exact hbound
  · rcases hbound with hold | hfresh
    · exact (Nat.le_add_right _ _).trans hold
    · exact hfresh.1
  · exact (Nat.le_add_right _ _).trans hbound

theorem normalBound_start (o : ReadyOptions) (hwaits : s.completionReady ≠ []) :
    NormalBound o (s.normalRan + o.maxReadyWorkPerTurn) s := by
  refine ⟨hwaits, ?_⟩
  split
  · exact Nat.le_add_right _ _
  · exact .inl (Nat.add_le_add_left (Nat.sub_le _ _) _)
  · exact Nat.add_le_add_left (Nat.sub_le _ _) _

theorem NormalBound.step (hpos : o.Positive) (h : NormalBound o n s)
    (hoverdue : ∀ now, e = .runReady now → (s.startTurn o now).normalIsOverdue = false) (hst : readyStep o s e = some t)
    (hran : t.completionRan = s.completionRan) : NormalBound o n t := by
  have hbound := h.bound
  cases e with
  | schedule work now =>
    obtain ⟨-, rfl⟩ := of_ite_some hst
    exact ⟨h.waits, hbound⟩
  | scheduleCompletion work now =>
    obtain ⟨-, rfl⟩ := of_ite_some hst
    exact ⟨append_ne_nil_of_right_ne_nil _ (cons_ne_nil _ _), hbound⟩
  | runReady now =>
    obtain ⟨-, rfl⟩ := of_ite_some hst
    exact ⟨h.waits, .inr ⟨h.ran_le, hoverdue now rfl, rfl⟩⟩
  | runWork =>
    obtain ⟨turn, hpc, hgoes, rfl⟩ := runWork_some hst
    rw [hpc] at hbound
    have hresumed := goesOn_resumed hpos hgoes
    unfold ReadyQueues.runWork at hran ⊢
    split_ifs at hran ⊢ with hruns
    · exact absurd hran (Nat.succ_ne_self _)
    · refine ⟨h.waits, ?_⟩
      rcases hbound with hold | ⟨-, hnot, hzero⟩
      · have hnext : s.normalRan + 1 + (o.maxReadyWorkPerTurn - (turn.resumed + 1)) ≤ n := by omega
        exact hnext
      · exact absurd (runsCompletion_fresh h.waits hnot hzero) hruns
  | workReturns now =>
    obtain ⟨turn, hpc, -, rfl⟩ := workReturns_some hst
    refine ⟨h.waits, ?_⟩
    rw [hpc] at hbound
    unfold ReadyQueues.workReturns
    split_ifs
    · exact h.ran_le
    · exact .inl hbound
  | turnEnds =>
    obtain ⟨turn, -, -, rfl⟩ := turnEnds_some hst
    exact ⟨h.waits, h.ran_le⟩

/-! ## Completion works, while a normal work waits -/

/-- how many turns can start from `now` on before the queue is overdue, if each is ended by the clock -/
def ReadyOptions.turnsLeft (o : ReadyOptions) (since now : ℕ) : ℕ :=
  (since + o.normalAge - now + (o.timeBudget - 1)) / o.timeBudget

theorem turnsLeft_anti (o : ReadyOptions) (since : ℕ) {now' : ℕ} (h : now ≤ now') :
    o.turnsLeft since now' ≤ o.turnsLeft since now :=
  Nat.div_le_div_right (by omega)

theorem timeBudget_pos (hpos : o.Positive) : 0 < o.timeBudget := by
  have htime := hpos.time
  unfold timeBudget toNanoseconds
  omega

theorem turnsLeft_turn (hpos : o.Positive) (h : now < since + o.normalAge) :
    o.turnsLeft since (now + o.timeBudget) + 1 ≤ o.turnsLeft since now := by
  have htime := timeBudget_pos hpos
  unfold turnsLeft
  by_cases hlast : since + o.normalAge ≤ now + o.timeBudget
  · rw [Nat.div_eq_of_lt (by omega), Nat.le_div_iff_mul_le htime]
    omega
  · rw [← Nat.add_div_right _ htime]
    exact Nat.div_le_div_right (by omega)

theorem turnsLeft_le (o : ReadyOptions) (h : since ≤ now) :
    o.turnsLeft since now ≤ (o.normalAge + (o.timeBudget - 1)) / o.timeBudget :=
  Nat.div_le_div_right (by omega)

/-- no more than `n` completion works are run in all, unless a normal work is run: what the turn may still run, and the
turns after it, are within `n`, or the turn is going to run a normal work; a turn that started while the normal work
waited has run completion works only, and is ended by the clock -/
structure CompletionBound (o : ReadyOptions) (n since : ℕ) (s : ReadyQueues W) : Prop where
  waits : s.ready ≠ []
  stamp : s.readyNonemptySince = since
  bound : match s.pc with
    | .outside => s.completionRan + o.completionMax * o.turnsLeft since s.clock ≤ n
    | .choosing turn =>
      s.completionRan + (o.completionMax - turn.completionResumed) + o.completionMax * o.turnsLeft since s.clock ≤ n ∨
      (s.completionRan ≤ n ∧ turn.normalIsOverdue = true ∧ turn.resumed = 0) ∨
      (turn.resumed = turn.completionResumed ∧ turn.completionResumed ≤ turn.completionBudget ∧
        s.completionRan + (o.completionMax - turn.completionResumed) +
          o.completionMax * o.turnsLeft since (turn.start + o.timeBudget) ≤ n)
    | .working turn =>
      s.completionRan + (o.completionMax - turn.completionResumed) + o.completionMax * o.turnsLeft since s.clock ≤ n ∨
      (turn.resumed + 1 = turn.completionResumed ∧ turn.completionResumed ≤ turn.completionBudget ∧
        s.completionRan + (o.completionMax - turn.completionResumed) +
          o.completionMax * o.turnsLeft since (turn.start + o.timeBudget) ≤ n)

theorem CompletionBound.ran_le (h : CompletionBound o n since s) : s.completionRan ≤ n := by
  have hbound := h.bound
  split at hbound
  · omega
  · rcases hbound with hold | ⟨hle, -⟩ | ⟨-, -, hnew⟩
    · omega
    · exact hle
    · omega
  · rcases hbound with hold | ⟨-, -, hnew⟩
    · omega
    · omega

/-- the bound that holds from any point on -/
def ReadyOptions.completionBound (o : ReadyOptions) : ℕ :=
  o.completionMax + o.completionMax * ((o.normalAge + (o.timeBudget - 1)) / o.timeBudget)

theorem completionBound_start (inv : TurnInv o s) (hwaits : s.ready ≠ []) :
    CompletionBound o (s.completionRan + o.completionBound) s.readyNonemptySince s := by
  have hturns := Nat.mul_le_mul_left o.completionMax (turnsLeft_le o (inv.since hwaits))
  refine ⟨hwaits, rfl, ?_⟩
  unfold completionBound
  split
  · omega
  · exact .inl (by omega)
  · exact .inl (by omega)

theorem CompletionBound.tick (h : CompletionBound o n since s) (hclock : s.clock ≤ now) (hpc : s.pc.mayCall = true)
    (hwaits : t.ready ≠ []) (hstamp : t.readyNonemptySince = s.readyNonemptySince)
    (ht : t.pc = s.pc ∧ t.clock = now ∧ t.completionRan = s.completionRan) : CompletionBound o n since t := by
  obtain ⟨htpc, htclock, htran⟩ := ht
  have hturns := Nat.mul_le_mul_left o.completionMax (turnsLeft_anti o since hclock)
  have hbound := h.bound
  refine ⟨hwaits, hstamp.trans h.stamp, ?_⟩
  rw [htpc, htclock, htran]
  split at hbound
  · omega
  · rename_i turn hchoosing
    rw [hchoosing] at hpc
    cases hpc
  · exact hbound.imp (fun hold => by omega) id

theorem CompletionBound.startTurn (hpos : o.Positive) (hage : 0 < o.normalAge) (h : CompletionBound o n since s)
    (hpc : s.pc = .outside) (hclock : s.clock ≤ now) :
    CompletionBound o n since { s with pc := .choosing (s.startTurn o now), clock := now } := by
  refine ⟨h.waits, h.stamp, .inr ?_⟩
  have hbound := h.bound
  rw [hpc] at hbound
  by_cases hoverdue : (s.startTurn o now).normalIsOverdue = true
  · exact .inl ⟨h.ran_le, hoverdue, rfl⟩
  · refine .inr ⟨rfl, Nat.zero_le _, ?_⟩
    have hlen : 0 < s.ready.length := length_pos_of_ne_nil h.waits
    have hlt : now < since + o.normalAge := by
      have hstamp := h.stamp
      simp only [ReadyQueues.startTurn, decide_eq_true_eq, hlen, true_and, not_and] at hoverdue
      omega
    have hturn := Nat.mul_le_mul_left o.completionMax
      ((turnsLeft_turn hpos hlt).trans (turnsLeft_anti o since hclock))
    rw [Nat.mul_succ] at hturn
    show s.completionRan + (o.completionMax - 0) + o.completionMax * o.turnsLeft since (now + o.timeBudget) ≤ n
    omega

theorem CompletionBound.runWork {turn : Turn} (inv : TurnInv o s) (h : CompletionBound o n since s)
    (hpc : s.pc = .choosing turn) (hran : (s.runWork turn).normalRan = s.normalRan) :
    CompletionBound o n since (s.runWork turn) := by
  obtain ⟨hpositive, hmax⟩ := inv.budget turn (by rw [hpc]; rfl)
  have hbound := h.bound
  rw [hpc] at hbound
  unfold ReadyQueues.runWork at hran ⊢
  split_ifs at hran ⊢ with hruns
  · obtain ⟨hnot, hbudget⟩ := runsCompletion_budget h.waits hruns
    have hlt : turn.completionResumed < turn.completionBudget := by omega
    refine ⟨h.waits, h.stamp, ?_⟩
    rcases hbound with hold | ⟨-, hoverdue, -⟩ | ⟨hresumed, -, hnew⟩
    · have hnext : s.completionRan + 1 + (o.completionMax - (turn.completionResumed + 1)) +
          o.completionMax * o.turnsLeft since s.clock ≤ n := by omega
      exact .inl hnext
    · rw [hnot] at hoverdue
      cases hoverdue
    · have hnext : s.completionRan + 1 + (o.completionMax - (turn.completionResumed + 1)) +
          o.completionMax * o.turnsLeft since (turn.start + o.timeBudget) ≤ n := by omega
      exact .inr ⟨congrArg Nat.succ hresumed, hlt, hnext⟩
  · exact absurd hran (Nat.succ_ne_self _)

theorem CompletionBound.workReturns {turn : Turn} (h : CompletionBound o n since s) (hpc : s.pc = .working turn)
    (hclock : s.clock ≤ now) : CompletionBound o n since (s.workReturns o turn now) := by
  have hbound := h.bound
  rw [hpc] at hbound
  have hturns := Nat.mul_le_mul_left o.completionMax (turnsLeft_anti o since hclock)
  refine ⟨h.waits, h.stamp, ?_⟩
  unfold ReadyQueues.workReturns
  split_ifs with hcut
  · have hend : s.completionRan + o.completionMax * o.turnsLeft since now ≤ n := by
      rcases hbound with hold | ⟨-, -, hnew⟩
      · omega
      · have hlater := Nat.mul_le_mul_left o.completionMax
          (turnsLeft_anti o since (show turn.start + o.timeBudget ≤ now by omega))
        omega
    exact hend
  · exact hbound.imp (fun hold => by dsimp only; omega) .inr

theorem CompletionBound.turnEnds {turn : Turn} (hpos : o.Positive) (hsplit : o.completionMax < o.maxReadyWorkPerTurn)
    (inv : TurnInv o s) (h : CompletionBound o n since s) (hpc : s.pc = .choosing turn)
    (hgoes : s.goesOn o turn = false) :
    CompletionBound o n since { s with pc := .outside } := by
  obtain ⟨-, hmax⟩ := inv.budget turn (by rw [hpc]; rfl)
  have hwork := hpos.work
  have hresumed := not_goesOn_resumed h.waits hgoes
  have hbound := h.bound
  rw [hpc] at hbound
  refine ⟨h.waits, h.stamp, ?_⟩
  rcases hbound with hold | ⟨-, -, hzero⟩ | ⟨heq, hle, -⟩
  · have hend : s.completionRan + o.completionMax * o.turnsLeft since s.clock ≤ n := by omega
    exact hend
  · -- a turn that has run nothing is not ended
    omega
  · -- nor is one that has run no more than the completion budget
    omega

theorem CompletionBound.step (hpos : o.Positive) (hsplit : o.completionMax < o.maxReadyWorkPerTurn)
    (hage : 0 < o.normalAge) (inv : TurnInv o s) (h : CompletionBound o n since s) (hst : readyStep o s e = some t)
    (hran : t.normalRan = s.normalRan) :
    CompletionBound o n since t := by
  cases e with
  | schedule work now =>
    obtain ⟨⟨hcall, hclock⟩, rfl⟩ := of_ite_some hst
    have hstamp : (s.schedule work now).readyNonemptySince = s.readyNonemptySince :=
      if_neg fun hlen => h.waits (length_eq_zero_iff.1 hlen)
    exact h.tick hclock hcall (append_ne_nil_of_left_ne_nil h.waits _) hstamp ⟨rfl, rfl, rfl⟩
  | scheduleCompletion work now =>
    obtain ⟨⟨hcall, hclock⟩, rfl⟩ := of_ite_some hst
    exact h.tick hclock hcall h.waits rfl ⟨rfl, rfl, rfl⟩
  | runReady now =>
    obtain ⟨⟨hpc, hclock⟩, rfl⟩ := of_ite_some hst
    exact h.startTurn hpos hage hpc hclock
  | runWork =>
    obtain ⟨turn, hpc, -, rfl⟩ := runWork_some hst
    exact h.runWork inv hpc hran
  | workReturns now =>
    obtain ⟨turn, hpc, hclock, rfl⟩ := workReturns_some hst
    exact h.workReturns hpc hclock
  | turnEnds =>
    obtain ⟨turn, hpc, hgoes, rfl⟩ := turnEnds_some hst
    exact h.turnEnds hpos hsplit inv hpc hgoes

end Steps

/-! ## No starvation -/

/-- **Bounded waiting.** If the completion budgets are smaller than the budget for all works and the normal queue has an
age threshold, there is a bound such that in every run, at most so many completion works are run while a normal work
waits at the front of its queue, and at most so many normal works while a completion work does, if meanwhile no turn
starts overdue. -/
theorem ready_queues_bounded (o : ReadyOptions) (hpos : o.Positive) (hsplit : o.completionMax < o.maxReadyWorkPerTurn)
    (hage : 0 < o.normalQueueAgeThreshold) :
    ∃ bound, ∀ (l r : List (ReadyEvent W)) (s t : ReadyQueues W), run (readyStep o) {} l = some s →
      run (readyStep o) s r = some t →
        (s.completionReady ≠ [] → t.completionRan = s.completionRan → EachStep (NotOverdue o) l r →
          t.normalRan ≤ s.normalRan + bound) ∧
        (s.ready ≠ [] → t.normalRan = s.normalRan → t.completionRan ≤ s.completionRan + bound) := by
  have hage' : 0 < o.normalAge := by
    unfold normalAge toNanoseconds
    omega
  refine ⟨max o.maxReadyWorkPerTurn o.completionBound, fun l r s t hl hr =>
    ⟨fun hwaits hran hC => ?_, fun hwaits hran => ?_⟩⟩
  · have hbound := run_segment (NotOverdue o) (NormalBound o (s.normalRan + o.maxReadyWorkPerTurn))
      (fun s e t hst => (ran_mono hst).2)
      (fun l' u e v hu hI hC hst hc => hI.step hpos (fun now he => by subst he; exact hC u hu) hst hc)
      r l s t hl hr hC (normalBound_start o hwaits) hran
    exact hbound.ran_le.trans (Nat.add_le_add_left (le_max_left _ _) _)
  · have hbound := run_segment (fun _ _ => True)
      (CompletionBound o (s.completionRan + o.completionBound) s.readyNonemptySince)
      (fun s e t hst => (ran_mono hst).1)
      (fun l' u e v hu hI _ hst hc => hI.step hpos hsplit hage' (run_turnInv hpos l' u hu) hst hc)
      r l s t hl hr (eachStep_of_forall (fun _ _ => trivial) l r)
      (completionBound_start (run_turnInv hpos l s hl) hwaits) hran
    exact hbound.ran_le.trans (Nat.add_le_add_left (le_max_right _ _) _)

end Model

theorem default_positive : ({} : ReadyOptions).Positive := ⟨by decide, by decide, by decide, by decide⟩

/-- a normal and a completion work are scheduled, and one turn runs the completion work first -/
def turnRun : List (ReadyEvent ℕ) := [.runReady 1, .runWork, .workReturns 2, .runWork, .workReturns 3, .turnEnds]

theorem ready_queues_bounded_turnRun : ∃ bound, ∃ s ∈ run (readyStep {}) {} [.schedule 0 0, .scheduleCompletion 1 1],
    ∃ t ∈ run (readyStep {}) s (turnRun.take 3), s.ready ≠ [] ∧ t.normalRan = s.normalRan ∧
      t.completionRan = s.completionRan + 1 ∧ t.completionRan ≤ s.completionRan + bound := by
  obtain ⟨bound, hbound⟩ := ready_queues_bounded (W := ℕ) {} default_positive (by decide) (by decide)
  have hfacts : ∃ s ∈ run (readyStep {}) {} [.schedule 0 0, .scheduleCompletion 1 1],
      ∃ t ∈ run (readyStep {}) s (turnRun.take 3),
        s.ready ≠ [] ∧ t.normalRan = s.normalRan ∧ t.completionRan = s.completionRan + 1 := by decide +kernel
  obtain ⟨s, hs, t, ht, hwaits, hnormal, hcompletion⟩ := hfacts
  exact ⟨bound, s, hs, t, ht, hwaits, hnormal, hcompletion, (hbound _ _ s t hs ht).2 hwaits hnormal⟩

/-! ## Starvation -/

/-- two normal works wait since the beginning, and a completion work; the queue is overdue -/
def overdueQueues (first second completion clock ran : ℕ) : ReadyQueues ℕ :=
  { ready := [first, second]
    completionReady := [completion]
    completionReadyNonemptySince := 5000000
    clock := clock
    normalRan := ran }

theorem overdueQueues_turn (first second completion ran : ℕ) {clock : ℕ} (h : 5000000 ≤ clock) :
    run (readyStep {}) (overdueQueues first second completion clock ran)
        [.runReady clock, .runWork, .schedule first clock, .workReturns (clock + 50000)] =
      some (overdueQueues second first completion (clock + 50000) (ran + 1)) := by
  have hturn : (overdueQueues first second completion clock ran).startTurn {} clock =
      { start := clock, normalIsOverdue := true, completionBudget := 64 } := by
    simp [ReadyQueues.startTurn, overdueQueues, normalAge, toNanoseconds, h]
  unfold overdueQueues at hturn ⊢
  simp [run, readyStep, hturn, ReadyQueues.goesOn, ReadyQueues.runWork, ReadyQueues.runsCompletion,
    ReadyQueues.popNormal, ReadyPc.mayCall, ReadyQueues.schedule, ReadyQueues.workReturns, timeBudget,
    toNanoseconds]

theorem overdueQueues_turns (completion : ℕ) : ∀ (n first second clock ran : ℕ), 5000000 ≤ clock →
    ∃ r, ∃ t ∈ run (readyStep {}) (overdueQueues first second completion clock ran) r,
      t.normalRan = ran + n ∧ t.completionRan = 0
  | 0, _, _, _, _, _ => ⟨[], _, rfl, rfl, rfl⟩
  | n + 1, first, second, clock, ran, h => by
    obtain ⟨r, t, ht, hnormal, hcompletion⟩ :=
      overdueQueues_turns completion n second first (clock + 50000) (ran + 1) (by omega)
    refine ⟨[.runReady clock, .runWork, .schedule first clock, .workReturns (clock + 50000)] ++ r, t, ?_, by omega,
      hcompletion⟩
    rw [run_append, overdueQueues_turn _ _ _ _ h]
    exact ht

/-- the options without a threshold for the age of the normal queue -/
def noThreshold : ReadyOptions := { normalQueueAgeThreshold := 0 }

def completionQueues (normal completion since clock ran : ℕ) : ReadyQueues ℕ :=
  { ready := [normal]
    completionReady := [completion]
    completionReadyNonemptySince := since
    clock := clock
    completionRan := ran }

theorem completionQueues_turn (normal completion since clock ran : ℕ) :
    run (readyStep noThreshold) (completionQueues normal completion since clock ran)
        [.runReady clock, .runWork, .scheduleCompletion completion clock, .workReturns (clock + 50000)] =
      some (completionQueues normal completion clock (clock + 50000) (ran + 1)) := by
  have hturn : (completionQueues normal completion since clock ran).startTurn noThreshold clock =
      { start := clock, normalIsOverdue := false, completionBudget := 64 } := by
    simp [ReadyQueues.startTurn, completionQueues, normalAge, completionAge, toNanoseconds,
      noThreshold]
  unfold completionQueues noThreshold at hturn ⊢
  simp [run, readyStep, hturn, ReadyQueues.goesOn, ReadyQueues.runWork, ReadyQueues.runsCompletion,
    ReadyQueues.popCompletion, ReadyPc.mayCall, ReadyQueues.scheduleCompletion, ReadyQueues.workReturns,
    timeBudget, toNanoseconds]

theorem completionQueues_turns (normal completion : ℕ) : ∀ n since clock ran : ℕ,
    ∃ r, ∃ t ∈ run (readyStep noThreshold) (completionQueues normal completion since clock ran) r,
      t.completionRan = ran + n ∧ t.normalRan = 0
  | 0, _, _, _ => ⟨[], _, rfl, rfl, rfl⟩
  | n + 1, since, clock, ran => by
    obtain ⟨r, t, ht, hcompletion, hnormal⟩ :=
      completionQueues_turns normal completion n clock (clock + 50000) (ran + 1)
    refine ⟨[.runReady clock, .runWork, .scheduleCompletion completion clock, .workReturns (clock + 50000)] ++ r, t, ?_,
      by omega, hnormal⟩
    rw [run_append, completionQueues_turn]
    exact ht

/-- **Starvation.** With the default options there is no bound on the normal works that are run while a completion work
waits: two works that schedule themselves again keep the normal queue overdue. Without the age threshold there is none
on the completion works that are run while a normal work waits. -/
theorem ready_queues_starve :
    (({} : ReadyOptions).Positive ∧ ∀ bound, ∃ l r, ∃ s ∈ run (readyStep (W := ℕ) {}) {} l,
      ∃ t ∈ run (readyStep {}) s r, s.completionReady ≠ [] ∧ t.completionRan = s.completionRan ∧
        s.normalRan + bound < t.normalRan) ∧
    (noThreshold.Positive ∧ ∀ bound, ∃ l r, ∃ s ∈ run (readyStep (W := ℕ) noThreshold) {} l,
      ∃ t ∈ run (readyStep noThreshold) s r, s.ready ≠ [] ∧ t.normalRan = s.normalRan ∧
        s.completionRan + bound < t.completionRan) := by
  refine ⟨⟨default_positive, fun bound => ?_⟩, ⟨by decide, by decide, by decide, by decide⟩, fun bound => ?_⟩
  · obtain ⟨r, t, ht, hnormal, hcompletion⟩ := overdueQueues_turns 2 (bound + 1) 0 1 5000000 0 le_rfl
    refine ⟨[.schedule 0 0, .schedule 1 0, .scheduleCompletion 2 5000000], r, overdueQueues 0 1 2 5000000 0,
      by decide +kernel,
      t, ht, cons_ne_nil _ _, hcompletion, ?_⟩
    rw [hnormal]
    exact Nat.lt_succ_self _
  · obtain ⟨r, t, ht, hcompletion, hnormal⟩ := completionQueues_turns 0 1 (bound + 1) 0 0 0
    refine ⟨[.schedule 0 0, .scheduleCompletion 1 0], r, completionQueues 0 1 0 0 0, by decide +kernel, t, ht,
      cons_ne_nil _ _, hnormal, ?_⟩
    rw [hcompletion]
    exact Nat.lt_succ_self _

end Coropact.Luring
