/-
Runs of a machine that is driven by events.

A machine is a partial step function `step : σ → ε → Option σ`. An event carries an operation together with the answer
the environment gave to it; `none` means that the machine was not about to perform that operation. `run` folds a list
of events, so the list IS the trace of the run.

- `Par`: any number of machines over one shared memory, interleaved step by step. `Par.run_balance` is the conservation
  law: a counter in the memory and the weights of the machines move by the same amount at each event, so their
  difference never changes.
- `run_induct`, `EachStep`, `run_induct_of`, `run_until`, `run_segment`, `replies`, `replies_refine`, `Since`,
  `Inevitable`, `spins_of_rank`.
-/
import Mathlib.Data.List.DropRight
import Mathlib.Tactic

namespace Coropact.Machine

open List Function Option

variable {σ ε : Type*}

/-! ## Runs -/

/-- run a list of events; `none` once some event was not the one the machine was about to perform -/
def run (step : σ → ε → Option σ) : σ → List ε → Option σ
  | s, [] => some s
  | s, e :: es => (step s e).bind fun t => run step t es

@[simp] theorem run_nil (step : σ → ε → Option σ) (s : σ) : run step s [] = some s := rfl

theorem run_cons (step : σ → ε → Option σ) (s : σ) (e : ε) (es : List ε) :
    run step s (e :: es) = (step s e).bind fun t => run step t es := rfl

theorem run_append (step : σ → ε → Option σ) (s : σ) (l₁ l₂ : List ε) :
    run step s (l₁ ++ l₂) = (run step s l₁).bind fun t => run step t l₂ := by
  induction l₁ generalizing s with
  | nil => rfl
  | cons e es ih =>
    simp only [cons_append, run_cons]
    cases step s e with
    | none => rfl
    | some t => exact ih t

theorem of_ite_some {α : Type*} {p : Prop} [Decidable p] {x y : α} (h : (if p then some x else none) = some y) :
    p ∧ x = y :=
  (ite_none_right_eq_some.1 h).imp id some.inj

theorem run_snoc (step : σ → ε → Option σ) (s : σ) (l : List ε) (e : ε) :
    run step s (l ++ [e]) = (run step s l).bind fun t => step t e := by
  rw [run_append]
  cases run step s l with
  | none => rfl
  | some t => simp only [run_cons, run_nil, bind_fun_some]

variable {C : List ε → ε → Prop} {l es : List ε} {s : σ} {e : ε}

theorem run_snoc_some {step : σ → ε → Option σ} {u : σ} (h : run step s (l ++ [e]) = some u) :
    ∃ t, run step s l = some t ∧ step t e = some u := by
  rw [run_snoc] at h
  exact bind_eq_some_iff.1 h

theorem run_append_some {step : σ → ε → Option σ} {u : σ} {l₁ l₂ : List ε} (h : run step s (l₁ ++ l₂) = some u) :
    ∃ t, run step s l₁ = some t ∧ run step t l₂ = some u := by
  rw [run_append] at h
  exact bind_eq_some_iff.1 h

/-- **Run rule.** A property of trace and state that holds at the start and is kept by every step of the run holds
after the run. The step premise may use that the trace so far is a run. -/
theorem run_induct {step : σ → ε → Option σ} {s₀ : σ} (I : List ε → σ → Prop) (h0 : I [] s₀)
    (hstep : ∀ l s e t, run step s₀ l = some s → I l s → step s e = some t → I (l ++ [e]) t) :
    ∀ (l : List ε) (s : σ), run step s₀ l = some s → I l s := by
  intro l
  induction l using List.reverseRecOn with
  | nil =>
    intro s hs
    simp only [run_nil, Option.some.injEq] at hs
    exact hs ▸ h0
  | append_singleton l e ih =>
    intro t ht
    obtain ⟨s, hs, he⟩ := run_snoc_some ht
    exact hstep l s e t hs (ih s hs) he

/-- every step of a trace meets `C`, a condition on the trace before the step and the event; `l` is the trace so far -/
def EachStep (C : List ε → ε → Prop) : List ε → List ε → Prop
  | _, [] => True
  | l, e :: es => C l e ∧ EachStep C (l ++ [e]) es

instance EachStep.decidable (C : List ε → ε → Prop) [∀ l e, Decidable (C l e)] :
    ∀ l es, Decidable (EachStep C l es)
  | _, [] => isTrue trivial
  | l, e :: es =>
    have := EachStep.decidable C (l ++ [e]) es
    inferInstanceAs (Decidable (C l e ∧ EachStep C (l ++ [e]) es))

theorem eachStep_append {es' : List ε} :
    EachStep C l (es ++ es') ↔ EachStep C l es ∧ EachStep C (l ++ es) es' := by
  induction es generalizing l with
  | nil => simp [EachStep]
  | cons a es ih => simp only [cons_append, EachStep, ih, append_assoc, nil_append, and_assoc]

theorem eachStep_snoc :
    EachStep C l (es ++ [e]) ↔ EachStep C l es ∧ C (l ++ es) e := by
  rw [eachStep_append]
  simp [EachStep]

theorem snoc_eq_append_cons {r : List ε} {x : ε} (h : es ++ [x] = l ++ e :: r) :
    (es = l ∧ x = e ∧ r = []) ∨ ∃ r', es = l ++ e :: r' ∧ r = r' ++ [x] := by
  rcases eq_nil_or_concat r with rfl | ⟨r', y, rfl⟩
  · obtain ⟨hes, hx⟩ := append_inj' h rfl
    exact .inl ⟨hes, singleton_injective hx, rfl⟩
  · rw [concat_eq_append, ← cons_append, ← append_assoc] at h
    obtain ⟨hes, hx⟩ := append_inj' h rfl
    exact .inr ⟨r', hes, by rw [concat_eq_append, singleton_injective hx]⟩

theorem eachStep_iff :
    EachStep C [] es ↔ ∀ l e r, es = l ++ e :: r → C l e := by
  induction es using List.reverseRecOn with
  | nil => simp [EachStep]
  | append_singleton es x ih =>
    rw [eachStep_snoc, ih]
    constructor
    · rintro ⟨hes, hx⟩ l e r heq
      rcases snoc_eq_append_cons heq with ⟨rfl, rfl, rfl⟩ | ⟨r', rfl, rfl⟩
      · exact hx
      · exact hes l e r' rfl
    · intro h
      exact ⟨fun l e r heq => h l e (r ++ [x]) (by rw [heq]; simp), h es x [] rfl⟩

/-- the run rule for runs whose steps all meet a condition -/
theorem run_induct_of {step : σ → ε → Option σ} {s₀ : σ} (C : List ε → ε → Prop) (I : List ε → σ → Prop) (h0 : I [] s₀)
    (hstep : ∀ l s e t, run step s₀ l = some s → I l s → C l e → step s e = some t → I (l ++ [e]) t) :
    ∀ (l : List ε) (s : σ), run step s₀ l = some s → EachStep C [] l → I l s := by
  refine run_induct (fun l s => EachStep C [] l → I l s) (fun _ => h0) ?_
  intro l s e t hs ih he hC
  obtain ⟨hl, hCe⟩ := eachStep_snoc.1 hC
  exact hstep l s e t hs (ih hl) hCe he

theorem eachStep_of_forall (h : ∀ l e, C l e) (l es : List ε) : EachStep C l es := by
  induction es generalizing l with
  | nil => trivial
  | cons e es ih => exact ⟨h l e, ih (l ++ [e])⟩

/-- a property that lasts until an event of a kind: it holds after the run, or the run has such an event -/
theorem run_until {step : σ → ε → Option σ} {P : σ → Prop} {Q : ε → Prop} {t : σ}
    (hstep : ∀ s e t, e ∈ l → P s → step s e = some t → Q e ∨ P t) (hs : P s) (hrun : run step s l = some t) :
    P t ∨ ∃ e ∈ l, Q e := by
  induction l generalizing s with
  | nil => exact .inl (some.inj hrun ▸ hs)
  | cons e l ih =>
    obtain ⟨u, hst, hrest⟩ := bind_eq_some_iff.1 hrun
    rcases hstep s e u mem_cons_self hs hst with hq | hu
    · exact .inr ⟨e, mem_cons_self, hq⟩
    · have hend := ih (fun s e t he => hstep s e t (mem_cons_of_mem _ he)) hu hrest
      exact hend.imp_right fun ⟨x, hx, hq⟩ => ⟨x, mem_cons_of_mem _ hx, hq⟩

theorem run_mono {step : σ → ε → Option σ} {c : σ → ℕ} (hmono : ∀ s e t, step s e = some t → c s ≤ c t) :
    ∀ (r : List ε) (s t : σ), run step s r = some t → c s ≤ c t := by
  intro r s t hrun
  exact run_induct (fun _ t => c s ≤ c t) le_rfl (fun _ u e v _ hle hst => hle.trans (hmono u e v hst)) r t hrun

/-- **Segment rule.** A property that every step keeps which leaves the counter `c` where it is holds after every part
`r` of a run that leaves it there. The steps of `r` meet a condition; `l` is the trace before it. -/
theorem run_segment {step : σ → ε → Option σ} {s₀ : σ} {c : σ → ℕ} (C : List ε → ε → Prop) (I : σ → Prop)
    (hmono : ∀ s e t, step s e = some t → c s ≤ c t)
    (hstep : ∀ l s e t, run step s₀ l = some s → I s → C l e → step s e = some t → c t = c s → I t) :
    ∀ (r l : List ε) (s t : σ), run step s₀ l = some s → run step s r = some t → EachStep C l r → I s →
      c t = c s → I t := by
  intro r
  induction r with
  | nil =>
    intro l s t _ hrun _ hI _
    exact some.inj hrun ▸ hI
  | cons e r ih =>
    intro l s t hl hrun hC hI hc
    obtain ⟨u, hst, hrest⟩ := bind_eq_some_iff.1 hrun
    have hsu := hmono s e u hst
    have hut := run_mono hmono r u t hrest
    refine ih (l ++ [e]) u t ?_ hrest hC.2 (hstep l s e u hl hI hC.1 hst (by omega)) (by omega)
    rw [run_snoc, hl]
    exact hst

/-! ## Operations with answers -/

section Replies

variable {α ρ τ : Type*}

/-- operations one after the other, with their answers; `none` once one of them has none -/
def replies (act : σ → α → Option (ρ × σ)) : σ → List α → Option (List ρ × σ)
  | s, [] => some ([], s)
  | s, a :: l => (act s a).bind fun r => (replies act r.2 l).map fun rest => (r.1 :: rest.1, rest.2)

/-- **Refinement.** If every operation has an answer, that of the specification, and keeps a relation to it, which may
depend on the operations that are still to come, then so do all of them. -/
theorem replies_refine {act : σ → α → Option (ρ × σ)} {spec : τ → α → ρ × τ} {R : List α → σ → τ → Prop}
    (hact : ∀ a l s t, R (a :: l) s t → ∃ s', act s a = some ((spec t a).1, s') ∧ R l s' (spec t a).2) :
    ∀ (l : List α) (s : σ) (t : τ), R l s t → ∃ answers s' t', replies act s l = some (answers, s') ∧
      replies (fun t a => some (spec t a)) t l = some (answers, t') ∧ R [] s' t' := by
  intro l
  induction l with
  | nil => exact fun s t h => ⟨[], s, t, rfl, rfl, h⟩
  | cons a l ih =>
    intro s t h
    obtain ⟨s₁, hs₁, h₁⟩ := hact a l s t h
    obtain ⟨answers, s', t', hs', ht', h'⟩ := ih s₁ _ h₁
    refine ⟨(spec t a).1 :: answers, s', t', ?_, ?_, h'⟩
    · rw [replies, hs₁, bind_some, hs', map_some]
    · rw [replies, bind_some, ht', map_some]

end Replies

/-! ## Since a mark -/

/-- nothing `bad` has happened since the last event that is a `mark` -/
def Since (mark bad : ε → Bool) (l : List ε) : Prop := ∀ e ∈ l.rtakeWhile fun e => !mark e, bad e = false

instance (mark bad : ε → Bool) (l : List ε) : Decidable (Since mark bad l) :=
  inferInstanceAs (Decidable (∀ e ∈ l.rtakeWhile fun e => !mark e, bad e = false))

theorem since_snoc {mark bad : ε → Bool} :
    Since mark bad (l ++ [e]) ↔ mark e = true ∨ bad e = false ∧ Since mark bad l := by
  by_cases h : mark e = true
  · simp [Since, h]
  · simp [Since, h, or_imp, forall_and, and_comm]

/-! ## Inevitability -/

/-- under every choice of moves the goal is reached after finitely many of them -/
inductive Inevitable (next : σ → σ → Prop) (goal : σ → Prop) : σ → Prop
  | now {s : σ} (h : goal s) : Inevitable next goal s
  | later {s : σ} (hmove : ∃ t, next s t) (h : ∀ t, next s t → Inevitable next goal t) : Inevitable next goal s

/-- An invariant under which a non-goal state can always move and every move lowers a measure makes the goal
inevitable. -/
theorem Inevitable.of_measure {next : σ → σ → Prop} {goal : σ → Prop} (I : σ → Prop) (μ : σ → ℕ)
    (hmove : ∀ s, I s → ¬ goal s → ∃ t, next s t)
    (hnext : ∀ s t, I s → ¬ goal s → next s t → I t ∧ μ t < μ s) :
    ∀ s, I s → Inevitable next goal s := by
  intro s
  induction hn : μ s using Nat.strong_induction_on generalizing s with
  | _ n ih =>
    intro hs
    by_cases hg : goal s
    · exact .now hg
    · refine .later (hmove s hs hg) fun t ht => ?_
      obtain ⟨hIt, hlt⟩ := hnext s t hs hg ht
      exact ih (μ t) (hn ▸ hlt) t rfl hIt

/-- An invariant that every move away from a non-goal state keeps holds in some goal state, if the goal is inevitable.
-/
theorem Inevitable.exists_goal {next : σ → σ → Prop} {goal : σ → Prop} (I : σ → Prop)
    (hnext : ∀ s t, I s → ¬ goal s → next s t → I t) (h : Inevitable next goal s) (hs : I s) :
    ∃ t, I t ∧ goal t := by
  induction h with
  | now hg => exact ⟨_, hs, hg⟩
  | @later s hmove _ ih =>
    by_cases hg : goal s
    · exact ⟨s, hs, hg⟩
    · obtain ⟨t, ht⟩ := hmove
      exact ih t ht (hnext s t hs hg ht)

/-- A rank in a well-order that every step lowers, except for steps from `spin` states, which may keep it: an infinite
run keeps its rank and spins from some point on. -/
theorem spins_of_rank {α : Type*} [LinearOrder α] [WellFoundedLT α] {step : σ → ε → Option σ} (rank : σ → α)
    (spin : σ → Prop) (hstep : ∀ s e t, step s e = some t → rank t < rank s ∨ rank t = rank s ∧ spin s) {f : ℕ → σ}
    {ev : ℕ → ε} (hf : ∀ n, step (f n) (ev n) = some (f (n + 1))) :
    ∃ n, ∀ m ≥ n, spin (f m) ∧ rank (f m) = rank (f n) := by
  obtain ⟨-, ⟨n, rfl⟩, hmin⟩ :=
    WellFounded.has_min wellFounded_lt (Set.range fun n => rank (f n)) ⟨_, 0, rfl⟩
  have hle : ∀ m, rank (f n) ≤ rank (f m) := fun m => not_lt.1 (hmin _ ⟨m, rfl⟩)
  have hrank : ∀ m ≥ n, rank (f m) = rank (f n) := by
    intro m hm
    induction m, hm using Nat.le_induction with
    | base => rfl
    | succ m _ ih =>
      rcases hstep _ _ _ (hf m) with hlt | ⟨heq, -⟩
      · exact absurd (ih ▸ hlt) (not_lt.2 (hle _))
      · exact heq.trans ih
  refine ⟨n, fun m hm => ⟨?_, hrank m hm⟩⟩
  rcases hstep _ _ _ (hf m) with hlt | ⟨-, hspin⟩
  · exact absurd (hrank m hm ▸ hlt) (not_lt.2 (hle _))
  · exact hspin

/-! ## Interleaving over a shared memory -/

namespace Par

variable {ι μ : Type*} [DecidableEq ι]

/-- machine `i` performs event `e`; `mem` checks the event's answer against the shared memory and updates it -/
def step (mem : μ → ε → Option μ) (loc : ι → σ → ε → Option σ) (s : μ × (ι → σ)) (ie : ι × ε) :
    Option (μ × (ι → σ)) :=
  (mem s.1 ie.2).bind fun m => (loc ie.1 (s.2 ie.1) ie.2).map fun c => (m, update s.2 ie.1 c)

variable {loc : ι → σ → ε → Option σ}

theorem step_some {mem : μ → ε → Option μ} {s t : μ × (ι → σ)} {ie : ι × ε} (h : step mem loc s ie = some t) :
    ∃ c, mem s.1 ie.2 = some t.1 ∧ loc ie.1 (s.2 ie.1) ie.2 = some c ∧
      t.2 = update s.2 ie.1 c := by
  obtain ⟨m, hm, h⟩ := bind_eq_some_iff.1 h
  obtain ⟨c, hc, rfl⟩ := map_eq_some_iff.1 h
  exact ⟨c, hm, hc, rfl⟩

/-- a property every machine keeps at its own steps holds of every machine along the interleaved run -/
theorem run_local {mem : μ → ε → Option μ} (I : ι → σ → Prop) (hloc : ∀ i s e t, I i s → loc i s e = some t → I i t)
    {s₀ : μ × (ι → σ)} (h0 : ∀ i, I i (s₀.2 i)) :
    ∀ (l : List (ι × ε)) (s : μ × (ι → σ)), run (step mem loc) s₀ l = some s → ∀ i, I i (s.2 i) := by
  refine run_induct (fun _ (s : μ × (ι → σ)) => ∀ i, I i (s.2 i)) h0 fun l s ie t _ ih hst i => ?_
  obtain ⟨c, -, hc, ht⟩ := step_some hst
  rw [ht]
  by_cases hi : i = ie.1
  · subst hi
    rw [update_self]
    exact hloc _ _ _ _ (ih _) hc
  · rw [update_of_ne hi]
    exact ih i

/-- **Conservation.** If the memory's counter `g` and the weight `w` of the stepping machine both move by `d e` at every
event `e`, then the counter minus the total weight is the same in every state of the run. -/
theorem run_balance [Fintype ι] {G : Type*} [AddCommGroup G] {mem : μ → ε → Option μ} (g : μ → G)
    (w : σ → G) (d : ε → G)
    (hmem : ∀ m e m', mem m e = some m' → g m' = g m + d e) (hloc : ∀ i s e t, loc i s e = some t → w t = w s + d e)
    {s₀ : μ × (ι → σ)} :
    ∀ (l : List (ι × ε)) (s : μ × (ι → σ)), run (step mem loc) s₀ l = some s →
      g s.1 - ∑ i, w (s.2 i) = g s₀.1 - ∑ i, w (s₀.2 i) := by
  refine run_induct (fun _ (s : μ × (ι → σ)) => g s.1 - ∑ i, w (s.2 i) = g s₀.1 - ∑ i, w (s₀.2 i)) rfl ?_
  intro l s ie t _ ih hst
  obtain ⟨c, hm, hc, ht⟩ := step_some hst
  have hsum : ∑ i, w (t.2 i) = ∑ i, w (s.2 i) + d ie.2 := by
    have hw : ∀ i, w (t.2 i) = w (s.2 i) + if i = ie.1 then d ie.2 else 0 := by
      intro i
      rw [ht]
      by_cases hi : i = ie.1
      · subst hi
        rw [update_self, if_pos rfl]
        exact hloc _ _ _ _ hc
      · rw [update_of_ne hi, if_neg hi, add_zero]
    simp only [hw, Finset.sum_add_distrib, Finset.sum_ite_eq', Finset.mem_univ, if_true]
  rw [hmem _ _ _ hm, hsum, ← ih]
  abel

end Par

end Coropact.Machine
