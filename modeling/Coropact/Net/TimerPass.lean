/-
`HandleRead` of the timer queue as a loop: which callbacks `PopWhile` runs when they call nothing themselves.

A repeating timer goes back into the tree that is being popped, and its new expiration is `now` plus its interval, cut
to microseconds. With an interval of a microsecond or more it is behind `now`, and the loop does not meet it again. A
shorter interval leaves it at `now`: it is popped again, and the loop does not end.
-/
import Coropact.Net.TimerQueue

namespace Coropact.Net

open Coropact.Machine List

def TimerQueue.registered (q : TimerQueue) : List Timer := q.timers.map q.timer

def TimerQueue.due (q : TimerQueue) (now : ℕ) : List Timer := q.registered.filter (·.expiration ≤ now)

/-- so many rounds of `PopWhile`, with callbacks that call nothing -/
def rounds : ℕ → List QueueEvent
  | 0 => []
  | n + 1 => [.pop, .callbackReturns] ++ rounds n

section Rounds

variable {q : TimerQueue} {p now : ℕ} {rest : List ℕ}

theorem QueueInv.round (inv : QueueInv [] q) (hphase : q.phase = .popping now) (htimers : q.timers = p :: rest)
    (hdue : (q.timer p).expiration ≤ now) :
    ∃ t, run queueStep q [.pop, .callbackReturns] = some t ∧ QueueInv [] t ∧ t.phase = .popping now ∧
      t.started = q.started ++ [(q.timer p).sequence] ∧ t.registered.Perm
        ((if (q.timer p).repeats then [(q.timer p).restart now] else []) ++ rest.map q.timer) := by
  have hpop := inv.pop_eq htimers hdue
  have hstep : queueStep q .pop = q.pop now := by simp only [queueStep, hphase]
  have inv₁ := inv.pop hphase hpop
  have hnot : p ∉ rest := (nodup_cons.1 (htimers ▸ (nodup_append.1 inv.pool.nodup).1)).1
  -- only the object at `p` changes
  have hkeep : ∀ {s : TimerQueue} {o}, s.pool.object = Function.update q.pool.object p o →
      (q.timers.erase p).map s.timer = rest.map q.timer := by
    intro s o hobject
    rw [htimers, erase_cons_head]
    exact map_congr_left fun r hr => Pool.get_of_update hobject fun heq => hnot (heq ▸ hr)
  refine ⟨TimerQueue.callbackReturns _ now p, by rw [run_cons, hstep, hpop]; rfl, inv₁.callbackReturns rfl, ?_⟩
  rw [inv₁.callbackReturns_out rfl]
  by_cases hrepeats : (q.timer p).repeats = true
  · rw [if_pos ⟨hrepeats, rfl⟩, if_pos hrepeats]
    refine ⟨rfl, rfl, ((timers_enlist_perm _ p).map _).trans (List.Perm.of_eq ?_)⟩
    exact congrArg₂ List.cons (Pool.get_of_object (Function.update_self ..)) (hkeep rfl)
  · rw [if_neg fun h => hrepeats h.1, if_neg hrepeats]
    exact ⟨rfl, rfl, List.Perm.of_eq (hkeep rfl)⟩

theorem QueueInv.first_due (inv : QueueInv [] q) (h : q.due now ≠ []) :
    ∃ p rest, q.timers = p :: rest ∧ (q.timer p).expiration ≤ now := by
  obtain ⟨x, hx⟩ := exists_mem_of_ne_nil _ h
  obtain ⟨hmem, hle⟩ := mem_filter.1 hx
  obtain ⟨r, hr, rfl⟩ := mem_map.1 hmem
  obtain ⟨p, rest, htimers⟩ := exists_cons_of_ne_nil (ne_nil_of_mem hr)
  have hfirst : (q.timer p).expiration ∈ q.earliest := by rw [TimerQueue.earliest, htimers]; rfl
  exact ⟨p, rest, htimers, (earliest_le inv.sorted hfirst hr).trans (of_decide_eq_true hle)⟩

theorem QueueInv.rounds (inv : QueueInv [] q) (hphase : q.phase = .popping now)
    (hlate : ∀ x ∈ q.due now, x.repeats = true → now < (x.restart now).expiration) :
    ∃ t, run queueStep q (rounds (q.due now).length) = some t ∧ QueueInv [] t ∧ t.phase = .popping now ∧
      t.due now = [] ∧ t.started.Perm (q.started ++ (q.due now).map Timer.sequence) := by
  -- each round takes one timer from those that are due
  induction hn : (q.due now).length generalizing q with
  | zero =>
    have hnil := eq_nil_of_length_eq_zero hn
    exact ⟨q, rfl, inv, hphase, hnil, by rw [hnil, map_nil, append_nil]⟩
  | succ n ih =>
    obtain ⟨p, rest, htimers, hdue⟩ := inv.first_due (ne_nil_of_length_eq_add_one hn)
    obtain ⟨t, ht, invt, hphaset, hstarted, hperm⟩ := inv.round hphase htimers hdue
    have hq : q.due now = q.timer p :: (rest.map q.timer).filter (·.expiration ≤ now) := by
      rw [TimerQueue.due, TimerQueue.registered, htimers, map_cons, filter_cons_of_pos (by simpa using hdue)]
    have hleft : (t.due now).Perm ((rest.map q.timer).filter (·.expiration ≤ now)) := by
      refine (hperm.filter _).trans (List.Perm.of_eq ?_)
      split_ifs with hrepeats
      · -- the timer that goes back has an expiration after `now`
        exact filter_cons_of_neg (by simpa using hlate (q.timer p) (hq ▸ mem_cons_self) hrepeats)
      · rfl
    obtain ⟨u, hu, invu, hphaseu, hnone, hstartedu⟩ := ih invt hphaset
      (fun x hx => hlate x (hq ▸ mem_cons_of_mem _ (hleft.subset hx))) (by
      rw [hleft.length_eq]
      rw [hq, length_cons] at hn
      omega)
    refine ⟨u, ?_, invu, hphaseu, hnone, hstartedu.trans ?_⟩
    · rw [Net.rounds, run_append, ht]
      exact hu
    · rw [hstarted, hq, append_assoc]
      exact ((hleft.map Timer.sequence).cons _).append_left q.started

end Rounds

end Coropact.Net
