import Mathlib.Data.List.TakeWhile
import TinyRpc.Timer.Pending

/-!
# Cancelled events that are due

The first loop of `onTimer` leaves at the first of them, and does not erase
it. So it stays where it is, and no entry behind it is looked at.
-/

namespace TinyRpc.Timer

open Lib

variable {ι τ : Type}

/-- The entry makes the loop leave. -/
def Blocks (events : Events ι τ) (now : Int) (p : Int × ι) : Prop :=
  p.1 ≤ now ∧ (events p.2).m_is_cancled = true

instance (events : Events ι τ) (now : Int) : DecidablePred (Blocks events now) :=
  fun _ => inferInstanceAs (Decidable (_ ∧ _))

/-- The entries that the loop passes. -/
def passed (events : Events ι τ) (now : Int) (l : List (Int × ι)) : List (Int × ι) :=
  l.takeWhile fun p => ¬ Blocks events now p

theorem passed_cons_of_blocks {events : Events ι τ} {now : Int} {p : Int × ι}
    (h : Blocks events now p) (l : List (Int × ι)) : passed events now (p :: l) = [] :=
  List.takeWhile_cons_of_neg (by simpa using h)

theorem passed_cons_of_not {events : Events ι τ} {now : Int} {p : Int × ι}
    (h : ¬ Blocks events now p) (l : List (Int × ι)) :
    passed events now (p :: l) = p :: passed events now l :=
  List.takeWhile_cons_of_pos (by simpa using h)

theorem sweep_eq (events : Events ι τ) (now : Int) (l : List (Int × ι)) :
    sweep events now l =
      (((passed events now l).filter fun p => p.1 ≤ now).map Prod.snd,
        (passed events now l).length) := by
  induction l with
  | nil => rfl
  | cons p l ih =>
    unfold sweep
    split
    · rename_i hdue
      split
      · rename_i hcancled
        rw [passed_cons_of_blocks ⟨hdue, hcancled⟩]
        rfl
      · rename_i hcancled
        rw [passed_cons_of_not (fun h => hcancled h.2), ih,
          List.filter_cons_of_pos (by simpa using hdue)]
        rfl
    · rename_i hdue
      rw [passed_cons_of_not (fun h => hdue h.1), ih,
        List.filter_cons_of_neg (by simpa using hdue)]
      rfl

theorem passed_eq_self_iff {events : Events ι τ} {now : Int} {l : List (Int × ι)} :
    passed events now l = l ↔ ∀ p ∈ l, ¬ Blocks events now p := by
  unfold passed
  rw [List.takeWhile_eq_self_iff]
  exact forall₂_congr fun _ _ => decide_eq_true_iff

theorem blocked_kept {events : Events ι τ} {now : Int} {l : List (Int × ι)}
    (h : ∃ p ∈ l, Blocks events now p) :
    ∃ p ∈ l.drop (sweep events now l).2, Blocks events now p := by
  obtain ⟨p, hp, hb⟩ := h
  refine ⟨p, ?_, hb⟩
  rw [sweep_eq]
  rw [← List.take_append_drop (passed events now l).length l, List.mem_append] at hp
  refine hp.resolve_left fun hmem => ?_
  have hpre : passed events now l <+: l := List.takeWhile_prefix _
  rw [← List.prefix_iff_eq_take.mp hpre] at hmem
  have hnot := List.mem_takeWhile_imp hmem
  exact absurd hb (by simpa using hnot)

section OnTimer

variable [DecidableEq ι]

/-- What a call of `onTimer` owes to the entries that are due: the task of one
that is not cancelled is run, and one that is cancelled is removed. -/
structure Unblocked (t : Timer ι) (events : Events ι τ) (now : Int) (r : OnTimer ι τ) : Prop where
  runs : ∀ p ∈ t.m_pending_events.entries, p.1 ≤ now → (events p.2).m_is_cancled = false →
    p.2 ∈ r.tasks.map Prod.fst
  removes : ∀ p ∈ t.m_pending_events.entries, p.1 ≤ now → (events p.2).m_is_cancled = true →
    p ∉ r.timer.m_pending_events.entries

theorem onTimer_keeps (t : Timer ι) (events : Events ι τ) (now : Int)
    (readings : List (Int × Int)) (last : Int) :
    ∀ p ∈ t.m_pending_events.entries.drop (sweep events now t.m_pending_events.entries).2,
      p ∈ (t.onTimer events now readings last).timer.m_pending_events.entries := by
  intro p hp
  unfold onTimer
  simp only [resetArriveTime_pending]
  exact (rearm_spec _ readings events _).keeps p hp

/-- A call does what it owes exactly when no cancelled event is due. -/
theorem unblocked_iff (t : Timer ι) (events : Events ι τ) (now : Int)
    (readings : List (Int × Int)) (last : Int) :
    Unblocked t events now (t.onTimer events now readings last) ↔
      ∀ p ∈ t.m_pending_events.entries, p.1 ≤ now → (events p.2).m_is_cancled = false := by
  constructor
  · intro h
    by_contra hnot
    have hblocked : ∃ p ∈ t.m_pending_events.entries, Blocks events now p := by
      by_contra hno
      exact hnot fun p hp hdue => Bool.eq_false_iff.mpr fun hc => hno ⟨p, hp, hdue, hc⟩
    obtain ⟨p, hp, hdue, hcancled⟩ := blocked_kept hblocked
    exact h.removes p (List.mem_of_mem_drop hp) hdue hcancled
      (onTimer_keeps t events now readings last p hp)
  · intro h
    have hall : passed events now t.m_pending_events.entries = t.m_pending_events.entries := by
      rw [passed_eq_self_iff]
      rintro p hp ⟨hdue, hcancled⟩
      rw [h p hp hdue] at hcancled
      cases hcancled
    constructor
    · intro p hp hdue _
      rw [onTimer_tasks, sweep_eq, hall]
      exact List.mem_map_of_mem (List.mem_filter.mpr ⟨hp, decide_eq_true hdue⟩)
    · intro p hp hdue hcancled
      rw [h p hp hdue] at hcancled
      cases hcancled

end OnTimer

/-- Two events that are due, the first one cancelled. -/
def behindCancled : Timer Bool where
  m_pending_events := (Multimap.empty.emplace 10 false).emplace 20 true

def cancledFirst : Events Bool Unit := fun e =>
  { m_arrive_time := if e then 20 else 10, m_interval := 10, m_is_cancled := !e, m_task := () }

theorem cancled_blocks :
    (behindCancled.onTimer cancledFirst 30 [] 30).tasks = [] ∧
    (behindCancled.onTimer cancledFirst 30 [] 30).timer.m_pending_events.entries =
      [(10, false), (20, true)] ∧
    ¬ (∀ (t : Timer Bool) (events : Events Bool Unit) now readings last,
      Unblocked t events now (t.onTimer events now readings last)) := by
  refine ⟨rfl, rfl, fun h => ?_⟩
  have hruns := (h behindCancled cancledFirst 30 [] 30).runs (20, true) (by decide) (by decide) rfl
  cases hruns

end TinyRpc.Timer
