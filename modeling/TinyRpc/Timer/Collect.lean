import TinyRpc.Timer.Spec

/-!
# What `onTimer` collects

The first loop takes events that are not cancelled, each entry at most once.
The second one puts the repeated ones back.
-/

namespace TinyRpc.Timer

open Lib

variable {ι τ : Type}

/-! ## The loop over the pending events -/

theorem sweep_not_cancled {events : Events ι τ} {now : Int} {l : List (Int × ι)} {e : ι}
    (h : e ∈ (sweep events now l).1) : (events e).m_is_cancled = false := by
  induction l with
  | nil => cases h
  | cons p l ih =>
    unfold sweep at h
    split at h
    · split at h
      · cases h
      · rename_i hcancled
        rcases List.mem_cons.mp h with rfl | h
        · exact Bool.eq_false_iff.mpr hcancled
        · exact ih h
    · exact ih h

/-! ## Repeated events -/

/-- The events that are put back. -/
def repeats (events : Events ι τ) (l : List ι) : List ι :=
  l.filter fun e => (events e).m_is_repeated

theorem repeats_cons (events : Events ι τ) (e : ι) (l : List ι) :
    repeats events (e :: l) =
      if (events e).m_is_repeated then e :: repeats events l else repeats events l :=
  List.filter_cons

variable [DecidableEq ι]

/-- Adding repeated events again keeps what is pending, and changes only the
arrive times of repeated events. -/
structure Rearmed (tmps : List ι) (events : Events ι τ) (t : Timer ι)
    (r : Events ι τ × Timer ι) : Prop where
  repeated : ∀ e, (r.1 e).m_is_repeated = (events e).m_is_repeated
  cancled : ∀ e, (r.1 e).m_is_cancled = (events e).m_is_cancled
  arrive_time : ∀ e, (events e).m_is_repeated = false →
    (r.1 e).m_arrive_time = (events e).m_arrive_time
  keeps : ∀ p ∈ t.m_pending_events.entries, p ∈ r.2.m_pending_events.entries
  adds : ∀ e ∈ tmps, (events e).m_is_repeated = true → ∃ k, (k, e) ∈ r.2.m_pending_events.entries
  only : ∀ p ∈ r.2.m_pending_events.entries,
    p ∈ t.m_pending_events.entries ∨ (events p.2).m_is_repeated = true

theorem rearm_spec (tmps : List ι) (readings : List (Int × Int)) (events : Events ι τ)
    (t : Timer ι) : Rearmed tmps events t (rearm tmps readings events t) := by
  induction tmps generalizing readings events t with
  | nil =>
    exact ⟨fun _ => rfl, fun _ => rfl, fun _ _ => rfl, fun _ hp => hp,
      fun _ he => absurd he List.not_mem_nil, fun _ hp => Or.inl hp⟩
  | cons e tmps ih =>
    unfold rearm
    split
    · rename_i hrep
      have h := ih readings.tail (resetEvent events e (readings.headD (0, 0)).1)
        (t.addTimerEvent (resetEvent events e (readings.headD (0, 0)).1) e
          (readings.headD (0, 0)).2)
      constructor
      · intro x
        rw [h.repeated, resetEvent_repeated]
      · intro x
        rw [h.cancled, resetEvent_cancled]
      · intro x hx
        -- Only a repeated event gets a new arrive time.
        have hne : x ≠ e := by
          rintro rfl
          rw [hrep] at hx
          cases hx
        rw [h.arrive_time x (by rw [resetEvent_repeated, hx]), resetEvent_of_ne events _ hne]
      · intro p hp
        apply h.keeps
        rw [addTimerEvent_pending, Multimap.mem_emplace]
        exact Or.inr hp
      · intro x hx hxrep
        rcases List.mem_cons.mp hx with rfl | hx
        · refine ⟨(resetEvent events x (readings.headD (0, 0)).1 x).m_arrive_time, h.keeps _ ?_⟩
          rw [addTimerEvent_pending, Multimap.mem_emplace]
          exact Or.inl rfl
        · exact h.adds x hx (by rw [resetEvent_repeated, hxrep])
      · intro p hp
        rcases h.only p hp with hp | hp
        · rw [addTimerEvent_pending, Multimap.mem_emplace] at hp
          rcases hp with rfl | hp
          · exact Or.inr hrep
          · exact Or.inl hp
        · exact Or.inr (by rw [← hp, resetEvent_repeated])
    · rename_i hrep
      have h := ih readings events t
      refine ⟨h.repeated, h.cancled, h.arrive_time, h.keeps, fun x hx hxrep => ?_, h.only⟩
      rcases List.mem_cons.mp hx with rfl | hx
      · exact absurd hxrep hrep
      · exact h.adds x hx hxrep

@[simp] theorem repeats_resetEvent (events : Events ι τ) (e : ι) (now : Int) (l : List ι) :
    repeats (resetEvent events e now) l = repeats events l := by
  unfold repeats
  simp only [resetEvent_repeated]

theorem count_repeats {events : Events ι τ} {ev : ι} (h : (events ev).m_is_repeated = false)
    (l : List ι) : (repeats events l).count ev = 0 := by
  apply List.count_eq_zero_of_not_mem
  intro hmem
  have hrep := (List.mem_filter.mp hmem).2
  rw [h] at hrep
  cases hrep

theorem rearm_count (tmps : List ι) (readings : List (Int × Int)) (events : Events ι τ)
    (t : Timer ι) (ev : ι) :
    (rearm tmps readings events t).2.m_pending_events.countValue ev =
      t.m_pending_events.countValue ev + (repeats events tmps).count ev := by
  induction tmps generalizing readings events t with
  | nil => rfl
  | cons e tmps ih =>
    unfold rearm
    split
    · rename_i hrep
      rw [ih, addTimerEvent_pending, repeats_resetEvent, repeats_cons, if_pos hrep]
      rcases eq_or_ne e ev with rfl | hne
      · rw [Multimap.countValue_emplace_self, List.count_cons_self]
        omega
      · rw [Multimap.countValue_emplace_of_ne _ _ hne, List.count_cons_of_ne hne]
    · rename_i hrep
      rw [ih, repeats_cons, if_neg hrep]

theorem sweep_count (events : Events ι τ) (now : Int) (l : List (Int × ι)) (ev : ι) :
    (sweep events now l).1.count ev + ((l.drop (sweep events now l).2).map Prod.snd).count ev ≤
      (l.map Prod.snd).count ev := by
  induction l with
  | nil => exact Nat.le_refl _
  | cons p l ih =>
    unfold sweep
    split
    · split
      · simp
      · simp only [List.count_cons, List.drop_succ_cons, List.map_cons]
        omega
    · simp only [List.count_cons, List.drop_succ_cons, List.map_cons]
      omega

theorem onTimer_tasks (t : Timer ι) (events : Events ι τ) (now : Int)
    (readings : List (Int × Int)) (last : Int) :
    (t.onTimer events now readings last).tasks.map Prod.fst =
      (sweep events now t.m_pending_events.entries).1 := by
  unfold onTimer
  simp only [List.map_map]
  exact List.map_id _

theorem onTimer_count_le (t : Timer ι) (events : Events ι τ) (now : Int)
    (readings : List (Int × Int)) (last : Int) (ev : ι) :
    ((t.onTimer events now readings last).tasks.map Prod.fst).count ev +
        (t.onTimer events now readings last).timer.m_pending_events.countValue ev ≤
      t.m_pending_events.countValue ev +
        (repeats events ((t.onTimer events now readings last).tasks.map Prod.fst)).count ev := by
  rw [onTimer_tasks]
  unfold onTimer
  simp only [resetArriveTime_pending, rearm_count]
  have h := sweep_count events now t.m_pending_events.entries ev
  unfold Multimap.countValue Multimap.eraseFront
  simp only at h ⊢
  omega

theorem onTimer_count {t : Timer ι} {events : Events ι τ} {ev : ι}
    (h : (events ev).m_is_repeated = false) (now : Int) (readings : List (Int × Int))
    (last : Int) :
    ((t.onTimer events now readings last).tasks.map Prod.fst).count ev +
        (t.onTimer events now readings last).timer.m_pending_events.countValue ev ≤
      t.m_pending_events.countValue ev ∧
    (ev ∈ (t.onTimer events now readings last).tasks.map Prod.fst →
      (events ev).m_is_cancled = false) := by
  constructor
  · have hle := onTimer_count_le t events now readings last ev
    rwa [count_repeats h] at hle
  · rw [onTimer_tasks]
    exact sweep_not_cancled

theorem onTimer_flags (t : Timer ι) (events : Events ι τ) (now : Int)
    (readings : List (Int × Int)) (last : Int) (e : ι) :
    ((t.onTimer events now readings last).events e).m_is_repeated = (events e).m_is_repeated ∧
      ((t.onTimer events now readings last).events e).m_is_cancled = (events e).m_is_cancled := by
  have h := rearm_spec (sweep events now t.m_pending_events.entries).1 readings events
    { t with
      m_pending_events :=
        t.m_pending_events.eraseFront (sweep events now t.m_pending_events.entries).2 }
  exact ⟨h.repeated e, h.cancled e⟩

end TinyRpc.Timer
