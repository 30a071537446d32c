import TinyRpc.Timer.Arming

/-!
# When a timer is armed too late

`addTimerEvent` decides under the mutex and arms without it, so a call may arm
the descriptor with a copy that is out of date.
-/

namespace TinyRpc

open Lib

/-! ## What should hold -/

namespace SharedTimer

variable {ι τ : Type}

/-- What is pending is on time: the descriptor is readable, or its deadline is
not later than the earliest arrive time or 100 ms after it was armed. -/
def Armed (s : SharedTimer ι τ) : Prop :=
  s.timer.m_pending_events.entries ≠ [] → ∃ deadline, s.timer.m_fd = some deadline ∧
    (deadline ≤ s.clock ∨ ∀ p ∈ s.timer.m_pending_events.entries,
      deadline ≤ max (s.events p.2).m_arrive_time (s.armed_at + 100))

/-- The first event of the copy was at most 100 ms ahead, or the time since the
reading of the clock does not put it behind an event that is pending now. -/
def Fresh (s : SharedTimer ι τ) (arrive_time now : Int) : Prop :=
  arrive_time ≤ now + 100 ∨ ∀ p ∈ s.timer.m_pending_events.entries,
    arrive_time + (s.clock - now) ≤ (s.events p.2).m_arrive_time

end SharedTimer

namespace Arming

variable {ι τ θ : Type}

/-- No call is in progress. -/
def Idle (s : Arming ι τ θ) : Prop := (∀ t, s.adding t = none) ∧ s.loop = .idle

def InTime (s : Arming ι τ θ) : Prop := s.Idle → s.Armed

/-- The last call that is in progress arms the descriptor with a copy and a
reading that are fresh. -/
def Timely (s : Arming ι τ θ) : Step ι θ → Prop
  | .resume t => ∀ arrive_time now, s.adding t = some (.settime arrive_time now) →
    (∀ u, u ≠ t → s.adding u = none) → s.loop = .idle → s.Fresh arrive_time now
  | .onTimer => ∀ arrive_time now, s.loop = .last (.settime arrive_time now) →
    (∀ u, s.adding u = none) → s.Fresh arrive_time now
  | _ => True

end Arming


/-! ## What the steps do to the descriptor -/

namespace SharedTimer

variable {ι τ : Type} {s : SharedTimer ι τ}

theorem armed_of_empty (h : s.timer.m_pending_events.entries = []) : s.Armed :=
  fun hne => absurd h hne

theorem Armed.of_subset (h : s.Armed) {m_pending_events : Multimap Int ι}
    (hsub : ∀ p ∈ m_pending_events.entries, p ∈ s.timer.m_pending_events.entries) :
    Armed { s with timer := { s.timer with m_pending_events } } := by
  intro hne
  obtain ⟨p, hp⟩ := List.exists_mem_of_ne_nil _ hne
  obtain ⟨deadline, hfd, hor⟩ := h (List.ne_nil_of_mem (hsub p hp))
  refine ⟨deadline, hfd, ?_⟩
  rcases hor with hpast | hall
  · exact Or.inl hpast
  · exact Or.inr fun p hp => hall p (hsub p hp)

theorem Armed.tick (h : s.Armed) (n : Nat) : Armed { s with clock := s.clock + n } := by
  intro hne
  obtain ⟨deadline, hfd, hor⟩ := h hne
  refine ⟨deadline, hfd, ?_⟩
  rcases hor with hpast | hall
  · left
    change deadline ≤ s.clock + n
    omega
  · exact Or.inr hall

theorem Armed.setCancle [DecidableEq ι] (h : s.Armed) (e : ι) (value : Bool) :
    Armed { s with events := Timer.setCancle s.events e value } := by
  intro hne
  obtain ⟨deadline, hfd, hor⟩ := h hne
  refine ⟨deadline, hfd, ?_⟩
  simpa only [Timer.setCancle_arrive_time] using hor

theorem Armed.add (h : s.Armed) {e : ι} (hkept : (s.add e).2 = none) : (s.add e).1.Armed := by
  have hfirst : s.timer.isFirst s.events e = false := by
    cases hf : s.timer.isFirst s.events e with
    | false => rfl
    | true =>
      unfold SharedTimer.add at hkept
      rw [hf] at hkept
      cases hkept
  unfold Timer.isFirst at hfirst
  split at hfirst
  · cases hfirst
  · -- The deadline is for the first entry, and the new event is not earlier.
    rename_i k first rest hentries
    have hle : (s.events first).m_arrive_time ≤ (s.events e).m_arrive_time := by
      simpa using hfirst
    have hmem : (k, first) ∈ s.timer.m_pending_events.entries := by
      rw [hentries]
      exact List.mem_cons_self
    obtain ⟨deadline, hfd, hor⟩ := h (List.ne_nil_of_mem hmem)
    refine fun _ => ⟨deadline, hfd, ?_⟩
    rcases hor with hpast | hall
    · exact Or.inl hpast
    · right
      intro p hp
      rcases Multimap.mem_emplace.mp hp with rfl | hp
      · have hfirst := hall _ hmem
        change deadline ≤ max (s.events e).m_arrive_time (s.armed_at + 100)
        simp only at hfirst
        omega
      · exact hall p hp

theorem settime_armed_iff (s : SharedTimer ι τ) (arrive_time now : Int) :
    (s.settime arrive_time now).Armed ↔ s.Fresh arrive_time now := by
  unfold Armed Fresh settime
  simp only
  constructor
  · intro h
    by_contra hnot
    obtain ⟨hfar, hlate⟩ := not_or.mp hnot
    obtain ⟨p, hp, hlt⟩ : ∃ p ∈ s.timer.m_pending_events.entries,
        ¬ arrive_time + (s.clock - now) ≤ (s.events p.2).m_arrive_time := by
      by_contra hno
      exact hlate fun p hp => by_contra fun hlt => hno ⟨p, hp, hlt⟩
    obtain ⟨deadline, hfd, hor⟩ := h (List.ne_nil_of_mem hp)
    rw [if_pos (by omega)] at hfd
    cases hfd
    rcases hor with hpast | hall
    · omega
    · have hle := hall p hp
      omega
  · intro h hne
    refine ⟨_, rfl, Or.inr fun p hp => ?_⟩
    rcases h with hnear | hall
    · split <;> omega
    · have hle := hall p hp
      split <;> omega

theorem reset_armed_iff (s : SharedTimer ι τ) {r : Reset ι} (hend : (s.reset r).2 = none) :
    (s.reset r).1.Armed ↔ ∀ arrive_time now, r = .settime arrive_time now →
      s.Fresh arrive_time now := by
  cases r with
  | copy =>
    simp only [reset] at hend ⊢
    split
    · rename_i hempty
      exact ⟨fun _ _ _ heq => (by cases heq), fun _ => armed_of_empty hempty⟩
    · rename_i hentries
      rw [hentries] at hend
      cases hend
  | read first => cases hend
  | settime arrive_time now =>
    change (s.settime arrive_time now).Armed ↔ _
    rw [settime_armed_iff]
    constructor
    · intro h arrive_time' now' heq
      cases heq
      exact h
    · exact fun h => h arrive_time now rfl

end SharedTimer

namespace Arming

variable {ι τ θ : Type}

/-! ## Steps -/

theorem last_inTime_iff {s : Arming ι τ θ} {r : Reset ι} (hr : s.loop = .last r) :
    (s.setLoop (s.toSharedTimer.reset r) .idle .last).InTime ↔ s.Timely .onTimer := by
  have hidle : (s.setLoop (s.toSharedTimer.reset r) .idle .last).Idle ↔
      (∀ u, s.adding u = none) ∧ (s.toSharedTimer.reset r).2 = none := by
    unfold Idle setLoop share
    cases (s.toSharedTimer.reset r).2 <;> simp
  unfold InTime
  rw [hidle]
  constructor
  · intro h arrive_time now hsettime hothers
    rw [hr] at hsettime
    cases hsettime
    exact (s.reset_armed_iff rfl).mp (h ⟨hothers, rfl⟩) arrive_time now rfl
  · rintro h ⟨hothers, hend⟩
    apply (s.reset_armed_iff hend).mpr
    intro arrive_time now heq
    rw [heq] at hr
    exact h arrive_time now hr hothers

section OnTimer

variable [DecidableEq ι]

theorem onTimer_busy {s : Arming ι τ θ} (h : ∀ r, s.loop ≠ .last r) : s.onTimer.loop ≠ .idle := by
  have hloop (r : SharedTimer ι τ × Option (Reset ι)) (tmps : List ι) :
      (s.setLoop r (.rearm tmps) fun r => .reset r tmps).loop ≠ .idle := by
    unfold setLoop
    cases r.2 <;> simp
  unfold onTimer
  split
  · simp
  · simp
  · simp
  · simp
  · split <;> simp
  · exact hloop _ _
  · exact hloop _ _
  · rename_i r hr
    exact absurd hr (h r)

theorem onTimer_inTime_iff (s : Arming ι τ θ) : s.onTimer.InTime ↔ s.Timely .onTimer := by
  by_cases hlast : ∃ r, s.loop = .last r
  · obtain ⟨r, hr⟩ := hlast
    have hnext : s.onTimer = s.setLoop (s.toSharedTimer.reset r) .idle .last := by
      unfold onTimer
      rw [hr]
    rw [hnext]
    exact last_inTime_iff hr
  · have hnot : ∀ r, s.loop ≠ .last r := fun r hr => hlast ⟨r, hr⟩
    constructor
    · intro _ arrive_time now hr
      exact absurd hr (hnot _)
    · intro _ hidle
      exact absurd hidle.2 (onTimer_busy hnot)

end OnTimer

variable [DecidableEq θ]

theorem idle_setAdding {s : Arming ι τ θ} {t : θ} {r : SharedTimer ι τ × Option (Reset ι)} :
    (s.setAdding t r).Idle ↔ r.2 = none ∧ (∀ u, u ≠ t → s.adding u = none) ∧ s.loop = .idle := by
  unfold Idle setAdding share
  simp only
  constructor
  · rintro ⟨hall, hloop⟩
    refine ⟨?_, fun u hu => ?_, hloop⟩
    · have ht := hall t
      rwa [Function.update_self] at ht
    · have hu' := hall u
      rwa [Function.update_of_ne hu] at hu'
  · rintro ⟨hr, hothers, hloop⟩
    refine ⟨fun u => ?_, hloop⟩
    rcases eq_or_ne u t with rfl | hu
    · rw [Function.update_self, hr]
    · rw [Function.update_of_ne hu, hothers u hu]

theorem addTimerEvent_inTime {s : Arming ι τ θ} (hs : s.InTime) {t : θ} (e : ι)
    (hidle : s.adding t = none) : (s.setAdding t (s.toSharedTimer.add e)).InTime := by
  intro h
  obtain ⟨hkept, hothers, hloop⟩ := idle_setAdding.mp h
  have hsidle : s.Idle := by
    refine ⟨fun u => ?_, hloop⟩
    rcases eq_or_ne u t with rfl | hu
    · exact hidle
    · exact hothers u hu
  exact (hs hsidle).add hkept

theorem resume_inTime_iff {s : Arming ι τ θ} {t : θ} {r : Reset ι} (hr : s.adding t = some r) :
    (s.setAdding t (s.toSharedTimer.reset r)).InTime ↔ s.Timely (.resume t) := by
  unfold InTime
  rw [idle_setAdding]
  constructor
  · intro h arrive_time now hsettime hothers hloop
    rw [hr] at hsettime
    cases hsettime
    have harmed := h ⟨rfl, hothers, hloop⟩
    exact (s.reset_armed_iff rfl).mp harmed arrive_time now rfl
  · rintro h ⟨hend, hothers, hloop⟩
    apply (s.reset_armed_iff hend).mpr
    intro arrive_time now heq
    rw [heq] at hr
    exact h arrive_time now hr hothers hloop

variable [DecidableEq ι]

theorem next_inTime_iff {s t : Arming ι τ θ} {e : Step ι θ} (hs : s.InTime)
    (h : s.next e = some t) : t.InTime ↔ s.Timely e := by
  cases e with
  | tick n =>
    cases h
    exact ⟨fun _ => trivial, fun _ hidle => (hs hidle).tick n⟩
  | addTimerEvent th e =>
    simp only [next, Option.ite_none_left_eq_some, Option.some.injEq] at h
    obtain ⟨hidle, rfl⟩ := h
    exact ⟨fun _ => trivial, fun _ => addTimerEvent_inTime hs e (by simpa using hidle)⟩
  | resume th =>
    obtain ⟨r, hr, rfl⟩ := Option.map_eq_some_iff.mp h
    exact resume_inTime_iff hr
  | onTimer =>
    cases h
    exact s.onTimer_inTime_iff
  | setCancle e value =>
    cases h
    exact ⟨fun _ => trivial, fun _ hidle => (hs hidle).setCancle e value⟩
  | erase e =>
    cases h
    refine ⟨fun _ => trivial, fun _ hidle => (hs hidle).of_subset fun p hp => ?_⟩
    exact Multimap.mem_of_mem_eraseEntry hp

/-! ## Runs -/

/-- A run is in time as long as the last call in progress arms the descriptor
freshly, and the first stale one is too late. -/
theorem inTime_iff_timely (es : List (Step ι θ)) (s : Arming ι τ θ)
    (hrun : (system.restrict Timely).Run es s) :
    s.InTime ∧ ∀ e t, s.next e = some t → (t.InTime ↔ s.Timely e) := by
  have hs : s.InTime := by
    apply hrun.invariant (I := InTime)
    · rintro s ⟨clock, events, rfl⟩ _
      exact SharedTimer.armed_of_empty rfl
    · intro s e t hs ⟨htimely, ht⟩
      exact (next_inTime_iff hs ht).mpr htimely
  exact ⟨hs, fun e t ht => next_inTime_iff hs ht⟩

/-! ## Two threads -/

def arrivals (e : Bool) : TimerEvent Unit where
  m_arrive_time := if e then 1000 else 500
  m_interval := 0
  m_task := ()

def unarmed : Arming Bool Unit Bool := { clock := 0, events := arrivals }

theorem unarmed_start : system.start unarmed := ⟨0, arrivals, rfl⟩

theorem inTime_iff_timely_two :
    ∃ s : Arming Bool Unit Bool, s.timer.m_fd = some 500 ∧
      s.timer.m_pending_events.entries = [(500, false), (1000, true)] ∧ s.Idle ∧ s.InTime := by
  have h0 : (system.restrict Timely).Run [] unarmed := System.Run.start unarmed_start
  have h1 := h0.step (e := Step.addTimerEvent true true) ⟨trivial, rfl⟩
  have h2 := h1.step (e := Step.resume true) ⟨fun _ _ h => (by cases h), rfl⟩
  have h3 := h2.step (e := Step.addTimerEvent false false) ⟨trivial, rfl⟩
  have h4 := h3.step (e := Step.resume true) ⟨fun _ _ h => (by cases h), rfl⟩
  have h5 := h4.step (e := Step.resume false) ⟨fun _ _ h => (by cases h), rfl⟩
  -- the call with the later event arms while the other one is in progress
  have h6 := h5.step (e := Step.resume true)
    ⟨fun _ _ _ hothers => (by cases hothers false (by decide)), rfl⟩
  have h7 := h6.step (e := Step.resume false) ⟨fun _ _ h => (by cases h), rfl⟩
  refine ⟨_, ?_, ?_, ?_, ((inTime_iff_timely _ _ h7).2 (.resume false) _ rfl).mpr ?_⟩
  · rfl
  · rfl
  · exact ⟨fun t => by cases t <;> rfl, rfl⟩
  · intro arrive_time now h _ _
    cases h
    right
    decide

/-- Both calls copy, and the one with the later event arms last. -/
def crossing : List (Step Bool Bool) :=
  [.addTimerEvent true true, .resume true, .addTimerEvent false false, .resume false,
    .resume false, .resume false, .resume true, .resume true]

theorem crossing_not_inTime : ∃ s : Arming Bool Unit Bool, system.Run crossing s ∧ ¬ s.InTime := by
  refine ⟨_, System.Run.of_next (fun _ _ _ h => h) unarmed_start rfl, fun h => ?_⟩
  obtain ⟨deadline, hfd, hor⟩ := h ⟨fun t => by cases t <;> rfl, rfl⟩ (by decide)
  cases hfd
  revert hor
  decide

end Arming

end TinyRpc
