import TinyRpc.Lib.Runs
import TinyRpc.Timer.Collect

/-!
# Which events a timer loses

The first loop of `onTimer` stops only at a cancelled event that is due. When
it meets none it runs to the end, and everything pending is erased.
-/

namespace TinyRpc.Timer

open Lib

variable {ι τ : Type}

/-! ## The loop over the pending events -/

/-- No entry is later than `now`, or an entry that is due is cancelled. -/
def Spares (events : Events ι τ) (now : Int) (l : List (Int × ι)) : Prop :=
  (∀ p ∈ l, p.1 ≤ now) ∨ ∃ p ∈ l, p.1 ≤ now ∧ (events p.2).m_is_cancled = true

/-- `onTimer` erases no entry that is later than `now`. -/
def KeepsLater (events : Events ι τ) (now : Int) (l : List (Int × ι)) : Prop :=
  ∀ p ∈ l, now < p.1 → p ∈ l.drop (sweep events now l).2

theorem sweep_spares {events : Events ι τ} {now : Int} {l : List (Int × ι)} (hs : Sorted l)
    (h : Spares events now l) :
    (sweep events now l).1 = (l.take (sweep events now l).2).map Prod.snd ∧
      ∀ p ∈ l.take (sweep events now l).2, p.1 ≤ now := by
  induction l with
  | nil => simp [sweep]
  | cons p l ih =>
    obtain ⟨hp, hl⟩ := List.pairwise_cons.mp hs
    -- The list is sorted, so a due entry behind this one makes it due.
    have hdue : p.1 ≤ now := by
      rcases h with h | ⟨q, hq, hle, -⟩
      · exact h p List.mem_cons_self
      · rcases List.mem_cons.mp hq with rfl | hq
        · exact hle
        · exact Int.le_trans (hp q hq) hle
    simp only [sweep, hdue, if_true]
    split
    · simp
    · rename_i hcancled
      have hrest : Spares events now l := by
        rcases h with h | ⟨q, hq, hle, hc⟩
        · exact Or.inl fun q hq => h q (List.mem_cons_of_mem _ hq)
        · rcases List.mem_cons.mp hq with rfl | hq
          · exact absurd hc hcancled
          · exact Or.inr ⟨q, hq, hle, hc⟩
      obtain ⟨h1, h2⟩ := ih hl hrest
      refine ⟨by rw [List.take_succ_cons, List.map_cons, ← h1], ?_⟩
      rw [List.take_succ_cons, List.forall_mem_cons]
      exact ⟨hdue, h2⟩

theorem sweep_all {events : Events ι τ} {now : Int} {l : List (Int × ι)}
    (h : ∀ p ∈ l, p.1 ≤ now → (events p.2).m_is_cancled = false) :
    (sweep events now l).2 = l.length := by
  induction l with
  | nil => rfl
  | cons p l ih =>
    obtain ⟨hp, hl⟩ := List.forall_mem_cons.mp h
    simp only [sweep]
    split
    · rename_i hdue
      simp only [hp hdue, Bool.false_eq_true, if_false, List.length_cons, ih hl]
    · simp only [List.length_cons, ih hl]

theorem keepsLater_iff {events : Events ι τ} {now : Int} {l : List (Int × ι)} (hs : Sorted l) :
    KeepsLater events now l ↔ Spares events now l := by
  constructor
  · intro h
    by_contra hnot
    obtain ⟨hlater, hdue⟩ := not_or.mp hnot
    obtain ⟨p, hp, hlt⟩ : ∃ p ∈ l, now < p.1 := by
      by_contra hno
      exact hlater fun p hp => Int.not_lt.mp fun hlt => hno ⟨p, hp, hlt⟩
    have hall := sweep_all fun q hq hle => Bool.eq_false_iff.mpr fun hc => hdue ⟨q, hq, hle, hc⟩
    have hmem := h p hp hlt
    rw [hall, List.drop_length] at hmem
    cases hmem
  · intro h p hp hlt
    rw [← List.take_append_drop (sweep events now l).2 l, List.mem_append] at hp
    rcases hp with hp | hp
    · exact absurd ((sweep_spares hs h).2 p hp) (Int.not_le.mpr hlt)
    · exact hp

/-! ## One call -/

section OnTimer

variable [DecidableEq ι]

/-- A call of `onTimer` that spares the later entries. An entry stays, or it is
due and its task is run, and a repeated event is pending again. -/
structure Fires (t : Timer ι) (events : Events ι τ) (now : Int) (r : OnTimer ι τ) : Prop where
  repeated : ∀ e, (r.events e).m_is_repeated = (events e).m_is_repeated
  cancled : ∀ e, (r.events e).m_is_cancled = (events e).m_is_cancled
  arrive_time : ∀ e, (events e).m_is_repeated = false →
    (r.events e).m_arrive_time = (events e).m_arrive_time
  entry : ∀ p ∈ t.m_pending_events.entries, p ∈ r.timer.m_pending_events.entries ∨
    (p.1 ≤ now ∧ (p.2, (events p.2).m_arrive_time) ∈ r.tasks ∧
      ((events p.2).m_is_repeated = true →
        ∃ k, (k, p.2) ∈ r.timer.m_pending_events.entries))
  only : ∀ p ∈ r.timer.m_pending_events.entries,
    p ∈ t.m_pending_events.entries ∨ (events p.2).m_is_repeated = true

theorem onTimer_fires (t : Timer ι) (events : Events ι τ) (now : Int)
    (readings : List (Int × Int)) (last : Int)
    (hspares : Spares events now t.m_pending_events.entries) :
    Fires t events now (t.onTimer events now readings last) := by
  obtain ⟨htmps, hdue⟩ := sweep_spares t.m_pending_events.sorted hspares
  unfold onTimer
  generalize sweep events now t.m_pending_events.entries = tmps at htmps hdue
  have h := rearm_spec tmps.1 readings events
    { t with m_pending_events := t.m_pending_events.eraseFront tmps.2 }
  refine ⟨h.repeated, h.cancled, h.arrive_time, fun p hp => ?_, fun p hp => ?_⟩
  · simp only [resetArriveTime_pending]
    rw [← List.take_append_drop tmps.2 t.m_pending_events.entries, List.mem_append] at hp
    rcases hp with hp | hp
    · right
      have hmem : p.2 ∈ tmps.1 := by
        rw [htmps]
        exact List.mem_map_of_mem hp
      exact ⟨hdue p hp, List.mem_map_of_mem hmem, h.adds p.2 hmem⟩
    · exact Or.inl (h.keeps p hp)
  · simp only [resetArriveTime_pending] at hp
    rcases h.only p hp with hp | hp
    · exact Or.inl (Multimap.mem_of_mem_eraseFront hp)
    · exact Or.inr hp

end OnTimer

/-! ## Runs -/

structure Ran (ι : Type) where
  event : ι
  arrive_time : Int
  now : Int

/-- A timer and its events, the events that were ever added, those that were
ever cancelled or deleted, and the tasks that have run. -/
structure State (ι τ : Type) where
  events : Events ι τ
  timer : Timer ι
  added : List ι
  stopped : List ι
  ran : List (Ran ι)

inductive Op (ι : Type) where
  | addTimerEvent (e : ι) (now : Int)
  | deleteTimerEvent (e : ι)
  | setCancle (e : ι)
  | onTimer (now : Int) (readings : List (Int × Int)) (last : Int)

section Run

variable [DecidableEq ι]

def next (s : State ι τ) : Op ι → State ι τ
  | .addTimerEvent e now =>
    { s with timer := s.timer.addTimerEvent s.events e now, added := s.added ++ [e] }
  | .deleteTimerEvent e =>
    let events := setCancle s.events e true
    { s with events, timer := s.timer.deleteTimerEvent events e, stopped := s.stopped ++ [e] }
  | .setCancle e =>
    { s with events := setCancle s.events e true, stopped := s.stopped ++ [e] }
  | .onTimer now readings last =>
    let r := s.timer.onTimer s.events now readings last
    { s with
      events := r.events
      timer := r.timer
      ran := s.ran ++ r.tasks.map fun p => ⟨p.1, p.2, now⟩ }

/-- The runs of a timer, from an empty one on. No event is cancelled at first. -/
def system : System (State ι τ) (Op ι) where
  start s := s.timer.m_pending_events.entries = [] ∧ (∀ e, (s.events e).m_is_cancled = false) ∧
    s.added = [] ∧ s.stopped = [] ∧ s.ran = []
  step s op t := t = next s op

/-- The calls that lose nothing: a call of `onTimer` finds no entry later than
its clock reading, or a cancelled event that is due. -/
def Spared (s : State ι τ) : Op ι → Prop
  | .onTimer now _ _ => Spares s.events now s.timer.m_pending_events.entries
  | _ => True

def Pends (s : State ι τ) (e : ι) : Prop := ∃ k, (k, e) ∈ s.timer.m_pending_events.entries

def HasRun (s : State ι τ) (e : ι) : Prop :=
  ∃ r ∈ s.ran, r.event = e ∧ (s.events e).m_arrive_time ≤ r.now

/-- Every event that was added, and never cancelled or deleted, is pending or has run. -/
def NoLost (s : State ι τ) : Prop :=
  ∀ e ∈ s.added, e ∉ s.stopped → Pends s e ∨ HasRun s e

/-- What carries `NoLost` from step to step: only one-shot events count as
done, and their entries stand at their arrive times. -/
structure Kept (s : State ι τ) : Prop where
  cancled : ∀ e, (s.events e).m_is_cancled = true → e ∈ s.stopped
  key : ∀ p ∈ s.timer.m_pending_events.entries, (s.events p.2).m_is_repeated = false →
    p.1 = (s.events p.2).m_arrive_time
  kept : ∀ e ∈ s.added, e ∉ s.stopped →
    Pends s e ∨ ((s.events e).m_is_repeated = false ∧ HasRun s e)

theorem Kept.add {s : State ι τ} (h : Kept s) (e : ι) (now : Int) :
    Kept (next s (.addTimerEvent e now)) := by
  have hpend : ∀ p, p ∈ (next s (.addTimerEvent e now)).timer.m_pending_events.entries ↔
      p = ((s.events e).m_arrive_time, e) ∨ p ∈ s.timer.m_pending_events.entries := by
    intro p
    simp only [next, addTimerEvent_pending, Multimap.mem_emplace]
  refine ⟨h.cancled, fun p hp hrep => ?_, fun x hx hstop => ?_⟩
  · rcases (hpend p).mp hp with rfl | hp
    · rfl
    · exact h.key p hp hrep
  · rcases List.mem_append.mp hx with hx | hx
    · rcases h.kept x hx hstop with ⟨k, hk⟩ | hran
      · exact Or.inl ⟨k, (hpend _).mpr (Or.inr hk)⟩
      · exact Or.inr hran
    · rw [List.mem_singleton.mp hx]
      exact Or.inl ⟨_, (hpend _).mpr (Or.inl rfl)⟩

theorem Kept.stop {s t : State ι τ} (h : Kept s) (e : ι)
    (hevents : t.events = setCancle s.events e true) (hadded : t.added = s.added)
    (hstopped : t.stopped = s.stopped ++ [e]) (hran : t.ran = s.ran)
    (hsub : ∀ p ∈ t.timer.m_pending_events.entries, p ∈ s.timer.m_pending_events.entries)
    (hkeep : ∀ p ∈ s.timer.m_pending_events.entries, p.2 ≠ e →
      p ∈ t.timer.m_pending_events.entries) : Kept t := by
  refine ⟨fun x hx => ?_, fun p hp hrep => ?_, fun x hx hstop => ?_⟩
  · rw [hstopped, List.mem_append, List.mem_singleton]
    rcases eq_or_ne x e with rfl | hne
    · exact Or.inr rfl
    · rw [hevents, setCancle_of_ne s.events true hne] at hx
      exact Or.inl (h.cancled x hx)
  · rw [hevents, setCancle_repeated] at hrep
    rw [hevents, setCancle_arrive_time]
    exact h.key p (hsub p hp) hrep
  · rw [hadded] at hx
    rw [hstopped, List.mem_append, List.mem_singleton, not_or] at hstop
    rcases h.kept x hx hstop.1 with ⟨k, hk⟩ | ⟨hrep, r, hr, hre, hle⟩
    · exact Or.inl ⟨k, hkeep _ hk hstop.2⟩
    · refine Or.inr ⟨?_, r, by rw [hran]; exact hr, hre, ?_⟩
      · rw [hevents, setCancle_repeated]; exact hrep
      · rw [hevents, setCancle_arrive_time]; exact hle

theorem Kept.delete {s : State ι τ} (h : Kept s) (e : ι) :
    Kept (next s (.deleteTimerEvent e)) := by
  refine h.stop e rfl rfl rfl rfl (fun p hp => Multimap.mem_of_mem_eraseEntry hp) ?_
  intro p hp hne
  refine (Multimap.mem_eraseEntry ?_).mpr hp
  rintro rfl
  exact hne rfl

theorem Kept.cancel {s : State ι τ} (h : Kept s) (e : ι) : Kept (next s (.setCancle e)) :=
  h.stop e rfl rfl rfl rfl (fun _ hp => hp) (fun _ hp _ => hp)

theorem Kept.onTimer {s : State ι τ} (h : Kept s) (now : Int) (readings : List (Int × Int))
    (last : Int) (hspares : Spares s.events now s.timer.m_pending_events.entries) :
    Kept (next s (.onTimer now readings last)) := by
  have hf := onTimer_fires s.timer s.events now readings last hspares
  refine ⟨fun e he => ?_, fun p hp hrep => ?_, fun e he hstop => ?_⟩
  · simp only [next, hf.cancled] at he
    exact h.cancled e he
  · simp only [next, hf.repeated] at hp hrep ⊢
    rw [hf.arrive_time p.2 hrep]
    rcases hf.only p hp with hp | hp
    · exact h.key p hp hrep
    · rw [hrep] at hp
      cases hp
  · rcases h.kept e he hstop with ⟨k, hk⟩ | ⟨hrep, r, hr, hre, hle⟩
    · rcases hf.entry _ hk with hstay | ⟨hdue, htask, hagain⟩
      · exact Or.inl ⟨k, hstay⟩
      · cases hrep : (s.events e).m_is_repeated with
        | true => exact Or.inl (hagain hrep)
        | false =>
          refine Or.inr ⟨(hf.repeated e).trans hrep, ⟨e, (s.events e).m_arrive_time, now⟩, ?_, rfl, ?_⟩
          · exact List.mem_append_right _ (List.mem_map_of_mem htask)
          · have hkey : k = (s.events e).m_arrive_time := h.key _ hk hrep
            simp only [next, hf.arrive_time e hrep, ← hkey]
            exact hdue
    · refine Or.inr ⟨(hf.repeated e).trans hrep, r, List.mem_append_left _ hr, hre, ?_⟩
      simp only [next, hf.arrive_time e hrep]
      exact hle

theorem kept_run {es : List (Op ι)} {s : State ι τ} (hrun : (system.restrict Spared).Run es s) :
    Kept s := by
  refine hrun.invariant ?_ ?_
  · rintro s ⟨hnone, hcancled, hadded, -, -⟩
    refine ⟨fun e he => ?_, fun p hp => ?_, fun e he => ?_⟩
    · rw [hcancled] at he
      cases he
    · rw [hnone] at hp
      cases hp
    · rw [hadded] at he
      cases he
  · rintro s op t h ⟨hspared, rfl⟩
    cases op with
    | addTimerEvent e now => exact h.add e now
    | deleteTimerEvent e => exact h.delete e
    | setCancle e => exact h.cancel e
    | onTimer now readings last => exact h.onTimer now readings last hspared

/-- In a run whose calls of `onTimer` find no entry later than their clock
reading, or a cancelled event that is due, no event is lost. The next call
keeps the later entries exactly when it finds the same. -/
theorem no_lost_timer (es : List (Op ι)) (s : State ι τ)
    (hrun : (system.restrict Spared).Run es s) :
    NoLost s ∧ ∀ now readings last,
      KeepsLater s.events now s.timer.m_pending_events.entries ↔
        Spared s (.onTimer now readings last) := by
  constructor
  · intro e he hstop
    rcases (kept_run hrun).kept e he hstop with hpend | ⟨-, hran⟩
    · exact Or.inl hpend
    · exact Or.inr hran
  · intro now readings last
    exact keepsLater_iff s.timer.m_pending_events.sorted

end Run

def twoEvents : State Nat Unit where
  events e := TimerEvent.new (if e = 0 then 10 else 100) false () 0
  timer := {}
  added := []
  stopped := []
  ran := []

theorem twoEvents_start : (system : System (State Nat Unit) (Op Nat)).start twoEvents :=
  ⟨rfl, fun _ => rfl, rfl, rfl, rfl⟩

def twoCalls (now : Int) : List (Op Nat) :=
  [.addTimerEvent 0 0, .addTimerEvent 1 0, .onTimer now [] now]

theorem no_lost_timer_twoCalls : NoLost ((twoCalls 100).foldl next twoEvents) := by
  have h0 : (system.restrict Spared).Run [] twoEvents := System.Run.start twoEvents_start
  have h1 : (system.restrict Spared).Run [.addTimerEvent 0 0] _ := h0.step ⟨trivial, rfl⟩
  have h2 : (system.restrict Spared).Run [.addTimerEvent 0 0, .addTimerEvent 1 0] _ :=
    h1.step ⟨trivial, rfl⟩
  have h3 : (system.restrict Spared).Run (twoCalls 100) _ :=
    h2.step ⟨Or.inl (by decide), rfl⟩
  exact (no_lost_timer _ _ h3).1

theorem onTimer_loses :
    ∃ s : State Nat Unit, system.Run (twoCalls 10) s ∧ 1 ∈ s.added ∧ 1 ∉ s.stopped ∧
      ¬ NoLost s := by
  have hnext : ∀ (s : State Nat Unit) op t, some (next s op) = some t → system.step s op t :=
    fun _ _ _ h => (Option.some.inj h).symm
  refine ⟨(twoCalls 10).foldl next twoEvents, System.Run.of_next hnext twoEvents_start rfl,
    by decide, by decide, fun h => ?_⟩
  rcases h 1 (by decide) (by decide) with ⟨k, hk⟩ | ⟨r, hr, he, -⟩
  · cases hk
  · have hran : ((twoCalls 10).foldl next twoEvents).ran = [⟨0, 10, 10⟩] := rfl
    rw [hran, List.mem_singleton] at hr
    rw [hr] at he
    cases he

end TinyRpc.Timer
