import TinyRpc.Log.Shutdown

/-!
# The join after the flush

`CoredumpHandler` flushes the logger, and then joins both of its threads. A
thread looks at its stop flag behind a batch only, and `stop` does not wake it
up.
-/

namespace TinyRpc

open Lib

namespace Shutdown

/-! ## Behind the flush -/

/-- What may still happen when there are no more lines for a thread. The handler may have
interrupted the thread of the timer itself. -/
def Silent (timer : Bool) (k : LogKind) : Event → Prop
  | .log (.pushLog _) => k = .app
  | .log (.pushAppLog _) => k = .rpc
  | .log .syncLoop => timer
  | _ => True

/-- The way on from a state, in silence. -/
def silence (s : Shutdown) (timer : Bool) (k : LogKind) : System Shutdown Event :=
  (system.after s).restrict fun _ => Silent timer k

/-- The thread waits, and nothing is on its way to it. -/
structure View.Stuck (timer : Bool) (v : View) : Prop where
  pc : v.log.pc = .waiting
  queue : v.log.m_buffer = []
  timer : timer → v.timer = [] ∧ v.m_buffer = []

instance (timer : Bool) (v : View) : Decidable (v.Stuck timer) :=
  decidable_of_iff (v.log.pc = .waiting ∧ v.log.m_buffer = [] ∧
    (timer → v.timer = [] ∧ v.m_buffer = []))
    ⟨fun ⟨hpc, hqueue, htimer⟩ => ⟨hpc, hqueue, htimer⟩,
      fun ⟨hpc, hqueue, htimer⟩ => ⟨hpc, hqueue, htimer⟩⟩

/-- The thread can come to its return. -/
def Returns (timer : Bool) (k : LogKind) (s : Shutdown) : Prop :=
  ∃ es u, (s.silence timer k).Run es u ∧ (u.asyncLog k).pc = .returned

/-! ## One step in silence -/

/-- What a step in silence does to one kind of lines. -/
inductive View.Quiet (timer : Bool) (v : View) : View → Prop
  | refl : Quiet timer v v
  | swap (ht : timer) (htimer : v.timer = []) :
    Quiet timer v { v with timer := v.m_buffer, m_buffer := [] }
  | queue (ht : timer) : Quiet timer v { v with log := queued v.log v.timer, timer := [] }
  | loop (l : AsyncLogger) (h : v.log.Step l) : Quiet timer v { v with log := l }

theorem silent_view {s t : Shutdown} {timer : Bool} {k : LogKind} {e : Event}
    (hflush : s.flush = .done) (hstep : Step s e t) (hsilent : Silent timer k e) :
    t.flush = .done ∧ (s.view k).Quiet timer (t.view k) := by
  cases hstep with
  | begin _ hflush' | sync _ _ hflush' | stop hflush' | appStop hflush' =>
    simp [hflush] at hflush'
  | log e l he h =>
    refine ⟨hflush, ?_⟩
    cases h with
    | stop => exact absurd rfl he
    | pushLog msg =>
      obtain rfl : k = .app := hsilent
      unfold Logger.pushLog
      split
      all_goals
        simp only [view, Logger.linesOf, Logger.appPushed, List.append_nil]
        exact .refl
    | pushAppLog msg =>
      obtain rfl : k = .rpc := hsilent
      simp only [view, Logger.pushAppLog, Logger.linesOf, Logger.pushed, List.append_nil]
      exact .refl
    | swap hsync =>
      cases k with
      | rpc =>
        simp only [view, Logger.linesOf, Logger.pushed, List.append_nil]
        exact .swap hsilent (by simp [hsync, SyncPc.tmp_vec])
      | app =>
        simp only [view, Logger.linesOf, Logger.appPushed, List.append_nil, hsync]
        exact .refl
    | push tmp_vec hsync =>
      cases k with
      | rpc =>
        simp only [view, Logger.linesOf, Logger.pushed, List.append_nil, hsync]
        exact .queue hsilent
      | app =>
        simp only [view, Logger.linesOf, Logger.appPushed, List.append_nil, hsync]
        exact .refl
    | appSwap hsync =>
      cases k with
      | rpc =>
        simp only [view, Logger.linesOf, Logger.pushed, List.append_nil, hsync]
        exact .refl
      | app =>
        simp only [view, Logger.linesOf, Logger.appPushed, List.append_nil]
        exact .swap hsilent (by simp [hsync, SyncPc.tmp_app_vec])
    | appPush tmp_app_vec hsync =>
      cases k with
      | rpc =>
        simp only [view, Logger.linesOf, Logger.pushed, List.append_nil, hsync]
        exact .refl
      | app =>
        simp only [view, Logger.linesOf, Logger.appPushed, List.append_nil, hsync]
        exact .queue hsilent
    | loop l hl =>
      cases k with
      | rpc =>
        simp only [view, Logger.linesOf, Logger.pushed, List.append_nil]
        exact .loop l hl
      | app =>
        simp only [view, Logger.linesOf, Logger.appPushed, List.append_nil]
        exact .refl
    | appLoop l hl =>
      cases k with
      | rpc =>
        simp only [view, Logger.linesOf, Logger.pushed, List.append_nil]
        exact .refl
      | app =>
        simp only [view, Logger.linesOf, Logger.appPushed, List.append_nil]
        exact .loop l hl

namespace View

theorem queued_eq_nil (l : AsyncLogger) (vec : List Bytes) :
    (queued l vec).m_buffer = [] ↔ l.m_buffer = [] ∧ vec = [] := by
  unfold queued
  split <;> simp [AsyncLogger.pushLogBuffer, *]

/-- The thread has been told to stop, and writes to an open file. -/
structure Told (v : View) : Prop where
  stop : v.log.m_stop_flag
  file : ∀ tmp, v.log.pc = .writing tmp → v.log.m_file_handler ≠ none

theorem Told.quiet {timer : Bool} {v w : View} (h : v.Told) (hq : v.Quiet timer w) : w.Told := by
  obtain - | - | - | ⟨l, hl⟩ := hq
  · exact h
  · exact ⟨h.stop, h.file⟩
  · obtain ⟨-, hpc, hstop, hfile, -⟩ := queued_fields v.log v.timer
    exact ⟨hstop.trans h.stop, by simpa only [hpc, hfile] using h.file⟩
  · have hm := v.moves hl
    exact ⟨hm.stop_flag.trans h.stop, hm.file h.file⟩

theorem Told.stuck_iff {timer : Bool} {v w : View} (h : v.Told) (hq : v.Quiet timer w) :
    w.Stuck timer ↔ v.Stuck timer := by
  obtain - | ⟨ht, htimer⟩ | ht | ⟨l, hl⟩ := hq
  · rfl
  · constructor
    · rintro ⟨hpc, hqueue, hbuffer⟩
      exact ⟨hpc, hqueue, fun _ => ⟨htimer, (hbuffer ht).1⟩⟩
    · rintro ⟨hpc, hqueue, hbuffer⟩
      exact ⟨hpc, hqueue, fun _ => ⟨(hbuffer ht).2, rfl⟩⟩
  · have hpc' := (queued_fields v.log v.timer).2.1
    constructor
    · rintro ⟨hpc, hqueue, hbuffer⟩
      obtain ⟨hqueue, htimer⟩ := (queued_eq_nil _ _).mp hqueue
      exact ⟨hpc'.symm.trans hpc, hqueue, fun _ => ⟨htimer, (hbuffer ht).2⟩⟩
    · rintro ⟨hpc, hqueue, hbuffer⟩
      obtain ⟨htimer, hbuffer⟩ := hbuffer ht
      exact ⟨hpc'.trans hpc, (queued_eq_nil _ _).mpr ⟨hqueue, htimer⟩, fun _ => ⟨rfl, hbuffer⟩⟩
  · -- a thread that waits for a batch takes no step, and behind a batch it returns
    constructor
    · rintro ⟨hpc, -, -⟩
      cases hl <;> simp [h.stop] at hpc
    · rintro ⟨hpc, hqueue, -⟩
      cases hl <;> simp_all

end View

/-! ## When flush is done -/

/-- What a step can do to a logger. -/
inductive Moved (l : AsyncLogger) : AsyncLogger → Prop
  | same : Moved l l
  | queued (vec : List Bytes) : Moved l (View.queued l vec)
  | stop : Moved l l.stop
  | loop (t : AsyncLogger) (h : l.Step t) : Moved l t

theorem moved_logger {s t : Logger} {e : Logger.Op} (he : e ≠ .stop) (h : s.Step e t) :
    Moved s.m_asnyc_log t.m_asnyc_log ∧ Moved s.m_asnyc_app_log t.m_asnyc_app_log := by
  cases h with
  | stop => exact absurd rfl he
  | pushLog msg =>
    unfold Logger.pushLog
    split <;> exact ⟨.same, .same⟩
  | pushAppLog | swap | appSwap => exact ⟨.same, .same⟩
  | push tmp_vec => exact ⟨.queued tmp_vec, .same⟩
  | appPush tmp_app_vec => exact ⟨.same, .queued tmp_app_vec⟩
  | loop l hl => exact ⟨.loop l hl, .same⟩
  | appLoop l hl => exact ⟨.same, .loop l hl⟩

theorem Step.moved {s t : Shutdown} {e : Event} (hstep : Step s e t) (k : LogKind) :
    Moved (s.asyncLog k) (t.asyncLog k) := by
  have hboth : Moved s.logger.m_asnyc_log t.logger.m_asnyc_log ∧
      Moved s.logger.m_asnyc_app_log t.logger.m_asnyc_app_log := by
    cases hstep with
    | log e l he h => exact moved_logger he h
    | begin l hflush h => exact (moved_logger (by simp) h :)
    | sync pc l hflush hpc h => exact (moved_logger (by simp) h :)
    | stop => exact ⟨.stop, .same⟩
    | appStop => exact ⟨.same, .stop⟩
  cases k with
  | rpc => exact hboth.1
  | app => exact hboth.2

theorem Moved.stop_flag {l t : AsyncLogger} (h : Moved l t) (hstop : l.m_stop_flag) :
    t.m_stop_flag := by
  obtain - | vec | - | ⟨_, hl⟩ := h
  · exact hstop
  · exact (View.queued_fields l vec).2.2.1.trans hstop
  · rfl
  · cases hl with
    | openFile => exact (View.openFile_stop_flag _ _ _).trans hstop
    | take | fwrite | skip | fflush => exact hstop

theorem Moved.file {l t : AsyncLogger} (h : Moved l t)
    (hfile : ∀ tmp, l.pc = .writing tmp → l.m_file_handler ≠ none) (tmp : List Bytes)
    (hpc : t.pc = .writing tmp) : t.m_file_handler ≠ none := by
  obtain - | vec | - | ⟨_, hl⟩ := h
  · exact hfile tmp hpc
  · obtain ⟨-, hpc', -, hfile', -⟩ := View.queued_fields l vec
    rw [hpc'] at hpc
    rw [hfile']
    exact hfile tmp hpc
  · exact hfile tmp hpc
  · cases hl with
    | openFile => exact View.openFile_handler _ _ _
    | fwrite _ _ _ hpc' | skip _ hpc' => exact hfile _ hpc'
    | take => simp at hpc
    | fflush =>
      simp only at hpc
      split at hpc <;> simp at hpc

theorem Step.stopped {s t : Shutdown} {e : Event} (hstep : Step s e t) {k : LogKind}
    (h : (t.view k).stopped) : (s.view k).stopped ∨ (t.asyncLog k).m_stop_flag := by
  cases hstep with
  | log =>
    left
    cases k <;> exact h
  | begin l hflush => cases k <;> simp [Shutdown.view, FlushPc.stopped] at h
  | sync pc l hflush =>
    cases k with
    | rpc | app =>
      simp only [Shutdown.view] at h
      split at h <;> simp [FlushPc.stopped] at h
  | stop hflush =>
    cases k with
    | rpc => exact Or.inr rfl
    | app => simp [Shutdown.view] at h
  | appStop hflush =>
    cases k with
    | rpc =>
      left
      simp [Shutdown.view, hflush, FlushPc.stopped]
    | app => exact Or.inr rfl

structure Telling (k : LogKind) (s : Shutdown) : Prop where
  stop : (s.view k).stopped → (s.asyncLog k).m_stop_flag
  file : ∀ tmp, (s.asyncLog k).pc = .writing tmp → (s.asyncLog k).m_file_handler ≠ none

theorem told_of_run {es : List Event} {s : Shutdown} (hrun : system.Run es s)
    (hflush : s.flush = .done) (k : LogKind) : (s.view k).Told := by
  have hinv : s.Telling k := by
    refine hrun.invariant (fun s hs => ?_) fun s e t h hstep => ⟨fun hstopped => ?_, ?_⟩
    · obtain ⟨m_file_path, m_max_file_size, rfl⟩ := hs
      constructor <;> cases k <;> simp [asyncLog, view, Logger.new, FlushPc.stopped]
    · obtain hbefore | hflag := hstep.stopped hstopped
      · exact (hstep.moved k).stop_flag (h.stop hbefore)
      · exact hflag
    · exact (hstep.moved k).file h.file
  have hstop := hinv.stop (by cases k <;> simp [view, hflush, FlushPc.stopped])
  constructor
  · rwa [view_log]
  · rw [view_log]
    exact hinv.file

/-! ## A thread on its way -/

variable {timer : Bool} {k : LogKind} {s t : Shutdown}

theorem Returns.step {e : Event} (hstep : Step s e t) (hsilent : Silent timer k e)
    (h : t.Returns timer k) : s.Returns timer k := by
  obtain ⟨es, u, hrun, hpc⟩ := h
  have hfirst : (s.silence timer k).Run ([] ++ [e]) t :=
    (System.Run.start rfl).step ⟨hsilent, hstep⟩
  exact ⟨_, u, hfirst.append hrun, hpc⟩

theorem Returns.loop {l : AsyncLogger} (h : (s.asyncLog k).Step l)
    (hreturns : ∀ t : Shutdown, t.asyncLog k = l → t.Returns timer k) : s.Returns timer k := by
  obtain ⟨t, ht, hl⟩ := loop_step h
  refine (hreturns t hl).step ht ?_
  cases k <;> trivial

theorem returns_writing {tmp : List Bytes} (hpc : (s.asyncLog k).pc = .writing tmp)
    (hfile : (s.asyncLog k).m_file_handler ≠ none) (hstop : (s.asyncLog k).m_stop_flag) :
    s.Returns timer k := by
  induction tmp generalizing s with
  | nil =>
    refine Returns.loop (.fflush _ hpc) fun t ht => ⟨[], t, System.Run.start rfl, ?_⟩
    simp [ht, hstop]
  | cons line tmp ih =>
    by_cases hline : line = []
    · subst hline
      apply Returns.loop (.skip _ tmp hpc)
      intro t ht
      apply ih <;> simp [ht, hfile, hstop]
    · obtain ⟨file, hopen⟩ := Option.ne_none_iff_exists'.mp hfile
      apply Returns.loop (.fwrite _ line tmp file hpc hopen hline)
      intro t ht
      apply ih <;> simp [ht, hfile, hstop]

theorem returns_opening {tmp : List Bytes} (hpc : (s.asyncLog k).pc = .opening tmp)
    (hstop : (s.asyncLog k).m_stop_flag) : s.Returns timer k := by
  apply Returns.loop (.openFile _ [] 0 tmp hpc)
  intro t ht
  have hpc' : (t.asyncLog k).pc = .writing tmp := by simp [ht]
  apply returns_writing hpc'
  · rw [ht]
    exact View.openFile_handler _ _ _
  · rw [ht]
    exact (View.openFile_stop_flag _ _ _).trans hstop

theorem returns_queue (hpc : (s.asyncLog k).pc = .waiting) (hqueue : (s.asyncLog k).m_buffer ≠ [])
    (hstop : (s.asyncLog k).m_stop_flag) : s.Returns timer k := by
  obtain ⟨tmp, rest, hbuffer⟩ := List.exists_cons_of_ne_nil hqueue
  apply Returns.loop (.take _ tmp rest hpc hbuffer)
  intro t ht
  have hpc' : (t.asyncLog k).pc = .opening tmp := by simp [ht]
  exact returns_opening hpc' (by simpa [ht] using hstop)

/-- How many steps the timer is away from the next swap. -/
def toSwap : LogKind → SyncPc → Nat
  | .rpc, .idle => 0
  | .rpc, .appPushing _ => 1
  | .rpc, .between => 2
  | .rpc, .pushing _ => 3
  | .app, .between => 0
  | .app, .pushing _ => 1
  | .app, .idle => 2
  | .app, .appPushing _ => 3

theorem timer_step (s : Shutdown) (k : LogKind) : ∃ t, Step s (.log .syncLoop) t ∧
    (toSwap k s.logger.sync = 0 → t.asyncLog k = s.asyncLog k ∧
      (t.view k).timer = (s.view k).m_buffer) ∧
    (toSwap k s.logger.sync ≠ 0 → t.asyncLog k = View.queued (s.asyncLog k) (s.view k).timer ∧
      (t.view k).m_buffer = (s.view k).m_buffer ∧
      toSwap k t.logger.sync < toSwap k s.logger.sync) := by
  refine ⟨_, .log .syncLoop _ (by simp) (syncNext_step s.logger), ?_⟩
  unfold syncNext
  cases k with
  | rpc | app =>
    cases hsync : s.logger.sync <;>
      simp [toSwap, asyncLog, view, hsync, SyncPc.tmp_vec, SyncPc.tmp_app_vec, View.queued]

theorem returns_timer (hpc : (s.asyncLog k).pc = .waiting) (htimer : (s.view k).timer ≠ [])
    (hstop : (s.asyncLog k).m_stop_flag) : s.Returns true k := by
  obtain ⟨t, ht, hl⟩ := timer_queues htimer
  obtain ⟨-, hpc', hstop', -, -⟩ := View.queued_fields (s.asyncLog k) (s.view k).timer
  refine (returns_queue ?_ ?_ ?_).step ht rfl
  · exact (congrArg AsyncLogger.pc hl).trans (hpc'.trans hpc)
  · rw [hl, ne_eq, View.queued_eq_nil]
    exact fun h => htimer h.2
  · rw [hl, hstop']
    exact hstop

theorem returns_buffer (hpc : (s.asyncLog k).pc = .waiting) (hbuffer : (s.view k).m_buffer ≠ [])
    (hstop : (s.asyncLog k).m_stop_flag) : s.Returns true k := by
  -- the timer goes on to its next swap
  induction hn : toSwap k s.logger.sync using Nat.strong_induction_on generalizing s with
  | h n ih =>
    subst hn
    obtain ⟨t, ht, hswap, hwalk⟩ := timer_step s k
    refine Returns.step (e := .log .syncLoop) ht rfl ?_
    by_cases hzero : toSwap k s.logger.sync = 0
    · obtain ⟨hl, htimer⟩ := hswap hzero
      apply returns_timer <;> simpa [hl, htimer]
    · obtain ⟨hl, hsame, hless⟩ := hwalk hzero
      obtain ⟨-, hpc', hstop', -, -⟩ := View.queued_fields (s.asyncLog k) (s.view k).timer
      apply ih _ hless _ _ _ rfl
      · rw [hl, hpc', hpc]
      · rwa [hsame]
      · rwa [hl, hstop']

theorem returns_of_told (h : (s.view k).Told) (hstuck : ¬ (s.view k).Stuck timer) :
    s.Returns timer k := by
  obtain ⟨hstop, hfile⟩ := h
  simp only [view_log] at hstop hfile
  cases hpc : (s.asyncLog k).pc with
  | returned => exact ⟨[], s, System.Run.start rfl, hpc⟩
  | writing tmp => exact returns_writing hpc (hfile tmp hpc) hstop
  | opening tmp => exact returns_opening hpc hstop
  | waiting =>
    by_cases hqueue : (s.asyncLog k).m_buffer = []
    · have hmore : ¬ (timer → (s.view k).timer = [] ∧ (s.view k).m_buffer = []) :=
        fun hnone => hstuck ⟨by rwa [view_log], by rwa [view_log], hnone⟩
      obtain ⟨rfl, hwork⟩ := Classical.not_imp.mp hmore
      by_cases htimer : (s.view k).timer = []
      · exact returns_buffer hpc (fun hnil => hwork ⟨htimer, hnil⟩) hstop
      · exact returns_timer hpc htimer hstop
    · exact returns_queue hpc hqueue hstop

/-! ## The join -/

/-- Behind the flush, a join hangs for ever if the thread waits with nothing on its way to
it, and otherwise the thread comes to its return whatever the others do first. -/
theorem join_returns {es : List Event} (hrun : system.Run es s) (hflush : s.flush = .done)
    (timer : Bool) (k : LogKind) :
    ((s.view k).Stuck timer → ∀ es' t, (s.silence timer k).Run es' t →
      (t.asyncLog k).pc = .waiting) ∧
    (¬ (s.view k).Stuck timer → ∀ es' t, (s.silence timer k).Run es' t → t.Returns timer k) := by
  have htold := told_of_run hrun hflush k
  have hkept : ∀ es' t, (s.silence timer k).Run es' t →
      t.flush = .done ∧ (t.view k).Told ∧ ((t.view k).Stuck timer ↔ (s.view k).Stuck timer) := by
    intro es' t hrun'
    induction hrun' with
    | start hs =>
      obtain rfl : _ = s := hs
      exact ⟨hflush, htold, Iff.rfl⟩
    | step _ hstep ih =>
      obtain ⟨hdone, ht, hstuck⟩ := ih
      obtain ⟨hdone', hq⟩ := silent_view hdone hstep.2 hstep.1
      exact ⟨hdone', ht.quiet hq, (ht.stuck_iff hq).trans hstuck⟩
  constructor
  · intro hstuck es' t hrun'
    obtain ⟨-, -, hiff⟩ := hkept es' t hrun'
    rw [← view_log]
    exact (hiff.mpr hstuck).pc
  · intro hstuck es' t hrun'
    obtain ⟨-, ht, hiff⟩ := hkept es' t hrun'
    exact returns_of_told ht (mt hiff.mp hstuck)

theorem join_returns_oneLine : ∃ s : Shutdown, s.flush = .done ∧ s.Returns true .rpc ∧
    ∀ es' t, (s.silence true .app).Run es' t → (t.asyncLog .app).pc = .waiting := by
  have hlast : ((oneLine.take 7).foldlM next fresh).map (fun s => (s.flush,
      decide ((s.view .rpc).Stuck true), decide ((s.view .app).Stuck true))) =
      some (.done, false, true) := by decide +kernel
  obtain ⟨s, hs, hlast⟩ := Option.map_eq_some_iff.mp hlast
  simp only [Prod.mk.injEq, decide_eq_true_eq, decide_eq_false_iff_not] at hlast
  obtain ⟨hflush, hline, happ⟩ := hlast
  have hrun : system.Run _ s := System.Run.of_next (fun _ _ _ h => next_step h) fresh_start hs
  exact ⟨s, hflush, (join_returns hrun hflush true .rpc).2 hline [] s (System.Run.start rfl),
    (join_returns hrun hflush true .app).1 happ⟩

end Shutdown

end TinyRpc
