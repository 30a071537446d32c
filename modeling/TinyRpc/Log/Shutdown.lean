import TinyRpc.Log.Conservation

/-!
# The end of the log

`Logger::flush` runs when the process is about to end: it is `syncLoop`, once
more, and then `stop` for each of the two loggers. Meanwhile the timer may be
in a `syncLoop` of its own. A thread looks at its stop flag behind each batch,
and not at the queue.
-/

namespace TinyRpc

open Lib

/-! ## Flush -/

/-- Where `flush` is. -/
inductive FlushPc where
  | idle
  /-- In its call of `syncLoop`. -/
  | syncing (pc : SyncPc)
  | stopping
  | appStopping
  | done
  deriving DecidableEq

def FlushPc.sync : FlushPc → SyncPc
  | .idle => .idle
  | .syncing pc => pc
  | _ => .idle

/-- `flush` has swapped the first buffer out. -/
def FlushPc.swapped : FlushPc → Bool
  | .idle => false
  | _ => true

/-- `flush` has swapped the second buffer out. -/
def FlushPc.appSwapped : FlushPc → Bool
  | .idle | .syncing .idle | .syncing (.pushing _) | .syncing .between => false
  | _ => true

/-- `flush` has called the first `stop`. -/
def FlushPc.stopped : FlushPc → Bool
  | .appStopping | .done => true
  | _ => false

def Logger.linesOf : Logger.Op → LogKind → List Bytes
  | e, .rpc => pushed e
  | e, .app => appPushed e

/-- The logger in its last moments, and the lines that were pushed, all of them and those
before `flush`. -/
structure Shutdown where
  logger : Logger
  flush : FlushPc := .idle
  pushed : LogKind → List Bytes := fun _ => []
  before : LogKind → List Bytes := fun _ => []

inductive Shutdown.Event where
  /-- A step of the others: the threads that push, the timer, the two threads that write. -/
  | log (e : Logger.Op)
  | flush
  deriving DecidableEq

namespace Shutdown

/-- `stop` is only called by `flush`, which runs once. -/
inductive Step (s : Shutdown) : Event → Shutdown → Prop
  | log (e : Logger.Op) (l : Logger) (he : e ≠ .stop) (h : s.logger.Step e l) :
    Step s (.log e) { s with logger := l, pushed := fun k => s.pushed k ++ Logger.linesOf e k }
  | begin (l : Logger) (hflush : s.flush = .idle)
    (h : Logger.Step { s.logger with sync := .idle } .syncLoop l) :
    Step s .flush { s with
      logger := { l with sync := s.logger.sync }
      flush := .syncing l.sync
      before := s.pushed }
  | sync (pc : SyncPc) (l : Logger) (hflush : s.flush = .syncing pc) (hpc : pc ≠ .idle)
    (h : Logger.Step { s.logger with sync := pc } .syncLoop l) :
    Step s .flush { s with
      logger := { l with sync := s.logger.sync }
      flush := if l.sync = .idle then .stopping else .syncing l.sync }
  | stop (hflush : s.flush = .stopping) :
    Step s .flush { s with
      logger := { s.logger with m_asnyc_log := s.logger.m_asnyc_log.stop }
      flush := .appStopping }
  | appStop (hflush : s.flush = .appStopping) :
    Step s .flush { s with
      logger := { s.logger with m_asnyc_app_log := s.logger.m_asnyc_app_log.stop }
      flush := .done }

def system : System Shutdown Event where
  start s := ∃ m_file_path m_max_file_size, s = { logger := Logger.new m_file_path m_max_file_size }
  step := Step

/-! ## What flush is for -/

def asyncLog (s : Shutdown) : LogKind → AsyncLogger
  | .rpc => s.logger.m_asnyc_log
  | .app => s.logger.m_asnyc_app_log

/-- The queue is empty, and every line from before the flush is in a file. An empty line
is not written. -/
structure Complete (s : Shutdown) (k : LogKind) : Prop where
  queue : (s.asyncLog k).m_buffer = []
  written : ∀ line ≠ [], (s.before k).count line ≤ ((s.asyncLog k).written.map Prod.snd).count line

/-- Wherever the run goes on with the return of a thread, that thread has completed its work. -/
def Lossless (s : Shutdown) : Prop :=
  ∀ e t k, Step s e t → (s.asyncLog k).pc ≠ .returned → (t.asyncLog k).pc = .returned →
    t.Complete k

/-! ## One kind of lines -/

/-- The part of the state that is about one logger. -/
structure View where
  log : AsyncLogger
  m_buffer : List Bytes
  /-- What the timer has swapped out and not queued, and what `flush` has. -/
  timer : List Bytes
  flush : List Bytes
  /-- `flush` has swapped the buffer out. -/
  swapped : Bool
  /-- `flush` has called `stop`. -/
  stopped : Bool
  pushed : List Bytes
  before : List Bytes

def view (s : Shutdown) : LogKind → View
  | .rpc => {
    log := s.logger.m_asnyc_log
    m_buffer := s.logger.m_buffer
    timer := s.logger.sync.tmp_vec
    flush := s.flush.sync.tmp_vec
    swapped := s.flush.swapped
    stopped := s.flush.stopped
    pushed := s.pushed .rpc
    before := s.before .rpc }
  | .app => {
    log := s.logger.m_asnyc_app_log
    m_buffer := s.logger.m_app_buffer
    timer := s.logger.sync.tmp_app_vec
    flush := s.flush.sync.tmp_app_vec
    swapped := s.flush.appSwapped
    stopped := s.flush = .done
    pushed := s.pushed .app
    before := s.before .app }

namespace View

/-- How many batches the thread has in its hands. -/
def hand (v : View) : Nat :=
  match v.log.pc with
  | .opening _ | .writing _ => 1
  | .waiting | .returned => 0

/-- How many batches are on their way to the file. -/
def load (v : View) : Nat :=
  v.hand + v.log.m_buffer.length + (if v.timer = [] then 0 else 1) +
    (if v.flush = [] then 0 else 1)

/-- The timer may swap the buffer out: the thread does not stop yet, or has returned, or
gets no second batch. -/
def MaySwap (v : View) : Prop :=
  v.log.m_stop_flag → v.log.pc ≠ .returned → v.m_buffer ≠ [] → v.load = 0

def queued (l : AsyncLogger) (vec : List Bytes) : AsyncLogger :=
  if vec = [] then l else l.pushLogBuffer vec

/-- What one step can do to one kind of lines. -/
inductive Step (v : View) : View → Prop
  | refl : Step v v
  | push (line : Bytes) :
    Step v { v with m_buffer := v.m_buffer ++ [line], pushed := v.pushed ++ [line] }
  | swap (htimer : v.timer = []) (h : v.MaySwap) :
    Step v { v with timer := v.m_buffer, m_buffer := [] }
  | queue : Step v { v with log := queued v.log v.timer, timer := [] }
  | begin (hswapped : v.swapped = false) : Step v { v with before := v.pushed }
  | flushSwap (before : List Bytes) (hbefore : before = v.before ∨ before = v.pushed)
    (hswapped : v.swapped = false) (hflush : v.flush = []) :
    Step v { v with flush := v.m_buffer, m_buffer := [], swapped := true, before }
  | flushQueue : Step v { v with log := queued v.log v.flush, flush := [] }
  | stop (hswapped : v.swapped) (hflush : v.flush = []) (h : v.load ≤ 1) :
    Step v { v with log := v.log.stop, stopped := true }
  | loop (l : AsyncLogger) (h : v.log.Step l) : Step v { v with log := l }

/-! ### What it keeps -/

/-- The lines that the buffer of the logger does not hold any more. -/
def taken (v : View) : List Bytes :=
  v.log.written.map Prod.snd ++ v.log.pc.tmp ++ v.log.m_buffer.flatten ++ v.timer ++ v.flush

structure Inv (v : View) : Prop where
  all : ∀ line ≠ [], v.pushed.count line = v.taken.count line + v.m_buffer.count line
  kept : ∀ line ≠ [],
    v.before.count line ≤ v.taken.count line + if v.swapped then 0 else v.m_buffer.count line
  stopped : v.log.m_stop_flag → v.swapped ∧ v.flush = [] ∧ (v.log.pc = .returned ∨ v.load ≤ 1)
  file : ∀ tmp, v.log.pc = .writing tmp → v.log.m_file_handler ≠ none
  flag : v.log.m_stop_flag → v.stopped
  returned : v.log.pc = .returned → v.log.m_stop_flag

theorem queued_taken (v : View) (vec : List Bytes) (line : Bytes) :
    (v.log.m_buffer.flatten ++ vec).count line =
      (queued v.log vec).m_buffer.flatten.count line := by
  unfold queued
  split
  · rename_i hnil
    rw [hnil, List.append_nil]
  · simp [AsyncLogger.pushLogBuffer]

theorem openFile_handler (l : AsyncLogger) (date : Bytes) (size : Int) :
    (l.openFile date size).m_file_handler ≠ none := by
  unfold AsyncLogger.openFile AsyncLogger.nextFile
  split
  · simp [AsyncLogger.fopen]
  · unfold AsyncLogger.reopen
    split
    · simp [AsyncLogger.fopen]
    · rename_i hopen
      exact fun hnone => hopen (.inr hnone)

theorem openFile_stop_flag (l : AsyncLogger) (date : Bytes) (size : Int) :
    (l.openFile date size).m_stop_flag = l.m_stop_flag := by
  have hdate : (l.newDate date).m_stop_flag = l.m_stop_flag := by
    unfold AsyncLogger.newDate
    split <;> rfl
  have hreopen : (l.newDate date).reopen.m_stop_flag = (l.newDate date).m_stop_flag := by
    unfold AsyncLogger.reopen
    split <;> rfl
  rw [← hdate, ← hreopen]
  unfold AsyncLogger.openFile AsyncLogger.nextFile
  split <;> rfl

/-- What a step of the thread does: it moves lines on, and its batches with them. -/
structure Moves (v : View) (l : AsyncLogger) : Prop where
  taken : ∀ line ≠ [], ({ v with log := l } : View).taken.count line = v.taken.count line
  stop_flag : l.m_stop_flag = v.log.m_stop_flag
  load : ({ v with log := l } : View).load ≤ v.load
  returned : l.pc = .returned → v.hand = 1 ∧ v.log.pc.tmp = [] ∧ v.log.m_stop_flag
  file : (∀ tmp, v.log.pc = .writing tmp → v.log.m_file_handler ≠ none) →
    ∀ tmp, l.pc = .writing tmp → l.m_file_handler ≠ none

theorem moves (v : View) {l : AsyncLogger} (h : v.log.Step l) : v.Moves l := by
  cases h with
  | take tmp rest hpc hbuffer =>
    refine ⟨fun line _ => ?_, rfl, ?_, fun hr => ?_, fun _ tmp' hw => ?_⟩
    · simp [View.taken, LoopPc.tmp, hpc, hbuffer]
    · simp only [View.load, View.hand, hpc, hbuffer, List.length_cons]
      omega
    · cases hr
    · cases hw
  | openFile date size tmp hpc =>
    obtain ⟨hwritten, hbuffer⟩ := Logger.openFile_lines v.log date size
    refine ⟨fun line _ => ?_, openFile_stop_flag _ _ _, ?_, fun hr => ?_, fun _ _ _ => ?_⟩
    · simp [View.taken, LoopPc.tmp, hpc, hwritten, hbuffer]
    · simp only [View.load, View.hand, hpc, hbuffer]
      exact Nat.le_refl _
    · cases hr
    · exact openFile_handler _ _ _
  | fwrite x tmp file hpc hfile hx =>
    refine ⟨fun line _ => ?_, rfl, ?_, fun hr => ?_, fun hopen _ _ => hopen _ hpc⟩
    · simp [View.taken, LoopPc.tmp, hpc]
    · simp only [View.load, View.hand, hpc]
      exact Nat.le_refl _
    · cases hr
  | skip tmp hpc =>
    refine ⟨fun line hline => ?_, rfl, ?_, fun hr => ?_, fun hopen _ _ => hopen _ hpc⟩
    · simp only [View.taken, LoopPc.tmp, hpc, List.count_append,
        List.count_cons_of_ne (Ne.symm hline)]
    · simp only [View.load, View.hand, hpc]
      exact Nat.le_refl _
    · cases hr
  | fflush hpc =>
    refine ⟨fun line _ => ?_, rfl, ?_, fun hr => ?_, fun _ tmp hw => ?_⟩
    · simp only [View.taken, hpc]
      split <;> rfl
    · simp only [View.load, View.hand, hpc]
      split <;> omega
    · simp only at hr
      split at hr
      · exact ⟨by simp only [View.hand, hpc], by rw [hpc]; rfl, ‹_›⟩
      · cases hr
    · simp only at hw
      split at hw <;> cases hw

/-! The steps of the others. -/

theorem Inv.push {v : View} (h : v.Inv) (line : Bytes) :
    ({ v with m_buffer := v.m_buffer ++ [line], pushed := v.pushed ++ [line] } : View).Inv := by
  refine ⟨fun x hx => ?_, fun x hx => ?_, h.stopped, h.file, h.flag, h.returned⟩
  · have := h.all x hx
    simp only [View.taken, List.count_append] at this ⊢
    omega
  · refine Nat.le_trans (h.kept x hx) ?_
    simp only [View.taken, List.count_append]
    split <;> omega

theorem Inv.swap {v : View} (h : v.Inv) (htimer : v.timer = []) (hmay : v.MaySwap) :
    ({ v with timer := v.m_buffer, m_buffer := [] } : View).Inv := by
  refine ⟨fun x hx => ?_, fun x hx => ?_, fun hstop => ?_, h.file, h.flag, h.returned⟩
  · have := h.all x hx
    simp only [View.taken, htimer, List.count_append, List.count_nil] at this ⊢
    omega
  · have := h.kept x hx
    simp only [View.taken, htimer, List.count_append, List.count_nil, ite_self] at this ⊢
    split at this <;> omega
  · obtain ⟨hswapped, hflush, hload⟩ := h.stopped hstop
    refine ⟨hswapped, hflush, ?_⟩
    by_cases hpc : v.log.pc = .returned
    · exact .inl hpc
    refine .inr ?_
    have hle := hload.resolve_left hpc
    by_cases hempty : v.m_buffer = []
    · simpa [View.load, View.hand, htimer, hempty] using hle
    · have hzero := hmay hstop hpc hempty
      simp only [View.load, View.hand, htimer, hempty, if_true, if_false] at hzero ⊢
      omega

theorem queued_fields (l : AsyncLogger) (vec : List Bytes) :
    (queued l vec).written = l.written ∧ (queued l vec).pc = l.pc ∧
      (queued l vec).m_stop_flag = l.m_stop_flag ∧
      (queued l vec).m_file_handler = l.m_file_handler ∧
      (queued l vec).m_buffer.length = l.m_buffer.length + if vec = [] then 0 else 1 := by
  unfold queued
  split <;> simp [AsyncLogger.pushLogBuffer]

theorem Inv.of_queued {v : View} (h : v.Inv) {vec timer flush : List Bytes}
    (hcount : ∀ line, vec.count line + timer.count line + flush.count line =
      v.timer.count line + v.flush.count line)
    (hload : (if vec = [] then 0 else 1) + (if timer = [] then 0 else 1) +
      (if flush = [] then 0 else 1) =
      (if v.timer = [] then 0 else 1) + if v.flush = [] then 0 else 1)
    (hflush : v.flush = [] → flush = []) :
    ({ v with log := queued v.log vec, timer, flush } : View).Inv := by
  obtain ⟨hwritten, hpc, hstop, hfile, hlength⟩ := queued_fields v.log vec
  have htaken : ∀ line, ({ v with log := queued v.log vec, timer, flush } : View).taken.count line =
      v.taken.count line := by
    intro line
    have hqueued := queued_taken v vec line
    have hline := hcount line
    simp only [View.taken, hwritten, hpc, List.count_append] at hqueued ⊢
    omega
  refine ⟨fun x hx => ?_, fun x hx => ?_, fun hs => ?_, ?_, ?_, ?_⟩
  · rw [htaken]
    exact h.all x hx
  · rw [htaken]
    exact h.kept x hx
  · obtain ⟨hswapped, hnil, hle⟩ := h.stopped (hstop ▸ hs)
    refine ⟨hswapped, hflush hnil, hle.imp hpc.trans fun hle => ?_⟩
    simp only [View.load, View.hand, hpc, hlength] at hle ⊢
    omega
  · rw [hpc, hfile]
    exact h.file
  · rw [hstop]
    exact h.flag
  · rw [hpc, hstop]
    exact h.returned

theorem Inv.begin {v : View} (h : v.Inv) (hswapped : v.swapped = false) :
    ({ v with before := v.pushed } : View).Inv := by
  refine ⟨h.all, fun x hx => ?_, h.stopped, h.file, h.flag, h.returned⟩
  rw [hswapped]
  exact Nat.le_of_eq (h.all x hx)

theorem Inv.flushSwap {v : View} (h : v.Inv) {before : List Bytes}
    (hbefore : before = v.before ∨ before = v.pushed) (hswapped : v.swapped = false)
    (hflush : v.flush = []) :
    ({ v with flush := v.m_buffer, m_buffer := [], swapped := true, before } : View).Inv := by
  have htaken : ∀ line, ({ v with
      flush := v.m_buffer, m_buffer := [], swapped := true, before } : View).taken.count line =
      v.taken.count line + v.m_buffer.count line := by
    intro line
    simp only [View.taken, hflush, List.count_append, List.count_nil]
    omega
  refine ⟨fun x hx => ?_, fun x hx => ?_, fun hs => ?_, h.file, h.flag, h.returned⟩
  · rw [htaken]
    exact h.all x hx
  · rw [htaken]
    rcases hbefore with rfl | rfl
    · have := h.kept x hx
      rwa [hswapped] at this
    · exact Nat.le_of_eq (h.all x hx)
  · have := (h.stopped hs).1
    rw [hswapped] at this
    cases this

theorem Inv.loop {v : View} (h : v.Inv) {l : AsyncLogger} (hl : v.log.Step l) :
    ({ v with log := l } : View).Inv := by
  have hm := v.moves hl
  refine ⟨fun x hx => ?_, fun x hx => ?_, fun hs => ?_, hm.file h.file, ?_, fun hr => ?_⟩
  · rw [hm.taken x hx]
    exact h.all x hx
  · rw [hm.taken x hx]
    exact h.kept x hx
  · obtain ⟨hswapped, hflush, hload⟩ := h.stopped (hm.stop_flag ▸ hs)
    refine ⟨hswapped, hflush, ?_⟩
    rcases hload with hpc | hload
    · -- a thread that has returned takes no step
      cases hl with
      | take _ _ hpc' | openFile _ _ _ hpc' | fwrite _ _ _ hpc' | skip _ hpc' | fflush hpc' =>
        rw [hpc] at hpc'
        cases hpc'
    · exact .inr (Nat.le_trans hm.load hload)
  · rw [hm.stop_flag]
    exact h.flag
  · rw [hm.stop_flag]
    exact (hm.returned hr).2.2

theorem Inv.step {v w : View} (h : v.Inv) (hstep : v.Step w) : w.Inv := by
  cases hstep with
  | refl => exact h
  | push line => exact h.push line
  | swap htimer hmay => exact h.swap htimer hmay
  | queue => exact h.of_queued (by simp) (by simp) id
  | begin hswapped => exact h.begin hswapped
  | flushSwap before hbefore hswapped hflush => exact h.flushSwap hbefore hswapped hflush
  | flushQueue =>
    exact h.of_queued (by simp [Nat.add_comm]) (by simp [Nat.add_comm]) fun _ => rfl
  | stop hswapped hflush hload =>
    exact ⟨h.all, h.kept, fun _ => ⟨hswapped, hflush, .inr hload⟩, h.file, fun _ => rfl,
      fun _ => rfl⟩
  | loop l hl => exact h.loop hl

theorem Inv.returns {v : View} (h : v.Inv) {l : AsyncLogger} (hl : v.log.Step l)
    (hr : l.pc = .returned) : l.m_buffer = [] ∧
      ∀ line ≠ [], v.before.count line ≤ (l.written.map Prod.snd).count line := by
  have hm := v.moves hl
  obtain ⟨hhand, htmp, hstop⟩ := hm.returned hr
  obtain ⟨hswapped, hflush, hload⟩ := h.stopped hstop
  -- The batch that the thread has in hand is the only one there was.
  have hload : v.load ≤ 1 := by
    refine hload.resolve_left fun hpc => ?_
    unfold View.hand at hhand
    rw [hpc] at hhand
    cases hhand
  have hqueue : v.log.m_buffer = [] := by
    refine List.eq_nil_of_length_eq_zero ?_
    unfold View.load at hload
    omega
  have htimer : v.timer = [] := by
    by_contra hne
    unfold View.load at hload
    rw [if_neg hne] at hload
    omega
  have hsame : l.m_buffer = v.log.m_buffer ∧ l.written = v.log.written := by
    cases hl with
    | fflush hpc => exact ⟨rfl, rfl⟩
    | take | openFile | fwrite | skip => cases hr
  refine ⟨hsame.1.trans hqueue, fun line hline => ?_⟩
  have hkept := h.kept line hline
  rw [if_pos hswapped, Nat.add_zero] at hkept
  unfold View.taken at hkept
  rw [htmp, hqueue, htimer, hflush] at hkept
  rw [hsame.2]
  simpa using hkept

end View

/-! ## Both kinds together -/

/-- At its stop a thread has at most one batch to write, and after that the timer swaps
out no line unless it has none. -/
def Proper (s : Shutdown) : Event → Prop
  | .log .syncLoop => (s.logger.sync = .idle → (s.view .rpc).MaySwap) ∧
    (s.logger.sync = .between → (s.view .app).MaySwap)
  | .flush => (s.flush = .stopping → (s.view .rpc).load ≤ 1) ∧
    (s.flush = .appStopping → (s.view .app).load ≤ 1)
  | _ => True

theorem log_view {s : Shutdown} (htype : s.logger.m_type ≠ 0) {e : Logger.Op} {l : Logger}
    (he : e ≠ .stop) (h : s.logger.Step e l) (hproper : s.Proper (.log e)) (k : LogKind) :
    (s.view k).Step (view { s with
      logger := l, pushed := fun k => s.pushed k ++ Logger.linesOf e k } k) := by
  cases h with
  | stop => exact absurd rfl he
  | pushLog msg =>
    cases k with
    | rpc =>
      unfold Logger.pushLog
      rw [if_neg htype]
      exact .push msg
    | app =>
      unfold Logger.pushLog
      rw [if_neg htype]
      simp only [view, Logger.linesOf, Logger.appPushed, List.append_nil]
      exact .refl
  | pushAppLog msg =>
    cases k with
    | rpc =>
      simp only [view, Logger.pushAppLog, Logger.linesOf, Logger.pushed, List.append_nil]
      exact .refl
    | app => exact .push msg
  | swap hsync =>
    cases k with
    | rpc =>
      simp only [view, Logger.linesOf, Logger.pushed, List.append_nil]
      exact .swap (by rw [hsync]; rfl) (hproper.1 hsync)
    | app =>
      simp only [view, Logger.linesOf, Logger.appPushed, List.append_nil, hsync]
      exact .refl
  | push tmp_vec hsync =>
    cases k with
    | rpc =>
      simp only [view, Logger.linesOf, Logger.pushed, List.append_nil, hsync]
      exact .queue
    | app =>
      simp only [view, Logger.linesOf, Logger.appPushed, List.append_nil, hsync]
      exact .refl
  | appSwap hsync =>
    cases k with
    | rpc =>
      simp only [view, Logger.linesOf, Logger.pushed, List.append_nil, hsync]
      exact .refl
    | app =>
      simp only [view, Logger.linesOf, Logger.appPushed, List.append_nil]
      exact .swap (by rw [hsync]; rfl) (hproper.2 hsync)
  | appPush tmp_app_vec hsync =>
    cases k with
    | rpc =>
      simp only [view, Logger.linesOf, Logger.pushed, List.append_nil, hsync]
      exact .refl
    | app =>
      simp only [view, Logger.linesOf, Logger.appPushed, List.append_nil, hsync]
      exact .queue
  | loop l hl =>
    cases k with
    | rpc =>
      simp only [view, Logger.linesOf, Logger.pushed, List.append_nil]
      exact .loop l hl
    | app =>
      simp only [view, Logger.linesOf, Logger.appPushed, List.append_nil]
      exact .refl
  | appLoop l hl =>
    cases k with
    | rpc =>
      simp only [view, Logger.linesOf, Logger.pushed, List.append_nil]
      exact .refl
    | app =>
      simp only [view, Logger.linesOf, Logger.appPushed, List.append_nil]
      exact .loop l hl

theorem Step.view {s t : Shutdown} {e : Event} (hstep : Step s e t)
    (htype : s.logger.m_type ≠ 0) (hproper : s.Proper e) (k : LogKind) :
    (s.view k).Step (t.view k) := by
  cases hstep with
  | log e l he h => exact log_view htype he h hproper k
  -- `flush` begins with the swap of the first kind of lines only.
  | begin l hflush h =>
    cases h with
    | swap =>
      cases k with
      | rpc =>
        simp only [Shutdown.view, hflush]
        exact .flushSwap _ (.inr rfl) rfl rfl
      | app =>
        simp only [Shutdown.view, hflush]
        exact .begin rfl
    | push _ hsync | appSwap hsync | appPush _ hsync => cases hsync
  | sync pc l hflush hpc h =>
    cases h with
    | swap hsync => exact absurd hsync hpc
    | push tmp_vec hsync =>
      simp only at hsync
      subst hsync
      cases k with
      | rpc =>
        simp only [Shutdown.view, hflush]
        exact .flushQueue
      | app =>
        simp only [Shutdown.view, hflush]
        exact .refl
    | appSwap hsync =>
      simp only at hsync
      subst hsync
      cases k with
      | rpc =>
        simp only [Shutdown.view, hflush]
        exact .refl
      | app =>
        simp only [Shutdown.view, hflush]
        exact .flushSwap _ (.inl rfl) rfl rfl
    | appPush tmp_app_vec hsync =>
      simp only at hsync
      subst hsync
      cases k with
      | rpc =>
        simp only [Shutdown.view, hflush]
        exact .refl
      | app =>
        simp only [Shutdown.view, hflush]
        exact .flushQueue
  -- A `stop` is for one kind of lines, which has at most one batch left.
  | stop hflush =>
    cases k with
    | rpc =>
      have hload := hproper.1 hflush
      simp only [Shutdown.view, hflush] at hload ⊢
      exact .stop rfl rfl hload
    | app =>
      simp only [Shutdown.view, hflush]
      exact .refl
  | appStop hflush =>
    cases k with
    | rpc =>
      simp only [Shutdown.view, hflush]
      exact .refl
    | app =>
      have hload := hproper.2 hflush
      simp only [Shutdown.view, hflush] at hload ⊢
      exact .stop rfl rfl hload

structure Inv (s : Shutdown) : Prop where
  type : s.logger.m_type ≠ 0
  kinds : ∀ k, (s.view k).Inv

theorem Step.type_eq {s t : Shutdown} {e : Event} (hstep : Step s e t) :
    t.logger.m_type = s.logger.m_type := by
  cases hstep with
  | log e l he h => exact Logger.Step.type_eq h
  | begin l hflush h => exact (Logger.Step.type_eq h :)
  | sync pc l hflush hpc h => exact (Logger.Step.type_eq h :)
  | stop | appStop => rfl

theorem inv_run {es : List Event} {s : Shutdown} (hrun : (system.restrict Proper).Run es s) :
    s.Inv := by
  refine hrun.invariant ?_ fun s e t h hstep => ?_
  · rintro s ⟨m_file_path, m_max_file_size, rfl⟩
    refine ⟨by simp [Logger.new], fun k => ?_⟩
    cases k with
    | rpc | app =>
      refine ⟨fun _ _ => rfl, fun _ _ => Nat.zero_le _, fun hstop => ?_, fun _ hpc => ?_,
        fun hstop => ?_, fun hpc => ?_⟩
      · cases hstop
      · cases hpc
      · cases hstop
      · cases hpc
  · refine ⟨?_, fun k => (h.kinds k).step (hstep.2.view h.type hstep.1 k)⟩
    rw [hstep.2.type_eq]
    exact h.type

theorem Step.of_returned {s t : Shutdown} {e : Event} (hstep : Step s e t) {k : LogKind}
    (hpc : (s.asyncLog k).pc ≠ .returned) (hr : (t.asyncLog k).pc = .returned) :
    (s.view k).log.Step (t.asyncLog k) ∧ t.before k = s.before k := by
  have hqueued : ∀ vec l, (View.queued l vec).pc = l.pc :=
    fun vec l => (View.queued_fields l vec).2.1
  cases hstep with
  | log e l he h =>
    cases h with
    -- Only a step of the thread itself changes where it is.
    | loop l hl =>
      cases k with
      | rpc => exact ⟨hl, rfl⟩
      | app => exact absurd hr hpc
    | appLoop l hl =>
      cases k with
      | rpc => exact absurd hr hpc
      | app => exact ⟨hl, rfl⟩
    | pushLog msg =>
      unfold Logger.pushLog at hr
      cases k with
      | rpc | app =>
        split at hr <;> exact absurd hr hpc
    | push vec hsync =>
      cases k with
      | rpc => exact absurd ((hqueued vec _).symm.trans hr) hpc
      | app => exact absurd hr hpc
    | appPush vec hsync =>
      cases k with
      | rpc => exact absurd hr hpc
      | app => exact absurd ((hqueued vec _).symm.trans hr) hpc
    | pushAppLog | swap | appSwap | stop =>
      cases k with
      | rpc | app => exact absurd hr hpc
  | begin l hflush h =>
    cases h with
    | swap =>
      cases k with
      | rpc | app => exact absurd hr hpc
    | push _ hsync | appSwap hsync | appPush _ hsync => cases hsync
  | sync pc l hflush hpc' h =>
    cases h with
    | push vec hsync =>
      cases k with
      | rpc => exact absurd ((hqueued vec _).symm.trans hr) hpc
      | app => exact absurd hr hpc
    | appPush vec hsync =>
      cases k with
      | rpc => exact absurd hr hpc
      | app => exact absurd ((hqueued vec _).symm.trans hr) hpc
    | swap | appSwap =>
      cases k with
      | rpc | app => exact absurd hr hpc
  | stop | appStop =>
    cases k with
    | rpc | app => exact absurd hr hpc

theorem view_log (s : Shutdown) (k : LogKind) : (s.view k).log = s.asyncLog k := by
  cases k <;> rfl

theorem view_before (s : Shutdown) (k : LogKind) : (s.view k).before = s.before k := by
  cases k <;> rfl

theorem Inv.lossless {s : Shutdown} (h : s.Inv) : s.Lossless := by
  intro e t k hstep hpc hr
  obtain ⟨hl, hbefore⟩ := hstep.of_returned hpc hr
  obtain ⟨hqueue, hwritten⟩ := (h.kinds k).returns hl hr
  rw [view_before, ← hbefore] at hwritten
  exact ⟨hqueue, hwritten⟩

/-! ## A thread that stops too early -/

def loopOp : LogKind → Logger.Op
  | .rpc => .loop
  | .app => .appLoop

theorem loop_step {s : Shutdown} {k : LogKind} {l : AsyncLogger} (h : (s.asyncLog k).Step l) :
    ∃ t, Step s (.log (loopOp k)) t ∧ t.asyncLog k = l := by
  cases k with
  | rpc => exact ⟨_, .log .loop _ (by decide) (.loop s.logger l h), rfl⟩
  | app => exact ⟨_, .log .appLoop _ (by decide) (.appLoop s.logger l h), rfl⟩

theorem loop_run {es : List Event} {s : Shutdown} (hrun : system.Run es s) {k : LogKind}
    {l : AsyncLogger} (h : (s.asyncLog k).Step l) :
    ∃ e t, system.Run (es ++ [e]) t ∧ t.asyncLog k = l := by
  obtain ⟨t, ht, hl⟩ := loop_step h
  exact ⟨_, t, hrun.step ht, hl⟩

theorem write_out {es : List Event} {s : Shutdown} (hrun : system.Run es s) {k : LogKind}
    {tmp : List Bytes} (hpc : (s.asyncLog k).pc = .writing tmp)
    (hfile : (s.asyncLog k).m_file_handler ≠ none) :
    ∃ es' t, system.Run (es ++ es') t ∧ (t.asyncLog k).pc = .writing [] ∧
      (t.asyncLog k).m_buffer = (s.asyncLog k).m_buffer ∧
      (t.asyncLog k).m_stop_flag = (s.asyncLog k).m_stop_flag := by
  induction tmp generalizing es s with
  | nil => exact ⟨[], s, by rwa [List.append_nil], hpc, rfl, rfl⟩
  | cons line tmp ih =>
    obtain ⟨l, hl, hpc', hfile', hbuffer, hstop⟩ : ∃ l, (s.asyncLog k).Step l ∧
        l.pc = .writing tmp ∧ l.m_file_handler ≠ none ∧
        l.m_buffer = (s.asyncLog k).m_buffer ∧
        l.m_stop_flag = (s.asyncLog k).m_stop_flag := by
      by_cases hline : line = []
      · subst hline
        exact ⟨_, .skip _ tmp hpc, rfl, hfile, rfl, rfl⟩
      · obtain ⟨file, hopen⟩ := Option.ne_none_iff_exists'.mp hfile
        exact ⟨_, .fwrite _ line tmp file hpc hopen hline, rfl, hfile, rfl, rfl⟩
    obtain ⟨e, t, hrun', rfl⟩ := loop_run hrun hl
    obtain ⟨es', u, hrun'', hpc'', hbuffer', hstop'⟩ := ih hrun' hpc' hfile'
    exact ⟨e :: es', u, by rwa [List.append_cons], hpc'', hbuffer'.trans hbuffer,
      hstop'.trans hstop⟩

/-- The thread is at the end of a batch, with another one in the queue. -/
structure AtEnd (s : Shutdown) (k : LogKind) : Prop where
  pc : (s.asyncLog k).pc = .writing []
  buffer : (s.asyncLog k).m_buffer ≠ []

theorem finish_writing {es : List Event} {s : Shutdown} (hrun : system.Run es s) {k : LogKind}
    {tmp : List Bytes} (hpc : (s.asyncLog k).pc = .writing tmp)
    (hfile : (s.asyncLog k).m_file_handler ≠ none) (hne : (s.asyncLog k).m_buffer ≠ []) :
    ∃ es' t, system.Run (es ++ es') t ∧ t.AtEnd k ∧
      (t.asyncLog k).m_stop_flag = (s.asyncLog k).m_stop_flag := by
  obtain ⟨es', t, hrun', hpc', hbuffer, hstop⟩ := write_out hrun hpc hfile
  exact ⟨es', t, hrun', ⟨hpc', by rwa [hbuffer]⟩, hstop⟩

theorem finish_opening {es : List Event} {s : Shutdown} (hrun : system.Run es s) {k : LogKind}
    {tmp : List Bytes} (hpc : (s.asyncLog k).pc = .opening tmp)
    (hne : (s.asyncLog k).m_buffer ≠ []) :
    ∃ es' t, system.Run (es ++ es') t ∧ t.AtEnd k ∧
      (t.asyncLog k).m_stop_flag = (s.asyncLog k).m_stop_flag := by
  obtain ⟨e, t, hrun', hl⟩ := loop_run hrun (.openFile _ [] 0 tmp hpc)
  have hbuffer : (t.asyncLog k).m_buffer = (s.asyncLog k).m_buffer := by
    rw [hl]
    exact (Logger.openFile_lines (s.asyncLog k) [] 0).2
  have hfile : (t.asyncLog k).m_file_handler ≠ none := by
    rw [hl]
    exact View.openFile_handler _ _ _
  obtain ⟨es', u, hrun'', hend, hstop⟩ := finish_writing hrun' (by rw [hl]) hfile (by rwa [hbuffer])
  refine ⟨e :: es', u, by rwa [List.append_cons], hend, ?_⟩
  rw [hstop, hl]
  exact View.openFile_stop_flag _ _ _

theorem finish_batch {es : List Event} {s : Shutdown} (hrun : system.Run es s) {k : LogKind}
    (hpc : (s.asyncLog k).pc ≠ .returned)
    (hfile : ∀ tmp, (s.asyncLog k).pc = .writing tmp → (s.asyncLog k).m_file_handler ≠ none)
    (hload : 2 ≤ (s.view k).hand + (s.asyncLog k).m_buffer.length) :
    ∃ es' t, system.Run (es ++ es') t ∧ t.AtEnd k ∧
      (t.asyncLog k).m_stop_flag = (s.asyncLog k).m_stop_flag := by
  unfold View.hand at hload
  rw [view_log] at hload
  -- where it has a batch in its hands already, one in the queue is enough
  have hqueue : (s.asyncLog k).pc ≠ .waiting → (s.asyncLog k).m_buffer ≠ [] := by
    intro hwait hnil
    rw [hnil] at hload
    split at hload <;> simp at hload
  cases hcase : (s.asyncLog k).pc with
  | returned => exact absurd hcase hpc
  | writing tmp => exact finish_writing hrun hcase (hfile tmp hcase) (hqueue (by rw [hcase]; simp))
  | opening tmp => exact finish_opening hrun hcase (hqueue (by rw [hcase]; simp))
  | waiting =>
    rw [hcase] at hload
    cases hbuffer : (s.asyncLog k).m_buffer with
    | nil =>
      rw [hbuffer] at hload
      simp at hload
    | cons tmp rest =>
      obtain ⟨e, t, hrun', hl⟩ := loop_run hrun (.take _ tmp rest hcase hbuffer)
      have hrest : rest ≠ [] := by
        rintro rfl
        rw [hbuffer] at hload
        simp at hload
      obtain ⟨es', u, hrun'', hend, hstop⟩ :=
        finish_opening hrun' (k := k) (by rw [hl]) (by rwa [hl])
      exact ⟨e :: es', u, by rwa [List.append_cons], hend, by rw [hstop, hl]⟩

theorem timer_queues {s : Shutdown} {k : LogKind} (h : (s.view k).timer ≠ []) :
    ∃ t, Step s (.log .syncLoop) t ∧
      t.asyncLog k = View.queued (s.asyncLog k) (s.view k).timer := by
  cases k with
  | rpc =>
    cases hsync : s.logger.sync with
    | pushing tmp_vec =>
      refine ⟨_, .log .syncLoop _ (by decide) (.push s.logger tmp_vec hsync), ?_⟩
      simp only [asyncLog, view, hsync]
      rfl
    | idle | between | appPushing =>
      simp only [view, hsync] at h
      exact absurd rfl h
  | app =>
    cases hsync : s.logger.sync with
    | appPushing tmp_app_vec =>
      refine ⟨_, .log .syncLoop _ (by decide) (.appPush s.logger tmp_app_vec hsync), ?_⟩
      simp only [asyncLog, view, hsync]
      rfl
    | idle | between | pushing =>
      simp only [view, hsync] at h
      exact absurd rfl h

/-- A thread that has been told to stop, and has two batches to write, leaves one behind. -/
theorem overloaded_loses {es : List Event} {s : Shutdown} (hrun : system.Run es s) {k : LogKind}
    (hstop : (s.asyncLog k).m_stop_flag) (hpc : (s.asyncLog k).pc ≠ .returned)
    (hfile : ∀ tmp, (s.asyncLog k).pc = .writing tmp → (s.asyncLog k).m_file_handler ≠ none)
    (hflush : (s.view k).flush = []) (hload : 2 ≤ (s.view k).load) :
    ∃ es' u, system.Run (es ++ es') u ∧ ¬ u.Lossless := by
  obtain ⟨es₁, t, hrun₁, hstop₁, hpc₁, hfile₁, hload₁⟩ : ∃ es' t, system.Run (es ++ es') t ∧
      (t.asyncLog k).m_stop_flag ∧ (t.asyncLog k).pc ≠ .returned ∧
      (∀ tmp, (t.asyncLog k).pc = .writing tmp → (t.asyncLog k).m_file_handler ≠ none) ∧
      2 ≤ (t.view k).hand + (t.asyncLog k).m_buffer.length := by
    unfold View.load at hload
    rw [hflush, if_pos rfl, view_log] at hload
    by_cases htimer : (s.view k).timer = []
    · rw [htimer, if_pos rfl] at hload
      exact ⟨[], s, by rwa [List.append_nil], hstop, hpc, hfile, hload⟩
    · obtain ⟨t, ht, hl⟩ := timer_queues htimer
      obtain ⟨-, hpc', hstop', hfile', hlength⟩ :=
        View.queued_fields (s.asyncLog k) (s.view k).timer
      have hhand : (t.view k).hand = (s.view k).hand := by
        unfold View.hand
        rw [view_log, view_log, hl, hpc']
      refine ⟨[.log .syncLoop], t, hrun.step ht, ?_, ?_, ?_, ?_⟩
      · rwa [hl, hstop']
      · rwa [hl, hpc']
      · rw [hl, hpc', hfile']
        exact hfile
      · rw [hhand, hl, hlength]
        omega
  obtain ⟨es₂, u, hrun₂, ⟨hpc₂, hne⟩, hstop₂⟩ := finish_batch hrun₁ hpc₁ hfile₁ hload₁
  refine ⟨es₁ ++ es₂, u, by rwa [← List.append_assoc], fun hlossless => ?_⟩
  obtain ⟨v, hv, hl⟩ := loop_step (.fflush (u.asyncLog k) hpc₂)
  rw [hstop₂, hstop₁, if_pos rfl] at hl
  have hcomplete := hlossless _ v k hv (by rw [hpc₂]; simp) (by rw [hl])
  refine hne ?_
  rw [← hcomplete.queue, hl]

theorem Inv.file {s : Shutdown} (h : s.Inv) (k : LogKind) (tmp : List Bytes)
    (hpc : (s.asyncLog k).pc = .writing tmp) : (s.asyncLog k).m_file_handler ≠ none := by
  rw [← view_log] at hpc ⊢
  exact (h.kinds k).file tmp hpc

theorem swap_loses {es : List Event} {s t : Shutdown} (h : s.Inv) {e : Event} {k : LogKind}
    (hrun : system.Run (es ++ [e]) t) (hnot : ¬ (s.view k).MaySwap)
    (htimer : (s.view k).timer = []) (ht : t.view k = { s.view k with
      timer := (s.view k).m_buffer
      m_buffer := [] }) :
    ∃ es' u, system.Run (es ++ e :: es') u ∧ ¬ u.Lossless := by
  unfold View.MaySwap at hnot
  simp only [not_forall] at hnot
  obtain ⟨hstop, hpc, hne, hload⟩ := hnot
  obtain ⟨-, hflush, -⟩ := (h.kinds k).stopped hstop
  have hlog : t.asyncLog k = s.asyncLog k := by
    rw [← view_log, ← view_log, ht]
  rw [view_log] at hstop hpc
  obtain ⟨es', u, hrun', hlost⟩ := overloaded_loses hrun (k := k) (hlog ▸ hstop) (hlog ▸ hpc)
    (hlog ▸ h.file k) (by rw [ht]; exact hflush) (by
      rw [ht]
      simp only [View.load, View.hand, htimer, hflush, hne, if_true, if_false] at hload ⊢
      omega)
  exact ⟨es', u, by rwa [List.append_cons], hlost⟩

theorem stop_loses {es : List Event} {s t : Shutdown} (h : s.Inv) {e : Event} {k : LogKind}
    (hrun : system.Run (es ++ [e]) t) (hload : ¬ (s.view k).load ≤ 1)
    (hstopped : (s.view k).stopped = false) (hflush : (s.view k).flush = [])
    (ht : t.view k = { s.view k with log := (s.view k).log.stop, stopped := true }) :
    ∃ es' u, system.Run (es ++ e :: es') u ∧ ¬ u.Lossless := by
  have hlog : t.asyncLog k = (s.asyncLog k).stop := by
    rw [← view_log, ← view_log, ht]
  have hpc : (s.asyncLog k).pc ≠ .returned := by
    intro hr
    rw [← view_log] at hr
    have := (h.kinds k).flag ((h.kinds k).returned hr)
    rw [hstopped] at this
    cases this
  obtain ⟨es', u, hrun', hlost⟩ := overloaded_loses hrun (k := k) (by rw [hlog]; rfl)
    (by rw [hlog]; exact hpc) (by rw [hlog]; exact h.file k) (by rw [ht]; exact hflush) (by
      rw [ht]
      exact Nat.lt_of_not_le hload)
  exact ⟨es', u, by rwa [List.append_cons], hlost⟩

theorem improper_loses {es : List Event} {s t : Shutdown} (hrun : system.Run es s) (h : s.Inv)
    {e : Event} (hstep : Step s e t) (hnot : ¬ s.Proper e) :
    ∃ es' u, system.Run (es ++ e :: es') u ∧ ¬ u.Lossless := by
  have hrun' := hrun.step hstep
  cases hstep with
  | log e l he hl =>
    cases hl with
    | swap hsync =>
      refine swap_loses h (k := .rpc) hrun' (fun hmay => hnot ⟨fun _ => hmay, fun hb => ?_⟩)
        (by simp only [view, hsync]; rfl) ?_
      · rw [hsync] at hb
        cases hb
      · simp only [view, Logger.linesOf, Logger.pushed, List.append_nil]
        rfl
    | appSwap hsync =>
      refine swap_loses h (k := .app) hrun' (fun hmay => hnot ⟨fun hb => ?_, fun _ => hmay⟩)
        (by simp only [view, hsync]; rfl) ?_
      · rw [hsync] at hb
        cases hb
      · simp only [view, Logger.linesOf, Logger.appPushed, List.append_nil]
        rfl
    -- A batch was counted when it was swapped out.
    | push _ hsync | appPush _ hsync =>
      refine absurd ⟨fun hb => ?_, fun hb => ?_⟩ hnot
      all_goals
        rw [hsync] at hb
        cases hb
    | pushLog | pushAppLog | loop | appLoop => exact absurd trivial hnot
    | stop => exact absurd rfl he
  | begin l hflush hl =>
    refine absurd ⟨fun hb => ?_, fun hb => ?_⟩ hnot
    all_goals
      rw [hflush] at hb
      cases hb
  | sync pc l hflush hpc hl =>
    refine absurd ⟨fun hb => ?_, fun hb => ?_⟩ hnot
    all_goals
      rw [hflush] at hb
      cases hb
  | stop hflush =>
    refine stop_loses h (k := .rpc) hrun' (fun hload => hnot ⟨fun _ => hload, fun hb => ?_⟩)
      (by simp only [view, hflush]; rfl) (by simp only [view, hflush]; rfl) ?_
    · rw [hflush] at hb
      cases hb
    · simp only [view, hflush]
      rfl
  | appStop hflush =>
    refine stop_loses h (k := .app) hrun' (fun hload => hnot ⟨fun hb => ?_, fun _ => hload⟩)
      (by simp only [view, hflush]; rfl) (by simp only [view, hflush]; rfl) ?_
    · rw [hflush] at hb
      cases hb
    · simp only [view, hflush]
      rfl

/-- When each thread has at most one batch to write at its stop, and gets no second one
after that, a thread returns with an empty queue, and with every line from before the
flush in a file. In every other run a thread can leave a batch behind. -/
theorem shutdown_lossless (es : List Event) (s : Shutdown)
    (hrun : (system.restrict Proper).Run es s) :
    s.Lossless ∧ ∀ e t, Step s e t → ¬ s.Proper e →
      ∃ es' u, system.Run (es ++ e :: es') u ∧ ¬ u.Lossless := by
  have h := inv_run hrun
  exact ⟨h.lossless, fun _ _ hstep hnot => improper_loses hrun.of_restrict h hstep hnot⟩

/-! ## Short runs -/

def syncNext (s : Logger) : Logger :=
  match s.sync with
  | .idle => { s with sync := .pushing s.m_buffer, m_buffer := [] }
  | .pushing tmp_vec => { s with
      sync := .between
      m_asnyc_log := View.queued s.m_asnyc_log tmp_vec }
  | .between => { s with sync := .appPushing s.m_app_buffer, m_app_buffer := [] }
  | .appPushing tmp_app_vec => { s with
      sync := .idle
      m_asnyc_app_log := View.queued s.m_asnyc_app_log tmp_app_vec }

/-- The threads write on a fixed day, to small files. -/
def logNext (s : Logger) : Logger.Op → Option Logger
  | .pushLog msg => some (s.pushLog msg)
  | .pushAppLog msg => some (s.pushAppLog msg)
  | .syncLoop => some (syncNext s)
  | .loop => (s.m_asnyc_log.next [] 0).map fun l => { s with m_asnyc_log := l }
  | .appLoop => (s.m_asnyc_app_log.next [] 0).map fun l => { s with m_asnyc_app_log := l }
  | .stop => none

def flushNext (s : Shutdown) : Option Shutdown :=
  match s.flush with
  | .idle =>
    let l := syncNext { s.logger with sync := .idle }
    some { s with
      logger := { l with sync := s.logger.sync }
      flush := .syncing l.sync
      before := s.pushed }
  | .syncing pc =>
    let l := syncNext { s.logger with sync := pc }
    if pc = .idle then none
    else some { s with
      logger := { l with sync := s.logger.sync }
      flush := if l.sync = .idle then .stopping else .syncing l.sync }
  | .stopping => some { s with
      logger := { s.logger with m_asnyc_log := s.logger.m_asnyc_log.stop }
      flush := .appStopping }
  | .appStopping => some { s with
      logger := { s.logger with m_asnyc_app_log := s.logger.m_asnyc_app_log.stop }
      flush := .done }
  | .done => none

def next (s : Shutdown) : Event → Option Shutdown
  | .log e => (logNext s.logger e).map fun l =>
      { s with logger := l, pushed := fun k => s.pushed k ++ Logger.linesOf e k }
  | .flush => s.flushNext

theorem syncNext_step (s : Logger) : s.Step .syncLoop (syncNext s) := by
  unfold syncNext
  cases hsync : s.sync with
  | idle => exact .swap s hsync
  | pushing tmp_vec => exact .push s tmp_vec hsync
  | between => exact .appSwap s hsync
  | appPushing tmp_app_vec => exact .appPush s tmp_app_vec hsync

theorem logNext_step {s t : Logger} {e : Logger.Op} (h : logNext s e = some t) :
    s.Step e t ∧ e ≠ .stop := by
  cases e with
  | pushLog msg =>
    cases h
    exact ⟨.pushLog s msg, by simp⟩
  | pushAppLog msg =>
    cases h
    exact ⟨.pushAppLog s msg, by simp⟩
  | syncLoop =>
    cases h
    exact ⟨syncNext_step s, by simp⟩
  | loop =>
    obtain ⟨l, hl, rfl⟩ := Option.map_eq_some_iff.mp h
    exact ⟨.loop s l (AsyncLogger.next_step hl), by simp⟩
  | appLoop =>
    obtain ⟨l, hl, rfl⟩ := Option.map_eq_some_iff.mp h
    exact ⟨.appLoop s l (AsyncLogger.next_step hl), by simp⟩
  | stop => cases h

theorem flushNext_step {s t : Shutdown} (h : s.flushNext = some t) : Step s .flush t := by
  unfold flushNext at h
  split at h
  · cases h
    exact .begin _ ‹_› (syncNext_step _)
  · rename_i pc hflush
    simp only at h
    split at h
    · cases h
    · cases h
      exact .sync pc _ hflush ‹_› (syncNext_step _)
  · cases h
    exact .stop ‹_›
  · cases h
    exact .appStop ‹_›
  · cases h

theorem next_step {s t : Shutdown} {e : Event} (h : s.next e = some t) : Step s e t := by
  cases e with
  | log e =>
    obtain ⟨l, hl, rfl⟩ := Option.map_eq_some_iff.mp h
    obtain ⟨hstep, he⟩ := logNext_step hl
    exact .log e l he hstep
  | flush => exact flushNext_step h

instance (v : View) : Decidable v.MaySwap :=
  inferInstanceAs (Decidable (_ → _ → _ → _))

instance (s : Shutdown) : DecidablePred s.Proper
  | .log .syncLoop => inferInstanceAs (Decidable ((_ → _) ∧ (_ → _)))
  | .flush => inferInstanceAs (Decidable ((_ → _) ∧ (_ → _)))
  | .log (.pushLog _) | .log (.pushAppLog _) | .log .loop | .log .appLoop | .log .stop =>
    isTrue trivial

def fresh : Shutdown where
  logger := Logger.new [] 0

theorem fresh_start : system.start fresh := ⟨[], 0, rfl⟩

/-- A line is pushed, `flush` queues it and calls both stops, and the thread writes it. -/
def oneLine : List Event :=
  [.log (.pushLog (ascii "a")), .flush, .flush, .flush, .flush, .flush, .flush,
    .log .loop, .log .loop, .log .loop]

theorem shutdown_lossless_oneLine : ∃ s : Shutdown, s.flush = .done ∧
    s.logger.m_asnyc_log.pc = .writing [] ∧ s.before .rpc = [ascii "a"] ∧ s.Lossless := by
  have hlast : (oneLine.foldlM (System.guarded Proper next) fresh).map
      (fun s => (s.flush, s.logger.m_asnyc_log.pc, s.before .rpc)) =
      some (.done, .writing [], [ascii "a"]) := by decide +kernel
  obtain ⟨s, hs, hlast⟩ := Option.map_eq_some_iff.mp hlast
  obtain ⟨hflush, hrest⟩ := Prod.mk.inj hlast
  obtain ⟨hpc, hbefore⟩ := Prod.mk.inj hrest
  have hrun := System.Run.of_guarded (S := system) (fun _ _ _ h => next_step h) fresh_start hs
  exact ⟨s, hflush, hpc, hbefore, (shutdown_lossless _ s hrun).1⟩

/-- One line is in the queue when `flush` queues the next one. -/
def twoLines : List Event :=
  [.log (.pushLog (ascii "a")), .log .syncLoop, .log .syncLoop, .log .syncLoop, .log .syncLoop,
    .log (.pushLog (ascii "b")), .flush, .flush, .flush, .flush, .flush, .flush,
    .log .loop, .log .loop, .log .loop]

/-- The thread writes the first line, and returns. -/
theorem second_batch_lost : ∃ s : Shutdown, system.Run twoLines s ∧
    s.before .rpc = [ascii "a", ascii "b"] ∧
    s.logger.m_asnyc_log.m_buffer.flatten = [ascii "b"] ∧ ¬ s.Lossless := by
  have hlast : (twoLines.foldlM next fresh).map (fun s => (s.logger.m_asnyc_log.pc,
      s.logger.m_asnyc_log.m_stop_flag, s.before .rpc, s.logger.m_asnyc_log.m_buffer.flatten)) =
      some (.writing [], true, [ascii "a", ascii "b"], [ascii "b"]) := by decide +kernel
  obtain ⟨s, hs, hlast⟩ := Option.map_eq_some_iff.mp hlast
  obtain ⟨hpc, hrest⟩ := Prod.mk.inj hlast
  obtain ⟨hstop, hrest⟩ := Prod.mk.inj hrest
  obtain ⟨hbefore, hbuffer⟩ := Prod.mk.inj hrest
  refine ⟨s, System.Run.of_next (fun _ _ _ h => next_step h) fresh_start hs, hbefore, hbuffer,
    fun hlossless => ?_⟩
  obtain ⟨t, ht, hl⟩ := loop_step (s := s) (k := .rpc) (.fflush _ hpc)
  have hcomplete := hlossless _ t .rpc ht (by rw [asyncLog, hpc]; simp) (by
    rw [hl]
    exact if_pos hstop)
  have hqueue := hcomplete.queue
  rw [hl] at hqueue
  rw [show s.logger.m_asnyc_log.m_buffer = [] from hqueue] at hbuffer
  cases hbuffer

end Shutdown

end TinyRpc
