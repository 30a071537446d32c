import TinyRpc.Lib.Pipeline
import TinyRpc.Log.Spec

/-!
# No line is lost on its way to the file

From the newest to the oldest, a line is in the buffer of the logger, in the
vector of `syncLoop`, in a queued batch, in the batch that is being written, or
in a file.
-/

namespace TinyRpc.Logger

open Lib

/-- The stages of a line, given the vector of `syncLoop` and the buffer of the logger. -/
def stagesOf (l : AsyncLogger) (tmp_vec m_buffer : List Bytes) : List (List Bytes) :=
  [l.written.map Prod.snd, l.pc.tmp, l.m_buffer.flatten, tmp_vec, m_buffer]

def stages (s : Logger) : List (List Bytes) := stagesOf s.m_asnyc_log s.sync.tmp_vec s.m_buffer

def appStages (s : Logger) : List (List Bytes) :=
  stagesOf s.m_asnyc_app_log s.sync.tmp_app_vec s.m_app_buffer

def pushed : Op → List Bytes
  | .pushLog msg => [msg]
  | _ => []

def appPushed : Op → List Bytes
  | .pushAppLog msg => [msg]
  | _ => []

def AllNonEmpty (lines : List Bytes) : Prop := ∀ line ∈ lines, line ≠ []

/-! ## One step -/

theorem newDate_lines (l : AsyncLogger) (date : Bytes) :
    (l.newDate date).written = l.written ∧ (l.newDate date).m_buffer = l.m_buffer := by
  unfold AsyncLogger.newDate
  split <;> exact ⟨rfl, rfl⟩

theorem reopen_lines (l : AsyncLogger) :
    l.reopen.written = l.written ∧ l.reopen.m_buffer = l.m_buffer := by
  unfold AsyncLogger.reopen
  split <;> exact ⟨rfl, rfl⟩

theorem nextFile_lines (l : AsyncLogger) (size : Int) :
    (l.nextFile size).written = l.written ∧ (l.nextFile size).m_buffer = l.m_buffer := by
  unfold AsyncLogger.nextFile
  split <;> exact ⟨rfl, rfl⟩

theorem openFile_lines (l : AsyncLogger) (date : Bytes) (size : Int) :
    (l.openFile date size).written = l.written ∧ (l.openFile date size).m_buffer = l.m_buffer := by
  obtain ⟨h1, h2⟩ := newDate_lines l date
  obtain ⟨h3, h4⟩ := reopen_lines (l.newDate date)
  obtain ⟨h5, h6⟩ := nextFile_lines (l.newDate date).reopen size
  exact ⟨h5.trans (h3.trans h1), h6.trans (h4.trans h2)⟩

theorem loop_stages {l l' : AsyncLogger} (hstep : l.Step l') {tmp_vec m_buffer : List Bytes}
    (h : AllNonEmpty (stagesOf l tmp_vec m_buffer).flatten) :
    (stagesOf l' tmp_vec m_buffer).flatten = (stagesOf l tmp_vec m_buffer).flatten := by
  cases hstep with
  | take tmp rest hpc hbuffer => simp [stagesOf, LoopPc.tmp, hpc, hbuffer]
  | openFile date size tmp hpc =>
    obtain ⟨hwritten, hbuffer⟩ := openFile_lines l date size
    simp [stagesOf, LoopPc.tmp, hpc, hwritten, hbuffer]
  | fwrite line tmp file hpc hfile hline => simp [stagesOf, LoopPc.tmp, hpc]
  | skip tmp hpc =>
    have hmem : [] ∈ (stagesOf l tmp_vec m_buffer).flatten := by
      simp [stagesOf, LoopPc.tmp, hpc]
    exact absurd rfl (h [] hmem)
  | fflush hpc =>
    unfold stagesOf
    simp only [hpc]
    split <;> rfl

theorem pushLogBuffer_stages (l : AsyncLogger) (tmp_vec m_buffer : List Bytes) :
    (stagesOf (if tmp_vec = [] then l else l.pushLogBuffer tmp_vec) [] m_buffer).flatten =
      (stagesOf l tmp_vec m_buffer).flatten := by
  split
  · rename_i hnil
    rw [hnil]
  · simp [stagesOf, AsyncLogger.pushLogBuffer]

theorem swap_stages (l : AsyncLogger) (m_buffer : List Bytes) :
    (stagesOf l m_buffer []).flatten = (stagesOf l [] m_buffer).flatten := by
  simp [stagesOf]

theorem push_stages (l : AsyncLogger) (tmp_vec m_buffer : List Bytes) (msg : Bytes) :
    (stagesOf l tmp_vec (m_buffer ++ [msg])).flatten =
      (stagesOf l tmp_vec m_buffer).flatten ++ [msg] := by
  simp [stagesOf]

theorem Step.type_eq {s t : Logger} {e : Op} (hstep : Step s e t) : t.m_type = s.m_type := by
  cases hstep with
  | pushLog msg =>
    unfold Logger.pushLog
    split <;> rfl
  | pushAppLog | swap | push | appSwap | appPush | loop | appLoop | stop => rfl

theorem Step.stages_eq {s t : Logger} {e : Op} (hstep : Step s e t) (htype : s.m_type ≠ 0)
    (h : AllNonEmpty (stages s).flatten) :
    (stages t).flatten = (stages s).flatten ++ pushed e := by
  cases hstep with
  | pushLog msg =>
    unfold stages Logger.pushLog
    rw [if_neg htype]
    exact push_stages _ _ _ msg
  | pushAppLog | stop => simp [stages, stagesOf, pushed, Logger.pushAppLog, AsyncLogger.stop]
  | swap hsync =>
    unfold stages
    simp only [hsync, pushed, List.append_nil]
    exact swap_stages _ _
  | push tmp_vec hsync =>
    unfold stages
    simp only [hsync, pushed, List.append_nil]
    exact pushLogBuffer_stages _ _ _
  | appSwap hsync | appPush _ hsync =>
    unfold stages
    simp only [hsync, pushed, List.append_nil]
    rfl
  | loop l hl =>
    simp only [pushed, List.append_nil]
    exact loop_stages hl h
  | appLoop => exact (List.append_nil _).symm

theorem Step.appStages_eq {s t : Logger} {e : Op} (hstep : Step s e t)
    (h : AllNonEmpty (appStages s).flatten) :
    (appStages t).flatten = (appStages s).flatten ++ appPushed e := by
  cases hstep with
  | pushAppLog msg => exact push_stages _ _ _ msg
  | pushLog msg =>
    unfold Logger.pushLog
    simp only [appPushed, List.append_nil]
    split <;> rfl
  | stop => exact (List.append_nil _).symm
  | appSwap hsync =>
    unfold appStages
    simp only [hsync, appPushed, List.append_nil]
    exact swap_stages _ _
  | appPush tmp_app_vec hsync =>
    unfold appStages
    simp only [hsync, appPushed, List.append_nil]
    exact pushLogBuffer_stages _ _ _
  | swap hsync | push _ hsync =>
    unfold appStages
    simp only [hsync, appPushed, List.append_nil]
    rfl
  | appLoop l hl =>
    simp only [appPushed, List.append_nil]
    exact loop_stages hl h
  | loop => exact (List.append_nil _).symm

/-! ## Runs -/

/-- What holds of the two kinds of lines alike. No empty line of this kind is pushed. -/
theorem conserves_of {stages : Logger → List (List Bytes)} {input : Op → List Bytes}
    (hstart : ∀ m_file_path m_max_file_size,
      (stages (new m_file_path m_max_file_size)).flatten = [])
    (hstep : ∀ s e t, Step s e t → s.m_type ≠ 0 → AllNonEmpty (stages s).flatten →
      (stages t).flatten = (stages s).flatten ++ input e) :
    (system.restrict fun _ e => AllNonEmpty (input e)).Conserves
      (fun s => s.m_type ≠ 0 ∧ AllNonEmpty (stages s).flatten) stages input := by
  constructor
  · rintro s ⟨m_file_path, m_max_file_size, rfl⟩
    have hnil := hstart m_file_path m_max_file_size
    refine ⟨⟨by simp [new], ?_⟩, hnil⟩
    rw [hnil]
    simp [AllNonEmpty]
  · rintro s e t ⟨htype, hlines⟩ ⟨hne, hst⟩
    have heq := hstep s e t hst htype hlines
    refine ⟨⟨by rwa [Step.type_eq hst], ?_⟩, heq⟩
    rw [heq]
    exact List.forall_mem_append.mpr ⟨hlines, hne⟩

theorem stages_run {stages : Logger → List (List Bytes)} {input : Op → List Bytes}
    (h : (system.restrict fun _ e => AllNonEmpty (input e)).Conserves
      (fun s => s.m_type ≠ 0 ∧ AllNonEmpty (stages s).flatten) stages input)
    {es : List Op} {s : Logger} (hrun : system.Run es s) (hlines : AllNonEmpty (es.flatMap input)) :
    (stages s).flatten = es.flatMap input := by
  have hok : ∀ e ∈ es, AllNonEmpty (input e) := by
    intro e he line hline
    exact hlines line (List.mem_flatMap.mpr ⟨e, he, hline⟩)
  exact (h.run (hrun.restrict hok)).2

theorem conserves : (system.restrict fun _ e => AllNonEmpty (pushed e)).Conserves
    (fun s => s.m_type ≠ 0 ∧ AllNonEmpty (stages s).flatten) stages pushed := by
  apply conserves_of
  · intro _ _
    rfl
  · intro s e t hstep htype h
    exact hstep.stages_eq htype h

theorem app_conserves : (system.restrict fun _ e => AllNonEmpty (appPushed e)).Conserves
    (fun s => s.m_type ≠ 0 ∧ AllNonEmpty (appStages s).flatten) appStages appPushed := by
  apply conserves_of
  · intro _ _
    rfl
  · intro s e t hstep _ h
    exact hstep.appStages_eq h

/-- In every run, the lines on their way and the lines in the files are the
lines that were pushed, in order. Each kind of line needs its own lines to be
non-empty, and nothing of the other kind. -/
theorem lines_conserved (es : List Op) (s : Logger) (hrun : system.Run es s) :
    (AllNonEmpty (es.flatMap pushed) →
      s.m_asnyc_log.written.map Prod.snd ++ s.m_asnyc_log.pc.tmp ++
        s.m_asnyc_log.m_buffer.flatten ++ s.sync.tmp_vec ++ s.m_buffer = es.flatMap pushed) ∧
    (AllNonEmpty (es.flatMap appPushed) →
      s.m_asnyc_app_log.written.map Prod.snd ++ s.m_asnyc_app_log.pc.tmp ++
        s.m_asnyc_app_log.m_buffer.flatten ++ s.sync.tmp_app_vec ++ s.m_app_buffer =
        es.flatMap appPushed) := by
  constructor
  · intro hlines
    simpa [stages, stagesOf] using stages_run conserves hrun hlines
  · intro hlines
    simpa [appStages, stagesOf] using stages_run app_conserves hrun hlines

theorem lines_conserved_rotated : ∃ s : Logger,
    s.m_asnyc_log.written = [(ascii "l/l/_20240101_log.0", ascii "a"),
      (ascii "l/l/_20240101_log.1", ascii "b")] ∧
    s.m_app_buffer = [ascii "c"] ∧
    s.m_asnyc_log.written.map Prod.snd ++ s.m_asnyc_log.pc.tmp ++
      s.m_asnyc_log.m_buffer.flatten ++ s.sync.tmp_vec ++ s.m_buffer = [ascii "a", ascii "b"] ∧
    s.m_asnyc_app_log.written.map Prod.snd ++ s.m_asnyc_app_log.pc.tmp ++
      s.m_asnyc_app_log.m_buffer.flatten ++ s.sync.tmp_app_vec ++ s.m_app_buffer =
      [ascii "c"] := by
  have h0 : system.Run [] (new (ascii "l/") 0) := System.Run.start ⟨_, _, rfl⟩
  have h1 := h0.step (Step.pushLog _ (ascii "a"))
  have h2 := (h1.step (Step.swap _ rfl)).step (Step.push _ _ rfl)
  have h3 := h2.step (Step.loop _ _ (.take _ _ _ rfl rfl))
  have h4 := h3.step (Step.loop _ _ (.openFile _ (ascii "20240101") 0 _ rfl))
  have h5 := h4.step (Step.loop _ _ (.fwrite _ _ _ _ rfl rfl (by decide)))
  have h6 := h5.step (Step.loop _ _ (.fflush _ rfl))
  have h7 := (h6.step (Step.appSwap _ rfl)).step (Step.appPush _ _ rfl)
  have h8 := (h7.step (Step.pushAppLog _ (ascii "c"))).step (Step.pushLog _ (ascii "b"))
  have h9 := (h8.step (Step.swap _ rfl)).step (Step.push _ _ rfl)
  have h10 := h9.step (Step.loop _ _ (.take _ _ _ rfl rfl))
  have h11 := h10.step (Step.loop _ _ (.openFile _ (ascii "20240101") 1 _ rfl))
  have h12 := h11.step (Step.loop _ _ (.fwrite _ _ _ _ rfl rfl (by decide)))
  obtain ⟨hlines, happ⟩ := lines_conserved _ _ h12
  exact ⟨_, by decide +kernel, rfl, hlines (by unfold AllNonEmpty; decide),
    happ (by unfold AllNonEmpty; decide)⟩

end TinyRpc.Logger
