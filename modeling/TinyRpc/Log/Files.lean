import TinyRpc.Lib.Decimal
import TinyRpc.Lib.Split
import TinyRpc.Log.Spec

/-!
# The files of the log

A thread makes the name of a file from the path, the date and a number. A new
date starts at number 0, and a file that is too large makes it go on to the
next number. Both loggers of a process have the same path.
-/

namespace TinyRpc

open Lib

/-! ## The names -/

def fileName (path date : Bytes) (no : Nat) : Bytes :=
  path ++ path ++ ascii "_" ++ date ++ ascii "_log." ++ ascii (toString no)

theorem not_dot_mem_numeral (no : Nat) : (46 : BitVec 8) ∉ Decimal.numeral no := by
  intro hmem
  have := (Decimal.isDigit_numeral hmem).1
  exact absurd this (by decide)

theorem fileName_injective {path date date' : Bytes} {no no' : Nat}
    (h : fileName path date no = fileName path date' no') : date = date' ∧ no = no' := by
  have hname : ∀ date no, fileName path date no =
      (path ++ path ++ ascii "_" ++ date ++ ascii "_log") ++ 46 :: Decimal.numeral no := by
    intro date no
    unfold fileName
    rw [show ascii "_log." = ascii "_log" ++ [46] by decide]
    simp [Decimal.numeral, ascii]
  rw [hname, hname] at h
  obtain ⟨hdate, hno⟩ := Split.append_cons_inj (not_dot_mem_numeral no) (not_dot_mem_numeral no') h
  exact ⟨List.append_cancel_left (List.append_cancel_right hdate),
    Decimal.numeral_injective hno⟩

namespace AsyncLogger

theorem log_file_name_eq (l : AsyncLogger) :
    l.log_file_name = fileName l.m_file_path l.m_date l.m_no := rfl

/-- The files that `openFile` opens. -/
def opens (l : AsyncLogger) (date : Bytes) (size : Int) : List Bytes :=
  let l := l.newDate date
  (if l.m_reopen_flag ∨ l.m_file_handler = none then [l.log_file_name] else []) ++
    if size > l.m_max_file_size then [{ l with m_no := l.m_no + 1 }.log_file_name] else []

/-- The number of the file that is tried first. -/
def firstNo (l : AsyncLogger) (date : Bytes) : Nat := if date ≠ l.m_date then 0 else l.m_no

/-- Between two batches the open file is the one that the date and the number say. -/
structure Settled (path : Bytes) (l : AsyncLogger) : Prop where
  file_path : l.m_file_path = path
  flag : l.m_reopen_flag = false
  handler : ∀ file, l.m_file_handler = some file → file = fileName path l.m_date l.m_no
  no : l.m_file_handler = none → l.m_no = 0

theorem reopen_newDate {path : Bytes} {l : AsyncLogger} (h : l.Settled path) (date : Bytes) :
    (l.newDate date).reopen = { l with
      m_date := date
      m_no := l.firstNo date
      m_file_handler := some (fileName path date (l.firstNo date)) } := by
  have hpath := h.file_path
  have hflag := h.flag
  unfold newDate firstNo
  split
  · simp [reopen, fopen, log_file_name_eq, hpath, hflag]
  · rename_i hdate
    rw [ne_eq, not_not] at hdate
    subst hdate
    unfold reopen
    split
    · simp [fopen, log_file_name_eq, hpath, hflag]
    · rename_i hopen
      obtain ⟨file, hfile⟩ := Option.ne_none_iff_exists'.mp (not_or.mp hopen).2
      rw [← h.handler file hfile, ← hfile]

/-- The number of the file that the batch goes to. -/
def lastNo (l : AsyncLogger) (date : Bytes) (size : Int) : Nat :=
  if size > l.m_max_file_size then l.firstNo date + 1 else l.firstNo date

theorem openFile_eq {path : Bytes} {l : AsyncLogger} (h : l.Settled path) (date : Bytes)
    (size : Int) : l.openFile date size = { l with
      m_date := date
      m_no := l.lastNo date size
      m_file_handler := some (fileName path date (l.lastNo date size)) } := by
  unfold openFile lastNo nextFile
  rw [reopen_newDate h]
  simp only
  split
  · simp [fopen, log_file_name_eq, h.file_path, h.flag]
  · rfl

theorem opens_eq {path : Bytes} {l : AsyncLogger} (h : l.Settled path) (date : Bytes)
    (size : Int) : l.opens date size =
      (if date ≠ l.m_date ∨ l.m_file_handler = none then [fileName path date 0] else []) ++
        if size > l.m_max_file_size then [fileName path date (l.firstNo date + 1)] else [] := by
  have hpath := h.file_path
  unfold opens newDate firstNo
  split
  · rename_i hdate
    simp [log_file_name_eq, hpath, hdate]
  · rename_i hdate
    rw [ne_eq, not_not] at hdate
    subst hdate
    by_cases hnone : l.m_file_handler = none
    · simp [log_file_name_eq, hpath, h.flag, hnone, h.no hnone]
    · simp [log_file_name_eq, hpath, h.flag, hnone]

end AsyncLogger

/-! ## Two threads and a disk -/

/-- The file for the batch is found in the next step. -/
def LoopPc.isOpening : LoopPc → Bool
  | .opening _ => true
  | _ => false

def LogKind.other : LogKind → LogKind
  | .rpc => .app
  | .app => .rpc

/-- A batch and its file, with what had been appended to the file when it was found, and
when the batch was done. -/
structure LogBatch where
  lines : List Bytes := []
  date : Bytes := []
  file : Bytes := []
  before : Bytes := []
  after : Bytes := []

/-- A logger, with the files that it has opened, the dates that it has seen, the batch
that it writes and those that it has written. -/
structure Logged where
  log : AsyncLogger
  opened : List Bytes := []
  dates : List Bytes := []
  current : LogBatch := {}
  done : List LogBatch := []

namespace Logged

def found (w : Logged) (date : Bytes) (size : Int) (tmp : List Bytes) (l : AsyncLogger)
    (appended : Bytes → Bytes) : Logged :=
  let file := l.m_file_handler.getD []
  { w with
    log := l
    opened := w.opened ++ w.log.opens date size
    dates := w.dates ++ [date]
    current := { lines := tmp, date, file, before := appended file } }

def fflush (w : Logged) (l : AsyncLogger) (appended : Bytes → Bytes) : Logged :=
  { w with log := l, done := w.done ++ [{ w.current with after := appended w.current.file }] }

end Logged

structure Files where
  logged : LogKind → Logged
  /-- The size of each file before the loggers ran, 0 where there is no file. -/
  disk : Bytes → Nat
  appended : Bytes → Bytes := fun _ => []

namespace Files

inductive Event where
  | pushLogBuffer (k : LogKind) (vec : List Bytes)
  | stop (k : LogKind)
  /-- A step of the thread. The date is what the clock says. -/
  | loop (k : LogKind) (date : Bytes)
  deriving DecidableEq

def size (s : Files) (file : Bytes) : Nat := s.disk file + (s.appended file).length

def ftell (s : Files) (l : AsyncLogger) (date : Bytes) : Int :=
  s.size ((l.newDate date).reopen.m_file_handler.getD [])

def set (s : Files) (k : LogKind) (w : Logged) : Files :=
  { s with logged := Function.update s.logged k w }

def fwrite (s : Files) (file line : Bytes) : Files :=
  { s with appended := Function.update s.appended file (s.appended file ++ line) }

/-- What the step of a thread does to the rest. -/
def follow (s : Files) (k : LogKind) (date : Bytes) (l : AsyncLogger) : Files :=
  let w := s.logged k
  match w.log.pc with
  | .opening tmp => s.set k (w.found date (s.ftell w.log date) tmp l s.appended)
  | .writing (line :: _) => (s.set k { w with log := l }).fwrite (l.m_file_handler.getD []) line
  | .writing [] => s.set k (w.fflush l s.appended)
  | .waiting | .returned => s.set k { w with log := l }

def next (s : Files) : Event → Option Files
  | .pushLogBuffer k vec =>
    let w := s.logged k
    some (s.set k { w with log := w.log.pushLogBuffer vec })
  | .stop k =>
    let w := s.logged k
    some (s.set k { w with log := w.log.stop })
  | .loop k date =>
    let l := (s.logged k).log
    (l.next date (s.ftell l date)).map (s.follow k date)

def new (m_file_path : Bytes) (m_max_file_size : Int) (disk : Bytes → Nat) : Files where
  logged _ := { log := { m_file_path, m_max_file_size } }
  disk

def system : System Files Event where
  start s := ∃ m_file_path m_max_file_size disk, s = new m_file_path m_max_file_size disk
  step s e t := s.next e = some t

/-! ## What the files are for -/

/-- A batch went to one file, and nothing else between its lines. The file has its date,
is not the other logger's, and was not too large. -/
structure Owned (s : Files) (k : LogKind) (b : LogBatch) : Prop where
  whole : b.after = b.before ++ b.lines.flatten
  own : b.file ∉ (s.logged k.other).opened
  dated : ∃ no, b.file = fileName (s.logged k).log.m_file_path b.date no
  size : s.disk b.file + b.before.length ≤ (s.logged k).log.m_max_file_size

def Sound (s : Files) : Prop := ∀ k, ∀ b ∈ (s.logged k).done, s.Owned k b

/-- The file that is tried first is not too large, or the one behind it is not. -/
def Fits (s : Files) (l : AsyncLogger) (date : Bytes) : Prop :=
  s.size (fileName l.m_file_path date (l.firstNo date)) ≤ l.m_max_file_size ∨
    s.size (fileName l.m_file_path date (l.firstNo date + 1)) ≤ l.m_max_file_size

/-- A logger finds the file for a batch on a date that the other one has never seen. -/
def Proper (s : Files) : Event → Prop
  | .loop k date => (s.logged k).log.pc.isOpening →
      date ∉ (s.logged k.other).dates ∧ s.Fits (s.logged k).log date
  | _ => True

end Files

/-! ## One logger -/

namespace Logged

/-- The logger appends a batch to the file, or has done so. -/
def Appends (w : Logged) (file : Bytes) : Prop :=
  (∃ b ∈ w.done, b.file = file) ∨ ((∃ tmp, w.log.pc = .writing tmp) ∧ w.current.file = file)

variable {path : Bytes} {max : Int} {disk : Bytes → Nat} {appended : Bytes → Bytes}

structure Writing (path : Bytes) (max : Int) (disk : Bytes → Nat) (appended : Bytes → Bytes)
    (w : Logged) (tmp : List Bytes) : Prop where
  lines : ∃ pre, w.current.lines = pre ++ tmp ∧
    appended w.current.file = w.current.before ++ pre.flatten
  handler : w.log.m_file_handler = some w.current.file
  dated : ∃ no, w.current.file = fileName path w.current.date no
  size : disk w.current.file + w.current.before.length ≤ max

structure Done (path : Bytes) (max : Int) (disk : Bytes → Nat) (w : Logged) (b : LogBatch) :
    Prop where
  whole : b.after = b.before ++ b.lines.flatten
  opened : b.file ∈ w.opened
  dated : ∃ no, b.file = fileName path b.date no
  size : disk b.file + b.before.length ≤ max

structure Inv (path : Bytes) (max : Int) (disk : Bytes → Nat) (appended : Bytes → Bytes)
    (w : Logged) : Prop where
  settled : w.log.Settled path
  limit : w.log.m_max_file_size = max
  handler : ∀ file, w.log.m_file_handler = some file → file ∈ w.opened ∧ w.log.m_date ∈ w.dates
  opened : ∀ file ∈ w.opened, ∃ date ∈ w.dates, ∃ no, file = fileName path date no
  first : ∀ date ∈ w.dates, fileName path date 0 ∈ w.opened
  appends : ∀ date ∈ w.dates, ∃ no ≤ 1, w.Appends (fileName path date no)
  writing : ∀ tmp, w.log.pc = .writing tmp → w.Writing path max disk appended tmp
  done : ∀ b ∈ w.done, w.Done path max disk b

theorem Inv.of_log {w : Logged} (h : w.Inv path max disk appended) {l : AsyncLogger}
    (hl : l = { w.log with m_buffer := l.m_buffer, m_stop_flag := l.m_stop_flag, pc := l.pc })
    (hpc : ∀ tmp, l.pc = .writing tmp ↔ w.log.pc = .writing tmp) :
    ({ w with log := l } : Logged).Inv path max disk appended := by
  have happends : ∀ file, w.Appends file → ({ w with log := l } : Logged).Appends file := by
    rintro file (hdone | ⟨⟨tmp, hw⟩, hfile⟩)
    · exact .inl hdone
    · exact .inr ⟨⟨tmp, (hpc tmp).mpr hw⟩, hfile⟩
  refine ⟨?_, ?_, ?_, h.opened, h.first, fun date hdate => ?_, fun tmp hw => ?_, fun b hb => ?_⟩
  · rw [hl]
    exact ⟨h.settled.file_path, h.settled.flag, h.settled.handler, h.settled.no⟩
  · rw [hl]
    exact h.limit
  · rw [hl]
    exact h.handler
  · obtain ⟨no, hno, ha⟩ := h.appends date hdate
    exact ⟨no, hno, happends _ ha⟩
  · have hcurrent := h.writing tmp ((hpc tmp).mp hw)
    refine ⟨hcurrent.lines, ?_, hcurrent.dated, hcurrent.size⟩
    rw [hl]
    exact hcurrent.handler
  · have hdone := h.done b hb
    exact ⟨hdone.whole, hdone.opened, hdone.dated, hdone.size⟩

theorem current_opened {w : Logged} (h : w.Inv path max disk appended) {tmp : List Bytes}
    (hpc : w.log.pc = .writing tmp) : w.current.file ∈ w.opened :=
  (h.handler _ (h.writing tmp hpc).handler).1

theorem Inv.frame {w : Logged} (h : w.Inv path max disk appended) {appended' : Bytes → Bytes}
    (hsame : ∀ file ∈ w.opened, appended' file = appended file) :
    w.Inv path max disk appended' := by
  refine ⟨h.settled, h.limit, h.handler, h.opened, h.first, h.appends, fun tmp hpc => ?_, h.done⟩
  have hcurrent := h.writing tmp hpc
  refine ⟨?_, hcurrent.handler, hcurrent.dated, hcurrent.size⟩
  rw [hsame _ (current_opened h hpc)]
  exact hcurrent.lines

theorem Inv.fwrite {w : Logged} (h : w.Inv path max disk appended) {line : Bytes}
    {tmp : List Bytes} {written : List (Bytes × Bytes)} (hpc : w.log.pc = .writing (line :: tmp)) :
    ({ w with log := { w.log with pc := .writing tmp, written } } : Logged).Inv path max disk
      (Function.update appended w.current.file (appended w.current.file ++ line)) := by
  have hcurrent := h.writing _ hpc
  have happends : ∀ file, w.Appends file →
      ({ w with log := { w.log with pc := .writing tmp, written } } : Logged).Appends file := by
    rintro file (hdone | ⟨-, hfile⟩)
    · exact .inl hdone
    · exact .inr ⟨⟨tmp, rfl⟩, hfile⟩
  refine ⟨⟨h.settled.file_path, h.settled.flag, h.settled.handler, h.settled.no⟩, h.limit,
    h.handler, h.opened, h.first, fun date hdate => ?_, fun tmp' hw => ?_, fun b hb => ?_⟩
  · obtain ⟨no, hno, ha⟩ := h.appends date hdate
    exact ⟨no, hno, happends _ ha⟩
  · cases hw
    obtain ⟨pre, hlines, happended⟩ := hcurrent.lines
    refine ⟨⟨pre ++ [line], ?_, ?_⟩, hcurrent.handler, hcurrent.dated, hcurrent.size⟩
    · rw [List.append_assoc]
      exact hlines
    · rw [Function.update_self, happended]
      simp
  · have hdone := h.done b hb
    exact ⟨hdone.whole, hdone.opened, hdone.dated, hdone.size⟩

theorem Inv.fflush {w : Logged} (h : w.Inv path max disk appended) {pc : LoopPc}
    (hpc : w.log.pc = .writing []) (hpc' : ∀ tmp, pc ≠ .writing tmp) :
    (w.fflush { w.log with pc } appended).Inv path max disk appended := by
  have hcurrent := h.writing _ hpc
  have happends : ∀ file, w.Appends file →
      (w.fflush { w.log with pc } appended).Appends file := by
    rintro file (⟨b, hb, hfile⟩ | ⟨-, hfile⟩)
    · exact .inl ⟨b, List.mem_append_left _ hb, hfile⟩
    · exact .inl ⟨_, List.mem_append_right _ (List.mem_singleton_self _), hfile⟩
  refine ⟨⟨h.settled.file_path, h.settled.flag, h.settled.handler, h.settled.no⟩, h.limit,
    h.handler, h.opened, h.first, fun date hdate => ?_, fun tmp hw => ?_, fun b hb => ?_⟩
  · obtain ⟨no, hno, ha⟩ := h.appends date hdate
    exact ⟨no, hno, happends _ ha⟩
  · exact absurd hw (hpc' tmp)
  · rcases List.mem_append.mp hb with hb | hb
    · have hdone := h.done b hb
      exact ⟨hdone.whole, hdone.opened, hdone.dated, hdone.size⟩
    · obtain rfl := List.mem_singleton.mp hb
      obtain ⟨pre, hlines, happended⟩ := hcurrent.lines
      have hopened := current_opened h hpc
      refine ⟨?_, hopened, hcurrent.dated, hcurrent.size⟩
      rw [List.append_nil] at hlines
      simp only [happended, hlines]

/-- The thread has found the file for a batch. -/
def find (w : Logged) (date : Bytes) (size : Int) (tmp : List Bytes)
    (appended : Bytes → Bytes) : Logged :=
  w.found date size tmp { w.log.openFile date size with pc := .writing tmp } appended

theorem find_log {w : Logged} (h : w.log.Settled path) (date : Bytes) (size : Int)
    (tmp : List Bytes) (appended : Bytes → Bytes) :
    (w.find date size tmp appended).log = { w.log with
      m_date := date
      m_no := w.log.lastNo date size
      m_file_handler := some (fileName path date (w.log.lastNo date size))
      pc := .writing tmp } := by
  unfold find found
  rw [AsyncLogger.openFile_eq h]

theorem find_current {w : Logged} (h : w.log.Settled path) (date : Bytes) (size : Int)
    (tmp : List Bytes) (appended : Bytes → Bytes) :
    (w.find date size tmp appended).current.file =
      fileName path date (w.log.lastNo date size) := by
  have hfile : (w.find date size tmp appended).current.file =
      (w.find date size tmp appended).log.m_file_handler.getD [] := rfl
  rw [hfile, find_log h]
  rfl

theorem find_handler {w : Logged} (h : w.log.Settled path) (date : Bytes) (size : Int)
    (tmp : List Bytes) (appended : Bytes → Bytes) :
    (w.find date size tmp appended).log.m_file_handler =
      some (w.find date size tmp appended).current.file := by
  rw [find_current h, find_log h]

theorem Inv.find_first {w : Logged} (h : w.Inv path max disk appended) (date : Bytes)
    (size : Int) (tmp : List Bytes) :
    fileName path date 0 ∈ (w.find date size tmp appended).opened := by
  unfold find found
  rw [AsyncLogger.opens_eq h.settled]
  by_cases hopen : date ≠ w.log.m_date ∨ w.log.m_file_handler = none
  · rw [if_pos hopen]
    simp
  · rw [not_or, ne_eq, not_not] at hopen
    obtain ⟨file, hfile⟩ := Option.ne_none_iff_exists'.mp hopen.2
    refine List.mem_append_left _ (h.first date ?_)
    rw [hopen.1]
    exact (h.handler file hfile).2

theorem Inv.find_opened {w : Logged} (h : w.Inv path max disk appended) (date : Bytes)
    (size : Int) (tmp : List Bytes) :
    fileName path date (w.log.lastNo date size) ∈ (w.find date size tmp appended).opened := by
  unfold AsyncLogger.lastNo
  split
  · rename_i hsize
    refine List.mem_append_right _ ?_
    rw [AsyncLogger.opens_eq h.settled, if_pos hsize]
    exact List.mem_append_right _ (List.mem_singleton_self _)
  · unfold AsyncLogger.firstNo
    split
    · exact h.find_first date size tmp
    · rename_i hdate
      rw [ne_eq, not_not] at hdate
      cases hfile : w.log.m_file_handler with
      | none =>
        rw [h.settled.no hfile]
        exact h.find_first date size tmp
      | some file =>
        refine List.mem_append_left _ ?_
        rw [hdate, ← h.settled.handler file hfile]
        exact (h.handler file hfile).1

theorem Inv.firstNo {w : Logged} (h : w.Inv path max disk appended) {date : Bytes}
    (hnew : date ∉ w.dates) : w.log.firstNo date = 0 := by
  unfold AsyncLogger.firstNo
  split
  · rfl
  · rename_i hdate
    rw [ne_eq, not_not] at hdate
    refine h.settled.no ?_
    by_contra hopen
    obtain ⟨file, hfile⟩ := Option.ne_none_iff_exists'.mp hopen
    exact hnew (hdate ▸ (h.handler file hfile).2)

theorem Inv.lastNo {w : Logged} (h : w.Inv path max disk appended) {date : Bytes} (size : Int)
    (hnew : date ∉ w.dates) : w.log.lastNo date size ≤ 1 := by
  unfold AsyncLogger.lastNo
  rw [h.firstNo hnew]
  split <;> decide

theorem find_opens {w : Logged} (h : w.log.Settled path) {date : Bytes} {size : Int}
    {tmp : List Bytes} {file : Bytes} (hmem : file ∈ (w.find date size tmp appended).opened) :
    file ∈ w.opened ∨ ∃ no, file = fileName path date no := by
  unfold find found at hmem
  rw [AsyncLogger.opens_eq h] at hmem
  rcases List.mem_append.mp hmem with hmem | hmem
  · exact .inl hmem
  refine .inr ?_
  rcases List.mem_append.mp hmem with hmem | hmem
  · split at hmem
    · exact ⟨_, List.mem_singleton.mp hmem⟩
    · cases hmem
  · split at hmem
    · exact ⟨_, List.mem_singleton.mp hmem⟩
    · cases hmem

theorem writing_find {w : Logged} (h : w.log.Settled path) {date : Bytes} {size : Int}
    {tmp : List Bytes}
    (hsize : disk (fileName path date (w.log.lastNo date size)) +
      (appended (fileName path date (w.log.lastNo date size))).length ≤ max) :
    (w.find date size tmp appended).Writing path max disk appended tmp := by
  have hcurrent := find_current h date size tmp appended
  have hbefore : (w.find date size tmp appended).current.before =
      appended (w.find date size tmp appended).current.file := rfl
  refine ⟨⟨[], rfl, ?_⟩, find_handler h date size tmp appended, ⟨_, hcurrent⟩, ?_⟩
  · rw [hbefore]
    exact (List.append_nil _).symm
  · rw [hbefore, hcurrent]
    exact hsize

theorem Inv.find {w : Logged} (h : w.Inv path max disk appended) {date : Bytes} {size : Int}
    {tmp tmp' : List Bytes} (hpc : w.log.pc = .opening tmp')
    (hsize : disk (fileName path date (w.log.lastNo date size)) +
      (appended (fileName path date (w.log.lastNo date size))).length ≤ max) :
    (w.find date size tmp appended).Inv path max disk appended := by
  have hlog := find_log h.settled date size tmp appended
  have hdates : ∀ d, d ∈ (w.find date size tmp appended).dates ↔ d ∈ w.dates ∨ d = date := by
    intro d
    unfold Logged.find found
    simp
  have hopened : ∀ file ∈ w.opened, file ∈ (w.find date size tmp appended).opened :=
    fun file hfile => List.mem_append_left _ hfile
  refine ⟨?_, ?_, fun file hfile => ?_, fun file hfile => ?_, fun d hd => ?_, fun d hd => ?_,
    fun tmp' hw => ?_, fun b hb => ?_⟩
  · rw [hlog]
    refine ⟨h.settled.file_path, h.settled.flag, fun file hfile => ?_, fun hnone => ?_⟩
    · exact (Option.some.inj hfile).symm
    · cases hnone
  · rw [hlog]
    exact h.limit
  · rw [hlog] at hfile ⊢
    obtain rfl := Option.some.inj hfile
    exact ⟨h.find_opened date size tmp, (hdates _).mpr (.inr rfl)⟩
  · rcases find_opens h.settled hfile with hfile | ⟨no, hno⟩
    · obtain ⟨d, hd, hno⟩ := h.opened file hfile
      exact ⟨d, (hdates d).mpr (.inl hd), hno⟩
    · exact ⟨date, (hdates date).mpr (.inr rfl), no, hno⟩
  · rcases (hdates d).mp hd with hd | rfl
    · exact hopened _ (h.first d hd)
    · exact h.find_first d size tmp
  · by_cases hold : d ∈ w.dates
    · -- the batch of that date is done, as the thread was between two batches
      obtain ⟨no, hno, hdone | ⟨⟨tmp, hw⟩, -⟩⟩ := h.appends d hold
      · exact ⟨no, hno, .inl hdone⟩
      · rw [hpc] at hw
        cases hw
    · obtain rfl := ((hdates d).mp hd).resolve_left hold
      refine ⟨_, h.lastNo size hold, .inr ⟨⟨tmp, ?_⟩, find_current h.settled d size tmp appended⟩⟩
      rw [hlog]
  · rw [hlog] at hw
    cases hw
    exact writing_find h.settled hsize
  · have hdone := h.done b hb
    exact ⟨hdone.whole, hopened _ hdone.opened, hdone.dated, hdone.size⟩

end Logged

/-! ## Both loggers -/

namespace LogKind

@[simp] theorem other_other (k : LogKind) : k.other.other = k := by cases k <;> rfl

@[simp] theorem other_ne (k : LogKind) : k.other ≠ k := by cases k <;> decide

theorem forall_of {k : LogKind} {p : LogKind → Prop} (hself : p k) (hother : p k.other)
    (j : LogKind) : p j := by
  cases k <;> cases j <;> assumption

end LogKind

namespace Files

variable {path : Bytes} {max : Int}

@[simp] theorem set_logged_self (s : Files) (k : LogKind) (w : Logged) :
    (s.set k w).logged k = w := Function.update_self _ _ _

@[simp] theorem set_logged_other (s : Files) (k : LogKind) (w : Logged) :
    (s.set k w).logged k.other = s.logged k.other :=
  Function.update_of_ne (LogKind.other_ne k) _ _

/-- What a step of a thread can be. -/
inductive LoopStep (s : Files) (k : LogKind) (date : Bytes) : Files → Prop
  | take (tmp : List Bytes) (rest : List (List Bytes)) (hpc : (s.logged k).log.pc = .waiting) :
    LoopStep s k date (s.set k { s.logged k with
      log := { (s.logged k).log with pc := .opening tmp, m_buffer := rest } })
  | find (tmp : List Bytes) (hpc : (s.logged k).log.pc = .opening tmp) :
    LoopStep s k date (s.set k
      ((s.logged k).find date (s.ftell (s.logged k).log date) tmp s.appended))
  | fwrite (line : Bytes) (tmp : List Bytes) (written : List (Bytes × Bytes))
    (hpc : (s.logged k).log.pc = .writing (line :: tmp)) :
    LoopStep s k date ((s.set k { s.logged k with
      log := { (s.logged k).log with pc := .writing tmp, written } }).fwrite
        ((s.logged k).log.m_file_handler.getD []) line)
  | fflush (pc : LoopPc) (hpc : (s.logged k).log.pc = .writing [])
    (hpc' : ∀ tmp, pc ≠ .writing tmp) :
    LoopStep s k date (s.set k
      ((s.logged k).fflush { (s.logged k).log with pc } s.appended))

theorem next_loop {s t : Files} {k : LogKind} {date : Bytes}
    (h : s.next (.loop k date) = some t) : s.LoopStep k date t := by
  obtain ⟨l, hl, rfl⟩ := Option.map_eq_some_iff.mp h
  unfold follow
  unfold AsyncLogger.next at hl
  cases hpc : (s.logged k).log.pc with
  | waiting =>
    rw [hpc] at hl
    cases hbuffer : (s.logged k).log.m_buffer with
    | nil =>
      rw [hbuffer] at hl
      cases hl
    | cons tmp rest =>
      rw [hbuffer] at hl
      cases hl
      simp only [hpc]
      exact .take tmp rest hpc
  | opening tmp =>
    rw [hpc] at hl
    cases hl
    simp only [hpc]
    exact .find tmp hpc
  | writing lines =>
    rw [hpc] at hl
    cases lines with
    | nil =>
      cases hl
      simp only [hpc]
      refine .fflush _ hpc fun tmp => ?_
      split <;> simp
    | cons line tmp =>
      cases line with
      | nil =>
        cases hl
        simp only [hpc]
        exact .fwrite [] tmp _ hpc
      | cons b line =>
        obtain ⟨file, -, rfl⟩ := Option.map_eq_some_iff.mp hl
        simp only [hpc]
        exact .fwrite _ tmp _ hpc
  | returned =>
    rw [hpc] at hl
    cases hl

theorem fits_iff_lastNo {s : Files} {l : AsyncLogger} (h : l.Settled path) (date : Bytes) :
    s.Fits l date ↔
      s.size (fileName path date (l.lastNo date (s.ftell l date))) ≤ l.m_max_file_size := by
  have hftell : s.ftell l date = s.size (fileName path date (l.firstNo date)) := by
    unfold ftell
    rw [AsyncLogger.reopen_newDate h]
    rfl
  unfold Fits AsyncLogger.lastNo
  rw [hftell, h.file_path]
  split
  · rename_i hlarge
    exact or_iff_right (Int.not_le.mpr hlarge)
  · rename_i hsmall
    exact ⟨fun _ => Int.not_lt.mp hsmall, .inl⟩

structure Inv (path : Bytes) (max : Int) (s : Files) : Prop where
  logged : ∀ k, (s.logged k).Inv path max s.disk s.appended
  dates : ∀ k, ∀ date ∈ (s.logged k).dates, date ∉ (s.logged k.other).dates

theorem Inv.opened {s : Files} (h : s.Inv path max) {k : LogKind} {file : Bytes}
    (hfile : file ∈ (s.logged k).opened) : file ∉ (s.logged k.other).opened := by
  intro hother
  obtain ⟨date, hdate, no, hno⟩ := (h.logged k).opened file hfile
  obtain ⟨date', hdate', no', hno'⟩ := (h.logged k.other).opened file hother
  obtain ⟨rfl, -⟩ := fileName_injective (hno.symm.trans hno')
  exact h.dates k date hdate hdate'

theorem Inv.sound {s : Files} (h : s.Inv path max) : s.Sound := by
  intro k b hb
  have hdone := (h.logged k).done b hb
  refine ⟨hdone.whole, h.opened hdone.opened, ?_, ?_⟩
  · rw [(h.logged k).settled.file_path]
    exact hdone.dated
  · rw [(h.logged k).limit]
    exact hdone.size

theorem Inv.set {s : Files} (h : s.Inv path max) {k : LogKind} {w : Logged}
    (hw : w.Inv path max s.disk s.appended)
    (hdates : ∀ date ∈ w.dates, date ∉ (s.logged k.other).dates) : (s.set k w).Inv path max := by
  refine ⟨LogKind.forall_of (k := k) ?_ ?_, LogKind.forall_of (k := k) ?_ ?_⟩
  · rw [set_logged_self]
    exact hw
  · rw [set_logged_other]
    exact h.logged _
  · rw [set_logged_self, set_logged_other]
    exact hdates
  · rw [LogKind.other_other, set_logged_self, set_logged_other]
    exact fun date hother hdate => hdates date hdate hother

theorem Inv.fwrite {s : Files} (h : s.Inv path max) {k : LogKind} {line : Bytes}
    {tmp : List Bytes} {written : List (Bytes × Bytes)}
    (hpc : (s.logged k).log.pc = .writing (line :: tmp)) :
    ((s.set k { s.logged k with
      log := { (s.logged k).log with pc := .writing tmp, written } }).fwrite
        ((s.logged k).log.m_file_handler.getD []) line).Inv path max := by
  have hk := h.logged k
  have hfile : (s.logged k).log.m_file_handler.getD [] = (s.logged k).current.file := by
    rw [(hk.writing _ hpc).handler]
    rfl
  rw [hfile]
  refine ⟨LogKind.forall_of (k := k) ?_ ?_, LogKind.forall_of (k := k) ?_ ?_⟩
  · simp only [Files.fwrite, set_logged_self]
    exact hk.fwrite hpc
  · simp only [Files.fwrite, set_logged_other]
    refine (h.logged k.other).frame fun file hother => Function.update_of_ne ?_ _ _
    rintro rfl
    exact h.opened (Logged.current_opened hk hpc) hother
  · simp only [Files.fwrite, set_logged_self, set_logged_other]
    exact h.dates k
  · simp only [Files.fwrite, LogKind.other_other, set_logged_self, set_logged_other]
    simpa using h.dates k.other

theorem Inv.step {s t : Files} (h : s.Inv path max) {e : Event} (ht : s.next e = some t)
    (hproper : s.Proper e) : t.Inv path max := by
  cases e with
  | pushLogBuffer k vec =>
    cases ht
    exact h.set ((h.logged k).of_log rfl fun _ => Iff.rfl) (h.dates k)
  | stop k =>
    cases ht
    exact h.set ((h.logged k).of_log rfl fun _ => Iff.rfl) (h.dates k)
  | loop k date =>
    cases next_loop ht with
    | take tmp rest hpc =>
      refine h.set ((h.logged k).of_log rfl fun tmp' => ?_) (h.dates k)
      simp [hpc]
    | find tmp hpc =>
      obtain ⟨hnew, hfits⟩ := hproper (by rw [hpc]; rfl)
      have hk := h.logged k
      rw [fits_iff_lastNo hk.settled, hk.limit] at hfits
      refine h.set (hk.find hpc hfits) fun d hd => ?_
      rcases List.mem_append.mp hd with hd | hd
      · exact h.dates k d hd
      · rwa [List.mem_singleton.mp hd]
    | fwrite line tmp written hpc => exact h.fwrite hpc
    | fflush pc hpc hpc' => exact h.set ((h.logged k).fflush hpc hpc') (h.dates k)

theorem inv_run {es : List Event} {s : Files} (hrun : (system.restrict Proper).Run es s) :
    ∃ path max, s.Inv path max := by
  refine hrun.invariant (I := fun s => ∃ path max, s.Inv path max) ?_ fun s e t h hstep => ?_
  · rintro s ⟨m_file_path, m_max_file_size, disk, rfl⟩
    refine ⟨m_file_path, m_max_file_size, fun k => ?_, fun k date hdate => ?_⟩
    · refine ⟨⟨rfl, rfl, fun _ hfile => ?_, fun _ => rfl⟩, rfl, fun _ hfile => ?_,
        fun _ hfile => ?_, fun _ hdate => ?_, fun _ hdate => ?_, fun _ hpc => ?_, fun _ hb => ?_⟩
      · cases hfile
      · cases hfile
      · cases hfile
      · cases hdate
      · cases hdate
      · cases hpc
      · cases hb
    · cases hdate
  · obtain ⟨path, max, h⟩ := h
    exact ⟨path, max, h.step hstep.2 hstep.1⟩

/-! ## A file of both -/

theorem writing_next {s : Files} {k : LogKind} {tmp : List Bytes}
    (hpc : (s.logged k).log.pc = .writing tmp)
    (hfile : (s.logged k).log.m_file_handler ≠ none) : ∃ t, s.next (.loop k []) = some t := by
  obtain ⟨file, hfile⟩ := Option.ne_none_iff_exists'.mp hfile
  unfold next AsyncLogger.next
  cases tmp with
  | nil => simp [hpc]
  | cons line tmp => cases line <;> simp [hpc, hfile]

/-- Neither the files that are open nor the sizes from before the run have changed. -/
structure Keeps (s u : Files) (k : LogKind) : Prop where
  opened : ∀ j, (u.logged j).opened = (s.logged j).opened
  disk : u.disk = s.disk
  limit : (u.logged k).log.m_max_file_size = (s.logged k).log.m_max_file_size

theorem finish {es : List Event} {s : Files} (hrun : system.Run es s) {k : LogKind}
    {tmp : List Bytes} (hpc : (s.logged k).log.pc = .writing tmp)
    (hfile : (s.logged k).log.m_file_handler ≠ none) :
    ∃ es' u, system.Run (es ++ es') u ∧ s.Keeps u k ∧ ∃ b ∈ (u.logged k).done,
      b.file = (s.logged k).current.file ∧ b.before = (s.logged k).current.before := by
  -- The induction is on the lines that are left of the batch.
  induction tmp generalizing es s with
  | nil =>
    obtain ⟨t, ht⟩ := writing_next hpc hfile
    refine ⟨_, t, hrun.step ht, ?_⟩
    cases next_loop ht with
    | fflush pc hpc' hpc'' =>
      refine ⟨⟨LogKind.forall_of (k := k) ?_ ?_, rfl, ?_⟩, ?_⟩
      · rw [set_logged_self]
        rfl
      · rw [set_logged_other]
      · rw [set_logged_self]
        rfl
      · rw [set_logged_self]
        exact ⟨_, List.mem_append_right _ (List.mem_singleton_self _), rfl, rfl⟩
    | take _ _ hpc' | find _ hpc' | fwrite _ _ _ hpc' =>
      rw [hpc] at hpc'
      cases hpc'
  | cons line tmp ih =>
    obtain ⟨t, ht⟩ := writing_next hpc hfile
    have hrun' := hrun.step ht
    cases next_loop ht with
    | fwrite line' tmp' written hpc' =>
      rw [hpc] at hpc'
      cases hpc'
      obtain ⟨es', u, hrun'', hkeeps, hdone⟩ := ih hrun' (by simp [fwrite])
        (by simpa [fwrite] using hfile)
      refine ⟨_, u, by rwa [List.append_cons], ⟨LogKind.forall_of (k := k) ?_ ?_, ?_, ?_⟩, ?_⟩
      · rw [hkeeps.opened]
        simp [fwrite]
      · rw [hkeeps.opened]
        simp [fwrite]
      · rw [hkeeps.disk]
        rfl
      · rw [hkeeps.limit]
        simp [fwrite]
      · simpa [fwrite] using hdone
    | take _ _ hpc' | find _ hpc' | fflush _ hpc' =>
      rw [hpc] at hpc'
      cases hpc'

theorem shared_loses {es : List Event} {s : Files} (hrun : system.Run es s) {k : LogKind}
    {file : Bytes} (happends : (s.logged k).Appends file)
    (hfile : ∀ tmp, (s.logged k).log.pc = .writing tmp → (s.logged k).log.m_file_handler ≠ none)
    (hother : file ∈ (s.logged k.other).opened) :
    ∃ es' u, system.Run (es ++ es') u ∧ ¬ u.Sound := by
  rcases happends with ⟨b, hb, rfl⟩ | ⟨⟨tmp, hpc⟩, rfl⟩
  · exact ⟨[], s, by rwa [List.append_nil], fun hsound => (hsound k b hb).own hother⟩
  · obtain ⟨es', u, hrun', hkeeps, b, hb, hbfile, -⟩ := finish hrun hpc (hfile tmp hpc)
    refine ⟨es', u, hrun', fun hsound => (hsound k b hb).own ?_⟩
    rwa [hbfile, hkeeps.opened]

theorem large_loses {es : List Event} {s : Files} (hrun : system.Run es s) {k : LogKind}
    {tmp : List Bytes} (hpc : (s.logged k).log.pc = .writing tmp)
    (hfile : (s.logged k).log.m_file_handler ≠ none)
    (hlarge : ¬ (s.disk (s.logged k).current.file + (s.logged k).current.before.length : Int) ≤
      (s.logged k).log.m_max_file_size) :
    ∃ es' u, system.Run (es ++ es') u ∧ ¬ u.Sound := by
  obtain ⟨es', u, hrun', hkeeps, b, hb, hbfile, hbefore⟩ := finish hrun hpc hfile
  refine ⟨es', u, hrun', fun hsound => hlarge ?_⟩
  have hsize := (hsound k b hb).size
  rwa [hbfile, hbefore, hkeeps.disk, hkeeps.limit] at hsize

theorem shared_date {s : Files} (h : s.Inv path max) {k : LogKind} {date : Bytes}
    (hdate : date ∈ (s.logged k.other).dates) (tmp : List Bytes) :
    let w := (s.logged k).find date (s.ftell (s.logged k).log date) tmp s.appended
    w.current.file ∈ (s.logged k.other).opened ∨
      ∃ file ∈ w.opened, (s.logged k.other).Appends file := by
  intro w
  have hk := h.logged k
  have hnew : date ∉ (s.logged k).dates := fun hmem => h.dates k date hmem hdate
  have hcurrent := Logged.find_current hk.settled date (s.ftell (s.logged k).log date) tmp
    s.appended
  have hfirst := hk.find_first date (s.ftell (s.logged k).log date) tmp
  have hopened := hk.find_opened date (s.ftell (s.logged k).log date) tmp
  obtain ⟨no, hno, happends⟩ := (h.logged k.other).appends date hdate
  have hlast := hk.lastNo (s.ftell (s.logged k).log date) hnew
  rcases Nat.le_one_iff_eq_zero_or_eq_one.mp hlast with hlast | hlast
  · left
    rw [show w.current.file = fileName path date 0 by rw [← hlast]; exact hcurrent]
    exact (h.logged k.other).first date hdate
  · right
    refine ⟨_, ?_, happends⟩
    rcases Nat.le_one_iff_eq_zero_or_eq_one.mp hno with rfl | rfl
    · exact hfirst
    · rwa [hlast] at hopened

theorem improper_loses {es : List Event} {s t : Files} (hrun : system.Run es s)
    (h : s.Inv path max) {e : Event} (ht : s.next e = some t) (hnot : ¬ s.Proper e) :
    ∃ es' u, system.Run (es ++ e :: es') u ∧ ¬ u.Sound := by
  have hrun' : system.Run (es ++ [e]) t := hrun.step ht
  cases e with
  | pushLogBuffer k vec => exact absurd trivial hnot
  | stop k => exact absurd trivial hnot
  | loop k date =>
    have hgoal : (∃ es' u, system.Run (es ++ [.loop k date] ++ es') u ∧ ¬ u.Sound) →
        ∃ es' u, system.Run (es ++ .loop k date :: es') u ∧ ¬ u.Sound := by
      rintro ⟨es', u, hrun', hlost⟩
      exact ⟨es', u, by rwa [List.append_cons], hlost⟩
    apply hgoal
    cases next_loop ht with
    | take _ _ hpc | fwrite _ _ _ hpc | fflush _ hpc =>
      refine absurd (fun hopening => ?_) hnot
      rw [hpc] at hopening
      cases hopening
    | find tmp hpc =>
      have hk := h.logged k
      have hhandler := Logged.find_handler hk.settled date (s.ftell (s.logged k).log date) tmp
        s.appended
      have hpc' : ((s.set k ((s.logged k).find date (s.ftell (s.logged k).log date) tmp
          s.appended)).logged k).log.pc = .writing tmp := by
        rw [set_logged_self]
        rfl
      have hopen : ((s.set k ((s.logged k).find date (s.ftell (s.logged k).log date) tmp
          s.appended)).logged k).log.m_file_handler ≠ none := by
        rw [set_logged_self, hhandler]
        simp
      -- Either the other logger has this date, or both files are too large.
      by_cases hdate : date ∈ (s.logged k.other).dates
      · rcases shared_date h hdate tmp with hmem | ⟨file, hfile, happends⟩
        · refine shared_loses hrun' (.inr ⟨⟨tmp, hpc'⟩, rfl⟩) (fun _ _ => hopen) ?_
          rwa [set_logged_self, set_logged_other]
        · refine shared_loses hrun' (k := k.other) (by rwa [set_logged_other])
            (fun tmp hpc => ?_) (by rwa [LogKind.other_other, set_logged_self])
          rw [set_logged_other] at hpc ⊢
          rw [((h.logged k.other).writing tmp hpc).handler]
          simp
      · refine large_loses hrun' hpc' hopen fun hsmall => hnot fun _ => ⟨hdate, ?_⟩
        rw [fits_iff_lastNo hk.settled, ← Logged.find_current hk.settled date _ tmp s.appended]
        rw [set_logged_self, Logged.find_log hk.settled] at hsmall
        exact hsmall

/-- In a run in which no logger sees a date of the other one, and no batch finds both its
file and the next one too large, each batch is whole in a file of its logger. In every
other run this can be lost. -/
theorem files_owned (es : List Event) (s : Files)
    (hrun : (system.restrict Proper).Run es s) :
    s.Sound ∧ ∀ e t, s.next e = some t → ¬ s.Proper e →
      ∃ es' u, system.Run (es ++ e :: es') u ∧ ¬ u.Sound := by
  obtain ⟨path, max, h⟩ := inv_run hrun
  exact ⟨h.sound, fun _ _ ht hnot => improper_loses hrun.of_restrict h ht hnot⟩

/-! ## Short runs -/

instance (s : Files) (l : AsyncLogger) (date : Bytes) : Decidable (s.Fits l date) :=
  inferInstanceAs (Decidable (_ ∨ _))

instance (s : Files) : DecidablePred s.Proper
  | .loop _ _ => inferInstanceAs (Decidable (_ → _))
  | .pushLogBuffer _ _ | .stop _ => isTrue trivial

def fresh : Files := new (ascii "/log/") 100 fun _ => 0

theorem fresh_start : system.start fresh := ⟨_, _, _, rfl⟩

/-- A batch of one line, from the queue to its file. -/
def oneBatch (k : LogKind) (date line : String) : List Event :=
  .pushLogBuffer k [ascii line] :: List.replicate 4 (.loop k (ascii date))

def twoDates (first second : String) : List Event :=
  oneBatch .rpc first "a" ++ oneBatch .app second "b"

theorem files_owned_twoDates : ∃ s : Files,
    (s.logged .rpc).done.map LogBatch.after = [ascii "a"] ∧
    (s.logged .app).done.map LogBatch.after = [ascii "b"] ∧ s.Sound := by
  have hlast : ((twoDates "20240101" "20240102").foldlM (System.guarded Proper next) fresh).map
      (fun s => ((s.logged .rpc).done.map LogBatch.after,
        (s.logged .app).done.map LogBatch.after)) = some ([ascii "a"], [ascii "b"]) := by
    decide +kernel
  obtain ⟨s, hs, hlast⟩ := Option.map_eq_some_iff.mp hlast
  obtain ⟨hrpc, happ⟩ := Prod.mk.inj hlast
  have hrun := System.Run.of_guarded (S := system) (fun _ _ _ h => h) fresh_start hs
  exact ⟨s, hrpc, happ, (files_owned _ s hrun).1⟩

theorem one_file_for_both : ∃ s : Files, system.Run (twoDates "20240101" "20240101") s ∧
    (s.logged .rpc).done.map LogBatch.file = [ascii "/log//log/_20240101_log.0"] ∧
    (s.logged .app).opened = [ascii "/log//log/_20240101_log.0"] ∧ ¬ s.Sound := by
  have hlast : ((twoDates "20240101" "20240101").foldlM next fresh).map
      (fun s => ((s.logged .rpc).done.map LogBatch.file, (s.logged .app).opened)) =
      some ([ascii "/log//log/_20240101_log.0"], [ascii "/log//log/_20240101_log.0"]) := by
    decide +kernel
  obtain ⟨s, hs, hlast⟩ := Option.map_eq_some_iff.mp hlast
  obtain ⟨hfile, hopened⟩ := Prod.mk.inj hlast
  refine ⟨s, System.Run.of_next (fun _ _ _ h => h) fresh_start hs, hfile, hopened, fun h => ?_⟩
  obtain ⟨b, hb, hbfile⟩ := List.mem_map.mp (hfile ▸ List.mem_singleton_self _)
  refine (h .rpc b hb).own ?_
  rw [hbfile]
  exact hopened ▸ List.mem_singleton_self _

end Files

end TinyRpc
