import TinyRpc.Coder.Spec
import TinyRpc.Lib.Runs

/-!
# The asynchronous log

`log.cc`. Threads push lines into the buffers of the logger. A timer swaps the
buffers out, and queues them with two threads that write to files. A critical
section is one step, together with what its thread does next for itself.
-/

namespace TinyRpc

open Lib

/-! ## The thread that writes -/

/-- Where the thread is. Each batch is a vector of lines. -/
inductive LoopPc where
  | waiting
  /-- The file for the batch is still to be found. -/
  | opening (tmp : List Bytes)
  | writing (tmp : List Bytes)
  | returned
  deriving DecidableEq

def LoopPc.tmp : LoopPc → List Bytes
  | .opening tmp => tmp
  | .writing tmp => tmp
  | _ => []

structure AsyncLogger where
  m_file_path : Bytes := []
  m_max_file_size : Int := 0
  m_buffer : List (List Bytes) := []
  m_date : Bytes := []
  /-- The name of the file that is open. -/
  m_file_handler : Option Bytes := none
  m_reopen_flag : Bool := false
  /-- An `int` in the source. -/
  m_no : Nat := 0
  m_stop_flag : Bool := false
  pc : LoopPc := .waiting
  /-- The lines that were written, each with its file. -/
  written : List (Bytes × Bytes) := []

namespace AsyncLogger

def pushLogBuffer (l : AsyncLogger) (vec : List Bytes) : AsyncLogger :=
  { l with m_buffer := l.m_buffer ++ [vec] }

def stop (l : AsyncLogger) : AsyncLogger := { l with m_stop_flag := true }

/-- The path is there twice, and the name of the logger is not. -/
def log_file_name (l : AsyncLogger) : Bytes :=
  l.m_file_path ++ l.m_file_path ++ ascii "_" ++ l.m_date ++ ascii "_log." ++
    ascii (toString l.m_no)

def fopen (l : AsyncLogger) : AsyncLogger :=
  { l with m_file_handler := some l.log_file_name, m_reopen_flag := false }

def newDate (l : AsyncLogger) (date : Bytes) : AsyncLogger :=
  if date ≠ l.m_date then { l with m_reopen_flag := true, m_no := 0, m_date := date } else l

def reopen (l : AsyncLogger) : AsyncLogger :=
  if l.m_reopen_flag ∨ l.m_file_handler = none then l.fopen else l

def nextFile (l : AsyncLogger) (size : Int) : AsyncLogger :=
  if size > l.m_max_file_size then { l with m_no := l.m_no + 1 }.fopen else l

/-- The part of `loop` that finds the file. `size` is the result of `ftell`. -/
def openFile (l : AsyncLogger) (date : Bytes) (size : Int) : AsyncLogger :=
  (l.newDate date).reopen.nextFile size

/-- The steps of the thread. An empty line is not written. -/
inductive Step : AsyncLogger → AsyncLogger → Prop
  | take (l : AsyncLogger) (tmp : List Bytes) (rest : List (List Bytes))
    (hpc : l.pc = .waiting) (hbuffer : l.m_buffer = tmp :: rest) :
    Step l { l with pc := .opening tmp, m_buffer := rest }
  | openFile (l : AsyncLogger) (date : Bytes) (size : Int) (tmp : List Bytes)
    (hpc : l.pc = .opening tmp) : Step l { l.openFile date size with pc := .writing tmp }
  | fwrite (l : AsyncLogger) (line : Bytes) (tmp : List Bytes) (file : Bytes)
    (hpc : l.pc = .writing (line :: tmp)) (hfile : l.m_file_handler = some file)
    (hline : line ≠ []) :
    Step l { l with pc := .writing tmp, written := l.written ++ [(file, line)] }
  | skip (l : AsyncLogger) (tmp : List Bytes) (hpc : l.pc = .writing ([] :: tmp)) :
    Step l { l with pc := .writing tmp }
  | fflush (l : AsyncLogger) (hpc : l.pc = .writing []) :
    Step l { l with pc := if l.m_stop_flag then .returned else .waiting }

/-- The step that the thread takes on a given date, with a file of a given size. -/
def next (l : AsyncLogger) (date : Bytes) (size : Int) : Option AsyncLogger :=
  match l.pc with
  | .waiting =>
    match l.m_buffer with
    | tmp :: rest => some { l with pc := .opening tmp, m_buffer := rest }
    | [] => none
  | .opening tmp => some { l.openFile date size with pc := .writing tmp }
  | .writing ([] :: tmp) => some { l with pc := .writing tmp }
  | .writing (line :: tmp) =>
    l.m_file_handler.map fun file =>
      { l with pc := .writing tmp, written := l.written ++ [(file, line)] }
  | .writing [] => some { l with pc := if l.m_stop_flag then .returned else .waiting }
  | .returned => none

theorem next_step {l t : AsyncLogger} {date : Bytes} {size : Int}
    (h : l.next date size = some t) : l.Step t := by
  unfold next at h
  split at h
  · rename_i hpc
    split at h
    · rename_i tmp rest hbuffer
      cases h
      exact .take l tmp rest hpc hbuffer
    · cases h
  · rename_i tmp hpc
    cases h
    exact .openFile l date size tmp hpc
  · rename_i tmp hpc
    cases h
    exact .skip l tmp hpc
  · rename_i line tmp hline hpc
    obtain ⟨file, hfile, rfl⟩ := Option.map_eq_some_iff.mp h
    exact .fwrite l line tmp file hpc hfile hline
  · rename_i hpc
    cases h
    exact .fflush l hpc
  · cases h

end AsyncLogger

/-! ## The logger -/

inductive LogKind where
  | rpc | app
  deriving DecidableEq

/-- Where `syncLoop` is. The vector that it has swapped out goes with its first
step after that. -/
inductive SyncPc where
  | idle
  | pushing (tmp_vec : List Bytes)
  | between
  | appPushing (tmp_app_vec : List Bytes)
  deriving DecidableEq

def SyncPc.tmp_vec : SyncPc → List Bytes
  | .pushing tmp_vec => tmp_vec
  | _ => []

def SyncPc.tmp_app_vec : SyncPc → List Bytes
  | .appPushing tmp_app_vec => tmp_app_vec
  | _ => []

structure Logger where
  m_type : Nat := 1
  m_buffer : List Bytes := []
  m_app_buffer : List Bytes := []
  m_asnyc_log : AsyncLogger
  m_asnyc_app_log : AsyncLogger
  sync : SyncPc := .idle
  printed : List Bytes := []

namespace Logger

/-- A logger of type 0 prints the line. -/
def pushLog (s : Logger) (msg : Bytes) : Logger :=
  if s.m_type = 0 then { s with printed := s.printed ++ [msg] }
  else { s with m_buffer := s.m_buffer ++ [msg] }

def pushAppLog (s : Logger) (msg : Bytes) : Logger :=
  { s with m_app_buffer := s.m_app_buffer ++ [msg] }

inductive Op where
  | pushLog (msg : Bytes)
  | pushAppLog (msg : Bytes)
  /-- The next critical section of `syncLoop`. -/
  | syncLoop
  /-- A step of the thread of `m_asnyc_log`, or of `m_asnyc_app_log`. -/
  | loop
  | appLoop
  | stop
  deriving DecidableEq

inductive Step : Logger → Op → Logger → Prop
  | pushLog (s : Logger) (msg : Bytes) : Step s (.pushLog msg) (s.pushLog msg)
  | pushAppLog (s : Logger) (msg : Bytes) : Step s (.pushAppLog msg) (s.pushAppLog msg)
  | swap (s : Logger) (hsync : s.sync = .idle) :
    Step s .syncLoop { s with sync := .pushing s.m_buffer, m_buffer := [] }
  | push (s : Logger) (tmp_vec : List Bytes) (hsync : s.sync = .pushing tmp_vec) :
    Step s .syncLoop { s with
      sync := .between
      m_asnyc_log := if tmp_vec = [] then s.m_asnyc_log else s.m_asnyc_log.pushLogBuffer tmp_vec }
  | appSwap (s : Logger) (hsync : s.sync = .between) :
    Step s .syncLoop { s with sync := .appPushing s.m_app_buffer, m_app_buffer := [] }
  | appPush (s : Logger) (tmp_app_vec : List Bytes) (hsync : s.sync = .appPushing tmp_app_vec) :
    Step s .syncLoop { s with
      sync := .idle
      m_asnyc_app_log :=
        if tmp_app_vec = [] then s.m_asnyc_app_log
        else s.m_asnyc_app_log.pushLogBuffer tmp_app_vec }
  | loop (s : Logger) (l : AsyncLogger) (h : s.m_asnyc_log.Step l) :
    Step s .loop { s with m_asnyc_log := l }
  | appLoop (s : Logger) (l : AsyncLogger) (h : s.m_asnyc_app_log.Step l) :
    Step s .appLoop { s with m_asnyc_app_log := l }
  | stop (s : Logger) :
    Step s .stop { s with
      m_asnyc_log := s.m_asnyc_log.stop
      m_asnyc_app_log := s.m_asnyc_app_log.stop }

def new (m_file_path : Bytes) (m_max_file_size : Int) : Logger where
  m_asnyc_log := { m_file_path, m_max_file_size }
  m_asnyc_app_log := { m_file_path, m_max_file_size }

def system : System Logger Op where
  start s := ∃ m_file_path m_max_file_size, s = new m_file_path m_max_file_size
  step := Step

end Logger

end TinyRpc
