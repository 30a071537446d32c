import TinyRpc.Connection.Write

/-!
# The messages that a client writes

`onWrite` goes through `m_write_dones` three times: it encodes the messages,
runs their callbacks, and clears the vector. A callback may push to it between
the first and the last time, and `write()` need not have accepted everything
before the second.
-/

namespace TinyRpc

open Lib Coder

/-! ## The queue -/

/-- The writer of a client, and the history of its queue. -/
structure Sender (δ : Type) where
  writer : Writer δ
  /-- The index of the loop over the callbacks. -/
  i : Nat := 0
  /-- How many entries of `m_write_dones` are encoded. -/
  batch : Nat := 0
  pushed : List (TinyPBProtocol × δ) := []
  encoded : List (TinyPBProtocol × δ) := []
  called : List δ := []
  /-- The most bytes that one `write()` has accepted. Each of them was given
  the output buffer from its first byte on. -/
  sent : Nat := 0

inductive Sender.Event (δ : Type) where
  | writer (e : Writer.Event δ)
  /-- `onWrite` runs the next callback. -/
  | callback

namespace Writer

variable {δ : Type}

/-- What is neither about the queue nor about the output buffer. -/
def Event.Quiet : Event δ → Prop
  | .pushSendMessage _ _ | .onWrite | .wrote _ | .ran => False
  | _ => True

structure SameQueue (s t : Writer δ) : Prop where
  type : t.conn.m_connection_type = s.conn.m_connection_type
  dones : t.conn.m_write_dones = s.conn.m_write_dones
  out : t.conn.m_out_buffer = s.conn.m_out_buffer
  phase : t.phase = s.phase

theorem call_sameQueue {s t : Writer δ} {f : TcpConnection δ → TcpConnection δ}
    (hf : s.conn.SameSending (f s.conn)) (h : s.call f = some t) : SameQueue s t := by
  unfold call at h
  split at h
  · cases h
  · cases h
    exact ⟨hf.type, hf.dones, hf.out, rfl⟩

theorem excute_sameQueue {s t : Writer δ}
    (hclient : s.conn.m_connection_type = .TcpConnectionByClient) {turns : Nat}
    {dispatch : TinyPBProtocol → TinyPBProtocol} (h : s.next (.excute turns dispatch) = some t) :
    SameQueue s t := by
  obtain ⟨conn, calls, hexc, rfl⟩ := next_excute h
  obtain ⟨result, m_in_buffer, -, hcases⟩ := TcpConnection.excute_cases hexc
  rcases hcases with ⟨hserver, -⟩ | ⟨-, -, rfl⟩
  · rw [hclient] at hserver
    cases hserver
  · exact ⟨rfl, rfl, rfl, rfl⟩

theorem quiet_sameQueue {s t : Writer δ}
    (hclient : s.conn.m_connection_type = .TcpConnectionByClient) {e : Event δ} (hq : e.Quiet)
    (h : s.next e = some t) : SameQueue s t := by
  have hcall := h
  unfold next at hcall
  cases e with
  | receive => exact call_sameQueue ⟨rfl, rfl, rfl⟩ hcall
  | excute turns dispatch => exact excute_sameQueue hclient h
  | pushSendMessage => exact absurd hq id
  | pushReadMessage =>
    exact call_sameQueue (TcpConnection.pushReadMessage_sameSending _ _ _) hcall
  | setState => exact call_sameQueue ⟨rfl, rfl, rfl⟩ hcall
  | clear => exact call_sameQueue (TcpConnection.clear_sameSending _) hcall
  | shutDown => exact call_sameQueue (TcpConnection.shutDown_sameSending _) hcall
  | onWrite => exact absurd hq id
  | wrote => exact absurd hq id
  | ran => exact absurd hq id

end Writer

namespace Sender

variable {δ : Type}

/-- The loop over the callbacks goes on as long as there is an entry at its index. -/
def next (s : Sender δ) : Event δ → Option (Sender δ)
  | .callback =>
    if s.writer.phase = .callbacks then
      s.writer.conn.m_write_dones[s.i]?.map fun d =>
        { s with i := s.i + 1, called := s.called ++ [d.2] }
    else none
  | .writer e => do
    let writer ← s.writer.next e
    match e with
    | .pushSendMessage message done =>
      return { s with writer, pushed := s.pushed ++ [(message, done)] }
    | .onWrite =>
      if s.writer.conn.m_state = .Connected then
        return { s with
          writer
          batch := s.writer.conn.m_write_dones.length
          encoded := s.encoded ++ s.writer.conn.m_write_dones }
      else return { s with writer }
    | .wrote rt => return { s with writer, sent := max s.sent rt.count }
    | .ran =>
      if s.i < s.writer.conn.m_write_dones.length then none
      else return { s with writer, i := 0, batch := 0 }
    | _ => return { s with writer }

def system : System (Sender δ) (Event δ) where
  start s := Writer.system.start s.writer ∧
    s.writer.conn.m_connection_type = .TcpConnectionByClient ∧
    s.writer.conn.m_write_dones = [] ∧ s = { writer := s.writer }
  step s e t := s.next e = some t

/-- The encoded messages whose callbacks this call of `onWrite` has still to run. -/
def due (s : Sender δ) : List (TinyPBProtocol × δ) :=
  (s.writer.conn.m_write_dones.take s.batch).drop s.i

/-- The messages that wait to be encoded. -/
def queued (s : Sender δ) : List (TinyPBProtocol × δ) := s.writer.conn.m_write_dones.drop s.batch

/-- Every message is encoded once, in the order of the pushes, and its callback
is run once, after all bytes of its frame have been accepted. -/
structure Served (s : Sender δ) : Prop where
  once : s.pushed = s.encoded ++ s.queued
  bytes : s.writer.conn.m_out_buffer.readable = wire (s.encoded.map Prod.fst)
  called : s.encoded.map Prod.snd = s.called ++ s.due.map Prod.snd
  accepted : (wire ((s.encoded.take s.called.length).map Prod.fst)).length ≤ s.sent

/-- No message is pushed from a callback of `onWrite`, and `EAGAIN` comes only
when one `write()` has accepted all that the output buffer holds. -/
def Orderly (s : Sender δ) : Event δ → Prop
  | .writer (.pushSendMessage _ _) => s.writer.phase ≠ .callbacks
  | .writer (.wrote .again) => s.writer.conn.m_out_buffer.readable.length ≤ s.sent
  | _ => True

/-! ## What one step keeps -/

structure Serving (s : Sender δ) : Prop extends Served s where
  client : s.writer.conn.m_connection_type = .TcpConnectionByClient
  unsent : s.writer.Unsent
  idle : s.writer.phase = .idle → s.i = 0 ∧ s.batch = 0
  writing : s.writer.phase = .writing → s.i = 0 ∧ s.batch = s.writer.conn.m_write_dones.length
  callbacks : s.writer.phase = .callbacks → s.batch = s.writer.conn.m_write_dones.length ∧
    s.i ≤ s.batch ∧ s.writer.conn.m_out_buffer.readable.length ≤ s.sent

/-! The three phases of `onWrite`. -/

theorem Serving.of_idle {s : Sender δ} (h : s.Served)
    (hclient : s.writer.conn.m_connection_type = .TcpConnectionByClient) (hunsent : s.writer.Unsent)
    (hphase : s.writer.phase = .idle) (hi : s.i = 0) (hbatch : s.batch = 0) : s.Serving := by
  refine ⟨h, hclient, hunsent, fun _ => ⟨hi, hbatch⟩, fun hp => ?_, fun hp => ?_⟩
  all_goals
    rw [hphase] at hp
    cases hp

theorem Serving.of_writing {s : Sender δ} (h : s.Served)
    (hclient : s.writer.conn.m_connection_type = .TcpConnectionByClient) (hunsent : s.writer.Unsent)
    (hphase : s.writer.phase = .writing) (hi : s.i = 0)
    (hbatch : s.batch = s.writer.conn.m_write_dones.length) : s.Serving := by
  refine ⟨h, hclient, hunsent, fun hp => ?_, fun _ => ⟨hi, hbatch⟩, fun hp => ?_⟩
  all_goals
    rw [hphase] at hp
    cases hp

theorem Serving.of_callbacks {s : Sender δ} (h : s.Served)
    (hclient : s.writer.conn.m_connection_type = .TcpConnectionByClient) (hunsent : s.writer.Unsent)
    (hphase : s.writer.phase = .callbacks) (hbatch : s.batch = s.writer.conn.m_write_dones.length)
    (hi : s.i ≤ s.batch) (hsent : s.writer.conn.m_out_buffer.readable.length ≤ s.sent) :
    s.Serving := by
  refine ⟨h, hclient, hunsent, fun hp => ?_, fun hp => ?_, fun _ => ⟨hbatch, hi, hsent⟩⟩
  all_goals
    rw [hphase] at hp
    cases hp

theorem Serving.sameQueue {s : Sender δ} (h : s.Serving) {writer : Writer δ}
    (hsame : s.writer.SameQueue writer) (hunsent : writer.Unsent) :
    Serving { s with writer } := by
  obtain ⟨htype, hdones, hout, hphase⟩ := hsame
  constructor
  · constructor
    · unfold queued
      rw [hdones]
      exact h.once
    · rw [hout]
      exact h.bytes
    · unfold due
      rw [hdones]
      exact h.called
    · exact h.accepted
  · rw [htype]
    exact h.client
  · exact hunsent
  · rw [hphase]
    exact h.idle
  · rw [hphase, hdones]
    exact h.writing
  · rw [hphase, hdones, hout]
    exact h.callbacks

theorem Serving.pushSendMessage {s t : Sender δ} (h : s.Serving) {message : TinyPBProtocol}
    {done : δ} (hphase : s.writer.phase ≠ .callbacks)
    (ht : s.next (.writer (.pushSendMessage message done)) = some t) : t.Serving := by
  unfold next at ht
  simp only [Option.bind_eq_bind, Option.bind_eq_some_iff] at ht
  obtain ⟨writer, hwriter, ht⟩ := ht
  cases ht
  have hunsent := h.unsent.next hwriter
  unfold Writer.next Writer.call at hwriter
  simp only at hwriter
  split at hwriter
  · cases hwriter
  rename_i hwriting
  cases hwriter
  -- The callbacks may not push, and no push comes into the loop of `write()`.
  have hidle : s.writer.phase = .idle := by
    cases hs : s.writer.phase with
    | idle => rfl
    | writing => exact absurd hs hwriting
    | callbacks => exact absurd hs hphase
  obtain ⟨hi, hbatch⟩ := h.idle hidle
  have honce := h.once
  have hcalled := h.called
  unfold queued at honce
  unfold due at hcalled
  rw [hbatch] at honce hcalled
  refine .of_idle ?_ h.client hunsent hidle hi hbatch
  constructor
  · unfold queued TcpConnection.pushSendMessage
    simp only [hbatch, List.drop_zero] at honce ⊢
    rw [honce, List.append_assoc]
  · exact h.bytes
  · unfold due
    simpa [hbatch] using hcalled
  · exact h.accepted

/-- In the loop of `onWrite`: all messages are encoded, and no callback was run yet. -/
structure InLoop (s : Sender δ) : Prop extends Served s where
  client : s.writer.conn.m_connection_type = .TcpConnectionByClient
  unsent : s.writer.Unsent
  first : s.i = 0
  all : s.batch = s.writer.conn.m_write_dones.length

theorem InLoop.leave {s : Sender δ} (h : s.InLoop)
    (hsent : s.writer.conn.m_out_buffer.readable.length ≤ s.sent) (is_all_write : Bool) :
    Serving { s with writer := s.writer.leave is_all_write } := by
  have hout := Writer.leave_out s.writer is_all_write
  have hdones : (s.writer.leave is_all_write).conn.m_write_dones =
      s.writer.conn.m_write_dones := by
    unfold Writer.leave TcpConnection.afterWrite
    cases is_all_write <;> rfl
  refine .of_callbacks ?_ ?_ ?_ rfl ?_ (h.first.trans_le (Nat.zero_le _)) ?_
  · constructor
    · unfold queued
      rw [hdones]
      exact h.once
    · rw [hout]
      exact h.bytes
    · unfold due
      rw [hdones]
      exact h.called
    · exact h.accepted
  · unfold Writer.leave TcpConnection.afterWrite
    cases is_all_write <;> exact h.client
  · constructor
    · rw [hout]
      exact h.unsent.valid
    · rw [hout]
      exact h.unsent.readable
  · rw [hdones]
    exact h.all
  · rw [hout]
    exact hsent

theorem InLoop.loop {s : Sender δ} (h : s.InLoop) : Serving { s with writer := s.writer.loop } := by
  unfold Writer.loop
  split
  · rename_i hempty
    rw [TcpBuffer.readAble_eq h.unsent.valid] at hempty
    exact h.leave (by omega) true
  · exact .of_writing ⟨h.once, h.bytes, h.called, h.accepted⟩ h.client
      ⟨h.unsent.valid, h.unsent.readable⟩ rfl h.first h.all

theorem Serving.start {s : Sender δ} (h : s.Serving) (hidle : s.writer.phase = .idle)
    {conn : TcpConnection δ} (hconn : s.writer.conn.beforeWrite = some conn) :
    InLoop { s with
      writer := { s.writer with conn, appended := s.writer.appended ++ wire s.writer.conn.waiting }
      batch := s.writer.conn.m_write_dones.length
      encoded := s.encoded ++ s.writer.conn.m_write_dones } := by
  obtain ⟨hi, hbatch⟩ := h.idle hidle
  obtain ⟨hv, hread⟩ := Writer.beforeWrite_out h.unsent.valid hconn
  obtain ⟨hdones, -, htype⟩ := TcpConnection.beforeWrite_dones hconn
  have hclient := htype.trans h.client
  have hlen : s.writer.conn.m_write_dones.length = conn.m_write_dones.length := by
    simpa using (congrArg List.length hdones).symm
  have hwaiting : s.writer.conn.waiting = s.writer.conn.m_write_dones.map Prod.fst := by
    unfold TcpConnection.waiting
    rw [h.client]
  -- Between two batches all that was encoded has been called.
  have honce := h.once
  have hcalled := h.called
  unfold queued at honce
  unfold due at hcalled
  simp only [hbatch, List.drop_zero, List.take_zero, List.drop_nil, List.map_nil,
    List.append_nil] at honce hcalled
  have hcount : s.called.length = s.encoded.length := by
    rw [← hcalled, List.length_map]
  refine ⟨⟨?_, ?_, ?_, ?_⟩, hclient, ?_, hi, hlen⟩
  · unfold queued
    simp only [hlen, List.drop_length, List.append_nil]
    exact honce
  · simp only [hread, h.bytes, hwaiting, List.map_append, wire_append]
  · unfold due
    simp only [hi, hlen, List.take_length, List.drop_zero, List.map_append, hcalled, hdones]
  · simp only [hcount, List.take_left]
    have haccepted := h.accepted
    rwa [hcount, List.take_length] at haccepted
  · refine ⟨hv, ?_⟩
    simp only [hread, h.unsent.readable]

theorem Serving.onWrite {s t : Sender δ} (h : s.Serving)
    (ht : s.next (.writer .onWrite) = some t) : t.Serving := by
  unfold next at ht
  simp only [Option.bind_eq_bind, Option.bind_eq_some_iff] at ht
  obtain ⟨writer, hwriter, ht⟩ := ht
  unfold Writer.next at hwriter
  simp only at hwriter
  split at hwriter
  · cases hwriter
  rename_i hidle
  split at hwriter
  · rename_i hstate
    cases hwriter
    rw [if_neg hstate] at ht
    cases ht
    exact h
  · rename_i hstate
    rw [if_pos (Decidable.not_not.mp hstate)] at ht
    cases ht
    simp only [Option.bind_eq_bind, Option.bind_eq_some_iff] at hwriter
    obtain ⟨conn, hconn, hwriter⟩ := hwriter
    cases hwriter
    exact (h.start (Decidable.not_not.mp hidle) hconn).loop

theorem Serving.inLoop {s : Sender δ} (h : s.Serving) (hphase : s.writer.phase = .writing) :
    s.InLoop :=
  ⟨h.toServed, h.client, h.unsent, (h.writing hphase).1, (h.writing hphase).2⟩

theorem InLoop.sent {s : Sender δ} (h : s.InLoop) (accepted : Bytes) {n : Nat} (hn : s.sent ≤ n) :
    InLoop { s with writer := { s.writer with accepted }, sent := n } :=
  ⟨⟨h.once, h.bytes, h.called, Nat.le_trans h.accepted hn⟩, h.client,
    ⟨h.unsent.valid, h.unsent.readable⟩, h.first, h.all⟩

theorem Serving.wrote {s t : Sender δ} (h : s.Serving) {rt : WriteResult}
    (hagain : rt = .again → s.writer.conn.m_out_buffer.readable.length ≤ s.sent)
    (ht : s.next (.writer (.wrote rt)) = some t) : t.Serving := by
  unfold next at ht
  simp only [Option.bind_eq_bind, Option.bind_eq_some_iff] at ht
  obtain ⟨writer, hwriter, ht⟩ := ht
  cases ht
  unfold Writer.next at hwriter
  simp only at hwriter
  split at hwriter
  · cases hwriter
  rename_i hphase
  obtain ⟨hwriting, -⟩ := not_or.mp hphase
  have hloop := (h.inLoop (Decidable.not_not.mp hwriting)).sent
    (s.writer.accepted ++ s.writer.conn.m_out_buffer.readable.take rt.count)
    (Nat.le_max_left s.sent rt.count)
  cases rt with
  | accepted n =>
    unfold TcpConnection.writeTurn at hwriter
    simp only at hwriter
    split at hwriter
    · rename_i is_all_write hturn
      split at hturn
      · rename_i hall
        cases hwriter
        rw [TcpBuffer.readAble_eq h.unsent.valid] at hall
        refine hloop.leave ?_ is_all_write
        simp only [WriteResult.count]
        omega
      · cases hturn
    · cases hwriter
      exact hloop.loop
  -- `EAGAIN` ends the loop, so all must have been accepted before.
  | again =>
    cases hwriter
    exact hloop.leave (Nat.le_trans (hagain rfl) (Nat.le_max_left _ _)) false
  | error =>
    cases hwriter
    exact hloop.loop

theorem wire_take_length_le (ms : List TinyPBProtocol) (n : Nat) :
    (wire (ms.take n)).length ≤ (wire ms).length := by
  conv_rhs => rw [← List.take_append_drop n ms, wire_append, List.length_append]
  exact Nat.le_add_right _ _

theorem Serving.callback {s t : Sender δ} (h : s.Serving) (ht : s.next .callback = some t) :
    t.Serving := by
  unfold next at ht
  simp only at ht
  split at ht
  · rename_i hphase
    obtain ⟨d, hd, rfl⟩ := Option.map_eq_some_iff.mp ht
    obtain ⟨hbatch, hi, hsent⟩ := h.callbacks hphase
    obtain ⟨hlt, hget⟩ := List.getElem?_eq_some_iff.mp hd
    have hcalled := h.called
    unfold due at hcalled
    rw [hbatch, List.take_length, List.drop_eq_getElem_cons hlt, hget] at hcalled
    refine .of_callbacks ⟨h.once, h.bytes, ?_, ?_⟩ h.client h.unsent hphase hbatch
      (hbatch ▸ hlt) hsent
    · unfold due
      simp only [hbatch, List.take_length]
      rw [hcalled, List.map_cons, List.append_assoc, List.singleton_append]
    · have hle := wire_take_length_le (s.encoded.map Prod.fst) (s.called ++ [d.2]).length
      rw [h.bytes] at hsent
      rw [List.map_take]
      exact Nat.le_trans hle hsent
  · cases ht

theorem Serving.ran {s t : Sender δ} (h : s.Serving) (ht : s.next (.writer .ran) = some t) :
    t.Serving := by
  unfold next at ht
  simp only [Option.bind_eq_bind, Option.bind_eq_some_iff] at ht
  obtain ⟨writer, hwriter, ht⟩ := ht
  have hunsent := h.unsent.next hwriter
  split at ht
  · cases ht
  rename_i hdone
  cases ht
  unfold Writer.next at hwriter
  simp only at hwriter
  split at hwriter
  · rename_i hphase
    cases hwriter
    obtain ⟨hbatch, hi, -⟩ := h.callbacks hphase
    have honce := h.once
    have hcalled := h.called
    unfold queued at honce
    unfold due at hcalled
    rw [hbatch, List.drop_length, List.append_nil] at honce
    rw [hbatch, List.take_length, List.drop_of_length_le (by omega), List.map_nil,
      List.append_nil] at hcalled
    unfold TcpConnection.clearWriteDones at hunsent ⊢
    simp only [h.client] at hunsent ⊢
    refine .of_idle ⟨?_, h.bytes, ?_, h.accepted⟩ rfl hunsent rfl rfl rfl
    · simpa [queued] using honce
    · simpa [due] using hcalled
  · cases hwriter

theorem Serving.quiet {s t : Sender δ} (h : s.Serving) {e : Writer.Event δ} (hq : e.Quiet)
    (ht : s.next (.writer e) = some t) : t.Serving := by
  unfold next at ht
  simp only [Option.bind_eq_bind, Option.bind_eq_some_iff] at ht
  obtain ⟨writer, hwriter, ht⟩ := ht
  have hserving := h.sameQueue (Writer.quiet_sameQueue h.client hq hwriter) (h.unsent.next hwriter)
  cases e with
  | pushSendMessage | onWrite | wrote | ran => exact absurd hq id
  | receive | excute | pushReadMessage | setState | clear | shutDown =>
    cases ht
    exact hserving

theorem Serving.next {s t : Sender δ} (h : s.Serving) {e : Event δ} (he : s.Orderly e)
    (ht : s.next e = some t) : t.Serving := by
  cases e with
  | callback => exact h.callback ht
  | writer e =>
    cases e with
    | pushSendMessage => exact h.pushSendMessage he ht
    | onWrite => exact h.onWrite ht
    | wrote rt =>
      refine h.wrote ?_ ht
      rintro rfl
      exact he
    | ran => exact h.ran ht
    | receive | excute | pushReadMessage | setState | clear | shutDown =>
      refine h.quiet ?_ ht
      exact trivial

theorem serving_run {es : List (Event δ)} {s : Sender δ}
    (hrun : (system.restrict Orderly).Run es s) : s.Serving := by
  refine hrun.invariant ?_ fun _ _ _ h hstep => h.next hstep.1 hstep.2
  rintro s ⟨⟨hv, hread, hphase, -, happ⟩, hclient, hdones, hs⟩
  rw [hs]
  refine .of_idle ?_ hclient ⟨hv, by rw [hread, happ]⟩ hphase rfl rfl
  constructor
  · simp [queued, hdones]
  · exact hread
  · simp [due]
  · exact Nat.le_refl _

/-! ## Where a step is not orderly -/

theorem callbacks_finish {es : List (Event δ)} {s : Sender δ} (hrun : system.Run es s)
    (hphase : s.writer.phase = .callbacks) (hi : s.i ≤ s.writer.conn.m_write_dones.length) :
    ∃ es', system.Run (es ++ es')
      { s with
        i := s.writer.conn.m_write_dones.length
        called := s.called ++ (s.writer.conn.m_write_dones.drop s.i).map Prod.snd } := by
  induction hn : s.writer.conn.m_write_dones.length - s.i generalizing es s with
  | zero =>
    have hend : s.i = s.writer.conn.m_write_dones.length := by omega
    refine ⟨[], ?_⟩
    rw [List.append_nil, List.drop_of_length_le (by omega), List.map_nil, List.append_nil, ← hend]
    exact hrun
  | succ n ih =>
    have hlt : s.i < s.writer.conn.m_write_dones.length := by omega
    have hnext : s.next .callback = some { s with
        i := s.i + 1
        called := s.called ++ [(s.writer.conn.m_write_dones[s.i]).2] } := by
      unfold next
      simp only [hphase, if_true, List.getElem?_eq_getElem hlt, Option.map_some]
    obtain ⟨es', hfinish⟩ := ih (hrun.step hnext) hphase hlt (by simp only; omega)
    refine ⟨[.callback] ++ es', ?_⟩
    rw [List.drop_eq_getElem_cons hlt, List.map_cons, ← List.append_assoc es]
    simpa using hfinish

theorem pushed_in_callback {es : List (Event δ)} {s t : Sender δ} (hrun : system.Run es s)
    (h : s.Serving) (hphase : s.writer.phase = .callbacks) {message : TinyPBProtocol} {done : δ}
    (ht : s.next (.writer (.pushSendMessage message done)) = some t) :
    ∃ es', ∃ u : Sender δ,
      system.Run (es ++ .writer (.pushSendMessage message done) :: es') u ∧ ¬ u.Served := by
  have hstep := hrun.step ht
  obtain ⟨hbatch, hi, -⟩ := h.callbacks hphase
  unfold next Writer.next Writer.call at ht
  simp only [hphase, reduceCtorEq, if_false, Option.bind_eq_bind, Option.bind_some,
    Option.pure_def, Option.some.injEq] at ht
  rw [← ht] at hstep
  obtain ⟨es', hfinish⟩ := callbacks_finish hstep rfl (by
    simp only [TcpConnection.pushSendMessage, List.length_append]
    omega)
  rw [List.append_assoc] at hfinish
  refine ⟨es', _, hfinish, fun hserved => ?_⟩
  have hcalled := congrArg List.length h.called
  have hcalled' := congrArg List.length hserved.called
  unfold due at hcalled hcalled'
  simp only [TcpConnection.pushSendMessage, List.length_append, List.length_map,
    List.length_drop, List.length_take, List.length_singleton] at hcalled hcalled'
  omega

theorem again_too_soon {es : List (Event δ)} {s t : Sender δ} (hrun : system.Run es s)
    (h : s.Serving) (hless : s.sent < s.writer.conn.m_out_buffer.readable.length)
    (ht : s.next (.writer (.wrote .again)) = some t) :
    ∃ es', ∃ u : Sender δ,
      system.Run (es ++ .writer (.wrote .again) :: es') u ∧ ¬ u.Served := by
  have hstep := hrun.step ht
  unfold next at ht
  simp only [Option.bind_eq_bind, Option.bind_eq_some_iff] at ht
  obtain ⟨writer, hwriter, ht⟩ := ht
  cases ht
  unfold Writer.next at hwriter
  simp only at hwriter
  split at hwriter
  · cases hwriter
  rename_i hphase
  obtain ⟨hwriting, -⟩ := not_or.mp hphase
  have hloop := h.inLoop (Decidable.not_not.mp hwriting)
  cases hwriter
  obtain ⟨es', hfinish⟩ := callbacks_finish hstep rfl (by
    simp only [hloop.first]
    exact Nat.zero_le _)
  rw [List.append_assoc] at hfinish
  refine ⟨es', _, hfinish, fun hserved => ?_⟩
  have hcalled := congrArg List.length hloop.called
  have haccepted := hserved.accepted
  have hbytes := congrArg List.length hloop.bytes
  unfold due at hcalled
  rw [hloop.first, hloop.all] at hcalled
  simp only [List.length_map, List.length_append, List.take_length, List.drop_zero] at hcalled
  simp only [Writer.leave, TcpConnection.afterWrite, hloop.first, List.drop_zero,
    List.length_append, List.length_map, ← hcalled, Bool.false_eq_true, if_false,
    List.take_length, WriteResult.count, Nat.max_zero] at haccepted
  omega

/-- In a run in which no callback of `onWrite` pushes a message, and `EAGAIN`
comes only after one `write()` has accepted everything, the queue is served.
Where another step is taken, the run can go on so that it is not. -/
theorem served_run (es : List (Event δ)) (s : Sender δ)
    (hrun : (system.restrict Orderly).Run es s) :
    s.Served ∧ ∀ e t, s.next e = some t → ¬ s.Orderly e →
      ∃ es', ∃ u : Sender δ, system.Run (es ++ e :: es') u ∧ ¬ u.Served := by
  have h := serving_run hrun
  refine ⟨h.toServed, fun e t ht hnot => ?_⟩
  cases e with
  | callback => exact absurd trivial hnot
  | writer e =>
    cases e with
    | pushSendMessage message done =>
      exact pushed_in_callback hrun.of_restrict h (Decidable.not_not.mp hnot) ht
    | wrote rt =>
      cases rt with
      | again => exact again_too_soon hrun.of_restrict h (Nat.lt_of_not_le hnot) ht
      | accepted | error => exact absurd trivial hnot
    | onWrite | ran | receive | excute | pushReadMessage | setState | clear | shutDown =>
      exact absurd trivial hnot

/-! ## Short runs -/

instance (s : Sender δ) : DecidablePred s.Orderly
  | .callback => isTrue trivial
  | .writer (.pushSendMessage _ _) => inferInstanceAs (Decidable (_ ≠ _))
  | .writer (.wrote .again) => inferInstanceAs (Decidable (_ ≤ _))
  | .writer (.wrote (.accepted _)) => isTrue trivial
  | .writer (.wrote .error) => isTrue trivial
  | .writer (.receive _) => isTrue trivial
  | .writer (.excute _ _) => isTrue trivial
  | .writer (.pushReadMessage _ _) => isTrue trivial
  | .writer (.setState _) => isTrue trivial
  | .writer .clear => isTrue trivial
  | .writer .shutDown => isTrue trivial
  | .writer .onWrite => isTrue trivial
  | .writer .ran => isTrue trivial

def orderlyNext (s : Sender δ) (e : Event δ) : Option (Sender δ) :=
  if s.Orderly e then s.next e else none

theorem orderlyNext_step {s t : Sender δ} {e : Event δ} (h : s.orderlyNext e = some t) :
    (system.restrict Orderly).step s e t := by
  unfold orderlyNext at h
  split at h
  · exact ⟨‹_›, h⟩
  · cases h

/-- A client of its own connection, with numbers for its callbacks. -/
def fresh : Sender Nat where
  writer := { conn := TcpConnection.new 128 .TcpConnectionByClient }

theorem fresh_start : system.start fresh :=
  ⟨⟨TcpBuffer.new_valid _, TcpBuffer.new_readable _, rfl, rfl, rfl⟩, rfl, rfl, rfl⟩

def firstWrite (rt : WriteResult) : List (Event Nat) :=
  [.writer (.setState .Connected), .writer (.pushSendMessage request 0), .writer .onWrite,
    .writer (.wrote rt), .callback]

theorem served_run_firstWrite : ∃ s : Sender Nat, s.called = [0] ∧ s.sent = 52 ∧ s.Served := by
  have hlast : ((firstWrite (.accepted 52)).foldlM orderlyNext fresh).map
      (fun s => (s.called, s.sent)) = some ([0], 52) := by decide +kernel
  obtain ⟨s, hs, hlast⟩ := Option.map_eq_some_iff.mp hlast
  obtain ⟨hcalled, hsent⟩ := Prod.mk.inj hlast
  have hrun : (system.restrict Orderly).Run _ s :=
    System.Run.of_next (fun _ _ _ h => orderlyNext_step h) fresh_start hs
  exact ⟨s, hcalled, hsent, (served_run _ s hrun).1⟩

def pushingBack : List (Event Nat) :=
  firstWrite (.accepted 52) ++ [.writer (.pushSendMessage request 1), .callback, .writer .ran]

/-- A message that the first callback pushes: its callback is run, and the
message is gone before it is encoded. -/
theorem push_in_callback_lost : ∃ s : Sender Nat, system.Run pushingBack s ∧
    s.called = [0, 1] ∧ s.encoded.length = 1 ∧ s.queued.length = 0 ∧ ¬ s.Served := by
  have hlast : (pushingBack.foldlM next fresh).map
      (fun s => (s.called, s.encoded.length, s.queued.length)) = some ([0, 1], 1, 0) := by
    decide +kernel
  obtain ⟨s, hs, hlast⟩ := Option.map_eq_some_iff.mp hlast
  obtain ⟨hcalled, hrest⟩ := Prod.mk.inj hlast
  obtain ⟨hencoded, hqueued⟩ := Prod.mk.inj hrest
  refine ⟨s, System.Run.of_next (fun _ _ _ h => h) fresh_start hs, hcalled, hencoded, hqueued,
    fun h => ?_⟩
  have hlen := congrArg List.length h.called
  rw [hcalled] at hlen
  simp only [List.length_map, List.length_append, List.length_cons, List.length_nil] at hlen
  omega

theorem again_called : ∃ s : Sender Nat,
    system.Run (firstWrite .again) s ∧ s.called = [0] ∧ s.sent = 0 ∧ ¬ s.Served := by
  have hlast : ((firstWrite .again).foldlM next fresh).map
      (fun s => (s.called, s.sent, s.encoded.map Prod.fst)) = some ([0], 0, [request]) := by
    decide +kernel
  obtain ⟨s, hs, hlast⟩ := Option.map_eq_some_iff.mp hlast
  obtain ⟨hcalled, hrest⟩ := Prod.mk.inj hlast
  obtain ⟨hsent, hencoded⟩ := Prod.mk.inj hrest
  refine ⟨s, System.Run.of_next (fun _ _ _ h => h) fresh_start hs, hcalled, hsent, fun h => ?_⟩
  have haccepted := h.accepted
  rw [hcalled, hsent, List.map_take, hencoded] at haccepted
  exact absurd haccepted (by decide +kernel)

end Sender

end TinyRpc
