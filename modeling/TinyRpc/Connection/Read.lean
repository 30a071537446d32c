import TinyRpc.Connection.Spec

/-!
# What one call of `onRead` keeps

`moveWriteIndex` refuses an index at the end of the vector, so a read that
fills the buffer is stored behind the write index and lost. A call keeps what
it reads only if its first read does not fill the buffer.
-/

namespace TinyRpc

open Coder

/-! ## The buffer functions -/

namespace TcpBuffer

theorem store_and_move {b : TcpBuffer} (hv : b.Valid) {l : Bytes}
    (hroom : b.m_write_index + l.length < b.m_buffer.length) :
    ∃ m_buffer b', stored b.m_buffer b.m_write_index l = some m_buffer ∧
      ({ b with m_buffer } : TcpBuffer).moveWriteIndex l.length = some b' ∧
      Holds (b.readable ++ l) b.m_buffer.length b' := by
  obtain ⟨m_buffer, hstored, h⟩ := readable_stored hv (Nat.le_of_lt hroom)
  obtain ⟨b', hb', h', -⟩ := adjustBuffer_spec h.valid
  have hlen := h.length_eq
  simp only at hlen
  refine ⟨m_buffer, b', hstored, ?_, ⟨h'.valid, ?_, ?_⟩⟩
  · unfold moveWriteIndex
    rw [if_neg (by simp only; omega)]
    exact hb'
  · rw [h'.readable_eq, h.readable_eq]
  · rw [h'.length_eq, hlen]

theorem store_and_stay {b : TcpBuffer} (hv : b.Valid) {l : Bytes}
    (hfull : b.m_write_index + l.length = b.m_buffer.length) :
    ∃ m_buffer, stored b.m_buffer b.m_write_index l = some m_buffer ∧
      ({ b with m_buffer } : TcpBuffer).moveWriteIndex l.length = some { b with m_buffer } ∧
      Holds b.readable b.m_buffer.length { b with m_buffer } := by
  obtain ⟨m_buffer, hstored, h⟩ := readable_stored hv (Nat.le_of_eq hfull)
  have hlen := h.length_eq
  have hr := hv.read_le
  simp only at hlen
  refine ⟨m_buffer, hstored, moveWriteIndex_rejected (by simp only; omega), ⟨⟨hr, ?_⟩, ?_, hlen⟩⟩
  · simp only; omega
  · have htake : (b.m_buffer.take b.m_write_index).length = b.m_write_index := by
      simp only [List.length_take]; omega
    rw [stored, if_pos (Nat.le_of_eq hfull)] at hstored
    rw [← Option.some.inj hstored, readable]
    simp only [List.append_assoc]
    rw [List.take_left' htake]
    rfl

end TcpBuffer

namespace TcpConnection

variable {δ : Type}

/-! ## The loop -/

theorem intOfSize_doubled_neg {n : Nat} (hint : n < 2 ^ 31) (hbig : ¬ 2 * n < 2 ^ 31) :
    intOfSize (2 * n) < 0 := by
  unfold intOfSize
  rw [BitVec.toInt_eq_toNat_cond, BitVec.toNat_ofNat]
  rw [Nat.mod_eq_of_lt (by omega), if_neg (by omega)]
  omega

theorem grow_cases {b b1 : TcpBuffer} (hv : b.Valid) (hint : b.m_buffer.length < 2 ^ 31)
    (h : grow b = some b1) :
    (b.writeAble ≠ 0 ∧ b1 = b) ∨
    (2 * b.m_buffer.length < 2 ^ 31 ∧
      TcpBuffer.Holds b.readable (2 * b.m_buffer.length) b1 ∧
      b1.m_write_index = b.readable.length) := by
  unfold grow at h
  split at h
  · right
    have hlen := TcpBuffer.readable_length hv
    have hw := hv.write_le
    by_cases hbig : 2 * b.m_buffer.length < 2 ^ 31
    · rw [intOfSize_eq hbig] at h
      obtain ⟨b', hb', hholds, hw'⟩ := TcpBuffer.resizeBuffer_spec hv
        (by omega : b.readable.length ≤ 2 * b.m_buffer.length)
      rw [hb'] at h
      cases h
      exact ⟨hbig, hholds, hw'⟩
    · rw [TcpBuffer.resizeBuffer, if_pos (intOfSize_doubled_neg hint hbig)] at h
      cases h
  · rename_i hroom
    exact Or.inl ⟨hroom, (Option.some.inj h).symm⟩

theorem grow_keeps {b b1 : TcpBuffer} (hv : b.Valid) (hint : b.m_buffer.length < 2 ^ 31)
    (h : grow b = some b1) :
    b1.Valid ∧ b1.m_buffer.length < 2 ^ 31 ∧ b1.readable = b.readable := by
  rcases grow_cases hv hint h with ⟨-, rfl⟩ | ⟨hbig, hholds, -⟩
  · exact ⟨hv, hint, rfl⟩
  · exact ⟨hholds.valid, by rw [hholds.length_eq]; exact hbig, hholds.readable_eq⟩

/-- The results of `read()` with which a call keeps what it reads: the first
one that is not an error fills less than the free space, or is `EAGAIN`, or
is the close of a peer that has left nothing unread. -/
def KeepsAll : List ReadResult → TcpBuffer → Prop
  | [], _ => False
  | rt :: rts, b => ∃ b1, grow b = some b1 ∧
    match rt with
    | .bytes l => l ≠ [] ∧ l.length < b1.writeAble
    | .close => b.readable = []
    | .again => True
    | .error => KeepsAll rts b1

def ReadLoop.handed (out : ReadLoop) : Bytes := if out.is_close then [] else out.buffer.readable

/-- The loop hands over what was readable, and then what it has read. -/
def Intact (rts : List ReadResult) (b : TcpBuffer) : Prop :=
  ∃ out, readLoop rts b = some out ∧ out.handed = b.readable ++ out.got

theorem readLoop_partial {b b1 : TcpBuffer} (hgrow : grow b = some b1) (hv : b1.Valid)
    {l : Bytes} (hne : l ≠ []) (hl : l.length < b1.writeAble) (rts : List ReadResult) :
    ∃ b', readLoop (.bytes l :: rts) b = some ⟨false, b', l⟩ ∧ b'.readable = b1.readable ++ l := by
  have hroom : b1.m_write_index + l.length < b1.m_buffer.length := by
    unfold TcpBuffer.writeAble at hl
    omega
  obtain ⟨m_buffer, b', hstored, hmove, h⟩ := TcpBuffer.store_and_move hv hroom
  refine ⟨b', ?_, h.readable_eq⟩
  simp only [readLoop, hgrow, hstored, hmove, Option.bind_eq_bind, Option.bind_some, hne, if_false,
    hl.ne, Option.pure_def]

theorem readLoop_full {b b1 : TcpBuffer} (hgrow : grow b = some b1) (hv : b1.Valid)
    {l : Bytes} (hne : l ≠ []) (hl : l.length = b1.writeAble) :
    ∃ b', TcpBuffer.Holds b1.readable b1.m_buffer.length b' ∧
      b'.m_write_index = b1.m_write_index ∧ ∀ rts, readLoop (.bytes l :: rts) b =
        (readLoop rts b').map fun out => { out with got := l ++ out.got } := by
  have hfull : b1.m_write_index + l.length = b1.m_buffer.length := by
    unfold TcpBuffer.writeAble at hl
    omega
  obtain ⟨m_buffer, hstored, hmove, h⟩ := TcpBuffer.store_and_stay hv hfull
  refine ⟨_, h, rfl, fun rts => ?_⟩
  simp only [readLoop, hgrow, hstored, hmove, Option.bind_eq_bind, Option.bind_some, hne, if_false]
  rw [if_pos hl]
  cases readLoop rts { b1 with m_buffer } <;> rfl

theorem readLoop_bytes_none {b b1 : TcpBuffer} (hgrow : grow b = some b1) {l : Bytes}
    (hl : l = [] ∨ b1.writeAble < l.length) (rts : List ReadResult) :
    readLoop (.bytes l :: rts) b = none := by
  unfold readLoop
  simp only [hgrow, Option.bind_eq_bind, Option.bind_some]
  rcases hl with rfl | hl
  · rfl
  · have hstored : TcpBuffer.stored b1.m_buffer b1.m_write_index l = none := by
      unfold TcpBuffer.writeAble at hl
      exact if_neg (by omega)
    rw [hstored, Option.bind_none, ite_self]

theorem handed_length_le {rts : List ReadResult} {b : TcpBuffer} {out : ReadLoop} (hv : b.Valid)
    (hint : b.m_buffer.length < 2 ^ 31) (h : readLoop rts b = some out) :
    out.handed.length ≤ b.readable.length + out.got.length := by
  induction rts generalizing b out with
  | nil => cases h
  | cons rt rts ih =>
    cases hgrow : grow b with
    | none => simp [readLoop, hgrow] at h
    | some b1 =>
      obtain ⟨hv1, hint1, hread1⟩ := grow_keeps hv hint hgrow
      cases rt with
      | close =>
        simp only [readLoop, hgrow, Option.bind_eq_bind, Option.bind_some, Option.pure_def,
          Option.some.injEq] at h
        rw [← h]
        exact Nat.zero_le _
      | again =>
        simp only [readLoop, hgrow, Option.bind_eq_bind, Option.bind_some, Option.pure_def,
          Option.some.injEq] at h
        rw [← h]
        simp [ReadLoop.handed, hread1]
      | error =>
        unfold readLoop at h
        simp only [hgrow, Option.bind_eq_bind, Option.bind_some] at h
        rw [← hread1]
        exact ih hv1 hint1 h
      | bytes l =>
        by_cases hbad : l = [] ∨ b1.writeAble < l.length
        · rw [readLoop_bytes_none hgrow hbad] at h
          cases h
        · obtain ⟨hne, hle⟩ := not_or.mp hbad
          by_cases hfull : l.length = b1.writeAble
          · obtain ⟨b', h', -, heq⟩ := readLoop_full hgrow hv1 hne hfull
            rw [heq] at h
            obtain ⟨out', hout', rfl⟩ := Option.map_eq_some_iff.mp h
            have hih := ih h'.valid (by rw [h'.length_eq]; exact hint1) hout'
            rw [h'.readable_eq, hread1] at hih
            simp only [List.length_append]
            exact Nat.le_trans hih (by omega)
          · obtain ⟨b', heq, hread'⟩ := readLoop_partial hgrow hv1 hne (by omega) rts
            rw [heq] at h
            cases h
            simp [ReadLoop.handed, hread', hread1]

/-- The loop keeps all that it reads, exactly when its first read does not fill the buffer. -/
theorem intact_iff {rts : List ReadResult} {b : TcpBuffer} (hv : b.Valid)
    (hint : b.m_buffer.length < 2 ^ 31) : Intact rts b ↔ KeepsAll rts b := by
  induction rts generalizing b with
  | nil => simp [Intact, KeepsAll, readLoop]
  | cons rt rts ih =>
    cases hgrow : grow b with
    | none => simp [Intact, KeepsAll, readLoop, hgrow]
    | some b1 =>
      obtain ⟨hv1, hint1, hread1⟩ := grow_keeps hv hint hgrow
      cases rt with
      | close =>
        simp only [Intact, KeepsAll, readLoop, hgrow, ReadLoop.handed, Option.bind_eq_bind,
          Option.bind_some, Option.pure_def, Option.some.injEq, exists_eq_left', if_true,
          List.append_nil]
        exact eq_comm
      | again => simp [Intact, KeepsAll, readLoop, hgrow, ReadLoop.handed, hread1]
      | error =>
        have hih := ih hv1 hint1
        unfold Intact at hih
        simp only [hread1] at hih
        simp only [Intact, KeepsAll, readLoop, hgrow, Option.bind_eq_bind, Option.bind_some, hih,
          Option.some.injEq, exists_eq_left']
      | bytes l =>
        unfold KeepsAll
        simp only [hgrow, Option.some.injEq, exists_eq_left']
        constructor
        · rintro ⟨out, hout, hhanded⟩
          have hgood : ¬ (l = [] ∨ b1.writeAble < l.length) := by
            intro hbad
            rw [readLoop_bytes_none hgrow hbad] at hout
            cases hout
          obtain ⟨hne, hle⟩ := not_or.mp hgood
          refine ⟨hne, lt_of_le_of_ne (by omega) fun hfull => ?_⟩
          -- What fills the buffer is missing from what is handed over.
          obtain ⟨b', h', -, heq⟩ := readLoop_full hgrow hv1 hne hfull
          rw [heq] at hout
          obtain ⟨out', hout', rfl⟩ := Option.map_eq_some_iff.mp hout
          have hlen := handed_length_le h'.valid (by rw [h'.length_eq]; exact hint1) hout'
          have hpos := List.length_pos_of_ne_nil hne
          have htotal := congrArg List.length hhanded
          simp only [ReadLoop.handed, List.length_append] at hlen htotal
          rw [h'.readable_eq, hread1] at hlen
          omega
        · rintro ⟨hne, hl⟩
          obtain ⟨b', heq, hread'⟩ := readLoop_partial hgrow hv1 hne hl rts
          exact ⟨_, heq, by simp [ReadLoop.handed, hread', hread1]⟩

/-! ## The call -/

def OnRead.handed (out : OnRead δ) : Bytes :=
  if out.excutes then out.conn.m_in_buffer.readable else []

/-- A call of `onRead` hands over what was readable and then what it has read,
exactly when its first read does not fill the buffer, and is not the close of
a peer that has left bytes unread. -/
theorem onRead_handed_iff (c : TcpConnection δ) (hconn : c.m_state = .Connected)
    (hv : c.m_in_buffer.Valid) (hint : c.m_in_buffer.m_buffer.length < 2 ^ 31)
    (rts : List ReadResult) :
    (∃ out, c.onRead rts = some out ∧ out.handed = c.m_in_buffer.readable ++ out.got) ↔
      KeepsAll rts c.m_in_buffer := by
  rw [← intact_iff hv hint]
  simp only [onRead, hconn, ne_eq, not_true, if_false, Intact, Option.bind_eq_bind,
    Option.bind_eq_some_iff, Option.pure_def, Option.some.injEq]
  constructor
  · rintro ⟨out, ⟨r, hr, rfl⟩, hhanded⟩
    refine ⟨r, hr, ?_⟩
    cases hclose : r.is_close <;>
      simpa [hclose, OnRead.handed, ReadLoop.handed] using hhanded
  · rintro ⟨r, hr, hhanded⟩
    refine ⟨_, ⟨r, hr, rfl⟩, ?_⟩
    cases hclose : r.is_close <;>
      simpa [hclose, OnRead.handed, ReadLoop.handed] using hhanded

def holding (l : Bytes) : TcpConnection Unit :=
  { new 4 .TcpConnectionByServer with
    m_state := .Connected
    m_in_buffer := { m_write_index := l.length, m_buffer := l ++ List.replicate (4 - l.length) 0 } }

theorem onRead_handed_iff_holding :
    (∃ out, (holding [1]).onRead [.bytes [2, 3]] = some out ∧ out.handed = [1] ++ out.got) ↔
      KeepsAll [.bytes [2, 3]] (holding [1]).m_in_buffer :=
  onRead_handed_iff (holding [1]) rfl (by decide) (by decide) [.bytes [2, 3]]

theorem onRead_loses :
    (holding [1]).m_in_buffer.Valid ∧ (holding [1]).m_in_buffer.readable = [1] ∧
    (∃ out, (holding [1]).onRead [.bytes [2, 3, 4], .again] = some out ∧
      out.got = [2, 3, 4] ∧ out.handed ≠ [1] ++ out.got) ∧
    ∃ out, (holding [1]).onRead [.close] = some out ∧ out.got = [] ∧ out.handed ≠ [1] ++ out.got :=
  ⟨by decide, by decide, ⟨_, rfl, by decide, by decide⟩, ⟨_, rfl, by decide, by decide⟩⟩

end TcpConnection

end TinyRpc
