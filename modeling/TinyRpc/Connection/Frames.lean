import TinyRpc.Coder.Chunks
import TinyRpc.Connection.Lifecycle
import TinyRpc.Connection.Read
import TinyRpc.Connection.Write

/-!
# Whole frames

What a connection decodes when its reads end where frames end, and what its
socket gets when each `write()` takes all that it is given.
-/

namespace TinyRpc

open Lib Traced

/-! ## Where frames end -/

namespace Coder

theorem block_received {m m' : TinyPBProtocol} (h : RoundTrip m) (h' : RoundTrip m')
    {l l' : Bytes} (heq : (encodeTinyPB m).block ++ l = (encodeTinyPB m').block ++ l') :
    received m = received m' ∧ l = l' := by
  have hint := h.frame_int
  have hint' := h'.frame_int
  have hlen : frameLen m = frameLen m' := by
    have hbytes := heq
    rw [h.block_eq, h'.block_eq] at hbytes
    simp only [List.append_assoc, List.singleton_append] at hbytes
    obtain ⟨hword, -⟩ := List.append_inj (List.cons.inj hbytes).2 rfl
    have hcast := int32Bytes_inj ⟨by omega, by unfold frameLen; omega⟩
      ⟨by omega, by unfold frameLen; omega⟩ hword
    exact Int.ofNat_inj.mp hcast
  obtain ⟨hblock, hl⟩ := List.append_inj heq (by rw [h.block_length, h'.block_length, hlen])
  refine ⟨?_, hl⟩
  let b : TcpBuffer :=
    { m_buffer := (encodeTinyPB m).block, m_write_index := (encodeTinyPB m).block.length }
  have hb : HoldsAt b 0 (encodeTinyPB m).block := by simp [b, HoldsAt]
  have hparse := parseFrame_at h (by unfold frameLen; omega) hb
  rw [hblock] at hb
  rw [hlen, parseFrame_at h' (by unfold frameLen; omega) hb] at hparse
  exact (Option.some.inj (Option.some.inj hparse)).symm

/-- A stream of frames is cut into frames at one place only. -/
theorem wire_cut {ms msgs : List TinyPBProtocol} {rest : Bytes} (hms : ∀ m ∈ ms, RoundTrip m)
    (hmsgs : ∀ m ∈ msgs, RoundTrip m) (h : wire msgs = wire ms ++ rest) :
    ms.map received = (msgs.take ms.length).map received ∧ rest = wire (msgs.drop ms.length) := by
  induction ms generalizing msgs with
  | nil => simpa using h.symm
  | cons m ms ih =>
    have hm := hms m List.mem_cons_self
    rw [wire_cons, List.append_assoc] at h
    cases msgs with
    | nil =>
      have hlen := congrArg List.length h
      rw [List.length_append, hm.block_length] at hlen
      simp only [wire_nil, List.length_nil, frameLen, List.length_append] at hlen
      omega
    | cons m' msgs =>
      rw [wire_cons] at h
      obtain ⟨hreceived, htail⟩ := block_received (hmsgs m' List.mem_cons_self) hm h
      obtain ⟨hih, hrest⟩ := ih (fun x hx => hms x (List.mem_cons_of_mem _ hx))
        (fun x hx => hmsgs x (List.mem_cons_of_mem _ hx)) htail
      simp [hreceived, hih, hrest]

end Coder

open Coder

/-! ## Buffers -/

namespace TcpBuffer

/-- A buffer that can be read into and decoded. -/
structure Ready (b : TcpBuffer) : Prop where
  valid : b.Valid
  int : b.m_buffer.length < 2 ^ 31
  room : b.m_write_index < b.m_buffer.length

theorem moveWriteIndex_room {b b' : TcpBuffer} {size : Nat} (hv : b.Valid)
    (hroom : b.m_write_index + size < b.m_buffer.length)
    (h : b.moveWriteIndex size = some b') : b'.m_write_index < b.m_buffer.length := by
  have hr := hv.read_le
  have hv' : ({ b with m_write_index := b.m_write_index + size } : TcpBuffer).Valid :=
    ⟨by simp only; omega, by simp only; omega⟩
  obtain ⟨b1, hb1, -, hle⟩ := adjustBuffer_spec hv'
  unfold moveWriteIndex at h
  rw [if_neg (by omega)] at h
  have hcast : ((b.m_write_index : Int) + size).toNat = b.m_write_index + size := by omega
  rw [hcast, hb1] at h
  rw [← Option.some.inj h]
  exact Nat.lt_of_le_of_lt hle hroom

theorem Ready.decode {b : TcpBuffer} (h : b.Ready) {ms : List TinyPBProtocol}
    (hms : ∀ m ∈ ms, RoundTrip m) (hread : b.readable = wire ms) {turns : Nat}
    (hturns : ms.length < turns) :
    ∃ b', (Coder.decode turns b).val = some (ms.map received, b') ∧ b'.Ready ∧ b'.readable = [] := by
  have hint := h.int
  have hroom := h.room
  have hwire : b.readable = wire ms ++ [] := by rw [List.append_nil, hread]
  obtain ⟨b', -, h', hle, hdec⟩ := decode_frames h.valid (by omega) hroom hms hwire
  have hempty : b'.m_read_index = b'.m_write_index := by
    have hlen := readable_length h'.valid
    have hr := h'.valid.read_le
    rw [h'.readable_eq, List.length_nil] at hlen
    omega
  have hret : (Coder.decode 1 b').val = some ([], b') := val_bind_of (scan_nil hempty) rfl
  have hlast : (Coder.decode (ms.length + 1) b).val = some (ms.map received, b') := by
    rw [hdec, hret, Option.map_some, List.append_nil]
  obtain ⟨k, rfl⟩ := Nat.exists_eq_add_of_lt hturns
  refine ⟨b', ?_, ⟨h'.valid, ?_, ?_⟩, h'.readable_eq⟩
  · rw [Nat.add_right_comm]
    exact decode_mono hlast k
  · rw [h'.length_eq]
    exact hint
  · rw [h'.length_eq]
    omega

end TcpBuffer

namespace TcpConnection

variable {δ : Type}

/-! ## Reading -/

theorem grow_ready {b b1 : TcpBuffer} (h : b.Ready) (hgrow : grow b = some b1) : b1.Ready := by
  obtain ⟨hv1, hint1, hread1⟩ := grow_keeps h.valid h.int hgrow
  refine ⟨hv1, hint1, ?_⟩
  have hroom := h.room
  obtain ⟨-, rfl⟩ | ⟨-, hholds, hw⟩ := grow_cases h.valid h.int hgrow
  · exact hroom
  · have hlen := TcpBuffer.readable_length h.valid
    rw [hw, hholds.length_eq]
    omega

theorem readLoop_ready {rts : List ReadResult} {b : TcpBuffer} (h : b.Ready)
    (hkeeps : KeepsAll rts b) {out : ReadLoop} (hloop : readLoop rts b = some out) :
    out.buffer.Ready := by
  induction rts generalizing b with
  | nil => exact absurd hkeeps id
  | cons rt rts ih =>
    obtain ⟨b1, hgrow, hkeeps⟩ := hkeeps
    have h1 := grow_ready h hgrow
    unfold readLoop at hloop
    simp only [hgrow, Option.bind_eq_bind, Option.bind_some] at hloop
    cases rt with
    | bytes l =>
      obtain ⟨hne, hl⟩ := hkeeps
      have hroom : b1.m_write_index + l.length < b1.m_buffer.length := by
        unfold TcpBuffer.writeAble at hl
        omega
      obtain ⟨m_buffer, b', hstored, hmove, hholds⟩ := TcpBuffer.store_and_move h1.valid hroom
      simp only [hne, if_false, hstored, Option.bind_some, hmove, hl.ne, Option.pure_def,
        Option.some.injEq] at hloop
      have hlen : m_buffer.length = b1.m_buffer.length := by
        obtain ⟨m_buffer', hstored', hholds'⟩ := TcpBuffer.readable_stored h1.valid hroom.le
        rw [hstored] at hstored'
        rw [Option.some.inj hstored']
        exact hholds'.length_eq
      -- The read has left room, so the move is not refused.
      have hw := TcpBuffer.moveWriteIndex_room (b := { b1 with m_buffer })
        ⟨h1.valid.read_le, by simp only [hlen]; omega⟩ (by simp only [hlen]; omega) hmove
      rw [← hloop]
      refine ⟨hholds.valid, ?_, ?_⟩
      · rw [hholds.length_eq]
        exact h1.int
      · rw [hholds.length_eq, ← hlen]
        exact hw
    | close | again =>
      obtain rfl := Option.some.inj hloop
      exact h1
    | error => exact ih h1 hkeeps hloop

/-- A call of `onRead` that reads whole frames, with enough turns for the decoder. -/
structure ReadsFrames (c : TcpConnection δ) (rts : List ReadResult) (turns : Nat)
    (ms : List TinyPBProtocol) : Prop where
  keeps : KeepsAll rts c.m_in_buffer
  opened : ∀ out, readLoop rts c.m_in_buffer = some out → out.is_close = false
  frames : ∀ out, readLoop rts c.m_in_buffer = some out → out.got = wire ms
  roundTrip : ∀ m ∈ ms, RoundTrip m
  turns : ms.length < turns

theorem ReadsFrames.onRead {c : TcpConnection δ} {rts : List ReadResult} {turns : Nat}
    {ms : List TinyPBProtocol} (h : c.ReadsFrames rts turns ms) (hstate : c.m_state = .Connected)
    (hready : c.m_in_buffer.Ready) (hempty : c.m_in_buffer.readable = []) :
    ∃ b b', c.onRead rts = some ⟨{ c with m_in_buffer := b }, true, wire ms⟩ ∧
      (decode turns b).val = some (ms.map received, b') ∧ b'.Ready ∧ b'.readable = [] := by
  obtain ⟨out, hloop, hhanded⟩ := (intact_iff hready.valid hready.int).mpr h.keeps
  have hopened := h.opened out hloop
  have hgot := h.frames out hloop
  have hread : out.buffer.readable = wire ms := by
    simpa [ReadLoop.handed, hopened, hempty, hgot] using hhanded
  obtain ⟨b', hdec, hready', hempty'⟩ :=
    (readLoop_ready hready h.keeps hloop).decode h.roundTrip hread h.turns
  refine ⟨out.buffer, b', ?_, hdec, hready', hempty'⟩
  unfold TcpConnection.onRead
  simp [hstate, hloop, hopened, hgot]

/-! ## Writing -/

/-- What the socket gets in the loop of `onWrite`. -/
def written (c : TcpConnection δ) : List WriteResult → Bytes
  | [] => []
  | rt :: rts =>
    if c.m_out_buffer.readAble = 0 then []
    else
      c.m_out_buffer.readable.take rt.count ++
        match c.writeTurn rt with
        | some _ => []
        | none => c.written rts

/-- No `write()` takes a part of what it is given. -/
def WritesWhole (c : TcpConnection δ) (rts : List WriteResult) : Prop :=
  ∀ n : Nat, .accepted n ∈ rts → c.m_out_buffer.readAble ≤ n

theorem writesWhole_once {c : TcpConnection δ} {n : Nat} (h : c.m_out_buffer.readAble = n) :
    c.WritesWhole [.accepted n] := by
  intro k hk
  obtain rfl := WriteResult.accepted.inj (List.mem_singleton.mp hk)
  exact h.le

theorem WritesWhole.written_eq {c : TcpConnection δ} {rts : List WriteResult}
    (h : c.WritesWhole rts) (hv : c.m_out_buffer.Valid) {is_all_write : Bool}
    (hloop : c.writeLoop rts = some is_all_write) :
    c.written rts = if is_all_write then c.m_out_buffer.readable else [] := by
  have hlen := TcpBuffer.readAble_eq hv
  have hnil (h0 : c.m_out_buffer.readAble = 0) : c.m_out_buffer.readable = [] := by
    rw [h0] at hlen
    exact List.eq_nil_of_length_eq_zero (by omega)
  induction rts with
  | nil =>
    obtain ⟨h0, h1⟩ := Option.ite_none_right_eq_some.mp hloop
    rw [hnil h0]
    simp [written]
  | cons rt rts ih =>
    unfold writeLoop at hloop
    unfold written
    by_cases h0 : c.m_out_buffer.readAble = 0
    · rw [hnil h0]
      simp [h0]
    rw [if_neg h0] at hloop ⊢
    cases rt with
    | accepted n =>
      have hn := h n List.mem_cons_self
      have hturn : c.writeTurn (.accepted n) = some true := if_pos hn
      rw [hturn] at hloop ⊢
      rw [← Option.some.inj hloop]
      simp only [WriteResult.count, List.append_nil, if_true]
      exact List.take_of_length_le (by omega)
    -- Nothing is accepted, and the loop is left.
    | again =>
      have hturn : c.writeTurn .again = some false := rfl
      rw [hturn] at hloop ⊢
      rw [← Option.some.inj hloop]
      simp [WriteResult.count]
    | error =>
      have hturn : c.writeTurn .error = none := rfl
      rw [hturn] at hloop ⊢
      simpa [WriteResult.count] using ih (fun n hn => h n (List.mem_cons_of_mem _ hn)) hloop

end TcpConnection

end TinyRpc
