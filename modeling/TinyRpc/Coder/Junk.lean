import TinyRpc.Coder.ErrorReply

/-!
# Junk in front of the frames

The scan steps over junk, but the read index is moved from where it was. So
each turn leaves as many bytes of its frame unread as there was junk.
-/

namespace TinyRpc.Coder

open Lib Traced

/-- The readable bytes are `g`, and then the frames of the messages. -/
structure AfterJunk (g : Bytes) (ms : List TinyPBProtocol) (b : TcpBuffer) : Prop where
  valid : b.Valid
  int : b.m_write_index < 2 ^ 31
  spare : b.m_write_index < b.m_buffer.length
  readable_eq : b.readable = g ++ wire ms

/-- The decoder returns these messages, each once and in order, and leaves nothing. -/
def Resyncs (ms : List TinyPBProtocol) (b : TcpBuffer) : Prop :=
  ∃ turns out b', (decode turns b).val = some (out, b') ∧
    List.Forall₂ SameOnWire (ms.map fun m => (encodeTinyPB m).msg) out ∧ b'.readAble = 0

/-- A turn takes a frame that gives no message. -/
def Silent (b : TcpBuffer) : Prop :=
  ∃ f, (scan b).val = some (some f) ∧ (parseFrame b f).val = some none

theorem resyncs_without_junk {ms : List TinyPBProtocol} {b : TcpBuffer}
    (h : ∀ m ∈ ms, RoundTrip m) (hb : AfterJunk [] ms b) : Resyncs ms b := by
  obtain ⟨b', hdec, hempty⟩ := decode_wire hb.valid hb.int hb.spare h hb.readable_eq
  refine ⟨ms.length + 1, ms.map received, b', hdec, ?_, hempty⟩
  rw [List.forall₂_map_left_iff, List.forall₂_map_right_iff, List.forall₂_same]
  exact fun m hm => (h m hm).sameOnWire

/-! ## The bytes that the turns take -/

theorem loud_turn {b b' : TcpBuffer} (hv : b.Valid) (hspare : b.m_write_index < b.m_buffer.length)
    {f : Frame} (hscan : (scan b).val = some (some f)) {m : TinyPBProtocol}
    (hparse : (parseFrame b f).val = some (some m)) (hmove : b.moveReadIndex f.size = some b') :
    ∃ n : Nat, m.m_pk_len = n ∧ n ≤ b.readable.length ∧
      TcpBuffer.Holds (b.readable.drop n) b.m_buffer.length b' ∧
      b'.m_write_index ≤ b.m_write_index := by
  obtain ⟨i, h1, h2, hframed, rfl, h3⟩ := (scan_some_iff hv).mp hscan
  obtain ⟨hneeded, hpk⟩ := parseFrame_needed hparse
  have hle := hframed.declared_le ⟨h1, h2, h3⟩
  have hr := hv.read_le
  have hlen := TcpBuffer.readable_length hv
  rw [TcpBuffer.readAble_eq hv] at hle
  rw [frameAt_size] at hmove
  simp only [frameAt] at hneeded hpk
  obtain ⟨n, hn⟩ := Int.eq_ofNat_of_zero_le (show 0 ≤ declared b i by omega)
  rw [hn] at hle hmove hpk
  obtain ⟨b₁, hb₁, hholds, hw⟩ :=
    TcpBuffer.moveReadIndex_spec hv (by omega : n ≤ b.readable.length) (by omega)
  rw [hb₁] at hmove
  cases hmove
  exact ⟨n, hpk, by omega, hholds, hw⟩

theorem decode_pk_len_sum {turns : Nat} {b : TcpBuffer} (hv : b.Valid)
    (hspare : b.m_write_index < b.m_buffer.length) (hloud : ∀ b', Reached b b' → ¬ Silent b')
    {out : List TinyPBProtocol} {b' : TcpBuffer} (h : (decode turns b).val = some (out, b')) :
    (out.map fun m => m.m_pk_len).sum + b'.readAble = b.readAble := by
  induction turns generalizing b out with
  | zero => simp [decode, stop] at h
  | succ turns ih =>
    rcases decode_turn h with ⟨rfl, rfl⟩ | ⟨f, b₁, message, rest, hscan, hmove, hparse, hdec, rfl⟩
    · simp
    · cases message with
      | none => exact absurd ⟨f, hscan, hparse⟩ (hloud b Relation.ReflTransGen.refl)
      | some m =>
        obtain ⟨n, hn, hle, hholds, hw⟩ := loud_turn hv hspare hscan hparse hmove
        have hspare₁ : b₁.m_write_index < b₁.m_buffer.length := by rw [hholds.length_eq]; omega
        have hrest := ih hholds.valid hspare₁
          (fun b' hb' => hloud b' (Relation.ReflTransGen.head ⟨f, hscan, hmove⟩ hb')) hdec
        rw [TcpBuffer.readAble_eq hholds.valid, hholds.readable_eq, List.length_drop] at hrest
        rw [TcpBuffer.readAble_eq hv]
        simp only [Option.toList_some, List.singleton_append, List.map_cons, List.sum_cons, hn]
        omega

theorem wire_length {ms : List TinyPBProtocol} (h : ∀ m ∈ ms, RoundTrip m) :
    (wire ms).length = (ms.map frameLen).sum := by
  induction ms with
  | nil => rfl
  | cons m ms ih =>
    obtain ⟨hm, hms⟩ := List.forall_mem_cons.mp h
    rw [wire_cons, List.length_append, hm.block_length, ih hms, List.map_cons, List.sum_cons]

theorem sameOnWire_pk_len {ms out : List TinyPBProtocol} (h : ∀ m ∈ ms, RoundTrip m)
    (hout : List.Forall₂ SameOnWire (ms.map fun m => (encodeTinyPB m).msg) out) :
    (out.map fun m => m.m_pk_len).sum = (wire ms).length := by
  rw [wire_length h]
  induction ms generalizing out with
  | nil =>
    cases hout
    rfl
  | cons m ms ih =>
    obtain ⟨hm, hms⟩ := List.forall_mem_cons.mp h
    cases hout with
    | cons hsame hrest =>
      rw [List.map_cons, List.sum_cons, ih hms hrest, hsame.pk_len]
      rw [List.map_cons, List.sum_cons, Int.natCast_add, ← hm.len_eq]
      rfl

theorem silent_of_resyncs {g : Bytes} {ms : List TinyPBProtocol} {b : TcpBuffer}
    (h : ∀ m ∈ ms, RoundTrip m) (hb : AfterJunk g ms b) (hsync : Resyncs ms b) :
    g = [] ∨ ∃ b', Reached b b' ∧ Silent b' := by
  by_contra hnot
  obtain ⟨hg, hloud⟩ := not_or.mp hnot
  obtain ⟨turns, out, b', hdec, hsame, hempty⟩ := hsync
  have hsum := decode_pk_len_sum hb.valid hb.spare
    (fun b' hb' hs => hloud ⟨b', hb', hs⟩) hdec
  rw [sameOnWire_pk_len h hsame, hempty, TcpBuffer.readAble_eq hb.valid, hb.readable_eq,
    List.length_append] at hsum
  have := List.length_pos_iff.mpr hg
  omega

/-! ## A message that is always lost or repeated -/

/-- A message whose frame has one byte that can be taken for a start marker. -/
def lone : TinyPBProtocol := { m_msg_id := ascii "1" }

theorem lone_roundTrip : RoundTrip lone := by decide

theorem lone_list : ∀ m ∈ [lone], RoundTrip m := by
  rw [List.forall_mem_singleton]
  exact lone_roundTrip

theorem lone_block : ∃ t, (encodeTinyPB lone).block = PB_START :: t ∧ PB_START ∉ t :=
  ⟨(encodeTinyPB lone).block.tail, by decide, by decide⟩

theorem lone_start {g : Bytes} (hg : PB_START ∉ g) {p : Nat}
    (h : (g ++ (encodeTinyPB lone).block)[p]? = some PB_START) : p = g.length := by
  obtain ⟨t, ht, hnot⟩ := lone_block
  rw [ht] at h
  rcases Nat.lt_trichotomy p g.length with hlt | heq | hgt
  · rw [List.getElem?_append_left hlt] at h
    exact absurd (List.mem_of_getElem? h) hg
  · exact heq
  · rw [List.getElem?_append_right (by omega)] at h
    obtain ⟨j, hj⟩ : ∃ j, p - g.length = j + 1 := ⟨p - g.length - 1, by omega⟩
    rw [hj, List.getElem?_cons_succ] at h
    exact absurd (List.mem_of_getElem? h) hnot

theorem declared_of_holdsAt {b : TcpBuffer} {i n : Nat} (hn : n < 2 ^ 31)
    (h : HoldsAt b (i + 1) (int32Bytes n)) : declared b i = n := by
  unfold declared intAt
  have htake := h.take_eq
  rw [int32Bytes_length] at htake
  rw [show ((i : Int) + 1).toNat = i + 1 by omega, htake,
    bytesInt32_int32Bytes _ (by omega) (by omega)]

theorem lone_found {g : Bytes} (hg : PB_START ∉ g) {b : TcpBuffer} (hv : b.Valid)
    (hint : b.m_write_index < 2 ^ 31) {k : Nat}
    (hread : b.readable = (g ++ (encodeTinyPB lone).block).drop k) {f : Frame}
    (hscan : (scan b).val = some (some f)) :
    (parseFrame b f).val = some (some (received lone)) := by
  obtain ⟨i, h1, h2, hframed, rfl, -⟩ := (scan_some_iff hv).mp hscan
  have hw := hv.write_le
  have hstart : b.readable[i - b.m_read_index]? = some PB_START := by
    have hbyte := hframed.1.1
    unfold byte? at hbyte
    rw [if_pos (by omega), Int.toNat_natCast] at hbyte
    unfold TcpBuffer.readable
    rw [List.getElem?_drop, Nat.add_sub_cancel' h1, List.getElem?_take_of_lt h2, hbyte]
  rw [hread, List.getElem?_drop] at hstart
  -- The junk has no start byte, so the frame is the one of the message.
  have hk := lone_start hg hstart
  have hb := holdsAt_readable hv
  rw [← List.take_append_drop (i - b.m_read_index) b.readable] at hb
  have hblock := (holdsAt_append.mp hb).2
  have hlen := TcpBuffer.readable_length hv
  rw [List.length_take, hlen, Nat.min_eq_left (by omega), Nat.add_sub_cancel' h1, hread,
    List.drop_drop, hk, List.drop_left] at hblock
  have hend := hblock.end_le
  obtain ⟨-, hdeclared, -, -⟩ := holdsAt_fields lone_roundTrip hblock
  have hdecl := declared_of_holdsAt (by decide) hdeclared
  have hin := hframed.2.2.1
  unfold frameAt
  rw [hdecl] at hin ⊢
  exact parseFrame_at lone_roundTrip (by omega) hblock

theorem lone_reached {g : Bytes} (hg : PB_START ∉ g) {b b' : TcpBuffer}
    (hb : AfterJunk g [lone] b) (hreach : Reached b b') :
    b'.Valid ∧ b'.m_write_index < 2 ^ 31 ∧ b'.m_write_index < b'.m_buffer.length ∧
      ∃ k, b'.readable = (g ++ (encodeTinyPB lone).block).drop k := by
  induction hreach with
  | refl =>
    refine ⟨hb.valid, hb.int, hb.spare, 0, ?_⟩
    rw [hb.readable_eq, wire_cons, wire_nil, List.append_nil, List.drop_zero]
  | tail _ hturn ih =>
    obtain ⟨hv, hint, hspare, k, hread⟩ := ih
    obtain ⟨f, hscan, hmove⟩ := hturn
    obtain ⟨n, -, -, hholds, hw⟩ :=
      loud_turn hv hspare hscan (lone_found hg hv hint hread hscan) hmove
    refine ⟨hholds.valid, by omega, by rw [hholds.length_eq]; omega, k + n, ?_⟩
    rw [hholds.readable_eq, hread, List.drop_drop]

theorem lone_not_resyncs {g : Bytes} (hg : PB_START ∉ g) (hne : g ≠ []) {b : TcpBuffer}
    (hb : AfterJunk g [lone] b) : ¬ Resyncs [lone] b := by
  intro hsync
  rcases silent_of_resyncs lone_list hb hsync with hnil | ⟨b', hreach, f, hscan, hsilent⟩
  · exact hne hnil
  · obtain ⟨hv, hint, -, k, hread⟩ := lone_reached hg hb hreach
    rw [lone_found hg hv hint hread hscan] at hsilent
    cases hsilent

theorem holding_afterJunk {g : Bytes} {ms : List TinyPBProtocol}
    (hint : (g ++ wire ms).length < 2 ^ 31) : AfterJunk g ms (holding (g ++ wire ms)) where
  valid := holding_valid _
  int := hint
  spare := by simp [holding]
  readable_eq := holding_readable _

/-! ## Resynchronisation -/

/-- Junk that leaves room for a frame is stepped over, whatever the messages
are, exactly when there is none. For messages that are given it may happen by
chance, when what a turn leaves of its frame looks like a frame with no message. -/
theorem resyncs_iff (g : Bytes) (hg : PB_START ∉ g) (hroom : g.length + 27 < 2 ^ 31) :
    ((∀ ms b, ms ≠ [] → (∀ m ∈ ms, RoundTrip m) → AfterJunk g ms b → Resyncs ms b) ↔ g = []) ∧
    ∀ ms b, ms ≠ [] → (∀ m ∈ ms, RoundTrip m) → AfterJunk g ms b → Resyncs ms b →
      g = [] ∨ ∃ b', Reached b b' ∧ Silent b' := by
  refine ⟨⟨fun h => ?_, ?_⟩, fun ms b _ hms hb hsync => silent_of_resyncs hms hb hsync⟩
  · by_contra hne
    have hint : (g ++ wire [lone]).length < 2 ^ 31 := by
      have hlen : (wire [lone]).length = 27 := by decide
      rw [List.length_append, hlen]
      exact hroom
    have hb := holding_afterJunk hint
    exact lone_not_resyncs hg hne hb (h [lone] _ (List.cons_ne_nil _ _) lone_list hb)
  · rintro rfl ms b - hms hb
    exact resyncs_without_junk hms hb

theorem resyncs_iff_nothing : Resyncs [lone] (holding (wire [lone])) :=
  (resyncs_iff [] (by decide) (by decide)).1.mpr rfl [lone] _ (by decide) lone_list
    (holding_afterJunk (by decide))

/-- Ten bytes of junk, and a frame whose last ten bytes look like a frame. -/
example : (decode 3 (holding (List.replicate 10 0 ++
    wire [{ lone with m_pb_data := [PB_START, 0, 0, 0, 10] }]))).val.map
      (fun r => (r.1.length, r.2.readAble)) = some (1, 0) := by decide +kernel

theorem junk_not_resyncs :
    (decode 2 (holding (0 :: wire [lone]))).val.map (fun r => (r.1, r.2.readAble)) =
      some ([received lone], 1) ∧
    (decode 3 (holding (List.replicate 27 0 ++ wire [lone]))).val.map
      (fun r => (r.1, r.2.readAble)) = some ([received lone, received lone], 0) ∧
    ¬ (∀ g ms b, PB_START ∉ g → ms ≠ [] → (∀ m ∈ ms, RoundTrip m) → AfterJunk g ms b →
      Resyncs ms b) := by
  refine ⟨by decide +kernel, by decide +kernel, fun h => ?_⟩
  have hb : AfterJunk [0] [lone] (holding ([0] ++ wire [lone])) := holding_afterJunk (by decide)
  exact lone_not_resyncs (by decide) (by decide) hb
    (h [0] [lone] _ (by decide) (by decide) lone_list hb)

end TinyRpc.Coder
