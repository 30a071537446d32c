import TinyRpc.Coder.Spec

/-!
# What the accesses of the decoder return

One lemma for each access, over the bytes that the vector holds at an index.
-/

namespace TinyRpc.Coder

open Lib Traced

/-! ## Bytes at an index -/

/-- The vector holds the bytes `l` from `k` on. -/
def HoldsAt (b : TcpBuffer) (k : Nat) (l : Bytes) : Prop :=
  k ≤ b.m_buffer.length ∧ l <+: b.m_buffer.drop k

theorem HoldsAt.end_le {b : TcpBuffer} {k : Nat} {l : Bytes} (h : HoldsAt b k l) :
    k + l.length ≤ b.m_buffer.length := by
  have hlen := h.2.length_le
  have hk := h.1
  rw [List.length_drop] at hlen
  omega

theorem HoldsAt.take_eq {b : TcpBuffer} {k : Nat} {l : Bytes} (h : HoldsAt b k l) :
    (b.m_buffer.drop k).take l.length = l := by
  exact (List.prefix_iff_eq_take.mp h.2).symm

theorem holdsAt_append {b : TcpBuffer} {k : Nat} {l₁ l₂ : Bytes} :
    HoldsAt b k (l₁ ++ l₂) ↔ HoldsAt b k l₁ ∧ HoldsAt b (k + l₁.length) l₂ := by
  constructor
  · rintro ⟨hk, t, ht⟩
    have hdrop : b.m_buffer.drop (k + l₁.length) = l₂ ++ t := by
      rw [← List.drop_drop, ← ht, List.append_assoc, List.drop_left]
    refine ⟨⟨hk, l₂ ++ t, by rw [← ht, List.append_assoc]⟩, ?_, t, hdrop.symm⟩
    have := congrArg List.length ht
    simp only [List.length_append, List.length_drop] at this
    omega
  · rintro ⟨⟨hk, t, ht⟩, _, t', ht'⟩
    rw [← List.drop_drop, ← ht, List.drop_left] at ht'
    exact ⟨hk, t', by rw [← ht, List.append_assoc, ht']⟩

theorem holdsAt_readable {b : TcpBuffer} (hv : b.Valid) :
    HoldsAt b b.m_read_index b.readable := by
  refine ⟨Nat.le_trans hv.read_le hv.write_le, ?_⟩
  rw [TcpBuffer.drop_read_index hv]
  exact List.prefix_append _ _

/-! ## Accesses -/

theorem int_val {v : Int} (h : -2 ^ 31 ≤ v ∧ v < 2 ^ 31) : (int v).val = some v := by
  unfold int
  rw [val_event, if_pos h]

theorem load_val {b : TcpBuffer} {j : Nat} {l : Bytes} {k n : Int} (h : HoldsAt b j l)
    (hk : k = j) (hn : n = l.length) : (load b k n).val = some l := by
  have hend := h.end_le
  unfold load
  rw [val_event, if_pos (by omega), hk, hn, Int.toNat_natCast, Int.toNat_natCast, h.take_eq]

theorem byteAt_val {b : TcpBuffer} {j : Nat} {c : Byte} {k : Int} (h : HoldsAt b j [c])
    (hk : k = j) : (byteAt b k).val = some c :=
  val_bind_of (load_val h hk rfl) rfl

theorem getInt32_val {b : TcpBuffer} {j : Nat} {v k : Int} (h : HoldsAt b j (int32Bytes v))
    (hk : k = j) (hv : -2 ^ 31 ≤ v ∧ v < 2 ^ 31) :
    (getInt32FromNetByte b k).val = some v := by
  apply val_bind_of (load_val h hk rfl)
  rw [val_pure, bytesInt32_int32Bytes v hv.1 hv.2]

theorem cString_text {size : Nat} {text : Bytes} (hlen : text.length < size)
    (hnul : (0 : Byte) ∉ text) : cString size text = some text := by
  have hpad : (0 : Byte) ∈ List.replicate (size - text.length) (0 : Byte) := by
    rw [List.mem_replicate]
    exact ⟨by omega, rfl⟩
  unfold cString
  rw [if_neg (by omega), if_pos (List.mem_append_right _ hpad)]
  rw [List.takeWhile_append_of_pos (fun c hc => by
    simpa using fun h : c = 0 => hnul (h ▸ hc))]
  obtain ⟨n, hn⟩ : ∃ n, size - text.length = n + 1 := ⟨size - text.length - 1, by omega⟩
  rw [hn, List.replicate_succ, List.takeWhile_cons_of_neg (by simp), List.append_nil]

theorem copyText_val {b : TcpBuffer} {size j : Nat} {text : Bytes} {k n : Int}
    (h : HoldsAt b j text) (hk : k = j) (hn : n = text.length) (hlen : text.length < size)
    (hnul : (0 : Byte) ∉ text) : (copyText b size k n).val = some text :=
  val_bind_of (load_val h hk hn) (cString_text hlen hnul)

/-! ## The scan -/

theorem scanAt_frame {b : TcpBuffer} {i n : Nat} (hstart : HoldsAt b i [PB_START])
    (hlen : HoldsAt b (i + 1) (int32Bytes n)) (hend : HoldsAt b (i + n - 1) [PB_END])
    (hpos : 1 < n) (hin : i + n ≤ b.m_write_index) (hint : b.m_write_index < 2 ^ 31) :
    (scanAt b i).val = some (some ⟨i, i + n - 1, n⟩) := by
  apply val_bind_of (byteAt_val hstart rfl)
  rw [if_pos ⟨rfl, by omega⟩]
  apply val_bind_of (getInt32_val hlen rfl (by omega))
  apply val_bind_of (int_val (by omega))
  apply val_bind_of (int_val (by omega))
  rw [if_neg (by omega)]
  exact val_bind_of (byteAt_val hend (by omega)) rfl

theorem scanFrom_found {b : TcpBuffer} {i n : Nat} {f : Frame}
    (h : (scanAt b i).val = some (some f)) : (scanFrom b i (n + 1)).val = some (some f) :=
  val_bind_of h rfl

theorem scan_frame {b : TcpBuffer} {n : Nat} (hstart : HoldsAt b b.m_read_index [PB_START])
    (hlen : HoldsAt b (b.m_read_index + 1) (int32Bytes n))
    (hend : HoldsAt b (b.m_read_index + n - 1) [PB_END]) (hpos : 1 < n)
    (hin : b.m_read_index + n ≤ b.m_write_index) (hint : b.m_write_index < 2 ^ 31) :
    (scan b).val = some (some ⟨b.m_read_index, b.m_read_index + n - 1, n⟩) := by
  obtain ⟨k, hk⟩ : ∃ k, b.m_write_index - b.m_read_index = k + 1 :=
    ⟨b.m_write_index - b.m_read_index - 1, by omega⟩
  unfold scan
  rw [hk]
  exact scanFrom_found (scanAt_frame hstart hlen hend hpos hin hint)

theorem scan_nil {b : TcpBuffer} (h : b.m_read_index = b.m_write_index) :
    (scan b).val = some none := by
  unfold scan
  rw [h, Nat.sub_self]
  rfl

/-! ## The fields of a frame -/

theorem parseFrame_val {b : TcpBuffer} {s pk : Nat} {id name info data rest : Bytes}
    {code : BitVec 32}
    (h : HoldsAt b (s + 5) (int32Bytes id.length ++ id ++ int32Bytes name.length ++ name ++
      wordBytes code ++ int32Bytes info.length ++ info ++ data ++ rest))
    (hpk : pk = 26 + id.length + name.length + info.length + data.length)
    (hint : s + pk < 2 ^ 31)
    (hid : id.length < 100 ∧ (0 : Byte) ∉ id) (hname : name.length < 512 ∧ (0 : Byte) ∉ name)
    (hinfo : info.length < 512 ∧ (0 : Byte) ∉ info) :
    (parseFrame b ⟨s, s + pk - 1, pk⟩).val = some (some {
      m_msg_id := id
      m_pk_len := pk
      m_msg_id_len := id.length
      m_method_name_len := name.length
      m_method_name := name
      m_err_code := code
      m_err_info_len := info.length
      m_err_info := info
      m_pb_data := data
      parse_success := true }) := by
  simp only [holdsAt_append, List.length_append, int32Bytes_length, wordBytes_length,
    Nat.reducePow] at h hint
  obtain ⟨⟨⟨⟨⟨⟨⟨⟨h1, h2⟩, h3⟩, h4⟩, h5⟩, h6⟩, h7⟩, h8⟩, -⟩ := h
  subst hpk
  unfold parseFrame
  dsimp only
  apply val_bind_of (int_val (by omega))
  rw [if_neg (by omega)]
  apply val_bind_of (getInt32_val h1 (by push_cast; omega) (by omega))
  apply val_bind_of (int_val (by omega))
  apply val_bind_of (copyText_val h2 (by push_cast; omega) rfl hid.1 hid.2)
  apply val_bind_of (int_val (by omega))
  rw [if_neg (by omega)]
  apply val_bind_of (getInt32_val h3 (by push_cast; omega) (by omega))
  apply val_bind_of (int_val (by omega))
  apply val_bind_of (copyText_val h4 (by push_cast; omega) rfl hname.1 hname.2)
  apply val_bind_of (int_val (by omega))
  rw [if_neg (by omega)]
  apply val_bind_of (load_val h5 (by push_cast; omega) rfl)
  apply val_bind_of (int_val (by omega))
  rw [if_neg (by omega)]
  apply val_bind_of (getInt32_val h6 (by push_cast; omega) (by omega))
  apply val_bind_of (int_val (by omega))
  apply val_bind_of (copyText_val h7 (by push_cast; omega) rfl hinfo.1 hinfo.2)
  apply val_bind_of (int_val (by omega))
  apply val_bind_of (int_val (by omega))
  apply val_bind_of rfl
  apply val_bind_of (load_val h8 (by push_cast; omega) (by omega))
  rw [val_pure, bytesWord_wordBytes]

end TinyRpc.Coder
