import Mathlib.Data.List.TakeWhile
import TinyRpc.Coder.Bounds
import TinyRpc.Coder.ErrorReply
import TinyRpc.Coder.Safety

/-!
# Frames that the decoder accepts

The decoder keeps the texts only up to their first zero byte, and the check
sum not at all. A frame that it accepts is the frame of its message when
nothing of this is lost.
-/

namespace TinyRpc.Coder

open Lib Traced

/-! ## A frame as a list of fields -/

/-- The frame of these fields, with the lengths that the fields have. -/
def frameOf (id name code info data sum : Bytes) : Bytes :=
  [PB_START] ++ (int32Bytes (26 + id.length + name.length + info.length + data.length : Nat) ++
    (int32Bytes id.length ++ (id ++ (int32Bytes name.length ++ (name ++ (code ++
      (int32Bytes info.length ++ (info ++ (data ++ (sum ++ [PB_END]))))))))))

/-- The bytes of a text that the decoder keeps. -/
def kept (text : Bytes) : Bytes := text.takeWhile (· ≠ 0)

theorem kept_length_le (text : Bytes) : (kept text).length ≤ text.length :=
  (List.takeWhile_prefix _).length_le

theorem kept_eq_iff {text : Bytes} : kept text = text ↔ (0 : Byte) ∉ text := by
  unfold kept
  rw [List.takeWhile_eq_self_iff]
  constructor
  · intro h h0
    exact of_decide_eq_true (h 0 h0) rfl
  · intro h c hc
    exact decide_eq_true fun h0 => h (h0 ▸ hc)

theorem kept_of_length {text : Bytes} (h : (kept text).length = text.length) :
    kept text = text :=
  (List.takeWhile_prefix _).eq_of_length h

theorem prefix_split {α : Type} {l₁ l₂ t₁ t₂ : List α} (h : l₁ ++ t₁ <+: l₂ ++ t₂)
    (hlen : l₁.length = l₂.length) : l₁ = l₂ ∧ t₁ <+: t₂ := by
  have hl : l₁ = l₂ := by
    have h₁ : l₁ <+: l₂ ++ t₂ := (List.prefix_append _ _).trans h
    exact (List.prefix_of_prefix_length_le h₁ (List.prefix_append _ _) (by omega)).eq_of_length hlen
  subst hl
  exact ⟨rfl, (List.prefix_append_right_inj _).mp h⟩

/-- What a message keeps of these fields. -/
structure KeptFrom (m : TinyPBProtocol) (id name code info data : Bytes) : Prop where
  msg_id : m.m_msg_id = kept id
  method_name : m.m_method_name = kept name
  err_code : m.m_err_code = bytesWord code
  err_info : m.m_err_info = kept info
  pb_data : m.m_pb_data = data

/-- What the decoder does not keep is what the encoder writes. -/
structure Faithful (id name info sum : Bytes) : Prop where
  id_ne : id ≠ []
  id_text : (0 : Byte) ∉ id
  name_text : (0 : Byte) ∉ name
  no_err_info : info = []
  check_sum : sum = int32Bytes 1

theorem kept_of_sentId {m : TinyPBProtocol} {id : Bytes} (hm : m.m_msg_id = kept id)
    (h : id = sentId m) : id ≠ [] ∧ kept id = id := by
  rw [sentId, hm] at h
  by_cases hnil : kept id = []
  · rw [if_pos hnil] at h
    rw [h] at hnil
    exact absurd hnil (by decide)
  · rw [if_neg hnil] at h
    exact ⟨fun h0 => hnil (by rw [h0]; rfl), h.symm⟩

theorem frameOf_eq_block {m : TinyPBProtocol} {id name code info data sum : Bytes}
    (hm : KeptFrom m id name code info data) (hf : Faithful id name info sum)
    (hid : id.length < 100) (hname : name.length < 512) (hcode : code.length = 4)
    (hint : 26 + id.length + name.length + info.length + data.length < 2 ^ 31) :
    frameOf id name code info data sum = (encodeTinyPB m).block := by
  obtain ⟨hne, hidt, hnamet, rfl, rfl⟩ := hf
  have h1 := hm.msg_id
  have h2 := hm.method_name
  have h3 := hm.err_info
  have h4 := hm.pb_data
  rw [kept_eq_iff.mpr hidt] at h1
  rw [kept_eq_iff.mpr hnamet] at h2
  subst h1 h2 h4
  have h : RoundTrip m := ⟨hne, ⟨hid, hidt⟩, ⟨hname, hnamet⟩, h3, hint⟩
  rw [h.block_eq]
  unfold frameOf frameLen body
  rw [hm.err_code, wordBytes_bytesWord hcode, h3]
  simp only [List.length_nil, Nat.add_zero, kept, List.takeWhile_nil, List.append_assoc,
    List.nil_append]

theorem prefix_text {text text' xs ys : Bytes} (hlen : text.length < 2 ^ 31)
    (hlen' : text'.length < 2 ^ 31)
    (h : int32Bytes text.length ++ (text ++ xs) <+:
      int32Bytes (intOfSize text'.length) ++ (text' ++ ys)) :
    text = text' ∧ xs <+: ys := by
  obtain ⟨hsize, h⟩ := prefix_split h rfl
  rw [intOfSize_eq hlen'] at hsize
  have hsize := int32Bytes_inj (by omega) (by omega) hsize
  exact prefix_split h (by omega)

theorem faithful_of_eq_block {m : TinyPBProtocol} {id name code info data sum : Bytes}
    (hm : KeptFrom m id name code info data) (hid : id.length < 100) (hname : name.length < 512)
    (hinfo : info.length < 512) (hcode : code.length = 4) (hsum : sum.length = 4)
    (hint : 26 + id.length + name.length + info.length + data.length < 2 ^ 31)
    (h : frameOf id name code info data sum = (encodeTinyPB m).block) :
    Faithful id name info sum := by
  have hidle := kept_length_le id
  have hnamele := kept_length_le name
  have hinfole := kept_length_le info
  have hsent : (sentId m).length < 100 := by
    unfold sentId
    rw [hm.msg_id]
    split
    · decide
    · omega
  have hpre : frameOf id name code info data sum <+: (encodeTinyPB m).written := by
    rw [h]
    exact List.take_prefix _ _
  unfold frameOf encodeTinyPB at hpre
  simp only [List.append_assoc] at hpre
  obtain ⟨-, hpre⟩ := prefix_split hpre rfl
  obtain ⟨hpk, hpre⟩ := prefix_split hpre rfl
  obtain ⟨hideq, hpre⟩ := prefix_text (by omega) (by omega) hpre
  obtain ⟨hne, hkept⟩ := kept_of_sentId hm.msg_id hideq
  rw [hm.method_name] at hpre
  obtain ⟨hnameeq, hpre⟩ := prefix_text (by omega) (by omega) hpre
  obtain ⟨-, hpre⟩ := prefix_split hpre hcode
  rw [hm.err_info] at hpre
  obtain ⟨-, hpre⟩ := prefix_text (by omega) (by omega) hpre
  -- The encoder leaves the error text out of the length of the frame.
  have hnil : info = [] := by
    rw [← hideq, hm.method_name, hm.pb_data, intOfSize_eq (by omega)] at hpk
    have := int32Bytes_inj (by omega) (by omega) hpk
    exact List.length_eq_zero_iff.mp (by omega)
  rw [hm.pb_data] at hpre
  obtain ⟨-, hpre⟩ := prefix_split hpre rfl
  obtain ⟨hsumeq, -⟩ := prefix_split hpre hsum
  exact ⟨hne, kept_eq_iff.mp hkept, kept_eq_iff.mp hnameeq.symm, hnil, hsumeq⟩

/-! ## The bytes of a frame in the buffer -/

def bytesAt (b : TcpBuffer) (k n : Int) : Bytes := (b.m_buffer.drop k.toNat).take n.toNat

/-- From the start marker to the end marker. -/
def frameBytes (b : TcpBuffer) (f : Frame) : Bytes := bytesAt b f.start_index f.size

theorem bytesAt_congr {b : TcpBuffer} {k k' n n' : Int} (hk : k = k') (hn : n = n') :
    bytesAt b k n = bytesAt b k' n' := by
  rw [hk, hn]

theorem bytesAt_length {b : TcpBuffer} {k n : Nat} (h : k + n ≤ b.m_buffer.length) :
    (bytesAt b k n).length = n := by
  unfold bytesAt
  simp only [Int.toNat_natCast, List.length_take, List.length_drop]
  omega

theorem bytesAt_add (b : TcpBuffer) (k n₁ n₂ : Nat) :
    bytesAt b k (n₁ + n₂ : Nat) = bytesAt b k n₁ ++ bytesAt b (k + n₁ : Nat) n₂ := by
  unfold bytesAt
  simp only [Int.toNat_natCast]
  rw [List.take_add, List.drop_drop]

theorem bytesAt_four {b : TcpBuffer} {k : Nat} (h : k + 4 ≤ b.m_buffer.length) :
    bytesAt b k (4 : Nat) = int32Bytes (intAt b k) := by
  rw [intAt, int32Bytes_bytesInt32]
  · rfl
  · have := bytesAt_length h
    exact this

theorem bytesAt_one {b : TcpBuffer} {k : Nat} {c : Byte} (h : byte? b k = some c) :
    bytesAt b k (1 : Nat) = [c] := by
  unfold byte? at h
  rw [if_pos (by omega), Int.toNat_natCast] at h
  obtain ⟨hk, rfl⟩ := List.getElem?_eq_some_iff.mp h
  unfold bytesAt
  simp only [Int.toNat_natCast]
  rw [List.drop_eq_getElem_cons hk]
  rfl

/-! ## What the accesses give -/

theorem int_gives {v r : Int} (h : Gives Access.InRange (int v) r) : r = v := int_eq h.2

theorem load_gives {b : TcpBuffer} {k n : Int} {l : Bytes}
    (h : Gives Access.InRange (load b k n) l) :
    l = bytesAt b k n ∧ b.m_read_index ≤ k ∧ 0 ≤ n ∧ k + n ≤ b.m_write_index := by
  refine ⟨?_, load_in_range.mp h.1⟩
  have hval := h.2
  unfold load at hval
  rw [val_event, Option.ite_none_right_eq_some, Option.some.injEq] at hval
  exact hval.2.symm

theorem getInt32_gives {b : TcpBuffer} {k r : Int}
    (h : Gives Access.InRange (getInt32FromNetByte b k) r) :
    r = intAt b k ∧ b.m_read_index ≤ k ∧ k + 4 ≤ b.m_write_index := by
  obtain ⟨l, hl, hr⟩ := gives_bind.mp h
  obtain ⟨rfl, h1, -, h2⟩ := load_gives hl
  exact ⟨(gives_pure.mp hr).symm, h1, h2⟩

theorem cString_kept {size : Nat} {bytes text : Bytes} (hlen : bytes.length < size)
    (h : cString size bytes = some text) : text = kept bytes := by
  obtain ⟨t, ht⟩ : ∃ t, List.replicate (size - bytes.length) (0 : Byte) = 0 :: t := by
    obtain ⟨n, hn⟩ : ∃ n, size - bytes.length = n + 1 := ⟨size - bytes.length - 1, by omega⟩
    exact ⟨_, by rw [hn, List.replicate_succ]⟩
  unfold cString at h
  rw [if_neg (by omega)] at h
  simp only [Option.ite_none_right_eq_some, Option.some.injEq, ht] at h
  rw [← h.2, List.takeWhile_append]
  split
  · rename_i hall
    rw [List.takeWhile_cons_of_neg (by simp), List.append_nil]
    exact (kept_of_length hall).symm
  · rfl

theorem copyText_gives {b : TcpBuffer} {size : Nat} {k n : Int} {text : Bytes}
    (h : Gives Access.InRange (copyText b size k n) text) :
    text = kept (bytesAt b k n) ∧ b.m_read_index ≤ k ∧ (0 ≤ n ∧ n < size) ∧
      k + n ≤ b.m_write_index := by
  obtain ⟨l, hl, ht⟩ := gives_bind.mp h
  obtain ⟨hcopy, htext⟩ := gives_event.mp ht
  have hlen := load_length hl.2
  obtain ⟨rfl, h1, h2, h3⟩ := load_gives hl
  unfold Access.InRange at hcopy
  exact ⟨cString_kept (by omega) htext, h1, by omega, h3⟩

/-- The places of the fields of a frame, from the lengths of its texts. -/
structure Fields (b : TcpBuffer) (f : Frame) (m : TinyPBProtocol) (id name info : Nat) : Prop where
  id_len : intAt b (f.start_index + 5 : Nat) = id
  name_len : intAt b (f.start_index + 9 + id : Nat) = name
  info_len : intAt b (f.start_index + 17 + id + name : Nat) = info
  id_lt : id < 100
  name_lt : name < 512
  info_lt : info < 512
  fits : (26 + id + name + info : Nat) ≤ f.pk_len
  kept : KeptFrom m (bytesAt b (f.start_index + 9 : Nat) id)
    (bytesAt b (f.start_index + 13 + id : Nat) name)
    (bytesAt b (f.start_index + 13 + id + name : Nat) (4 : Nat))
    (bytesAt b (f.start_index + 21 + id + name : Nat) info)
    (bytesAt b (f.start_index + 21 + id + name + info : Nat)
      (f.pk_len - (26 + id + name + info : Nat)))

theorem text_gives {α : Type} {b : TcpBuffer} {size : Nat} {k : Int}
    {g : Int → Int → Bytes → Reader α} {r : α}
    (h : Gives Access.InRange (do
      let n ← getInt32FromNetByte b k
      let i ← int (k + 4)
      let text ← copyText b size i n
      g n i text) r) :
    ∃ n : Nat, intAt b k = n ∧ n < size ∧
      Gives Access.InRange (g n (k + 4) (kept (bytesAt b (k + 4) n))) r := by
  obtain ⟨_, hn, h⟩ := gives_bind.mp h
  obtain ⟨rfl, -⟩ := getInt32_gives hn
  obtain ⟨_, hi, h⟩ := gives_bind.mp h
  obtain rfl := int_gives hi
  obtain ⟨_, htext, h⟩ := gives_bind.mp h
  obtain ⟨rfl, -, ⟨hlo, hhi⟩, -⟩ := copyText_gives htext
  obtain ⟨n, hn⟩ := Int.eq_ofNat_of_zero_le hlo
  rw [hn] at h hhi
  exact ⟨n, hn, by omega, h⟩

theorem parseFrame_gives {b : TcpBuffer} {f : Frame} {m : TinyPBProtocol}
    (h : Gives Access.InRange (parseFrame b f) (some m)) :
    ∃ id name info, Fields b f m id name info := by
  unfold parseFrame at h
  obtain ⟨_, hi, h⟩ := gives_bind.mp h
  obtain rfl := int_gives hi
  split at h
  · cases gives_pure.mp h
  obtain ⟨id, hid, hidlt, h⟩ := text_gives h
  obtain ⟨_, hi, h⟩ := gives_bind.mp h
  obtain rfl := int_gives hi
  split at h
  · cases gives_pure.mp h
  obtain ⟨name, hname, hnamelt, h⟩ := text_gives h
  obtain ⟨_, hi, h⟩ := gives_bind.mp h
  obtain rfl := int_gives hi
  split at h
  · cases gives_pure.mp h
  obtain ⟨_, hcode, h⟩ := gives_bind.mp h
  obtain ⟨rfl, -⟩ := load_gives hcode
  obtain ⟨_, hi, h⟩ := gives_bind.mp h
  obtain rfl := int_gives hi
  split at h
  · cases gives_pure.mp h
  obtain ⟨info, hinfo, hinfolt, h⟩ := text_gives h
  obtain ⟨_, hi, h⟩ := gives_bind.mp h
  obtain rfl := int_gives hi
  obtain ⟨_, hi, h⟩ := gives_bind.mp h
  obtain rfl := int_gives hi
  obtain ⟨_, hstring, h⟩ := gives_bind.mp h
  obtain ⟨⟨hlen, -⟩, -⟩ := gives_event.mp hstring
  obtain ⟨_, hdata, h⟩ := gives_bind.mp h
  obtain ⟨rfl, -⟩ := load_gives hdata
  obtain rfl := Option.some.inj (gives_pure.mp h)
  -- The decoder adds the offsets up in another order than `Fields`.
  refine ⟨id, name, info, ?_, ?_, ?_, hidlt, hnamelt, hinfolt, by push_cast; omega, ?_, ?_, ?_,
    ?_, ?_⟩
  · rw [← hid]; congr 1
  · rw [← hname]; congr 1
  · rw [← hinfo]; congr 1; push_cast; omega
  · exact congrArg kept (bytesAt_congr (by push_cast; omega) rfl)
  · exact congrArg kept (bytesAt_congr (by push_cast; omega) rfl)
  · exact congrArg bytesWord (bytesAt_congr (by push_cast; omega) rfl)
  · exact congrArg kept (bytesAt_congr (by push_cast; omega) rfl)
  · exact bytesAt_congr (by push_cast; omega) (by push_cast; omega)

/-! ## Genuine frames -/

/-- The texts have no zero byte, the id is not empty, there is no error text,
and the check sum is the one that the encoder writes. -/
def Genuine (b : TcpBuffer) (f : Frame) : Prop :=
  let id : Int := f.start_index + 1 + 4
  let name := id + 4 + intAt b id
  let info := name + 4 + intAt b name + 4
  (0 < intAt b id ∧ (0 : Byte) ∉ bytesAt b (id + 4) (intAt b id)) ∧
    (0 : Byte) ∉ bytesAt b (name + 4) (intAt b name) ∧ intAt b info = 0 ∧
    intAt b (f.end_index - 4) = 1

instance (b : TcpBuffer) (f : Frame) : Decidable (Genuine b f) :=
  inferInstanceAs (Decidable ((_ ∧ _) ∧ _ ∧ _ ∧ _))

theorem bytesAt_cut {b : TcpBuffer} {k n n₁ : Nat} {l₁ l₂ : Bytes} (hn : n₁ ≤ n)
    (h₁ : bytesAt b k n₁ = l₁) (h₂ : bytesAt b (k + n₁ : Nat) (n - n₁ : Nat) = l₂) :
    bytesAt b k n = l₁ ++ l₂ := by
  rw [← h₁, ← h₂, ← bytesAt_add, Nat.add_sub_cancel' hn]

theorem bytesAt_move {b : TcpBuffer} {k k' n n' : Nat} (hk : k = k') (hn : n = n') :
    bytesAt b k n = bytesAt b k' n' := by
  rw [hk, hn]

theorem frameBytes_eq {b : TcpBuffer} {i id name info data : Nat} {m : TinyPBProtocol}
    (hv : b.Valid) (hframed : Framed b i) (hf : Fields b (frameAt b i) m id name info)
    (hdata : declared b i = (26 + id + name + info + data : Nat)) :
    frameBytes b (frameAt b i) =
      frameOf (bytesAt b (i + 9 : Nat) id) (bytesAt b (i + 13 + id : Nat) name)
        (bytesAt b (i + 13 + id + name : Nat) (4 : Nat))
        (bytesAt b (i + 21 + id + name : Nat) info)
        (bytesAt b (i + 21 + id + name + info : Nat) data)
        (bytesAt b (i + 21 + id + name + info + data : Nat) (4 : Nat)) := by
  obtain ⟨⟨hstart, -⟩, -, hend, hlast⟩ := hframed
  have hw := hv.write_le
  have hi : (frameAt b i).start_index = i := rfl
  rw [hdata] at hend hlast
  rw [show (i + (26 + id + name + info + data : Nat) - 1 : Int) =
    (i + 25 + id + name + info + data : Nat) by omega] at hlast
  have hint (k : Nat) (hk : k + 4 ≤ i + 26 + id + name + info + data) {n : Nat}
      (h : intAt b k = n) : bytesAt b k (4 : Nat) = int32Bytes n := by
    rw [bytesAt_four (by omega), h]
  unfold frameBytes frameOf
  rw [frameAt_size, hdata]
  simp only [frameAt]
  rw [bytesAt_length (by omega), bytesAt_length (by omega), bytesAt_length (by omega),
    bytesAt_length (by omega)]
  -- The parts are cut off one by one from the front of the frame.
  refine bytesAt_cut (by omega) (bytesAt_one hstart) ?_
  refine bytesAt_cut (by omega) (hint _ (by omega) hdata) ?_
  refine bytesAt_cut (by omega) (hint _ (by omega) hf.id_len) ?_
  refine bytesAt_cut (by omega) rfl ?_
  refine bytesAt_cut (by omega) (hint _ (by omega) ?_) ?_
  · rw [← hf.name_len]
    exact congrArg (intAt b) (congrArg _ (by omega))
  refine bytesAt_cut (by omega) (bytesAt_move (by omega) rfl) ?_
  refine bytesAt_cut (by omega) (bytesAt_move (by omega) rfl) ?_
  refine bytesAt_cut (by omega) (hint _ (by omega) ?_) ?_
  · rw [← hf.info_len]
    exact congrArg (intAt b) (congrArg _ (by omega))
  refine bytesAt_cut (by omega) (bytesAt_move (by omega) rfl) ?_
  refine bytesAt_cut (by omega) (bytesAt_move (by omega) rfl) ?_
  refine bytesAt_cut (by omega) (bytesAt_move (by omega) rfl) ?_
  rw [← bytesAt_one hlast]
  exact bytesAt_congr (by omega) (by omega)

/-- The places that `Genuine` names are those of the fields. -/
theorem genuine_iff_faithful {b : TcpBuffer} {i id name info data : Nat} {m : TinyPBProtocol}
    (hv : b.Valid) (hframed : Framed b i) (hf : Fields b (frameAt b i) m id name info)
    (hdata : declared b i = (26 + id + name + info + data : Nat)) :
    Genuine b (frameAt b i) ↔
      Faithful (bytesAt b (i + 9 : Nat) id) (bytesAt b (i + 13 + id : Nat) name)
        (bytesAt b (i + 21 + id + name : Nat) info)
        (bytesAt b (i + 21 + id + name + info + data : Nat) (4 : Nat)) := by
  have hw := hv.write_le
  have hend := hframed.2.2.1
  rw [hdata] at hend
  have hid : intAt b (((frameAt b i).start_index : Int) + 1 + 4) = id := hf.id_len
  have hname : intAt b (((frameAt b i).start_index : Int) + 1 + 4 + 4 + id) = name := by
    rw [← hf.name_len]
    exact congrArg (intAt b) (by push_cast; omega)
  have hinfo : intAt b (((frameAt b i).start_index : Int) + 1 + 4 + 4 + id + 4 + name + 4) =
      info := by
    rw [← hf.info_len]
    exact congrArg (intAt b) (by push_cast; omega)
  have hsum : (frameAt b i).end_index - 4 = (i + 21 + id + name + info + data : Nat) := by
    simp only [frameAt, hdata]
    omega
  have hidbytes : bytesAt b (((frameAt b i).start_index : Int) + 1 + 4 + 4) id =
    bytesAt b (i + 9 : Nat) id := bytesAt_congr (by simp only [frameAt]; omega) rfl
  have hnamebytes : bytesAt b (((frameAt b i).start_index : Int) + 1 + 4 + 4 + id + 4) name =
    bytesAt b (i + 13 + id : Nat) name := bytesAt_congr (by simp only [frameAt]; omega) rfl
  have hidlen : (bytesAt b (i + 9 : Nat) id).length = id := bytesAt_length (by omega)
  have hinfolen : (bytesAt b (i + 21 + id + name : Nat) info).length = info :=
    bytesAt_length (by omega)
  unfold Genuine
  simp only [hid, hname, hinfo, hsum, hidbytes, hnamebytes]
  rw [bytesAt_four (by omega)]
  constructor
  · -- An empty text and a length of zero are the same.
    rintro ⟨⟨h1, h2⟩, h3, h4, h5⟩
    refine ⟨?_, h2, h3, List.length_eq_zero_iff.mp (by omega), by rw [h5]⟩
    intro hnil
    rw [hnil, List.length_nil] at hidlen
    omega
  · rintro ⟨h1, h2, h3, h4, h5⟩
    have hpos := List.length_pos_iff.mpr h1
    rw [h4, List.length_nil] at hinfolen
    refine ⟨⟨by omega, h2⟩, h3, by omega, ?_⟩
    exact int32Bytes_inj (intAt_bounds b _) (by decide) h5

/-- `m` is what a turn of the loop makes of the frame `f` in the buffer that it starts with. -/
structure AppendedFrom (b : TcpBuffer) (m : TinyPBProtocol) (b' : TcpBuffer) (f : Frame) :
    Prop where
  reached : Reached b b'
  found : (scan b').val = some (some f)
  parsed : Gives Access.InRange (parseFrame b' f) (some m)

theorem appended_iff {b b' : TcpBuffer} (hv : b.Valid) {f : Frame} {m : TinyPBProtocol}
    (h : AppendedFrom b m b' f) :
    frameBytes b' f = (encodeTinyPB m).block ↔ Genuine b' f := by
  have hv' := h.reached.valid hv
  have hw := hv'.write_le
  obtain ⟨i, h1, h2, hframed, rfl, h3⟩ := (scan_some_iff hv').mp h.found
  obtain ⟨id, name, info, hf⟩ := parseFrame_gives h.parsed
  have hend := hframed.2.2.1
  have hbound := (intAt_bounds b' (i + 1)).2
  -- What the frame declares beyond its texts is the payload.
  obtain ⟨data, hdata⟩ : ∃ data : Nat, declared b' i = (26 + id + name + info + data : Nat) := by
    have hfits := hf.fits
    simp only [frameAt] at hfits
    exact ⟨(declared b' i - (26 + id + name + info : Nat)).toNat, by omega⟩
  rw [← declared] at hbound
  rw [hdata] at hend hbound
  have hkept := hf.kept
  simp only [frameAt, hdata] at hkept
  rw [show ((26 + id + name + info + data : Nat) : Int) - (26 + id + name + info : Nat) =
    (data : Nat) by omega] at hkept
  have hidlen : (bytesAt b' (i + 9 : Nat) id).length = id := bytesAt_length (by omega)
  have hnamelen : (bytesAt b' (i + 13 + id : Nat) name).length = name := bytesAt_length (by omega)
  have hinfolen : (bytesAt b' (i + 21 + id + name : Nat) info).length = info :=
    bytesAt_length (by omega)
  have hdatalen : (bytesAt b' (i + 21 + id + name + info : Nat) data).length = data :=
    bytesAt_length (by omega)
  have h3 := hf.id_lt
  have h4 := hf.name_lt
  have h5 := hf.info_lt
  rw [frameBytes_eq hv' hframed hf hdata, genuine_iff_faithful hv' hframed hf hdata]
  constructor
  · exact faithful_of_eq_block hkept (by omega) (by omega) (by omega) (bytesAt_length (by omega))
      (bytesAt_length (by omega)) (by omega)
  · intro hfaithful
    exact frameOf_eq_block hkept hfaithful (by omega) (by omega) (bytesAt_length (by omega))
      (by omega)

theorem AppendedFrom.head {b b₁ b' : TcpBuffer} (hturn : Turn b b₁) {f : Frame}
    {m : TinyPBProtocol} (h : AppendedFrom b₁ m b' f) : AppendedFrom b m b' f :=
  ⟨Relation.ReflTransGen.head hturn h.reached, h.found, h.parsed⟩

theorem decode_appended {turns : Nat} {b : TcpBuffer} (hv : b.Valid)
    {r : List TinyPBProtocol × TcpBuffer} (h : Gives Access.InRange (decode turns b) r) :
    ∃ sources, List.Forall₂ (fun m (s : TcpBuffer × Frame) => AppendedFrom b m s.1 s.2)
      r.1 sources := by
  induction turns generalizing b r with
  | zero =>
    obtain ⟨-, hval⟩ := h
    unfold decode at hval
    cases hval
  | succ turns ih =>
    obtain ⟨out, b''⟩ := r
    obtain ⟨hrange, hval⟩ := h
    obtain ⟨hturn, hrest⟩ := (decode_in_range_succ hv).mp hrange
    rcases decode_turn hval with ⟨rfl, -⟩ | ⟨f, b₁, message, rest, hscan, hmove, hparse, hdec, rfl⟩
    · exact ⟨[], List.Forall₂.nil⟩
    · have hb₁ : Turn b b₁ := ⟨f, hscan, hmove⟩
      obtain ⟨sources, hsources⟩ := ih (hb₁.valid hv) ⟨hrest b₁ hb₁, hdec⟩
      replace hsources := hsources.imp fun _ _ h => h.head hb₁
      cases message with
      | none => exact ⟨sources, hsources⟩
      | some m =>
        have hm : AppendedFrom b m b f :=
          ⟨Relation.ReflTransGen.refl, hscan, hturn.2 f hscan, hparse⟩
        exact ⟨(b, f) :: sources, List.Forall₂.cons hm hsources⟩

/-- Each message of a call was read from a frame, and the frame is what the
encoder makes of the message exactly when it is genuine. -/
theorem decoded_genuine_iff (b : TcpBuffer) (hv : b.Valid) :
    (∀ turns r, Gives Access.InRange (decode turns b) r →
      ∃ sources, List.Forall₂ (fun m (s : TcpBuffer × Frame) => AppendedFrom b m s.1 s.2)
        r.1 sources) ∧
    ∀ m b' f, AppendedFrom b m b' f →
      (frameBytes b' f = (encodeTinyPB m).block ↔ Genuine b' f) :=
  ⟨fun _ _ h => decode_appended hv h, fun _ _ _ h => appended_iff hv h⟩

/-- A buffer with one frame: the id `1`, no method name and no data. -/
def signed (check_sum : Int) : TcpBuffer :=
  holding (frameOf (ascii "1") [] (wordBytes 0) [] [] (int32Bytes check_sum))

theorem signed_appended {check_sum : Int}
    (hscan : (scan (signed check_sum)).val = some (some ⟨0, 26, 27⟩))
    (hrange : ∀ e ∈ (parseFrame (signed check_sum) ⟨0, 26, 27⟩).log, e.InRange)
    (hparse : (parseFrame (signed check_sum) ⟨0, 26, 27⟩).val =
      some (some (received { m_msg_id := ascii "1" }))) :
    AppendedFrom (signed check_sum) (received { m_msg_id := ascii "1" }) (signed check_sum)
      ⟨0, 26, 27⟩ :=
  ⟨Relation.ReflTransGen.refl, hscan, hrange, hparse⟩

theorem decoded_genuine_iff_signed :
    frameBytes (signed 1) ⟨0, 26, 27⟩ =
      (encodeTinyPB (received { m_msg_id := ascii "1" })).block :=
  ((decoded_genuine_iff (signed 1) (by decide +kernel)).2 _ _ _
    (signed_appended (by decide +kernel) (by decide +kernel) (by decide +kernel))).mpr
    (by decide +kernel)

theorem unsigned_accepted :
    (decode 2 (signed 0)).val.map Prod.fst = some [received { m_msg_id := ascii "1" }] ∧
    ¬ (∀ b : TcpBuffer, b.Valid → ∀ m b' f, AppendedFrom b m b' f →
      frameBytes b' f = (encodeTinyPB m).block) := by
  refine ⟨by decide +kernel, fun h => ?_⟩
  have heq := h (signed 0) (by decide +kernel) _ _ _
    (signed_appended (by decide +kernel) (by decide +kernel) (by decide +kernel))
  exact absurd heq (by decide +kernel)

end TinyRpc.Coder
