import TinyRpc.Coder.Spec

/-!
# The block that the encoder allocates

Size and contents are computed apart. They differ by the error text, which
the size leaves out.
-/

namespace TinyRpc.Coder

open Lib

/-- `pk_len`, before it is stored in an `int`. -/
def allocated (m : TinyPBProtocol) : Nat :=
  26 + (sentId m).length + m.m_method_name.length + m.m_pb_data.length

theorem encodeTinyPB_len (m : TinyPBProtocol) :
    (encodeTinyPB m).len = intOfSize (allocated m) := by
  unfold encodeTinyPB allocated
  simp only

theorem written_length (m : TinyPBProtocol) :
    (encodeTinyPB m).written.length = allocated m + m.m_err_info.length := by
  unfold encodeTinyPB allocated
  simp only [List.length_append, List.length_singleton, int32Bytes_length, wordBytes_length]
  omega

theorem written_last (m : TinyPBProtocol) :
    (encodeTinyPB m).written.getLast? = some PB_END := by
  unfold encodeTinyPB
  exact List.getLast?_concat

theorem intOfSize_bounds (n : Nat) : -2 ^ 31 ≤ intOfSize n ∧ intOfSize n < 2 ^ 31 :=
  ⟨BitVec.le_toInt _, BitVec.toInt_lt⟩

theorem written_stored (m : TinyPBProtocol) :
    bytesInt32 (((encodeTinyPB m).written.drop 1).take 4) = (encodeTinyPB m).len := by
  have hbounds := intOfSize_bounds (allocated m)
  rw [encodeTinyPB_len, ← bytesInt32_int32Bytes _ hbounds.1 hbounds.2, ← encodeTinyPB_len]
  rfl

/-- What is written is the block that is allocated, and the frame says its length. -/
structure Fits (m : TinyPBProtocol) : Prop where
  inside : (encodeTinyPB m).written.length ≤ (encodeTinyPB m).len
  len_eq : (encodeTinyPB m).len = (encodeTinyPB m).written.length
  last : (encodeTinyPB m).written.getLast? = some PB_END
  stored : bytesInt32 (((encodeTinyPB m).written.drop 1).take 4) = (encodeTinyPB m).len

/-- The encoder stays inside its block exactly when there is no error text,
as long as the size fits an `int`. -/
theorem fits_iff (m : TinyPBProtocol) : Fits m ↔ m.m_err_info = [] ∧ allocated m < 2 ^ 31 := by
  have hlen := encodeTinyPB_len m
  have hwritten := written_length m
  constructor
  · intro h
    have heq := h.len_eq
    have hbound := (intOfSize_bounds (allocated m)).2
    rw [hlen, hwritten] at heq
    have hint : allocated m < 2 ^ 31 := by omega
    rw [intOfSize_eq hint] at heq
    exact ⟨List.length_eq_zero_iff.mp (by omega), hint⟩
  · rintro ⟨hinfo, hint⟩
    rw [hinfo, List.length_nil, Nat.add_zero] at hwritten
    have heq : (encodeTinyPB m).len = (encodeTinyPB m).written.length := by
      rw [hlen, hwritten, intOfSize_eq hint]
    exact ⟨by omega, heq, written_last m, written_stored m⟩

theorem errorReply_overruns :
    (encodeTinyPB { m_msg_id := ascii "1", m_err_info := ascii "not found" }).len = 27 ∧
    (encodeTinyPB { m_msg_id := ascii "1", m_err_info := ascii "not found" }).written.length = 36 ∧
    ¬ (∀ m, allocated m + m.m_err_info.length < 2 ^ 31 → Fits m) := by
  refine ⟨by decide, by decide, fun h => ?_⟩
  have hinside := (h { m_msg_id := ascii "1", m_err_info := ascii "not found" } (by decide)).inside
  exact absurd hinside (by decide)

end TinyRpc.Coder
