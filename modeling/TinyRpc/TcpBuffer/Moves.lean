import TinyRpc.TcpBuffer

/-!
# Moving an index in place

Both moves ask whether the new index stays below the end of the vector. So
an index never reaches the end, and the read index may pass the write index.
-/

namespace TinyRpc.TcpBuffer

/-- The bytes from the write index on: free space, and what `read()` put there. -/
def spare (b : TcpBuffer) : Bytes := b.m_buffer.drop b.m_write_index

/-- `moveReadIndex` drops `size` readable bytes, or changes nothing if there are fewer. -/
def DropsFront (b : TcpBuffer) (size : Nat) : Prop :=
  if size ≤ b.readable.length then
    ∃ b', b.moveReadIndex size = some b' ∧
      Holds (b.readable.drop size) b.m_buffer.length b'
  else b.moveReadIndex size = some b

/-- `moveWriteIndex` appends `size` spare bytes, or changes nothing if there are fewer. -/
def AppendsSpare (b : TcpBuffer) (size : Nat) : Prop :=
  if size ≤ b.spare.length then
    ∃ b', b.moveWriteIndex size = some b' ∧
      Holds (b.readable ++ b.spare.take size) b.m_buffer.length b'
  else b.moveWriteIndex size = some b

theorem spare_length (b : TcpBuffer) : b.spare.length = b.m_buffer.length - b.m_write_index :=
  List.length_drop

/-! ## The read index -/

theorem rejected_drops {b : TcpBuffer} (hv : b.Valid) {size : Nat}
    (hsize : size ≤ b.readable.length) (hend : b.m_buffer.length ≤ b.m_read_index + size) :
    b.DropsFront size ↔ size = 0 := by
  unfold DropsFront
  rw [if_pos hsize, moveReadIndex_rejected (by omega)]
  constructor
  · rintro ⟨b', hb', h⟩
    cases hb'
    have hlen := congrArg List.length h.readable_eq
    rw [List.length_drop] at hlen
    have hpos : b.m_buffer.length ≤ b.m_read_index + b.readable.length := by omega
    omega
  · rintro rfl
    exact ⟨b, rfl, hv, by rw [List.drop_zero], rfl⟩

theorem adjustBuffer_passed {b : TcpBuffer} (h : b.m_write_index < b.m_read_index) :
    b.adjustBuffer = some b ∨ b.adjustBuffer = none := by
  unfold adjustBuffer
  split
  · exact Or.inl rfl
  · refine Or.inr ?_
    unfold readAble copied
    simp only
    rw [if_neg (by omega)]
    rfl

theorem passed_ne {b : TcpBuffer} (hv : b.Valid) {size : Nat} (hsize : b.readable.length < size)
    (hin : b.m_read_index + size < b.m_buffer.length) : b.moveReadIndex size ≠ some b := by
  have hlen := readable_length hv
  have hr := hv.read_le
  intro h
  unfold moveReadIndex at h
  rw [if_neg (by omega)] at h
  rcases adjustBuffer_passed (b := { b with m_read_index := (b.m_read_index + size : Int).toNat })
    (by simp only; omega) with hmoved | hnone
  · rw [hmoved] at h
    have hindex := congrArg m_read_index (Option.some.inj h)
    simp only at hindex
    omega
  · rw [hnone] at h
    cases h

theorem drops_front_iff {b : TcpBuffer} (hv : b.Valid) (size : Nat) :
    b.DropsFront size ↔
      (size = 0 ∨ (size ≤ b.readable.length ↔ b.m_read_index + size < b.m_buffer.length)) := by
  have hlen := readable_length hv
  have hr := hv.read_le
  have hw := hv.write_le
  rcases Nat.lt_or_ge (b.m_read_index + size) b.m_buffer.length with hin | hend
  · by_cases hsize : size ≤ b.readable.length
    · obtain ⟨b', hb', h, -⟩ := moveReadIndex_spec hv hsize hin
      unfold DropsFront
      rw [if_pos hsize]
      exact iff_of_true ⟨b', hb', h⟩ (Or.inr (iff_of_true hsize hin))
    · unfold DropsFront
      rw [if_neg hsize]
      exact iff_of_false (passed_ne hv (by omega) hin) (by omega)
  · by_cases hsize : size ≤ b.readable.length
    · rw [rejected_drops hv hsize hend]
      omega
    · unfold DropsFront
      rw [if_neg hsize]
      exact iff_of_true (moveReadIndex_rejected (by omega)) (by omega)

/-! ## The write index -/

theorem moveWriteIndex_spec {b : TcpBuffer} (hv : b.Valid) {size : Nat}
    (hin : b.m_write_index + size < b.m_buffer.length) :
    ∃ b', b.moveWriteIndex size = some b' ∧
      Holds (b.readable ++ b.spare.take size) b.m_buffer.length b' := by
  have hr := hv.read_le
  have hv' : ({ b with m_write_index := b.m_write_index + size : TcpBuffer }).Valid :=
    ⟨by simp only; omega, by simp only; omega⟩
  obtain ⟨b', hb', h, -⟩ := adjustBuffer_spec hv'
  refine ⟨b', ?_, h.valid, ?_, h.length_eq⟩
  · unfold moveWriteIndex
    rw [if_neg (by omega), ← hb']
    congr 1
  · rw [h.readable_eq]
    unfold readable spare
    rw [List.take_add, List.drop_append_of_le_length (by simp only [List.length_take]; omega)]

theorem appends_spare_iff {b : TcpBuffer} (hv : b.Valid) (size : Nat) :
    b.AppendsSpare size ↔ size = 0 ∨ b.m_write_index + size ≠ b.m_buffer.length := by
  have hw := hv.write_le
  have hlen := b.spare_length
  unfold AppendsSpare
  split
  case isTrue hsize =>
    rcases Nat.lt_or_ge (b.m_write_index + size) b.m_buffer.length with hin | hend
    · exact iff_of_true (moveWriteIndex_spec hv hin) (by omega)
    · rw [moveWriteIndex_rejected hend]
      constructor
      · rintro ⟨b', hb', h⟩
        cases hb'
        have hlen' := congrArg List.length h.readable_eq
        rw [List.length_append, List.length_take] at hlen'
        omega
      · intro h
        obtain rfl : size = 0 := by omega
        exact ⟨b, rfl, hv, by rw [List.take_zero, List.append_nil], rfl⟩
  case isFalse hsize =>
    exact iff_of_true (moveWriteIndex_rejected (by omega)) (by omega)

/-! ## Both -/

/-- The read index moves as it should unless it would reach the end of the
vector, or pass the write index and stay inside the vector; the write index
unless it would reach the end. -/
theorem moves_iff {b : TcpBuffer} (hv : b.Valid) (size : Nat) :
    (b.DropsFront size ↔
      (size = 0 ∨ (size ≤ b.readable.length ↔ b.m_read_index + size < b.m_buffer.length))) ∧
    (b.AppendsSpare size ↔ size = 0 ∨ b.m_write_index + size ≠ b.m_buffer.length) :=
  ⟨drops_front_iff hv size, appends_spare_iff hv size⟩

theorem moves_iff_inside :
    DropsFront ⟨0, 3, [1, 2, 3, 4, 5]⟩ 2 ∧ AppendsSpare ⟨0, 3, [1, 2, 3, 4, 5]⟩ 1 :=
  ⟨(moves_iff (by decide) 2).1.mpr (by decide), (moves_iff (by decide) 1).2.mpr (by decide)⟩

/-- A frame that ends where the vector ends is not dropped, a read that fills
the vector is not appended, and a size in between moves the read index past
the write index. -/
theorem moves_at_end :
    moveReadIndex ⟨1, 3, [1, 2, 3]⟩ 2 = some ⟨1, 3, [1, 2, 3]⟩ ∧
    moveWriteIndex ⟨0, 1, [1, 2, 3]⟩ 2 = some ⟨0, 1, [1, 2, 3]⟩ ∧
    moveReadIndex ⟨0, 1, [1, 2, 3, 4, 5, 6, 7, 8, 9]⟩ 2 =
      some ⟨2, 1, [1, 2, 3, 4, 5, 6, 7, 8, 9]⟩ ∧
    ¬ (∀ (b : TcpBuffer) (size : Nat), b.Valid → b.DropsFront size ∧ b.AppendsSpare size) := by
  refine ⟨by decide, by decide, by decide, fun h => ?_⟩
  obtain ⟨hdrops, -⟩ := h ⟨1, 3, [1, 2, 3]⟩ 2 (by decide)
  obtain ⟨b', hb', hholds⟩ := (if_pos (by decide)).mp hdrops
  cases hb'
  exact absurd hholds.readable_eq (by decide)

end TinyRpc.TcpBuffer
