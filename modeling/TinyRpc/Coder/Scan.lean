import TinyRpc.Coder.Reading

/-!
# What the scan finds

The scan of the decoder in terms of the bytes of the vector: which start
markers it passes over, and at which one it stops.
-/

namespace TinyRpc.Coder

open Lib Traced

/-! ## Bytes -/

def intAt (b : TcpBuffer) (k : Int) : Int := bytesInt32 ((b.m_buffer.drop k.toNat).take 4)

theorem intAt_bounds (b : TcpBuffer) (k : Int) : -2 ^ 31 ≤ intAt b k ∧ intAt b k < 2 ^ 31 :=
  bytesInt32_bounds _

def byte? (b : TcpBuffer) (k : Int) : Option Byte :=
  if 0 ≤ k then b.m_buffer[k.toNat]? else none

theorem byteAt_eq (b : TcpBuffer) (k : Int) : (byteAt b k).val = byte? b k := by
  unfold byteAt
  simp only [val_bind, load, val_event, byte?, val_pure]
  by_cases h : 0 ≤ k ∧ (0 : Int) ≤ 1 ∧ k + 1 ≤ b.m_buffer.length
  · have hlt : k.toNat < b.m_buffer.length := by omega
    rw [if_pos h, if_pos h.1, List.getElem?_eq_getElem hlt, List.drop_eq_getElem_cons hlt]
    rfl
  · rw [if_neg h, Option.bind_none]
    split
    · rw [List.getElem?_eq_none (by omega)]
    · rfl

theorem getInt32_eq (b : TcpBuffer) (k : Int) :
    (getInt32FromNetByte b k).val =
      if 0 ≤ k ∧ k + 4 ≤ b.m_buffer.length then some (intAt b k) else none := by
  simp only [getInt32FromNetByte, val_bind, load, val_event, val_pure]
  by_cases h : 0 ≤ k ∧ k + 4 ≤ b.m_buffer.length
  · rw [if_pos h, if_pos ⟨h.1, by decide, h.2⟩]
    rfl
  · rw [if_neg h, if_neg fun h' => h ⟨h'.1, h'.2.2⟩]
    rfl

/-! ## Start markers -/

/-- The length that a start marker at `i` declares. -/
def declared (b : TcpBuffer) (i : Nat) : Int := intAt b (i + 1)

def Marker (b : TcpBuffer) (i : Nat) : Prop := byte? b i = some PB_START ∧ i + 1 < b.m_write_index

/-- The four length bytes are in the vector, and the end that they declare is
an `int` that is not in front of the vector. -/
def Legible (b : TcpBuffer) (i : Nat) : Prop :=
  i + 5 ≤ b.m_buffer.length ∧ i + declared b i < 2 ^ 31 ∧ 0 < i + declared b i

/-- A start marker whose declared end is in front of the write index and is an end marker. -/
def Framed (b : TcpBuffer) (i : Nat) : Prop :=
  Marker b i ∧ Legible b i ∧ i + declared b i ≤ b.m_write_index ∧
    byte? b (i + declared b i - 1) = some PB_END

instance (b : TcpBuffer) (i : Nat) : Decidable (Marker b i) := inferInstanceAs (Decidable (_ ∧ _))
instance (b : TcpBuffer) (i : Nat) : Decidable (Legible b i) :=
  inferInstanceAs (Decidable (_ ∧ _ ∧ _))
instance (b : TcpBuffer) (i : Nat) : Decidable (Framed b i) :=
  inferInstanceAs (Decidable (_ ∧ _ ∧ _ ∧ _))

def frameAt (b : TcpBuffer) (i : Nat) : Frame := ⟨i, i + declared b i - 1, declared b i⟩

@[simp] theorem frameAt_size (b : TcpBuffer) (i : Nat) : (frameAt b i).size = declared b i := by
  unfold Frame.size
  simp only [frameAt]
  omega

/-! ## One turn of the `for` loop -/

theorem scanAt_no_marker {b : TcpBuffer} {i : Nat} (hi : i < b.m_buffer.length)
    (h : ¬ Marker b i) : (scanAt b i).val = some none := by
  obtain ⟨c, hc⟩ : ∃ c, byte? b i = some c :=
    ⟨b.m_buffer[i], by simp [byte?, List.getElem?_eq_getElem hi]⟩
  apply val_bind_of (by rw [byteAt_eq, hc])
  rw [if_neg fun hm => h ⟨by rw [hc, hm.1], hm.2⟩]
  rfl

theorem scanAt_illegible {b : TcpBuffer} {i : Nat} (hm : Marker b i) (hl : ¬ Legible b i) :
    (scanAt b i).val = none := by
  have hw := hm.2
  unfold Legible declared at hl
  unfold scanAt
  rw [val_bind, byteAt_eq, hm.1, Option.bind_some, if_pos ⟨rfl, hm.2⟩, val_bind,
    getInt32_eq]
  by_cases hhead : i + 5 ≤ b.m_buffer.length
  · rw [if_pos (by omega), Option.bind_some, val_bind]
    by_cases hover : -2 ^ 31 ≤ i + intAt b (i + 1) ∧ i + intAt b (i + 1) < 2 ^ 31
    · -- The declared end is in front of the vector.
      rw [int_val hover, Option.bind_some, val_bind]
      by_cases hlow : -2 ^ 31 ≤ i + intAt b (i + 1) - 1
      · rw [int_val (by omega), Option.bind_some, if_neg (by omega), val_bind, byteAt_eq, byte?,
          if_neg (by omega)]
        rfl
      · unfold int
        rw [val_event, if_neg (by omega)]
        rfl
    · unfold int
      rw [val_event, if_neg hover]
      rfl
  · rw [if_neg (by omega)]
    rfl

theorem scanAt_legible {b : TcpBuffer} {i : Nat} (hv : b.Valid) (hm : Marker b i)
    (hl : Legible b i) :
    (scanAt b i).val = some (if Framed b i then some (frameAt b i) else none) := by
  obtain ⟨hhead, hover, hlow⟩ := hl
  have hw := hv.write_le
  apply val_bind_of (by rw [byteAt_eq, hm.1])
  rw [if_pos ⟨rfl, hm.2⟩]
  have hlen : (getInt32FromNetByte b (i + 1)).val = some (declared b i) := by
    rw [getInt32_eq, if_pos (by omega)]
    rfl
  apply val_bind_of hlen
  apply val_bind_of (int_val (by omega))
  apply val_bind_of (int_val (by omega))
  by_cases hend : i + declared b i - 1 ≥ b.m_write_index
  · rw [if_pos hend, if_neg fun hf => by have := hf.2.2.1; omega]
    rfl
  · have hlt : (i + declared b i - 1).toNat < b.m_buffer.length := by omega
    obtain ⟨c, hc⟩ : ∃ c, byte? b (i + declared b i - 1) = some c :=
      ⟨b.m_buffer[(i + declared b i - 1).toNat],
        by rw [byte?, if_pos (by omega), List.getElem?_eq_getElem hlt]⟩
    rw [if_neg hend]
    apply val_bind_of (by rw [byteAt_eq, hc])
    have hiff : Framed b i ↔ c = PB_END := by
      constructor
      · intro hf
        have := hf.2.2.2
        rw [hc] at this
        exact Option.some.inj this
      · rintro rfl
        exact ⟨hm, ⟨hhead, hover, hlow⟩, by omega, hc⟩
    simp only [hiff]
    rfl

def Passes (b : TcpBuffer) (i : Nat) : Prop := Marker b i → Legible b i ∧ ¬ Framed b i

instance (b : TcpBuffer) (i : Nat) : Decidable (Passes b i) :=
  inferInstanceAs (Decidable (_ → _))

theorem scanAt_none_iff {b : TcpBuffer} (hv : b.Valid) {i : Nat} (hi : i < b.m_write_index) :
    (scanAt b i).val = some none ↔ Passes b i := by
  have hw := hv.write_le
  by_cases hm : Marker b i
  · by_cases hl : Legible b i
    · rw [scanAt_legible hv hm hl]
      by_cases hf : Framed b i <;> simp [Passes, hm, hl, hf]
    · simp [scanAt_illegible hm hl, Passes, hm, hl]
  · simp [scanAt_no_marker (by omega) hm, Passes, hm]

theorem scanAt_some_iff {b : TcpBuffer} (hv : b.Valid) {i : Nat} (hi : i < b.m_write_index)
    {f : Frame} : (scanAt b i).val = some (some f) ↔ Framed b i ∧ f = frameAt b i := by
  have hw := hv.write_le
  by_cases hm : Marker b i
  · by_cases hl : Legible b i
    · rw [scanAt_legible hv hm hl]
      by_cases hf : Framed b i <;> simp [hf, eq_comm]
    · simp [scanAt_illegible hm hl, Framed, hl]
  · simp [scanAt_no_marker (by omega) hm, Framed, hm]

/-! ## The whole loop -/

theorem scanFrom_none_iff {b : TcpBuffer} {i n : Nat} :
    (scanFrom b i n).val = some none ↔
      ∀ k, i ≤ k → k < i + n → (scanAt b k).val = some none := by
  induction n generalizing i with
  | zero => simp only [scanFrom, val_pure, true_iff]; omega
  | succ n ih =>
    unfold scanFrom
    simp only [val_bind]
    constructor
    · intro h k hik hkn
      obtain ⟨o, ho, hrest⟩ := Option.bind_eq_some_iff.mp h
      cases o with
      | some f => simp at hrest
      | none =>
        rcases Nat.eq_or_lt_of_le hik with rfl | hlt
        · exact ho
        · exact ih.mp hrest k hlt (by omega)
    · intro h
      rw [h i (Nat.le_refl _) (by omega)]
      exact ih.mpr fun k hik hkn => h k (by omega) (by omega)

theorem scanFrom_some_iff {b : TcpBuffer} {i n : Nat} {f : Frame} :
    (scanFrom b i n).val = some (some f) ↔
      ∃ k, i ≤ k ∧ k < i + n ∧ (scanAt b k).val = some (some f) ∧
        ∀ j, i ≤ j → j < k → (scanAt b j).val = some none := by
  induction n generalizing i with
  | zero =>
    unfold scanFrom
    simp only [val_pure]
    constructor
    · intro h; simp at h
    · rintro ⟨k, h1, h2, _⟩; omega
  | succ n ih =>
    unfold scanFrom
    simp only [val_bind]
    constructor
    · intro h
      obtain ⟨o, ho, hrest⟩ := Option.bind_eq_some_iff.mp h
      cases o with
      | some g =>
        obtain rfl : g = f := by simpa using hrest
        exact ⟨i, Nat.le_refl _, by omega, ho, fun j _ _ => by omega⟩
      | none =>
        obtain ⟨k, h1, h2, h3, h4⟩ := ih.mp hrest
        refine ⟨k, by omega, by omega, h3, fun j hj hjk => ?_⟩
        rcases Nat.eq_or_lt_of_le hj with rfl | hlt
        · exact ho
        · exact h4 j hlt hjk
    · rintro ⟨k, h1, h2, h3, h4⟩
      rcases Nat.eq_or_lt_of_le h1 with rfl | hlt
      · rw [h3]; rfl
      · rw [h4 i (Nat.le_refl _) hlt]
        exact ih.mpr ⟨k, hlt, by omega, h3, fun j hj hjk => h4 j (by omega) hjk⟩

theorem scan_none_iff {b : TcpBuffer} (hv : b.Valid) :
    (scan b).val = some none ↔
      ∀ i, b.m_read_index ≤ i → i < b.m_write_index → Passes b i := by
  have hr := hv.read_le
  unfold scan
  rw [scanFrom_none_iff]
  constructor
  · intro h i hri hiw
    exact (scanAt_none_iff hv hiw).mp (h i hri (by omega))
  · intro h i hri hiw
    exact (scanAt_none_iff hv (by omega)).mpr (h i hri (by omega))

theorem scan_some_iff {b : TcpBuffer} (hv : b.Valid) {f : Frame} :
    (scan b).val = some (some f) ↔
      ∃ i, b.m_read_index ≤ i ∧ i < b.m_write_index ∧ Framed b i ∧ f = frameAt b i ∧
        ∀ k, b.m_read_index ≤ k → k < i → Passes b k := by
  have hr := hv.read_le
  unfold scan
  rw [scanFrom_some_iff]
  constructor
  · rintro ⟨i, h1, h2, h3, h4⟩
    obtain ⟨hf, rfl⟩ := (scanAt_some_iff hv (by omega)).mp h3
    exact ⟨i, h1, by omega, hf, rfl,
      fun k hk hki => (scanAt_none_iff hv (by omega)).mp (h4 k hk hki)⟩
  · rintro ⟨i, h1, h2, hf, rfl, h4⟩
    exact ⟨i, h1, by omega, (scanAt_some_iff hv h2).mpr ⟨hf, rfl⟩,
      fun k hk hki => (scanAt_none_iff hv (by omega)).mpr (h4 k hk hki)⟩

end TinyRpc.Coder
