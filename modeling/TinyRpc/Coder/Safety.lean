import TinyRpc.Coder.Progress

/-!
# When the decoder stays in range

Four lengths that a peer declares are used as offsets and copy sizes. The
decoder compares some of the offsets with the end of the frame. This module
says which further comparisons would have to hold.
-/

namespace TinyRpc.Coder

open Lib Traced

/-! ## Accesses in range -/

/-- A load stays in the readable region, an `int` does not overflow, a copy
leaves room for the terminator, and a string ends in front of the end marker. -/
def Access.InRange : Access → Prop
  | .load readIndex writeIndex k n => readIndex ≤ k ∧ 0 ≤ n ∧ k + n ≤ writeIndex
  | .int v => -2 ^ 31 ≤ v ∧ v < 2 ^ 31
  | .copy size n => 0 ≤ n ∧ n ≤ size - 1
  | .string k n end_index => 0 ≤ n ∧ k + n ≤ end_index

instance : DecidablePred Access.InRange := fun a => by
  cases a <;> simp only [Access.InRange] <;> infer_instance

def StaysInRange (b : TcpBuffer) : Prop := ∀ turns, All Access.InRange (decode turns b)

/-! ## The condition on the bytes -/

/-- The four length bytes of a marker are readable, its declared end is an
`int`, and an end in front of the write index is not in front of the read index. -/
def SafeMarker (b : TcpBuffer) (i : Nat) : Prop :=
  i + 5 ≤ b.m_write_index ∧ i + declared b i < 2 ^ 31 ∧
    (i + declared b i ≤ b.m_write_index → b.m_read_index < i + declared b i)

/-- The text whose length is at `k` fits an array of `size` bytes, and is readable. -/
def SafeText (b : TcpBuffer) (k : Int) (size : Nat) : Prop :=
  k + 4 ≤ b.m_write_index ∧ 0 ≤ intAt b k ∧ intAt b k ≤ size - 1 ∧
    k + 4 + intAt b k ≤ b.m_write_index

/-- Each field that starts in front of the end marker is safe, and the lengths
leave room for a payload. -/
def SafeFrame (b : TcpBuffer) (f : Frame) : Prop :=
  let id : Int := f.start_index + 1 + 4
  let name := id + 4 + intAt b id
  let code := name + 4 + intAt b name
  let info := code + 4
  f.end_index ≤ id ∨ (SafeText b id 100 ∧
    (f.end_index ≤ name ∨ (SafeText b name 512 ∧
      (f.end_index ≤ code ∨ (code + 4 ≤ b.m_write_index ∧
        (f.end_index ≤ info ∨ (SafeText b info 512 ∧
          26 + intAt b id + intAt b name + intAt b info ≤ f.pk_len)))))))

/-- Each start marker that the scan gets to is safe, and so is each frame that it finds. -/
def Safe (b : TcpBuffer) : Prop :=
  ∀ i, Visited b i → Marker b i → SafeMarker b i ∧ (Framed b i → SafeFrame b (frameAt b i))

/-! ## One access -/

theorem load_in_range {b : TcpBuffer} {k n : Int} :
    All Access.InRange (load b k n) ↔
      b.m_read_index ≤ k ∧ 0 ≤ n ∧ k + n ≤ b.m_write_index := by
  unfold load
  rw [all_event]
  rfl

theorem load_guarded {b : TcpBuffer} (hv : b.Valid) (k n : Int) :
    Guarded Access.InRange (load b k n) := by
  have hw := hv.write_le
  refine guarded_event fun ⟨h1, h2, h3⟩ => ?_
  rw [if_pos (by omega)]
  exact ⟨_, rfl⟩

theorem int_guarded (v : Int) : Guarded Access.InRange (int v) :=
  guarded_event fun h => ⟨v, if_pos h⟩

theorem byteAt_in_range {b : TcpBuffer} {k : Int} :
    All Access.InRange (byteAt b k) ↔ b.m_read_index ≤ k ∧ k + 1 ≤ b.m_write_index := by
  unfold byteAt
  simp only [all_bind, load_in_range, all_pure, implies_true, and_true]
  omega

theorem byteAt_guarded {b : TcpBuffer} (hv : b.Valid) (k : Int) :
    Guarded Access.InRange (byteAt b k) :=
  guarded_bind (load_guarded hv k 1) fun _ => guarded_pure _

theorem getInt32_guarded {b : TcpBuffer} (hv : b.Valid) (k : Int) :
    Guarded Access.InRange (getInt32FromNetByte b k) :=
  guarded_bind (load_guarded hv k 4) fun _ => guarded_pure _

theorem cString_isSome {size : Nat} {bytes : Bytes} (h : bytes.length < size) :
    ∃ text, cString size bytes = some text := by
  have hpad : (0 : Byte) ∈ bytes ++ List.replicate (size - bytes.length) (0 : Byte) := by
    rw [List.mem_append, List.mem_replicate]
    exact Or.inr ⟨by omega, rfl⟩
  exact ⟨_, by rw [cString, if_neg (by omega), if_pos hpad]⟩

theorem copyText_in_range {b : TcpBuffer} (hv : b.Valid) {size : Nat} {k n : Int} :
    All Access.InRange (copyText b size k n) ↔
      (b.m_read_index ≤ k ∧ 0 ≤ n ∧ k + n ≤ b.m_write_index) ∧ n ≤ size - 1 := by
  unfold copyText
  rw [all_bind, load_in_range]
  refine and_congr_right fun h => ?_
  obtain ⟨bytes, hbytes⟩ := load_guarded hv k n (load_in_range.mpr h)
  simp only [hbytes, Option.some.injEq, forall_eq', all_event, Access.InRange]
  omega

theorem copyText_guarded {b : TcpBuffer} (hv : b.Valid) (size : Nat) (k n : Int) :
    Guarded Access.InRange (copyText b size k n) := by
  intro h
  obtain ⟨⟨h1, h2, h3⟩, h4⟩ := (copyText_in_range hv).mp h
  obtain ⟨bytes, hbytes⟩ := load_guarded hv k n (load_in_range.mpr ⟨h1, h2, h3⟩)
  have hlen : bytes.length < size := by
    unfold load at hbytes
    simp only [val_event] at hbytes
    split at hbytes
    · rw [← Option.some.inj hbytes, List.length_take]; omega
    · simp at hbytes
  obtain ⟨text, htext⟩ := cString_isSome hlen
  exact ⟨text, val_bind_of hbytes htext⟩

/-! ## One access, and what comes after it -/

theorem int_bind_in_range {α : Type} {v : Int} {f : Int → Reader α} :
    All Access.InRange (int v >>= f) ↔
      (-2 ^ 31 ≤ v ∧ v < 2 ^ 31) ∧ All Access.InRange (f v) := by
  rw [all_bind, int, all_event]
  refine and_congr_right fun h => ?_
  unfold Access.InRange at h
  simp only [val_event, if_pos h, Option.some.injEq, forall_eq']

theorem getInt32_bind_in_range {α : Type} {b : TcpBuffer} (hv : b.Valid) {k : Int}
    {f : Int → Reader α} :
    All Access.InRange (getInt32FromNetByte b k >>= f) ↔
      (b.m_read_index ≤ k ∧ k + 4 ≤ b.m_write_index) ∧ All Access.InRange (f (intAt b k)) := by
  have hw := hv.write_le
  have hload : All Access.InRange (getInt32FromNetByte b k) ↔
      b.m_read_index ≤ k ∧ k + 4 ≤ b.m_write_index := by
    simp only [getInt32FromNetByte, all_bind, load_in_range, all_pure, implies_true, and_true]
    omega
  rw [all_bind, hload]
  refine and_congr_right fun h => ?_
  rw [getInt32_eq, if_pos (by omega)]
  simp

theorem load_bind_in_range {α : Type} {b : TcpBuffer} (hv : b.Valid) {k n : Int}
    {f : Bytes → Reader α} :
    All Access.InRange (load b k n >>= f) ↔
      (b.m_read_index ≤ k ∧ 0 ≤ n ∧ k + n ≤ b.m_write_index) ∧
        All Access.InRange (f ((load b k n).val.getD [])) := by
  rw [all_bind_guarded (load_guarded hv k n) [], load_in_range]

theorem copyText_bind_in_range {α : Type} {b : TcpBuffer} (hv : b.Valid) {size : Nat} {k n : Int}
    {f : Bytes → Reader α} :
    All Access.InRange (copyText b size k n >>= f) ↔
      ((b.m_read_index ≤ k ∧ 0 ≤ n ∧ k + n ≤ b.m_write_index) ∧ n ≤ size - 1) ∧
        All Access.InRange (f ((copyText b size k n).val.getD [])) := by
  rw [all_bind_guarded (copyText_guarded hv size k n) [], copyText_in_range hv]

theorem string_bind_in_range {α : Type} {k n end_index : Int} {f : Unit → Reader α} :
    All Access.InRange (event (.string k n end_index) (some ()) >>= f) ↔
      (0 ≤ n ∧ k + n ≤ end_index) ∧ All Access.InRange (f ()) := by
  rw [all_bind, all_event]
  exact and_congr_right fun _ => ⟨fun h => h () rfl, fun h _ _ => h⟩

/-! ## The scan -/

theorem scanAt_in_range {b : TcpBuffer} (hv : b.Valid) {i : Nat} (hri : b.m_read_index ≤ i)
    (hiw : i < b.m_write_index) (hint : b.m_write_index < 2 ^ 31) :
    All Access.InRange (scanAt b i) ↔ (Marker b i → SafeMarker b i) := by
  have hw := hv.write_le
  have hbyte : All Access.InRange (byteAt b i) := byteAt_in_range.mpr (by omega)
  have hbounds := intAt_bounds b (i + 1)
  unfold scanAt
  rw [all_bind_guarded (byteAt_guarded hv i) 0]
  simp only [hbyte, true_and, byteAt_eq]
  by_cases hm : Marker b i
  · simp only [hm.1, Option.getD_some, hm.2, and_self, if_true, getInt32_bind_in_range hv,
      int_bind_in_range, all_ite, all_pure, all_bind_guarded (byteAt_guarded hv _) (0 : Byte),
      byteAt_in_range, and_true, implies_true, true_and, hm, true_implies, SafeMarker, declared]
    omega
  · have hc : ¬ ((byte? b i).getD 0 = PB_START ∧ i + 1 < b.m_write_index) := by
      rintro ⟨h1, h2⟩
      refine hm ⟨?_, h2⟩
      cases hb : byte? b i with
      | none => rw [hb] at h1; exact absurd h1 (by decide)
      | some c => rw [hb] at h1; rw [← h1]; rfl
    rw [if_neg hc]
    simp [hm]

theorem scanFrom_in_range {b : TcpBuffer} {i n : Nat} :
    All Access.InRange (scanFrom b i n) ↔
      ∀ k, i ≤ k → k < i + n → (∀ j, i ≤ j → j < k → (scanAt b j).val = some none) →
        All Access.InRange (scanAt b k) := by
  induction n generalizing i with
  | zero => simp only [scanFrom, all_pure, true_iff]; omega
  | succ n ih =>
    unfold scanFrom
    simp only [all_bind]
    constructor
    · rintro ⟨h1, h2⟩ k hik hkn hpass
      rcases Nat.eq_or_lt_of_le hik with rfl | hlt
      · exact h1
      · exact ih.mp (h2 none (hpass i (Nat.le_refl _) hlt)) k hlt (by omega)
          fun j hj hjk => hpass j (by omega) hjk
    · intro h
      refine ⟨h i (Nat.le_refl _) (by omega) fun j _ _ => by omega, fun o ho => ?_⟩
      cases o with
      | some f => simp
      | none =>
        refine ih.mpr fun k hik hkn hpass => h k (by omega) (by omega) fun j hj hjk => ?_
        rcases Nat.eq_or_lt_of_le hj with rfl | hlt
        · exact ho
        · exact hpass j hlt hjk

theorem scan_in_range {b : TcpBuffer} (hv : b.Valid) (hint : b.m_write_index < 2 ^ 31) :
    All Access.InRange (scan b) ↔ ∀ i, Visited b i → Marker b i → SafeMarker b i := by
  have hr := hv.read_le
  unfold scan
  rw [scanFrom_in_range]
  constructor
  · rintro h i ⟨h1, h2, h3⟩
    exact (scanAt_in_range hv h1 h2 hint).mp
      (h i h1 (by omega) fun j hj hji => (scanAt_none_iff hv (by omega)).mpr (h3 j hj hji))
  · intro h i h1 h2 h3
    exact (scanAt_in_range hv h1 (by omega) hint).mpr
      (h i ⟨h1, by omega, fun j hj hji => (scanAt_none_iff hv (by omega)).mp (h3 j hj hji)⟩)

/-! ## The fields -/

theorem parseFrame_in_range {b : TcpBuffer} (hv : b.Valid) (hint : b.m_write_index < 2 ^ 31)
    {f : Frame} (hstart : b.m_read_index ≤ f.start_index)
    (hhead : f.start_index + 5 ≤ b.m_write_index)
    (hend : f.end_index = f.start_index + f.pk_len - 1) (hin : f.end_index < b.m_write_index) :
    All Access.InRange (parseFrame b f) ↔ SafeFrame b f := by
  simp only [parseFrame, int_bind_in_range, all_ite, getInt32_bind_in_range hv,
    copyText_bind_in_range hv, load_bind_in_range hv, string_bind_in_range, all_pure, and_true,
    implies_true, true_and, SafeFrame, SafeText]
  omega

theorem parseFrame_guarded {b : TcpBuffer} (hv : b.Valid) (f : Frame) :
    Guarded Access.InRange (parseFrame b f) := by
  refine guarded_bind (int_guarded _) fun _ => guarded_ite (guarded_pure _) ?_
  refine guarded_bind (getInt32_guarded hv _) fun _ => ?_
  refine guarded_bind (int_guarded _) fun _ => ?_
  refine guarded_bind (copyText_guarded hv _ _ _) fun _ => ?_
  refine guarded_bind (int_guarded _) fun _ => guarded_ite (guarded_pure _) ?_
  refine guarded_bind (getInt32_guarded hv _) fun _ => ?_
  refine guarded_bind (int_guarded _) fun _ => ?_
  refine guarded_bind (copyText_guarded hv _ _ _) fun _ => ?_
  refine guarded_bind (int_guarded _) fun _ => guarded_ite (guarded_pure _) ?_
  refine guarded_bind (load_guarded hv _ _) fun _ => ?_
  refine guarded_bind (int_guarded _) fun _ => guarded_ite (guarded_pure _) ?_
  refine guarded_bind (getInt32_guarded hv _) fun _ => ?_
  refine guarded_bind (int_guarded _) fun _ => ?_
  refine guarded_bind (copyText_guarded hv _ _ _) fun _ => ?_
  refine guarded_bind (int_guarded _) fun _ => ?_
  refine guarded_bind (int_guarded _) fun _ => ?_
  refine guarded_bind (guarded_event fun _ => ⟨_, rfl⟩) fun _ => ?_
  exact guarded_bind (load_guarded hv _ _) fun _ => guarded_pure _

/-! ## The whole loop -/

def TurnInRange (b : TcpBuffer) : Prop :=
  All Access.InRange (scan b) ∧
    ∀ f, (scan b).val = some (some f) → All Access.InRange (parseFrame b f)

theorem turnInRange_iff {b : TcpBuffer} (hv : b.Valid) (hint : b.m_write_index < 2 ^ 31) :
    TurnInRange b ↔ Safe b := by
  have hparse : ∀ i, Visited b i → SafeMarker b i → Framed b i →
      (All Access.InRange (parseFrame b (frameAt b i)) ↔ SafeFrame b (frameAt b i)) := by
    intro i hvis hm hf
    have hend := hf.2.2.1
    exact parseFrame_in_range hv hint hvis.1 hm.1 rfl (by simp only [frameAt]; omega)
  have hscan := scan_in_range hv hint
  constructor
  · rintro ⟨h1, h2⟩ i hvis hm
    have hsafe := hscan.mp h1 i hvis hm
    refine ⟨hsafe, fun hf => (hparse i hvis hsafe hf).mp ?_⟩
    exact h2 _ ((scan_some_iff hv).mpr ⟨i, hvis.1, hvis.2.1, hf, rfl, hvis.2.2⟩)
  · intro h
    refine ⟨hscan.mpr fun i hvis hm => (h i hvis hm).1, fun f hf => ?_⟩
    obtain ⟨i, h1, h2, hframed, rfl, h3⟩ := (scan_some_iff hv).mp hf
    have hvis : Visited b i := ⟨h1, h2, h3⟩
    obtain ⟨hm, hframe⟩ := h i hvis hframed.1
    exact (hparse i hvis hm hframed).mpr (hframe hframed)

theorem decode_in_range_succ {b : TcpBuffer} (hv : b.Valid) {turns : Nat} :
    All Access.InRange (decode (turns + 1) b) ↔
      TurnInRange b ∧ ∀ b', Turn b b' → All Access.InRange (decode turns b') := by
  simp only [decode, all_bind, TurnInRange]
  rw [and_assoc]
  refine and_congr_right fun _ => ?_
  constructor
  · intro h
    constructor
    · intro f hf
      obtain ⟨b', hb'⟩ := turn_exists hv hf
      have := h (some f) hf
      simp only [all_bind, all_ofOption, val_ofOption, true_and] at this
      exact (this b' hb').1
    · rintro b' ⟨f, hf, hmove⟩
      have := h (some f) hf
      simp only [all_bind, all_ofOption, val_ofOption, true_and] at this
      obtain ⟨hparse, hrest⟩ := this b' hmove
      obtain ⟨m, hm⟩ := parseFrame_guarded hv f hparse
      exact (hrest m hm).1
  · rintro ⟨h1, h2⟩ o ho
    cases o with
    | none => simp
    | some f =>
      simp only [all_bind, all_ofOption, val_ofOption, true_and, all_pure, implies_true, and_true]
      exact fun b' hb' => ⟨h1 f ho, fun _ _ => h2 b' ⟨f, ho, hb'⟩⟩

theorem StaysInRange.turn {b b' : TcpBuffer} (hv : b.Valid) (h : StaysInRange b)
    (hturn : Turn b b') : StaysInRange b' := fun turns =>
  ((decode_in_range_succ hv).mp (h (turns + 1))).2 b' hturn

/-- Every access of the decoder is in range, exactly when the lengths in every
buffer that it gets to are safe. -/
theorem staysInRange_iff (b : TcpBuffer) (hv : b.Valid) (hint : b.m_write_index < 2 ^ 31) :
    StaysInRange b ↔ ∀ b', Reached b b' → Safe b' := by
  constructor
  · intro h b' hb'
    have hb : StaysInRange b' ∧ b'.Valid ∧ b'.m_write_index < 2 ^ 31 := by
      induction hb' with
      | refl => exact ⟨h, hv, hint⟩
      | tail _ hturn ih =>
        obtain ⟨h1, h2, h3⟩ := ih
        exact ⟨h1.turn h2 hturn, hturn.valid h2, Nat.lt_of_le_of_lt (hturn.write_le h2) h3⟩
    exact (turnInRange_iff hb.2.1 hb.2.2).mp ((decode_in_range_succ hb.2.1).mp (hb.1 1)).1
  · intro h turns
    induction turns generalizing b with
    | zero => exact all_stop _
    | succ turns ih =>
      refine (decode_in_range_succ hv).mpr ⟨?_, ?_⟩
      · exact (turnInRange_iff hv hint).mpr (h b Relation.ReflTransGen.refl)
      · intro b' hturn
        exact ih b' (hturn.valid hv) (Nat.lt_of_le_of_lt (hturn.write_le hv) hint)
          fun b'' hb'' => h b'' (Relation.ReflTransGen.head hturn hb'')

def overlong : TcpBuffer where
  m_write_index := 11
  m_buffer := [PB_START, 0, 0, 0, 11, 0x7f, 0xff, 0xff, 0xff, 0, PB_END] ++ List.replicate 117 0

theorem overlong_not_in_range :
    overlong.Valid ∧ overlong.m_write_index < 2 ^ 31 ∧ ¬ StaysInRange overlong := by
  refine ⟨by decide +kernel, by decide, fun h => ?_⟩
  have h1 : ∀ e ∈ (decode 1 overlong).log, e.InRange := h 1
  revert h1
  decide +kernel

theorem staysInRange_iff_overlong :
    StaysInRange overlong ↔ ∀ b', Reached overlong b' → Safe b' :=
  staysInRange_iff overlong (by decide +kernel) (by decide)

theorem decode_returns {b : TcpBuffer} (hv : b.Valid) (hend : LoopEnds b) (h : StaysInRange b) :
    ∃ turns r, (decode turns b).val = some r := by
  obtain ⟨b', hreach, hret⟩ := hend.returns
  clear hend
  induction hreach using Relation.ReflTransGen.head_induction_on with
  | refl => exact ⟨1, _, val_bind_of hret rfl⟩
  | head hturn _ ih =>
    obtain ⟨turns, r, hr⟩ := ih (hturn.valid hv) (h.turn hv hturn)
    obtain ⟨f, hf, hmove⟩ := hturn
    obtain ⟨o, ho⟩ := parseFrame_guarded hv f (((decode_in_range_succ hv).mp (h 1)).1.2 f hf)
    refine ⟨turns + 1, (o.toList ++ r.1, r.2), val_bind_of hf ?_⟩
    exact val_bind_of hmove (val_bind_of ho (val_bind_of hr rfl))

end TinyRpc.Coder
