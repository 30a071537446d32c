import Mathlib.Logic.Relation
import TinyRpc.Coder.Scan

/-!
# When the decoder returns

The `while(1)` loop has no measure of its own: it ends only if the read index
really moves. That depends on the length that a peer declares, on where the
frame lies in the vector, and on the test that `moveReadIndex` makes.
-/

namespace TinyRpc.Coder

open Lib Traced

/-! ## The loop -/

def Returns (b : TcpBuffer) : Prop := (scan b).val = some none

/-- A turn that goes on. What `parseFrame` does to its frame changes no buffer. -/
def Turn (b b' : TcpBuffer) : Prop :=
  ∃ f, (scan b).val = some (some f) ∧ b.moveReadIndex f.size = some b'

abbrev Reached : TcpBuffer → TcpBuffer → Prop := Relation.ReflTransGen Turn

/-- A turn returns, or leaves fewer readable bytes than there were. -/
def Shrinks (b : TcpBuffer) : Prop :=
  Returns b ∨ ∃ b', Turn b b' ∧ b'.readAble < b.readAble

/-- The loop ends, and every turn that does not return shortens the readable region. -/
structure LoopEnds (b : TcpBuffer) : Prop where
  returns : ∃ b', Reached b b' ∧ Returns b'
  shrinks : ∀ b', Reached b b' → Shrinks b'

/-! ## The condition on the bytes -/

/-- The scan gets to `i`: it passes over every position in front of it. -/
def Visited (b : TcpBuffer) (i : Nat) : Prop :=
  b.m_read_index ≤ i ∧ i < b.m_write_index ∧ ∀ k, b.m_read_index ≤ k → k < i → Passes b k

/-- At each start marker that the scan gets to, it can look at the declared
end. If it finds an end marker there, the declared length is positive, and
less than what the vector holds from the read index on. -/
def Advances (b : TcpBuffer) : Prop :=
  ∀ i, Visited b i → Marker b i → Legible b i ∧
    (Framed b i → 0 < declared b i ∧ b.m_read_index + declared b i < b.m_buffer.length)

/-! ## One turn -/

theorem turn_iff {b b' : TcpBuffer} (hv : b.Valid) :
    Turn b b' ↔ ∃ i, Visited b i ∧ Framed b i ∧ b.moveReadIndex (declared b i) = some b' := by
  constructor
  · rintro ⟨f, hf, hmove⟩
    obtain ⟨i, h1, h2, hframed, rfl, h3⟩ := (scan_some_iff hv).mp hf
    exact ⟨i, ⟨h1, h2, h3⟩, hframed, by rwa [frameAt_size] at hmove⟩
  · rintro ⟨i, ⟨h1, h2, h3⟩, hframed, hmove⟩
    exact ⟨frameAt b i, (scan_some_iff hv).mpr ⟨i, h1, h2, hframed, rfl, h3⟩,
      by rwa [frameAt_size]⟩

theorem Framed.declared_le {b : TcpBuffer} {i : Nat} (hv : Visited b i) (h : Framed b i) :
    declared b i ≤ b.readAble := by
  have h1 := hv.1
  have h2 := h.2.2.1
  unfold TcpBuffer.readAble
  omega

theorem Framed.move {b : TcpBuffer} (hv : b.Valid) {i : Nat} (hvis : Visited b i)
    (h : Framed b i) :
    ∃ b', b.moveReadIndex (declared b i) = some b' ∧ b'.Valid ∧
      b'.m_write_index ≤ b.m_write_index := by
  by_cases hout : b.m_read_index + declared b i < 0 ∨
      b.m_buffer.length ≤ b.m_read_index + declared b i
  · exact ⟨b, TcpBuffer.moveReadIndex_rejected hout, hv, Nat.le_refl _⟩
  · obtain ⟨b', hb', hv', -, hw'⟩ := TcpBuffer.moveReadIndex_moved hv (by omega) (by omega)
      (h.declared_le hvis)
    exact ⟨b', hb', hv', hw'⟩

theorem turn_exists {b : TcpBuffer} (hv : b.Valid) {f : Frame}
    (hf : (scan b).val = some (some f)) : ∃ b', b.moveReadIndex f.size = some b' := by
  obtain ⟨i, h1, h2, hframed, rfl, h3⟩ := (scan_some_iff hv).mp hf
  obtain ⟨b', hb', -⟩ := hframed.move hv ⟨h1, h2, h3⟩
  exact ⟨b', by rw [frameAt_size, hb']⟩

theorem Turn.valid_and_write_le {b b' : TcpBuffer} (hv : b.Valid) (h : Turn b b') :
    b'.Valid ∧ b'.m_write_index ≤ b.m_write_index := by
  obtain ⟨i, hvis, hframed, hmove⟩ := (turn_iff hv).mp h
  obtain ⟨b1, hb1, hv1, hw1⟩ := hframed.move hv hvis
  obtain rfl : b1 = b' := Option.some.inj (hb1.symm.trans hmove)
  exact ⟨hv1, hw1⟩

theorem Turn.valid {b b' : TcpBuffer} (hv : b.Valid) (h : Turn b b') : b'.Valid :=
  (h.valid_and_write_le hv).1

theorem Turn.write_le {b b' : TcpBuffer} (hv : b.Valid) (h : Turn b b') :
    b'.m_write_index ≤ b.m_write_index :=
  (h.valid_and_write_le hv).2

theorem Reached.valid {b b' : TcpBuffer} (hv : b.Valid) (h : Reached b b') : b'.Valid := by
  induction h with
  | refl => exact hv
  | tail _ hturn ih => exact hturn.valid ih

theorem passes_or_visited (b : TcpBuffer) :
    (∀ i, b.m_read_index ≤ i → i < b.m_write_index → Passes b i) ∨
      ∃ i, Visited b i ∧ ¬ Passes b i := by
  by_cases h : ∃ i, b.m_read_index ≤ i ∧ i < b.m_write_index ∧ ¬ Passes b i
  · right
    obtain ⟨h1, h2, h3⟩ := Nat.find_spec h
    refine ⟨Nat.find h, ⟨h1, h2, fun k hk hlt => ?_⟩, h3⟩
    by_contra hp
    exact Nat.find_min h hlt ⟨hk, by omega, hp⟩
  · left
    intro i h1 h2
    by_contra hp
    exact h ⟨i, h1, h2, hp⟩

theorem shrinks_iff {b : TcpBuffer} (hv : b.Valid) : Shrinks b ↔ Advances b := by
  constructor
  · rintro (hret | ⟨b', hturn, hless⟩) i hvis hm
    · obtain ⟨hl, hf⟩ := (scan_none_iff hv).mp hret i hvis.1 hvis.2.1 hm
      exact ⟨hl, fun h => absurd h hf⟩
    · obtain ⟨j, hj, hframed, hmove⟩ := (turn_iff hv).mp hturn
      rcases Nat.lt_trichotomy i j with h | rfl | h
      · obtain ⟨hl, hf⟩ := hj.2.2 i hvis.1 h hm
        exact ⟨hl, fun h => absurd h hf⟩
      · refine ⟨hframed.2.1, fun _ => ?_⟩
        by_cases hout : b.m_read_index + declared b i < 0 ∨
            b.m_buffer.length ≤ b.m_read_index + declared b i
        · -- `moveReadIndex` refused the move.
          rw [TcpBuffer.moveReadIndex_rejected hout] at hmove
          rw [← Option.some.inj hmove] at hless
          omega
        · obtain ⟨b1, hb1, -, hread, -⟩ := TcpBuffer.moveReadIndex_moved hv (by omega) (by omega)
            (hframed.declared_le hj)
          rw [hb1] at hmove
          rw [← Option.some.inj hmove, hread] at hless
          omega
      · exact absurd hframed (hvis.2.2 j hj.1 h hframed.1).2
  · intro h
    rcases passes_or_visited b with hpass | ⟨i, hvis, hp⟩
    · exact Or.inl ((scan_none_iff hv).mpr hpass)
    · right
      have hm : Marker b i := by
        by_contra hm
        exact hp fun h => absurd h hm
      obtain ⟨hl, hadv⟩ := h i hvis hm
      have hframed : Framed b i := by
        by_contra hf
        exact hp fun _ => ⟨hl, hf⟩
      obtain ⟨hpos, hin⟩ := hadv hframed
      obtain ⟨b', hb', -, hread, -⟩ := TcpBuffer.moveReadIndex_moved hv (by omega) hin
        (hframed.declared_le hvis)
      exact ⟨b', (turn_iff hv).mpr ⟨i, hvis, hframed, hb'⟩, by omega⟩

/-! ## The whole loop -/

theorem returns_of_shrinks {b : TcpBuffer} (hv : b.Valid)
    (h : ∀ b', Reached b b' → Shrinks b') : ∃ b', Reached b b' ∧ Returns b' := by
  obtain ⟨n, hn⟩ : ∃ n : Nat, b.readAble = n := ⟨_, TcpBuffer.readAble_eq hv⟩
  induction n using Nat.strong_induction_on generalizing b with
  | _ n ih =>
    rcases h b Relation.ReflTransGen.refl with hret | ⟨b1, hturn, hless⟩
    · exact ⟨b, Relation.ReflTransGen.refl, hret⟩
    · have hv1 := hturn.valid hv
      have hlen := TcpBuffer.readAble_eq hv1
      obtain ⟨b', hb', hret⟩ := ih b1.readable.length (by omega) hv1
        (fun b' hb' => h b' (Relation.ReflTransGen.head hturn hb')) hlen
      exact ⟨b', Relation.ReflTransGen.head hturn hb', hret⟩

/-- The loop ends with every turn shortening the readable region, exactly when
the bytes of every buffer it gets to let it. -/
theorem loopEnds_iff (b : TcpBuffer) (hv : b.Valid) :
    LoopEnds b ↔ ∀ b', Reached b b' → Advances b' := by
  constructor
  · intro h b' hb'
    exact (shrinks_iff (hb'.valid hv)).mp (h.shrinks b' hb')
  · intro h
    have hs : ∀ b', Reached b b' → Shrinks b' := fun b' hb' =>
      (shrinks_iff (hb'.valid hv)).mpr (h b' hb')
    exact ⟨returns_of_shrinks hv hs, hs⟩

def spinning : TcpBuffer where
  m_write_index := 6
  m_buffer := [PB_END, PB_START, 0, 0, 0, 0] ++ List.replicate 122 0

theorem spinning_scan : (scan spinning).val = some (some ⟨1, 0, 0⟩) := by decide +kernel

theorem spinning_move : spinning.moveReadIndex (Frame.size ⟨1, 0, 0⟩) = some spinning := by
  decide +kernel

theorem spinning_not_ends :
    spinning.Valid ∧ ¬ LoopEnds spinning ∧ ∀ turns, (decode turns spinning).val = none := by
  refine ⟨by decide +kernel, ?_, ?_⟩
  · intro h
    rcases h.shrinks spinning Relation.ReflTransGen.refl with hret | ⟨b', ⟨f, hf, hmove⟩, hless⟩
    · rw [Returns, spinning_scan] at hret
      cases hret
    · rw [spinning_scan] at hf
      cases hf
      rw [spinning_move] at hmove
      rw [Option.some.inj hmove] at hless
      omega
  · intro turns
    induction turns with
    | zero => rfl
    | succ turns ih =>
      simp only [decode, val_bind, spinning_scan, spinning_move, Option.bind_some, val_ofOption, ih,
        Option.bind_none, Option.bind_fun_none]

theorem loopEnds_iff_spinning :
    LoopEnds spinning ↔ ∀ b', Reached spinning b' → Advances b' :=
  loopEnds_iff spinning (by decide +kernel)

end TinyRpc.Coder
