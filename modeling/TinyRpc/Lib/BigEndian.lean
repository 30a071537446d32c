import Mathlib.Data.Int.ModEq
import Mathlib.Tactic.IntervalCases

/-!
# 32-bit integers in network byte order

Four bytes, the most significant first. Signed integers go through two's
complement.
-/

namespace TinyRpc.Lib

def wordBytes (v : BitVec 32) : List (BitVec 8) :=
  [v.extractLsb' 24 8, v.extractLsb' 16 8, v.extractLsb' 8 8, v.extractLsb' 0 8]

/-- The word of four bytes. Only lists of four bytes matter. -/
def bytesWord : List (BitVec 8) → BitVec 32
  | [a, b, c, d] => a ++ b ++ c ++ d
  | _ => 0

@[simp] theorem wordBytes_length (v : BitVec 32) : (wordBytes v).length = 4 := rfl

@[simp] theorem bytesWord_wordBytes (v : BitVec 32) : bytesWord (wordBytes v) = v := by
  apply BitVec.eq_of_getLsbD_eq
  intro i hi
  unfold wordBytes bytesWord
  simp only [BitVec.getLsbD_append, BitVec.getLsbD_extractLsb']
  interval_cases i <;> simp

theorem wordBytes_bytesWord {l : List (BitVec 8)} (h : l.length = 4) :
    wordBytes (bytesWord l) = l := by
  obtain ⟨a, b, c, d, rfl⟩ : ∃ a b c d, l = [a, b, c, d] := by
    match l, h with
    | [a, b, c, d], _ => exact ⟨a, b, c, d, rfl⟩
  have hbyte (i : Nat) (x : BitVec 8) (hx : ∀ j, j < 8 →
      (a ++ b ++ c ++ d).getLsbD (i + j) = x.getLsbD j) :
      (a ++ b ++ c ++ d).extractLsb' i 8 = x := by
    apply BitVec.eq_of_getLsbD_eq
    intro j hj
    simp only [BitVec.getLsbD_extractLsb', hj, decide_true, Bool.true_and, hx j hj]
  unfold bytesWord wordBytes
  simp only
  rw [hbyte 24 a, hbyte 16 b, hbyte 8 c, hbyte 0 d]
  all_goals
    intro j hj
    simp only [BitVec.getLsbD_append]
    interval_cases j <;> simp

/-! ## Signed integers -/

/-- The bytes of a signed integer. Integers outside 32 bits wrap around. -/
def int32Bytes (n : Int) : List (BitVec 8) := wordBytes (BitVec.ofInt 32 n)

def bytesInt32 (l : List (BitVec 8)) : Int := (bytesWord l).toInt

@[simp] theorem int32Bytes_length (n : Int) : (int32Bytes n).length = 4 := rfl

@[simp] theorem bytesInt32_wordBytes (v : BitVec 32) : bytesInt32 (wordBytes v) = v.toInt := by
  rw [bytesInt32, bytesWord_wordBytes]

theorem bytesInt32_int32Bytes (n : Int) (hlo : -2 ^ 31 ≤ n) (hhi : n < 2 ^ 31) :
    bytesInt32 (int32Bytes n) = n := by
  rw [int32Bytes, bytesInt32_wordBytes, BitVec.toInt_ofInt]
  apply Int.bmod_eq_of_le <;> simp <;> omega

theorem int32Bytes_bytesInt32 {l : List (BitVec 8)} (h : l.length = 4) :
    int32Bytes (bytesInt32 l) = l := by
  rw [int32Bytes, bytesInt32, BitVec.ofInt_toInt, wordBytes_bytesWord h]

theorem int32Bytes_inj {m n : Int} (hm : -2 ^ 31 ≤ m ∧ m < 2 ^ 31) (hn : -2 ^ 31 ≤ n ∧ n < 2 ^ 31)
    (h : int32Bytes m = int32Bytes n) : m = n := by
  rw [← bytesInt32_int32Bytes m hm.1 hm.2, h, bytesInt32_int32Bytes n hn.1 hn.2]

theorem bytesInt32_bounds (l : List (BitVec 8)) :
    -2 ^ 31 ≤ bytesInt32 l ∧ bytesInt32 l < 2 ^ 31 := by
  have h1 := BitVec.le_toInt (bytesWord l)
  have h2 := BitVec.toInt_lt (x := bytesWord l)
  exact ⟨by simpa [bytesInt32] using h1, by simpa [bytesInt32] using h2⟩

end TinyRpc.Lib
