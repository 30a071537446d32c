import Mathlib.Data.List.Induction
import Mathlib.Tactic.Common
import Mathlib.Tactic.Ring

/-!
# Decimal numerals as bytes

The value of a string of digits, and the numeral of a number.
-/

namespace TinyRpc.Lib.Decimal

def zero : BitVec 8 := 48
def nine : BitVec 8 := 57

def IsDigit (b : BitVec 8) : Prop := 48 ≤ b.toNat ∧ b.toNat ≤ 57

instance (b : BitVec 8) : Decidable (IsDigit b) := inferInstanceAs (Decidable (_ ∧ _))

def digit (b : BitVec 8) : Nat := b.toNat - 48

def value (l : List (BitVec 8)) : Nat := l.foldl (fun v b => 10 * v + digit b) 0

@[simp] theorem digit_zero : digit zero = 0 := rfl
@[simp] theorem digit_nine : digit nine = 9 := rfl

theorem isDigit_zero : IsDigit zero := by decide

theorem value_append_one (l : List (BitVec 8)) (b : BitVec 8) :
    value (l ++ [b]) = 10 * value l + digit b := by
  unfold value
  rw [List.foldl_append, List.foldl_cons, List.foldl_nil]

theorem value_append (l m : List (BitVec 8)) :
    value (l ++ m) = value l * 10 ^ m.length + value m := by
  induction m using List.reverseRecOn with
  | nil => simp [value]
  | append_singleton m b ih =>
    rw [← List.append_assoc, value_append_one, value_append_one, ih, List.length_append,
      List.length_singleton, Nat.pow_succ]
    ring

theorem value_append_cons (l : List (BitVec 8)) (b : BitVec 8) (m : List (BitVec 8)) :
    value (l ++ b :: m) = (10 * value l + digit b) * 10 ^ m.length + value m := by
  rw [List.append_cons, value_append, value_append_one]

theorem value_replicate_zero (n : Nat) : value (List.replicate n zero) = 0 := by
  induction n with
  | zero => rfl
  | succ n ih =>
    rw [List.replicate_succ', value_append_one, ih]
    rfl

theorem value_replicate_nine (n : Nat) : value (List.replicate n nine) + 1 = 10 ^ n := by
  induction n with
  | zero => rfl
  | succ n ih =>
    rw [List.replicate_succ', value_append_one, Nat.pow_succ, ← ih]
    simp only [digit_nine]
    omega

/-! ## The numeral of a number -/

/-- `std::to_string`. -/
def numeral (n : Nat) : List (BitVec 8) := (toString n).toList.map fun c => BitVec.ofNat 8 c.toNat

theorem toNat_ofNat_of_isDigit {c : Char} (h : c.isDigit) :
    (BitVec.ofNat 8 c.toNat).toNat = c.toNat ∧ 48 ≤ c.toNat ∧ c.toNat ≤ 57 := by
  have hc : 48 ≤ c.toNat ∧ c.toNat ≤ 57 := by
    simp only [Char.isDigit, Bool.and_eq_true, decide_eq_true_eq] at h
    exact ⟨h.1, h.2⟩
  rw [BitVec.toNat_ofNat]
  exact ⟨Nat.mod_eq_of_lt (by omega), hc⟩

theorem numeral_eq (n : Nat) :
    numeral n = (Nat.toDigits 10 n).map fun c => BitVec.ofNat 8 c.toNat := by
  unfold numeral
  rw [Nat.toString_eq_ofList_toDigits, String.toList_ofList]

theorem isDigit_numeral {n : Nat} {b : BitVec 8} (h : b ∈ numeral n) : IsDigit b := by
  rw [numeral_eq] at h
  obtain ⟨c, hc, rfl⟩ := List.mem_map.mp h
  obtain ⟨hb, hlo, hhi⟩ := toNat_ofNat_of_isDigit
    (Nat.isDigit_of_mem_toDigits (by decide) (by decide) hc)
  unfold IsDigit
  rw [hb]
  exact ⟨hlo, hhi⟩

theorem numeral_ne_nil (n : Nat) : numeral n ≠ [] := by
  rw [numeral_eq]
  simp [Nat.toDigits_ne_nil]

theorem value_numeral (n : Nat) : value (numeral n) = n := by
  have hchars : ∀ cs : List Char, (∀ c ∈ cs, c.isDigit) → ∀ init,
      (cs.map fun c => BitVec.ofNat 8 c.toNat).foldl (fun v b => 10 * v + digit b) init =
        Nat.ofDigitChars 10 cs init := by
    intro cs
    induction cs with
    | nil => exact fun _ _ => rfl
    | cons c cs ih =>
      intro hcs init
      obtain ⟨hc, hrest⟩ := List.forall_mem_cons.mp hcs
      rw [List.map_cons, List.foldl_cons, ih hrest, Nat.ofDigitChars_cons]
      unfold digit
      rw [(toNat_ofNat_of_isDigit hc).1]
      rfl
  unfold value
  rw [numeral_eq, hchars _ fun c hc => Nat.isDigit_of_mem_toDigits (by decide) (by decide) hc]
  exact Nat.ofDigitChars_toDigits (by decide) (by decide)

theorem numeral_injective : Function.Injective numeral := by
  intro m n h
  rw [← value_numeral m, h, value_numeral]

end TinyRpc.Lib.Decimal
