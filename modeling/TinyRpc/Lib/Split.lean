import Mathlib.Data.List.Basic

/-!
# Separators

A list with a separator in it. A part that does not have the separator ends
where the separator stands.
-/

namespace TinyRpc.Lib.Split

variable {α : Type} {x : α} {a b n m : List α}

theorem cons_append_inj (hn : x ∉ n) (hm : x ∉ m) (h : n ++ x :: a = m ++ x :: b) :
    n = m ∧ a = b := by
  induction n generalizing m with
  | nil =>
    cases m with
    | nil => exact ⟨rfl, (List.cons.inj h).2⟩
    | cons y m => exact absurd (List.cons.inj h).1 (List.ne_of_not_mem_cons hm)
  | cons y n ih =>
    cases m with
    | nil => exact absurd (List.cons.inj h).1.symm (List.ne_of_not_mem_cons hn)
    | cons z m =>
      obtain ⟨rfl, htail⟩ := List.cons.inj h
      obtain ⟨rfl, hab⟩ :=
        ih (List.not_mem_of_not_mem_cons hn) (List.not_mem_of_not_mem_cons hm) htail
      exact ⟨rfl, hab⟩

theorem append_cons_inj (hn : x ∉ n) (hm : x ∉ m) (h : a ++ x :: n = b ++ x :: m) :
    a = b ∧ n = m := by
  have hrev : n.reverse ++ x :: a.reverse = m.reverse ++ x :: b.reverse := by
    simpa using congrArg List.reverse h
  obtain ⟨hnm, hab⟩ := cons_append_inj (by simpa using hn) (by simpa using hm) hrev
  exact ⟨List.reverse_injective hab, List.reverse_injective hnm⟩

end TinyRpc.Lib.Split
