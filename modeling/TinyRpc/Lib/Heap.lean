import Mathlib.Data.List.Basic

/-!
# Objects and their addresses

`new` puts an object at an address where there is none. Which one it takes is
up to the allocator, so the address of an object that is gone may come again.
-/

namespace TinyRpc.Lib

abbrev Address := Nat

structure Heap (α : Type) where
  objects : List (Address × α) := []
  deriving DecidableEq

namespace Heap

variable {α : Type}

def load (h : Heap α) (p : Address) : Option α := h.objects.lookup p

/-- Where the next object goes. There is none at this address. -/
structure Allocator (α : Type) where
  address : Heap α → Address
  fresh : ∀ h : Heap α, h.load (address h) = none

def new (malloc : Allocator α) (h : Heap α) (x : α) : Address × Heap α :=
  (malloc.address h, ⟨(malloc.address h, x) :: h.objects⟩)

@[simp] theorem load_new_self (malloc : Allocator α) (h : Heap α) (x : α) :
    (h.new malloc x).2.load (h.new malloc x).1 = some x := by
  simp [new, load]

theorem load_new {malloc : Allocator α} {h : Heap α} {x y : α} {p : Address}
    (hp : h.load p = some y) : (h.new malloc x).2.load p = some y := by
  have hne : p ≠ malloc.address h := by
    rintro rfl
    simp [malloc.fresh] at hp
  have hbeq : (p == malloc.address h) = false := by simpa using hne
  simpa [new, load, List.lookup_cons, hbeq] using hp

theorem eq_of_load {κ : Type} {h : Heap α} {p : Address} {f : α → κ} {k k' : κ}
    (hk : ∃ x, h.load p = some x ∧ f x = k) (hk' : ∃ x, h.load p = some x ∧ f x = k') :
    k = k' := by
  obtain ⟨x, hx, rfl⟩ := hk
  obtain ⟨x', hx', rfl⟩ := hk'
  rw [hx] at hx'
  rw [Option.some.inj hx']

/-! ## An allocator -/

def top (h : Heap α) : Address := h.objects.foldr (fun o n => max (o.1 + 1) n) 0

theorem lt_top {h : Heap α} {p : Address} {x : α} (hp : h.load p = some x) : p < h.top := by
  obtain ⟨objects⟩ := h
  unfold load at hp
  unfold top
  induction objects with
  | nil => simp at hp
  | cons o rest ih =>
    rw [List.lookup_cons] at hp
    simp only [List.foldr_cons]
    split at hp
    · rename_i heq
      rw [beq_iff_eq.mp heq]
      exact Nat.lt_of_lt_of_le (Nat.lt_succ_self _) (Nat.le_max_left _ _)
    · exact Nat.lt_of_lt_of_le (ih hp) (Nat.le_max_right _ _)

def Allocator.bump : Allocator α where
  address := top
  fresh h := by
    rw [Option.eq_none_iff_forall_ne_some]
    intro x hx
    exact Nat.lt_irrefl _ (lt_top hx)

end Heap

end TinyRpc.Lib
