import Mathlib.Data.Set.Insert
import Mathlib.Logic.Function.Basic

/-!
# Handles that are used again

A handle is held by one owner at a time, and by another one later. What an
owner registers on a handle stays there until it is taken away.
-/

namespace TinyRpc.Lib

open Function

structure Handles (ι η κ : Type) where
  /-- A handle that is not live is given out again. -/
  live : Set η
  held : ι → Option η
  registered : η → κ → Option ι

namespace Handles

variable {ι η κ : Type} {s t : Handles ι η κ}

/-- A handle that is held is live, and has one holder. -/
structure Exclusive (s : Handles ι η κ) : Prop where
  live : ∀ i h, s.held i = some h → h ∈ s.live
  inj : ∀ i j h, s.held i = some h → s.held j = some h → i = j

/-- All that is registered on a handle is registered by its holder. -/
def Owned (s : Handles ι η κ) : Prop :=
  ∀ h k i, s.registered h k = some i → s.held i = some h

def Clear (s : Handles ι η κ) (h : η) : Prop := ∀ k, s.registered h k = none

/-! ## Who holds a handle -/

theorem Exclusive.free (hs : s.Exclusive) {h : η} (hfree : h ∉ s.live) (i : ι) :
    s.held i ≠ some h :=
  fun hi => hfree (hs.live i h hi)

theorem Exclusive.of_le (hs : s.Exclusive) (hlive : s.live ⊆ t.live) (hheld : t.held = s.held) :
    t.Exclusive := by
  constructor
  · intro i h hi
    rw [hheld] at hi
    exact hlive (hs.live i h hi)
  · rw [hheld]
    exact hs.inj

theorem Exclusive.others (hs : s.Exclusive) {i : ι} {h : η} (hi : s.held i = some h) {j : ι} {y : η}
    (hji : j ≠ i) (hj : s.held j = some y) : y ∈ s.live \ {h} := by
  refine ⟨hs.live j y hj, ?_⟩
  rintro rfl
  exact hji (hs.inj j i y hj hi)

/-! ## What is registered on a handle -/

theorem Owned.clear (howned : s.Owned) {h : η} (hfree : ∀ i, s.held i ≠ some h) : s.Clear h := by
  intro k
  rw [Option.eq_none_iff_forall_ne_some]
  intro i hi
  exact hfree i (howned h k i hi)

theorem Owned.clear_of_left (howned : s.Owned) (hs : s.Exclusive) {i : ι} {h : η}
    (hi : s.held i = some h) (ht : t.Owned) (hreg : t.registered = s.registered)
    (hleft : t.held i ≠ some h) : s.Clear h := by
  intro k
  rw [Option.eq_none_iff_forall_ne_some]
  intro j hj
  have hji := hs.inj j i h (howned h k j hj) hi
  apply hleft
  rw [← hji]
  exact ht h k j (hreg ▸ hj)

theorem Owned.of_others (howned : s.Owned) {i : ι} (hi : ∀ h k, s.registered h k ≠ some i)
    (hreg : t.registered = s.registered) (hheld : ∀ j, j ≠ i → t.held j = s.held j) :
    t.Owned := by
  intro x k j hj
  rw [hreg] at hj
  have hji : j ≠ i := by
    rintro rfl
    exact hi x k hj
  rw [hheld j hji]
  exact howned x k j hj

theorem Owned.of_left (howned : s.Owned) {i : ι} {h : η} (hi : s.held i = some h)
    (hclear : s.Clear h) (hreg : t.registered = s.registered)
    (hheld : ∀ j, j ≠ i → t.held j = s.held j) : t.Owned := by
  refine howned.of_others (fun x k hx => ?_) hreg hheld
  have hxh : x = h := Option.some.inj ((howned x k i hx).symm.trans hi)
  rw [hxh, hclear k] at hx
  cases hx

theorem Owned.of_le (howned : s.Owned) (hheld : t.held = s.held)
    (hreg : ∀ h k, t.registered h k = none ∨ t.registered h k = s.registered h k) : t.Owned := by
  intro x k j hj
  rw [hheld]
  rcases hreg x k with hnone | hkeep
  · rw [hnone] at hj
    cases hj
  · exact howned x k j (hkeep ▸ hj)

theorem Owned.acquire (howned : s.Owned) {i : ι} (hnone : s.held i = none)
    (hreg : t.registered = s.registered) (hheld : ∀ j, j ≠ i → t.held j = s.held j) :
    t.Owned := by
  refine howned.of_others (fun x k hx => ?_) hreg hheld
  rw [howned x k i hx] at hnone
  cases hnone

theorem Owned.register [DecidableEq η] [DecidableEq κ] (howned : s.Owned) {i : ι} {h : η} {k : κ}
    (hi : s.held i = some h) (hheld : t.held = s.held)
    (hreg : t.registered = update s.registered h (update (s.registered h) k (some i))) :
    t.Owned := by
  intro x l j hj
  rw [hheld]
  rw [hreg] at hj
  by_cases hx : x = h
  · rw [hx, update_self] at hj
    by_cases hl : l = k
    · rw [hl, update_self] at hj
      rw [← Option.some.inj hj, hx, hi]
    · rw [update_of_ne hl] at hj
      rw [hx]
      exact howned h l j hj
  · rw [update_of_ne hx] at hj
    exact howned x l j hj

/-! ## Moves -/

variable [DecidableEq ι]

theorem Exclusive.give (hs : s.Exclusive) {i : ι} {x : η} {rest : Set η}
    (hrest : ∀ j y, j ≠ i → s.held j = some y → y ∈ rest) (hx : x ∉ rest)
    (hlive : insert x rest ⊆ t.live) (hheld : t.held = update s.held i (some x)) :
    t.Exclusive := by
  have hother : ∀ j y, t.held j = some y → (j = i ∧ y = x) ∨ (j ≠ i ∧ s.held j = some y) := by
    intro j y hj
    rw [hheld, update_apply] at hj
    split at hj
    · rename_i hji
      exact Or.inl ⟨hji, (Option.some.inj hj).symm⟩
    · rename_i hji
      exact Or.inr ⟨hji, hj⟩
  constructor
  · intro j y hj
    rcases hother j y hj with ⟨-, rfl⟩ | ⟨hji, hj⟩
    · exact hlive (Set.mem_insert _ _)
    · exact hlive (Set.mem_insert_of_mem _ (hrest j y hji hj))
  · intro j k y hj hk
    rcases hother j y hj with ⟨rfl, rfl⟩ | ⟨hji, hj⟩
    · rcases hother k y hk with ⟨rfl, -⟩ | ⟨hki, hk⟩
      · rfl
      · exact absurd (hrest k y hki hk) hx
    · rcases hother k y hk with ⟨rfl, rfl⟩ | ⟨-, hk⟩
      · exact absurd (hrest j y hji hj) hx
      · exact hs.inj j k y hj hk

variable [DecidableEq η] [DecidableEq κ] {p : Prop}

/-- What an owner may do, with the condition under which the handles stay owned. -/
inductive Move (s : Handles ι η κ) : Prop → Handles ι η κ → Prop
  | acquire {t : Handles ι η κ} (i : ι) (h : η) (hnone : s.held i = none) (hfree : h ∉ s.live)
    (hlive : insert h s.live ⊆ t.live) (hheld : t.held = update s.held i (some h))
    (hreg : t.registered = s.registered) : Move s True t
  | register {t : Handles ι η κ} (i : ι) (h : η) (k : κ) (hlive : s.live ⊆ t.live)
    (hheld : t.held = s.held)
    (hreg : t.registered = update s.registered h (update (s.registered h) k (some i))) :
    Move s (s.held i = some h) t
  | unregister {t : Handles ι η κ} (hlive : s.live ⊆ t.live) (hheld : t.held = s.held)
    (hreg : ∀ h k, t.registered h k = none ∨ t.registered h k = s.registered h k) : Move s True t
  | release {t : Handles ι η κ} (i : ι) (h : η) (hi : s.held i = some h)
    (hlive : s.live \ {h} ⊆ t.live) (hheld : t.held = update s.held i none)
    (hreg : t.registered = s.registered) : Move s (s.Clear h) t
  | exchange {t : Handles ι η κ} (i : ι) (h h' : η) (hi : s.held i = some h)
    (hfree : h' ∉ s.live \ {h}) (hlive : insert h' (s.live \ {h}) ⊆ t.live)
    (hheld : t.held = update s.held i (some h')) (hreg : t.registered = s.registered) :
    Move s (h' = h ∨ s.Clear h) t

theorem Move.exclusive (hmove : Move s p t) (hs : s.Exclusive) : t.Exclusive := by
  cases hmove with
  | acquire i h hnone hfree hlive hheld hreg =>
    exact hs.give (fun j y _ hj => hs.live j y hj) hfree hlive hheld
  | register i h k hlive hheld hreg => exact hs.of_le hlive hheld
  | unregister hlive hheld hreg => exact hs.of_le hlive hheld
  | release i h hi hlive hheld hreg =>
    have hother : ∀ j y, t.held j = some y → j ≠ i ∧ s.held j = some y := by
      intro j y hj
      rw [hheld, update_apply] at hj
      split at hj
      · cases hj
      · rename_i hji
        exact ⟨hji, hj⟩
    constructor
    · intro j y hj
      exact hlive (hs.others hi (hother j y hj).1 (hother j y hj).2)
    · intro j k y hj hk
      exact hs.inj j k y (hother j y hj).2 (hother k y hk).2
  | exchange i h h' hi hfree hlive hheld hreg =>
    exact hs.give (fun j y hji hj => hs.others hi hji hj) hfree hlive hheld

/-- The condition of a move is exact. -/
theorem Move.keeps_iff (hmove : Move s p t) (hs : s.Exclusive) (howned : s.Owned) :
    t.Owned ↔ p := by
  cases hmove with
  | acquire i h hnone hfree hlive hheld hreg =>
    refine iff_true_intro (howned.acquire hnone hreg fun j hji => ?_)
    rw [hheld, update_of_ne hji]
  | register i h k hlive hheld hreg =>
    constructor
    · intro ht
      have hi : t.registered h k = some i := by rw [hreg, update_self, update_self]
      rw [← hheld]
      exact ht h k i hi
    · exact fun hi => howned.register hi hheld hreg
  | unregister hlive hheld hreg => exact iff_true_intro (howned.of_le hheld hreg)
  | release i h hi hlive hheld hreg =>
    constructor
    · intro ht
      apply howned.clear_of_left hs hi ht hreg
      simp [hheld]
    · intro hclear
      apply howned.of_left hi hclear hreg
      intro j hji
      rw [hheld, update_of_ne hji]
  -- What stays on the old handle is still the owner's when it gets the same one.
  | exchange i h h' hi hfree hlive hheld hreg =>
    constructor
    · intro ht
      by_cases heq : h' = h
      · exact Or.inl heq
      · right
        apply howned.clear_of_left hs hi ht hreg
        rw [hheld, update_self]
        exact fun hsome => heq (Option.some.inj hsome)
    · rintro (rfl | hclear)
      · have hsame : t.held = s.held := by rw [hheld, ← hi, update_eq_self]
        exact howned.of_le hsame fun x k => Or.inr (by rw [hreg])
      · apply howned.of_left hi hclear hreg
        intro j hji
        rw [hheld, update_of_ne hji]

end Handles

end TinyRpc.Lib
