import Mathlib.Data.List.Infix

/-!
# Texts inside of texts

To find a text inside of another one, and to replace it. A separator that the
text does not have keeps apart what stands on its two sides.
-/

namespace TinyRpc.Lib.Find

variable {α : Type} {sub old new g s z : List α} {c : α}

/-! ## Separators -/

theorem prefix_append_cons (hc : c ∉ sub) (h : sub <+: s ++ c :: z) : sub <+: s := by
  obtain hle | hlt := Nat.lt_or_ge s.length sub.length
  · have hsep : s ++ [c] <+: s ++ c :: z := by simp
    obtain ⟨w, rfl⟩ := List.prefix_of_prefix_length_le hsep h (by simp; omega)
    simp at hc
  · exact List.prefix_of_prefix_length_le h (List.prefix_append _ _) hlt

theorem infix_append_cons (hc : c ∉ sub) : sub <:+: s ++ c :: z ↔ sub <:+: s ∨ sub <:+: z := by
  constructor
  · intro h
    obtain h | h | ⟨l₁, l₂, rfl, h₁, h₂⟩ := List.infix_append_iff.mp h
    · exact Or.inl h
    · obtain h | h := List.infix_cons_iff.mp h
      · exact Or.inl (List.prefix_nil.mp (prefix_append_cons (s := []) hc h) ▸ List.nil_infix)
      · exact Or.inr h
    · have hnil : l₂ <+: [] := by
        apply prefix_append_cons (c := c) (z := z) _ h₂
        simp only [List.mem_append, not_or] at hc
        exact hc.2
      left
      simpa [List.prefix_nil.mp hnil] using h₁.isInfix
  · rintro (h | h)
    · exact h.trans (List.prefix_append _ _).isInfix
    · exact h.trans ((List.suffix_cons c z).trans (List.suffix_append s _)).isInfix

/-! ## Where a text stands -/

/-- No end of the text is a start of it. -/
def Borderless (sub : List α) : Prop := ∀ i < sub.length, 0 < i → ¬ sub.drop i <+: sub

theorem not_start (hsub : Borderless sub) (hne : g ≠ []) (hg : ¬ sub <:+: g) :
    ¬ sub <+: g ++ (sub ++ z) := by
  intro h
  obtain hle | hlt := Nat.lt_or_ge g.length sub.length |>.symm
  · exact hg (List.prefix_of_prefix_length_le h (List.prefix_append _ _) hle).isInfix
  · -- then `sub` starts with `g`, and goes on with a start of itself
    obtain ⟨w, rfl⟩ := List.prefix_of_prefix_length_le (List.prefix_append g _) h hlt.le
    have hw : w <+: g ++ w :=
      List.prefix_of_prefix_length_le ((List.prefix_append_right_inj g).mp h)
        (List.prefix_append _ _) (by simp)
    refine hsub g.length hlt (List.length_pos_of_ne_nil hne) ?_
    simpa using hw

variable [DecidableEq α]

instance (sub : List α) : Decidable (Borderless sub) :=
  inferInstanceAs (Decidable (∀ i < sub.length, 0 < i → ¬ sub.drop i <+: sub))

/-- Where `sub` stands first. -/
def find (sub : List α) : List α → Option Nat
  | [] => if sub = [] then some 0 else none
  | c :: s => if sub <+: c :: s then some 0 else (find sub s).map (· + 1)

/-- The text with `new` for `old`, after the first `skip` elements, which are dropped. -/
def replaceFrom (old new : List α) : Nat → List α → List α
  | _, [] => []
  | skip + 1, _ :: s => replaceFrom old new skip s
  | 0, c :: s =>
    if old <+: c :: s then new ++ replaceFrom old new (old.length - 1) s
    else c :: replaceFrom old new 0 s

def replace (old new s : List α) : List α := replaceFrom old new 0 s

theorem find_append (hsub : Borderless sub) (hg : ¬ sub <:+: g) :
    find sub (g ++ (sub ++ z)) = some g.length := by
  induction g with
  | nil =>
    cases sub with
    | nil => simp at hg
    | cons c sub => simp [find]
  | cons c g ih =>
    have hstart := not_start (z := z) hsub (by simp) hg
    have hrest := ih fun h => hg (h.trans (List.suffix_cons c g).isInfix)
    rw [List.cons_append] at hstart ⊢
    simp [find, hstart, hrest]

theorem find_char (hg : c ∉ g) : find [c] (g ++ c :: z) = some g.length := by
  have hone : Borderless [c] := fun i hi h0 => by
    simp only [List.length_singleton] at hi
    omega
  exact find_append hone (by rwa [List.singleton_infix_iff])

theorem find_append_cons (hc : c ∉ sub) (hg : ¬ sub <:+: g) :
    find sub (g ++ c :: s) = (find sub s).map (· + (g.length + 1)) := by
  induction g with
  | nil =>
    have hstart : ¬ sub <+: c :: s := fun h => hg (prefix_append_cons (s := []) hc h).isInfix
    simp [find, hstart]
  | cons d g ih =>
    rw [List.infix_cons_iff, not_or] at hg
    have hstart : ¬ sub <+: d :: (g ++ c :: s) :=
      fun h => hg.1 (prefix_append_cons (s := d :: g) hc h)
    rw [List.cons_append]
    simp [find, hstart, ih hg.2, Option.map_map, Function.comp_def, Nat.add_assoc]

theorem find_eq_none : find sub s = none ↔ ¬ sub <:+: s := by
  induction s with
  | nil => simp [find]
  | cons c s ih =>
    rw [List.infix_cons_iff, not_or, ← ih]
    by_cases h : sub <+: c :: s <;> simp [find, h]

theorem exists_first (hne : sub ≠ []) (h : sub <:+: s) :
    ∃ g z, s = g ++ (sub ++ z) ∧ ¬ sub <:+: g := by
  induction s with
  | nil => simp [hne] at h
  | cons c s ih =>
    by_cases hstart : sub <+: c :: s
    · obtain ⟨z, hz⟩ := hstart
      exact ⟨[], z, hz.symm, by simpa using hne⟩
    · obtain h | h := List.infix_cons_iff.mp h
      · exact absurd h hstart
      obtain ⟨g, z, rfl, hg⟩ := ih h
      refine ⟨c :: g, z, rfl, fun hin => ?_⟩
      obtain hin | hin := List.infix_cons_iff.mp hin
      · exact hstart (hin.trans (List.prefix_append (c :: g) _))
      · exact hg hin

/-! ## Replacing -/

@[simp]
theorem replace_nil : replace old new [] = [] := rfl

theorem replaceFrom_drop (k : Nat) : replaceFrom old new k s = replace old new (s.drop k) := by
  induction s generalizing k with
  | nil => simp [replaceFrom]
  | cons c s ih =>
    cases k with
    | zero => rfl
    | succ k => exact ih k

theorem replace_cons_of_not (h : ¬ old <+: c :: s) :
    replace old new (c :: s) = c :: replace old new s := by
  simp [replace, replaceFrom, h]

theorem replace_append_self (hne : old ≠ []) :
    replace old new (old ++ z) = new ++ replace old new z := by
  obtain ⟨c, old, rfl⟩ := List.exists_cons_of_ne_nil hne
  have hstart : c :: old <+: c :: (old ++ z) := List.prefix_append (c :: old) z
  have hrest : replaceFrom (c :: old) new old.length (old ++ z) = replace (c :: old) new z := by
    rw [replaceFrom_drop, List.drop_left]
  simpa [replace, replaceFrom, hstart] using hrest

theorem replace_eq_self (h : ¬ old <:+: s) : replace old new s = s := by
  induction s with
  | nil => rfl
  | cons c s ih =>
    rw [List.infix_cons_iff, not_or] at h
    rw [replace_cons_of_not h.1, ih h.2]

theorem replace_append (hold : Borderless old) (hg : ¬ old <:+: g) :
    replace old new (g ++ (old ++ z)) = g ++ (new ++ replace old new z) := by
  have hne : old ≠ [] := by
    rintro rfl
    simp at hg
  induction g with
  | nil => exact replace_append_self hne
  | cons c g ih =>
    have hstart := not_start (z := z) hold (by simp) hg
    rw [List.cons_append] at hstart ⊢
    rw [replace_cons_of_not hstart, ih fun h => hg (h.trans (List.suffix_cons c g).isInfix)]
    rfl

theorem replace_append_cons (hne : old ≠ []) (hc : c ∉ old) :
    replace old new (s ++ c :: z) = replace old new s ++ c :: replace old new z := by
  have hc' : ∀ z, ¬ old <+: c :: z := by
    intro z h
    obtain rfl | ⟨t, rfl, -⟩ := List.prefix_cons_iff.mp h
    · exact hne rfl
    · simp at hc
  induction hn : s.length using Nat.strong_induction_on generalizing s with
  | h n ih =>
    subst hn
    cases s with
    | nil => exact replace_cons_of_not (hc' z)
    | cons d s =>
      by_cases hstart : old <+: d :: s
      · obtain ⟨w, hw⟩ := hstart
        have hless : w.length < (d :: s).length := by
          rw [← hw, List.length_append]
          exact Nat.lt_add_of_pos_left (List.length_pos_of_ne_nil hne)
        rw [← hw, List.append_assoc, replace_append_self hne, replace_append_self hne,
          ih _ hless rfl, List.append_assoc]
      · have hnot : ¬ old <+: d :: (s ++ c :: z) :=
          fun h => hstart (prefix_append_cons (s := d :: s) hc h)
        rw [List.cons_append, replace_cons_of_not hnot, replace_cons_of_not hstart,
          ih _ (by simp) rfl, List.cons_append]

theorem replace_char (c : α) (s : List α) : replace [c] [] s = s.filter (· ≠ c) := by
  induction s with
  | nil => rfl
  | cons d s ih =>
    by_cases h : d = c
    · subst h
      have hself : replace [d] [] (d :: s) = replace [d] [] s :=
        replace_append_self (List.cons_ne_nil d [])
      simpa [hself] using ih
    · rw [replace_cons_of_not (by simpa using Ne.symm h), ih]
      simp [h]

theorem mem_replace {x : α} (h : x ∈ replace old new s) : x ∈ s ∨ x ∈ new := by
  unfold replace at h
  generalize hk : 0 = k at h
  clear hk
  induction s generalizing k with
  | nil => simp [replaceFrom] at h
  | cons c s ih =>
    cases k with
    | succ k =>
      obtain h | h := ih k h
      · exact Or.inl (List.mem_cons_of_mem _ h)
      · exact Or.inr h
    | zero =>
      unfold replaceFrom at h
      split at h
      · obtain h | h := List.mem_append.mp h
        · exact Or.inr h
        · obtain h | h := ih _ h
          · exact Or.inl (List.mem_cons_of_mem _ h)
          · exact Or.inr h
      · obtain rfl | h := List.mem_cons.mp h
        · simp
        · obtain h | h := ih _ h
          · exact Or.inl (List.mem_cons_of_mem _ h)
          · exact Or.inr h

end TinyRpc.Lib.Find
