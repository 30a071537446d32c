import Mathlib.Data.List.Basic
import Mathlib.Data.List.Count
import Mathlib.Data.List.Pairwise
import Mathlib.Order.Lattice

/-!
# Multimaps

A multimap is a list of entries in the order of their keys. Entries with the
same key stay in the order in which they were put in.
-/

namespace TinyRpc.Lib

def Sorted {κ ν : Type} [LE κ] (l : List (κ × ν)) : Prop := l.Pairwise fun p q => p.1 ≤ q.1

structure Multimap (κ ν : Type) [LinearOrder κ] where
  entries : List (κ × ν)
  sorted : Sorted entries

namespace Multimap

variable {κ ν : Type} [LinearOrder κ]

def empty : Multimap κ ν := ⟨[], List.Pairwise.nil⟩

/-! ## `emplace` -/

/-- In front of the first entry with a larger key. -/
def insertEntry (p : κ × ν) : List (κ × ν) → List (κ × ν)
  | [] => [p]
  | q :: l => if q.1 ≤ p.1 then q :: insertEntry p l else p :: q :: l

theorem insertEntry_perm (p : κ × ν) (l : List (κ × ν)) : (insertEntry p l).Perm (p :: l) := by
  induction l with
  | nil => exact List.Perm.refl _
  | cons q l ih =>
    unfold insertEntry
    split
    · exact (ih.cons q).trans (List.Perm.swap p q l)
    · exact List.Perm.refl _

theorem mem_insertEntry {p q : κ × ν} {l : List (κ × ν)} :
    q ∈ insertEntry p l ↔ q = p ∨ q ∈ l := by
  rw [(insertEntry_perm p l).mem_iff, List.mem_cons]

/-- A relation goes on to the new entry when it holds of the entries in front
of it, which have no larger keys, and of those behind it. -/
theorem insertEntry_pairwise {R : κ × ν → κ × ν → Prop} {p : κ × ν} {l : List (κ × ν)}
    (hs : Sorted l) (h : l.Pairwise R) (hle : ∀ q ∈ l, q.1 ≤ p.1 → R q p)
    (hlt : ∀ q ∈ l, p.1 < q.1 → R p q) : (insertEntry p l).Pairwise R := by
  induction l with
  | nil => exact List.pairwise_singleton _ _
  | cons q l ih =>
    obtain ⟨hqs, hs⟩ := List.pairwise_cons.mp hs
    obtain ⟨hq, hl⟩ := List.pairwise_cons.mp h
    obtain ⟨hqle, hle⟩ := List.forall_mem_cons.mp hle
    unfold insertEntry
    split
    · rename_i hqp
      obtain ⟨-, hlt⟩ := List.forall_mem_cons.mp hlt
      refine List.pairwise_cons.mpr ⟨fun r hr => ?_, ih hs hl hle hlt⟩
      rcases mem_insertEntry.mp hr with rfl | hr
      · exact hqle hqp
      · exact hq r hr
    · rename_i hqp
      have hpq : p.1 < q.1 := not_le.mp hqp
      refine List.pairwise_cons.mpr ⟨fun r hr => hlt r hr ?_, h⟩
      rcases List.mem_cons.mp hr with rfl | hr
      · exact hpq
      · exact lt_of_lt_of_le hpq (hqs r hr)

theorem sorted_insertEntry {p : κ × ν} {l : List (κ × ν)} (h : Sorted l) :
    Sorted (insertEntry p l) :=
  insertEntry_pairwise h h (fun _ _ hle => hle) fun _ _ hlt => le_of_lt hlt

def emplace (m : Multimap κ ν) (k : κ) (v : ν) : Multimap κ ν where
  entries := insertEntry (k, v) m.entries
  sorted := sorted_insertEntry m.sorted

@[simp] theorem mem_emplace {m : Multimap κ ν} {k : κ} {v : ν} {q : κ × ν} :
    q ∈ (m.emplace k v).entries ↔ q = (k, v) ∨ q ∈ m.entries :=
  mem_insertEntry

/-! ## `erase` -/

/-- Erases the first entry with this key and this value. -/
def eraseEntry [DecidableEq ν] (m : Multimap κ ν) (k : κ) (v : ν) : Multimap κ ν where
  entries := m.entries.erase (k, v)
  sorted := m.sorted.sublist List.erase_sublist

theorem mem_eraseEntry [DecidableEq ν] {m : Multimap κ ν} {k : κ} {v : ν} {q : κ × ν}
    (hne : q ≠ (k, v)) : q ∈ (m.eraseEntry k v).entries ↔ q ∈ m.entries :=
  List.mem_erase_of_ne hne

theorem mem_of_mem_eraseEntry [DecidableEq ν] {m : Multimap κ ν} {k : κ} {v : ν} {q : κ × ν}
    (h : q ∈ (m.eraseEntry k v).entries) : q ∈ m.entries :=
  List.mem_of_mem_erase h

def eraseFront (m : Multimap κ ν) (n : Nat) : Multimap κ ν where
  entries := m.entries.drop n
  sorted := m.sorted.sublist (List.drop_sublist n _)

theorem mem_of_mem_eraseFront {m : Multimap κ ν} {n : Nat} {q : κ × ν}
    (h : q ∈ (m.eraseFront n).entries) : q ∈ m.entries :=
  List.mem_of_mem_drop h

/-! ## Values -/

variable [DecidableEq ν]

def countValue (m : Multimap κ ν) (v : ν) : Nat := (m.entries.map Prod.snd).count v

theorem countValue_emplace_self (m : Multimap κ ν) (k : κ) (v : ν) :
    (m.emplace k v).countValue v = m.countValue v + 1 := by
  have h := ((insertEntry_perm (k, v) m.entries).map Prod.snd).count_eq v
  rw [List.map_cons, List.count_cons_self] at h
  exact h

theorem countValue_emplace_of_ne (m : Multimap κ ν) (k : κ) {v w : ν} (hne : v ≠ w) :
    (m.emplace k v).countValue w = m.countValue w := by
  have h := ((insertEntry_perm (k, v) m.entries).map Prod.snd).count_eq w
  rw [List.map_cons, List.count_cons_of_ne hne] at h
  exact h

theorem countValue_eraseEntry_le (m : Multimap κ ν) (k : κ) (v w : ν) :
    (m.eraseEntry k v).countValue w ≤ m.countValue w :=
  (List.erase_sublist.map Prod.snd).count_le w

theorem countValue_eq_zero {m : Multimap κ ν} {v : ν} (h : ∀ p ∈ m.entries, p.2 ≠ v) :
    m.countValue v = 0 := by
  refine List.count_eq_zero_of_not_mem fun hv => ?_
  obtain ⟨p, hp, hpv⟩ := List.mem_map.mp hv
  exact h p hp hpv

/-! ## The order of the entries -/

/-- `p` has the smaller key, or the same key and was put in before `q`. The
log has the values that were put in, the last one first. -/
def Before (log : List ν) (p q : κ × ν) : Prop :=
  p.1 < q.1 ∨ p.1 = q.1 ∧ log.idxOf q.2 < log.idxOf p.2

/-- Each value is there once, and the entries are in the order of the log. -/
structure Ordered (m : Multimap κ ν) (log : List ν) : Prop where
  once : (m.entries.map Prod.snd).Nodup
  order : m.entries.Pairwise (Before log)

theorem Before.cons {log : List ν} {p q : κ × ν} (h : Before log p q) {v : ν} (hp : v ≠ p.2)
    (hq : v ≠ q.2) : Before (v :: log) p q := by
  rcases h with h | ⟨hkey, hlog⟩
  · exact Or.inl h
  · right
    rw [List.idxOf_cons_ne log hp, List.idxOf_cons_ne log hq]
    exact ⟨hkey, Nat.succ_lt_succ hlog⟩

theorem before_newest {log : List ν} {p : κ × ν} {k : κ} {v : ν} (hkey : p.1 ≤ k)
    (hne : v ≠ p.2) : Before (v :: log) p (k, v) := by
  rcases lt_or_eq_of_le hkey with hlt | heq
  · exact Or.inl hlt
  · right
    refine ⟨heq, ?_⟩
    rw [List.idxOf_cons_self, List.idxOf_cons_ne log hne]
    exact Nat.succ_pos _

theorem pairwise_insertEntry {log : List ν} {k : κ} {v : ν} {l : List (κ × ν)} (hs : Sorted l)
    (hne : ∀ p ∈ l, v ≠ p.2) (h : l.Pairwise (Before log)) :
    (insertEntry (k, v) l).Pairwise (Before (v :: log)) := by
  have hl : l.Pairwise (Before (v :: log)) :=
    h.imp_of_mem fun hp hq hpq => hpq.cons (hne _ hp) (hne _ hq)
  apply insertEntry_pairwise hs hl
  · intro q hq hle
    exact before_newest hle (hne q hq)
  · intro q _ hlt
    exact Or.inl hlt

theorem Ordered.emplace {m : Multimap κ ν} {log : List ν} (h : m.Ordered log) (k : κ) {v : ν}
    (hne : ∀ p ∈ m.entries, v ≠ p.2) : (m.emplace k v).Ordered (v :: log) := by
  constructor
  · have hperm := (insertEntry_perm (k, v) m.entries).map Prod.snd
    apply hperm.nodup_iff.mpr
    rw [List.map_cons, List.nodup_cons]
    refine ⟨?_, h.once⟩
    intro hv
    obtain ⟨p, hp, hpv⟩ := List.mem_map.mp hv
    exact hne p hp hpv.symm
  · exact pairwise_insertEntry m.sorted hne h.order

theorem Ordered.sublist {m m' : Multimap κ ν} {log : List ν} (h : m.Ordered log)
    (hsub : m'.entries.Sublist m.entries) : m'.Ordered log :=
  ⟨h.once.sublist (hsub.map Prod.snd), h.order.sublist hsub⟩

theorem empty_ordered : (empty : Multimap κ ν).Ordered [] :=
  ⟨List.nodup_nil, List.Pairwise.nil⟩

end Multimap

end TinyRpc.Lib
