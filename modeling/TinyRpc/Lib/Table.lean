import TinyRpc.Lib.Runs

/-!
# One object for each key

A table gives a key its object when it is looked up, or earlier. From then on
the key has this object, and no other key has it.
-/

namespace TinyRpc.Lib

structure Table (κ ι : Type) where
  object : κ → Option ι
  inj : ∀ k k' i, object k = some i → object k' = some i → k = k'

namespace Table

variable {κ ι : Type}

def Extends (s t : Table κ ι) : Prop := ∀ k i, s.object k = some i → t.object k = some i

/-- An event is a key that is looked up, and the object that it has then. -/
def system (κ ι : Type) : System (Table κ ι) (κ × ι) where
  start _ := True
  step s e t := s.Extends t ∧ t.object e.1 = some e.2

theorem object_of_run {es : List (κ × ι)} {s : Table κ ι} (hrun : (system κ ι).Run es s) :
    ∀ e ∈ es, s.object e.1 = some e.2 := by
  induction hrun with
  | start _ => simp
  | step _ h ih =>
    obtain ⟨hext, hlast⟩ := h
    intro e he
    rcases List.mem_append.mp he with he | he
    · exact hext _ _ (ih e he)
    · rw [List.mem_singleton.mp he]
      exact hlast

theorem same_iff {es : List (κ × ι)} {s : Table κ ι} (hrun : (system κ ι).Run es s)
    {k k' : κ} {i i' : ι} (h : (k, i) ∈ es) (h' : (k', i') ∈ es) : k = k' ↔ i = i' := by
  have hk := object_of_run hrun _ h
  have hk' := object_of_run hrun _ h'
  simp only at hk hk'
  constructor
  · rintro rfl
    simpa [hk] using hk'
  · rintro rfl
    exact s.inj _ _ _ hk hk'

end Table

end TinyRpc.Lib
