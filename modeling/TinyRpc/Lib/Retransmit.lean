import Mathlib.Data.List.Nodup
import TinyRpc.Lib.Runs

/-!
# Calls that are sent again and again

A caller sends all its calls again whenever it has a new one, and so does the
side that answers. The caller finishes a call with its first answer, and lets
the other answers for it go by.
-/

namespace TinyRpc.Lib.Retransmit

variable {ι : Type}

/-! ## The protocol -/

structure State (ι : Type) where
  issued : List ι := []
  /-- How many of the calls are in the output. The caller has written them, or it will. -/
  sent : Nat := 0
  asking : Bool := false
  /-- On their way to the other side, and back. -/
  requests : List ι := []
  replies : List ι := []
  /-- What the other side has answered so far, as often as it was asked. -/
  answered : List ι := []
  answering : Bool := false
  done : List ι := []

inductive Event (ι : Type) where
  | issue (i : ι)
  | ask
  /-- The caller cannot write now. -/
  | hold
  | answer (n : Nat)
  | reply
  | finish (n : Nat)
  | idle

theorem mem_take_or_drop {l : List ι} {i : ι} (h : i ∈ l) (n : Nat) : i ∈ l.take n ∨ i ∈ l.drop n :=
  List.mem_append.mp (by rwa [List.take_append_drop])

theorem mem_take_all {l : List ι} {n : Nat} {i : ι} (h : i ∈ l.take n) : i ∈ l.take l.length := by
  rw [List.take_length]
  exact List.mem_of_mem_take h

variable [DecidableEq ι]

def finished (done now : List ι) : List ι :=
  now.foldl (fun done i => if i ∈ done then done else done ++ [i]) done

def after (s : State ι) : Event ι → State ι
  | .issue i => { s with issued := s.issued ++ [i], asking := true }
  | .ask =>
    { s with
      sent := s.issued.length
      asking := false
      requests := s.requests ++ s.issued }
  | .hold => { s with sent := s.issued.length }
  | .answer n =>
    { s with
      requests := s.requests.drop n
      answered := s.answered ++ s.requests.take n
      answering := true }
  | .reply => { s with answering := false, replies := s.replies ++ s.answered }
  | .finish n =>
    { s with
      replies := s.replies.drop n
      done := finished s.done (s.replies.take n) }
  | .idle => s

/-- No call is issued twice. -/
def system (ι : Type) [DecidableEq ι] : System (State ι) (Event ι) where
  start s := s = {}
  step s e t := (∀ i, e = .issue i → i ∉ s.issued) ∧ t = after s e

/-! ## What is finished -/

@[simp] theorem mem_finished {done now : List ι} {i : ι} :
    i ∈ finished done now ↔ i ∈ done ∨ i ∈ now := by
  induction now generalizing done with
  | nil => simp [finished]
  | cons j now ih =>
    unfold finished at ih ⊢
    rw [List.foldl_cons, ih]
    split
    · rename_i hj
      constructor
      · rintro (h | h)
        · exact Or.inl h
        · exact Or.inr (List.mem_cons_of_mem _ h)
      · rintro (h | h)
        · exact Or.inl h
        · obtain rfl | h := List.mem_cons.mp h
          · exact Or.inl hj
          · exact Or.inr h
    · simp [or_assoc]

theorem finished_nodup {done now : List ι} (h : done.Nodup) : (finished done now).Nodup := by
  induction now generalizing done with
  | nil => exact h
  | cons j now ih =>
    unfold finished at ih ⊢
    rw [List.foldl_cons]
    split
    · exact ih h
    · rename_i hj
      apply ih
      simp [List.nodup_append, h]
      rintro i hi rfl
      exact hj hi

/-! ## Every run -/

/-- Each call is still asked for, or it is on its way, or it is answered. -/
structure Kept (s : State ι) : Prop where
  nodup : s.issued.Nodup
  sent_le : s.sent ≤ s.issued.length
  unsent : s.sent < s.issued.length → s.asking = true
  requests : ∀ i ∈ s.requests, i ∈ s.issued.take s.sent
  answered : ∀ i ∈ s.answered, i ∈ s.issued.take s.sent
  replies : ∀ i ∈ s.replies, i ∈ s.answered
  done : ∀ i ∈ s.done, i ∈ s.answered
  once : s.done.Nodup
  progress : ∀ i ∈ s.issued, s.asking = true ∨ i ∈ s.requests ∨
    i ∈ s.answered ∧ (s.answering = true ∨ i ∈ s.replies ∨ i ∈ s.done)

theorem Kept.issue {s : State ι} (h : Kept s) {i : ι} (hnew : i ∉ s.issued) :
    Kept (after s (.issue i)) := by
  have htake : (s.issued ++ [i]).take s.sent = s.issued.take s.sent :=
    List.take_append_of_le_length h.sent_le
  refine ⟨?_, ?_, fun _ => rfl, ?_, ?_, h.replies, h.done, h.once, fun _ _ => Or.inl rfl⟩
  · simp only [after, List.nodup_append, h.nodup, List.nodup_singleton, List.mem_singleton]
    refine ⟨trivial, trivial, ?_⟩
    rintro j hj _ rfl rfl
    exact hnew hj
  · simpa [after] using Nat.le_succ_of_le h.sent_le
  · simpa [after, htake] using h.requests
  · simpa [after, htake] using h.answered

theorem Kept.ask {s : State ι} (h : Kept s) : Kept (after s .ask) := by
  refine ⟨h.nodup, Nat.le_refl _, by simp [after], ?_, fun i hi => mem_take_all (h.answered i hi),
    h.replies, h.done, h.once, ?_⟩
  · intro i hi
    obtain hi | hi := List.mem_append.mp hi
    · exact mem_take_all (h.requests i hi)
    · simpa [after] using hi
  · intro i hi
    exact Or.inr (Or.inl (List.mem_append_right _ hi))

theorem Kept.hold {s : State ι} (h : Kept s) : Kept (after s .hold) :=
  ⟨h.nodup, Nat.le_refl _, by simp [after], fun i hi => mem_take_all (h.requests i hi),
    fun i hi => mem_take_all (h.answered i hi), h.replies, h.done, h.once, h.progress⟩

theorem Kept.answer {s : State ι} (h : Kept s) (n : Nat) : Kept (after s (.answer n)) := by
  refine ⟨h.nodup, h.sent_le, h.unsent, ?_, ?_, ?_, ?_, h.once, ?_⟩
  · intro i hi
    exact h.requests i (List.mem_of_mem_drop hi)
  · intro i hi
    obtain hi | hi := List.mem_append.mp hi
    · exact h.answered i hi
    · exact h.requests i (List.mem_of_mem_take hi)
  · intro i hi
    exact List.mem_append_left _ (h.replies i hi)
  · intro i hi
    exact List.mem_append_left _ (h.done i hi)
  · intro i hi
    obtain hasking | hrequests | ⟨hanswered, -⟩ := h.progress i hi
    · exact Or.inl hasking
    · obtain hnow | hlater := mem_take_or_drop hrequests n
      · exact Or.inr (Or.inr ⟨List.mem_append_right _ hnow, Or.inl rfl⟩)
      · exact Or.inr (Or.inl hlater)
    · exact Or.inr (Or.inr ⟨List.mem_append_left _ hanswered, Or.inl rfl⟩)

theorem Kept.reply {s : State ι} (h : Kept s) : Kept (after s .reply) := by
  refine ⟨h.nodup, h.sent_le, h.unsent, h.requests, h.answered, ?_, h.done, h.once, ?_⟩
  · intro i hi
    obtain hi | hi := List.mem_append.mp hi
    · exact h.replies i hi
    · exact hi
  · intro i hi
    obtain hasking | hrequests | ⟨hanswered, -⟩ := h.progress i hi
    · exact Or.inl hasking
    · exact Or.inr (Or.inl hrequests)
    · exact Or.inr (Or.inr ⟨hanswered, Or.inr (Or.inl (List.mem_append_right _ hanswered))⟩)

theorem Kept.finish {s : State ι} (h : Kept s) (n : Nat) : Kept (after s (.finish n)) := by
  refine ⟨h.nodup, h.sent_le, h.unsent, h.requests, h.answered, ?_, ?_, finished_nodup h.once, ?_⟩
  · intro i hi
    exact h.replies i (List.mem_of_mem_drop hi)
  · intro i hi
    obtain hi | hi := mem_finished.mp hi
    · exact h.done i hi
    · exact h.replies i (List.mem_of_mem_take hi)
  · intro i hi
    obtain hasking | hrequests | ⟨hanswered, hanswering | hreplies | hdone⟩ := h.progress i hi
    · exact Or.inl hasking
    · exact Or.inr (Or.inl hrequests)
    · exact Or.inr (Or.inr ⟨hanswered, Or.inl hanswering⟩)
    · refine Or.inr (Or.inr ⟨hanswered, Or.inr ?_⟩)
      obtain hnow | hlater := mem_take_or_drop hreplies n
      · exact Or.inr (mem_finished.mpr (Or.inr hnow))
      · exact Or.inl hlater
    · exact Or.inr (Or.inr ⟨hanswered, Or.inr (Or.inr (mem_finished.mpr (Or.inl hdone)))⟩)

theorem run_kept {es : List (Event ι)} {s : State ι} (hrun : (system ι).Run es s) : Kept s := by
  refine hrun.invariant ?_ ?_
  · rintro s rfl
    constructor <;> simp
  · rintro s e t h ⟨hnew, rfl⟩
    cases e with
    | issue i => exact h.issue (hnew i rfl)
    | ask => exact h.ask
    | hold => exact h.hold
    | answer n => exact h.answer n
    | reply => exact h.reply
    | finish n => exact h.finish n
    | idle => exact h

def Quiet (s : State ι) : Prop :=
  s.asking = false ∧ s.answering = false ∧ s.requests = [] ∧ s.replies = []

omit [DecidableEq ι] in
/-- When nothing is on its way and nobody wants to write, every call is finished. -/
theorem Kept.all_done {s : State ι} (h : Kept s) (hquiet : Quiet s) {i : ι} (hi : i ∈ s.issued) :
    i ∈ s.done := by
  obtain ⟨hasking, hanswering, hrequests, hreplies⟩ := hquiet
  have hprogress := h.progress i hi
  simp only [hasking, hanswering, hrequests, hreplies, Bool.false_eq_true, List.not_mem_nil,
    false_or] at hprogress
  exact hprogress.2

end TinyRpc.Lib.Retransmit
