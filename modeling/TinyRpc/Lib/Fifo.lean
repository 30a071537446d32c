import TinyRpc.Lib.Runs

/-!
# Queues

Things are put in at one end and taken out at the other, several at a time.
-/

namespace TinyRpc.Lib

inductive Fifo.Event (α : Type) where
  | put (l : List α)
  | take (n : Nat)

namespace Fifo

variable {α : Type}

def after (q : List α) : Event α → List α
  | .put l => q ++ l
  | .take n => q.drop n

def system (α : Type) : System (List α) (Event α) where
  start q := q = []
  step q e q' := q' = after q e

/-- What a queue holds that was empty before these events. -/
def contents (es : List (Event α)) : List α := es.foldl after []

theorem contents_of_run {es : List (Event α)} {q : List α} (hrun : (system α).Run es q) :
    q = contents es := by
  induction hrun with
  | start h => exact h
  | step _ h ih =>
    unfold contents at ih ⊢
    rw [List.foldl_append, List.foldl_cons, List.foldl_nil, ← ih]
    exact h

end Fifo

end TinyRpc.Lib
