import TinyRpc.Lib.Runs

/-!
# Pipelines

Things go in at one end and pass through stages. When each step only moves
things on, or puts new ones in at the end, the stages hold at every moment
what went in, in order: nothing is lost, doubled or overtaken.
-/

namespace TinyRpc.Lib.System

variable {σ ε α : Type} {S : System σ ε}

/-- The stages are listed from the oldest things to the newest. `I` is what a
step may rely on. -/
structure Conserves (S : System σ ε) (I : σ → Prop) (stages : σ → List (List α))
    (input : ε → List α) : Prop where
  start : ∀ s, S.start s → I s ∧ (stages s).flatten = []
  step : ∀ s e t, I s → S.step s e t → I t ∧ (stages t).flatten = (stages s).flatten ++ input e

theorem Conserves.run {I : σ → Prop} {stages : σ → List (List α)} {input : ε → List α}
    (h : S.Conserves I stages input) {es : List ε} {s : σ} (hrun : S.Run es s) :
    I s ∧ (stages s).flatten = es.flatMap input := by
  induction hrun with
  | start hs => exact h.start _ hs
  | step _ hstep ih =>
    obtain ⟨hI, hflat⟩ := h.step _ _ _ ih.1 hstep
    refine ⟨hI, ?_⟩
    rw [hflat, ih.2, List.flatMap_append, List.flatMap_singleton]

end TinyRpc.Lib.System
