import Mathlib.Data.List.Induction

/-!
# Runs of a transition system

A run is a list of events and the state they lead to. An invariant of the
steps holds at every moment of every run.
-/

namespace TinyRpc.Lib

/-- Where a run starts, and what an event may do to a state. -/
structure System (σ ε : Type) where
  start : σ → Prop
  step : σ → ε → σ → Prop

namespace System

variable {σ ε : Type} {S : System σ ε}

/-- The events so far, and the state that they lead to. -/
inductive Run (S : System σ ε) : List ε → σ → Prop
  | start {s : σ} (h : S.start s) : Run S [] s
  | step {es : List ε} {s t : σ} {e : ε} (hrun : Run S es s) (h : S.step s e t) :
    Run S (es ++ [e]) t

def restrict (S : System σ ε) (ok : σ → ε → Prop) : System σ ε where
  start := S.start
  step s e t := ok s e ∧ S.step s e t

/-- What holds at the start, and is kept by every step, holds after every run. -/
theorem Run.invariant {I : σ → Prop} {es : List ε} {s : σ} (hrun : S.Run es s)
    (hstart : ∀ s, S.start s → I s) (hstep : ∀ s e t, I s → S.step s e t → I t) : I s := by
  induction hrun with
  | start h => exact hstart _ h
  | step _ h ih => exact hstep _ _ _ ih h

theorem Run.of_snoc {es : List ε} {e : ε} {t : σ} (hrun : S.Run (es ++ [e]) t) :
    ∃ s, S.Run es s ∧ S.step s e t := by
  generalize hes : es ++ [e] = es' at hrun
  cases hrun with
  | start h => simp at hes
  | step hrun h =>
    obtain ⟨rfl, he⟩ := List.append_inj' hes rfl
    obtain rfl := List.singleton_inj.mp he
    exact ⟨_, hrun, h⟩

/-- The system from a state on. -/
def after (S : System σ ε) (s : σ) : System σ ε := { S with start := (· = s) }

theorem Run.append {es es' : List ε} {s t : σ} (hrun : S.Run es s)
    (h : (S.after s).Run es' t) : S.Run (es ++ es') t := by
  induction h with
  | start hs =>
    obtain rfl : _ = s := hs
    simpa using hrun
  | step _ hstep ih =>
    rw [← List.append_assoc]
    exact ih.step hstep

theorem Run.of_restrict {ok : σ → ε → Prop} {es : List ε} {s : σ}
    (hrun : (S.restrict ok).Run es s) : S.Run es s := by
  induction hrun with
  | start h => exact Run.start h
  | step _ h ih => exact Run.step ih h.2

theorem Run.restrict {ok : ε → Prop} {es : List ε} {s : σ} (hrun : S.Run es s)
    (h : ∀ e ∈ es, ok e) : (S.restrict fun _ => ok).Run es s := by
  induction hrun with
  | start hs => exact Run.start hs
  | step _ hstep ih =>
    obtain ⟨hes, he⟩ := List.forall_mem_append.mp h
    exact (ih hes).step ⟨he _ (List.mem_singleton_self _), hstep⟩

theorem Run.allowed {ok : ε → Prop} {es : List ε} {s : σ}
    (hrun : (S.restrict fun _ => ok).Run es s) : ∀ e ∈ es, ok e := by
  induction hrun with
  | start _ => simp
  | step _ h ih =>
    refine List.forall_mem_append.mpr ⟨ih, fun e he => ?_⟩
    rw [List.mem_singleton.mp he]
    exact h.1

theorem Run.extend {ok : ε → Prop} {es es' : List ε} {s t : σ}
    (hrun : (S.restrict fun _ => ok).Run es s) (h : S.Run (es ++ es') t)
    (hok : ∀ e ∈ es', ok e) : (S.restrict fun _ => ok).Run (es ++ es') t :=
  h.restrict (List.forall_mem_append.mpr ⟨hrun.allowed, hok⟩)

theorem Run.of_next {next : σ → ε → Option σ}
    (hnext : ∀ s e t, next s e = some t → S.step s e t) {s t : σ} (hstart : S.start s)
    {es : List ε} (h : es.foldlM next s = some t) : S.Run es t := by
  induction es using List.reverseRecOn generalizing t with
  | nil =>
    cases h
    exact Run.start hstart
  | append_singleton es e ih =>
    rw [List.foldlM_append] at h
    obtain ⟨u, hu, h⟩ := Option.bind_eq_some_iff.mp h
    rw [List.foldlM_cons] at h
    obtain ⟨t', ht', h⟩ := Option.bind_eq_some_iff.mp h
    cases h
    exact Run.step (ih hu) (hnext _ _ _ ht')

/-- A step function that stops where an event is not allowed. -/
def guarded (ok : σ → ε → Prop) [∀ s, DecidablePred (ok s)] (next : σ → ε → Option σ) (s : σ)
    (e : ε) : Option σ :=
  if ok s e then next s e else none

theorem Run.of_guarded {ok : σ → ε → Prop} [∀ s, DecidablePred (ok s)] {next : σ → ε → Option σ}
    (hnext : ∀ s e t, next s e = some t → S.step s e t) {s t : σ} (hstart : S.start s)
    {es : List ε} (h : es.foldlM (guarded ok next) s = some t) : (S.restrict ok).Run es t := by
  refine Run.of_next (S := S.restrict ok) (fun s e t h => ?_) hstart h
  unfold guarded at h
  split at h
  · exact ⟨‹_›, hnext s e t h⟩
  · cases h

theorem Run.of_allowed {ok : σ → ε → Prop} {next : σ → ε → Option σ}
    (hnext : ∀ s e t, next s e = some t → S.step s e t) {s t : σ} (hstart : S.start s)
    {es : List ε} (h : es.foldlM next s = some t)
    (hok : ∀ i (hi : i < es.length) u, (es.take i).foldlM next s = some u → ok u es[i]) :
    (S.restrict ok).Run es t := by
  induction es using List.reverseRecOn generalizing t with
  | nil =>
    obtain rfl := Option.some.inj h
    exact Run.start hstart
  | append_singleton es e ih =>
    rw [List.foldlM_append] at h
    obtain ⟨u, hu, h⟩ := Option.bind_eq_some_iff.mp h
    obtain ⟨t', ht', h⟩ := Option.bind_eq_some_iff.mp h
    obtain rfl := Option.some.inj h
    have hlast := hok es.length (by simp) u (by rw [List.take_left]; exact hu)
    rw [List.getElem_concat_length rfl] at hlast
    refine (ih hu fun i hi v hv => ?_).step ⟨hlast, hnext _ _ _ ht'⟩
    have hprefix := hok i (by simp; omega) v
      (by rw [List.take_append_of_le_length (Nat.le_of_lt hi)]; exact hv)
    rwa [List.getElem_append_left hi] at hprefix

theorem view_eq {β : Type} {o : Option σ} (f : σ → β) {v : β} (h : o.map f = some v) {s : σ}
    (hs : o = some s) : f s = v := by
  rw [hs] at h
  exact Option.some.inj h

/-! ## Simulation -/

/-- Each step of `S` is a step of `A`, from a state that `A` can reach. -/
theorem Run.refines {α φ : Type} {A : System α φ} {R : σ → α → Prop} {es : List ε} {s : σ}
    (hrun : S.Run es s) (hstart : ∀ s, S.start s → ∃ a, A.start a ∧ R s a)
    (hstep : ∀ s e t fs a, A.Run fs a → R s a → S.step s e t → ∃ f b, A.step a f b ∧ R t b) :
    ∃ fs a, A.Run fs a ∧ R s a := by
  induction hrun with
  | start hs =>
    obtain ⟨a, ha, hR⟩ := hstart _ hs
    exact ⟨[], a, Run.start ha, hR⟩
  | step _ h ih =>
    obtain ⟨fs, a, ha, hR⟩ := ih
    obtain ⟨f, b, hb, hR'⟩ := hstep _ _ _ _ _ ha hR h
    exact ⟨fs ++ [f], b, ha.step hb, hR'⟩

/-- A part of the state that every step leaves alone, or moves as `A` does. -/
theorem Run.component {α φ : Type} {A : System α φ} (view : σ → α) {es : List ε} {s : σ}
    (hrun : S.Run es s) (hstart : ∀ s, S.start s → A.start (view s))
    (hstep : ∀ es s e t, S.Run es s → S.step s e t →
      view t = view s ∨ ∃ f, A.step (view s) f (view t)) :
    ∃ fs, A.Run fs (view s) := by
  induction hrun with
  | start hs => exact ⟨[], Run.start (hstart _ hs)⟩
  | step hrun h ih =>
    obtain ⟨fs, hfs⟩ := ih
    obtain hsame | ⟨f, hf⟩ := hstep _ _ _ _ hrun h
    · exact ⟨fs, hsame ▸ hfs⟩
    · exact ⟨fs ++ [f], hfs.step hf⟩

/-- Each step of `C` is the step of `A` under the event that `view` gives, and
no step of `A` when it gives none. -/
structure Simulates {α φ : Type} (C : System σ ε) (A : System α φ) (view : ε → Option φ)
    (R : σ → α → Prop) : Prop where
  start : ∀ s, C.start s → ∃ a, A.start a ∧ R s a
  silent : ∀ s a e t, R s a → C.step s e t → view e = none → R t a
  step : ∀ s a e t f, R s a → C.step s e t → view e = some f → ∃ b, A.step a f b ∧ R t b

theorem Simulates.run {α φ : Type} {C : System σ ε} {A : System α φ} {view : ε → Option φ}
    {R : σ → α → Prop} (h : Simulates C A view R) {es : List ε} {s : σ} (hrun : C.Run es s) :
    ∃ a, A.Run (es.filterMap view) a ∧ R s a := by
  induction hrun with
  | start hs =>
    obtain ⟨a, ha, hR⟩ := h.start _ hs
    exact ⟨a, Run.start ha, hR⟩
  | @step es s t e _ hstep ih =>
    obtain ⟨a, ha, hR⟩ := ih
    rw [List.filterMap_append]
    cases hview : view e with
    | none =>
      refine ⟨a, ?_, h.silent _ _ _ _ hR hstep hview⟩
      rwa [List.filterMap_cons_none hview, List.filterMap_nil, List.append_nil]
    | some f =>
      obtain ⟨b, hb, hR'⟩ := h.step _ _ _ _ _ hR hstep hview
      refine ⟨b, ?_, hR'⟩
      rw [List.filterMap_cons_some hview, List.filterMap_nil]
      exact ha.step hb

end System

end TinyRpc.Lib
