import Mathlib.Logic.Function.Basic
import TinyRpc.Lib.Runs

/-!
# The scoped lock

`ScopeMutex` of `mutex.h`, on one `Mutex` that any number of threads share.
Its flag is set by the constructor, and neither `lock` nor `unlock` changes it.
-/

namespace TinyRpc.ScopeMutex

open Lib

variable {θ : Type}

/-! ## Threads -/

inductive Call where
  | lock | unlock
  deriving DecidableEq

structure Guard where
  m_is_lock : Bool
  calls : List Call

/-- The thread that has locked the mutex, if any. The blocks that each thread
still runs, and its `ScopeMutex` when it is in one. -/
structure State (θ : Type) where
  m_mutex : Option θ
  blocks : θ → List (List Call)
  guard : θ → Option Guard
  inside : θ → Bool
  acquired : List θ
  released : List θ
  /-- For each `lock()` that returned, its thread, and who had the mutex then. -/
  relocked : List (θ × Option θ)

section Steps

variable [DecidableEq θ]

def acquire (s : State θ) (t : θ) : Option (State θ) :=
  if s.m_mutex = none then
    some { s with
      m_mutex := some t
      inside := Function.update s.inside t true
      acquired := s.acquired ++ [t] }
  else none

/-- `m_mutex.unlock()` frees the mutex, whoever has locked it. -/
def release (s : State θ) (t : θ) : State θ :=
  { s with
    m_mutex := none
    inside := Function.update s.inside t false
    released := s.released ++ [t] }

def setGuard (s : State θ) (t : θ) (g : Option Guard) : State θ :=
  { s with guard := Function.update s.guard t g }

def construct (s : State θ) (t : θ) (calls : List Call) : Option (State θ) := do
  let s ← acquire s t
  return setGuard s t (some ⟨true, calls⟩)

def lock (s : State θ) (t : θ) (m_is_lock : Bool) : Option (State θ) :=
  if !m_is_lock then acquire s t else some s

def unlock (s : State θ) (t : θ) (m_is_lock : Bool) : State θ :=
  if m_is_lock then release s t else s

def destroy (s : State θ) (t : θ) : State θ := setGuard (release s t) t none

def next (s : State θ) (t : θ) : Option (State θ) :=
  match s.guard t, s.blocks t with
  | none, [] => none
  | none, block :: blocks => do
    let s ← construct s t block
    return { s with blocks := Function.update s.blocks t blocks }
  | some ⟨_, []⟩, _ => some (destroy s t)
  | some ⟨m_is_lock, .lock :: calls⟩, _ => do
    let s ← lock s t m_is_lock
    return { setGuard s t (some ⟨m_is_lock, calls⟩) with
      relocked := s.relocked ++ [(t, s.m_mutex)] }
  | some ⟨m_is_lock, .unlock :: calls⟩, _ =>
    some (setGuard (unlock s t m_is_lock) t (some ⟨m_is_lock, calls⟩))

def start (programs : θ → List (List Call)) : State θ where
  m_mutex := none
  blocks := programs
  guard _ := none
  inside _ := false
  acquired := []
  released := []
  relocked := []

/-- The interleavings of the threads. An event is the thread that takes a step. -/
def system (programs : θ → List (List Call)) : System (State θ) θ where
  start s := s = start programs
  step s t s' := next s t = some s'

end Steps

/-! ## Mutual exclusion -/

/-- At most one thread is inside, each acquisition is released once, by the
thread that made it, and a `lock()` that returned left its thread with the mutex. -/
structure Exclusive (s : State θ) : Prop where
  inside : ∀ t u, s.inside t = true → s.inside u = true → t = u
  released : s.acquired = s.released ++ s.m_mutex.toList
  relocked : ∀ r ∈ s.relocked, r.2 = some r.1

/-- What keeps the threads apart when no block calls `unlock()`: the thread
that has the mutex is the one in a block. -/
structure Apart (s : State θ) : Prop where
  blocks : ∀ t, ∀ block ∈ s.blocks t, Call.unlock ∉ block
  guard : ∀ t g, s.guard t = some g → s.m_mutex = some t ∧ g.m_is_lock = true ∧
    Call.unlock ∉ g.calls
  inside : ∀ t, s.inside t = true → s.m_mutex = some t
  released : s.acquired = s.released ++ s.m_mutex.toList
  relocked : ∀ r ∈ s.relocked, r.2 = some r.1

theorem Apart.exclusive {s : State θ} (h : Apart s) : Exclusive s := by
  refine ⟨fun t u ht hu => ?_, h.released, h.relocked⟩
  have htu := (h.inside t ht).symm.trans (h.inside u hu)
  exact Option.some.inj htu

theorem apart_start {programs : θ → List (List Call)}
    (h : ∀ t, ∀ block ∈ programs t, Call.unlock ∉ block) : Apart (start programs) :=
  ⟨h, nofun, nofun, rfl, nofun⟩

section Runs

variable [DecidableEq θ]

theorem Apart.construct {s s' : State θ} (h : Apart s) {t : θ} {block : List Call}
    {blocks : List (List Call)} (hblocks : s.blocks t = block :: blocks)
    (hs : ScopeMutex.construct s t block = some s') :
    Apart { s' with blocks := Function.update s'.blocks t blocks } := by
  unfold ScopeMutex.construct acquire at hs
  split at hs
  · rename_i hfree
    cases hs
    have hall := h.blocks t
    rw [hblocks, List.forall_mem_cons] at hall
    refine ⟨?_, ?_, ?_, ?_, h.relocked⟩
    · intro u
      rcases eq_or_ne u t with rfl | hne
      · unfold setGuard
        simp only [Function.update_self]
        exact hall.2
      · unfold setGuard
        simp only [Function.update_of_ne hne]
        exact h.blocks u
    · intro u g hg
      rcases eq_or_ne u t with rfl | hne
      · unfold setGuard at hg
        simp only [Function.update_self, Option.some.injEq] at hg
        rw [← hg]
        exact ⟨rfl, rfl, hall.1⟩
      · unfold setGuard at hg
        simp only [Function.update_of_ne hne] at hg
        -- The mutex was free, so no other thread has a guard.
        have hmutex := (h.guard u g hg).1
        rw [hfree] at hmutex
        cases hmutex
    · intro u hu
      rcases eq_or_ne u t with rfl | hne
      · rfl
      · unfold setGuard at hu
        simp only [Function.update_of_ne hne] at hu
        have hmutex := h.inside u hu
        rw [hfree] at hmutex
        cases hmutex
    · have hrel := h.released
      rw [hfree, Option.toList_none, List.append_nil] at hrel
      unfold setGuard
      simp only [Option.toList_some, hrel]
  · cases hs

theorem Apart.destroy {s : State θ} (h : Apart s) {t : θ} (ht : s.m_mutex = some t) :
    Apart (ScopeMutex.destroy s t) := by
  refine ⟨h.blocks, ?_, ?_, ?_, h.relocked⟩
  · intro u g hg
    rcases eq_or_ne u t with rfl | hne
    · simp [ScopeMutex.destroy, setGuard] at hg
    · unfold ScopeMutex.destroy setGuard release at hg
      simp only [Function.update_of_ne hne] at hg
      have hu := (h.guard u g hg).1
      exact absurd (Option.some.inj (hu.symm.trans ht)) hne
  · intro u hu
    rcases eq_or_ne u t with rfl | hne
    · simp [ScopeMutex.destroy, setGuard, release] at hu
    · unfold ScopeMutex.destroy setGuard release at hu
      simp only [Function.update_of_ne hne] at hu
      exact absurd (Option.some.inj ((h.inside u hu).symm.trans ht)) hne
  · have hrel := h.released
    rw [ht] at hrel
    simpa [ScopeMutex.destroy, setGuard, release] using hrel

theorem Apart.call {s : State θ} (h : Apart s) {t : θ} {calls : List Call}
    (ht : s.m_mutex = some t) (hcalls : Call.unlock ∉ calls) :
    Apart { setGuard s t (some ⟨true, calls⟩) with
      relocked := s.relocked ++ [(t, s.m_mutex)] } := by
  refine ⟨h.blocks, ?_, h.inside, h.released, ?_⟩
  · intro u g hg
    rcases eq_or_ne u t with rfl | hne
    · unfold setGuard at hg
      simp only [Function.update_self, Option.some.injEq] at hg
      rw [← hg]
      exact ⟨ht, rfl, hcalls⟩
    · unfold setGuard at hg
      simp only [Function.update_of_ne hne] at hg
      exact h.guard u g hg
  · intro r hr
    rcases List.mem_append.mp hr with hr | hr
    · exact h.relocked r hr
    · rw [List.mem_singleton.mp hr]
      exact ht

theorem Apart.next {s s' : State θ} (h : Apart s) {t : θ} (hs : ScopeMutex.next s t = some s') :
    Apart s' := by
  unfold ScopeMutex.next at hs
  split at hs
  · cases hs
  · rename_i hblocks
    obtain ⟨s1, hs1, hs⟩ := Option.bind_eq_some_iff.mp hs
    cases hs
    exact h.construct hblocks hs1
  · rename_i hguard
    cases hs
    exact h.destroy (h.guard t _ hguard).1
  · rename_i hguard
    obtain ⟨hmutex, hflag, hcalls⟩ := h.guard t _ hguard
    simp only at hflag
    subst hflag
    simp only [lock, Bool.not_true, Bool.false_eq_true, if_false, Option.bind_eq_bind,
      Option.bind_some, Option.pure_def, Option.some.injEq] at hs
    rw [← hs]
    exact h.call hmutex fun hc => hcalls (List.mem_cons_of_mem _ hc)
  · rename_i hguard
    exact absurd List.mem_cons_self (h.guard t _ hguard).2.2

/-! ## Blocks that call `unlock()` -/

variable {programs : θ → List (List Call)} {s : State θ} {es : List θ} {t : θ}

theorem next_lock {calls : List Call} (hg : s.guard t = some ⟨true, .lock :: calls⟩) :
    next s t = some { setGuard s t (some ⟨true, calls⟩) with
      relocked := s.relocked ++ [(t, s.m_mutex)] } := by
  unfold next
  simp only [hg, lock]
  rfl

theorem next_unlock {calls : List Call} (hg : s.guard t = some ⟨true, .unlock :: calls⟩) :
    next s t = some (setGuard (release s t) t (some ⟨true, calls⟩)) := by
  unfold next
  simp only [hg, unlock, if_true]

theorem next_destroy {m_is_lock : Bool} (hg : s.guard t = some ⟨m_is_lock, []⟩) :
    next s t = some (destroy s t) := by
  unfold next
  simp only [hg]

theorem mutex_ne_none (hall : ∀ es s, (system programs).Run es s → Exclusive s)
    (hrun : (system programs).Run es s) {calls : List Call}
    (hg : s.guard t = some ⟨true, calls⟩) : s.m_mutex ≠ none := by
  intro hfree
  have hrel := (hall _ _ hrun).released
  rw [hfree, Option.toList_none, List.append_nil] at hrel
  have hextra : ∀ s' : State θ, next s t = some s' → s'.acquired = s.acquired →
      s'.released = s.released ++ [t] → False := by
    intro s' hs' hacq hrel'
    have h := (hall _ _ (hrun.step hs')).released
    have hlen := congrArg List.length h
    rw [hacq, hrel', hrel] at hlen
    simp only [List.length_append, List.length_singleton] at hlen
    omega
  cases calls with
  | nil => exact hextra _ (next_destroy hg) rfl rfl
  | cons c calls =>
    cases c with
    | unlock => exact hextra _ (next_unlock hg) rfl rfl
    | lock =>
      have h := (hall _ _ (hrun.step (next_lock hg))).relocked (t, s.m_mutex)
        (List.mem_append_right _ List.mem_cons_self)
      rw [hfree] at h
      cases h

theorem finish_block (hall : ∀ es s, (system programs).Run es s → Exclusive s)
    (hrun : (system programs).Run es s) {calls : List Call}
    (hg : s.guard t = some ⟨true, calls⟩) :
    Call.unlock ∉ calls ∧ ∃ es' s', (system programs).Run es' s' ∧ s'.guard t = none ∧
      s'.m_mutex = none ∧ s'.blocks = s.blocks := by
  induction calls generalizing es s with
  | nil =>
    refine ⟨List.not_mem_nil, _, destroy s t, hrun.step (next_destroy hg), ?_, rfl, rfl⟩
    unfold destroy setGuard
    simp only [Function.update_self]
  | cons c calls ih =>
    cases c with
    | lock =>
      obtain ⟨hcalls, es', s', hrun', h1, h2, h3⟩ :=
        ih (hrun.step (next_lock hg)) (Function.update_self t _ _)
      refine ⟨fun h => ?_, es', s', hrun', h1, h2, h3⟩
      rcases List.mem_cons.mp h with h | h
      · cases h
      · exact hcalls h
    | unlock =>
      have hrun' := hrun.step (next_unlock hg)
      exact absurd rfl (mutex_ne_none hall hrun' (Function.update_self t _ _))

theorem blocks_of_exclusive (hall : ∀ es s, (system programs).Run es s → Exclusive s)
    (hrun : (system programs).Run es s) (hg : s.guard t = none) (hfree : s.m_mutex = none)
    {blocks : List (List Call)} (hblocks : s.blocks t = blocks) :
    ∀ block ∈ blocks, Call.unlock ∉ block := by
  induction blocks generalizing es s with
  | nil => exact nofun
  | cons block blocks ih =>
    have hnext : ∃ s', next s t = some s' ∧ s'.guard t = some ⟨true, block⟩ ∧
        s'.blocks t = blocks := by
      unfold next
      simp only [hg, hblocks, construct, acquire, hfree, if_true]
      exact ⟨_, rfl, Function.update_self t _ _, Function.update_self t _ _⟩
    obtain ⟨s1, hs1, hg1, hb1⟩ := hnext
    obtain ⟨hblock, es', s', hrun', hg', hfree', hb'⟩ := finish_block hall (hrun.step hs1) hg1
    rw [List.forall_mem_cons]
    exact ⟨hblock, ih hrun' hg' hfree' (by rw [hb', hb1])⟩

/-- Every interleaving of the threads is exclusive, exactly when no block calls `unlock()`. -/
theorem exclusive_iff (programs : θ → List (List Call)) :
    (∀ es s, (system programs).Run es s → Exclusive s) ↔
      ∀ t, ∀ block ∈ programs t, Call.unlock ∉ block := by
  constructor
  · intro hall t
    exact blocks_of_exclusive hall (System.Run.start rfl) rfl rfl rfl
  · intro h es s hrun
    refine (hrun.invariant (I := Apart) ?_ ?_).exclusive
    · rintro s rfl
      exact apart_start h
    · intro s t s' hs hstep
      exact hs.next hstep

end Runs

/-- The first thread gives the mutex back before its block ends, and enters a
second block. The other thread enters one. -/
def giveBack (t : Bool) : List (List Call) := if t then [[.unlock], []] else [[]]

theorem giveBack_not_exclusive :
    ∃ s, (system giveBack).Run [true, true, false, true, true] s ∧ s.inside true = true ∧
      s.inside false = true ∧ ¬ Exclusive s := by
  refine ⟨_, System.Run.of_next (fun _ _ _ h => h) rfl rfl, rfl, rfl, fun h => ?_⟩
  exact absurd (h.inside true false rfl rfl) (by decide)

end TinyRpc.ScopeMutex
