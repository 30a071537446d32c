import Mathlib.Data.Option.Basic

/-!
# Computations that log what they touch

A `Traced` computation records one event for each thing it touches, in order,
and may stop with no value. A program that reads memory through it can be
asked two questions: what it returns, and whether every event was allowed.
-/

namespace TinyRpc.Lib

/-- The events of a computation, and its value. It has no value when it stopped. -/
structure Traced (ε α : Type) where
  log : List ε
  val : Option α
  deriving DecidableEq

namespace Traced

variable {ε α β : Type}

def stop : Traced ε α := ⟨[], none⟩

/-- One event. The value is there when the event had a defined result. -/
def event (e : ε) (v : Option α) : Traced ε α := ⟨[e], v⟩

def ofOption (v : Option α) : Traced ε α := ⟨[], v⟩

def restLog (v : Option α) (f : α → Traced ε β) : List ε :=
  match v with
  | some a => (f a).log
  | none => []

instance : Monad (Traced ε) where
  pure a := ⟨[], some a⟩
  bind x f := ⟨x.log ++ restLog x.val f, x.val.bind fun a => (f a).val⟩

/-! ## The value -/

@[simp] theorem val_pure (a : α) : (pure a : Traced ε α).val = some a := rfl
@[simp] theorem val_event (e : ε) (v : Option α) : (event e v).val = v := rfl
@[simp] theorem val_ofOption (v : Option α) : (ofOption v : Traced ε α).val = v := rfl
@[simp] theorem val_bind (x : Traced ε α) (f : α → Traced ε β) :
    (x >>= f).val = x.val.bind fun a => (f a).val := rfl

theorem val_bind_of {x : Traced ε α} {f : α → Traced ε β} {a : α} {v : Option β}
    (hx : x.val = some a) (hf : (f a).val = v) : (x >>= f).val = v := by
  rw [val_bind, hx]
  exact hf

/-! ## Every event is allowed -/

def All (P : ε → Prop) (x : Traced ε α) : Prop := ∀ e ∈ x.log, P e

@[simp] theorem all_pure (P : ε → Prop) (a : α) : All P (pure a : Traced ε α) := by
  intro e he; cases he

@[simp] theorem all_stop (P : ε → Prop) : All P (stop : Traced ε α) := by
  intro e he; cases he

@[simp] theorem all_ofOption (P : ε → Prop) (v : Option α) :
    All P (ofOption v : Traced ε α) := by
  intro e he; cases he

@[simp] theorem all_event (P : ε → Prop) (e : ε) (v : Option α) :
    All P (event e v) ↔ P e := by
  simp [All, event]

@[simp] theorem all_bind (P : ε → Prop) (x : Traced ε α) (f : α → Traced ε β) :
    All P (x >>= f) ↔ All P x ∧ ∀ a, x.val = some a → All P (f a) := by
  have hlog : (x >>= f).log = x.log ++ restLog x.val f := rfl
  unfold All
  simp only [hlog, List.forall_mem_append]
  refine and_congr_right fun _ => ?_
  cases hx : x.val with
  | none => simp [restLog]
  | some a => simp [restLog]

theorem all_ite (P : ε → Prop) (c : Prop) [Decidable c] (x y : Traced ε α) :
    All P (if c then x else y) ↔ (c → All P x) ∧ (¬ c → All P y) := by
  split <;> simp [*]

/-! ## Computations that stop only at an event that is not allowed -/

/-- As long as its events are allowed, the computation has a value. -/
def Guarded (P : ε → Prop) (x : Traced ε α) : Prop := All P x → ∃ a, x.val = some a

theorem guarded_pure {P : ε → Prop} (a : α) : Guarded P (pure a : Traced ε α) :=
  fun _ => ⟨a, rfl⟩

theorem guarded_event {P : ε → Prop} {e : ε} {v : Option α} (h : P e → ∃ a, v = some a) :
    Guarded P (event e v) :=
  fun he => h ((all_event P e v).mp he)

theorem guarded_bind {P : ε → Prop} {x : Traced ε α} {f : α → Traced ε β} (hx : Guarded P x)
    (hf : ∀ a, Guarded P (f a)) : Guarded P (x >>= f) := by
  intro h
  obtain ⟨h1, h2⟩ := (all_bind P x f).mp h
  obtain ⟨a, ha⟩ := hx h1
  obtain ⟨b, hb⟩ := hf a (h2 a ha)
  exact ⟨b, val_bind_of ha hb⟩

theorem guarded_ite {P : ε → Prop} {c : Prop} [Decidable c] {x y : Traced ε α}
    (hx : Guarded P x) (hy : Guarded P y) : Guarded P (if c then x else y) := by
  split <;> assumption

/-- The events of a computation whose first part is guarded. The rest runs on
the value of the first part, and `d` stands for a value that is not there. -/
theorem all_bind_guarded {P : ε → Prop} {x : Traced ε α} {f : α → Traced ε β}
    (hx : Guarded P x) (d : α) :
    All P (x >>= f) ↔ All P x ∧ All P (f (x.val.getD d)) := by
  rw [all_bind]
  refine and_congr_right fun h => ?_
  obtain ⟨a, ha⟩ := hx h
  simp [ha]

/-! ## Values of computations whose events are all allowed -/

def Gives (P : ε → Prop) (x : Traced ε α) (a : α) : Prop := All P x ∧ x.val = some a

@[simp] theorem gives_pure {P : ε → Prop} {a b : α} :
    Gives P (pure a : Traced ε α) b ↔ a = b := by
  unfold Gives
  rw [val_pure, Option.some.injEq]
  exact and_iff_right (all_pure P a)

@[simp] theorem gives_event {P : ε → Prop} {e : ε} {v : Option α} {a : α} :
    Gives P (event e v) a ↔ P e ∧ v = some a := by
  unfold Gives
  rw [all_event, val_event]

theorem gives_bind {P : ε → Prop} {x : Traced ε α} {f : α → Traced ε β} {b : β} :
    Gives P (x >>= f) b ↔ ∃ a, Gives P x a ∧ Gives P (f a) b := by
  unfold Gives
  rw [all_bind, val_bind, Option.bind_eq_some_iff]
  constructor
  · rintro ⟨⟨hx, hf⟩, a, ha, hb⟩
    exact ⟨a, ⟨hx, ha⟩, hf a ha, hb⟩
  · rintro ⟨a, ⟨hx, ha⟩, hf, hb⟩
    refine ⟨⟨hx, fun a' ha' => ?_⟩, a, ha, hb⟩
    rw [ha] at ha'
    cases ha'
    exact hf

end Traced

end TinyRpc.Lib
