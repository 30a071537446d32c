import Mathlib.Data.List.Chain
import TinyRpc.Lib.Decimal
import TinyRpc.Lib.Runs
import TinyRpc.TcpBuffer

/-!
# Message ids

`msg_id_util.cc`. A thread counts up from a random number of twenty digits,
with a carry that is done on the string. When the string is all nines it
starts again from a new random number.
-/

namespace TinyRpc

open Lib

def g_msg_id_length : Nat := 20

/-- The two strings of a thread. -/
structure MsgIDUtil where
  t_msg_id_no : Bytes := []
  t_max_msg_id_no : Bytes := []
  deriving DecidableEq

namespace MsgIDUtil

/-! ## The function of `msg_id_util.cc` -/

/-- The digit that is made of a random byte. -/
def randomDigit (b : Byte) : Byte := BitVec.ofNat 8 (b.toNat % 10 + 48)

/-- The `while` loop: the index at which it stops. It looks at the byte in front of
the string before it sees that the index is negative: then there is no result. -/
def skipNines (t : Bytes) : Nat → Option Nat
  | 0 => none
  | i + 1 =>
    match t[i]? with
    | none => none
    | some c => if c = Decimal.nine then skipNines t i else some i

/-- The digit at the index goes up, and zeros come behind it. -/
def carry (t : Bytes) (i : Nat) : Bytes :=
  t.take i ++ (t.getD i 0 + 1) :: List.replicate (t.length - (i + 1)) Decimal.zero

def reseeds (s : MsgIDUtil) : Prop := s.t_msg_id_no = [] ∨ s.t_msg_id_no = s.t_max_msg_id_no

instance (s : MsgIDUtil) : Decidable s.reseeds := inferInstanceAs (Decidable (_ ∨ _))

/-- The id and the strings afterwards. `res` is what `read()` gets from `/dev/urandom`. -/
def GenMsgID (s : MsgIDUtil) (res : Bytes) : Option (Bytes × MsgIDUtil) :=
  if s.reseeds then
    if res.length ≠ g_msg_id_length then some ([], s)
    else
      let t_msg_id_no := res.map randomDigit
      some (t_msg_id_no,
        { t_msg_id_no
          t_max_msg_id_no := s.t_max_msg_id_no ++ List.replicate g_msg_id_length Decimal.nine })
  else do
    let i ← skipNines s.t_msg_id_no s.t_msg_id_no.length
    let t_msg_id_no := carry s.t_msg_id_no i
    return (t_msg_id_no, { s with t_msg_id_no })

/-! ## The carry -/

structure IsId (t : Bytes) : Prop where
  length : t.length = g_msg_id_length
  digits : ∀ b ∈ t, Decimal.IsDigit b

def allNines : Bytes := List.replicate g_msg_id_length Decimal.nine

theorem skipNines_append (l : Bytes) {c : Byte} (hc : c ≠ Decimal.nine) (k : Nat) :
    let t := l ++ c :: List.replicate k Decimal.nine
    skipNines t t.length = some l.length := by
  intro t
  have hlast : ∀ j ≤ k, skipNines t (l.length + 1 + j) = some l.length := by
    intro j hj
    induction j with
    | zero =>
      unfold skipNines
      simp [t, hc]
    | succ j ih =>
      have hnine : t[l.length + 1 + j]? = some Decimal.nine := by
        simp only [t]
        rw [List.append_cons, List.getElem?_append_right (by simp)]
        refine List.getElem?_replicate_of_lt ?_
        simp only [List.length_append, List.length_singleton]
        omega
      change skipNines t (l.length + 1 + j + 1) = _
      unfold skipNines
      simp only [hnine, if_true]
      exact ih (by omega)
  have hlen : t.length = l.length + 1 + k := by
    simp [t]
    omega
  rw [hlen]
  exact hlast k (Nat.le_refl k)

theorem carry_append (l : Bytes) (c : Byte) (k : Nat) :
    carry (l ++ c :: List.replicate k Decimal.nine) l.length =
      l ++ (c + 1) :: List.replicate k Decimal.zero := by
  have hlen : (l ++ c :: List.replicate k Decimal.nine).length - (l.length + 1) = k := by
    simp only [List.length_append, List.length_cons, List.length_replicate]
    omega
  unfold carry
  rw [hlen, List.take_left' rfl, List.getD_eq_getElem?_getD, List.getElem?_append_right
    (Nat.le_refl _), Nat.sub_self]
  rfl

theorem split_nines {t : Bytes} (h : t ≠ List.replicate t.length Decimal.nine) :
    ∃ l c k, c ≠ Decimal.nine ∧ t = l ++ c :: List.replicate k Decimal.nine := by
  induction t using List.reverseRecOn with
  | nil => exact absurd rfl h
  | append_singleton t b ih =>
    by_cases hb : b = Decimal.nine
    · subst hb
      have ht : t ≠ List.replicate t.length Decimal.nine := by
        intro heq
        rw [List.length_append, List.length_singleton, List.replicate_succ', ← heq] at h
        exact h rfl
      obtain ⟨l, c, k, hc, heq⟩ := ih ht
      refine ⟨l, c, k + 1, hc, ?_⟩
      conv_lhs => rw [heq]
      simp [List.replicate_succ']
    · exact ⟨t, b, 0, hb, rfl⟩

theorem isDigit_succ {c : Byte} (h : Decimal.IsDigit c) (hc : c ≠ Decimal.nine) :
    Decimal.IsDigit (c + 1) ∧ Decimal.digit (c + 1) = Decimal.digit c + 1 := by
  obtain ⟨hlo, hhi⟩ := h
  have hne : c.toNat ≠ 57 := fun heq => hc (BitVec.eq_of_toNat_eq heq)
  have hsucc : (c + 1).toNat = c.toNat + 1 := by
    rw [BitVec.toNat_add]
    exact Nat.mod_eq_of_lt (by have : (1 : Byte).toNat = 1 := rfl; omega)
  unfold Decimal.IsDigit Decimal.digit
  rw [hsucc]
  omega

theorem carry_spec {t : Bytes} (hdigits : ∀ b ∈ t, Decimal.IsDigit b)
    (h : t ≠ List.replicate t.length Decimal.nine) :
    ∃ i, skipNines t t.length = some i ∧ (carry t i).length = t.length ∧
      (∀ b ∈ carry t i, Decimal.IsDigit b) ∧ Decimal.value (carry t i) = Decimal.value t + 1 := by
  obtain ⟨l, c, k, hc, rfl⟩ := split_nines h
  have hl : ∀ b ∈ l, Decimal.IsDigit b := fun b hb => hdigits b (List.mem_append_left _ hb)
  obtain ⟨hsucc, hdigit⟩ :=
    isDigit_succ (hdigits c (List.mem_append_right _ List.mem_cons_self)) hc
  refine ⟨l.length, skipNines_append l hc k, ?_, ?_, ?_⟩
  · rw [carry_append]
    simp
  · rw [carry_append]
    intro b hb
    rcases List.mem_append.mp hb with hb | hb
    · exact hl b hb
    rcases List.mem_cons.mp hb with rfl | hb
    · exact hsucc
    · rw [List.eq_of_mem_replicate hb]
      exact Decimal.isDigit_zero
  · rw [carry_append, Decimal.value_append_cons, Decimal.value_append_cons, hdigit,
      Decimal.value_replicate_zero, List.length_replicate, List.length_replicate, Nat.add_assoc,
      Decimal.value_replicate_nine]
    ring

/-! ## The calls of one thread -/

/-- A thread, and the ids it has got since its string was last made of random bytes. -/
structure Caller where
  strings : MsgIDUtil := {}
  since : List Bytes := []

namespace Caller

/-- A call, with the twenty bytes that it would read. -/
def next (s : Caller) (res : Bytes) : Option Caller :=
  if res.length ≠ g_msg_id_length then none
  else do
    let (id, strings) ← s.strings.GenMsgID res
    return { strings, since := if s.strings.reseeds then [id] else s.since ++ [id] }

def system : System Caller Bytes where
  start s := s = {}
  step s res t := s.next res = some t

/-- The ids since the last reseed have twenty digits, each is the next number
after the one in front of it, and so they go up. -/
structure Counted (s : Caller) : Prop where
  ids : ∀ id ∈ s.since, IsId id
  consecutive : s.since.IsChain fun id id' => Decimal.value id' = Decimal.value id + 1
  increasing : s.since.Pairwise fun id id' => Decimal.value id < Decimal.value id'

/-- What a call should do: all its indices are in range, it returns an id, the next
one unless it reseeds, and it reseeds after all nines. -/
structure Succeeds (s : Caller) (res : Bytes) : Prop where
  call : ∃ id strings, s.strings.GenMsgID res = some (id, strings) ∧ IsId id ∧
    (¬ s.strings.reseeds → Decimal.value id = Decimal.value s.strings.t_msg_id_no + 1)
  nines : s.strings.t_msg_id_no = allNines → s.strings.reseeds

/-- When the last id is all nines, so is the other string: the thread has reseeded once. -/
def Proper (s : Caller) (_ : Bytes) : Prop :=
  s.strings.t_msg_id_no = allNines → s.strings.t_max_msg_id_no = allNines

instance (s : Caller) : DecidablePred s.Proper := fun _ => inferInstanceAs (Decidable (_ → _))

/-! ## What one call keeps -/

structure Current (s : Caller) : Prop extends Counted s where
  last : s.since.getLast? =
    if s.strings.t_msg_id_no = [] then none else some s.strings.t_msg_id_no

theorem Current.isId {s : Caller} (h : s.Current) (hne : s.strings.t_msg_id_no ≠ []) :
    IsId s.strings.t_msg_id_no := by
  have hlast := h.last
  rw [if_neg hne] at hlast
  exact h.ids _ (List.mem_of_getLast? hlast)

theorem isDigit_randomDigit (b : Byte) : Decimal.IsDigit (randomDigit b) := by
  have hlt : b.toNat % 10 < 10 := Nat.mod_lt _ (by decide)
  have hval : (randomDigit b).toNat = b.toNat % 10 + 48 := by
    unfold randomDigit
    rw [BitVec.toNat_ofNat]
    exact Nat.mod_eq_of_lt (by omega)
  unfold Decimal.IsDigit
  omega

theorem isId_random {res : Bytes} (h : res.length = g_msg_id_length) :
    IsId (res.map randomDigit) := by
  refine ⟨by rw [List.length_map, h], fun b hb => ?_⟩
  obtain ⟨c, -, rfl⟩ := List.mem_map.mp hb
  exact isDigit_randomDigit c

theorem GenMsgID_reseed {s : MsgIDUtil} (h : s.reseeds) {res : Bytes}
    (hres : res.length = g_msg_id_length) :
    GenMsgID s res = some (res.map randomDigit,
      { t_msg_id_no := res.map randomDigit
        t_max_msg_id_no :=
          s.t_max_msg_id_no ++ List.replicate g_msg_id_length Decimal.nine }) := by
  unfold GenMsgID
  rw [if_pos h, if_neg (not_not_intro hres)]

theorem GenMsgID_count {s : MsgIDUtil} (h : ¬ s.reseeds) (hid : IsId s.t_msg_id_no)
    (hnines : s.t_msg_id_no ≠ allNines) (res : Bytes) :
    ∃ id, GenMsgID s res = some (id, { s with t_msg_id_no := id }) ∧ IsId id ∧
      Decimal.value id = Decimal.value s.t_msg_id_no + 1 := by
  obtain ⟨i, hskip, hlen, hdigits, hvalue⟩ := carry_spec hid.digits (by
    rw [hid.length]
    exact hnines)
  refine ⟨carry s.t_msg_id_no i, ?_, ⟨hlen.trans hid.length, hdigits⟩, hvalue⟩
  unfold GenMsgID
  rw [if_neg h, hskip]
  rfl

theorem Current.succeeds_iff {s : Caller} (h : s.Current) {res : Bytes}
    (hres : res.length = g_msg_id_length) : s.Succeeds res ↔ s.Proper res := by
  by_cases hreseeds : s.strings.reseeds
  · have hid := isId_random hres
    refine ⟨fun _ hnines => ?_, fun _ => ⟨⟨_, _, GenMsgID_reseed hreseeds hres, hid,
      fun hnot => absurd hreseeds hnot⟩, fun _ => hreseeds⟩⟩
    rcases hreseeds with hempty | heq
    · rw [hempty] at hnines
      cases hnines
    · rw [← heq, hnines]
  · have hne : s.strings.t_msg_id_no ≠ [] := fun hempty => hreseeds (.inl hempty)
    by_cases hnines : s.strings.t_msg_id_no = allNines
    · refine ⟨fun hgood => absurd (hgood.nines hnines) hreseeds, fun hproper => ?_⟩
      exact absurd (.inr (hnines.trans (hproper hnines).symm)) hreseeds
    · obtain ⟨id, hcall, hid, hvalue⟩ := GenMsgID_count hreseeds (h.isId hne) hnines res
      exact ⟨fun _ heq => absurd heq hnines,
        fun _ => ⟨⟨id, _, hcall, hid, fun _ => hvalue⟩, fun heq => absurd heq hnines⟩⟩

theorem Counted.of_chain {s : Caller} (hids : ∀ id ∈ s.since, IsId id)
    (hchain : s.since.IsChain fun id id' => Decimal.value id' = Decimal.value id + 1) :
    s.Counted := by
  have hlt : s.since.IsChain fun id id' => Decimal.value id < Decimal.value id' :=
    hchain.imp fun id id' heq => by
      rw [heq]
      exact Nat.lt_succ_self _
  have : IsTrans Bytes fun id id' => Decimal.value id < Decimal.value id' :=
    ⟨fun _ _ _ => Nat.lt_trans⟩
  exact ⟨hids, hchain, List.isChain_iff_pairwise.mp hlt⟩

theorem Current.next {s t : Caller} (h : s.Current) {res : Bytes} (hproper : s.Proper res)
    (ht : s.next res = some t) : t.Current := by
  unfold Caller.next at ht
  split at ht
  · cases ht
  rename_i hres
  have hres' : res.length = g_msg_id_length := Decidable.not_not.mp hres
  simp only [Option.bind_eq_bind, Option.bind_eq_some_iff] at ht
  obtain ⟨⟨id, strings⟩, hcall, ht⟩ := ht
  -- After a reseed the ids count from the random one.
  by_cases hreseeds : s.strings.reseeds
  · have hid := isId_random hres'
    rw [GenMsgID_reseed hreseeds hres'] at hcall
    cases hcall
    simp only [if_pos hreseeds, Option.pure_def, Option.some.injEq] at ht
    rw [← ht]
    have hne : res.map randomDigit ≠ [] := by
      intro hnil
      have := hid.length
      rw [hnil] at this
      cases this
    refine ⟨.of_chain ?_ ?_, ?_⟩
    · intro id hmem
      rw [List.mem_singleton.mp hmem]
      exact hid
    · exact List.IsChain.singleton _
    · rw [if_neg hne]
      rfl
  · have hne : s.strings.t_msg_id_no ≠ [] := fun hempty => hreseeds (.inl hempty)
    have hnines : s.strings.t_msg_id_no ≠ allNines := fun hnines =>
      hreseeds (.inr (hnines.trans (hproper hnines).symm))
    obtain ⟨id', hcall', hid, hvalue⟩ := GenMsgID_count hreseeds (h.isId hne) hnines res
    rw [hcall'] at hcall
    cases hcall
    simp only [if_neg hreseeds, Option.pure_def, Option.some.injEq] at ht
    rw [← ht]
    have hlast := h.last
    rw [if_neg hne] at hlast
    have hne' : id ≠ [] := by
      intro hnil
      have := hid.length
      rw [hnil] at this
      cases this
    refine ⟨.of_chain ?_ ?_, ?_⟩
    · intro id' hmem
      rcases List.mem_append.mp hmem with hmem | hmem
      · exact h.ids id' hmem
      · rw [List.mem_singleton.mp hmem]
        exact hid
    · refine List.isChain_append.mpr ⟨h.consecutive, List.IsChain.singleton _, ?_⟩
      intro x hx y hy
      rw [hlast] at hx
      cases hx
      cases hy
      exact hvalue
    · rw [if_neg hne']
      simp

theorem current_run {es : List Bytes} {s : Caller} (hrun : (system.restrict Proper).Run es s) :
    s.Current := by
  refine hrun.invariant ?_ fun _ _ _ h hstep => h.next hstep.1 hstep.2
  rintro s rfl
  exact ⟨.of_chain (by simp) List.IsChain.nil, rfl⟩

/-- The ids count up as long as no call follows an id of all nines after a second
reseed. A call succeeds exactly if it does not. -/
theorem counted_run (es : List Bytes) (s : Caller) (hrun : (system.restrict Proper).Run es s) :
    s.Counted ∧
      ∀ res : Bytes, res.length = g_msg_id_length → (s.Succeeds res ↔ s.Proper res) := by
  have h := current_run hrun
  exact ⟨h.toCounted, fun _ hres => h.succeeds_iff hres⟩

/-! ## Nines -/

/-- Random bytes that make an id of all nines. -/
def nineBytes : Bytes := List.replicate g_msg_id_length 9

theorem counted_run_nines : ∃ s : Caller,
    s.since = [List.replicate g_msg_id_length Decimal.zero] ∧ s.Counted := by
  have hlast : ([nineBytes, List.replicate g_msg_id_length 0].foldlM
      (System.guarded Proper next) {}).map since =
      some [List.replicate g_msg_id_length Decimal.zero] := by decide +kernel
  obtain ⟨s, hs, hlast⟩ := Option.map_eq_some_iff.mp hlast
  have hrun := System.Run.of_guarded (S := system) (fun _ _ _ h => h) rfl hs
  exact ⟨s, hlast, (counted_run _ s hrun).1⟩

/-- The second time it is not: the other string has forty nines by then, and the carry
leaves the string. -/
theorem nines_not_followed : ∃ s : Caller, system.Run [nineBytes, nineBytes] s ∧
    s.since = [allNines] ∧ s.strings.t_max_msg_id_no.length = 40 ∧
    s.strings.GenMsgID nineBytes = none ∧ ¬ s.Succeeds nineBytes := by
  have hlast : ([nineBytes, nineBytes].foldlM next {}).map (fun s => (s.since,
      s.strings.t_max_msg_id_no.length, s.strings.GenMsgID nineBytes)) =
      some ([allNines], 40, none) := by decide +kernel
  obtain ⟨s, hs, hlast⟩ := Option.map_eq_some_iff.mp hlast
  simp only [Prod.mk.injEq] at hlast
  obtain ⟨hsince, hlen, hnone⟩ := hlast
  refine ⟨s, System.Run.of_next (fun _ _ _ h => h) rfl hs, hsince, hlen, hnone, fun h => ?_⟩
  obtain ⟨id, strings, hcall, -⟩ := h.call
  rw [hnone] at hcall
  cases hcall

end Caller

end MsgIDUtil

end TinyRpc
