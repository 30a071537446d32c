import Mathlib.Data.List.Nodup
import Mathlib.Logic.Function.Basic
import TinyRpc.Connection.Spec
import TinyRpc.Lib.Runs

/-!
# The replies that a client waits for

`readMessage` puts a callback into the map `m_read_dones`, under the id of the
message it waits for. `excute` looks up the id of each message it has decoded,
runs the callback it finds, and erases the entry behind that. `insert` does
nothing when there is an entry for the id.
-/

namespace TinyRpc

open Lib Coder

/-! ## The reader of a client -/

/-- The callbacks are numbered in the order in which they are registered. -/
structure Reader where
  conn : TcpConnection Nat
  /-- The messages that the loop of `excute` has still to look at. -/
  result : List TinyPBProtocol := []
  /-- The id of the entry whose callback is running. -/
  calling : Option Bytes := none
  registered : List Bytes := []
  invoked : List (Nat × TinyPBProtocol) := []
  /-- How many registrations for an id have had no message yet. -/
  waiting : Bytes → Nat := fun _ => 0

namespace Reader

inductive Event where
  | pushReadMessage (req_id : Bytes)
  /-- `decode` has returned in `excute`. -/
  | excute (result : List TinyPBProtocol)
  /-- The loop of `excute` looks up the id of the next message. -/
  | turn
  /-- The callback returns, and its entry is erased. -/
  | returned

def next (s : Reader) : Event → Option Reader
  | .pushReadMessage req_id => some { s with
      conn := s.conn.pushReadMessage req_id s.registered.length
      registered := s.registered ++ [req_id]
      waiting := Function.update s.waiting req_id (s.waiting req_id + 1) }
  | .excute result => if s.result = [] ∧ s.calling = none then some { s with result } else none
  | .turn =>
    match s.calling, s.result with
    | none, m :: result =>
      let s := { s with
        result := result
        waiting := Function.update s.waiting m.m_msg_id (s.waiting m.m_msg_id - 1) }
      match s.conn.m_read_dones.find? fun d => d.1 = m.m_msg_id with
      | none => some s
      | some d => some { s with calling := some d.1, invoked := s.invoked ++ [(d.2, m)] }
    | _, _ => none
  | .returned => s.calling.map fun req_id =>
    { s with
      conn := { s.conn with
        m_read_dones := s.conn.m_read_dones.filter fun d => d.1 ≠ req_id }
      calling := none }

def system : System Reader Event where
  start s := s.conn.m_read_dones = [] ∧ s = { conn := s.conn }
  step s e t := s.next e = some t

/-- How often a callback was given a message with this id. -/
def answered (s : Reader) (req_id : Bytes) : Nat :=
  (s.invoked.map fun c => c.2.m_msg_id).count req_id

/-- A callback is invoked at most once, with a message of its id, and as soon as
there have been as many messages for it and the registrations in front of it. -/
structure Matched (s : Reader) : Prop where
  once : (s.invoked.map Prod.fst).Nodup
  own : ∀ c ∈ s.invoked, s.registered[c.1]? = some c.2.m_msg_id
  all : ∀ req_id, s.registered.count req_id = s.answered req_id + s.waiting req_id

/-- The entry and the calls for an id are as before. -/
structure Untouched (req_id : Bytes) (s t : Reader) : Prop where
  dones : t.conn.m_read_dones.filter (·.1 = req_id) = s.conn.m_read_dones.filter (·.1 = req_id)
  invoked : t.invoked.filter (·.2.m_msg_id = req_id) = s.invoked.filter (·.2.m_msg_id = req_id)

/-- A message changes nothing for the other ids, neither when its callback is called
nor when it returns. -/
structure OnlyOwn (s : Reader) : Prop where
  turn : ∀ m result t, s.result = m :: result → s.next .turn = some t →
    ∀ req_id ≠ m.m_msg_id, Untouched req_id s t
  returned : ∀ m t, s.calling = some m → s.next .returned = some t →
    ∀ req_id ≠ m, Untouched req_id s t

/-- An id is registered only while there is no entry for it, that of a running
callback included. -/
def Fresh (s : Reader) : Event → Prop
  | .pushReadMessage req_id => req_id ∉ s.conn.m_read_dones.map Prod.fst
  | _ => True

/-! ## What a step does -/

/-- The entries whose callbacks have not been called. -/
def live (s : Reader) : List (Bytes × Nat) :=
  match s.calling with
  | none => s.conn.m_read_dones
  | some req_id => s.conn.m_read_dones.filter fun d => d.1 ≠ req_id

theorem turn_cases {s t : Reader} (h : s.next .turn = some t) :
    ∃ m result, s.calling = none ∧ s.result = m :: result ∧
      (s.conn.m_read_dones.find? (fun d => d.1 = m.m_msg_id) = none ∧ t = { s with
        result := result
        waiting := Function.update s.waiting m.m_msg_id (s.waiting m.m_msg_id - 1) } ∨
      ∃ n, s.conn.m_read_dones.find? (fun d => d.1 = m.m_msg_id) = some (m.m_msg_id, n) ∧
        t = { s with
          result := result
          waiting := Function.update s.waiting m.m_msg_id (s.waiting m.m_msg_id - 1)
          calling := some m.m_msg_id
          invoked := s.invoked ++ [(n, m)] }) := by
  unfold next at h
  simp only at h
  split at h
  · rename_i m result hcalling hresult
    refine ⟨m, result, hcalling, hresult, ?_⟩
    split at h
    · rename_i hfind
      exact .inl ⟨hfind, (Option.some.inj h).symm⟩
    · rename_i d hfind
      obtain ⟨req_id, n⟩ := d
      have hid : req_id = m.m_msg_id := by simpa using List.find?_some hfind
      subst hid
      exact .inr ⟨n, hfind, (Option.some.inj h).symm⟩
  · cases h

theorem returned_eq {s t : Reader} (h : s.next .returned = some t) :
    ∃ req_id, s.calling = some req_id ∧ t = { s with
      conn := { s.conn with
        m_read_dones := s.conn.m_read_dones.filter fun d => d.1 ≠ req_id }
      calling := none } := by
  unfold next at h
  obtain ⟨req_id, hcalling, rfl⟩ := Option.map_eq_some_iff.mp h
  exact ⟨req_id, hcalling, rfl⟩

theorem excute_eq {s t : Reader} {result : List TinyPBProtocol}
    (h : s.next (.excute result) = some t) :
    s.result = [] ∧ s.calling = none ∧ t = { s with result } := by
  unfold next at h
  simp only at h
  split at h
  · rename_i hidle
    cases h
    exact ⟨hidle.1, hidle.2, rfl⟩
  · cases h

theorem onlyOwn (s : Reader) : s.OnlyOwn := by
  constructor
  · intro m result t hresult ht req_id hne
    obtain ⟨m', result', -, hresult', ⟨-, rfl⟩ | ⟨n, -, rfl⟩⟩ := turn_cases ht
    · exact ⟨rfl, rfl⟩
    · obtain ⟨rfl, rfl⟩ := List.cons.inj (hresult.symm.trans hresult')
      exact ⟨rfl, by simp [List.filter_append, hne.symm]⟩
  · intro m t hm ht req_id hne
    obtain ⟨m', hm', rfl⟩ := returned_eq ht
    cases hm.symm.trans hm'
    refine ⟨?_, rfl⟩
    simp only [List.filter_filter]
    congr 1
    funext d
    rcases eq_or_ne d.1 req_id with rfl | hd
    · simp [hne]
    · simp [hd]

/-! ## What holds in every run -/

structure Consistent (s : Reader) : Prop where
  keys : (s.conn.m_read_dones.map Prod.fst).Nodup
  entries : ∀ d ∈ s.conn.m_read_dones, s.registered[d.2]? = some d.1
  once : (s.invoked.map Prod.fst).Nodup
  own : ∀ c ∈ s.invoked, s.registered[c.1]? = some c.2.m_msg_id
  apart : ∀ d ∈ s.live, d.2 ∉ s.invoked.map Prod.fst
  running : ∀ req_id, s.calling = some req_id → req_id ∈ s.conn.m_read_dones.map Prod.fst

theorem Consistent.keep_live {s t : Reader} (h : s.Consistent)
    (hdones : t.conn.m_read_dones = s.conn.m_read_dones) (hcalling : t.calling = s.calling)
    (hregistered : t.registered = s.registered) (hinvoked : t.invoked = s.invoked) :
    t.Consistent := by
  have hlive : t.live = s.live := by
    unfold live
    rw [hcalling, hdones]
  refine ⟨?_, ?_, ?_, ?_, ?_, ?_⟩
  · rw [hdones]
    exact h.keys
  · rw [hdones, hregistered]
    exact h.entries
  · rw [hinvoked]
    exact h.once
  · rw [hinvoked, hregistered]
    exact h.own
  · rw [hlive, hinvoked]
    exact h.apart
  · rw [hcalling, hdones]
    exact h.running

theorem getElem?_registered {registered : List Bytes} {n : Nat} {req_id other : Bytes}
    (h : registered[n]? = some req_id) : (registered ++ [other])[n]? = some req_id := by
  obtain ⟨hn, -⟩ := List.getElem?_eq_some_iff.mp h
  rw [List.getElem?_append_left hn, h]

theorem Consistent.pushReadMessage {s : Reader} (h : s.Consistent) (req_id : Bytes) {t : Reader}
    (ht : s.next (.pushReadMessage req_id) = some t) : t.Consistent := by
  have hown : ∀ c ∈ s.invoked,
      (s.registered ++ [req_id])[c.1]? = some c.2.m_msg_id :=
    fun c hc => getElem?_registered (h.own c hc)
  have hentries : ∀ d ∈ s.conn.m_read_dones, (s.registered ++ [req_id])[d.2]? = some d.1 :=
    fun d hd => getElem?_registered (h.entries d hd)
  unfold next TcpConnection.pushReadMessage at ht
  cases ht
  split
  · exact ⟨h.keys, hentries, h.once, hown, h.apart, h.running⟩
  rename_i hnew
  refine ⟨?_, ?_, h.once, hown, ?_, ?_⟩
  · simp only [List.map_append, List.map_cons, List.map_nil]
    exact List.nodup_append.mpr ⟨h.keys, List.nodup_singleton _, fun a ha b hb => by
      rw [List.mem_singleton.mp hb]
      rintro rfl
      exact hnew ha⟩
  · intro d hd
    rcases List.mem_append.mp hd with hd | hd
    · exact hentries d hd
    · rw [List.mem_singleton.mp hd]
      simp
  · intro d hd
    have hd' : d ∈ s.live ∨ d.2 = s.registered.length := by
      unfold live at hd ⊢
      simp only at hd
      split at hd
      · exact (List.mem_append.mp hd).imp_right fun hd => by rw [List.mem_singleton.mp hd]
      · obtain ⟨hd, hne⟩ := List.mem_filter.mp hd
        rcases List.mem_append.mp hd with hd | hd
        · exact .inl (List.mem_filter.mpr ⟨hd, hne⟩)
        · exact .inr (by rw [List.mem_singleton.mp hd])
    rcases hd' with hd' | hd'
    · exact h.apart d hd'
    · rw [hd']
      intro hmem
      obtain ⟨c, hc, hlen⟩ := List.mem_map.mp hmem
      obtain ⟨hlt, -⟩ := List.getElem?_eq_some_iff.mp (h.own c hc)
      omega
  · intro own hcalling
    rw [List.map_append]
    exact List.mem_append_left _ (h.running own hcalling)

theorem Consistent.turn {s t : Reader} (h : s.Consistent) (ht : s.next .turn = some t) :
    t.Consistent := by
  obtain ⟨m, result, hcalling, -, ⟨-, rfl⟩ | ⟨n, hfind, rfl⟩⟩ := turn_cases ht
  · exact h.keep_live rfl rfl rfl rfl
  have hmem := List.mem_of_find?_eq_some hfind
  have hn := h.entries _ hmem
  have hlive : s.live = s.conn.m_read_dones := by
    unfold live
    rw [hcalling]
  refine ⟨h.keys, h.entries, ?_, ?_, ?_, ?_⟩
  · simp only [List.map_append, List.map_cons, List.map_nil]
    refine List.nodup_append.mpr ⟨h.once, List.nodup_singleton _, fun a ha b hb => ?_⟩
    rw [List.mem_singleton.mp hb]
    rintro rfl
    exact h.apart _ (hlive ▸ hmem) ha
  · intro c hc
    rcases List.mem_append.mp hc with hc | hc
    · exact h.own c hc
    · rw [List.mem_singleton.mp hc]
      exact hn
  · intro d hd
    obtain ⟨hd, hne⟩ := List.mem_filter.mp hd
    simp only [List.map_append, List.map_cons, List.map_nil, List.mem_append,
      List.mem_singleton, not_or]
    refine ⟨h.apart d (hlive ▸ hd), fun hsame => ?_⟩
    -- two entries with one number have one id
    have hd' := h.entries d hd
    rw [hsame, hn] at hd'
    simp only [Option.some.injEq] at hd'
    simp [hd'] at hne
  · intro own hown
    cases hown
    exact List.mem_map_of_mem hmem

theorem live_returned {s t : Reader} (ht : s.next .returned = some t) : t.live = s.live := by
  obtain ⟨req_id, hcalling, rfl⟩ := returned_eq ht
  unfold live
  rw [hcalling]

theorem Consistent.returned {s t : Reader} (h : s.Consistent) (ht : s.next .returned = some t) :
    t.Consistent := by
  have hlive := live_returned ht
  obtain ⟨req_id, hcalling, rfl⟩ := returned_eq ht
  refine ⟨?_, ?_, h.once, h.own, ?_, ?_⟩
  · exact h.keys.sublist (List.filter_sublist.map _)
  · exact fun d hd => h.entries d (List.mem_of_mem_filter hd)
  · rw [hlive]
    exact h.apart
  · intro own hown
    cases hown

theorem Consistent.next {s t : Reader} (h : s.Consistent) {e : Event} (ht : s.next e = some t) :
    t.Consistent := by
  cases e with
  | pushReadMessage req_id => exact h.pushReadMessage req_id ht
  | excute result =>
    obtain ⟨-, -, rfl⟩ := excute_eq ht
    exact h.keep_live rfl rfl rfl rfl
  | turn => exact h.turn ht
  | returned => exact h.returned ht

theorem consistent_run {es : List Event} {s : Reader} (hrun : system.Run es s) :
    s.Consistent := by
  refine hrun.invariant ?_ fun _ _ _ h hstep => h.next hstep
  rintro s ⟨hdones, hs⟩
  have hlive : s.live = [] := by
    unfold live
    rw [hs, hdones]
  refine ⟨by simp [hdones], by simp [hdones], ?_, ?_, by simp [hlive], ?_⟩
  all_goals
    rw [hs]
    simp

/-! ## The registrations that are left -/

/-- How many entries for an id have not been called. -/
def pending (s : Reader) (req_id : Bytes) : Nat := (s.live.map Prod.fst).count req_id

theorem count_keys_filter (l : List (Bytes × Nat)) (k req_id : Bytes) :
    ((l.filter fun d => d.1 ≠ k).map Prod.fst).count req_id =
      if req_id = k then 0 else (l.map Prod.fst).count req_id := by
  induction l with
  | nil => simp
  | cons d l ih =>
    rcases eq_or_ne d.1 k with hd | hd
    · rw [List.filter_cons_of_neg (by simpa using hd), ih, List.map_cons, List.count_cons]
      split
      · rfl
      · rename_i hne
        rw [if_neg (by simpa [hd] using Ne.symm hne), Nat.add_zero]
    · rw [List.filter_cons_of_pos (by simpa using hd), List.map_cons, List.map_cons,
        List.count_cons, List.count_cons, ih]
      split
      · rename_i heq
        rw [if_neg (by simpa [heq] using hd)]
      · rfl

theorem count_key_of_find? {l : List (Bytes × Nat)} (hkeys : (l.map Prod.fst).Nodup)
    (req_id : Bytes) : (l.map Prod.fst).count req_id =
      if (l.find? fun d => d.1 = req_id) = none then 0 else 1 := by
  split
  · rename_i hnone
    refine List.count_eq_zero_of_not_mem fun hmem => ?_
    obtain ⟨d, hd, rfl⟩ := List.mem_map.mp hmem
    simpa using List.find?_eq_none.mp hnone d hd
  · rename_i hsome
    obtain ⟨d, hd⟩ := Option.ne_none_iff_exists'.mp hsome
    have hid : d.1 = req_id := by simpa using List.find?_some hd
    rw [← hid]
    exact List.count_eq_one_of_mem hkeys (List.mem_map_of_mem (List.mem_of_find?_eq_some hd))

/-- Where the message of a turn goes: it takes one of the entries for its id, if there is one. -/
theorem turn_counts {s t : Reader} (h : s.Consistent) (ht : s.next .turn = some t) :
    ∃ m result, s.result = m :: result ∧ t.result = result ∧ t.registered = s.registered ∧
      ∀ req_id, t.pending req_id + t.answered req_id = s.pending req_id + s.answered req_id ∧
        t.pending req_id = s.pending req_id - (if m.m_msg_id = req_id then 1 else 0) ∧
        t.waiting req_id = s.waiting req_id - (if m.m_msg_id = req_id then 1 else 0) := by
  obtain ⟨m, result, hcalling, hresult, hfound⟩ := turn_cases ht
  have hpending : ∀ req_id, s.pending req_id =
      if (s.conn.m_read_dones.find? fun d => d.1 = req_id) = none then 0 else 1 := by
    intro req_id
    rw [← count_key_of_find? h.keys]
    unfold pending live
    rw [hcalling]
  have hwaiting : ∀ req_id, Function.update s.waiting m.m_msg_id (s.waiting m.m_msg_id - 1) req_id =
      s.waiting req_id - (if m.m_msg_id = req_id then 1 else 0) := by
    intro req_id
    rcases eq_or_ne m.m_msg_id req_id with rfl | hne
    · rw [Function.update_self, if_pos rfl]
    · rw [Function.update_of_ne hne.symm, if_neg hne, Nat.sub_zero]
  refine ⟨m, result, hresult, ?_⟩
  rcases hfound with ⟨hnone, rfl⟩ | ⟨n, hsome, rfl⟩
  · refine ⟨rfl, rfl, fun req_id => ⟨rfl, ?_, hwaiting req_id⟩⟩
    have hsame : pending { s with
        result := result
        waiting := Function.update s.waiting m.m_msg_id (s.waiting m.m_msg_id - 1) } req_id =
        s.pending req_id := rfl
    rw [hsame]
    split
    · rename_i heq
      rw [hpending, ← heq, if_pos hnone]
    · rw [Nat.sub_zero]
  · -- The entry stays until its callback returns, but it is not pending any more.
    have hafter : ∀ req_id, pending { s with
        result := result
        waiting := Function.update s.waiting m.m_msg_id (s.waiting m.m_msg_id - 1)
        calling := some m.m_msg_id
        invoked := s.invoked ++ [(n, m)] } req_id =
        if req_id = m.m_msg_id then 0 else s.pending req_id := by
      intro req_id
      unfold pending live
      rw [hcalling]
      exact count_keys_filter _ _ _
    have hone : s.pending m.m_msg_id = 1 := by rw [hpending, hsome, if_neg (by simp)]
    refine ⟨rfl, rfl, fun req_id => ?_⟩
    rw [hafter]
    simp only [hwaiting]
    unfold answered
    simp only [List.map_append, List.count_append, List.map_cons, List.map_nil,
      List.count_singleton]
    rcases eq_or_ne m.m_msg_id req_id with rfl | hne
    · simp only [if_true, beq_self_eq_true, hone]
      exact ⟨by omega, trivial, trivial⟩
    · rw [if_neg hne.symm, if_neg hne, if_neg (by simpa using hne)]
      exact ⟨rfl, rfl, trivial⟩

/-- No registration is lost, and each waits for one more message. -/
structure Current (s : Reader) : Prop extends Consistent s where
  waiting : ∀ req_id, s.waiting req_id = s.pending req_id
  counts : ∀ req_id, s.registered.count req_id = s.answered req_id + s.pending req_id

theorem Current.matched {s : Reader} (h : s.Current) : s.Matched :=
  ⟨h.once, h.own, fun req_id => by rw [h.counts, h.waiting]⟩

theorem pending_push {s t : Reader} {req_id : Bytes} (hnew : s.Fresh (.pushReadMessage req_id))
    (ht : s.next (.pushReadMessage req_id) = some t) (h : s.Consistent) (other : Bytes) :
    t.pending other = s.pending other + (if req_id = other then 1 else 0) := by
  have hcount : ∀ n, ([((req_id, n) : Bytes × Nat)].map Prod.fst).count other =
      if req_id = other then 1 else 0 := by
    intro n
    simp [List.count_singleton]
  unfold next TcpConnection.pushReadMessage at ht
  simp only at ht
  rw [if_neg hnew] at ht
  cases ht
  unfold pending live
  cases hrunning : s.calling with
  | none => rw [List.map_append, List.count_append, hcount]
  | some own =>
    have hne : req_id ≠ own := by
      rintro rfl
      exact hnew (h.running _ hrunning)
    simp only [List.filter_append, List.map_append, List.count_append]
    rw [List.filter_cons_of_pos (by simpa using hne), List.filter_nil, hcount]

theorem push_registered {s t : Reader} {req_id : Bytes}
    (ht : s.next (.pushReadMessage req_id) = some t) :
    t.registered = s.registered ++ [req_id] ∧ t.invoked = s.invoked ∧ t.calling = s.calling ∧
      t.result = s.result ∧ t.waiting = Function.update s.waiting req_id (s.waiting req_id + 1) ∧
      t.conn = s.conn.pushReadMessage req_id s.registered.length := by
  unfold next at ht
  cases ht
  exact ⟨rfl, rfl, rfl, rfl, rfl, rfl⟩

theorem Current.pushReadMessage {s t : Reader} (h : s.Current) {req_id : Bytes}
    (hnew : s.Fresh (.pushReadMessage req_id)) (ht : s.next (.pushReadMessage req_id) = some t) :
    t.Current := by
  have hpending := pending_push hnew ht h.toConsistent
  obtain ⟨hregistered, hinvoked, -, -, hwaiting, -⟩ := push_registered ht
  refine ⟨h.toConsistent.pushReadMessage req_id ht, fun other => ?_, fun other => ?_⟩
  · rw [hpending, hwaiting, ← h.waiting]
    rcases eq_or_ne req_id other with rfl | hne
    · rw [Function.update_self, if_pos rfl]
    · rw [Function.update_of_ne hne.symm, if_neg hne, Nat.add_zero]
  · have hcounts := h.counts other
    unfold answered at hcounts ⊢
    rw [hpending, hregistered, hinvoked, List.count_append, List.count_singleton]
    simp only [beq_iff_eq]
    omega

theorem Current.turn {s t : Reader} (h : s.Current) (ht : s.next .turn = some t) :
    t.Current := by
  obtain ⟨m, result, -, -, hregistered, hcounts⟩ := turn_counts h.toConsistent ht
  refine ⟨h.toConsistent.turn ht, fun req_id => ?_, fun req_id => ?_⟩
  all_goals obtain ⟨hsum, hpending, hwaiting⟩ := hcounts req_id
  · rw [hwaiting, hpending, h.waiting]
  · rw [hregistered, h.counts]
    omega

theorem Current.returned {s t : Reader} (h : s.Current) (ht : s.next .returned = some t) :
    t.Current := by
  have hlive := live_returned ht
  have hpending : t.pending = s.pending := by
    unfold pending
    rw [hlive]
  have hconsistent := h.toConsistent.returned ht
  obtain ⟨own, -, rfl⟩ := returned_eq ht
  refine ⟨hconsistent, fun req_id => ?_, fun req_id => ?_⟩
  all_goals rw [hpending]
  · exact h.waiting req_id
  · exact h.counts req_id

theorem Current.next {s t : Reader} (h : s.Current) {e : Event} (he : s.Fresh e)
    (ht : s.next e = some t) : t.Current := by
  cases e with
  | pushReadMessage req_id => exact h.pushReadMessage he ht
  | excute result =>
    have hconsistent := h.toConsistent.next ht
    obtain ⟨-, -, rfl⟩ := excute_eq ht
    exact ⟨hconsistent, h.waiting, h.counts⟩
  | turn => exact h.turn ht
  | returned => exact h.returned ht

theorem current_run {es : List Event} {s : Reader} (hrun : (system.restrict Fresh).Run es s) :
    s.Current := by
  refine hrun.invariant ?_ fun _ _ _ h hstep => h.next hstep.1 hstep.2
  intro s hstart
  have hconsistent := consistent_run (System.Run.start hstart)
  obtain ⟨hdones, hs⟩ := hstart
  refine ⟨hconsistent, fun req_id => ?_, fun req_id => ?_⟩
  all_goals
    unfold pending live
    rw [hs, hdones]
  · rfl
  · rfl

/-! ## The loop of `excute` to its end -/

/-- What the loop of `excute` does when no callback registers another one. -/
structure Finished (s t : Reader) : Prop where
  result : t.result = []
  calling : t.calling = none
  registered : t.registered = s.registered
  kept : ∀ req_id, t.pending req_id + t.answered req_id = s.pending req_id + s.answered req_id
  waiting : ∀ req_id, t.waiting req_id =
    s.waiting req_id - (s.result.map TinyPBProtocol.m_msg_id).count req_id
  dones : t.conn.m_read_dones = (TcpConnection.takeReadDones s.result s.conn.m_read_dones).2
  invoked : t.invoked =
    s.invoked ++ (TcpConnection.takeReadDones s.result s.conn.m_read_dones).1

theorem turn_returned {es : List Event} {s : Reader} (hrun : system.Run es s)
    (hcalling : s.calling = none) {m : TinyPBProtocol} {result : List TinyPBProtocol}
    (hresult : s.result = m :: result) :
    ∃ es' t, system.Run (es ++ es') t ∧ t.calling = none ∧ t.result = result ∧
      t.registered = s.registered ∧
      (∀ req_id, t.pending req_id + t.answered req_id = s.pending req_id + s.answered req_id ∧
        t.waiting req_id = s.waiting req_id - (if m.m_msg_id = req_id then 1 else 0)) ∧
      TcpConnection.takeReadDones (m :: result) s.conn.m_read_dones =
        (t.invoked.drop s.invoked.length ++
          (TcpConnection.takeReadDones result t.conn.m_read_dones).1,
          (TcpConnection.takeReadDones result t.conn.m_read_dones).2) ∧
      s.invoked <+: t.invoked := by
  obtain ⟨t, ht⟩ : ∃ t, s.next .turn = some t := by
    unfold next
    simp only [hcalling, hresult]
    split <;> exact ⟨_, rfl⟩
  have hcounts := turn_counts (consistent_run hrun) ht
  obtain ⟨m', result', -, hresult', hfound⟩ := turn_cases ht
  obtain ⟨rfl, rfl⟩ := List.cons.inj (hresult.symm.trans hresult')
  obtain ⟨m', result', hresult'', hrest, hregistered, hcounts⟩ := hcounts
  obtain ⟨rfl, rfl⟩ := List.cons.inj (hresult.symm.trans hresult'')
  rcases hfound with ⟨hnone, rfl⟩ | ⟨n, hsome, rfl⟩
  · refine ⟨[.turn], _, hrun.step ht, hcalling, rfl, rfl,
      fun req_id => ⟨(hcounts req_id).1, (hcounts req_id).2.2⟩, ?_, List.prefix_rfl⟩
    conv_lhs => unfold TcpConnection.takeReadDones
    simp only [hnone, List.drop_length, List.nil_append]
  · -- The callback registers nothing in this run, and returns at once.
    have hrun' := hrun.step ht
    generalize hcalled : ({ s with
      result := result
      waiting := Function.update s.waiting m.m_msg_id (s.waiting m.m_msg_id - 1)
      calling := some m.m_msg_id
      invoked := s.invoked ++ [(n, m)] } : Reader) = called at hcounts hrun'
    obtain ⟨u, hu⟩ : ∃ u, called.next .returned = some u := by
      rw [← hcalled]
      exact ⟨_, rfl⟩
    have hlive := live_returned hu
    refine ⟨[.turn, .returned], u, ?_, ?_⟩
    · rw [List.append_cons]
      exact hrun'.step hu
    · obtain ⟨own, hown, rfl⟩ := returned_eq hu
      subst hcalled
      cases hown
      refine ⟨rfl, rfl, rfl, fun req_id => ⟨?_, (hcounts req_id).2.2⟩, ?_,
        List.prefix_append _ _⟩
      · rw [← (hcounts req_id).1]
        unfold pending
        rw [hlive]
        rfl
      · conv_lhs => unfold TcpConnection.takeReadDones
        simp only [hsome, List.drop_left, List.singleton_append]

theorem finish {es : List Event} {s : Reader} (hrun : system.Run es s)
    (hcalling : s.calling = none) : ∃ es' t, system.Run (es ++ es') t ∧ Finished s t := by
  induction hresult : s.result generalizing es s with
  | nil =>
    refine ⟨[], s, by rwa [List.append_nil], hresult, hcalling, rfl, fun _ => rfl, ?_, ?_, ?_⟩
    all_goals
      rw [hresult]
      simp [TcpConnection.takeReadDones]
  | cons m result ih =>
    obtain ⟨es₁, t, hrun₁, hcalling₁, hresult₁, hregistered₁, hcounts₁, htake, hinvoked₁⟩ :=
      turn_returned hrun hcalling hresult
    obtain ⟨es₂, u, hrun₂, hfinished⟩ := ih hrun₁ hcalling₁ hresult₁
    refine ⟨es₁ ++ es₂, u, by rwa [← List.append_assoc], hfinished.result, hfinished.calling,
      hfinished.registered.trans hregistered₁, fun req_id => ?_, fun req_id => ?_, ?_, ?_⟩
    · rw [hfinished.kept, (hcounts₁ req_id).1]
    · rw [hfinished.waiting, (hcounts₁ req_id).2, hresult₁, hresult, List.map_cons,
        List.count_cons]
      simp only [beq_iff_eq]
      omega
    · rw [hfinished.dones, hresult₁, hresult, htake]
    · rw [hfinished.invoked, hresult₁, hresult, htake, ← List.append_assoc]
      congr 1
      exact (List.prefix_iff_eq_append.mp hinvoked₁).symm

theorem excute_finish {es : List Event} {s : Reader} (hrun : system.Run es s)
    (hresult : s.result = []) (hcalling : s.calling = none)
    (hclient : s.conn.m_connection_type = .TcpConnectionByClient) {turns : Nat}
    {dispatch : TinyPBProtocol → TinyPBProtocol} {c : TcpConnection Nat}
    {calls : List (Nat × TinyPBProtocol)} (h : s.conn.excute turns dispatch = some (c, calls)) :
    ∃ result m_in_buffer, s.conn.result turns = some (result, m_in_buffer) ∧
      ∃ es' t, system.Run (es ++ .excute result :: es') t ∧
        t.conn.m_read_dones = c.m_read_dones ∧ t.invoked = s.invoked ++ calls := by
  obtain ⟨result, m_in_buffer, hdecoded, hcases⟩ := TcpConnection.excute_cases h
  obtain ⟨-, rfl, rfl⟩ := hcases.resolve_left fun hserver => by simp [hclient] at hserver
  have hnext : s.next (.excute result) = some { s with result } := if_pos ⟨hresult, hcalling⟩
  obtain ⟨es', t, hrun', hfinished⟩ := finish (hrun.step hnext) hcalling
  refine ⟨result, m_in_buffer, hdecoded, es', t, ?_, hfinished.dones, hfinished.invoked⟩
  rwa [List.append_cons]

/-! ## Where an id is registered again -/

theorem leave_callback {es : List Event} {s : Reader} (hrun : system.Run es s) :
    ∃ es' t, system.Run (es ++ es') t ∧ t.calling = none ∧ t.registered = s.registered ∧
      t.live = s.live ∧ t.invoked = s.invoked ∧ t.waiting = s.waiting := by
  cases hcalling : s.calling with
  | none => exact ⟨[], s, by rwa [List.append_nil], hcalling, rfl, rfl, rfl, rfl⟩
  | some own =>
    obtain ⟨t, ht⟩ : ∃ t, s.next .returned = some t := by
      unfold next
      rw [hcalling]
      exact ⟨_, rfl⟩
    have hlive := live_returned ht
    have hrun' := hrun.step ht
    obtain ⟨own', -, rfl⟩ := returned_eq ht
    exact ⟨[.returned], _, hrun', rfl, rfl, hlive, rfl, rfl⟩

theorem answer_all {es : List Event} {s : Reader} (hrun : system.Run es s) (req_id : Bytes) :
    ∃ es' t, system.Run (es ++ es') t ∧ t.registered = s.registered ∧
      t.pending req_id + t.answered req_id = s.pending req_id + s.answered req_id ∧
      t.waiting req_id = 0 := by
  obtain ⟨es₁, s₁, hrun₁, hcalling₁, hregistered₁, hlive₁, hinvoked₁, hwaiting₁⟩ :=
    leave_callback hrun
  obtain ⟨es₂, s₂, hrun₂, hfinished₂⟩ := finish hrun₁ hcalling₁
  let result := List.replicate (s₂.waiting req_id) ({ m_msg_id := req_id } : TinyPBProtocol)
  have hnext : s₂.next (.excute result) = some { s₂ with result } :=
    if_pos ⟨hfinished₂.result, hfinished₂.calling⟩
  obtain ⟨es₃, s₃, hrun₃, hfinished₃⟩ := finish (hrun₂.step hnext) hfinished₂.calling
  refine ⟨es₁ ++ es₂ ++ [.excute result] ++ es₃, s₃, by simpa using hrun₃, ?_, ?_, ?_⟩
  · rw [hfinished₃.registered, hfinished₂.registered, hregistered₁]
  · rw [hfinished₃.kept]
    have hkept := hfinished₂.kept req_id
    unfold pending answered at hkept ⊢
    rw [hlive₁, hinvoked₁] at hkept
    exact hkept
  · rw [hfinished₃.waiting]
    simp [result, List.count_replicate_self]

theorem push_again {es : List Event} {s t : Reader} (hrun : system.Run es s) (h : s.Current)
    {req_id : Bytes} (ht : s.next (.pushReadMessage req_id) = some t)
    (hthere : ¬ s.Fresh (.pushReadMessage req_id)) :
    ∃ es' u, system.Run (es ++ .pushReadMessage req_id :: es') u ∧ ¬ u.Matched := by
  obtain ⟨hregistered, hinvoked, hcalling, -, -, hconn⟩ := push_registered ht
  have hpending : t.pending req_id = s.pending req_id := by
    unfold pending live
    rw [hcalling, hconn]
    unfold TcpConnection.pushReadMessage
    rw [if_pos (Decidable.not_not.mp hthere)]
  obtain ⟨es', u, hrun', hregistered', hkept, hwaiting⟩ := answer_all (hrun.step ht) req_id
  refine ⟨es', u, by rwa [List.append_cons], fun hmatched => ?_⟩
  have hall := hmatched.all req_id
  have hcounts := h.counts req_id
  unfold answered at hkept hall hcounts
  rw [hregistered', hregistered, List.count_append, List.count_singleton_self, hwaiting] at hall
  rw [hpending, hinvoked] at hkept
  omega

/-- In a run in which no id is registered while there is an entry for it, the replies
are matched; in every run a message changes nothing for other ids. After a
registration for an id that has an entry, the run can go on so that a callback is
not invoked. -/
theorem replies_matched (es : List Event) (s : Reader)
    (hrun : (system.restrict Fresh).Run es s) :
    s.Matched ∧ s.OnlyOwn ∧ ∀ req_id t, s.next (.pushReadMessage req_id) = some t →
      ¬ s.Fresh (.pushReadMessage req_id) →
      ∃ es' u, system.Run (es ++ .pushReadMessage req_id :: es') u ∧ ¬ u.Matched := by
  have h := current_run hrun
  exact ⟨h.matched, onlyOwn s, fun _ _ ht hthere => push_again hrun.of_restrict h ht hthere⟩

/-! ## Short runs -/

instance (s : Reader) : DecidablePred s.Fresh
  | .pushReadMessage req_id => inferInstanceAs (Decidable (req_id ∉ _))
  | .excute _ | .turn | .returned => isTrue trivial

def fresh : Reader where
  conn := TcpConnection.new 128 .TcpConnectionByClient

theorem fresh_start : system.start fresh := ⟨rfl, rfl⟩

def reply (msg_id : String) : TinyPBProtocol := { m_msg_id := ascii msg_id }

/-- Two registrations, each with its reply. The second one is made by the first callback. -/
def twoReplies (first second : String) : List Event :=
  [.pushReadMessage (ascii first), .excute [reply first, reply second], .turn,
    .pushReadMessage (ascii second), .returned, .turn]

theorem replies_matched_twoReplies : ∃ s : Reader,
    s.invoked = [(0, reply "1"), (1, reply "2")] ∧ s.Matched := by
  have hlast : ((twoReplies "1" "2").foldlM (System.guarded Fresh next) fresh).map
      Reader.invoked = some [(0, reply "1"), (1, reply "2")] := by decide +kernel
  obtain ⟨s, hs, hlast⟩ := Option.map_eq_some_iff.mp hlast
  have hrun := System.Run.of_guarded (S := system) (fun _ _ _ h => h) fresh_start hs
  exact ⟨s, hlast, (replies_matched _ s hrun).1⟩

/-- A callback registers its own id again: the entry is there until the callback
returns, and is erased then. -/
theorem registered_in_callback_lost : ∃ s : Reader, system.Run (twoReplies "1" "1") s ∧
    s.registered = [ascii "1", ascii "1"] ∧ s.invoked = [(0, reply "1")] ∧
    s.waiting (ascii "1") = 0 ∧ ¬ s.Matched := by
  have hlast : ((twoReplies "1" "1").foldlM next fresh).map
      (fun s => (s.registered, s.invoked, s.waiting (ascii "1"))) =
      some ([ascii "1", ascii "1"], [(0, reply "1")], 0) := by decide +kernel
  obtain ⟨s, hs, hlast⟩ := Option.map_eq_some_iff.mp hlast
  obtain ⟨hregistered, hrest⟩ := Prod.mk.inj hlast
  obtain ⟨hinvoked, hwaiting⟩ := Prod.mk.inj hrest
  refine ⟨s, System.Run.of_next (fun _ _ _ h => h) fresh_start hs, hregistered, hinvoked,
    hwaiting, fun h => ?_⟩
  have hall := h.all (ascii "1")
  rw [hwaiting] at hall
  unfold answered at hall
  rw [hregistered, hinvoked] at hall
  exact absurd hall (by decide +kernel)

end Reader

end TinyRpc
