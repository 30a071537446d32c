import Mathlib.Data.Int.CardIntervalMod
import TinyRpc.Server.Confinement

/-!
# The io threads get their clients in turn

`getIOThread` counts up, and starts again behind the last thread.
-/

namespace TinyRpc.TcpServer

open Lib

variable {s t : TcpServer}

/-! ## The next thread -/

theorem getIOThread_eq {g g' : IOThreadGroup} {n k : Nat} (hsize : g.m_size ≠ -1)
    (hle : g.m_index ≤ g.m_io_thread_groups) (hindex : g.m_index ≡ n [MOD g.m_io_thread_groups])
    (h : g.getIOThread = some (k, g')) :
    k = n % g.m_io_thread_groups ∧ g' = { g with m_index := k + 1 } ∧
      k < g.m_io_thread_groups := by
  unfold IOThreadGroup.getIOThread at h
  simp only [hsize, or_false] at h
  obtain ⟨hlt, h⟩ := Option.ite_none_right_eq_some.mp h
  obtain ⟨rfl, rfl⟩ := Prod.mk.inj (Option.some.inj h)
  refine ⟨?_, rfl, hlt⟩
  rw [← hindex]
  split
  · rename_i hlast
    rw [hlast, Nat.mod_self]
  · rw [Nat.mod_eq_of_lt (by omega)]

/-! ## Whole runs -/

@[simp] theorem accept_client (s : TcpServer) : s.accept.2.m_client = s.m_client := rfl

@[simp] theorem setConn_group (s : TcpServer) (fd : Nat) (c : Connection) :
    (s.setConn fd c).m_io_thread_group = s.m_io_thread_group := rfl

structure Dealt (s : TcpServer) : Prop where
  size : s.m_io_thread_group.m_size ≠ -1
  index_le : s.m_io_thread_group.m_index ≤ s.m_io_thread_group.m_io_thread_groups
  index : s.m_io_thread_group.m_index ≡ s.m_client.length + s.accepting.toList.length
    [MOD s.m_io_thread_group.m_io_thread_groups]
  clients : ∀ i fd, s.m_client[i]? = some fd →
    s.owner fd = some (i % s.m_io_thread_group.m_io_thread_groups)
  accepting : ∀ fd, s.accepting = some fd →
    s.owner fd = some (s.m_client.length % s.m_io_thread_group.m_io_thread_groups)

theorem start_dealt (h : system.start s) : Dealt s := by
  obtain ⟨size, opened, g, hg, rfl⟩ := h
  obtain ⟨hsize, hg⟩ := Option.ite_none_left_eq_some.mp hg
  obtain rfl := Option.some.inj hg
  refine ⟨?_, Nat.zero_le _, rfl, by simp, by simp⟩
  simp only
  omega

theorem Keeps.owner (h : Keeps s t) {fd k : Nat} (howner : s.owner fd = some k) :
    t.owner fd = some k := by
  obtain ⟨c, hconn, rfl⟩ := Option.map_eq_some_iff.mp howner
  obtain ⟨c', hconn', hthread, -⟩ := h fd c hconn
  simp [TcpServer.owner, hconn', hthread]

theorem onAccept_dealt (h : Dealt s) (hkeeps : Keeps s t) (haccepting : s.accepting = none)
    (ht : s.onAccept = some t) : Dealt t := by
  obtain ⟨⟨k, g⟩, hthread, ht⟩ := Option.bind_eq_some_iff.mp ht
  obtain rfl := Option.some.inj ht
  have hindex : s.m_io_thread_group.m_index ≡ s.m_client.length
      [MOD s.m_io_thread_group.m_io_thread_groups] := by
    simpa [haccepting] using h.index
  obtain ⟨hk, rfl, hlt⟩ := getIOThread_eq h.size h.index_le hindex hthread
  refine ⟨?_, ?_, ?_, fun i fd hfd => ?_, fun fd hfd => ?_⟩
  · simpa [take] using h.size
  · simpa [take] using Nat.succ_le_of_lt hlt
  · have hnext : k ≡ s.m_client.length [MOD s.m_io_thread_group.m_io_thread_groups] := by
      rw [hk]
      exact Nat.mod_modEq _ _
    simpa [take] using hnext.add_right 1
  · simpa [take] using hkeeps.owner (h.clients i fd (by simpa [take] using hfd))
  · obtain rfl : s.accept.1 = fd := by simpa [take] using hfd
    have howner (s : TcpServer) (fd : Nat) : (s.newConnection k fd).owner fd = some k :=
      congrArg (fun v => v.conn.map Connection.io_thread) (view_newConnection s k fd)
    rw [howner]
    simp [take, hk]

theorem connected_dealt (h : Dealt s) (hkeeps : Keeps s t) (ht : s.connected = some t) :
    Dealt t := by
  obtain ⟨fd, hfd, ht⟩ := Option.bind_eq_some_iff.mp ht
  obtain ⟨c, -, ht⟩ := Option.bind_eq_some_iff.mp ht
  obtain rfl := Option.some.inj ht
  refine ⟨h.size, h.index_le, ?_, fun i n hn => ?_, by simp⟩
  · simpa [hfd] using h.index
  · by_cases hi : i < s.m_client.length
    · rw [List.getElem?_append_left hi] at hn
      exact hkeeps.owner (h.clients i n hn)
    · rw [List.getElem?_append_right (Nat.le_of_not_lt hi),
        List.getElem?_singleton] at hn
      obtain ⟨hzero, hn⟩ := Option.ite_none_right_eq_some.mp hn
      obtain rfl := Option.some.inj hn
      obtain rfl : i = s.m_client.length := by omega
      exact hkeeps.owner (h.accepting fd hfd)

theorem Turn.dealt {k : Nat} (hturn : Turn s k t) (h : Dealt s) (hkeeps : Keeps s t) :
    Dealt t := by
  obtain ⟨hgroup, haccepting, hclient, -, -⟩ := hturn.quiet
  refine ⟨?_, ?_, ?_, fun i fd hfd => ?_, fun fd hfd => ?_⟩
  · rw [hgroup]
    exact h.size
  · rw [hgroup]
    exact h.index_le
  · rw [hgroup, haccepting, hclient]
    exact h.index
  · rw [hgroup]
    rw [hclient] at hfd
    exact hkeeps.owner (h.clients i fd hfd)
  · rw [hgroup, hclient]
    rw [haccepting] at hfd
    exact hkeeps.owner (h.accepting fd hfd)

theorem run_dealt {es : List Op} (hrun : system.Run es s) : Dealt s := by
  induction hrun with
  | start hs => exact start_dealt hs
  | step hrun hstep ih =>
    have hkeeps := step_keeps (run_invariant hrun) hstep
    obtain ⟨-, haccepting, ht⟩ | ⟨-, ht⟩ | ⟨k, hturn⟩ := next_cases hstep
    · exact onAccept_dealt ih hkeeps haccepting ht
    · exact connected_dealt ih hkeeps ht
    · exact hturn.dealt ih hkeeps

/-! ## The numbers of clients -/

theorem count_turns {n : Nat} (hn : 0 < n) (total : Nat) {k : Nat} (hk : k < n) :
    ((List.range total).map (· % n)).count k = total / n + if k < total % n then 1 else 0 := by
  have hcount : ((List.range total).map (· % n)).count k = total.count (· ≡ k [MOD n]) := by
    induction total with
    | zero => rfl
    | succ total ih =>
      rw [List.range_succ, List.map_append, List.count_append, ih, Nat.count_succ]
      simp [List.count_singleton, Nat.ModEq, Nat.mod_eq_of_lt hk]
  rw [hcount, Nat.count_modEq_card total hn, Nat.mod_eq_of_lt hk]

/-- The clients go to the threads in turn, so no thread has more than one client
more than another. -/
theorem clients_balanced {es : List Op} (hrun : system.Run es s) {j k : Nat}
    (hj : j < s.m_io_thread_group.m_io_thread_groups)
    (hk : k < s.m_io_thread_group.m_io_thread_groups) :
    (∀ i fd, s.m_client[i]? = some fd →
      s.owner fd = some (i % s.m_io_thread_group.m_io_thread_groups)) ∧
    (s.m_client.map s.owner).count (some j) ≤ (s.m_client.map s.owner).count (some k) + 1 := by
  have hclients := (run_dealt hrun).clients
  have howners : s.m_client.map s.owner = ((List.range s.m_client.length).map
      (· % s.m_io_thread_group.m_io_thread_groups)).map some := by
    apply List.ext_getElem
    · simp
    · intro i hi _
      rw [List.length_map] at hi
      simpa using hclients i _ (List.getElem?_eq_getElem hi)
  refine ⟨hclients, ?_⟩
  rw [howners, List.count_map_of_injective _ _ (Option.some_injective _),
    List.count_map_of_injective _ _ (Option.some_injective _),
    count_turns (by omega) _ hj, count_turns (by omega) _ hk]
  split <;> split <;> omega

theorem clients_balanced_three : ∃ s : TcpServer, s.m_client = [3, 4, 5] ∧
    (∀ i fd, s.m_client[i]? = some fd → s.owner fd = some (i % 2)) ∧
    (s.m_client.map s.owner).count (some 0) ≤ (s.m_client.map s.owner).count (some 1) + 1 := by
  have hreach {s : TcpServer} (hs : [.accept, .connected, .accept, .connected, .accept,
      .connected].foldlM next serving = some s) :=
    @clients_balanced s _ (run_serving hs) 0 1
  exact ⟨_, rfl, hreach rfl (by decide) (by decide)⟩

end TinyRpc.TcpServer
