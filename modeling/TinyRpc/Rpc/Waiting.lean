import TinyRpc.Rpc.Channel

/-!
# The callbacks that wait with a client

One callback of a call waits at a time: for the connect, for the write, or for
the reply.
-/

namespace TinyRpc

open Lib Coder

namespace TcpConnection

variable {δ : Type}

theorem takeReadDones_spec (result : List TinyPBProtocol) (dones : List (Bytes × δ)) :
    (takeReadDones result dones).1.length + (takeReadDones result dones).2.length ≤ dones.length ∧
      (∀ d ∈ (takeReadDones result dones).1, d.1 ∈ dones.map Prod.snd) ∧
      ∀ d ∈ (takeReadDones result dones).2, d ∈ dones := by
  induction result generalizing dones with
  | nil => simp [takeReadDones]
  | cons m result ih =>
    unfold takeReadDones
    cases hfind : dones.find? fun d => d.1 = m.m_msg_id with
    | none => exact ih dones
    | some d =>
      have hmem := List.mem_of_find?_eq_some hfind
      have hid : d.1 = m.m_msg_id := by simpa using List.find?_some hfind
      obtain ⟨h1, h2, h3⟩ := ih (dones.filter fun d => d.1 ≠ m.m_msg_id)
      have hlt : (dones.filter fun d => d.1 ≠ m.m_msg_id).length < dones.length :=
        List.length_filter_lt_length_iff_exists.mpr ⟨d, hmem, by simp [hid]⟩
      refine ⟨?_, ?_, fun x hx => List.mem_of_mem_filter (h3 x hx)⟩
      · simp only [List.length_cons]
        omega
      · intro x hx
        rcases List.mem_cons.mp hx with rfl | hx
        · exact List.mem_map_of_mem hmem
        · obtain ⟨y, hy, hyx⟩ := List.mem_map.mp (h2 x hx)
          exact List.mem_map.mpr ⟨y, List.mem_of_mem_filter hy, hyx⟩

end TcpConnection

namespace TcpClient

def waiting (c : TcpClient Callback) : Nat :=
  c.connecting.toNat + c.m_connection.m_write_dones.length + c.m_connection.m_read_dones.length

structure InPlace (c : TcpClient Callback) : Prop where
  client : c.m_connection.m_connection_type = .TcpConnectionByClient
  written : ∀ d ∈ c.m_connection.m_write_dones, d.2 = .written
  reply : ∀ d ∈ c.m_connection.m_read_dones, d.2 = .reply

theorem InPlace.writeMessage {c : TcpClient Callback} (h : c.InPlace) (m : TinyPBProtocol) :
    (c.writeMessage m .written).InPlace ∧
      (c.writeMessage m .written).waiting = c.waiting + 1 := by
  refine ⟨⟨h.client, ?_, h.reply⟩, ?_⟩
  · intro d hd
    rcases List.mem_append.mp hd with hd | hd
    · exact h.written d hd
    · rw [List.mem_singleton.mp hd]
  · simp only [waiting, TcpClient.writeMessage, TcpConnection.listenWrite,
      TcpConnection.pushSendMessage, List.length_append, List.length_singleton]
    omega

theorem InPlace.readMessage {c : TcpClient Callback} (h : c.InPlace) (msg_id : Bytes) :
    (c.readMessage msg_id .reply).InPlace ∧
      (c.readMessage msg_id .reply).waiting ≤ c.waiting + 1 := by
  unfold TcpClient.readMessage TcpConnection.pushReadMessage
  split
  · exact ⟨⟨h.client, h.written, h.reply⟩, Nat.le_succ _⟩
  · refine ⟨⟨h.client, h.written, ?_⟩, ?_⟩
    · intro d hd
      rcases List.mem_append.mp hd with hd | hd
      · exact h.reply d hd
      · rw [List.mem_singleton.mp hd]
    · unfold waiting TcpConnection.listenRead
      simp only [List.length_append, List.length_singleton]
      omega

theorem InPlace.beforeWrite {c : TcpClient Callback} (h : c.InPlace)
    {conn : TcpConnection Callback} (hconn : c.m_connection.beforeWrite = some conn)
    (is_all_write : Bool) :
    InPlace { c with m_connection := conn.afterWrite is_all_write } ∧
      waiting { c with m_connection := conn.afterWrite is_all_write } = c.waiting ∧
      (conn.afterWrite is_all_write).m_write_dones = conn.m_write_dones := by
  obtain ⟨hdones, hreads, htype⟩ := TcpConnection.beforeWrite_dones hconn
  have hkept : (conn.afterWrite is_all_write).m_write_dones = conn.m_write_dones ∧
      (conn.afterWrite is_all_write).m_read_dones = conn.m_read_dones ∧
      (conn.afterWrite is_all_write).m_connection_type = conn.m_connection_type := by
    unfold TcpConnection.afterWrite
    split <;> exact ⟨rfl, rfl, rfl⟩
  have hlen : conn.m_write_dones.length = c.m_connection.m_write_dones.length := by
    have hmap := congrArg List.length hdones
    rwa [List.length_map, List.length_map] at hmap
  generalize conn.afterWrite is_all_write = conn1 at hkept
  obtain ⟨hwrites1, hreads1, htype1⟩ := hkept
  refine ⟨⟨htype1.trans (htype.trans h.client), ?_, ?_⟩, ?_, hwrites1⟩
  · intro d hd
    rw [hwrites1] at hd
    have hd2 : d.2 ∈ conn.m_write_dones.map Prod.snd := List.mem_map_of_mem hd
    rw [hdones] at hd2
    obtain ⟨p, hp, hpd⟩ := List.mem_map.mp hd2
    rw [← hpd]
    exact h.written p hp
  · intro d hd
    rw [hreads1, hreads] at hd
    exact h.reply d hd
  · unfold waiting
    rw [hwrites1, hreads1, hreads, hlen]

theorem InPlace.clearWriteDones {c : TcpClient Callback} (h : c.InPlace) :
    InPlace { c with m_connection := c.m_connection.clearWriteDones } ∧
      waiting { c with m_connection := c.m_connection.clearWriteDones } +
        c.m_connection.m_write_dones.length = c.waiting := by
  have hclear : c.m_connection.clearWriteDones = { c.m_connection with m_write_dones := [] } := by
    unfold TcpConnection.clearWriteDones
    split
    · rename_i hserver
      rw [h.client] at hserver
      cases hserver
    · rfl
  rw [hclear]
  refine ⟨⟨h.client, nofun, h.reply⟩, ?_⟩
  unfold waiting
  simp only [List.length_nil]
  omega

theorem InPlace.reconnect {c : TcpClient Callback} (h : c.InPlace) (hc : c.connecting = true)
    (rt : ReconnectResult) :
    (c.reconnect rt).InPlace ∧ (c.reconnect rt).waiting + 1 = c.waiting := by
  have hwait : (c.reconnect rt).waiting + 1 = c.waiting := by
    cases rt <;>
      simp only [waiting, TcpClient.reconnect, TcpConnection.setState, hc, Bool.toNat_true,
        Bool.toNat_false] <;> omega
  refine ⟨?_, hwait⟩
  cases rt <;> exact ⟨h.client, h.written, h.reply⟩

theorem connect_new (rt : ConnectResult) :
    (connect ({} : TcpClient Callback) rt).1.InPlace ∧
      (connect ({} : TcpClient Callback) rt).1.waiting +
        (connect ({} : TcpClient Callback) rt).2.toNat = 1 := by
  cases rt <;> exact ⟨⟨rfl, nofun, nofun⟩, rfl⟩

end TcpClient

end TinyRpc
