import Mathlib.Logic.Function.Iterate
import TinyRpc.Rpc.Waiting
import TinyRpc.Timer.Collect

/-!
# What a step does to a call

The reply cancels the timer event before it looks at what it carries.
-/

namespace TinyRpc

open Lib Coder

namespace RpcChannel

variable {ι κ τ μ : Type} {ParseFromString : Bytes → μ × Bool}

/-! ## The invariant -/

/-- The call and its timer are the same. Its client, its errors and the count
of its closure are left out. -/
structure SameCall (c t : RpcChannel ι κ τ μ) : Prop where
  closure : t.m_closure = c.m_closure
  replied : t.replied = c.replied
  expired : t.expired = c.expired
  events : t.events = c.events
  timer : t.timer = c.timer
  names : t.m_controller = c.m_controller ∧ t.my_controller = c.my_controller
  cancled : ∀ k, (t.controllers k).m_is_cancled = (c.controllers k).m_is_cancled

theorem SameCall.refl (c : RpcChannel ι κ τ μ) : SameCall c c :=
  ⟨rfl, rfl, rfl, rfl, rfl, ⟨rfl, rfl⟩, fun _ => rfl⟩

section Sound

variable [DecidableEq ι] {ev : ι}

/-- What carries the count of the runs of the closure. -/
structure Sound (ev : ι) (c : RpcChannel ι κ τ μ) : Prop where
  closure : c.m_closure = true
  client : c.m_client.InPlace
  waiting : c.m_client.waiting + c.replied.toNat ≤ 1
  one_shot : (c.events ev).m_is_repeated = false
  pending : c.timer.m_pending_events.countValue ev + c.expired.toNat ≤ 1
  cancled : c.replied = true → (c.events ev).m_is_cancled = true
  late : c.expired = true → (c.controllers c.my_controller).m_is_cancled = true

theorem Sound.sameCall {c t : RpcChannel ι κ τ μ} (h : Sound ev c) (hs : SameCall c t)
    (hcl : t.m_client.InPlace) (hwait : t.m_client.waiting ≤ c.m_client.waiting) :
    Sound ev t := by
  have hw := h.waiting
  refine ⟨hs.closure.trans h.closure, hcl, ?_, ?_, ?_, ?_, ?_⟩
  · rw [hs.replied]; omega
  · rw [hs.events]; exact h.one_shot
  · rw [hs.timer, hs.expired]; exact h.pending
  · rw [hs.replied, hs.events]; exact h.cancled
  · rw [hs.expired, hs.cancled, hs.names.2]; exact h.late

theorem Sound.of_client {c : RpcChannel ι κ τ μ} (h : Sound ev c) {m_client : TcpClient Callback}
    (hcl : m_client.InPlace) (hwait : m_client.waiting ≤ c.m_client.waiting) :
    Sound ev { c with m_client } :=
  h.sameCall ⟨rfl, rfl, rfl, rfl, rfl, ⟨rfl, rfl⟩, fun _ => rfl⟩ hcl hwait

theorem Sound.of_timer {c : RpcChannel ι κ τ μ} (h : Sound ev c) {timer : Timer ι}
    {events : Timer.Events ι τ}
    (hrep : (events ev).m_is_repeated = (c.events ev).m_is_repeated)
    (hcancled : (events ev).m_is_cancled = (c.events ev).m_is_cancled)
    (hpending : timer.m_pending_events.countValue ev ≤ c.timer.m_pending_events.countValue ev) :
    Sound ev { c with timer, events } := by
  have hp := h.pending
  refine ⟨h.closure, h.client, h.waiting, hrep.trans h.one_shot, ?_, ?_, h.late⟩
  · simp only; omega
  · simp only [hcancled]; exact h.cancled

theorem Sound.take {c : RpcChannel ι κ τ μ} (h : Sound ev c) (result : List TinyPBProtocol) :
    let m_read_dones :=
      (TcpConnection.takeReadDones result c.m_client.m_connection.m_read_dones).2
    let taken := c.setConnection { c.m_client.m_connection with m_read_dones }
    Sound ev taken ∧ taken.m_client.waiting + (c.calls result).length ≤ c.m_client.waiting ∧
      ∀ d ∈ c.calls result, d.1 = .reply := by
  have hcl := h.client
  obtain ⟨hlen, hcalls, hrest⟩ :=
    TcpConnection.takeReadDones_spec result c.m_client.m_connection.m_read_dones
  have hwait : ∀ m_read_dones : List (Bytes × Callback),
      (c.calls result).length + m_read_dones.length ≤
        c.m_client.m_connection.m_read_dones.length →
      (c.setConnection { c.m_client.m_connection with m_read_dones }).m_client.waiting +
        (c.calls result).length ≤ c.m_client.waiting := by
    intro m_read_dones hle
    simp only [setConnection, TcpClient.waiting]
    omega
  refine ⟨h.of_client ⟨hcl.client, hcl.written, fun d hd => hcl.reply d (hrest d hd)⟩ ?_,
    hwait _ hlen, fun d hd => ?_⟩
  · exact Nat.le_trans (Nat.le_add_right _ _) (hwait _ hlen)
  · obtain ⟨p, hp, hpd⟩ := List.mem_map.mp (hcalls d hd)
    rw [← hpd]
    exact hcl.reply p hp

theorem Sound.calls_cases {c : RpcChannel ι κ τ μ} (h : Sound ev c)
    (result : List TinyPBProtocol) :
    c.calls result = [] ∨ c.replied = false ∧ ∃ m, c.calls result = [(.reply, m)] := by
  obtain ⟨-, hwait, hreply⟩ := h.take result
  have hw := h.waiting
  rcases Nat.eq_zero_or_pos (c.calls result).length with hzero | hpos
  · exact Or.inl (List.length_eq_zero_iff.mp hzero)
  · obtain ⟨⟨done, m⟩, hsome⟩ := List.length_eq_one_iff.mp (show (c.calls result).length = 1 by omega)
    obtain rfl : done = .reply := hreply ⟨done, m⟩ (by rw [hsome]; exact List.mem_cons_self)
    refine Or.inr ⟨?_, m, hsome⟩
    cases hr : c.replied with
    | false => rfl
    | true => rw [hr, Bool.toNat_true] at hw; omega

theorem Ready.sound {c : RpcChannel ι κ τ μ} (h : Ready ev c) : Sound ev c := by
  obtain ⟨hruns, hreplied, hexpired⟩ := h.untouched
  refine ⟨h.closure, ?_, ?_, h.one_shot, ?_, ?_, ?_⟩
  · rw [h.client]; exact ⟨rfl, nofun, nofun⟩
  · rw [h.client, hreplied]; exact Nat.zero_le 1
  · rw [Multimap.countValue_eq_zero h.fresh, hexpired]; exact Nat.zero_le 1
  · rw [hreplied]; nofun
  · rw [hexpired]; nofun

theorem Sound.call {c : RpcChannel ι κ τ μ} (h : Sound ev c) (hreplied : c.replied = false)
    (hexpired : c.expired = false) (hnew : c.timer.m_pending_events.countValue ev = 0)
    (my_controller : κ) (req_protocol : TinyPBProtocol) {events : Timer.Events ι τ}
    (hrep : (events ev).m_is_repeated = false) (now : Int) {m_client : TcpClient Callback}
    (hin : m_client.InPlace) (hwait : m_client.waiting ≤ 1) :
    Sound ev { c with
      my_controller, req_protocol, events, m_client
      timer := c.timer.addTimerEvent events ev now } := by
  refine ⟨h.closure, hin, ?_, hrep, ?_, ?_, ?_⟩
  · rw [hreplied]
    exact hwait
  · rw [Timer.addTimerEvent_pending, Multimap.countValue_emplace_self, hnew, hexpired]
    exact Nat.le_refl 1
  · exact fun hr => absurd (hreplied.symm.trans hr) Bool.false_ne_true
  · exact fun he => absurd (hexpired.symm.trans he) Bool.false_ne_true

end Sound

/-! ## The callbacks -/

theorem runClosure_eq {c : RpcChannel ι κ τ μ} (h : c.m_closure = true) :
    c.runClosure = { c with runs := c.runs + 1 } := if_pos h

def Accepted (ParseFromString : Bytes → μ × Bool) (c : RpcChannel ι κ τ μ) (m : TinyPBProtocol) :
    Prop :=
  (ParseFromString m.m_pb_data).2 = true ∧ m.m_err_code = 0 ∧
    (c.controllers c.m_controller).m_is_cancled = false

instance (c : RpcChannel ι κ τ μ) (m : TinyPBProtocol) : Decidable (Accepted ParseFromString c m) :=
  inferInstanceAs (Decidable (_ ∧ _))

variable [DecidableEq κ]

theorem updateController_sameCall (c : RpcChannel ι κ τ μ) (k : κ)
    {f : RpcController → RpcController} (hf : ∀ r, (f r).m_is_cancled = r.m_is_cancled) :
    SameCall c (c.updateController k f) := by
  refine ⟨rfl, rfl, rfl, rfl, rfl, ⟨rfl, rfl⟩, fun x => ?_⟩
  unfold updateController
  rcases eq_or_ne x k with rfl | h
  · simp only [Function.update_self]
    exact hf _
  · simp only [Function.update_of_ne h]

theorem setError_sameCall (c : RpcChannel ι κ τ μ) (k : κ) (err_code : ErrorCode)
    (error_info : Bytes) : SameCall c (c.setError k err_code error_info) :=
  c.updateController_sameCall k fun _ => rfl

theorem connectDone_sameCall (c : RpcChannel ι κ τ μ) :
    SameCall c c.connectDone ∧ c.connectDone.runs = c.runs ∧
      c.connectDone.m_client = c.m_client.writeMessage c.req_protocol .written := by
  unfold connectDone
  simp only
  split
  · have h := setError_sameCall c c.m_controller c.m_client.m_connect_errcode
      c.m_client.m_connect_error_info
    exact ⟨⟨h.closure, h.replied, h.expired, h.events, h.timer, h.names, h.cancled⟩, rfl, rfl⟩
  · exact ⟨⟨rfl, rfl, rfl, rfl, rfl, ⟨rfl, rfl⟩, fun _ => rfl⟩, rfl, rfl⟩

theorem timerDone_spec {c : RpcChannel ι κ τ μ} (h : c.m_closure = true) :
    ∃ controllers : κ → RpcController, (controllers c.my_controller).m_is_cancled = true ∧
      c.timerDone = { c with controllers, expired := true, runs := c.runs + 1 } := by
  unfold timerDone
  rw [runClosure_eq (by exact h)]
  refine ⟨_, ?_, rfl⟩
  simp only [setError, updateController, Function.update_self]
  rfl

variable [DecidableEq ι] {ev : ι}

def afterReply (ev : ι) (ParseFromString : Bytes → μ × Bool) (c : RpcChannel ι κ τ μ)
    (m : TinyPBProtocol) : RpcChannel ι κ τ μ :=
  { c with
    events := Timer.setCancle c.events ev true
    replied := true
    m_response := (ParseFromString m.m_pb_data).1 }

theorem readDone_spec (ev : ι) (ParseFromString : Bytes → μ × Bool) {c : RpcChannel ι κ τ μ}
    (h : c.m_closure = true) (m : TinyPBProtocol) :
    SameCall (afterReply ev ParseFromString c m) (readDone ev ParseFromString c m) ∧
      (readDone ev ParseFromString c m).m_client = c.m_client ∧
      (readDone ev ParseFromString c m).runs = c.runs +
        if Accepted ParseFromString c m then 1 else 0 := by
  unfold readDone
  simp only
  split
  · rename_i hparse
    have hbad : ¬ Accepted ParseFromString c m := by
      rintro ⟨hok, -⟩
      rw [hok] at hparse
      cases hparse
    rw [if_neg hbad]
    exact ⟨setError_sameCall _ _ _ _, rfl, rfl⟩
  · rename_i hparse
    split
    · rename_i herr
      have hbad : ¬ Accepted ParseFromString c m := fun hacc => herr hacc.2.1
      rw [if_neg hbad]
      exact ⟨setError_sameCall _ _ _ _, rfl, rfl⟩
    · rename_i herr
      split
      · rename_i hcancled
        have hacc : Accepted ParseFromString c m :=
          ⟨by simpa using hparse, by simpa using herr, by simpa using hcancled⟩
        have hrun : (afterReply ev ParseFromString c m).runClosure = _ := runClosure_eq h
        unfold afterReply at hrun
        rw [if_pos hacc, hrun]
        exact ⟨⟨rfl, rfl, rfl, rfl, rfl, ⟨rfl, rfl⟩, fun _ => rfl⟩, rfl, rfl⟩
      · rename_i hcancled
        have hbad : ¬ Accepted ParseFromString c m := fun hacc => hcancled (by simpa using hacc.2.2)
        rw [if_neg hbad]
        exact ⟨SameCall.refl _, rfl, rfl⟩

theorem foldl_written (ev : ι) (ParseFromString : Bytes → μ × Bool) {c : RpcChannel ι κ τ μ}
    (hcl : c.m_client.InPlace) {dones : List (TinyPBProtocol × Callback)}
    (hdones : ∀ d ∈ dones, d.2 = .written) :
    ∃ m_connection : TcpConnection Callback,
      dones.foldl (fun c d => runCallback ev ParseFromString c d.2 d.1) c =
          c.setConnection m_connection ∧
        (c.setConnection m_connection).m_client.InPlace ∧
        (c.setConnection m_connection).m_client.waiting ≤ c.m_client.waiting + dones.length ∧
        m_connection.m_write_dones = c.m_client.m_connection.m_write_dones := by
  induction dones generalizing c with
  | nil => exact ⟨c.m_client.m_connection, rfl, hcl, Nat.le_refl _, rfl⟩
  | cons d dones ih =>
    obtain ⟨hcl', hwait'⟩ := hcl.readMessage c.req_protocol.m_msg_id
    have hkept : c.writeDone.m_client.m_connection.m_write_dones =
        c.m_client.m_connection.m_write_dones := by
      unfold writeDone TcpClient.readMessage TcpConnection.pushReadMessage
      split <;> rfl
    have hd : runCallback ev ParseFromString c d.2 d.1 = c.writeDone := by
      rw [hdones d List.mem_cons_self]
      rfl
    rw [List.foldl_cons, hd]
    obtain ⟨m_connection, heq, hin, hwait, hdones'⟩ :=
      ih (c := c.writeDone) hcl' fun x hx => hdones x (List.mem_cons_of_mem d hx)
    refine ⟨m_connection, heq, hin, ?_, hdones'.trans hkept⟩
    replace hwait : (c.setConnection m_connection).m_client.waiting ≤
        c.writeDone.m_client.waiting + dones.length := hwait
    have hstep : c.writeDone.m_client.waiting ≤ c.m_client.waiting + 1 := hwait'
    rw [List.length_cons]
    omega

/-! ## The steps -/

/-- What a step does to the counts of a call. -/
inductive Effect (ParseFromString : Bytes → μ × Bool) (c : RpcChannel ι κ τ μ) (e : Event ι)
    (t : RpcChannel ι κ τ μ) : Prop where
  | nothing (hreplied : t.replied = c.replied) (hexpired : t.expired = c.expired)
      (hruns : t.runs = c.runs) (hcalls : ∀ result, e = .excute result → c.calls result = [])
  | reply (result : List TinyPBProtocol) (m : TinyPBProtocol) (he : e = .excute result)
      (hcalls : c.calls result = [(.reply, m)]) (hfirst : c.replied = false)
      (hreplied : t.replied = true) (hexpired : t.expired = c.expired)
      (hruns : t.runs = c.runs + if Accepted ParseFromString c m then 1 else 0)
  | expire (hopen : c.replied = false) (hfirst : c.expired = false) (hreplied : t.replied = false)
      (hexpired : t.expired = true) (hruns : t.runs = c.runs + 1)
      (hcalls : ∀ result, e ≠ .excute result)

def Steps (ev : ι) (ParseFromString : Bytes → μ × Bool) (c : RpcChannel ι κ τ μ) (e : Event ι)
    (t : RpcChannel ι κ τ μ) : Prop := Sound ev t ∧ Effect ParseFromString c e t

theorem Sound.connectDone {c : RpcChannel ι κ τ μ} (h : Sound ev c)
    (hroom : c.m_client.waiting + 1 + c.replied.toNat ≤ 1) : Sound ev c.connectDone := by
  obtain ⟨hs, -, hclient⟩ := connectDone_sameCall c
  obtain ⟨hcl, hwait⟩ := h.client.writeMessage c.req_protocol
  refine ⟨hs.closure.trans h.closure, ?_, ?_, ?_, ?_, ?_, ?_⟩
  · rw [hclient]; exact hcl
  · rw [hclient, hwait, hs.replied]; exact hroom
  · rw [hs.events]; exact h.one_shot
  · rw [hs.timer, hs.expired]; exact h.pending
  · rw [hs.replied, hs.events]; exact h.cancled
  · rw [hs.expired, hs.cancled, hs.names.2]; exact h.late

theorem Sound.reconnect {c t : RpcChannel ι κ τ μ} (h : Sound ev c) {rt : ReconnectResult}
    (ht : next ev ParseFromString c (.reconnect rt) = some t) :
    Steps ev ParseFromString c (.reconnect rt) t := by
  have hw := h.waiting
  simp only [next] at ht
  split at ht
  · rename_i hconn
    cases ht
    obtain ⟨hcl, hwait⟩ := h.client.reconnect hconn rt
    obtain ⟨hsame, hruns, -⟩ :=
      connectDone_sameCall { c with m_client := c.m_client.reconnect rt }
    have hsound : Sound ev { c with m_client := c.m_client.reconnect rt } :=
      h.of_client hcl (by omega)
    exact ⟨hsound.connectDone (by rw [hwait]; exact hw),
      .nothing hsame.replied hsame.expired hruns nofun⟩
  · cases ht

theorem Sound.timer {c t : RpcChannel ι κ τ μ} (h : Sound ev c) {e : ι} :
    (∀ now, next ev ParseFromString c (.addTimerEvent e now) = some t →
      Steps ev ParseFromString c (.addTimerEvent e now) t) ∧
    (next ev ParseFromString c (.deleteTimerEvent e) = some t →
      Steps ev ParseFromString c (.deleteTimerEvent e) t) ∧
    (next ev ParseFromString c (.setCancle e) = some t →
      Steps ev ParseFromString c (.setCancle e) t) := by
  have hother (hne : ¬ e = ev) : Timer.setCancle c.events e true ev = c.events ev :=
    Timer.setCancle_of_ne _ _ (Ne.symm hne)
  refine ⟨fun now ht => ?_, fun ht => ?_, fun ht => ?_⟩ <;> simp only [next] at ht <;> split at ht
  · cases ht
  · rename_i hne
    cases ht
    refine ⟨h.of_timer rfl rfl ?_, .nothing rfl rfl rfl nofun⟩
    rw [Timer.addTimerEvent_pending, Multimap.countValue_emplace_of_ne _ _ hne]
  · cases ht
  · rename_i hne
    cases ht
    refine ⟨h.of_timer (by rw [hother hne]) (by rw [hother hne]) ?_, .nothing rfl rfl rfl nofun⟩
    exact Multimap.countValue_eraseEntry_le _ _ _ _
  · cases ht
  · rename_i hne
    cases ht
    exact ⟨h.of_timer (by rw [hother hne]) (by rw [hother hne]) (Nat.le_refl _),
      .nothing rfl rfl rfl nofun⟩

theorem Sound.clear {c t : RpcChannel ι κ τ μ} (h : Sound ev c)
    (ht : next ev ParseFromString c .clear = some t) : Steps ev ParseFromString c .clear t := by
  have hcl := h.client
  cases ht
  refine ⟨?_, .nothing rfl rfl rfl nofun⟩
  unfold TcpConnection.clear
  split
  · exact h.of_client hcl (Nat.le_refl _)
  · exact h.of_client ⟨hcl.client, hcl.written, hcl.reply⟩ (Nat.le_refl _)

/-! ## Replies -/

theorem Sound.readDone {c : RpcChannel ι κ τ μ} (h : Sound ev c) (hwait : c.m_client.waiting = 0)
    (m : TinyPBProtocol) : Sound ev (readDone ev ParseFromString c m) := by
  obtain ⟨hsame, hclient, -⟩ := readDone_spec ev ParseFromString h.closure m
  have hafter : Sound ev (afterReply ev ParseFromString c m) := by
    refine ⟨h.closure, h.client, ?_, ?_, h.pending, fun _ => ?_, h.late⟩
    · exact Nat.le_of_eq (by rw [afterReply, hwait]; rfl)
    · rw [afterReply, Timer.setCancle_repeated]
      exact h.one_shot
    · simp only [afterReply, Timer.setCancle_self]
      rfl
  refine hafter.sameCall hsame ?_ ?_
  · rw [hclient]; exact h.client
  · rw [hclient]; exact Nat.le_refl _

theorem Sound.excute {c t : RpcChannel ι κ τ μ} (h : Sound ev c) {result : List TinyPBProtocol}
    (ht : next ev ParseFromString c (.excute result) = some t) :
    Steps ev ParseFromString c (.excute result) t := by
  cases ht
  obtain ⟨htaken, hwait, -⟩ := h.take result
  have hw := h.waiting
  unfold RpcChannel.excute
  rcases h.calls_cases result with hnone | ⟨hfirst, m, hsome⟩
  · rw [hnone]
    refine ⟨htaken, .nothing rfl rfl rfl fun result' he => ?_⟩
    cases he
    exact hnone
  · rw [hsome, List.length_singleton] at hwait
    obtain ⟨hsame, -, hruns⟩ := readDone_spec ev ParseFromString htaken.closure m
    rw [hsome]
    exact ⟨htaken.readDone (by omega) m,
      .reply result m rfl hsome hfirst hsame.replied hsame.expired hruns⟩

/-! ## Writing -/

theorem Sound.onWrite_cases {c t : RpcChannel ι κ τ μ} (h : Sound ev c) {is_all_write : Bool}
    (ht : RpcChannel.onWrite ev ParseFromString c is_all_write = some t) :
    t = c ∨ ∃ m_connection : TcpConnection Callback, t = c.setConnection m_connection ∧
      c.m_client.m_connection.m_state = .Connected ∧
      (c.setConnection m_connection).m_client.InPlace ∧
      (c.setConnection m_connection).m_client.waiting ≤ c.m_client.waiting := by
  unfold RpcChannel.onWrite at ht
  split at ht
  · cases ht
    exact Or.inl rfl
  · rename_i hstate
    simp only [Option.bind_eq_bind, Option.bind_eq_some_iff] at ht
    obtain ⟨conn, hconn, ht⟩ := ht
    obtain ⟨hin1, hwait1, hsame1⟩ := h.client.beforeWrite hconn is_all_write
    have hwritten : ∀ d ∈ conn.m_write_dones, d.2 = .written := by
      intro d hd
      exact hin1.written d (hsame1 ▸ hd)
    generalize conn.afterWrite is_all_write = conn1 at hin1 hwait1 hsame1 ht
    have hin : (c.setConnection conn1).m_client.InPlace := hin1
    obtain ⟨m_connection, hfold, hin2, hwait2, hsame2⟩ :=
      foldl_written ev ParseFromString hin hwritten
    rw [hfold] at ht
    cases ht
    -- The callbacks that have run are cleared, and each one has left at most one behind.
    obtain ⟨hin3, hwait3⟩ := hin2.clearWriteDones
    replace hwait3 : (c.setConnection m_connection.clearWriteDones).m_client.waiting +
        m_connection.m_write_dones.length = (c.setConnection m_connection).m_client.waiting := hwait3
    replace hwait2 : (c.setConnection m_connection).m_client.waiting ≤
        (c.setConnection conn1).m_client.waiting + conn.m_write_dones.length := hwait2
    replace hwait1 : (c.setConnection conn1).m_client.waiting = c.m_client.waiting := hwait1
    rw [hsame2.trans hsame1] at hwait3
    exact Or.inr ⟨m_connection.clearWriteDones, rfl, not_not.mp hstate, hin3, by omega⟩

theorem Sound.onWrite {c t : RpcChannel ι κ τ μ} (h : Sound ev c) {is_all_write : Bool}
    (ht : next ev ParseFromString c (.onWrite is_all_write) = some t) :
    Steps ev ParseFromString c (.onWrite is_all_write) t := by
  rcases h.onWrite_cases ht with rfl | ⟨m_connection, rfl, -, hin, hwait⟩
  · exact ⟨h, .nothing rfl rfl rfl nofun⟩
  · exact ⟨h.of_client hin hwait, .nothing rfl rfl rfl nofun⟩

/-! ## The timer -/

theorem foldl_ite_iterate {α σ : Type} (f : σ → σ) (a : α) (l : List (α × Int)) [DecidableEq α]
    (s : σ) :
    l.foldl (fun s x => if x.1 = a then f s else s) s = f^[(l.map Prod.fst).count a] s := by
  induction l generalizing s with
  | nil => rfl
  | cons x l ih =>
    rw [List.foldl_cons, ih, List.map_cons]
    split
    · rename_i h
      rw [h, List.count_cons_self, Function.iterate_succ_apply]
    · rename_i h
      rw [List.count_cons_of_ne h]

/-- The callback of the call runs at most once, and then the event is gone. -/
theorem Sound.onTimer_cases {c : RpcChannel ι κ τ μ} (h : Sound ev c) (now : Int)
    (readings : List (Int × Int)) (last : Int) :
    ∃ (timer : Timer ι) (events : Timer.Events ι τ), Sound ev { c with timer, events } ∧
      (RpcChannel.onTimer ev c now readings last = { c with timer, events } ∨
        RpcChannel.onTimer ev c now readings last = { c with timer, events }.timerDone ∧
          c.expired = false ∧ c.replied = false ∧
          timer.m_pending_events.countValue ev = 0) := by
  obtain ⟨hcount, hopen⟩ := Timer.onTimer_count h.one_shot now readings last
  obtain ⟨hrep, hcancled⟩ := Timer.onTimer_flags c.timer c.events now readings last ev
  unfold RpcChannel.onTimer
  simp only
  rw [foldl_ite_iterate]
  generalize c.timer.onTimer c.events now readings last = r at hcount hopen hrep hcancled ⊢
  have hp := h.pending
  refine ⟨r.timer, r.events, h.of_timer hrep hcancled (by omega), ?_⟩
  have hruns : (r.tasks.map Prod.fst).count ev = 0 ∨ (r.tasks.map Prod.fst).count ev = 1 := by omega
  rcases hruns with hzero | hone
  · left
    rw [hzero]
    rfl
  · right
    rw [hone] at hcount ⊢
    have hmem : ev ∈ r.tasks.map Prod.fst := List.count_pos_iff.mp (by omega)
    refine ⟨rfl, ?_, ?_, by omega⟩
    · cases he : c.expired with
      | false => rfl
      | true => rw [he, Bool.toNat_true] at hp; omega
    · cases hr : c.replied with
      | false => rfl
      | true => exact absurd (h.cancled hr) (by rw [hopen hmem]; exact Bool.false_ne_true)

theorem Sound.onTimer {c t : RpcChannel ι κ τ μ} (h : Sound ev c) {now : Int}
    {readings : List (Int × Int)} {last : Int}
    (ht : next ev ParseFromString c (.onTimer now readings last) = some t) :
    Steps ev ParseFromString c (.onTimer now readings last) t := by
  cases ht
  obtain ⟨timer, events, hsound, heq | ⟨heq, hfirst, hreplied, hgone⟩⟩ :=
    h.onTimer_cases now readings last
  · rw [heq]
    exact ⟨hsound, .nothing rfl rfl rfl nofun⟩
  · obtain ⟨controllers, hlate, hdone⟩ := timerDone_spec hsound.closure
    rw [heq, hdone]
    have hpending : timer.m_pending_events.countValue ev + 1 ≤ 1 := by omega
    exact ⟨⟨h.closure, h.client, h.waiting, hsound.one_shot, hpending, hsound.cancled,
      fun _ => hlate⟩, .expire hreplied hfirst hreplied rfl rfl nofun⟩

/-! ## Every step -/

theorem next_steps {c t : RpcChannel ι κ τ μ} {e : Event ι} (h : Sound ev c)
    (ht : next ev ParseFromString c e = some t) : Steps ev ParseFromString c e t := by
  cases e with
  | reconnect rt => exact h.reconnect ht
  | onWrite is_all_write => exact h.onWrite ht
  | excute result => exact h.excute ht
  | onTimer now readings last => exact h.onTimer ht
  | addTimerEvent e now => exact h.timer.1 now ht
  | deleteTimerEvent e => exact h.timer.2.1 ht
  | setCancle e => exact h.timer.2.2 ht
  | clear => exact h.clear ht

end RpcChannel

end TinyRpc
