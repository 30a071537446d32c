import Mathlib.Data.List.ReduceOption
import TinyRpc.Connection.Spec
import TinyRpc.Rpc.Dispatcher

/-!
# One reply for each request

The server branch of `TcpConnection::excute`. What a service does may depend
on the calls that were made before: the registry is a function of them.
-/

namespace TinyRpc.RpcDispatcher

open Coder

variable {μ δ : Type}

/-! ## The server branch of `excute` -/

/-- The `for` loop: the replies, and the calls that were made. -/
def excuteLoop (m_service_map : List (Call μ) → Registry μ) :
    List TinyPBProtocol → List (Call μ) → List TinyPBProtocol →
      List TinyPBProtocol × List (Call μ)
  | [], calls, replay_result => (replay_result, calls)
  | request :: result, calls, replay_result =>
    let (message, call) := dispatch (m_service_map calls) request {}
    excuteLoop m_service_map result (calls ++ call.toList) (replay_result ++ [message])

def excuteServer (m_service_map : List (Call μ) → Registry μ) (c : TcpConnection δ)
    (turns : Nat) : Option (TcpConnection δ × List (Call μ)) := do
  let (result, m_in_buffer) ← c.result turns
  let c := { c with m_in_buffer }
  let (replay_result, calls) := excuteLoop m_service_map result [] []
  let (_, c) ← c.encodeOut replay_result
  return (c.listenWrite, calls)

/-! ## One request -/

/-- What a request gets: a reply of its own, and a call only of the method
that it names, with the payload that it carries. -/
structure Served (m_service_map : Registry μ) (request reply : TinyPBProtocol)
    (made : Option (Call μ)) : Prop where
  msg_id : reply.m_msg_id = request.m_msg_id
  method_name : reply.m_method_name = request.m_method_name
  called : ∀ call, made = some call →
    resolve m_service_map request.m_method_name = .ok (call.service, call.method) ∧
      call.service.ParseFromString call.method request.m_pb_data = some call.req_msg
  uncalled : made = none → reply.m_err_code ≠ 0 ∧ reply.m_pb_data = []

theorem dispatch_served (m_service_map : Registry μ) (request : TinyPBProtocol) :
    Served m_service_map request (dispatch m_service_map request {}).1
      (dispatch m_service_map request {}).2 := by
  have h := dispatch_answers m_service_map request {}
  refine ⟨h.msg_id, h.method_name, ?_, dispatch_uncalled⟩
  intro call hcall
  rw [dispatch_call] at hcall
  split at hcall
  · simp at hcall
  · rename_i service method hres
    obtain ⟨req_msg, hparse, rfl⟩ := Option.map_eq_some_iff.mp hcall
    exact ⟨hres, hparse⟩

/-! ## All requests -/

/-- Each request is served once, in order. `made` says for each request which
call was made for it, and the calls are these, in the same order. -/
structure OneReply (m_service_map : List (Call μ) → Registry μ)
    (result replay_result : List TinyPBProtocol) (calls : List (Call μ)) : Prop where
  length_eq : replay_result.length = result.length
  served : ∃ made : List (Option (Call μ)), made.length = result.length ∧
    calls = made.reduceOption ∧
    ∀ k request, result[k]? = some request →
      ∃ reply call, replay_result[k]? = some reply ∧ made[k]? = some call ∧
        Served (m_service_map (made.take k).reduceOption) request reply call

theorem OneReply.snoc {m_service_map : List (Call μ) → Registry μ}
    {result replay_result : List TinyPBProtocol} {calls : List (Call μ)}
    (h : OneReply m_service_map result replay_result calls) {request reply : TinyPBProtocol}
    {call : Option (Call μ)} (hserved : Served (m_service_map calls) request reply call) :
    OneReply m_service_map (result ++ [request]) (replay_result ++ [reply])
      (calls ++ call.toList) := by
  obtain ⟨hlen, made, hmade, rfl, hall⟩ := h
  refine ⟨by simp [hlen], made ++ [call], by simp [hmade], ?_, ?_⟩
  · rw [List.reduceOption_append, List.reduceOption_singleton]
  · intro k r hk
    rcases Nat.lt_trichotomy k result.length with hlt | rfl | hgt
    · rw [List.getElem?_append_left hlt] at hk
      rw [List.getElem?_append_left (by omega), List.getElem?_append_left (by omega),
        List.take_append_of_le_length (by omega)]
      exact hall k r hk
    · rw [List.getElem?_concat_length] at hk
      obtain rfl := Option.some.inj hk
      refine ⟨reply, call, ?_, ?_, ?_⟩
      · rw [← hlen, List.getElem?_concat_length]
      · rw [← hmade, List.getElem?_concat_length]
      · rwa [List.take_left' hmade]
    · rw [List.getElem?_eq_none (by simp; omega)] at hk
      simp at hk

theorem excuteLoop_oneReply (m_service_map : List (Call μ) → Registry μ)
    {done result : List TinyPBProtocol} {calls : List (Call μ)}
    {replay_result : List TinyPBProtocol} (h : OneReply m_service_map done replay_result calls) :
    OneReply m_service_map (done ++ result)
      (excuteLoop m_service_map result calls replay_result).1
      (excuteLoop m_service_map result calls replay_result).2 := by
  induction result generalizing done calls replay_result with
  | nil => rwa [List.append_nil]
  | cons request result ih =>
    rw [List.append_cons]
    apply ih
    exact h.snoc (dispatch_served _ request)

theorem oneReply_nil (m_service_map : List (Call μ) → Registry μ) :
    OneReply m_service_map [] [] [] :=
  ⟨rfl, [], rfl, rfl, by simp⟩

/-- What the server branch gives to `encode` for the requests it decoded. -/
theorem one_reply_per_request (m_service_map : List (Call μ) → Registry μ)
    (result : List TinyPBProtocol) :
    ∃ replay_result calls, OneReply m_service_map result replay_result calls ∧
      ∀ (c : TcpConnection δ) (turns : Nat) (m_in_buffer : TcpBuffer),
        c.result turns = some (result, m_in_buffer) →
          excuteServer m_service_map c turns =
            ({ c with m_in_buffer : TcpConnection δ }.encodeOut replay_result).map fun r =>
              (r.2.listenWrite, calls) := by
  refine ⟨_, _, excuteLoop_oneReply m_service_map (oneReply_nil _), ?_⟩
  intro c turns m_in_buffer hresult
  unfold excuteServer
  simp only [hresult, Option.bind_eq_bind, Option.bind_some, Option.map_eq_bind]
  rfl

/-! ## Services without a state -/

theorem excuteLoop_const (m_service_map : Registry μ) (result : List TinyPBProtocol)
    (calls : List (Call μ)) (replay_result : List TinyPBProtocol) :
    (excuteLoop (fun _ => m_service_map) result calls replay_result).1 =
      replay_result ++ result.map fun r => (dispatch m_service_map r {}).1 := by
  induction result generalizing calls replay_result with
  | nil => simp [excuteLoop]
  | cons request result ih =>
    unfold excuteLoop
    rw [ih, List.append_assoc]
    rfl

theorem excute_eq_excuteServer (m_service_map : Registry μ) (c : TcpConnection δ)
    (hserver : c.m_connection_type = .TcpConnectionByServer) (turns : Nat) :
    (c.excute turns fun r => (dispatch m_service_map r {}).1).map Prod.fst =
      (excuteServer (fun _ => m_service_map) c turns).map Prod.fst := by
  unfold TcpConnection.excute excuteServer
  cases c.result turns with
  | none => rfl
  | some r =>
    obtain ⟨result, m_in_buffer⟩ := r
    have hreplies := excuteLoop_const m_service_map result [] []
    rw [List.nil_append] at hreplies
    simp only [Option.bind_eq_bind, Option.bind_some, hserver, hreplies, Option.map_bind]
    rfl

end TinyRpc.RpcDispatcher
