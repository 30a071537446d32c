import TinyRpc.Rpc.Dispatcher

/-!
# How failures are classified

A request can fail at five points. `error_code.h` has a code for each of them,
`RpcDispatcher::dispatch` sends only four of these.
-/

namespace TinyRpc.RpcDispatcher

open Coder

variable {μ : Type}

/-! ## The failures -/

inductive Failure where
  | parseServiceName
  | serviceNotFound
  | methodNotFound
  | failedDeserialize
  | failedSerialize
  deriving DecidableEq, Repr

/-- The code that `error_code.h` has for a failure. -/
def Failure.err_code : Failure → ErrorCode
  | .parseServiceName => ERROR_PARSE_SERVICE_NAME
  | .serviceNotFound => ERROR_SERVICE_NOT_FOUND
  | .methodNotFound => ERROR_METHOD_NOT_FOUND
  | .failedDeserialize => ERROR_FAILED_DESERIALIZE
  | .failedSerialize => ERROR_FAILED_SERIALIZE

theorem Failure.err_code_injective : Function.Injective Failure.err_code := by
  intro f g h
  cases f <;> cases g <;> first | rfl | exact absurd h (by decide)

theorem Failure.err_code_ne_zero (f : Failure) : f.err_code ≠ 0 := by
  cases f <;> decide

/-- What stands in front of the first dot of a name. -/
def serviceName (full_name : Bytes) : Bytes := full_name.takeWhile (· ≠ dot)

/-- What stands behind the first dot of a name. -/
def methodName (full_name : Bytes) : Bytes := (full_name.dropWhile (· ≠ dot)).tail

/-- The first point at which a request fails. -/
def failure (m_service_map : Registry μ) (req_protocol : TinyPBProtocol) : Option Failure :=
  if !req_protocol.m_method_name.contains dot then some .parseServiceName
  else
    let method := methodName req_protocol.m_method_name
    match find m_service_map (serviceName req_protocol.m_method_name) with
    | none => some .serviceNotFound
    | some service =>
      if !service.methods.contains method then some .methodNotFound
      else
        match service.ParseFromString method req_protocol.m_pb_data with
        | none => some .failedDeserialize
        | some req_msg =>
          if (service.SerializePartialToString method (service.CallMethod method req_msg)).2 then
            none
          else some .failedSerialize

/-- A reply says at which point the request failed, or that it did not fail. -/
structure Classified (m_service_map : Registry μ) (req_protocol reply : TinyPBProtocol) :
    Prop where
  err_code : ∀ f : Failure,
    reply.m_err_code = f.err_code ↔ failure m_service_map req_protocol = some f
  success : reply.m_err_code = 0 ↔ failure m_service_map req_protocol = none
  err_info : reply.m_err_info = [] ↔ failure m_service_map req_protocol = none

/-! ## Names -/

theorem split_at_dot {full_name : Bytes} (h : dot ∈ full_name) :
    full_name = serviceName full_name ++ dot :: methodName full_name ∧
      dot ∉ serviceName full_name := by
  unfold serviceName methodName
  induction full_name with
  | nil => cases h
  | cons b rest ih =>
    by_cases hb : b = dot
    · subst hb
      simp
    · obtain ⟨heq, hdot⟩ := ih ((List.mem_cons.mp h).resolve_left (Ne.symm hb))
      rw [List.takeWhile_cons_of_pos (by simpa using hb),
        List.dropWhile_cons_of_pos (by simpa using hb)]
      exact ⟨congrArg (b :: ·) heq, fun hmem => (List.mem_cons.mp hmem).elim (Ne.symm hb) hdot⟩

theorem parseServiceFullName_eq (full_name : Bytes) :
    parseServiceFullName full_name =
      if dot ∈ full_name then some (serviceName full_name, methodName full_name) else none := by
  by_cases h : dot ∈ full_name
  · obtain ⟨heq, hdot⟩ := split_at_dot h
    rw [if_pos h]
    conv_lhs => rw [heq]
    exact parseServiceFullName_append hdot
  · rw [if_neg h]
    unfold parseServiceFullName
    rw [if_pos (List.idxOf_eq_length h), ite_self]

theorem FindMethodByName_ite (service : Service μ) (method_name : Bytes) :
    service.FindMethodByName method_name =
      if method_name ∈ service.methods then some method_name else none := by
  split
  · rename_i hmem
    exact (service.found _ _).mpr ⟨rfl, hmem⟩
  · rename_i hmem
    refine Option.eq_none_iff_forall_ne_some.mpr fun method h => ?_
    obtain ⟨rfl, hmethod⟩ := (service.found _ _).mp h
    exact hmem hmethod

/-! ## The codes that are sent -/

/-- The code and the text that the dispatcher sends for a failure. -/
def Failure.sent : Failure → ErrorCode × String
  | .parseServiceName => (ERROR_PARSE_SERVICE_NAME, "parse service name error")
  | .serviceNotFound => (ERROR_SERVICE_NOT_FOUND, "service not found")
  | .methodNotFound => (ERROR_SERVICE_NOT_FOUND, "service not found")
  | .failedDeserialize => (ERROR_FAILED_DESERIALIZE, "deserlise error")
  | .failedSerialize => (ERROR_FAILED_SERIALIZE, "serilize error")

theorem Failure.sent_eq_err_code_iff (f : Failure) :
    f.sent.1 = f.err_code ↔ f ≠ .methodNotFound := by
  cases f <;> decide

theorem Failure.sent_info_ne_nil (f : Failure) : ascii f.sent.2 ≠ [] := by
  cases f <;> decide

theorem dispatch_sent (m_service_map : Registry μ) (req_protocol : TinyPBProtocol) :
    let reply := (dispatch m_service_map req_protocol {}).1
    match failure m_service_map req_protocol with
    | none => reply.m_err_code = 0 ∧ reply.m_err_info = []
    | some f => reply.m_err_code = f.sent.1 ∧ reply.m_err_info = ascii f.sent.2 := by
  unfold dispatch resolve failure
  rw [parseServiceFullName_eq]
  simp only [List.contains_eq_mem, Bool.not_eq_true', decide_eq_false_iff_not]
  by_cases hdot : dot ∈ req_protocol.m_method_name
  · simp only [hdot, not_true_eq_false, if_true, if_false]
    cases find m_service_map (serviceName req_protocol.m_method_name) with
    | none => exact ⟨rfl, rfl⟩
    | some service =>
      simp only [FindMethodByName_ite]
      generalize methodName req_protocol.m_method_name = method
      by_cases hmethod : method ∈ service.methods
      · simp only [hmethod, not_true_eq_false, if_true, if_false]
        cases service.ParseFromString method req_protocol.m_pb_data with
        | none => exact ⟨rfl, rfl⟩
        | some req_msg =>
          cases h : (service.SerializePartialToString method
            (service.CallMethod method req_msg)).2 with
          | true => simp [h]
          | false => simp [h, setTinyPBError, Failure.sent]
      · simp only [hmethod, not_false_eq_true, if_true, if_false]
        exact ⟨rfl, rfl⟩
  · simp only [hdot, not_false_eq_true, if_true, if_false]
    exact ⟨rfl, rfl⟩

/-! ## The classification -/

/-- A reply says at which point its request failed, except when a registered service has
no method of the name that is sent. -/
theorem classified_iff (m_service_map : Registry μ) (req_protocol : TinyPBProtocol) :
    Classified m_service_map req_protocol (dispatch m_service_map req_protocol {}).1 ↔
      failure m_service_map req_protocol ≠ some .methodNotFound := by
  have hsent := dispatch_sent m_service_map req_protocol
  cases hf : failure m_service_map req_protocol with
  | none =>
    simp only [hf] at hsent
    refine ⟨fun _ => Option.some_ne_none _ |>.symm, fun _ => ⟨fun f => ?_, ?_, ?_⟩⟩
    · rw [hsent.1, hf]
      exact ⟨fun h => absurd h.symm f.err_code_ne_zero, fun h => by cases h⟩
    · exact ⟨fun _ => hf, fun _ => hsent.1⟩
    · exact ⟨fun _ => hf, fun _ => hsent.2⟩
  | some g =>
    simp only [hf] at hsent
    have hne : (some g ≠ some .methodNotFound) ↔ g.sent.1 = g.err_code := by
      rw [g.sent_eq_err_code_iff, Ne, Option.some_inj]
    rw [hne]
    refine ⟨fun h => ?_, fun hg => ⟨fun f => ?_, ?_, ?_⟩⟩
    · rw [← hsent.1]
      exact (h.err_code g).mpr hf
    · rw [hsent.1, hg, hf, Failure.err_code_injective.eq_iff, Option.some_inj]
    · rw [hsent.1, hg, hf]
      exact ⟨fun h => absurd h g.err_code_ne_zero, fun h => by cases h⟩
    · rw [hsent.2, hf]
      exact ⟨fun h => absurd h g.sent_info_ne_nil, fun h => by cases h⟩

theorem method_not_found_misreported :
    failure (registry [echo "Order"]) { m_method_name := ascii "Order.other" } =
      some .methodNotFound ∧
    ¬ Classified (registry [echo "Order"]) { m_method_name := ascii "Order.other" }
      (dispatch (registry [echo "Order"]) { m_method_name := ascii "Order.other" } {}).1 := by
  have hf : failure (registry [echo "Order"]) { m_method_name := ascii "Order.other" } =
      some .methodNotFound := by decide
  refine ⟨hf, fun h => ?_⟩
  exact absurd ((h.err_code .methodNotFound).mpr hf) (by decide)

end TinyRpc.RpcDispatcher
