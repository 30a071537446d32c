import Mathlib.Data.List.Induction
import Mathlib.Data.List.Nodup
import TinyRpc.Coder.Spec
import TinyRpc.Rpc.ErrorCode

/-!
# The dispatcher

`rpc_dispatcher.cc`. A client sends the full name of a method, which is the
full name of its service, a dot, and the name of the method. The dispatcher
splits it at the first dot.
-/

namespace TinyRpc.RpcDispatcher

open Coder

/-! ## The functions of `rpc_dispatcher.cc` -/

def dot : Byte := BitVec.ofNat 8 '.'.toNat

/-- A service. Requests and responses are messages of type `μ`. What protobuf makes of
them are fields, and a method is found by its name. -/
structure Service (μ : Type) where
  full_name : Bytes
  methods : List Bytes
  FindMethodByName : Bytes → Option Bytes
  found : ∀ method_name method,
    FindMethodByName method_name = some method ↔ method = method_name ∧ method ∈ methods
  ParseFromString : Bytes → Bytes → Option μ
  CallMethod : Bytes → μ → μ
  /-- The string that is written, and whether that succeeds. -/
  SerializePartialToString : Bytes → μ → Bytes × Bool

variable {μ : Type}

def Service.methodFullName (service : Service μ) (method : Bytes) : Bytes :=
  service.full_name ++ dot :: method

abbrev Registry (μ : Type) := List (Bytes × Service μ)

def registerService (m_service_map : Registry μ) (service : Service μ) : Registry μ :=
  (service.full_name, service) :: m_service_map.filter (·.1 ≠ service.full_name)

def find (m_service_map : Registry μ) (service_name : Bytes) : Option (Service μ) :=
  (m_service_map.find? (·.1 = service_name)).map Prod.snd

def parseServiceFullName (full_name : Bytes) : Option (Bytes × Bytes) :=
  if full_name = [] then none
  else
    let i := full_name.idxOf dot
    if i = full_name.length then none
    else some (full_name.take i, (full_name.drop (i + 1)).take (full_name.length - i - 1))

def setTinyPBError (msg : TinyPBProtocol) (err_code : ErrorCode) (err_info : String) :
    TinyPBProtocol :=
  { msg with
    m_err_code := err_code
    m_err_info := ascii err_info
    m_err_info_len := intOfSize (ascii err_info).length }

/-- The service and the method that a request names, or the error that is sent back. -/
def resolve (m_service_map : Registry μ) (method_full_name : Bytes) :
    Except (ErrorCode × String) (Service μ × Bytes) :=
  match parseServiceFullName method_full_name with
  | none => .error (ERROR_PARSE_SERVICE_NAME, "parse service name error")
  | some (service_name, method_name) =>
    match find m_service_map service_name with
    | none => .error (ERROR_SERVICE_NOT_FOUND, "service not found")
    | some service =>
      match service.FindMethodByName method_name with
      | none => .error (ERROR_SERVICE_NOT_FOUND, "service not found")
      | some method => .ok (service, method)

structure Call (μ : Type) where
  service : Service μ
  method : Bytes
  req_msg : μ

/-- The response, and the call that was made for it. -/
def dispatch (m_service_map : Registry μ) (req_protocol rsp_protocol : TinyPBProtocol) :
    TinyPBProtocol × Option (Call μ) :=
  let rsp_protocol := { rsp_protocol with
    m_msg_id := req_protocol.m_msg_id
    m_method_name := req_protocol.m_method_name }
  match resolve m_service_map req_protocol.m_method_name with
  | .error (err_code, err_info) => (setTinyPBError rsp_protocol err_code err_info, none)
  | .ok (service, method) =>
    match service.ParseFromString method req_protocol.m_pb_data with
    | none => (setTinyPBError rsp_protocol ERROR_FAILED_DESERIALIZE "deserlise error", none)
    | some req_msg =>
      let rsp_msg := service.CallMethod method req_msg
      let (pb_data, ok) := service.SerializePartialToString method rsp_msg
      let rsp_protocol := { rsp_protocol with m_pb_data := pb_data }
      if !ok then
        (setTinyPBError rsp_protocol ERROR_FAILED_SERIALIZE "serilize error",
          some ⟨service, method, req_msg⟩)
      else
        ({ rsp_protocol with m_err_code := 0 }, some ⟨service, method, req_msg⟩)

theorem dispatch_call (m_service_map : Registry μ) (req_protocol rsp_protocol : TinyPBProtocol) :
    (dispatch m_service_map req_protocol rsp_protocol).2 =
      match resolve m_service_map req_protocol.m_method_name with
      | .error _ => none
      | .ok (service, method) =>
        (service.ParseFromString method req_protocol.m_pb_data).map (⟨service, method, ·⟩) := by
  unfold dispatch
  cases resolve m_service_map req_protocol.m_method_name with
  | error e => rfl
  | ok r =>
    obtain ⟨service, method⟩ := r
    simp only
    cases service.ParseFromString method req_protocol.m_pb_data with
    | none => rfl
    | some req_msg =>
      simp only [Option.map_some]
      split <;> rfl

/-- The texts of the error replies. -/
def errorTexts : List String :=
  ["parse service name error", "service not found", "deserlise error", "serilize error"]

theorem resolve_error_text {m_service_map : Registry μ} {name : Bytes} {e : ErrorCode × String}
    (h : resolve m_service_map name = .error e) : e.1 ≠ 0 ∧ e.2 ∈ errorTexts := by
  unfold resolve at h
  split at h
  · simp only [Except.error.injEq] at h
    rw [← h]
    exact ⟨by decide, by simp [errorTexts]⟩
  split at h
  · simp only [Except.error.injEq] at h
    rw [← h]
    exact ⟨by decide, by simp [errorTexts]⟩
  split at h
  · simp only [Except.error.injEq] at h
    rw [← h]
    exact ⟨by decide, by simp [errorTexts]⟩
  · simp at h

/-- What is the same on every path of the dispatcher: the reply is for the request, and
it has an error text of the dispatcher or the one it came with. -/
structure Answers (req_protocol rsp_protocol reply : TinyPBProtocol) : Prop where
  msg_id : reply.m_msg_id = req_protocol.m_msg_id
  method_name : reply.m_method_name = req_protocol.m_method_name
  err_info : reply.m_err_info = rsp_protocol.m_err_info ∨
    ∃ text ∈ errorTexts, reply.m_err_info = ascii text

theorem dispatch_answers (m_service_map : Registry μ)
    (req_protocol rsp_protocol : TinyPBProtocol) :
    Answers req_protocol rsp_protocol (dispatch m_service_map req_protocol rsp_protocol).1 := by
  unfold dispatch
  cases hres : resolve m_service_map req_protocol.m_method_name with
  | error e => exact ⟨rfl, rfl, Or.inr ⟨e.2, (resolve_error_text hres).2, rfl⟩⟩
  | ok r =>
    obtain ⟨service, method⟩ := r
    simp only
    cases service.ParseFromString method req_protocol.m_pb_data with
    | none => exact ⟨rfl, rfl, Or.inr ⟨_, by simp [errorTexts], rfl⟩⟩
    | some req_msg =>
      simp only
      split
      · exact ⟨rfl, rfl, Or.inr ⟨_, by simp [errorTexts], rfl⟩⟩
      · exact ⟨rfl, rfl, Or.inl rfl⟩

theorem dispatch_uncalled {m_service_map : Registry μ} {req_protocol rsp_protocol : TinyPBProtocol}
    (h : (dispatch m_service_map req_protocol rsp_protocol).2 = none) :
    (dispatch m_service_map req_protocol rsp_protocol).1.m_err_code ≠ 0 ∧
      (dispatch m_service_map req_protocol rsp_protocol).1.m_pb_data = rsp_protocol.m_pb_data := by
  unfold dispatch at h ⊢
  cases hres : resolve m_service_map req_protocol.m_method_name with
  | error e => exact ⟨(resolve_error_text hres).1, rfl⟩
  | ok r =>
    obtain ⟨service, method⟩ := r
    simp only [hres] at h ⊢
    cases hparse : service.ParseFromString method req_protocol.m_pb_data with
    | none => exact ⟨by simp [setTinyPBError, ERROR_FAILED_DESERIALIZE], rfl⟩
    | some req_msg =>
      simp only [hparse] at h
      split at h <;> simp at h

/-! ## The registry -/

theorem find_registerService (m_service_map : Registry μ) (service : Service μ) (name : Bytes) :
    find (registerService m_service_map service) name =
      if service.full_name = name then some service else find m_service_map name := by
  unfold find registerService
  rw [List.find?_cons]
  split
  · rename_i heq
    rw [if_pos (of_decide_eq_true heq), Option.map_some]
  · rename_i hne
    have hne' : service.full_name ≠ name := by simpa using hne
    rw [if_neg hne', List.find?_filter]
    congr 2
    funext p
    rcases eq_or_ne p.1 name with rfl | h
    · simp [hne'.symm]
    · simp [h]

def registry (services : List (Service μ)) : Registry μ := services.foldl registerService []

theorem find_registry {services : List (Service μ)}
    (hnames : (services.map Service.full_name).Nodup) {service : Service μ}
    (hs : service ∈ services) : find (registry services) service.full_name = some service := by
  induction services using List.reverseRecOn with
  | nil => cases hs
  | append_singleton services last ih =>
    unfold registry
    rw [List.foldl_append, List.foldl_cons, List.foldl_nil, find_registerService]
    rw [List.map_append, List.nodup_append] at hnames
    obtain ⟨hnodup, -, hdisjoint⟩ := hnames
    rcases List.mem_append.mp hs with hs | hs
    · have hne := hdisjoint _ (List.mem_map_of_mem hs) _ List.mem_cons_self
      rw [if_neg hne.symm]
      exact ih hnodup hs
    · rw [List.mem_singleton.mp hs, if_pos rfl]

/-! ## Names -/

theorem parseServiceFullName_append {service method : Bytes} (h : dot ∉ service) :
    parseServiceFullName (service ++ dot :: method) = some (service, method) := by
  have hi : (service ++ dot :: method).idxOf dot = service.length := by
    rw [List.idxOf_append_of_notMem h, List.idxOf_cons_self, Nat.add_zero]
  have hdrop : (service ++ dot :: method).drop (service.length + 1) = method := by
    rw [List.append_cons]
    exact List.drop_left' (by simp)
  unfold parseServiceFullName
  rw [if_neg (by simp), hi, if_neg (by simp), hdrop, List.take_left' rfl,
    List.take_of_length_le (by simp only [List.length_append, List.length_cons]; omega)]

theorem parseServiceFullName_short {service : Bytes} (h : dot ∈ service) (method : Bytes) :
    ∃ service' method', parseServiceFullName (service ++ dot :: method) = some (service', method') ∧
      method.length < method'.length := by
  have hi : (service ++ dot :: method).idxOf dot = service.idxOf dot :=
    List.idxOf_append_of_mem h
  have hlt : service.idxOf dot < service.length := List.idxOf_lt_length_of_mem h
  unfold parseServiceFullName
  rw [if_neg (by simp), hi, if_neg (by simp; omega)]
  refine ⟨_, _, rfl, ?_⟩
  simp only [List.length_take, List.length_drop, List.length_append, List.length_cons]
  omega

/-- The name that a client sends for a method is resolved to that method,
exactly when the full name of its service has no dot. -/
theorem resolve_methodFullName_iff (services : List (Service μ))
    (hnames : (services.map Service.full_name).Nodup) (service : Service μ)
    (hs : service ∈ services) (method : Bytes) (hm : method ∈ service.methods) :
    resolve (registry services) (service.methodFullName method) = .ok (service, method) ↔
      dot ∉ service.full_name := by
  constructor
  · intro h hdot
    obtain ⟨service', method', hparse, hlen⟩ := parseServiceFullName_short hdot method
    unfold resolve Service.methodFullName at h
    simp only [hparse] at h
    split at h
    · cases h
    · split at h
      · cases h
      · rename_i hfind
        cases h
        rw [((service.found _ _).mp hfind).1] at hlen
        exact absurd hlen (Nat.lt_irrefl _)
  · intro hdot
    have hfind : service.FindMethodByName method = some method :=
      (service.found _ _).mpr ⟨rfl, hm⟩
    simp only [resolve, Service.methodFullName, parseServiceFullName_append hdot,
      find_registry hnames hs, hfind]

theorem find?_eq_iff (methods : List Bytes) (method_name method : Bytes) :
    methods.find? (· = method_name) = some method ↔ method = method_name ∧ method ∈ methods := by
  constructor
  · intro h
    exact ⟨by simpa using List.find?_some h, List.mem_of_find?_eq_some h⟩
  · rintro ⟨rfl, hmem⟩
    have hsome : (methods.find? (· = method)).isSome := by simpa using hmem
    obtain ⟨m, hm⟩ := Option.isSome_iff_exists.mp hsome
    have heq : m = method := by simpa using List.find?_some hm
    rw [hm, heq]

def echo (full_name : String) : Service Bytes where
  full_name := ascii full_name
  methods := [ascii "makeOrder"]
  FindMethodByName method_name := [ascii "makeOrder"].find? (· = method_name)
  found := find?_eq_iff [ascii "makeOrder"]
  ParseFromString _ l := some l
  CallMethod _ l := l
  SerializePartialToString _ l := (l, true)

theorem resolve_methodFullName_order :
    resolve (registry [echo "Order"]) ((echo "Order").methodFullName (ascii "makeOrder")) =
      .ok (echo "Order", ascii "makeOrder") :=
  (resolve_methodFullName_iff [echo "Order"] (by decide) (echo "Order") List.mem_cons_self
    (ascii "makeOrder") List.mem_cons_self).mpr (by decide)

theorem resolve_packaged :
    (ascii "makeOrder") ∈ (echo "shop.Order").methods ∧
    resolve (registry [echo "shop.Order"])
      ((echo "shop.Order").methodFullName (ascii "makeOrder")) =
      .error (ERROR_SERVICE_NOT_FOUND, "service not found") :=
  ⟨List.mem_cons_self, rfl⟩

end TinyRpc.RpcDispatcher
