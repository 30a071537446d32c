import TinyRpc.Rpc.Steps

/-!
# When a call completes

The closure of a call is run by its timer, or for its reply. A reply that is
not accepted stops the timer, and nothing runs the closure any more.
-/

namespace TinyRpc

open Lib Coder

namespace RpcChannel

variable {ι κ τ μ : Type} {ParseFromString : Bytes → μ × Bool}
variable [DecidableEq κ] [DecidableEq ι] {ev : ι}

/-! ## Runs -/

theorem start_sound (ParseFromString : Bytes → μ × Bool) {s : RpcChannel ι κ τ μ}
    (hs : (system ev ParseFromString).start s) :
    Sound ev s ∧ s.replied = false ∧ s.expired = false ∧ s.runs = 0 := by
  obtain ⟨c, my_controller, method_full_name, msg_id, pb_data, cb, now, now', rt, h, rfl⟩ := hs
  obtain ⟨hruns, hreplied, hexpired⟩ := h.untouched
  unfold CallMethod
  rw [if_neg (by rw [h.is_init]; exact Bool.false_ne_true)]
  simp only
  generalize hc1 : c.updateController my_controller _ = c1
  have hsame : SameCall c c1 := by
    rw [← hc1]
    exact updateController_sameCall c my_controller fun _ => rfl
  have hclient : c1.m_client = {} := by rw [← hc1]; exact h.client
  have hruns1 : c1.runs = 0 := by rw [← hc1]; exact hruns
  have hreplied1 := hsame.replied.trans hreplied
  have hexpired1 := hsame.expired.trans hexpired
  have hsound : Sound ev c1 :=
    h.sound.sameCall hsame (by rw [hclient, ← h.client]; exact h.sound.client)
      (by rw [hclient]; exact Nat.zero_le _)
  cases pb_data with
  | none =>
    have herr := setError_sameCall c1 my_controller ERROR_FAILED_SERIALIZE
      (ascii "failed to serialize")
    exact ⟨hsound.sameCall herr hsound.client (Nat.le_refl _), hreplied1, hexpired1, hruns1⟩
  | some m_pb_data =>
    simp only
    obtain ⟨hin, hwait⟩ := TcpClient.connect_new rt
    rw [← hclient] at hin hwait
    generalize c1.m_client.connect rt = connected at hin hwait ⊢
    obtain ⟨m_client, done⟩ := connected
    replace hwait : m_client.waiting + done.toNat = 1 := hwait
    have hnew : c1.timer.m_pending_events.countValue ev = 0 := by
      rw [hsame.timer]
      exact Multimap.countValue_eq_zero h.fresh
    generalize hevents : Function.update c1.events ev _ = events
    have hrep : (events ev).m_is_repeated = false := by
      rw [← hevents, Function.update_self]
      rfl
    generalize ({ m_msg_id := _, m_method_name := _, m_pb_data := _ } : TinyPBProtocol) =
      req_protocol
    have hcall := hsound.call hreplied1 hexpired1 hnew my_controller req_protocol hrep now' hin
      (show m_client.waiting ≤ 1 by omega)
    -- `connect` may be done at once, and then its callback has run already.
    split
    · rename_i hdone
      replace hdone : done = true := hdone
      obtain ⟨hs, hruns2, -⟩ := connectDone_sameCall
        { c1 with
          my_controller, req_protocol, events, m_client
          timer := c1.timer.addTimerEvent events ev now' }
      refine ⟨hcall.connectDone ?_, hs.replied.trans hreplied1, hs.expired.trans hexpired1,
        hruns2.trans hruns1⟩
      rw [hdone, Bool.toNat_true] at hwait
      rw [hreplied1, Bool.toNat_false]
      exact Nat.le_of_eq hwait
    · exact ⟨hcall, hreplied1, hexpired1, hruns1⟩

theorem run_sound {es : List (Event ι)} {c : RpcChannel ι κ τ μ}
    (hrun : (system ev ParseFromString).Run es c) :
    Sound ev c ∧ (c.replied = false → c.runs = c.expired.toNat) := by
  refine hrun.invariant (I := fun c => Sound ev c ∧ (c.replied = false → c.runs = c.expired.toNat))
    (fun s hs => ?_) fun s e t ⟨hsound, hcount⟩ ht => ?_
  · obtain ⟨hsound, -, hexpired, hruns⟩ := start_sound ParseFromString hs
    refine ⟨hsound, fun _ => ?_⟩
    rw [hruns, hexpired]
    rfl
  · obtain ⟨hsound', heffect⟩ := next_steps hsound ht
    refine ⟨hsound', fun hopen => ?_⟩
    cases heffect with
    | nothing hreplied hexpired hruns _ =>
      rw [hruns, hexpired]
      exact hcount (hreplied ▸ hopen)
    | reply result m _ _ _ hreplied _ _ =>
      rw [hreplied] at hopen
      cases hopen
    | expire hfresh hfirst _ hexpired hruns _ =>
      rw [hruns, hexpired, hcount hfresh, hfirst]
      rfl

/-! ## Completion -/

/-- The closure is run for the replies of this step if the timer callback has
not run, and only then. -/
def Answers (ParseFromString : Bytes → μ × Bool) (c : RpcChannel ι κ τ μ) : Event ι → Prop
  | .excute result =>
    ∀ d ∈ c.calls result, Accepted ParseFromString c d.2 ↔ c.expired = false
  | _ => True

theorem late_reply {es : List (Event ι)} {c : RpcChannel ι κ τ μ}
    (hrun : (system ev ParseFromString).Run es c) (hsame : c.my_controller = c.m_controller)
    (hexpired : c.expired = true) (m : TinyPBProtocol) : ¬ Accepted ParseFromString c m := by
  obtain ⟨hsound, -⟩ := run_sound hrun
  rintro ⟨-, -, hopen⟩
  rw [← hsame, hsound.late hexpired] at hopen
  cases hopen

def idle : RpcChannel Unit Unit Unit Bytes where
  controllers _ := {}
  m_controller := ()
  my_controller := ()
  m_response := []
  m_closure := true
  m_is_init := true
  timer := {}
  events _ := TimerEvent.new 0 false () 0

theorem idle_ready : Ready () idle :=
  ⟨rfl, rfl, rfl, nofun, rfl, ⟨rfl, rfl, rfl⟩⟩

def called : RpcChannel Unit Unit Unit Bytes :=
  CallMethod () idle () (ascii "Order.makeOrder") (ascii "1") (some []) () 0 0 .success

end RpcChannel

end TinyRpc
