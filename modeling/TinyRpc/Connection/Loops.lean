import TinyRpc.Connection.Lifecycle
import TinyRpc.Connection.Read
import TinyRpc.Connection.Write
import TinyRpc.Lib.Stream

/-!
# The loops of `onRead` and `onWrite`

Both loops ask for one result after the other, and look at -1 only together
with `EAGAIN`. A socket that is dead returns -1 with another error, again and
again.
-/

namespace TinyRpc

open Lib Coder

namespace TcpConnection

variable {δ : Type}

/-! ## Reading -/

/-- `onWrite`, with callbacks that leave the connection alone. -/
def onWrite (c : TcpConnection δ) (rts : List WriteResult) : Option (TcpConnection δ) :=
  if c.m_state ≠ .Connected then some c
  else do
    let c ← c.beforeWrite
    let is_all_write ← c.writeLoop rts
    return (c.afterWrite is_all_write).clearWriteDones

theorem writeLoop_run {es : List (Writer.Event δ)} {s : Writer δ} (hrun : Writer.system.Run es s)
    (hphase : s.phase = .writing) (hsize : s.conn.m_out_buffer.readAble ≠ 0)
    {rts : List WriteResult} (hrts : ∀ rt ∈ rts, rt.count ≤ s.conn.m_out_buffer.readAble)
    {is_all_write : Bool} (h : s.conn.writeLoop rts = some is_all_write) :
    ∃ es' t, Writer.system.Run (es ++ es') t ∧ t.phase = .callbacks ∧
      t.conn = s.conn.afterWrite is_all_write := by
  induction rts generalizing es s with
  | nil =>
    unfold writeLoop at h
    rw [if_neg hsize] at h
    cases h
  | cons rt rts ih =>
    obtain ⟨hrt, hrest⟩ := List.forall_mem_cons.mp hrts
    have henabled : ¬ (s.phase ≠ .writing ∨ rt.count > s.conn.m_out_buffer.readAble) := by
      rintro (hp | hcount)
      · exact hp hphase
      · omega
    unfold writeLoop at h
    rw [if_neg hsize] at h
    cases hturn : s.conn.writeTurn rt with
    | some all =>
      simp only [hturn, Option.some.injEq] at h
      subst h
      have hnext : s.next (.wrote rt) = some (Writer.leave { s with
          accepted := s.accepted ++ s.conn.m_out_buffer.readable.take rt.count } all) := by
        unfold Writer.next
        simp only [if_neg henabled, hturn]
      exact ⟨[.wrote rt], _, hrun.step hnext, rfl, rfl⟩
    | none =>
      simp only [hturn] at h
      have hnext : s.next (.wrote rt) = some { s with
          accepted := s.accepted ++ s.conn.m_out_buffer.readable.take rt.count
          phase := .writing } := by
        unfold Writer.next Writer.loop
        simp only [if_neg henabled, hturn, if_neg hsize]
      obtain ⟨es', t, hrun', hcallbacks, hconn⟩ := ih (hrun.step hnext) rfl hsize hrest h
      refine ⟨.wrote rt :: es', t, ?_, hcallbacks, hconn⟩
      rwa [List.append_cons]

/-! ## Both handlers -/

end TcpConnection

end TinyRpc
