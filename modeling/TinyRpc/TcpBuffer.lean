import Mathlib.Data.List.Basic
import Mathlib.Tactic.Common

/-!
# The byte buffer of a connection

`TcpBuffer` of `tcp_buffer.cc`: a vector of bytes and two indices. The bytes
between the indices are the readable region. A function returns `none` where
the C++ has no defined result: a `memcpy` that leaves a vector, or a vector of
negative size.
-/

namespace TinyRpc

abbrev Byte := BitVec 8

/-- A `std::string`: bytes, not characters. -/
abbrev Bytes := List Byte

structure TcpBuffer where
  m_read_index : Nat := 0
  m_write_index : Nat := 0
  m_buffer : Bytes
  deriving DecidableEq

namespace TcpBuffer

/-! ## The functions of `tcp_buffer.cc` -/

def new (size : Nat) : TcpBuffer := { m_buffer := List.replicate size 0 }

def readAble (b : TcpBuffer) : Int := b.m_write_index - b.m_read_index

def writeAble (b : TcpBuffer) : Int := b.m_buffer.length - b.m_write_index

/-- A fresh vector of `size` zero bytes, after `memcpy` of `count` bytes of
`src` from `start` on to its front. -/
def copied (src : Bytes) (start : Nat) (count : Int) (size : Nat) : Option Bytes :=
  if 0 ≤ count ∧ start + count ≤ src.length ∧ count ≤ size then
    some ((src.drop start).take count.toNat ++ List.replicate (size - count.toNat) 0)
  else none

def stored (dst : Bytes) (start : Nat) (src : Bytes) : Option Bytes :=
  if start + src.length ≤ dst.length then
    some (dst.take start ++ src ++ dst.drop (start + src.length))
  else none

/-- Gives the bytes already read back, once a third of the vector is read. -/
def adjustBuffer (b : TcpBuffer) : Option TcpBuffer :=
  if b.m_read_index < b.m_buffer.length / 3 then some b
  else do
    let count := b.readAble
    let buffer ← copied b.m_buffer b.m_read_index count b.m_buffer.length
    return { m_read_index := 0, m_write_index := count.toNat, m_buffer := buffer }

def resizeBuffer (b : TcpBuffer) (new_size : Int) : Option TcpBuffer :=
  -- `std::vector<char>tmp(new_size)` throws on a negative size.
  if new_size < 0 then none
  else do
    let count := min new_size b.readAble
    let tmp ← copied b.m_buffer b.m_read_index count new_size.toNat
    return { m_read_index := 0, m_write_index := count.toNat, m_buffer := tmp }

/-- The first half of `writeToBuffer`: the vector grows when `size` bytes do not fit. -/
def makeRoom (b : TcpBuffer) (size : Nat) : Option TcpBuffer :=
  -- `(int)(1.5*(m_write_index+size))`
  if size > b.writeAble then b.resizeBuffer (3 * (b.m_write_index + size) / 2) else some b

def writeToBuffer (b : TcpBuffer) (buf : Bytes) : Option TcpBuffer := do
  let b ← b.makeRoom buf.length
  let buffer ← stored b.m_buffer b.m_write_index buf
  return { b with m_buffer := buffer, m_write_index := b.m_write_index + buf.length }

def readFromBuffer (b : TcpBuffer) (re : Bytes) (size : Int) : Option (Bytes × TcpBuffer) :=
  if b.readAble = 0 then some (re, b)
  else do
    let read_size := if b.readAble > size then size else b.readAble
    if read_size < 0 then none
    let tmp ← copied b.m_buffer b.m_read_index read_size read_size.toNat
    let b ← { b with m_read_index := b.m_read_index + read_size.toNat : TcpBuffer }.adjustBuffer
    return (tmp, b)

def moveReadIndex (b : TcpBuffer) (size : Int) : Option TcpBuffer :=
  let j := b.m_read_index + size
  -- `j` is a `size_t`: a negative sum is larger than every vector.
  if j < 0 ∨ j ≥ b.m_buffer.length then some b
  else { b with m_read_index := j.toNat : TcpBuffer }.adjustBuffer

def moveWriteIndex (b : TcpBuffer) (size : Int) : Option TcpBuffer :=
  let j := b.m_write_index + size
  if j < 0 ∨ j ≥ b.m_buffer.length then some b
  else { b with m_write_index := j.toNat : TcpBuffer }.adjustBuffer

/-! ## The readable region -/

def readable (b : TcpBuffer) : Bytes := (b.m_buffer.take b.m_write_index).drop b.m_read_index

structure Valid (b : TcpBuffer) : Prop where
  read_le : b.m_read_index ≤ b.m_write_index
  write_le : b.m_write_index ≤ b.m_buffer.length

instance (b : TcpBuffer) : Decidable b.Valid :=
  decidable_of_iff (b.m_read_index ≤ b.m_write_index ∧ b.m_write_index ≤ b.m_buffer.length)
    ⟨fun ⟨h1, h2⟩ => ⟨h1, h2⟩, fun ⟨h1, h2⟩ => ⟨h1, h2⟩⟩

theorem new_valid (size : Nat) : (new size).Valid := ⟨Nat.le_refl _, Nat.zero_le _⟩

@[simp] theorem new_readable (size : Nat) : (new size).readable = [] := by
  simp [new, readable]

@[simp] theorem readable_length {b : TcpBuffer} (hv : b.Valid) :
    b.readable.length = b.m_write_index - b.m_read_index := by
  have := hv.write_le
  unfold readable
  simp only [List.length_take, List.length_drop]
  omega

theorem readAble_eq {b : TcpBuffer} (hv : b.Valid) : b.readAble = b.readable.length := by
  have := hv.read_le
  rw [readable_length hv]
  unfold readAble
  omega

theorem drop_read_index {b : TcpBuffer} (hv : b.Valid) :
    b.m_buffer.drop b.m_read_index = b.readable ++ b.m_buffer.drop b.m_write_index := by
  have hr := hv.read_le
  have hw := hv.write_le
  conv_lhs => rw [← List.take_append_drop b.m_write_index b.m_buffer]
  rw [List.drop_append_of_le_length (by simp only [List.length_take]; omega)]
  rfl

theorem readable_advance {b : TcpBuffer} (n : Nat) :
    ({ b with m_read_index := b.m_read_index + n : TcpBuffer }).readable = b.readable.drop n := by
  unfold readable
  simp only [List.drop_drop]

/-! ## Compaction and growth -/

/-- `b'` holds the readable bytes `l` in a vector of `size` bytes. -/
structure Holds (l : Bytes) (size : Nat) (b' : TcpBuffer) : Prop where
  valid : b'.Valid
  readable_eq : b'.readable = l
  length_eq : b'.m_buffer.length = size

theorem copied_readable {b : TcpBuffer} (hv : b.Valid) {size : Nat}
    (hsize : b.readable.length ≤ size) :
    copied b.m_buffer b.m_read_index b.readable.length size =
      some (b.readable ++ List.replicate (size - b.readable.length) 0) := by
  have hr := hv.read_le
  have hw := hv.write_le
  have hlen := readable_length hv
  unfold copied
  rw [if_pos (by omega), Int.toNat_natCast, drop_read_index hv, List.take_left' rfl]

theorem front_holds {l : Bytes} {size : Nat} (h : l.length ≤ size) :
    Holds l size
      { m_read_index := 0
        m_write_index := l.length
        m_buffer := l ++ List.replicate (size - l.length) 0 } := by
  refine ⟨⟨Nat.zero_le _, ?_⟩, ?_, ?_⟩
  · simp
  · simp [readable]
  · simp only [List.length_append, List.length_replicate]; omega

theorem adjustBuffer_spec {b : TcpBuffer} (hv : b.Valid) :
    ∃ b', b.adjustBuffer = some b' ∧ Holds b.readable b.m_buffer.length b' ∧
      b'.m_write_index ≤ b.m_write_index := by
  have hw := hv.write_le
  have hlen := readable_length hv
  unfold adjustBuffer
  split
  · exact ⟨b, rfl, ⟨hv, rfl, rfl⟩, Nat.le_refl _⟩
  · have hsize : b.readable.length ≤ b.m_buffer.length := by omega
    simp only [readAble_eq hv, copied_readable hv hsize, Int.toNat_natCast, Option.pure_def,
      Option.bind_eq_bind, Option.bind_some]
    exact ⟨_, rfl, front_holds hsize, by simp only; omega⟩

theorem resizeBuffer_spec {b : TcpBuffer} (hv : b.Valid) {size : Nat}
    (hsize : b.readable.length ≤ size) :
    ∃ b', b.resizeBuffer size = some b' ∧ Holds b.readable size b' ∧
      b'.m_write_index = b.readable.length := by
  have hmin : min (size : Int) b.readAble = b.readable.length := by
    rw [readAble_eq hv]; omega
  unfold resizeBuffer
  rw [if_neg (by omega)]
  simp only [hmin, Int.toNat_natCast, copied_readable hv hsize, Option.pure_def,
    Option.bind_eq_bind, Option.bind_some]
  exact ⟨_, rfl, front_holds hsize, rfl⟩

/-! ## Writing at the write index -/

theorem readable_stored {b : TcpBuffer} (hv : b.Valid) {buf : Bytes}
    (hroom : b.m_write_index + buf.length ≤ b.m_buffer.length) :
    ∃ buffer, stored b.m_buffer b.m_write_index buf = some buffer ∧
      Holds (b.readable ++ buf) b.m_buffer.length
        { b with m_buffer := buffer, m_write_index := b.m_write_index + buf.length } := by
  have hr := hv.read_le
  refine ⟨_, by rw [stored, if_pos hroom], ⟨⟨by simp only; omega, ?_⟩, ?_, ?_⟩⟩
  · simp only [List.length_append, List.length_take, List.length_drop]; omega
  · have htake : (b.m_buffer.take b.m_write_index).length = b.m_write_index := by
      simp only [List.length_take]; omega
    simp only [readable]
    rw [List.take_left' (by simp only [List.length_append, htake])]
    rw [List.drop_append_of_le_length (by omega)]
  · simp only [List.length_append, List.length_take, List.length_drop]; omega

theorem makeRoom_spec {b : TcpBuffer} (hv : b.Valid) (size : Nat) :
    ∃ b', b.makeRoom size = some b' ∧ b'.Valid ∧ b'.readable = b.readable ∧
      b'.m_write_index + size ≤ b'.m_buffer.length := by
  have hw := hv.write_le
  have hlen := readable_length hv
  unfold makeRoom
  split
  · obtain ⟨b', hb', h, hw'⟩ := resizeBuffer_spec hv
      (by omega : b.readable.length ≤ 3 * (b.m_write_index + size) / 2)
    refine ⟨b', ?_, h.valid, h.readable_eq, ?_⟩
    · rw [← hb']; norm_cast
    · rw [h.length_eq, hw']; omega
  · refine ⟨b, rfl, hv, rfl, ?_⟩
    simp only [writeAble] at *
    omega

theorem writeToBuffer_spec {b : TcpBuffer} (hv : b.Valid) (buf : Bytes) :
    ∃ b', b.writeToBuffer buf = some b' ∧ b'.Valid ∧ b'.readable = b.readable ++ buf := by
  obtain ⟨b1, hb1, h1, hread, hroom⟩ := makeRoom_spec hv buf.length
  obtain ⟨buffer, hstored, h2⟩ := readable_stored h1 hroom
  refine ⟨_, ?_, h2.valid, by rw [h2.readable_eq, hread]⟩
  unfold writeToBuffer
  simp only [hb1, hstored, Option.pure_def, Option.bind_eq_bind, Option.bind_some]

/-! ## Moving the indices -/

theorem moveReadIndex_spec {b : TcpBuffer} (hv : b.Valid) {n : Nat} (hn : n ≤ b.readable.length)
    (hin : b.m_read_index + n < b.m_buffer.length) :
    ∃ b', b.moveReadIndex n = some b' ∧ Holds (b.readable.drop n) b.m_buffer.length b' ∧
      b'.m_write_index ≤ b.m_write_index := by
  have hlen := readable_length hv
  have hr := hv.read_le
  have hv' : ({ b with m_read_index := b.m_read_index + n : TcpBuffer }).Valid :=
    ⟨by simp only; omega, hv.write_le⟩
  obtain ⟨b', hb', h, hw'⟩ := adjustBuffer_spec hv'
  refine ⟨b', ?_, ⟨h.valid, ?_, h.length_eq⟩, hw'⟩
  · unfold moveReadIndex
    rw [if_neg (by omega), ← hb']
    congr 1
  · rw [h.readable_eq, readable_advance]

theorem moveReadIndex_rejected {b : TcpBuffer} {n : Int}
    (h : b.m_read_index + n < 0 ∨ b.m_buffer.length ≤ b.m_read_index + n) :
    b.moveReadIndex n = some b := by
  unfold moveReadIndex
  rw [if_pos h]

theorem moveWriteIndex_rejected {b : TcpBuffer} {n : Nat}
    (h : b.m_buffer.length ≤ b.m_write_index + n) : b.moveWriteIndex n = some b := by
  unfold moveWriteIndex
  rw [if_pos (Or.inr (by omega))]

theorem moveReadIndex_moved {b : TcpBuffer} (hv : b.Valid) {n : Int}
    (hlo : 0 ≤ b.m_read_index + n) (hin : b.m_read_index + n < b.m_buffer.length)
    (hn : n ≤ b.readAble) :
    ∃ b', b.moveReadIndex n = some b' ∧ b'.Valid ∧ b'.readAble = b.readAble - n ∧
      b'.m_write_index ≤ b.m_write_index := by
  obtain ⟨j, hj⟩ := Int.eq_ofNat_of_zero_le hlo
  have hw := hv.read_le
  unfold readAble at hn
  have hv' : ({ b with m_read_index := j : TcpBuffer }).Valid :=
    ⟨by simp only; omega, hv.write_le⟩
  obtain ⟨b', hb', h, hw'⟩ := adjustBuffer_spec hv'
  refine ⟨b', ?_, h.valid, ?_, hw'⟩
  · unfold moveReadIndex
    rw [if_neg (by omega), hj, ← hb']
    rfl
  · rw [readAble_eq h.valid, h.readable_eq, ← readAble_eq hv']
    simp only [readAble]
    omega

end TcpBuffer

end TinyRpc
