import TinyRpc.Lib.BigEndian
import TinyRpc.Lib.Traced
import TinyRpc.TcpBuffer

/-!
# The TinyPB coder

`tinypb_coder.cc` and `tinypb_protocol.h`. The encoder is a function to bytes.
The decoder reads a copy of the whole vector through `Traced`: each access is
logged, and an access outside the vector stops it.
-/

namespace TinyRpc

open Lib

def ascii (s : String) : Bytes := s.toList.map fun c => BitVec.ofNat 8 c.toNat

namespace Coder

/-! ## Messages -/

def PB_START : Byte := 0x02
def PB_END : Byte := 0x03

/-- `TinyPBProtocol`, with the `m_msg_id` of `AbstractProtocol`. -/
structure TinyPBProtocol where
  m_msg_id : Bytes := []
  m_pk_len : Int := 0
  m_msg_id_len : Int := 0
  m_method_name_len : Int := 0
  m_method_name : Bytes := []
  m_err_code : BitVec 32 := 0
  m_err_info_len : Int := 0
  m_err_info : Bytes := []
  m_pb_data : Bytes := []
  m_check_sum : Int := 0
  parse_success : Bool := false
  deriving DecidableEq

/-- An `int` that is assigned a `size_t`. -/
def intOfSize (n : Nat) : Int := (BitVec.ofNat 32 n).toInt

theorem intOfSize_eq {n : Nat} (h : n < 2 ^ 31) : intOfSize n = n := by
  unfold intOfSize
  rw [BitVec.toInt_eq_toNat_of_lt]
  · rw [BitVec.toNat_ofNat, Nat.mod_eq_of_lt (by omega)]
  · rw [BitVec.toNat_ofNat, Nat.mod_eq_of_lt (by omega)]; omega

/-! ## The encoder -/

/-- What `encodeTinyPB` leaves behind: the bytes it wrote from `buf` on, the
length it returns, which is also the size of the block at `buf`, and the
message with its length fields set. -/
structure Encoded where
  written : Bytes
  len : Int
  msg : TinyPBProtocol
  deriving DecidableEq

def sentId (msg : TinyPBProtocol) : Bytes :=
  if msg.m_msg_id = [] then ascii "123456789" else msg.m_msg_id

def encodeTinyPB (msg : TinyPBProtocol) : Encoded :=
  let msg := { msg with m_msg_id := sentId msg }
  let pk_len := intOfSize (2 + 24 + msg.m_msg_id.length + msg.m_method_name.length +
    msg.m_pb_data.length)
  let msg_id_len := intOfSize msg.m_msg_id.length
  let method_name_len := intOfSize msg.m_method_name.length
  let err_info_len := intOfSize msg.m_err_info.length
  { written :=
      [PB_START] ++ int32Bytes pk_len ++
      int32Bytes msg_id_len ++ msg.m_msg_id ++
      int32Bytes method_name_len ++ msg.m_method_name ++
      wordBytes msg.m_err_code ++
      int32Bytes err_info_len ++ msg.m_err_info ++
      msg.m_pb_data ++
      int32Bytes 1 ++ [PB_END]
    len := pk_len
    msg := { msg with
      m_pk_len := pk_len
      m_msg_id_len := msg_id_len
      m_method_name_len := method_name_len
      m_err_info_len := err_info_len
      parse_success := true } }

def Encoded.block (e : Encoded) : Bytes := e.written.take e.len.toNat

def Encoded.appendTo (e : Encoded) (out_buffer : TcpBuffer) : Option TcpBuffer :=
  if e.len ≠ 0 then out_buffer.writeToBuffer e.block else some out_buffer

/-- Appends the messages to the buffer, and returns them as the encoder left them. -/
def encode : List TinyPBProtocol → TcpBuffer → Option (List TinyPBProtocol × TcpBuffer)
  | [], out_buffer => some ([], out_buffer)
  | i :: message, out_buffer => do
    let e := encodeTinyPB i
    let out_buffer ← e.appendTo out_buffer
    let (message, out_buffer) ← encode message out_buffer
    return (e.msg :: message, out_buffer)

/-! ## The decoder -/

/-- One access of the decoder. A load carries the readable region of its turn. -/
inductive Access where
  | load (readIndex writeIndex k n : Int)
  /-- The value of an `int` expression, before it is stored in 32 bits. -/
  | int (v : Int)
  /-- A `memcpy` of `n` bytes to the front of an array of `size` bytes. -/
  | copy (size n : Int)
  /-- A string of `n` bytes of `tmp`, from `k` on, in a frame that ends at `end_index`. -/
  | string (k n end_index : Int)
  deriving DecidableEq

abbrev Reader (α : Type) : Type := Traced Access α

def int (v : Int) : Reader Int :=
  .event (.int v) (if -2 ^ 31 ≤ v ∧ v < 2 ^ 31 then some v else none)

/-- `n` bytes of `tmp`, the copy of the whole vector. -/
def load (b : TcpBuffer) (k n : Int) : Reader Bytes :=
  .event (.load b.m_read_index b.m_write_index k n)
    (if 0 ≤ k ∧ 0 ≤ n ∧ k + n ≤ b.m_buffer.length then
      some ((b.m_buffer.drop k.toNat).take n.toNat)
    else none)

def byteAt (b : TcpBuffer) (k : Int) : Reader Byte := do
  return (← load b k 1).headD 0

def getInt32FromNetByte (b : TcpBuffer) (k : Int) : Reader Int := do
  return bytesInt32 (← load b k 4)

/-- The `std::string` of an array of `size` zero bytes, after a copy to its
front: the bytes before the first zero byte. There must be one. -/
def cString (size : Nat) (bytes : Bytes) : Option Bytes :=
  if size < bytes.length then none
  else
    let text := bytes ++ List.replicate (size - bytes.length) 0
    if (0 : Byte) ∈ text then some (text.takeWhile (· ≠ 0)) else none

/-- `char text[size]={0}`, a `memcpy` of `n` bytes of `tmp`, and the string of `text`. -/
def copyText (b : TcpBuffer) (size : Nat) (k n : Int) : Reader Bytes := do
  let bytes ← load b k n
  .event (.copy size n) (cString size bytes)

structure Frame where
  start_index : Nat
  end_index : Int
  pk_len : Int
  deriving DecidableEq

def scanAt (b : TcpBuffer) (i : Nat) : Reader (Option Frame) := do
  let c ← byteAt b i
  if c = PB_START ∧ i + 1 < b.m_write_index then
    let pk_len ← getInt32FromNetByte b (i + 1)
    let k ← int (i + pk_len)
    let j ← int (k - 1)
    if j ≥ b.m_write_index then
      return none
    else
      let e ← byteAt b j
      return if e = PB_END then some ⟨i, j, pk_len⟩ else none
  else
    return none

/-- The `for` loop from `i` on, for `n` turns. -/
def scanFrom (b : TcpBuffer) : Nat → Nat → Reader (Option Frame)
  | _, 0 => return none
  | i, n + 1 => do
    match ← scanAt b i with
    | some f => return some f
    | none => scanFrom b (i + 1) n

def scan (b : TcpBuffer) : Reader (Option Frame) :=
  scanFrom b b.m_read_index (b.m_write_index - b.m_read_index)

/-- Reads the fields of a frame. There is no message when an index is past the end marker. -/
def parseFrame (b : TcpBuffer) (f : Frame) : Reader (Option TinyPBProtocol) := do
  let msg_id_len_index ← int (f.start_index + 1 + 4)
  if msg_id_len_index ≥ f.end_index then return none
  else
    let msg_id_len ← getInt32FromNetByte b msg_id_len_index
    let msg_id_index ← int (msg_id_len_index + 4)
    let msg_id ← copyText b 100 msg_id_index msg_id_len
    let method_name_len_index ← int (msg_id_index + msg_id_len)
    if method_name_len_index ≥ f.end_index then return none
    else
      let method_name_len ← getInt32FromNetByte b method_name_len_index
      let method_name_index ← int (method_name_len_index + 4)
      let method_name ← copyText b 512 method_name_index method_name_len
      let err_code_index ← int (method_name_index + method_name_len)
      if err_code_index ≥ f.end_index then return none
      else
        let err_code ← load b err_code_index 4
        let error_info_len_index ← int (err_code_index + 4)
        if error_info_len_index ≥ f.end_index then return none
        else
          let err_info_len ← getInt32FromNetByte b error_info_len_index
          let err_info_index ← int (error_info_len_index + 4)
          let err_info ← copyText b 512 err_info_index err_info_len
          -- The lengths are not negative here, so the last difference is the smallest.
          let pb_data_len ← int (f.pk_len - method_name_len - msg_id_len - err_info_len - 2 - 24)
          let pd_data_index ← int (err_info_index + err_info_len)
          let _ ← .event (.string pd_data_index pb_data_len f.end_index) (some ())
          let pb_data ← load b pd_data_index pb_data_len
          return some {
            m_msg_id := msg_id
            m_pk_len := f.pk_len
            m_msg_id_len := msg_id_len
            m_method_name_len := method_name_len
            m_method_name := method_name
            m_err_code := bytesWord err_code
            m_err_info_len := err_info_len
            m_err_info := err_info
            m_pb_data := pb_data
            parse_success := true }

def Frame.size (f : Frame) : Int := f.end_index - f.start_index + 1

/-- The `while` loop, for at most as many turns as the first argument says:
the messages it appends and the buffer it leaves. It has no value when it did
not return in time, or stopped. -/
def decode : Nat → TcpBuffer → Reader (List TinyPBProtocol × TcpBuffer)
  | 0, _ => .stop
  | turns + 1, buffer => do
    match ← scan buffer with
    | none => return ([], buffer)
    | some f =>
      let buffer' ← .ofOption (buffer.moveReadIndex f.size)
      let message ← parseFrame buffer f
      let (out_message, buffer'') ← decode turns buffer'
      return (message.toList ++ out_message, buffer'')

end Coder

end TinyRpc
