import Mathlib.Data.List.TakeWhile
import TinyRpc.Coder.Spec
import TinyRpc.Lib.Decimal
import TinyRpc.Lib.Split

/-!
# Addresses

`net.addr.cc`. An address is made of a text with a colon: what is in front of
the first one goes to `inet_addr`, what is behind it goes to `atoi`.
-/

namespace TinyRpc

open Lib

/-! ## The functions of the C library -/

/-- A C string ends at the first NUL. -/
def c_str (s : Bytes) : Bytes := s.takeWhile (· ≠ 0)

theorem c_str_of_not_mem {s : Bytes} (h : 0 ∉ s) : c_str s = s := by
  unfold c_str
  rw [List.takeWhile_eq_self_iff]
  intro b hb
  rw [decide_eq_true_eq]
  rintro rfl
  exact h hb

def isspace (b : Byte) : Bool := b = 32 ∨ 9 ≤ b.toNat ∧ b.toNat ≤ 13

/-- The number that the text starts with. -/
def leadingNumber (s : Bytes) : Int := Decimal.value (s.takeWhile (Decimal.IsDigit ·))

/-- A `long`: a number that is too large or too small becomes the last one. -/
def strtol (s : Bytes) : Int :=
  let n :=
    match s.dropWhile isspace with
    | 45 :: s => -leadingNumber s
    | 43 :: s => leadingNumber s
    | s => leadingNumber s
  max (-2 ^ 63) (min (2 ^ 63 - 1) n)

/-- The `int` that the `long` is cut down to. -/
def atoi (s : Bytes) : BitVec 32 := BitVec.ofInt 32 (strtol s)

/-- The two bytes in the other order. -/
def htons (x : BitVec 16) : BitVec 16 := x.rotateLeft 8

def ntohs (x : BitVec 16) : BitVec 16 := x.rotateLeft 8

def INADDR_NONE : BitVec 32 := 0xFFFFFFFF

theorem ntohs_htons (x : BitVec 16) : ntohs (htons x) = x := by
  unfold ntohs htons
  ext i hi
  simp only [BitVec.getElem_rotateLeft]
  split
  · rw [dif_neg (by omega)]
    congr 1
    omega
  · rw [dif_pos (by omega)]
    congr 1
    omega

/-! ## `IPNetAddr` -/

structure SockaddrIn where
  s_addr : BitVec 32
  sin_port : BitVec 16
  deriving DecidableEq

structure IPNetAddr where
  m_ip : Bytes := []
  m_port : BitVec 16 := 0
  /-- Nothing where the constructor does not set it. -/
  m_addr : Option SockaddrIn := none
  deriving DecidableEq

namespace IPNetAddr

def colon : Byte := 58

variable (inet_addr : Bytes → BitVec 32)

def ofString (addr : Bytes) : IPNetAddr :=
  match addr.findIdx? (· = colon) with
  | none => {}
  | some i =>
    let m_ip := addr.take i
    let m_port := (atoi (c_str (addr.drop (i + 1)))).setWidth 16
    { m_ip, m_port, m_addr := some {
      s_addr := inet_addr (c_str m_ip)
      sin_port := htons m_port } }

def toString (a : IPNetAddr) : Bytes := a.m_ip ++ colon :: Decimal.numeral a.m_port.toNat

def checkVaild (a : IPNetAddr) : Bool :=
  if a.m_ip = [] then false
  else if (a.m_port.toNat : Int) < 0 ∨ (a.m_port.toNat : Int) > 65536 then false
  else if inet_addr (c_str a.m_ip) = INADDR_NONE then false
  else true

variable {inet_addr : Bytes → BitVec 32}

/-! ### What the functions do with a number -/

/-- A port: digits, and a number that fits into 16 bits. -/
structure IsPort (port : Bytes) : Prop where
  ne_nil : port ≠ []
  digits : ∀ b ∈ port, Decimal.IsDigit b
  value : Decimal.value port ≤ 65535

theorem isPort_numeral (x : BitVec 16) : IsPort (Decimal.numeral x.toNat) := by
  refine ⟨Decimal.numeral_ne_nil _, fun b hb => Decimal.isDigit_numeral hb, ?_⟩
  rw [Decimal.value_numeral]
  have := x.isLt
  omega

theorem IsPort.c_str_eq {port : Bytes} (h : IsPort port) : c_str port = port :=
  c_str_of_not_mem fun hnul => absurd (h.digits 0 hnul).1 (by decide)

theorem IsPort.strtol_eq {port : Bytes} (h : IsPort port) : strtol port = Decimal.value port := by
  obtain ⟨b, rest, rfl⟩ := List.exists_cons_of_ne_nil h.ne_nil
  obtain ⟨hlo, hhi⟩ := h.digits b List.mem_cons_self
  have hspace : (b :: rest).dropWhile isspace = b :: rest := by
    refine List.dropWhile_cons_of_neg ?_
    simp only [isspace, decide_eq_true_eq, not_or]
    refine ⟨?_, by omega⟩
    rintro rfl
    exact absurd hlo (by decide)
  have hdigits : leadingNumber (b :: rest) = Decimal.value (b :: rest) := by
    unfold leadingNumber
    rw [List.takeWhile_eq_self_iff.mpr]
    simpa using h.digits
  have hvalue := h.value
  unfold strtol
  rw [hspace]
  simp only
  split
  · rename_i hsign
    cases hsign
    exact absurd hlo (by decide)
  · rename_i hsign
    cases hsign
    exact absurd hlo (by decide)
  · rw [hdigits]
    omega

theorem IsPort.atoi_eq {port : Bytes} (h : IsPort port) :
    ((atoi (c_str port)).setWidth 16).toNat = Decimal.value port := by
  have hvalue := h.value
  unfold atoi
  rw [h.c_str_eq, h.strtol_eq]
  simp
  omega

theorem checkVaild_iff (a : IPNetAddr) :
    a.checkVaild inet_addr ↔ a.m_ip ≠ [] ∧ inet_addr (c_str a.m_ip) ≠ INADDR_NONE := by
  have hport : ¬ ((a.m_port.toNat : Int) < 0 ∨ (a.m_port.toNat : Int) > 65536) := by
    have := a.m_port.isLt
    omega
  unfold checkVaild
  rw [if_neg hport]
  split
  · simp [*]
  · split <;> simp [*]

theorem ofString_of_not_mem {s : Bytes} (h : colon ∉ s) : ofString inet_addr s = {} := by
  unfold ofString
  rw [List.findIdx?_eq_none_iff.mpr]
  intro b hb
  rw [decide_eq_false_iff_not]
  rintro rfl
  exact h hb

theorem ofString_append {ip : Bytes} (h : colon ∉ ip) (port : Bytes) :
    ofString inet_addr (ip ++ colon :: port) = {
      m_ip := ip
      m_port := (atoi (c_str port)).setWidth 16
      m_addr := some {
        s_addr := inet_addr (c_str ip)
        sin_port := htons ((atoi (c_str port)).setWidth 16) } } := by
  have hfind : (ip ++ colon :: port).findIdx? (· = colon) = some ip.length := by
    rw [List.findIdx?_append, List.findIdx?_eq_none_iff.mpr]
    · simp [List.findIdx?_cons]
    · intro b hb
      rw [decide_eq_false_iff_not]
      rintro rfl
      exact h hb
  unfold ofString
  rw [hfind]
  simp

theorem ofString_toString {ip : Bytes} (h : colon ∉ ip) (port : Bytes) :
    ofString inet_addr (ofString inet_addr (ip ++ colon :: port)).toString =
      ofString inet_addr (ip ++ colon :: port) := by
  rw [ofString_append h]
  unfold toString
  rw [ofString_append h]
  have hport := (isPort_numeral ((atoi (c_str port)).setWidth 16)).atoi_eq
  rw [Decimal.value_numeral] at hport
  simp only [BitVec.eq_of_toNat_eq hport]

/-! ### What is accepted -/

/-- The text is an address that `inet_addr` knows, one colon and a port. -/
structure WellFormed (inet_addr : Bytes → BitVec 32) (s ip port : Bytes) : Prop where
  text : s = ip ++ colon :: port
  colon : colon ∉ ip
  nul : 0 ∉ ip
  address : inet_addr ip ≠ INADDR_NONE
  port : IsPort port

/-- The object has the port that the text says, and its own text makes the same object. -/
structure Faithful (inet_addr : Bytes → BitVec 32) (s port : Bytes) : Prop where
  m_port : (ofString inet_addr s).m_port.toNat = Decimal.value port
  m_addr : ∃ addr, (ofString inet_addr s).m_addr = some addr ∧
    (ntohs addr.sin_port).toNat = Decimal.value port
  toString : ofString inet_addr (ofString inet_addr s).toString = ofString inet_addr s

def Sound (inet_addr : Bytes → BitVec 32) (s : Bytes) : Prop :=
  (ofString inet_addr s).checkVaild inet_addr →
    ∃ ip port, WellFormed inet_addr s ip port ∧ Faithful inet_addr s port

theorem WellFormed.faithful {s ip port : Bytes} (h : WellFormed inet_addr s ip port) :
    Faithful inet_addr s port := by
  obtain ⟨rfl, hcolon, -, -, hport⟩ := h
  refine ⟨?_, ⟨_, by rw [ofString_append hcolon], ?_⟩, ofString_toString hcolon port⟩
  · rw [ofString_append hcolon]
    exact hport.atoi_eq
  · rw [ntohs_htons]
    exact hport.atoi_eq

/-- There is no colon, or what is in front of it is no address, or both parts are right. -/
def Checked (inet_addr : Bytes → BitVec 32) (s : Bytes) : Prop :=
  ∀ ip port, s = ip ++ colon :: port → colon ∉ ip →
    ip = [] ∨ inet_addr (c_str ip) = INADDR_NONE ∨ 0 ∉ ip ∧ IsPort port

/-- `checkVaild` is right about a text just when, behind an address, the text is a port. -/
theorem sound_iff (inet_addr : Bytes → BitVec 32) (s : Bytes) :
    Sound inet_addr s ↔ Checked inet_addr s := by
  unfold Sound
  rw [checkVaild_iff]
  constructor
  · rintro hsound ip port rfl hcolon
    rw [ofString_append hcolon] at hsound
    by_cases hip : ip = []
    · exact .inl hip
    by_cases hnone : inet_addr (c_str ip) = INADDR_NONE
    · exact .inr (.inl hnone)
    -- There is one way only to cut a text at its first colon.
    obtain ⟨ip', port', hwell, -⟩ := hsound ⟨hip, hnone⟩
    obtain ⟨rfl, rfl⟩ := Split.cons_append_inj hcolon hwell.colon hwell.text
    exact .inr (.inr ⟨hwell.nul, hwell.port⟩)
  · rintro hchecked ⟨hip, haddress⟩
    by_cases hmem : colon ∈ s
    · obtain ⟨ip, port, rfl, hcolon⟩ := List.eq_append_cons_of_mem hmem
      rw [ofString_append hcolon] at hip haddress
      obtain hnil | hnone | ⟨hnul, hport⟩ := hchecked ip port rfl hcolon
      · exact absurd hnil hip
      · exact absurd hnone haddress
      · rw [c_str_of_not_mem hnul] at haddress
        have hwell : WellFormed inet_addr (ip ++ colon :: port) ip port :=
          ⟨rfl, hcolon, hnul, haddress, hport⟩
        exact ⟨ip, port, hwell, hwell.faithful⟩
    · rw [ofString_of_not_mem hmem] at hip
      exact absurd rfl hip

/-- `inet_addr` on one address. -/
def oneAddress (text : Bytes) : BitVec 32 :=
  if text = ascii "1.2.3.4" then 0x04030201 else INADDR_NONE

theorem large_port_valid :
    (ofString oneAddress (ascii "1.2.3.4:70000")).checkVaild oneAddress ∧
      (ofString oneAddress (ascii "1.2.3.4:70000")).m_port = 4464 ∧
      ¬ Sound oneAddress (ascii "1.2.3.4:70000") := by
  have hvalid : (ofString oneAddress (ascii "1.2.3.4:70000")).checkVaild oneAddress := by
    decide +kernel
  refine ⟨hvalid, by decide +kernel, fun hsound => ?_⟩
  obtain ⟨ip, port, hwell, -⟩ := hsound hvalid
  obtain ⟨rfl, rfl⟩ := Split.cons_append_inj (n := ascii "1.2.3.4") (a := ascii "70000")
    (by decide) hwell.colon hwell.text
  exact absurd hwell.port.value (by decide)

end IPNetAddr

end TinyRpc
