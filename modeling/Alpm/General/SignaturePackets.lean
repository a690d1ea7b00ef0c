import Mathlib.Algebra.Order.Ring.Nat
import Mathlib.Data.List.Basic

/-!
# Packets of signatures

The octets of a version 4 signature packet: a header with the length of the body, in the old or the
new format, and a body with two areas of subpackets.  A packet carries that its lengths fit their
forms, so a value of `Packet` is one that can be written, and its octets are a function of it.

A length can be written in several forms, and the writer of a packet is free to use a longer one
than it needs.  `PacketForm` and `SubpacketForm` name them: the old format with one, two or four
octets of length, the new one with one, two or five octets, and the same three for a subpacket.
`twoOctetForm` is the only one that is not plain base 256.

What a reader should find in a packet is `Packet.issuers`, the key ID that the first issuer
subpacket of each area holds, where an area may have none.  The definition goes over the subpackets
of the packet and not over its octets; a scan of the octets is right if it finds the same.
-/

namespace Alpm.Openpgp

/-- The last octets of a number, the high one first. -/
def octets : ℕ → ℕ → List UInt8
  | 0, _ => []
  | k + 1, n => UInt8.ofNat (n / 256 ^ k) :: octets k n

@[simp] theorem length_octets (k n : ℕ) : (octets k n).length = k := by
  induction k with
  | zero => rfl
  | succ k ih => rw [octets, List.length_cons, ih]

/-- The two octets of a length from 192 on, the first of them from 192 on. -/
def twoOctetForm (n : ℕ) : List UInt8 :=
  [UInt8.ofNat ((n - 192) / 256 + 192), UInt8.ofNat ((n - 192) % 256)]

/-! ## Subpackets -/

/-- How the length of a subpacket is written. -/
inductive SubpacketForm where
  | one
  | two
  | five
  deriving DecidableEq, Repr

def SubpacketForm.Fits : SubpacketForm → ℕ → Prop
  | .one, n => n < 192
  | .two, n => 192 ≤ n ∧ n < 16320
  | .five, n => n < 2 ^ 31

def SubpacketForm.bytes : SubpacketForm → ℕ → List UInt8
  | .one, n => octets 1 n
  | .two, n => twoOctetForm n
  | .five, n => 255 :: octets 4 n

instance (form : SubpacketForm) (n : ℕ) : Decidable (form.Fits n) := by
  cases form <;> unfold SubpacketForm.Fits <;> infer_instance

/-- The type of a subpacket with the ID of the key that issued the signature. -/
def issuerType : UInt8 := 16

/-- A subpacket: its length counts the octet of its type. -/
structure Subpacket where
  form : SubpacketForm
  type : UInt8
  data : List UInt8
  fits : form.Fits (data.length + 1)
  length_issuer : type = issuerType → data.length = 8

def Subpacket.bytes (s : Subpacket) : List UInt8 :=
  s.form.bytes (s.data.length + 1) ++ s.type :: s.data

/-- The key ID of an issuer subpacket. -/
def Subpacket.issuer (s : Subpacket) : Option (List UInt8) :=
  if s.type = issuerType then some s.data else none

def areaBytes (area : List Subpacket) : List UInt8 := area.flatMap Subpacket.bytes

@[simp] theorem areaBytes_cons (s : Subpacket) (area : List Subpacket) :
    areaBytes (s :: area) = s.bytes ++ areaBytes area := rfl

/-! ## Packets -/

/-- The body of a signature of a binary document. -/
structure Body where
  publicKeyAlgorithm : UInt8
  hashAlgorithm : UInt8
  hashed : List Subpacket
  unhashed : List Subpacket
  hashPrefix : UInt8 × UInt8
  data : List UInt8
  hashed_lt : (areaBytes hashed).length < 2 ^ 16
  unhashed_lt : (areaBytes unhashed).length < 2 ^ 16
  data_ne_nil : data ≠ []

/-- An area behind its length. -/
def withLength (area : List Subpacket) : List UInt8 :=
  octets 2 (areaBytes area).length ++ areaBytes area

@[simp] theorem length_withLength (area : List Subpacket) :
    (withLength area).length = (areaBytes area).length + 2 := by
  rw [withLength, List.length_append, length_octets, Nat.add_comm]

theorem withLength_ne_nil (area : List Subpacket) : withLength area ≠ [] := List.cons_ne_nil _ _

/-- What follows the areas. -/
def Body.trailer (body : Body) : List UInt8 :=
  body.hashPrefix.1 :: body.hashPrefix.2 :: body.data

/-- Version 4, and the type of a signature of a binary document. -/
def Body.bytes (body : Body) : List UInt8 :=
  4 :: 0 :: body.publicKeyAlgorithm :: body.hashAlgorithm ::
    (withLength body.hashed ++ (withLength body.unhashed ++ body.trailer))

theorem Body.length_bytes (body : Body) :
    body.bytes.length = (areaBytes body.hashed).length + (areaBytes body.unhashed).length +
      body.data.length + 10 := by
  simp only [Body.bytes, Body.trailer, List.length_cons, List.length_append, length_withLength]
  omega

theorem Body.trailer_ne_nil (body : Body) : body.trailer ≠ [] := List.cons_ne_nil _ _

/-- How the length of a packet is written. -/
inductive PacketForm where
  | oldOne
  | oldTwo
  | oldFour
  | newOne
  | newTwo
  | newFive
  deriving DecidableEq, Repr

def PacketForm.Fits : PacketForm → ℕ → Prop
  | .oldOne, n => n < 2 ^ 8
  | .oldTwo, n => n < 2 ^ 16
  | .oldFour, n => n < 2 ^ 31
  | .newOne, n => n < 192
  | .newTwo, n => 192 ≤ n ∧ n < 8384
  | .newFive, n => n < 2 ^ 31

instance (form : PacketForm) (n : ℕ) : Decidable (form.Fits n) := by
  cases form <;> unfold PacketForm.Fits <;> infer_instance

/-- The tag of a signature, in both formats, and the length. -/
def PacketForm.header : PacketForm → ℕ → List UInt8
  | .oldOne, n => 0x88 :: octets 1 n
  | .oldTwo, n => 0x89 :: octets 2 n
  | .oldFour, n => 0x8A :: octets 4 n
  | .newOne, n => 0xC2 :: octets 1 n
  | .newTwo, n => 0xC2 :: twoOctetForm n
  | .newFive, n => 0xC2 :: 255 :: octets 4 n

/-- A signature packet, whose length fits its form. -/
structure Packet where
  form : PacketForm
  body : Body
  fits : form.Fits body.bytes.length

def Packet.bytes (p : Packet) : List UInt8 := p.form.header p.body.bytes.length ++ p.body.bytes

theorem Packet.bytes_ne_nil (p : Packet) : p.bytes ≠ [] :=
  List.append_ne_nil_of_right_ne_nil _ (List.cons_ne_nil _ _)

/-- The first issuer of each area. -/
def Packet.issuers (p : Packet) : List (List UInt8) :=
  (p.body.hashed.findSome? Subpacket.issuer).toList ++
    (p.body.unhashed.findSome? Subpacket.issuer).toList

/-- Packets one behind the other. -/
def signatureBytes (packets : List Packet) : List UInt8 := packets.flatMap Packet.bytes

end Alpm.Openpgp
