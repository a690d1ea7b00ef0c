import Alpm.CString
import Alpm.General.Orbit
import Alpm.General.Scan

/-!
# Key IDs of signatures

`alpm_extract_keyid` and `parse_subpacket` of `signing.c`, on the memory from the signature on.
Positions and lengths are `size_t`, and the octets of a length are put together as an `int`: four
octets with a high first one are a negative number, which as a `size_t` is a large one, and a sum of
two lengths may wrap.

The body of each loop is a scan of the memory, in the sense of `General.Scan`: it returns the octets
at which it reads with its result.  The loops are the steps of a machine on top of these.  It is at
the head of the loop over the packets, at the head of the loop over the subpackets of an area, or
behind an area.  What the functions return is then a matter of a run, for which `run` takes the
number of steps; where they read is a matter of the states that are reached, however many there are,
so that it can be discussed before it is known that the functions return.

`reads_inside_iff` in the next file says when the signature is read inside its length,
`Alpm.Keyid.Ends` when the functions return, and `Alpm.Keyid.Packets` what they find in a signature
that is well formed.
-/

namespace Alpm.Keyid

open StateTransition

/-- The bytes from `sig` on, of which `len` are the signature. -/
structure Signature where
  byte : ℕ → UInt8
  len : ℕ
  len_lt : len < 2 ^ 64

/-- A value of `size_t`. -/
def sizeT (n : ℕ) : ℕ := n % 2 ^ 64

/-- The difference of two values of `size_t`. -/
def sizeSub (m n : ℕ) : ℕ := sizeT (m + 2 ^ 64 - n)

/-- An `int` as a `size_t`. -/
def intSize (n : ℕ) : ℕ := if n < 2 ^ 31 then n else n + (2 ^ 64 - 2 ^ 32)

section

variable (sig : Signature)

/-- `length_check`. -/
def lengthCheck (position a : ℕ) : Scan Unit :=
  if a = 0 ∨ sizeSub sig.len position ≤ a then Scan.fail else pure ()

def read (pos : ℕ) : Scan ℕ := Scan.read sig.byte (sizeT pos)

/-- `(sig[pos] << 8) | sig[pos + 1]`; the octets do not overlap. -/
def twoOctets (pos : ℕ) : Scan ℕ := do
  let high ← read sig pos
  let low ← read sig (pos + 1)
  return high * 2 ^ 8 + low

/-- The four octets from `pos` on, with the first one shifted to the sign of an `int`. -/
def fourOctets (pos : ℕ) : Scan ℕ := do
  let high ← twoOctets sig pos
  let low ← twoOctets sig (pos + 2)
  return intSize (high * 2 ^ 16 + low)

/-- `((sig[pos] - 192) << 8) + sig[pos + 1] + 192`, for the first octet. -/
def twoOctetLength (first pos : ℕ) : Scan ℕ := do
  let second ← read sig (pos + 1)
  return (first - 192) * 2 ^ 8 + second + 192

/-! ## `parse_subpacket` -/

/-- The length of a subpacket, and the position behind it.  The first octet tells which of the three
forms it is, and the check is made for the octets of the form. -/
def subpacketLength (spos : ℕ) : Scan (ℕ × ℕ) := do
  let first ← read sig spos
  if first < 192 then
    return (first, sizeT (spos + 1))
  else if first < 255 then
    lengthCheck sig spos 2
    let slen ← twoOctetLength sig first spos
    return (slen, sizeT (spos + 2))
  else
    lengthCheck sig spos 5
    let slen ← fourOctets sig (spos + 1)
    return (slen, sizeT (spos + 5))

/-- `%02X`. -/
def hexOctet (octet : ℕ) : CString :=
  [(Nat.digitChar (octet / 16)).toUpper, (Nat.digitChar (octet % 16)).toUpper]

/-- The loop that prints the octets of a key ID. -/
def printKey (pos : ℕ) : ℕ → Scan CString
  | 0 => return []
  | n + 1 => do
    let octet ← read sig pos
    let key ← printKey (pos + 1) n
    return hexOctet octet ++ key

/-- What the body of the loop over subpackets comes to: a key ID, or the next position. -/
inductive Subpacket where
  | issuer (key : CString)
  | other (spos : ℕ)

def subpacket (spos : ℕ) : Scan Subpacket := do
  let (slen, spos) ← subpacketLength sig spos
  let type ← read sig spos
  if type = 16 then
    -- issuer key ID
    lengthCheck sig spos 8
    let key ← printKey sig (spos + 1) 8
    return .issuer key
  else
    lengthCheck sig spos slen
    return .other (sizeT (spos + slen))

/-! ## `alpm_extract_keyid` -/

/-- The length of a packet in the new format, and the position of its body: one, two or five octets
by the first one.  Partial lengths are not supported. -/
def newLength (pos : ℕ) : Scan (ℕ × ℕ) := do
  let first ← read sig pos
  if first < 192 then
    lengthCheck sig pos 1
    return (first, sizeT (pos + 1))
  else if first < 224 then
    lengthCheck sig pos 2
    let blen ← twoOctetLength sig first pos
    return (blen, sizeT (pos + 2))
  else if first = 255 then
    lengthCheck sig pos 5
    let blen ← fourOctets sig (pos + 1)
    return (blen, sizeT (pos + 5))
  else
    -- partial body length not supported
    Scan.fail

/-- The length of a packet in the old format, and the position of its body: one, two or four octets,
as the tag says.  A packet without a length is not supported. -/
def oldLength (lengthType pos : ℕ) : Scan (ℕ × ℕ) :=
  if lengthType = 0 then do
    lengthCheck sig pos 2
    let blen ← read sig (pos + 1)
    return (blen, sizeT (pos + 2))
  else if lengthType = 1 then do
    lengthCheck sig pos 3
    let blen ← twoOctets sig (pos + 1)
    return (blen, sizeT (pos + 3))
  else if lengthType = 2 then do
    lengthCheck sig pos 5
    let blen ← fourOctets sig (pos + 1)
    return (blen, sizeT (pos + 5))
  else
    -- partial body length not supported
    Scan.fail

/-- The length of a packet, and the position of its body. -/
def packetLength (pos : ℕ) : Scan (ℕ × ℕ) := do
  let tag ← read sig pos
  if tag / 2 ^ 7 = 0 then Scan.fail
  else if tag / 2 ^ 6 % 2 = 1 then
    lengthCheck sig pos 1
    newLength sig (sizeT (pos + 1))
  else oldLength sig (tag % 2 ^ 2) pos

/-- The two areas of subpackets. -/
inductive Area where
  | hashed
  | unhashed
  deriving DecidableEq, Repr

/-- The variables while an area is parsed, and where the packet starts. -/
structure Frame where
  area : Area
  start : ℕ
  pos : ℕ
  /-- `plen` of `parse_subpacket`: `hlen` or `ulen`. -/
  plen : ℕ
  blen : ℕ
  hlen : ℕ
  deriving DecidableEq, Repr

/-- The body of the loop up to the hashed area.  The version is at a position that was checked; the
type is read behind it without a check, and so is the first octet of the length. -/
def packetHead (start : ℕ) : Scan Frame := do
  let (blen, pos) ← packetLength sig start
  let version ← read sig pos
  -- only support version 4 signature packet format
  if version ≠ 4 then Scan.fail
  else
    let type ← read sig (pos + 1)
    -- not a signature of a binary document
    if type ≠ 0 then Scan.fail
    else
      let pos := sizeT (pos + 4)
      lengthCheck sig pos 2
      let hlen ← twoOctets sig pos
      lengthCheck sig pos (hlen + 2)
      return { area := .hashed, start, pos := sizeT (pos + 2), plen := hlen, blen, hlen }

/-- The body of the loop between the areas. -/
def unhashedHead (frame : Frame) : Scan Frame := do
  let pos := sizeT (frame.pos + frame.plen)
  let ulen ← twoOctets sig pos
  lengthCheck sig pos (ulen + 2)
  return { frame with area := .unhashed, pos := sizeT (pos + 2), plen := ulen }

/-- The next packet, from the end of the unhashed area. -/
def Frame.packetEnd (frame : Frame) : ℕ :=
  sizeT (frame.pos + sizeSub (sizeSub frame.blen frame.hlen) 8)

/-- Where the functions are: at the head of a loop, or behind `parse_subpacket`. -/
inductive Ctl where
  | packet (pos : ℕ)
  | subpacket (frame : Frame) (spos : ℕ)
  | areaEnd (frame : Frame)
  deriving DecidableEq, Repr

/-- What comes next, if the functions do not return, and the keys that are found.  An issuer ends
its area, and the packet goes on with the next one. -/
def body : Ctl → Scan (Option Ctl × List CString)
  | .packet pos =>
    if pos < sig.len then do
      let frame ← packetHead sig pos
      return (some (.subpacket frame frame.pos), [])
    else return (none, [])
  | .subpacket frame spos =>
    if spos < sizeT (frame.pos + frame.plen) then do
      match ← subpacket sig spos with
      | .issuer key => return (some (.areaEnd frame), [key])
      | .other spos => return (some (.subpacket frame spos), [])
    else return (some (.areaEnd frame), [])
  | .areaEnd frame =>
    match frame.area with
    | .hashed => do
      let frame ← unhashedHead sig frame
      return (some (.subpacket frame frame.pos), [])
    | .unhashed => return (some (.packet frame.packetEnd), [])

/-- The step of the machine. -/
def next (c : Ctl) : Option Ctl := (body sig c).result.bind Prod.fst

/-- The machine for a number of steps: the return value and `*keys`. -/
def run : ℕ → Ctl → List CString → Option (Int × List CString)
  | 0, _, _ => none
  | fuel + 1, c, keys =>
    match (body sig c).result with
    | none => some (-1, keys)
    | some (none, found) => some (0, keys ++ found)
    | some (some c, found) => run fuel c (keys ++ found)

/-- `alpm_extract_keyid`, for a number of steps. -/
def extractKeyid (fuel : ℕ) (keys : List CString) : Option (Int × List CString) :=
  run sig fuel (.packet 0) keys

/-- An index at which the functions read. -/
def Reads (i : ℕ) : Prop :=
  ∃ c, Reaches (next sig) (.packet 0) c ∧ i ∈ (body sig c).reads

end

end Alpm.Keyid
