import Alpm.General.SignaturePackets
import Alpm.Keyid.Bounds

/-!
# The key IDs of well-formed signatures

The functions on the octets of signature packets (`General.SignaturePackets`).  Every function is
shown to read what was written, from the lengths up to the packets: the length of a packet in each
of its forms, the length of a subpacket in each of its forms, the key ID of an issuer, an area, and
a packet.

`Rest` says that from a position on the octets of the signature are those of a list, so a lemma
about one part does not depend on where it stands.  `Finds` is a run of the machine that finds keys
on the way, and it composes: an area is a run over its subpackets that ends at the first issuer, and
a packet is a run over its two areas (`finds_packet`).

`extractKeyid_signatureBytes` puts the packets together.  On the octets of signature packets, the
function returns 0, and the issuers of the packets are added in their order, the one of the hashed
area of a packet before that of the other.
-/

namespace Alpm.Keyid

open Openpgp Scan

/-- From a position on, the octets of the signature are those of a list, up to its end.  Reading
from the front of the list moves the position. -/
structure Rest (sig : Signature) (pos : ℕ) (l : List UInt8) : Prop where
  length : pos + l.length = sig.len
  byte : ∀ (i : ℕ) (h : i < l.length), sig.byte (pos + i) = l[i]

/-- A key ID as it is printed. -/
def printedKey (key : List UInt8) : CString := key.flatMap fun octet => hexOctet octet.toNat

variable {sig : Signature} {pos n : ℕ} {a b c d : UInt8} {l m : List UInt8}

theorem Rest.lt (h : Rest sig pos l) (hl : l ≠ []) : pos < sig.len := by
  have hlength := h.length
  have hpos := List.length_pos_iff.mpr hl
  omega

theorem Rest.sizeT (h : Rest sig pos l) : sizeT pos = pos :=
  sizeT_of_le (h.length ▸ Nat.le_add_right _ _)

theorem Rest.append (h : Rest sig pos (m ++ l)) : Rest sig (pos + m.length) l where
  length := by rw [Nat.add_assoc, ← List.length_append, h.length]
  byte i hi := by
    have hlt : m.length + i < (m ++ l).length := by
      rw [List.length_append]
      exact Nat.add_lt_add_left hi _
    rw [Nat.add_assoc, h.byte _ hlt, List.getElem_append_right (Nat.le_add_right _ _)]
    simp only [Nat.add_sub_cancel_left]

theorem Rest.tail (h : Rest sig pos (a :: l)) : Rest sig (pos + 1) l := Rest.append (m := [a]) h

theorem Rest.read (h : Rest sig pos (a :: l)) : (read sig pos).result = some a.toNat := by
  have hbyte : sig.byte pos = a := h.byte 0 (Nat.zero_lt_succ _)
  rw [result_read_of_lt (h.lt (List.cons_ne_nil _ _)), hbyte]

theorem Rest.lengthCheck (h : Rest sig pos l) (hn : 0 < n) (hlt : n < l.length) :
    (lengthCheck sig pos n).result = some () := by
  have hlength := h.length
  have hlen := sig.len_lt
  rw [Keyid.lengthCheck, if_neg, result_pure]
  rw [sizeSub_of_le (by omega) hlen]
  omega

/-! ## Lengths -/

theorem twoOctets_result (h : Rest sig pos (a :: b :: l)) :
    (twoOctets sig pos).result = some (a.toNat * 2 ^ 8 + b.toNat) := by
  simp only [twoOctets, result_bind, h.read, h.tail.read, Option.bind_some, result_pure]

theorem fourOctets_result (h : Rest sig pos (a :: b :: c :: d :: l)) :
    (fourOctets sig pos).result =
      some (intSize ((a.toNat * 2 ^ 8 + b.toNat) * 2 ^ 16 + (c.toNat * 2 ^ 8 + d.toNat))) := by
  have hlow : Rest sig (pos + 2) (c :: d :: l) := h.tail.tail
  simp only [fourOctets, result_bind, twoOctets_result h, twoOctets_result hlow, Option.bind_some,
    result_pure]

theorem read_octets (hn : n < 2 ^ 8) (h : Rest sig pos (octets 1 n ++ l)) :
    (read sig pos).result = some n := by
  rw [Rest.read h, UInt8.toNat_ofNat', Nat.pow_zero, Nat.div_one, Nat.mod_eq_of_lt hn]

theorem twoOctets_octets (hn : n < 2 ^ 16) (h : Rest sig pos (octets 2 n ++ l)) :
    (twoOctets sig pos).result = some n := by
  rw [twoOctets_result h, UInt8.toNat_ofNat', UInt8.toNat_ofNat']
  have hvalue : n / 256 ^ 1 % 2 ^ 8 * 2 ^ 8 + n / 256 ^ 0 % 2 ^ 8 = n := by
    rw [Nat.pow_zero, Nat.div_one]
    omega
  rw [hvalue]

theorem fourOctets_octets (hn : n < 2 ^ 31) (h : Rest sig pos (octets 4 n ++ l)) :
    (fourOctets sig pos).result = some n := by
  rw [fourOctets_result h]
  simp only [UInt8.toNat_ofNat']
  have hvalue : (n / 256 ^ 3 % 2 ^ 8 * 2 ^ 8 + n / 256 ^ 2 % 2 ^ 8) * 2 ^ 16 +
      (n / 256 ^ 1 % 2 ^ 8 * 2 ^ 8 + n / 256 ^ 0 % 2 ^ 8) = n := by
    rw [Nat.pow_zero, Nat.div_one]
    omega
  rw [hvalue, intSize, if_pos hn]

/-- The first octet of the form with two octets. -/
theorem twoOctetForm_first (hn : 192 ≤ n) (hlt : n < 16320) :
    (UInt8.ofNat ((n - 192) / 256 + 192)).toNat = (n - 192) / 256 + 192 := by
  rw [UInt8.toNat_ofNat']
  omega

theorem twoOctetLength_twoOctetForm (hn : 192 ≤ n) (h : Rest sig pos (twoOctetForm n ++ l)) :
    (twoOctetLength sig ((n - 192) / 256 + 192) pos).result = some n := by
  simp only [twoOctetLength, result_bind, Rest.read (Rest.tail h), Option.bind_some, result_pure,
    UInt8.toNat_ofNat']
  congr 1
  omega

/-! ## Subpackets -/

theorem subpacketLength_bytes {form : SubpacketForm} (hfits : form.Fits n) (hl : l ≠ [])
    (h : Rest sig pos (form.bytes n ++ l)) :
    (subpacketLength sig pos).result = some (n, pos + (form.bytes n).length) := by
  have hend : sizeT (pos + (form.bytes n).length) = pos + (form.bytes n).length := h.append.sizeT
  have hpos := List.length_pos_iff.mpr hl
  cases form with
  | one =>
    have hn : n < 192 := hfits
    have hfirst : (read sig pos).result = some n :=
      read_octets (hn.trans (by omega)) h
    rw [subpacketLength, result_bind, hfirst, Option.bind_some, if_pos hn, result_pure]
    exact congrArg (fun spos => some (n, spos)) hend
  | two =>
    obtain ⟨hn, hlt⟩ := hfits
    have hfirst := Rest.read h
    rw [twoOctetForm_first hn hlt] at hfirst
    have hcheck : (lengthCheck sig pos 2).result = some () :=
      h.lengthCheck Nat.two_pos (Nat.add_lt_add_right hpos 2)
    rw [subpacketLength, result_bind, hfirst, Option.bind_some, if_neg (by omega),
      if_pos (by omega), result_bind, hcheck, Option.bind_some, result_bind,
      twoOctetLength_twoOctetForm hn h, Option.bind_some, result_pure]
    exact congrArg (fun spos => some (n, spos)) hend
  | five =>
    have hfirst : (read sig pos).result = some 255 := Rest.read h
    have hcheck : (lengthCheck sig pos 5).result = some () :=
      h.lengthCheck (by omega) (Nat.add_lt_add_right hpos 5)
    rw [subpacketLength, result_bind, hfirst, Option.bind_some, if_neg (by omega),
      if_neg (by omega), result_bind, hcheck, Option.bind_some, result_bind,
      fourOctets_octets hfits (Rest.tail h), Option.bind_some, result_pure]
    exact congrArg (fun spos => some (n, spos)) hend

theorem printKey_result (key : List UInt8) (h : Rest sig pos (key ++ l)) :
    (printKey sig pos key.length).result = some (printedKey key) := by
  induction key generalizing pos with
  | nil => rfl
  | cons octet key ih =>
    have hread : (read sig pos).result = some octet.toNat := Rest.read h
    have hkey := ih (Rest.tail h)
    rw [List.length_cons, printKey, result_bind, hread, Option.bind_some, result_bind, hkey,
      Option.bind_some, result_pure]
    rfl

theorem toNat_eq_issuerType {type : UInt8} : type.toNat = 16 ↔ type = issuerType :=
  ⟨fun h => UInt8.toNat_inj.mp h, fun h => h ▸ rfl⟩

/-- A subpacket that was written is read: the key ID of an issuer, and the next position after
another one. -/
theorem subpacket_bytes (s : Openpgp.Subpacket) (hl : l ≠ []) (h : Rest sig pos (s.bytes ++ l)) :
    (subpacket sig pos).result =
      some (s.issuer.elim (.other (pos + s.bytes.length)) fun key => .issuer (printedKey key)) := by
  rw [Subpacket.bytes, List.append_assoc] at h
  have hlength := subpacketLength_bytes s.fits (List.cons_ne_nil _ _) h
  set spos := pos + (s.form.bytes (s.data.length + 1)).length with hspos
  have htype : Rest sig spos (s.type :: (s.data ++ l)) := h.append
  have hpos := List.length_pos_iff.mpr hl
  rw [subpacket, result_bind, hlength, Option.bind_some, result_bind, htype.read, Option.bind_some]
  by_cases hissuer : s.type = issuerType
  · have hdata : s.data.length = 8 := s.length_issuer hissuer
    have hcheck : (lengthCheck sig spos 8).result = some () := by
      refine htype.lengthCheck (by omega) ?_
      rw [List.length_cons, List.length_append, hdata]
      omega
    have hkey := printKey_result s.data htype.tail
    rw [hdata] at hkey
    rw [if_pos (toNat_eq_issuerType.mpr hissuer), result_bind, hcheck, Option.bind_some,
      result_bind, hkey, Option.bind_some, result_pure, Openpgp.Subpacket.issuer, if_pos hissuer]
    rfl
  · have hcheck : (lengthCheck sig spos (s.data.length + 1)).result = some () := by
      refine htype.lengthCheck (Nat.succ_pos _) ?_
      rw [List.length_cons, List.length_append]
      omega
    have hnext : Rest sig (spos + (s.data.length + 1)) l :=
      Rest.append (m := s.type :: s.data) htype
    have hend : spos + (s.data.length + 1) = pos + s.bytes.length := by
      rw [Subpacket.bytes, List.length_append, hspos, Nat.add_assoc, List.length_cons]
    rw [if_neg (toNat_eq_issuerType.not.mpr hissuer), result_bind, hcheck, Option.bind_some,
      result_pure, hnext.sizeT, hend, Openpgp.Subpacket.issuer, if_neg hissuer]
    rfl

/-! ## Packets -/

/-- In the old format the length is behind the tag, which says how it is written. -/
theorem packetLength_old {tag : UInt8} (hpacket : tag.toNat / 2 ^ 7 ≠ 0)
    (hold : tag.toNat / 2 ^ 6 % 2 ≠ 1) (h : Rest sig pos (tag :: l)) :
    (packetLength sig pos).result = (oldLength sig (tag.toNat % 2 ^ 2) pos).result := by
  rw [packetLength, result_bind, h.read, Option.bind_some, if_neg hpacket, if_neg hold]

theorem packetLength_new (hl : l ≠ []) (h : Rest sig pos (0xC2 :: l)) :
    (packetLength sig pos).result = (newLength sig (pos + 1)).result := by
  have htag : (read sig pos).result = some 0xC2 := h.read
  have hcheck : (lengthCheck sig pos 1).result = some () :=
    h.lengthCheck Nat.one_pos (Nat.lt_add_of_pos_left (List.length_pos_iff.mpr hl))
  rw [packetLength, result_bind, htag, Option.bind_some, if_neg (by decide), if_pos (by decide),
    result_bind, hcheck, Option.bind_some, h.tail.sizeT]

/-- The length of a packet that was written is read, and the position of its body. -/
theorem packetLength_header {form : PacketForm} (hfits : form.Fits n) (hl : l ≠ [])
    (h : Rest sig pos (form.header n ++ l)) :
    (packetLength sig pos).result = some (n, pos + (form.header n).length) := by
  have hend : sizeT (pos + (form.header n).length) = pos + (form.header n).length := h.append.sizeT
  have hpos := List.length_pos_iff.mpr hl
  cases form with
  | oldOne =>
    have hcheck : (lengthCheck sig pos 2).result = some () :=
      h.lengthCheck Nat.two_pos (Nat.add_lt_add_right hpos 2)
    rw [packetLength_old (by decide) (by decide) h, oldLength, if_pos (by decide), result_bind,
      hcheck, Option.bind_some, result_bind, read_octets hfits (Rest.tail h), Option.bind_some,
      result_pure]
    exact congrArg (fun start => some (n, start)) hend
  | oldTwo =>
    have hcheck : (lengthCheck sig pos 3).result = some () :=
      h.lengthCheck (Nat.succ_pos _) (Nat.add_lt_add_right hpos 3)
    rw [packetLength_old (by decide) (by decide) h, oldLength, if_neg (by decide),
      if_pos (by decide), result_bind, hcheck, Option.bind_some, result_bind,
      twoOctets_octets hfits (Rest.tail h), Option.bind_some, result_pure]
    exact congrArg (fun start => some (n, start)) hend
  | oldFour =>
    have hcheck : (lengthCheck sig pos 5).result = some () :=
      h.lengthCheck (Nat.succ_pos _) (Nat.add_lt_add_right hpos 5)
    rw [packetLength_old (by decide) (by decide) h, oldLength, if_neg (by decide),
      if_neg (by decide), if_pos (by decide), result_bind, hcheck, Option.bind_some, result_bind,
      fourOctets_octets hfits (Rest.tail h), Option.bind_some, result_pure]
    exact congrArg (fun start => some (n, start)) hend
  | newOne =>
    have hn : n < 192 := hfits
    have hlength : Rest sig (pos + 1) (octets 1 n ++ l) := Rest.tail h
    have hcheck : (lengthCheck sig (pos + 1) 1).result = some () :=
      hlength.lengthCheck Nat.one_pos (Nat.lt_add_of_pos_left hpos)
    rw [packetLength_new (List.cons_ne_nil _ _) h, newLength, result_bind,
      read_octets (hn.trans (by omega)) hlength, Option.bind_some, if_pos hn, result_bind, hcheck,
      Option.bind_some, result_pure]
    exact congrArg (fun start => some (n, start)) hend
  | newTwo =>
    obtain ⟨hn, hlt⟩ := hfits
    have hlength : Rest sig (pos + 1) (twoOctetForm n ++ l) := Rest.tail h
    have hcheck : (lengthCheck sig (pos + 1) 2).result = some () :=
      hlength.lengthCheck Nat.two_pos (Nat.add_lt_add_right hpos 2)
    have hfirst := Rest.read hlength
    rw [twoOctetForm_first hn (by omega)] at hfirst
    rw [packetLength_new (List.cons_ne_nil _ _) h, newLength, result_bind, hfirst,
      Option.bind_some, if_neg (by omega), if_pos (by omega), result_bind, hcheck,
      Option.bind_some, result_bind, twoOctetLength_twoOctetForm hn hlength, Option.bind_some,
      result_pure]
    exact congrArg (fun start => some (n, start)) hend
  | newFive =>
    have hlength : Rest sig (pos + 1) (255 :: (octets 4 n ++ l)) := Rest.tail h
    have hcheck : (lengthCheck sig (pos + 1) 5).result = some () :=
      hlength.lengthCheck (Nat.succ_pos _) (Nat.add_lt_add_right hpos 5)
    have hfirst : (read sig (pos + 1)).result = some 255 := Rest.read hlength
    rw [packetLength_new (List.cons_ne_nil _ _) h, newLength, result_bind, hfirst,
      Option.bind_some, if_neg (by omega), if_neg (by omega), if_pos rfl, result_bind, hcheck,
      Option.bind_some, result_bind, fourOctets_octets hfits (Rest.tail hlength),
      Option.bind_some, result_pure]
    exact congrArg (fun start => some (n, start)) hend

/-- The areas of a packet are behind the header of the body. -/
def areasAt (p : Packet) (pos : ℕ) : ℕ := pos + (p.form.header p.body.bytes.length).length + 4

/-- The state at the hashed area of a packet. -/
def hashedFrame (p : Packet) (pos : ℕ) : Frame where
  area := .hashed
  start := pos
  pos := areasAt p pos + 2
  plen := (areaBytes p.body.hashed).length
  blen := p.body.bytes.length
  hlen := (areaBytes p.body.hashed).length

/-- The state at the unhashed area of a packet. -/
def unhashedFrame (p : Packet) (pos : ℕ) : Frame where
  area := .unhashed
  start := pos
  pos := areasAt p pos + 2 + (areaBytes p.body.hashed).length + 2
  plen := (areaBytes p.body.unhashed).length
  blen := p.body.bytes.length
  hlen := (areaBytes p.body.hashed).length

/-- From the areas of a packet on. -/
theorem rest_areas {p : Packet} (h : Rest sig pos (p.bytes ++ l)) :
    Rest sig (areasAt p pos)
      (withLength p.body.hashed ++ (withLength p.body.unhashed ++ (p.body.trailer ++ l))) := by
  rw [Packet.bytes, List.append_assoc] at h
  have hareas : Rest sig (areasAt p pos)
      (withLength p.body.hashed ++ (withLength p.body.unhashed ++ p.body.trailer) ++ l) :=
    h.append.tail.tail.tail.tail
  rwa [List.append_assoc, List.append_assoc] at hareas

/-- The length of an area is read and passes the check, and the area is behind it. -/
def AreaRead (sig : Signature) (pos : ℕ) (area : List Openpgp.Subpacket) (l : List UInt8) : Prop :=
  (twoOctets sig pos).result = some (areaBytes area).length ∧
    (lengthCheck sig pos ((areaBytes area).length + 2)).result = some () ∧
    Rest sig (pos + 2) (areaBytes area ++ l)

theorem area_result {area : List Openpgp.Subpacket} (hlt : (areaBytes area).length < 2 ^ 16)
    (hl : l ≠ []) (h : Rest sig pos (withLength area ++ l)) : AreaRead sig pos area l := by
  have hcheck : (lengthCheck sig pos ((areaBytes area).length + 2)).result = some () := by
    refine h.lengthCheck (Nat.succ_pos _) ?_
    rw [List.length_append, length_withLength]
    exact Nat.lt_add_of_pos_right (List.length_pos_iff.mpr hl)
  rw [withLength, List.append_assoc] at h
  exact ⟨twoOctets_octets hlt h, hcheck, h.append⟩

theorem areas_result {p : Packet} (h : Rest sig pos (p.bytes ++ l)) :
    AreaRead sig (areasAt p pos) p.body.hashed
        (withLength p.body.unhashed ++ (p.body.trailer ++ l)) ∧
      AreaRead sig (areasAt p pos + 2 + (areaBytes p.body.hashed).length) p.body.unhashed
        (p.body.trailer ++ l) := by
  have hhashed := area_result p.body.hashed_lt
    (List.append_ne_nil_of_left_ne_nil (withLength_ne_nil _) _) (rest_areas h)
  exact ⟨hhashed, area_result p.body.unhashed_lt
    (List.append_ne_nil_of_left_ne_nil p.body.trailer_ne_nil _) hhashed.2.2.append⟩

theorem packetHead_bytes {p : Packet} (h : Rest sig pos (p.bytes ++ l)) :
    (packetHead sig pos).result = some (hashedFrame p pos) := by
  have hareas := rest_areas h
  obtain ⟨⟨hlen, hcheck, hhashed⟩, -⟩ := areas_result h
  have hcheckTwo : (lengthCheck sig (areasAt p pos) 2).result = some () := by
    refine hareas.lengthCheck Nat.two_pos ?_
    rw [List.length_append, length_withLength, List.length_append, length_withLength]
    omega
  rw [Packet.bytes, List.append_assoc] at h
  have hlength := packetLength_header p.fits (List.cons_ne_nil _ _) h
  have hversion : (read sig (pos + (p.form.header p.body.bytes.length).length)).result = some 4 :=
    h.append.read
  have htype :
      (read sig (pos + (p.form.header p.body.bytes.length).length + 1)).result = some 0 :=
    h.append.tail.read
  have hareasAt : sizeT (pos + (p.form.header p.body.bytes.length).length + 4) = areasAt p pos :=
    hareas.sizeT
  rw [packetHead, result_bind, hlength, Option.bind_some, result_bind, hversion, Option.bind_some,
    if_neg (not_not.mpr rfl), result_bind, htype, Option.bind_some, if_neg (not_not.mpr rfl),
    hareasAt, result_bind, hcheckTwo, Option.bind_some, result_bind, hlen, Option.bind_some,
    result_bind, hcheck, Option.bind_some, result_pure, hhashed.sizeT]
  rfl

theorem unhashedHead_bytes {p : Packet} (h : Rest sig pos (p.bytes ++ l)) :
    (unhashedHead sig (hashedFrame p pos)).result = some (unhashedFrame p pos) := by
  obtain ⟨⟨-, -, hhashed⟩, hlen, hcheck, hunhashed⟩ := areas_result h
  have hbehind : sizeT ((hashedFrame p pos).pos + (hashedFrame p pos).plen) =
      areasAt p pos + 2 + (areaBytes p.body.hashed).length := hhashed.append.sizeT
  rw [unhashedHead, hbehind, result_bind, hlen, Option.bind_some, result_bind, hcheck,
    Option.bind_some, result_pure, hunhashed.sizeT]
  rfl

/-- The position behind the unhashed area is put onto the next packet. -/
theorem packetEnd_bytes {p : Packet} (h : Rest sig pos (p.bytes ++ l)) :
    (unhashedFrame p pos).packetEnd = pos + p.bytes.length := by
  have hend : sizeT (pos + p.bytes.length) = pos + p.bytes.length := h.append.sizeT
  have hlength : p.bytes.length = (p.form.header p.body.bytes.length).length +
      p.body.bytes.length := List.length_append
  have hbody := p.body.length_bytes
  have hsig := h.length
  have hlen := sig.len_lt
  rw [List.length_append] at hsig
  have hrest : sizeSub (sizeSub p.body.bytes.length (areaBytes p.body.hashed).length) 8 =
      p.body.bytes.length - (areaBytes p.body.hashed).length - 8 := by
    have hhashed : sizeSub p.body.bytes.length (areaBytes p.body.hashed).length =
        p.body.bytes.length - (areaBytes p.body.hashed).length :=
      sizeSub_of_le (by omega) (by omega)
    rw [hhashed]
    exact sizeSub_of_le (by omega) (by omega)
  have hpos : areasAt p pos + 2 + (areaBytes p.body.hashed).length + 2 +
      (p.body.bytes.length - (areaBytes p.body.hashed).length - 8) = pos + p.bytes.length := by
    rw [areasAt]
    omega
  show sizeT (areasAt p pos + 2 + (areaBytes p.body.hashed).length + 2 +
    sizeSub (sizeSub p.body.bytes.length (areaBytes p.body.hashed).length) 8) = _
  rw [hrest, hpos, hend]

/-! ## Runs -/

/-- The machine comes from one state to another and finds keys on the way. -/
def Finds (sig : Signature) (c c' : Ctl) (found : List CString) : Prop :=
  ∃ n, ∀ fuel keys, run sig (fuel + n) c keys = run sig fuel c' (keys ++ found)

theorem Finds.refl (c : Ctl) : Finds sig c c [] :=
  ⟨0, fun fuel keys => by rw [List.append_nil, Nat.add_zero]⟩

theorem Finds.step {c c' : Ctl} {found : List CString}
    (h : (body sig c).result = some (some c', found)) : Finds sig c c' found := by
  refine ⟨1, fun fuel keys => ?_⟩
  rw [run, h]

theorem Finds.trans {c₁ c₂ c₃ : Ctl} {found₁ found₂ : List CString} (h₁ : Finds sig c₁ c₂ found₁)
    (h₂ : Finds sig c₂ c₃ found₂) : Finds sig c₁ c₃ (found₁ ++ found₂) := by
  obtain ⟨n₁, hrun₁⟩ := h₁
  obtain ⟨n₂, hrun₂⟩ := h₂
  refine ⟨n₂ + n₁, fun fuel keys => ?_⟩
  rw [← Nat.add_assoc, hrun₁, hrun₂, List.append_assoc]

/-- The loop over the subpackets of an area finds its first issuer. -/
theorem finds_area (frame : Frame) (area : List Openpgp.Subpacket) (hl : l ≠ [])
    (h : Rest sig pos (areaBytes area ++ l))
    (hend : pos + (areaBytes area).length = frame.pos + frame.plen) :
    Finds sig (.subpacket frame pos) (.areaEnd frame)
      ((area.findSome? Openpgp.Subpacket.issuer).toList.map printedKey) := by
  have hframe : sizeT (frame.pos + frame.plen) = frame.pos + frame.plen := by
    rw [← hend]
    exact h.append.sizeT
  induction area generalizing pos with
  | nil =>
    have hpos : pos = frame.pos + frame.plen := hend
    refine Finds.step ?_
    rw [body, hframe, if_neg (by omega)]
    rfl
  | cons s area ih =>
    rw [areaBytes_cons, List.length_append] at hend
    rw [areaBytes_cons, List.append_assoc] at h
    have hbytes : 0 < s.bytes.length := by
      rw [Subpacket.bytes, List.length_append, List.length_cons]
      omega
    have hresult := subpacket_bytes s (List.append_ne_nil_of_right_ne_nil _ hl) h
    cases hissuer : s.issuer with
    | some key =>
      rw [hissuer] at hresult
      refine Finds.step ?_
      rw [body, hframe, if_pos (by omega), result_bind, hresult, Option.bind_some,
        List.findSome?_cons, hissuer]
      rfl
    | none =>
      rw [hissuer] at hresult
      have hstep : Finds sig (.subpacket frame pos)
          (.subpacket frame (pos + s.bytes.length)) [] := by
        refine Finds.step ?_
        rw [body, hframe, if_pos (by omega), result_bind, hresult, Option.bind_some]
        rfl
      rw [List.findSome?_cons, hissuer]
      exact hstep.trans (ih h.append (by omega))

/-- **One packet**: its issuers are found, and the next position is behind it.  The length of the
packet leads there, whatever form it is written in, and the scan of its areas stops at the first
issuer of each. -/
theorem finds_packet {p : Packet} (h : Rest sig pos (p.bytes ++ l)) :
    Finds sig (.packet pos) (.packet (pos + p.bytes.length)) (p.issuers.map printedKey) := by
  obtain ⟨hhashed, hunhashed⟩ := areas_result h
  have hpacket : Finds sig (.packet pos)
      (.subpacket (hashedFrame p pos) (hashedFrame p pos).pos) [] := by
    refine Finds.step ?_
    have hpos : pos < sig.len := h.lt (List.append_ne_nil_of_left_ne_nil p.bytes_ne_nil _)
    rw [body, if_pos hpos, result_bind, packetHead_bytes h, Option.bind_some]
    rfl
  have hfirst := finds_area (hashedFrame p pos) p.body.hashed
    (List.append_ne_nil_of_left_ne_nil (withLength_ne_nil _) _) hhashed.2.2 rfl
  have hbetween : Finds sig (.areaEnd (hashedFrame p pos))
      (.subpacket (unhashedFrame p pos) (unhashedFrame p pos).pos) [] := by
    refine Finds.step ?_
    show (unhashedHead sig (hashedFrame p pos) >>= fun frame =>
      pure (some (Ctl.subpacket frame frame.pos), ([] : List CString))).result = _
    rw [result_bind, unhashedHead_bytes h]
    rfl
  have hsecond := finds_area (unhashedFrame p pos) p.body.unhashed
    (List.append_ne_nil_of_left_ne_nil p.body.trailer_ne_nil _) hunhashed.2.2 rfl
  have hend : Finds sig (.areaEnd (unhashedFrame p pos)) (.packet (pos + p.bytes.length)) [] := by
    refine Finds.step ?_
    rw [← packetEnd_bytes h]
    rfl
  have hrun := hpacket.trans (hfirst.trans (hbetween.trans (hsecond.trans hend)))
  rwa [List.nil_append, List.nil_append, List.append_nil, ← List.map_append] at hrun

theorem finds_signatureBytes (packets : List Packet)
    (h : Rest sig pos (signatureBytes packets)) :
    Finds sig (.packet pos) (.packet sig.len)
      ((packets.flatMap Packet.issuers).map printedKey) := by
  induction packets generalizing pos with
  | nil =>
    have hpos : pos = sig.len := h.length
    rw [hpos]
    exact Finds.refl _
  | cons p packets ih =>
    have hpacket := finds_packet h
    rw [List.flatMap_cons, List.map_append]
    exact hpacket.trans (ih h.append)

/-- **The key IDs of well-formed signatures**: on the octets of signature packets the function
returns 0, and the issuers of the packets are added in their order, the one of the hashed area
first.  The steps of the machine are bounded by a number that depends on the packets, and what is in
memory behind the signature does not matter. -/
theorem extractKeyid_signatureBytes (sig : Signature) (packets : List Packet)
    (h : Rest sig 0 (signatureBytes packets)) (keys : List CString) :
    ∃ n, ∀ fuel, n ≤ fuel → extractKeyid sig fuel keys =
      some (0, keys ++ (packets.flatMap Packet.issuers).map printedKey) := by
  obtain ⟨n, hrun⟩ := finds_signatureBytes packets h
  refine ⟨n + 1, fun fuel hfuel => ?_⟩
  obtain ⟨k, rfl⟩ := Nat.exists_eq_add_of_le hfuel
  have hend : (body sig (.packet sig.len)).result = some (none, []) := by
    rw [body, if_neg (lt_irrefl _), result_pure]
  have hfuelEq : n + 1 + k = k + 1 + n := by omega
  rw [extractKeyid, hfuelEq, hrun, run, hend]
  exact congrArg (fun keys => some (0, keys)) (List.append_nil _)

/-- The signature with the octets of a list, and octets 0 behind it. -/
def signatureOf (l : List UInt8) (h : l.length < 2 ^ 64) : Signature where
  byte i := l.getD i 0
  len := l.length
  len_lt := h

theorem rest_signatureOf (h : l.length < 2 ^ 64) : Rest (signatureOf l h) 0 l where
  length := Nat.zero_add _
  byte i hi := by
    show l.getD (0 + i) 0 = l[i]
    rw [Nat.zero_add, List.getD_eq_getElem _ _ hi]

/-- A creation time in the hashed area and an issuer in the unhashed one. -/
def issuedPacket : Packet where
  form := .oldTwo
  body :=
    { publicKeyAlgorithm := 1
      hashAlgorithm := 8
      hashed := [
        { form := .one
          type := 2
          data := [0x5F, 0x0E, 0x10, 0x00]
          fits := by decide
          length_issuer := by decide }]
      unhashed := [
        { form := .five
          type := issuerType
          data := [0x01, 0x23, 0x45, 0x67, 0x89, 0xAB, 0xCD, 0xEF]
          fits := by decide
          length_issuer := by decide }]
      hashPrefix := (0xD0, 0x0D)
      data := [0x00]
      hashed_lt := by decide
      unhashed_lt := by decide
      data_ne_nil := by decide }
  fits := by decide

theorem extractKeyid_issuedPacket : ∃ n, ∀ fuel, n ≤ fuel →
    extractKeyid (signatureOf (signatureBytes [issuedPacket, issuedPacket]) (by decide)) fuel [] =
      some (0, ["0123456789ABCDEF".toList, "0123456789ABCDEF".toList]) := by
  have hrun := extractKeyid_signatureBytes _ [issuedPacket, issuedPacket]
    (rest_signatureOf (by decide)) []
  have hkeys : ([issuedPacket, issuedPacket].flatMap Packet.issuers).map printedKey =
      ["0123456789ABCDEF".toList, "0123456789ABCDEF".toList] := by decide +kernel
  rwa [hkeys] at hrun

end Alpm.Keyid
