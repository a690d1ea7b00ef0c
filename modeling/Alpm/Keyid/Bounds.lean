import Alpm.Keyid.Extract

/-!
# Where a signature is read

Inside an area of subpackets every read is checked: `length_check` is called before an octet is
read, and a length that would lead out of the signature ends the function.  Around the areas there
are three checks that are missing (`Short`): for the octet of the type behind the version of a
packet, for the length of the hashed area, and for the second octet of the length of the unhashed
area.

`reads_inside_iff` says that they are the only ones: the signature is read inside its length if and
only if no state that is reached is short.  A state is short by an inequality between its position,
the lengths that it has read and the length of the signature.

The invariant is `Inside`, that an area which is being parsed ends inside the signature.
`body_within` is the step, by the rule of `General.Scan` for each of the three bodies; `body_short`
is the other direction, a read at or behind the end in every short state.
-/

namespace Alpm.Keyid

open StateTransition Scan

variable {sig : Signature} {pos : ℕ}

theorem sizeT_of_le {n : ℕ} (h : n ≤ sig.len) : sizeT n = n :=
  Nat.mod_eq_of_lt (h.trans_lt sig.len_lt)

theorem sizeSub_of_le {m n : ℕ} (hle : n ≤ m) (hm : m < 2 ^ 64) : sizeSub m n = m - n := by
  unfold sizeSub sizeT
  omega

theorem sizeSub_of_lt {m n : ℕ} (hlt : m < n) : sizeSub m n = m + 2 ^ 64 - n := by
  unfold sizeSub sizeT
  omega

/-- A position that was checked. -/
theorem sizeT_add {k : ℕ} (hk : 0 < k) (h : pos + k < sig.len) :
    pos < sizeT (pos + k) ∧ sizeT (pos + k) < sig.len := by
  rw [sizeT_of_le h.le]
  exact ⟨Nat.lt_add_of_pos_right hk, h⟩

theorem read_within (h : pos < sig.len) :
    Within sig.len (read sig pos) fun octet => octet = (sig.byte pos).toNat := by
  rw [read, sizeT_of_le h.le]
  exact Within.read h

theorem lengthCheck_within {a : ℕ} (h : pos ≤ sig.len) :
    Within sig.len (lengthCheck sig pos a) fun _ => 0 < a ∧ pos + a < sig.len := by
  refine Within.ite (fun _ => Within.fail) fun hok => Within.pure ?_
  rw [sizeSub_of_le h sig.len_lt] at hok
  omega

theorem twoOctets_within (h : pos + 1 < sig.len) :
    Within sig.len (twoOctets sig pos) fun n => n < 2 ^ 16 := by
  refine (read_within (by omega)).bind fun high _ hhigh => ?_
  refine (read_within h).bind fun low _ hlow => Within.pure ?_
  have hhighLt := (sig.byte pos).toNat_lt
  have hlowLt := (sig.byte (pos + 1)).toNat_lt
  omega

theorem intSize_lt {n : ℕ} (h : n < 2 ^ 32) : intSize n < 2 ^ 64 := by
  unfold intSize
  split_ifs <;> omega

theorem fourOctets_within (h : pos + 3 < sig.len) :
    Within sig.len (fourOctets sig pos) fun n => n < 2 ^ 64 := by
  refine (twoOctets_within (by omega)).bind fun high _ hhigh => ?_
  refine (twoOctets_within (by omega)).bind fun low _ hlow => Within.pure (intSize_lt ?_)
  omega

theorem twoOctetLength_within {first : ℕ} (hfirst : first < 255) (h : pos + 1 < sig.len) :
    Within sig.len (twoOctetLength sig first pos) fun n => n < 2 ^ 64 := by
  refine (read_within h).bind fun second _ hsecond => Within.pure ?_
  have hlt := (sig.byte (pos + 1)).toNat_lt
  omega

/-! ## Subpackets -/

theorem subpacketLength_within (h : pos + 1 < sig.len) :
    Within sig.len (subpacketLength sig pos) fun r => pos < r.2 ∧ r.2 < sig.len := by
  refine (read_within (by omega)).bind fun first _ hfirst => ?_
  refine Within.ite (fun _ => Within.pure (sizeT_add Nat.one_pos h)) fun _ =>
    Within.ite (fun hlt => ?_) fun _ => ?_
  · refine (lengthCheck_within (by omega)).bind fun _ _ hcheck => ?_
    exact (twoOctetLength_within hlt (by omega)).bind fun slen _ _ =>
      Within.pure (sizeT_add hcheck.1 hcheck.2)
  · refine (lengthCheck_within (by omega)).bind fun _ _ hcheck => ?_
    exact (fourOctets_within (by omega)).bind fun slen _ _ =>
      Within.pure (sizeT_add hcheck.1 hcheck.2)

theorem printKey_within {n : ℕ} (h : pos + n ≤ sig.len) :
    Within sig.len (printKey sig pos n) fun _ => True := by
  induction n generalizing pos with
  | zero => exact Within.pure trivial
  | succ n ih =>
    refine (read_within (by omega)).bind fun octet _ _ => ?_
    exact (ih (by omega)).bind fun key _ _ => Within.pure trivial

/-- A subpacket is read inside the signature, and the next one starts behind it and inside. -/
theorem subpacket_within (h : pos + 1 < sig.len) :
    Within sig.len (subpacket sig pos) fun r =>
      ∀ spos, r = .other spos → pos < spos ∧ spos < sig.len := by
  refine (subpacketLength_within h).bind fun r _ hr => ?_
  obtain ⟨slen, spos⟩ := r
  have hlt : pos < spos := hr.1
  have hinside : spos < sig.len := hr.2
  refine (read_within hinside).bind fun type _ _ => ?_
  refine Within.ite (fun _ => ?_) fun _ => ?_
  · refine (lengthCheck_within hinside.le).bind fun _ _ hcheck => ?_
    refine (printKey_within (by omega)).bind fun key _ _ => Within.pure ?_
    rintro spos' hspos'
    cases hspos'
  · refine (lengthCheck_within hinside.le).bind fun _ _ hcheck => Within.pure ?_
    rintro spos' hspos'
    obtain rfl := Subpacket.other.inj hspos'
    have hnext := sizeT_add hcheck.1 hcheck.2
    exact ⟨hlt.trans hnext.1, hnext.2⟩

/-! ## Packets -/

/-- The length of a packet, and where its body starts. -/
def Lengths (sig : Signature) (pos : ℕ) (r : ℕ × ℕ) : Prop :=
  r.1 < 2 ^ 64 ∧ pos < r.2 ∧ r.2 < sig.len

theorem newLength_within (h : pos < sig.len) :
    Within sig.len (newLength sig pos) (Lengths sig pos) := by
  refine (read_within h).bind fun first _ hfirst => ?_
  have hfirstLt := (sig.byte pos).toNat_lt
  refine Within.ite (fun _ => ?_) fun _ => Within.ite (fun hlt => ?_) fun _ =>
    Within.ite (fun _ => ?_) fun _ => Within.fail
  · refine (lengthCheck_within h.le).bind fun _ _ hcheck =>
      Within.pure ⟨?_, sizeT_add hcheck.1 hcheck.2⟩
    show first < 2 ^ 64
    omega
  · refine (lengthCheck_within h.le).bind fun _ _ hcheck => ?_
    exact (twoOctetLength_within (by omega) (by omega)).bind fun blen _ hblen =>
      Within.pure ⟨hblen, sizeT_add hcheck.1 hcheck.2⟩
  · refine (lengthCheck_within h.le).bind fun _ _ hcheck => ?_
    exact (fourOctets_within (by omega)).bind fun blen _ hblen =>
      Within.pure ⟨hblen, sizeT_add hcheck.1 hcheck.2⟩

theorem oldLength_within {lengthType : ℕ} (h : pos < sig.len) :
    Within sig.len (oldLength sig lengthType pos) (Lengths sig pos) := by
  refine Within.ite (fun _ => ?_) fun _ => Within.ite (fun _ => ?_) fun _ =>
    Within.ite (fun _ => ?_) fun _ => Within.fail
  · refine (lengthCheck_within h.le).bind fun _ _ hcheck => ?_
    refine (read_within (by omega)).bind fun blen _ hblen =>
      Within.pure ⟨?_, sizeT_add hcheck.1 hcheck.2⟩
    have hlt := (sig.byte (pos + 1)).toNat_lt
    show blen < 2 ^ 64
    omega
  · refine (lengthCheck_within h.le).bind fun _ _ hcheck => ?_
    refine (twoOctets_within (by omega)).bind fun blen _ hblen =>
      Within.pure ⟨?_, sizeT_add hcheck.1 hcheck.2⟩
    show blen < 2 ^ 64
    omega
  · refine (lengthCheck_within h.le).bind fun _ _ hcheck => ?_
    exact (fourOctets_within (by omega)).bind fun blen _ hblen =>
      Within.pure ⟨hblen, sizeT_add hcheck.1 hcheck.2⟩

theorem packetLength_within (h : pos < sig.len) :
    Within sig.len (packetLength sig pos) (Lengths sig pos) := by
  refine (read_within h).bind fun tag _ _ => ?_
  refine Within.ite (fun _ => Within.fail) fun _ => Within.ite (fun _ => ?_) fun _ =>
    oldLength_within h
  refine (lengthCheck_within h.le).bind fun _ _ hcheck => ?_
  rw [sizeT_of_le hcheck.2.le]
  exact (newLength_within hcheck.2).mono fun r hr =>
    ⟨hr.1, (Nat.lt_succ_self pos).trans hr.2.1, hr.2.2⟩

/-! ## The reads that are not checked -/

/-- The body of a packet, from `pos` on, ends inside what is read of it without a check: the octet
of the type, or, if the packet is one that is supported, the length of the hashed area. -/
def ShortBody (sig : Signature) (pos : ℕ) : Prop :=
  (sig.byte pos).toNat = 4 ∧
    (pos + 1 = sig.len ∨ (sig.byte (pos + 1)).toNat = 0 ∧ sig.len < sizeT (pos + 4))

/-- The reads that are not checked: of a short body, and of the second octet of the length of the
unhashed area. -/
def Short (sig : Signature) : Ctl → Prop
  | .packet pos => pos < sig.len ∧
      ∃ r, (packetLength sig pos).result = some r ∧ ShortBody sig r.2
  | .subpacket _ _ => False
  | .areaEnd frame => frame.area = .hashed ∧ frame.pos + frame.plen + 1 = sig.len

/-- The areas are inside the signature. -/
def Inside (sig : Signature) : Ctl → Prop
  | .packet _ => True
  | .subpacket frame _ => frame.pos + frame.plen < sig.len
  | .areaEnd frame => frame.pos + frame.plen < sig.len

theorem packetHead_within (h : pos < sig.len)
    (hshort : ∀ r, (packetLength sig pos).result = some r → ¬ ShortBody sig r.2) :
    Within sig.len (packetHead sig pos) fun frame => frame.pos + frame.plen < sig.len := by
  refine (packetLength_within h).bind fun r hr hlengths => ?_
  obtain ⟨blen, start⟩ := r
  have hstart : start < sig.len := hlengths.2.2
  have hnot : ¬ ShortBody sig start := hshort _ hr
  refine (read_within hstart).bind fun version _ hversion => ?_
  refine Within.ite (fun _ => Within.fail) fun hfour => ?_
  have htype : start + 1 < sig.len := by
    by_contra hend
    exact hnot ⟨by omega, Or.inl (by omega)⟩
  refine (read_within htype).bind fun type _ hbinary => ?_
  refine Within.ite (fun _ => Within.fail) fun hzero => ?_
  have hbody : sizeT (start + 4) ≤ sig.len := by
    by_contra hend
    exact hnot ⟨by omega, Or.inr ⟨by omega, not_le.mp hend⟩⟩
  refine (lengthCheck_within hbody).bind fun _ _ hcheck => ?_
  refine (twoOctets_within (by omega)).bind fun hlen _ _ => ?_
  refine (lengthCheck_within hbody).bind fun _ _ hcheckHlen => Within.pure ?_
  show sizeT (sizeT (start + 4) + 2) + hlen < sig.len
  rw [sizeT_of_le hcheck.2.le]
  omega

theorem unhashedHead_within {frame : Frame} (h : frame.pos + frame.plen < sig.len)
    (hshort : frame.pos + frame.plen + 1 ≠ sig.len) :
    Within sig.len (unhashedHead sig frame) fun frame => frame.pos + frame.plen < sig.len := by
  unfold unhashedHead
  rw [sizeT_of_le h.le]
  refine (twoOctets_within (by omega)).bind fun ulen _ _ => ?_
  refine (lengthCheck_within h.le).bind fun _ _ hcheck => Within.pure ?_
  show sizeT (frame.pos + frame.plen + 2) + ulen < sig.len
  have hend : frame.pos + frame.plen + 2 ≤ sig.len := by omega
  rw [sizeT_of_le hend]
  omega

/-- A step from a state that is not short reads inside the signature and stays inside. -/
theorem body_within {c : Ctl} (hinside : Inside sig c) (hshort : ¬ Short sig c) :
    Within sig.len (body sig c) fun r => ∀ c', r.1 = some c' → Inside sig c' := by
  cases c with
  | packet pos =>
    refine Within.ite (fun hpos => ?_) fun _ => Within.pure (by simp)
    refine (packetHead_within hpos fun r hr hbody => hshort ⟨hpos, r, hr, hbody⟩).bind
      fun frame _ hframe => Within.pure ?_
    rintro c' hc'
    obtain rfl := Option.some.inj hc'
    exact hframe
  | subpacket frame spos =>
    have hframe : frame.pos + frame.plen < sig.len := hinside
    refine Within.ite (fun hspos => ?_) fun _ => Within.pure ?_
    · rw [sizeT_of_le hframe.le] at hspos
      refine (subpacket_within (by omega)).bind fun r _ _ => ?_
      cases r with
      | issuer key =>
        refine Within.pure ?_
        rintro c' hc'
        obtain rfl := Option.some.inj hc'
        exact hframe
      | other spos =>
        refine Within.pure ?_
        rintro c' hc'
        obtain rfl := Option.some.inj hc'
        exact hframe
    · rintro c' hc'
      obtain rfl := Option.some.inj hc'
      exact hframe
  | areaEnd frame =>
    have hframe : frame.pos + frame.plen < sig.len := hinside
    cases harea : frame.area with
    | hashed =>
      have hnot : frame.pos + frame.plen + 1 ≠ sig.len := fun heq => hshort ⟨harea, heq⟩
      simp only [body, harea]
      refine (unhashedHead_within hframe hnot).bind fun frame' _ hframe' => Within.pure ?_
      rintro c' hc'
      obtain rfl := Option.some.inj hc'
      exact hframe'
    | unhashed =>
      simp only [body, harea]
      refine Within.pure ?_
      rintro c' hc'
      obtain rfl := Option.some.inj hc'
      exact True.intro

theorem mem_reads_read {n : ℕ} (h : n < 2 ^ 64) : n ∈ (read sig n).reads := by
  rw [read, reads_read, sizeT, Nat.mod_eq_of_lt h]
  exact List.mem_singleton_self _

theorem result_read_of_lt (h : pos < sig.len) :
    (read sig pos).result = some (sig.byte pos).toNat := by
  rw [read, result_read, sizeT_of_le h.le]

/-- Right behind the end of the signature the check passes. -/
theorem lengthCheck_behind (hlt : sig.len < pos) (hpos : pos ≤ sig.len + 3) :
    (lengthCheck sig pos 2).result = some () := by
  rw [lengthCheck, if_neg, result_pure]
  rw [sizeSub_of_lt hlt]
  omega

theorem packetHead_short (h : pos < sig.len) {r : ℕ × ℕ}
    (hlength : (packetLength sig pos).result = some r) (hshort : ShortBody sig r.2) :
    ∃ i ∈ (packetHead sig pos).reads, sig.len ≤ i := by
  have hlen := sig.len_lt
  obtain ⟨blen, start⟩ := r
  obtain ⟨-, -, hbody⟩ := (packetLength_within h).result _ hlength
  obtain ⟨hversion, hend⟩ := hshort
  have hfour : (read sig start).result = some 4 := by rw [result_read_of_lt hbody, hversion]
  rcases hend with hend | ⟨htype, hend⟩
  · refine ⟨start + 1, mem_reads_bind_right hlength (mem_reads_bind_right hfour ?_), hend.ge⟩
    rw [if_neg (not_not.mpr rfl)]
    exact mem_reads_bind_left (mem_reads_read (by omega))
  · by_cases hnext : start + 1 < sig.len
    · refine ⟨sizeT (start + 4), mem_reads_bind_right hlength (mem_reads_bind_right hfour ?_),
        hend.le⟩
      have hzero : (read sig (start + 1)).result = some 0 := by
        rw [result_read_of_lt hnext, htype]
      have hcheck : (lengthCheck sig (sizeT (start + 4)) 2).result = some () :=
        lengthCheck_behind hend (by unfold sizeT; omega)
      rw [if_neg (not_not.mpr rfl)]
      refine mem_reads_bind_right hzero ?_
      rw [if_neg (not_not.mpr rfl)]
      refine mem_reads_bind_right hcheck (mem_reads_bind_left (mem_reads_bind_left ?_))
      exact mem_reads_read (Nat.mod_lt _ (by omega))
    · refine ⟨start + 1, mem_reads_bind_right hlength (mem_reads_bind_right hfour ?_),
        not_lt.mp hnext⟩
      rw [if_neg (not_not.mpr rfl)]
      exact mem_reads_bind_left (mem_reads_read (by omega))

theorem body_short {c : Ctl} (hinside : Inside sig c) (hshort : Short sig c) :
    ∃ i ∈ (body sig c).reads, sig.len ≤ i := by
  cases c with
  | packet pos =>
    obtain ⟨hpos, r, hlength, hbody⟩ := hshort
    obtain ⟨i, hi, hle⟩ := packetHead_short hpos hlength hbody
    refine ⟨i, ?_, hle⟩
    rw [body, if_pos hpos]
    exact mem_reads_bind_left hi
  | subpacket frame spos => exact hshort.elim
  | areaEnd frame =>
    obtain ⟨harea, hend⟩ := hshort
    have hframe : frame.pos + frame.plen < sig.len := hinside
    have hlen := sig.len_lt
    refine ⟨frame.pos + frame.plen + 1, ?_, hend.ge⟩
    simp only [body, harea, unhashedHead]
    rw [sizeT_of_le hframe.le]
    refine mem_reads_bind_left (mem_reads_bind_left ?_)
    refine mem_reads_bind_right (result_read_of_lt hframe) (mem_reads_bind_left ?_)
    exact mem_reads_read (by omega)

theorem next_eq_some {c c' : Ctl} (h : next sig c = some c') :
    ∃ r, (body sig c).result = some r ∧ r.1 = some c' :=
  Option.bind_eq_some_iff.mp h

/-- **Every run** stays inside the signature when no state inside it is short.  A step from a state
that is inside and not short leads to one that is inside. -/
theorem inside_of_reaches
    (hshort : ∀ c, Reaches (next sig) (.packet 0) c → Inside sig c → ¬ Short sig c) {c : Ctl}
    (h : Reaches (next sig) (.packet 0) c) : Inside sig c := by
  induction h with
  | refl => exact trivial
  | @tail c c' hreach hstep ih =>
    obtain ⟨r, hbody, hr⟩ := next_eq_some hstep
    exact (body_within ih (hshort c hreach ih)).result r hbody c' hr

/-- **The signature is read inside its length** if and only if no state that is reached is short.  A
state that is not short reads inside and leads to a state that is inside, and a short one reads at
or behind the end, so the first short state of a run decides. -/
theorem reads_inside_iff (sig : Signature) :
    (∀ i, Reads sig i → i < sig.len) ↔
      ∀ c, Reaches (next sig) (.packet 0) c → ¬ Short sig c := by
  constructor
  · intro hreads
    have hshort : ∀ c, Reaches (next sig) (.packet 0) c → Inside sig c → ¬ Short sig c := by
      intro c hreach hinside hshort
      obtain ⟨i, hi, hle⟩ := body_short hinside hshort
      exact absurd (hreads i ⟨c, hreach, hi⟩) (not_lt.mpr hle)
    exact fun c hreach => hshort c hreach (inside_of_reaches hshort hreach)
  · rintro hshort i ⟨c, hreach, hi⟩
    have hinside := inside_of_reaches (fun c hreach _ => hshort c hreach) hreach
    exact (body_within hinside (hshort c hreach)).reads i hi

/-- An old packet of length 1 with nothing but the version. -/
def versionOnly : Signature where
  byte i := [0x88, 0x01, 0x04].getD i 0
  len := 3
  len_lt := by decide

theorem reads_versionOnly : ∃ i, Reads versionOnly i ∧ versionOnly.len ≤ i := by
  have hlength : (packetLength versionOnly 0).result = some (1, 2) := rfl
  have hbody : ShortBody versionOnly 2 := ⟨rfl, Or.inl rfl⟩
  have hshort : Short versionOnly (.packet 0) := ⟨Nat.zero_lt_succ 2, _, hlength, hbody⟩
  have hinside : Inside versionOnly (.packet 0) := True.intro
  obtain ⟨i, hi, hle⟩ := body_short hinside hshort
  exact ⟨i, ⟨.packet 0, Relation.ReflTransGen.refl, hi⟩, hle⟩

end Alpm.Keyid
