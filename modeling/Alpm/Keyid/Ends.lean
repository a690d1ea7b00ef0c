import Alpm.Keyid.Bounds
import Mathlib.Data.Prod.Lex
import Mathlib.Data.Set.Finite.Lattice

/-!
# Whether the parsing of a signature ends

The next packet starts at `pos + (blen - hlen - 8)`, and nothing in the code says that this is
behind the packet that was just parsed.  A length of four octets goes through an `int`, so it may
come out as a negative number, and then the sum is taken modulo `2 ^ 64` and leads back.

## 1.  Progress

All variables are below `2 ^ 64`, so that only finitely many states are reached
(`finite_reaches`).  `progress` orders them by the packet, the part of the packet and the position
in it, and every step raises it but for two kinds of steps: the end of a packet that is not behind
its own start, and a subpacket that does not end behind its own position (`Backward`).

## 2.  What that gives

`extractKeyid_ends_of_forward` draws both conclusions.  A run that meets no step back ends, on
every signature and whatever lies behind it.  A run that meets a packet whose end is its own start,
or a subpacket of length `0` modulo `2 ^ 64`, does not.  Between the two there are steps back into
an earlier packet: from there the bytes are framed anew, so that the run may well get past the
place the next time.  All that can be said of them is `extractKeyid_ends_iff_returns`: the loops
end unless such a step is come to again.

## 3.  Which signatures go back

A step back needs a length of at least `2 ^ 31`, four octets with the first bit set
(`farLength_of_backward`), so every signature whose lengths fit into 31 bits is parsed to the end
(`extractKeyid_ends_of_lengths`).
-/

namespace Alpm.Keyid

open StateTransition Scan

variable {sig : Signature} {pos : ℕ}

theorem sizeT_lt (n : ℕ) : sizeT n < 2 ^ 64 := Nat.mod_lt _ (by omega)

/-! ## What one step does -/

/-- A frame is that of a packet whose length is read at its start. -/
structure FrameOf (sig : Signature) (frame : Frame) (body : ℕ) : Prop where
  start_lt : frame.start < sig.len
  length : (packetLength sig frame.start).result = some (frame.blen, body)
  hlen_lt : frame.hlen < 2 ^ 16
  plen_lt : frame.plen < 2 ^ 16
  pos_eq : match frame.area with
    | .hashed => frame.pos = sizeT (body + 6) ∧ frame.plen = frame.hlen
    | .unhashed => frame.pos = sizeT (body + 8 + frame.hlen)

theorem twoOctets_lt {n : ℕ} (h : (twoOctets sig pos).result = some n) : n < 2 ^ 16 := by
  simp only [twoOctets, read, result_bind, result_read, Option.bind_some, result_pure,
    Option.some.injEq] at h
  have hhigh := (sig.byte (sizeT pos)).toNat_lt
  have hlow := (sig.byte (sizeT (pos + 1))).toNat_lt
  omega

theorem sizeT_sizeT_add (m n : ℕ) : sizeT (sizeT m + n) = sizeT (m + n) := Nat.mod_add_mod ..

theorem packetHead_frameOf {frame : Frame} (h : pos < sig.len)
    (hhead : (packetHead sig pos).result = some frame) :
    frame.start = pos ∧ frame.area = .hashed ∧ ∃ body, FrameOf sig frame body := by
  simp only [packetHead, result_bind, Option.bind_eq_some_iff] at hhead
  obtain ⟨⟨blen, body⟩, hlength, version, -, hhead⟩ := hhead
  split_ifs at hhead with hversion
  · cases hhead
  simp only [result_bind, Option.bind_eq_some_iff] at hhead
  obtain ⟨type, -, hhead⟩ := hhead
  split_ifs at hhead with htype
  · cases hhead
  simp only [result_bind, Option.bind_eq_some_iff] at hhead
  obtain ⟨-, -, hlen, htwo, -, -, hhead⟩ := hhead
  obtain rfl := Option.some.inj hhead
  refine ⟨rfl, rfl, body, h, hlength, twoOctets_lt htwo, twoOctets_lt htwo, ?_, rfl⟩
  exact sizeT_sizeT_add (body + 4) 2

theorem unhashedHead_frameOf {frame frame' : Frame} (harea : frame.area = .hashed)
    (hhead : (unhashedHead sig frame).result = some frame') :
    frame'.start = frame.start ∧ frame'.area = .unhashed ∧
      ∀ body, FrameOf sig frame body → FrameOf sig frame' body := by
  simp only [unhashedHead, result_bind, Option.bind_eq_some_iff] at hhead
  obtain ⟨ulen, htwo, -, -, hhead⟩ := hhead
  obtain rfl := Option.some.inj hhead
  refine ⟨rfl, rfl, fun body hframe => ?_⟩
  obtain ⟨hstart, hlength, hhlen, hplen, hpos⟩ := hframe
  rw [harea] at hpos
  refine ⟨hstart, hlength, hhlen, twoOctets_lt htwo, ?_⟩
  show sizeT (sizeT (frame.pos + frame.plen) + 2) = sizeT (body + 8 + frame.hlen)
  rw [hpos.1, hpos.2, sizeT_sizeT_add, add_assoc, sizeT_sizeT_add]
  exact congrArg sizeT (by omega)

/-- What a step can do. -/
inductive Step (sig : Signature) : Ctl → Ctl → Prop
  | packet {frame : Frame} {body : ℕ} (hframe : FrameOf sig frame body)
      (harea : frame.area = .hashed) :
      Step sig (.packet frame.start) (.subpacket frame frame.pos)
  | other {frame : Frame} {spos spos' : ℕ} (hlt : spos < sizeT (frame.pos + frame.plen))
      (hother : (subpacket sig spos).result = some (.other spos')) :
      Step sig (.subpacket frame spos) (.subpacket frame spos')
  | area {frame : Frame} {spos : ℕ} : Step sig (.subpacket frame spos) (.areaEnd frame)
  | hashed {frame frame' : Frame} (harea : frame.area = .hashed) (harea' : frame'.area = .unhashed)
      (hstart : frame'.start = frame.start)
      (hframe : ∀ body, FrameOf sig frame body → FrameOf sig frame' body) :
      Step sig (.areaEnd frame) (.subpacket frame' frame'.pos)
  | unhashed {frame : Frame} (harea : frame.area = .unhashed) :
      Step sig (.areaEnd frame) (.packet frame.packetEnd)

theorem step_of_next {c c' : Ctl} (h : next sig c = some c') : Step sig c c' := by
  obtain ⟨r, hbody, hr⟩ := next_eq_some h
  cases c with
  | packet pos =>
    simp only [body] at hbody
    split_ifs at hbody with hpos
    · rw [result_bind, Option.bind_eq_some_iff] at hbody
      obtain ⟨frame, hhead, hbody⟩ := hbody
      obtain ⟨rfl, harea, body, hframe⟩ := packetHead_frameOf hpos hhead
      obtain rfl := Option.some.inj hbody
      obtain rfl := Option.some.inj hr
      exact Step.packet hframe harea
    · obtain rfl := Option.some.inj hbody
      cases hr
  | subpacket frame spos =>
    simp only [body] at hbody
    split_ifs at hbody with hspos
    · rw [result_bind, Option.bind_eq_some_iff] at hbody
      obtain ⟨s, hsub, hbody⟩ := hbody
      cases s with
      | issuer key =>
        obtain rfl := Option.some.inj hbody
        obtain rfl := Option.some.inj hr
        exact Step.area
      | other spos' =>
        obtain rfl := Option.some.inj hbody
        obtain rfl := Option.some.inj hr
        exact Step.other hspos hsub
    · obtain rfl := Option.some.inj hbody
      obtain rfl := Option.some.inj hr
      exact Step.area
  | areaEnd frame =>
    cases harea : frame.area with
    | hashed =>
      simp only [body, harea, result_bind, Option.bind_eq_some_iff] at hbody
      obtain ⟨frame', hhead, hbody⟩ := hbody
      obtain rfl := Option.some.inj hbody
      obtain rfl := Option.some.inj hr
      obtain ⟨hstart, harea', hframe⟩ := unhashedHead_frameOf harea hhead
      exact Step.hashed harea harea' hstart hframe
    | unhashed =>
      simp only [body, harea] at hbody
      obtain rfl := Option.some.inj hbody
      obtain rfl := Option.some.inj hr
      exact Step.unhashed harea

/-! ## Finitely many states -/

/-- The frames of a state are those of packets, and its positions are below `2 ^ 64`. -/
def Framed (sig : Signature) : Ctl → Prop
  | .packet pos => pos < 2 ^ 64
  | .subpacket frame spos => (∃ body, FrameOf sig frame body) ∧ spos < 2 ^ 64
  | .areaEnd frame => ∃ body, FrameOf sig frame body

theorem FrameOf.pos_lt {frame : Frame} {body : ℕ} (h : FrameOf sig frame body) :
    frame.pos < 2 ^ 64 := by
  have hpos := h.pos_eq
  cases harea : frame.area with
  | hashed =>
    rw [harea] at hpos
    exact hpos.1.trans_lt (sizeT_lt _)
  | unhashed =>
    rw [harea] at hpos
    exact hpos.trans_lt (sizeT_lt _)

theorem FrameOf.lengths {frame : Frame} {body : ℕ} (h : FrameOf sig frame body) :
    Lengths sig frame.start (frame.blen, body) :=
  (packetLength_within h.start_lt).result _ h.length

theorem subpacket_other {spos : ℕ} (h : (subpacket sig pos).result = some (.other spos)) :
    ∃ r, (subpacketLength sig pos).result = some r ∧ spos = sizeT (r.2 + r.1) := by
  simp only [subpacket, result_bind, Option.bind_eq_some_iff] at h
  obtain ⟨r, hr, type, -, h⟩ := h
  refine ⟨r, hr, ?_⟩
  split_ifs at h with htype
  · simp only [result_bind, Option.bind_eq_some_iff] at h
    obtain ⟨-, -, key, -, h⟩ := h
    cases h
  · simp only [result_bind, Option.bind_eq_some_iff] at h
    obtain ⟨-, -, h⟩ := h
    exact (Subpacket.other.inj (Option.some.inj h)).symm

theorem framed_of_step {c c' : Ctl} (h : Framed sig c) (hstep : Step sig c c') :
    Framed sig c' := by
  cases hstep with
  | packet hframe _ => exact ⟨⟨_, hframe⟩, hframe.pos_lt⟩
  | other _ hother =>
    obtain ⟨r, -, hspos⟩ := subpacket_other hother
    exact ⟨h.1, hspos.trans_lt (sizeT_lt _)⟩
  | area => exact h.1
  | hashed _ _ _ hframe =>
    obtain ⟨body, hbody⟩ := h
    exact ⟨⟨body, hframe body hbody⟩, (hframe body hbody).pos_lt⟩
  | unhashed _ => exact sizeT_lt _

theorem framed_of_reaches {c : Ctl} (h : Reaches (next sig) (.packet 0) c) : Framed sig c := by
  induction h with
  | refl => exact Nat.two_pow_pos 64
  | tail _ hstep ih => exact framed_of_step ih (step_of_next hstep)

theorem finite_frames (sig : Signature) : {frame | ∃ body, FrameOf sig frame body}.Finite := by
  have hbelow := Set.finite_Iio (2 ^ 64)
  have hareas : (Set.univ : Set Area).Finite := by
    refine (Set.toFinite {Area.hashed, Area.unhashed}).subset ?_
    rintro (_ | _) -
    · exact Set.mem_insert _ _
    · exact Set.mem_insert_of_mem _ rfl
  have hvariables := hareas.prod (hbelow.prod (hbelow.prod (hbelow.prod (hbelow.prod hbelow))))
  refine (hvariables.image fun v => Frame.mk v.1 v.2.1 v.2.2.1 v.2.2.2.1 v.2.2.2.2.1
    v.2.2.2.2.2).subset ?_
  rintro frame ⟨body, hframe⟩
  have hlen := sig.len_lt
  have hplen := hframe.plen_lt
  have hhlen := hframe.hlen_lt
  refine ⟨(frame.area, frame.start, frame.pos, frame.plen, frame.blen, frame.hlen), ?_, rfl⟩
  exact ⟨trivial, hframe.start_lt.trans hlen, hframe.pos_lt, hplen.trans (by omega),
    hframe.lengths.1, hhlen.trans (by omega)⟩

/-- Finitely many states are reached. -/
theorem finite_reaches (sig : Signature) : {c | Reaches (next sig) (.packet 0) c}.Finite := by
  have hbelow := Set.finite_Iio (2 ^ 64)
  have hframes := finite_frames sig
  refine ((hbelow.image Ctl.packet).union (((hframes.prod hbelow).image fun v =>
    Ctl.subpacket v.1 v.2).union (hframes.image Ctl.areaEnd))).subset ?_
  intro c hreach
  have hframed := framed_of_reaches hreach
  cases c with
  | packet pos => exact Or.inl ⟨pos, hframed, rfl⟩
  | subpacket frame spos => exact Or.inr (Or.inl ⟨(frame, spos), hframed, rfl⟩)
  | areaEnd frame => exact Or.inr (Or.inr ⟨frame, hframed, rfl⟩)

/-! ## The steps that go back -/

/-- A subpacket whose length leads back, and a packet whose length leads to its start or before. -/
def Backward (sig : Signature) : Ctl → Prop
  | .packet _ => False
  | .subpacket frame spos => spos < sizeT (frame.pos + frame.plen) ∧
      ∃ spos', (subpacket sig spos).result = some (.other spos') ∧ spos' ≤ spos
  | .areaEnd frame => frame.area = .unhashed ∧ frame.packetEnd ≤ frame.start

def Area.phase : Area → ℕ
  | .hashed => 1
  | .unhashed => 3

/-- How far the functions are: in which packet, in which of its parts, and where in it. -/
def progress : Ctl → ℕ ×ₗ ℕ ×ₗ ℕ
  | .packet pos => toLex (pos, toLex (0, 0))
  | .subpacket frame spos => toLex (frame.start, toLex (frame.area.phase, spos))
  | .areaEnd frame => toLex (frame.start, toLex (frame.area.phase + 1, 0))

theorem progress_lt {c c' : Ctl} (h : Step sig c c') (hforward : ¬ Backward sig c) :
    progress c < progress c' := by
  cases h with
  | @packet frame _ _ harea =>
    refine Prod.Lex.toLex_lt_toLex.mpr (Or.inr ⟨rfl, Prod.Lex.toLex_lt_toLex.mpr (Or.inl ?_)⟩)
    show 0 < frame.area.phase
    rw [harea]
    exact Nat.one_pos
  | @other frame spos spos' hspos hother =>
    have hlt : spos < spos' := by
      by_contra hle
      exact hforward ⟨hspos, spos', hother, not_lt.mp hle⟩
    exact Prod.Lex.toLex_lt_toLex.mpr (Or.inr ⟨rfl, Prod.Lex.toLex_lt_toLex.mpr
      (Or.inr ⟨rfl, hlt⟩)⟩)
  | @area frame spos =>
    exact Prod.Lex.toLex_lt_toLex.mpr (Or.inr ⟨rfl, Prod.Lex.toLex_lt_toLex.mpr
      (Or.inl (Nat.lt_succ_self frame.area.phase))⟩)
  | @hashed frame frame' harea harea' hstart _ =>
    refine Prod.Lex.toLex_lt_toLex.mpr (Or.inr ⟨hstart.symm, Prod.Lex.toLex_lt_toLex.mpr
      (Or.inl ?_)⟩)
    show frame.area.phase + 1 < frame'.area.phase
    rw [harea, harea']
    exact Nat.lt_succ_self 2
  | @unhashed frame harea =>
    have hlt : frame.start < frame.packetEnd := by
      by_contra hle
      exact hforward ⟨harea, not_lt.mp hle⟩
    exact Prod.Lex.toLex_lt_toLex.mpr (Or.inl hlt)

/-! ## The loops -/

theorem run_of_next_none {c : Ctl} {fuel : ℕ} {keys : List CString} (h : next sig c = none) :
    run sig (fuel + 1) c keys ≠ none := by
  unfold next at h
  unfold run
  match hresult : (body sig c).result with
  | none => exact Option.some_ne_none _
  | some (none, found) => exact Option.some_ne_none _
  | some (some c', found) =>
    rw [hresult] at h
    cases h

theorem run_of_next {c c' : Ctl} (keys : List CString) (h : next sig c = some c') :
    ∃ keys', ∀ fuel, run sig (fuel + 1) c keys = run sig fuel c' keys' := by
  obtain ⟨⟨c'', found⟩, hresult, hc⟩ := next_eq_some h
  obtain rfl : c'' = some c' := hc
  refine ⟨keys ++ found, fun fuel => ?_⟩
  rw [run, hresult]

/-- The machine returns if and only if its run ends. -/
theorem run_ends_iff {c : Ctl} {keys : List CString} :
    (∃ fuel, run sig fuel c keys ≠ none) ↔ Orbit.Ends (next sig) c := by
  constructor
  · rintro ⟨fuel, hfuel⟩
    induction fuel generalizing c keys with
    | zero => exact absurd rfl hfuel
    | succ fuel ih =>
      cases hnext : next sig c with
      | none => exact ⟨c, Relation.ReflTransGen.refl, hnext⟩
      | some c' =>
        obtain ⟨keys', hrun⟩ := run_of_next keys hnext
        rw [hrun fuel] at hfuel
        obtain ⟨last, hreach, hlast⟩ := ih hfuel
        exact ⟨last, Relation.ReflTransGen.head hnext hreach, hlast⟩
  · rintro ⟨last, hreach, hlast⟩
    induction hreach using Relation.ReflTransGen.head_induction_on generalizing keys with
    | refl => exact ⟨1, run_of_next_none hlast⟩
    | head hnext _ ih =>
      obtain ⟨keys', hrun⟩ := run_of_next keys hnext
      obtain ⟨fuel, hfuel⟩ := @ih keys'
      refine ⟨fuel + 1, ?_⟩
      rw [hrun fuel]
      exact hfuel

/-- The loops end if and only if no step that goes back is taken again. -/
theorem extractKeyid_ends_iff_returns (sig : Signature) (keys : List CString) :
    (∃ fuel, extractKeyid sig fuel keys ≠ none) ↔
      ¬ ∃ c c', Reaches (next sig) (.packet 0) c ∧ Backward sig c ∧ next sig c = some c' ∧
        Reaches (next sig) c' c := by
  unfold extractKeyid
  rw [run_ends_iff]
  constructor
  · rintro hends ⟨c, c', hreach, -, hnext, hback⟩
    exact Orbit.not_ends_of_returns hreach hnext hback hends
  · intro hforward
    rw [Orbit.ends_iff_of_measure progress (finite_reaches sig)]
    rintro ⟨c, c', hreach, hnext, hprogress, hback⟩
    refine hforward ⟨c, c', hreach, ?_, hnext, hback⟩
    by_contra hnot
    exact hprogress (progress_lt (step_of_next hnext) hnot)

/-- A subpacket that ends at its own position, and a packet that ends at its own start. -/
def ToItself (sig : Signature) : Ctl → Prop
  | .packet _ => False
  | .subpacket frame spos => spos < sizeT (frame.pos + frame.plen) ∧
      (subpacket sig spos).result = some (.other spos)
  | .areaEnd frame => frame.area = .unhashed ∧ frame.packetEnd = frame.start

/-- The packet that a state is in. -/
def Ctl.start : Ctl → ℕ
  | .packet pos => pos
  | .subpacket frame _ => frame.start
  | .areaEnd frame => frame.start

theorem start_of_step {c c' : Ctl} (h : Step sig c c') :
    c'.start = c.start ∨ ∃ pos, c' = .packet pos := by
  cases h with
  | packet => exact Or.inl rfl
  | other => exact Or.inl rfl
  | area => exact Or.inl rfl
  | hashed _ _ hstart _ => exact Or.inl hstart
  | unhashed _ => exact Or.inr ⟨_, rfl⟩

/-- A state is come to by way of the start of its packet. -/
theorem reaches_start {c : Ctl} (h : Reaches (next sig) (.packet 0) c) :
    Reaches (next sig) (.packet 0) (.packet c.start) ∧
      Reaches (next sig) (.packet c.start) c := by
  induction h with
  | refl => exact ⟨.refl, .refl⟩
  | @tail c c' hreach hstep ih =>
    rcases start_of_step (step_of_next hstep) with hsame | ⟨pos, rfl⟩
    · rw [hsame]
      exact ⟨ih.1, ih.2.tail hstep⟩
    · exact ⟨hreach.tail hstep, .refl⟩

/-- **The loops end** when no step back is taken, and they do not when a packet or a subpacket
ends where it starts. -/
theorem extractKeyid_ends_of_forward (sig : Signature) (keys : List CString) :
    ((∀ c, Reaches (next sig) (.packet 0) c → ¬ Backward sig c) →
      ∃ fuel, extractKeyid sig fuel keys ≠ none) ∧
    ((∃ c, Reaches (next sig) (.packet 0) c ∧ ToItself sig c) →
      ¬ ∃ fuel, extractKeyid sig fuel keys ≠ none) := by
  constructor
  · intro hforward
    refine (extractKeyid_ends_iff_returns sig keys).mpr ?_
    rintro ⟨c, -, hreach, hback, -, -⟩
    exact hforward c hreach hback
  · rintro ⟨c, hreach, hself⟩ hends
    have hends : Orbit.Ends (next sig) (.packet 0) := run_ends_iff.mp hends
    cases c with
    | packet pos => exact hself
    | subpacket frame spos =>
      -- the step from the state leads to the state itself
      obtain ⟨hlt, hother⟩ := hself
      have hnext : next sig (.subpacket frame spos) = some (.subpacket frame spos) := by
        simp [next, body, hlt, hother]
      exact Orbit.not_ends_of_returns hreach hnext .refl hends
    | areaEnd frame =>
      -- the step leads to the start of the packet, from where the state was come to
      obtain ⟨harea, hend⟩ := hself
      have hnext : next sig (.areaEnd frame) = some (.packet frame.start) := by
        simp [next, body, harea, hend]
      exact Orbit.not_ends_of_returns hreach hnext (reaches_start hreach).2 hends

/-- A packet with a subpacket of two octets in its hashed area. -/
def creationTime : Signature where
  byte i := [0x88, 13, 4, 0, 0, 0, 0, 3, 2, 2, 7, 0, 0, 0, 0].getD i 0
  len := 15
  len_lt := by decide

instance : DecidablePred (Backward sig)
  | .packet _ => isFalse id
  | .subpacket frame spos =>
    match h : (subpacket sig spos).result with
    | some (.other spos') => decidable_of_iff
        (spos < sizeT (frame.pos + frame.plen) ∧ spos' ≤ spos) (by simp [Backward, h])
    | some (.issuer _) => isFalse (by simp [Backward, h])
    | none => isFalse (by simp [Backward, h])
  | .areaEnd frame => inferInstanceAs (Decidable (frame.area = .unhashed ∧ _))

/-- A packet of length -5, which leads to its own start. -/
def packetLoop : Signature where
  byte i := [0x8A, 0xFF, 0xFF, 0xFF, 0xFB, 4, 0, 0, 0, 0, 0, 0, 0, 0].getD i 0
  len := 14
  len_lt := by decide

theorem extractKeyid_packetLoop : ¬ ∃ fuel, extractKeyid packetLoop fuel [] ≠ none := by
  let hashed : Frame := ⟨.hashed, 0, 11, 0, 2 ^ 64 - 5, 0⟩
  let unhashed : Frame := ⟨.unhashed, 0, 13, 0, 2 ^ 64 - 5, 0⟩
  have hhead : next packetLoop (.packet 0) = some (.subpacket hashed 11) := by decide +kernel
  have hhashed : next packetLoop (.subpacket hashed 11) = some (.areaEnd hashed) := by
    decide +kernel
  have hulen : next packetLoop (.areaEnd hashed) = some (.subpacket unhashed 13) := by
    decide +kernel
  have hunhashed : next packetLoop (.subpacket unhashed 13) = some (.areaEnd unhashed) := by
    decide +kernel
  have hend : next packetLoop (.areaEnd unhashed) = some (.packet 0) := by decide +kernel
  have hback : Reaches (next packetLoop) (.subpacket hashed 11) (.packet 0) :=
    .head hhashed (.head hulen (.head hunhashed (.head hend .refl)))
  have hloop : ¬ Orbit.Ends (next packetLoop) (.packet 0) :=
    Orbit.not_ends_of_returns Relation.ReflTransGen.refl hhead hback
  exact fun hends => hloop (run_ends_iff.mp hends)

/-- The run for `creationTime` visits seven states, none of which steps back; the run for
`packetLoop` comes to the end of a packet that is its start. -/
theorem extractKeyid_ends_creationTime :
    (∃ fuel, extractKeyid creationTime fuel [] ≠ none) ∧
      ¬ ∃ fuel, extractKeyid packetLoop fuel [] ≠ none := by
  let hashed : Frame := ⟨.hashed, 0, 8, 3, 13, 3⟩
  let unhashed : Frame := ⟨.unhashed, 0, 13, 0, 13, 3⟩
  let states : List Ctl := [.packet 0, .subpacket hashed 8, .subpacket hashed 11, .areaEnd hashed,
    .subpacket unhashed 13, .areaEnd unhashed, .packet 15]
  have hstates : ∀ c, Reaches (next creationTime) (.packet 0) c → c ∈ states := by
    intro c hreach
    induction hreach with
    | refl => exact List.mem_cons_self ..
    | @tail c c' _ hstep ih =>
      have hclosed : ∀ c ∈ states, ∀ c' ∈ next creationTime c, c' ∈ states := by decide +kernel
      exact hclosed c ih c' hstep
  have hforward : ∀ c ∈ states, ¬ Backward creationTime c := by decide +kernel
  refine ⟨(extractKeyid_ends_of_forward creationTime []).1 fun c hc => hforward c (hstates c hc),
    (extractKeyid_ends_of_forward packetLoop []).2 ?_⟩
  refine ⟨.areaEnd ⟨.unhashed, 0, 13, 0, 2 ^ 64 - 5, 0⟩, ?_, rfl, by decide +kernel⟩
  let loopHashed : Frame := ⟨.hashed, 0, 11, 0, 2 ^ 64 - 5, 0⟩
  let loopUnhashed : Frame := ⟨.unhashed, 0, 13, 0, 2 ^ 64 - 5, 0⟩
  have hhead : next packetLoop (.packet 0) = some (.subpacket loopHashed 11) := by decide +kernel
  have hhashed : next packetLoop (.subpacket loopHashed 11) = some (.areaEnd loopHashed) := by
    decide +kernel
  have hulen : next packetLoop (.areaEnd loopHashed) = some (.subpacket loopUnhashed 13) := by
    decide +kernel
  have hunhashed : next packetLoop (.subpacket loopUnhashed 13) = some (.areaEnd loopUnhashed) := by
    decide +kernel
  exact .head hhead (.head hhashed (.head hulen (.head hunhashed .refl)))

/-! ## The lengths that lead back -/

/-- The length of a subpacket or of a packet does not fit into 31 bits. -/
def FarLength (sig : Signature) : Ctl → Prop
  | .packet _ => False
  | .subpacket _ spos => ∃ r, (subpacketLength sig spos).result = some r ∧ 2 ^ 31 ≤ r.1
  | .areaEnd frame => 2 ^ 31 ≤ frame.blen

theorem subpacketLength_behind {r : ℕ × ℕ} (h : (subpacketLength sig pos).result = some r) :
    ∃ k, 0 < k ∧ k ≤ 5 ∧ r.2 = sizeT (pos + k) := by
  simp only [subpacketLength, result_bind, Option.bind_eq_some_iff] at h
  obtain ⟨first, -, h⟩ := h
  split_ifs at h with hone htwo
  · obtain rfl := Option.some.inj h
    exact ⟨1, Nat.one_pos, by omega, rfl⟩
  · simp only [result_bind, Option.bind_eq_some_iff] at h
    obtain ⟨-, -, slen, -, h⟩ := h
    obtain rfl := Option.some.inj h
    exact ⟨2, Nat.two_pos, by omega, rfl⟩
  · simp only [result_bind, Option.bind_eq_some_iff] at h
    obtain ⟨-, -, slen, -, h⟩ := h
    obtain rfl := Option.some.inj h
    exact ⟨5, by omega, le_rfl, rfl⟩

/-- The end of an area is not far behind the signature. -/
theorem FrameOf.areaEnd_lt {frame : Frame} {body : ℕ} (h : FrameOf sig frame body)
    (hlen : sig.len ≤ 2 ^ 63) : frame.pos + frame.plen < 2 ^ 63 + 2 ^ 18 := by
  have hbody : body < sig.len := h.lengths.2.2
  have hplen := h.plen_lt
  have hhlen := h.hlen_lt
  have hpos := h.pos_eq
  cases harea : frame.area with
  | hashed =>
    rw [harea] at hpos
    have hle : sizeT (body + 6) ≤ body + 6 := Nat.mod_le ..
    omega
  | unhashed =>
    rw [harea] at hpos
    have hle : sizeT (body + 8 + frame.hlen) ≤ body + 8 + frame.hlen := Nat.mod_le ..
    omega

/-- The end of the unhashed area leads behind the body of the packet. -/
theorem FrameOf.packetEnd_eq {frame : Frame} {body : ℕ} (h : FrameOf sig frame body)
    (harea : frame.area = .unhashed) : frame.packetEnd = sizeT (body + frame.blen) := by
  have hpos := h.pos_eq
  have hhlen := h.hlen_lt
  have hblen : frame.blen < 2 ^ 64 := h.lengths.1
  rw [harea] at hpos
  rw [Frame.packetEnd, hpos]
  unfold sizeSub sizeT
  omega

/-- A step goes back only by a length that does not fit into 31 bits. -/
theorem farLength_of_backward (hlen : sig.len ≤ 2 ^ 63) {c : Ctl} (hframed : Framed sig c)
    (hback : Backward sig c) : FarLength sig c := by
  cases c with
  | packet pos => exact hback.elim
  | subpacket frame spos =>
    obtain ⟨body, hframe⟩ := hframed.1
    obtain ⟨hlt, spos', hother, hle⟩ := hback
    obtain ⟨r, hr, hspos⟩ := subpacket_other hother
    obtain ⟨k, hk, hk5, hbehind⟩ := subpacketLength_behind hr
    have hend := hframe.areaEnd_lt hlen
    have hmod : sizeT (frame.pos + frame.plen) ≤ frame.pos + frame.plen := Nat.mod_le ..
    refine ⟨r, hr, ?_⟩
    by_contra hshort
    have hsum : spos' = spos + k + r.1 := by
      rw [hspos, hbehind, sizeT_sizeT_add]
      exact Nat.mod_eq_of_lt (by omega)
    omega
  | areaEnd frame =>
    obtain ⟨body, hframe⟩ := hframed
    obtain ⟨-, hstart, hbody⟩ : frame.blen < 2 ^ 64 ∧ frame.start < body ∧ body < sig.len :=
      hframe.lengths
    show 2 ^ 31 ≤ frame.blen
    by_contra hshort
    have hend : frame.packetEnd = body + frame.blen := by
      rw [hframe.packetEnd_eq hback.1]
      exact Nat.mod_eq_of_lt (by omega)
    have hle := hback.2
    omega

/-- The loops end when all lengths fit into 31 bits. -/
theorem extractKeyid_ends_of_lengths (hlen : sig.len ≤ 2 ^ 63)
    (hlengths : ∀ c, Reaches (next sig) (.packet 0) c → ¬ FarLength sig c)
    (keys : List CString) : ∃ fuel, extractKeyid sig fuel keys ≠ none := by
  unfold extractKeyid
  rw [run_ends_iff, Orbit.ends_iff_of_measure progress (finite_reaches sig)]
  rintro ⟨c, c', hreach, hnext, hprogress, -⟩
  refine hprogress (progress_lt (step_of_next hnext) fun hback => ?_)
  exact hlengths c hreach (farLength_of_backward hlen (framed_of_reaches hreach) hback)

end Alpm.Keyid
