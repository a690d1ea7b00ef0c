import Alpm.CString

/-!
# Version comparison

`version.c`: `parseEVR` splits `[epoch:]version[-release]`, `rpmvercmp` compares two versions
segment by segment, and `alpm_pkg_vercmp` compares the three parts in turn, the releases only if
both versions have one.

The C loop of `rpmvercmp` keeps four pointers into two buffers, which it cuts with NULs and mends
again.  At the head of the loop `ptr1 = one` and `ptr2 = two`, so the two suffixes at `one` and
`two` are its whole state, and the number of separators that were skipped is the difference of two
lengths.  The loop is a recursion on the two suffixes; it is left where one of them has no segment,
and `finalShowdown` decides there.

This file has the functions only.  What kind of order they compute is the subject of the next three:
`Alpm.Version.Segments` says which words are compared, `Alpm.Version.Transitivity` where the
comparison is no order, and `Alpm.Version.Reference` with what it agrees.
-/

namespace Alpm

/-- The three parts that `parseEVR` finds. -/
structure EVR where
  epoch : CString
  version : CString
  release : Option CString
  deriving DecidableEq, Repr

/-- `parseEVR`.  The last hyphen is searched after the leading digits; a colon there
ends an epoch, and an empty epoch is `"0"`. -/
def parseEVR (evr : CString) : EVR :=
  let digits := evr.takeWhile isdigit
  let s := evr.dropWhile isdigit
  let se := strrchr s '-'
  -- what is left of `s` once the hyphen has been overwritten by NUL
  let s' := match se with
    | some (before, _) => before
    | none => s
  let release := se.map Prod.snd
  if deref s = ':' then
    ⟨if digits = [] then ['0'] else digits, s'.tail, release⟩
  else
    ⟨['0'], digits ++ s', release⟩

/-- The end of `rpmvercmp`, after the loop: "we never want a remaining alpha string to
beat an empty string". -/
def finalShowdown (one two : CString) : Int :=
  if one = [] ∧ two = [] then 0
  else if (one = [] ∧ !isalpha (deref two)) ∨ isalpha (deref one) then -1
  else 1

/-- The class of the segment that starts with `c`: digits or letters. -/
def segmentClass (c : Char) : Char → Bool := if isdigit c then isdigit else isalpha

/-- The loop of `rpmvercmp`. -/
def rpmvercmpLoop (one two : CString) : Int :=
  if one = [] ∨ two = [] then finalShowdown one two
  else
    let one' := one.dropWhile (!isalnum ·)
    let two' := two.dropWhile (!isalnum ·)
    if one' = [] ∨ two' = [] then finalShowdown one' two'
    else
      let sep1 := one.length - one'.length
      let sep2 := two.length - two'.length
      if sep1 ≠ sep2 then (if sep1 < sep2 then -1 else 1)
      else
        let isnum := isdigit (deref one')
        let inSegment := segmentClass (deref one')
        let seg1 := one'.takeWhile inSegment
        let seg2 := two'.takeWhile inSegment
        if hseg : seg1 = [] then -1
        else if seg2 = [] then (if isnum then 1 else -1)
        else
          -- throw away any leading zeros of a number
          let num1 := if isnum then seg1.dropWhile (· = '0') else seg1
          let num2 := if isnum then seg2.dropWhile (· = '0') else seg2
          if isnum ∧ num1.length > num2.length then 1
          else if isnum ∧ num2.length > num1.length then -1
          else
            let rc := strcmp num1 num2
            if rc ≠ 0 then (if rc < 1 then -1 else 1)
            else rpmvercmpLoop (one'.dropWhile inSegment) (two'.dropWhile inSegment)
termination_by one.length
decreasing_by
  have h₁ := (List.dropWhile_suffix (l := one) (!isalnum ·)).length_le
  have h₂ := congrArg List.length
    (List.takeWhile_append_dropWhile (p := inSegment) (l := one'))
  have h₃ := List.length_pos_iff.mpr hseg
  rw [List.length_append] at h₂
  simp only [seg1, one', inSegment] at h₂ h₃ ⊢
  omega

/-- `rpmvercmp`. -/
def rpmvercmp (a b : CString) : Int :=
  if strcmp a b = 0 then 0 else rpmvercmpLoop a b

/-- `alpm_pkg_vercmp` on two versions that are not `NULL`: the epochs decide, then the versions, and
then the releases if both have one. -/
def pkgVercmp (a b : CString) : Int :=
  if strcmp a b = 0 then 0
  else
    let e1 := parseEVR a
    let e2 := parseEVR b
    let ret := rpmvercmp e1.epoch e2.epoch
    if ret ≠ 0 then ret
    else
      let ret := rpmvercmp e1.version e2.version
      if ret ≠ 0 then ret
      else match e1.release, e2.release with
        | some rel1, some rel2 => rpmvercmp rel1 rel2
        | _, _ => ret

end Alpm
