import Alpm.Package

/-!
# Validating a package file

`_alpm_pkg_validate_internal`, with the signature check of `signing.c` below it.  What the system,
the checksum routines and gpgme answer are arguments, so a statement about all answers is one about
everything that they can report.

## 1.  What a successful validation should mean

`Gate` says it, in two halves.  If the signature bit of `*validation` is new, signatures were found
and the level accepts every one of them; and a checksum that the record has was compared with the
file and matched, unless there were such signatures.

## 2.  The slip

Whether checksums can be skipped is decided by the mere presence of a signature, in the record or
next to the file.  With an optional signature level a check that finds no signature at all counts as
success, and then the file passes as signed although nothing vouches for it (`Slips`).
`pkgValidate_slips` is a run of this kind in which every call succeeds, and gpgme verifies the file
and lists no signature.

`pkgValidate_gate` says that nothing else goes wrong: for all answers, a file that passes does so
with what the gate asks for, if and only if it does not slip.

The three layers of functions have one lemma each about what is left when they succeed
(`gpgmeChecksig_cases`, `checkPgpHelper_ret_zero`, `pkgValidateInternal_ret_zero`), and the result
is read off the last of them.
-/

namespace Alpm

/-! ## What gpgme reports -/

/-- The code of a `gpgme_error_t`. -/
inductive GpgErr where
  | noError
  | keyExpired
  | sigExpired
  | noPubkey
  | badSignature
  | eof
  | other (code : ℕ)
  deriving DecidableEq, Repr

/-- `gpgme_validity_t`. -/
inductive GpgValidity where
  | unknown
  | undefined
  | never
  | marginal
  | full
  | ultimate
  deriving DecidableEq, Repr

/-- `gpgme_user_id_t`. -/
structure GpgUid where
  uid : CString
  name : CString
  email : CString
  deriving DecidableEq, Repr

/-- `gpgme_key_t`, with the first of its subkeys and of its user ids. -/
structure GpgKey where
  fpr : CString
  timestamp : Int
  expires : Int
  uids : Option GpgUid
  disabled : Bool
  deriving DecidableEq, Repr

/-- `gpgme_signature_t`, with the answer of `gpgme_get_key` for its fingerprint and whether
the fingerprint can be copied. -/
structure GpgSignature where
  fpr : CString
  status : GpgErr
  validity : GpgValidity
  getKey : GpgErr × GpgKey
  strdup : Bool
  deriving DecidableEq, Repr

/-- `alpm_sigstatus_t`. -/
inductive SigStatus where
  | valid
  | keyExpired
  | sigExpired
  | keyUnknown
  | keyDisabled
  | invalid
  deriving DecidableEq, Repr

/-- `alpm_sigvalidity_t`. -/
inductive SigValidity where
  | full
  | marginal
  | never
  | unknown
  deriving DecidableEq, Repr

/-- `alpm_pgpkey_t`; `data` says whether the pointer is set. -/
structure PgpKey where
  data : Bool := false
  fingerprint : Option CString := none
  uid : Option CString := none
  name : Option CString := none
  email : Option CString := none
  created : Int := 0
  expires : Int := 0
  deriving DecidableEq, Repr

/-- `alpm_sigresult_t`; the defaults are what `calloc` leaves. -/
structure SigResult where
  key : PgpKey := {}
  status : SigStatus := .valid
  validity : SigValidity := .full
  deriving DecidableEq, Repr

/-- What the calls in `_alpm_check_pgp_helper` and `_alpm_gpgme_checksig` answer. -/
structure CheckEnv where
  /-- built with gpgme -/
  haveLibgpgme : Bool
  siglistAlloc : Bool
  /-- the file can be read -/
  pathAccess : Bool
  /-- the signature file next to it can be read and opened -/
  sigfileOpens : Bool
  fileOpens : Bool
  /-- the keyring files can be read, or gpgme has been set up before -/
  keyringFound : Bool
  initGpgme : Bool
  gpgmeNew : GpgErr
  filedata : GpgErr
  decodeSignature : Bool
  sigdata : GpgErr
  opVerify : GpgErr
  /-- `verify_result->signatures`, or no result -/
  signatures : Option (List GpgSignature)
  resultsAlloc : Bool

/-! ## `_alpm_gpgme_checksig` -/

/-- The status of a signature by its gpgme status. -/
def sigStatus : GpgErr → SigStatus
  | .noError => .valid
  | .keyExpired => .keyExpired
  | .sigExpired => .sigExpired
  | .noPubkey => .keyUnknown
  | _ => .invalid

/-- The validity of a signature by its gpgme validity. -/
def sigValidity : GpgValidity → SigValidity
  | .ultimate | .full => .full
  | .marginal => .marginal
  | .never => .never
  | .unknown | .undefined => .unknown

/-- One round of the loop that fills in the results.  A key that is not in the keyring leaves its
fingerprint only, and a key that is disabled overrides the status of the signature. -/
def sigResult (gpgsig : GpgSignature) : Except Errno SigResult :=
  match gpgsig.getKey.1 with
  | .eof =>
    -- unknown key
    if gpgsig.strdup then
      .ok { key := { fingerprint := some gpgsig.fpr }
            status := sigStatus gpgsig.status
            validity := sigValidity gpgsig.validity }
    else .error .memory
  | .noError =>
    let gpgkey := gpgsig.getKey.2
    let key : PgpKey := match gpgkey.uids with
      | some uid =>
        { data := true
          fingerprint := some gpgkey.fpr
          uid := some uid.uid
          name := some uid.name
          email := some uid.email
          created := gpgkey.timestamp
          expires := gpgkey.expires }
      | none => {}
    .ok { key
          status := if key.data ∧ gpgkey.disabled then .keyDisabled else sigStatus gpgsig.status
          validity := sigValidity gpgsig.validity }
  | _ => .error .gpgme

/-- The loop that fills in the results: the results, and the error that ended it. -/
def fillResults : List GpgSignature → List SigResult × Option Errno
  | [] => ([], none)
  | gpgsig :: rest =>
    match sigResult gpgsig with
    | .error err => (List.replicate (rest.length + 1) {}, some err)
    | .ok result => ((result :: (fillResults rest).1), (fillResults rest).2)

/-- A return value, `pm_errno` if it was set, and `siglist->results`. -/
structure Checked where
  ret : Int
  pmErrno : Option Errno
  results : List SigResult
  deriving DecidableEq, Repr

/-- `_alpm_gpgme_checksig` up to the verification: the error that ends it.  Which of the errors it
is matters, since one of them counts as the absence of a signature. -/
def checksigSetup (env : CheckEnv) (base64Sig : Option CString) : Option Errno :=
  if !env.haveLibgpgme then some .missingCapabilitySignatures
  else if !env.pathAccess then some .notAFile
  else if base64Sig.isNone ∧ !env.sigfileOpens then some .sigMissing
  else if !env.fileOpens then some .notAFile
  else if !env.initGpgme then some .gpgme
  else if env.gpgmeNew ≠ .noError ∨ env.filedata ≠ .noError then some .gpgme
  else if base64Sig.isSome ∧ !env.decodeSignature then some .sigInvalid
  else if env.sigdata ≠ .noError ∨ env.opVerify ≠ .noError then some .gpgme
  else none

/-- `_alpm_gpgme_checksig`.  That gpgme verifies the file and reports no signatures is the same
error as that the signature file cannot be opened. -/
def gpgmeChecksig (env : CheckEnv) (base64Sig : Option CString) : Checked :=
  match checksigSetup env base64Sig with
  | some err => ⟨-1, some err, []⟩
  | none =>
    match env.signatures with
    | none | some [] => ⟨-1, some .sigMissing, []⟩
    | some gpgsigs =>
      if !env.resultsAlloc then ⟨-1, some .memory, []⟩
      else match fillResults gpgsigs with
        | (results, some err) => ⟨-1, some err, results⟩
        | (results, none) => ⟨0, if env.keyringFound then none else some .notAFile, results⟩

/-! ## `_alpm_check_pgp_helper` -/

/-- The test of one result in `_alpm_check_pgp_helper`: the status has to be valid, but for a key
that has expired, and the validity one that the level allows. -/
def sigAccepted (marginal unknown : Bool) (result : SigResult) : Bool :=
  match result.status with
  | .valid | .keyExpired =>
    match result.validity with
    | .full => true
    | .marginal => marginal
    | .unknown => unknown
    | .never => false
  | .sigExpired | .keyUnknown | .keyDisabled | .invalid => false

/-- The loop over the results; it stops at the first that is not accepted. -/
def checkResults (marginal unknown : Bool) : List SigResult → Int
  | [] => 0
  | result :: results =>
    if sigAccepted marginal unknown result then checkResults marginal unknown results else -1

/-- `_alpm_check_pgp_helper`.  If signatures are optional a missing one is no error; any other error
of the check is one. -/
def checkPgpHelper (env : CheckEnv) (base64Sig : Option CString)
    (optional marginal unknown : Bool) : Checked :=
  if !env.siglistAlloc then ⟨-1, some .memory, []⟩
  else
    let checked := gpgmeChecksig env base64Sig
    if checked.ret ≠ 0 ∧ checked.pmErrno = some .sigMissing then
      if optional then ⟨0, some .ok, checked.results⟩ else checked
    else if checked.ret ≠ 0 then checked
    else { checked with ret := checkResults marginal unknown checked.results }

/-! ## `_alpm_pkg_validate_internal` -/

/-- The bits of `alpm_siglevel_t` for packages. -/
structure SigLevel where
  package : Bool
  packageOptional : Bool
  packageMarginalOk : Bool
  packageUnknownOk : Bool
  deriving DecidableEq, Repr

/-- `alpm_pkgvalidation_t`. -/
def validationNone : ℕ := 1

def validationMd5sum : ℕ := 2

def validationSha256sum : ℕ := 4

def validationSignature : ℕ := 8

/-- The answer of `_alpm_access` on the package file. -/
inductive Access where
  | ok
  | enoent
  | eacces
  | other
  deriving DecidableEq, Repr

/-- What the calls in `_alpm_pkg_validate_internal` answer. -/
structure ValidateEnv where
  access : Access
  /-- there is a signature file next to the package file that can be read -/
  sigpathAccess : Bool
  /-- `_alpm_test_checksum` by its type and the expected checksum -/
  testChecksum : ℕ → CString → Int
  check : CheckEnv

/-- What `_alpm_pkg_validate_internal` returns and leaves.  `compared` records the calls of
`_alpm_test_checksum` and `results` the result of the signature check; both are there for
the statements only. -/
structure Validated where
  ret : Int
  pmErrno : Errno
  validation : Option ℕ
  compared : List (ℕ × CString)
  results : List SigResult
  deriving DecidableEq, Repr

/-- `if(validation) *validation |= bit`. -/
def orValidation (validation : Option ℕ) (bit : ℕ) : Option ℕ := validation.map (· ||| bit)

/-- The comparison of the checksums of the record: the type and the checksum that is
compared. -/
def checksumOf (syncpkg : Pkg) : Option (ℕ × CString) :=
  match syncpkg.sha256sum, syncpkg.md5sum with
  | some sha256sum, _ => some (validationSha256sum, sha256sum)
  | none, some md5sum => some (validationMd5sum, md5sum)
  | none, none => none

/-- Whether checksums might be skipped: a signature is there. -/
def hasSig (env : ValidateEnv) (syncpkg : Option Pkg) (level : SigLevel) : Bool :=
  level.package && ((syncpkg.bind Pkg.base64Sig).isSome || env.sigpathAccess)

/-- The checksum part of `_alpm_pkg_validate_internal`: `*validation` and the comparison, or
`none` if the checksum does not match. -/
def validateChecksum (env : ValidateEnv) (syncpkg : Option Pkg) (level : SigLevel)
    (validation : Option ℕ) : Option (Option ℕ × List (ℕ × CString)) :=
  match syncpkg with
  | none => some (validation, [])
  | some pkg =>
    if hasSig env syncpkg level ∧ pkg.base64Sig.isSome then some (validation, [])
    else match checksumOf pkg with
      | none => some (validation, [])
      | some (type, expected) =>
        if env.testChecksum type expected ≠ 0 then none
        else some (orValidation validation type, [(type, expected)])

/-- `_alpm_pkg_validate_internal`.  A checksum of the record is compared unless a signature will be
looked at; the signature is checked if the level asks for it, and a missing one is an error unless
it is optional. -/
def pkgValidateInternal (env : ValidateEnv) (pkgfile : Option CString) (syncpkg : Option Pkg)
    (level : SigLevel) (validation : Option ℕ) : Validated :=
  if pkgfile.getD [] = [] then ⟨-1, .wrongArgs, validation, [], []⟩
  else match env.access with
    | .enoent => ⟨-1, .pkgNotFound, validation, [], []⟩
    | .eacces => ⟨-1, .badperms, validation, [], []⟩
    | .other => ⟨-1, .pkgOpen, validation, [], []⟩
    | .ok =>
      match validateChecksum env syncpkg level validation with
      | none => ⟨-1, .pkgInvalidChecksum, validation, [], []⟩
      | some (validation, compared) =>
        -- even if we don't have a sig, run the check code if level tells us to
        if level.package then
          if !hasSig env syncpkg level ∧ !level.packageOptional then
            ⟨-1, .pkgMissingSig, validation, compared, []⟩
          else
            let checked := checkPgpHelper env.check (syncpkg.bind Pkg.base64Sig)
              level.packageOptional level.packageMarginalOk level.packageUnknownOk
            if checked.ret ≠ 0 then ⟨-1, .pkgInvalidSig, validation, compared, checked.results⟩
            else
              let validation := if hasSig env syncpkg level
                then orValidation validation validationSignature else validation
              ⟨0, checked.pmErrno.getD .ok,
                validation.map fun v => if v = 0 then validationNone else v,
                compared, checked.results⟩
        else
          ⟨0, .ok, validation.map fun v => if v = 0 then validationNone else v, compared, []⟩

/-! ## When the signature check succeeds -/

/-- The result is one that the level accepts. -/
def Accepted (marginal unknown : Bool) (result : SigResult) : Prop :=
  (result.status = .valid ∨ result.status = .keyExpired) ∧
    (result.validity = .full ∨ result.validity = .marginal ∧ marginal ∨
      result.validity = .unknown ∧ unknown)

theorem sigAccepted_iff {marginal unknown : Bool} {result : SigResult} :
    sigAccepted marginal unknown result ↔ Accepted marginal unknown result := by
  obtain ⟨key, status, validity⟩ := result
  cases status <;> cases validity <;> simp [sigAccepted, Accepted]

theorem checkResults_eq_zero {marginal unknown : Bool} {results : List SigResult} :
    checkResults marginal unknown results = 0 ↔
      ∀ result ∈ results, Accepted marginal unknown result := by
  induction results with
  | nil => simp [checkResults]
  | cons result results ih =>
    rw [checkResults, List.forall_mem_cons, ← ih, ← sigAccepted_iff]
    split_ifs with h
    · simp [h]
    · simp [h]

theorem length_fillResults (gpgsigs : List GpgSignature) :
    (fillResults gpgsigs).1.length = gpgsigs.length := by
  induction gpgsigs with
  | nil => rfl
  | cons gpgsig rest ih =>
    rw [fillResults]
    cases sigResult gpgsig with
    | error err => simp
    | ok result => simp [ih]

theorem fillResults_error {gpgsigs : List GpgSignature} {err : Errno}
    (h : (fillResults gpgsigs).2 = some err) : err = .memory ∨ err = .gpgme := by
  induction gpgsigs with
  | nil => simp [fillResults] at h
  | cons gpgsig rest ih =>
    rw [fillResults] at h
    cases hresult : sigResult gpgsig with
    | ok result => exact ih (by simpa [hresult] using h)
    | error err' =>
      obtain rfl : err' = err := by simpa [hresult] using h
      unfold sigResult at hresult
      split at hresult
      · split_ifs at hresult
        exact Or.inl (Except.error.inj hresult).symm
      · simp at hresult
      · exact Or.inr (Except.error.inj hresult).symm

/-- The signature file cannot be opened. -/
def SigfileMissing (env : CheckEnv) (base64Sig : Option CString) : Prop :=
  env.haveLibgpgme ∧ env.pathAccess ∧ base64Sig = none ∧ env.sigfileOpens = false

/-- gpgme verifies the file. -/
def Verifies (env : CheckEnv) (base64Sig : Option CString) : Prop :=
  env.haveLibgpgme ∧ env.pathAccess ∧ (base64Sig = none → env.sigfileOpens) ∧ env.fileOpens ∧
    env.initGpgme ∧ env.gpgmeNew = .noError ∧ env.filedata = .noError ∧
    (base64Sig ≠ none → env.decodeSignature) ∧ env.sigdata = .noError ∧ env.opVerify = .noError

/-- The check finds no signature: the signature file cannot be opened, or gpgme verifies the
file and reports no signatures. -/
def NoSignature (env : CheckEnv) (base64Sig : Option CString) : Prop :=
  SigfileMissing env base64Sig ∨
    Verifies env base64Sig ∧ (env.signatures = none ∨ env.signatures = some [])

theorem checksigSetup_eq_sigMissing {env : CheckEnv} {base64Sig : Option CString} :
    checksigSetup env base64Sig = some .sigMissing ↔ SigfileMissing env base64Sig := by
  unfold checksigSetup SigfileMissing
  split_ifs with h₁ h₂ h₃ <;> simp_all

theorem checksigSetup_eq_none {env : CheckEnv} {base64Sig : Option CString} :
    checksigSetup env base64Sig = none ↔ Verifies env base64Sig := by
  have hite : ∀ (p : Prop) [Decidable p] (err : Errno) (x : Option Errno),
      (if p then some err else x) = none ↔ ¬ p ∧ x = none := by
    intro p _ err x
    split_ifs with hp <;> simp [hp]
  unfold checksigSetup Verifies
  simp only [hite]
  cases base64Sig <;> simp <;> tauto

/-- The outcomes of `_alpm_gpgme_checksig`. -/
theorem gpgmeChecksig_cases {env : CheckEnv} {base64Sig : Option CString} {checked : Checked}
    (h : gpgmeChecksig env base64Sig = checked) :
    (NoSignature env base64Sig ∧ checked = ⟨-1, some .sigMissing, []⟩) ∨
      ¬ NoSignature env base64Sig ∧ ((checked.ret = 0 ∧ checked.results ≠ []) ∨
        (checked.ret = -1 ∧ checked.pmErrno ≠ some .sigMissing)) := by
  unfold gpgmeChecksig at h
  unfold NoSignature
  cases hsetup : checksigSetup env base64Sig with
  | some err =>
    have hverifies : ¬ Verifies env base64Sig := by simp [← checksigSetup_eq_none, hsetup]
    rw [hsetup] at h
    by_cases herr : err = .sigMissing
    · exact Or.inl ⟨Or.inl (checksigSetup_eq_sigMissing.mp (herr ▸ hsetup)), herr ▸ h.symm⟩
    · have hmissing : ¬ SigfileMissing env base64Sig := by
        simp [← checksigSetup_eq_sigMissing, hsetup, herr]
      exact Or.inr ⟨by tauto, Or.inr (by simp [← h, herr])⟩
  | none =>
    have hverifies := checksigSetup_eq_none.mp hsetup
    have hmissing : ¬ SigfileMissing env base64Sig := by
      simp [← checksigSetup_eq_sigMissing, hsetup]
    simp only [hsetup] at h
    match hsigs : env.signatures with
    | none => exact Or.inl ⟨Or.inr ⟨hverifies, Or.inl rfl⟩, by simpa [hsigs] using h.symm⟩
    | some [] => exact Or.inl ⟨Or.inr ⟨hverifies, Or.inr rfl⟩, by simpa [hsigs] using h.symm⟩
    | some (gpgsig :: gpgsigs) =>
      right
      refine ⟨by simp [hmissing], ?_⟩
      simp only [hsigs] at h
      have hlength := length_fillResults (gpgsig :: gpgsigs)
      have herror := @fillResults_error (gpgsig :: gpgsigs)
      by_cases halloc : env.resultsAlloc
      · rcases hfill : fillResults (gpgsig :: gpgsigs) with ⟨results, _ | err⟩
        · simp only [hfill, halloc] at h hlength
          refine Or.inl ⟨by simp [← h], ?_⟩
          have hne : results ≠ [] := List.ne_nil_of_length_pos (by simp [hlength])
          simpa [← h] using hne
        · simp only [hfill, halloc] at h herror
          refine Or.inr ⟨by simp [← h], ?_⟩
          rcases herror rfl with rfl | rfl <;> simp [← h]
      · exact Or.inr (by simp [← h, halloc])

/-- **`_alpm_check_pgp_helper`** succeeds on accepted signatures, and on none at all if signatures
are optional.  The loop over the results refuses the first one that is not accepted, and it accepts
an empty list. -/
theorem checkPgpHelper_ret_zero {env : CheckEnv} {base64Sig : Option CString}
    {optional marginal unknown : Bool} {checked : Checked}
    (h : checkPgpHelper env base64Sig optional marginal unknown = checked)
    (hret : checked.ret = 0) :
    env.siglistAlloc ∧ ((optional ∧ NoSignature env base64Sig ∧ checked.results = []) ∨
      (checked.results ≠ [] ∧
        ∀ result ∈ checked.results, Accepted marginal unknown result)) := by
  unfold checkPgpHelper at h
  by_cases halloc : env.siglistAlloc
  · refine ⟨halloc, ?_⟩
    rcases @gpgmeChecksig_cases env base64Sig _ rfl with
      ⟨hno, hchecked⟩ | ⟨-, ⟨hzero, hne⟩ | ⟨hone, herr⟩⟩
    · simp only [halloc, hchecked] at h
      by_cases hoptional : optional
      · exact Or.inl ⟨hoptional, hno, by simp [← h, hoptional]⟩
      · rw [← h] at hret
        simp [hoptional] at hret
    · simp only [halloc, hzero] at h
      rw [← h] at hret ⊢
      exact Or.inr ⟨hne, checkResults_eq_zero.mp hret⟩
    · simp only [halloc, hone, herr] at h
      rw [← h] at hret
      simp [hone] at hret
  · rw [← h] at hret
    simp [halloc] at hret

theorem checkPgpHelper_of_noSignature {env : CheckEnv} {base64Sig : Option CString}
    {marginal unknown : Bool} (halloc : env.siglistAlloc) (hno : NoSignature env base64Sig) :
    checkPgpHelper env base64Sig true marginal unknown = ⟨0, some .ok, []⟩ := by
  rcases @gpgmeChecksig_cases env base64Sig _ rfl with
    ⟨-, hchecked⟩ | ⟨hsome, -⟩
  · simp [checkPgpHelper, halloc, hchecked]
  · exact absurd hno hsome

/-! ## When the validation succeeds -/

/-- The signature bit of `*validation`. -/
def SignatureBit (validation : Option ℕ) : Prop := ∃ v, validation = some v ∧ v.testBit 3

/-- `if(validation && !*validation) *validation = ALPM_PKG_VALIDATION_NONE`. -/
theorem signatureBit_none {validation : Option ℕ} :
    SignatureBit (validation.map fun v => if v = 0 then validationNone else v) ↔
      SignatureBit validation := by
  unfold SignatureBit
  cases validation with
  | none => simp
  | some v =>
    have hone : Nat.testBit 1 3 = false := by decide
    by_cases hv : v = 0
    · simp [hv, validationNone, hone]
    · simp [hv]

theorem signatureBit_or_signature {validation : Option ℕ} :
    SignatureBit (orValidation validation validationSignature) ↔ validation.isSome := by
  have hbit : Nat.testBit 8 3 = true := by decide
  cases validation <;> simp [SignatureBit, orValidation, validationSignature, Nat.testBit_or, hbit]

/-- The checksum bits are not the signature bit. -/
theorem signatureBit_or_checksum {pkg : Pkg} {type : ℕ} {expected : CString}
    (h : checksumOf pkg = some (type, expected)) {validation : Option ℕ} :
    SignatureBit (orValidation validation type) ↔ SignatureBit validation := by
  have htype : type.testBit 3 = false := by
    unfold checksumOf at h
    split at h
    · obtain ⟨rfl, -⟩ : validationSha256sum = type ∧ _ := by simpa using h
      decide
    · obtain ⟨rfl, -⟩ : validationMd5sum = type ∧ _ := by simpa using h
      decide
    · simp at h
  cases validation <;> simp [SignatureBit, orValidation, Nat.testBit_or, htype]

/-- A signature is there: in the record or next to the file. -/
def SignaturePresent (env : ValidateEnv) (syncpkg : Option Pkg) : Prop :=
  syncpkg.bind Pkg.base64Sig ≠ none ∨ env.sigpathAccess

theorem hasSig_iff {env : ValidateEnv} {syncpkg : Option Pkg} {level : SigLevel} :
    hasSig env syncpkg level ↔ level.package ∧ SignaturePresent env syncpkg := by
  simp [hasSig, SignaturePresent, Option.isSome_iff_ne_none]

/-- What a checksum comparison that does not fail leaves. -/
theorem validateChecksum_eq_some {env : ValidateEnv} {syncpkg : Option Pkg} {level : SigLevel}
    {validation validation' : Option ℕ} {compared : List (ℕ × CString)}
    (h : validateChecksum env syncpkg level validation = some (validation', compared)) :
    (SignatureBit validation' ↔ SignatureBit validation) ∧
      validation'.isSome = validation.isSome ∧ ∀ pkg ∈ syncpkg, ∀ c ∈ checksumOf pkg,
        (level.package ∧ pkg.base64Sig ≠ none) ∨
        c ∈ compared ∧ env.testChecksum c.1 c.2 = 0 := by
  unfold validateChecksum at h
  cases syncpkg with
  | none =>
    obtain ⟨rfl, -⟩ : validation = validation' ∧ _ := by simpa using h
    simp
  | some pkg =>
    by_cases hskip : hasSig env (some pkg) level ∧ pkg.base64Sig.isSome
    · obtain ⟨rfl, -⟩ : validation = validation' ∧ _ := by simpa [hskip] using h
      have hbase64 : pkg.base64Sig ≠ none := Option.isSome_iff_ne_none.mp hskip.2
      simp [hbase64, (hasSig_iff.mp hskip.1).1]
    · simp only [if_neg hskip] at h
      rcases hsum : checksumOf pkg with _ | ⟨type, expected⟩
      · obtain ⟨rfl, -⟩ : validation = validation' ∧ _ := by simpa [hsum] using h
        simp [hsum]
      · by_cases htest : env.testChecksum type expected = 0
        · obtain ⟨rfl, rfl⟩ :
              orValidation validation type = validation' ∧ [(type, expected)] = compared := by
            simpa [hsum, htest] using h
          exact ⟨signatureBit_or_checksum hsum, by simp [orValidation], by simp [hsum, htest]⟩
        · simp [hsum, htest] at h

/-- Every comparison that would be made succeeds. -/
def ChecksumsMatch (env : ValidateEnv) (syncpkg : Option Pkg) : Prop :=
  ∀ pkg ∈ syncpkg, pkg.base64Sig = none → ∀ c ∈ checksumOf pkg, env.testChecksum c.1 c.2 = 0

theorem validateChecksum_of_match {env : ValidateEnv} {syncpkg : Option Pkg} {level : SigLevel}
    (hpackage : level.package) (hmatch : ChecksumsMatch env syncpkg) (validation : Option ℕ) :
    ∃ validation' compared,
      validateChecksum env syncpkg level validation = some (validation', compared) ∧
      validation'.isSome = validation.isSome ∧
      (syncpkg.bind Pkg.base64Sig ≠ none → compared = []) := by
  unfold validateChecksum
  cases syncpkg with
  | none => exact ⟨validation, [], rfl, rfl, fun _ => rfl⟩
  | some pkg =>
    by_cases hbase64 : pkg.base64Sig = none
    · rcases hsum : checksumOf pkg with _ | ⟨type, expected⟩
      · exact ⟨validation, [], by simp [hbase64, hsum], rfl, fun _ => rfl⟩
      · have htest : env.testChecksum type expected = 0 :=
          hmatch pkg rfl hbase64 (type, expected) (by simp [hsum])
        exact ⟨orValidation validation type, [(type, expected)], by simp [hbase64, hsum, htest],
          by simp [orValidation], fun h => absurd hbase64 h⟩
    · have hskip : hasSig env (some pkg) level ∧ pkg.base64Sig.isSome :=
        ⟨hasSig_iff.mpr ⟨hpackage, Or.inl hbase64⟩, Option.isSome_iff_ne_none.mpr hbase64⟩
      exact ⟨validation, [], by simp [hskip], rfl, fun _ => rfl⟩

/-- What is left when the validation succeeds. -/
theorem pkgValidateInternal_ret_zero {env : ValidateEnv} {pkgfile : Option CString}
    {syncpkg : Option Pkg} {level : SigLevel} {validation : Option ℕ} {r : Validated}
    (h : pkgValidateInternal env pkgfile syncpkg level validation = r) (hret : r.ret = 0) :
    pkgfile.getD [] ≠ [] ∧ env.access = .ok ∧ ∃ validation',
      validateChecksum env syncpkg level validation = some (validation', r.compared) ∧
      ((level.package = false ∧ (SignatureBit r.validation ↔ SignatureBit validation')) ∨
        (level.package ∧ (∃ checked, checkPgpHelper env.check (syncpkg.bind Pkg.base64Sig)
            level.packageOptional level.packageMarginalOk level.packageUnknownOk = checked ∧
            checked.ret = 0 ∧ checked.results = r.results) ∧
          (SignatureBit r.validation ↔ SignatureBit validation' ∨
            SignaturePresent env syncpkg ∧ validation'.isSome))) := by
  unfold pkgValidateInternal at h
  by_cases hfile : pkgfile.getD [] = []
  · simp [← h, hfile] at hret
  refine ⟨hfile, ?_⟩
  simp only [if_neg hfile] at h
  cases haccess : env.access with
  | enoent => simp [← h, haccess] at hret
  | eacces => simp [← h, haccess] at hret
  | other => simp [← h, haccess] at hret
  | ok =>
    refine ⟨rfl, ?_⟩
    rcases hsum : validateChecksum env syncpkg level validation with _ | ⟨validation', compared⟩
    · simp [← h, haccess, hsum] at hret
    simp only [haccess, hsum] at h
    by_cases hpackage : level.package
    · by_cases hmissing : !hasSig env syncpkg level ∧ !level.packageOptional
      · simp [← h, hpackage, hmissing] at hret
      simp only [hpackage, if_true, if_neg hmissing] at h
      by_cases hchecked : (checkPgpHelper env.check (syncpkg.bind Pkg.base64Sig)
          level.packageOptional level.packageMarginalOk level.packageUnknownOk).ret = 0
      · simp only [hchecked, ne_eq, not_true_eq_false, if_false] at h
        refine ⟨validation', by simp [← h],
          Or.inr ⟨hpackage, ⟨_, rfl, hchecked, by simp [← h]⟩, ?_⟩⟩
        rw [← h]
        show SignatureBit (Option.map _ _) ↔ _
        rw [signatureBit_none]
        by_cases hsig : hasSig env syncpkg level
        · have hpresent := (hasSig_iff.mp hsig).2
          rw [if_pos hsig, signatureBit_or_signature]
          refine ⟨fun hsome => Or.inr ⟨hpresent, hsome⟩, ?_⟩
          rintro (⟨v, rfl, -⟩ | ⟨-, hsome⟩)
          · rfl
          · exact hsome
        · have hpresent : ¬ SignaturePresent env syncpkg := by
            intro hpresent
            exact hsig (hasSig_iff.mpr ⟨hpackage, hpresent⟩)
          rw [if_neg hsig]
          simp [hpresent]
      · simp [← h, hchecked] at hret
    · simp only [hpackage] at h
      refine ⟨validation', by simp [← h], Or.inl ⟨by simpa using hpackage, ?_⟩⟩
      rw [← h]
      exact signatureBit_none

/-! ## The gate -/

/-- The signature check returned signatures, and the level accepts every one of them.  An empty list
of results is not enough. -/
def Verified (level : SigLevel) (r : Validated) : Prop :=
  r.results ≠ [] ∧
    ∀ result ∈ r.results, Accepted level.packageMarginalOk level.packageUnknownOk result

/-- The checksum of the record was compared with the file and matched. -/
def ChecksumMatched (env : ValidateEnv) (pkg : Pkg) (r : Validated) : Prop :=
  ∃ c ∈ checksumOf pkg, c ∈ r.compared ∧ env.testChecksum c.1 c.2 = 0

/-- What a successful validation should mean: a new signature bit stands for verified signatures,
and a checksum is compared unless there are some. -/
structure Gate (env : ValidateEnv) (syncpkg : Option Pkg) (level : SigLevel)
    (validation : Option ℕ) (r : Validated) : Prop where
  /-- a new signature bit stands for verified signatures -/
  signature : r.ret = 0 → ¬ SignatureBit validation → SignatureBit r.validation →
    Verified level r
  /-- a checksum of the record is compared unless there are verified signatures -/
  checksum : r.ret = 0 → ∀ pkg ∈ syncpkg, checksumOf pkg ≠ none →
    Verified level r ∨ ChecksumMatched env pkg r

/-- The file passes as signed although no signature is found: signatures are optional, and
one was there when checksums were skipped. -/
structure Slips (env : ValidateEnv) (pkgfile : Option CString) (syncpkg : Option Pkg)
    (level : SigLevel) (validation : Option ℕ) : Prop where
  named : pkgfile.getD [] ≠ []
  access : env.access = .ok
  package : level.package
  optional : level.packageOptional
  siglistAlloc : env.check.siglistAlloc
  noSignature : NoSignature env.check (syncpkg.bind Pkg.base64Sig)
  checksumsMatch : ChecksumsMatch env syncpkg
  effect : (SignaturePresent env syncpkg ∧ validation ≠ none ∧ ¬ SignatureBit validation) ∨
    ∃ pkg ∈ syncpkg, pkg.base64Sig ≠ none ∧ checksumOf pkg ≠ none

theorem Slips.not_gate {env : ValidateEnv} {pkgfile : Option CString} {syncpkg : Option Pkg}
    {level : SigLevel} {validation : Option ℕ} (h : Slips env pkgfile syncpkg level validation) :
    ¬ Gate env syncpkg level validation
      (pkgValidateInternal env pkgfile syncpkg level validation) := by
  obtain ⟨validation', compared, hsum, hsome, hcompared⟩ :=
    validateChecksum_of_match h.package h.checksumsMatch validation
  have hchecked := @checkPgpHelper_of_noSignature _ _ level.packageMarginalOk
    level.packageUnknownOk h.siglistAlloc h.noSignature
  have hnamed := h.named
  have hr : ∃ pmErrno v, pkgValidateInternal env pkgfile syncpkg level validation =
      ⟨0, pmErrno, v, compared, []⟩ := by
    simp [pkgValidateInternal, hnamed, h.access, hsum, h.package, h.optional, hchecked]
  obtain ⟨pmErrno, v, hr⟩ := hr
  rw [hr]
  rintro ⟨hsignature, hchecksum⟩
  have hverified : ∀ r : Validated, r.results = [] → ¬ Verified level r :=
    fun r hresults hr => hr.1 hresults
  rcases h.effect with ⟨hpresent, hvalidation, hbit⟩ | ⟨pkg, hpkg, hbase64, hsums⟩
  · obtain ⟨-, -, validation'', hsum', hcases⟩ := pkgValidateInternal_ret_zero hr rfl
    obtain rfl : validation' = validation'' := by simpa [hsum] using hsum'
    rcases hcases with ⟨hpackage, -⟩ | ⟨-, -, hiff⟩
    · simp [h.package] at hpackage
    · refine hverified _ rfl (hsignature rfl hbit (hiff.mpr (Or.inr ⟨hpresent, ?_⟩)))
      rw [hsome]
      exact Option.isSome_iff_ne_none.mpr hvalidation
  · obtain rfl : compared = [] := hcompared (by
      obtain rfl : syncpkg = some pkg := hpkg
      exact hbase64)
    rcases hchecksum rfl pkg hpkg hsums with hver | ⟨c, -, hc, -⟩
    · exact hverified _ rfl hver
    · simp at hc

/-- **`_alpm_pkg_validate_internal`** lets a file pass only with verified signatures or a checksum
that matches, except for the one slip.  A success without verified signatures means that signatures
were optional and none was found, and what then remains is whether a signature was present when the
checksums were skipped. -/
theorem pkgValidate_gate (env : ValidateEnv) (pkgfile : Option CString) (syncpkg : Option Pkg)
    (level : SigLevel) (validation : Option ℕ) :
    Gate env syncpkg level validation (pkgValidateInternal env pkgfile syncpkg level validation) ↔
      ¬ Slips env pkgfile syncpkg level validation := by
  refine ⟨fun hgate hslips => hslips.not_gate hgate, fun hslips => ?_⟩
  generalize hr : pkgValidateInternal env pkgfile syncpkg level validation = r
  -- with no verified signature the record has nothing to skip the comparison with
  have key : r.ret = 0 → ¬ Verified level r →
      (SignatureBit r.validation → SignatureBit validation) ∧
        ∀ pkg ∈ syncpkg, checksumOf pkg ≠ none → ChecksumMatched env pkg r := by
    intro hret hverified
    obtain ⟨hnamed, haccess, validation', hsum, hcases⟩ := pkgValidateInternal_ret_zero hr hret
    obtain ⟨hbit, hsome, hcompared⟩ := validateChecksum_eq_some hsum
    rcases hcases with ⟨hpackage, hiff⟩ | ⟨hpackage, ⟨checked, hchecked, hzero, hresults⟩, hiff⟩
    · refine ⟨fun h => hbit.mp (hiff.mp h), fun pkg hpkg hsums => ?_⟩
      obtain ⟨c, hc⟩ := Option.ne_none_iff_exists'.mp hsums
      rcases hcompared pkg hpkg c hc with ⟨hpackage', -⟩ | hmatched
      · simp [hpackage] at hpackage'
      · exact ⟨c, hc, hmatched⟩
    · rcases checkPgpHelper_ret_zero hchecked hzero with ⟨halloc, ⟨hoptional, hno, -⟩ | haccepted⟩
      · have hmatch : ChecksumsMatch env syncpkg := by
          intro pkg hpkg hbase64 c hc
          rcases hcompared pkg hpkg c hc with ⟨-, hbase64'⟩ | ⟨-, htest⟩
          · exact absurd hbase64 hbase64'
          · exact htest
        have heffect : ¬ _ := fun h =>
          hslips ⟨hnamed, haccess, hpackage, hoptional, halloc, hno, hmatch, h⟩
        obtain ⟨hsignature, hbase64⟩ := not_or.mp heffect
        refine ⟨fun h => ?_, fun pkg hpkg hsums => ?_⟩
        · rcases hiff.mp h with h | ⟨hpresent, hsome'⟩
          · exact hbit.mp h
          · by_contra hnot
            have hvalidation : validation ≠ none :=
              Option.isSome_iff_ne_none.mp (hsome.symm.trans hsome')
            exact hsignature ⟨hpresent, hvalidation, hnot⟩
        · obtain ⟨c, hc⟩ := Option.ne_none_iff_exists'.mp hsums
          rcases hcompared pkg hpkg c hc with ⟨-, hsig⟩ | hmatched
          · exact absurd ⟨pkg, hpkg, hsig, hsums⟩ hbase64
          · exact ⟨c, hc, hmatched⟩
      · exact absurd (by rwa [hresults] at haccepted) hverified
  refine ⟨fun hret hbit hbit' => ?_, fun hret pkg hpkg hsums => ?_⟩
  · by_contra hverified
    exact hbit ((key hret hverified).1 hbit')
  · by_contra hverified
    obtain ⟨hverified, hmatched⟩ := not_or.mp hverified
    exact hmatched ((key hret hverified).2 pkg hpkg hsums)

/-- A record with a checksum and a signature in which gpgme finds no signatures, with every
call succeeding. -/
theorem pkgValidate_slips :
    let check : CheckEnv :=
      { haveLibgpgme := true
        siglistAlloc := true
        pathAccess := true
        sigfileOpens := false
        fileOpens := true
        keyringFound := true
        initGpgme := true
        gpgmeNew := .noError
        filedata := .noError
        decodeSignature := true
        sigdata := .noError
        opVerify := .noError
        signatures := some []
        resultsAlloc := true }
    let env : ValidateEnv := ⟨.ok, false, fun _ _ => 1, check⟩
    let syncpkg : Pkg :=
      { name := str "app"
        version := str "1-1"
        sha256sum := some (str "e3b0c442")
        base64Sig := some (str "aGVsbG8=") }
    let level : SigLevel := ⟨true, true, false, false⟩
    pkgValidateInternal env (some (str "app-1-1.pkg.tar")) (some syncpkg) level (some 0) =
        ⟨0, .ok, some validationSignature, [], []⟩ ∧
      ¬ Gate env (some syncpkg) level (some 0)
        ⟨0, .ok, some validationSignature, [], []⟩ := by
  intro check env syncpkg level
  refine ⟨by decide +kernel, fun hgate => ?_⟩
  have hbit : ¬ SignatureBit (some 0) := by simp [SignatureBit]
  have hbit' : SignatureBit (some validationSignature) := ⟨8, rfl, by decide⟩
  exact (hgate.signature rfl hbit hbit').1 rfl

end Alpm
