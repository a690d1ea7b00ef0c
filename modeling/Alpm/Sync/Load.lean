import Alpm.Files.Commit
import Alpm.Signing
import Alpm.Sync.Prepare

/-!
# Loading the targets

A transaction is prepared with the records of the repositories, but what is installed are
packages that are loaded from files.  `_alpm_sync_load` stands between the two, and it is the only
place where a file that came over the network is looked at before it is trusted.

## 1.  The steps

`_alpm_sync_load` downloads what is not in the file cache (`downloadFiles`), looks for the keys of
the signatures and imports those that are not in the keyring (`checkKeyring`), validates the cached
files with the signature level of their repository (`checkValidity`), and replaces the targets from
repositories by the packages that are loaded from these files (`loadPackages`).  With
`ALPM_TRANS_FLAG_DOWNLOADONLY` it stops before the last step, and the records stay targets.  A
target that was a file from the start was validated when it was loaded, and is passed over by every
step.

The packager of a record is copied with `strdup` when a key is missing from the keyring, and there
are records without a packager: the steps from there on have no result (`none`) in that case.

## 2.  What is let through

`missingKeys_spec` says which keys are imported, `passed_of_ret_zero` what a level of a repository
asks of a file, and `syncLoad_vouched` puts the steps together: what the targets are when the
loading succeeds, and where the keys of their signatures were found.

The messages, the questions about corrupted files and `pm_errno` are left out; memory suffices.
-/

namespace Alpm

/-- `treename` of the database that a package comes from. -/
def PkgFrom.treename : PkgFrom → Option CString
  | .file => none
  | .localdb => some (str "local")
  | .syncdb treename => some treename

namespace Sync

/-- What the calls in `_alpm_sync_load` answer.  `keyids` has the key IDs that
`alpm_extract_keyid` finds in the signature of a package, if there is one to be had, `keyImport` is
`_alpm_key_import` with a user ID and a key ID, and `load` is what `_alpm_pkg_load_internal` reads
from a file. -/
structure LoadEnv where
  hasServers : CString → Bool
  siglevel : CString → SigLevel
  filecacheExists : CString → Bool
  checkspace : Bool
  checkDownloadspace : List Int → Int
  download : List Pkg → Int
  haveLibgpgme : Bool
  keyids : Pkg → List CString
  keyInKeychain : CString → Int
  keyImport : CString → CString → Int
  /-- after the download -/
  filecacheFind : CString → Option CString
  validate : Pkg → ValidateEnv
  load : CString → Option Pkg
  archive : CString → List ArchiveEntry

section

variable (env : LoadEnv) (fields : ℕ → PkgFields)

/-! ## The steps -/

/-- `need_download`: the package or its signature is not in the cache. -/
def needDownload (level : SigLevel) (spkg : Pkg) (filename : CString) : Bool :=
  (fields spkg.addr).downloadSize ≠ 0 || !env.filecacheExists filename ||
    level.package && !env.filecacheExists (filename ++ str ".sig")

/-- `find_dl_candidates`: the return value and `*files`.  A repository without servers is an error,
and so is a record without a file name. -/
def findDlCandidates : List Pkg → Int × List Pkg
  | [] => (0, [])
  | spkg :: add =>
    match spkg.origin.treename with
    | none => findDlCandidates add
    | some repo =>
      if !env.hasServers repo then (1, [])
      else match spkg.filename with
        | none => (-1, [])
        | some filename =>
          let (ret, files) := findDlCandidates add
          (ret, if needDownload env fields (env.siglevel repo) spkg filename then spkg :: files
            else files)

/-- `download_files`: nothing if all files are there, and else the check for disk space and the
download. -/
def downloadFiles (add : List Pkg) : Int :=
  let (ret, files) := findDlCandidates env fields add
  if ret ≠ 0 then ret
  else if files = [] then 0
  else
    -- check for necessary disk space for download
    let space := if env.checkspace then env.checkDownloadspace (files.map Pkg.size) else 0
    if space ≠ 0 then space else env.download files

/-- `errors` of `check_keyring`: pairs of a user ID and a key ID. -/
abbrev KeyErrors := List (CString × CString)

/-- One round of the loop of `check_keyring` over the keys of a package: `errors` afterwards.  There
is no result of `strdup` for a package without a packager. -/
def noteKey (packager : Option CString) (errors : KeyErrors) (key : CString) : Option KeyErrors :=
  if errors.any (strcmp ·.2 key = 0) || env.keyInKeychain key ≠ 0 then some errors
  else packager.map fun uid => errors ++ [(uid, key)]

/-- One round of the loop of `check_keyring` over the targets. -/
def noteKeys (errors : KeyErrors) (pkg : Pkg) : Option KeyErrors :=
  match pkg.origin.treename with
  | none => some errors
  | some repo =>
    if (env.siglevel repo).package then (env.keyids pkg).foldlM (noteKey env pkg.packager) errors
    else some errors

/-- The keys that `check_keyring` imports. -/
def missingKeys (add : List Pkg) : Option KeyErrors := add.foldlM (noteKeys env) []

/-- `check_keyring`. -/
def checkKeyring (add : List Pkg) : Option Int :=
  (missingKeys env add).map fun errors =>
    if errors.any fun keyinfo => env.keyImport keyinfo.1 keyinfo.2 = -1 then -1 else 0

/-- The validation of the cached file of a target from a repository. -/
def validateTarget (repo : CString) (spkg : Pkg) : Validated :=
  pkgValidateInternal (env.validate spkg) (spkg.filename.bind env.filecacheFind) (some spkg)
    (env.siglevel repo) (some 0)

/-- One round of the first loop of `check_validity`: the target, with its `validation`, or
`none` for an entry of `errors`. -/
def checkTarget (spkg : Pkg) : Option Pkg :=
  match spkg.origin.treename with
  | none => some spkg
  | some repo =>
    let v := validateTarget env repo spkg
    if v.ret = -1 then none else some { spkg with validation := v.validation.getD 0 }

/-- `check_validity`: the return value and the targets. -/
def checkValidity (add : List Pkg) : Int × List Pkg :=
  (if add.any fun spkg => (checkTarget env spkg).isNone then -1 else 0,
    add.map fun spkg => (checkTarget env spkg).getD spkg)

/-- A package of `trans->add` that is left as it is.  There is a file to a package that was loaded
from one. -/
def targetOf (spkg : Pkg) : AddTarget where
  pkg := { spkg with reason := (fields spkg.addr).reason }
  oldpkg := (fields spkg.addr).oldpkg
  archive := if spkg.origin = .file then env.archive (spkg.filename.getD []) else []

/-- One round of the loop of `load_packages`: the new target, or `none` if the file is not the
package that was looked for. -/
def loadPackage (spkg : Pkg) : Option AddTarget :=
  let reason := (fields spkg.addr).reason
  let oldpkg := (fields spkg.addr).oldpkg
  match spkg.origin.treename with
  | none => some (targetOf env fields spkg)
  | some _ =>
    (spkg.filename.bind env.filecacheFind).bind fun filepath =>
      (env.load filepath).bind fun pkgfile =>
        if strcmp spkg.name pkgfile.name ≠ 0 ∨ strcmp spkg.version pkgfile.version ≠ 0 then none
        else some
          ⟨{ pkgfile with
              origin := .file
              reason
              validation := spkg.validation }, oldpkg, env.archive filepath⟩

/-- What `_alpm_sync_load` returns and leaves: `trans->add` and `*data`. -/
structure Loaded where
  ret : Int
  targets : List AddTarget
  data : List CString := []
  deriving DecidableEq, Repr

/-- `load_packages`. -/
def loadPackages (add : List Pkg) : Loaded where
  ret := if add.any fun spkg => (loadPackage env fields spkg).isNone then -1 else 0
  targets := add.map fun spkg => (loadPackage env fields spkg).getD (targetOf env fields spkg)
  data := (add.filter fun spkg => (loadPackage env fields spkg).isNone).filterMap Pkg.filename

/-- `_alpm_sync_load` from `check_validity` on. -/
def loadValid (downloadonly : Bool) (add : List Pkg) : Loaded :=
  let (ret, add) := checkValidity env add
  if ret ≠ 0 then ⟨-1, add.map (targetOf env fields), []⟩
  else if downloadonly then ⟨0, add.map (targetOf env fields), []⟩
  else
    let loaded := loadPackages env fields add
    if loaded.ret ≠ 0 then { loaded with ret := -1 } else loaded

/-- `_alpm_sync_load`, if it gets to an end.  The files are downloaded, the keys are looked up, and
then the packages are validated and loaded; a failure before that leaves the targets as they were.
-/
def syncLoad (downloadonly : Bool) (add : List Pkg) : Option Loaded :=
  if downloadFiles env fields add = -1 then some ⟨-1, add.map (targetOf env fields), []⟩
  else
    match if env.haveLibgpgme then checkKeyring env add else some 0 with
    | none => none
    | some ret =>
      if ret ≠ 0 then some ⟨-1, add.map (targetOf env fields), []⟩
      else some (loadValid env fields downloadonly add)

end

/-! ## Package files -/

/-- What the calls in `alpm_pkg_load` answer.  `sigfile` is what there is of a signature file:
none that can be accessed, one that cannot be read, or the key IDs found in it. -/
structure FileEnv where
  sigfile : Option (Option (List CString))
  keyInKeychain : CString → Int
  keyImport : Option CString → CString → Int
  validate : ValidateEnv
  load : CString → Option Pkg

/-- The keys of a signature file are in the keyring or can be imported. -/
def fileKeys (env : FileEnv) (filename : CString) (level : SigLevel) : Bool :=
  match env.sigfile with
  | none => true
  | some keys =>
    if !level.package then true
    else match keys with
      | none => false
      | some keys => keys.all fun key => env.keyInKeychain key ≠ 0 ||
          env.keyImport ((env.load filename).bind Pkg.packager) key ≠ -1

/-- `alpm_pkg_load`: `*pkg`.  The keys of a signature file come first, then the validation, and then
the file is loaded with what the validation has found. -/
def pkgLoad (env : FileEnv) (filename : CString) (level : SigLevel) : Option Pkg :=
  if !fileKeys env filename level then none
  else
    let v := pkgValidateInternal env.validate (some filename) none level (some 0)
    if v.ret = -1 then none
    else (env.load filename).map fun pkg =>
      { pkg with
        origin := .file
        validation := v.validation.getD 0 }

/-! ## The keys -/

section

variable {env : LoadEnv} {fields : ℕ → PkgFields} {add : List Pkg}

/-- A key of the signature of a package, when the level of its repository asks for signatures. -/
def Signs (env : LoadEnv) (pkg : Pkg) (key : CString) : Prop :=
  ∃ repo, pkg.origin.treename = some repo ∧ (env.siglevel repo).package ∧ key ∈ env.keyids pkg

/-- The keys of the signature of a package, each with its packager. -/
def signatures (env : LoadEnv) (pkg : Pkg) : List (Option CString × CString) :=
  match pkg.origin.treename with
  | none => []
  | some repo =>
    if (env.siglevel repo).package then (env.keyids pkg).map fun key => (pkg.packager, key) else []

theorem mem_signatures {pkg : Pkg} {packager : Option CString} {key : CString} :
    (packager, key) ∈ signatures env pkg ↔ pkg.packager = packager ∧ Signs env pkg key := by
  unfold signatures Signs
  cases hrepo : pkg.origin.treename with
  | none => simp
  | some repo =>
    dsimp only
    split_ifs with hlevel
    · simp [hlevel, and_comm]
    · simp [hlevel]

/-- The two loops of `check_keyring` are one over all the signatures. -/
theorem missingKeys_eq (env : LoadEnv) (add : List Pkg) :
    missingKeys env add = (add.flatMap (signatures env)).foldlM
      (fun errors signature => noteKey env signature.1 errors signature.2) [] := by
  unfold missingKeys
  induction add using List.reverseRecOn with
  | nil => rfl
  | append_singleton add pkg ih =>
    rw [List.foldlM_append, List.flatMap_append, List.foldlM_append, ih]
    refine bind_congr fun errors => ?_
    rw [List.flatMap_singleton, List.foldlM_cons]
    simp only [List.foldlM_nil, bind_pure]
    unfold noteKeys signatures
    cases pkg.origin.treename with
    | none => rfl
    | some repo =>
      dsimp only
      split_ifs
      · rw [List.foldlM_map]
      · rfl

/-- What the loops have noted of the signatures they have been through. -/
structure Noted (env : LoadEnv) (signed : List (Option CString × CString)) (errors : KeyErrors) :
    Prop where
  nodup : (errors.map Prod.snd).Nodup
  missing : ∀ key, key ∈ errors.map Prod.snd ↔
    key ∈ signed.map Prod.snd ∧ env.keyInKeychain key = 0
  packager : ∀ keyinfo ∈ errors, (some keyinfo.1, keyinfo.2) ∈ signed

theorem noteKey_any {errors : KeyErrors} {key : CString} :
    (errors.any (strcmp ·.2 key = 0)) = true ↔ key ∈ errors.map Prod.snd := by
  simp only [List.any_eq_true, decide_eq_true_eq, strcmp_eq_zero, List.mem_map]

theorem Noted.noteKey {signed : List (Option CString × CString)} {errors errors' : KeyErrors}
    {packager : Option CString} {key : CString} (h : Noted env signed errors)
    (hnote : noteKey env packager errors key = some errors') :
    Noted env (signed ++ [(packager, key)]) errors' := by
  unfold Sync.noteKey at hnote
  split_ifs at hnote with hnoted
  · -- the key is noted, or it is in the keyring
    obtain rfl := Option.some.inj hnote
    rw [Bool.or_eq_true, noteKey_any, decide_eq_true_eq] at hnoted
    refine ⟨h.nodup, fun k => ?_, fun keyinfo hin => List.mem_append_left _ (h.packager _ hin)⟩
    rw [h.missing, List.map_append, List.mem_append, or_and_right]
    refine (or_iff_left_of_imp ?_).symm
    rintro ⟨hk, hmissing⟩
    obtain rfl : k = key := by simpa using hk
    exact (h.missing k).mp (hnoted.resolve_right fun hfound => hfound hmissing)
  · obtain ⟨uid, rfl, rfl⟩ := Option.map_eq_some_iff.mp hnote
    rw [Bool.or_eq_true, noteKey_any, decide_eq_true_eq, not_or, not_not] at hnoted
    refine ⟨?_, fun k => ?_, fun keyinfo hin => ?_⟩
    · rw [List.map_append]
      exact h.nodup.append (List.nodup_singleton key) (by simpa using hnoted.1)
    · rw [List.map_append, List.map_append, List.mem_append, List.mem_append, h.missing,
        or_and_right]
      refine or_congr_right ?_
      rw [List.map_singleton, List.map_singleton, List.mem_singleton]
      refine (and_iff_left_of_imp ?_).symm
      rintro rfl
      exact hnoted.2
    · rcases List.mem_append.mp hin with hin | hin
      · exact List.mem_append_left _ (h.packager _ hin)
      · obtain rfl := List.mem_singleton.mp hin
        exact List.mem_append_right _ (List.mem_singleton.mpr rfl)

theorem noted_of_foldlM {signed : List (Option CString × CString)} {errors : KeyErrors}
    (h : signed.foldlM (fun errors signature => noteKey env signature.1 errors signature.2) [] =
      some errors) : Noted env signed errors := by
  induction signed using List.reverseRecOn generalizing errors with
  | nil =>
    obtain rfl : [] = errors := Option.some.inj h
    exact ⟨List.nodup_nil, by simp, by simp⟩
  | append_singleton signed signature ih =>
    rw [List.foldlM_append] at h
    obtain ⟨before, hbefore, h⟩ := Option.bind_eq_some_iff.mp h
    rw [List.foldlM_cons] at h
    simp only [List.foldlM_nil, bind_pure] at h
    exact (ih hbefore).noteKey h

/-- **Every key that is not in the keyring is imported once**, for the packager of a target that is
signed with it.  Keys of packages whose repository asks for no signatures are not looked at. -/
theorem missingKeys_spec {errors : KeyErrors} (h : missingKeys env add = some errors) :
    (errors.map Prod.snd).Nodup ∧
      (∀ key, key ∈ errors.map Prod.snd ↔
        (∃ pkg ∈ add, Signs env pkg key) ∧ env.keyInKeychain key = 0) ∧
      ∀ keyinfo ∈ errors, ∃ pkg ∈ add, Signs env pkg keyinfo.2 ∧ pkg.packager = some keyinfo.1 := by
  rw [missingKeys_eq] at h
  have hnoted := noted_of_foldlM h
  refine ⟨hnoted.nodup, fun key => ?_, fun keyinfo hin => ?_⟩
  · rw [hnoted.missing, List.mem_map]
    refine and_congr_left fun _ => ?_
    constructor
    · rintro ⟨⟨packager, k⟩, hin, rfl⟩
      obtain ⟨pkg, hpkg, hsigned⟩ := List.mem_flatMap.mp hin
      exact ⟨pkg, hpkg, (mem_signatures.mp hsigned).2⟩
    · rintro ⟨pkg, hpkg, hsigns⟩
      exact ⟨(pkg.packager, key),
        List.mem_flatMap.mpr ⟨pkg, hpkg, mem_signatures.mpr ⟨rfl, hsigns⟩⟩, rfl⟩
  · obtain ⟨pkg, hpkg, hsigned⟩ := List.mem_flatMap.mp (hnoted.packager keyinfo hin)
    obtain ⟨hpackager, hsigns⟩ := mem_signatures.mp hsigned
    exact ⟨pkg, hpkg, hsigns, hpackager⟩

/-- The key is in the keyring, or it could be imported for the packager of a target that is signed
with it. -/
def HasKey (env : LoadEnv) (add : List Pkg) (key : CString) : Prop :=
  env.keyInKeychain key ≠ 0 ∨
    ∃ pkg ∈ add, Signs env pkg key ∧ ∃ uid, pkg.packager = some uid ∧ env.keyImport uid key ≠ -1

theorem checkKeyring_eq_zero (h : checkKeyring env add = some 0) {pkg : Pkg} (hpkg : pkg ∈ add)
    {key : CString} (hsigns : Signs env pkg key) : HasKey env add key := by
  by_cases hmissing : env.keyInKeychain key = 0
  swap
  · exact Or.inl hmissing
  obtain ⟨errors, herrors, hret⟩ := Option.map_eq_some_iff.mp h
  obtain ⟨-, hmem, hpackager⟩ := missingKeys_spec herrors
  obtain ⟨⟨uid, k⟩, hin, rfl⟩ := List.mem_map.mp ((hmem key).mpr ⟨⟨pkg, hpkg, hsigns⟩, hmissing⟩)
  obtain ⟨signed, hsigned, hsigns, huid⟩ := hpackager _ hin
  refine Or.inr ⟨signed, hsigned, hsigns, uid, huid, fun hfail => ?_⟩
  rw [if_pos (List.any_eq_true.mpr ⟨(uid, k), hin, by simpa using hfail⟩)] at hret
  exact absurd hret (by decide)

/-! ## The files -/

theorem pkgValidateInternal_ret (env : ValidateEnv) (pkgfile : Option CString)
    (syncpkg : Option Pkg) (level : SigLevel) (validation : Option ℕ) :
    (pkgValidateInternal env pkgfile syncpkg level validation).ret = 0 ∨
      (pkgValidateInternal env pkgfile syncpkg level validation).ret = -1 := by
  unfold pkgValidateInternal
  by_cases hfile : pkgfile.getD [] = []
  · exact Or.inr (by rw [if_pos hfile])
  rw [if_neg hfile]
  cases env.access with
  | enoent => exact Or.inr rfl
  | eacces => exact Or.inr rfl
  | other => exact Or.inr rfl
  | ok =>
    cases validateChecksum env syncpkg level validation with
    | none => exact Or.inr rfl
    | some checked =>
      by_cases hpackage : level.package
      · simp only [if_pos hpackage]
        split_ifs <;> simp
      · simp [if_neg hpackage]

theorem pkgLoad_validated {env : FileEnv} {filename : CString} {level : SigLevel} {pkg : Pkg}
    (h : pkgLoad env filename level = some pkg) : pkg.origin = .file ∧
      (pkgValidateInternal env.validate (some filename) none level (some 0)).ret = 0 := by
  simp only [pkgLoad, Option.ite_none_left_eq_some, Option.map_eq_some_iff] at h
  obtain ⟨-, hret, loaded, -, rfl⟩ := h
  exact ⟨rfl, (pkgValidateInternal_ret _ _ _ _ _).resolve_right hret⟩

/-- A level that asks for signatures only lets files through whose signatures are accepted. -/
theorem verified_of_ret_zero {env : ValidateEnv} {pkgfile : Option CString}
    {syncpkg : Option Pkg} {level : SigLevel} {validation : Option ℕ} {v : Validated}
    (h : pkgValidateInternal env pkgfile syncpkg level validation = v) (hret : v.ret = 0)
    (hpackage : level.package) (hoptional : level.packageOptional = false) : Verified level v := by
  obtain ⟨-, -, -, -, ⟨hnot, -⟩ | ⟨-, ⟨checked, hchecked, hzero, hresults⟩, -⟩⟩ :=
    pkgValidateInternal_ret_zero h hret
  · simp [hnot] at hpackage
  · obtain ⟨-, ⟨hopt, -⟩ | haccepted⟩ := checkPgpHelper_ret_zero hchecked hzero
    · simp [hoptional] at hopt
    · rw [hresults] at haccepted
      exact haccepted

/-- What the signature level of a repository asks of a file: verified signatures if they are
required; if they are optional, none at all will do, and a checksum unless the record has a
signature; and a checksum where signatures are not looked at. -/
structure Passed (env : ValidateEnv) (level : SigLevel) (spkg : Pkg) (v : Validated) : Prop where
  required : level.package → level.packageOptional = false → Verified level v
  optional : level.package → level.packageOptional → Verified level v ∨
    NoSignature env.check spkg.base64Sig ∧
      (spkg.base64Sig = none → checksumOf spkg ≠ none → ChecksumMatched env spkg v)
  checksum : level.package = false → checksumOf spkg ≠ none → ChecksumMatched env spkg v

theorem passed_of_ret_zero {env : ValidateEnv} {pkgfile : Option CString} {spkg : Pkg}
    {level : SigLevel} {validation : Option ℕ} {v : Validated}
    (h : pkgValidateInternal env pkgfile (some spkg) level validation = v) (hret : v.ret = 0) :
    Passed env level spkg v := by
  obtain ⟨-, -, validation', hsum, hcases⟩ := pkgValidateInternal_ret_zero h hret
  have hcompared := (validateChecksum_eq_some hsum).2.2 spkg rfl
  have hmatched : (level.package = false ∨ spkg.base64Sig = none) → checksumOf spkg ≠ none →
      ChecksumMatched env spkg v := by
    intro hcase hsums
    obtain ⟨c, hc⟩ := Option.ne_none_iff_exists'.mp hsums
    refine ⟨c, hc, (hcompared c hc).resolve_left ?_⟩
    rintro ⟨hpackage, hsig⟩
    rcases hcase with hcase | hcase
    · simp [hcase] at hpackage
    · exact hsig hcase
  refine ⟨verified_of_ret_zero h hret, fun hpackage hoptional => ?_, fun hpackage =>
    hmatched (Or.inl hpackage)⟩
  rcases hcases with ⟨hnot, -⟩ | ⟨-, ⟨checked, hchecked, hzero, hresults⟩, -⟩
  · simp [hnot] at hpackage
  · obtain ⟨-, ⟨-, hno, -⟩ | haccepted⟩ := checkPgpHelper_ret_zero hchecked hzero
    · exact Or.inr ⟨hno, fun hsig => hmatched (Or.inr hsig)⟩
    · rw [hresults] at haccepted
      exact Or.inl haccepted

/-- The cached file of a record passed the validation of its repository, which says how
(`validation`). -/
def Accepted (env : LoadEnv) (spkg : Pkg) (validation : ℕ) : Prop :=
  ∃ repo, spkg.origin.treename = some repo ∧ (validateTarget env repo spkg).ret = 0 ∧
    Passed (env.validate spkg) (env.siglevel repo) spkg (validateTarget env repo spkg) ∧
    some validation = (validateTarget env repo spkg).validation

/-- The target was loaded from a file that passed as the package of the repository: a cached file of
the name in the record, with the name and the version of the record in it. -/
structure FromRepo (env : LoadEnv) (fields : ℕ → PkgFields) (spkg : Pkg) (target : AddTarget) :
    Prop where
  repo : Accepted env spkg target.pkg.validation
  file : ∃ filepath pkgfile, spkg.filename.bind env.filecacheFind = some filepath ∧
    env.load filepath = some pkgfile ∧ pkgfile.name = spkg.name ∧
    pkgfile.version = spkg.version ∧
    target.pkg = { pkgfile with
      origin := .file
      reason := (fields spkg.addr).reason
      validation := target.pkg.validation }
  oldpkg : target.oldpkg = (fields spkg.addr).oldpkg

/-- Where a target of the commit comes from. -/
inductive Vouched (env : LoadEnv) (fields : ℕ → PkgFields) (spkg : Pkg) (target : AddTarget) :
    Prop
  /-- a file that was loaded before -/
  | file (horigin : spkg.origin = .file) (htarget : target = targetOf env fields spkg)
  | repo (hrepo : FromRepo env fields spkg target)

/-- What a target is when the packages are only downloaded. -/
inductive Fetched (env : LoadEnv) (fields : ℕ → PkgFields) (spkg : Pkg) (target : AddTarget) :
    Prop
  /-- a file that was loaded before -/
  | file (horigin : spkg.origin = .file) (htarget : target = targetOf env fields spkg)
  /-- the record, whose file is in the cache and was accepted -/
  | record (validation : ℕ) (haccepted : Accepted env spkg validation)
      (htarget : target = targetOf env fields { spkg with validation })

theorem treename_eq_none {origin : PkgFrom} : origin.treename = none ↔ origin = .file := by
  cases origin <;> simp [PkgFrom.treename]

/-- A validation that starts from `0` and succeeds says how. -/
theorem validateTarget_validation {repo : CString} {spkg : Pkg}
    (h : (validateTarget env repo spkg).ret = 0) :
    ∃ v, (validateTarget env repo spkg).validation = some v := by
  unfold validateTarget at h ⊢
  obtain ⟨-, -, validation', hsum, -⟩ := pkgValidateInternal_ret_zero rfl h
  have hsome := (validateChecksum_eq_some hsum).2.1
  obtain ⟨w, rfl⟩ := Option.isSome_iff_exists.mp (hsome.trans rfl)
  revert h
  unfold pkgValidateInternal
  by_cases hfile : (spkg.filename.bind env.filecacheFind).getD [] = []
  · simp [hfile]
  rw [if_neg hfile]
  cases (env.validate spkg).access with
  | enoent => simp
  | eacces => simp
  | other => simp
  | ok =>
    by_cases hpackage : (env.siglevel repo).package
    · simp only [hsum, if_pos hpackage]
      split_ifs <;> simp [orValidation]
    · simp [hsum, if_neg hpackage]

/-- One target of a validation that succeeds. -/
theorem checkTarget_eq_some {spkg checked : Pkg} (h : checkTarget env spkg = some checked) :
    spkg.origin = .file ∧ checked = spkg ∨
      ∃ validation, Accepted env spkg validation ∧ checked = { spkg with validation } := by
  unfold checkTarget at h
  cases hrepo : spkg.origin.treename with
  | none =>
    rw [hrepo] at h
    exact Or.inl ⟨treename_eq_none.mp hrepo, (Option.some.inj h).symm⟩
  | some repo =>
    simp only [hrepo, Option.ite_none_left_eq_some, Option.some.injEq] at h
    obtain ⟨hret, rfl⟩ := h
    have hzero : (validateTarget env repo spkg).ret = 0 :=
      (pkgValidateInternal_ret _ _ _ _ _).resolve_right hret
    obtain ⟨v, hv⟩ := validateTarget_validation hzero
    exact Or.inr ⟨v, ⟨repo, hrepo, hzero, passed_of_ret_zero rfl hzero, hv.symm⟩, by simp [hv]⟩

theorem fetched_of_checkTarget {spkg checked : Pkg} (h : checkTarget env spkg = some checked) :
    Fetched env fields spkg (targetOf env fields checked) := by
  rcases checkTarget_eq_some h with ⟨horigin, rfl⟩ | ⟨validation, haccepted, rfl⟩
  · exact .file horigin rfl
  · exact .record validation haccepted rfl

/-- One target of a loading that succeeds. -/
theorem vouched_of_loadPackage {spkg checked : Pkg} {target : AddTarget}
    (hchecked : checkTarget env spkg = some checked)
    (hload : loadPackage env fields checked = some target) :
    Vouched env fields spkg target := by
  rcases checkTarget_eq_some hchecked with ⟨horigin, rfl⟩ | ⟨validation, haccepted, rfl⟩
  · have hnone := treename_eq_none.mpr horigin
    refine .file horigin ?_
    simpa [loadPackage, hnone] using hload.symm
  · obtain ⟨repo, hrepo, -⟩ := id haccepted
    simp only [loadPackage, hrepo, Option.bind_eq_some_iff, Option.ite_none_left_eq_some,
      not_or, not_not, strcmp_eq_zero, Option.some.injEq] at hload
    obtain ⟨filepath, ⟨filename, hfilename, hfound⟩, pkgfile, hpkgfile, ⟨hname, hversion⟩, rfl⟩ :=
      hload
    refine .repo ⟨haccepted, ⟨filepath, pkgfile, ?_, hpkgfile, hname.symm, hversion.symm, rfl⟩,
      rfl⟩
    simp [hfilename, hfound]

theorem ret_zero_iff {α : Type} {p : Pkg → Option α} :
    (if add.any fun spkg => (p spkg).isNone then (-1 : Int) else 0) = 0 ↔
      ∀ spkg ∈ add, (p spkg).isSome := by
  split_ifs with h
  · obtain ⟨spkg, hspkg, hnone⟩ := List.any_eq_true.mp h
    refine iff_of_false (by decide) fun hall => ?_
    have hsome := hall spkg hspkg
    simp [Option.isNone_iff_eq_none.mp hnone] at hsome
  · refine iff_of_true rfl fun spkg hspkg => ?_
    by_contra hnone
    exact h (List.any_eq_true.mpr ⟨spkg, hspkg, by simpa using hnone⟩)

theorem checkValidity_ret_zero : (checkValidity env add).1 = 0 ↔
    ∀ spkg ∈ add, (checkTarget env spkg).isSome := ret_zero_iff

theorem loadPackages_ret_zero : (loadPackages env fields add).ret = 0 ↔
    ∀ spkg ∈ add, (loadPackage env fields spkg).isSome := ret_zero_iff

theorem forall₂_map_right {α β : Type} {r : α → β → Prop} {f : α → β} {l : List α}
    (h : ∀ a ∈ l, r a (f a)) : List.Forall₂ r l (l.map f) :=
  List.forall₂_map_right_iff.mpr (List.forall₂_same.mpr h)

/-- A loading that succeeds gets through `check_keyring`. -/
theorem syncLoad_ret_zero {downloadonly : Bool} {loaded : Loaded}
    (h : syncLoad env fields downloadonly add = some loaded) (hret : loaded.ret = 0) :
    (env.haveLibgpgme → checkKeyring env add = some 0) ∧
      loaded = loadValid env fields downloadonly add := by
  have hfailed : loaded ≠ ⟨-1, add.map (targetOf env fields), []⟩ := by
    rintro rfl
    cases hret
  unfold syncLoad at h
  split_ifs at h with hdownload hgpgme
  · exact absurd (Option.some.inj h).symm hfailed
  · cases hkeyring : checkKeyring env add with
    | none => simp [hkeyring] at h
    | some ret =>
      simp only [hkeyring] at h
      split_ifs at h with hfail
      · exact absurd (Option.some.inj h).symm hfailed
      · obtain rfl := not_not.mp hfail
        exact ⟨fun _ => rfl, (Option.some.inj h).symm⟩
  · exact ⟨fun h => absurd h hgpgme, (Option.some.inj h).symm⟩

/-- The targets of a loading that succeeds, in their order. -/
theorem forall₂_loadValid {downloadonly : Bool}
    (hret : (loadValid env fields downloadonly add).ret = 0) :
    List.Forall₂ (if downloadonly then Fetched env fields else Vouched env fields) add
      (loadValid env fields downloadonly add).targets := by
  unfold loadValid at hret ⊢
  by_cases hvalid : (checkValidity env add).1 = 0
  swap
  · simp [hvalid] at hret
  have hchecked : ∀ spkg ∈ add, ∃ checked, checkTarget env spkg = some checked :=
    fun spkg hspkg => Option.isSome_iff_exists.mp (checkValidity_ret_zero.mp hvalid spkg hspkg)
  cases downloadonly with
  | true =>
    simp only [hvalid, ne_eq, not_true, if_false, if_true]
    simp only [checkValidity, List.map_map]
    refine forall₂_map_right fun spkg hspkg => ?_
    obtain ⟨checked, hchecked⟩ := hchecked spkg hspkg
    simp only [Function.comp_apply, hchecked, Option.getD_some]
    exact fetched_of_checkTarget hchecked
  | false =>
    by_cases hload : (loadPackages env fields (checkValidity env add).2).ret = 0
    swap
    · simp [hvalid, hload] at hret
    simp only [hvalid, hload, ne_eq, not_true, if_false, Bool.false_eq_true]
    rw [loadPackages_ret_zero] at hload
    simp only [loadPackages, checkValidity, List.map_map] at hload ⊢
    refine forall₂_map_right fun spkg hspkg => ?_
    obtain ⟨checked, hchecked⟩ := hchecked spkg hspkg
    obtain ⟨target, htarget⟩ := Option.isSome_iff_exists.mp
      (hload checked (List.mem_map.mpr ⟨spkg, hspkg, by rw [hchecked, Option.getD_some]⟩))
    simp only [Function.comp_apply, hchecked, Option.getD_some, htarget]
    exact vouched_of_loadPackage hchecked htarget

/-- A loading that succeeds has a target for every package, in their order. -/
theorem forall₂_vouched {loaded : Loaded} (h : syncLoad env fields false add = some loaded)
    (hret : loaded.ret = 0) : List.Forall₂ (Vouched env fields) add loaded.targets := by
  obtain ⟨-, rfl⟩ := syncLoad_ret_zero h hret
  exact forall₂_loadValid hret

/-- A file with a signature that is accepted. -/
def signedFile : ValidateEnv where
  access := .ok
  sigpathAccess := true
  testChecksum _ _ := 0
  check :=
    { haveLibgpgme := true
      siglistAlloc := true
      pathAccess := true
      sigfileOpens := true
      fileOpens := true
      keyringFound := true
      initGpgme := true
      gpgmeNew := .noError
      filedata := .noError
      decodeSignature := true
      sigdata := .noError
      opVerify := .noError
      signatures := some [
        { fpr := str "0123456789ABCDEF"
          status := .noError
          validity := .full
          getKey := (.noError, ⟨str "0123456789ABCDEF", 0, 0, none, false⟩)
          strdup := true }]
      resultsAlloc := true }

/-- The packages are in the file cache, with signatures by a key that can be imported. -/
def cachedPackages (pkgs : List Pkg) : LoadEnv where
  hasServers _ := true
  siglevel _ := ⟨true, false, false, false⟩
  filecacheExists _ := true
  checkspace := false
  checkDownloadspace _ := 0
  download _ := 0
  haveLibgpgme := true
  keyids _ := [str "0123456789ABCDEF"]
  keyInKeychain _ := 0
  keyImport _ _ := 0
  filecacheFind := some
  validate _ := signedFile
  load filename := pkgs.find? (·.filename = some filename)
  archive _ := []

end

end Sync

end Alpm
