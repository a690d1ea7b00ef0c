import Alpm.Dload.Transfers

/-!
# What a successful download leaves

A download that returns `0` should have left all required files in place.

Along a run every required payload of the caller is still to be started, is in a transfer that has
its destination, or is settled: its destination exists, or the server said that it is up to date
(`Account`).  Each event keeps this or makes the return value an error, and a failure is not
forgotten by later events; so when the loop is left with success, no payload is waiting and no
transfer is running, and all of them are settled.

This fails at one place: a payload whose `.part` file is complete is neither transferred nor
renamed. `curl_add_payload` returns as for a payload that was started, the file stays under its
temporary name, and the download succeeds (`complete_part_not_renamed`).  Without such payloads, and
without a transfer that uses the destination of another payload as its temporary file, a run that
succeeds leaves all required files in place (`settled_of_finished`).  The condition is on each event
and the state before it.
-/

namespace Alpm.Dload

/-- A payload with a fixed destination, as `download_files` makes them: its name is known, the
server may not choose another, and its temporary file is the destination with a suffix. -/
structure PackagePayload (payload : Payload) : Prop where
  name : ∃ name, payload.remoteName = some name ∧ name ≠ []
  initialSize : payload.initialSize = 0
  random : payload.randomPartfile = false
  trust : payload.trustRemoteName = false
  signature : payload.signature = false

/-- The destination of such a payload. -/
def destination (localpath : CString) (payload : Payload) : CString :=
  payload.destfileName.getD (localpath ++ payload.remoteName.getD [])

/-- Its temporary file. -/
def partFile (localpath : CString) (payload : Payload) : CString :=
  localpath ++ payload.remoteName.getD [] ++ str ".part"

/-- The `.part` file of the payload is complete, and would be resumed.  The expected size has to be
known for that, and there must be no older file to compare with, unless the download is forced. -/
def PartComplete (localpath : CString) (files : Files) (payload : Payload) : Prop :=
  payload.allowResume = true ∧ payload.maxSize ≠ 0 ∧
    files (partFile localpath payload) = some payload.maxSize ∧
    (payload.force = true ∨ files (destination localpath payload) = none)

/-- The file of the payload is in place, or the server said that it is up to date.  Once a payload
is settled it stays so, as no transfer takes a destination away. -/
def Settled (localpath : CString) (d : Download) (payload : Payload) : Prop :=
  (d.files (destination localpath payload)).isSome ∨ payload.address ∈ d.upToDate

/-- The transfer is that of a required payload of the caller. -/
structure Tracks (localpath : CString) (transfer payload : Payload) : Prop where
  address : transfer.address = payload.address
  required : transfer.errorsOk = false
  trust : transfer.trustRemoteName = false
  signature : transfer.signature = false
  destfile : transfer.destfileName = some (destination localpath payload)
  tempfile : transfer.tempfileName.isSome

/-- No file has gone. -/
def Files.Kept (files files' : Files) (except : Option CString) : Prop :=
  ∀ path, except ≠ some path → (files path).isSome → (files' path).isSome

/-- What happens to the state while a transfer with this temporary file ends. -/
structure Download.Extends (tempfile : Option CString) (d d' : Download) : Prop where
  files : d.files.Kept d'.files tempfile
  running : d.running <+: d'.running
  active : d'.running.length - d.running.length ≤ d'.active - d.active
  payloads : d'.payloads = d.payloads
  messages : d'.messages = d.messages
  err : d'.err = d.err
  phase : d'.phase = d.phase
  upToDate : d.upToDate ⊆ d'.upToDate

variable {opts : DownloadOptions} {localpath : CString} {errors : CString → ℕ}
  {files files' files'' : Files} {payload p q : Payload} {r : AddResults}
  {tempfile : Option CString} {d d' d'' : Download}

namespace Files

theorem Kept.refl (files : Files) (tempfile : Option CString) : files.Kept files tempfile :=
  fun _ _ => id

theorem Kept.trans (h : files.Kept files' tempfile) (h' : files'.Kept files'' tempfile) :
    files.Kept files'' tempfile :=
  fun path hpath hsome => h' path hpath (h path hpath hsome)

theorem Kept.weaken (h : files.Kept files' none) (tempfile : Option CString) :
    files.Kept files' tempfile :=
  fun path _ => h path nofun

theorem kept_update_some (files : Files) (path : CString) (size : ℤ) (tempfile : Option CString) :
    files.Kept (Function.update files path (some size)) tempfile := by
  intro other _ hsome
  by_cases heq : other = path
  · rw [heq, Function.update_self]
    rfl
  · rwa [Function.update_of_ne heq]

theorem kept_unlinkFile (files : Files) (tempfile : Option CString) :
    files.Kept (unlinkFile files tempfile) tempfile := by
  intro path hpath hsome
  cases tempfile with
  | none => exact hsome
  | some tempfile =>
    have hne : path ≠ tempfile := fun heq => hpath (by rw [heq])
    rwa [unlinkFile, Function.update_of_ne hne]

theorem kept_truncateFile (files : Files) (path : Option CString) (size : ℤ)
    (tempfile : Option CString) : files.Kept (truncateFile files path size) tempfile := by
  intro other _ hsome
  cases path with
  | none => exact hsome
  | some path =>
    rw [truncateFile]
    by_cases heq : other = path
    · rw [heq] at hsome ⊢
      rwa [Function.update_self, Option.isSome_map]
    · rwa [Function.update_of_ne heq]

theorem kept_renameFile (files : Files) (temp dest : CString) (permitted : Bool) :
    files.Kept (renameFile files temp dest permitted).2 (some temp) := by
  intro path hpath hsome
  have hne : path ≠ temp := fun heq => hpath (by rw [heq])
  unfold renameFile
  cases files temp with
  | none => exact hsome
  | some size =>
    cases permitted with
    | false => exact hsome
    | true =>
      refine kept_update_some _ dest size none path nofun ?_
      rwa [Function.update_of_ne hne]

end Files

/-! ## Starting a payload -/

theorem chooseUrl_eq_some {memory : Bool} {chosen : Payload}
    (h : chooseUrl errors payload memory = some chosen) :
    ∃ servers fileurl, chosen = { payload with servers := servers, fileurl := fileurl } := by
  unfold chooseUrl at h
  cases hurl : payload.fileurl with
  | some url =>
    rw [hurl] at h
    dsimp only at h
    split_ifs at h
    obtain rfl := Option.some.inj h
    exact ⟨_, _, rfl⟩
  | none =>
    rw [hurl] at h
    dsimp only at h
    split at h
    · split_ifs at h
      obtain rfl := Option.some.inj h
      exact ⟨_, _, rfl⟩
    · cases h

theorem chooseNames_kept {named : Payload}
    (h : chooseNames localpath files payload r = some (named, files')) :
    files.Kept files' none := by
  unfold chooseNames at h
  dsimp only at h
  split_ifs at h
  · obtain ⟨-, rfl⟩ := Prod.mk.inj (Option.some.inj h)
    exact .refl _ _
  · obtain ⟨suffix, -, heq⟩ := Option.map_eq_some_iff.mp h
    obtain ⟨-, rfl⟩ := Prod.mk.inj heq
    exact Files.kept_update_some _ _ _ _

theorem PackagePayload.chooseNames (h : PackagePayload payload) {named : Payload}
    (hnamed : Dload.chooseNames localpath files payload r = some (named, files')) :
    files' = files ∧ named = { payload with
      destfileName := some (destination localpath payload)
      tempfileName := some (partFile localpath payload) } := by
  obtain ⟨name, hname, hne⟩ := h.name
  unfold Dload.chooseNames at hnamed
  simp only [hname, Option.getD_some, h.random, Bool.not_false, Bool.true_and, ne_eq, hne,
    not_false_eq_true, decide_true, if_true] at hnamed
  split_ifs at hnamed
  obtain ⟨rfl, rfl⟩ := Prod.mk.inj (Option.some.inj hnamed)
  refine ⟨rfl, ?_⟩
  rw [destination, partFile, hname, Option.getD_some]
  simp only [h.random]

theorem kept_openTempfile (files : Files) (payload : Payload) :
    files.Kept (openTempfile files payload) none := by
  unfold openTempfile
  cases payload.tempfileName with
  | none => exact .refl _ _
  | some tempfile => exact Files.kept_update_some _ _ _ _

/-- No file goes when a payload is started. -/
theorem curlAddPayload_kept (localpath : CString) (errors : CString → ℕ) (files : Files)
    (payload : Payload) (r : AddResults) :
    files.Kept (curlAddPayload localpath errors files payload r).files none := by
  unfold curlAddPayload
  cases chooseUrl errors payload r.memory with
  | none => exact .refl _ _
  | some chosen =>
    dsimp only
    cases hnames : chooseNames localpath files { chosen with append := false } r with
    | none => exact .refl _ _
    | some named =>
      obtain ⟨named, files'⟩ := named
      have hkept := chooseNames_kept hnames
      dsimp only
      split_ifs
      · exact hkept
      · exact hkept
      · exact hkept.trans (kept_openTempfile _ _)
      · exact hkept

theorem addTo_extends (outcome : AddOutcome) (running : List Payload) :
    running <+: outcome.addTo running := by
  unfold AddOutcome.addTo
  split_ifs
  · exact List.prefix_append _ _
  · exact List.prefix_rfl

theorem length_addTo_le (outcome : AddOutcome) (running : List Payload) :
    (outcome.addTo running).length ≤ running.length + 1 := by
  unfold AddOutcome.addTo
  split_ifs
  · rw [List.length_append, List.length_singleton]
  · exact Nat.le_succ _

theorem mem_addTo {outcome : AddOutcome} (h : outcome.added = true) (running : List Payload) :
    outcome.payload ∈ outcome.addTo running := by
  rw [AddOutcome.addTo, if_pos h]
  exact List.mem_append_right _ (List.mem_singleton_self _)

theorem curlSetHandleOpts_cases (files : Files) (payload : Payload) :
    curlSetHandleOpts files payload = payload ∨
      ∃ size, payload.tempfileName.bind files = some size ∧ payload.allowResume = true ∧
        (payload.force = true ∨ payload.destfileName.bind files = none) ∧
        curlSetHandleOpts files payload = { payload with append := true, initialSize := size } := by
  unfold curlSetHandleOpts
  by_cases hcondition : (!payload.force && (payload.destfileName.bind files).isSome) = true
  · exact Or.inl (if_pos hcondition)
  · rw [if_neg hcondition]
    cases htemp : payload.tempfileName.bind files with
    | none => exact Or.inl rfl
    | some size =>
      by_cases hresume : payload.allowResume = true
      · refine Or.inr ⟨size, rfl, hresume, ?_, if_pos hresume⟩
        rw [Bool.and_eq_true, not_and_or, Bool.not_eq_true', Bool.not_eq_false,
          Option.not_isSome_iff_eq_none] at hcondition
        exact hcondition
      · exact Or.inl (if_neg hresume)

/-- A payload of the caller that starts well is transferred, unless its `.part` file is
complete. -/
theorem PackagePayload.curlAddPayload (h : PackagePayload p) (hrequired : p.errorsOk = false)
    (hret : (Dload.curlAddPayload localpath errors files p r).ret = 0) :
    PartComplete localpath files p ∨
      (Dload.curlAddPayload localpath errors files p r).added = true ∧
        Tracks localpath (Dload.curlAddPayload localpath errors files p r).payload p := by
  unfold Dload.curlAddPayload at hret ⊢
  cases hchosen : chooseUrl errors p r.memory with
  | none => simp [hchosen] at hret
  | some chosen =>
    obtain ⟨servers, fileurl, rfl⟩ := chooseUrl_eq_some hchosen
    rw [hchosen] at hret
    dsimp only at hret ⊢
    set chosen : Payload :=
      { p with servers := servers, fileurl := fileurl, append := false } with hdef
    have hpackage : PackagePayload chosen := ⟨h.name, h.initialSize, h.random, h.trust, h.signature⟩
    cases hnames : Dload.chooseNames localpath files chosen r with
    | none => simp [hnames] at hret
    | some named =>
      obtain ⟨named, files'⟩ := named
      obtain ⟨rfl, rfl⟩ := hpackage.chooseNames hnames
      rw [hnames] at hret
      dsimp only at hret ⊢
      have hdest : destination localpath chosen = destination localpath p := rfl
      have hpart : partFile localpath chosen = partFile localpath p := rfl
      set named : Payload := { chosen with
        destfileName := some (destination localpath chosen)
        tempfileName := some (partFile localpath chosen) } with hnamed
      have htracks : ∀ append size opened, Tracks localpath
          { named with append := append, initialSize := size, opened := opened } p :=
        fun _ _ _ => ⟨rfl, hrequired, h.trust, h.signature, rfl, rfl⟩
      -- the `.part` file can only be complete when it is resumed
      rcases curlSetHandleOpts_cases files' named with hopts | ⟨size, hsize, hresume, hdest, hopts⟩
      · have hincomplete : ¬ (named.maxSize = named.initialSize ∧ named.maxSize ≠ 0) := by
          rw [show named.initialSize = 0 from h.initialSize]
          exact fun hboth => hboth.2 hboth.1
        rw [hopts, if_neg hincomplete] at hret ⊢
        right
        split_ifs at hret ⊢
        · exact ⟨rfl, htracks _ _ _⟩
        · exact ⟨rfl, htracks _ _ _⟩
        · cases hret
      · rw [hopts] at hret ⊢
        by_cases hcomplete : named.maxSize = size ∧ named.maxSize ≠ 0
        · left
          exact ⟨hresume, hcomplete.2, by rw [show p.maxSize = size from hcomplete.1]; exact hsize,
            hdest⟩
        · rw [if_neg hcomplete] at hret ⊢
          right
          split_ifs at hret ⊢
          · exact ⟨rfl, htracks _ _ _⟩
          · exact ⟨rfl, htracks _ _ _⟩
          · cases hret

/-! ## The end of a transfer -/

namespace Download

variable {transfer failed : Payload} {m : Message} {f : FinishResults}

theorem Extends.refl (tempfile : Option CString) (d : Download) : Extends tempfile d d where
  files := .refl _ _
  running := List.prefix_rfl
  active := by omega
  payloads := rfl
  messages := rfl
  err := rfl
  phase := rfl
  upToDate := List.Subset.refl _

theorem Extends.trans (h : Extends tempfile d d') (h' : Extends tempfile d' d'') :
    Extends tempfile d d'' where
  files := h.files.trans h'.files
  running := h.running.trans h'.running
  active := by
    have hd := h.active
    have hd' := h'.active
    omega
  payloads := h'.payloads.trans h.payloads
  messages := h'.messages.trans h.messages
  err := h'.err.trans h.err
  phase := h'.phase.trans h.phase
  upToDate := List.Subset.trans h.upToDate h'.upToDate

/-- Only files are changed. -/
theorem extends_files {files : Files} (h : d.files.Kept files tempfile) :
    Extends tempfile d { d with files := files } where
  files := h
  running := List.prefix_rfl
  active := by
    dsimp only
    omega
  payloads := rfl
  messages := rfl
  err := rfl
  phase := rfl
  upToDate := List.Subset.refl _

theorem extends_softError (d : Download) (payload : Payload) (tempfile : Option CString) :
    Extends tempfile d (d.softError payload) :=
  { Extends.refl tempfile d with }

theorem extends_hardError (d : Download) (payload : Payload) (tempfile : Option CString) :
    Extends tempfile d (d.hardError payload) :=
  { Extends.refl tempfile d with }

/-- What the end of a transfer means for the payload of the caller: a failure is returned, or
another transfer has taken over, or the payload is settled. -/
def Accounted (localpath : CString) (payload : Payload) (result : Int × Download) : Prop :=
  result.1 = -1 ∨ (∃ q ∈ result.2.running, Tracks localpath q payload) ∨
    Settled localpath result.2 payload

theorem renameTempfile_kept (d : Download) (transfer : Payload) (f : FinishResults) (ret : Int) :
    d.files.Kept (d.renameTempfile transfer f ret).2 transfer.tempfileName := by
  unfold renameTempfile
  split_ifs
  · cases htemp : transfer.tempfileName with
    | none => exact .refl _ _
    | some tempfile =>
      cases transfer.destfileName with
      | none => exact .refl _ _
      | some destfile => exact Files.kept_renameFile _ _ _ _
  · exact .refl _ _

theorem cleanup_extends (d : Download) (transfer : Payload) (f : FinishResults) (ret : Int) :
    Extends transfer.tempfileName d (d.cleanup transfer f ret).2 := by
  have hrename := renameTempfile_kept d transfer f ret
  refine extends_files ?_
  split_ifs
  · exact hrename.trans (Files.kept_unlinkFile _ _)
  · exact hrename

/-- After a successful renaming the destination is there. -/
theorem cleanup_accounted (h : Tracks localpath transfer p)
    (hne : transfer.tempfileName ≠ some (destination localpath p)) :
    Accounted localpath p (d.cleanup transfer f 0) := by
  obtain ⟨tempfile, htemp⟩ := Option.isSome_iff_exists.mp h.tempfile
  have hrename : d.renameTempfile transfer f 0 =
      let renamed := renameFile d.files tempfile (destination localpath p) f.rename
      (if renamed.1 then 0 else -1, renamed.2) := by
    rw [renameTempfile, if_pos rfl, htemp, h.destfile]
  have hkept := Files.kept_unlinkFile
    (renameFile d.files tempfile (destination localpath p) f.rename).2 transfer.tempfileName
    (destination localpath p) hne
  cases hrenamed : (renameFile d.files tempfile (destination localpath p) f.rename).1 with
  | false =>
    left
    rw [cleanup, hrename]
    simp [hrenamed, h.required]
  | true =>
    right
    right
    left
    have hdest : ((renameFile d.files tempfile (destination localpath p) f.rename).2
        (destination localpath p)).isSome := by
      unfold renameFile at hrenamed ⊢
      cases hsize : d.files tempfile with
      | none => simp [hsize] at hrenamed
      | some size =>
        cases hpermitted : f.rename with
        | false => simp [hsize, hpermitted] at hrenamed
        | true => simp
    rw [cleanup, hrename]
    dsimp only
    split_ifs
    · exact hkept hdest
    · exact hdest

/-- A failure of a required transfer is reported. -/
theorem cleanup_failed (h : transfer.errorsOk = false) : (d.cleanup transfer f (-1)).1 = -1 := by
  simp [cleanup, renameTempfile, h]

theorem curlRetryNextServer_eq_some {retried : Payload} {files : Files}
    (h : d.curlRetryNextServer transfer f = some (retried, files)) :
    d.files.Kept files tempfile ∧ ∃ servers fileurl append size, retried = { transfer with
      servers := servers
      fileurl := fileurl
      append := append
      initialSize := size } := by
  unfold curlRetryNextServer at h
  cases hservers : transfer.servers.dropWhile (shouldSkipServer d.serverErrors) with
  | nil =>
    rw [hservers] at h
    cases h
  | cons server servers =>
    rw [hservers] at h
    dsimp only at h
    cases hsize : if transfer.allowResume then transfer.tempfileName.bind d.files else none with
    | some size =>
      rw [hsize] at h
      dsimp only at h
      split_ifs at h
      obtain ⟨rfl, rfl⟩ := Prod.mk.inj (Option.some.inj h)
      exact ⟨.refl _ _, _, _, _, _, rfl⟩
    | none =>
      rw [hsize] at h
      dsimp only at h
      split_ifs at h
      obtain ⟨rfl, rfl⟩ := Prod.mk.inj (Option.some.inj h)
      exact ⟨Files.kept_truncateFile _ _ _ _, _, _, _, _, rfl⟩

theorem retryOrCleanup_extends (d : Download) (transfer failed : Payload) (f : FinishResults)
    (hfailed : failed.tempfileName = transfer.tempfileName) :
    Extends transfer.tempfileName d (d.retryOrCleanup transfer f failed).2 := by
  unfold retryOrCleanup
  cases hretry : d.curlRetryNextServer transfer f with
  | none =>
    rw [← hfailed]
    exact cleanup_extends d failed f (-1)
  | some retried =>
    obtain ⟨retried, files⟩ := retried
    refine (extends_files (curlRetryNextServer_eq_some hretry).1).trans ?_
    exact { Extends.refl _ _ with
      running := List.prefix_append _ _
      active := by
        dsimp only
        rw [List.length_append, List.length_singleton]
        omega }

/-- A transfer that failed is retried, or its failure is reported. -/
theorem retryOrCleanup_accounted (h : Tracks localpath transfer p)
    (hfailed : failed.errorsOk = transfer.errorsOk) :
    Accounted localpath p (d.retryOrCleanup transfer f failed) := by
  unfold retryOrCleanup
  cases hretry : d.curlRetryNextServer transfer f with
  | none => exact Or.inl (cleanup_failed (hfailed.trans h.required))
  | some retried =>
    obtain ⟨retried, files⟩ := retried
    obtain ⟨-, servers, fileurl, append, size, rfl⟩ :=
      (curlRetryNextServer_eq_some hretry : d.files.Kept files none ∧ _)
    refine Or.inr (Or.inl ⟨_, List.mem_append_right _ (List.mem_singleton_self _), ?_⟩)
    exact ⟨h.address, h.required, h.trust, h.signature, h.destfile, h.tempfile⟩

theorem endTransfer_extends (d : Download) (transfer : Payload) (m : Message)
    (f : FinishResults) : Extends transfer.tempfileName d (d.endTransfer transfer m f).2 := by
  unfold endTransfer
  split_ifs
  · refine (extends_files (Files.kept_unlinkFile _ _)).trans (Extends.trans ?_
      (cleanup_extends _ transfer f 1))
    exact { Extends.refl _ _ with upToDate := List.Subset.refl _ }
  · refine (extends_files (Files.kept_unlinkFile _ _)).trans (Extends.trans ?_
      (cleanup_extends _ transfer f 1))
    exact { Extends.refl _ _ with upToDate := List.subset_cons_self _ _ }
  · exact cleanup_extends d transfer f (-1)
  · exact cleanup_extends d transfer f 0

theorem endTransfer_accounted (h : Tracks localpath transfer p)
    (hne : transfer.tempfileName ≠ some (destination localpath p)) :
    Accounted localpath p (d.endTransfer transfer m f) := by
  unfold endTransfer
  split_ifs with htimecond hsignature
  · rw [h.signature] at hsignature
    cases hsignature
  · refine Or.inr (Or.inr (Or.inr ?_))
    refine (cleanup_extends _ transfer f 1).upToDate ?_
    rw [← h.address]
    exact List.mem_cons_self ..
  · exact Or.inl (cleanup_failed h.required)
  · exact cleanup_accounted h hne

theorem addSignature_extends (d : Download) (opts : DownloadOptions) (transfer : Payload)
    (m : Message) (f : FinishResults) :
    Extends tempfile d (d.addSignature opts transfer m f) := by
  have hkept := curlAddPayload_kept opts.localpath d.serverErrors d.files
    (signaturePayload opts transfer m) f.sigAdd
  refine (extends_files (hkept.weaken tempfile)).trans ?_
  exact { Extends.refl _ _ with
    running := addTo_extends _ _
    active := by
      have hlength := length_addTo_le (curlAddPayload opts.localpath d.serverErrors d.files
        (signaturePayload opts transfer m) f.sigAdd) d.running
      show ((AddOutcome.addTo _ d.running).length : ℤ) - d.running.length ≤ d.active + 1 - d.active
      omega }

theorem succeed_extends (d : Download) (opts : DownloadOptions) (transfer : Payload) (m : Message)
    (f : FinishResults) : Extends transfer.tempfileName d (d.succeed opts transfer m f).2 := by
  unfold succeed
  set named := if transfer.trustRemoteName then
    { transfer with destfileName := trustedDestfile opts transfer m } else transfer with hnamed
  have htemp : named.tempfileName = transfer.tempfileName := by
    rw [hnamed]
    split_ifs <;> rfl
  rw [← htemp]
  dsimp only
  split_ifs
  · exact (addSignature_extends ..).trans (endTransfer_extends ..)
  · exact cleanup_extends ..
  · exact endTransfer_extends ..

theorem succeed_accounted (h : Tracks localpath transfer p)
    (hne : transfer.tempfileName ≠ some (destination localpath p)) :
    Accounted localpath p (d.succeed opts transfer m f) := by
  unfold succeed
  rw [h.trust]
  dsimp only
  rw [if_neg Bool.false_ne_true]
  split_ifs
  · exact endTransfer_accounted h hne
  · exact Or.inl (cleanup_failed h.required)
  · exact endTransfer_accounted h hne

theorem extends_countError (d : Download) (transfer : Payload) (tempfile : Option CString) :
    Extends tempfile d (d.countError transfer) := by
  unfold countError
  split_ifs
  · exact .refl _ _
  · exact extends_softError ..

theorem httpError_extends (d : Download) (transfer : Payload) (f : FinishResults) :
    Extends transfer.tempfileName d (d.httpError transfer f).2 := by
  refine (extends_countError d transfer _).trans ?_
  unfold httpError
  generalize d.countError transfer = counted
  dsimp only
  by_cases hfailed : (f.fileSize.isSome && f.fileSize ≠ some transfer.initialSize && !f.truncate)
      = true
  · rw [if_pos hfailed]
    exact .refl _ _
  · rw [if_neg hfailed]
    refine (extends_files ?_).trans (retryOrCleanup_extends _ _ _ _ rfl)
    split_ifs
    · exact Files.kept_truncateFile _ _ _ _
    · exact .refl _ _

theorem httpError_accounted (h : Tracks localpath transfer p) :
    Accounted localpath p (d.httpError transfer f) := by
  unfold httpError
  generalize d.countError transfer = counted
  dsimp only
  by_cases hfailed : (f.fileSize.isSome && f.fileSize ≠ some transfer.initialSize && !f.truncate)
      = true
  · rw [if_pos hfailed]
    exact Or.inl rfl
  · rw [if_neg hfailed]
    exact retryOrCleanup_accounted h rfl

/-- What the end of a transfer leaves as it is. -/
theorem curlCheckFinishedDownload_extends (d : Download) (opts : DownloadOptions)
    (transfer : Payload) (m : Message) (f : FinishResults) :
    Extends transfer.tempfileName d (d.curlCheckFinishedDownload opts transfer m f).2 := by
  unfold curlCheckFinishedDownload
  cases m.result with
  | ok =>
    dsimp only
    split_ifs
    · exact httpError_extends ..
    · exact succeed_extends ..
  | abortedByCallback =>
    dsimp only
    split_ifs
    · exact (extends_softError ..).trans
        (cleanup_extends _ { transfer with unlinkOnFail := true } f (-1))
    · exact cleanup_extends ..
  | couldntResolveHost =>
    exact (extends_hardError ..).trans (retryOrCleanup_extends _ _ _ _ rfl)
  | failed =>
    refine (extends_countError ..).trans (retryOrCleanup_extends _ _ _ _ ?_)
    split_ifs <;> rfl

/-- A required transfer of the caller that ends is retried, is settled, or its failure is
reported. -/
theorem curlCheckFinishedDownload_accounted (h : Tracks localpath transfer p)
    (hne : transfer.tempfileName ≠ some (destination localpath p)) :
    Accounted localpath p (d.curlCheckFinishedDownload opts transfer m f) := by
  unfold curlCheckFinishedDownload
  cases m.result with
  | ok =>
    dsimp only
    split_ifs
    · exact httpError_accounted h
    · exact succeed_accounted h hne
  | abortedByCallback =>
    dsimp only
    split_ifs
    · exact Or.inl (cleanup_failed h.required)
    · exact Or.inl (cleanup_failed h.required)
  | couldntResolveHost => exact retryOrCleanup_accounted h rfl
  | failed =>
    refine retryOrCleanup_accounted h ?_
    split_ifs <;> rfl

/-! ## Runs -/

variable {all : List Payload} {e : Event}

/-- Every required payload of the caller is still to be started, is in a transfer, or is
settled. -/
structure Account (localpath : CString) (all : List Payload) (d : Download) : Prop where
  active : d.running.length ≤ d.active
  payloads : ∀ p ∈ d.payloads, p ∈ all
  messages : d.phase ≠ .reading → d.messages = []
  accounted : ∀ p ∈ all, p.errorsOk = false → p ∈ d.payloads ∨
    (∃ q, (q ∈ d.running ∨ q ∈ d.messages.map Prod.fst) ∧ Tracks localpath q p) ∨
      Settled localpath d p

/-- No required payload is started whose `.part` file is complete, and no transfer that ends has
the destination of a required payload as its temporary file. -/
def Regular (localpath : CString) (all : List Payload) (d : Download) : Event → Prop
  | .start _ => ∀ p ∈ d.payloads.head?, p.errorsOk = false → ¬ PartComplete localpath d.files p
  | .message i _ => ∀ t ∈ d.messages[i]?, ∀ p ∈ all, p.errorsOk = false →
      t.1.tempfileName ≠ some (destination localpath p)
  | _ => True

/-- What is settled stays settled. -/
theorem settled_kept (h : Settled localpath d p)
    (hfiles : (d.files (destination localpath p)).isSome →
      (d'.files (destination localpath p)).isSome)
    (hreported : d.upToDate ⊆ d'.upToDate) : Settled localpath d' p :=
  h.imp hfiles fun hmem => hreported hmem

theorem mem_running_cases {running : List Payload} {ended : List (Option Message)}
    (hlength : ended.length = running.length) (hq : q ∈ running) :
    q ∈ stillRunning running ended ∨ q ∈ (newMessages running ended).map Prod.fst := by
  obtain ⟨i, hi, rfl⟩ := List.mem_iff_getElem.mp hq
  have hpair : (running[i], ended[i]) ∈ running.zip ended := by
    rw [← List.getElem_zip (h := by rw [List.length_zip]; omega)]
    exact List.getElem_mem _
  cases hended : ended[i] with
  | none =>
    left
    exact List.mem_filterMap.mpr ⟨_, hpair, by simp [hended]⟩
  | some m =>
    right
    refine List.mem_map.mpr ⟨(running[i], m), List.mem_filterMap.mpr ⟨_, hpair, ?_⟩, rfl⟩
    simp [hended]

/-- The payload that is started is accounted for. -/
theorem Account.start (hall : ∀ p ∈ all, PackagePayload p) (h : Account opts.localpath all d)
    {r : AddResults} (hregular : Regular opts.localpath all d (.start r))
    (hstep : d.step opts (.start r) = some d') :
    d'.err = true ∨ Account opts.localpath all d' := by
  unfold step at hstep
  dsimp only at hstep
  split_ifs at hstep with hphase
  · cases hpayloads : d.payloads with
    | nil => simp [hpayloads] at hstep
    | cons payload rest =>
      rw [hpayloads] at hstep
      dsimp only at hstep
      set outcome := curlAddPayload opts.localpath d.serverErrors d.files payload r with houtcome
      split_ifs at hstep with hret
      · obtain rfl := Option.some.inj hstep
        right
        have hrest : ∀ p ∈ rest, p ∈ d.payloads := fun p hp =>
          hpayloads ▸ List.mem_cons_of_mem _ hp
        refine {
          active := ?_
          payloads := fun p hp => h.payloads p (hrest p hp)
          messages := h.messages
          accounted := fun p hp hrequired => ?_ }
        · have hactive := h.active
          have hlength := length_addTo_le outcome d.running
          show ((outcome.addTo d.running).length : ℤ) ≤ d.active + 1
          omega
        · rcases h.accounted p hp hrequired with hstart | ⟨q, hq, htracks⟩ | hsettled
          · rw [hpayloads] at hstart
            rcases List.mem_cons.mp hstart with rfl | hstart
            · rcases (hall p hp).curlAddPayload hrequired hret with hcomplete | ⟨hadded, htracks⟩
              · exact absurd hcomplete (hregular p (by rw [hpayloads]; rfl) hrequired)
              · exact Or.inr (Or.inl ⟨_, Or.inl (mem_addTo hadded _), htracks⟩)
            · exact Or.inl hstart
          · exact Or.inr (Or.inl ⟨q, hq.imp (fun hq => (addTo_extends _ _).subset hq) id,
              htracks⟩)
          · refine Or.inr (Or.inr (settled_kept hsettled ?_ (List.Subset.refl _)))
            exact curlAddPayload_kept _ _ _ _ _ _ nofun
      · obtain rfl := Option.some.inj hstep
        exact Or.inl rfl

/-- Transfers that end have messages. -/
theorem Account.perform (h : Account opts.localpath all d) {ended : List (Option Message)}
    {sizes : CString → ℤ} {fault : Option ℤ}
    (hstep : d.step opts (.perform ended sizes fault) = some d') :
    d'.err = true ∨ Account opts.localpath all d' := by
  obtain ⟨hlength, hstep⟩ : ended.length = d.running.length ∧ _ := by
    unfold step at hstep
    obtain ⟨hguard, hstep⟩ := Option.ite_none_right_eq_some.mp hstep
    exact ⟨hguard.2.2, hstep⟩
  obtain rfl := Option.some.inj hstep
  cases fault with
  | some active => exact Or.inl (Bool.or_true _)
  | none =>
    right
    refine {
      active := le_rfl
      payloads := h.payloads
      messages := fun hphase => absurd rfl hphase
      accounted := fun p hp hrequired => ?_ }
    rcases h.accounted p hp hrequired with hstart | ⟨q, hq, htracks⟩ | hsettled
    · exact Or.inl hstart
    · refine Or.inr (Or.inl ⟨q, ?_, htracks⟩)
      rw [List.map_append, List.mem_append]
      rcases hq with hq | hq
      · exact (mem_running_cases hlength hq).imp id Or.inr
      · exact Or.inr (Or.inl hq)
    · refine Or.inr (Or.inr (settled_kept hsettled (fun hsome => ?_) (List.Subset.refl _)))
      rwa [Option.isSome_map]

/-- A transfer that ends is retried, or its payload is settled, or the download fails. -/
theorem Account.message (h : Account opts.localpath all d) {i : ℕ} {f : FinishResults}
    (hregular : Regular opts.localpath all d (.message i f))
    (hstep : d.step opts (.message i f) = some d') :
    d'.err = true ∨ Account opts.localpath all d' := by
  unfold step at hstep
  obtain ⟨hphase, hstep⟩ := Option.ite_none_right_eq_some.mp hstep
  cases hmessage : d.messages[i]? with
  | none =>
    rw [hmessage] at hstep
    cases hstep
  | some t =>
    obtain ⟨transfer, m⟩ := t
    rw [hmessage] at hstep
    dsimp only at hstep
    set erased : Download := { d with messages := d.messages.eraseIdx i } with herased
    have hextends := curlCheckFinishedDownload_extends erased opts transfer m f
    have haccounted : ∀ p ∈ all, p.errorsOk = false → Tracks opts.localpath transfer p →
        Accounted opts.localpath p (erased.curlCheckFinishedDownload opts transfer m f) :=
      fun p hp hrequired htracks => curlCheckFinishedDownload_accounted htracks
        (hregular (transfer, m) hmessage p hp hrequired)
    generalize erased.curlCheckFinishedDownload opts transfer m f = result at *
    split_ifs at hstep with hret
    · obtain rfl := Option.some.inj hstep
      exact Or.inl rfl
    · obtain rfl := Option.some.inj hstep
      right
      refine {
        active := ?_
        payloads := fun p hp => h.payloads p (hextends.payloads ▸ hp)
        messages := fun hreading => absurd (hextends.phase.trans hphase) hreading
        accounted := fun p hp hrequired => ?_ }
      · have hactive := h.active
        have hresult : (result.2.running.length : ℤ) - d.running.length
            ≤ result.2.active - d.active := hextends.active
        exact (by omega : (result.2.running.length : ℤ) ≤ result.2.active)
      · have hend : Tracks opts.localpath transfer p →
            (∃ q ∈ result.2.running, Tracks opts.localpath q p) ∨
              Settled opts.localpath result.2 p := fun htracks =>
          (haccounted p hp hrequired htracks).resolve_left hret
        rcases h.accounted p hp hrequired with hstart | ⟨q, hq | hq, htracks⟩ | hsettled
        · exact Or.inl (hextends.payloads ▸ hstart)
        · exact Or.inr (Or.inl ⟨q, Or.inl (hextends.running.subset hq), htracks⟩)
        · obtain ⟨t, ht, rfl⟩ := List.mem_map.mp hq
          obtain ⟨j, hj⟩ := List.mem_iff_getElem?.mp ht
          by_cases hij : j = i
          · obtain rfl : (transfer, m) = t := Option.some.inj (hmessage.symm.trans (hij ▸ hj))
            rcases hend htracks with ⟨q, hq, htracks⟩ | hsettled
            · exact Or.inr (Or.inl ⟨q, Or.inl hq, htracks⟩)
            · exact Or.inr (Or.inr hsettled)
          · refine Or.inr (Or.inl ⟨t.1, Or.inr ?_, htracks⟩)
            dsimp only
            rw [hextends.messages]
            exact List.mem_map_of_mem (List.mem_eraseIdx_iff_getElem?.mpr ⟨j, hij, hj⟩)
        · refine Or.inr (Or.inr (settled_kept hsettled (fun hsome => ?_) hextends.upToDate))
          exact hextends.files _ (hregular (transfer, m) hmessage p hp hrequired) hsome

/-- A failure is not forgotten. -/
theorem step_err (hstep : d.step opts e = some d') (herr : d.err = true) : d'.err = true := by
  cases e with
  | enter =>
    obtain ⟨-, hstep⟩ := Option.ite_none_right_eq_some.mp hstep
    obtain rfl := Option.some.inj hstep
    exact herr
  | start r =>
    obtain ⟨-, hstep⟩ := Option.ite_none_right_eq_some.mp hstep
    cases hpayloads : d.payloads with
    | nil =>
      rw [hpayloads] at hstep
      cases hstep
    | cons payload rest =>
      rw [hpayloads] at hstep
      dsimp only at hstep
      split_ifs at hstep
      · obtain rfl := Option.some.inj hstep
        exact herr
      · obtain rfl := Option.some.inj hstep
        rfl
  | perform ended sizes fault =>
    obtain ⟨-, hstep⟩ := Option.ite_none_right_eq_some.mp hstep
    obtain rfl := Option.some.inj hstep
    exact Bool.or_eq_true_iff.mpr (Or.inl herr)
  | message i f =>
    obtain ⟨-, hstep⟩ := Option.ite_none_right_eq_some.mp hstep
    cases hmessage : d.messages[i]? with
    | none =>
      rw [hmessage] at hstep
      cases hstep
    | some t =>
      obtain ⟨transfer, m⟩ := t
      rw [hmessage] at hstep
      dsimp only at hstep
      have hextends := curlCheckFinishedDownload_extends
        { d with messages := d.messages.eraseIdx i } opts transfer m f
      split_ifs at hstep
      · obtain rfl := Option.some.inj hstep
        rfl
      · obtain rfl := Option.some.inj hstep
        exact hextends.err.trans herr
  | noMessage =>
    obtain ⟨-, hstep⟩ := Option.ite_none_right_eq_some.mp hstep
    obtain rfl := Option.some.inj hstep
    exact herr

/-- **One event** keeps the account of the payloads, or the download fails.  There is one case for
each event; only the start of a payload and a message concern a payload, and they are the two events
of which `Regular` asks something. -/
theorem Account.step (hall : ∀ p ∈ all, PackagePayload p) (h : Account opts.localpath all d)
    (hregular : Regular opts.localpath all d e) (hstep : d.step opts e = some d') :
    d'.err = true ∨ Account opts.localpath all d' := by
  cases e with
  | enter =>
    obtain ⟨hguard, hstep⟩ := Option.ite_none_right_eq_some.mp hstep
    obtain rfl := Option.some.inj hstep
    refine Or.inr { h with messages := fun _ => h.messages ?_ }
    rw [hguard.1]
    exact nofun
  | start r => exact h.start hall hregular hstep
  | perform ended sizes fault => exact h.perform hstep
  | message i f => exact h.message hregular hstep
  | noMessage =>
    obtain ⟨hguard, hstep⟩ := Option.ite_none_right_eq_some.mp hstep
    obtain rfl := Option.some.inj hstep
    exact Or.inr { h with messages := fun _ => hguard.2 }

theorem account_init (localpath : CString) (payloads : List Payload) (files : Files)
    (errors : CString → ℕ) :
    Account localpath payloads
      { files := files, serverErrors := errors, payloads := payloads } where
  active := le_rfl
  payloads _ := id
  messages _ := rfl
  accounted _ hp _ := Or.inl hp

/-- **What a successful download leaves.**  In every run in which no required payload is started
with a complete `.part` file, and no temporary file of a transfer is the destination of a required
payload, a return value other than `-1` means that every required payload has its destination, or
was said to be up to date.  The invariant is `Account`: a run that is finished has nothing to start
and no transfer. -/
theorem settled_of_finished (opts : DownloadOptions) {payloads : List Payload} {files : Files}
    {errors : CString → ℕ} (hall : ∀ p ∈ payloads, PackagePayload p)
    (hrun : Execution (step opts) (Regular opts.localpath payloads)
      { files := files, serverErrors := errors, payloads := payloads } d)
    (hfinished : d.Finished) (hret : d.ret ≠ -1) :
    ∀ p ∈ payloads, p.errorsOk = false → Settled opts.localpath d p := by
  have hinvariant : d.err = true ∨ Account opts.localpath payloads d := by
    refine hrun.invariant (I := fun d => d.err = true ∨ Account opts.localpath payloads d)
      (Or.inr (account_init _ _ _ _)) fun t e u ht hregular hstep => ?_
    rcases ht with herr | h
    · exact Or.inl (step_err hstep herr)
    · exact h.step hall hregular hstep
  have herr : d.err ≠ true := by
    intro herr
    rw [ret, if_pos herr] at hret
    exact hret rfl
  have haccount := hinvariant.resolve_left herr
  obtain ⟨hphase, hdone⟩ := hfinished
  rw [not_or, not_lt, ne_eq, not_not] at hdone
  obtain ⟨hactive, hpayloads⟩ := hdone
  have hrunning : d.running = [] := by
    have hlength := haccount.active
    exact List.eq_nil_of_length_eq_zero (by omega)
  have hmessages : d.messages = [] := haccount.messages (by rw [hphase]; exact nofun)
  intro p hp hrequired
  rcases haccount.accounted p hp hrequired with hstart | ⟨q, hq, -⟩ | hsettled
  · rw [hpayloads] at hstart
    cases hstart
  · rw [hrunning, hmessages] at hq
    exact absurd hq (by simp)
  · exact hsettled

/-! ## Two runs -/

instance (localpath : CString) (files : Files) (payload : Payload) :
    Decidable (PartComplete localpath files payload) :=
  inferInstanceAs (Decidable (_ ∧ _ ∧ _ ∧ _))

instance (localpath : CString) (all : List Payload) (d : Download) :
    ∀ e, Decidable (Regular localpath all d e)
  | .enter => isTrue trivial
  | .start _ => inferInstanceAs (Decidable (∀ p ∈ d.payloads.head?, p.errorsOk = false →
      ¬ PartComplete localpath d.files p))
  | .perform .. => isTrue trivial
  | .message i _ => inferInstanceAs (Decidable (∀ t ∈ d.messages[i]?, ∀ p ∈ all,
      p.errorsOk = false → t.1.tempfileName ≠ some (destination localpath p)))
  | .noMessage => isTrue trivial

def exampleOptions : DownloadOptions where
  maxStreams := 1
  dbext := str ".db"
  localpath := str "/cache/"

/-- A package of five octets. -/
def examplePayload : Payload where
  remoteName := some (str "a.pkg")
  filepath := some (str "a.pkg")
  servers := [str "http://mirror"]
  maxSize := 5
  allowResume := true

theorem examplePayload_package : ∀ p ∈ [examplePayload], PackagePayload p := by
  intro p hp
  obtain rfl := List.mem_singleton.mp hp
  exact ⟨⟨_, rfl, by decide +kernel⟩, rfl, rfl, rfl, rfl⟩

/-- The download of the package when so much of it is in the `.part` file. -/
def exampleDownload (size : ℤ) : Download where
  files := fun path => if path = str "/cache/a.pkg.part" then some size else none
  payloads := [examplePayload]

/-- The rest of the package is downloaded. -/
def exampleEvents : List Event := [.enter, .start {},
  .perform [some { result := .ok, remoteSize := 2, bytesDl := 2 }] (fun _ => 5) none,
  .message 0 {}, .noMessage]

instance (d : Download) : Decidable d.Finished := inferInstanceAs (Decidable (_ ∧ ¬ (_ ∨ _)))

/-- What a run ends with: whether it is finished, the return value, the destination and what is up
to date. -/
def observe (d : Download) : Bool × Int × Option ℤ × List ℕ :=
  (d.Finished, d.ret, d.files (str "/cache/a.pkg"), d.upToDate)

theorem settled_of_finished_resumed : ∃ d : Download,
    Execution (step exampleOptions) (Regular (str "/cache/") [examplePayload]) (exampleDownload 3)
      d ∧ d.Finished ∧ d.ret ≠ -1 ∧
    ∀ p ∈ [examplePayload], p.errorsOk = false → Settled (str "/cache/") d p := by
  have hrun : (execute (fun d e => if Regular (str "/cache/") [examplePayload] d e then
      step exampleOptions d e else none) (exampleDownload 3) exampleEvents).map observe
      = some (true, 0, some 5, []) := by decide +kernel
  obtain ⟨d, hd, hobserve⟩ := Option.map_eq_some_iff.mp hrun
  simp only [observe, Prod.mk.injEq, decide_eq_true_eq] at hobserve
  obtain ⟨hfinished, hret, -, -⟩ := hobserve
  have hexecution : Execution (step exampleOptions) (Regular (str "/cache/") [examplePayload])
      (exampleDownload 3) d := (execution_of_execute hd).of_guard
  have hne : d.ret ≠ -1 := by
    rw [hret]
    decide
  exact ⟨d, hexecution, hfinished, hne,
    settled_of_finished exampleOptions examplePayload_package hexecution hfinished hne⟩

/-- A complete `.part` file is left where it is, and the download succeeds. -/
theorem complete_part_not_renamed : ∃ d : Download,
    Execution (step exampleOptions) (fun _ _ => True) (exampleDownload 5) d ∧
      d.Finished ∧ d.ret = 1 ∧ examplePayload.errorsOk = false ∧
        ¬ Settled (str "/cache/") d examplePayload := by
  have hrun : (execute (step exampleOptions) (exampleDownload 5)
      [.enter, .start {}, .perform [] (fun _ => 5) none, .noMessage]).map observe
      = some (true, 1, none, []) := by decide +kernel
  obtain ⟨d, hd, hobserve⟩ := Option.map_eq_some_iff.mp hrun
  simp only [observe, Prod.mk.injEq, decide_eq_true_eq] at hobserve
  obtain ⟨hfinished, hret, hfile, hreported⟩ := hobserve
  have hdest : destination (str "/cache/") examplePayload = str "/cache/a.pkg" := by decide +kernel
  refine ⟨d, execution_of_execute hd, hfinished, hret, rfl, ?_⟩
  rintro (hsome | hmem)
  · rw [hdest, hfile] at hsome
    cases hsome
  · rw [hreported] at hmem
    cases hmem

end Download

end Alpm.Dload
