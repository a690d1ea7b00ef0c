import Alpm.Dload.Completion

/-!
# Where a download may write

The servers choose names: in the `Content-Disposition` header of an answer, in the URL to which they
redirect, and so in the name of the signature file that is then asked for.  Whatever they choose,
the files that a run creates, changes, renames or removes are entries of the directory of the
download (`untouched_of_execution`).

What carries this is that a name never keeps a slash: it is what follows the last one
(`slash_notMem_getFilename`).  The destination and the temporary file of a payload are the directory
with such a name, and with a suffix, or the random part of the name of a temporary file, behind it.
`Confined` says so of a payload, and every function that makes or changes one keeps it.

Two things are assumed, as the documentation of the functions has them: libcurl writes only to the
files that it is given, and the random part has no slash (`Given`).  What the servers answer is
free.
-/

namespace Alpm.Dload

/-- The path names an entry of the directory: what follows the directory has no slash.  The entry
may be any, so a server may still choose among the files of the directory itself. -/
def Inside (localpath path : CString) : Prop := ∃ name, '/' ∉ name ∧ path = localpath ++ name

/-- The names of a payload are those of entries of the directory: the name that it has for the
server has no slash, and its destination and its temporary file, if they are chosen, are in the
directory. -/
structure Confined (localpath : CString) (payload : Payload) : Prop where
  remoteName : ∀ name ∈ payload.remoteName, '/' ∉ name
  destfileName : ∀ path ∈ payload.destfileName, Inside localpath path
  tempfileName : ∀ path ∈ payload.tempfileName, Inside localpath path

/-- A transfer has a temporary file besides. -/
structure Transferred (localpath : CString) (payload : Payload) : Prop extends
    Confined localpath payload where
  opened : payload.tempfileName.isSome

/-- Only entries of the directory differ. -/
def Files.SameOutside (localpath : CString) (files files' : Files) : Prop :=
  ∀ path, ¬ Inside localpath path → files' path = files path

/-- What the end of a transfer may change. -/
structure Download.Stays (localpath : CString) (d d' : Download) : Prop where
  files : d.files.SameOutside localpath d'.files
  running : ∀ p ∈ d'.running, p ∈ d.running ∨ Transferred localpath p
  payloads : d'.payloads = d.payloads
  messages : d'.messages = d.messages

variable {opts : DownloadOptions} {localpath : CString} {errors : CString → ℕ}
  {files files' files'' : Files} {payload p : Payload} {r : AddResults} {path : CString}
  {d d' d'' : Download}

/-! ## Names -/

/-- What follows the last `c` has no `c`. -/
theorem notMem_of_strrchr {s before after : CString} {c : Char}
    (h : strrchr s c = some (before, after)) : c ∉ after := by
  unfold strrchr at h
  split_ifs at h
  obtain ⟨-, rfl⟩ := Prod.mk.inj (Option.some.inj h)
  rw [List.mem_reverse]
  intro hmem
  have hne := List.mem_takeWhile_imp hmem
  simp at hne

theorem slash_notMem_getFilename (url : CString) : '/' ∉ getFilename url := by
  rw [getFilename]
  cases hslash : strrchr url '/' with
  | none => exact strrchr_eq_none.mp hslash
  | some split => exact notMem_of_strrchr hslash

theorem Inside.append {suffix : CString} (h : Inside localpath path) (hsuffix : '/' ∉ suffix) :
    Inside localpath (path ++ suffix) := by
  obtain ⟨name, hname, rfl⟩ := h
  refine ⟨name ++ suffix, ?_, List.append_assoc ..⟩
  rw [List.mem_append, not_or]
  exact ⟨hname, hsuffix⟩

theorem inside_append {name : CString} (hname : '/' ∉ name) :
    Inside localpath (localpath ++ name) :=
  ⟨name, hname, rfl⟩

/-! ## Files -/

namespace Files

theorem SameOutside.refl (localpath : CString) (files : Files) :
    files.SameOutside localpath files :=
  fun _ _ => rfl

theorem SameOutside.trans (h : files.SameOutside localpath files')
    (h' : files'.SameOutside localpath files'') : files.SameOutside localpath files'' :=
  fun path hpath => (h' path hpath).trans (h path hpath)

theorem sameOutside_update (hinside : Inside localpath path) (files : Files) (size : Option ℤ) :
    files.SameOutside localpath (Function.update files path size) := by
  intro other hother
  refine Function.update_of_ne ?_ _ _
  rintro rfl
  exact hother hinside

theorem sameOutside_unlinkFile {tempfile : Option CString}
    (h : ∀ path ∈ tempfile, Inside localpath path) (files : Files) :
    files.SameOutside localpath (unlinkFile files tempfile) := by
  cases tempfile with
  | none => exact .refl _ _
  | some tempfile => exact sameOutside_update (h tempfile rfl) _ _

theorem sameOutside_truncateFile {tempfile : Option CString}
    (h : ∀ path ∈ tempfile, Inside localpath path) (files : Files) (size : ℤ) :
    files.SameOutside localpath (truncateFile files tempfile size) := by
  cases tempfile with
  | none => exact .refl _ _
  | some tempfile => exact sameOutside_update (h tempfile rfl) _ _

theorem sameOutside_renameFile {tempfile destfile : CString} (htemp : Inside localpath tempfile)
    (hdest : Inside localpath destfile) (files : Files) (permitted : Bool) :
    files.SameOutside localpath (renameFile files tempfile destfile permitted).2 := by
  rw [renameFile]
  cases files tempfile with
  | none => exact .refl _ _
  | some size =>
    cases permitted with
    | false => exact .refl _ _
    | true => exact (sameOutside_update htemp _ _).trans (sameOutside_update hdest _ _)

end Files

/-! ## Starting a payload -/

/-- The random part of the name of a temporary file has no slash. -/
def AddResults.Plain (r : AddResults) : Prop := ∀ suffix ∈ r.mkstemp, '/' ∉ suffix

theorem Confined.chooseNames (h : Confined localpath payload) (hplain : r.Plain) {named : Payload}
    (hnamed : chooseNames localpath files payload r = some (named, files')) :
    Transferred localpath named ∧ files.SameOutside localpath files' := by
  have hname : '/' ∉ payload.remoteName.getD (getFilename (payload.fileurl.getD [])) := by
    cases hremote : payload.remoteName with
    | none => exact slash_notMem_getFilename _
    | some name => exact h.remoteName name hremote
  unfold Dload.chooseNames at hnamed
  dsimp only at hnamed
  generalize payload.remoteName.getD (getFilename (payload.fileurl.getD [])) = name at hname hnamed
  split_ifs at hnamed
  · obtain ⟨rfl, rfl⟩ := Prod.mk.inj (Option.some.inj hnamed)
    refine ⟨⟨⟨?_, ?_, ?_⟩, rfl⟩, .refl _ _⟩
    · rintro _ ⟨⟩
      exact hname
    · rintro _ ⟨⟩
      cases hdest : payload.destfileName with
      | none => exact inside_append hname
      | some destfile => exact h.destfileName destfile hdest
    · rintro _ ⟨⟩
      exact (inside_append hname).append (by decide)
  · obtain ⟨suffix, hsuffix, heq⟩ := Option.map_eq_some_iff.mp hnamed
    obtain ⟨rfl, rfl⟩ := Prod.mk.inj heq
    have hrandom : Inside localpath (localpath ++ str "alpmtmp." ++ suffix) :=
      (inside_append (by decide)).append (hplain suffix hsuffix)
    refine ⟨⟨⟨?_, h.destfileName, ?_⟩, rfl⟩, Files.sameOutside_update hrandom _ _⟩
    · rintro _ ⟨⟩
      exact slash_notMem_getFilename _
    · rintro _ ⟨⟩
      exact hrandom

theorem Transferred.openTempfile (h : Transferred localpath payload) (files : Files) :
    files.SameOutside localpath (openTempfile files payload) := by
  rw [Dload.openTempfile]
  cases htemp : payload.tempfileName with
  | none => exact .refl _ _
  | some tempfile => exact Files.sameOutside_update (h.tempfileName tempfile htemp) _ _

/-- A payload that is started stays in the directory. -/
theorem Confined.curlAddPayload (h : Confined localpath payload) (hplain : r.Plain)
    (errors : CString → ℕ) (files : Files) :
    let outcome := curlAddPayload localpath errors files payload r
    files.SameOutside localpath outcome.files ∧
      (outcome.added = true → Transferred localpath outcome.payload) := by
  intro outcome
  unfold outcome Dload.curlAddPayload
  cases hchosen : chooseUrl errors payload r.memory with
  | none => exact ⟨.refl _ _, by simp⟩
  | some chosen =>
    obtain ⟨servers, fileurl, rfl⟩ := chooseUrl_eq_some hchosen
    dsimp only
    set chosen : Payload :=
      { payload with servers := servers, fileurl := fileurl, append := false } with hdef
    have hconfined : Confined localpath chosen := ⟨h.remoteName, h.destfileName, h.tempfileName⟩
    cases hnames : Dload.chooseNames localpath files chosen r with
    | none => exact ⟨.refl _ _, by simp⟩
    | some result =>
      obtain ⟨named, files'⟩ := result
      obtain ⟨htransferred, hsame⟩ := hconfined.chooseNames hplain hnames
      have hopts : Transferred localpath (curlSetHandleOpts files' named) := by
        rcases curlSetHandleOpts_cases files' named with heq | ⟨size, -, -, -, heq⟩
        · rw [heq]
          exact htransferred
        · rw [heq]
          exact ⟨⟨htransferred.remoteName, htransferred.destfileName, htransferred.tempfileName⟩,
            htransferred.opened⟩
      dsimp only
      generalize curlSetHandleOpts files' named = ready at hopts ⊢
      split_ifs
      · exact ⟨hsame, fun _ => hopts⟩
      · exact ⟨hsame, fun _ => hopts⟩
      · exact ⟨hsame.trans (hopts.openTempfile files'), fun _ =>
          ⟨⟨hopts.remoteName, hopts.destfileName, hopts.tempfileName⟩, hopts.opened⟩⟩
      · exact ⟨hsame, fun _ => hopts⟩

/-! ## The end of a transfer -/

namespace Download

variable {transfer failed : Payload} {m : Message} {f : FinishResults}

theorem Stays.refl (localpath : CString) (d : Download) : Stays localpath d d :=
  ⟨.refl _ _, fun _ => Or.inl, rfl, rfl⟩

theorem Stays.trans (h : Stays localpath d d') (h' : Stays localpath d' d'') :
    Stays localpath d d'' where
  files := h.files.trans h'.files
  running := by
    intro p hp
    rcases h'.running p hp with hp | hp
    · exact h.running p hp
    · exact Or.inr hp
  payloads := h'.payloads.trans h.payloads
  messages := h'.messages.trans h.messages

theorem stays_files {files : Files} (h : d.files.SameOutside localpath files) :
    Stays localpath d { d with files := files } :=
  ⟨h, fun _ => Or.inl, rfl, rfl⟩

theorem stays_softError (localpath : CString) (d : Download) (payload : Payload) :
    Stays localpath d (d.softError payload) :=
  ⟨.refl _ _, fun _ => Or.inl, rfl, rfl⟩

theorem stays_hardError (localpath : CString) (d : Download) (payload : Payload) :
    Stays localpath d (d.hardError payload) :=
  ⟨.refl _ _, fun _ => Or.inl, rfl, rfl⟩

theorem stays_countError (localpath : CString) (d : Download) (payload : Payload) :
    Stays localpath d (d.countError payload) := by
  rw [countError]
  split_ifs
  · exact .refl _ _
  · exact stays_softError ..

theorem stays_cleanup (h : Confined localpath transfer) (d : Download) (f : FinishResults)
    (ret : Int) : Stays localpath d (d.cleanup transfer f ret).2 := by
  have hrename : d.files.SameOutside localpath (d.renameTempfile transfer f ret).2 := by
    rw [renameTempfile]
    split_ifs
    · cases htemp : transfer.tempfileName with
      | none => exact .refl _ _
      | some tempfile =>
        cases hdest : transfer.destfileName with
        | none => exact .refl _ _
        | some destfile =>
          exact Files.sameOutside_renameFile (h.tempfileName tempfile htemp)
            (h.destfileName destfile hdest) _ _
    · exact .refl _ _
  refine stays_files ?_
  split_ifs
  · exact hrename.trans (Files.sameOutside_unlinkFile h.tempfileName _)
  · exact hrename

/-- A retry asks another server for the same names. -/
theorem Transferred.curlRetryNextServer (h : Transferred localpath transfer) {retried : Payload}
    (hretry : d.curlRetryNextServer transfer f = some (retried, files)) :
    Transferred localpath retried ∧ d.files.SameOutside localpath files := by
  obtain ⟨-, servers, fileurl, append, size, rfl⟩ :=
    (curlRetryNextServer_eq_some hretry : d.files.Kept files none ∧ _)
  refine ⟨⟨⟨h.remoteName, h.destfileName, h.tempfileName⟩, h.opened⟩, ?_⟩
  unfold Download.curlRetryNextServer at hretry
  split at hretry
  · cases hretry
  · split at hretry
    · split_ifs at hretry
      rw [← (Prod.mk.inj (Option.some.inj hretry)).2]
      exact .refl _ _
    · split_ifs at hretry
      rw [← (Prod.mk.inj (Option.some.inj hretry)).2]
      exact Files.sameOutside_truncateFile h.tempfileName _ _

theorem stays_retryOrCleanup (h : Transferred localpath transfer)
    (hfailed : Confined localpath failed) (d : Download) (f : FinishResults) :
    Stays localpath d (d.retryOrCleanup transfer f failed).2 := by
  rw [retryOrCleanup]
  cases hretry : d.curlRetryNextServer transfer f with
  | none => exact stays_cleanup hfailed d f (-1)
  | some result =>
    obtain ⟨retried, files⟩ := result
    obtain ⟨hretried, hsame⟩ := Transferred.curlRetryNextServer h hretry
    refine ⟨hsame, fun p hp => ?_, rfl, rfl⟩
    rcases List.mem_append.mp hp with hp | hp
    · exact Or.inl hp
    · rw [List.mem_singleton.mp hp]
      exact Or.inr hretried

/-- The name that the server suggests is that of an entry of the directory. -/
theorem inside_trustedDestfile (h : Confined opts.localpath transfer) (m : Message) :
    ∀ path ∈ trustedDestfile opts transfer m, Inside opts.localpath path := by
  rw [trustedDestfile]
  cases m.contentDispName with
  | some name =>
    rintro _ ⟨⟩
    exact inside_append (slash_notMem_getFilename name)
  | none =>
    cases hslash : strrchr m.effectiveUrl '/' with
    | none => exact h.destfileName
    | some split =>
      dsimp only
      split_ifs
      · rintro _ ⟨⟩
        exact inside_append (notMem_of_strrchr hslash)
      · exact h.destfileName

/-- So is the name of the signature file. -/
theorem Transferred.signaturePayload (h : Transferred opts.localpath transfer) (m : Message) :
    Confined opts.localpath (signaturePayload opts transfer m) := by
  obtain ⟨tempfile, htemp⟩ := Option.isSome_iff_exists.mp h.opened
  have hreal : Inside opts.localpath
      ((transfer.destfileName.or transfer.tempfileName).getD []) := by
    cases hdest : transfer.destfileName with
    | none =>
      rw [Option.none_or, htemp]
      exact h.tempfileName tempfile htemp
    | some destfile => exact h.destfileName destfile hdest
  refine ⟨?_, ?_, by simp [Download.signaturePayload]⟩
  · rw [Download.signaturePayload]
    dsimp only
    split_ifs
    · rintro _ ⟨⟩
      rw [List.mem_append, not_or]
      exact ⟨slash_notMem_getFilename _, by decide⟩
    · simp
  · rintro _ ⟨⟩
    exact hreal.append (by decide)

theorem stays_addSignature (h : Transferred opts.localpath transfer) (hplain : f.sigAdd.Plain)
    (d : Download) (m : Message) :
    Stays opts.localpath d (d.addSignature opts transfer m f) := by
  obtain ⟨hsame, hadded⟩ :=
    (Transferred.signaturePayload h m).curlAddPayload hplain d.serverErrors d.files
  refine ⟨hsame, fun p hp => ?_, rfl, rfl⟩
  have hrunning : (d.addSignature opts transfer m f).running = AddOutcome.addTo
      (curlAddPayload opts.localpath d.serverErrors d.files (signaturePayload opts transfer m)
        f.sigAdd) d.running := rfl
  rw [hrunning, AddOutcome.addTo] at hp
  split_ifs at hp with hstarted
  · rcases List.mem_append.mp hp with hp | hp
    · exact Or.inl hp
    · rw [List.mem_singleton.mp hp]
      exact Or.inr (hadded hstarted)
  · exact Or.inl hp

theorem stays_endTransfer (h : Confined localpath transfer) (d : Download) (m : Message)
    (f : FinishResults) : Stays localpath d (d.endTransfer transfer m f).2 := by
  rw [endTransfer]
  split_ifs
  · refine Stays.trans ?_ (stays_cleanup h _ f 1)
    exact ⟨Files.sameOutside_unlinkFile h.tempfileName _, fun _ => Or.inl, rfl, rfl⟩
  · refine Stays.trans ?_ (stays_cleanup h _ f 1)
    exact ⟨Files.sameOutside_unlinkFile h.tempfileName _, fun _ => Or.inl, rfl, rfl⟩
  · exact stays_cleanup h d f (-1)
  · exact stays_cleanup h d f 0

theorem stays_succeed (h : Transferred opts.localpath transfer) (hplain : f.sigAdd.Plain)
    (d : Download) (m : Message) :
    Stays opts.localpath d (d.succeed opts transfer m f).2 := by
  rw [succeed]
  have hnamed : Transferred opts.localpath (if transfer.trustRemoteName then
      { transfer with destfileName := trustedDestfile opts transfer m } else transfer) := by
    split_ifs
    · exact ⟨⟨h.remoteName, inside_trustedDestfile h.toConfined m, h.tempfileName⟩, h.opened⟩
    · exact h
  generalize (if transfer.trustRemoteName then
      { transfer with destfileName := trustedDestfile opts transfer m } else transfer : Payload)
    = named at hnamed ⊢
  split_ifs
  · exact (stays_addSignature hnamed hplain d m).trans (stays_endTransfer hnamed.toConfined _ m f)
  · exact stays_cleanup hnamed.toConfined d f (-1)
  · exact stays_endTransfer hnamed.toConfined d m f

theorem Transferred.unlinked (h : Transferred localpath transfer) :
    Confined localpath { transfer with unlinkOnFail := true } :=
  ⟨h.remoteName, h.destfileName, h.tempfileName⟩

theorem stays_httpError (h : Transferred localpath transfer) (d : Download) (f : FinishResults) :
    Stays localpath d (d.httpError transfer f).2 := by
  refine (stays_countError localpath d transfer).trans ?_
  unfold httpError
  generalize d.countError transfer = counted
  dsimp only
  by_cases hfailed : (f.fileSize.isSome && f.fileSize ≠ some transfer.initialSize && !f.truncate)
      = true
  · rw [if_pos hfailed]
    exact .refl _ _
  · rw [if_neg hfailed]
    refine (stays_files ?_).trans (stays_retryOrCleanup h (Transferred.unlinked h) _ f)
    split_ifs
    · exact Files.sameOutside_truncateFile h.tempfileName _ _
    · exact .refl _ _

/-- **The end of a transfer** changes entries of the directory only.  What it removes, renames and
cuts off are the temporary file and the destination, and what it starts is a retry or the signature,
both confined again. -/
theorem stays_curlCheckFinishedDownload (h : Transferred opts.localpath transfer)
    (hplain : f.sigAdd.Plain) (d : Download) (m : Message) :
    Stays opts.localpath d (d.curlCheckFinishedDownload opts transfer m f).2 := by
  unfold curlCheckFinishedDownload
  cases m.result with
  | ok =>
    dsimp only
    split_ifs
    · exact stays_httpError h d f
    · exact stays_succeed h hplain d m
  | abortedByCallback =>
    dsimp only
    split_ifs
    · exact (stays_softError ..).trans (stays_cleanup (Transferred.unlinked h) _ f (-1))
    · exact stays_cleanup h.toConfined d f (-1)
  | couldntResolveHost =>
    exact (stays_hardError ..).trans (stays_retryOrCleanup h (Transferred.unlinked h) _ f)
  | failed =>
    refine (stays_countError ..).trans (stays_retryOrCleanup h ?_ _ f)
    split_ifs
    · exact Transferred.unlinked h
    · exact h.toConfined

/-! ## Runs -/

/-- The events that are meant: libcurl writes only to the files of its transfers, and the random
part of the name of a temporary file has no slash.  What the servers answer is free. -/
def Given (d : Download) : Event → Prop
  | .start r => r.Plain
  | .perform _ sizes _ => ∀ path size, d.files path = some size →
      sizes path = size ∨ ∃ p ∈ d.running, p.tempfileName = some path
  | .message _ f => f.sigAdd.Plain
  | _ => True

/-- What every run keeps: outside of the directory the files are those of the start, and whatever
waits, runs or has ended is confined. -/
structure Confinement (localpath : CString) (files : Files) (d : Download) : Prop where
  files : files.SameOutside localpath d.files
  payloads : ∀ p ∈ d.payloads, Confined localpath p
  running : ∀ p ∈ d.running, Transferred localpath p
  messages : ∀ t ∈ d.messages, Transferred localpath t.1

variable {e : Event}

theorem Confinement.start (h : Confinement opts.localpath files d) {r : AddResults}
    (hplain : r.Plain) (hstep : d.step opts (.start r) = some d') :
    Confinement opts.localpath files d' := by
  unfold step at hstep
  obtain ⟨-, hstep⟩ := Option.ite_none_right_eq_some.mp hstep
  cases hpayloads : d.payloads with
  | nil =>
    rw [hpayloads] at hstep
    cases hstep
  | cons payload rest =>
    rw [hpayloads] at hstep
    have hall := h.payloads
    rw [hpayloads, List.forall_mem_cons] at hall
    obtain ⟨hsame, hadded⟩ := hall.1.curlAddPayload hplain d.serverErrors d.files
    dsimp only at hstep
    split_ifs at hstep
    · obtain rfl := Option.some.inj hstep
      refine ⟨h.files.trans hsame, hall.2, fun p hp => ?_, h.messages⟩
      dsimp only at hp
      rw [AddOutcome.addTo] at hp
      split_ifs at hp with hstarted
      · rcases List.mem_append.mp hp with hp | hp
        · exact h.running p hp
        · rw [List.mem_singleton.mp hp]
          exact hadded hstarted
      · exact h.running p hp
    · obtain rfl := Option.some.inj hstep
      exact ⟨h.files.trans hsame, by simp, h.running, h.messages⟩

theorem Confinement.perform (h : Confinement opts.localpath files d)
    {ended : List (Option Message)} {sizes : CString → ℤ} {fault : Option ℤ}
    (hgiven : Given d (.perform ended sizes fault))
    (hstep : d.step opts (.perform ended sizes fault) = some d') :
    Confinement opts.localpath files d' := by
  unfold step at hstep
  obtain ⟨-, hstep⟩ := Option.ite_none_right_eq_some.mp hstep
  obtain rfl := Option.some.inj hstep
  constructor
  · refine h.files.trans fun path hpath => ?_
    dsimp only
    cases hsize : d.files path with
    | none => rfl
    | some size =>
      rcases hgiven path size hsize with heq | ⟨p, hp, htemp⟩
      · rw [Option.map_some, heq]
      · exact absurd ((h.running p hp).tempfileName path htemp) hpath
  · intro p hp
    dsimp only at hp
    split_ifs at hp
    · cases hp
    · exact h.payloads p hp
  · intro p hp
    obtain ⟨t, ht, heq⟩ := List.mem_filterMap.mp hp
    split_ifs at heq
    rw [← Option.some.inj heq]
    exact h.running t.1 (List.of_mem_zip ht).1
  · intro t ht
    rcases List.mem_append.mp ht with ht | ht
    · exact h.messages t ht
    · obtain ⟨pair, hpair, heq⟩ := List.mem_filterMap.mp ht
      obtain ⟨m, -, rfl⟩ := Option.map_eq_some_iff.mp heq
      exact h.running pair.1 (List.of_mem_zip hpair).1

theorem Confinement.message (h : Confinement opts.localpath files d) {i : ℕ} {f : FinishResults}
    (hplain : f.sigAdd.Plain) (hstep : d.step opts (.message i f) = some d') :
    Confinement opts.localpath files d' := by
  unfold step at hstep
  obtain ⟨-, hstep⟩ := Option.ite_none_right_eq_some.mp hstep
  cases hmessage : d.messages[i]? with
  | none =>
    rw [hmessage] at hstep
    cases hstep
  | some t =>
    obtain ⟨transfer, m⟩ := t
    rw [hmessage] at hstep
    dsimp only at hstep
    have htransfer := h.messages (transfer, m) (List.mem_of_getElem? hmessage)
    have hstays := stays_curlCheckFinishedDownload htransfer hplain
      { d with messages := d.messages.eraseIdx i } m
    generalize { d with messages := d.messages.eraseIdx i }.curlCheckFinishedDownload opts
      transfer m f = result at hstep hstays
    have hrunning : ∀ p ∈ result.2.running, Transferred opts.localpath p := fun p hp =>
      (hstays.running p hp).elim (h.running p) id
    have hmessages : ∀ t ∈ result.2.messages, Transferred opts.localpath t.1 := by
      rw [hstays.messages]
      exact fun t ht => h.messages t (List.mem_of_mem_eraseIdx ht)
    split_ifs at hstep
    · obtain rfl := Option.some.inj hstep
      exact ⟨h.files.trans hstays.files, by simp, hrunning, hmessages⟩
    · obtain rfl := Option.some.inj hstep
      refine ⟨h.files.trans hstays.files, fun p hp => ?_, hrunning, hmessages⟩
      exact h.payloads p (hstays.payloads ▸ hp)

/-- **One event** keeps the download in its directory.  libcurl changes the files of its transfers,
which are confined, and the other events are functions of the code. -/
theorem Confinement.step (h : Confinement opts.localpath files d) (hgiven : Given d e)
    (hstep : d.step opts e = some d') : Confinement opts.localpath files d' := by
  cases e with
  | enter =>
    obtain ⟨-, hstep⟩ := Option.ite_none_right_eq_some.mp hstep
    obtain rfl := Option.some.inj hstep
    exact ⟨h.files, h.payloads, h.running, h.messages⟩
  | start r => exact h.start hgiven hstep
  | perform ended sizes fault => exact h.perform hgiven hstep
  | message i f => exact h.message hgiven hstep
  | noMessage =>
    obtain ⟨-, hstep⟩ := Option.ite_none_right_eq_some.mp hstep
    obtain rfl := Option.some.inj hstep
    exact ⟨h.files, h.payloads, h.running, h.messages⟩

/-- **A download stays in its directory**: in every run, whatever the servers answer, no other file
is created, changed, renamed or removed, and the destination and the temporary file of every
transfer are entries of the directory.  Every name that a server can choose has gone through
`get_filename`, which keeps what follows the last slash. -/
theorem untouched_of_execution (opts : DownloadOptions) {payloads : List Payload} {files : Files}
    {errors : CString → ℕ} (hall : ∀ p ∈ payloads, Confined opts.localpath p)
    (hrun : Execution (step opts) Given
      { files := files, serverErrors := errors, payloads := payloads } d) :
    (∀ path, ¬ Inside opts.localpath path → d.files path = files path) ∧
      ∀ p, p ∈ d.running ∨ p ∈ d.messages.map Prod.fst → Transferred opts.localpath p := by
  have hinvariant : Confinement opts.localpath files d := by
    refine hrun.invariant (I := Confinement opts.localpath files)
      ⟨.refl _ _, hall, by simp, by simp⟩ fun t e u ht hgiven hstep => ht.step hgiven hstep
  refine ⟨hinvariant.files, ?_⟩
  rintro p (hp | hp)
  · exact hinvariant.running p hp
  · obtain ⟨t, ht, rfl⟩ := List.mem_map.mp hp
    exact hinvariant.messages t ht

/-- A package by its URL, for which the server may choose a name, and a file elsewhere. -/
def trusting : Download where
  files := fun path => if path = str "/etc/passwd" then some 100 else none
  payloads := [{ fileurl := some (str "http://mirror/a.pkg"), trustRemoteName := true }]

/-- The state before an answer. -/
def awaiting : Download :=
  (execute (step exampleOptions) trusting [.enter, .start {}]).getD trusting

/-- The server answers with the name of the file elsewhere. -/
def answer : Event :=
  .perform [some { result := .ok, contentDispName := some (str "../../etc/passwd") }]
    (fun path => if path = str "/cache/a.pkg.part" then 5 else (awaiting.files path).getD 0) none

/-- The download ends at `/cache/passwd`. -/
theorem untouched_of_execution_passwd : ∃ d : Download,
    (∀ p ∈ trusting.payloads, Confined (str "/cache/") p) ∧
      Execution (step exampleOptions) Given trusting d ∧
      d.files (str "/cache/passwd") = some 5 ∧
      (∀ path, ¬ Inside (str "/cache/") path → d.files path = trusting.files path) ∧
        ∀ p, p ∈ d.running ∨ p ∈ d.messages.map Prod.fst → Transferred (str "/cache/") p := by
  have hconfined : ∀ p ∈ trusting.payloads, Confined (str "/cache/") p := by
    intro p hp
    obtain rfl := List.mem_singleton.mp hp
    constructor <;> simp
  have hplain : ({} : AddResults).Plain := by simp [AddResults.Plain]
  have hstart : execute (step exampleOptions) trusting [.enter, .start {}] = some awaiting := by
    have hsome : (execute (step exampleOptions) trusting [.enter, .start {}]).isSome := by
      decide +kernel
    rw [awaiting, Option.eq_some_of_isSome hsome]
    rfl
  have hend : (execute (step exampleOptions) awaiting [answer, .message 0 {}]).map
      (fun d => d.files (str "/cache/passwd")) = some (some 5) := by decide +kernel
  obtain ⟨d, hd, hfile⟩ := Option.map_eq_some_iff.mp hend
  simp only [execute, List.foldlM_cons, List.foldlM_nil, Option.bind_eq_bind,
    Option.bind_eq_some_iff, Option.pure_def, Option.some.injEq] at hstart hd
  obtain ⟨d₁, henter, d₂, hadded, rfl⟩ := hstart
  obtain ⟨d₃, hanswer, d₄, hmessage, rfl⟩ := hd
  have hgiven : Given awaiting answer := by
    have hrunning : awaiting.running.map Payload.tempfileName =
        [some (str "/cache/a.pkg.part")] := by
      decide +kernel
    intro path size hsize
    by_cases hpart : path = str "/cache/a.pkg.part"
    · obtain ⟨p, hp, htemp⟩ := List.mem_map.mp (hrunning ▸ List.mem_singleton_self _)
      exact Or.inr ⟨p, hp, hpart ▸ htemp⟩
    · left
      dsimp only
      rw [if_neg hpart, hsize, Option.getD_some]
  have hawaiting : Execution (step exampleOptions) Given trusting awaiting :=
    (Execution.start.next trivial henter).next (show Given d₁ (.start {}) from hplain) hadded
  have hrun : Execution (step exampleOptions) Given trusting d₄ :=
    (hawaiting.next hgiven hanswer).next (show Given d₃ (.message 0 {}) from hplain) hmessage
  exact ⟨d₄, hconfined, hrun, hfile, untouched_of_execution exampleOptions hconfined hrun⟩

end Download

end Alpm.Dload
