import Alpm.Deps.Depstring
import Alpm.General.Execution

/-!
# Downloads with libcurl

`curl_download_internal` starts payloads while there is room, lets libcurl perform, and reads the
messages of the transfers that have ended.  A transfer that fails is retried on the next server; one
that ends well is renamed from its temporary file to its destination.

## 1.  Events

The loop is a machine.  An event is that the loop is entered, that a payload is started, that
libcurl performs, that a message is read, or that there is none, and the calls of libcurl and of the
system get their results from the events of `step`.  So what a server answers, which transfers end
when, and which calls fail is free, and a statement for all lists of events is one for all of that.

## 2.  Files

Of a file only its size is modelled, in a map from paths: a temporary file grows while a transfer
runs, is cut off when the server sent an error page, is renamed at the end, or is unlinked.  Two
payloads may have the same path, and nothing in the model keeps them apart.

## 3.  Payloads

The fields of `struct dload_payload` are those that the functions read and write, with the
destination and the temporary file that are chosen when a payload is started, and that a server may
change.  What comes of these choices is in `Alpm.Dload.Confinement`; what a run leaves in
`Alpm.Dload.Completion`; how long it is in `Alpm.Dload.Attempts`.
-/

namespace Alpm.Dload

/-- `struct dload_payload`.  `append` is `tempfile_openmode == "ab"` and `opened` is
`localf != NULL`; what a transfer writes to a payload is in its message. -/
structure Payload where
  address : ℕ := 0
  remoteName : Option CString := none
  tempfileName : Option CString := none
  destfileName : Option CString := none
  fileurl : Option CString := none
  filepath : Option CString := none
  servers : List CString := []
  initialSize : ℤ := 0
  maxSize : ℤ := 0
  force : Bool := false
  allowResume : Bool := false
  randomPartfile : Bool := false
  errorsOk : Bool := false
  unlinkOnFail : Bool := false
  trustRemoteName : Bool := false
  downloadSignature : Bool := false
  signatureOptional : Bool := false
  signature : Bool := false
  append : Bool := false
  opened : Bool := false
  deriving DecidableEq, Repr

/-- The sizes of the files. -/
abbrev Files := CString → Option ℤ

/-! ## Servers -/

/-- The host of a URL without `user:pass@`. -/
def stripUser (host : CString) : CString :=
  match strrchr host '@' with
  | some (_ :: _, name) => name
  | _ => host

/-- `curl_gethost`; `none` is a failure. -/
def curlGethost (url : CString) : Option CString :=
  let host := if (str "file://").isPrefixOf url then some (str "disk")
    else (strstr (str "//") url).map fun p => stripUser ((url.drop (p + 2)).takeWhile (· ≠ '/'))
  host.filter fun host => host.length ≤ 255

/-- `should_skip_server`, for the numbers of errors of the hosts. -/
def shouldSkipServer (errors : CString → ℕ) (server : CString) : Bool :=
  match curlGethost server with
  | some hostname => errors hostname ≥ 3
  | none => false

/-- `server_increment_error`. -/
def serverIncrementError (errors : CString → ℕ) (server : CString) (count : ℕ) : CString → ℕ :=
  match curlGethost server with
  | some hostname =>
    if errors hostname ≥ 3 then errors
    else Function.update errors hostname (errors hostname + count)
  | none => errors

/-- `get_filename`. -/
def getFilename (url : CString) : CString :=
  match strrchr url '/' with
  | some (_, filename) => filename
  | none => url

/-! ## Starting a payload -/

/-- What a call of `curl_add_payload` meets: whether the allocations succeed, the random part of
the name of a temporary file, and whether the file can be opened. -/
structure AddResults where
  memory : Bool := true
  mkstemp : Option CString := none
  fopen : Bool := true
  deriving DecidableEq, Repr

/-- How a call of `curl_add_payload` ends, and whether the transfer was added. -/
structure AddOutcome where
  ret : Int
  payload : Payload
  files : Files
  added : Bool

/-- The transfers after `curl_multi_add_handle`, if it was called. -/
def AddOutcome.addTo (outcome : AddOutcome) (running : List Payload) : List Payload :=
  if outcome.added then running ++ [outcome.payload] else running

/-- The URL of a payload: its own, or that of its first server that is not skipped.  Servers that
have failed too often are skipped, and the server that is chosen is taken off the list. -/
def chooseUrl (errors : CString → ℕ) (payload : Payload) (memory : Bool) : Option Payload :=
  match payload.fileurl with
  | some _ => if payload.servers ≠ [] ∨ payload.filepath ≠ none then none else some payload
  | none =>
    match payload.servers.dropWhile (shouldSkipServer errors), payload.filepath with
    | server :: servers, some filepath =>
      if memory then
        some { payload with
          servers := servers
          fileurl := some (server ++ '/' :: filepath) }
      else none
    | _, _ => none

/-- The destination and the temporary file of a payload.  A name that is known gives a `.part` file
next to the destination; without one, or when the name is to be random, a temporary file is created
with `mkstemp`. -/
def chooseNames (localpath : CString) (files : Files) (payload : Payload) (r : AddResults) :
    Option (Payload × Files) :=
  let url := payload.fileurl.getD []
  let remoteName := payload.remoteName.getD (getFilename url)
  if curlGethost url = none then none
  else if !payload.randomPartfile && remoteName ≠ [] then
    if r.memory then
      some ({ payload with
        remoteName := some remoteName
        destfileName := some (payload.destfileName.getD (localpath ++ remoteName))
        tempfileName := some (localpath ++ remoteName ++ str ".part") }, files)
    else none
  else
    -- a random name, and no resuming
    r.mkstemp.map fun suffix =>
      let randpath := localpath ++ str "alpmtmp." ++ suffix
      ({ payload with
        remoteName := some (getFilename randpath)
        tempfileName := some randpath
        unlinkOnFail := true
        opened := true }, Function.update files randpath (some 0))

/-- `curl_set_handle_opts`: a partial download is resumed if there is no file to compare with. -/
def curlSetHandleOpts (files : Files) (payload : Payload) : Payload :=
  if !payload.force && (payload.destfileName.bind files).isSome then payload
  else match payload.tempfileName.bind files with
    | some size =>
      if payload.allowResume then { payload with append := true, initialSize := size } else payload
    | none => payload

/-- The file after `fopen` with `tempfile_openmode`. -/
def openTempfile (files : Files) (payload : Payload) : Files :=
  match payload.tempfileName with
  | some tempfile =>
    Function.update files tempfile
      (some (if payload.append then (files tempfile).getD 0 else 0))
  | none => files

/-- `curl_add_payload`: the URL, the names and the options are chosen, and the temporary file is
opened.  A payload whose `.part` file is complete is not added to the transfers, and the call
succeeds. -/
def curlAddPayload (localpath : CString) (errors : CString → ℕ) (files : Files)
    (payload : Payload) (r : AddResults) : AddOutcome :=
  match chooseUrl errors payload r.memory with
  | none => ⟨-1, payload, files, false⟩
  | some payload =>
    match chooseNames localpath files { payload with append := false } r with
    | none => ⟨-1, payload, files, false⟩
    | some (payload, files) =>
      let payload := curlSetHandleOpts files payload
      if payload.maxSize = payload.initialSize ∧ payload.maxSize ≠ 0 then
        -- `.part` file is complete
        ⟨0, payload, files, false⟩
      else if payload.opened then ⟨0, payload, files, true⟩
      else if r.fopen then ⟨0, { payload with opened := true }, openTempfile files payload, true⟩
      else ⟨-1, payload, files, false⟩

/-! ## The end of a transfer -/

/-- The `CURLcode` of a message. -/
inductive CurlCode where
  | ok
  | abortedByCallback
  | couldntResolveHost
  | failed
  deriving DecidableEq, Repr

/-- `dload_interrupted`. -/
inductive Interrupt where
  | sigint
  | overMaxfilesize
  deriving DecidableEq, Repr

/-- What libcurl tells of a transfer that has ended. -/
structure Message where
  result : CurlCode
  respcode : ℤ := 200
  contentDispName : Option CString := none
  effectiveUrl : CString := []
  timecond : Bool := false
  remoteSize : ℤ := -1
  bytesDl : ℤ := 0
  deriving DecidableEq, Repr

/-- What a call of `curl_check_finished_download` meets: whether the user interrupted the
downloads, the size of the open file, whether it can be truncated, what the retry, the signature
and the renaming meet. -/
structure FinishResults where
  interrupted : Option Interrupt := none
  fileSize : Option ℤ := none
  truncate : Bool := true
  retryMemory : Bool := true
  retryTruncate : Bool := true
  sigMemory : Bool := true
  sigAdd : AddResults := {}
  rename : Bool := true
  deriving DecidableEq, Repr

/-- Where the loop of `curl_download_internal` is: at its test, before `curl_multi_perform`, or at
the messages. -/
inductive Phase where
  | test
  | adding
  | reading
  deriving DecidableEq, Repr

/-- The variables of `curl_download_internal`, the transfers in `curlm` and the messages that were
not read.  `upToDate` keeps the payloads of the caller that the server said to be up to date. -/
structure Download where
  files : Files
  serverErrors : CString → ℕ := fun _ => 0
  payloads : List Payload
  running : List Payload := []
  messages : List (Payload × Message) := []
  active : ℤ := 0
  err : Bool := false
  updated : Bool := false
  upToDate : List ℕ := []
  phase : Phase := .test

/-- `handle->parallel_downloads`, the database extension and `localpath`. -/
structure DownloadOptions where
  maxStreams : ℤ
  dbext : CString
  localpath : CString

/-- `unlink`. -/
def unlinkFile (files : Files) (path : Option CString) : Files :=
  match path with
  | some path => Function.update files path none
  | none => files

/-- `ftruncate` of the open file. -/
def truncateFile (files : Files) (path : Option CString) (size : ℤ) : Files :=
  match path with
  | some path => Function.update files path ((files path).map fun _ => size)
  | none => files

/-- `rename` of the temporary file to the destination: whether it succeeds, and the files. -/
def renameFile (files : Files) (tempfile destfile : CString) (permitted : Bool) : Bool × Files :=
  match files tempfile with
  | some size =>
    if permitted then
      (true, Function.update (Function.update files tempfile none) destfile (some size))
    else (false, files)
  | none => (false, files)

namespace Download

variable (opts : DownloadOptions) (d : Download) (payload : Payload) (m : Message)
  (r : FinishResults)

/-- `server_soft_error`. -/
def softError : Download :=
  { d with serverErrors := serverIncrementError d.serverErrors (payload.fileurl.getD []) 1 }

/-- `server_hard_error`. -/
def hardError : Download :=
  { d with serverErrors := serverIncrementError d.serverErrors (payload.fileurl.getD []) 3 }

/-- `curl_retry_next_server`: the payload and the files after a successful call.  A partial download
that may be resumed is kept, and otherwise the file is cut off. -/
def curlRetryNextServer : Option (Payload × Files) :=
  match payload.servers.dropWhile (shouldSkipServer d.serverErrors) with
  | [] => none
  | server :: servers =>
    let retried := { payload with
      servers := servers
      fileurl := some (server ++ '/' :: payload.filepath.getD []) }
    match if payload.allowResume then payload.tempfileName.bind d.files else none with
    | some size =>
      -- a previous partial download exists, resume from end of file
      if r.retryMemory then some ({ retried with append := true, initialSize := size }, d.files)
      else none
    | none =>
      if r.retryMemory && r.retryTruncate then
        some (retried, truncateFile d.files payload.tempfileName 0)
      else none

/-- The renaming at `cleanup`: `ret` and the files afterwards. -/
def renameTempfile (ret : Int) : Int × Files :=
  if ret = 0 then
    match payload.tempfileName, payload.destfileName with
    | some tempfile, some destfile =>
      let renamed := renameFile d.files tempfile destfile r.rename
      (if renamed.1 then 0 else -1, renamed.2)
    | _, _ => (ret, d.files)
  else (ret, d.files)

/-- From `cleanup` on, with the value of `ret`. -/
def cleanup (ret : Int) : Int × Download :=
  let renamed := d.renameTempfile payload r ret
  let files := if (renamed.1 = -1 || r.interrupted.isSome) && payload.unlinkOnFail then
    unlinkFile renamed.2 payload.tempfileName else renamed.2
  (if renamed.1 = -1 ∧ payload.errorsOk then -2 else renamed.1, { d with files := files })

/-- A retry on the next server, or else the clean-up.  The payload of the retry is added to the
transfers again, with the same names. -/
def retryOrCleanup (failed : Payload) : Int × Download :=
  match d.curlRetryNextServer payload r with
  | some (retried, files) =>
    (2, { d with
      files := files
      running := d.running ++ [retried]
      active := d.active + 1 })
  | none => d.cleanup failed r (-1)

/-- The payload for the signature file: its URL is that of the package with a suffix, where the one
to which the server has redirected counts if it looks like that of a package or a database. -/
def signaturePayload : Payload :=
  let effectiveFilename := getFilename m.effectiveUrl
  let effectiveFilename := match strrchr effectiveFilename '?' with
    | some (name, _) => name
    | none => effectiveFilename
  -- only use the effective url if it contains .dbext or .pkg
  let url := if (strstr opts.dbext effectiveFilename).isSome ||
      (strstr (str ".pkg") effectiveFilename).isSome then m.effectiveUrl
    else payload.fileurl.getD []
  let realname := (payload.destfileName.or payload.tempfileName).getD []
  { fileurl := some (url ++ str ".sig")
    remoteName := if payload.trustRemoteName then some (getFilename realname ++ str ".sig")
      else none
    destfileName := some (realname ++ str ".sig")
    signature := true
    force := payload.force
    unlinkOnFail := payload.unlinkOnFail
    errorsOk := payload.signatureOptional
    maxSize := 16 * 1024 }

/-- The destination that the server suggests: the name in the header if there is one, or else the
name at the end of the URL, if it is another one than before.  Of either only what follows the last
slash is used. -/
def trustedDestfile : Option CString :=
  match m.contentDispName with
  | some name => some (opts.localpath ++ getFilename name)
  | none =>
    match strrchr m.effectiveUrl '/' with
    | some (_, name) =>
      if name.length + 1 > 2 ∧ payload.destfileName.map getFilename ≠ some name then
        some (opts.localpath ++ name)
      else payload.destfileName
    | none => payload.destfileName

/-- From the test of the time condition on: a file that is up to date is not needed, one that is
shorter than announced is an error, and all others go to the clean-up with success. -/
def endTransfer : Int × Download :=
  if m.timecond ∧ m.bytesDl = 0 then
    { d with
      files := unlinkFile d.files payload.tempfileName
      upToDate := if payload.signature then d.upToDate else payload.address :: d.upToDate }.cleanup
      payload r 1
  else if m.remoteSize ≠ -1 ∧ m.bytesDl ≠ -1 ∧ m.bytesDl ≠ m.remoteSize then
    -- it appears to be truncated
    d.cleanup payload r (-1)
  else d.cleanup payload r 0

/-- The payload of a signature is started. -/
def addSignature : Download :=
  let sig := signaturePayload opts payload m
  let outcome := curlAddPayload opts.localpath d.serverErrors d.files sig r.sigAdd
  { d with
    files := outcome.files
    running := outcome.addTo d.running
    active := d.active + 1 }

/-- The part of `curl_check_finished_download` after the `switch`. -/
def succeed : Int × Download :=
  let payload := if payload.trustRemoteName then
    { payload with destfileName := trustedDestfile opts payload m } else payload
  if !payload.signature && payload.downloadSignature then
    if r.sigMemory then (d.addSignature opts payload m r).endTransfer payload m r
    else d.cleanup payload r (-1)
  else d.endTransfer payload m r

/-- The error of a required file is counted. -/
def countError : Download := if payload.errorsOk then d else d.softError payload

/-- The response code is an error: a page that was written to the file is cut off. -/
def httpError : Int × Download :=
  let d := d.countError payload
  let errorPage := r.fileSize.isSome && r.fileSize ≠ some payload.initialSize
  if errorPage && !r.truncate then (-1, d)
  else
    let files := if errorPage then
      truncateFile d.files payload.tempfileName payload.initialSize else d.files
    { d with files := files }.retryOrCleanup payload r { payload with unlinkOnFail := true }

/-- `curl_check_finished_download`: what becomes of a transfer that has ended, by the code of
libcurl and the response of the server.  A failure is retried where another server may help. -/
def curlCheckFinishedDownload : Int × Download :=
  let unlinked := { payload with unlinkOnFail := true }
  match m.result with
  | .ok => if m.respcode ≥ 400 then d.httpError payload r else d.succeed opts payload m r
  | .abortedByCallback =>
    if r.interrupted = some .overMaxfilesize then (d.softError payload).cleanup unlinked r (-1)
    else d.cleanup payload r (-1)
  | .couldntResolveHost => (d.hardError payload).retryOrCleanup payload r unlinked
  | .failed =>
    -- delete zero length downloads
    (d.countError payload).retryOrCleanup payload r
      (if r.fileSize = some 0 then unlinked else payload)

end Download

/-! ## The loop -/

/-- What happens next: the loop is entered, a payload is started, libcurl performs, a message is
read, or there is none.  `curl_multi_perform` ends the transfers with a message, and changes the
sizes of files; after an error the number of active transfers is arbitrary. -/
inductive Event where
  | enter
  | start (r : AddResults)
  | perform (ended : List (Option Message)) (sizes : CString → ℤ) (fault : Option ℤ)
  | message (i : ℕ) (r : FinishResults)
  | noMessage

namespace Download

/-- The transfers that go on. -/
def stillRunning (running : List Payload) (ended : List (Option Message)) : List Payload :=
  (running.zip ended).filterMap fun t => if t.2 = none then some t.1 else none

/-- The transfers that have ended, with their messages. -/
def newMessages (running : List Payload) (ended : List (Option Message)) :
    List (Payload × Message) :=
  (running.zip ended).filterMap fun t => t.2.map fun m => (t.1, m)

/-- `curl_download_internal`, one event after the other.  An event that does not fit the place of
the loop is no step. -/
def step (opts : DownloadOptions) (d : Download) : Event → Option Download
  | .enter =>
    if d.phase = .test ∧ (d.active > 0 ∨ d.payloads ≠ []) then some { d with phase := .adding }
    else none
  | .start r =>
    if d.phase = .adding ∧ d.active < opts.maxStreams then
      match d.payloads with
      | [] => none
      | payload :: payloads =>
        let outcome := curlAddPayload opts.localpath d.serverErrors d.files payload r
        if outcome.ret = 0 then
          some { d with
            files := outcome.files
            payloads := payloads
            running := outcome.addTo d.running
            active := d.active + 1 }
        else
          -- the payload failed to start: do not start any new downloads
          some { d with
            files := outcome.files
            payloads := []
            err := true
            active := d.active + 1 }
    else none
  | .perform ended sizes fault =>
    if d.phase = .adding ∧ ¬ (d.active < opts.maxStreams ∧ d.payloads ≠ []) ∧
        ended.length = d.running.length then
      let still := stillRunning d.running ended
      some { d with
        files := fun path => (d.files path).map fun _ => sizes path
        running := still
        messages := d.messages ++ newMessages d.running ended
        active := fault.getD still.length
        payloads := if fault.isSome then [] else d.payloads
        err := d.err || fault.isSome
        phase := .reading }
    else none
  | .message i r =>
    if d.phase = .reading then
      match d.messages[i]? with
      | none => none
      | some (payload, m) =>
        let (ret, d') := { d with messages := d.messages.eraseIdx i }.curlCheckFinishedDownload
          opts payload m r
        if ret = -1 then some { d' with payloads := [], err := true }
        else some { d' with updated := d'.updated || ret = 0 }
    else none
  | .noMessage =>
    if d.phase = .reading ∧ d.messages = [] then some { d with phase := .test } else none

/-- The loop is left. -/
def Finished (d : Download) : Prop := d.phase = .test ∧ ¬ (d.active > 0 ∨ d.payloads ≠ [])

/-- The value that `curl_download_internal` returns. -/
def ret (d : Download) : Int := if d.err then -1 else if d.updated then 0 else 1

end Download

end Alpm.Dload
