import Alpm.Dload.Completion

/-!
# How often servers are asked

A transfer that fails is retried on the next server, and one that ends well may ask for a signature
file.  Neither goes on forever: a retry leaves fewer servers, and the payload of a signature has
none and asks for no other.

Each payload allows a number of transfers (`attempts`): one by its URL, or one on each of its
servers, and one for its signature file.  The allowance of a download is the sum over the payloads
that wait, the transfers that run and the messages that were not read.  No event raises it and a
message lowers it (`allowance_step`), so it is a potential in the sense of `General.Execution`, and
the transfers of a run, and with them the messages that are read, are at most those that the
payloads of the caller allow (`transfers_le`).

The payload of a signature is made when the transfer of its package ends well, from the attempt that
was kept for it (`runningAllowance_succeed`); whatever URL the server has redirected to, it is one.
-/

namespace Alpm.Dload

/-- One more transfer for the signature file. -/
def signatureAttempts (payload : Payload) : ℕ :=
  if !payload.signature && payload.downloadSignature then 1 else 0

/-- The transfers that a payload allows which is not started: one by its URL, or one on each of its
servers, and one for the signature file. -/
def attempts (payload : Payload) : ℕ :=
  (if payload.fileurl.isSome then 1 else payload.servers.length) + signatureAttempts payload

/-- The transfers that a started payload allows, itself included. -/
def attemptsLeft (payload : Payload) : ℕ :=
  1 + payload.servers.length + signatureAttempts payload

/-- The transfers that a download allows. -/
def Download.allowance (d : Download) : ℕ :=
  (d.payloads.map attempts).sum + (d.running.map attemptsLeft).sum +
    (d.messages.map fun t => attemptsLeft t.1).sum

/-- The message of a transfer is read. -/
def Event.isMessage : Event → Bool
  | .message .. => true
  | _ => false

variable {opts : DownloadOptions} {localpath : CString} {errors : CString → ℕ}
  {files files' : Files} {payload transfer : Payload} {r : AddResults} {d d' : Download}

/-! ## Starting a payload -/

/-- Names are chosen without a server. -/
theorem attemptsLeft_chooseNames {named : Payload}
    (h : chooseNames localpath files payload r = some (named, files')) :
    attemptsLeft named = attemptsLeft payload := by
  unfold chooseNames at h
  dsimp only at h
  split_ifs at h
  · obtain ⟨rfl, -⟩ := Prod.mk.inj (Option.some.inj h)
    rfl
  · obtain ⟨suffix, -, heq⟩ := Option.map_eq_some_iff.mp h
    obtain ⟨rfl, -⟩ := Prod.mk.inj heq
    rfl

theorem attemptsLeft_curlSetHandleOpts (files : Files) (payload : Payload) :
    attemptsLeft (curlSetHandleOpts files payload) = attemptsLeft payload := by
  rcases curlSetHandleOpts_cases files payload with heq | ⟨size, -, -, -, heq⟩
  · rw [heq]
  · rw [heq]
    rfl

/-- The URL that is chosen takes one attempt. -/
theorem attemptsLeft_chooseUrl {memory : Bool} {chosen : Payload}
    (h : chooseUrl errors payload memory = some chosen) :
    attemptsLeft chosen ≤ attempts payload := by
  unfold chooseUrl at h
  cases hurl : payload.fileurl with
  | some url =>
    simp only [hurl] at h
    split_ifs at h with hservers
    obtain rfl := Option.some.inj h
    rw [not_or, ne_eq, not_not] at hservers
    rw [attemptsLeft, attempts, hurl, hservers.1]
    exact le_rfl
  | none =>
    simp only [hurl] at h
    split at h
    case h_2 => cases h
    case h_1 server servers filepath hdrop hfilepath =>
      split_ifs at h
      obtain rfl := Option.some.inj h
      have hlength := List.length_dropWhile_le (shouldSkipServer errors) payload.servers
      rw [hdrop, List.length_cons] at hlength
      rw [attemptsLeft, attempts, hurl]
      show 1 + servers.length + signatureAttempts payload ≤
        payload.servers.length + signatureAttempts payload
      omega

/-- A payload that is started allows no more than before. -/
theorem attemptsLeft_curlAddPayload
    (hadded : (curlAddPayload localpath errors files payload r).added = true) :
    attemptsLeft (curlAddPayload localpath errors files payload r).payload ≤ attempts payload := by
  unfold curlAddPayload at hadded ⊢
  cases hchosen : chooseUrl errors payload r.memory with
  | none => simp [hchosen] at hadded
  | some chosen =>
    have hle := attemptsLeft_chooseUrl hchosen
    simp only [hchosen] at hadded ⊢
    cases hnames : chooseNames localpath files { chosen with append := false } r with
    | none => simp [hnames] at hadded
    | some result =>
      obtain ⟨named, files'⟩ := result
      have hnamed : attemptsLeft (curlSetHandleOpts files' named) = attemptsLeft chosen := by
        rw [attemptsLeft_curlSetHandleOpts, attemptsLeft_chooseNames hnames]
        rfl
      simp only [hnames] at hadded ⊢
      generalize curlSetHandleOpts files' named = ready at hadded hnamed ⊢
      rw [← hnamed] at hle
      split_ifs
      · exact hle
      · exact hle
      · exact hle
      · exact hle

theorem sum_addTo_le (localpath : CString) (errors : CString → ℕ) (files : Files)
    (payload : Payload) (r : AddResults) (running : List Payload) :
    (((curlAddPayload localpath errors files payload r).addTo running).map attemptsLeft).sum ≤
      (running.map attemptsLeft).sum + attempts payload := by
  rw [AddOutcome.addTo]
  split_ifs with hadded
  · rw [List.map_append, List.sum_append, List.map_singleton, List.sum_singleton]
    exact Nat.add_le_add_left (attemptsLeft_curlAddPayload hadded) _
  · exact Nat.le_add_right ..

/-! ## The end of a transfer -/

namespace Download

variable {m : Message} {f : FinishResults}

/-- The transfers that those in `curlm` allow. -/
def runningAllowance (d : Download) : ℕ := (d.running.map attemptsLeft).sum

/-- A retry leaves fewer servers. -/
theorem attemptsLeft_curlRetryNextServer {retried : Payload} {files : Files}
    (h : d.curlRetryNextServer transfer f = some (retried, files)) :
    attemptsLeft retried + 1 ≤ attemptsLeft transfer := by
  unfold curlRetryNextServer at h
  split at h
  case h_1 => cases h
  case h_2 server servers hdrop =>
    have hlength := List.length_dropWhile_le (shouldSkipServer d.serverErrors) transfer.servers
    rw [hdrop, List.length_cons] at hlength
    have hretried : retried.servers = servers ∧
        signatureAttempts retried = signatureAttempts transfer := by
      split at h
      · split_ifs at h
        obtain ⟨rfl, -⟩ := Prod.mk.inj (Option.some.inj h)
        exact ⟨rfl, rfl⟩
      · split_ifs at h
        obtain ⟨rfl, -⟩ := Prod.mk.inj (Option.some.inj h)
        exact ⟨rfl, rfl⟩
    rw [attemptsLeft, attemptsLeft, hretried.1, hretried.2]
    omega

theorem one_le_attemptsLeft (transfer : Payload) : 1 ≤ attemptsLeft transfer := by
  rw [attemptsLeft]
  omega

/-- A clean-up starts nothing. -/
theorem runningAllowance_cleanup (d : Download) (transfer : Payload) (f : FinishResults)
    (ret : Int) : (d.cleanup transfer f ret).2.runningAllowance = d.runningAllowance := rfl

theorem runningAllowance_retryOrCleanup (d : Download) (transfer failed : Payload)
    (f : FinishResults) :
    (d.retryOrCleanup transfer f failed).2.runningAllowance + 1 ≤
      d.runningAllowance + attemptsLeft transfer := by
  rw [retryOrCleanup]
  cases hretry : d.curlRetryNextServer transfer f with
  | none =>
    have hone := one_le_attemptsLeft transfer
    dsimp only
    rw [runningAllowance_cleanup]
    omega
  | some result =>
    obtain ⟨retried, files⟩ := result
    have hfewer := attemptsLeft_curlRetryNextServer hretry
    dsimp only [runningAllowance]
    rw [List.map_append, List.sum_append, List.map_singleton, List.sum_singleton]
    omega

theorem runningAllowance_endTransfer (d : Download) (transfer : Payload) (m : Message)
    (f : FinishResults) :
    (d.endTransfer transfer m f).2.runningAllowance = d.runningAllowance := by
  rw [endTransfer]
  split_ifs <;> rfl

/-- The signature file takes the attempt that was kept for it. -/
theorem runningAllowance_succeed (d : Download) (opts : DownloadOptions) (transfer : Payload)
    (m : Message) (f : FinishResults) :
    (d.succeed opts transfer m f).2.runningAllowance + 1 ≤
      d.runningAllowance + attemptsLeft transfer := by
  have hone := one_le_attemptsLeft transfer
  rw [succeed]
  have hnamed : attemptsLeft (if transfer.trustRemoteName then
      { transfer with destfileName := trustedDestfile opts transfer m } else transfer) =
        attemptsLeft transfer := by
    split_ifs <;> rfl
  generalize (if transfer.trustRemoteName then
      { transfer with destfileName := trustedDestfile opts transfer m } else transfer : Payload)
    = named at hnamed ⊢
  split_ifs with hsignature
  · have hsum := sum_addTo_le opts.localpath d.serverErrors d.files
      (signaturePayload opts named m) f.sigAdd d.running
    have hpayload : attempts (signaturePayload opts named m) = 1 := rfl
    have hkept : signatureAttempts named = 1 := if_pos hsignature
    rw [runningAllowance_endTransfer]
    rw [attemptsLeft, hkept] at hnamed
    rw [hpayload] at hsum
    have hadded : (d.addSignature opts named m f).runningAllowance ≤ d.runningAllowance + 1 := hsum
    omega
  · rw [runningAllowance_cleanup]
    omega
  · rw [runningAllowance_endTransfer]
    omega

theorem runningAllowance_countError (d : Download) (transfer : Payload) :
    (d.countError transfer).runningAllowance = d.runningAllowance := by
  rw [countError]
  split_ifs <;> rfl

theorem runningAllowance_httpError (d : Download) (transfer : Payload) (f : FinishResults) :
    (d.httpError transfer f).2.runningAllowance + 1 ≤
      d.runningAllowance + attemptsLeft transfer := by
  have hone := one_le_attemptsLeft transfer
  rw [← runningAllowance_countError d transfer]
  unfold httpError
  generalize d.countError transfer = counted
  dsimp only
  by_cases hfailed : (f.fileSize.isSome && f.fileSize ≠ some transfer.initialSize && !f.truncate)
      = true
  · rw [if_pos hfailed]
    exact Nat.add_le_add_left hone counted.runningAllowance
  · rw [if_neg hfailed]
    exact runningAllowance_retryOrCleanup ..

/-- **The end of a transfer** takes one of those that it allows.  A retry goes on with one server
less, the payload of a signature takes the place that was kept for it, and a clean-up gives up what
is left. -/
theorem runningAllowance_curlCheckFinishedDownload (d : Download) (opts : DownloadOptions)
    (transfer : Payload) (m : Message) (f : FinishResults) :
    (d.curlCheckFinishedDownload opts transfer m f).2.runningAllowance + 1 ≤
      d.runningAllowance + attemptsLeft transfer := by
  have hone := one_le_attemptsLeft transfer
  unfold curlCheckFinishedDownload
  cases m.result with
  | ok =>
    dsimp only
    split_ifs
    · exact runningAllowance_httpError ..
    · exact runningAllowance_succeed ..
  | abortedByCallback =>
    dsimp only
    split_ifs
    · exact Nat.add_le_add_left hone d.runningAllowance
    · exact Nat.add_le_add_left hone d.runningAllowance
  | couldntResolveHost => exact (d.hardError transfer).runningAllowance_retryOrCleanup ..
  | failed =>
    rw [← runningAllowance_countError d transfer]
    exact runningAllowance_retryOrCleanup ..

/-! ## Runs -/

variable {e : Event}

theorem sum_still_add_new {running : List Payload} {ended : List (Option Message)}
    (hlength : ended.length = running.length) :
    ((stillRunning running ended).map attemptsLeft).sum +
      ((newMessages running ended).map fun t => attemptsLeft t.1).sum =
        (running.map attemptsLeft).sum := by
  induction running generalizing ended with
  | nil =>
    obtain rfl := List.length_eq_zero_iff.mp hlength
    rfl
  | cons p running ih =>
    cases ended with
    | nil => cases hlength
    | cons last ended =>
      have hrest := ih (Nat.succ.inj hlength)
      rw [stillRunning, newMessages] at hrest ⊢
      cases last with
      | none =>
        simp only [List.zip_cons_cons, List.filterMap_cons, if_true, Option.map_none,
          List.map_cons, List.sum_cons]
        omega
      | some m =>
        simp only [List.zip_cons_cons, List.filterMap_cons, reduceCtorEq, if_false,
          Option.map_some, List.map_cons, List.sum_cons]
        omega

theorem sum_eraseIdx {messages : List (Payload × Message)} {i : ℕ} {t : Payload × Message}
    (h : messages[i]? = some t) :
    ((messages.eraseIdx i).map fun t => attemptsLeft t.1).sum + attemptsLeft t.1 =
      (messages.map fun t => attemptsLeft t.1).sum := by
  induction messages generalizing i with
  | nil => cases h
  | cons first messages ih =>
    cases i with
    | zero =>
      obtain rfl := Option.some.inj h
      rw [List.eraseIdx_cons_zero, List.map_cons, List.sum_cons, add_comm]
    | succ i =>
      rw [List.getElem?_cons_succ] at h
      have hrest := ih h
      simp only [List.eraseIdx_cons_succ, List.map_cons, List.sum_cons]
      omega

theorem allowance_start {r : AddResults} (hstep : d.step opts (.start r) = some d') :
    d'.allowance ≤ d.allowance := by
  unfold step at hstep
  obtain ⟨-, hstep⟩ := Option.ite_none_right_eq_some.mp hstep
  cases hpayloads : d.payloads with
  | nil =>
    rw [hpayloads] at hstep
    cases hstep
  | cons payload rest =>
    have hsum := sum_addTo_le opts.localpath d.serverErrors d.files payload r d.running
    rw [hpayloads] at hstep
    dsimp only at hstep
    rw [allowance, allowance, hpayloads, List.map_cons, List.sum_cons]
    split_ifs at hstep
    · obtain rfl := Option.some.inj hstep
      dsimp only
      omega
    · obtain rfl := Option.some.inj hstep
      dsimp only
      rw [List.map_nil, List.sum_nil]
      omega

theorem allowance_perform {ended : List (Option Message)} {sizes : CString → ℤ}
    {fault : Option ℤ} (hstep : d.step opts (.perform ended sizes fault) = some d') :
    d'.allowance ≤ d.allowance := by
  unfold step at hstep
  obtain ⟨⟨-, -, hlength⟩, hstep⟩ := Option.ite_none_right_eq_some.mp hstep
  obtain rfl := Option.some.inj hstep
  have hsum := sum_still_add_new hlength
  rw [allowance, allowance]
  dsimp only
  rw [List.map_append, List.sum_append]
  split_ifs
  · rw [List.map_nil, List.sum_nil]
    omega
  · omega

theorem allowance_message {i : ℕ} {f : FinishResults}
    (hstep : d.step opts (.message i f) = some d') : d'.allowance + 1 ≤ d.allowance := by
  unfold step at hstep
  obtain ⟨-, hstep⟩ := Option.ite_none_right_eq_some.mp hstep
  cases hmessage : d.messages[i]? with
  | none =>
    rw [hmessage] at hstep
    cases hstep
  | some t =>
    obtain ⟨transfer, m⟩ := t
    rw [hmessage] at hstep
    dsimp only at hstep
    have herased := sum_eraseIdx hmessage
    have hend := runningAllowance_curlCheckFinishedDownload
      { d with messages := d.messages.eraseIdx i } opts transfer m f
    have hextends := curlCheckFinishedDownload_extends
      { d with messages := d.messages.eraseIdx i } opts transfer m f
    generalize { d with messages := d.messages.eraseIdx i }.curlCheckFinishedDownload opts
      transfer m f = result at hstep hend hextends
    have hmessages := hextends.messages
    have hpayloads := hextends.payloads
    dsimp only [runningAllowance] at herased hend hmessages hpayloads
    rw [allowance, allowance]
    split_ifs at hstep
    · obtain rfl := Option.some.inj hstep
      dsimp only
      rw [hmessages, List.map_nil, List.sum_nil]
      omega
    · obtain rfl := Option.some.inj hstep
      dsimp only
      rw [hmessages, hpayloads]
      omega

/-- **One event** raises the allowance never, and a message lowers it.  Starting a payload moves
what it allows from those that wait to those that run, and the end of a transfer moves on what is
left of it. -/
theorem allowance_step (d : Download) (e : Event) (d' : Download)
    (hstep : d.step opts e = some d') :
    d'.allowance + (if e.isMessage then 1 else 0) ≤ d.allowance := by
  cases e with
  | enter =>
    obtain ⟨-, hstep⟩ := Option.ite_none_right_eq_some.mp hstep
    obtain rfl := Option.some.inj hstep
    exact le_rfl
  | start r => exact allowance_start hstep
  | perform ended sizes fault => exact allowance_perform hstep
  | message i f => exact allowance_message hstep
  | noMessage =>
    obtain ⟨-, hstep⟩ := Option.ite_none_right_eq_some.mp hstep
    obtain rfl := Option.some.inj hstep
    exact le_rfl

theorem length_le_allowance (d : Download) :
    d.running.length + d.messages.length ≤ d.allowance := by
  have hsum : ∀ {α : Type} (l : List α) (f : α → Payload),
      l.length ≤ (l.map fun a => attemptsLeft (f a)).sum := by
    intro α l f
    induction l with
    | nil => exact le_rfl
    | cons a l ih =>
      have hone := one_le_attemptsLeft (f a)
      rw [List.length_cons, List.map_cons, List.sum_cons]
      omega
  have hrunning : d.running.length ≤ (d.running.map attemptsLeft).sum := hsum d.running id
  have hmessages := hsum d.messages Prod.fst
  rw [allowance]
  omega

/-- **Servers are not asked forever**: in every run the messages that are read, the transfers in
`curlm` and those whose message is not read are together at most one for each payload by its URL,
one for each server of the others, and one for each signature file.  The sum of what the payloads
allow is a potential, and reading a message takes one from it. -/
theorem transfers_le {payloads : List Payload} {files : Files} {errors : CString → ℕ}
    {events : List Event}
    (hrun : execute (step opts)
      { files := files, serverErrors := errors, payloads := payloads } events = some d) :
    events.countP Event.isMessage + d.running.length + d.messages.length ≤
      (payloads.map attempts).sum := by
  have hbound := potential_add_countP_le allowance_step hrun
  have hleft := length_le_allowance d
  have hstart : allowance { files := files, serverErrors := errors, payloads := payloads } =
      (payloads.map attempts).sum := by
    simp [allowance]
  omega

/-- A package on two servers, with a signature. -/
def mirrored : Payload where
  remoteName := some (str "a.pkg")
  filepath := some (str "a.pkg")
  servers := [str "http://first", str "http://second"]
  downloadSignature := true

/-- The first server fails, the second one has the package, and then its signature is downloaded:
three transfers, as many as are allowed. -/
theorem transfers_le_mirrored :
    let events : List Event := [.enter, .start {},
      .perform [some { result := .failed }] (fun _ => 0) none, .message 0 {}, .noMessage, .enter,
      .perform [some { result := .ok }] (fun _ => 5) none, .message 0 {}, .noMessage, .enter,
      .perform [some { result := .ok }] (fun _ => 5) none, .message 0 {}, .noMessage]
    ∃ d : Download, execute (step exampleOptions)
        { files := fun _ => none, payloads := [mirrored] } events = some d ∧
      events.countP Event.isMessage + d.running.length + d.messages.length ≤
        ([mirrored].map attempts).sum ∧
      events.countP Event.isMessage = ([mirrored].map attempts).sum := by
  intro events
  have hsome : (execute (step exampleOptions)
      { files := fun _ => none, payloads := [mirrored] } events).isSome := by
    decide +kernel
  obtain ⟨d, hrun⟩ := Option.isSome_iff_exists.mp hsome
  exact ⟨d, hrun, transfers_le hrun, by decide +kernel⟩

end Download

end Alpm.Dload
