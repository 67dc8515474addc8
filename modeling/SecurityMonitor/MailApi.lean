/-
  Mail and attestation (`src/api/mail_accept.c`, `mail_send.c`, `mail_receive.c`,
  `enclave_get_keys.c`, `enclave_get_attest.c`, `get_public_field.c`).

  Copies between the monitor and a caller's virtual memory are not followed
  through the caller's page tables: a message to send is an argument of the call,
  and what a call copies out is part of its result.
-/
import SecurityMonitor.ExecApi

namespace SecurityMonitor

open ByteMem Prog

variable {N : ℕ}

/-- A result with what the call copied out: destination and bytes. -/
abbrev Outputs := List (Word × List Byte)

/-! ## Mail -/

/-- Write a mailbox of the untrusted software or of the enclave at `owner`. -/
def acceptMail (d : Data N) (owner id expectedSender : Word) : Data N :=
  if owner = ownerUntrusted then
    let i : Fin 8 := Fin.ofNat 8 id.toNat
    d.setUntrustedMailbox i { d.untrustedMailboxes i with
      state := mailboxStateEmpty
      expectedSender := expectedSender }
  else
    let a := mailboxAddr owner id
    let m := Mailbox.setState d.mem a mailboxStateEmpty
    { d with mem := Mailbox.setExpectedSender m a expectedSender }

/-- A bad mailbox id of an enclave leaves the enclave's region locked. -/
def mailAccept (c : Fin N) (id expectedSender : Word) : M N ApiResult Empty := do
  let d ← getData
  let caller := (d.cores c).owner
  if caller = ownerUntrusted then
    if numUntrustedMailboxes ≤ id.toNat then ret .invalidValue
    if !(← lockUntrustedState) then ret .concurrentCall
    setData (acceptMail d caller id expectedSender)
    unlockUntrustedState
    ret .ok
  else
    if !(← lockRegion (addrToRegionId caller)) then ret .concurrentCall
    if (d.enclave caller).numMailboxes ≤ id then ret .invalidValue
    setData (acceptMail d caller id expectedSender)
    unlockRegion (addrToRegionId caller)
    ret .ok

/-- The mailbox `id` of the untrusted software or of the enclave at `owner`. -/
def mailboxOf (d : Data N) (owner id : Word) : Mailbox :=
  if owner = ownerUntrusted then d.untrustedMailboxes (Fin.ofNat 8 id.toNat)
  else mailbox d.mem (mailboxAddr owner id)

/-- The message stays in the mailbox, which stays full. -/
def receiveMail (d : Data N) (owner id : Word) : Data N :=
  if owner = ownerUntrusted then
    let i : Fin 8 := Fin.ofNat 8 id.toNat
    d.setUntrustedMailbox i { d.untrustedMailboxes i with state := mailboxStateFull }
  else { d with mem := Mailbox.setState d.mem (mailboxAddr owner id) mailboxStateFull }

/-- What `mail_receive` copies to the caller. -/
def receivedMail (b : Mailbox) (outMessage outSenderMeasurement : Word) : Outputs :=
  [(outSenderMeasurement, List.ofFn b.senderMeasurement), (outMessage, List.ofFn b.message)]

/-- `mail_receive` once the caller's mailboxes are locked. -/
def mailReceiveLocked (d : Data N) (caller id outMessage outSenderMeasurement : Word) :
    M N (ApiResult × Outputs) Empty := do
  if (mailboxOf d caller id).state ≠ mailboxStateFull then
    if caller = ownerUntrusted then unlockUntrustedState
    unlockRegions
    ret (.invalidState, [])
  setData (receiveMail d caller id)
  if caller = ownerUntrusted then unlockUntrustedState
  unlockRegions
  ret (.ok, receivedMail (mailboxOf d caller id) outMessage outSenderMeasurement)

def mailReceive (c : Fin N) (id outMessage outSenderMeasurement : Word) :
    M N (ApiResult × Outputs) Empty := do
  let d ← getData
  let caller := (d.cores c).owner
  if caller = ownerUntrusted then
    if numUntrustedMailboxes ≤ id.toNat then ret (.invalidValue, [])
    if !(← lockUntrustedState) then ret (.concurrentCall, [])
  else
    if !(← addLockRegion (addrToRegionId caller)) then ret (.concurrentCall, [])
    if (d.enclave caller).numMailboxes ≤ id then
      unlockRegions
      ret (.invalidValue, [])
  mailReceiveLocked d caller id outMessage outSenderMeasurement

/-- The measurement that a message from `caller` carries. -/
def senderMeasurementOf (d : Data N) (caller : Word) : Bytes 64 :=
  if caller = ownerUntrusted then fun _ => 0 else (d.enclave caller).measurement

def sendMail (d : Data N) (caller recipient id : Word) (message : Bytes 256) : Data N :=
  if recipient = ownerUntrusted then
    let i : Fin 8 := Fin.ofNat 8 id.toNat
    d.setUntrustedMailbox i { d.untrustedMailboxes i with
      senderMeasurement := senderMeasurementOf d caller
      message := message
      state := mailboxStateFull }
  else
    let a := mailboxAddr recipient id
    let m := Mailbox.setSenderMeasurement d.mem a (senderMeasurementOf d caller)
    { d with mem := Mailbox.setState (Mailbox.setMessage m a message) a mailboxStateFull }

/-- `mail_send` once the recipient and the caller are locked. -/
def mailSendLocked (d : Data N) (untrustedLocked : Bool) (caller recipient id : Word)
    (message : Bytes 256) : M N ApiResult Empty := do
  let box := mailboxOf d recipient id
  if box.expectedSender ≠ caller ∨ box.state ≠ mailboxStateEmpty then
    if untrustedLocked then unlockUntrustedState
    unlockRegions
    ret .invalidState
  setData (sendMail d caller recipient id message)
  if untrustedLocked then unlockUntrustedState
  unlockRegions
  ret .ok

/-- `mail_send` once the recipient is locked; the untrusted state is locked for the
    recipient or for the caller. -/
def mailSendFrom (d : Data N) (caller recipient id : Word) (message : Bytes 256) :
    M N ApiResult Empty := do
  let untrustedLocked := decide (recipient = ownerUntrusted)
  if caller ≠ recipient ∧ addrToRegionId caller ≠ addrToRegionId recipient then
    if caller = ownerUntrusted then
      if !(← lockUntrustedState) then
        unlockRegions
        ret .concurrentCall
      mailSendLocked d true caller recipient id message
    else
      if !(← addLockRegion (addrToRegionId caller)) then
        if untrustedLocked then unlockUntrustedState
        unlockRegions
        ret .concurrentCall
      mailSendLocked d untrustedLocked caller recipient id message
  else mailSendLocked d untrustedLocked caller recipient id message

def mailSend (c : Fin N) (recipient id : Word) (message : Bytes 256) : M N ApiResult Empty := do
  let d ← getData
  let caller := (d.cores c).owner
  if recipient = ownerUntrusted then
    if numUntrustedMailboxes ≤ id.toNat then ret .invalidValue
    if !(← lockUntrustedState) then ret .concurrentCall
  else
    let result ← call (addLockRegionIffValidEnclave recipient)
    if result ≠ .ok then ret result
    if (d.enclave recipient).numMailboxes ≤ id then
      unlockRegions
      ret .invalidValue
    if (d.enclave recipient).initState ≠ enclaveStateInitialized then
      unlockRegions
      ret .invalidState
  mailSendFrom d caller recipient id message

/-! ## Keys and attestation -/

def enclaveGetKeys (c : Fin N) (addrM addrPk addrSk addrS : Word) : M N (ApiResult × Outputs) Empty := do
  let d ← getData
  let caller := (d.cores c).owner
  let result ← call (addLockRegionIffValidEnclave caller)
  if result ≠ .ok then ret (result, [])
  let E := d.enclave caller
  unlockRegions
  ret (.ok, [(addrM, List.ofFn E.measurement), (addrPk, List.ofFn E.publicKey),
    (addrSk, List.ofFn E.secretKey), (addrS, List.ofFn E.attestation)])

def enclaveGetAttest (e addrM addrPk addrS : Word) : M N (ApiResult × Outputs) Empty := do
  let result ← call (addLockRegionIffValidEnclave e)
  if result ≠ .ok then ret (result, [])
  let d ← getData
  let E := d.enclave e
  if E.initState ≠ enclaveStateInitialized then
    unlockRegions
    ret (.invalidState, [])
  unlockRegions
  ret (.ok, [(addrM, List.ofFn E.measurement), (addrPk, List.ofFn E.publicKey),
    (addrS, List.ofFn E.attestation)])

/-- The bytes of a public field.  `public_field_t` has 32 bits, so the upper half of the argument
    register does not count. -/
def publicField (k : Keys) (field : Word) : Option (List Byte) :=
  match (field.setWidth 32).toNat with
  | 0 => some (List.ofFn k.manufacturerPublicKey)
  | 1 => some (List.ofFn k.devicePublicKey)
  | 2 => some (List.ofFn k.softwarePublicKey)
  | 3 => some (List.ofFn k.softwareMeasurement)
  | 4 => some (List.ofFn k.deviceSignature)
  | 5 => some (List.ofFn k.softwareSignature)
  | _ => none

def getPublicField (field outBuffer : Word) : M N (ApiResult × Outputs) Empty := do
  let d ← getData
  match publicField d.keys field with
  | some bytes => ret (.ok, [(outBuffer, bytes)])
  | none => ret (.invalidValue, [])

/-! ## Specifications -/

section
variable {E : Empty → CallState N → Prop} {F : Fault → Prop} {L : LockId N → Bool} {d : Data N}
  {s : CallState N} {c : Fin N} {id : Word}

/-- `id` is a mailbox of `owner`. -/
def MailboxId (d : Data N) (owner id : Word) : Prop :=
  if owner = ownerUntrusted then id.toNat < 8 else id < (d.enclave owner).numMailboxes

theorem mailAccept_spec {sender : Word} (h : At L d s)
    (hF : (d.cores c).owner ≠ ownerUntrusted → ¬ (addrToRegionId (d.cores c).owner).toNat < 64 →
      F .regionIndex) :
    (mailAccept c id sender).wp E (Ends L d fun d' => MailboxId d (d.cores c).owner id ∧
      d' = acceptMail d (d.cores c).owner id sender) F s := by
  simp only [mailAccept, wp_bind, wp_ite, wp_ret, Bool.not_eq_true', numUntrustedMailboxes, not_le,
    BitVec.not_le]
  refine h.getData ⟨fun hu => ?_, fun hu => ?_⟩
  · refine ⟨fun _ => h.fails nofun, fun hid => ?_⟩
    refine h.acquire (fun s hs hl => obtained ?_) fun s hs => refused (hs.fails nofun)
    exact hs.setData fun s hs => hs.release hl fun s hs =>
      hs.succeeds ⟨by rwa [MailboxId, if_pos hu], rfl⟩
  · refine h.lockRegion (hF hu) (fun s hs hr hl => obtained ⟨fun _ => hs.fails nofun,
      fun hid => ?_⟩) fun s hs => refused (hs.fails nofun)
    exact hs.setData fun s hs => hs.unlockRegion hr hl fun s hs =>
      hs.succeeds ⟨by rwa [MailboxId, if_neg hu], rfl⟩

/-- Releasing the untrusted state if it was locked. -/
theorem At.unlockUntrusted {ρ : Type} {R : ρ → CallState N → Prop} {Q : Unit → CallState N → Prop}
    {p : Prop} [Decidable p] (h : At L d s) (hl : p → L .untrustedState = false)
    (hQ : ∀ s, At L d s → Q () s) :
    (p → (unlockUntrustedState : M N ρ Unit).wp Q R F s) ∧ (¬ p → Q () s) :=
  ⟨fun hp => h.release (hl hp) hQ, fun _ => hQ s h⟩

theorem mailReceive_spec {out outM : Word} (h : At L d s)
    (hF : (d.cores c).owner ≠ ownerUntrusted → ¬ (addrToRegionId (d.cores c).owner).toNat < 64 →
      F .regionIndex) :
    (mailReceive c id out outM).wp E (fun r => Ends L d (fun d' => MailboxId d (d.cores c).owner id ∧
      (mailboxOf d (d.cores c).owner id).state = mailboxStateFull ∧
      d' = receiveMail d (d.cores c).owner id ∧
      r.2 = receivedMail (mailboxOf d (d.cores c).owner id) out outM) r.1) F s := by
  have hlocked : ∀ s, At L d s → MailboxId d (d.cores c).owner id →
      ((d.cores c).owner = ownerUntrusted → L .untrustedState = false) →
      (mailReceiveLocked d (d.cores c).owner id out outM).wp E (fun r => Ends L d (fun d' =>
        MailboxId d (d.cores c).owner id ∧
        (mailboxOf d (d.cores c).owner id).state = mailboxStateFull ∧
        d' = receiveMail d (d.cores c).owner id ∧
        r.2 = receivedMail (mailboxOf d (d.cores c).owner id) out outM) r.1) F s := by
    intro s hs hid hl
    simp only [mailReceiveLocked, wp_bind, wp_ite, wp_ret]
    refine ⟨fun _ => hs.unlockUntrusted hl fun s hs => hs.unlockRegions fun s hs => hs.fails nofun,
      fun hfull => hs.setData fun s hs => ?_⟩
    exact hs.unlockUntrusted hl fun s hs => hs.unlockRegions fun s hs =>
      hs.succeeds ⟨hid, not_not.mp hfull, rfl, trivial⟩
  simp only [mailReceive, wp_bind, wp_ite, wp_ret, Bool.not_eq_true', numUntrustedMailboxes,
    not_le, BitVec.not_le]
  refine h.getData ⟨fun hu => ⟨fun _ => h.fails nofun, fun hid => ?_⟩, fun hu => ?_⟩
  · exact h.acquire (fun s hs hl => obtained (hlocked s hs (by rwa [MailboxId, if_pos hu])
      fun _ => hl)) fun s hs => refused (hs.fails nofun)
  · refine h.addLockRegion (hF hu) (fun s hs _ _ => obtained ⟨fun _ => ?_, fun hid => ?_⟩)
      fun s hs => refused (hs.fails nofun)
    · exact hs.unlockRegions fun s hs => hs.fails nofun
    · exact hlocked s hs (by rwa [MailboxId, if_neg hu]) fun h => absurd h hu

/-- What a successful `mail_send` has checked. -/
structure SendGuard (d : Data N) (caller recipient id : Word) : Prop where
  box : MailboxId d recipient id
  enclave : recipient ≠ ownerUntrusted → ValidMetadata d recipient .enclave ∧
    (d.enclave recipient).initState = enclaveStateInitialized
  expected : (mailboxOf d recipient id).expectedSender = caller
  empty : (mailboxOf d recipient id).state = mailboxStateEmpty

theorem mailSend_spec {recipient : Word} {message : Bytes 256} (h : At L d s)
    (hF : (d.cores c).owner ≠ ownerUntrusted → ¬ (addrToRegionId (d.cores c).owner).toNat < 64 →
      F .regionIndex) :
    (mailSend c recipient id message).wp E (Ends L d fun d' =>
      SendGuard d (d.cores c).owner recipient id ∧
        d' = sendMail d (d.cores c).owner recipient id message) F s := by
  have hfrom : ∀ s, At L d s → MailboxId d recipient id →
      (recipient ≠ ownerUntrusted → ValidMetadata d recipient .enclave ∧
        (d.enclave recipient).initState = enclaveStateInitialized) →
      (recipient = ownerUntrusted → L .untrustedState = false) →
      (mailSendFrom d (d.cores c).owner recipient id message).wp E (Ends L d fun d' =>
        SendGuard d (d.cores c).owner recipient id ∧
          d' = sendMail d (d.cores c).owner recipient id message) F s := by
    intro s hs hid hv hl
    have hlocked : ∀ s b, At L d s → (b = true → L .untrustedState = false) →
        (mailSendLocked d b (d.cores c).owner recipient id message).wp E (Ends L d fun d' =>
          SendGuard d (d.cores c).owner recipient id ∧
            d' = sendMail d (d.cores c).owner recipient id message) F s := by
      intro s b hs hb
      simp only [mailSendLocked, wp_bind, wp_ite, wp_ret]
      refine ⟨fun _ => hs.unlockUntrusted hb fun s hs => hs.unlockRegions fun s hs => hs.fails nofun,
        fun hbox => hs.setData fun s hs => ?_⟩
      refine hs.unlockUntrusted hb fun s hs => hs.unlockRegions fun s hs => hs.succeeds
        ⟨⟨hid, hv, ?_, ?_⟩, rfl⟩
      · by_contra hn; exact hbox (.inl hn)
      · by_contra hn; exact hbox (.inr hn)
    simp only [mailSendFrom, wp_bind, wp_ite, wp_ret, Bool.not_eq_true']
    refine ⟨fun _ => ⟨fun hu => ?_, fun hu => ?_⟩, fun _ => hlocked s _ hs fun h => hl (by simpa using h)⟩
    · exact hs.acquire (fun s hs hl' => obtained (hlocked s _ hs fun _ => hl'))
        fun s hs => refused (hs.unlockRegions fun s hs => hs.fails nofun)
    · refine hs.addLockRegion (hF hu) (fun s hs _ _ => obtained (hlocked s _ hs fun h =>
        hl (by simpa using h))) fun s hs => refused ?_
      exact hs.unlockUntrusted (fun h => hl (by simpa using h)) fun s hs =>
        hs.unlockRegions fun s hs => hs.fails nofun
  simp only [mailSend, wp_bind, wp_ite, wp_ret, wp_call, Bool.not_eq_true', numUntrustedMailboxes,
    not_le, BitVec.not_le, ne_eq, not_not]
  refine h.getData ⟨fun hu => ⟨fun _ => h.fails nofun, fun hid => ?_⟩, fun hu => ?_⟩
  · exact h.acquire (fun s hs hl => obtained (hfrom s hs (by rwa [MailboxId, if_pos hu])
      (fun h => absurd hu h) fun _ => hl)) fun s hs => refused (hs.fails nofun)
  · refine h.addLockRegionIffValidMetadata (fun s hs hv _ => ⟨fun hn => absurd rfl hn, fun _ => ?_⟩)
      fun s r hs hr => ⟨fun _ => hs.fails hr, fun h => absurd h hr⟩
    refine ⟨fun _ => hs.unlockRegions fun s hs => hs.fails nofun, fun hid => ?_⟩
    refine ⟨fun _ => hs.unlockRegions fun s hs => hs.fails nofun, fun hst => ?_⟩
    exact hfrom s hs (by rwa [MailboxId, if_neg hu]) (fun _ => ⟨hv, hst⟩) fun h => absurd h hu

/-- The keys of the enclave at `e`, as `enclave_get_keys` copies them. -/
def keysOf (E : EnclaveMetadata) (addrM addrPk addrSk addrS : Word) : Outputs :=
  [(addrM, List.ofFn E.measurement), (addrPk, List.ofFn E.publicKey),
    (addrSk, List.ofFn E.secretKey), (addrS, List.ofFn E.attestation)]

theorem enclaveGetKeys_spec {m pk sk a : Word} (h : At L d s) :
    (enclaveGetKeys c m pk sk a).wp E (fun r => Ends L d (fun d' => d' = d ∧
      r.2 = keysOf (d.enclave (d.cores c).owner) m pk sk a) r.1) F s := by
  simp only [enclaveGetKeys, wp_bind, wp_ite, wp_ret, wp_call, ne_eq, not_not]
  refine h.getData (h.addLockRegionIffValidMetadata (fun s hs _ _ => ⟨fun hn => absurd rfl hn,
    fun _ => hs.unlockRegions fun s hs => hs.succeeds ⟨rfl, rfl⟩⟩)
    fun s r hs hr => ⟨fun _ => hs.fails hr, fun h => absurd h hr⟩)

theorem enclaveGetAttest_spec {e m pk a : Word} (h : At L d s) :
    (enclaveGetAttest e m pk a).wp E (fun r => Ends L d (fun d' => d' = d) r.1) F s := by
  simp only [enclaveGetAttest, wp_bind, wp_ite, wp_ret, wp_call, ne_eq, not_not]
  refine h.addLockRegionIffValidMetadata (fun s hs _ _ => ⟨fun hn => absurd rfl hn, fun _ =>
    hs.getData ⟨fun _ => ?_, fun _ => ?_⟩⟩) fun s r hs hr => ⟨fun _ => hs.fails hr, fun h => absurd h hr⟩
  · exact hs.unlockRegions fun s hs => hs.fails nofun
  · exact hs.unlockRegions fun s hs => hs.succeeds rfl

theorem getPublicField_spec {field out : Word} (h : At L d s) :
    (getPublicField field out).wp E (fun r => Ends L d (fun d' => d' = d) r.1) F s := by
  simp only [getPublicField, wp_bind]
  refine h.getData ?_
  cases publicField d.keys field with
  | some bytes => exact h.succeeds rfl
  | none => exact h.fails nofun

end

end SecurityMonitor
