/-
  Mailboxes.

  A mailbox is a slot for one message (`Slot`): `mail_accept` arms it for a
  sender, `mail_send` puts a message, `mail_receive` takes it.

  * `effect_body`: the mailboxes of an enclave are written by mail calls only;
  * `slotOf`, `mailEvent`: the slot that a mailbox is, and what an item of a
    history does to it;
  * `history_slot`: over a careful run every mailbox behaves as a slot;
  * `mail_authentic`: what is received was sent, by the sender that was accepted;
  * `receiveResult`: how `mail_receive` on a mailbox ends;
  * `mail_delivered_iff`: between two receives a message was sent if and only if
    one was accepted, and without a new message a mailbox that was received is no
    longer full, and refuses a further receive, if and only if it was accepted again.

  `mail_receive` leaves the mailbox full, so a message can be received any number
  of times.
-/
import SecurityMonitor.Touched
import SecurityMonitor.LockHelpers
import SecurityMonitor.Lib.Slot

namespace SecurityMonitor

open ByteMem

variable {N : ℕ} {img : Image N} {boot : Boot N} {s s' : Config N} {d d' : Data N} {c : Fin N}
  {a e o b x owner id : Word} {k : Call} {L : LockId N → Bool} {ctx : TrapContext}

/-! ## The bytes of mailboxes -/

/-- A byte of the pages of the enclave at `e` behind its header. -/
structure InBody (d : Data N) (e x : Word) : Prop where
  notHeader : x ∉ header e
  page : ∃ a, InExtent d e a ∧ x ∈ range a 4096

/-- The mailbox that a mail call writes. -/
def mailTarget (d : Data N) (c : Fin N) : Call → Option (Word × Word)
  | .mailAccept b _ | .mailReceive b _ _ => some ((d.cores c).owner, b)
  | .mailSend o b _ => some (o, b)
  | _ => none

theorem Clears.body {S : Set Word} (hc : Clears d d' S) (h : HeapInv img d)
    (he : ValidMetadata d e .enclave) (he' : ValidMetadata d' e .enclave) (hx : InBody d e x) :
    d'.mem x = d.mem x := by
  obtain ⟨-, a, ha, hxa⟩ := hx
  exact hc.content a (fun hS => hc.notEnclave ((hc.extents e he a ha).mp hS) he')
    (h.page_of_inExtent he ha) (h.slot_of_inExtent he ha) x hxa

theorem PageStep.body {t : Word} {k k' : MetadataPage} (hps : PageStep d d' o t k k') (h : HeapInv img d)
    (he : ValidMetadata d e .enclave) (hx : InBody d e x) : d'.mem x = d.mem x := by
  obtain ⟨hhead, a, ha, hxa⟩ := hx
  have hs := h.slot_of_inExtent he ha
  refine hps.mem x (fun hh => ?_) (fun hh => ?_) fun hh => ?_
  · have hoe : o ≠ e := by rintro rfl; exact hhead hh
    have hao : a ≠ o := by rintro rfl; exact hps.owner.notInExtent h he hoe ha
    exact hs.sep (hps.owner.slot h) hao x hxa (header_subset o hh)
  · have hte : t ≠ e := by
      rintro rfl
      rcases hps.kind with hk | hk <;> exact absurd (hk ▸ hps.before.tag_unique he) (by decide)
    have hat : a ≠ t := by
      rintro rfl
      exact h.notInExtent he hps.before (by rcases hps.kind with rfl | rfl <;> nofun) hte ha
    exact hs.sep (hps.slot h) hat x hxa (threadBytes_subset t hh)
  · exact hs.info_notMem (hps.slot h).inRam (hh ▸ hxa)

/-- **The mailboxes of an enclave are written by mail calls only.** -/
theorem effect_body (h : HeapInv img d) (hm : Maps d) (hcare : CallCareful d k)
    (hE : Effect img L c ctx d k d') (he : ValidMetadata d e .enclave) (he' : ValidMetadata d' e .enclave)
    (hx : InBody d e x)
    (hmail : ∀ o b, mailTarget d c k = some (o, b) → o = ownerUntrusted ∨ x ∉ mailboxBytes o b) :
    d'.mem x = d.mem x := by
  obtain ⟨hhead, a, ha, hxa⟩ := id hx
  have hs := h.slot_of_inExtent he ha
  have hp := h.page_of_inExtent he ha
  -- a page of the enclave has no other tag, and is no dead page
  have hother {k : MetadataPage} (hk : k ≠ .enclave) (hk' : k ≠ .invalid) : ¬ ValidMetadata d a k :=
    fun hv => (h.tag_of_inExtent he ha).elim (fun hae => hk (hv.tag_unique (hae ▸ he)))
      fun hi => hk' (hv.tag_unique hi)
  have heq {f : Word} (hf : ValidMetadata d f .enclave) (haf : a = f) : f = e := by
    by_contra hne
    exact h.notInExtent he hf (by decide) hne (haf ▸ ha)
  by_cases hT : a ∉ touchedPages d c k
  · exact (effect_pages h hm hcare hE hp hs hT).content x hxa
  have hbuild {f : Word} (hf : BuildFrame d f d') (hv : ValidMetadata d f .enclave) (haf : a = f) :
      d'.mem x = d.mem x := by
    obtain rfl := heq hv haf
    exact hf.mem x hhead (hp.not_ownedBy hm.metadataOwned (h.slot f _ hv (by decide)).ne_ownerSm
      (hs.region_of_mem hxa).2)
  have hregion {o : Word} {i : Fin 64} {v : Bool}
      (hmem : d'.mem = if o = ownerUntrusted then d.mem else Enclave.setRegion d.mem o i v)
      (ho : o ≠ ownerUntrusted → ValidMetadata d o .enclave) (hao : a = o) : d'.mem x = d.mem x := by
    by_cases hu : o = ownerUntrusted
    · rw [hmem, if_pos hu]
    · obtain rfl := heq (ho hu) hao
      rw [hmem, if_neg hu]
      exact setRegion_apply hhead i v
  replace hT := not_not.mp hT
  cases k <;> simp only [Effect] at hE
  case enclaveCreate f b mask n debug =>
    exact absurd ((hE.1.freeSpace_enclave h hcare).free a hT) (hother (by decide) (by decide))
  case enclaveDelete f =>
    obtain ⟨hg, rfl⟩ := hE
    cases hf : firstRegion d f with
    | none => exact (delete_none_clears h hg hf).body h he he' hx
    | some i =>
      exact (delete_some_clears h hg hf (hm.type_ne hg.enclave (List.find?_some hf))).body h he he' hx
  case enclaveEnter f t => exact absurd (hT ▸ hE.2.1.thread) (hother (k := .thread) (by decide) (by decide))
  case enclaveExit =>
    rcases (h.running c hE.1).2 with ⟨hv, -⟩ | hd
    · exact absurd (hT ▸ hv) (hother (k := .thread) (by decide) (by decide))
    · exact absurd ha (hT ▸ hd.notBody e he)
  case enclaveInit f =>
    obtain ⟨hv, -, rfl⟩ := hE
    exact hbuild initEnclave_frame hv hT
  case enclaveLoadHandler f p =>
    obtain ⟨hg, rfl⟩ := hE
    exact hbuild (loadHandler_frame hg) hg.enclave hT
  case enclaveLoadPageTable f p v l acl =>
    obtain ⟨hg, d₁, h₁, rfl⟩ := hE
    exact hbuild (loadPageTable_frame h₁) hg.enclave hT
  case enclaveLoadPage f p v o acl =>
    obtain ⟨hg, d₁, h₁, rfl⟩ := hE
    exact hbuild (loadPage_frame hg.toLoadGuard h₁) hg.enclave hT
  case mailAccept b o =>
    obtain ⟨-, rfl⟩ := hE
    exact acceptMail_frame.mem x (hmail _ _ rfl)
  case mailReceive b _ _ =>
    obtain ⟨-, -, rfl⟩ := hE
    exact receiveMail_frame.mem x (hmail _ _ rfl)
  case mailSend o b msg =>
    obtain ⟨-, rfl⟩ := hE
    exact sendMail_frame.mem x (hmail _ _ rfl)
  case regionAssign r o =>
    obtain ⟨hg, rfl⟩ := hE
    exact hregion assignRegion_mem hg.enclave hT
  case regionBlock r =>
    obtain ⟨hg, rfl⟩ := hE
    exact hregion (blockRegion_owner_mem hg) (hg.owner ▸ hg.enclave) hT
  case threadDelete t =>
    obtain ⟨ht, -, rfl⟩ := hE
    exact (deleteThread_step h ht hcare).body h he hx
  case threadLoad f t pc sp l =>
    obtain ⟨hf, -, hfree, rfl⟩ := hE
    exact (loadThread_step h hf (hfree.freeSpace h (by decide) (by decide))).body h he hx
  all_goals exact hT.elim

/-- The mailboxes of the untrusted software are written by mail calls only. -/
theorem effect_untrusted (hE : Effect img L c ctx d k d') (i : Fin 8)
    (hmail : ∀ b, mailTarget d c k = some (ownerUntrusted, b) → Fin.ofNat 8 b.toNat ≠ i) :
    d'.untrustedMailboxes i = d.untrustedMailboxes i := by
  cases k <;> simp only [Effect] at hE
  case enclaveDelete f =>
    obtain ⟨hg, rfl⟩ := hE
    have he := hg.enclave
    cases hf : firstRegion d f with
    | none => rw [deleteEnclave_of_none he.aligned he.inRam hf]
    | some i => rw [deleteEnclave_of_some he.aligned he.inRam hf]; rfl
  case enclaveEnter e t =>
    obtain ⟨-, -, rfl⟩ := hE
    simp only [enterEnclave]; rfl
  case enclaveExit => rw [hE.2, exitEnclave_eq]
  case enclaveLoadPageTable e p v l acl =>
    obtain ⟨hg, d₁, h₁, rfl⟩ := hE
    rw [(loadPageTable_frame h₁).rest]
  case enclaveLoadPage e p v o acl =>
    obtain ⟨hg, d₁, h₁, rfl⟩ := hE
    rw [(loadPage_frame hg.toLoadGuard h₁).rest]
  case regionAssign r o =>
    rw [hE.2, assignRegion]
    split_ifs <;> rfl
  case regionBlock r =>
    obtain ⟨hg, rfl⟩ := hE
    rw [blockRegion_eq hg.notSm]
    dsimp only
    split_ifs <;> rfl
  case mailAccept b o =>
    rw [hE.2, acceptMail]
    split_ifs with hu
    · exact Function.update_of_ne (hmail b (by rw [mailTarget, hu])).symm ..
    · rfl
  case mailReceive b _ _ =>
    rw [hE.2.2, receiveMail]
    split_ifs with hu
    · exact Function.update_of_ne (hmail b (by rw [mailTarget, hu])).symm ..
    · rfl
  case mailSend o b msg =>
    rw [hE.2, sendMail]
    split_ifs with hu
    · exact Function.update_of_ne (hmail b (by rw [mailTarget, hu])).symm ..
    · rfl
  case enclaveCreate | enclaveLoadHandler => rw [hE.2]
  case regionCachePartitioning => rw [hE.2]; rfl
  case enclaveInit | threadDelete => rw [hE.2.2]
  case threadLoad => rw [hE.2.2.2]
  case regionMetadataCreate r => rw [hE.2.2.2]; rfl
  all_goals
    rw [hE]
    try rfl

/-! ## Mailboxes as slots -/

/-- Mailbox `id` of `owner` exists. -/
structure HasMailbox (d : Data N) (owner id : Word) : Prop where
  holder : owner = ownerUntrusted ∨ ValidMetadata d owner .enclave
  valid : MailboxId d owner id

/-- A message: the measurement of its sender and its bytes. -/
abbrev Mail := Bytes 64 × Bytes 256

def slotOf (b : Mailbox) : Slot.State Word Mail :=
  if b.state = mailboxStateFull then .full b.expectedSender (b.senderMeasurement, b.message)
  else if b.state = mailboxStateEmpty then .armed b.expectedSender
  else .unused

/-- What a successful call does to mailbox `id` of `owner`. -/
def callMail (d : Data N) (c : Fin N) (owner id : Word) : Call → Option (Slot.Event Word Mail)
  | .enclaveCreate e _ _ _ _ => if e = owner then some .reset else none
  | .mailAccept b x => if (d.cores c).owner = owner ∧ b = id then some (.arm x) else none
  | .mailSend o b msg =>
    if o = owner ∧ b = id then
      some (.put (d.cores c).owner (senderMeasurementOf d (d.cores c).owner, msg))
    else none
  | .mailReceive b _ _ => if (d.cores c).owner = owner ∧ b = id then some .take else none
  | _ => none

/-- What an item of a history does to mailbox `id` of `owner`. -/
def mailEvent (owner id : Word) : Config N × Event N → Option (Slot.Event Word Mail)
  | (s, .call c k _, some r) => if r.value = 0 then callMail s.data c owner id k else none
  | _ => none

/-! ### The calls -/

theorem mailboxOf_acceptMail : mailboxOf (acceptMail d owner id x) owner id =
    { mailboxOf d owner id with state := mailboxStateEmpty, expectedSender := x } := by
  by_cases hu : owner = ownerUntrusted
  · simp [acceptMail, mailboxOf, hu, Data.setUntrustedMailbox]
  · simp [acceptMail, mailboxOf, hu]

theorem mailboxOf_receiveMail : mailboxOf (receiveMail d owner id) owner id =
    { mailboxOf d owner id with state := mailboxStateFull } := by
  by_cases hu : owner = ownerUntrusted
  · simp [receiveMail, mailboxOf, hu, Data.setUntrustedMailbox]
  · simp [receiveMail, mailboxOf, hu]

theorem mailboxOf_sendMail {msg : Bytes 256} : mailboxOf (sendMail d x owner id msg) owner id =
    { mailboxOf d owner id with
      senderMeasurement := senderMeasurementOf d x
      message := msg
      state := mailboxStateFull } := by
  by_cases hu : owner = ownerUntrusted
  · simp [sendMail, mailboxOf, hu, Data.setUntrustedMailbox]
  · simp [sendMail, mailboxOf, hu]

/-- A core with a mailbox runs an enclave that exists. -/
theorem HeapInv.hasMailbox (h : HeapInv img d) (hid : MailboxId d (d.cores c).owner b) :
    HasMailbox d (d.cores c).owner b := by
  refine ⟨or_iff_not_imp_left.mpr fun hu => (h.running c hu).1.resolve_right fun hd => ?_, hid⟩
  rw [MailboxId, if_neg hu, Data.enclave, (h.dead _ hd).numMailboxes] at hid
  exact BitVec.not_lt_zero hid

theorem Effect.hasMailbox (hE : Effect img L c ctx d k d') (h : HeapInv img d)
    (ht : mailTarget d c k = some (o, b)) : HasMailbox d o b := by
  cases k with
  | mailAccept b' x =>
    obtain ⟨rfl, rfl⟩ := Prod.mk.inj (Option.some.inj ht)
    exact h.hasMailbox hE.1
  | mailReceive b' _ _ =>
    obtain ⟨rfl, rfl⟩ := Prod.mk.inj (Option.some.inj ht)
    exact h.hasMailbox hE.1
  | mailSend o' b' msg =>
    obtain ⟨rfl, rfl⟩ := Prod.mk.inj (Option.some.inj ht)
    exact ⟨or_iff_not_imp_left.mpr fun hu => (hE.1.enclave hu).1, hE.1.box⟩
  | _ => cases ht

/-- Different mailboxes have no byte in common. -/
theorem HeapInv.mailboxBytes_disjoint (h : HeapInv img d) (ho : ValidMetadata d o .enclave)
    (hb : b < (d.enclave o).numMailboxes) (he : ValidMetadata d e .enclave)
    (hid : id < (d.enclave e).numMailboxes) (hne : (o, b) ≠ (e, id)) (hx : x ∈ mailboxBytes e id) :
    x ∉ mailboxBytes o b := fun hxo => by
  obtain ⟨-, a, ha, hxa⟩ := h.mailboxBytes_page he hid hx
  obtain ⟨-, a', ha', hxa'⟩ := h.mailboxBytes_page ho hb hxo
  have haa : a = a' := by
    by_contra hn
    exact (h.slot_of_inExtent he ha).sep (h.slot_of_inExtent ho ha') hn x hxa hxa'
  obtain rfl := h.extent_disjoint ho he (haa ▸ ha') ha
  have hbid : b.toNat ≠ id.toNat := fun hn => hne (by rw [BitVec.eq_of_toNat_eq hn])
  obtain ⟨hnat, hle, hwrap⟩ := h.mailboxAddr_toNat he hid
  obtain ⟨hnat', hle', -⟩ := h.mailboxAddr_toNat ho hb
  rw [mailboxBytes, sizeofMailbox, mem_range_iff (by omega), hnat] at hx
  rw [mailboxBytes, sizeofMailbox, mem_range_iff (by omega), hnat'] at hxo
  omega

/-- A step that does not write the mailbox. -/
theorem Records.mailbox {g : Word → EnclaveMetadata → EnclaveMetadata}
    {new : Word → EnclaveMetadata → Prop} (hrec : Records img d d' g new) (h : HeapInv img d)
    (hnew : ∀ E, ¬ new owner E) (hg : ∀ E, (g owner E).numMailboxes = E.numMailboxes)
    (hbytes : ValidMetadata d owner .enclave → ValidMetadata d' owner .enclave →
      id < (d.enclave owner).numMailboxes → ∀ x ∈ mailboxBytes owner id, InBody d owner x →
        d'.mem x = d.mem x)
    (hu : owner = ownerUntrusted → id.toNat < 8 →
      d'.untrustedMailboxes (Fin.ofNat 8 id.toNat) = d.untrustedMailboxes (Fin.ofNat 8 id.toNat))
    (hbox : HasMailbox d' owner id) :
    HasMailbox d owner id ∧ mailboxOf d' owner id = mailboxOf d owner id := by
  obtain ⟨howner, hid⟩ := hbox
  by_cases hun : owner = ownerUntrusted
  · rw [MailboxId, if_pos hun] at hid
    refine ⟨⟨.inl hun, by rwa [MailboxId, if_pos hun]⟩, ?_⟩
    rw [mailboxOf, if_pos hun, mailboxOf, if_pos hun, hu hun hid]
  · have hv' := howner.resolve_left hun
    have hv := (hrec.live owner hv').resolve_right (hnew _)
    rw [MailboxId, if_neg hun] at hid
    rcases hrec.record owner (.inl hv) (.inl hv') with heq | ⟨hd, -⟩
    · rw [heq, hg] at hid
      refine ⟨⟨.inr hv, by rwa [MailboxId, if_neg hun]⟩, ?_⟩
      rw [mailboxOf, if_neg hun, mailboxOf, if_neg hun]
      exact mailbox_agree fun x hx =>
        hbytes hv hv' hid x hx ⟨(h.mailboxBytes_page hv hid hx).1, (h.mailboxBytes_page hv hid hx).2⟩
    · exact absurd hv' (hd.not_valid (by decide))

theorem changeRecord_numMailboxes (f : Word) (E : EnclaveMetadata) :
    (changeRecord img d c f k E).numMailboxes = E.numMailboxes := by
  cases k <;> simp only [changeRecord] <;> first | rfl | (split_ifs <;> rfl)

/-- Calls that are no event of the mailbox do not write it. -/
theorem effect_mailbox (h : HeapInv img d) (hr : RegionInv d) (hcare : CallCareful d k)
    (hE : Effect img L c ctx d k d') (hnone : callMail d c owner id k = none)
    (hbox : HasMailbox d' owner id) :
    HasMailbox d owner id ∧ mailboxOf d' owner id = mailboxOf d owner id := by
  have htarget : mailTarget d c k ≠ some (owner, id) := fun ht => by
    cases k with
    | mailAccept b x =>
      obtain ⟨ho, hb⟩ := Prod.mk.inj (Option.some.inj ht)
      simp only [callMail, ho, hb, and_self, if_true] at hnone
      cases hnone
    | mailReceive b _ _ =>
      obtain ⟨ho, hb⟩ := Prod.mk.inj (Option.some.inj ht)
      simp only [callMail, ho, hb, and_self, if_true] at hnone
      cases hnone
    | mailSend o b msg =>
      obtain ⟨ho, hb⟩ := Prod.mk.inj (Option.some.inj ht)
      simp only [callMail, ho, hb, and_self, if_true] at hnone
      cases hnone
    | _ => cases ht
  refine (effect_records h hr hcare hE).mailbox h (fun E hnew => ?_)
    (fun E => changeRecord_numMailboxes owner E) (fun hv hv' hid x hx hbody => ?_) (fun hu hid => ?_) hbox
  · cases k with
    | enclaveCreate e b mask n debug =>
      rw [callMail, if_pos hnew.1.symm] at hnone
      cases hnone
    | _ => exact hnew
  · refine effect_body h hr.toMaps hcare hE hv hv' hbody fun o b ht => ?_
    refine or_iff_not_imp_left.mpr fun hou => ?_
    have hob := hE.hasMailbox h ht
    have hb := hob.valid
    rw [MailboxId, if_neg hou] at hb
    exact h.mailboxBytes_disjoint (hob.holder.resolve_left hou) hb hv hid
      (fun heq => htarget (by rw [ht, heq])) hx
  · refine effect_untrusted hE _ fun b ht heq => htarget ?_
    have hb := (hE.hasMailbox h ht).valid
    rw [MailboxId, if_pos rfl] at hb
    have hval : b.toNat % 8 = id.toNat % 8 := congrArg Fin.val heq
    rw [ht, hu, BitVec.eq_of_toNat_eq (by omega : b.toNat = id.toNat)]

/-- The mailboxes of a new enclave are unused, because its pages were free. -/
theorem create_mailbox_state {mask n base : Word} {debug : Bool} (h : HeapInv img d) (hw : NoWrap n)
    (hf : FreeSpace d owner (enclaveMetadataPages n).toNat)
    (hd' : d' = { d with mem := createEnclave d.mem owner base mask n debug })
    (hid : MailboxId d' owner id) : (mailboxOf d' owner id).state = mailboxStateUnused := by
  have hu : owner ≠ ownerUntrusted := by rintro rfl; exact absurd hf.slot.aligned (by decide)
  have hmem : d'.mem = createEnclave d.mem owner base mask n debug := by rw [hd']
  have hn : (d'.enclave owner).numMailboxes = n := by rw [Data.enclave, hmem, (create_record h hf).1]
  have hzero : ∀ x ∈ mailboxBytes owner id, d'.mem x = 0 := by
    intro x hx
    rw [MailboxId, if_neg hu] at hid
    have hv' : ValidMetadata d' owner .enclave := by
      have hself : owner ∈ pagesFrom owner (enclaveMetadataPages n).toNat := ⟨0, hf.pos, by simp⟩
      refine ⟨(metadataPageAt_congr (by rw [hd'])).mpr (hf.free owner hself).toMetadataPageAt, ?_⟩
      rw [pageTag_eq, hmem, create_pageTag hf hself, if_pos rfl]
    have h' : HeapInv img d' := by rw [hd']; exact createEnclave_heapInv h hw hf
    obtain ⟨hhead, a, ha, hxa⟩ := h'.mailboxBytes_page hv' hid hx
    have ha : a ∈ pagesFrom owner (enclaveMetadataPages n).toNat := by
      obtain ⟨i, hi, rfl⟩ := ha
      rw [extentPages, hn] at hi
      exact ⟨i, hi, rfl⟩
    have hfree := hf.free a ha
    have hs := hf.slot_of_mem ha
    rw [hmem, show createEnclave d.mem owner base mask n debug x = _ from createEnclave_agree x hhead,
      show tagPages d.mem owner (enclaveMetadataPages n) .enclave x = _ from
        tagPages_agree hf.pos x (slot_notMem_info hf.slot hf.fits hs hxa)]
    exact h.free_zero hfree hxa
  have hbox : mailboxOf d' owner id = mailbox (fun _ => 0) (mailboxAddr owner id) := by
    rw [mailboxOf, if_neg hu]
    exact mailbox_agree hzero
  rw [hbox]
  rfl

theorem create_mailbox {mask n base : Word} {debug : Bool} (h : HeapInv img d) (hw : NoWrap n)
    (hf : FreeSpace d owner (enclaveMetadataPages n).toNat)
    (hd' : d' = { d with mem := createEnclave d.mem owner base mask n debug })
    (hid : MailboxId d' owner id) : slotOf (mailboxOf d' owner id) = .unused := by
  rw [slotOf, create_mailbox_state h hw hf hd' hid]
  rfl

/-- **A successful call acts on every mailbox as `callMail` says.** -/
theorem effect_slot {st : Slot.State Word Mail} (h : HeapInv img d) (hr : RegionInv d)
    (hcare : CallCareful d k) (hE : Effect img L c ctx d k d')
    (hst : HasMailbox d owner id → st = slotOf (mailboxOf d owner id)) :
    ∃ st', Slot.Step st (callMail d c owner id k) st' ∧
      (HasMailbox d' owner id → st' = slotOf (mailboxOf d' owner id)) := by
  cases hev : callMail d c owner id k with
  | none =>
    refine ⟨st, .skip st, fun hbox => ?_⟩
    obtain ⟨hbox, heq⟩ := effect_mailbox h hr hcare hE hev hbox
    rw [heq]
    exact hst hbox
  | some ev =>
    cases k <;> simp only [callMail, reduceCtorEq] at hev
    case enclaveCreate f base mask n debug =>
      split_ifs at hev with hf
      obtain rfl := Option.some.inj hev
      obtain ⟨hfree, hd'⟩ := hE
      rw [hf] at hfree hd'
      exact ⟨.unused, .reset st, fun hbox =>
        (create_mailbox h hcare (hfree.freeSpace_enclave h hcare) hd' hbox.valid).symm⟩
    case mailAccept b x =>
      split_ifs at hev with hf
      obtain ⟨rfl, rfl⟩ := hf
      obtain rfl := Option.some.inj hev
      obtain ⟨-, rfl⟩ := hE
      refine ⟨.armed x, .arm st x, fun _ => ?_⟩
      rw [mailboxOf_acceptMail]
      rfl
    case mailReceive b _ _ =>
      split_ifs at hev with hf
      obtain ⟨rfl, rfl⟩ := hf
      obtain rfl := Option.some.inj hev
      obtain ⟨hid, hfull, rfl⟩ := hE
      have hst := hst (h.hasMailbox hid)
      rw [slotOf, if_pos hfull] at hst
      rw [hst]
      refine ⟨_, .take _ _, fun _ => ?_⟩
      rw [mailboxOf_receiveMail]
      rfl
    case mailSend o b msg =>
      split_ifs at hev with hf
      obtain ⟨rfl, rfl⟩ := hf
      obtain rfl := Option.some.inj hev
      obtain ⟨hg, rfl⟩ := hE
      have hst := hst ⟨or_iff_not_imp_left.mpr fun hu => (hg.enclave hu).1, hg.box⟩
      rw [slotOf, if_neg (by rw [hg.empty]; decide), if_pos hg.empty, hg.expected] at hst
      rw [hst]
      refine ⟨_, .put _ _, fun _ => ?_⟩
      rw [mailboxOf_sendMail, slotOf, if_pos rfl, hg.expected]

/-! ### Runs -/

theorem step_slot {ev : Event N} {st : Slot.State Word Mail} (h : SystemInv img s)
    (hs : CarefulStep img s ev s') (hst : HasMailbox s.data owner id → st = slotOf (mailboxOf s.data owner id)) :
    ∃ st', Slot.Step st (mailEvent owner id (s, ev)) st' ∧
      (HasMailbox s'.data owner id → st' = slotOf (mailboxOf s'.data owner id)) := by
  obtain ⟨-, L, hd⟩ := step_inv h hs.2 hs.1
  -- a step that writes no page of the enclave
  have hquiet (hev : mailEvent owner id (s, ev) = none) (hchange : ∀ E, eventChange img s owner ev E = E)
      (hnew : ∀ f E, ¬ EventCreates ev f E)
      (hpages : ∀ a, ValidMetadata s.data owner .enclave → InExtent s.data owner a → a ∉ eventPages s ev)
      (hu : s'.data.untrustedMailboxes = s.data.untrustedMailboxes) :
      ∃ st', Slot.Step st (mailEvent owner id (s, ev)) st' ∧
        (HasMailbox s'.data owner id → st' = slotOf (mailboxOf s'.data owner id)) := by
    have hbody (hv : ValidMetadata s.data owner .enclave) (x : Word) (hx : InBody s.data owner x) :
        s'.data.mem x = s.data.mem x := by
      obtain ⟨-, a, ha, hxa⟩ := hx
      exact (step_pages h hs (h.heap.page_of_inExtent hv ha) (h.heap.slot_of_inExtent hv ha)
        (hpages a hv ha)).content x hxa
    refine ⟨st, by rw [hev]; exact .skip st, fun hbox => ?_⟩
    obtain ⟨hbox, heq⟩ := hd.records.mailbox h.heap (hnew owner) (fun E => by rw [hchange])
      (fun hv _ _ x _ => hbody hv x) (fun _ _ => by rw [hu]) hbox
    rw [heq]
    exact hst hbox
  obtain ⟨l, o⟩ := ev
  cases l with
  | call c k ctx =>
    obtain ⟨r, rfl, hne, heq⟩ := (step_call hs.1).reply
    by_cases hv : r.value = 0
    · rw [mailEvent, if_pos hv]
      exact effect_slot h.heap h.regions hs.2 (heq hv) hst
    · rw [mailEvent, if_neg hv, hne hv]
      exact ⟨st, .skip st, hst⟩
  | regionFree c r =>
    exact hquiet rfl (fun _ => rfl) (fun _ _ h => h) (fun _ _ _ => Set.notMem_empty _)
      (by rw [(step_free hs.1).2.1])
  | regionFreeStep c =>
    obtain ⟨p, hpend, hstep⟩ := step_freeStep hs.1
    refine hquiet rfl (fun _ => rfl) (fun _ _ h => h) (fun _ _ _ => Set.notMem_empty _) ?_
    cases hstep with
    | passed _ hd => rw [hd]
    | failed hd => rw [hd]
    | done _ hd => rw [hd]; rfl
  | timer c regs =>
    obtain ⟨-, hu, -, -, hd⟩ := step_timer hs.1
    refine hquiet rfl (fun _ => rfl) (fun _ _ h => h) (fun a hv ha => ?_) ?_
    · rintro rfl
      rcases (h.heap.running c hu).2 with ⟨ht, -⟩ | hdead
      · exact h.heap.notInExtent hv ht (by decide) ((h.heap.running c hu).2.ne_of_enclave hv).symm ha
      · exact hdead.notBody owner hv ha
    · rw [hd, aexEnclave, exitEnclave_eq]
  | userStore c a v =>
    exact hquiet rfl (fun _ => rfl) (fun _ _ h => h) (fun _ _ _ => Set.notMem_empty _)
      (by rw [(step_store hs.1).2.2])

variable {hist h₁ h₂ h₃ : List (Config N × Event N)} {y z : Config N × Event N}

/-- **Over a careful run every mailbox is a slot.** -/
theorem history_slot (h : CarefulHistory img boot hist s) (owner id : Word) :
    ∃ st, Slot.Run (mailEvent owner id) .unused hist st ∧
      (HasMailbox s.data owner id → st = slotOf (mailboxOf s.data owner id)) := by
  refine (Runs.invariant_events (I := fun hist s => SystemInv img s ∧
    ∃ st, Slot.Run (mailEvent owner id) .unused hist st ∧
      (HasMailbox s.data owner id → st = slotOf (mailboxOf s.data owner id))) h
    ⟨smInit_inv img boot, .unused, .nil _, fun hbox => ?_⟩ ?_).2
  · have hb := smInit_booting img boot
    have hu := hbox.holder.resolve_right hb.not_valid
    rw [mailboxOf, if_pos hu, hb.mailboxes]
    rfl
  · rintro hist s ⟨_, ev⟩ s' ⟨hinv, st, hrun, hst⟩ ⟨rfl, hs⟩
    obtain ⟨st', hstep, hst'⟩ := step_slot hinv hs hst
    exact ⟨(step_inv hinv hs.2 hs.1).1, st', hrun.snoc hstep, hst'⟩

/-! ## Authenticity -/

/-- What a put carries. -/
theorem mailEvent_put {sender : Word} {mail : Mail} (h : mailEvent owner id z = some (.put sender mail)) :
    mail.1 = senderMeasurementOf z.1.data sender := by
  obtain ⟨s, l, o⟩ := z
  simp only [mailEvent] at h
  split at h
  · rename_i c k ctx r heq
    obtain ⟨rfl, heq⟩ := Prod.mk.inj heq
    split_ifs at h
    cases k <;> simp only [callMail, reduceCtorEq] at h <;> split_ifs at h <;> cases h
    rfl
  · cases h

/-- **Mailbox authenticity.**  The last message that was sent, by the sender accepted last,
    is what is received; and a message can be sent to an initialised recipient only, which
    has accepted it and nothing since. -/
theorem mail_authentic (h : CarefulHistory img boot hist s) :
    (∀ c id out outM ctx r s', CarefulStep img s (.call c (.mailReceive id out outM) ctx, some r) s' →
      r.value = 0 → ∃ h₁ accept h₂ send h₃ sender message, hist = h₁ ++ accept :: h₂ ++ send :: h₃ ∧
        mailEvent (s.data.cores c).owner id accept = some (.arm sender) ∧
        mailEvent (s.data.cores c).owner id send =
          some (.put sender (senderMeasurementOf send.1.data sender, message)) ∧
        (∀ x ∈ h₂, mailEvent (s.data.cores c).owner id x = none) ∧
        (∀ x ∈ h₃, mailEvent (s.data.cores c).owner id x = none ∨
          mailEvent (s.data.cores c).owner id x = some .take) ∧
        r.outputs = [(outM, List.ofFn (senderMeasurementOf send.1.data sender)),
          (out, List.ofFn message)]) ∧
    (∀ c o id msg ctx r s', CarefulStep img s (.call c (.mailSend o id msg) ctx, some r) s' →
      r.value = 0 → (o ≠ ownerUntrusted → (s.data.enclave o).initState = enclaveStateInitialized) ∧
        (mailboxOf s.data o id).state ≠ mailboxStateFull ∧
        ∃ h₁ accept h₂, hist = h₁ ++ accept :: h₂ ∧
          mailEvent o id accept = some (.arm (s.data.cores c).owner) ∧
          ∀ x ∈ h₂, mailEvent o id x = none) := by
  have hinv := h.run.inv
  constructor
  · intro c id out outM ctx r s' hs hr
    have hcall := step_call hs.1
    obtain ⟨r', hr', -, hE⟩ := hcall.reply
    obtain rfl := Option.some.inj hr'
    obtain ⟨hid, hfull, -⟩ := hE hr
    obtain ⟨st, hrun, hst⟩ := history_slot h (s.data.cores c).owner id
    have hst := hst (hinv.heap.hasMailbox hid)
    rw [slotOf, if_pos hfull] at hst
    rw [hst] at hrun
    obtain ⟨h₁, accept, h₂, send, h₃, heq, harm, hput, hq₂, hq₃⟩ := Slot.full_history hrun
    have hmeas := mailEvent_put hput
    refine ⟨h₁, accept, h₂, send, h₃, _, (mailboxOf s.data (s.data.cores c).owner id).message, heq, harm,
      ?_, hq₂, hq₃, ?_⟩
    · rw [hput, ← hmeas]
    · rw [← hmeas]
      exact hcall.copies r rfl hr
  · intro c o id msg ctx r s' hs hr
    obtain ⟨r', hr', -, hE⟩ := (step_call hs.1).reply
    obtain rfl := Option.some.inj hr'
    obtain ⟨hg, -⟩ := hE hr
    have hne : (mailboxOf s.data o id).state ≠ mailboxStateFull := by rw [hg.empty]; decide
    obtain ⟨st, hrun, hst⟩ := history_slot h o id
    have hst := hst ⟨or_iff_not_imp_left.mpr fun hu => (hg.enclave hu).1, hg.box⟩
    rw [slotOf, if_neg hne, if_pos hg.empty, hg.expected] at hst
    rw [hst] at hrun
    exact ⟨fun hu => (hg.enclave hu).2, hne, Slot.armed_history hrun⟩

instance {n : ℕ} : DecidableEq (Bytes n) := fun a b =>
  decidable_of_iff (∀ i, a i = b i) funext_iff.symm

/-- A message of zeroes from the untrusted software. -/
def zeroMail : Mail := (fun _ => 0, fun _ => 0)

def acceptLabel : Label 2 := callOn 0 (.mailAccept 0 ownerUntrusted)
def sendLabel : Label 2 := callOn 0 (.mailSend ownerUntrusted 0 fun _ => 0)
def receiveLabel : Label 2 := callOn 0 (.mailReceive 0 0 0)

set_option maxRecDepth 100000 in
/-- The untrusted software sends a message to itself, and receives it. -/
theorem mail_authentic_untrusted : ∃ hist s o s', CarefulHistory smallImage zeroBoot hist s ∧
    CarefulStep smallImage s (receiveLabel, some o) s' ∧
    ∃ send ∈ hist, ∃ sender message, mailEvent ownerUntrusted 0 send =
      some (.put sender (senderMeasurementOf send.1.data sender, message)) ∧
      o.outputs = [(0, List.ofFn (senderMeasurementOf send.1.data sender)), (0, List.ofFn message)] := by
  obtain ⟨es, s, o, s', h, hs, ho, hu⟩ : ∃ es s o s', CarefulRun smallImage zeroBoot es s ∧
      CarefulStep smallImage s (receiveLabel, o) s' ∧ o.map Reply.value = some 0 ∧
      (s.data.cores 0).owner = ownerUntrusted :=
    CarefulRun.exists_step_of_labels [acceptLabel, sendLabel] _ (by decide +kernel)
  obtain ⟨hist, hh, -⟩ := h.traced
  obtain ⟨r, rfl, hr⟩ := Option.map_eq_some_iff.mp ho
  obtain ⟨h₁, accept, h₂, send, h₃, sender, message, rfl, -, hput, -, -, hout⟩ :=
    (mail_authentic hh).1 0 0 0 0 zeroContext r s' hs hr
  rw [hu] at hput
  exact ⟨_, s, r, s', hh, hs, send, by simp, sender, message, hput, hout⟩

set_option maxRecDepth 100000 in
/-- After `zombieLabels` core 1 arms a mailbox of the second enclave, which has never run
    `mail_accept`, and the message of core 0 is taken. -/
theorem mail_authentic_fails : ∃ hist s,
    Runs (Traced (Step smallImage)) (smInit smallImage zeroBoot) hist s ∧
    (∀ x ∈ hist, SizeOk x.2.1) ∧
    hist.filterMap (mailEvent secondEnclave 0) = [.reset, .put ownerUntrusted zeroMail] :=
  Runs.exists_of_historyOf (zombieLabels 1 ++ [callOn 1 (.mailAccept 0x9e79e79e79e7a00 ownerUntrusted),
    callOn 0 .enclaveExit, callOn 0 (.mailSend secondEnclave 0 fun _ => 0)]) (by decide +kernel)

/-! ## Delivery -/

theorem take_full {st st' : Slot.State Word Mail} (h : Slot.Step st (some .take) st') :
    ∃ a b, st = .full a b ∧ st' = .full a b := by
  cases h with
  | take a b => exact ⟨a, b, rfl, rfl⟩

theorem slotOf_full_iff {b : Mailbox} : (∃ x m, slotOf b = .full x m) ↔ b.state = mailboxStateFull := by
  rw [slotOf]
  split_ifs with hf he <;> simp [hf]

/-- The lock that `mail_receive` of `owner` takes. -/
def mailLock (owner : Word) : LockId N :=
  if owner = ownerUntrusted then .untrustedState else .region (regionOf owner)

/-- How `mail_receive` ends on a mailbox of `owner`. -/
def receiveResult (d : Data N) (locks : LockId N → Bool) (owner id : Word) : ApiResult :=
  if locks (mailLock owner) then .concurrentCall
  else if (mailboxOf d owner id).state = mailboxStateFull then .ok else .invalidState

section
open Prog

variable {E : Empty → CallState N → Prop} {t : CallState N} {out outM : Word}

theorem CallState.at_data (t : CallState N) : At (fun _ => false) t.data t := ⟨rfl, nofun, fun _ _ => rfl⟩

theorem mailReceiveLocked_result :
    (mailReceiveLocked d owner id out outM).wp E
      (fun r _ => r.1 = if (mailboxOf d owner id).state = mailboxStateFull then .ok else .invalidState)
      (fun _ => True) t := by
  simp only [mailReceiveLocked, wp_bind, wp_ite, wp_ret]
  refine ⟨fun hn => ?_, fun hf => t.at_data.setData fun t ht => ?_⟩
  · exact t.at_data.unlockUntrusted (fun _ => rfl) fun _ ht => ht.unlockRegions fun _ _ => (if_neg hn).symm
  · exact ht.unlockUntrusted (fun _ => rfl) fun _ ht => ht.unlockRegions fun _ _ =>
      (if_pos (not_not.mp hf)).symm

/-- **How `mail_receive` ends.** -/
theorem mailReceive_result (hl : t.lockedRegions = fun _ => false)
    (hid : MailboxId t.data (t.data.cores c).owner id) :
    (mailReceive c id out outM).wp E
      (fun r _ => r.1 = receiveResult t.data t.locks (t.data.cores c).owner id) (fun _ => True) t := by
  simp only [mailReceive, wp_bind, wp_ite, wp_ret, wp_getData, numUntrustedMailboxes, not_le,
    BitVec.not_le, receiveResult]
  refine ⟨fun hu => ⟨fun hge => ?_, fun _ => ?_⟩, fun hu => ?_⟩
  · rw [MailboxId, if_pos hu] at hid
    omega
  · simp only [lockUntrustedState, wp_acquire, mailLock, if_pos hu]
    cases t.locks .untrustedState with
    | true => exact ⟨fun _ => rfl, fun hn => absurd rfl hn⟩
    | false => exact ⟨fun h => absurd h (by simp), fun _ => mailReceiveLocked_result⟩
  by_cases hr : (addrToRegionId (t.data.cores c).owner).toNat < 64
  · rw [MailboxId, if_neg hu] at hid
    rw [wp_addLockRegion_iff hr]
    simp only [CanHold, hl, mailLock, if_neg hu, Bool.false_eq_true, false_or, regionOf]
    cases t.locks (.region (toRegion (addrToRegionId (t.data.cores c).owner))) with
    | true => exact ⟨fun _ => ⟨fun _ => rfl, fun hn => absurd rfl hn⟩, fun h => absurd h (by simp)⟩
    | false =>
      exact ⟨fun hn => absurd rfl hn, fun _ => ⟨fun h => absurd h (by simp), fun _ =>
        ⟨fun hge => absurd hid (BitVec.not_lt.mpr hge), fun _ => mailReceiveLocked_result⟩⟩⟩
  · simp only [addLockRegion, wp_bind, wp_regionIndex]
    exact ⟨fun h => absurd h hr, fun _ => trivial⟩

theorem receive_reply {r : Reply} (hs : Step img s (.call c (.mailReceive id out outM) ctx, some r) s')
    (hid : MailboxId s.data (s.data.cores c).owner id) :
    r.value = (receiveResult s.data s.locks (s.data.cores c).owner id).code := by
  have hwp : (returnOutputs (mailReceive c id out outM)).wp (fun _ _ => True)
      (fun r _ => r.value = (receiveResult s.data s.locks (s.data.cores c).owner id).code) (fun _ => True)
      s.start := by
    simp only [returnOutputs, wp_bind, wp_call, wp_ret]
    exact wp_mono (mailReceive_result (t := s.start) rfl hid) (fun _ _ h => h)
      (fun _ _ h => congrArg ApiResult.code h) fun _ h => h
  simp only [Step, exec] at hs
  split at hs
  · rename_i x hx
    obtain rfl := Option.some.inj hs
    simp only [tryExec] at hx
    split_ifs at hx
    all_goals
      obtain ⟨r', t, ht, hr, -⟩ := finish_eq_ok (Option.some.inj hx)
      obtain rfl := Option.some.inj hr
      have hr := of_wp_ret hwp ht
      exact hr
  · cases hs

end

/-- **A mailbox after a receive.**  Up to a further receive a message is sent if and only if one is
    accepted.  While no message is sent, the mailbox is no longer full, and `mail_receive` fails
    with `MONITOR_INVALID_STATE`, if and only if it was accepted or created anew. -/
theorem mail_delivered_iff (h : CarefulHistory img boot hist s) (heq : hist = h₁ ++ y :: h₂)
    (hy : mailEvent owner id y = some .take) :
    (∀ h₃ z h₄, h₂ = h₃ ++ z :: h₄ → mailEvent owner id z = some .take →
      ((∃ x ∈ h₃, ∃ sender mail, mailEvent owner id x = some (.put sender mail)) ↔
        ∃ x ∈ h₃, ∃ sender, mailEvent owner id x = some (.arm sender))) ∧
    (HasMailbox s.data owner id → (∀ x ∈ h₂, ∀ sender mail, mailEvent owner id x ≠ some (.put sender mail)) →
      ((mailboxOf s.data owner id).state ≠ mailboxStateFull ↔
        ∃ x ∈ h₂, Slot.Renews (mailEvent owner id x)) ∧
      ∀ c out outM ctx r s', (s.data.cores c).owner = owner → s.locks (mailLock owner) = false →
        Step img s (.call c (.mailReceive id out outM) ctx, some r) s' →
        (r.value = ApiResult.invalidState.code ↔ ∃ x ∈ h₂, Slot.Renews (mailEvent owner id x)) ∧
        (r.value = 0 ↔ ¬ ∃ x ∈ h₂, Slot.Renews (mailEvent owner id x))) := by
  obtain ⟨st, hrun, hst⟩ := history_slot h owner id
  rw [heq] at hrun
  obtain ⟨st₁, st₂, -, hstep, hrun⟩ := hrun.split_cons
  rw [hy] at hstep
  obtain ⟨a, b, -, rfl⟩ := take_full hstep
  constructor
  · rintro h₃ z h₄ rfl hz
    obtain ⟨st₃, st₄, hrun, hstep, -⟩ := hrun.split_cons
    rw [hz] at hstep
    obtain ⟨a', b', rfl, -⟩ := take_full hstep
    exact Slot.put_iff_arm hrun
  · intro hbox hn
    have hfull : (mailboxOf s.data owner id).state ≠ mailboxStateFull ↔
        ∃ x ∈ h₂, Slot.Renews (mailEvent owner id x) := by
      rw [ne_eq, ← slotOf_full_iff, ← hst hbox, Slot.full_iff hrun hn]
      push Not
      rfl
    refine ⟨hfull, ?_⟩
    rintro c out outM ctx r s' rfl hfree hs
    rw [receive_reply hs hbox.valid, receiveResult, hfree, if_neg (by decide), ← hfull]
    split_ifs with hf
    · exact ⟨⟨fun h => absurd h (by decide), fun h => absurd hf h⟩, fun _ h => h hf, fun _ => rfl⟩
    · exact ⟨⟨fun _ => hf, fun _ => rfl⟩, fun h => absurd h (by decide), fun h => absurd hf h⟩

set_option maxRecDepth 100000 in
/-- Two receives with an accept, and so a send, between them; and a receive that fails after the
    mailbox was accepted again. -/
theorem mail_delivered_twice :
    (∃ h₁ y h₂ z s, CarefulHistory smallImage zeroBoot (h₁ ++ y :: (h₂ ++ [z])) s ∧
      mailEvent ownerUntrusted 0 y = some .take ∧ mailEvent ownerUntrusted 0 z = some .take ∧
      ∃ x ∈ h₂, ∃ sender mail, mailEvent ownerUntrusted 0 x = some (.put sender mail)) ∧
    ∃ h₁ y h₂ s r s', CarefulHistory smallImage zeroBoot (h₁ ++ y :: h₂) s ∧
      mailEvent ownerUntrusted 0 y = some .take ∧
      (mailboxOf s.data ownerUntrusted 0).state ≠ mailboxStateFull ∧
      Step smallImage s (receiveLabel, some r) s' ∧ r.value = ApiResult.invalidState.code := by
  constructor
  · obtain ⟨hist, s, h, hev⟩ : ∃ hist s, CarefulHistory smallImage zeroBoot hist s ∧
        hist.map (mailEvent ownerUntrusted 0) = [some (.arm ownerUntrusted),
          some (.put ownerUntrusted zeroMail), some .take, some (.arm ownerUntrusted),
          some (.put ownerUntrusted zeroMail), some .take] :=
      CarefulHistory.exists_of_labels
        [acceptLabel, sendLabel, receiveLabel, acceptLabel, sendLabel, receiveLabel] (by decide +kernel)
    simp only [List.map_eq_cons_iff, List.map_eq_nil_iff] at hev
    obtain ⟨x₁, _, rfl, -, x₂, _, rfl, -, y, _, rfl, hy, x₃, _, rfl, harm, x₄, _, rfl, -, z, _, rfl, hz,
      rfl⟩ := hev
    have heq : [x₁, x₂, y, x₃, x₄, z] = [x₁, x₂] ++ y :: [x₃, x₄, z] := rfl
    have hput := (mail_delivered_iff h heq hy).1 [x₃, x₄] z [] rfl hz
    exact ⟨[x₁, x₂], y, [x₃, x₄], z, s, h, hy, hz, hput.mpr ⟨x₃, by simp, _, harm⟩⟩
  · obtain ⟨hist, s, h, hev, hfree, hu, hcall⟩ : ∃ hist s, CarefulHistory smallImage zeroBoot hist s ∧
        hist.map (mailEvent ownerUntrusted 0) = [some (.arm ownerUntrusted),
          some (.put ownerUntrusted zeroMail), some .take, some (.arm ownerUntrusted)] ∧
        s.locks .untrustedState = false ∧ (s.data.cores 0).owner = ownerUntrusted ∧
        ((exec smallImage s receiveLabel).bind Prod.fst).isSome :=
      CarefulHistory.exists_of_labels [acceptLabel, sendLabel, receiveLabel, acceptLabel] (by decide +kernel)
    simp only [List.map_eq_cons_iff, List.map_eq_nil_iff] at hev
    obtain ⟨x₁, _, rfl, -, x₂, _, rfl, -, y, _, rfl, hy, x₃, _, rfl, harm, rfl⟩ := hev
    obtain ⟨r, hr⟩ := Option.isSome_iff_exists.mp hcall
    obtain ⟨⟨-, s'⟩, hs, rfl⟩ := Option.bind_eq_some_iff.mp hr
    have hrenewed : ∃ x ∈ [x₃], Slot.Renews (mailEvent ownerUntrusted 0 x) := ⟨x₃, by simp, .inr ⟨_, harm⟩⟩
    have hnone : ∀ x ∈ [x₃], ∀ sender mail, mailEvent ownerUntrusted 0 x ≠ some (.put sender mail) := by
      intro x hx sender mail
      rw [List.mem_singleton.mp hx, harm]
      nofun
    have heq : [x₁, x₂, y, x₃] = [x₁, x₂] ++ y :: [x₃] := rfl
    obtain ⟨hstate, hreply⟩ := (mail_delivered_iff h heq hy).2
      ⟨.inl rfl, by rw [MailboxId, if_pos rfl]; decide⟩ hnone
    exact ⟨[x₁, x₂], y, [x₃], s, r, s', h, hy, hstate.mpr hrenewed, hs,
      (hreply 0 0 0 zeroContext r s' hu hfree hs).1.mpr hrenewed⟩

set_option maxRecDepth 100000 in
/-- A message is received twice. -/
theorem mail_delivered_fails : ∃ hist s, CarefulHistory smallImage zeroBoot hist s ∧
    hist.map (mailEvent ownerUntrusted 0) = [some (.arm ownerUntrusted),
      some (.put ownerUntrusted zeroMail), some .take, some .take] :=
  CarefulHistory.exists_of_labels [acceptLabel, sendLabel, receiveLabel, receiveLabel] (by decide +kernel)

end SecurityMonitor
