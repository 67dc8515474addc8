/-
  The metadata pages that a step can touch.

  * `touchedPages d c k` are the pages that the call `k` of core `c` may write or
    tag anew; every other metadata page keeps its tag and its bytes
    (`effect_pages`, `step_pages`);
  * `retaggedPages d k` are the pages that the call may tag anew; every other
    metadata page keeps its tag (`effect_tags`, `step_tags`).

  What belongs to one enclave or thread is kept over a run by looking at its own
  pages only.
-/
import SecurityMonitor.Invariant

namespace SecurityMonitor

open ByteMem

variable {N : ℕ} {img : Image N} {s s' : Config N} {d d' : Data N} {a e t x : Word} {c : Fin N} {k : Call}
  {L : LockId N → Bool} {ctx : TrapContext}

/-- Page `a` has the tag and the bytes that it had. -/
structure KeepsPage (d d' : Data N) (a : Word) : Prop where
  tags : ∀ k, ValidMetadata d' a k ↔ ValidMetadata d a k
  content : ∀ x ∈ range a 4096, d'.mem x = d.mem x

theorem KeepsPage.enclave_eq (h : KeepsPage d d' e) : d'.enclave e = d.enclave e :=
  enclaveMetadata_agree fun x hx => h.content x (header_subset e hx)

theorem KeepsPage.thread_eq (h : KeepsPage d d' t) : d'.thread t = d.thread t :=
  threadMetadata_agree fun x hx => h.content x (threadBytes_subset t hx)

theorem KeepsPage.trans {d'' : Data N} (h : KeepsPage d d' a) (h' : KeepsPage d' d'' a) :
    KeepsPage d d'' a :=
  ⟨fun k => (h'.tags k).trans (h.tags k), fun x hx => (h'.content x hx).trans (h.content x hx)⟩

theorem KeepsPage.refl : KeepsPage d d a := ⟨fun _ => Iff.rfl, fun _ _ => rfl⟩

section
variable (hp : MetadataPageAt d a) (hs : IsSlot a)
include hp hs

theorem AgreesOutside.keepsPage {T : Set Word} (ha : AgreesOutside d d' T) (hT : a ∉ T) : KeepsPage d d' a :=
  ⟨fun _ => ha.valid_iff, ha.content a hp hs hT⟩

theorem Retags.keepsPage {S O : Set Word} (hr : Retags img d d' S O) (hS : a ∉ S) (hO : a ∉ O) :
    KeepsPage d d' a :=
  ⟨hr.kept a hS, hr.content a hS hO hp hs⟩

theorem Clears.keepsPage {S : Set Word} (hc : Clears d d' S) (hS : a ∉ S) : KeepsPage d d' a :=
  ⟨hc.kept a hS, hc.content a hS hp hs⟩

omit hp in
theorem PageStep.keepsPage {o : Word} {k k' : MetadataPage} (hps : PageStep d d' o t k k')
    (h : HeapInv img d) (hat : a ≠ t) (hao : a ≠ o) : KeepsPage d d' a := by
  refine ⟨hps.kept h hat, fun x hx => hps.mem x (fun hh => ?_) (fun hh => ?_) fun hh => ?_⟩
  · exact hs.sep (hps.owner.slot h) hao x hx (header_subset _ hh)
  · exact hs.sep (hps.slot h) hat x hx (threadBytes_subset t hh)
  · exact hs.info_notMem (hps.slot h).inRam (hh ▸ hx)

theorem MailFrame.keepsPage {owner box : Word} (hf : MailFrame d owner box d') (h : HeapInv img d)
    (ho : owner = ownerUntrusted ∨ EnclaveOrDead d owner) (hid : MailboxId d owner box)
    (ha : ¬ InExtent d owner a) : KeepsPage d d' a := by
  by_cases hu : owner = ownerUntrusted
  · have hagree : AgreesOutside d d' ∅ :=
      ⟨samePages_of_mem (by rw [hf.rest]) fun a _ => hf.mem _ (.inl hu),
        fun _ _ _ _ x _ => hf.mem x (.inl hu)⟩
    exact hagree.keepsPage hp hs (Set.notMem_empty a)
  · rw [MailboxId, if_neg hu] at hid
    rcases ho.resolve_left hu with he | hd
    · exact (hf.agreesOutside h he hid).keepsPage hp hs ha
    · rw [Data.enclave, (h.dead _ hd).numMailboxes] at hid
      exact absurd hid BitVec.not_lt_zero

end

/-! ## Calls -/

/-- The domain that a core runs. -/
theorem HeapInv.mailOwner (h : HeapInv img d) (c : Fin N) :
    (d.cores c).owner = ownerUntrusted ∨ EnclaveOrDead d (d.cores c).owner :=
  or_iff_not_imp_left.mpr fun hu => (h.running c hu).1

def touchedPages (d : Data N) (c : Fin N) : Call → Set Word
  | .enclaveCreate e _ _ n _ => pagesFrom e (enclaveMetadataPages n).toNat
  | .enclaveDelete e => {a | InExtent d e a ∨ firstRegion d e ≠ none ∧ regionOf a = regionOf e}
  | .enclaveEnter _ t => {t}
  | .enclaveExit => {(d.cores c).thread}
  | .enclaveInit e | .enclaveLoadHandler e _ | .enclaveLoadPageTable e _ _ _ _
  | .enclaveLoadPage e _ _ _ _ => {e}
  | .mailAccept _ _ | .mailReceive _ _ _ => {a | InExtent d (d.cores c).owner a}
  | .mailSend x _ _ => {a | InExtent d x a}
  | .regionAssign _ o => {o}
  | .regionBlock _ => {(d.cores c).owner}
  | .threadDelete t => {t, (d.thread t).owner}
  | .threadLoad e t _ _ _ => {t, e}
  | _ => ∅

theorem effect_pages (h : HeapInv img d) (hm : Maps d) (hcare : CallCareful d k)
    (hE : Effect img L c ctx d k d') (hp : MetadataPageAt d a) (hs : IsSlot a)
    (ha : a ∉ touchedPages d c k) : KeepsPage d d' a := by
  have hmail := h.mailOwner c
  cases k <;> simp only [Effect] at hE
  case enclaveCreate e b mask n debug =>
    obtain ⟨hf, rfl⟩ := hE
    exact (create_retags h hcare (hf.freeSpace_enclave h hcare)).keepsPage hp hs ha (Set.notMem_empty a)
  case enclaveDelete e =>
    obtain ⟨hg, rfl⟩ := hE
    obtain ⟨hext, hreg⟩ := not_or.mp ha
    cases hf : firstRegion d e with
    | none => exact (delete_none_clears h hg hf).keepsPage hp hs hext
    | some i =>
      refine (delete_some_clears h hg hf (hm.type_ne hg.enclave (List.find?_some hf))).keepsPage hp hs ?_
      exact fun hS => hreg ⟨by rw [hf]; simp, hS.2.2⟩
  case enclaveEnter e t =>
    obtain ⟨-, hg, rfl⟩ := hE
    exact (enterEnclave_agrees h hg).keepsPage hp hs ha
  case enclaveExit =>
    obtain ⟨hu, rfl⟩ := hE
    exact (exitEnclave_agrees h hm.monitorRegion hu).keepsPage hp hs ha
  case enclaveInit e =>
    obtain ⟨he, -, rfl⟩ := hE
    exact (initEnclave_frame.agreesOutside hm.metadataOwned (h.slot e _ he (by decide))).keepsPage hp hs ha
  case enclaveLoadHandler e p =>
    obtain ⟨hg, rfl⟩ := hE
    exact ((loadHandler_frame hg).agreesOutside hm.metadataOwned
      (h.slot e _ hg.enclave (by decide))).keepsPage hp hs ha
  case enclaveLoadPageTable e p v l acl =>
    obtain ⟨hg, d₁, h₁, rfl⟩ := hE
    exact ((loadPageTable_frame h₁).agreesOutside hm.metadataOwned
      (h.slot e _ hg.enclave (by decide))).keepsPage hp hs ha
  case enclaveLoadPage e p v o acl =>
    obtain ⟨hg, d₁, h₁, rfl⟩ := hE
    exact ((loadPage_frame hg.toLoadGuard h₁).agreesOutside hm.metadataOwned
      (h.slot e _ hg.enclave (by decide))).keepsPage hp hs ha
  case mailAccept b o =>
    obtain ⟨hid, rfl⟩ := hE
    exact acceptMail_frame.keepsPage hp hs h hmail hid ha
  case mailReceive b _ _ =>
    obtain ⟨hid, -, rfl⟩ := hE
    exact receiveMail_frame.keepsPage hp hs h hmail hid ha
  case mailSend o b msg =>
    obtain ⟨hg, rfl⟩ := hE
    exact sendMail_frame.keepsPage hp hs h (or_iff_not_imp_left.mpr fun hu => .inl (hg.enclave hu).1)
      hg.box ha
  case regionAssign r o =>
    obtain ⟨hg, rfl⟩ := hE
    exact (assignRegion_agrees h hg).keepsPage hp hs ha
  case regionBlock r =>
    obtain ⟨hg, rfl⟩ := hE
    exact (blockRegion_agrees h hm hg).keepsPage hp hs ha
  case regionMetadataCreate r =>
    obtain ⟨hlt, -, hfree, rfl⟩ := hE
    refine (createMetadataRegion_clears hlt hfree h).keepsPage hp hs fun hS => ?_
    have hst := hp.state
    rw [hS.2.2, hfree] at hst
    exact absurd hst (by decide)
  case threadDelete t =>
    obtain ⟨ht, -, rfl⟩ := hE
    exact (deleteThread_step h ht hcare).keepsPage hs h (fun hat => ha (.inl hat))
      fun hao => ha (.inr hao)
  case threadLoad e t pc sp l =>
    obtain ⟨he, -, hf, rfl⟩ := hE
    exact (loadThread_step h he (hf.freeSpace h (by decide) (by decide))).keepsPage hs h
      (fun hat => ha (.inl hat)) fun hae => ha (.inr hae)
  case regionUpdate =>
    subst hE
    exact ⟨fun _ => validMetadata_congr (metadataPageAt_congr rfl) fun _ => rfl, fun _ _ => rfl⟩
  case regionCachePartitioning =>
    obtain ⟨-, rfl⟩ := hE
    exact ⟨fun _ => validMetadata_congr (metadataPageAt_congr rfl) fun _ => rfl, fun _ _ => rfl⟩
  all_goals
    subst hE
    exact KeepsPage.refl

/-- The pages that a call may tag anew. -/
def retaggedPages (d : Data N) : Call → Set Word
  | .enclaveCreate e _ _ n _ => pagesFrom e (enclaveMetadataPages n).toNat
  | .enclaveDelete e => {a | InExtent d e a ∨ firstRegion d e ≠ none ∧ regionOf a = regionOf e}
  | .threadDelete t | .threadLoad _ t _ _ _ => {t}
  | _ => ∅

theorem effect_tags (h : HeapInv img d) (hm : Maps d) (hcare : CallCareful d k)
    (hE : Effect img L c ctx d k d') (ha : a ∉ retaggedPages d k) (hp : MetadataPageAt d a) (hs : IsSlot a)
    {kind : MetadataPage} : ValidMetadata d' a kind ↔ ValidMetadata d a kind := by
  by_cases hT : a ∉ touchedPages d c k
  · exact (effect_pages h hm hcare hE hp hs hT).tags kind
  -- what is left are the calls that write a page without a new tag
  cases k <;> simp only [Effect] at hE
  case enclaveCreate | enclaveDelete => exact absurd ha hT
  case enclaveEnter e t =>
    obtain ⟨-, hg, rfl⟩ := hE
    exact (enterEnclave_agrees h hg).valid_iff
  case enclaveExit =>
    obtain ⟨hu, rfl⟩ := hE
    exact (exitEnclave_agrees h hm.monitorRegion hu).valid_iff
  case enclaveInit e =>
    obtain ⟨he, -, rfl⟩ := hE
    exact (initEnclave_frame.agreesOutside hm.metadataOwned (h.slot e _ he (by decide))).valid_iff
  case enclaveLoadHandler e p =>
    obtain ⟨hg, rfl⟩ := hE
    exact ((loadHandler_frame hg).agreesOutside hm.metadataOwned (h.slot e _ hg.enclave (by decide))).valid_iff
  case enclaveLoadPageTable e p v l acl =>
    obtain ⟨hg, d₁, h₁, rfl⟩ := hE
    exact ((loadPageTable_frame h₁).agreesOutside hm.metadataOwned (h.slot e _ hg.enclave (by decide))).valid_iff
  case enclaveLoadPage e p v o acl =>
    obtain ⟨hg, d₁, h₁, rfl⟩ := hE
    exact ((loadPage_frame hg.toLoadGuard h₁).agreesOutside hm.metadataOwned
      (h.slot e _ hg.enclave (by decide))).valid_iff
  case mailAccept b o =>
    obtain ⟨hid, rfl⟩ := hE
    exact (acceptMail_frame.keepsHeap h (h.mailOwner c) hid).valid_iff
  case mailReceive b _ _ =>
    obtain ⟨hid, -, rfl⟩ := hE
    exact (receiveMail_frame.keepsHeap h (h.mailOwner c) hid).valid_iff
  case mailSend o b msg =>
    obtain ⟨hg, rfl⟩ := hE
    exact (sendMail_frame.keepsHeap h (or_iff_not_imp_left.mpr fun hu => .inl (hg.enclave hu).1)
      hg.box).valid_iff
  case regionAssign r o =>
    obtain ⟨hg, rfl⟩ := hE
    exact (assignRegion_agrees h hg).valid_iff
  case regionBlock r =>
    obtain ⟨hg, rfl⟩ := hE
    exact (blockRegion_agrees h hm hg).valid_iff
  case threadDelete t =>
    obtain ⟨ht, -, rfl⟩ := hE
    exact (deleteThread_step h ht hcare).kept h ha kind
  case threadLoad e t pc sp l =>
    obtain ⟨he, -, hf, rfl⟩ := hE
    exact (loadThread_step h he (hf.freeSpace h (by decide) (by decide))).kept h ha kind
  all_goals exact absurd (Set.notMem_empty a) hT

/-! ## Steps -/

/-- The pages that an event may touch. -/
def eventPages (s : Config N) : Event N → Set Word
  | (.call c k _, _) => touchedPages s.data c k
  | (.timer c _, _) => {(s.data.cores c).thread}
  | _ => ∅

/-- The pages that an event may tag anew. -/
def eventTags (s : Config N) : Event N → Set Word
  | (.call _ k _, _) => retaggedPages s.data k
  | _ => ∅

theorem AgreesOutside.trans {d₁ : Data N} {T : Set Word} (h : AgreesOutside d d₁ T)
    (h' : AgreesOutside d₁ d' T) : AgreesOutside d d' T where
  pages a := (h'.pages a).trans (h.pages a)
  tags a hp := (h'.tags a ((h.pages a).mpr hp)).trans (h.tags a hp)
  content a hp hs hT x hx := (h'.content a ((h.pages a).mpr hp) hs hT x hx).trans (h.content a hp hs hT x hx)

theorem aexEnclave_agrees {regs : Fin 32 → Word} (h : HeapInv img d) (hm : MonitorRegion d)
    (hu : (d.cores c).owner ≠ ownerUntrusted) :
    AgreesOutside d (aexEnclave d c regs) {(d.cores c).thread} := by
  obtain ⟨d₁, hsave, heq⟩ := aexEnclave_eq h hu regs
  have hm₁ : MonitorRegion d₁ := by rw [MonitorRegion, hsave.same.regions]; exact hm
  have hu₁ : (d₁.cores c).owner ≠ ownerUntrusted := by rw [hsave.same.cores]; exact hu
  have hexit : AgreesOutside d₁ (exitEnclave d₁ c true) _ := exitEnclave_agrees hsave.records.heap hm₁ hu₁
  rw [hsave.same.cores] at hexit
  rw [heq]
  exact hsave.agrees.trans hexit

/-- A step that is no call writes at most the page of an interrupted thread. -/
theorem step_agrees {l : Label N} {o : Option Reply} (h : SystemInv img s) (hs : Step img s (l, o) s')
    (hl : ∀ c k ctx, l ≠ .call c k ctx) : AgreesOutside s.data s'.data (eventPages s (l, o)) := by
  have hrefl : AgreesOutside s.data s.data ∅ := ⟨⟨fun _ => Iff.rfl, fun _ _ => rfl⟩, fun _ _ _ _ _ _ => rfl⟩
  cases l with
  | call c k ctx => exact absurd rfl (hl c k ctx)
  | regionFree c r => rw [(step_free hs).2.1]; exact hrefl
  | regionFreeStep c =>
    obtain ⟨p, hpend, hstep⟩ := step_freeStep hs
    cases hstep with
    | passed hn hd => rw [hd]; exact hrefl
    | failed hd => rw [hd]; exact hrefl
    | done hn hd => rw [hd]; exact freeRegion_agrees (h.pending c p hpend).blocked
  | timer c regs =>
    obtain ⟨-, hu, -, -, hd⟩ := step_timer hs
    rw [hd]
    exact aexEnclave_agrees h.heap h.regions.monitorRegion hu
  | userStore c a v =>
    obtain ⟨-, hcan, rfl⟩ := step_store hs
    exact store8_agrees (h.store_ne_metadata hcan)

theorem step_pages {ev : Event N} (h : SystemInv img s) (hs : CarefulStep img s ev s')
    (hp : MetadataPageAt s.data a) (hslot : IsSlot a) (ha : a ∉ eventPages s ev) :
    KeepsPage s.data s'.data a := by
  obtain ⟨l, o⟩ := ev
  by_cases hl : ∀ c k ctx, l ≠ .call c k ctx
  · exact (step_agrees h hs.1 hl).keepsPage hp hslot ha
  push Not at hl
  obtain ⟨c, k, ctx, rfl⟩ := hl
  obtain ⟨r, rfl, hne, heq⟩ := (step_call hs.1).reply
  by_cases hv : r.value = 0
  · exact effect_pages h.heap h.regions.toMaps hs.2 (heq hv) hp hslot ha
  · rw [hne hv]; exact KeepsPage.refl

theorem step_tags {ev : Event N} {kind : MetadataPage} (h : SystemInv img s) (hs : CarefulStep img s ev s')
    (hp : MetadataPageAt s.data a) (hslot : IsSlot a) (ha : a ∉ eventTags s ev) :
    ValidMetadata s'.data a kind ↔ ValidMetadata s.data a kind := by
  obtain ⟨l, o⟩ := ev
  by_cases hl : ∀ c k ctx, l ≠ .call c k ctx
  · exact (step_agrees h hs.1 hl).valid_iff
  push Not at hl
  obtain ⟨c, k, ctx, rfl⟩ := hl
  obtain ⟨r, rfl, hne, heq⟩ := (step_call hs.1).reply
  by_cases hv : r.value = 0
  · exact effect_tags h.heap h.regions.toMaps hs.2 (heq hv) ha hp hslot
  · rw [hne hv]

end SecurityMonitor
