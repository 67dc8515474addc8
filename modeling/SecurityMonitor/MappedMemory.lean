/-
  The virtual memory of an enclave when `enclave_init` succeeds.

  The load calls store one entry of a page table each.  The walk of the hardware
  reads whole tables, and so it also finds what was in their pages before: the
  monitor does not clear the regions that it assigns, `enclave_load_page_table`
  accepts leaves on level 0, and the page of a table may be loaded again.

  * `Building`: nobody but the load calls writes the memory of an enclave before it
    is initialised, and it keeps its regions;
  * `Tidy`: the load calls that use each page for one thing, and only pages without
    entries for tables;
  * `MapInv`: after such calls the tables are a `Sv39.Tree` whose leaves are the
    pages that `enclave_load_page` has loaded;
  * `invariant_since_created`: the rule for the life of an enclave;
  * `TidyHistory.walk_measured`: the walk finds only measured pages, with the contents
    and the access rights that were measured.
-/
import SecurityMonitor.MeasuredStream
import SecurityMonitor.Loading
import SecurityMonitor.PageTables
import SecurityMonitor.Lib.PageTree

namespace SecurityMonitor

open ByteMem

variable {N : ℕ} {img : Image N} {boot : Boot N} {s s' : Config N} {d d' : Data N} {c : Fin N}
  {e p v o acl x va base : Word} {ev : Event N} {es : List (Event N)} {hist : List (Config N × Event N)}

/-! ## Enclaves that are being built -/

/-- A region that nobody owns is the monitor's. -/
def Unowned (d : Data N) : Prop := ∀ i, (d.regions i).state ≠ .owned → (d.regions i).owner = ownerSm

theorem Unowned.step (h : Unowned s.data) (hinv : SystemInv img s) (hs : CarefulStep img s ev s') :
    Unowned s'.data := by
  intro i hi
  rcases step_change hinv hs.1 i with hsame | hchange
  · rw [hsame] at hi ⊢
    exact h i hi
  · generalize s'.data.regions i = g' at hi hchange
    cases hchange with
    | call _ hcall =>
      cases hcall with
      | block => rfl
      | delete => rfl
      | assign => exact absurd rfl hi
      | metadata => rfl
    | free _ hst => exact h _ (by rw [hst]; decide)

theorem CarefulRun.unowned (h : CarefulRun img boot es s) : Unowned s.data := by
  have hboth : SystemInv img s ∧ Unowned s.data := by
    refine Runs.invariant (I := fun s => SystemInv img s ∧ Unowned s.data) h ⟨smInit_inv img boot, ?_⟩ ?_
    · intro i hi
      rw [(smInit_booting img boot).regions, initState_region] at hi ⊢
      cases hsm : regionDoesntIncludeSm i with
      | true => rw [hsm] at hi; exact absurd rfl hi
      | false => rfl
    · rintro s ev s' ⟨hinv, hun⟩ hs
      exact ⟨(step_inv hinv hs.2 hs.1).1, hun.step hinv hs⟩
  exact hboth.2

/-- The enclave at `e` exists and is not initialised. -/
structure Building (img : Image N) (s : Config N) (e : Word) : Prop where
  inv : SystemInv img s
  unowned : Unowned s.data
  live : ValidMetadata s.data e .enclave
  state : (s.data.enclave e).initState ≠ enclaveStateInitialized

/-- An enclave does not survive its deletion. -/
theorem Effect.deleted {L : LockId N → Bool} {ctx : TrapContext} (h : HeapInv img d) (hm : Maps d)
    (hE : Effect img L c ctx d (.enclaveDelete e) d') : ¬ ValidMetadata d' e .enclave := by
  obtain ⟨hg, rfl⟩ := hE
  have he := hg.enclave
  cases hf : firstRegion d e with
  | none => exact (delete_none_clears h hg hf).notEnclave (inExtent_self (h.size e he).1)
  | some i =>
    exact (delete_some_clears h hg hf (hm.type_ne he (List.find?_some hf))).notEnclave
      ⟨he.aligned, he.inRam, rfl⟩

namespace Building

variable (hb : Building img s e)
include hb

theorem owned (ho : OwnedBy s.data e x) : Owned s.data (regionOf x) e := by
  refine ⟨?_, ho.2⟩
  by_contra hne
  exact (hb.inv.heap.slot e _ hb.live (by decide)).ne_ownerSm (ho.2.symm.trans (hb.unowned _ hne))

theorem ordinary (ho : OwnedBy s.data e x) : Ordinary img s.data x :=
  (hb.owned ho).ordinary hb.inv.heap hb.inv.regions.toMaps hb.live ho.1

theorem notMem_header (ho : OwnedBy s.data e x) : x ∉ header e :=
  (hb.ordinary ho).notMem_header hb.live.toMetadataPageAt (hb.inv.heap.slot e _ hb.live (by decide))

theorem header_type (hx : x ∈ header e) : (s.data.regions (regionOf x)).type = .metadata := by
  have hslot := hb.inv.heap.slot e _ hb.live (by decide)
  rw [(hslot.region_of_mem (header_subset e hx)).2]
  exact hb.live.toMetadataPageAt.type

/-- No core runs the enclave. -/
theorem not_running (c : Fin N) : (s.data.cores c).owner ≠ e := by
  intro heq
  have hinit := hb.inv.heap.initialized c
  rw [heq] at hinit
  exact hb.state (hinit hb.live)

/-- No core has access to its memory. -/
theorem not_canStore (ho : OwnedBy s.data e x) (c : Fin N) : ¬ CanStore s c x := by
  rintro ⟨-, hacc⟩
  have hown := hb.owned ho
  have hcore := hb.inv.regions.cores c
  have hcontra {o : Word} (hne : o ≠ e) (h : OwnedOrBlocked s.data (regionOf x) o) : False := by
    rcases h with hblocked | howned
    · exact absurd (hown.1.symm.trans hblocked) (by decide)
    · exact hne (howned.2.symm.trans hown.2)
  rw [hcore.hart.1, hcore.hart.2] at hacc
  rcases hacc with hacc | hacc
  · refine hcontra (fun heq => ?_) (hcore.mmrbm _ hacc)
    have halign := hb.live.aligned
    rw [← heq] at halign
    exact absurd halign (by decide)
  · exact hcontra (hb.not_running c) (hcore.memrbm _ hacc)

/-- It keeps its regions. -/
theorem owned_kept (hs : CarefulStep img s ev s') (he' : ValidMetadata s'.data e .enclave)
    (ho : OwnedBy s.data e x) : OwnedBy s'.data e x := by
  refine ⟨ho.1, ?_⟩
  have hown := hb.owned ho
  rcases step_change hb.inv hs.1 (regionOf x) with hsame | hchange
  · rw [hsame]
    exact ho.2
  · have hst : (s.data.regions (regionOf x)).state = .owned := hown.1
    have hown : (s.data.regions (regionOf x)).owner = e := hown.2
    generalize s.data.regions (regionOf x) = g at hst hown hchange
    generalize s'.data.regions (regionOf x) = g' at hchange
    generalize regionOf x = i at hchange
    cases hchange with
    | @call c k ctx r _ _ _ hr hcall =>
      obtain ⟨r', hr', -, hE⟩ := (step_call hs.1).reply
      obtain rfl := Option.some.inj hr'
      cases hcall with
      | block _ hcur => exact absurd (hcur.symm.trans hown) (hb.not_running c)
      | delete _ _ hf =>
        obtain rfl := hf.symm.trans hown
        exact absurd he' ((hE hr).deleted hb.inv.heap hb.inv.regions.toMaps)
      | assign hfree => exact absurd (hst.symm.trans hfree) (by decide)
      | metadata hfree => exact absurd (hst.symm.trans hfree) (by decide)
    | free _ hblocked => exact absurd (hst.symm.trans hblocked) (by decide)

/-- Only its load calls write its memory. -/
theorem mem_kept (hs : CarefulStep img s ev s') (hl : loadOf img e ev = none) (ho : OwnedBy s.data e x) :
    s'.data.mem x = s.data.mem x := by
  have hstore (c : Fin N) (v : Byte) : ev.1 ≠ .userStore c x v := by
    intro heq
    obtain ⟨l, o⟩ := ev
    obtain rfl : l = .userStore c x v := heq
    exact hb.not_canStore ho c (step_store hs.1).2.1
  have hst : (s.data.regions (regionOf x)).state ≠ .free := by rw [(hb.owned ho).1]; decide
  obtain ⟨l, o⟩ := ev
  rcases l with ⟨c, k, ctx⟩ | _ | _ | _ | _
  case call =>
    obtain ⟨r, rfl, hne, -⟩ := (step_call hs.1).reply
    by_cases hv : r.value = 0
    · refine hs.writes hb.inv (hb.ordinary ho) (fun _ _ _ _ => hst) hstore ?_
      rintro L c' k' ctx' d' heq - f hf hof
      cases heq
      obtain rfl : f = e := hof.2.symm.trans ho.2
      cases k <;> cases hf <;> simp [loadOf, hv] at hl
    · rw [hne hv]
  all_goals
    refine hs.writes hb.inv (hb.ordinary ho) (fun _ _ _ _ => hst) hstore ?_
    intro L c' k' ctx' d' heq
    cases heq

end Building

/-! ## Entries -/

theorem and_bit_eq_zero (acl : Word) (i : ℕ) (hi : i < 64) :
    acl &&& BitVec.twoPow 64 i = 0 ↔ acl.getLsbD i = false := by
  rw [BitVec.and_twoPow]
  split_ifs with hbit
  · refine iff_of_false (fun h0 => ?_) (by simp [hbit])
    have h1 := congrArg BitVec.toNat h0
    rw [BitVec.toNat_twoPow_of_lt hi] at h1
    exact absurd h1 (Nat.two_pow_pos i).ne'
  · exact iff_of_true rfl (Bool.eq_false_iff.mpr hbit)

theorem and_pteV (acl : Word) : acl &&& pteV = 0 ↔ acl.getLsbD 0 = false := and_bit_eq_zero acl 0 (by decide)
theorem and_pteR (acl : Word) : acl &&& pteR = 0 ↔ acl.getLsbD 1 = false := and_bit_eq_zero acl 1 (by decide)
theorem and_pteW (acl : Word) : acl &&& pteW = 0 ↔ acl.getLsbD 2 = false := and_bit_eq_zero acl 2 (by decide)
theorem and_pteX (acl : Word) : acl &&& pteX = 0 ↔ acl.getLsbD 3 = false := and_bit_eq_zero acl 3 (by decide)

/-- An accepted access control list makes a pointer if it is neither readable nor executable. -/
theorem ValidAcl.isPointer_iff (h : ValidAcl acl) :
    Sv39.IsPointer (mkPte p acl) ↔ acl &&& pteR = 0 ∧ acl &&& pteX = 0 := by
  have hflags : Sv39.flags (mkPte p acl) = Sv39.flags acl := mkPte_flags
  have hv : acl.getLsbD 0 = true := by
    rw [← Bool.not_eq_false, ← and_pteV]
    exact h.1
  rw [Sv39.isPointer_iff, hflags, ← Sv39.isPointer_iff, Sv39.IsPointer, and_pteR, and_pteX]
  constructor
  · rintro ⟨-, hr, -, hx⟩
    exact ⟨hr, hx⟩
  rintro ⟨hr, hx⟩
  refine ⟨hv, hr, ?_, hx⟩
  -- writable entries are readable
  have hw := h.2
  rw [and_pteR] at hw
  rw [← and_pteW]
  by_contra hne
  refine hw ⟨hr, ?_⟩
  rw [and_pteW] at hne
  rw [show pteW = BitVec.twoPow 64 2 by decide, BitVec.and_twoPow, if_pos (Bool.not_eq_false _ ▸ hne)]

theorem finishLoadPage_page {m : Mem} {i : ℕ} (hi : i < pageSize) (hp : off p i ∉ header e)
    (ho : off o i ∉ header e) : finishLoadPage m e p v o acl (off p i) = m (off o i) := by
  simp only [finishLoadPage, ↓hashExtend_apply hp]
  rw [Mem.copy_off hi (by decide)]
  simp only [↓Enclave.setInitState, ↓Enclave.setLastPhysAddrLoaded, ↓Mem.store32, ↓Mem.store64,
    ↓header_fill ho, Nat.reduceAdd, Nat.reduceLeDiff]

/-- A new enclave has no page table, because its page was free. -/
theorem create_eptbr {b mask n : Word} {debug : Bool} (h : HeapInv img d)
    (hf : FreeSpace d e (enclaveMetadataPages n).toNat) :
    (enclaveMetadata (createEnclave d.mem e b mask n debug) e).eptbr = 0 := by
  have hE : enclaveMetadata (tagPages d.mem e (enclaveMetadataPages n) .enclave) e = enclaveMetadata d.mem e :=
    enclaveMetadata_agree fun x hx =>
      tagPages_agree hf.pos x (slot_notMem_info hf.slot hf.fits hf.slot (header_subset e hx))
  rw [createEnclave_record, hE]
  refine Mem.load64_eq_zero fun i hi => ?_
  rw [off_off]
  refine h.free e (hf.free e ⟨0, hf.pos, by simp⟩) _ (mem_range_off ?_ (by decide))
  simp only [sizeofThreadMetadata]
  omega

/-! ## Loaded pages -/

/-- A page that `enclave_load_page` has loaded. -/
structure MappedPage where
  virtualAddr : Word
  physAddr : Word
  acl : Word
  contents : Bytes pageSize

/-- The page of the enclave at `e` that the event loads. -/
def loadedPage (e : Word) : Config N × Event N → Option MappedPage
  | (s, (.call _ (.enclaveLoadPage f p v o acl) _, some r)) =>
    if f = e ∧ r.value = 0 then some ⟨v, p, acl, s.data.mem.loadBytes o pageSize⟩ else none
  | _ => none

/-- The part of a history since the enclave at `e` was created. -/
def sinceCreated (e : Word) (hist : List (Config N × Event N)) : List (Config N × Event N) :=
  hist.foldl (fun xs x => match createdWith e x.2 with
    | some _ => []
    | none => xs ++ [x]) []

theorem sinceCreated_create {q : CreateParams} (h : createdWith e ev = some q) :
    sinceCreated e (hist ++ [(s, ev)]) = [] := by
  rw [sinceCreated, List.foldl_append, List.foldl_cons, List.foldl_nil, h]

theorem sinceCreated_step (h : createdWith e ev = none) :
    sinceCreated e (hist ++ [(s, ev)]) = sinceCreated e hist ++ [(s, ev)] := by
  rw [sinceCreated, List.foldl_append, List.foldl_cons, List.foldl_nil, h]
  rfl

/-- **The life of an enclave.**  What holds of every new enclave, and is kept by the steps that it
    survives, holds as long as it exists. -/
theorem invariant_since_created {step : Config N → Event N → Config N → Prop}
    {I : List (Config N × Event N) → Config N → Prop} (hr : Runs (Traced step) (smInit img boot) hist s)
    (hcareful : ∀ s ev s', step s ev s' → CarefulStep img s ev s')
    (hnew : ∀ s ev s', CarefulStep img s ev s' → SystemInv img s → EventCreates ev e (s'.data.enclave e) →
      I [] s')
    (hkeep : ∀ es xs s ev s', CarefulRun img boot es s → step s ev s' → ValidMetadata s.data e .enclave →
      ValidMetadata s'.data e .enclave → I xs s → I (xs ++ [(s, ev)]) s')
    (he : ValidMetadata s.data e .enclave) : I (sinceCreated e hist) s := by
  induction hr with
  | nil => exact absurd he (smInit_booting img boot).not_valid
  | @snoc s s' hist x hr hs ih =>
    obtain ⟨s₀, ev⟩ := x
    obtain ⟨heq, hs⟩ := hs
    obtain rfl : s = s₀ := heq.symm
    have hrun : CarefulRun img boot (hist.map Prod.snd) s :=
      (hr.mono fun _ _ _ h => ⟨h.1, hcareful _ _ _ h.2⟩).of_traced
    have hc := hcareful _ _ _ hs
    obtain ⟨L, hstep⟩ := (step_inv hrun.inv hc.2 hc.1).2
    by_cases hlive : ValidMetadata s.data e .enclave
    · rw [sinceCreated_step (hc.createdWith_eq_none hrun.inv hlive)]
      exact hkeep _ _ _ _ _ hrun hs hlive he (ih hlive)
    · have hcreates := (hstep.records.live e he).resolve_left hlive
      obtain ⟨q, hq, -⟩ : ∃ q, createdWith e ev = some q ∧
          BuildState img.enclaveHandler q [] (s'.data.enclave e) := hcreates.buildState
      rw [sinceCreated_create hq]
      exact hnew _ _ _ hc hrun.inv hcreates

theorem filterMap_concat {α β : Type} {f : α → Option β} {xs : List α} {x : α} :
    (xs ++ [x]).filterMap f = xs.filterMap f ++ (f x).toList := by
  cases h : f x with
  | none => simp [h]
  | some y => simp [h]

/-- The pages of the enclave at `e` that have been loaded since it was created. -/
def pagesOf (e : Word) (hist : List (Config N × Event N)) : List MappedPage :=
  (sinceCreated e hist).filterMap (loadedPage e)

/-- The loads of the enclave at `e` since it was created, first to last. -/
def loadsOf (img : Image N) (e : Word) (hist : List (Config N × Event N)) : List Load :=
  (sinceCreated e hist).filterMap fun x => loadOf img e x.2

/-- **The loads of an enclave are in order.** -/
theorem CarefulHistory.loadInv (h : CarefulHistory img boot hist s) (he : ValidMetadata s.data e .enclave) :
    LoadInv e (loadsOf img e hist) s := by
  refine invariant_since_created (I := fun xs s => LoadInv e (xs.filterMap fun x => loadOf img e x.2) s) h
    (fun _ _ _ hs => hs) (fun _ _ s' _ _ _ => .nil e s') ?_ he
  intro es xs s ev s' hrun hs hlive hlive' hi
  rw [filterMap_concat]
  exact hi.step hrun.inv hs hlive hlive'

theorem measuredEvent_of_loadedPage {x : Config N × Event N} {pg : MappedPage} (h : loadedPage e x = some pg) :
    measuredEvent e x = some (.page pg.virtualAddr pg.acl pg.contents) := by
  obtain ⟨s, l, o⟩ := x
  rcases l with ⟨c, k, ctx⟩ | _ | _ | _ | _
  case call =>
    cases k with
    | enclaveLoadPage f p v o' acl =>
      rcases o with _ | r
      · cases h
      simp only [loadedPage] at h
      split_ifs at h with hf
      obtain ⟨rfl, hv⟩ := hf
      cases h
      simp only [measuredEvent, measuredCall, hv, if_true]
      rfl
    | _ => cases h
  all_goals cases h

/-- The loaded pages are measured. -/
theorem mem_logOf_of_pagesOf {q : CreateParams} {ms : List MeasuredCall} {pg : MappedPage}
    (hlog : logOf e hist = some (q, ms)) (hpg : pg ∈ pagesOf e hist) :
    .page pg.virtualAddr pg.acl pg.contents ∈ ms := by
  induction hist using List.reverseRecOn generalizing q ms with
  | nil => cases hlog
  | append_singleton hist x ih =>
    obtain ⟨s, ev⟩ := x
    cases hc : createdWith e ev with
    | some q' =>
      rw [pagesOf, sinceCreated_create hc] at hpg
      exact absurd hpg (by simp)
    | none =>
      rw [logOf_append, logStep, hc] at hlog
      obtain ⟨⟨q', ms'⟩, hlog', heq⟩ := Option.map_eq_some_iff.mp hlog
      obtain ⟨-, rfl⟩ := Prod.mk.inj heq
      rw [pagesOf, sinceCreated_step hc, filterMap_concat] at hpg
      rcases List.mem_append.mp hpg with hpg | hpg
      · exact List.mem_append_left _ (ih hlog' hpg)
      · rw [measuredEvent_of_loadedPage (Option.mem_toList.mp hpg)]
        exact List.mem_append_right _ (by simp)

/-! ## The tables of an enclave -/

/-- The leaves of the loaded pages. -/
def LeafOf (ps : List MappedPage) (n : ℕ) (pte : Word) : Prop :=
  ∃ pg ∈ ps, Sv39.pageNumber pg.virtualAddr = n ∧ pte = mkPte pg.physAddr pg.acl

/-- A loaded page still has its contents, and is no page table. -/
structure PageInv (s : Config N) (e : Word) (T : Sv39.Tables) (pg : MappedPage) : Prop where
  owned : OwnedBy s.data e pg.physAddr
  aligned : pg.physAddr.toNat % 4096 = 0
  below : pg.physAddr.toNat < (s.data.enclave e).lastPhysAddrLoaded.toNat
  noTable : ∀ l n, ¬ T pg.physAddr l n
  contents : s.data.mem.loadBytes pg.physAddr pageSize = pg.contents

/-- The tables of an enclave with the loaded pages `ps`. -/
structure MapInv (s : Config N) (e : Word) (ps : List MappedPage) (T : Sv39.Tables) : Prop where
  tree : Sv39.Tree s.data.mem T (LeafOf ps)
  owned : ∀ {t l n}, T t l n → OwnedBy s.data e t
  below : ∀ {t l n}, T t l n → t.toNat < (s.data.enclave e).lastPhysAddrLoaded.toNat ∨
    (s.data.enclave e).initState = enclaveStatePageTablesLoaded ∧ t = (s.data.enclave e).lastPhysAddrLoaded
  root : T (rootTable (s.data.enclave e).eptbr) 2 0 ∨
    (s.data.enclave e).eptbr = 0 ∧ (s.data.enclave e).initState < enclaveStatePageDataLoaded
  pages : ∀ pg ∈ ps, PageInv s e T pg
  fresh : (s.data.enclave e).initState = enclaveStateCreated → (∀ t l n, ¬ T t l n) ∧ ps = []

/-- Nothing is mapped yet. -/
theorem MapInv.empty (hroot : (s.data.enclave e).eptbr = 0)
    (hst : (s.data.enclave e).initState < enclaveStatePageDataLoaded) : MapInv s e [] fun _ _ _ => False :=
  ⟨.empty _ _, False.elim, False.elim, .inr ⟨hroot, hst⟩, by simp, fun _ => by simp⟩

/-- The page is the one of the page table that was loaded last. -/
def Reuses (d : Data N) (e p : Word) : Prop :=
  (d.enclave e).initState = enclaveStatePageTablesLoaded ∧ (d.enclave e).lastPhysAddrLoaded = p

/-- What the load calls do not check: a table is no leaf and its page has no entries, and the
    page of a table is not used again. -/
def Tidy (s : Config N) : Label N → Prop
  | .call _ (.enclaveLoadPageTable e p _ l acl) _ => ¬ Reuses s.data e p ∧
    if l = 0 then acl &&& pteR = 0 ∧ acl &&& pteX = 0 else Sv39.NoEntries s.data.mem p
  | .call _ (.enclaveLoadPage e p _ _ _) _ => ¬ Reuses s.data e p
  | _ => True

theorem PtePath.level_le {l : ℕ} (h : PtePath d e v l base) : l ≤ 2 := by
  induction h with
  | root => exact le_rfl
  | node _ _ _ ih => exact (Nat.le_succ _).trans ih

theorem rootTable_zero_not_owned : ¬ OwnedBy d e (rootTable 0) := fun h => absurd h.1 (by decide)

section
variable {ps : List MappedPage} {T : Sv39.Tables}

/-- The walk of the monitor visits tables for its virtual address. -/
theorem MapInv.path {l : ℕ} (h : MapInv s e ps T) (hpath : PtePath s.data e v l base) :
    T base l (Sv39.upper v (l + 1)) := by
  induction hpath with
  | root ho =>
    rw [Sv39.upper_three]
    refine h.root.resolve_right fun hzero => ?_
    rw [hzero.1] at ho
    exact rootTable_zero_not_owned ho
  | node hpath hnode _ ih =>
    rw [pteAddr_entryAddr] at hnode ⊢
    rw [pteTable_eq]
    exact h.tree.next hpath.level_le ih (not_not.mp (mt (badNode_iff _).mpr hnode))

/-- A page that a tidy load call uses is new. -/
theorem MapInv.new_page (h : MapInv s e ps T) (hg : LoadGuard s.data e p v) (hn : ¬ Reuses s.data e p) :
    (∀ l n, ¬ T p l n) ∧ ∀ pg ∈ ps, pg.physAddr ≠ p := by
  have hlast : (s.data.enclave e).lastPhysAddrLoaded.toNat ≤ p.toNat := BitVec.le_def.mp hg.last
  refine ⟨fun l n ht => ?_, fun pg hpg heq => ?_⟩
  · rcases h.below ht with hlt | ⟨hst, heq⟩
    · omega
    · exact hn ⟨hst, heq.symm⟩
  · have hlt := (h.pages pg hpg).below
    rw [heq] at hlt
    omega

/-- The bytes of a page of the enclave. -/
theorem OwnedBy.agreeOn {m m' : Mem} (ho : OwnedBy d e p) (ha : p.toNat % 4096 = 0)
    (hm : ∀ x, OwnedBy d e x → x ∈ range p 4096 → m' x = m x) : m'.AgreeOn m (range p 4096) :=
  fun x hx => hm x (ho.of_mem ha hx) hx

theorem PageInv.contents_of {pg : MappedPage} {m : Mem} (h : PageInv s e T pg)
    (hm : m.AgreeOn s.data.mem (range pg.physAddr 4096)) : m.loadBytes pg.physAddr pageSize = pg.contents := by
  rw [← h.contents]
  exact Mem.loadBytes_agree hm (by decide)

/-- Steps that leave the memory of the enclave alone. -/
theorem MapInv.kept (h : MapInv s e ps T) (hmem : ∀ x, OwnedBy s.data e x → s'.data.mem x = s.data.mem x)
    (hown : ∀ x, OwnedBy s.data e x → OwnedBy s'.data e x)
    (hlast : (s'.data.enclave e).lastPhysAddrLoaded = (s.data.enclave e).lastPhysAddrLoaded)
    (heptbr : (s'.data.enclave e).eptbr = (s.data.enclave e).eptbr)
    (hstate : (s'.data.enclave e).initState = (s.data.enclave e).initState ∨
      (s.data.enclave e).initState = enclaveStatePageDataLoaded ∧
        (s'.data.enclave e).initState = enclaveStateInitialized) : MapInv s' e ps T where
  tree := h.tree.agree fun ht => (h.owned ht).agreeOn (h.tree.aligned ht) fun x hx _ => hmem x hx
  owned ht := hown _ (h.owned ht)
  below ht := by
    rw [hlast]
    rcases h.below ht with hlt | ⟨hst, heq⟩
    · exact .inl hlt
    · rcases hstate with hsame | ⟨hdata, -⟩
      · exact .inr ⟨hsame.trans hst, heq⟩
      · exact absurd (hst.symm.trans hdata) (by decide)
  root := by
    rw [heptbr]
    refine h.root.imp_right fun hzero => ⟨hzero.1, ?_⟩
    rcases hstate with hsame | ⟨hdata, -⟩
    · rw [hsame]
      exact hzero.2
    · rw [hdata] at hzero
      exact absurd hzero.2 (by decide)
  pages pg hpg := by
    have hp := h.pages pg hpg
    refine ⟨hown _ hp.owned, hp.aligned, by rw [hlast]; exact hp.below, hp.noTable, ?_⟩
    exact hp.contents_of (hp.owned.agreeOn hp.aligned fun x hx _ => hmem x hx)
  fresh hst := by
    rcases hstate with hsame | ⟨-, hinit⟩
    · exact h.fresh (hsame.symm.trans hst)
    · exact absurd (hinit.symm.trans hst) (by decide)

theorem PtePath.root_owned {l : ℕ} (h : PtePath d e v l base) : OwnedBy d e (rootTable (d.enclave e).eptbr) := by
  induction h with
  | root ho => exact ho
  | node _ _ _ ih => exact ih

theorem MapInv.root_of_path {l : ℕ} (h : MapInv s e ps T) (hpath : PtePath s.data e v l base) :
    T (rootTable (s.data.enclave e).eptbr) 2 0 := by
  refine h.root.resolve_right fun hzero => ?_
  have ho := hpath.root_owned
  rw [hzero.1] at ho
  exact rootTable_zero_not_owned ho

/-- Loaded pages lie outside the tables. -/
theorem PageInv.notMem_table {pg : MappedPage} {t : Word} {l n : ℕ} (h : PageInv s e T pg)
    (htree : Sv39.Tree s.data.mem T (LeafOf ps)) (ht : T t l n) (hx : x ∈ range pg.physAddr 4096) :
    x ∉ range t 4096 := by
  have hne : pg.physAddr ≠ t := by
    rintro heq
    rw [← heq] at ht
    exact h.noTable l n ht
  exact Sv39.page_sep h.aligned (htree.aligned ht) hne x hx

/-- The page table at `p` is loaded; `T'` are the tables afterwards. -/
theorem MapInv.grow {T' : Sv39.Tables} (h : MapInv s e ps T) (hg : LoadGuard s.data e p v)
    (hn : ¬ Reuses s.data e p)
    (hnew : ∀ {t l n}, T' t l n → T t l n ∨ t = p) (htree : Sv39.Tree s'.data.mem T' (LeafOf ps))
    (hmem : ∀ x, OwnedBy s.data e x → (∀ t l n, T t l n → x ∉ range t 4096) → s'.data.mem x = s.data.mem x)
    (hown : ∀ x, OwnedBy s.data e x → OwnedBy s'.data e x)
    (hlast : (s'.data.enclave e).lastPhysAddrLoaded = p)
    (hstate : (s'.data.enclave e).initState = enclaveStatePageTablesLoaded)
    (hroot : T' (rootTable (s'.data.enclave e).eptbr) 2 0) : MapInv s' e ps T' where
  tree := htree
  owned ht := by
    rcases hnew ht with ht | rfl
    · exact hown _ (h.owned ht)
    · exact hown _ hg.owned
  below ht := by
    have hle : (s.data.enclave e).lastPhysAddrLoaded.toNat ≤ p.toNat := BitVec.le_def.mp hg.last
    rw [hlast]
    rcases hnew ht with hold | rfl
    · rcases h.below hold with hlt | ⟨hst, heq⟩
      · exact .inl (hlt.trans_le hle)
      · rw [← heq] at hle
        refine .inl (lt_of_le_of_ne hle fun hp => hn ⟨hst, ?_⟩)
        rw [← heq]
        exact BitVec.eq_of_toNat_eq hp
    · exact .inr ⟨hstate, rfl⟩
  root := .inl hroot
  pages pg hpg := by
    have hp := h.pages pg hpg
    have hle : (s.data.enclave e).lastPhysAddrLoaded.toNat ≤ p.toNat := BitVec.le_def.mp hg.last
    refine ⟨hown _ hp.owned, hp.aligned, ?_, fun l n ht => ?_, ?_⟩
    · rw [hlast]
      exact hp.below.trans_le hle
    · rcases hnew ht with hold | heq
      · exact hp.noTable l n hold
      · exact (h.new_page hg hn).2 pg hpg heq
    · exact hp.contents_of (hp.owned.agreeOn hp.aligned fun x hx hm =>
        hmem x hx fun t l n ht => hp.notMem_table h.tree ht hm)
  fresh hst := absurd (hst.symm.trans hstate) (by decide)

/-- A store to an entry of a table does not change what lies outside the tables. -/
theorem store_entry_apply {m : Mem} {t pte : Word} {l n : ℕ} (ht : T t l n)
    (hx : ∀ t l n, T t l n → x ∉ range t 4096) : m.store64 (Sv39.entryAddr t v l) pte x = m x :=
  Mem.fill_apply_of_notMem fun hm => hx t l n ht (Sv39.entryAddr_range t v l hm)

/-- The tables lie in memory of the enclave, with a new one at `p`. -/
theorem MapInv.tree_agree {T' : Sv39.Tables} {m m' : Mem} (h : MapInv s e ps T) (ho : OwnedBy s.data e p)
    (hsub : ∀ {t l n}, T' t l n → T t l n ∨ t = p) (htree : Sv39.Tree m T' (LeafOf ps))
    (hm : ∀ x, OwnedBy s.data e x → m' x = m x) : Sv39.Tree m' T' (LeafOf ps) := by
  refine htree.agree fun {t l n} ht => OwnedBy.agreeOn ?_ (htree.aligned ht) fun x hx _ => hm x hx
  rcases hsub ht with ht | rfl
  · exact h.owned ht
  · exact ho

theorem LoadPageTableGuard.isPointer {level : Word} (hg : LoadPageTableGuard d e p v level acl)
    (hzero : level = 0 → acl &&& pteR = 0 ∧ acl &&& pteX = 0) : Sv39.IsPointer (mkPte p acl) := by
  refine ValidAcl.isPointer_iff ⟨hg.valid, hg.readable⟩ |>.mpr ?_
  by_cases h0 : level = 0
  · exact hzero h0
  · constructor
    · by_contra hr
      exact h0 (hg.noMegapage (.inl hr))
    · by_contra hx
      exact h0 (hg.noMegapage (.inr hx))

/-- **A page table is loaded.** -/
theorem MapInv.loadPageTable {level : Word} {d₁ : Data N} (h : MapInv s e ps T) (hb : Building img s e)
    (hg : LoadPageTableGuard s.data e p v level acl) (h₁ : EntryLoaded s.data e p v level acl d₁)
    (hd : s'.data = { d₁ with mem := finishLoadPageTable d₁.mem e p v level acl })
    (hrec : s'.data.enclave e = loadPageTableRecord p v level acl (s.data.enclave e))
    (hn : ¬ Reuses s.data e p)
    (ht : if level = 0 then acl &&& pteR = 0 ∧ acl &&& pteX = 0 else Sv39.NoEntries s.data.mem p) :
    ∃ T', MapInv s' e ps T' ∧ ∀ {t l n}, T' t l n → T t l n ∨ t = p := by
  have hown (x : Word) (ho : OwnedBy s.data e x) : OwnedBy s'.data e x := by
    rw [hd, h₁.frame.rest]
    exact ho
  have hfinish (x : Word) (ho : OwnedBy s.data e x) : s'.data.mem x = d₁.mem x := by
    rw [hd]
    exact finishLoadPageTable_apply (hb.notMem_header ho)
  have hlast : (s'.data.enclave e).lastPhysAddrLoaded = p := by rw [hrec]; rfl
  have hstate : (s'.data.enclave e).initState = enclaveStatePageTablesLoaded := by rw [hrec]; rfl
  have hram : p.toNat < 2 ^ 56 := by
    have := hg.owned.page_lt hg.aligned
    omega
  have hptr : Sv39.IsPointer (mkPte p acl) := hg.isPointer fun h0 => by rwa [if_pos h0] at ht
  -- a table of level `i` at `p`
  have hadd (hno : Sv39.NoEntries s.data.mem p) (i : ℕ) :=
    h.tree.add hg.aligned (h.new_page hg.toLoadGuard hn).1 hno i (Sv39.upper v (i + 1))
  have hsub {i : ℕ} {t : Word} {l n : ℕ} (hT : T t l n ∨ t = p ∧ l = i ∧ n = Sv39.upper v (i + 1)) :
      T t l n ∨ t = p := hT.imp_right And.left
  obtain ⟨hl, rfl⟩ | ⟨hl, base, hpath, rfl⟩ := h₁
  · -- a new root: only the header changes
    rw [if_neg (by rw [hl]; decide)] at ht
    have hsame (x : Word) (ho : OwnedBy s.data e x) : s'.data.mem x = s.data.mem x :=
      (hfinish x ho).trans (header_fill (hb.notMem_header ho) (by decide))
    refine ⟨_, h.grow hg.toLoadGuard hn hsub (h.tree_agree hg.owned hsub (hadd ht 2) hsame)
      (fun x ho _ => hsame x ho) hown hlast hstate (.inr ⟨?_, rfl, (Sv39.upper_three v).symm⟩), hsub⟩
    rw [hrec, loadPageTableRecord, rootTable_eq]
    dsimp only
    rw [if_pos hl, rootOf_eptbr hg.aligned hram]
  · have hT := h.path hpath
    rw [pteAddr_entryAddr] at hfinish
    have hmem (x : Word) (ho : OwnedBy s.data e x) (hx : ∀ t l n, T t l n → x ∉ range t 4096) :
        s'.data.mem x = s.data.mem x := by
      rw [hfinish x ho]
      exact store_entry_apply hT hx
    have hroot : T (rootTable (s'.data.enclave e).eptbr) 2 0 := by
      rw [hrec, loadPageTableRecord]
      dsimp only
      rw [if_neg hl]
      exact h.root_of_path hpath
    have hle : level.toNat ≤ 2 := hpath.level_le
    cases hi : level.toNat with
    | zero =>
      -- a pointer on level 0, which no walk follows
      rw [hi] at hT hfinish hle
      have hentry := h.tree.store hle hT (.inr (.inl ⟨hptr, fun i hi => absurd hi (Nat.succ_ne_zero i).symm⟩))
      exact ⟨T, h.grow hg.toLoadGuard hn .inl (h.tree_agree hg.owned .inl hentry hfinish) hmem hown hlast
        hstate hroot, .inl⟩
    | succ i =>
      -- a pointer to the new table
      rw [hi] at hT hfinish hle
      rw [if_neg (by rintro rfl; exact absurd hi (Nat.succ_ne_zero i).symm)] at ht
      have hentry := (hadd ht i).store hle (.inl hT)
        (.inr (.inl ⟨hptr, fun j hj => .inr ⟨mkPte_page hg.aligned hram, (Nat.succ.inj hj).symm, rfl⟩⟩))
      exact ⟨_, h.grow hg.toLoadGuard hn hsub (h.tree_agree hg.owned hsub hentry hfinish) hmem hown hlast
        hstate (.inl hroot), hsub⟩

theorem LeafOf.append {qs : List MappedPage} {n : ℕ} {pte : Word} (h : LeafOf ps n pte) :
    LeafOf (ps ++ qs) n pte := by
  obtain ⟨pg, hpg, hpte⟩ := h
  exact ⟨pg, List.mem_append_left _ hpg, hpte⟩

theorem leafOf_self (ps : List MappedPage) (pg : MappedPage) :
    LeafOf (ps ++ [pg]) (Sv39.pageNumber pg.virtualAddr) (mkPte pg.physAddr pg.acl) :=
  ⟨pg, by simp, rfl, rfl⟩

/-- The new page has the contents of the page of untrusted software, which is not in the
    enclave. -/
theorem Building.page_contents {d₁ : Data N} (hb : Building img s e) (hg : LoadPageGuard s.data e p v o acl)
    (h₁ : EntryLoaded s.data e p v 0 acl d₁)
    (hd : s'.data = { d₁ with mem := finishLoadPage d₁.mem e p v o acl }) :
    s'.data.mem.loadBytes p pageSize = s.data.mem.loadBytes o pageSize := by
  funext i
  have hi : (i : ℕ) < pageSize := i.isLt
  have hpage : OwnedBy s.data e (off p i) := hg.owned.of_mem hg.aligned (mem_range_off hi (by decide))
  have hos : OwnedBy s.data ownerUntrusted (off o i) :=
    hg.osOwned.of_mem hg.osAligned (mem_range_off hi (by decide))
  have hout : ¬ OwnedBy s.data e (off o i) := by
    intro ho
    have halign := hb.live.aligned
    rw [← ho.2, hos.2] at halign
    exact absurd halign (by decide)
  have hheader : off o i ∉ header e := fun hx =>
    absurd (hos.2.symm.trans (hb.inv.regions.metadata _ (hb.header_type hx)).2) (by decide)
  show s'.data.mem (off p i) = s.data.mem (off o i)
  rw [hd]
  exact (finishLoadPage_page hi (hb.notMem_header hpage) hheader).trans (h₁.frame.mem _ hheader hout)

/-- **A page is loaded.** -/
theorem MapInv.loadPage {pg : MappedPage} {d₁ : Data N} (h : MapInv s e ps T) (hb : Building img s e)
    (hg : LoadPageGuard s.data e pg.physAddr pg.virtualAddr o pg.acl)
    (h₁ : EntryLoaded s.data e pg.physAddr pg.virtualAddr 0 pg.acl d₁)
    (hd : s'.data = { d₁ with mem := finishLoadPage d₁.mem e pg.physAddr pg.virtualAddr o pg.acl })
    (hrec : s'.data.enclave e = loadPageRecord pg.physAddr pg.virtualAddr pg.acl
      (memBytes s.data.mem o pageSize) (s.data.enclave e))
    (hn : ¬ Reuses s.data e pg.physAddr) (hc : pg.contents = s.data.mem.loadBytes o pageSize) :
    MapInv s' e (ps ++ [pg]) T := by
  have hown (x : Word) (ho : OwnedBy s.data e x) : OwnedBy s'.data e x := by
    rw [hd, h₁.frame.rest]
    exact ho
  have hram := hg.owned.page_lt hg.aligned
  have hlast : (s'.data.enclave e).lastPhysAddrLoaded.toNat = pg.physAddr.toNat + 4096 := by
    rw [hrec, loadPageRecord]
    exact off_toNat_of_lt (by simp only [pageSize] at *; omega)
  have hstate : (s'.data.enclave e).initState = enclaveStatePageDataLoaded := by rw [hrec]; rfl
  have heptbr : (s'.data.enclave e).eptbr = (s.data.enclave e).eptbr := by rw [hrec]; rfl
  have hle : (s.data.enclave e).lastPhysAddrLoaded.toNat ≤ pg.physAddr.toNat := BitVec.le_def.mp hg.last
  have hcontents := hb.page_contents hg h₁ hd
  obtain ⟨hl, -⟩ | ⟨-, base, hpath, rfl⟩ := h₁
  · exact absurd hl (by decide)
  have hT : T base 0 (Sv39.upper pg.virtualAddr 1) := h.path hpath
  have hnew := h.new_page hg.toLoadGuard hn
  have hleaf : ¬ Sv39.IsPointer (mkPte pg.physAddr pg.acl) := by
    rw [ValidAcl.isPointer_iff ⟨hg.valid, hg.readable⟩]
    exact hg.leaf
  rw [pteAddr_entryAddr] at hd
  have hfinish (x : Word) (ho : OwnedBy s.data e x) (hx : x ∉ range pg.physAddr 4096) : s'.data.mem x =
      s.data.mem.store64 (Sv39.entryAddr base pg.virtualAddr 0) (mkPte pg.physAddr pg.acl) x := by
    rw [hd]
    exact finishLoadPage_apply (hb.notMem_header ho) hx
  refine ⟨?_, fun ht => hown _ (h.owned ht), fun ht => .inl ?_, .inl ?_, fun pg' hpg => ?_,
    fun hst => absurd (hst.symm.trans hstate) (by decide)⟩
  · -- the tables: the new entry is the leaf of the new page
    have hleaves : Sv39.Tree s.data.mem T (LeafOf (ps ++ [pg])) :=
      h.tree.mono LeafOf.append
    have hentry := hleaves.store (Nat.zero_le 2) hT (.inr (.inr ⟨hleaf, rfl, leafOf_self ps pg⟩))
    refine hentry.agree fun {t l n} ht => (h.owned ht).agreeOn (h.tree.aligned ht) fun x ho hx => ?_
    refine hfinish x ho (Sv39.page_sep (h.tree.aligned ht) hg.aligned ?_ x hx)
    rintro rfl
    exact hnew.1 l n ht
  · rw [hlast]
    rcases h.below ht with hlt | ⟨-, heq⟩
    · omega
    · rw [heq]
      omega
  · rw [heptbr]
    exact h.root_of_path hpath
  · rcases List.mem_append.mp hpg with hpg | hpg
    · have hp := h.pages pg' hpg
      refine ⟨hown _ hp.owned, hp.aligned, ?_, hp.noTable, ?_⟩
      · have := hp.below
        omega
      · refine hp.contents_of (hp.owned.agreeOn hp.aligned fun x ho hx => ?_)
        rw [hfinish x ho (Sv39.page_sep hp.aligned hg.aligned (hnew.2 pg' hpg) x hx)]
        exact store_entry_apply hT fun t l n ht => hp.notMem_table h.tree ht hx
    · obtain rfl := List.mem_singleton.mp hpg
      refine ⟨hown _ hg.owned, hg.aligned, ?_, hnew.1, hcontents.trans hc.symm⟩
      omega

/-- **Every tidy step keeps the tables.**  A new one is loaded by `enclave_load_page_table`. -/
theorem MapInv.step (h : MapInv s e ps T) (hb : Building img s e) (hs : CarefulStep img s ev s')
    (ht : Tidy s ev.1) (he' : ValidMetadata s'.data e .enclave) :
    ∃ T', MapInv s' e (ps ++ (loadedPage e (s, ev)).toList) T' ∧
      ∀ t l n, T' t l n → T t l n ∨ loadOf img e ev = some ⟨t, pageSize, true⟩ := by
  have hrecord := hs.record_eq hb.inv hb.live he'
  have hkept (hl : loadOf img e ev = none) : ∃ T', MapInv s' e (ps ++ (none : Option MappedPage).toList) T' ∧
      ∀ t l n, T' t l n → T t l n ∨ loadOf img e ev = some ⟨t, pageSize, true⟩ := by
    have hu := hs.unloaded hb.inv hb.live he' hl
    rw [Option.toList_none, List.append_nil]
    exact ⟨T, h.kept (fun x ho => hb.mem_kept hs hl ho) (fun x ho => hb.owned_kept hs he' ho) hu.last hu.eptbr
      hu.state, fun _ _ _ => .inl⟩
  obtain ⟨l, o⟩ := ev
  rcases l with ⟨c, k, ctx⟩ | _ | _ | _ | _
  case call =>
    obtain ⟨r, rfl, -, hE⟩ := (step_call hs.1).reply
    cases k with
    | enclaveLoadHandler f p =>
      by_cases hf : f = e ∧ r.value = 0
      · obtain ⟨rfl, hv⟩ := hf
        obtain ⟨hg, -⟩ := hE hv
        obtain ⟨hempty, rfl⟩ := h.fresh hg.state
        simp only [eventChange, hv, changeRecord, if_true] at hrecord
        refine ⟨fun _ _ _ => False, .empty ?_ ?_, fun _ _ _ => False.elim⟩
        · rw [hrecord]
          exact (h.root.resolve_left (hempty _ _ _)).1
        · rw [hrecord]
          exact (by decide : enclaveStateHandlerLoaded < enclaveStatePageDataLoaded)
      · exact hkept (if_neg hf)
    | enclaveLoadPageTable f p v lev acl =>
      by_cases hf : f = e ∧ r.value = 0
      · obtain ⟨rfl, hv⟩ := hf
        obtain ⟨hg, d₁, h₁, hd⟩ := hE hv
        simp only [eventChange, hv, changeRecord, if_true] at hrecord
        rw [show loadedPage f (s, (.call c (.enclaveLoadPageTable f p v lev acl) ctx, some r)) = none from rfl,
          Option.toList_none, List.append_nil]
        obtain ⟨T', hT', hnew⟩ := h.loadPageTable hb hg h₁ hd hrecord ht.1 ht.2
        refine ⟨T', hT', fun t l n hT => (hnew hT).imp_right ?_⟩
        rintro rfl
        exact if_pos ⟨rfl, hv⟩
      · exact hkept (if_neg hf)
    | enclaveLoadPage f p v os acl =>
      by_cases hf : f = e ∧ r.value = 0
      · rw [show loadedPage e (s, (.call c (.enclaveLoadPage f p v os acl) ctx, some r)) =
          some ⟨v, p, acl, s.data.mem.loadBytes os pageSize⟩ from if_pos hf, Option.toList_some]
        obtain ⟨rfl, hv⟩ := hf
        obtain ⟨hg, d₁, h₁, hd⟩ := hE hv
        simp only [eventChange, hv, changeRecord, if_true] at hrecord
        exact ⟨T, h.loadPage hb hg h₁ hd hrecord ht rfl, fun _ _ _ => .inl⟩
      · rw [show loadedPage e (s, (.call c (.enclaveLoadPage f p v os acl) ctx, some r)) = none from if_neg hf]
        exact hkept (if_neg hf)
    | _ => exact hkept rfl
  all_goals exact hkept rfl

end

/-! ## Tidy runs -/

/-- A step that is careful and tidy. -/
def TidyStep (img : Image N) (s : Config N) (ev : Event N) (s' : Config N) : Prop :=
  CarefulStep img s ev s' ∧ Tidy s ev.1

/-- The history of a run of such steps. -/
def TidyHistory (img : Image N) (boot : Boot N) : List (Config N × Event N) → Config N → Prop :=
  Runs (Traced (TidyStep img)) (smInit img boot)

theorem TidyHistory.careful (h : TidyHistory img boot hist s) : CarefulHistory img boot hist s :=
  h.mono fun _ _ _ hs => ⟨hs.1, hs.2.1⟩

/-- A new enclave has no tables. -/
theorem MapInv.create (hs : CarefulStep img s ev s') (h : SystemInv img s)
    (hc : EventCreates ev e (s'.data.enclave e)) : MapInv s' e [] fun _ _ _ => False := by
  obtain ⟨l, o⟩ := ev
  rcases l with ⟨c, k, ctx⟩ | _ | _ | _ | _
  case call =>
    rcases o with _ | r
    · exact absurd hc id
    obtain ⟨hv, hc⟩ := hc
    cases k with
    | enclaveCreate f b mask n debug =>
      obtain ⟨rfl, hnew⟩ := hc
      obtain ⟨r', hr', -, hE⟩ := (step_call hs.1).reply
      obtain rfl := Option.some.inj hr'
      obtain ⟨hf, hd⟩ := hE hv
      have hf := hf.freeSpace_enclave h.heap hs.2
      have hzero : (s'.data.enclave e).eptbr = 0 := by
        rw [hd]
        exact create_eptbr h.heap hf
      refine .empty hzero ?_
      rw [hnew.state]
      decide
    | _ => exact absurd hc id
  all_goals exact absurd hc id

/-- The tables are page tables that were loaded, and the memory of the loads is the enclave's. -/
structure LoadedInv (s : Config N) (e : Word) (ls : List Load) (T : Sv39.Tables) : Prop where
  tables : ∀ {t l n}, T t l n → ⟨t, pageSize, true⟩ ∈ ls
  owned : ∀ l ∈ ls, ∀ x ∈ range l.addr l.size, OwnedBy s.data e x

theorem LoadedInv.step {ls : List Load} {T T' : Sv39.Tables} (h : LoadedInv s e ls T)
    (hb : Building img s e) (hs : CarefulStep img s ev s') (he' : ValidMetadata s'.data e .enclave)
    (hnew : ∀ t l n, T' t l n → T t l n ∨ loadOf img e ev = some ⟨t, pageSize, true⟩) :
    LoadedInv s' e (ls ++ (loadOf img e ev).toList) T' where
  tables ht := by
    rcases hnew _ _ _ ht with hold | hload
    · exact List.mem_append_left _ (h.tables hold)
    · exact List.mem_append_right _ (Option.mem_toList.mpr hload)
  owned l hl x hx := by
    refine hb.owned_kept hs he' ?_
    rcases List.mem_append.mp hl with hl | hl
    · exact h.owned l hl x hx
    · exact (hs.loads_of hb.inv (Option.mem_toList.mp hl)).owned x hx

/-- **In every tidy run the tables of an enclave that is being built are a tree.** -/
theorem TidyHistory.mapped (hr : TidyHistory img boot hist s) (he : ValidMetadata s.data e .enclave)
    (hst : (s.data.enclave e).initState ≠ enclaveStateInitialized) :
    ∃ T, MapInv s e (pagesOf e hist) T ∧ LoadedInv s e (loadsOf img e hist) T := by
  refine invariant_since_created (I := fun xs s => (s.data.enclave e).initState ≠ enclaveStateInitialized →
    ∃ T, MapInv s e (xs.filterMap (loadedPage e)) T ∧ LoadedInv s e (xs.filterMap fun x => loadOf img e x.2) T)
    hr (fun _ _ _ hs => hs.1) (fun _ _ _ hs h hc _ => ⟨_, .create hs h hc, False.elim, by simp⟩) ?_ he hst
  rintro es xs s ev s' hrun ⟨hs, htidy⟩ hlive hlive' ih hst
  have hst₀ : (s.data.enclave e).initState ≠ enclaveStateInitialized := by
    intro hinit
    have hfrozen := hs.frozen hrun.inv hlive hlive' hinit
    rw [Frozen] at hfrozen
    exact hst (by rw [hfrozen]; exact hinit)
  have hb : Building img s e := ⟨hrun.inv, hrun.unowned, hlive, hst₀⟩
  obtain ⟨T, hT, hl⟩ := ih hst₀
  obtain ⟨T', hT', hnew⟩ := hT.step hb hs htidy hlive'
  rw [filterMap_concat, filterMap_concat]
  exact ⟨T', hT', hl.step hb hs hlive' hnew⟩

/-- A leaf of the enclave at `e` for `va`, which belongs to one of the loaded pages: with the physical
    page and the access rights of that load, and the contents that were loaded. -/
structure LeafOfPage (m : Mem) (va pte : Word) (pg : MappedPage) : Prop where
  number : Sv39.pageNumber pg.virtualAddr = Sv39.pageNumber va
  page : Sv39.Canonical pg.virtualAddr → Sv39.Canonical va → pg.virtualAddr.toNat / 2 ^ 12 = va.toNat / 2 ^ 12
  physAddr : Sv39.pageOf pte = pg.physAddr
  flags : Sv39.flags pte = pg.acl.toNat % 2 ^ 10
  contents : m.loadBytes pg.physAddr pageSize = pg.contents

/-- **The walk finds only measured pages.**  When `enclave_init` succeeds in a tidy run and the walk for
    a virtual address ends at a valid leaf, then the leaf belongs to a page that was loaded, and the
    load is in the log of which the measurement is the digest. -/
theorem TidyHistory.walk_measured {l : ℕ} {pte : Word} (hr : TidyHistory img boot hist s)
    (hs : CarefulStep img s ev s') (hi : InitsAt e ev)
    (hw : Sv39.walk s'.data.mem va 2 (Sv39.rootOf (s'.data.enclave e).eptbr) = (l, pte))
    (hv : Sv39.IsValid pte) (hp : ¬ Sv39.IsPointer pte) :
    l = 0 ∧ ∃ pg ∈ pagesOf e hist, LeafOfPage s'.data.mem va pte pg ∧
      ∃ q ms, logOf e hist = some (q, ms) ∧ .page pg.virtualAddr pg.acl pg.contents ∈ ms ∧
        (s'.data.enclave e).measurement = sha512Digest (measuredStream img.enclaveHandler q ms) := by
  obtain ⟨q, ms, hlog, -, hmeasured⟩ := hr.careful.measured hs hi
  have hrun := CarefulHistory.run hr.careful
  obtain ⟨c, ctx, r, rfl, hv0⟩ := hi
  obtain ⟨r', hr', -, hE⟩ := (step_call hs.1).reply
  obtain rfl := Option.some.inj hr'
  obtain ⟨he, hst, -⟩ := hE hv0
  have he' := hs.enclave_kept hrun.inv (by simp [IsEnclaveDelete]) he
  have hst₀ : (s.data.enclave e).initState ≠ enclaveStateInitialized := by rw [hst]; decide
  obtain ⟨T, hT, -⟩ := hr.mapped he hst₀
  obtain ⟨T, hT, -⟩ := hT.step ⟨hrun.inv, hrun.unowned, he, hst₀⟩ hs trivial he'
  have hinit : (s'.data.enclave e).initState = enclaveStateInitialized := by
    rw [hs.record_eq hrun.inv he he']
    simp only [eventChange, hv0, changeRecord, if_true]
    exact initRecord_initState ..
  have hroot : T (Sv39.rootOf (s'.data.enclave e).eptbr) 2 (Sv39.upper va 3) := by
    rw [← rootTable_eq, Sv39.upper_three]
    refine hT.root.resolve_right fun hzero => ?_
    rw [hinit] at hzero
    exact absurd hzero.2 (by decide)
  obtain ⟨hl, pg, hpg, hnum, rfl⟩ := hT.tree.walk le_rfl hroot hw hv hp
  have hpage := hT.pages pg hpg
  have hram := hpage.owned.page_lt hpage.aligned
  rw [show loadedPage e (s, (.call c (.enclaveInit e) ctx, some r)) = none from rfl, Option.toList_none,
    List.append_nil] at hpg
  exact ⟨hl, pg, hpg, ⟨hnum, fun hc hc' => hc.page_eq hc' hnum, mkPte_page hpage.aligned (by omega), mkPte_flags,
    hpage.contents⟩, q, ms, hlog, mem_logOf_of_pagesOf hlog hpg, hmeasured⟩

instance decidableReuses (d : Data N) (e p : Word) : Decidable (Reuses d e p) :=
  inferInstanceAs (Decidable (_ ∧ _))

/-- `Tidy`, computed. -/
def tidyCheck (s : Config N) : Label N → Bool
  | .call _ (.enclaveLoadPageTable e p _ l acl) _ => decide (¬ Reuses s.data e p ∧
    if l = 0 then acl &&& pteR = 0 ∧ acl &&& pteX = 0 else Sv39.NoEntries s.data.mem p)
  | .call _ (.enclaveLoadPage e p _ _ _) _ => decide (¬ Reuses s.data e p)
  | _ => true

theorem tidyCheck_iff (s : Config N) (l : Label N) : tidyCheck s l = true ↔ Tidy s l := by
  cases l with
  | call c k ctx =>
    cases k with
    | enclaveLoadPageTable e p v l acl => exact decide_eq_true_iff
    | enclaveLoadPage e p v o acl => exact decide_eq_true_iff
    | _ => exact iff_of_true rfl trivial
  | _ => exact iff_of_true rfl trivial

instance decidableTidy (s : Config N) (l : Label N) : Decidable (Tidy s l) :=
  decidable_of_iff _ (tidyCheck_iff s l)

theorem TidyHistory.exists_of_labels (ls : List (Label N)) {P : List (Config N × Event N) → Config N → Prop}
    [∀ hist s, Decidable (P hist s)]
    (h : (historyOf (restrict Tidy (carefulExec img)) (smInit img boot) ls).any
      (fun r => decide (P r.1 r.2)) = true) : ∃ hist s, TidyHistory img boot hist s ∧ P hist s := by
  obtain ⟨hist, s, hr, hp⟩ := Runs.exists_of_historyOf ls h
  refine ⟨hist, s, hr.mono fun _ _ _ h => ⟨h.1, ?_⟩, hp⟩
  obtain ⟨htidy, hexec⟩ := restrict_eq_some.mp h.2
  exact ⟨carefulStep_of_exec hexec, htidy⟩

/-- Such a run, and a step that goes on. -/
theorem TidyHistory.exists_step_of_labels (ls : List (Label N)) (l : Label N)
    {P : List (Config N × Event N) → Config N → Option Reply → Config N → Prop}
    [∀ hist s o s', Decidable (P hist s o s')]
    (h : (historyOf (restrict Tidy (carefulExec img)) (smInit img boot) ls).any (fun x =>
      (restrict Tidy (carefulExec img) x.2 l).any fun y => decide (P x.1 x.2 y.1 y.2)) = true) :
    ∃ hist s o s', TidyHistory img boot hist s ∧ TidyStep img s (l, o) s' ∧ P hist s o s' := by
  obtain ⟨hist, s, hr, hany⟩ : ∃ hist s, TidyHistory img boot hist s ∧
      (restrict Tidy (carefulExec img) s l).any (fun y => decide (P hist s y.1 y.2)) = true :=
    TidyHistory.exists_of_labels ls (by simpa only [Bool.decide_eq_true] using h)
  obtain ⟨⟨o, s'⟩, hexec, hp⟩ := Option.any_eq_true _ _ |>.mp hany
  obtain ⟨htidy, hexec⟩ := restrict_eq_some.mp hexec
  exact ⟨hist, s, o, s', hr, ⟨carefulStep_of_exec hexec, htidy⟩, of_decide_eq_true hp⟩

/-- The first enclave gets a table of each level. -/
def threeTableLabels : List (Label 2) := setupLabels ++
  [callOn 0 (.enclaveCreate firstEnclave 0 0 0 false), callOn 0 (.regionAssign 2 firstEnclave),
    callOn 0 (.enclaveLoadHandler firstEnclave 0x84000000),
    callOn 0 (.enclaveLoadPageTable firstEnclave 0x84004000 0x1000 3 1),
    callOn 0 (.enclaveLoadPageTable firstEnclave 0x84005000 0x1000 2 1),
    callOn 0 (.enclaveLoadPageTable firstEnclave 0x84006000 0x1000 1 1)]

/-- It gets a page at `p`, for virtual address `0x1000`. -/
def pageLabel (p : Word) : Label 2 := callOn 0 (.enclaveLoadPage firstEnclave p 0x1000 0x82000000 3)

end SecurityMonitor
