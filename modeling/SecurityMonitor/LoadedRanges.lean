/-
  What the load calls of an enclave leave of the earlier ones.

  Each call stores to the range that it loads and to one entry of a page table.
  The ranges overlap if a page table is loaded and the next call uses its page.
  The entry lies wherever the walk leads, and the walk follows what is in the
  pages of the tables: they are not cleared, so an entry that untrusted software
  has left there may lead it to the handler.

  * `KeepsLoads`: the ranges of earlier loads keep their contents, but for one entry
    of a page table;
  * `TidyHistory.newPage`: tidy calls do not use the page of a table again;
  * `loads_iff`: when the ranges are disjoint and increasing; and that in tidy runs
    they are, and every load keeps the earlier ones;
  * `loads_fail`: a page over the root table, and an entry over the stacks of the
    handler.
-/
import SecurityMonitor.MappedMemory

namespace SecurityMonitor

open ByteMem

variable {N : ℕ} {img : Image N} {boot : Boot N} {s s' : Config N} {e : Word} {l : Load} {ls : List Load}
  {ev : Event N} {hist : List (Config N × Event N)}

/-- From `m` to `m'` the ranges of the loads do not change, but for one entry of a page table. -/
def KeepsLoads (m m' : Mem) (ls : List Load) : Prop :=
  (∀ l ∈ ls, m'.AgreeOn m (range l.addr l.size)) ∨
    ∃ t ∈ ls, t.table = true ∧ ∃ i < 512, ∀ l ∈ ls, ∀ x ∈ range l.addr l.size,
      x ∉ range (off t.addr (8 * i)) 8 → m' x = m x

/-- A store to an entry of a table, and to nothing else in the ranges of the loads. -/
theorem LoadedInv.keeps {T : Sv39.Tables} {t : Word} {i n : ℕ} (h : LoadedInv s e ls T) (ht : T t i n)
    (v pte : Word) (hmem : ∀ l ∈ ls, ∀ x ∈ range l.addr l.size,
      s'.data.mem x = s.data.mem.store64 (Sv39.entryAddr t v i) pte x) :
    KeepsLoads s.data.mem s'.data.mem ls :=
  .inr ⟨_, h.tables ht, rfl, Sv39.vpn v i, Sv39.vpn_lt v i, fun l hl x hx hne =>
    (hmem l hl x hx).trans (Mem.fill_apply_of_notMem hne)⟩

/-- A tidy load does not use the page of the table that was loaded right before it. -/
theorem LoadInv.newPage (h : LoadInv e ls s) (hchain : ls.IsChain Load.NewPage) (hs : TidyStep img s ev s')
    (hl : loadOf img e ev = some l) : (ls ++ [l]).IsChain Load.NewPage := by
  refine hchain.append (.singleton l) fun l₀ hlast l' hl' ht heq => ?_
  obtain rfl : l = l' := by simpa using hl'
  have hcall := Step.loadCall hs.1.1 hl
  -- what the state says after a page table
  have hreuse : Reuses s.data e l.addr := by
    refine ⟨h.state l₀ hlast ht hcall.building.2, BitVec.eq_of_toNat_eq ?_⟩
    rw [h.last l₀ hlast, Load.top, if_pos ht, heq]
  have htidy := hs.2
  cases hcall with
  | handler _ hg =>
    rw [h.fresh hg.state] at hlast
    cases hlast
  | table => exact htidy.1 hreuse
  | page => exact htidy hreuse

/-- **Tidy loads do not use the page of a table again.** -/
theorem TidyHistory.newPage (h : TidyHistory img boot hist s) (he : ValidMetadata s.data e .enclave) :
    (loadsOf img e hist).IsChain Load.NewPage := by
  refine (invariant_since_created (I := fun xs s => LoadInv e (xs.filterMap fun x => loadOf img e x.2) s ∧
    (xs.filterMap fun x => loadOf img e x.2).IsChain Load.NewPage) h (fun _ _ _ hs => hs.1)
    (fun _ _ s' _ _ _ => ⟨.nil e s', .nil⟩) ?_ he).2
  rintro es xs s ev s' hrun hs hlive hlive' ⟨hi, hchain⟩
  rw [filterMap_concat]
  refine ⟨hi.step hrun.inv hs.1 hlive hlive', ?_⟩
  cases hl : loadOf img e ev with
  | none => rwa [Option.toList_none, List.append_nil]
  | some l => exact hi.newPage hchain hs hl

/-- In tidy runs the ranges of the loads are disjoint and increasing. -/
theorem TidyHistory.before (h : TidyHistory img boot hist s) (he : ValidMetadata s.data e .enclave) :
    (loadsOf img e hist).Pairwise Load.Before :=
  (h.careful.loadInv he).before_iff.mpr (h.newPage he)

theorem CarefulHistory.loadInv_load (h : CarefulHistory img boot hist s) (hs : CarefulStep img s ev s')
    (hl : loadOf img e ev = some l) : LoadInv e (loadsOf img e hist ++ [l]) s' := by
  have hinv := (CarefulHistory.run h).inv
  have hcall := Step.loadCall hs.1 hl
  have hlive := hcall.building.1
  have hlive' : ValidMetadata s'.data e .enclave := by
    refine hs.enclave_kept hinv ?_ hlive
    cases hcall <;> simp [IsEnclaveDelete]
  have hstep := (h.loadInv hlive).step hinv hs hlive hlive'
  rwa [hl, Option.toList_some] at hstep

theorem TidyHistory.before_load (h : TidyHistory img boot hist s) (hs : TidyStep img s ev s')
    (hl : loadOf img e ev = some l) : (loadsOf img e hist ++ [l]).Pairwise Load.Before := by
  have hlive := (Step.loadCall hs.1.1 hl).building.1
  exact (h.careful.loadInv_load hs.1 hl).before_iff.mpr
    ((h.careful.loadInv hlive).newPage (h.newPage hlive) hs hl)

/-- **A tidy load keeps the earlier ones.** -/
theorem TidyHistory.keeps (h : TidyHistory img boot hist s) (hs : TidyStep img s ev s')
    (hl : loadOf img e ev = some l) : KeepsLoads s.data.mem s'.data.mem (loadsOf img e hist) := by
  have hrun := CarefulHistory.run h.careful
  have hcall := Step.loadCall hs.1.1 hl
  obtain ⟨hlive, hst⟩ := hcall.building
  have hb : Building img s e := ⟨hrun.inv, hrun.unowned, hlive, hst⟩
  obtain ⟨T, hT, hown⟩ := h.mapped hlive hst
  have hsep : ∀ l₀ ∈ loadsOf img e hist, ∀ x ∈ range l₀.addr l₀.size, x ∉ range l.addr l.size :=
    fun l₀ hl₀ x hx => Set.disjoint_left.mp
      ((List.pairwise_append.mp (h.before_load hs hl)).2.2 l₀ hl₀ l (List.mem_singleton_self l)).2 hx
  have hheader (l₀ : Load) (hl₀ : l₀ ∈ loadsOf img e hist) (x : Word) (hx : x ∈ range l₀.addr l₀.size) :
      x ∉ header e := hb.notMem_header (hown.owned l₀ hl₀ x hx)
  cases hcall with
  | handler _ hg =>
    rw [(h.careful.loadInv hlive).fresh hg.state]
    exact .inl (by simp)
  | @table c ctx r _ d₁ p v lev acl hv hg h₁ hd =>
    obtain ⟨-, rfl⟩ | ⟨-, base, hpath, rfl⟩ := h₁
    · refine .inl fun l₀ hl₀ x hx => ?_
      rw [hd]
      exact (finishLoadPageTable_apply (hheader l₀ hl₀ x hx)).trans
        (header_fill (hheader l₀ hl₀ x hx) (by decide))
    · refine hown.keeps (hT.path hpath) v (mkPte p acl) fun l₀ hl₀ x hx => ?_
      rw [hd, ← pteAddr_entryAddr]
      exact finishLoadPageTable_apply (hheader l₀ hl₀ x hx)
  | @page c ctx r _ d₁ p v os acl hv hg h₁ hd =>
    obtain ⟨hlevel, -⟩ | ⟨-, base, hpath, rfl⟩ := h₁
    · exact absurd hlevel (by decide)
    · refine hown.keeps (hT.path hpath) v (mkPte p acl) fun l₀ hl₀ x hx => ?_
      rw [hd, ← pteAddr_entryAddr]
      exact finishLoadPage_apply (hheader l₀ hl₀ x hx) (hsep l₀ hl₀ x hx)

/-- **The physical ranges that the loads of an enclave use** since it was created are disjoint and
    increasing if and only if no load uses the page of the page table that was loaded right before
    it.  In tidy runs they are, and each load leaves what the earlier ones have loaded, but for an
    entry of a page table. -/
theorem loads_iff (h : CarefulHistory img boot hist s) (he : ValidMetadata s.data e .enclave) :
    ((loadsOf img e hist).Pairwise Load.Before ↔ (loadsOf img e hist).IsChain Load.NewPage) ∧
    (TidyHistory img boot hist s → (loadsOf img e hist).Pairwise Load.Before ∧
      ∀ ev s' l, TidyStep img s ev s' → loadOf img e ev = some l →
        (loadsOf img e hist ++ [l]).Pairwise Load.Before ∧
        KeepsLoads s.data.mem s'.data.mem (loadsOf img e hist)) :=
  ⟨(h.loadInv he).before_iff, fun ht => ⟨ht.before he, fun _ _ _ hs hl =>
    ⟨ht.before_load hs hl, ht.keeps hs hl⟩⟩⟩

set_option maxRecDepth 100000 in
/-- A page is loaded after a handler and three page tables. -/
theorem loads_tidy : ∃ hist s ev s' l, TidyHistory smallImage zeroBoot hist s ∧
    TidyStep smallImage s ev s' ∧ loadOf smallImage firstEnclave ev = some l ∧
    (loadsOf smallImage firstEnclave hist).length = 4 ∧
    (loadsOf smallImage firstEnclave hist ++ [l]).Pairwise Load.Before ∧
    KeepsLoads s.data.mem s'.data.mem (loadsOf smallImage firstEnclave hist) := by
  obtain ⟨hist, s, o, s', h, hs, hlive, hlen, ho⟩ : ∃ hist s o s', TidyHistory smallImage zeroBoot hist s ∧
      TidyStep smallImage s (pageLabel 0x84007000, o) s' ∧ ValidMetadata s.data firstEnclave .enclave ∧
      (loadsOf smallImage firstEnclave hist).length = 4 ∧ o.map Reply.value = some 0 :=
    TidyHistory.exists_step_of_labels threeTableLabels _ (by decide +kernel)
  obtain ⟨r, rfl, hv⟩ := Option.map_eq_some_iff.mp ho
  have hl : loadOf smallImage firstEnclave (pageLabel 0x84007000, some r) = some ⟨0x84007000, pageSize, false⟩ :=
    if_pos ⟨rfl, hv⟩
  obtain ⟨hbefore, hkeeps⟩ := ((loads_iff h.careful hlive).2 h).2 _ s' _ hs hl
  exact ⟨hist, s, _, s', _, h, hs, hl, hlen, hbefore, hkeeps⟩

/-- The first enclave gets region 2, its handler and a root page table at `t`. -/
def rootLabels (t : Word) : List (Label 2) := setupLabels ++
  [callOn 0 (.enclaveCreate firstEnclave 0 0 0 false), callOn 0 (.regionAssign 2 firstEnclave),
    callOn 0 (.enclaveLoadHandler firstEnclave 0x84000000),
    callOn 0 (.enclaveLoadPageTable firstEnclave t 0x1000 3 1)]

/-- Core 0 stores a pointer to `0x84008000` in the page of the root table, and there a pointer to
    `0x84000000`, where the handler is going to be. -/
def strayTableLabels : List (Label 2) :=
  [.userStore 0 0x84004000 0x01, .userStore 0 0x84004001 0x20, .userStore 0 0x84004003 0x21,
    .userStore 0 0x84008000 0x01, .userStore 0 0x84008003 0x21]

set_option maxRecDepth 100000 in
/-- **A page can be loaded over the root page table** of the enclave.  And the entry of a page can be
    stored over what `enclave_load_handler` has loaded. -/
theorem loads_fail :
    (∃ hist s, CarefulHistory smallImage zeroBoot hist s ∧ ValidMetadata s.data firstEnclave .enclave ∧
      ¬ (loadsOf smallImage firstEnclave hist).Pairwise Load.Before) ∧
    ∃ hist s ev s' l, CarefulHistory smallImage zeroBoot hist s ∧ CarefulStep smallImage s ev s' ∧
      loadOf smallImage firstEnclave ev = some l ∧
      (loadsOf smallImage firstEnclave hist ++ [l]).Pairwise Load.Before ∧
      ¬ KeepsLoads s.data.mem s'.data.mem (loadsOf smallImage firstEnclave hist) := by
  constructor
  · obtain ⟨hist, s, h, hlive, hloads⟩ : ∃ hist s, CarefulHistory smallImage zeroBoot hist s ∧
        ValidMetadata s.data firstEnclave .enclave ∧ loadsOf smallImage firstEnclave hist =
          [⟨0x84000000, 2 * stackSize + 1, false⟩, ⟨0x84003000, pageSize, true⟩,
            ⟨0x84003000, pageSize, false⟩] :=
      CarefulHistory.exists_of_labels (rootLabels 0x84003000 ++ [pageLabel 0x84003000]) (by decide +kernel)
    refine ⟨hist, s, h, hlive, fun hpair => ?_⟩
    rw [hloads] at hpair
    have hlast := (List.pairwise_cons.mp (List.pairwise_cons.mp hpair).2).1
    exact absurd (hlast _ (List.mem_singleton.mpr rfl)).1 (by decide)
  · obtain ⟨hist, s, h, hlive, hloads, hnext⟩ : ∃ hist s, CarefulHistory smallImage zeroBoot hist s ∧
        ValidMetadata s.data firstEnclave .enclave ∧ loadsOf smallImage firstEnclave hist =
          [⟨0x84000000, 2 * stackSize + 1, false⟩, ⟨0x84004000, pageSize, true⟩] ∧
        (carefulExec smallImage s (pageLabel 0x84005000)).any (fun y =>
          decide (y.1.map Reply.value = some 0 ∧ y.2.data.mem 0x84000008 ≠ s.data.mem 0x84000008)) = true :=
      CarefulHistory.exists_of_labels (strayTableLabels ++ rootLabels 0x84004000) (by decide +kernel)
    obtain ⟨⟨o, s'⟩, hexec, hprop⟩ := Option.any_eq_true _ _ |>.mp hnext
    obtain ⟨ho, hmem⟩ := of_decide_eq_true hprop
    obtain ⟨r, rfl, hv⟩ := Option.map_eq_some_iff.mp ho
    have hl : loadOf smallImage firstEnclave (pageLabel 0x84005000, some r) =
        some ⟨0x84005000, pageSize, false⟩ := if_pos ⟨rfl, hv⟩
    have hin : (0x84000008 : Word) ∈ range 0x84000000 (2 * stackSize + 1) :=
      (mem_range_iff (by decide +kernel)).mpr (by decide +kernel)
    have hs : CarefulStep smallImage s (pageLabel 0x84005000, some r) s' := carefulStep_of_exec hexec
    refine ⟨hist, s, _, s', _, h, hs, hl, (h.loadInv_load hs hl).before_iff.mpr ?_, ?_⟩
    · rw [hloads]
      simp [Load.NewPage]
    · rw [hloads]
      rintro (hall | ⟨t, ht, htable, i, hi, hrest⟩)
      · exact hmem (hall ⟨0x84000000, 2 * stackSize + 1, false⟩ List.mem_cons_self _ hin)
      · -- the only page table is the root, and the byte is not in it
        obtain rfl : t = ⟨0x84004000, pageSize, true⟩ := by
          simp only [List.mem_cons, List.not_mem_nil, or_false] at ht
          rcases ht with rfl | rfl
          · cases htable
          · rfl
        refine hmem (hrest ⟨0x84000000, 2 * stackSize + 1, false⟩ List.mem_cons_self _ hin fun hx => ?_)
        have hpage : (0x84000008 : Word) ∈ range 0x84004000 4096 := range_off_sub (by omega) (by decide) hx
        have hle := ((mem_range_iff (by decide +kernel)).mp hpage).1
        exact absurd hle (by decide +kernel)

end SecurityMonitor
