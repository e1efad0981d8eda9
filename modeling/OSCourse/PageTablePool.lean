import OSCourse.PageTableFrames

/-!
# Which updates return

An update that meets the end of the pool, or a system without memory, ends
the process in the middle of its walk. Whether it does is told by the number
of frames that the history with the update needs, so a batch of updates goes
through or not whatever the order of its calls, and the updates of different
pages can change places.
-/

namespace OSCourse.PageTablePool

open Runs PageTableMemory HeapForest PageTableWalk PageTableRuns PageTableFrames

/-- The first frames can be had: the pool and the system have them. -/
def Available (mmapOk : ℕ → Bool) (count : ℕ) : Prop :=
  ∀ n < count, n < numPages ∧ mmapOk n = true

/-- A memory whose frames could be had. -/
structure Stocked (mmapOk : ℕ → Bool) (mem : Memory) : Prop where
  /-- The answers of the system. -/
  mmap_eq : mem.mmapOk = mmapOk
  /-- The frames handed out. -/
  available : Available mmapOk mem.nalloc

/-- Updates under the given roots, and nothing else. -/
def Updates (roots : List Word) (batch : List Event) : Prop :=
  ∀ e ∈ batch, ∃ pt ∈ roots, ∃ vpn ppn, e = .update pt vpn ppn

/-- How the process ends where a frame cannot be had. -/
def Exhausted (mmapOk : ℕ → Bool) (fault : Fault) : Prop :=
  (fault = .outOfMemory ∧ Available mmapOk numPages) ∨
    (fault = .mmapFailed ∧ ¬Available mmapOk numPages)

variable {mmapOk : ℕ → Bool} {mem mem' : Memory} {fault : Fault} {w w' : World} {es : List Event}
  {pt vpn ppn : Word}

/-- With more frames there are fewer. -/
theorem Available.mono {count count' : ℕ} (h : Available mmapOk count) (hle : count' ≤ count) :
    Available mmapOk count' :=
  fun n hn => h n (by omega)

/-- Writing a page takes no frame. -/
theorem Stocked.setPage (h : Stocked mmapOk mem) (n : ℕ) (frame : Frame) :
    Stocked mmapOk (mem.setPage n frame) := ⟨h.mmap_eq, h.available⟩

/-- Writing an entry takes no frame. -/
theorem Stocked.store {current : Option Pointer} {index entry : Word} (h : Stocked mmapOk mem)
    (hok : store mem current index entry = .ok mem') : Stocked mmapOk mem' := by
  unfold PageTableMemory.store at hok
  split at hok
  · cases hok
  · split at hok
    · cases hok
    · split at hok
      · cases hok
        exact h.setPage _ _
      · cases hok

/-- The frame handed out could be had. -/
theorem Stocked.alloc {frame : Word} (h : Stocked mmapOk mem)
    (hok : allocPageFrame mem = .ok (frame, mem')) : Stocked mmapOk mem' := by
  unfold allocPageFrame at hok
  split at hok
  · cases hok
  · rename_i hfull
    dsimp only at hok
    split at hok
    · rename_i hmmap
      obtain ⟨-, rfl⟩ : _ = frame ∧ _ = mem' := by simpa using hok
      refine ⟨h.mmap_eq, fun n hn => ?_⟩
      have hbound : n < mem.nalloc + 1 := hn
      by_cases hlast : n = mem.nalloc
      · subst hlast
        rw [← h.mmap_eq]
        refine ⟨?_, hmmap⟩
        by_contra hpool
        have hpast := (h.available numPages (by omega)).1
        omega
      · exact h.available n (by omega)
    · cases hok

/-- A frame that is refused is one that cannot be had. -/
theorem Stocked.refused (h : Stocked mmapOk mem) (hfail : allocPageFrame mem = .error fault) :
    ¬Available mmapOk (mem.nalloc + 1) ∧ Exhausted mmapOk fault := by
  unfold allocPageFrame at hfail
  split at hfail
  · rename_i hfull
    cases hfail
    refine ⟨fun hall => ?_, .inl ⟨rfl, hfull ▸ h.available⟩⟩
    have hpast := (hall mem.nalloc (by omega)).1
    omega
  · rename_i hfull
    dsimp only at hfail
    split at hfail
    · cases hfail
    · rename_i hmmap
      cases hfail
      have hrefused : ∀ count, mem.nalloc < count → ¬Available mmapOk count := by
        intro count hcount hall
        rw [h.mmap_eq] at hmmap
        exact hmmap (hall mem.nalloc hcount).2
      refine ⟨hrefused _ (by omega), .inr ⟨rfl, hrefused _ ?_⟩⟩
      by_contra hpool
      have hpast := (h.available numPages (by omega)).1
      omega

/-- One level of the update loop. -/
theorem Stocked.fillEntry {current : Option Pointer} {index : Word} (h : Stocked mmapOk mem)
    (hok : fillEntry ppn mem current index = .ok (some mem')) : Stocked mmapOk mem' := by
  unfold PageTableWalk.fillEntry at hok
  split at hok
  · cases hok
  · split_ifs at hok
    · cases hok
    · split at hok
      · cases hok
      · rename_i halloc
        cases hstore : PageTableMemory.store _ current index (taggedEntry _) with
        | error fault =>
          rw [hstore] at hok
          cases hok
        | ok stored =>
          rw [hstore] at hok
          cases hok
          exact (h.alloc halloc).store hstore
    · cases hok
      exact h

/-- The update loop. -/
theorem Stocked.updateWalk {level : ℕ} {current : Option Pointer} {walkEnd : WalkEnd}
    (h : Stocked mmapOk mem) (hok : updateWalk vpn ppn level mem current = .ok (mem', walkEnd)) :
    Stocked mmapOk mem' := by
  induction level generalizing mem current with
  | zero =>
    cases hok
    exact h
  | succ level ih =>
    simp only [PageTableWalk.updateWalk] at hok
    split at hok
    · cases hok
    · cases hok
      exact h
    · rename_i hfill
      split at hok
      · cases hok
      · exact ih (h.fillEntry hfill) hok

/-- `page_table_update`. -/
theorem Stocked.update (h : Stocked mmapOk mem) (hok : pageTableUpdate mem pt vpn ppn = .ok mem') :
    Stocked mmapOk mem' := by
  unfold pageTableUpdate at hok
  split at hok
  · cases hok
  · rename_i hwalk
    cases hok
    exact h.updateWalk hwalk
  · rename_i hwalk
    dsimp only at hok
    split_ifs at hok
    · exact (h.updateWalk hwalk).store hok
    · exact (h.updateWalk hwalk).store hok

/-- Every run. -/
theorem stocked_of_run (run : Run Step (boot mmapOk) es w) : Stocked mmapOk w.mem := by
  induction run with
  | nil => exact ⟨rfl, fun n hn => absurd hn (Nat.not_lt_zero n)⟩
  | @snoc es w e w' _ hstep ih =>
    cases e with
    | root pt =>
      obtain ⟨mem, halloc, rfl⟩ := hstep
      exact ih.alloc halloc
    | update pt vpn ppn =>
      obtain ⟨-, mem, hok, rfl⟩ := hstep
      exact ih.update hok
    | query pt vpn answer =>
      obtain ⟨-, -, rfl⟩ := hstep
      exact ih

section Walk

variable {roots : Set ℕ} {own own' : Ownership ℕ (Fin 512)} {mapping : Mapping} {n r : ℕ}
  {path : List (Fin 512)}

/-- A level of the update loop ends the process at a missing entry, for want
of its frame. -/
theorem Holds.fillEntry_error {level : ℕ} (h : Holds mem roots own mapping)
    (hn : own n = some (r, path))
    (hfail : fillEntry ppn mem (some ⟨n, 0⟩) (getIndex vpn level) = .error fault) :
    ppn ≠ noMapping ∧ childFrame mem n (slot vpn level) = none ∧
      allocPageFrame mem = .error fault := by
  obtain ⟨-, frame, hpage⟩ := h.frame_of_own hn
  simp only [fillEntry, load_slot vpn hpage level] at hfail
  split_ifs at hfail with hinvalid hppn
  · refine ⟨hppn, ?_, ?_⟩
    · rw [childFrame_eq hpage, if_pos hinvalid]
    · rcases allocPageFrame_cases mem with halloc | halloc | ⟨hfull, halloc⟩
      · rw [halloc] at hfail
        cases hfail
        exact halloc
      · rw [halloc] at hfail
        cases hfail
        exact halloc
      · have hne : n ≠ mem.nalloc := fun heq => by
          rw [heq, h.next_unowned] at hn
          cases hn
        have hkept : ({ mem with nalloc := mem.nalloc + 1 }.setPage mem.nalloc zeroFrame).pages n =
            some frame := by
          rw [Memory.setPage_of_ne _ _ hne]
          exact hpage
        rw [halloc] at hfail
        simp only [store_ok _ hkept (getIndex_lt vpn level)] at hfail
        cases hfail

/-- Where the loop ends the process, the tables so far are those of a part of
its walk, one of whose tables is missing and cannot be had. -/
structure Halted (mmapOk : ℕ → Bool) (mem : Memory) (roots : Set ℕ)
    (own own' : Ownership ℕ (Fin 512)) (mapping : Mapping) (r : ℕ) (vpn ppn : Word)
    (fault : Fault) : Prop where
  /-- The tables at the end. -/
  holds : Holds mem roots own' mapping
  /-- Their frames. -/
  stocked : Stocked mmapOk mem
  /-- The next frame is refused. -/
  refused : allocPageFrame mem = .error fault
  /-- New tables lie on the walk. -/
  grown : Grown own own' r vpn ppn
  /-- The update maps. -/
  maps : ppn ≠ noMapping
  /-- A table of the walk is missing. -/
  missing : ∃ j < 4, ∀ k, own' k ≠ some (r, slots vpn (j + 1))

/-- The update loop ends the process in a halted walk. -/
theorem Holds.updateWalk_error {level : ℕ} (h : Holds mem roots own mapping)
    (hstocked : Stocked mmapOk mem) (hlevel : level ≤ 4)
    (hn : own n = some (r, slots vpn (4 - level)))
    (hfail : updateWalk vpn ppn level mem (some ⟨n, 0⟩) = .error fault) :
    ∃ mem' own', Halted mmapOk mem' roots own own' mapping r vpn ppn fault := by
  induction level generalizing mem own n with
  | zero => cases hfail
  | succ level ih =>
    have hpath := slots_level vpn hlevel
    have hshort : (slots vpn (4 - (level + 1))).length < 4 := by
      rw [slots_length]
      omega
    rcases h.fillEntry_cases vpn ppn hn hshort (level + 1) with
      ⟨fault', hfill, -⟩ | ⟨hfill, -, -⟩ |
      ⟨mem', own', frame, hfill, h', hn', hpage, hvalid, hkeep, hadd, -⟩
    · simp only [updateWalk, hfill] at hfail
      obtain rfl : fault' = fault := by simpa using hfail
      obtain ⟨hmaps, hmissing, hrefused⟩ := Holds.fillEntry_error h hn hfill
      refine ⟨mem, own, h, hstocked, hrefused, ⟨fun _ _ hk => hk, fun _ _ hk => .inl hk⟩, hmaps,
        3 - level, by omega, fun k hk => ?_⟩
      have hcount : 3 - level + 1 = 4 - level := by omega
      rw [hcount, ← hpath] at hk
      exact h.forest.not_own_below hn hmissing hk
    · simp only [updateWalk, hfill] at hfail
      cases hfail
    · obtain ⟨hpointer, hown⟩ := h'.follow hn' hshort hpage hvalid
      rw [hpath] at hown
      simp only [updateWalk, hfill, load_slot vpn hpage, hpointer] at hfail
      obtain ⟨mem'', own'', halted⟩ := ih h' (hstocked.fillEntry hfill) (by omega) hown hfail
      refine ⟨mem'', own'', halted.holds, halted.stocked, halted.refused, ⟨fun k x hk => ?_,
        fun k x hk => ?_⟩, halted.maps, halted.missing⟩
      · exact halted.grown.keeps k x (hkeep k x hk)
      · rcases halted.grown.adds k x hk with hold | hnew
        · rcases hadd k x hold with hold | ⟨hmaps, rfl⟩
          · exact .inl hold
          · refine .inr ⟨hmaps, 3 - level, by omega, ?_⟩
            have hcount : 3 - level + 1 = 4 - level := by omega
            rw [hcount, hpath]
        · exact .inr hnew

/-- So does `page_table_update`. -/
theorem Holds.update_error (h : Holds mem roots own mapping) (hstocked : Stocked mmapOk mem)
    (hr : r ∈ roots) (hpt : pt = frameWord r)
    (hfail : pageTableUpdate mem pt vpn ppn = .error fault) :
    ∃ mem' own', Halted mmapOk mem' roots own own' mapping r vpn ppn fault := by
  have hroot := h.root_pointer hr hpt
  rcases h.updateWalk_cases vpn ppn le_rfl (h.own_start hr) with
    ⟨fault', hwalk, -⟩ | ⟨hreturned, -, -⟩ | ⟨mem', own', m, hreached, h', hm, -, -⟩
  · simp only [pageTableUpdate, hroot, hwalk] at hfail
    obtain rfl : fault' = fault := by simpa using hfail
    exact Holds.updateWalk_error h hstocked le_rfl (h.own_start hr) hwalk
  · simp only [pageTableUpdate, hroot, hreturned] at hfail
    cases hfail
  · obtain ⟨-, frame, hpage⟩ := h'.frame_of_own hm
    have hstore := fun entry => store_ok entry hpage (getIndex_lt vpn 0)
    simp only [pageTableUpdate, hroot, hreached, hstore] at hfail
    split_ifs at hfail

end Walk

/-- The owners of frames there can be: the roots and the needed beginnings. -/
def owners (roots : List Word) (es : List Event) : Finset (Word × List (Fin 512)) :=
  roots.toFinset.image (fun pt => (pt, [])) ∪ prefixes es

/-- The frames that a history needs. -/
def framesOf (es : List Event) : ℕ := es.countP isRoot + (prefixes es).card

theorem mem_owners {roots : List Word} {x : Word × List (Fin 512)} :
    x ∈ owners roots es ↔ (x.1 ∈ roots ∧ x.2 = []) ∨ x ∈ prefixes es := by
  rw [owners, Finset.mem_union, Finset.mem_image]
  refine or_congr_left ⟨?_, ?_⟩
  · rintro ⟨pt, hpt, rfl⟩
    exact ⟨List.mem_toFinset.mp hpt, rfl⟩
  · intro h
    exact ⟨x.1, List.mem_toFinset.mpr h.1, Prod.ext rfl h.2.symm⟩

/-- As many owners as roots and beginnings. -/
theorem card_owners {roots : List Word} (hnodup : roots.Nodup) (es : List Event) :
    (owners roots es).card = roots.length + (prefixes es).card := by
  have hdisjoint : Disjoint (roots.toFinset.image fun pt => (pt, ([] : List (Fin 512))))
      (prefixes es) := by
    rw [Finset.disjoint_left]
    intro x hx hmem
    obtain ⟨_, _, rfl⟩ := Finset.mem_image.mp hx
    obtain ⟨e, _, he⟩ := mem_prefixes.mp hmem
    exact ne_nil_of_mem_needs he rfl
  rw [owners, Finset.card_union_of_disjoint hdisjoint,
    Finset.card_image_of_injective _ fun a b hab => (Prod.mk.inj hab).1,
    List.toFinset_card_of_nodup hnodup]

/-- Frames with different owners are at most as many as the owners. -/
theorem nalloc_le_card {frames : Set ℕ} {own : Ownership ℕ (Fin 512)} {mapping : Mapping}
    {all : Finset (Word × List (Fin 512))} (h : Holds mem frames own mapping)
    (hall : ∀ n r path, own n = some (r, path) → (frameWord r, path) ∈ all) :
    mem.nalloc ≤ all.card := by
  have howner : ∀ n < mem.nalloc, ∃ r path, own n = some (r, path) ∧ r < numPages ∧
      ownerWord own n = (frameWord r, path) := by
    intro n hn
    obtain ⟨⟨r, path⟩, hx⟩ := (h.owned n).mpr hn
    have hr := (h.forest.short hx).1
    refine ⟨r, path, hx, (h.frame_of_own (h.forest.root_own r hr)).1, ?_⟩
    simp only [ownerWord, hx]
  rw [← Finset.card_range mem.nalloc]
  refine Finset.card_le_card_of_injOn (ownerWord own) (fun n hn => ?_) fun n hn m hm heq => ?_
  · obtain ⟨r, path, hx, -, hword⟩ := howner n (Finset.mem_range.mp hn)
    rw [hword]
    exact hall n r path hx
  · obtain ⟨r, path, hx, hbound, hword⟩ := howner n (Finset.mem_range.mp hn)
    obtain ⟨r', path', hx', hbound', hword'⟩ := howner m (Finset.mem_range.mp hm)
    rw [hword, hword', Prod.mk.injEq] at heq
    obtain ⟨hroot, rfl⟩ := heq
    obtain rfl := frameWord_inj hbound hbound' hroot
    exact h.forest.unique hx hx'

/-- An update that ends the process needs a frame that cannot be had. -/
theorem Tables.update_error (h : Tables w es) (hstocked : Stocked mmapOk w.mem)
    (hpt : pt ∈ w.roots) (hfail : pageTableUpdate w.mem pt vpn ppn = .error fault) :
    ¬Available mmapOk (framesOf (es ++ [.update pt vpn ppn])) ∧ Exhausted mmapOk fault := by
  obtain ⟨frames, own, mapping, hholds, hroots, htables⟩ := h.heap
  obtain ⟨r, hr, rfl⟩ := (hroots pt).mp hpt
  obtain ⟨mem', own', halted⟩ := Holds.update_error hholds hstocked hr rfl hfail
  obtain ⟨j, hj, hmissing⟩ := halted.missing
  obtain ⟨hnone, hexhausted⟩ := halted.stocked.refused halted.refused
  refine ⟨fun hall => hnone (hall.mono ?_), hexhausted⟩
  set es' := es ++ [Event.update (frameWord r) vpn ppn] with hes'
  have hneeded : ∀ i < 4, (frameWord r, slots vpn (i + 1)) ∈ prefixes es' := by
    intro i hi
    rw [hes', prefixes_snoc, Finset.mem_union, List.mem_toFinset, mem_needs_update]
    exact .inr ⟨halted.maps, i, hi, rfl⟩
  have hbound : ∀ {q}, q ∈ frames → q < numPages := fun hq =>
    (hholds.frame_of_own (hholds.forest.root_own _ hq)).1
  have hmember : (frameWord r, slots vpn (j + 1)) ∈ owners w.roots es' :=
    mem_owners.mpr (.inr (hneeded j hj))
  have hle : mem'.nalloc ≤ ((owners w.roots es').erase (frameWord r, slots vpn (j + 1))).card := by
    refine nalloc_le_card halted.holds fun n q path hn => Finset.mem_erase.mpr ⟨?_, ?_⟩
    · intro heq
      rw [Prod.mk.injEq] at heq
      have hq := (halted.holds.forest.short hn).1
      obtain rfl := frameWord_inj (hbound hq) (hbound hr) heq.1
      rw [heq.2] at hn
      exact hmissing n hn
    · rw [mem_owners]
      rcases halted.grown.adds n _ hn with hold | ⟨-, i, hi, heq⟩
      · have hq := (hholds.forest.short hold).1
        rcases (htables q hq path).mp ⟨n, hold⟩ with hnil | hprefix
        · exact .inl ⟨(hroots _).mpr ⟨q, hq, rfl⟩, hnil⟩
        · rw [hes', prefixes_snoc, Finset.mem_union]
          exact .inr (.inl hprefix)
      · cases heq
        exact .inr (hneeded i hi)
  rw [Finset.card_erase_of_mem hmember, card_owners h.nodup, h.length_eq] at hle
  have hpositive : 0 < (prefixes es').card := Finset.card_pos.mpr ⟨_, hneeded j hj⟩
  have hcount : es'.countP isRoot = es.countP isRoot := by
    rw [hes', List.countP_append]
    rfl
  rw [framesOf, hcount]
  omega

/-- An update returns if and only if the frames of the history with it can be had. -/
theorem update_iff (run : Run Step (boot mmapOk) es w) (hpt : pt ∈ w.roots) (vpn ppn : Word) :
    (∃ w', Step w (.update pt vpn ppn) w') ↔
      Available mmapOk (framesOf (es ++ [.update pt vpn ppn])) := by
  constructor
  · rintro ⟨w', hstep⟩
    have run' := run.snoc hstep
    rw [framesOf, ← (tables_of_run run').nalloc_eq]
    exact (stocked_of_run run').available
  · intro hall
    cases hresult : pageTableUpdate w.mem pt vpn ppn with
    | error fault =>
      have hnone := Tables.update_error (tables_of_run run) (stocked_of_run run) hpt hresult
      exact absurd hall hnone.1
    | ok mem => exact ⟨_, hpt, mem, hresult, rfl⟩

/-- A root is made if and only if one more frame can be had. -/
theorem root_iff (run : Run Step (boot mmapOk) es w) :
    (∃ pt w', Step w (.root pt) w') ↔ Available mmapOk (framesOf es + 1) := by
  have hcount := (tables_of_run run).nalloc_eq
  constructor
  · rintro ⟨pt, w', hstep⟩
    have run' := run.snoc hstep
    have hcount' := (tables_of_run run').nalloc_eq
    have hroots : (es ++ [Event.root pt]).countP isRoot = es.countP isRoot + 1 := by
      rw [List.countP_append]
      rfl
    have hprefixes : prefixes (es ++ [.root pt]) = prefixes es := by
      rw [prefixes_snoc]
      simp [needs]
    rw [hroots, hprefixes] at hcount'
    refine (stocked_of_run run').available.mono ?_
    rw [framesOf]
    omega
  · intro hall
    cases hresult : allocPageFrame w.mem with
    | error fault =>
      have hnone := ((stocked_of_run run).refused hresult).1
      rw [hcount, ← framesOf] at hnone
      exact absurd hall hnone
    | ok result => exact ⟨result.1, _, result.2, hresult, rfl⟩

/-- Updates keep the roots. -/
theorem roots_of_updates {roots : List Word} {batch : List Event} (hbatch : Updates roots batch)
    (run : Run Step w batch w') : w'.roots = w.roots := by
  induction run with
  | nil => rfl
  | snoc _ hstep ih =>
    obtain ⟨pt, -, vpn, ppn, rfl⟩ := hbatch _ (List.mem_append_right _ (List.mem_singleton_self _))
    obtain ⟨-, mem, -, rfl⟩ := hstep
    exact ih fun e he => hbatch e (List.mem_append_left _ he)

/-- More calls need more frames. -/
theorem framesOf_mono (es more : List Event) : framesOf es ≤ framesOf (es ++ more) := by
  rw [framesOf, framesOf, List.countP_append]
  have hsub : (prefixes es).card ≤ (prefixes (es ++ more)).card := by
    refine Finset.card_le_card fun x hx => ?_
    obtain ⟨e, he, hmem⟩ := mem_prefixes.mp hx
    exact mem_prefixes.mpr ⟨e, List.mem_append_left _ he, hmem⟩
  omega

/-- A batch of updates goes through if and only if its frames can be had. -/
theorem updates_iff {batch : List Event} (run : Run Step (boot mmapOk) es w)
    (hbatch : Updates w.roots batch) :
    (∃ w', Run Step w batch w') ↔ Available mmapOk (framesOf (es ++ batch)) := by
  induction batch using List.reverseRecOn with
  | nil =>
    refine ⟨fun _ => ?_, fun _ => ⟨w, .nil⟩⟩
    rw [List.append_nil, framesOf, ← (tables_of_run run).nalloc_eq]
    exact (stocked_of_run run).available
  | append_singleton batch e ih =>
    have hearlier : Updates w.roots batch := fun e he => hbatch e (List.mem_append_left _ he)
    obtain ⟨pt, hpt, vpn, ppn, rfl⟩ :=
      hbatch e (List.mem_append_right _ (List.mem_singleton_self e))
    constructor
    · rintro ⟨w', run'⟩
      obtain ⟨middle, hmiddle, hstep⟩ := run'.last
      have hroot : pt ∈ middle.roots := roots_of_updates hearlier hmiddle ▸ hpt
      rw [← List.append_assoc]
      exact (update_iff (run.trans hmiddle) hroot vpn ppn).mp ⟨w', hstep⟩
    · intro hall
      rw [← List.append_assoc] at hall
      obtain ⟨middle, hmiddle⟩ := (ih hearlier).mpr (hall.mono (framesOf_mono _ _))
      have hroot : pt ∈ middle.roots := roots_of_updates hearlier hmiddle ▸ hpt
      obtain ⟨w', hstep⟩ := (update_iff (run.trans hmiddle) hroot vpn ppn).mpr hall
      exact ⟨w', hmiddle.snoc hstep⟩

/-- Which calls return: in every state that a run reaches, a batch of updates
goes through if and only if the frames that the history with the batch needs
can be had, a root is made if and only if one frame more can be had, and
queries always return. A call that does not return ends the process with "out
of physical memory" where the system has every frame of the pool, and with
"mmap failed" where it has not. -/
theorem updates_return_iff {batch : List Event} (run : Run Step (boot mmapOk) es w)
    (hbatch : Updates w.roots batch) :
    ((∃ w', Run Step w batch w') ↔ Available mmapOk (framesOf (es ++ batch))) ∧
      ((∃ pt w', Step w (.root pt) w') ↔ Available mmapOk (framesOf es + 1)) ∧
      (∀ pt ∈ w.roots, ∀ vpn, ∃ answer, Step w (.query pt vpn answer) w) ∧
      (∀ fault, allocPageFrame w.mem = .error fault → Exhausted mmapOk fault) ∧
      ∀ pt ∈ w.roots, ∀ vpn ppn fault, pageTableUpdate w.mem pt vpn ppn = .error fault →
        Exhausted mmapOk fault := by
  have hstocked := stocked_of_run run
  refine ⟨updates_iff run hbatch, root_iff run, fun pt hpt vpn => ?_,
    fun fault hfail => (hstocked.refused hfail).2, fun pt hpt vpn ppn fault hfail => ?_⟩
  · obtain ⟨m, -, hrep⟩ := run_represents run
    exact ⟨_, hpt, hrep.query_eq hpt vpn, rfl⟩
  · exact (Tables.update_error (tables_of_run run) hstocked hpt hfail).2

/-- The first root of a process takes the first frame. -/
theorem firstRoot_run (mmapOk : ℕ → Bool) (h : mmapOk 0 = true) :
    ∃ w, Run Step (boot mmapOk) [.root firstRoot] w ∧ w.roots = [firstRoot] := by
  have hfull : (boot mmapOk).mem.nalloc ≠ numPages := by simp [boot, initMemory, numPages]
  have hword : frameWord 0 = firstRoot := by decide
  obtain ⟨mem, halloc⟩ : ∃ mem, allocPageFrame (boot mmapOk).mem = .ok (frameWord 0, mem) := by
    rw [allocPageFrame, if_neg hfull]
    exact ⟨_, if_pos h⟩
  rw [hword] at halloc
  exact ⟨_, Run.nil.snoc ⟨_, halloc, rfl⟩, rfl⟩

/-- With four frames a root can be made, and no page can be mapped. -/
theorem updates_return_iff_short : ∃ w, Run Step (boot fun n => decide (n < 4)) [.root firstRoot] w ∧
    ¬∃ w', Run Step w [.update firstRoot 0x1000 0x123] w' := by
  obtain ⟨w, run, hroots⟩ := firstRoot_run (fun n => decide (n < 4)) rfl
  have hbatch : Updates w.roots [.update firstRoot 0x1000 0x123] := by simp [Updates, hroots]
  refine ⟨w, run, ?_⟩
  rw [(updates_return_iff run hbatch).1]
  intro hall
  exact absurd (hall 4 (by decide)).2 (by decide)

end OSCourse.PageTablePool
