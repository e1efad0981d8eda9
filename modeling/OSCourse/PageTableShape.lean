import OSCourse.PageTableRuns

/-!
# The shape of the heap of page tables

Leaf entries and table pointers have the same bits, so the safety of a walk
rests on the shape of the whole heap: the frames handed out form a forest
under the roots, in every reachable state and also in the middle of a walk.
Every call of `phys_to_virt` is then given a table of its own level.
-/

namespace OSCourse.PageTableShape

open Runs PageTableMemory HeapForest PageTableWalk PageTableRuns

/-- A call of `phys_to_virt` in a walk. -/
structure Call where
  /-- The level at which the walk uses the pointer. -/
  level : ℕ
  /-- The memory at the time of the call. -/
  mem : Memory
  /-- The argument. -/
  physAddr : Word

/-- The calls that the loop of `page_table_update` makes from a level on. -/
def updateCalls (vpn ppn : Word) : ℕ → Memory → Word → List Call
  | 0, mem, physAddr => [⟨0, mem, physAddr⟩]
  | level + 1, mem, physAddr =>
    let current := physToVirt mem physAddr
    let index := getIndex vpn (level + 1)
    ⟨level + 1, mem, physAddr⟩ ::
      match fillEntry ppn mem current index with
      | .error _ => []
      | .ok none => []
      | .ok (some mem) =>
        match load mem current index with
        | .error _ => []
        | .ok entry => updateCalls vpn ppn level mem (entry &&& pageMask)

/-- The calls that the loop of `page_table_query` makes from a level on. -/
def queryCalls (vpn : Word) (mem : Memory) : ℕ → Word → List Call
  | 0, physAddr => [⟨0, mem, physAddr⟩]
  | level + 1, physAddr =>
    ⟨level + 1, mem, physAddr⟩ ::
      match load mem (physToVirt mem physAddr) (getIndex vpn (level + 1)) with
      | .error _ => []
      | .ok entry => if entry &&& 1 = 0 then [] else queryCalls vpn mem level (entry &&& pageMask)

/-- A table at the end of a path from a root. -/
def TableAt (mem : Memory) (roots : Set ℕ) (r : ℕ) (path : List (Fin 512)) (n : ℕ) : Prop :=
  r ∈ roots ∧ walk (childFrame mem) r path = some n

/-- The heap is a forest of depth four under the roots. -/
structure Shape (mem : Memory) (roots : Set ℕ) : Prop where
  /-- Exactly the frames handed out have a page, and the roots are among them. -/
  allocated : (∀ n, (∃ frame, mem.pages n = some frame) ↔ n < mem.nalloc) ∧
    mem.nalloc ≤ numPages ∧ ∀ r ∈ roots, r < mem.nalloc
  /-- A valid entry above the deepest tables points to a frame that was handed
  out and is no root. -/
  pointed : ∀ r path n frame i, TableAt mem roots r path n → path.length ≤ 3 →
    mem.pages n = some frame → frame i &&& 1 ≠ 0 →
      entryFrame (frame i) < mem.nalloc ∧ entryFrame (frame i) ∉ roots
  /-- No frame is pointed to by two of these entries. -/
  unshared : ∀ r path n r' path' n' i i' m, TableAt mem roots r path n → path.length ≤ 3 →
    TableAt mem roots r' path' n' → path'.length ≤ 3 → childFrame mem n i = some m →
      childFrame mem n' i' = some m → n = n' ∧ i = i'
  /-- Every other frame has one place, at a depth from one to four under one root. -/
  placed : ∀ m < mem.nalloc, m ∉ roots → ∃ r path, TableAt mem roots r path m ∧
    1 ≤ path.length ∧ path.length ≤ 4 ∧
      ∀ r' path', TableAt mem roots r' path' m → path'.length ≤ 4 → r' = r ∧ path' = path

/-- A call is given the table of its level in a heap of the right shape. -/
def WellPlaced (roots : Set ℕ) (pt : Word) (call : Call) : Prop :=
  Shape call.mem roots ∧ ∃ r path n, pt = frameWord r ∧ TableAt call.mem roots r path n ∧
    path.length = 4 - call.level ∧ n < call.mem.nalloc ∧
      physToVirt call.mem call.physAddr = some ⟨n, 0⟩

/-- The frames of the roots. -/
def rootFrames (w : World) : Set ℕ := {n | n < numPages ∧ frameWord n ∈ w.roots}

variable {mem : Memory} {roots : Set ℕ} {own : Ownership ℕ (Fin 512)} {mapping : Mapping}
  {n r : ℕ} {path : List (Fin 512)} {pt vpn ppn physAddr : Word} {w : World}
  {mmapOk : ℕ → Bool} {es : List Event}

/-- The pointer at which the loop of `page_table_update` ends comes from its last call. -/
theorem updateWalk_last {level : ℕ} {mem' : Memory} {current : Option Pointer}
    (h : updateWalk vpn ppn level mem (physToVirt mem physAddr) = .ok (mem', .reached current)) :
    ∃ last, ⟨0, mem', last⟩ ∈ updateCalls vpn ppn level mem physAddr ∧
      physToVirt mem' last = current := by
  induction level generalizing mem physAddr with
  | zero =>
    cases h
    exact ⟨physAddr, List.mem_cons_self, rfl⟩
  | succ level ih =>
    simp only [updateWalk] at h
    simp only [updateCalls]
    cases hfill : fillEntry ppn mem (physToVirt mem physAddr) (getIndex vpn (level + 1)) with
    | error fault =>
      rw [hfill] at h
      cases h
    | ok filled =>
      cases filled with
      | none =>
        rw [hfill] at h
        cases h
      | some mem₁ =>
        rw [hfill] at h
        dsimp only at h ⊢
        cases hload : load mem₁ (physToVirt mem physAddr) (getIndex vpn (level + 1)) with
        | error fault =>
          rw [hload] at h
          cases h
        | ok entry =>
          rw [hload] at h
          obtain ⟨last, hmem, hlast⟩ := ih h
          exact ⟨last, List.mem_cons_of_mem _ hmem, hlast⟩

/-- The pointer at which the loop of `page_table_query` ends comes from its last call. -/
theorem queryWalk_last {level : ℕ} {current : Option Pointer}
    (h : queryWalk vpn mem level (physToVirt mem physAddr) = .ok (.reached current)) :
    ∃ last, ⟨0, mem, last⟩ ∈ queryCalls vpn mem level physAddr ∧
      physToVirt mem last = current := by
  induction level generalizing physAddr with
  | zero =>
    cases h
    exact ⟨physAddr, List.mem_cons_self, rfl⟩
  | succ level ih =>
    simp only [queryWalk] at h
    simp only [queryCalls]
    cases hload : load mem (physToVirt mem physAddr) (getIndex vpn (level + 1)) with
    | error fault =>
      rw [hload] at h
      cases h
    | ok entry =>
      rw [hload] at h
      dsimp only at h ⊢
      by_cases hinvalid : entry &&& 1 = 0
      · rw [if_pos hinvalid] at h
        cases h
      · rw [if_neg hinvalid] at h ⊢
        obtain ⟨last, hmem, hlast⟩ := ih h
        exact ⟨last, List.mem_cons_of_mem _ hmem, hlast⟩

/-- Tables at the end of a short path are the owned ones. -/
theorem tableAt_iff (h : Holds mem roots own mapping) (hlength : path.length ≤ 4) :
    TableAt mem roots r path n ↔ own n = some (r, path) := by
  constructor
  · rintro ⟨hr, hwalk⟩
    exact (h.forest.walk_eq_some hr hlength).mp hwalk
  · intro hown
    have hr := (h.forest.short hown).1
    exact ⟨hr, (h.forest.walk_eq_some hr hlength).mpr hown⟩

/-- The representation invariant gives the shape. -/
theorem shape_of_holds (h : Holds mem roots own mapping) : Shape mem roots where
  allocated := ⟨h.backed, h.bounded, fun r hr => (h.owned r).mp ⟨_, h.forest.root_own r hr⟩⟩
  pointed := by
    intro r path n frame i htable hlength hpage hvalid
    have hown := (tableAt_iff h (by omega)).mp htable
    obtain ⟨-, hchild⟩ := h.follow hown (by omega) hpage hvalid
    refine ⟨(h.owned _).mp ⟨_, hchild⟩, fun hroot => ?_⟩
    rw [h.forest.root_own _ hroot] at hchild
    simp at hchild
  unshared := by
    intro r path n r' path' n' i i' m htable hlength htable' hlength' hchild hchild'
    have hown := (tableAt_iff h (by omega)).mp htable
    have hown' := (tableAt_iff h (by omega)).mp htable'
    exact h.forest.no_sharing hown hown' (by dsimp only; omega) (by dsimp only; omega) hchild hchild'
  placed := by
    intro m hm hroot
    obtain ⟨⟨r, path⟩, hown⟩ := (h.owned m).mpr hm
    obtain ⟨hr, hlength⟩ := h.forest.short hown
    refine ⟨r, path, (tableAt_iff h hlength).mpr hown, ?_, hlength, ?_⟩
    · cases path with
      | nil =>
        have hsame := h.forest.unique hown (h.forest.root_own r hr)
        rw [hsame] at hroot
        exact absurd hr hroot
      | cons i path => exact Nat.le_add_left 1 _
    · intro r' path' htable hlength'
      have hown' := (tableAt_iff h hlength').mp htable
      rw [hown] at hown'
      cases hown'
      exact ⟨rfl, rfl⟩

/-- A table that is owned by the slots consumed so far is well placed. -/
theorem wellPlaced_of_own {level : ℕ} (h : Holds mem roots own mapping)
    (hn : own n = some (r, slots vpn (4 - level))) (hpt : pt = frameWord r)
    (hpointer : physToVirt mem physAddr = some ⟨n, 0⟩) :
    WellPlaced roots pt ⟨level, mem, physAddr⟩ := by
  have hlength := slots_length vpn (4 - level)
  exact ⟨shape_of_holds h, r, _, n, hpt, (tableAt_iff h (by omega)).mpr hn, hlength,
    (h.owned n).mp ⟨_, hn⟩, hpointer⟩

/-- Every call of `page_table_update` is well placed. -/
theorem updateCalls_wellPlaced {level : ℕ} (h : Holds mem roots own mapping) (vpn ppn : Word)
    (hlevel : level ≤ 4) (hn : own n = some (r, slots vpn (4 - level))) (hpt : pt = frameWord r)
    (hpointer : physToVirt mem physAddr = some ⟨n, 0⟩) :
    ∀ call ∈ updateCalls vpn ppn level mem physAddr, WellPlaced roots pt call := by
  have hhead := wellPlaced_of_own h hn hpt hpointer
  induction level generalizing mem own n physAddr with
  | zero =>
    intro call hcall
    rw [List.mem_singleton.mp hcall]
    exact hhead
  | succ level ih =>
    have hshort : (slots vpn (4 - (level + 1))).length < 4 := by
      rw [slots_length]
      omega
    intro call hcall
    simp only [updateCalls, hpointer] at hcall
    rcases List.mem_cons.mp hcall with rfl | hcall
    · exact hhead
    · rcases h.fillEntry_cases vpn ppn hn hshort (level + 1) with
        ⟨fault, hfill, -⟩ | ⟨hfill, -, -⟩ | ⟨mem', own', frame, hfill, h', hn', hpage, hvalid, -, -, -⟩
      · rw [hfill] at hcall
        cases hcall
      · rw [hfill] at hcall
        cases hcall
      · obtain ⟨hnext, hown⟩ := h'.follow hn' hshort hpage hvalid
        rw [slots_level vpn hlevel] at hown
        simp only [hfill, load_slot vpn hpage] at hcall
        exact ih h' (by omega) hown hnext (wellPlaced_of_own h' hown hpt hnext) call hcall

/-- Every call of `page_table_query` is well placed. -/
theorem queryCalls_wellPlaced {level : ℕ} (h : Holds mem roots own mapping) (vpn : Word)
    (hlevel : level ≤ 4) (hn : own n = some (r, slots vpn (4 - level))) (hpt : pt = frameWord r)
    (hpointer : physToVirt mem physAddr = some ⟨n, 0⟩) :
    ∀ call ∈ queryCalls vpn mem level physAddr, WellPlaced roots pt call := by
  have hhead := wellPlaced_of_own h hn hpt hpointer
  induction level generalizing n physAddr with
  | zero =>
    intro call hcall
    rw [List.mem_singleton.mp hcall]
    exact hhead
  | succ level ih =>
    have hshort : (slots vpn (4 - (level + 1))).length < 4 := by
      rw [slots_length]
      omega
    obtain ⟨_, frame, hpage⟩ := h.frame_of_own hn
    intro call hcall
    simp only [queryCalls, hpointer, load_slot vpn hpage] at hcall
    rcases List.mem_cons.mp hcall with rfl | hcall
    · exact hhead
    · by_cases hinvalid : frame (slot vpn (level + 1)) &&& 1 = 0
      · rw [if_pos hinvalid] at hcall
        cases hcall
      · obtain ⟨hnext, hown⟩ := h.follow hn hshort hpage hinvalid
        rw [slots_level vpn hlevel] at hown
        rw [if_neg hinvalid] at hcall
        exact ih (by omega) hown hnext (wellPlaced_of_own h hown hpt hnext) call hcall

/-- In every reachable state the tables form a forest under the roots, and
every call of `phys_to_virt` in an update or a query is given an allocated
table of its own level, whatever the leaf entries hold. -/
theorem heap_shape (run : Run Step (boot mmapOk) es w) :
    Shape w.mem (rootFrames w) ∧ ∀ pt ∈ w.roots, ∀ vpn ppn,
      (∀ call ∈ updateCalls vpn ppn 4 w.mem (pt <<< 12), WellPlaced (rootFrames w) pt call) ∧
        ∀ call ∈ queryCalls vpn w.mem 4 (pt <<< 12), WellPlaced (rootFrames w) pt call := by
  obtain ⟨m, -, hrep⟩ := run_represents run
  obtain ⟨frames, own, mapping, hholds, hroots, -⟩ := hrep.heap
  have hbound : ∀ n ∈ frames, n < numPages := fun n hn =>
    (hholds.frame_of_own (hholds.forest.root_own n hn)).1
  have hframes : rootFrames w = frames := by
    ext n
    constructor
    · rintro ⟨hn, hword⟩
      obtain ⟨k, hk, hsame⟩ := (hroots _).mp hword
      rwa [frameWord_inj hn (hbound k hk) hsame]
    · exact fun hn => ⟨hbound n hn, (hroots _).mpr ⟨n, hn, rfl⟩⟩
  rw [hframes]
  refine ⟨shape_of_holds hholds, fun pt hpt vpn ppn => ?_⟩
  obtain ⟨r, hr, hword⟩ := (hroots pt).mp hpt
  have hroot := hholds.root_pointer hr hword
  exact ⟨updateCalls_wellPlaced hholds vpn ppn le_rfl (hholds.own_start hr) hword hroot,
    queryCalls_wellPlaced hholds vpn le_rfl (hholds.own_start hr) hword hroot⟩

/-- The heap of the neighbouring page numbers. -/
theorem heap_shape_neighbours : ∃ w, Run Step (boot fun _ => true) neighbours w ∧
    Shape w.mem (rootFrames w) ∧
      ∀ call ∈ updateCalls 0xabc 0xbaaaaaae 4 w.mem (firstRoot <<< 12),
        WellPlaced (rootFrames w) firstRoot call := by
  obtain ⟨w, run, hroot⟩ := neighbours_run
  obtain ⟨hshape, hcalls⟩ := heap_shape run
  exact ⟨w, run, hshape, (hcalls firstRoot hroot 0xabc 0xbaaaaaae).1⟩

end OSCourse.PageTableShape
