import OSCourse.HeapForest
import OSCourse.PageTableMemory

/-!
# Five-level walks of the page table

`page_table_update` and `page_table_query` follow four levels of table
nodes and then touch one leaf entry. The nodes under the roots form a
forest whose deepest tables hold exactly the mappings, so a walk arrives
at the one leaf that belongs to its root and its indices. An update fills
missing entries with fresh zeroed tables on the way, which adds no mapping;
every access of a walk goes to an allocated node.
-/

namespace OSCourse.PageTableWalk

open PageTableMemory HeapForest

/-- `get_index`: the nine bits of a level. -/
def getIndex (vpn : Word) (level : ℕ) : Word := (vpn >>> (12 + 9 * level)) &&& 0x1FF

/-- How the loop over the levels 4 to 1 ends. -/
inductive WalkEnd where
  /-- The function has already returned. -/
  | returned
  /-- The loop ran to its end at this table node. -/
  | reached (current : Option Pointer)

/-- One level of the update loop before `current` moves on: a missing entry
makes an unmapping return, and otherwise gets a fresh table. -/
def fillEntry (ppn : Word) (mem : Memory) (current : Option Pointer) (index : Word) :
    Except Fault (Option Memory) :=
  match load mem current index with
  | .error fault => .error fault
  | .ok entry =>
    if entry &&& 1 = 0 then
      if ppn = noMapping then .ok none
      else
        match allocPageFrame mem with
        | .error fault => .error fault
        | .ok (frame, mem) => (store mem current index (taggedEntry frame)).map some
    else .ok (some mem)

/-- The loop `for (level = 4; level > 0; level--)` of `page_table_update`. -/
def updateWalk (vpn ppn : Word) : ℕ → Memory → Option Pointer → Except Fault (Memory × WalkEnd)
  | 0, mem, current => .ok (mem, .reached current)
  | level + 1, mem, current =>
    let index := getIndex vpn (level + 1)
    match fillEntry ppn mem current index with
    | .error fault => .error fault
    | .ok none => .ok (mem, .returned)
    | .ok (some mem) =>
      match load mem current index with
      | .error fault => .error fault
      | .ok entry => updateWalk vpn ppn level mem (physToVirt mem (entry &&& pageMask))

/-- `page_table_update`. -/
def pageTableUpdate (mem : Memory) (pt vpn ppn : Word) : Except Fault Memory :=
  match updateWalk vpn ppn 4 mem (physToVirt mem (pt <<< 12)) with
  | .error fault => .error fault
  | .ok (mem, .returned) => .ok mem
  | .ok (mem, .reached current) =>
    let index := getIndex vpn 0
    if ppn = noMapping then store mem current index 0
    else store mem current index (taggedEntry ppn)

/-- The loop of `page_table_query`, which only reads. -/
def queryWalk (vpn : Word) (mem : Memory) : ℕ → Option Pointer → Except Fault WalkEnd
  | 0, current => .ok (.reached current)
  | level + 1, current =>
    match load mem current (getIndex vpn (level + 1)) with
    | .error fault => .error fault
    | .ok entry =>
      if entry &&& 1 = 0 then .ok .returned
      else queryWalk vpn mem level (physToVirt mem (entry &&& pageMask))

/-- `page_table_query`. -/
def pageTableQuery (mem : Memory) (pt vpn : Word) : Except Fault Word :=
  match queryWalk vpn mem 4 (physToVirt mem (pt <<< 12)) with
  | .error fault => .error fault
  | .ok .returned => .ok noMapping
  | .ok (.reached current) =>
    match load mem current (getIndex vpn 0) with
    | .error fault => .error fault
    | .ok entry => if entry &&& 1 = 0 then .ok noMapping else .ok (entry >>> 12)

/-- Nine bits of the page number at the shift of the level. -/
theorem getIndex_toNat (vpn : Word) (level : ℕ) :
    (getIndex vpn level).toNat = vpn.toNat / 2 ^ (12 + 9 * level) % 512 := by
  rw [getIndex, BitVec.toNat_and, BitVec.toNat_ushiftRight, Nat.shiftRight_eq_div_pow]
  exact Nat.and_two_pow_sub_one_eq_mod _ 9

/-- An index stays inside a table node. -/
theorem getIndex_lt (vpn : Word) (level : ℕ) : (getIndex vpn level).toNat < 512 := by
  rw [getIndex_toNat]
  exact Nat.mod_lt _ (by decide)

/-- The index of a level as a slot of a table node. -/
def slot (vpn : Word) (level : ℕ) : Fin 512 := ⟨(getIndex vpn level).toNat, getIndex_lt vpn level⟩

/-- The first slots of a walk, from level 4 downwards. -/
def slots (vpn : Word) (count : ℕ) : List (Fin 512) :=
  (List.range count).map fun k => slot vpn (4 - k)

@[simp] theorem slots_zero (vpn : Word) : slots vpn 0 = [] := rfl

@[simp] theorem slots_length (vpn : Word) (count : ℕ) : (slots vpn count).length = count := by
  simp [slots]

/-- One more level appends its slot. -/
theorem slots_succ (vpn : Word) (count : ℕ) :
    slots vpn (count + 1) = slots vpn count ++ [slot vpn (4 - count)] := by
  simp [slots, List.range_succ]

/-- The slots after one more level. -/
theorem slots_level (vpn : Word) {level : ℕ} (hlevel : level + 1 ≤ 4) :
    slots vpn (4 - (level + 1)) ++ [slot vpn (level + 1)] = slots vpn (4 - level) := by
  have hdepth : 4 - (4 - (level + 1)) = level + 1 := by omega
  have hnext : 4 - level = 4 - (level + 1) + 1 := by omega
  rw [hnext, slots_succ, hdepth]

/-- Fewer levels give a prefix of the slots. -/
theorem slots_extend (vpn : Word) (count extra : ℕ) :
    ∃ more, slots vpn (count + extra) = slots vpn count ++ more := by
  induction extra with
  | zero => exact ⟨[], (List.append_nil _).symm⟩
  | succ extra ih =>
    obtain ⟨more, hmore⟩ := ih
    refine ⟨more ++ [slot vpn (4 - (count + extra))], ?_⟩
    rw [← Nat.add_assoc, slots_succ, hmore, List.append_assoc]

/-- The bits of a page number that the code looks at: bits 12 to 56. -/
def pageKey (vpn : Word) : ℕ := vpn.toNat / 2 ^ 12 % 2 ^ 45

/-- Two numbers agree in their low digits exactly when they agree up to a
multiple of the power of the base. -/
theorem digits_eq_iff {b : ℕ} (hb : 0 < b) (n x y : ℕ) :
    x % b ^ n = y % b ^ n ↔ ∀ i < n, x / b ^ i % b = y / b ^ i % b := by
  induction n with
  | zero => simp [Nat.mod_one]
  | succ n ih =>
    rw [Nat.forall_lt_succ_right, ← ih, Nat.mod_pow_succ, Nat.mod_pow_succ]
    constructor
    · intro h
      have hlow := congrArg (· % b ^ n) h
      simp only [Nat.add_mul_mod_self_left, Nat.mod_mod] at hlow
      rw [hlow] at h
      exact ⟨hlow, Nat.eq_of_mul_eq_mul_left (Nat.pow_pos hb) (Nat.add_left_cancel h)⟩
    · intro h
      rw [h.1, h.2]

/-- The five slots determine the 45 bits and conversely: this is the joint
injectivity of the five index extractions. -/
theorem slots_eq_iff (vpn vpn' : Word) : slots vpn 5 = slots vpn' 5 ↔ pageKey vpn = pageKey vpn' := by
  have hshift : ∀ v : Word, ∀ level,
      (slot v level).val = v.toNat / 2 ^ 12 / 512 ^ level % 512 := by
    intro v level
    have hindex := getIndex_toNat v level
    rw [Nat.pow_add, Nat.pow_mul, ← Nat.div_div_eq_div_mul] at hindex
    exact hindex
  have hlist : ∀ v : Word, slots v 5 = [slot v 4, slot v 3, slot v 2, slot v 1, slot v 0] :=
    fun _ => rfl
  have hdigits := digits_eq_iff (by decide : 0 < 512) 5 (vpn.toNat / 2 ^ 12) (vpn'.toNat / 2 ^ 12)
  have hpower : 2 ^ 45 = 512 ^ 5 := by decide
  rw [hlist, hlist, pageKey, pageKey, hpower, hdigits]
  simp only [List.cons.injEq, Fin.ext_iff, hshift, and_true]
  constructor
  · intro ⟨h4, h3, h2, h1, h0⟩ i hi
    obtain rfl | rfl | rfl | rfl | rfl : i = 0 ∨ i = 1 ∨ i = 2 ∨ i = 3 ∨ i = 4 := by omega
    · exact h0
    · exact h1
    · exact h2
    · exact h3
    · exact h4
  · intro h
    exact ⟨h 4 (by decide), h 3 (by decide), h 2 (by decide), h 1 (by decide), h 0 (by decide)⟩

/-- The child a table entry points to, absent when the entry is invalid. -/
def childFrame (mem : Memory) (n : ℕ) (i : Fin 512) : Option ℕ :=
  (mem.pages n).bind fun frame => if frame i &&& 1 = 0 then none else some (entryFrame (frame i))

/-- What a leaf entry holds for a mapping or its absence. -/
def leafEntry : Option Word → Word
  | none => 0
  | some ppn => taggedEntry ppn

/-- The answer of a query for a mapping or its absence: stored page numbers
lose the bits above the 52nd. -/
def leafAnswer : Option Word → Word
  | none => noMapping
  | some ppn => BitVec.ofNat 64 (ppn.toNat % 2 ^ 52)

/-- The mapping an update asks for. -/
def requested (ppn : Word) : Option Word := if ppn = noMapping then none else some ppn

/-- The mappings of every root, by the five slots of a walk. -/
abbrev Mapping := ℕ → List (Fin 512) → Option Word

/-- Replace the mapping of one path under one root. -/
def Mapping.set (mapping : Mapping) (r : ℕ) (path : List (Fin 512)) (value : Option Word) : Mapping :=
  fun q p => if q = r ∧ p = path then value else mapping q p

/-- The representation: the frames handed out are the tables of a forest of
depth four, and the deepest tables hold exactly the mappings. -/
structure Holds (mem : Memory) (roots : Set ℕ) (own : Ownership ℕ (Fin 512))
    (mapping : Mapping) : Prop where
  /-- No sharing, nothing dangling. -/
  forest : Forest (childFrame mem) roots 4 own
  /-- The owned tables are the frames handed out. -/
  owned : ∀ n, (∃ x, own n = some x) ↔ n < mem.nalloc
  /-- Frames handed out have a page, the others do not. -/
  backed : ∀ n, (∃ frame, mem.pages n = some frame) ↔ n < mem.nalloc
  /-- The pool bounds the frames handed out. -/
  bounded : mem.nalloc ≤ numPages
  /-- Entries of the deepest tables. -/
  leaf : ∀ {n r path frame}, own n = some (r, path) → path.length = 4 →
    mem.pages n = some frame → ∀ i, frame i = leafEntry (mapping r (path ++ [i]))
  /-- A mapping has its deepest table. -/
  covered : ∀ {r path i ppn}, path.length = 4 → mapping r (path ++ [i]) = some ppn →
    ∃ n, own n = some (r, path)

/-- The tables an update may add: those of the first slots of its page number,
unless it asks for no mapping. -/
structure Grown (own own' : Ownership ℕ (Fin 512)) (r : ℕ) (vpn ppn : Word) : Prop where
  /-- No table is lost. -/
  keeps : ∀ k x, own k = some x → own' k = some x
  /-- A new table lies on the walk. -/
  adds : ∀ k x, own' k = some x →
    own k = some x ∨ (ppn ≠ noMapping ∧ ∃ j < 4, x = (r, slots vpn (j + 1)))

section Rules

variable {mem : Memory} {roots : Set ℕ} {own : Ownership ℕ (Fin 512)} {mapping : Mapping}
  {n r : ℕ} {path : List (Fin 512)} {frame : Frame} {pt vpn ppn : Word}

/-- An owned table is an allocated frame of the pool. -/
theorem Holds.frame_of_own (h : Holds mem roots own mapping) {x : ℕ × List (Fin 512)}
    (hn : own n = some x) : n < numPages ∧ ∃ frame, mem.pages n = some frame := by
  have hlt := (h.owned n).mp ⟨x, hn⟩
  exact ⟨lt_of_lt_of_le hlt h.bounded, (h.backed n).mpr hlt⟩

/-- The next frame to be handed out is owned by nobody. -/
theorem Holds.next_unowned (h : Holds mem roots own mapping) : own mem.nalloc = none := by
  rw [Option.eq_none_iff_forall_ne_some]
  intro x hx
  exact absurd ((h.owned _).mp ⟨x, hx⟩) (lt_irrefl _)

/-- The frame that fills the pool is left to hand out. -/
theorem Holds.next_lt (h : Holds mem roots own mapping) (hfull : mem.nalloc ≠ numPages) :
    mem.nalloc < numPages :=
  lt_of_le_of_ne h.bounded hfull

theorem childFrame_eq (hpage : mem.pages n = some frame) (i : Fin 512) :
    childFrame mem n i = if frame i &&& 1 = 0 then none else some (entryFrame (frame i)) := by
  rw [childFrame, hpage, Option.bind_some]

/-- Reading the entry of a level at an allocated table. -/
theorem load_slot (vpn : Word) (hpage : mem.pages n = some frame) (level : ℕ) :
    load mem (some ⟨n, 0⟩) (getIndex vpn level) = .ok (frame (slot vpn level)) :=
  load_ok hpage (getIndex_lt vpn level)

/-- Following a valid entry arrives at the start of the child's page. -/
theorem Holds.follow (h : Holds mem roots own mapping) (hn : own n = some (r, path))
    (hlength : path.length < 4) (hpage : mem.pages n = some frame) {i : Fin 512}
    (hvalid : frame i &&& 1 ≠ 0) :
    physToVirt mem (frame i &&& pageMask) = some ⟨entryFrame (frame i), 0⟩ ∧
      own (entryFrame (frame i)) = some (r, path ++ [i]) := by
  have hchild : childFrame mem n i = some (entryFrame (frame i)) := by
    rw [childFrame_eq hpage, if_neg hvalid]
  have hown := h.forest.child_own hn hlength hchild
  obtain ⟨hbound, child, hchildPage⟩ := h.frame_of_own hown
  exact ⟨physToVirt_entry hbound hchildPage, hown⟩

/-- A fresh zeroed frame has no children. -/
theorem childFrame_zero (hpage : mem.pages n = some zeroFrame) (i : Fin 512) :
    childFrame mem n i = none := by
  rw [childFrame_eq hpage, if_pos (by simp [zeroFrame])]

/-- The tables are still the frames handed out when the next frame gets an owner. -/
theorem Holds.owned_next (h : Holds mem roots own mapping) (y : ℕ × List (Fin 512)) (k : ℕ) :
    (∃ x, Function.update own mem.nalloc (some y) k = some x) ↔ k < mem.nalloc + 1 := by
  by_cases hk : k = mem.nalloc
  · subst hk
    simp
  · rw [Function.update_of_ne hk, h.owned]
    omega

/-- Planting: a fresh frame becomes the root of an empty page table. -/
theorem Holds.plant (h : Holds mem roots own mapping) (hfull : mem.nalloc ≠ numPages) :
    Holds ({ mem with nalloc := mem.nalloc + 1 }.setPage mem.nalloc zeroFrame)
      (insert mem.nalloc roots) (Function.update own mem.nalloc (some (mem.nalloc, []))) mapping := by
  have hfresh := h.next_unowned
  set mem' := { mem with nalloc := mem.nalloc + 1 }.setPage mem.nalloc zeroFrame with hmem'
  have hself : mem'.pages mem.nalloc = some zeroFrame := Memory.setPage_self ..
  have hother : ∀ k, k ≠ mem.nalloc → mem'.pages k = mem.pages k := fun k hk =>
    Memory.setPage_of_ne _ _ hk
  have hforest : Forest (childFrame mem') roots 4 own := by
    refine h.forest.congr fun hk _ i => ?_
    rw [childFrame, childFrame, hother _ (ne_of_own hfresh hk)]
  refine ⟨hforest.plant hfresh (childFrame_zero hself), h.owned_next _, ?_, h.next_lt hfull, ?_, ?_⟩
  · intro k
    by_cases hk : k = mem.nalloc
    · subst hk
      simp [mem']
    · rw [hother k hk, h.backed]
      change _ ↔ k < mem.nalloc + 1
      omega
  · intro k q path frame hk hlength hpage
    rcases given_cases hk with ⟨rfl, hx⟩ | ⟨hkn, hk⟩
    · cases hx
      cases hlength
    · rw [hother k hkn] at hpage
      exact h.leaf hk hlength hpage
  · intro q path i ppn hlength hmapped
    obtain ⟨k, hk⟩ := h.covered hlength hmapped
    exact ⟨k, own_given hfresh _ hk⟩

/-- Nothing is mapped below a missing entry above the leaves. -/
theorem Holds.unmapped_below (h : Holds mem roots own mapping) (hn : own n = some (r, path))
    {i : Fin 512} (hmissing : childFrame mem n i = none) (hdeep : (path ++ [i]).length = 4)
    (j : Fin 512) : mapping r (path ++ [i] ++ [j]) = none := by
  rw [Option.eq_none_iff_forall_ne_some]
  intro ppn hmapped
  obtain ⟨k, hk⟩ := h.covered hdeep hmapped
  exact h.forest.not_own_below hn hmissing hk

/-- Grafting: a fresh frame filled into an invalid entry of a table above
the leaves adds a table and no mapping. -/
theorem Holds.graft (h : Holds mem roots own mapping) (hfull : mem.nalloc ≠ numPages)
    (hn : own n = some (r, path)) (hlength : path.length < 4) (hpage : mem.pages n = some frame)
    {i : Fin 512} (hinvalid : frame i &&& 1 = 0) :
    Holds (({ mem with nalloc := mem.nalloc + 1 }.setPage mem.nalloc zeroFrame).setPage n
        (Function.update frame i (taggedEntry (frameWord mem.nalloc)))) roots
      (Function.update own mem.nalloc (some (r, path ++ [i]))) mapping := by
  have hfresh := h.next_unowned
  have hmissing : childFrame mem n i = none := by rw [childFrame_eq hpage, if_pos hinvalid]
  set filled := Function.update frame i (taggedEntry (frameWord mem.nalloc)) with hfilled
  set mem' := ({ mem with nalloc := mem.nalloc + 1 }.setPage mem.nalloc zeroFrame).setPage n filled
    with hmem'
  have hnn := ne_of_own hfresh hn
  have hself : mem'.pages n = some filled := Memory.setPage_self ..
  have hnew : mem'.pages mem.nalloc = some zeroFrame := by
    rw [hmem', Memory.setPage_of_ne _ _ hnn.symm]
    exact Memory.setPage_self ..
  have hother : ∀ k, k ≠ n → k ≠ mem.nalloc → mem'.pages k = mem.pages k := by
    intro k hk hk'
    rw [hmem', Memory.setPage_of_ne _ _ hk, Memory.setPage_of_ne _ _ hk']
  have hentry : childFrame mem' n i = some mem.nalloc := by
    rw [childFrame_eq hself, hfilled, Function.update_self, if_neg (taggedEntry_valid _),
      entryFrame_tagged (h.next_lt hfull)]
  have hagree : ∀ k j, k ≠ mem.nalloc → (k ≠ n ∨ j ≠ i) →
      childFrame mem' k j = childFrame mem k j := by
    intro k j hk hplace
    by_cases hkn : k = n
    · subst hkn
      have hj : j ≠ i := by tauto
      rw [childFrame_eq hself, childFrame_eq hpage, hfilled, Function.update_of_ne hj]
    · rw [childFrame, childFrame, hother k hkn hk]
  refine ⟨h.forest.graft hn hlength hmissing hfresh hentry (childFrame_zero hnew) hagree,
    h.owned_next _, ?_, h.next_lt hfull, ?_, ?_⟩
  · intro k
    change _ ↔ k < mem.nalloc + 1
    by_cases hk : k = mem.nalloc
    · subst hk
      simp [hnew]
    · by_cases hkn : k = n
      · subst hkn
        have hlt := (h.backed k).mp ⟨frame, hpage⟩
        simp only [hself, Option.some.injEq, exists_eq', true_iff]
        omega
      · rw [hother k hkn hk, h.backed]
        omega
  · intro k q p content hk hdeep hcontent j
    rcases given_cases hk with ⟨rfl, hx⟩ | ⟨hkm, hk⟩
    · cases hx
      rw [hnew] at hcontent
      cases hcontent
      rw [h.unmapped_below hn hmissing hdeep j]
      rfl
    · have hkn : k ≠ n := by
        rintro rfl
        rw [hn] at hk
        cases hk
        omega
      rw [hother k hkn hkm] at hcontent
      exact h.leaf hk hdeep hcontent j
  · intro q p j ppn hdeep hmapped
    obtain ⟨k, hk⟩ := h.covered hdeep hmapped
    exact ⟨k, own_given hfresh _ hk⟩

/-- Writing one leaf entry changes the mapping of exactly its path. -/
theorem Holds.write (h : Holds mem roots own mapping) (hn : own n = some (r, path))
    (hlength : path.length = 4) (hpage : mem.pages n = some frame) (i : Fin 512)
    (value : Option Word) :
    Holds (mem.setPage n (Function.update frame i (leafEntry value))) roots own
      (mapping.set r (path ++ [i]) value) := by
  set mem' := mem.setPage n (Function.update frame i (leafEntry value)) with hmem'
  have hself : mem'.pages n = some (Function.update frame i (leafEntry value)) :=
    Memory.setPage_self ..
  have hother : ∀ k, k ≠ n → mem'.pages k = mem.pages k := fun k hk =>
    Memory.setPage_of_ne _ _ hk
  refine ⟨h.forest.congr ?_, h.owned, ?_, h.bounded, ?_, ?_⟩
  · intro k q p hk hshort j
    have hkn : k ≠ n := by
      rintro rfl
      rw [hn] at hk
      cases hk
      omega
    rw [childFrame, childFrame, hother k hkn]
  · intro k
    by_cases hkn : k = n
    · subst hkn
      simp only [hself, Option.some.injEq, exists_eq', true_iff]
      exact (h.backed k).mp ⟨frame, hpage⟩
    · rw [hother k hkn, h.backed]
      rfl
  · intro k q p content hk hdeep hcontent j
    by_cases hkn : k = n
    · subst hkn
      rw [hn] at hk
      cases hk
      rw [hself] at hcontent
      cases hcontent
      by_cases hj : j = i
      · subst hj
        simp [Mapping.set]
      · have hne : path ++ [j] ≠ path ++ [i] := by simpa using hj
        rw [Function.update_of_ne hj, Mapping.set, if_neg (by tauto), h.leaf hn hdeep hpage]
    · have hne : ¬ (q = r ∧ p ++ [j] = path ++ [i]) := by
        rintro ⟨rfl, hsame⟩
        obtain ⟨rfl, _⟩ := List.append_inj' hsame rfl
        exact hkn (h.forest.unique hk hn)
      rw [hother k hkn] at hcontent
      rw [Mapping.set, if_neg hne, h.leaf hk hdeep hcontent]
  · intro q p j ppn hdeep hmapped
    by_cases hsame : q = r ∧ p ++ [j] = path ++ [i]
    · obtain ⟨rfl, hsame⟩ := hsame
      obtain ⟨rfl, _⟩ := List.append_inj' hsame rfl
      exact ⟨n, hn⟩
    · rw [Mapping.set, if_neg hsame] at hmapped
      exact h.covered hdeep hmapped

/-- What one level of the update loop can do at an owned table: exit for want
of a frame, return at a missing entry that is to be unmapped, or go on with
the table of the next level present. -/
theorem Holds.fillEntry_cases (h : Holds mem roots own mapping) (vpn ppn : Word) (hn : own n = some (r, path))
    (hlength : path.length < 4) (level : ℕ) :
    (∃ fault, fillEntry ppn mem (some ⟨n, 0⟩) (getIndex vpn level) = .error fault ∧
        fault ≠ .badAccess) ∨
      (fillEntry ppn mem (some ⟨n, 0⟩) (getIndex vpn level) = .ok none ∧ ppn = noMapping ∧
        childFrame mem n (slot vpn level) = none) ∨
      (∃ mem' own' frame', fillEntry ppn mem (some ⟨n, 0⟩) (getIndex vpn level) = .ok (some mem') ∧
        Holds mem' roots own' mapping ∧ own' n = some (r, path) ∧ mem'.pages n = some frame' ∧
        frame' (slot vpn level) &&& 1 ≠ 0 ∧ (∀ k x, own k = some x → own' k = some x) ∧
        (∀ k x, own' k = some x →
          own k = some x ∨ (ppn ≠ noMapping ∧ x = (r, path ++ [slot vpn level]))) ∧
        (ppn = noMapping → mem' = mem)) := by
  obtain ⟨_, frame, hpage⟩ := h.frame_of_own hn
  have hload := load_slot vpn hpage level
  by_cases hinvalid : frame (slot vpn level) &&& 1 = 0
  · by_cases hppn : ppn = noMapping
    · refine .inr (.inl ⟨?_, hppn, ?_⟩)
      · simp only [fillEntry, hload, if_pos hinvalid, if_pos hppn]
      · rw [childFrame_eq hpage, if_pos hinvalid]
    · rcases allocPageFrame_cases mem with hfail | hfail | ⟨hfull, halloc⟩
      · refine .inl ⟨.outOfMemory, ?_, by decide⟩
        simp only [fillEntry, hload, if_pos hinvalid, if_neg hppn, hfail]
      · refine .inl ⟨.mmapFailed, ?_, by decide⟩
        simp only [fillEntry, hload, if_pos hinvalid, if_neg hppn, hfail]
      · have hne : n ≠ mem.nalloc := by
          rintro rfl
          rw [h.next_unowned] at hn
          cases hn
        have hkept : ({ mem with nalloc := mem.nalloc + 1 }.setPage mem.nalloc zeroFrame).pages n =
            some frame := by
          rw [Memory.setPage_of_ne _ _ hne]
          exact hpage
        have hgraft := h.graft hfull hn hlength hpage hinvalid
        refine .inr (.inr ⟨_, _, Function.update frame (slot vpn level)
          (taggedEntry (frameWord mem.nalloc)), ?_, hgraft, ?_, Memory.setPage_self .., ?_, ?_, ?_,
          ?_⟩)
        · simp only [fillEntry, hload, if_pos hinvalid, if_neg hppn, halloc,
            store_ok _ hkept (getIndex_lt vpn level), Except.map]
          rfl
        · rwa [Function.update_of_ne hne]
        · rw [Function.update_self]
          exact taggedEntry_valid _
        · intro k x hk
          have hkm : k ≠ mem.nalloc := by
            rintro rfl
            rw [h.next_unowned] at hk
            cases hk
          rwa [Function.update_of_ne hkm]
        · intro k x hk
          by_cases hkm : k = mem.nalloc
          · rw [hkm, Function.update_self] at hk
            exact .inr ⟨hppn, (Option.some.inj hk).symm⟩
          · rw [Function.update_of_ne hkm] at hk
            exact .inl hk
        · exact fun hcontra => absurd hcontra hppn
  · refine .inr (.inr ⟨mem, own, frame, ?_, h, hn, hpage, hinvalid, fun _ _ hk => hk,
      fun _ _ hk => .inl hk, fun _ => rfl⟩)
    simp only [fillEntry, hload, if_neg hinvalid]

/-- The update loop from any level, at the table that belongs to the slots
consumed so far: it exits for want of a frame, returns because the entry to
unmap has no table, or reaches the deepest table of its path. -/
theorem Holds.updateWalk_cases {level : ℕ} (h : Holds mem roots own mapping) (vpn ppn : Word)
    (hlevel : level ≤ 4) (hn : own n = some (r, slots vpn (4 - level))) :
    (∃ fault, updateWalk vpn ppn level mem (some ⟨n, 0⟩) = .error fault ∧ fault ≠ .badAccess) ∨
      (updateWalk vpn ppn level mem (some ⟨n, 0⟩) = .ok (mem, .returned) ∧ ppn = noMapping ∧
        ∀ m, own m ≠ some (r, slots vpn 4)) ∨
      (∃ mem' own' m, updateWalk vpn ppn level mem (some ⟨n, 0⟩) =
          .ok (mem', .reached (some ⟨m, 0⟩)) ∧ Holds mem' roots own' mapping ∧
        own' m = some (r, slots vpn 4) ∧ Grown own own' r vpn ppn ∧
        (ppn = noMapping → mem' = mem)) := by
  induction level generalizing mem own n with
  | zero =>
    exact .inr (.inr ⟨mem, own, n, rfl, h, hn, ⟨fun _ _ hk => hk, fun _ _ hk => .inl hk⟩,
      fun _ => rfl⟩)
  | succ level ih =>
    have hpath := slots_level vpn hlevel
    have hshort : (slots vpn (4 - (level + 1))).length < 4 := by
      rw [slots_length]
      omega
    rcases h.fillEntry_cases vpn ppn hn hshort (level + 1) with
      ⟨fault, hfill, hfault⟩ | ⟨hfill, hppn, hmissing⟩ |
      ⟨mem', own', frame, hfill, h', hn', hpage, hvalid, hkeep, hadd, hsame⟩
    · refine .inl ⟨fault, ?_, hfault⟩
      simp only [updateWalk, hfill]
    · refine .inr (.inl ⟨?_, hppn, fun m hm => ?_⟩)
      · simp only [updateWalk, hfill]
      · obtain ⟨more, hmore⟩ := slots_extend vpn (4 - level) level
        rw [Nat.sub_add_cancel (by omega), ← hpath, List.append_assoc, List.singleton_append] at hmore
        rw [hmore] at hm
        exact h.forest.not_own_below hn hmissing hm
    · obtain ⟨hpointer, hown⟩ := h'.follow hn' hshort hpage hvalid
      rw [hpath] at hown
      have hstep : updateWalk vpn ppn (level + 1) mem (some ⟨n, 0⟩) =
          updateWalk vpn ppn level mem' (some ⟨entryFrame (frame (slot vpn (level + 1))), 0⟩) := by
        simp only [updateWalk, hfill, load_slot vpn hpage, hpointer]
      rw [hstep]
      rcases ih h' (by omega) hown with hfail | ⟨hreturned, hppn, hnone⟩ |
        ⟨mem'', own'', m, hreached, h'', hm, hgrown, hsame'⟩
      · exact .inl hfail
      · obtain rfl := hsame hppn
        exact .inr (.inl ⟨hreturned, hppn, fun k hk => hnone k (hkeep k _ hk)⟩)
      · refine .inr (.inr ⟨mem'', own'', m, hreached, h'', hm,
          ⟨fun k x hk => hgrown.keeps k x (hkeep k x hk), fun k x hk => ?_⟩, fun hppn => ?_⟩)
        · rcases hgrown.adds k x hk with hold | hnew
          · rcases hadd k x hold with hold | ⟨hppn, rfl⟩
            · exact .inl hold
            · refine .inr ⟨hppn, 3 - level, by omega, ?_⟩
              have hcount : 3 - level + 1 = 4 - level := by omega
              rw [hcount, hpath]
          · exact .inr hnew
        · rw [hsame' hppn, hsame hppn]

/-- The root of a page table is an allocated frame with a pointer. -/
theorem Holds.root_pointer (h : Holds mem roots own mapping) (hr : r ∈ roots)
    (hpt : pt = frameWord r) : physToVirt mem (pt <<< 12) = some ⟨r, 0⟩ := by
  obtain ⟨hbound, frame, hpage⟩ := h.frame_of_own (h.forest.root_own r hr)
  rw [hpt]
  exact physToVirt_root hbound hpage

/-- Before the first level no slot is consumed. -/
theorem Holds.own_start (h : Holds mem roots own mapping) (hr : r ∈ roots) :
    own r = some (r, slots vpn (4 - 4)) := by
  rw [Nat.sub_self, slots_zero]
  exact h.forest.root_own r hr

/-- The entry an update writes is the leaf entry of the requested mapping. -/
theorem leafEntry_requested (ppn : Word) :
    leafEntry (requested ppn) = if ppn = noMapping then 0 else taggedEntry ppn := by
  unfold requested
  split <;> rfl

/-- `page_table_update` on a root: unless the process exits, it changes the
mapping of exactly the five slots of its page number, and adds no table but
those on its walk, all of which a mapping needs. -/
theorem Holds.update_cases (h : Holds mem roots own mapping) (hr : r ∈ roots)
    (hpt : pt = frameWord r) (vpn ppn : Word) :
    (∃ fault, pageTableUpdate mem pt vpn ppn = .error fault ∧ fault ≠ .badAccess) ∨
      ∃ mem' own', pageTableUpdate mem pt vpn ppn = .ok mem' ∧
        Holds mem' roots own' (mapping.set r (slots vpn 5) (requested ppn)) ∧
        Grown own own' r vpn ppn ∧ (ppn ≠ noMapping → ∃ m, own' m = some (r, slots vpn 4)) := by
  have hroot := h.root_pointer hr hpt
  rcases h.updateWalk_cases vpn ppn le_rfl (h.own_start hr) with
    ⟨fault, hfail, hfault⟩ | ⟨hreturned, hppn, hnone⟩ |
    ⟨mem', own', m, hreached, h', hm, hgrown, -⟩
  · refine .inl ⟨fault, ?_, hfault⟩
    simp only [pageTableUpdate, hroot, hfail]
  · refine .inr ⟨mem, own, ?_, ?_, ⟨fun _ _ hk => hk, fun _ _ hk => .inl hk⟩,
      fun hcontra => absurd hppn hcontra⟩
    · simp only [pageTableUpdate, hroot, hreturned]
    · have hunmapped : mapping r (slots vpn 5) = none := by
        rw [Option.eq_none_iff_forall_ne_some, slots_succ]
        intro ppn' hmapped
        obtain ⟨m, hm⟩ := h.covered (slots_length vpn 4) hmapped
        exact hnone m hm
      have hset : mapping.set r (slots vpn 5) (requested ppn) = mapping := by
        funext q p
        rw [Mapping.set, requested, if_pos hppn]
        split
        · rename_i hsame
          rw [hsame.1, hsame.2, hunmapped]
        · rfl
      rw [hset]
      exact h
  · obtain ⟨_, frame, hpage⟩ := h'.frame_of_own hm
    have hwrite := h'.write hm (slots_length vpn 4) hpage (slot vpn 0) (requested ppn)
    refine .inr ⟨_, own', ?_, by rw [slots_succ]; exact hwrite, hgrown, fun _ => ⟨m, hm⟩⟩
    have hstore := fun entry => store_ok entry hpage (getIndex_lt vpn 0)
    simp only [pageTableUpdate, hroot, hreached, hstore, leafEntry_requested]
    split <;> rfl

/-- The query loop from any level: it returns when the path has no deepest
table and otherwise reaches that table. -/
theorem Holds.queryWalk_cases {level : ℕ} (h : Holds mem roots own mapping) (vpn : Word)
    (hlevel : level ≤ 4) (hn : own n = some (r, slots vpn (4 - level))) :
    (queryWalk vpn mem level (some ⟨n, 0⟩) = .ok .returned ∧ ∀ m, own m ≠ some (r, slots vpn 4)) ∨
      ∃ m, queryWalk vpn mem level (some ⟨n, 0⟩) = .ok (.reached (some ⟨m, 0⟩)) ∧
        own m = some (r, slots vpn 4) := by
  induction level generalizing n with
  | zero => exact .inr ⟨n, rfl, hn⟩
  | succ level ih =>
    have hpath := slots_level vpn hlevel
    have hshort : (slots vpn (4 - (level + 1))).length < 4 := by
      rw [slots_length]
      omega
    obtain ⟨_, frame, hpage⟩ := h.frame_of_own hn
    have hload := load_slot vpn hpage (level + 1)
    by_cases hinvalid : frame (slot vpn (level + 1)) &&& 1 = 0
    · refine .inl ⟨?_, fun m hm => ?_⟩
      · simp only [queryWalk, hload, if_pos hinvalid]
      · have hmissing : childFrame mem n (slot vpn (level + 1)) = none := by
          rw [childFrame_eq hpage, if_pos hinvalid]
        obtain ⟨more, hmore⟩ := slots_extend vpn (4 - level) level
        rw [Nat.sub_add_cancel (by omega), ← hpath, List.append_assoc, List.singleton_append] at hmore
        rw [hmore] at hm
        exact h.forest.not_own_below hn hmissing hm
    · obtain ⟨hpointer, hown⟩ := h.follow hn hshort hpage hinvalid
      rw [hpath] at hown
      have hstep : queryWalk vpn mem (level + 1) (some ⟨n, 0⟩) =
          queryWalk vpn mem level (some ⟨entryFrame (frame (slot vpn (level + 1))), 0⟩) := by
        simp only [queryWalk, hload, if_neg hinvalid, hpointer]
      rw [hstep]
      exact ih (by omega) hown

/-- What a leaf entry answers. -/
theorem leafEntry_answer (value : Option Word) :
    (if leafEntry value &&& 1 = 0 then noMapping else leafEntry value >>> 12) = leafAnswer value := by
  cases value with
  | none => rfl
  | some ppn =>
    rw [leafEntry, if_neg (taggedEntry_valid ppn), leafAnswer]
    apply BitVec.eq_of_toNat_eq
    rw [taggedEntry_page, BitVec.toNat_ofNat]
    omega

/-- `page_table_query` on a root answers from the mapping of the five slots
of its page number, and never faults. -/
theorem Holds.query_eq (h : Holds mem roots own mapping) (hr : r ∈ roots) (hpt : pt = frameWord r)
    (vpn : Word) : pageTableQuery mem pt vpn = .ok (leafAnswer (mapping r (slots vpn 5))) := by
  have hroot := h.root_pointer hr hpt
  rcases h.queryWalk_cases vpn le_rfl (h.own_start hr) with
    ⟨hreturned, hnone⟩ | ⟨m, hreached, hm⟩
  · have hunmapped : mapping r (slots vpn 5) = none := by
      rw [Option.eq_none_iff_forall_ne_some, slots_succ]
      intro ppn hmapped
      obtain ⟨m, hm⟩ := h.covered (slots_length vpn 4) hmapped
      exact hnone m hm
    simp only [pageTableQuery, hroot, hreturned, hunmapped, leafAnswer]
  · obtain ⟨_, frame, hpage⟩ := h.frame_of_own hm
    have hleaf := h.leaf hm (slots_length vpn 4) hpage (slot vpn 0)
    rw [slots_succ, ← leafEntry_answer, Nat.sub_self, ← hleaf]
    simp only [pageTableQuery, hroot, hreached, load_slot vpn hpage]
    split <;> rfl

end Rules

end OSCourse.PageTableWalk
