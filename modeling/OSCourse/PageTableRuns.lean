import OSCourse.Runs
import OSCourse.PageTableWalk

/-!
# Runs of the page table against a finite map

A run creates roots with `alloc_page_frame` and then updates and queries
page numbers under them. Seen from outside it is a finite map from roots
and the bits 12 to 56 of a page number to page frame numbers of 52 bits.
Bits 0 to 11 of a page number are not looked at, so that 4096 consecutive
page numbers share one mapping; the law that every page number has a
mapping of its own holds exactly of the histories that do not notice.
-/

namespace OSCourse.PageTableRuns

open Runs PageTableMemory HeapForest PageTableWalk

/-- The memory and the roots obtained so far. -/
structure World where
  /-- The memory manager's state. -/
  mem : Memory
  /-- Page numbers returned for page table roots. -/
  roots : List Word

/-- The process before its first allocation. -/
def boot (mmapOk : ℕ → Bool) : World := ⟨initMemory mmapOk, []⟩

/-- One call of the interface with what it returned. -/
inductive Event where
  /-- `alloc_page_frame` for a new root. -/
  | root (pt : Word)
  /-- `page_table_update`. -/
  | update (pt vpn ppn : Word)
  /-- `page_table_query`. -/
  | query (pt vpn answer : Word)
  deriving DecidableEq

/-- The calls that return: exhausting the pool ends the process instead. -/
def Step (w : World) : Event → World → Prop
  | .root pt, w' => ∃ mem, allocPageFrame w.mem = .ok (pt, mem) ∧ w' = ⟨mem, pt :: w.roots⟩
  | .update pt vpn ppn, w' =>
    pt ∈ w.roots ∧ ∃ mem, pageTableUpdate w.mem pt vpn ppn = .ok mem ∧ w' = { w with mem := mem }
  | .query pt vpn answer, w' =>
    pt ∈ w.roots ∧ pageTableQuery w.mem pt vpn = .ok answer ∧ w' = w

/-- The finite map that the page tables stand for. -/
structure PageMap where
  /-- Roots created so far. -/
  roots : List Word
  /-- Mappings by root and key. -/
  mapping : Word → ℕ → Option Word

/-- No roots, no mappings. -/
def PageMap.empty : PageMap := ⟨[], fun _ _ => none⟩

/-- Replace the mapping of one key under one root. -/
def PageMap.set (m : PageMap) (pt : Word) (key : ℕ) (value : Option Word) : PageMap :=
  ⟨m.roots, fun q k => if q = pt ∧ k = key then value else m.mapping q k⟩

theorem PageMap.set_mapping (m : PageMap) (pt q : Word) (key k : ℕ) (value : Option Word) :
    (m.set pt key value).mapping q k = if q = pt ∧ k = key then value else m.mapping q k := rfl

/-- The map's own account of each call. -/
def MapStep (m : PageMap) : Event → PageMap → Prop
  | .root pt, m' => pt ∉ m.roots ∧ m' = { m with roots := pt :: m.roots }
  | .update pt vpn ppn, m' =>
    pt ∈ m.roots ∧ m' = m.set pt (pageKey vpn) (requested ppn)
  | .query pt vpn answer, m' =>
    pt ∈ m.roots ∧ answer = leafAnswer (m.mapping pt (pageKey vpn)) ∧ m' = m

/-- The representation relation: the roots are the page numbers of the root
frames, and the heap holds the mappings of the map at every key. -/
structure Represents (w : World) (m : PageMap) : Prop where
  /-- The same roots on both sides. -/
  roots_eq : m.roots = w.roots
  /-- Nothing is mapped under what is not a root. -/
  rootless : ∀ pt, pt ∉ m.roots → ∀ key, m.mapping pt key = none
  /-- The heap is a forest that holds these mappings. -/
  heap : ∃ frames own mapping, Holds w.mem frames own mapping ∧
    (∀ pt, pt ∈ w.roots ↔ ∃ n ∈ frames, pt = frameWord n) ∧
    ∀ n ∈ frames, ∀ vpn, mapping n (slots vpn 5) = m.mapping (frameWord n) (pageKey vpn)

variable {w w' : World} {m : PageMap} {mmapOk : ℕ → Bool} {es : List Event} {pt vpn ppn : Word}

/-- Before the first call there is nothing to represent. -/
theorem represents_boot (mmapOk : ℕ → Bool) : Represents (boot mmapOk) .empty where
  roots_eq := rfl
  rootless _ _ _ := rfl
  heap := by
    refine ⟨∅, fun _ => none, fun _ _ => none, ⟨?_, ?_, ?_, ?_, ?_, ?_⟩, ?_, ?_⟩
    · constructor <;> simp
    all_goals simp [boot, initMemory]

/-- A query of a root answers from the map. -/
theorem Represents.query_eq (h : Represents w m) (hpt : pt ∈ w.roots) (vpn : Word) :
    pageTableQuery w.mem pt vpn = .ok (leafAnswer (m.mapping pt (pageKey vpn))) := by
  obtain ⟨frames, own, mapping, hholds, hroots, hmapping⟩ := h.heap
  obtain ⟨n, hn, hword⟩ := (hroots pt).mp hpt
  rw [hholds.query_eq hn hword, hmapping n hn, hword]

/-- An update of a root never leaves the allocated tables, and if it returns
the map has changed at its key and nowhere else. -/
theorem Represents.update_cases (h : Represents w m) (hpt : pt ∈ w.roots) (vpn ppn : Word) :
    (∃ fault, pageTableUpdate w.mem pt vpn ppn = .error fault ∧ fault ≠ .badAccess) ∨
      ∃ mem, pageTableUpdate w.mem pt vpn ppn = .ok mem ∧
        Represents { w with mem := mem } (m.set pt (pageKey vpn) (requested ppn)) := by
  obtain ⟨frames, own, mapping, hholds, hroots, hmapping⟩ := h.heap
  obtain ⟨n, hn, hword⟩ := (hroots pt).mp hpt
  rcases hholds.update_cases hn hword vpn ppn with hfail | ⟨mem, own', hok, hholds', -⟩
  · exact .inl hfail
  · refine .inr ⟨mem, hok, h.roots_eq, ?_, frames, own', _, hholds', hroots, ?_⟩
    · intro q hq key
      have hne : q ≠ pt := by
        rintro rfl
        exact hq (h.roots_eq ▸ hpt)
      simp only [PageMap.set, hne, false_and, if_false]
      exact h.rootless q hq key
    · intro k hk vpn'
      have hbound := (hholds.frame_of_own (hholds.forest.root_own k hk)).1
      have hbound' := (hholds.frame_of_own (hholds.forest.root_own n hn)).1
      have hsame : k = n ↔ frameWord k = pt := by
        rw [hword]
        exact ⟨fun heq => by rw [heq], fun heq => frameWord_inj hbound hbound' heq⟩
      simp only [Mapping.set, PageMap.set, hsame, slots_eq_iff, hmapping k hk]

/-- A new root is represented by an unused name without mappings. -/
theorem Represents.root_step (h : Represents w m) (hstep : Step w (.root pt) w') :
    pt ∉ m.roots ∧ Represents w' { m with roots := pt :: m.roots } := by
  obtain ⟨mem, halloc, rfl⟩ := hstep
  obtain ⟨frames, own, mapping, hholds, hroots, hmapping⟩ := h.heap
  rcases allocPageFrame_cases w.mem with hfail | hfail | ⟨hfull, hok⟩
  · rw [hfail] at halloc
    cases halloc
  · rw [hfail] at halloc
    cases halloc
  · rw [hok] at halloc
    obtain ⟨hword, hmem⟩ : frameWord w.mem.nalloc = pt ∧ _ = mem := by simpa using halloc
    have hnew : pt ∉ w.roots := by
      intro hpt
      obtain ⟨n, hn, hword'⟩ := (hroots pt).mp hpt
      have hroot := hholds.forest.root_own n hn
      have hsame := frameWord_inj (hholds.next_lt hfull) (hholds.frame_of_own hroot).1
        (hword.trans hword')
      rw [← hsame, hholds.next_unowned] at hroot
      cases hroot
    refine ⟨h.roots_eq ▸ hnew, by simp [h.roots_eq], ?_, insert w.mem.nalloc frames, _, mapping,
      hmem ▸ hholds.plant hfull, ?_, ?_⟩
    · intro q hq key
      exact h.rootless q (fun hmem' => hq (List.mem_cons_of_mem _ hmem')) key
    · intro q
      simp only [List.mem_cons, hroots q, Set.mem_insert_iff, exists_eq_or_imp, hword]
    · intro n hn vpn
      rcases Set.mem_insert_iff.mp hn with rfl | hn
      · have hunowned : mapping w.mem.nalloc (slots vpn 5) = none := by
          rw [Option.eq_none_iff_forall_ne_some, slots_succ]
          intro ppn hmapped
          obtain ⟨k, hk⟩ := hholds.covered (slots_length vpn 4) hmapped
          have hroot := hholds.forest.root_own _ (hholds.forest.short hk).1
          rw [hholds.next_unowned] at hroot
          cases hroot
        rw [hunowned, hword, h.rootless pt (h.roots_eq ▸ hnew)]
      · exact hmapping n hn vpn

/-- Every returning call is a step of the map with the same answer. -/
theorem Represents.step {e : Event} (h : Represents w m) (hstep : Step w e w') :
    ∃ m', MapStep m e m' ∧ Represents w' m' := by
  cases e with
  | root pt =>
    obtain ⟨hnew, hrep⟩ := h.root_step hstep
    exact ⟨_, ⟨hnew, rfl⟩, hrep⟩
  | update pt vpn ppn =>
    obtain ⟨hpt, mem, hok, rfl⟩ := hstep
    rcases h.update_cases hpt vpn ppn with ⟨fault, hfail, -⟩ | ⟨mem', hok', hrep⟩
    · rw [hfail] at hok
      cases hok
    · rw [hok] at hok'
      cases hok'
      exact ⟨_, ⟨h.roots_eq ▸ hpt, rfl⟩, hrep⟩
  | query pt vpn answer =>
    obtain ⟨hpt, hanswer, rfl⟩ := hstep
    rw [h.query_eq hpt] at hanswer
    exact ⟨m, ⟨h.roots_eq ▸ hpt, by simpa using hanswer.symm, rfl⟩, h⟩

/-- The page number an update of the history asked for, under one root and
for the page numbers of interest. -/
def updateOf (pt : Word) (ofInterest : Word → Bool) : Event → Option Word
  | .update q vpn ppn => if q = pt ∧ ofInterest vpn = true then some ppn else none
  | _ => none

/-- The map after a history is the newest update of each key. -/
theorem mapping_newest (run : Run MapStep .empty es m) (pt : Word) (key : ℕ) :
    m.mapping pt key = (newest (updateOf pt fun v => pageKey v = key) es).bind requested := by
  induction run with
  | nil => rfl
  | @snoc es m e m' _ hstep ih =>
    cases e with
    | root q =>
      obtain ⟨-, rfl⟩ := hstep
      rw [newest_snoc_none rfl]
      exact ih
    | query q v answer =>
      obtain ⟨-, -, rfl⟩ := hstep
      rw [newest_snoc_none rfl]
      exact ih
    | update q v ppn =>
      obtain ⟨-, rfl⟩ := hstep
      by_cases hkey : q = pt ∧ pageKey v = key
      · have hanswer : updateOf pt (fun v => pageKey v = key) (.update q v ppn) = some ppn := by
          simp [updateOf, hkey]
        rw [newest_snoc_some hanswer, Option.bind_some, PageMap.set_mapping,
          if_pos ⟨hkey.1.symm, hkey.2.symm⟩]
      · have hsilent : updateOf pt (fun v => pageKey v = key) (.update q v ppn) = none := by
          simp only [updateOf, decide_eq_true_eq, if_neg hkey]
        rw [newest_snoc_none hsilent, ← ih, PageMap.set_mapping, if_neg (by tauto)]

/-- The history of a run seen as a history of the map. -/
theorem run_represents (run : Run Step (boot mmapOk) es w) :
    ∃ m, Run MapStep .empty es m ∧ Represents w m :=
  run.simulate (fun _ _ _ _ h hstep => h.step hstep) (represents_boot mmapOk)

/-- The mapping the newest update of a key left, if any. -/
def lastMapping (es : List Event) (pt : Word) (key : ℕ) : Option Word :=
  (newest (updateOf pt fun v => pageKey v = key) es).bind requested

/-- Every run is a run of the finite map, call by call and answer by answer.
In the state it reaches no walk leaves the allocated tables, a query answers
from the newest update of its root and key and changes nothing, and an
update changes no answer under another root. -/
theorem pageTable_refines_map (run : Run Step (boot mmapOk) es w) :
    (∃ m, Run MapStep .empty es m ∧ m.roots = w.roots ∧
      ∀ pt key, m.mapping pt key = lastMapping es pt key) ∧
    (∀ pt ∈ w.roots, ∀ vpn,
      pageTableQuery w.mem pt vpn = .ok (leafAnswer (lastMapping es pt (pageKey vpn)))) ∧
    (∀ pt ∈ w.roots, ∀ vpn ppn, pageTableUpdate w.mem pt vpn ppn ≠ .error .badAccess) ∧
    (∀ pt vpn answer w', Step w (.query pt vpn answer) w' → w' = w) ∧
    ∀ pt q v ppn w', Step w (.update q v ppn) w' → pt ∈ w.roots → pt ≠ q → ∀ vpn,
      pageTableQuery w'.mem pt vpn = pageTableQuery w.mem pt vpn := by
  obtain ⟨m, hmap, hrep⟩ := run_represents run
  have hmapping := mapping_newest hmap
  refine ⟨⟨m, hmap, hrep.roots_eq, hmapping⟩, ?_, ?_, ?_, ?_⟩
  · intro pt hpt vpn
    rw [hrep.query_eq hpt, hmapping, lastMapping]
  · intro pt hpt vpn ppn hbad
    rcases hrep.update_cases hpt vpn ppn with ⟨fault, hfail, hfault⟩ | ⟨mem, hok, -⟩
    · rw [hfail] at hbad
      cases hbad
      exact hfault rfl
    · rw [hok] at hbad
      cases hbad
  · rintro pt vpn answer w' ⟨-, -, rfl⟩
    rfl
  · intro pt q v ppn w' hstep hpt hne vpn
    obtain ⟨m', hmap', hrep'⟩ := hrep.step hstep
    obtain ⟨hq, mem, -, rfl⟩ := hstep
    obtain ⟨-, rfl⟩ := hmap'
    rw [hrep'.query_eq hpt, hrep.query_eq hpt]
    simp only [PageMap.set, hne, false_and, if_false]

/-- The answer a history intends: the page frame number of the newest update
to exactly this root and this page number. -/
def intendedAnswer (es : List Event) (pt vpn : Word) : Word :=
  (newest (updateOf pt fun v => v = vpn) es).getD noMapping

/-- The page frame number of the newest update to any page number that
agrees with this one in the bits 12 to 56. -/
def sharedAnswer (es : List Event) (pt vpn : Word) : Word :=
  (newest (updateOf pt fun v => pageKey v = pageKey vpn) es).getD noMapping

/-- The law of a page table: every 45-bit page number has its own mapping. -/
def IntendedLaw (es : List Event) (w : World) : Prop :=
  ∀ pt ∈ w.roots, ∀ vpn, vpn.toNat < 2 ^ 45 →
    pageTableQuery w.mem pt vpn = .ok (intendedAnswer es pt vpn)

/-- Updates ask for a page frame number of 52 bits or for no mapping. -/
def PlainUpdates (es : List Event) : Prop :=
  ∀ pt vpn ppn, Event.update pt vpn ppn ∈ es → ppn = noMapping ∨ ppn.toNat < 2 ^ 52

/-- Page frame numbers of 52 bits come back as they were stored. -/
theorem leafAnswer_requested {ppn : Word} (h : ppn = noMapping ∨ ppn.toNat < 2 ^ 52) :
    leafAnswer (requested ppn) = ppn := by
  unfold requested
  split
  · rename_i hnone
    rw [hnone, leafAnswer]
  · rename_i hsome
    have hlt := h.resolve_left hsome
    rw [leafAnswer, Nat.mod_eq_of_lt hlt, BitVec.ofNat_toNat, BitVec.setWidth_eq]

/-- With plain updates a query answers with the newest update of its key. -/
theorem leafAnswer_lastMapping (hplain : PlainUpdates es) (pt vpn : Word) :
    leafAnswer (lastMapping es pt (pageKey vpn)) = sharedAnswer es pt vpn := by
  rw [lastMapping, sharedAnswer]
  cases hnewest : newest (updateOf pt fun v => pageKey v = pageKey vpn) es with
  | none => rfl
  | some ppn =>
    obtain ⟨e, he, hupdate⟩ := newest_mem hnewest
    cases e with
    | root q => cases hupdate
    | query q v answer => cases hupdate
    | update q v ppn' =>
      simp only [updateOf] at hupdate
      split at hupdate
      · cases hupdate
        exact leafAnswer_requested (hplain q v ppn he)
      · cases hupdate

/-- After a history of plain updates a query of a root answers with the
newest update that shares the bits 12 to 56. -/
theorem query_shared (run : Run Step (boot mmapOk) es w) (hplain : PlainUpdates es)
    (hpt : pt ∈ w.roots) (vpn : Word) :
    pageTableQuery w.mem pt vpn = .ok (sharedAnswer es pt vpn) := by
  obtain ⟨m, hmap, hrep⟩ := run_represents run
  rw [hrep.query_eq hpt, mapping_newest hmap, ← lastMapping, leafAnswer_lastMapping hplain]

/-- The law of a page table holds after a history exactly when, for every
root and 45-bit page number, the newest update among the page numbers that
share the bits 12 to 56 carries the page frame number of the newest update
to the page number itself. -/
theorem intendedLaw_iff (run : Run Step (boot mmapOk) es w) (hplain : PlainUpdates es) :
    IntendedLaw es w ↔ ∀ pt ∈ w.roots, ∀ vpn, vpn.toNat < 2 ^ 45 →
      sharedAnswer es pt vpn = intendedAnswer es pt vpn := by
  constructor
  · intro hlaw pt hpt vpn hvpn
    have hanswer := hlaw pt hpt vpn hvpn
    rw [query_shared run hplain hpt] at hanswer
    simpa using hanswer
  · intro hagree pt hpt vpn hvpn
    rw [query_shared run hplain hpt, hagree pt hpt vpn hvpn]

/-- The first root of a process. -/
def firstRoot : Word := 0xbaaaaaad

/-- Two neighbouring page numbers mapped under the first root. -/
def neighbours : List Event :=
  [.root firstRoot, .update firstRoot 0xabc 0x123, .update firstRoot 0xabd 0x456]

/-- The two updates return. -/
theorem neighbours_run :
    ∃ w, Run Step (boot fun _ => true) neighbours w ∧ firstRoot ∈ w.roots := by
  refine ⟨_, ((Run.nil.snoc ⟨_, rfl, rfl⟩).snoc ⟨?_, _, rfl, rfl⟩).snoc ⟨?_, _, rfl, rfl⟩, ?_⟩
  all_goals exact List.mem_cons_self

/-- Both updates are plain. -/
theorem neighbours_plain : PlainUpdates neighbours := by
  intro pt vpn ppn hmem
  simp only [neighbours, List.mem_cons, reduceCtorEq, Event.update.injEq, List.not_mem_nil,
    or_false, false_or] at hmem
  rcases hmem with ⟨-, -, rfl⟩ | ⟨-, -, rfl⟩ <;> exact .inr (by decide)

/-- Mapping 0xabd changes the answer for 0xabc: the law fails. -/
theorem intendedLaw_fails : ∃ w, Run Step (boot fun _ => true) neighbours w ∧
    PlainUpdates neighbours ∧ ¬ IntendedLaw neighbours w := by
  obtain ⟨w, run, hroot⟩ := neighbours_run
  refine ⟨w, run, neighbours_plain, fun hlaw => ?_⟩
  have hanswer := hlaw firstRoot hroot 0xabc (by decide)
  rw [query_shared run neighbours_plain hroot] at hanswer
  exact absurd hanswer (by decide)

/-- The condition of the law evaluated on the neighbouring updates. -/
theorem intendedLaw_iff_neighbours : ∃ w, Run Step (boot fun _ => true) neighbours w ∧
    (IntendedLaw neighbours w ↔ ∀ pt ∈ w.roots, ∀ vpn, vpn.toNat < 2 ^ 45 →
      sharedAnswer neighbours pt vpn = intendedAnswer neighbours pt vpn) := by
  obtain ⟨w, run, -⟩ := neighbours_run
  exact ⟨w, run, intendedLaw_iff run neighbours_plain⟩

/-- The finite map of the neighbouring updates: both page numbers have the
key 0, which holds the second update. -/
theorem pageTable_refines_map_neighbours : ∃ w, Run Step (boot fun _ => true) neighbours w ∧
    pageTableQuery w.mem firstRoot 0xabc = .ok (leafAnswer (some 0x456)) := by
  obtain ⟨w, run, hroot⟩ := neighbours_run
  exact ⟨w, run, (pageTable_refines_map run).2.1 firstRoot hroot 0xabc⟩

end OSCourse.PageTableRuns
