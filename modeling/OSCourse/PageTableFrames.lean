import Mathlib.Data.Finset.Card
import Mathlib.Data.Finset.Image
import OSCourse.PageTableRuns

/-!
# How many frames page tables take

Every frame handed out is the table of one root and one beginning of the
indices of some mapped page number, and every such beginning has its frame.
So the number of frames is a number of distinct beginnings over the whole
history, which unmapping, remapping and the order of updates do not change.
-/

namespace OSCourse.PageTableFrames

open Runs PageTableMemory HeapForest PageTableWalk PageTableRuns

/-- Below the root of an update that maps: the root with the first indices. -/
def needs : Event → List (Word × List (Fin 512))
  | .update pt vpn ppn =>
    if ppn = noMapping then [] else (List.range 4).map fun j => (pt, slots vpn (j + 1))
  | _ => []

/-- The distinct pairs of a root and the first one to four indices of a page
number that some update of the history mapped. -/
def prefixes (es : List Event) : Finset (Word × List (Fin 512)) := (es.flatMap needs).toFinset

/-- A call that makes a root. -/
def isRoot : Event → Bool
  | .root _ => true
  | _ => false

/-- A call that is not a query. -/
def changes : Event → Bool
  | .query _ _ _ => false
  | _ => true

/-- A call with another name for its root. -/
def Event.rename (σ : Word → Word) : Event → Event
  | .root pt => .root (σ pt)
  | .update pt vpn ppn => .update (σ pt) vpn ppn
  | .query pt vpn answer => .query (σ pt) vpn answer

variable {w w' : World} {mmapOk : ℕ → Bool} {es es' : List Event} {e : Event}
  {pt vpn ppn : Word} {x : Word × List (Fin 512)}

theorem mem_prefixes : x ∈ prefixes es ↔ ∃ e ∈ es, x ∈ needs e := by
  simp [prefixes]

theorem prefixes_snoc (es : List Event) (e : Event) :
    prefixes (es ++ [e]) = prefixes es ∪ (needs e).toFinset := by
  rw [prefixes, List.flatMap_append, List.toFinset_append, List.flatMap_singleton, prefixes]

/-- What an update needs. -/
theorem mem_needs_update :
    x ∈ needs (.update pt vpn ppn) ↔ ppn ≠ noMapping ∧ ∃ j < 4, x = (pt, slots vpn (j + 1)) := by
  by_cases hppn : ppn = noMapping
  · simp [needs, hppn]
  · simp [needs, hppn, eq_comm]

/-- Beginnings of at least one index are needed. -/
theorem ne_nil_of_mem_needs (h : x ∈ needs e) : x.2 ≠ [] := by
  cases e with
  | root => cases h
  | query => cases h
  | update pt vpn ppn =>
    obtain ⟨_, j, _, rfl⟩ := mem_needs_update.mp h
    intro hnil
    have hlength := congrArg List.length hnil
    rw [slots_length] at hlength
    cases hlength

/-- The frames in use: one for each root and one for each needed beginning. -/
structure Tables (w : World) (es : List Event) : Prop where
  /-- The tables in the heap are those of the roots and the beginnings. -/
  heap : ∃ frames own mapping, Holds w.mem frames own mapping ∧
    (∀ pt, pt ∈ w.roots ↔ ∃ n ∈ frames, pt = frameWord n) ∧
    ∀ r ∈ frames, ∀ path, (∃ n, own n = some (r, path)) ↔
      path = [] ∨ (frameWord r, path) ∈ prefixes es
  /-- Beginnings belong to roots. -/
  rooted : ∀ x ∈ prefixes es, x.1 ∈ w.roots
  /-- No root was handed out twice. -/
  nodup : w.roots.Nodup
  /-- As many roots as calls for one. -/
  length_eq : w.roots.length = es.countP isRoot

/-- Before the first call no frame is in use. -/
theorem tables_boot (mmapOk : ℕ → Bool) : Tables (boot mmapOk) [] where
  heap := by
    refine ⟨∅, fun _ => none, fun _ _ => none, ⟨?_, ?_, ?_, ?_, ?_, ?_⟩, ?_, ?_⟩
    · constructor <;> simp
    all_goals simp [boot, initMemory]
  rooted := by simp [prefixes]
  nodup := List.nodup_nil
  length_eq := rfl

/-- A new root takes the next frame. -/
theorem Tables.root_step (h : Tables w es) (hstep : Step w (.root pt) w') :
    Tables w' (es ++ [.root pt]) := by
  obtain ⟨mem, halloc, rfl⟩ := hstep
  obtain ⟨frames, own, mapping, hholds, hroots, htables⟩ := h.heap
  have hprefixes : prefixes (es ++ [.root pt]) = prefixes es := by
    rw [prefixes_snoc]
    simp [needs]
  rcases allocPageFrame_cases w.mem with hfail | hfail | ⟨hfull, hok⟩
  · rw [hfail] at halloc
    cases halloc
  · rw [hfail] at halloc
    cases halloc
  · rw [hok] at halloc
    obtain ⟨rfl, rfl⟩ : frameWord w.mem.nalloc = pt ∧ _ = mem := by simpa using halloc
    have hfresh := hholds.next_unowned
    have hnotFrame : w.mem.nalloc ∉ frames := fun hmem => by
      rw [hholds.forest.root_own _ hmem] at hfresh
      cases hfresh
    have hnew : frameWord w.mem.nalloc ∉ w.roots := by
      intro hpt
      obtain ⟨n, hn, hword⟩ := (hroots _).mp hpt
      have hroot := hholds.forest.root_own n hn
      rw [frameWord_inj (hholds.next_lt hfull) (hholds.frame_of_own hroot).1 hword] at hnotFrame
      exact hnotFrame hn
    refine ⟨⟨insert w.mem.nalloc frames, _, mapping, hholds.plant hfull, ?_, ?_⟩, ?_, ?_, ?_⟩
    · intro q
      simp only [List.mem_cons, hroots q, Set.mem_insert_iff, exists_eq_or_imp]
    · intro r hr path
      rw [hprefixes]
      rcases Set.mem_insert_iff.mp hr with rfl | hr
      · constructor
        · rintro ⟨n, hn⟩
          by_cases hnm : n = w.mem.nalloc
          · subst hnm
            rw [Function.update_self] at hn
            cases hn
            exact .inl rfl
          · rw [Function.update_of_ne hnm] at hn
            exact absurd (hholds.forest.short hn).1 hnotFrame
        · rintro (rfl | hmem)
          · exact ⟨_, Function.update_self ..⟩
          · exact absurd (h.rooted _ hmem) hnew
      · rw [← htables r hr path]
        have hne : r ≠ w.mem.nalloc := fun heq => hnotFrame (heq ▸ hr)
        refine exists_congr fun n => ?_
        by_cases hnm : n = w.mem.nalloc
        · subst hnm
          rw [Function.update_self, hfresh]
          simp [hne.symm]
        · rw [Function.update_of_ne hnm]
    · rw [hprefixes]
      exact fun x hx => List.mem_cons_of_mem _ (h.rooted x hx)
    · exact List.nodup_cons.mpr ⟨hnew, h.nodup⟩
    · rw [List.countP_append, List.length_cons, h.length_eq]
      rfl

/-- An update takes a frame for each beginning that was not needed before. -/
theorem Tables.update_step (h : Tables w es) (hstep : Step w (.update pt vpn ppn) w') :
    Tables w' (es ++ [.update pt vpn ppn]) := by
  obtain ⟨hpt, mem, hok, rfl⟩ := hstep
  obtain ⟨frames, own, mapping, hholds, hroots, htables⟩ := h.heap
  obtain ⟨n, hn, rfl⟩ := (hroots pt).mp hpt
  rcases hholds.update_cases hn rfl vpn ppn with
    ⟨fault, hfail, -⟩ | ⟨mem', own', hok', hholds', hgrown, hwhole⟩
  · rw [hfail] at hok
    cases hok
  · rw [hok'] at hok
    obtain rfl : mem' = mem := by simpa using hok
    have hbound := fun {k x} (hk : own k = some x) => (hholds.frame_of_own hk).1
    refine ⟨⟨frames, own', _, hholds', hroots, fun r hr path => ?_⟩, fun x hx => ?_, h.nodup, ?_⟩
    · simp only [prefixes_snoc, Finset.mem_union, List.mem_toFinset, mem_needs_update,
        Prod.mk.injEq]
      constructor
      · rintro ⟨k, hk⟩
        rcases hgrown.adds k _ hk with hold | ⟨hppn, j, hj, heq⟩
        · exact ((htables r hr path).mp ⟨k, hold⟩).imp_right .inl
        · cases heq
          exact .inr (.inr ⟨hppn, j, hj, rfl, rfl⟩)
      · rintro (hnil | hold | ⟨hppn, j, hj, hword, hpath⟩)
        · obtain ⟨k, hk⟩ := (htables r hr path).mpr (.inl hnil)
          exact ⟨k, hgrown.keeps k _ hk⟩
        · obtain ⟨k, hk⟩ := (htables r hr path).mpr (.inr hold)
          exact ⟨k, hgrown.keeps k _ hk⟩
        · obtain rfl := frameWord_inj (hbound (hholds.forest.root_own r hr))
            (hbound (hholds.forest.root_own n hn)) hword
          obtain ⟨m, hm⟩ := hwhole hppn
          obtain ⟨more, hmore⟩ := slots_extend vpn (j + 1) (4 - (j + 1))
          rw [Nat.add_sub_cancel' (by omega), ← hpath] at hmore
          rw [hmore] at hm
          exact hholds'.forest.own_beginning hm
    · rw [prefixes_snoc, Finset.mem_union, List.mem_toFinset, mem_needs_update] at hx
      rcases hx with hold | ⟨_, j, _, rfl⟩
      · exact h.rooted x hold
      · exact hpt
    · rw [List.countP_append, h.length_eq]
      rfl

/-- Every call keeps the account. -/
theorem Tables.step (h : Tables w es) (hstep : Step w e w') : Tables w' (es ++ [e]) := by
  cases e with
  | root pt => exact h.root_step hstep
  | update pt vpn ppn => exact h.update_step hstep
  | query pt vpn answer =>
    obtain ⟨_, _, rfl⟩ := hstep
    have hprefixes : prefixes (es ++ [.query pt vpn answer]) = prefixes es := by
      rw [prefixes_snoc]
      simp [needs]
    refine ⟨?_, ?_, h.nodup, ?_⟩
    · rw [hprefixes]
      exact h.heap
    · rw [hprefixes]
      exact h.rooted
    · rw [List.countP_append, h.length_eq]
      rfl

/-- The account of a whole run. -/
theorem tables_of_run (run : Run Step (boot mmapOk) es w) : Tables w es := by
  induction run with
  | nil => exact tables_boot mmapOk
  | snoc _ hlast ih => exact ih.step hlast

/-- The owner of a frame, by the page number of its root. -/
def ownerWord (own : Ownership ℕ (Fin 512)) (n : ℕ) : Word × List (Fin 512) :=
  match own n with
  | some (r, path) => (frameWord r, path)
  | none => (0, [])

/-- Frames and their owners correspond one to one. -/
theorem Tables.nalloc_eq (h : Tables w es) :
    w.mem.nalloc = es.countP isRoot + (prefixes es).card := by
  obtain ⟨frames, own, mapping, hholds, hroots, htables⟩ := h.heap
  have howner : ∀ n < w.mem.nalloc, ∃ r path, own n = some (r, path) ∧ r ∈ frames ∧
      r < numPages ∧ ownerWord own n = (frameWord r, path) := by
    intro n hn
    obtain ⟨⟨r, path⟩, hx⟩ := (hholds.owned n).mpr hn
    have hr := (hholds.forest.short hx).1
    refine ⟨r, path, hx, hr, (hholds.frame_of_own (hholds.forest.root_own r hr)).1, ?_⟩
    simp only [ownerWord, hx]
  have hcard : (Finset.range w.mem.nalloc).card =
      (w.roots.toFinset.image (fun pt => (pt, ([] : List (Fin 512)))) ∪ prefixes es).card := by
    refine Finset.card_nbij (ownerWord own) ?_ ?_ ?_
    · intro n hn
      obtain ⟨r, path, hx, hr, _, hword⟩ := howner n (Finset.mem_range.mp hn)
      rw [hword, Finset.mem_coe, Finset.mem_union, Finset.mem_image]
      rcases (htables r hr path).mp ⟨n, hx⟩ with rfl | hmem
      · exact .inl ⟨frameWord r, List.mem_toFinset.mpr ((hroots _).mpr ⟨r, hr, rfl⟩), rfl⟩
      · exact .inr hmem
    · intro n hn m hm heq
      obtain ⟨r, path, hx, _, hbound, hword⟩ := howner n (Finset.mem_range.mp hn)
      obtain ⟨r', path', hx', _, hbound', hword'⟩ := howner m (Finset.mem_range.mp hm)
      rw [hword, hword', Prod.mk.injEq] at heq
      obtain ⟨hroot, rfl⟩ := heq
      obtain rfl := frameWord_inj hbound hbound' hroot
      exact hholds.forest.unique hx hx'
    · rintro ⟨q, path⟩ hq
      have hown : ∃ r ∈ frames, q = frameWord r ∧ ∃ n, own n = some (r, path) := by
        rcases Finset.mem_union.mp (Finset.mem_coe.mp hq) with hroot | hmem
        · obtain ⟨_, hpt, heq⟩ := Finset.mem_image.mp hroot
          cases heq
          obtain ⟨r, hr, rfl⟩ := (hroots q).mp (List.mem_toFinset.mp hpt)
          exact ⟨r, hr, rfl, (htables r hr []).mpr (.inl rfl)⟩
        · obtain ⟨r, hr, rfl⟩ := (hroots q).mp (h.rooted _ hmem)
          exact ⟨r, hr, rfl, (htables r hr path).mpr (.inr hmem)⟩
      obtain ⟨r, hr, rfl, n, hn⟩ := hown
      refine ⟨n, Finset.mem_coe.mpr (Finset.mem_range.mpr ((hholds.owned n).mp ⟨_, hn⟩)), ?_⟩
      simp only [ownerWord, hn]
  have hdisjoint : Disjoint (w.roots.toFinset.image fun pt => (pt, ([] : List (Fin 512))))
      (prefixes es) := by
    rw [Finset.disjoint_left]
    intro x hx hmem
    obtain ⟨_, _, rfl⟩ := Finset.mem_image.mp hx
    obtain ⟨e, _, he⟩ := mem_prefixes.mp hmem
    exact ne_nil_of_mem_needs he rfl
  rw [Finset.card_range, Finset.card_union_of_disjoint hdisjoint,
    Finset.card_image_of_injective _ fun a b hab => (Prod.mk.inj hab).1,
    List.toFinset_card_of_nodup h.nodup, h.length_eq] at hcard
  exact hcard

/-- Renaming the roots renames the beginnings. -/
theorem needs_rename (σ : Word → Word) (e : Event) :
    needs (Event.rename σ e) = (needs e).map fun x => (σ x.1, x.2) := by
  cases e with
  | root => rfl
  | query => rfl
  | update pt vpn ppn =>
    simp only [Event.rename, needs]
    split
    · rfl
    · rw [List.map_map]
      rfl

/-- Queries need no table. -/
theorem prefixes_filter (es : List Event) : prefixes (es.filter changes) = prefixes es := by
  ext x
  simp only [mem_prefixes, List.mem_filter]
  constructor
  · rintro ⟨e, ⟨he, _⟩, hx⟩
    exact ⟨e, he, hx⟩
  · rintro ⟨e, he, hx⟩
    refine ⟨e, ⟨he, ?_⟩, hx⟩
    cases e with
    | query => cases hx
    | root => rfl
    | update => rfl

/-- Queries make no root. -/
theorem countP_filter_changes (es : List Event) :
    (es.filter changes).countP isRoot = es.countP isRoot := by
  rw [List.countP_filter]
  refine List.countP_congr fun e _ => ?_
  cases e <;> simp [isRoot, changes]

/-- The updates of a history in another order and with other names for the
roots need as many tables. -/
theorem card_prefixes_rename {σ : Word → Word} (h : Tables w es)
    (hσ : Set.InjOn σ {pt | pt ∈ w.roots})
    (hperm : ((es.filter changes).map (Event.rename σ)).Perm (es'.filter changes)) :
    (prefixes es').card = (prefixes es).card ∧ es'.countP isRoot = es.countP isRoot := by
  constructor
  · have himage : prefixes es' = (prefixes es).image fun x => (σ x.1, x.2) := by
      rw [← prefixes_filter es', ← prefixes_filter es]
      ext x
      simp only [mem_prefixes, Finset.mem_image, ← hperm.mem_iff, List.mem_map]
      constructor
      · rintro ⟨_, ⟨e, he, rfl⟩, hx⟩
        rw [needs_rename, List.mem_map] at hx
        obtain ⟨y, hy, rfl⟩ := hx
        exact ⟨y, ⟨e, he, hy⟩, rfl⟩
      · rintro ⟨y, ⟨e, he, hy⟩, rfl⟩
        refine ⟨_, ⟨e, he, rfl⟩, ?_⟩
        rw [needs_rename]
        exact List.mem_map_of_mem hy
    rw [himage]
    refine Finset.card_image_of_injOn fun x hx y hy heq => ?_
    rw [Prod.mk.injEq] at heq
    exact Prod.ext (hσ (h.rooted x hx) (h.rooted y hy) heq.1) heq.2
  · rw [← countP_filter_changes es', ← countP_filter_changes es, ← hperm.countP_eq,
      List.countP_map]
    refine List.countP_congr fun e _ => ?_
    cases e <;> simp [isRoot, Event.rename]

/-- Frame consumption: after every run the frames handed out are the roots
and the distinct beginnings of mapped page numbers; so an update takes at most
four, one without a mapping takes none, mapping again what was once mapped
takes none, and the calls in another order, with the names that the roots get
there, take as many. -/
theorem frame_consumption (run : Run Step (boot mmapOk) es w) :
    w.mem.nalloc = es.countP isRoot + (prefixes es).card ∧
    (∀ pt vpn ppn w', Step w (.update pt vpn ppn) w' →
      w'.mem.nalloc ≤ w.mem.nalloc + 4 ∧
      (ppn = noMapping → w'.mem.nalloc = w.mem.nalloc) ∧
      ((∃ ppn', ppn' ≠ noMapping ∧ Event.update pt vpn ppn' ∈ es) →
        w'.mem.nalloc = w.mem.nalloc)) ∧
    ∀ (mmapOk' : ℕ → Bool) (es' : List Event) (w' : World) (σ : Word → Word),
      Run Step (boot mmapOk') es' w' → Set.InjOn σ {pt | pt ∈ w.roots} →
      ((es.filter changes).map (Event.rename σ)).Perm (es'.filter changes) →
        w'.mem.nalloc = w.mem.nalloc := by
  have htables := tables_of_run run
  have hcount := htables.nalloc_eq
  refine ⟨hcount, fun pt vpn ppn w' hstep => ?_, fun mmapOk' es' w' σ run' hσ hperm => ?_⟩
  · have hcount' := (htables.step hstep).nalloc_eq
    have hroots : (es ++ [Event.update pt vpn ppn]).countP isRoot = es.countP isRoot := by
      rw [List.countP_append]
      rfl
    rw [hroots, prefixes_snoc] at hcount'
    have hunchanged : needs (.update pt vpn ppn) ⊆ (es.flatMap needs) →
        w'.mem.nalloc = w.mem.nalloc := by
      intro hsub
      have hunion : prefixes es ∪ (needs (.update pt vpn ppn)).toFinset = prefixes es := by
        rw [Finset.union_eq_left]
        intro x hx
        exact List.mem_toFinset.mpr (hsub (List.mem_toFinset.mp hx))
      rw [hunion] at hcount'
      rw [hcount', hcount]
    refine ⟨?_, fun hppn => hunchanged ?_, fun ⟨ppn', hppn', hmem⟩ => hunchanged ?_⟩
    · have hunion := Finset.card_union_le (prefixes es) (needs (.update pt vpn ppn)).toFinset
      have hneeds : (needs (.update pt vpn ppn)).length ≤ 4 := by
        by_cases hppn : ppn = noMapping <;> simp [needs, hppn]
      have hcard := List.toFinset_card_le (needs (.update pt vpn ppn))
      omega
    · simp [needs, hppn]
    · intro x hx
      obtain ⟨_, j, hj, rfl⟩ := mem_needs_update.mp hx
      exact List.mem_flatMap.mpr ⟨_, hmem, mem_needs_update.mpr ⟨hppn', j, hj, rfl⟩⟩
  · obtain ⟨hprefixes, hroots⟩ := card_prefixes_rename htables hσ hperm
    rw [(tables_of_run run').nalloc_eq, hprefixes, hroots, hcount]

/-- The two neighbouring page numbers take the frames of one walk. -/
theorem frame_consumption_neighbours : ∃ w, Run Step (boot fun _ => true) neighbours w ∧
    w.mem.nalloc = 5 := by
  obtain ⟨w, run, -⟩ := neighbours_run
  refine ⟨w, run, ?_⟩
  rw [(frame_consumption run).1]
  decide

end OSCourse.PageTableFrames
