import Mathlib.Algebra.Group.Nat.Defs
import Mathlib.Logic.Function.Basic
import Mathlib.Tactic.Common

/-!
# Simulated physical memory and the words of a page table

The memory manager hands out 4096-byte frames numbered from a bias and
turns physical addresses back into pointers. Table nodes are arrays of 512
64-bit entries; a valid entry holds a frame number above its low twelve
bits and has bit 0 set. The shifts, masks and the bias are exact inverses
of each other on the frames of the pool.
-/

namespace OSCourse.PageTableMemory

/-- The `uint64_t` of page numbers, addresses and table entries. -/
abbrev Word := BitVec 64

/-- `NO_MAPPING`, all 64 bits set. -/
def noMapping : Word := ~~~0

/-- `NPAGES`, the size of the frame pool. -/
def numPages : ℕ := 1024 * 1024

/-- The constant added to the index of a frame to form its page number. -/
def frameBias : Word := 0xbaaaaaad

/-- A page seen as the array of `uint64_t` that table nodes are. -/
abbrev Frame := Fin 512 → Word

/-- The content of a page fresh from `mmap`. -/
def zeroFrame : Frame := fun _ => 0

/-- The ways a run of the memory manager or of a table walk can go wrong. -/
inductive Fault where
  /-- The pool is exhausted: `errx(1, "out of physical memory")`. -/
  | outOfMemory
  /-- `err(1, "mmap failed")`. -/
  | mmapFailed
  /-- An access through a null pointer or outside a table node. -/
  | badAccess
  deriving DecidableEq

/-- The static state of the memory manager. -/
structure Memory where
  /-- Frames handed out so far. -/
  nalloc : ℕ
  /-- The page array; absent entries are null. -/
  pages : ℕ → Option Frame
  /-- The answer of the system to the `mmap` of each frame. -/
  mmapOk : ℕ → Bool

/-- Memory before the first allocation. -/
def initMemory (mmapOk : ℕ → Bool) : Memory := ⟨0, fun _ => none, mmapOk⟩

/-- Replace the content of one page. -/
def Memory.setPage (mem : Memory) (n : ℕ) (frame : Frame) : Memory :=
  { mem with pages := Function.update mem.pages n (some frame) }

@[simp] theorem Memory.setPage_nalloc (mem : Memory) (n : ℕ) (frame : Frame) :
    (mem.setPage n frame).nalloc = mem.nalloc := rfl

/-- The page just written. -/
@[simp] theorem Memory.setPage_self (mem : Memory) (n : ℕ) (frame : Frame) :
    (mem.setPage n frame).pages n = some frame := Function.update_self ..

/-- Every other page is kept. -/
theorem Memory.setPage_of_ne (mem : Memory) {n m : ℕ} (frame : Frame) (h : m ≠ n) :
    (mem.setPage n frame).pages m = mem.pages m := Function.update_of_ne h ..

/-- A kernel pointer: a page of the pool and a byte offset into it. -/
structure Pointer where
  /-- Index into the page array. -/
  page : ℕ
  /-- Byte offset, zero for a table node. -/
  off : ℕ
  deriving DecidableEq

/-- The page number of a frame of the pool. -/
def frameWord (n : ℕ) : Word := BitVec.ofNat 64 n + frameBias

/-- `alloc_page_frame`: the next zeroed frame, unless the process exits. -/
def allocPageFrame (mem : Memory) : Except Fault (Word × Memory) :=
  if mem.nalloc = numPages then .error .outOfMemory
  else
    let ppn := mem.nalloc
    if mem.mmapOk ppn then
      .ok (frameWord ppn, { mem with nalloc := ppn + 1 }.setPage ppn zeroFrame)
    else .error .mmapFailed

/-- `phys_to_virt`: null for a page number outside the pool, and for a page
that was never allocated. -/
def physToVirt (mem : Memory) (physAddr : Word) : Option Pointer :=
  let ppn := (physAddr >>> 12) - frameBias
  let off := physAddr &&& 0xFFF
  if ppn.toNat < numPages then
    (mem.pages ppn.toNat).map fun _ => ⟨ppn.toNat, off.toNat⟩
  else none

/-- The read `current[index]` of a table node. -/
def load (mem : Memory) (current : Option Pointer) (index : Word) : Except Fault Word :=
  match current with
  | none => .error .badAccess
  | some pointer =>
    match mem.pages pointer.page with
    | none => .error .badAccess
    | some frame =>
      if h : index.toNat < 512 ∧ pointer.off = 0 then .ok (frame ⟨index.toNat, h.1⟩)
      else .error .badAccess

/-- The write `current[index] = entry` to a table node. -/
def store (mem : Memory) (current : Option Pointer) (index entry : Word) : Except Fault Memory :=
  match current with
  | none => .error .badAccess
  | some pointer =>
    match mem.pages pointer.page with
    | none => .error .badAccess
    | some frame =>
      if h : index.toNat < 512 ∧ pointer.off = 0 then
        .ok (mem.setPage pointer.page (Function.update frame ⟨index.toNat, h.1⟩ entry))
      else .error .badAccess

/-- The entry written for a page number: its bits shifted up, bit 0 valid. -/
def taggedEntry (ppn : Word) : Word := (ppn <<< 12) ||| 1

/-- The mask `~0xFFF`, a negative `int` extended to 64 bits. -/
def pageMask : Word := ~~~0xFFF

/-- The pool index that a table entry points to. -/
def entryFrame (entry : Word) : ℕ := (((entry &&& pageMask) >>> 12) - frameBias).toNat

/-- A shift by twelve keeps the low 52 bits. -/
theorem shifted_toNat (ppn : Word) : (ppn <<< 12).toNat = 4096 * (ppn.toNat % 2 ^ 52) := by
  rw [BitVec.toNat_shiftLeft, Nat.shiftLeft_eq]
  omega

/-- The valid bit is added below the shifted bits. -/
theorem taggedEntry_toNat (ppn : Word) :
    (taggedEntry ppn).toNat = 4096 * (ppn.toNat % 2 ^ 52) + 1 := by
  rw [taggedEntry, BitVec.toNat_or, shifted_toNat]
  exact (Nat.two_pow_add_eq_or_of_lt (i := 12) (by decide) _).symm

/-- Shifting down divides by the page size. -/
theorem unshifted_toNat (entry : Word) : (entry >>> 12).toNat = entry.toNat / 4096 := by
  rw [BitVec.toNat_ushiftRight, Nat.shiftRight_eq_div_pow]

/-- The low twelve bits of an address are its page offset. -/
theorem offset_toNat (addr : Word) : (addr &&& 0xFFF).toNat = addr.toNat % 4096 := by
  rw [BitVec.toNat_and]
  exact Nat.and_two_pow_sub_one_eq_mod _ 12

/-- Masking with `~0xFFF` clears the twelve low bits and nothing else. -/
theorem masked_eq (entry : Word) : entry &&& pageMask = entry >>> 12 <<< 12 := by
  rw [BitVec.shiftLeft_ushiftRight]
  rfl

/-- The page number read back from a masked entry. -/
theorem masked_page (entry : Word) : (entry &&& pageMask) >>> 12 = entry >>> 12 := by
  apply BitVec.eq_of_toNat_eq
  rw [masked_eq, unshifted_toNat, shifted_toNat, unshifted_toNat]
  omega

/-- A masked entry is the address of a page start. -/
theorem masked_offset (entry : Word) : (entry &&& pageMask) &&& 0xFFF = 0 := by
  apply BitVec.eq_of_toNat_eq
  rw [masked_eq, offset_toNat, shifted_toNat]
  exact Nat.mul_mod_right 4096 _

/-- The address of a page number is the start of that page. -/
theorem shifted_offset (ppn : Word) : (ppn <<< 12) &&& 0xFFF = 0 := by
  apply BitVec.eq_of_toNat_eq
  rw [offset_toNat, shifted_toNat]
  exact Nat.mul_mod_right 4096 _

/-- Shifting down undoes shifting up on 52-bit page numbers. -/
theorem shifted_page {ppn : Word} (h : ppn.toNat < 2 ^ 52) : (ppn <<< 12) >>> 12 = ppn := by
  apply BitVec.eq_of_toNat_eq
  rw [unshifted_toNat, shifted_toNat]
  omega

/-- The page number stored in a tagged entry is its low 52 bits. -/
theorem taggedEntry_page (ppn : Word) :
    (taggedEntry ppn >>> 12).toNat = ppn.toNat % 2 ^ 52 := by
  rw [unshifted_toNat, taggedEntry_toNat]
  omega

/-- Every tagged entry is valid. -/
theorem taggedEntry_valid (ppn : Word) : taggedEntry ppn &&& 1 ≠ 0 := by
  intro h
  have hbit := congrArg BitVec.toNat h
  rw [BitVec.toNat_and, taggedEntry_toNat] at hbit
  have hmod : (4096 * (ppn.toNat % 2 ^ 52) + 1) &&& 1 = (4096 * (ppn.toNat % 2 ^ 52) + 1) % 2 :=
    Nat.and_two_pow_sub_one_eq_mod _ 1
  simp only [BitVec.reduceToNat] at hbit
  omega

/-- Page numbers of the pool stay far below 2^52. -/
theorem frameWord_toNat {n : ℕ} (h : n < numPages) : (frameWord n).toNat = n + 0xbaaaaaad := by
  rw [frameWord, frameBias, BitVec.toNat_add, BitVec.toNat_ofNat]
  simp only [numPages, BitVec.reduceToNat] at h ⊢
  omega

/-- The bias is removed exactly. -/
theorem frameWord_sub {n : ℕ} (h : n < numPages) : (frameWord n - frameBias).toNat = n := by
  rw [BitVec.toNat_sub, frameWord_toNat h, frameBias]
  simp only [numPages, BitVec.reduceToNat] at h ⊢
  omega

/-- Different frames of the pool have different page numbers. -/
theorem frameWord_inj {n m : ℕ} (hn : n < numPages) (hm : m < numPages)
    (h : frameWord n = frameWord m) : n = m := by
  rw [← frameWord_sub hn, h, frameWord_sub hm]

/-- The entry written for a fresh table leads back to it. -/
theorem entryFrame_tagged {n : ℕ} (h : n < numPages) :
    entryFrame (taggedEntry (frameWord n)) = n := by
  have hpage : taggedEntry (frameWord n) >>> 12 = frameWord n := by
    apply BitVec.eq_of_toNat_eq
    rw [taggedEntry_page, frameWord_toNat h]
    simp only [numPages] at h
    omega
  rw [entryFrame, masked_page, hpage, frameWord_sub h]

/-- Table pointers of valid entries: the page of the entry, offset zero. -/
theorem physToVirt_entry {mem : Memory} {entry : Word} {frame : Frame}
    (hbound : entryFrame entry < numPages) (hpage : mem.pages (entryFrame entry) = some frame) :
    physToVirt mem (entry &&& pageMask) = some ⟨entryFrame entry, 0⟩ := by
  rw [entryFrame] at hbound hpage
  simp only [physToVirt, masked_offset, if_pos hbound, hpage, Option.map_some]
  rfl

/-- The root pointer of a page table. -/
theorem physToVirt_root {mem : Memory} {n : ℕ} {frame : Frame} (hbound : n < numPages)
    (hpage : mem.pages n = some frame) :
    physToVirt mem (frameWord n <<< 12) = some ⟨n, 0⟩ := by
  have hword : frameWord n <<< 12 >>> 12 = frameWord n := by
    apply shifted_page
    rw [frameWord_toNat hbound]
    simp only [numPages] at hbound
    omega
  simp only [physToVirt, hword, frameWord_sub hbound, if_pos hbound, hpage, shifted_offset,
    Option.map_some]
  rfl

/-- Reading an entry of an allocated table. -/
theorem load_ok {mem : Memory} {n : ℕ} {frame : Frame} {index : Word} (hpage : mem.pages n = some frame)
    (hindex : index.toNat < 512) :
    load mem (some ⟨n, 0⟩) index = .ok (frame ⟨index.toNat, hindex⟩) := by
  simp only [load, hpage, hindex, and_self, dite_true]

/-- Writing an entry of an allocated table. -/
theorem store_ok {mem : Memory} {n : ℕ} {frame : Frame} {index : Word} (entry : Word)
    (hpage : mem.pages n = some frame) (hindex : index.toNat < 512) :
    store mem (some ⟨n, 0⟩) index entry =
      .ok (mem.setPage n (Function.update frame ⟨index.toNat, hindex⟩ entry)) := by
  simp only [store, hpage, hindex, and_self, dite_true]

/-- Everything an allocation can do: exit, or hand out the next frame. -/
theorem allocPageFrame_cases (mem : Memory) :
    allocPageFrame mem = .error .outOfMemory ∨ allocPageFrame mem = .error .mmapFailed ∨
      (mem.nalloc ≠ numPages ∧ allocPageFrame mem = .ok (frameWord mem.nalloc,
        { mem with nalloc := mem.nalloc + 1 }.setPage mem.nalloc zeroFrame)) := by
  unfold allocPageFrame
  split
  · exact .inl rfl
  · rename_i hfull
    dsimp only
    split
    · exact .inr (.inr ⟨hfull, rfl⟩)
    · exact .inr (.inl rfl)

end OSCourse.PageTableMemory
