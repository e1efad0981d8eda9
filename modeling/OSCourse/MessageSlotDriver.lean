import Mathlib.Algebra.Group.Int.Defs
import Mathlib.Algebra.GroupWithZero.Nat
import Mathlib.Data.Int.Notation
import Mathlib.Logic.Function.Basic
import Mathlib.Tactic.Common

/-!
# The message slot driver

The driver keeps one list of channels for each minor, in blocks from
`kmalloc`, which arrive with arbitrary contents. What the kernel answers to
a call, the addresses and contents of the blocks and how many bytes a copy
to or from the user leaves over, is part of the call. A null or wild
dereference, a copy past the end of a block, a free of a dead block, a
signed overflow of a list's size and an endless walk are faults.
-/

namespace OSCourse.MessageSlotDriver

variable {Addr File : Type}

/-- One byte of a message. -/
abbrev Byte := BitVec 8

/-- `ListNode`. -/
structure ListNode (Addr : Type) where
  /-- The channel, a signed 32-bit number. -/
  channelId : BitVec 32
  /-- The message buffer. -/
  msg : Option Addr
  /-- A signed 32-bit number. -/
  msgLength : BitVec 32
  /-- The node behind this one. -/
  next : Option Addr

/-- `LinkedList`. -/
structure LinkedList (Addr : Type) where
  /-- First node. -/
  first : Option Addr
  /-- Number of nodes, a signed 32-bit number. -/
  size : ℤ

/-- What a block of the kernel heap holds. -/
inductive Block (Addr : Type) where
  | list (l : LinkedList Addr)
  | node (n : ListNode Addr)
  | bytes (b : List Byte)

/-- Where the behaviour of the code is undefined or does not end. -/
inductive Fault where
  | wildPointer
  | overrun
  | badFree
  | signedOverflow
  | endlessLoop
  | closedFile

/-- The kernel heap. -/
structure Memory (Addr : Type) where
  /-- The live blocks. -/
  heap : Addr → Option (Block Addr)
  /-- Nodes linked so far; a walk that meets more nodes never ends. -/
  created : ℕ

/-- `MSG_MAX_LENGTH` and `BUF_LEN`. -/
def bufLen : ℕ := 128

/-- `_IOW(MAJOR_NUM, 0, unsigned long)` with major number 240. -/
def msgSlotChannel : BitVec 32 := 0x4008f000

/-- Fresh bytes of a given number with the contents they happen to have. -/
def bytesOf (size : ℕ) (contents : ℕ → Byte) : List Byte := (List.range size).map contents

/-- `memcpy`. -/
def memcpy (dst src : List Byte) (n : ℕ) : Except Fault (List Byte) :=
  if n ≤ dst.length ∧ n ≤ src.length then .ok (src.take n ++ dst.drop n) else .error .overrun

/-- `copy_from_user`, which leaves the last `left` bytes uncopied. -/
def copyFromUser (dst : List Byte) (user : ℕ → Byte) (n left : ℕ) : List Byte :=
  bytesOf (n - left) user ++ dst.drop (n - left)

section Heap

/-- Reads a list header. -/
def loadList (m : Memory Addr) (a : Addr) : Except Fault (LinkedList Addr) :=
  match m.heap a with
  | some (.list l) => .ok l
  | _ => .error .wildPointer

/-- Reads a node. -/
def loadNode (m : Memory Addr) (a : Addr) : Except Fault (ListNode Addr) :=
  match m.heap a with
  | some (.node n) => .ok n
  | _ => .error .wildPointer

/-- Reads a block of bytes through a possibly null pointer. -/
def loadBytes (m : Memory Addr) : Option Addr → Except Fault (List Byte)
  | none => .error .wildPointer
  | some a =>
    match m.heap a with
    | some (.bytes b) => .ok b
    | _ => .error .wildPointer

variable [DecidableEq Addr]

/-- Puts a block at an address. -/
def Memory.set (m : Memory Addr) (a : Addr) (b : Block Addr) : Memory Addr :=
  { m with heap := Function.update m.heap a (some b) }

/-- `kfree`. -/
def kfree (m : Memory Addr) (a : Addr) : Except Fault (Memory Addr) :=
  if (m.heap a).isSome then .ok { m with heap := Function.update m.heap a none }
  else .error .badFree

/-- Writes fields of a list header. -/
def updateList (m : Memory Addr) (a : Addr) (f : LinkedList Addr → LinkedList Addr) :
    Except Fault (Memory Addr) := do
  let l ← loadList m a
  .ok (m.set a (.list (f l)))

/-- Writes fields of a node. -/
def updateNode (m : Memory Addr) (a : Addr) (f : ListNode Addr → ListNode Addr) :
    Except Fault (Memory Addr) := do
  let n ← loadNode m a
  .ok (m.set a (.node (f n)))

/-- `lst->size++`, at the end of every branch that linked a new node. -/
def growSize (m : Memory Addr) (lst : Addr) : Except Fault (Memory Addr) := do
  let l ← loadList m lst
  if l.size = 2 ^ 31 - 1 then .error .signedOverflow
  else .ok { m.set lst (.list { l with size := l.size + 1 }) with created := m.created + 1 }

end Heap

/-- The loop of `findChannelId`. -/
def findFrom (m : Memory Addr) (channelId : BitVec 32) :
    ℕ → Option Addr → Except Fault (Option Addr)
  | _, none => .ok none
  | 0, some _ => .error .endlessLoop
  | fuel + 1, some node => do
    let cell ← loadNode m node
    if cell.channelId = channelId then .ok (some node) else findFrom m channelId fuel cell.next

/-- `findChannelId`. -/
def findChannelId (m : Memory Addr) (lst : Addr) (channelId : BitVec 32) :
    Except Fault (Option Addr) := do
  let l ← loadList m lst
  findFrom m channelId (m.created + 1) l.first

/-- What the kernel answers during a write: the blocks of `createNode`, the
temporary buffer, and the return value of `copy_from_user`. -/
structure WriteAnswers (Addr : Type) where
  /-- The first `kmalloc` of `createNode`. -/
  node : Option (Addr × ListNode Addr)
  /-- The second one. -/
  msg : Option (Addr × (ℕ → Byte))
  /-- The `kmalloc` of `tmpBuffer`. -/
  tmp : Option (Addr × (ℕ → Byte))
  /-- Bytes that `copy_from_user` could not copy. -/
  left : ℕ

section Lists

variable [DecidableEq Addr]

/-- `setMsg`. -/
def setMsg (m : Memory Addr) (node : Addr) (msg : List Byte) (msgLength : BitVec 32) :
    Except Fault (Memory Addr) := do
  let cell ← loadNode m node
  let old ← loadBytes m cell.msg
  let new ← memcpy old msg (msgLength.signExtend 64).toNat
  match cell.msg with
  | none => .error .wildPointer
  | some a => updateNode (m.set a (.bytes new)) node fun c => { c with msgLength := msgLength }

/-- `createNode`. -/
def createNode (m : Memory Addr) (channelId : BitVec 32) (answers : WriteAnswers Addr) :
    Except Fault (Option Addr × Memory Addr) :=
  match answers.node with
  | none => .ok (none, m)
  | some (node, contents) =>
    let m := m.set node (.node contents)
    match answers.msg with
    | none => do
      let m ← kfree m node
      .ok (none, m)
    | some (msg, contents) => do
      let m := m.set msg (.bytes (bytesOf bufLen contents))
      let m ← updateNode m node fun c =>
        { c with msg := some msg, channelId := channelId, next := none }
      .ok (some node, m)

/-- The branch of `getOrCreateNode` that links a new node before `node`. -/
def insertBefore (m : Memory Addr) (lst : Addr) (channelId : BitVec 32)
    (answers : WriteAnswers Addr) (prevNode : Option Addr) (node : Addr) :
    Except Fault (Option Addr × Memory Addr) := do
  let (created, m) ← createNode m channelId answers
  match created with
  | none => .ok (none, m)
  | some newNode =>
    let m ← updateNode m newNode fun c => { c with next := some node }
    let m ← match prevNode with
      | none => updateList m lst fun l => { l with first := some newNode }
      | some p => updateNode m p fun c => { c with next := some newNode }
    let m ← growSize m lst
    .ok (some newNode, m)

/-- The end of `getOrCreateNode`, which links a new node behind the last one. -/
def append (m : Memory Addr) (lst : Addr) (channelId : BitVec 32)
    (answers : WriteAnswers Addr) (prevNode : Addr) :
    Except Fault (Option Addr × Memory Addr) := do
  let (created, m) ← createNode m channelId answers
  match created with
  | none => .ok (none, m)
  | some newNode =>
    let m ← updateNode m prevNode fun c => { c with next := some newNode }
    let m ← growSize m lst
    .ok (some newNode, m)

/-- The loop of `getOrCreateNode`. -/
def scan (m : Memory Addr) (lst : Addr) (channelId : BitVec 32) (answers : WriteAnswers Addr) :
    ℕ → Option Addr → Addr → Except Fault (Option Addr × Memory Addr)
  | 0, _, _ => .error .endlessLoop
  | fuel + 1, prevNode, node => do
    let cell ← loadNode m node
    if channelId = cell.channelId then .ok (some node, m)
    else if channelId.slt cell.channelId then
      insertBefore m lst channelId answers prevNode node
    else
      match cell.next with
      | some next => scan m lst channelId answers fuel (some node) next
      | none => append m lst channelId answers node

/-- `getOrCreateNode`. -/
def getOrCreateNode (m : Memory Addr) (lst : Addr) (channelId : BitVec 32)
    (answers : WriteAnswers Addr) : Except Fault (Option Addr × Memory Addr) := do
  let l ← loadList m lst
  if l.size = 0 then
    let (created, m) ← createNode m channelId answers
    match created with
    | none => .ok (none, m)
    | some newNode =>
      let m ← updateList m lst fun l => { l with first := some newNode }
      let m ← growSize m lst
      .ok (some newNode, m)
  else
    match l.first with
    | none => .error .wildPointer
    | some first => scan m lst channelId answers (m.created + 1) none first

end Lists

/-- There is a first minor. -/
instance firstMinor : NeZero 256 := ⟨by decide⟩

/-- What the driver reads of a `struct file`. -/
structure OpenFile where
  /-- The minor number of its inode. -/
  minor : Fin 256
  /-- `private_data`, the channel, or null. -/
  privateData : BitVec 64

/-- The state of the driver and of the files opened on it. -/
structure State (File Addr : Type) where
  /-- The global array `devices`, with its unused first entry. -/
  devices : Fin 257 → Option Addr
  /-- The kernel heap. -/
  memory : Memory Addr
  /-- The open files. -/
  files : File → Option OpenFile

/-- No file has been opened. -/
def start : State File Addr := ⟨fun _ => none, ⟨fun _ => none, 0⟩, fun _ => none⟩

/-- The ways `device_open` returns. -/
inductive OpenExit where
  | reopened
  | noHeader
  | initialised

/-- The ways `device_read` returns. -/
inductive ReadExit where
  | noChannel
  | noDevice
  | short
  | noTmp
  | badCopy
  | done (msgLength : BitVec 32)
  | wouldBlock

/-- The ways `device_write` returns. -/
inductive WriteExit where
  | badSize
  | noChannel
  | nullBuffer
  | noDevice
  | noNode
  | noTmp
  | badCopy
  | done
deriving DecidableEq

/-- `EINVAL`, `EMSGSIZE`, `ENOSPC` and `EWOULDBLOCK`. -/
def einval : ℤ := 22

def emsgsize : ℤ := 90

def enospc : ℤ := 28

def ewouldblock : ℤ := 11

/-- The value `device_open` returns. -/
def OpenExit.code : OpenExit → ℤ
  | .reopened => 0
  | .noHeader => -1
  | .initialised => 0

/-- The value `device_read` returns. -/
def ReadExit.code : ReadExit → ℤ
  | .noChannel => -einval
  | .noDevice => -einval
  | .short => -enospc
  | .noTmp => -enospc
  | .badCopy => -enospc
  | .done msgLength => msgLength.toInt
  | .wouldBlock => -ewouldblock

/-- The value `device_write` returns for a length. -/
def WriteExit.code (length : BitVec 64) : WriteExit → ℤ
  | .badSize => -emsgsize
  | .noChannel => -einval
  | .nullBuffer => -enospc
  | .noDevice => -einval
  | .noNode => -enospc
  | .noTmp => -enospc
  | .badCopy => -enospc
  | .done => length.toInt

section Operations

variable [DecidableEq Addr]

/-- `device_open`, with the block `kmalloc` would return. -/
def deviceOpen (s : State File Addr) (minor : Fin 256) (header : Option (Addr × LinkedList Addr)) :
    OpenExit × State File Addr :=
  match s.devices minor.succ with
  | some _ => (.reopened, s)
  | none =>
    match header with
    | none => (.noHeader, s)
    | some (lst, contents) =>
      (.initialised, { s with
        devices := Function.update s.devices minor.succ (some lst)
        memory := s.memory.set lst (.list { contents with size := 0 }) })

/-- `device_ioctl`: the code, and the file's new `private_data`. -/
def deviceIoctl (file : OpenFile) (command : BitVec 32) (param : BitVec 64) : ℤ × OpenFile :=
  if command = msgSlotChannel ∧ param ≠ 0 then (0, { file with privateData := param })
  else (-einval, file)

/-- `device_read`, with the block `kmalloc` would return and the bytes that
`copy_to_user` would leave over: how it returned, the bytes that reached the
user, and the heap afterwards. -/
def deviceRead (s : State File Addr) (file : OpenFile) (length : BitVec 64) (buffer : Bool)
    (tmp : Option (Addr × (ℕ → Byte))) (left : ℕ) :
    Except Fault (ReadExit × List Byte × Memory Addr) :=
  if file.privateData = 0 then .ok (.noChannel, [], s.memory)
  else
    match s.devices file.minor.succ with
    | none => .ok (.noDevice, [], s.memory)
    | some lst => do
      match ← findChannelId s.memory lst (file.privateData.setWidth 32) with
      | none => .ok (.wouldBlock, [], s.memory)
      | some node =>
        let cell ← loadNode s.memory node
        if length < cell.msgLength.signExtend 64 ∨ buffer = false then .ok (.short, [], s.memory)
        else
          match tmp with
          | none => .ok (.noTmp, [], s.memory)
          | some (tmpBuffer, contents) =>
            let n := (cell.msgLength.signExtend 64).toNat
            let msg ← loadBytes s.memory cell.msg
            let copied ← memcpy (bytesOf n contents) msg n
            let m ← kfree (s.memory.set tmpBuffer (.bytes copied)) tmpBuffer
            .ok (if left = 0 then .done cell.msgLength else .badCopy, copied.take (n - left), m)

/-- `device_write`, with the kernel's answers: how it returned and the heap
afterwards. -/
def deviceWrite (s : State File Addr) (file : OpenFile) (length : BitVec 64)
    (buffer : Option (ℕ → Byte)) (answers : WriteAnswers Addr) :
    Except Fault (WriteExit × Memory Addr) :=
  if bufLen < length.toNat ∨ length = 0 then .ok (.badSize, s.memory)
  else if file.privateData = 0 then .ok (.noChannel, s.memory)
  else
    match buffer with
    | none => .ok (.nullBuffer, s.memory)
    | some user =>
      match s.devices file.minor.succ with
      | none => .ok (.noDevice, s.memory)
      | some lst => do
        let (found, m) ← getOrCreateNode s.memory lst (file.privateData.setWidth 32) answers
        match found with
        | none => .ok (.noNode, m)
        | some node =>
          let m ← updateNode m node fun c => { c with msgLength := length.setWidth 32 }
          match answers.tmp with
          | none => .ok (.noTmp, m)
          | some (tmpBuffer, contents) =>
            let copied := copyFromUser (bytesOf length.toNat contents) user length.toNat
              answers.left
            let m := m.set tmpBuffer (.bytes copied)
            if answers.left ≠ 0 then do
              let m ← kfree m tmpBuffer
              .ok (.badCopy, m)
            else do
              let m ← setMsg m node copied (length.setWidth 32)
              let m ← kfree m tmpBuffer
              .ok (.done, m)

end Operations

/-- A call into the driver, with the kernel's answers. -/
inductive Call (Addr : Type) where
  | open (minor : Fin 256) (header : Option (Addr × LinkedList Addr))
  | ioctl (command : BitVec 32) (param : BitVec 64)
  | read (length : BitVec 64) (buffer : Bool) (tmp : Option (Addr × (ℕ → Byte))) (left : ℕ)
  | write (length : BitVec 64) (buffer : Option (ℕ → Byte)) (answers : WriteAnswers Addr)

/-- What a call returned; a read also says which bytes reached the user. -/
inductive Reply where
  | opened (exit : OpenExit)
  | ioctl (code : ℤ)
  | read (exit : ReadExit) (bytes : List Byte)
  | written (exit : WriteExit)

/-- A call through a file, with the minor and channel the file had then. -/
structure Event (File Addr : Type) where
  /-- The file. -/
  file : File
  /-- Its minor and channel before the call. -/
  target : OpenFile
  /-- The call. -/
  call : Call Addr
  /-- What it returned. -/
  reply : Reply

/-- What the kernel can answer: blocks from `kmalloc` are not in use. -/
def Call.Possible (m : Memory Addr) : Call Addr → Prop
  | .open _ header => ∀ block ∈ header, m.heap block.1 = none
  | .ioctl _ _ => True
  | .read _ _ tmp _ => ∀ block ∈ tmp, m.heap block.1 = none
  | .write _ _ answers =>
    (∀ node ∈ answers.node, m.heap node.1 = none) ∧ (∀ msg ∈ answers.msg, m.heap msg.1 = none) ∧
      (∀ tmp ∈ answers.tmp, m.heap tmp.1 = none) ∧
      (∀ node ∈ answers.node, ∀ msg ∈ answers.msg, node.1 ≠ msg.1) ∧
      (∀ node ∈ answers.node, ∀ tmp ∈ answers.tmp, node.1 ≠ tmp.1) ∧
      (∀ msg ∈ answers.msg, ∀ tmp ∈ answers.tmp, msg.1 ≠ tmp.1)

section Steps

variable [DecidableEq Addr] [DecidableEq File]

/-- A call other than an open, through a file in this state. -/
def performOn (s : State File Addr) (f : File) (file : OpenFile) :
    Call Addr → Except Fault (Reply × State File Addr)
  | .open _ _ => .error .closedFile
  | .ioctl command param =>
    let (code, file) := deviceIoctl file command param
    .ok (.ioctl code, { s with files := Function.update s.files f (some file) })
  | .read length buffer tmp left => do
    let (exit, bytes, memory) ← deviceRead s file length buffer tmp left
    .ok (.read exit bytes, { s with memory := memory })
  | .write length buffer answers => do
    let (exit, memory) ← deviceWrite s file length buffer answers
    .ok (.written exit, { s with memory := memory })

/-- An open of a new file; the kernel drops the file when the open fails. -/
def performOpen (s : State File Addr) (f : File) (minor : Fin 256)
    (header : Option (Addr × LinkedList Addr)) : Reply × State File Addr :=
  match deviceOpen s minor header with
  | (.noHeader, s) => (.opened .noHeader, s)
  | (exit, s) => (.opened exit, { s with files := Function.update s.files f (some ⟨minor, 0⟩) })

/-- One call into the driver. -/
inductive Step (s : State File Addr) (e : Event File Addr) (s' : State File Addr) : Prop
  | open (minor : Fin 256) (header : Option (Addr × LinkedList Addr))
      (hcall : e.call = .open minor header) (htarget : e.target = ⟨minor, 0⟩)
      (hclosed : (s.files e.file).isNone) (hpossible : e.call.Possible s.memory)
      (hperform : performOpen s e.file minor header = (e.reply, s'))
  | on (hfile : s.files e.file = some e.target) (hpossible : e.call.Possible s.memory)
      (hperform : performOn s e.file e.target e.call = .ok (e.reply, s'))

end Steps

end OSCourse.MessageSlotDriver
