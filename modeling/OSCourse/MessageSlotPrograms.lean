import OSCourse.DecimalText
import OSCourse.MessageSlotDriver
import OSCourse.Runs

/-!
# The sender and the reader

A program is the tree of the calls it makes: each call, and how the program
goes on with the answer. Any number of senders and readers run beside each
other, and their calls reach the driver in any order. The descriptors of
the standard streams are open, so a process has its file at another one. A
failed call returns -1 and leaves its error in `errno`, which `perror` may
change. A path may also name a file that is no slot.
-/

namespace OSCourse.MessageSlotPrograms

open MessageSlotDriver DecimalText

variable {Addr Pid : Type}

/-- A call of one of the programs. -/
inductive Syscall where
  | open (deviceFile : List Byte)
  | calloc
  | ioctl (fd : ℤ) (command : BitVec 32) (param : BitVec 64)
  | write (fd : ℤ) (msg : List Byte)
  | read (fd : ℤ) (length : ℕ)
  | close (fd : ℤ)
  | print (msg : List Byte)
  | perror (text : String)

/-- What a call comes back with. -/
structure Answer where
  /-- The value it returns. -/
  value : ℤ
  /-- `errno` afterwards. -/
  errno : ℤ
  /-- The bytes that reached the buffer of a read. -/
  bytes : List Byte

/-- A program from one of its points on. -/
inductive Program where
  | exit (status : ℤ)
  | call (request : Syscall) (next : Answer → Program)

/-- `UINT_MAX`, converted to `long`. -/
def uintMax : ℤ := 0xffffffff

/-- The check of the channel argument, which `errno` is zero before. -/
def rejects (channel : List Byte) : Bool := (strtol channel).1 = uintMax && (strtol channel).2

/-- What the reader prints with the wrong number of arguments. -/
def usage : List Byte :=
  "wrong amount of arguments given: Operation not permitted".toList.map fun c =>
    BitVec.ofNat 8 c.toNat

/-- `exitAndClean`. -/
def exitAndClean (fd : ℤ) : Program := .call (.close fd) fun closed => .exit closed.errno

/-- The sender behind its `ioctl`. -/
def sendMessage (fd : ℤ) (msg : List Byte) : Program :=
  .call (.write fd msg) fun written =>
    if written.value < 0 then
      .call (.perror "Failed to write the full message to the device") fun _ => exitAndClean fd
    else .call (.close fd) fun _ => .exit 0

/-- The sender behind its `open`. -/
def sendFrom (fd : ℤ) (channelId : ℤ) (msg : List Byte) : Program :=
  .call (.ioctl fd msgSlotChannel (BitVec.ofInt 64 channelId)) fun set =>
    if set.value < 0 then
      .call (.perror "Failed to set channel ID using ioctl") fun _ => exitAndClean fd
    else sendMessage fd msg

/-- `main` of the sender. -/
def senderMain : List (List Byte) → Program
  | [_, deviceFile, channel, msg] =>
    if rejects channel then .call (.perror "Invalid channel ID provided") fun _ => .exit 1
    else .call (.open deviceFile) fun opened =>
      if opened.value < 0 then
        .call (.perror "Failed to open the device file") fun _ =>
          .call (.close opened.value) fun _ => sendFrom opened.value (strtol channel).1 msg
      else sendFrom opened.value (strtol channel).1 msg
  | _ => .call (.perror "Incorrect number of arguments provided") fun _ => .exit 1

/-- The reader behind its `read`. -/
def printMessage (msg : List Byte) (retVal : ℤ) : Program :=
  .call (.print (msg.take retVal.toNat)) fun put =>
    if put.value ≠ retVal then .call (.perror "failed writing to STDOUT") fun _ => .exit 0
    else .exit 0

/-- The reader behind its `ioctl`. -/
def receiveMessage (fd : ℤ) : Program :=
  .call (.read fd bufLen) fun got =>
    if got.value < 0 then .call (.perror "read failed") fun _ => exitAndClean fd
    else .call (.close fd) fun _ =>
      printMessage (got.bytes ++ List.replicate bufLen 0) got.value

/-- The reader behind its `calloc`. -/
def readFrom (fd : ℤ) (channelId : ℤ) : Program :=
  .call (.ioctl fd msgSlotChannel (BitVec.ofInt 64 channelId)) fun set =>
    if set.value < 0 then .call (.perror "ioctl failed") fun _ => exitAndClean fd
    else receiveMessage fd

/-- `main` of the reader. -/
def readerMain : List (List Byte) → Program
  | [_, deviceFile, channel] =>
    if rejects channel then .call (.perror "wrong channelId given: %s") fun _ => .exit 1
    else .call (.open deviceFile) fun opened =>
      if opened.value < 0 then .call (.perror "could not open file: %s") fun _ => .exit 1
      else .call .calloc fun allocated =>
        if allocated.value = 0 then .exit 1
        else readFrom opened.value (strtol channel).1
  | _ => .call (.print usage) fun _ => .exit 1

/-- An argument of a program: the kernel passes none longer than 32 pages. -/
structure Argument where
  /-- Its bytes up to the NUL. -/
  text : List Byte
  /-- It fits. -/
  short : text.length < 131072

/-- A program and its arguments. -/
inductive Job where
  | sender (args : List Argument)
  | reader (args : List Argument)

/-- The program of a job. -/
def Job.main : Job → Program
  | .sender args => senderMain (args.map Argument.text)
  | .reader args => readerMain (args.map Argument.text)

/-- A process. -/
structure Process where
  /-- What it still has to do. -/
  program : Program
  /-- Its descriptor of the device, while that is open. -/
  fd : Option ℕ
  /-- Its descriptor of a file that is no slot, while that is open. -/
  other : Option ℕ
  /-- `errno`. -/
  errno : ℤ
  /-- What it has handed to its standard output. -/
  output : List Byte

/-- The driver and the processes; a process opens one file at most, so the
file has its name. -/
structure World (Pid Addr : Type) where
  /-- The driver. -/
  driver : State Pid Addr
  /-- The processes. -/
  process : Pid → Process

/-- Every process is at the start of its program. -/
def boot (jobs : Pid → Job) : World Pid Addr :=
  ⟨start, fun pid => ⟨(jobs pid).main, none, none, 0, []⟩⟩

/-- `EBADF`. -/
def ebadf : ℤ := 9

/-- A call returns: a negative code becomes -1 and `errno`. -/
def Process.resume (p : Process) (next : Answer → Program) (code : ℤ) (bytes : List Byte) :
    Process :=
  if code < 0 then { p with program := next ⟨-1, -code, bytes⟩, errno := -code }
  else { p with program := next ⟨code, p.errno, bytes⟩ }

/-- The descriptor is that of the device. -/
def Process.Has (p : Process) (fd : ℤ) : Prop := ∃ n : ℕ, p.fd = some n ∧ fd = n

/-- The descriptor is that of a file that is no slot. -/
def Process.HasOther (p : Process) (fd : ℤ) : Prop := ∃ n : ℕ, p.other = some n ∧ fd = n

/-- An error behind a `perror`: the same one, unless `perror` is not known to
leave `errno` alone. No call sets it to zero. -/
def Reports (steady : Prop) (error errno : ℤ) : Prop :=
  errno = error ∨ ¬steady ∧ 0 < errno ∧ errno < 256

/-- Calls that the driver does not see. An `open` may fail, whatever the path, a
file that is no slot does not know the `ioctl`, and an output may take less than
it was given. -/
inductive Quiet (steady : Prop) (device : List Byte → Option (Fin 256)) (p : Process)
    (next : Answer → Program) : Syscall → Process → Prop
  | openFails {deviceFile : List Byte} {error : ℤ} (hpos : 0 < error) :
      Quiet steady device p next (.open deviceFile) (p.resume next (-error) [])
  | openOther {deviceFile : List Byte} (fd : ℕ) (hdevice : device deviceFile = none) :
      Quiet steady device p next (.open deviceFile) ({ p with other := some fd }.resume next fd [])
  | calloc {value : ℤ} (hvalue : 0 ≤ value) :
      Quiet steady device p next .calloc (p.resume next value [])
  | ioctlOther {fd : ℤ} {command : BitVec 32} {param : BitVec 64} {error : ℤ}
      (hfd : p.HasOther fd) (hpos : 0 < error) (hsmall : error < 256) :
      Quiet steady device p next (.ioctl fd command param) (p.resume next (-error) [])
  | ioctlBad {fd : ℤ} {command : BitVec 32} {param : BitVec 64} (hfd : ¬p.Has fd)
      (hother : ¬p.HasOther fd) :
      Quiet steady device p next (.ioctl fd command param) (p.resume next (-ebadf) [])
  | writeBad {fd : ℤ} {msg : List Byte} (hfd : ¬p.Has fd) (hother : ¬p.HasOther fd) :
      Quiet steady device p next (.write fd msg) (p.resume next (-ebadf) [])
  | readBad {fd : ℤ} {length : ℕ} (hfd : ¬p.Has fd) (hother : ¬p.HasOther fd) :
      Quiet steady device p next (.read fd length) (p.resume next (-ebadf) [])
  | close {fd : ℤ} (hfd : p.Has fd) :
      Quiet steady device p next (.close fd) ({ p with fd := none }.resume next 0 [])
  | closeOther {fd : ℤ} (hfd : p.HasOther fd) :
      Quiet steady device p next (.close fd) ({ p with other := none }.resume next 0 [])
  | closeBad {fd : ℤ} (hfd : ¬p.Has fd) (hother : ¬p.HasOther fd) :
      Quiet steady device p next (.close fd) (p.resume next (-ebadf) [])
  | print {msg : List Byte} {value : ℤ} (hvalue : value ≤ msg.length) :
      Quiet steady device p next (.print msg)
        ({ p with output := p.output ++ msg }.resume next value [])
  | perror {text : String} {errno : ℤ} (hreports : Reports steady p.errno errno) :
      Quiet steady device p next (.perror text) ({ p with errno := errno }.resume next 0 [])

/-- The call into the driver that the kernel makes for a call of a process; a
path may name the minor of a device. -/
inductive Served (device : List Byte → Option (Fin 256)) (p : Process) :
    Syscall → Call Addr → Prop
  | open {deviceFile : List Byte} {minor : Fin 256} (header : Option (Addr × LinkedList Addr))
      (hdevice : device deviceFile = some minor) :
      Served device p (.open deviceFile) (.open minor header)
  | ioctl {fd : ℤ} (command : BitVec 32) (param : BitVec 64) (hfd : p.Has fd) :
      Served device p (.ioctl fd command param) (.ioctl command param)
  | write {fd : ℤ} (msg : List Byte) (answers : WriteAnswers Addr) (hfd : p.Has fd) :
      Served device p (.write fd msg)
        (.write (BitVec.ofNat 64 msg.length) (some fun i => msg.getD i 0) answers)
  | read {fd : ℤ} (length : ℕ) (tmp : Option (Addr × (ℕ → Byte))) (left : ℕ) (hfd : p.Has fd) :
      Served device p (.read fd length) (.read (BitVec.ofNat 64 length) true tmp left)

/-- The driver has replied; `fd` is the descriptor an opened file would get. -/
def Process.answered (p : Process) (next : Answer → Program) (fd : ℕ) (e : Event Pid Addr) :
    Process :=
  match e.call, e.reply with
  | .open _ _, .opened exit =>
    if exit.code < 0 then p.resume next exit.code []
    else { p with fd := some fd }.resume next fd []
  | .ioctl _ _, .ioctl code => p.resume next code []
  | .read _ _ _ _, .read exit bytes => p.resume next exit.code bytes
  | .write length _ _, .written exit => p.resume next (exit.code length) []
  | _, _ => p

variable [DecidableEq Addr] [DecidableEq Pid]

/-- One process makes its next call. -/
inductive Move (steady : Prop) (device : List Byte → Option (Fin 256)) (w : World Pid Addr) :
    Pid × Option (Event Pid Addr) → World Pid Addr → Prop
  | quiet {pid : Pid} {request : Syscall} {next : Answer → Program} {p : Process}
      (hprogram : (w.process pid).program = .call request next)
      (hquiet : Quiet steady device (w.process pid) next request p) :
      Move steady device w (pid, none) ⟨w.driver, Function.update w.process pid p⟩
  | driver {pid : Pid} {request : Syscall} {next : Answer → Program} {e : Event Pid Addr}
      {driver : State Pid Addr} (fd : ℕ)
      (hprogram : (w.process pid).program = .call request next)
      (hserved : Served device (w.process pid) request e.call) (hfile : e.file = pid)
      (hstep : Step w.driver e driver) :
      Move steady device w (pid, some e)
        ⟨driver, Function.update w.process pid ((w.process pid).answered next fd e)⟩

/-- What the driver saw of a history. -/
def eventsOf (labels : List (Pid × Option (Event Pid Addr))) : List (Event Pid Addr) :=
  labels.filterMap Prod.snd

end OSCourse.MessageSlotPrograms
