import OSCourse.MessageSlotList
import OSCourse.MessageSlotPrograms

/-!
# The points of the sender and the reader

Each process is at one of the points of its program, and its point says
which file it has open and what it has written or read so far. A call of one
process leaves the point of every other where it was, and the calls of all
processes together are a history of the driver.
-/

namespace OSCourse.MessageSlotStages

open Runs DecimalText MessageSlotDriver MessageSlotList MessageSlotPrograms

variable {Addr Pid : Type}

/-- The channel a program sets for its channel argument. -/
def channelArg (channel : Argument) : BitVec 64 := BitVec.ofInt 64 (strtol channel.text).1

/-- The call moves a message. -/
def moves (e : Event Pid Addr) : Bool :=
  match e.call with
  | .read _ _ _ _ => true
  | .write _ _ _ => true
  | _ => false

/-- A write of a message, and how it returned. -/
structure Wrote (device : List Byte → Option (Fin 256)) (deviceFile channel msg : Argument)
    (e : Event Pid Addr) (exit : WriteExit) : Prop where
  minor : device deviceFile.text = some e.target.minor
  set : e.target.privateData = channelArg channel
  nonzero : channelArg channel ≠ 0
  call : ∃ answers, e.call =
    .write (BitVec.ofNat 64 msg.text.length) (some fun i => msg.text.getD i 0) answers
  reply : e.reply = .written exit

/-- A read of a message, and how it returned. -/
structure Fetched (device : List Byte → Option (Fin 256)) (deviceFile channel : Argument)
    (e : Event Pid Addr) (exit : ReadExit) (bytes : List Byte) : Prop where
  minor : device deviceFile.text = some e.target.minor
  set : e.target.privateData = channelArg channel
  nonzero : channelArg channel ≠ 0
  call : ∃ tmp left, e.call = .read (BitVec.ofNat 64 bufLen) true tmp left
  reply : e.reply = .read exit bytes

section Stages

variable (steady : Prop) (device : List Byte → Option (Fin 256))
  (deviceFile channel msg : Argument)

/-- Why a sender with an open file fails, its error and what it wrote. -/
inductive SenderFailed : ℤ → List (Event Pid Addr) → Prop
  | refused (hzero : channelArg channel = 0) : SenderFailed einval []
  | strange {error : ℤ} (hdevice : device deviceFile.text = none) (hpos : 0 < error)
      (hsmall : error < 256) : SenderFailed error []
  | unsent {e : Event Pid Addr} {exit : WriteExit}
      (hwrote : Wrote device deviceFile channel msg e exit) (hexit : exit ≠ .done) :
      SenderFailed (-exit.code 0) [e]

/-- The status of a sender that has ended, and what it wrote. -/
inductive SenderLeft : ℤ → List (Event Pid Addr) → Prop
  | unopened : SenderLeft ebadf []
  | failed {error status : ℤ} {own : List (Event Pid Addr)}
      (hfailed : SenderFailed device deviceFile channel msg error own)
      (hreports : Reports steady error status) : SenderLeft status own
  | sent {e : Event Pid Addr} (hwrote : Wrote device deviceFile channel msg e .done) :
      SenderLeft 0 [e]

/-- The bytes a reader prints of what it got. -/
def printed (exit : ReadExit) (bytes : List Byte) : List Byte :=
  (bytes ++ List.replicate bufLen 0).take exit.code.toNat

/-- Why a reader with an open file fails, its error and what it read. -/
inductive ReaderFailed : ℤ → List (Event Pid Addr) → Prop
  | refused (hzero : channelArg channel = 0) : ReaderFailed einval []
  | strange {error : ℤ} (hdevice : device deviceFile.text = none) (hpos : 0 < error)
      (hsmall : error < 256) : ReaderFailed error []
  | missed {e : Event Pid Addr} {exit : ReadExit} {bytes : List Byte}
      (hfetched : Fetched device deviceFile channel e exit bytes) (hexit : exit.code < 0) :
      ReaderFailed (-exit.code) [e]

/-- The status of a reader that has ended, what it printed and what it read. -/
inductive ReaderLeft : ℤ → List Byte → List (Event Pid Addr) → Prop
  | unopened : ReaderLeft 1 [] []
  | failed {error status : ℤ} {own : List (Event Pid Addr)}
      (hfailed : ReaderFailed device deviceFile channel error own)
      (hreports : Reports steady error status) : ReaderLeft status [] own
  | got {e : Event Pid Addr} {exit : ReadExit} {bytes : List Byte}
      (hfetched : Fetched device deviceFile channel e exit bytes) (hexit : 0 ≤ exit.code) :
      ReaderLeft 0 (printed exit bytes) [e]

/-- The one file of a process, a slot or another, is at this descriptor. -/
def OneFile (fd other : Option ℕ) (n : ℕ) : Prop :=
  fd = some n ∧ other = none ∨ fd = none ∧ other = some n

/-- What an `open` that succeeds leaves: a file of a minor, or one that is no slot. -/
inductive Opened (n : ℕ) : Option ℕ → Option ℕ → Option OpenFile → Prop
  | slot {minor : Fin 256} (hdevice : device deviceFile.text = some minor) :
      Opened n (some n) none (some ⟨minor, 0⟩)
  | strange (hdevice : device deviceFile.text = none) : Opened n none (some n) none

/-- Where a sender is: the process, its open file, and its reads and writes. -/
inductive SenderStage : Process → Option OpenFile → List (Event Pid Addr) → Prop
  | main (name : Argument) :
      SenderStage ⟨senderMain [name.text, deviceFile.text, channel.text, msg.text], none, none, 0,
        []⟩ none []
  | unopened (error : ℤ) :
      SenderStage ⟨.call (.perror "Failed to open the device file") fun _ =>
          .call (.close (-1)) fun _ => sendFrom (-1) (strtol channel.text).1 msg.text,
        none, none, error, []⟩ none []
  | reported (errno : ℤ) :
      SenderStage ⟨.call (.close (-1)) fun _ => sendFrom (-1) (strtol channel.text).1 msg.text,
        none, none, errno, []⟩ none []
  | pressing :
      SenderStage ⟨sendFrom (-1) (strtol channel.text).1 msg.text, none, none, ebadf, []⟩ none []
  | barred :
      SenderStage ⟨.call (.perror "Failed to set channel ID using ioctl") fun _ =>
        exitAndClean (-1), none, none, ebadf, []⟩ none []
  | abandoned (errno : ℤ) : SenderStage ⟨exitAndClean (-1), none, none, errno, []⟩ none []
  | opened {n : ℕ} {fd other : Option ℕ} {file : Option OpenFile}
      (hopened : Opened device deviceFile n fd other file) :
      SenderStage ⟨sendFrom n (strtol channel.text).1 msg.text, fd, other, 0, []⟩ file []
  | addressed (fd : ℕ) {minor : Fin 256} (hdevice : device deviceFile.text = some minor)
      (hset : channelArg channel ≠ 0) :
      SenderStage ⟨sendMessage fd msg.text, some fd, none, 0, []⟩
        (some ⟨minor, channelArg channel⟩) []
  | failed {fd other : Option ℕ} {n : ℕ} (text : String) (file : Option OpenFile) {error : ℤ}
      {own : List (Event Pid Addr)} (hone : OneFile fd other n)
      (hfailed : SenderFailed device deviceFile channel msg error own) :
      SenderStage ⟨.call (.perror text) fun _ => exitAndClean n, fd, other, error, []⟩ file own
  | leaving {fd other : Option ℕ} {n : ℕ} (file : Option OpenFile) {error errno : ℤ}
      {own : List (Event Pid Addr)} (hone : OneFile fd other n)
      (hfailed : SenderFailed device deviceFile channel msg error own)
      (hreports : Reports steady error errno) :
      SenderStage ⟨exitAndClean n, fd, other, errno, []⟩ file own
  | sent (fd : ℕ) (file : Option OpenFile) {e : Event Pid Addr}
      (hwrote : Wrote device deviceFile channel msg e .done) :
      SenderStage ⟨.call (.close fd) fun _ => .exit 0, some fd, none, 0, []⟩ file [e]
  | gone (errno : ℤ) (file : Option OpenFile) {status : ℤ} {own : List (Event Pid Addr)}
      (hleft : SenderLeft steady device deviceFile channel msg status own) :
      SenderStage ⟨.exit status, none, none, errno, []⟩ file own

/-- Where a reader is: the process, its open file, and its reads and writes. -/
inductive ReaderStage : Process → Option OpenFile → List (Event Pid Addr) → Prop
  | main (name : Argument) :
      ReaderStage ⟨readerMain [name.text, deviceFile.text, channel.text], none, none, 0, []⟩ none []
  | unopened (error : ℤ) :
      ReaderStage ⟨.call (.perror "could not open file: %s") fun _ => .exit 1,
        none, none, error, []⟩ none []
  | opened {n : ℕ} {fd other : Option ℕ} {file : Option OpenFile}
      (hopened : Opened device deviceFile n fd other file) :
      ReaderStage ⟨.call .calloc fun allocated =>
          if allocated.value = 0 then .exit 1 else readFrom n (strtol channel.text).1,
        fd, other, 0, []⟩ file []
  | allocated {n : ℕ} {fd other : Option ℕ} {file : Option OpenFile}
      (hopened : Opened device deviceFile n fd other file) :
      ReaderStage ⟨readFrom n (strtol channel.text).1, fd, other, 0, []⟩ file []
  | addressed (fd : ℕ) {minor : Fin 256} (hdevice : device deviceFile.text = some minor)
      (hset : channelArg channel ≠ 0) :
      ReaderStage ⟨receiveMessage fd, some fd, none, 0, []⟩ (some ⟨minor, channelArg channel⟩) []
  | failed {fd other : Option ℕ} {n : ℕ} (text : String) (file : Option OpenFile) {error : ℤ}
      {own : List (Event Pid Addr)} (hone : OneFile fd other n)
      (hfailed : ReaderFailed device deviceFile channel error own) :
      ReaderStage ⟨.call (.perror text) fun _ => exitAndClean n, fd, other, error, []⟩ file own
  | leaving {fd other : Option ℕ} {n : ℕ} (file : Option OpenFile) {error errno : ℤ}
      {own : List (Event Pid Addr)} (hone : OneFile fd other n)
      (hfailed : ReaderFailed device deviceFile channel error own)
      (hreports : Reports steady error errno) :
      ReaderStage ⟨exitAndClean n, fd, other, errno, []⟩ file own
  | got (fd : ℕ) (file : Option OpenFile) {e : Event Pid Addr} {exit : ReadExit}
      {bytes : List Byte} (hfetched : Fetched device deviceFile channel e exit bytes)
      (hexit : 0 ≤ exit.code) :
      ReaderStage ⟨.call (.close fd) fun _ =>
          printMessage (bytes ++ List.replicate bufLen 0) exit.code, some fd, none, 0, []⟩ file [e]
  | closed (file : Option OpenFile) {e : Event Pid Addr} {exit : ReadExit} {bytes : List Byte}
      (hfetched : Fetched device deviceFile channel e exit bytes) (hexit : 0 ≤ exit.code) :
      ReaderStage ⟨printMessage (bytes ++ List.replicate bufLen 0) exit.code, none, none, 0, []⟩
        file [e]
  | unprinted (errno : ℤ) (file : Option OpenFile) {e : Event Pid Addr} {exit : ReadExit}
      {bytes : List Byte} (hfetched : Fetched device deviceFile channel e exit bytes)
      (hexit : 0 ≤ exit.code) :
      ReaderStage ⟨.call (.perror "failed writing to STDOUT") fun _ => .exit 0, none, none, errno,
        printed exit bytes⟩ file [e]
  | gone (fd other : Option ℕ) (errno : ℤ) (file : Option OpenFile) {status : ℤ}
      {output : List Byte} {own : List (Event Pid Addr)}
      (hleft : ReaderLeft steady device deviceFile channel status output own) :
      ReaderStage ⟨.exit status, fd, other, errno, output⟩ file own

end Stages

variable {steady : Prop} {device : List Byte → Option (Fin 256)} {jobs : Pid → Job}
  {name deviceFile channel msg : Argument}
  {w w' : World Pid Addr} {p p' : Process} {request : Syscall} {next : Answer → Program}
  {file file' : Option OpenFile} {own : List (Event Pid Addr)} {e : Event Pid Addr}
  {s s' : State Pid Addr} {labels : List (Pid × Option (Event Pid Addr))}

/-- No channel argument is rejected: a range error does not come with the
value it is checked for. -/
theorem rejects_eq (channel : List Byte) : rejects channel = false := by
  unfold rejects
  cases hrange : (strtol channel).2 with
  | false => exact Bool.and_false _
  | true =>
    rw [Bool.and_true, decide_eq_false_iff_not]
    rcases strtol_range hrange with h | h <;> rw [h] <;> decide

/-- A call that fails returns -1 and leaves its error in `errno`. -/
theorem resume_neg {code : ℤ} (h : code < 0) (bytes : List Byte) :
    p.resume next code bytes = { p with program := next ⟨-1, -code, bytes⟩, errno := -code } :=
  if_pos h

theorem resume_nonneg {code : ℤ} (h : ¬code < 0) (bytes : List Byte) :
    p.resume next code bytes = { p with program := next ⟨code, p.errno, bytes⟩ } :=
  if_neg h

/-- The codes of a write that fails. -/
theorem writeExit_code {exit : WriteExit} (h : exit ≠ .done) (length : BitVec 64) :
    exit.code length = exit.code 0 ∧ exit.code 0 < 0 := by
  cases exit with
  | done => exact absurd rfl h
  | _ => exact ⟨rfl, by decide⟩

/-- The code of a write that succeeds. -/
theorem length_code (msg : Argument) :
    ¬WriteExit.done.code (BitVec.ofNat 64 msg.text.length) < 0 := by
  have hshort := msg.short
  have hnat : (BitVec.ofNat 64 msg.text.length).toNat = msg.text.length := by
    rw [BitVec.toNat_ofNat]
    omega
  rw [WriteExit.code, BitVec.toInt_eq_toNat_of_lt (by omega)]
  omega

/-- A process without an open file has no descriptor of one. -/
theorem not_has {fd : ℤ} {other : Option ℕ} {program : Program} {errno : ℤ} {output : List Byte} :
    ¬Process.Has ⟨program, none, other, errno, output⟩ fd := by
  rintro ⟨n, hn, -⟩
  cases hn

theorem not_hasOther {fd : ℤ} {slot : Option ℕ} {program : Program} {errno : ℤ}
    {output : List Byte} : ¬Process.HasOther ⟨program, slot, none, errno, output⟩ fd := by
  rintro ⟨n, hn, -⟩
  cases hn

/-- A `close` of the one file leaves none open, and `errno`. -/
theorem OneFile.closed {fd other : Option ℕ} {n : ℕ} (h : OneFile fd other n) {errno : ℤ}
    {output : List Byte} {program : Program}
    (hquiet : Quiet steady device ⟨program, fd, other, errno, output⟩ next (.close n) p') :
    p' = ⟨next ⟨0, errno, []⟩, none, none, errno, output⟩ := by
  rcases h with ⟨rfl, rfl⟩ | ⟨rfl, rfl⟩
  · cases hquiet with
    | close hfd => rfl
    | closeOther hfd => exact absurd hfd not_hasOther
    | closeBad hfd hother => exact absurd ⟨n, rfl, rfl⟩ hfd
  · cases hquiet with
    | close hfd => exact absurd hfd not_has
    | closeOther hfd => rfl
    | closeBad hfd hother => exact absurd ⟨n, rfl, rfl⟩ hother

/-- An `ioctl` that goes by the driver is one on a file that is no slot. -/
theorem Opened.ioctl {n : ℕ} {fd other : Option ℕ} (h : Opened device deviceFile n fd other file)
    {command : BitVec 32} {param : BitVec 64} {program : Program}
    (hquiet : Quiet steady device ⟨program, fd, other, 0, []⟩ next (.ioctl n command param) p') :
    device deviceFile.text = none ∧ OneFile fd other n ∧ ∃ error : ℤ, 0 < error ∧ error < 256 ∧
      p' = ⟨next ⟨-1, error, []⟩, fd, other, error, []⟩ := by
  cases h with
  | slot hdevice =>
    cases hquiet with
    | ioctlOther hfd hpos hsmall => exact absurd hfd not_hasOther
    | ioctlBad hfd hother => exact absurd ⟨n, rfl, rfl⟩ hfd
  | strange hdevice =>
    cases hquiet with
    | @ioctlOther _ _ _ error hfd hpos hsmall =>
      refine ⟨hdevice, .inr ⟨rfl, rfl⟩, error, hpos, hsmall, ?_⟩
      rw [resume_neg (by omega), neg_neg]
    | ioctlBad hfd hother => exact absurd ⟨n, rfl, rfl⟩ hother

/-- The output behind the last `close` of a reader. -/
theorem printed_stage {e : Event Pid Addr} {exit : ReadExit} {bytes : List Byte}
    (hfetched : Fetched device deviceFile channel e exit bytes) (hexit : 0 ≤ exit.code)
    (value : ℤ) :
    ReaderStage steady device deviceFile channel (Process.resume
      ⟨printMessage (bytes ++ List.replicate bufLen 0) exit.code, none, none, 0,
        [] ++ printed exit bytes⟩
      (fun put => if put.value ≠ exit.code then
        .call (.perror "failed writing to STDOUT") fun _ => .exit 0 else .exit 0) value [])
      file [e] := by
  have hnext : ∀ (value errno : ℤ), ReaderStage steady device deviceFile channel
      ⟨if value ≠ exit.code then .call (.perror "failed writing to STDOUT") fun _ => .exit 0
        else .exit 0, none, none, errno, [] ++ printed exit bytes⟩ file [e] := by
    intro value errno
    by_cases hwhole : value ≠ exit.code
    · rw [if_pos hwhole]
      exact .unprinted errno file hfetched hexit
    · rw [if_neg hwhole]
      exact .gone _ _ _ _ (.got hfetched hexit)
  by_cases hfailed : value < 0
  · rw [resume_neg hfailed]
    exact hnext _ _
  · rw [resume_nonneg hfailed]
    exact hnext _ _

/-- A sender stays at one of its points when a call goes by the driver. -/
theorem SenderStage.quiet (h : SenderStage steady device deviceFile channel msg p file own)
    (hprogram : p.program = .call request next)
    (hquiet : Quiet steady device p next request p') :
    SenderStage steady device deviceFile channel msg p' file own := by
  cases h with
  | main name =>
    rw [senderMain, rejects_eq] at hprogram
    cases hprogram
    cases hquiet with
    | openFails hpos =>
      rw [resume_neg (by omega)]
      exact .unopened _
    | openOther fd hdevice =>
      rw [resume_nonneg (by omega)]
      simp only [if_neg (show ¬(fd : ℤ) < 0 by omega)]
      exact .opened (.strange hdevice)
  | unopened error =>
    cases hprogram
    cases hquiet with
    | perror hreports => exact .reported _
  | reported errno =>
    cases hprogram
    cases hquiet with
    | close hfd => exact absurd hfd not_has
    | closeOther hfd => exact absurd hfd not_hasOther
    | closeBad hfd hother => exact .pressing
  | pressing =>
    cases hprogram
    cases hquiet with
    | ioctlOther hfd hpos hsmall => exact absurd hfd not_hasOther
    | ioctlBad hfd hother => exact .barred
  | barred =>
    cases hprogram
    cases hquiet with
    | perror hreports => exact .abandoned _
  | abandoned errno =>
    cases hprogram
    cases hquiet with
    | close hfd => exact absurd hfd not_has
    | closeOther hfd => exact absurd hfd not_hasOther
    | closeBad hfd hother => exact .gone _ _ .unopened
  | opened hopened =>
    cases hprogram
    obtain ⟨hdevice, hone, error, hpos, hsmall, rfl⟩ := hopened.ioctl hquiet
    exact .failed _ _ hone (.strange hdevice hpos hsmall)
  | addressed fd hdevice hset =>
    cases hprogram
    cases hquiet with
    | writeBad hfd hother => exact absurd ⟨fd, rfl, rfl⟩ hfd
  | failed text file hone hfailed =>
    cases hprogram
    cases hquiet with
    | perror hreports => exact .leaving _ hone hfailed hreports
  | leaving file hone hfailed hreports =>
    cases hprogram
    rw [hone.closed hquiet]
    exact .gone _ _ (.failed hfailed hreports)
  | sent fd file hwrote =>
    cases hprogram
    rw [OneFile.closed (.inl ⟨rfl, rfl⟩) hquiet]
    exact .gone _ _ (.sent hwrote)
  | gone errno file hleft => cases hprogram

/-- A reader stays at one of its points when a call goes by the driver. -/
theorem ReaderStage.quiet (h : ReaderStage steady device deviceFile channel p file own)
    (hprogram : p.program = .call request next)
    (hquiet : Quiet steady device p next request p') :
    ReaderStage steady device deviceFile channel p' file own := by
  cases h with
  | main name =>
    rw [readerMain, rejects_eq] at hprogram
    cases hprogram
    cases hquiet with
    | openFails hpos =>
      rw [resume_neg (by omega)]
      exact .unopened _
    | openOther fd hdevice =>
      rw [resume_nonneg (by omega)]
      simp only [if_neg (show ¬(fd : ℤ) < 0 by omega)]
      exact .opened (.strange hdevice)
  | unopened error =>
    cases hprogram
    cases hquiet with
    | perror hreports => exact .gone _ _ _ _ .unopened
  | opened hopened =>
    cases hprogram
    cases hquiet with
    | @calloc value hvalue =>
      rw [resume_nonneg (by omega)]
      by_cases hnull : value = 0
      · simp only [if_pos hnull]
        exact .gone _ _ _ _ .unopened
      · simp only [if_neg hnull]
        exact .allocated hopened
  | allocated hopened =>
    cases hprogram
    obtain ⟨hdevice, hone, error, hpos, hsmall, rfl⟩ := hopened.ioctl hquiet
    exact .failed _ _ hone (.strange hdevice hpos hsmall)
  | addressed fd hdevice hset =>
    cases hprogram
    cases hquiet with
    | readBad hfd hother => exact absurd ⟨fd, rfl, rfl⟩ hfd
  | failed text file hone hfailed =>
    cases hprogram
    cases hquiet with
    | perror hreports => exact .leaving _ hone hfailed hreports
  | leaving file hone hfailed hreports =>
    cases hprogram
    rw [hone.closed hquiet]
    exact .gone _ _ _ _ (.failed hfailed hreports)
  | got fd file hfetched hexit =>
    cases hprogram
    rw [OneFile.closed (.inl ⟨rfl, rfl⟩) hquiet]
    exact .closed _ hfetched hexit
  | closed file hfetched hexit =>
    cases hprogram
    cases hquiet with
    | @print _ value hvalue => exact printed_stage hfetched hexit value
  | unprinted errno file hfetched hexit =>
    cases hprogram
    cases hquiet with
    | perror hreports => exact .gone _ _ _ _ (.got hfetched hexit)
  | gone fd other errno file hleft => cases hprogram

/-- Only reads and writes are kept of what a process has called. -/
theorem filter_moves (h : moves e = false) : own ++ [e].filter moves = own := by
  simp [h]

theorem filter_moved (h : moves e = true) : own ++ [e].filter moves = own ++ [e] := by
  simp [h]

/-- What a failed `open` leaves, and what a successful one does. -/
theorem answered_open {fd : ℕ} {minor : Fin 256} {header : Option (Addr × LinkedList Addr)}
    {exit : OpenExit} (hcall : e.call = .open minor header) (hreply : e.reply = .opened exit) :
    (exit.code < 0 ∧ p.answered next fd e =
        { p with program := next ⟨-1, -exit.code, []⟩, errno := -exit.code }) ∨
      (¬exit.code < 0 ∧ p.answered next fd e =
        { p with program := next ⟨fd, p.errno, []⟩, fd := some fd }) := by
  have hanswered : p.answered next fd e =
      if exit.code < 0 then p.resume next exit.code []
      else { p with fd := some fd }.resume next fd [] := by
    rw [Process.answered, hcall, hreply]
  by_cases hcode : exit.code < 0
  · rw [hanswered, if_pos hcode, resume_neg hcode]
    exact .inl ⟨hcode, rfl⟩
  · rw [hanswered, if_neg hcode, resume_nonneg (by omega)]
    exact .inr ⟨hcode, rfl⟩

/-- What an `ioctl` without a channel leaves, and what one with a channel does. -/
theorem answered_ioctl {fd : ℕ} {param : BitVec 64} (hcall : e.call = .ioctl msgSlotChannel param)
    (hreply : e.reply = .ioctl (deviceIoctl e.target msgSlotChannel param).1) :
    (param = 0 ∧ p.answered next fd e =
        { p with program := next ⟨-1, einval, []⟩, errno := einval }) ∨
      (param ≠ 0 ∧ p.answered next fd e = { p with program := next ⟨0, p.errno, []⟩ } ∧
        (deviceIoctl e.target msgSlotChannel param).2 = { e.target with privateData := param }) := by
  have hanswered : p.answered next fd e =
      p.resume next (deviceIoctl e.target msgSlotChannel param).1 [] := by
    rw [Process.answered, hcall, hreply]
  by_cases hparam : param = 0
  · rw [hanswered, deviceIoctl, if_neg fun h => h.2 hparam]
    exact .inl ⟨hparam, resume_neg (by change -einval < 0; decide) []⟩
  · rw [hanswered, deviceIoctl, if_pos ⟨rfl, hparam⟩]
    exact .inr ⟨hparam, resume_nonneg (lt_irrefl _) [], rfl⟩

/-- What a write leaves. -/
theorem answered_write {fd : ℕ} {length : BitVec 64} {buffer : Option (ℕ → Byte)}
    {answers : WriteAnswers Addr} {exit : WriteExit} (hcall : e.call = .write length buffer answers)
    (hreply : e.reply = .written exit) :
    p.answered next fd e = p.resume next (exit.code length) [] := by
  rw [Process.answered, hcall, hreply]

/-- What a read leaves. -/
theorem answered_read {fd : ℕ} {length : BitVec 64} {buffer : Bool}
    {tmp : Option (Addr × (ℕ → Byte))} {left : ℕ} {exit : ReadExit} {bytes : List Byte}
    (hcall : e.call = .read length buffer tmp left) (hreply : e.reply = .read exit bytes) :
    p.answered next fd e = p.resume next exit.code bytes := by
  rw [Process.answered, hcall, hreply]

variable [DecidableEq Addr] [DecidableEq Pid]

/-- What a call does to the open files, and the shape of its reply. -/
theorem files_step (hstep : Step s e s') :
    (∃ minor header exit, e.call = .open minor header ∧ e.reply = .opened exit ∧
        s'.files = if exit.code < 0 then s.files
          else Function.update s.files e.file (some ⟨minor, 0⟩)) ∨
      s.files e.file = some e.target ∧
        ((∃ command param, e.call = .ioctl command param ∧
            e.reply = .ioctl (deviceIoctl e.target command param).1 ∧
            s'.files = Function.update s.files e.file (deviceIoctl e.target command param).2) ∨
          s'.files = s.files ∧
            ((∃ length buffer tmp left exit bytes, e.call = .read length buffer tmp left ∧
                e.reply = .read exit bytes) ∨
              ∃ length buffer answers exit, e.call = .write length buffer answers ∧
                e.reply = .written exit)) := by
  cases hstep with
  | «open» minor header hcall htarget hclosed hpossible hperform =>
    have hexit : ∃ exit, e.reply = .opened exit ∧ s'.files = if exit.code < 0 then s.files
        else Function.update s.files e.file (some ⟨minor, 0⟩) := by
      cases hdevice : s.devices minor.succ with
      | some lst =>
        simp only [performOpen, deviceOpen, hdevice, Prod.mk.injEq] at hperform
        obtain ⟨hreply, rfl⟩ := hperform
        exact ⟨_, hreply.symm, rfl⟩
      | none =>
        cases header with
        | none =>
          simp only [performOpen, deviceOpen, hdevice, Prod.mk.injEq] at hperform
          obtain ⟨hreply, rfl⟩ := hperform
          exact ⟨_, hreply.symm, rfl⟩
        | some block =>
          simp only [performOpen, deviceOpen, hdevice, Prod.mk.injEq] at hperform
          obtain ⟨hreply, rfl⟩ := hperform
          exact ⟨_, hreply.symm, rfl⟩
    obtain ⟨exit, hreply, hfiles⟩ := hexit
    exact .inl ⟨minor, header, exit, hcall, hreply, hfiles⟩
  | on hfile hpossible hperform =>
    obtain ⟨f, target, call, reply⟩ := e
    refine .inr ⟨hfile, ?_⟩
    cases call with
    | «open» minor header => cases hperform
    | ioctl command param =>
      simp only [performOn, Except.ok.injEq, Prod.mk.injEq] at hperform
      obtain ⟨hreply, rfl⟩ := hperform
      exact .inl ⟨command, param, rfl, hreply.symm, rfl⟩
    | read length buffer tmp left =>
      obtain ⟨⟨exit, bytes, memory⟩, hread, hresult⟩ := bind_eq_ok hperform
      cases hresult
      exact .inr ⟨rfl, .inl ⟨length, buffer, tmp, left, exit, bytes, rfl, rfl⟩⟩
    | write length buffer answers =>
      obtain ⟨⟨exit, memory⟩, hwrite, hresult⟩ := bind_eq_ok hperform
      cases hresult
      exact .inr ⟨rfl, .inr ⟨length, buffer, answers, exit, rfl, rfl⟩⟩

/-- Calls through one file leave the others. -/
theorem files_of_ne {f : Pid} (hstep : Step s e s') (hne : f ≠ e.file) :
    s'.files f = s.files f := by
  rcases files_step hstep with ⟨minor, header, exit, -, -, hfiles⟩ |
    ⟨-, ⟨command, param, -, -, hfiles⟩ | ⟨hfiles, -⟩⟩
  · rw [hfiles]
    split
    · rfl
    · exact Function.update_of_ne hne _ _
  · rw [hfiles]
    exact Function.update_of_ne hne _ _
  · rw [hfiles]

/-- An `open` replies, and a file that was closed is open unless it failed. -/
theorem files_open {minor : Fin 256} {header : Option (Addr × LinkedList Addr)}
    (hstep : Step s e s') (hcall : e.call = .open minor header) (hclosed : s.files e.file = none) :
    ∃ exit, e.reply = .opened exit ∧
      s'.files e.file = if exit.code < 0 then none else some ⟨minor, 0⟩ := by
  rcases files_step hstep with ⟨minor', header', exit, hcall', hreply, hfiles⟩ | ⟨hfile, -⟩
  · obtain ⟨rfl, rfl⟩ := Call.open.inj (hcall.symm.trans hcall')
    refine ⟨exit, hreply, ?_⟩
    rw [hfiles]
    split
    · exact hclosed
    · exact Function.update_self _ _ _
  · rw [hclosed] at hfile
    cases hfile

/-- An `ioctl` goes by the file it is for. -/
theorem files_ioctl {command : BitVec 32} {param : BitVec 64} (hstep : Step s e s')
    (hcall : e.call = .ioctl command param) :
    s.files e.file = some e.target ∧ e.reply = .ioctl (deviceIoctl e.target command param).1 ∧
      s'.files e.file = some (deviceIoctl e.target command param).2 := by
  rcases files_step hstep with ⟨minor, header, exit, hcall', -⟩ |
    ⟨hfile, ⟨command', param', hcall', hreply, hfiles⟩ |
      ⟨-, ⟨length, buffer, tmp, left, exit, bytes, hcall', -⟩ |
        ⟨length, buffer, answers, exit, hcall', -⟩⟩⟩
  · cases hcall.symm.trans hcall'
  · obtain ⟨rfl, rfl⟩ := Call.ioctl.inj (hcall.symm.trans hcall')
    refine ⟨hfile, hreply, ?_⟩
    rw [hfiles, Function.update_self]
  · cases hcall.symm.trans hcall'
  · cases hcall.symm.trans hcall'

/-- A read goes by the file it is for, and leaves it. -/
theorem files_read {length : BitVec 64} {buffer : Bool} {tmp : Option (Addr × (ℕ → Byte))}
    {left : ℕ} (hstep : Step s e s') (hcall : e.call = .read length buffer tmp left) :
    s.files e.file = some e.target ∧ s'.files = s.files ∧ ∃ exit bytes, e.reply = .read exit bytes := by
  rcases files_step hstep with ⟨minor, header, exit, hcall', -⟩ |
    ⟨hfile, ⟨command, param, hcall', -⟩ |
      ⟨hfiles, ⟨length', buffer', tmp', left', exit, bytes, hcall', hreply⟩ |
        ⟨length', buffer', answers, exit, hcall', -⟩⟩⟩
  · cases hcall.symm.trans hcall'
  · cases hcall.symm.trans hcall'
  · exact ⟨hfile, hfiles, exit, bytes, hreply⟩
  · cases hcall.symm.trans hcall'

/-- A write goes by the file it is for, and leaves it. -/
theorem files_write {length : BitVec 64} {buffer : Option (ℕ → Byte)} {answers : WriteAnswers Addr}
    (hstep : Step s e s') (hcall : e.call = .write length buffer answers) :
    s.files e.file = some e.target ∧ s'.files = s.files ∧ ∃ exit, e.reply = .written exit := by
  rcases files_step hstep with ⟨minor, header, exit, hcall', -⟩ |
    ⟨hfile, ⟨command, param, hcall', -⟩ |
      ⟨hfiles, ⟨length', buffer', tmp', left', exit, bytes, hcall', -⟩ |
        ⟨length', buffer', answers', exit, hcall', hreply⟩⟩⟩
  · cases hcall.symm.trans hcall'
  · cases hcall.symm.trans hcall'
  · cases hcall.symm.trans hcall'
  · exact ⟨hfile, hfiles, exit, hreply⟩

/-- An `ioctl` that reaches the driver is one on a file of a minor. -/
theorem Opened.minor {n : ℕ} {fd other : Option ℕ} (h : Opened device deviceFile n fd other file)
    {program : Program} {errno : ℤ} {output : List Byte}
    (hfd : Process.Has ⟨program, fd, other, errno, output⟩ n) :
    ∃ minor, device deviceFile.text = some minor ∧ fd = some n ∧ other = none ∧
      file = some ⟨minor, 0⟩ := by
  cases h with
  | slot hdevice => exact ⟨_, hdevice, rfl, rfl, rfl⟩
  | strange hdevice => exact absurd hfd not_has

/-- A sender goes to its next point when the driver has replied. -/
theorem SenderStage.served {fd : ℕ}
    (h : SenderStage steady device deviceFile channel msg p file own)
    (hfile : s.files e.file = file) (hprogram : p.program = .call request next)
    (hserved : Served device p request e.call) (hstep : Step s e s') :
    SenderStage steady device deviceFile channel msg (p.answered next fd e) (s'.files e.file)
      (own ++ [e].filter moves) := by
  generalize hcall : e.call = call at hserved
  cases h with
  | main name =>
    rw [senderMain, rejects_eq] at hprogram
    cases hprogram
    cases hserved with
    | «open» header hdevice =>
      obtain ⟨exit, hreply, hfile'⟩ := files_open hstep hcall hfile
      rw [filter_moves (by rw [moves, hcall]), hfile']
      rcases answered_open hcall hreply with ⟨hcode, hleft⟩ | ⟨hcode, hleft⟩
      · rw [hleft, if_pos hcode]
        exact .unopened _
      · rw [hleft, if_neg hcode]
        simp only [if_neg (show ¬(fd : ℤ) < 0 by omega)]
        exact .opened (.slot hdevice)
  | opened hopened =>
    cases hprogram
    cases hserved with
    | ioctl command param hfd =>
      obtain ⟨minor, hdevice, rfl, rfl, rfl⟩ := hopened.minor hfd
      obtain ⟨htarget, hreply, hfile'⟩ := files_ioctl hstep hcall
      rw [filter_moves (by rw [moves, hcall]), hfile']
      rcases answered_ioctl hcall hreply with ⟨hparam, hleft⟩ | ⟨hparam, hleft, hset⟩
      · rw [hleft]
        exact .failed _ _ (.inl ⟨rfl, rfl⟩) (.refused hparam)
      · rw [hleft, hset, ← Option.some.inj (hfile.symm.trans htarget)]
        exact .addressed _ hdevice hparam
  | addressed fd' hdevice hset =>
    cases hprogram
    cases hserved with
    | write text answers hfd =>
      obtain ⟨htarget, -, exit, hreply⟩ := files_write hstep hcall
      have hsame := Option.some.inj (hfile.symm.trans htarget)
      have hwrote : Wrote device deviceFile channel msg e exit :=
        ⟨hsame ▸ hdevice, hsame ▸ rfl, hset, ⟨answers, hcall⟩, hreply⟩
      rw [filter_moved (by rw [moves, hcall]), List.nil_append, answered_write hcall hreply]
      by_cases hexit : exit = .done
      · subst hexit
        rw [resume_nonneg (length_code msg)]
        simp only [if_neg (length_code msg)]
        exact .sent fd' _ hwrote
      · obtain ⟨hcode, hneg⟩ := writeExit_code hexit (BitVec.ofNat 64 msg.text.length)
        rw [hcode, resume_neg hneg]
        exact .failed _ _ (.inl ⟨rfl, rfl⟩) (.unsent hwrote hexit)
  | pressing =>
    cases hprogram
    cases hserved with
    | ioctl command param hfd => exact absurd hfd not_has
  | gone errno file hleft => cases hprogram
  | _ =>
    cases hprogram
    cases hserved

/-- A reader goes to its next point when the driver has replied. -/
theorem ReaderStage.served {fd : ℕ} (h : ReaderStage steady device deviceFile channel p file own)
    (hfile : s.files e.file = file) (hprogram : p.program = .call request next)
    (hserved : Served device p request e.call) (hstep : Step s e s') :
    ReaderStage steady device deviceFile channel (p.answered next fd e) (s'.files e.file)
      (own ++ [e].filter moves) := by
  generalize hcall : e.call = call at hserved
  cases h with
  | main name =>
    rw [readerMain, rejects_eq] at hprogram
    cases hprogram
    cases hserved with
    | «open» header hdevice =>
      obtain ⟨exit, hreply, hfile'⟩ := files_open hstep hcall hfile
      rw [filter_moves (by rw [moves, hcall]), hfile']
      rcases answered_open hcall hreply with ⟨hcode, hleft⟩ | ⟨hcode, hleft⟩
      · rw [hleft, if_pos hcode]
        exact .unopened _
      · rw [hleft, if_neg hcode]
        simp only [if_neg (show ¬(fd : ℤ) < 0 by omega)]
        exact .opened (.slot hdevice)
  | allocated hopened =>
    cases hprogram
    cases hserved with
    | ioctl command param hfd =>
      obtain ⟨minor, hdevice, rfl, rfl, rfl⟩ := hopened.minor hfd
      obtain ⟨htarget, hreply, hfile'⟩ := files_ioctl hstep hcall
      rw [filter_moves (by rw [moves, hcall]), hfile']
      rcases answered_ioctl hcall hreply with ⟨hparam, hleft⟩ | ⟨hparam, hleft, hset⟩
      · rw [hleft]
        exact .failed _ _ (.inl ⟨rfl, rfl⟩) (.refused hparam)
      · rw [hleft, hset, ← Option.some.inj (hfile.symm.trans htarget)]
        exact .addressed _ hdevice hparam
  | addressed fd' hdevice hset =>
    cases hprogram
    cases hserved with
    | read length tmp left hfd =>
      obtain ⟨htarget, -, exit, bytes, hreply⟩ := files_read hstep hcall
      have hsame := Option.some.inj (hfile.symm.trans htarget)
      have hfetched : Fetched device deviceFile channel e exit bytes :=
        ⟨hsame ▸ hdevice, hsame ▸ rfl, hset, ⟨tmp, left, hcall⟩, hreply⟩
      rw [filter_moved (by rw [moves, hcall]), List.nil_append, answered_read hcall hreply]
      by_cases hcode : exit.code < 0
      · rw [resume_neg hcode]
        exact .failed _ _ (.inl ⟨rfl, rfl⟩) (.missed hfetched hcode)
      · rw [resume_nonneg hcode]
        simp only [if_neg hcode]
        exact .got fd' _ hfetched (not_lt.mp hcode)
  | gone fd' other errno file hleft => cases hprogram
  | _ =>
    cases hprogram
    cases hserved

/-- The reads and writes of a process in a history. -/
def transfersOf (pid : Pid) (events : List (Event Pid Addr)) : List (Event Pid Addr) :=
  (events.filter fun e => e.file = pid).filter moves

/-- Where a process is that was started with the wrong number of arguments, which
it reports with one call. -/
inductive Misused (request : Syscall) (output : List Byte) : Process → Prop
  | main : Misused request output ⟨.call request fun _ => .exit 1, none, none, 0, []⟩
  | gone (errno : ℤ) : Misused request output ⟨.exit 1, none, none, errno, output⟩

/-- Where a process with a job is. -/
def Placed (steady : Prop) (device : List Byte → Option (Fin 256)) (p : Process)
    (file : Option OpenFile) (own : List (Event Pid Addr)) : Job → Prop
  | .sender [_, deviceFile, channel, msg] =>
    SenderStage steady device deviceFile channel msg p file own
  | .reader [_, deviceFile, channel] => ReaderStage steady device deviceFile channel p file own
  | .sender _ => Misused (.perror "Incorrect number of arguments provided") [] p ∧ own = []
  | .reader _ => Misused (.print usage) usage p ∧ own = []

omit [DecidableEq Addr] [DecidableEq Pid] in
/-- Every program starts at its first point. -/
theorem placed_main (job : Job) :
    Placed steady device ⟨job.main, none, none, 0, []⟩ none ([] : List (Event Pid Addr)) job := by
  cases job with
  | sender args =>
    match args with
    | [name, deviceFile, channel, msg] => exact SenderStage.main name
    | [] | [_] | [_, _] | [_, _, _] | _ :: _ :: _ :: _ :: _ :: _ => exact ⟨.main, rfl⟩
  | reader args =>
    match args with
    | [name, deviceFile, channel] => exact ReaderStage.main name
    | [] | [_] | [_, _] | _ :: _ :: _ :: _ :: _ => exact ⟨.main, rfl⟩

omit [DecidableEq Addr] [DecidableEq Pid] in
theorem Placed.quiet {job : Job} (h : Placed steady device p file own job)
    (hprogram : p.program = .call request next)
    (hquiet : Quiet steady device p next request p') : Placed steady device p' file own job := by
  unfold Placed at h ⊢
  split at h
  · exact SenderStage.quiet h hprogram hquiet
  · exact ReaderStage.quiet h hprogram hquiet
  · obtain ⟨⟨⟩ | errno, hown⟩ := h
    · cases hprogram
      cases hquiet with
      | perror hreports => exact ⟨.gone _, hown⟩
    · cases hprogram
  · obtain ⟨⟨⟩ | errno, hown⟩ := h
    · cases hprogram
      cases hquiet with
      | @print _ value hvalue =>
        by_cases hfailed : value < 0
        · rw [resume_neg hfailed]
          exact ⟨.gone _, hown⟩
        · rw [resume_nonneg hfailed]
          exact ⟨.gone _, hown⟩
    · cases hprogram

theorem Placed.served {fd : ℕ} {job : Job} (h : Placed steady device p file own job)
    (hfile : s.files e.file = file) (hprogram : p.program = .call request next)
    (hserved : Served device p request e.call) (hstep : Step s e s') :
    Placed steady device (p.answered next fd e) (s'.files e.file) (own ++ [e].filter moves)
      job := by
  unfold Placed at h ⊢
  split at h
  · exact SenderStage.served h hfile hprogram hserved hstep
  · exact ReaderStage.served h hfile hprogram hserved hstep
  · obtain ⟨⟨⟩ | errno, hown⟩ := h
    · cases hprogram
      cases hserved
    · cases hprogram
  · obtain ⟨⟨⟩ | errno, hown⟩ := h
    · cases hprogram
      cases hserved
    · cases hprogram

/-- The calls of all processes are a history of the driver. -/
theorem driver_run (run : Run (Move steady device) (boot jobs) labels w) :
    Run Step start (eventsOf labels) w.driver := by
  refine Run.project World.driver Prod.snd ?_ ?_ run
  · rintro v ⟨pid, event⟩ v' hmove hsilent
    cases hmove with
    | quiet hprogram hquiet => rfl
    | driver fd hprogram hserved hfile hstep => cases hsilent
  · rintro v ⟨pid, event⟩ v' e hmove hseen
    cases hmove with
    | quiet hprogram hquiet => cases hseen
    | driver fd hprogram hserved hfile hstep =>
      cases hseen
      exact hstep

omit [DecidableEq Addr] [DecidableEq Pid] in
/-- A call that goes by the driver is no event. -/
theorem eventsOf_quiet (pid : Pid) : eventsOf (labels ++ [(pid, none)]) = eventsOf labels := by
  rw [eventsOf, List.filterMap_append]
  exact List.append_nil _

omit [DecidableEq Addr] [DecidableEq Pid] in
theorem eventsOf_driver (pid : Pid) :
    eventsOf (labels ++ [(pid, some e)]) = eventsOf labels ++ [e] := by
  rw [eventsOf, List.filterMap_append]
  rfl

omit [DecidableEq Addr] in
/-- A call of a process counts among its own, and among those of no other. -/
theorem transfersOf_own (events : List (Event Pid Addr)) :
    transfersOf e.file (events ++ [e]) = transfersOf e.file events ++ [e].filter moves := by
  rw [transfersOf, List.filter_append, List.filter_append, List.filter_cons_of_pos (by simp)]
  rfl

omit [DecidableEq Addr] in
theorem transfersOf_other {pid : Pid} (hne : pid ≠ e.file) (events : List (Event Pid Addr)) :
    transfersOf pid (events ++ [e]) = transfersOf pid events := by
  rw [transfersOf, List.filter_append, List.filter_append,
    List.filter_cons_of_neg (by simpa using Ne.symm hne)]
  exact List.append_nil _

omit [DecidableEq Addr] in
/-- Where a process makes a call, that call is among its own. -/
theorem mem_transfers {events : List (Event Pid Addr)} (he : e ∈ events) (hmoves : moves e = true) :
    e ∈ transfersOf e.file events := by
  rw [transfersOf, List.mem_filter, List.mem_filter]
  exact ⟨⟨he, decide_eq_true rfl⟩, hmoves⟩

omit [DecidableEq Addr] in
/-- Conversely its own calls are in the history. -/
theorem transfers_mem {events : List (Event Pid Addr)} {pid : Pid}
    (he : e ∈ transfersOf pid events) :
    e ∈ events ∧ e.file = pid := by
  rw [transfersOf, List.mem_filter, List.mem_filter] at he
  exact ⟨he.1.1, of_decide_eq_true he.1.2⟩

/-- Every process is at one of the points of its program. -/
theorem run_placed (run : Run (Move steady device) (boot jobs) labels w) (pid : Pid) :
    Placed steady device (w.process pid) (w.driver.files pid) (transfersOf pid (eventsOf labels))
      (jobs pid) := by
  induction run with
  | nil => exact placed_main (jobs pid)
  | @snoc labels v label w run hmove ih =>
    cases hmove with
    | @quiet mover request next p hprogram hquiet =>
      rw [eventsOf_quiet]
      by_cases hpid : pid = mover
      · subst hpid
        dsimp only
        rw [Function.update_self]
        exact Placed.quiet ih hprogram hquiet
      · dsimp only
        rw [Function.update_of_ne hpid]
        exact ih
    | @driver mover request next e driver fd hprogram hserved hfile hstep =>
      subst hfile
      rw [eventsOf_driver]
      by_cases hpid : pid = e.file
      · subst hpid
        dsimp only
        rw [transfersOf_own, Function.update_self]
        exact Placed.served ih rfl hprogram hserved hstep
      · dsimp only
        rw [transfersOf_other hpid, Function.update_of_ne hpid, files_of_ne hstep hpid]
        exact ih

end OSCourse.MessageSlotStages
