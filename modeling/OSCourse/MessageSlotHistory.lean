import OSCourse.MessageSlotRefinement
import OSCourse.Runs

/-!
# Runs of the driver and the messages they leave

The store after a history is computed from its events alone, and every
reachable state represents it. As long as no write fails behind its node,
the message of a channel is the one of the newest successful write, whatever
files the writes and the read went through.
-/

namespace OSCourse.MessageSlotHistory

open Runs MessageSlotDriver MessageSlotList MessageSlotInsert MessageSlotStore
  MessageSlotRefinement

variable {Addr File : Type}

/-- What an event does to the store. -/
def Store.record (store : Store) (e : Event File Addr) : Store :=
  match e.call, e.reply with
  | .open minor _, .opened .initialised => Function.update store minor (some fun _ => none)
  | .write length buffer answers, .written exit => store.wrote e.target length buffer answers exit
  | _, _ => store

/-- What an event does to the pointers of empty headers. -/
def recordGarbage (garbage : Fin 256 → Option Addr) (e : Event File Addr) :
    Fin 256 → Option Addr :=
  match e.call, e.reply with
  | .open minor header, .opened .initialised =>
    Function.update garbage minor (header.bind fun block => block.2.first)
  | _, _ => garbage

/-- The store after a history. -/
def storeAfter (events : List (Event File Addr)) : Store := events.foldl Store.record Store.empty

/-- The pointers of empty headers after a history. -/
def garbageAfter (events : List (Event File Addr)) : Fin 256 → Option Addr :=
  events.foldl recordGarbage fun _ => none

theorem storeAfter_snoc (events : List (Event File Addr)) (e : Event File Addr) :
    storeAfter (events ++ [e]) = Store.record (storeAfter events) e := by
  simp [storeAfter]

theorem garbageAfter_snoc (events : List (Event File Addr)) (e : Event File Addr) :
    garbageAfter (events ++ [e]) = recordGarbage (garbageAfter events) e := by
  simp [garbageAfter]

/-- The list of a minor has a node, or its header points nowhere. -/
def Settled (store : Store) (garbage : Fin 256 → Option Addr) (minor : Fin 256) : Prop :=
  garbage minor = none ∨ ∃ slot k message, store minor = some slot ∧ slot k = some message

/-- The reply the store demands. -/
def Store.Allows (store : Store) (garbage : Fin 256 → Option Addr) (e : Event File Addr) : Prop :=
  match e.call with
  | .open minor header =>
    e.reply = .opened (if (store minor).isSome then .reopened
      else if header.isSome then .initialised else .noHeader)
  | .ioctl command param => e.reply = .ioctl (deviceIoctl e.target command param).1
  | .read length buffer tmp left =>
    ∃ exit bytes, e.reply = .read exit bytes ∧ (Settled store garbage e.target.minor →
      (exit, bytes) = store.read e.target length buffer tmp.isSome left)
  | .write length buffer answers =>
    e.reply = .written (store.writeExit e.target length buffer answers)

variable {s s' : State File Addr} {store : Store} {garbage : Fin 256 → Option Addr}
  {cells : Fin 256 → List (Cell Addr)} {e : Event File Addr} {events : List (Event File Addr)}

/-- The layout is about the devices and the heap. -/
theorem Layout.files (h : Layout s store garbage cells) (hdevices : s'.devices = s.devices)
    (hmemory : s'.memory = s.memory) : Layout s' store garbage cells := by
  obtain ⟨devices, memory, files⟩ := s
  obtain ⟨devices', memory', files'⟩ := s'
  obtain rfl : devices' = devices := hdevices
  obtain rfl : memory' = memory := hmemory
  exact ⟨h.opened, h.lists, h.valid, h.apart, h.live, h.room⟩

theorem Represents.files (h : Represents s store garbage) (hdevices : s'.devices = s.devices)
    (hmemory : s'.memory = s.memory) : Represents s' store garbage := by
  obtain ⟨cells, hlayout⟩ := h
  exact ⟨cells, Layout.files hlayout hdevices hmemory⟩

/-- On a settled minor an empty list has a null pointer. -/
theorem Settled.clean {minor : Fin 256} (h : Settled store garbage minor)
    (hlayout : Layout s store garbage cells) (hempty : cells minor = []) :
    garbage minor = none := by
  rcases h with hnone | ⟨slot, k, message, hslot, hk⟩
  · exact hnone
  · rw [hlayout.opened, hempty] at hslot
    obtain ⟨lst, _, rfl⟩ := Option.map_eq_some_iff.mp hslot
    cases hk

variable [DecidableEq Addr]

/-- A new header is an empty list. -/
theorem Layout.open (h : Layout s store garbage cells) {minor : Fin 256}
    (hdevice : s.devices minor.succ = none) {lst : Addr} {contents : LinkedList Addr}
    (hdead : s.memory.heap lst = none) (files : File → Option OpenFile) :
    Represents
      ⟨Function.update s.devices minor.succ (some lst),
        s.memory.set lst (.list { contents with size := 0 }), files⟩
      (Function.update store minor (some fun _ => none))
      (Function.update garbage minor contents.first) := by
  have hother : ∀ i lst', i ≠ minor → Function.update s.devices minor.succ (some lst) i.succ =
      some lst' → s.devices i.succ = some lst' := by
    intro i lst' hi heq
    rwa [Function.update_of_ne (by simpa using hi)] at heq
  have hapart : ∀ i lst' a, s.devices i.succ = some lst' → Uses lst' (cells i) a → a ≠ lst := by
    rintro i lst' a hi huses rfl
    obtain ⟨first, hlist, _⟩ := h.lists i lst' hi
    exact hlist.not_uses hdead huses
  refine ⟨Function.update cells minor [], ?_, ?_, ?_, ?_, ?_, ?_⟩
  · intro i
    by_cases hi : i = minor
    · subst hi
      simp only [Function.update_self, Option.map_some]
      rfl
    · have hsucc : i.succ ≠ minor.succ := fun heq => hi (Fin.succ_inj.mp heq)
      simp only [Function.update_of_ne hi, Function.update_of_ne hsucc]
      exact h.opened i
  · intro i lst' hi
    by_cases him : i = minor
    · subst him
      obtain rfl : lst = lst' := by simpa using hi
      rw [Function.update_self, Function.update_self]
      exact ⟨contents.first, ⟨set_heap_self .., fun hne => absurd rfl hne, by simp, .nil, .nil⟩,
        fun _ => rfl⟩
    · obtain ⟨first, hlist, hfirst⟩ := h.lists i lst' (hother i lst' him hi)
      rw [Function.update_of_ne him, Function.update_of_ne him]
      exact ⟨first, hlist.congr fun a ha =>
        set_heap_of_ne _ _ (hapart i lst' a (hother i lst' him hi) ha), hfirst⟩
  · intro i
    by_cases hi : i = minor
    · subst hi
      simp
    · rw [Function.update_of_ne hi]
      exact h.valid i
  · intro i j lsti lstj a hi hj hai haj
    by_cases him : i = minor <;> by_cases hjm : j = minor
    · rw [him, hjm]
    · subst him
      obtain rfl : lst = lsti := by simpa using hi
      rw [Function.update_self] at hai
      rw [Function.update_of_ne hjm] at haj
      have ha : a = lst := by simpa [Uses] using hai
      exact absurd ha (hapart j lstj a (hother j lstj hjm hj) haj)
    · subst hjm
      obtain rfl : lst = lstj := by simpa using hj
      rw [Function.update_self] at haj
      rw [Function.update_of_ne him] at hai
      have ha : a = lst := by simpa [Uses] using haj
      exact absurd ha (hapart i lsti a (hother i lsti him hi) hai)
    · rw [Function.update_of_ne him] at hai
      rw [Function.update_of_ne hjm] at haj
      exact h.apart i j lsti lstj a (hother i lsti him hi) (hother j lstj hjm hj) hai haj
  · intro a ha
    by_cases hal : a = lst
    · subst hal
      exact ⟨minor, a, Function.update_self .., .inl rfl⟩
    · rw [set_heap_of_ne _ _ hal] at ha
      obtain ⟨i, lst', hi, huses⟩ := h.live a ha
      have him : i ≠ minor := by
        rintro rfl
        rw [hdevice] at hi
        cases hi
      have hsucc : i.succ ≠ minor.succ := fun heq => him (Fin.succ_inj.mp heq)
      refine ⟨i, lst', ?_, by rw [Function.update_of_ne him]; exact huses⟩
      exact (Function.update_of_ne hsucc ..).trans hi
  · intro i
    by_cases hi : i = minor
    · subst hi
      simp
    · rw [Function.update_of_ne hi]
      exact h.room i

/-- A read gives back its temporary buffer, whatever it read. -/
theorem deviceRead_memory {file : OpenFile} {length : BitVec 64} {buffer : Bool}
    {tmp : Option (Addr × (ℕ → Byte))} {left : ℕ} {exit : ReadExit} {bytes : List Byte}
    {m' : Memory Addr} (htmp : ∀ block ∈ tmp, s.memory.heap block.1 = none)
    (h : deviceRead s file length buffer tmp left = .ok (exit, bytes, m')) : m' = s.memory := by
  unfold deviceRead at h
  split at h
  · cases h
    rfl
  · split at h
    · cases h
      rfl
    · obtain ⟨found, _, h⟩ := bind_eq_ok h
      cases found with
      | none =>
        cases h
        rfl
      | some node =>
        obtain ⟨cell, _, h⟩ := bind_eq_ok h
        split at h
        · cases h
          rfl
        · cases tmp with
          | none =>
            cases h
            rfl
          | some block =>
            obtain ⟨msg, _, h⟩ := bind_eq_ok h
            obtain ⟨copied, _, h⟩ := bind_eq_ok h
            rw [kfree_set (htmp block rfl), ok_bind] at h
            cases h
            rfl

/-- An open of a minor. -/
theorem Represents.performOpen [DecidableEq File] (h : Represents s store garbage) {f : File}
    {minor : Fin 256} {header : Option (Addr × LinkedList Addr)} {reply : Reply}
    (hpossible : ∀ block ∈ header, s.memory.heap block.1 = none)
    (hperform : performOpen s f minor header = (reply, s'))
    (hcall : e.call = .open minor header) (hreply : e.reply = reply) :
    Represents s' (Store.record store e) (recordGarbage garbage e) ∧ Store.Allows store garbage e := by
  obtain ⟨cells, hlayout⟩ := h
  simp only [Store.record, recordGarbage, Store.Allows, hcall, hreply, hlayout.opened]
  cases hdevice : s.devices minor.succ with
  | some lst =>
    simp only [MessageSlotDriver.performOpen, deviceOpen, hdevice] at hperform
    cases hperform
    have hsame : Layout { s with files := Function.update s.files f (some ⟨minor, 0⟩) } store
        garbage cells := Layout.files hlayout rfl rfl
    exact ⟨⟨cells, hsame⟩, rfl⟩
  | none =>
    cases header with
    | none =>
      simp only [MessageSlotDriver.performOpen, deviceOpen, hdevice] at hperform
      cases hperform
      exact ⟨⟨cells, hlayout⟩, rfl⟩
    | some block =>
      simp only [MessageSlotDriver.performOpen, deviceOpen, hdevice] at hperform
      cases hperform
      exact ⟨Layout.open hlayout hdevice (hpossible block rfl) _, rfl⟩

/-- The step lemma: a call does to the store what its event says, and its
reply is the one the store demands. -/
theorem Represents.step [DecidableEq File] (h : Represents s store garbage) (hstep : Step s e s') :
    Represents s' (Store.record store e) (recordGarbage garbage e) ∧ Store.Allows store garbage e := by
  cases hstep with
  | «open» minor header hcall htarget hclosed hpossible hperform =>
    rw [hcall] at hpossible
    exact Represents.performOpen h hpossible hperform hcall rfl
  | on hfile hpossible hperform =>
    obtain ⟨f, target, call, reply⟩ := e
    obtain ⟨cells, hlayout⟩ := h
    cases call with
    | «open» minor header => cases hperform
    | ioctl command param =>
      simp only [performOn, Except.ok.injEq, Prod.mk.injEq] at hperform
      obtain ⟨hreply, rfl⟩ := hperform
      exact ⟨⟨cells, Layout.files hlayout rfl rfl⟩, hreply.symm⟩
    | read length buffer tmp left =>
      obtain ⟨⟨exit, bytes, memory⟩, hread, hresult⟩ := bind_eq_ok hperform
      obtain rfl := deviceRead_memory hpossible hread
      cases hresult
      refine ⟨⟨cells, Layout.files hlayout rfl rfl⟩, exit, bytes, rfl, fun hsettled => ?_⟩
      have hdemand := hlayout.deviceRead target length buffer left (hsettled.clean hlayout) hpossible
      rw [hread] at hdemand
      cases hdemand
      rfl
    | write length buffer answers =>
      obtain ⟨⟨exit, memory⟩, hwrite, hresult⟩ := bind_eq_ok hperform
      cases hresult
      rcases hlayout.deviceWrite target length buffer hpossible with ⟨hfault, _⟩ | ⟨m', hok, hrep, _⟩
      · rw [hwrite] at hfault
        cases hfault
      · rw [hwrite] at hok
        cases hok
        exact ⟨hrep, rfl⟩

omit [DecidableEq Addr] in
/-- Nothing is represented at the start. -/
theorem start_represents : Represents (start : State File Addr) Store.empty fun _ => none :=
  ⟨fun _ => [], by simp [start, Store.empty], by simp [start], by simp, by simp [start],
    by simp [start], by simp⟩

/-- Every reachable state represents the store of its history. -/
theorem run_represents [DecidableEq File] (run : Run Step start events s) :
    Represents s (storeAfter events) (garbageAfter events) := by
  induction run with
  | nil => exact start_represents
  | snoc _ hlast ih =>
    rw [storeAfter_snoc, garbageAfter_snoc]
    exact (Represents.step ih hlast).1

end OSCourse.MessageSlotHistory
