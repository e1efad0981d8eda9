import Mathlib.Data.List.Basic
import Mathlib.Data.List.Flatten
import Mathlib.Logic.Function.Basic
import Mathlib.Tactic.Common

/-!
# Logs of allocations and frees

A log replays on the set of live addresses: an allocation needs a dead
address, a free a live one, so a log that replays has no double free. Seen
at one address such a log is a free that was owed at the start, then whole
lives, then an allocation still unfreed at the end; from an empty heap to
an empty heap only the whole lives are left.
-/

namespace OSCourse.HeapLog

variable {A : Type*}

/-- One entry of a log. -/
inductive Action (A : Type*) where
  | alloc (a : A)
  | free (a : A)
deriving DecidableEq

/-- The address an entry is about. -/
def Action.address : Action A → A
  | .alloc a => a
  | .free a => a

/-- The life of one block. -/
def life (a : A) : List (Action A) := [.alloc a, .free a]

/-- A free that is owed when the address is live. -/
def owed (live : Bool) (a : A) : List (Action A) := if live = true then [.free a] else []

section Replay

variable [DecidableEq A]

/-- The live addresses after one entry, unless it allocates a live address
or frees a dead one. -/
def act (live : A → Bool) : Action A → Option (A → Bool)
  | .alloc a => if live a = true then none else some (Function.update live a true)
  | .free a => if live a = true then some (Function.update live a false) else none

/-- The live addresses after a log. -/
def replay (live : A → Bool) (log : List (Action A)) : Option (A → Bool) := log.foldlM act live

/-- The entries about one address. -/
def about (a : A) (log : List (Action A)) : List (Action A) := log.filter fun x => x.address = a

variable {live middle live' : A → Bool} {log log' : List (Action A)} {a : A} {x : Action A}

/-- The first entry acts first. -/
theorem replay_cons (live : A → Bool) (x : Action A) (log : List (Action A)) :
    replay live (x :: log) = (act live x).bind fun middle => replay middle log := rfl

/-- Logs replay one after the other. -/
theorem replay_append (h : replay live log = some middle) (h' : replay middle log' = some live') :
    replay live (log ++ log') = some live' := by
  have hjoin : replay live (log ++ log') = (replay live log).bind fun l => replay l log' :=
    List.foldlM_append
  rw [hjoin, h]
  exact h'

/-- Allocating a dead address. -/
theorem replay_alloc (h : live a = false) :
    replay live [.alloc a] = some (Function.update live a true) := by
  simp [replay, act, h]

/-- Freeing a live address. -/
theorem replay_free (h : live a = true) :
    replay live [.free a] = some (Function.update live a false) := by
  simp [replay, act, h]

/-- Freeing different live addresses in a row. -/
theorem replay_frees {addresses : List A} (hnodup : addresses.Nodup)
    (hlive : ∀ a ∈ addresses, live a = true) :
    ∃ live', replay live (addresses.map .free) = some live' ∧
      ∀ a, live' a = true ↔ live a = true ∧ a ∉ addresses := by
  induction addresses generalizing live with
  | nil => exact ⟨live, rfl, fun a => by simp⟩
  | cons b addresses ih =>
    obtain ⟨hfirst, hrest⟩ := List.nodup_cons.mp hnodup
    have hothers : ∀ a ∈ addresses, Function.update live b false a = true := by
      intro a ha
      have hne : a ≠ b := fun heq => hfirst (heq ▸ ha)
      rw [Function.update_of_ne hne]
      exact hlive a (List.mem_cons_of_mem b ha)
    obtain ⟨live', hlog, hiff⟩ := ih hrest hothers
    refine ⟨live', replay_append (replay_free (hlive b List.mem_cons_self)) hlog, fun a => ?_⟩
    rw [hiff]
    by_cases ha : a = b
    · simp [ha]
    · simp [ha]

/-- A whole life leaves the live addresses as they were. -/
theorem replay_life (h : live a = false) : replay live (life a) = some live := by
  have hback : Function.update (Function.update live a true) a false = live := by
    rw [Function.update_idem, ← h, Function.update_eq_self]
  have hlive : Function.update live a true a = true := Function.update_self ..
  have hfree := replay_free hlive
  rw [hback] at hfree
  exact replay_append (replay_alloc h) hfree

/-- An entry changes no other address. -/
theorem act_of_ne (h : act live x = some live') (hne : x.address ≠ a) : live' a = live a := by
  cases x with
  | alloc b =>
    simp only [act] at h
    split at h
    · cases h
    · cases h
      exact Function.update_of_ne (Ne.symm hne) ..
  | free b =>
    simp only [act] at h
    split at h
    · cases h
      exact Function.update_of_ne (Ne.symm hne) ..
    · cases h

/-- A log changes only the addresses it names. -/
theorem replay_frame (h : replay live log = some live') (hlog : ∀ x ∈ log, x.address ≠ a) :
    live' a = live a := by
  induction log generalizing live with
  | nil =>
    cases h
    rfl
  | cons x log ih =>
    rw [replay_cons] at h
    obtain ⟨middle, hact, hrest⟩ := Option.bind_eq_some_iff.mp h
    rw [ih hrest fun y hy => hlog y (List.mem_cons_of_mem x hy)]
    exact act_of_ne hact (hlog x List.mem_cons_self)

/-- An entry about an address pays the free that was owed for it, or makes
one owed. -/
theorem act_address (h : act live x = some live') :
    (x = .alloc x.address ∧ live x.address = false ∧ live' x.address = true) ∨
      (x = .free x.address ∧ live x.address = true ∧ live' x.address = false) := by
  cases x with
  | alloc b =>
    simp only [act] at h
    split at h
    · cases h
    · rename_i hdead
      cases h
      exact .inl ⟨rfl, (Bool.not_eq_true _).mp hdead, Function.update_self ..⟩
  | free b =>
    simp only [act] at h
    split at h
    · rename_i hlive
      cases h
      exact .inr ⟨rfl, hlive, Function.update_self ..⟩
    · cases h

/-- At one address a log that replays consists of whole lives, but for a
free owed before it and one owed after it. -/
theorem replay_lives (h : replay live log = some live') (a : A) :
    ∃ n, about a log ++ owed (live' a) a =
      owed (live a) a ++ (List.replicate n (life a)).flatten := by
  induction log generalizing live with
  | nil =>
    cases h
    exact ⟨0, by simp [about]⟩
  | cons x log ih =>
    rw [replay_cons] at h
    obtain ⟨middle, hact, hrest⟩ := Option.bind_eq_some_iff.mp h
    obtain ⟨n, hn⟩ := ih hrest
    by_cases hx : x.address = a
    · have habout : about a (x :: log) = x :: about a log := by simp [about, hx]
      subst hx
      rcases act_address hact with ⟨he, hbefore, hafter⟩ | ⟨he, hbefore, hafter⟩
      · refine ⟨n + 1, ?_⟩
        rw [habout, List.cons_append, hn, hafter, hbefore, he]
        simp [owed, life, List.replicate_succ, Action.address]
      · refine ⟨n, ?_⟩
        rw [habout, List.cons_append, hn, hafter, hbefore, he]
        simp [owed, Action.address]
    · have habout : about a (x :: log) = about a log := by simp [about, hx]
      exact ⟨n, by rw [habout, hn, act_of_ne hact hx]⟩

/-- From an empty heap to an empty heap every block allocated is freed
exactly once, before its address is used again. -/
theorem replay_balanced (h : replay (fun _ => false) log = some fun _ => false) (a : A) :
    ∃ n, about a log = (List.replicate n (life a)).flatten := by
  obtain ⟨n, hn⟩ := replay_lives h a
  exact ⟨n, by simpa [owed] using hn⟩

omit [DecidableEq A] in
theorem length_lives (n : ℕ) (a : A) : (List.replicate n (life a)).flatten.length = 2 * n := by
  induction n with
  | zero => rfl
  | succ n ih =>
    rw [List.replicate_succ, List.flatten_cons, List.length_append, ih, life, List.length_cons,
      List.length_singleton]
    omega

/-- A block that is live at the end of a log from an empty heap was not freed as
often as it was allocated. -/
theorem not_balanced (h : replay (fun _ => false) log = some live) (ha : live a = true) (n : ℕ) :
    about a log ≠ (List.replicate n (life a)).flatten := by
  obtain ⟨k, hk⟩ := replay_lives h a
  intro hwhole
  have hlength := congrArg List.length hk
  rw [hwhole, List.length_append, List.length_append, length_lives, length_lives, ha] at hlength
  simp only [owed, if_true, if_false, Bool.false_eq_true, List.length_nil,
    List.length_singleton] at hlength
  omega

end Replay

end OSCourse.HeapLog
