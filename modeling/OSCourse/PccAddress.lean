import OSCourse.DecimalText
import OSCourse.PccServer

/-!
# The port that server and client agree on

Both programs read their port from an argument and put it into an address.
The text is read as an `int` and cut to the sixteen bits of a port, which
stand in the address with the high byte first. No step tells when it has lost
something. A server bound to port 0 gets a port that the system chooses.
-/

namespace OSCourse.PccAddress

open NetworkBytes DecimalText PccServer

/-- The bounds of an `int`. -/
def intMin : ℤ := -0x80000000

def intMax : ℤ := 0x7fffffff

/-- `atoi`, which says nothing about numbers outside an `int`. -/
def atoi (text : List Byte) : Option (BitVec 32) :=
  if intMin ≤ numberOf text ∧ numberOf text ≤ intMax then some (BitVec.ofInt 32 (numberOf text))
  else none

/-- `htons`: the two bytes of a port. -/
def htons (port : BitVec 16) : List Byte := bigEndian 2 port.toNat

/-- `sin_port` of an address, from the argument of the program. -/
def sinPort (text : List Byte) : Option (List Byte) :=
  (atoi text).map fun port => htons (port.setWidth 16)

/-- The calls of the server in front of its accept loop, by whether they succeed. -/
structure Calls where
  sigaction : Bool
  socket : Bool
  setsockopt : Bool
  bind : Bool
  listen : Bool
  /-- The port that `bind` takes when it is given port 0. -/
  ephemeral : BitVec 16

/-- The port a socket is bound to. -/
def boundTo (port ephemeral : BitVec 16) : List Byte :=
  htons (if port = 0 then ephemeral else port)

/-- Where the server is after them. -/
inductive Startup where
  /-- Out of `main`, and whether the socket was open and is closed again. -/
  | exited (status : ℕ) (opened closed : Bool)
  /-- The argument is no `int`. -/
  | undefined
  /-- In front of the loop, and what the socket is bound to. -/
  | listening (address : List Byte)
deriving DecidableEq

/-- `main` of the server up to its accept loop. -/
def startServer (argc : ℕ) (port : List Byte) (calls : Calls) : Startup :=
  if argc ≠ 2 then .exited 1 false false
  else match atoi port with
    | none => .undefined
    | some serverPort =>
      if calls.sigaction = false then .exited 1 false false
      else if calls.socket = false then .exited 1 false false
      else if calls.setsockopt = false then .exited 1 true true
      else if calls.bind = false then .exited 1 true true
      else if calls.listen = false then .exited 1 true true
      else .listening (boundTo (serverPort.setWidth 16) calls.ephemeral)

/-- The port of a number. -/
def portOf (z : ℤ) : BitVec 16 := BitVec.ofInt 16 z

/-- A plain number stands for itself. -/
theorem numberOf_plain (z : ℤ) : numberOf (decimal z) = z :=
  numberOf_spells ⟨[], [], by simp, by simp, by simp⟩

/-- A port is a number modulo `2 ^ 16`. -/
theorem toNat_portOf (z : ℤ) : ((portOf z).toNat : ℤ) = z % 65536 := by
  rw [portOf, BitVec.toNat_ofInt]
  omega

theorem portOf_eq_iff {y z : ℤ} : portOf y = portOf z ↔ y % 65536 = z % 65536 := by
  rw [← toNat_portOf, ← toNat_portOf, Int.natCast_inj, BitVec.toNat_inj]

/-- The two bytes of a port are its number. -/
theorem value_htons (port : BitVec 16) : value (htons port) = port.toNat := by
  rw [htons, value_bigEndian]
  exact Nat.mod_eq_of_lt port.isLt

theorem htons_inj {port port' : BitVec 16} : htons port = htons port' ↔ port = port' := by
  refine ⟨fun h => BitVec.eq_of_toNat_eq ?_, fun h => by rw [h]⟩
  rw [← value_htons, ← value_htons, h]

/-- An `int` argument is cut to its port. -/
theorem setWidth_atoi {text : List Byte} {port : BitVec 32} (h : atoi text = some port) :
    port.setWidth 16 = portOf (numberOf text) := by
  unfold atoi at h
  split at h
  · cases h
    rw [← BitVec.toNat_inj, portOf, BitVec.toNat_setWidth, BitVec.toNat_ofInt, BitVec.toNat_ofInt]
    omega
  · cases h

/-- What a listening server is bound to. -/
theorem bound_of_listening {port : List Byte} {calls : Calls} {address : List Byte}
    (hlistens : startServer 2 port calls = .listening address) :
    address = boundTo (portOf (numberOf port)) calls.ephemeral := by
  cases hatoi : atoi port with
  | none =>
    simp only [startServer, hatoi] at hlistens
    split_ifs at hlistens
  | some serverPort =>
    simp only [startServer, hatoi] at hlistens
    split_ifs at hlistens
    cases hlistens
    rw [setWidth_atoi hatoi]

/-- The port of a client with an `int` argument. -/
theorem sinPort_eq {text : List Byte} (hmin : intMin ≤ numberOf text)
    (hmax : numberOf text ≤ intMax) : sinPort text = some (htons (portOf (numberOf text))) := by
  have hatoi : atoi text = some (BitVec.ofInt 32 (numberOf text)) := if_pos ⟨hmin, hmax⟩
  rw [sinPort, hatoi, Option.map_some, setWidth_atoi hatoi]

/-- The ports of a listening server and of a client whose argument is an `int`.
Where the number of the server is no multiple of `2 ^ 16`, the client has its
port if and only if their numbers are congruent modulo `2 ^ 16`, and a number
from 1 to 65535 is the port itself. Where it is one, the system has chosen the
port, and a client has it if and only if its number is congruent to that. A
client whose number is a multiple of `2 ^ 16` has the port of no server. -/
theorem ports_meet {port port' : List Byte} {calls : Calls} {address : List Byte}
    (hlistens : startServer 2 port calls = .listening address) (hephemeral : calls.ephemeral ≠ 0)
    (hmin : intMin ≤ numberOf port') (hmax : numberOf port' ≤ intMax) :
    (numberOf port % 65536 ≠ 0 →
      (sinPort port' = some address ↔ numberOf port % 65536 = numberOf port' % 65536) ∧
        value address = numberOf port % 65536 ∧
          (1 ≤ numberOf port → numberOf port ≤ 65535 → value address = numberOf port)) ∧
      (numberOf port % 65536 = 0 →
        (sinPort port' = some address ↔ (calls.ephemeral.toNat : ℤ) = numberOf port' % 65536) ∧
          value address = calls.ephemeral.toNat) ∧
        (numberOf port' % 65536 = 0 → sinPort port' ≠ some address) := by
  have hzero : ∀ z, portOf z = 0 ↔ z % 65536 = 0 := fun z => portOf_eq_iff (z := 0)
  have hmeet : sinPort port' = some address ↔
      portOf (numberOf port') =
        if portOf (numberOf port) = 0 then calls.ephemeral else portOf (numberOf port) := by
    rw [sinPort_eq hmin hmax, bound_of_listening hlistens, boundTo, Option.some.injEq, htons_inj]
  have hvalue : value address =
      (if portOf (numberOf port) = 0 then calls.ephemeral else portOf (numberOf port)).toNat := by
    rw [bound_of_listening hlistens, boundTo, value_htons]
  refine ⟨fun hport => ?_, fun hport => ?_, fun hclient hmeets => ?_⟩
  · rw [if_neg ((hzero _).not.mpr hport)] at hmeet hvalue
    have hnat := toNat_portOf (numberOf port)
    refine ⟨hmeet.trans (portOf_eq_iff.trans eq_comm), by omega, fun hpos hlt => by omega⟩
  · rw [if_pos ((hzero _).mpr hport)] at hmeet hvalue
    refine ⟨hmeet.trans ?_, hvalue⟩
    rw [← toNat_portOf, Int.natCast_inj, BitVec.toNat_inj, eq_comm]
  · have hport := hmeet.mp hmeets
    rw [(hzero _).mpr hclient] at hport
    split at hport
    · exact hephemeral hport.symm
    · next hne => exact hne hport.symm

/-- A client that asks for port 80 comes to a server that was given 65616, and
none comes to port 0. -/
theorem ports_meet_alias :
    sinPort (decimal 80) = some (htons 80) ∧
      startServer 2 (decimal 65616) ⟨true, true, true, true, true, 40000⟩ = .listening (htons 80) ∧
      startServer 2 (decimal 65536) ⟨true, true, true, true, true, 40000⟩ =
        .listening (htons 40000) ∧
      sinPort (decimal 0) ≠ some (htons 40000) := by
  have hlistens : startServer 2 (decimal 65616) ⟨true, true, true, true, true, 40000⟩ =
      .listening (htons 80) := by decide
  have hchosen : startServer 2 (decimal 65536) ⟨true, true, true, true, true, 40000⟩ =
      .listening (htons 40000) := by decide
  refine ⟨?_, hlistens, hchosen, ?_⟩
  · refine ((ports_meet hlistens (by decide) ?_ ?_).1 ?_).1.mpr ?_ <;>
      simp only [numberOf_plain] <;> decide
  · refine (ports_meet hchosen (by decide) ?_ ?_).2.2 ?_ <;> simp only [numberOf_plain] <;> decide

end OSCourse.PccAddress
