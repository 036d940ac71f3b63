import Mathlib.Data.Char
import Mathlib.Data.List.Lex
import Mathlib.Data.Prod.Lex
import SikRadio.Common.Process
import SikRadio.Foundations.CheckedRuns
import SikRadio.Foundations.OrderedNodes

/-!
# Radio stations

A station is made from a lookup reply and the address the reply came from.
Stations are ordered by name, multicast address and data address; the set of
stations compares nothing else.

## Implementation notes

Addresses and ports are kept as the program keeps them, with the bytes in
network order, on a little-endian host. A station carries that its name is
valid, since the constructor throws otherwise.
-/

namespace SikRadio.Common

open Foundations.CheckedRuns Foundations.OrderedNodes

/-- `sockaddr_in`; the family is always `AF_INET`. -/
structure SockAddr where
  sAddr : Nat
  sinPort : Nat
  deriving DecidableEq

/-- The lexicographic order of `operator<` on addresses. -/
def SockAddr.key (addr : SockAddr) : Nat ×ₗ Nat := toLex (addr.sAddr, addr.sinPort)

/-- `htons` on a little-endian host; `ntohs` is the same byte swap. -/
def htons (x : Nat) : Nat := x % 256 * 256 + x / 256 % 256

def ntohs (x : Nat) : Nat := x % 256 * 256 + x / 256 % 256

theorem ntohs_htons {x : Nat} (h : x < 2 ^ 16) : ntohs (htons x) = x := by
  have hhigh : x / 256 < 256 := by omega
  have hlow : x % 256 < 256 := Nat.mod_lt _ (by decide)
  have hmod := Nat.mod_add_div x 256
  unfold ntohs htons
  generalize x / 256 = high, x % 256 = low at hhigh hlow hmod ⊢
  have hquot : (low * 256 + high % 256) / 256 = low := by omega
  rw [hquot]
  omega

structure LookupReply where
  mcastAddr : List Char
  dataPort : Nat
  name : List Char

/-- `STATION_NAME_MAX_LEN`. -/
def stationNameMaxLen : Nat := 64

def isValidName (name : List Char) : Bool :=
  !(name.isEmpty || name.head? == some ' ' || name.getLast? == some ' ' ||
      decide (stationNameMaxLen < name.length)) &&
    name.all fun c => decide (32 ≤ c.toNat ∧ c.toNat ≤ 127)

structure RadioStation where
  dataAddr : SockAddr
  ctrlAddr : SockAddr
  mcastAddr : SockAddr
  name : List Char
  lastReply : Int
  validName : isValidName name = true

/-- `get_addr`: `fatal` unless `getaddrinfo` resolves the host. -/
def getAddr (getaddrinfo : List Char → Option Nat) (host : List Char) (port : Nat) :
    Except Fault SockAddr :=
  match getaddrinfo host with
  | some sAddr => .ok ⟨sAddr, htons port⟩
  | none => .error .fatal

namespace RadioStation

/-- The constructor, with the clock read at `now`. It yields nothing when it throws. -/
def ofReply (getaddrinfo : List Char → Option Nat) (senderAddr : SockAddr)
    (payload : LookupReply) (now : Int) : Except Fault (Option RadioStation) :=
  if h : isValidName payload.name = true then do
    let mcastAddr ← getAddr getaddrinfo payload.mcastAddr payload.dataPort
    return some
      { dataAddr := { senderAddr with sinPort := htons payload.dataPort }
        ctrlAddr := senderAddr
        mcastAddr
        name := payload.name
        lastReply := now
        validName := h }
  else return none

/-- The constructor ends the program only on a host that does not resolve. -/
theorem ofReply_cases (getaddrinfo : List Char → Option Nat) (senderAddr : SockAddr)
    (payload : LookupReply) (now : Int) :
    (∃ made, ofReply getaddrinfo senderAddr payload now = .ok made) ∨
      (ofReply getaddrinfo senderAddr payload now = .error .fatal ∧
        getaddrinfo payload.mcastAddr = none) := by
  unfold ofReply
  split
  case isTrue h =>
    cases hresolve : getaddrinfo payload.mcastAddr with
    | none => exact .inr ⟨by simp [getAddr, hresolve, bind, Except.bind], rfl⟩
    | some sAddr => exact .inl ⟨_, by simp [getAddr, hresolve]; rfl⟩
  case isFalse h => exact .inl ⟨none, rfl⟩

/-- The constructor records when it read the clock. -/
theorem lastReply_of_ofReply {getaddrinfo : List Char → Option Nat} {senderAddr : SockAddr}
    {payload : LookupReply} {now : Int} {station : RadioStation}
    (h : ofReply getaddrinfo senderAddr payload now = .ok (some station)) :
    station.lastReply = now := by
  unfold ofReply at h
  split at h
  case isTrue =>
    obtain ⟨mcastAddr, -, h⟩ := bind_eq_ok_iff.mp h
    obtain rfl := Option.some.inj (Except.ok.inj h)
    rfl
  case isFalse => cases Except.ok.inj h

def updateLastReply (now : Int) (station : RadioStation) : RadioStation :=
  { station with lastReply := now }

/-- `RadioStation::cmp` compares these keys. -/
def key (station : RadioStation) : List Char ×ₗ (Nat ×ₗ Nat) ×ₗ (Nat ×ₗ Nat) :=
  toLex (station.name, toLex (station.mcastAddr.key, station.dataAddr.key))

theorem key_updateLastReply (now : Int) (station : RadioStation) :
    (station.updateLastReply now).key = station.key := rfl

/-- The key holds all that is compared. -/
theorem eq_of_key_eq {station station' : RadioStation} (h : station.key = station'.key) :
    station.name = station'.name ∧ station.mcastAddr = station'.mcastAddr ∧
      station.dataAddr = station'.dataAddr := by
  have haddr (addr addr' : SockAddr) (hkey : addr.key = addr'.key) : addr = addr' := by
    obtain ⟨hsAddr, hsinPort⟩ := Prod.mk.inj (toLex.injective hkey)
    cases addr
    cases addr'
    exact congrArg₂ SockAddr.mk hsAddr hsinPort
  obtain ⟨hname, hrest⟩ := Prod.mk.inj (toLex.injective h)
  obtain ⟨hmcast, hdata⟩ := Prod.mk.inj (toLex.injective hrest)
  exact ⟨hname, haddr _ _ hmcast, haddr _ _ hdata⟩

end RadioStation

/-- `StationSet`. Its iterators are ids, with `none` for `end()`. -/
abbrev StationSet : Type := NodeSet RadioStation.key

end SikRadio.Common
