import SikRadio.Common.Process
import SikRadio.Foundations.DescriptorTable

/-!
# Datagram sockets and their descriptors

A `UdpSocket` owns a descriptor, which its destructor closes, and remembers the
group that it joined. The assignment takes over the descriptor of another socket
and forgets its own. A system call that fails ends the program.

The last thing that the destructor does is to set `_fd` to -1. The lifetime of
the object is over then, so a compiler may leave this store out; g++ does at the
level `-O2` of the Makefile. What uses the object afterwards still finds the old
number in it.

## Implementation notes

Of a socket the kernel keeps the groups that were joined, with their sources, and
the port, in host order as in `bind`. The options that set a timeout, a time to
live or the broadcast flag are left out, as is `connect`. Joining fails when the
group was joined before and leaving when it was not, binding when the socket is
bound, and everything fails on a descriptor that is not that of a datagram socket.
Calls that fail for other reasons end the program and are left out.
-/

namespace SikRadio.Common

open Foundations.CheckedRuns Foundations.DescriptorTable

/-- What the kernel keeps for a datagram socket: groups with their sources, and the port. -/
structure KernelSocket where
  memberships : List (Nat × Nat)
  port : Option Nat

/-- What a descriptor stands for: a datagram socket, or something else. -/
inductive Entry where
  | udp (socket : KernelSocket)
  | other

/-- `UdpSocket`; no descriptor stands for -1. -/
structure UdpSocket where
  fd : Option Nat
  mcastRecvEnabled : Bool
  ipmreq : Nat × Nat
  localPort : Nat

namespace UdpSocket

/-- The constructor, with the descriptor that `socket` returns. -/
def create (d : Table Entry) : Table Entry × UdpSocket :=
  (d.set d.lowest (some (.udp ⟨[], none⟩)), ⟨some d.lowest, false, (0, 0), 0⟩)

/-- A system call on the socket. -/
def call (s : UdpSocket) (d : Table Entry) (f : KernelSocket → Option KernelSocket) :
    Except Fault (Table Entry) :=
  match s.fd with
  | none => .error .fatal
  | some fd =>
      match d.entry fd with
      | some (.udp socket) =>
          match f socket with
          | some socket' => .ok (d.set fd (some (.udp socket')))
          | none => .error .fatal
      | _ => .error .fatal

def setDropMembership (s : UdpSocket) (d : Table Entry) : Except Fault (Table Entry) :=
  s.call d fun socket =>
    if s.ipmreq ∈ socket.memberships then
      some { socket with memberships := socket.memberships.erase s.ipmreq }
    else none

def disableMcastRecv (s : UdpSocket) (d : Table Entry) :
    Except Fault (Table Entry × UdpSocket) := do
  let s : UdpSocket := { s with mcastRecvEnabled := false }
  let d ← s.setDropMembership d
  return (d, s)

def enableMcastRecv (s : UdpSocket) (d : Table Entry) (multiaddr sourceaddr : Nat) :
    Except Fault (Table Entry × UdpSocket) := do
  let s : UdpSocket := { s with ipmreq := (multiaddr, sourceaddr), mcastRecvEnabled := true }
  let d ← s.call d fun socket =>
    if s.ipmreq ∈ socket.memberships then none
    else some { socket with memberships := s.ipmreq :: socket.memberships }
  return (d, s)

def bind (s : UdpSocket) (d : Table Entry) (port : Nat) :
    Except Fault (Table Entry × UdpSocket) := do
  let s : UdpSocket := { s with localPort := port }
  let d ← s.call d fun socket =>
    if socket.port = none then some { socket with port := some port } else none
  return (d, s)

/-- `close`. -/
def close (d : Table Entry) (fd : Nat) : Except Fault (Table Entry) :=
  match d.entry fd with
  | some _ => .ok (d.set fd none)
  | none => .error .fatal

/-- The destructor and what it leaves in the object, with or without the last store. -/
def destroy (lastStore : Bool) (s : UdpSocket) (d : Table Entry) :
    Except Fault (Table Entry × UdpSocket) :=
  match s.fd with
  | none => .ok (d, s)
  | some fd => do
      let (d, s) ← if s.mcastRecvEnabled then s.disableMcastRecv d else pure (d, s)
      let d ← close d fd
      return (d, if lastStore then { s with fd := none } else s)

/-- The assignment: the new value of the socket and what is left of the other one. -/
def moveAssign (other : UdpSocket) : UdpSocket × UdpSocket := (other, { other with fd := none })

variable {s : UdpSocket} {d : Table Entry} {fd : Nat}

theorem call_eq {socket socket' : KernelSocket} {f : KernelSocket → Option KernelSocket}
    (hfd : s.fd = some fd) (hentry : d.entry fd = some (.udp socket))
    (hf : f socket = some socket') : s.call d f = .ok (d.set fd (some (.udp socket'))) := by
  simp only [call, hfd, hentry, hf]

theorem setDropMembership_eq {port : Option Nat} (hfd : s.fd = some fd)
    (hentry : d.entry fd = some (.udp ⟨[s.ipmreq], port⟩)) :
    s.setDropMembership d = .ok (d.set fd (some (.udp ⟨[], port⟩))) :=
  call_eq hfd hentry (by simp)

theorem enableMcastRecv_eq {port : Option Nat} (multiaddr sourceaddr : Nat)
    (hfd : s.fd = some fd) (hentry : d.entry fd = some (.udp ⟨[], port⟩)) :
    s.enableMcastRecv d multiaddr sourceaddr =
      .ok (d.set fd (some (.udp ⟨[(multiaddr, sourceaddr)], port⟩)),
        { s with ipmreq := (multiaddr, sourceaddr), mcastRecvEnabled := true }) := by
  unfold enableMcastRecv
  extract_lets joined
  have hcall : joined.call d _ = .ok (d.set fd (some (.udp ⟨[(multiaddr, sourceaddr)], port⟩))) :=
    call_eq hfd hentry (f := fun socket => if joined.ipmreq ∈ socket.memberships then none
      else some { socket with memberships := joined.ipmreq :: socket.memberships }) rfl
  rw [hcall]
  rfl

theorem bind_eq {memberships : List (Nat × Nat)} (port : Nat) (hfd : s.fd = some fd)
    (hentry : d.entry fd = some (.udp ⟨memberships, none⟩)) :
    s.bind d port = .ok (d.set fd (some (.udp ⟨memberships, some port⟩)),
      { s with localPort := port }) := by
  unfold UdpSocket.bind
  extract_lets bound
  have hcall : bound.call d _ = .ok (d.set fd (some (.udp ⟨memberships, some port⟩))) :=
    call_eq hfd hentry (f := fun socket =>
      if socket.port = none then some { socket with port := some port } else none) rfl
  rw [hcall]
  rfl

/-- The destructor of a socket without a descriptor does nothing. -/
theorem destroy_of_fd_eq_none (lastStore : Bool) (hfd : s.fd = none) :
    s.destroy lastStore d = .ok (d, s) := by
  simp only [destroy, hfd]

/-- The destructor of an open socket that is in the one group it remembers, or in none, leaves the
group and gives back the descriptor. It touches no other one. -/
theorem exists_destroy (lastStore : Bool) {port : Option Nat} (hfd : s.fd = some fd)
    (hentry : d.entry fd = some (.udp ⟨if s.mcastRecvEnabled then [s.ipmreq] else [], port⟩)) :
    ∃ d' s', s.destroy lastStore d = .ok (d', s') ∧
      s'.fd = (if lastStore then none else some fd) ∧
      ∀ x, d'.entry x = if x = fd then none else d.entry x := by
  cases henabled : s.mcastRecvEnabled with
  | false =>
      refine ⟨d.set fd none, if lastStore then { s with fd := none } else s, ?_, ?_,
        d.entry_set fd none⟩
      · simp only [destroy, hfd, henabled, Bool.false_eq_true, if_false, pure_bind, close, hentry]
        rfl
      · cases lastStore with
        | true => rfl
        | false => exact hfd
  | true =>
      let left : UdpSocket := { s with mcastRecvEnabled := false }
      let d₁ := d.set fd (some (.udp ⟨[], port⟩))
      have hleft : s.disableMcastRecv d = .ok (d₁, left) := by
        have hcall : left.setDropMembership d = .ok d₁ :=
          setDropMembership_eq hfd (by simpa [left, henabled] using hentry)
        change (do
          let d ← left.setDropMembership d
          return (d, left)) = Except.ok (d₁, left)
        rw [hcall]
        rfl
      have hopen : d₁.entry fd = some (.udp ⟨[], port⟩) := d.entry_set_self fd _
      refine ⟨d₁.set fd none, if lastStore then { left with fd := none } else left, ?_, ?_,
        fun x => ?_⟩
      · unfold destroy
        simp only [hfd, henabled, if_true, hleft, close]
        simp only [Bind.bind, Except.bind, hopen]
        rfl
      · cases lastStore with
        | true => rfl
        | false => exact hfd
      · simp only [d₁, Table.entry_set]
        split <;> rfl

/-- A new socket can join a group and be bound. -/
theorem exists_listen (d : Table Entry) (multiaddr sourceaddr port : Nat) : ∃ d₁ d₂,
    (create d).2.enableMcastRecv (create d).1 multiaddr sourceaddr =
        .ok (d₁, ⟨some d.lowest, true, (multiaddr, sourceaddr), 0⟩) ∧
      UdpSocket.bind ⟨some d.lowest, true, (multiaddr, sourceaddr), 0⟩ d₁ port =
        .ok (d₂, ⟨some d.lowest, true, (multiaddr, sourceaddr), port⟩) ∧
      ∀ x, d₂.entry x = if x = d.lowest then some (.udp ⟨[(multiaddr, sourceaddr)], some port⟩)
        else d.entry x := by
  let d₁ := (create d).1.set d.lowest (some (.udp ⟨[(multiaddr, sourceaddr)], none⟩))
  have hfd : (create d).2.fd = some d.lowest := rfl
  have hjoin := enableMcastRecv_eq multiaddr sourceaddr hfd
    (d.entry_set_self d.lowest (some (.udp ⟨[], none⟩)))
  have hbind := bind_eq (s := ⟨some d.lowest, true, (multiaddr, sourceaddr), 0⟩) (d := d₁) port rfl
    ((create d).1.entry_set_self d.lowest (some (.udp ⟨[(multiaddr, sourceaddr)], none⟩)))
  refine ⟨d₁, _, hjoin, hbind, fun x => ?_⟩
  simp only [d₁, create, Table.entry_set]
  split <;> rfl

end UdpSocket

end SikRadio.Common
