import SikRadio.Common.LookupReplies

/-!
# The options of the two programs

The constructors of `SenderParams` and `ReceiverParams` check the options in a
fixed order and throw at the first that fails. The parameters carry what was
checked.

## Implementation notes

Reading the command line is left to the library, which fills in the defaults.
What is here begins with the values it stores: a `size_t` is a number and a port
is a word of 16 bits.
-/

namespace SikRadio.Common

/-- What the library stores for the sender. Only the multicast address has no default. -/
structure SenderOptions where
  name : List Char :=
    ['N', 'i', 'e', 'n', 'a', 'z', 'w', 'a', 'n', 'y', ' ', 'N', 'a', 'd', 'a', 'j', 'n', 'i', 'k']
  mcastAddr : Option CString := none
  dataPort : UInt16 := 29629
  ctrlPort : UInt16 := 39629
  psize : Nat := 512
  fsize : Nat := 131072
  rtime : Nat := 250

/-- The parameters of a sender that starts. -/
structure SenderParams (inetPton : CString → Option Nat) where
  name : List Char
  mcastAddr : CString
  dataPort : UInt16
  ctrlPort : UInt16
  psize : Nat
  fsize : Nat
  sessionId : Nat
  rtime : Nat
  psize_pos : 1 ≤ psize
  psize_le : psize ≤ AudioPacket.maxPsize
  fsize_pos : 1 ≤ fsize
  validName : isValidName name = true
  multicast : (getMcastAddr inetPton mcastAddr 0).isSome = true

/-- The constructor, called at time `now`, with the text of what it throws. -/
def SenderParams.ofOptions (inetPton : CString → Option Nat) (now : Nat) (vm : SenderOptions) :
    Except String (SenderParams inetPton) :=
  match vm.mcastAddr with
  | none => .error "MCAST_ADDR is required"
  | some mcastAddr =>
      if hpos : vm.psize < 1 then .error "PSIZE must be positive"
      else if hmax : AudioPacket.maxPsize < vm.psize then .error "PSIZE too big"
      else if hfsize : vm.fsize < 1 then .error "FSIZE must be positive"
      else if hname : isValidName vm.name = false then .error "NAME is invalid"
      else if haddr : (getMcastAddr inetPton mcastAddr 0).isSome = false then
        .error "MCAST_ADDR is not a valid multicast address"
      else
        .ok
          { name := vm.name
            mcastAddr
            dataPort := vm.dataPort
            ctrlPort := vm.ctrlPort
            psize := vm.psize
            fsize := vm.fsize
            sessionId := now
            rtime := vm.rtime
            psize_pos := not_lt.mp hpos
            psize_le := not_lt.mp hmax
            fsize_pos := not_lt.mp hfsize
            validName := Bool.eq_true_of_not_eq_false hname
            multicast := Bool.eq_true_of_not_eq_false haddr }

namespace SenderParams

variable {inetPton : CString → Option Nat} (params : SenderParams inetPton)

/-- The reply that `main` makes the Controller with. -/
def lookupReply : LookupReply where
  mcastAddr := params.mcastAddr.chars
  dataPort := params.dataPort.toNat
  name := params.name

/-- `mcast_addr` of `main`, to which the AudioSender sends. -/
def destination (getaddrinfo : List Char → Option Nat) : Except Fault SockAddr :=
  getAddr getaddrinfo params.mcastAddr.chars params.dataPort.toNat

/-- The address of the Controller's socket on a host. -/
def ctrlAddr (host : Nat) : SockAddr := ⟨host, htons params.ctrlPort.toNat⟩

end SenderParams

/-- What the library stores for the receiver. -/
structure ReceiverOptions where
  name : Option (List Char) := none
  discoverAddr : CString :=
    ⟨['2', '5', '5', '.', '2', '5', '5', '.', '2', '5', '5', '.', '2', '5', '5'], by decide⟩
  ctrlPort : UInt16 := 39629
  uiPort : UInt16 := 19629
  bsize : Nat := 65536
  rtime : Nat := 250

/-- The parameters of a receiver that starts. -/
structure ReceiverParams where
  prioStationName : Option (List Char)
  discoverAddr : CString
  ctrlPort : UInt16
  uiPort : UInt16
  bsize : Nat
  rtime : Nat
  validName : ∀ name ∈ prioStationName, isValidName name = true
  bsize_pos : 1 ≤ bsize

def ReceiverParams.ofOptions (vm : ReceiverOptions) : Except String ReceiverParams :=
  if hname : (vm.name.all isValidName) = false then .error "NAME is invalid"
  else if hbsize : vm.bsize < 1 then .error "BSIZE must be positive"
  else
    .ok
      { prioStationName := vm.name
        discoverAddr := vm.discoverAddr
        ctrlPort := vm.ctrlPort
        uiPort := vm.uiPort
        bsize := vm.bsize
        rtime := vm.rtime
        validName := by
          intro name hmem
          rw [Option.mem_def] at hmem
          simpa [hmem] using hname
        bsize_pos := not_lt.mp hbsize }

/-- A sender starts exactly on options that pass all checks. -/
theorem SenderParams.exists_ofOptions_iff {inetPton : CString → Option Nat} {now : Nat}
    {vm : SenderOptions} :
    (∃ params, ofOptions inetPton now vm = .ok params) ↔
      ∃ mcastAddr, vm.mcastAddr = some mcastAddr ∧
        (1 ≤ vm.psize ∧ vm.psize ≤ AudioPacket.maxPsize) ∧ 1 ≤ vm.fsize ∧
          isValidName vm.name = true ∧ (getMcastAddr inetPton mcastAddr 0).isSome = true := by
  unfold ofOptions
  cases vm.mcastAddr with
  | none => simp
  | some mcastAddr =>
      simp only [Option.some.injEq, exists_eq_left']
      split
      case isTrue hpos => simp [Nat.not_le.mpr hpos]
      case isFalse hpos =>
        split
        case isTrue hmax => simp [Nat.not_le.mpr hmax]
        case isFalse hmax =>
          split
          case isTrue hfsize => simp [Nat.not_le.mpr hfsize]
          case isFalse hfsize =>
            split
            case isTrue hname => simp [hname]
            case isFalse hname =>
              split
              case isTrue haddr => simp [haddr]
              case isFalse haddr =>
                rw [Bool.not_eq_false] at hname haddr
                simp only [Except.ok.injEq, exists_eq', true_iff]
                exact ⟨⟨not_lt.mp hpos, not_lt.mp hmax⟩, not_lt.mp hfsize, hname, haddr⟩

theorem ReceiverParams.exists_ofOptions_iff {vm : ReceiverOptions} :
    (∃ params, ofOptions vm = .ok params) ↔
      vm.name.all isValidName = true ∧ 1 ≤ vm.bsize := by
  unfold ofOptions
  split
  case isTrue hname => simp [hname]
  case isFalse hname =>
    rw [Bool.not_eq_false] at hname
    split
    case isTrue hbsize => simp [Nat.not_le.mpr hbsize]
    case isFalse hbsize =>
      simp only [Except.ok.injEq, exists_eq', true_iff]
      exact ⟨hname, not_lt.mp hbsize⟩

/-- Every default passes its check. -/
theorem SenderParams.defaults_pass {inetPton : CString → Option Nat} {mcastAddr : CString}
    (now : Nat) (hmcast : (getMcastAddr inetPton mcastAddr 0).isSome = true) :
    ∃ params, ofOptions inetPton now { mcastAddr := some mcastAddr } = .ok params := by
  refine exists_ofOptions_iff.mpr ⟨mcastAddr, rfl, ?_, ?_, ?_, hmcast⟩
  · show 1 ≤ 512 ∧ 512 ≤ AudioPacket.maxPsize
    decide
  · show 1 ≤ 131072
    decide
  · rfl

theorem ReceiverParams.defaults_pass : ∃ params, ofOptions {} = .ok params :=
  exists_ofOptions_iff.mpr ⟨rfl, by decide⟩

end SikRadio.Common
