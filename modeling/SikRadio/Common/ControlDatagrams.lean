import SikRadio.Common.RadioStation

/-!
# Control datagrams

The texts of the control protocol, written and read as in `datagram.cc`. A text
is the list of its characters, one for each byte.

## Implementation notes

A constructor that parses yields nothing when it throws. The characters of a
numeric token are decimal digits, so that `stoull` reads all of it.
-/

namespace SikRadio.Common

/-- `FIELD_SEPARATOR`. -/
def fieldSeparator : Char := ' '

/-- `PACKET_SEPARATOR`. -/
def packetSeparator : Char := ','

/-- The text without a final newline. -/
def trimmed (str : List Char) : List Char :=
  if str.getLast? = some '\n' then str.dropLast else str

def isNumeric (str : List Char) : Bool := str.all Char.isDigit

/-- What `operator<<` prints for an unsigned number. -/
def toDecimal (x : Nat) : List Char := Nat.toDigits 10 x

/-- `std::stoull` on decimal digits: it throws without any digit and above 64 bits. -/
def stoull (token : List Char) : Option Nat :=
  let value := token.foldl (fun acc c => 10 * acc + (c.toNat - '0'.toNat)) 0
  if token = [] ∨ 2 ^ 64 ≤ value then none else some value

/-- The tokens that repeated calls of `std::getline` read. A final separator starts no token. -/
def getlines (separator : Char) : List Char → List (List Char)
  | [] => []
  | c :: cs =>
      if c = separator then [] :: getlines separator cs
      else
        match getlines separator cs with
        | [] => [[c]]
        | token :: tokens => (c :: token) :: tokens

/-! ## Lookups -/

/-- `LookupRequest::prefix`. -/
def lookupRequestPrefix : List Char :=
  ['Z', 'E', 'R', 'O', '_', 'S', 'E', 'V', 'E', 'N', '_', 'C', 'O', 'M', 'E', '_', 'I', 'N']

/-- `LookupRequest::to_str`; a request has no fields. -/
def LookupRequest.toStr : List Char := lookupRequestPrefix ++ ['\n']

/-- The constructor of `LookupRequest` does not throw. -/
def isLookupRequest (str : List Char) : Bool := trimmed str == lookupRequestPrefix

/-- `LookupReply::prefix`. -/
def lookupReplyPrefix : List Char :=
  ['B', 'O', 'R', 'E', 'W', 'I', 'C', 'Z', '_', 'H', 'E', 'R', 'E']

def LookupReply.toStr (reply : LookupReply) : List Char :=
  lookupReplyPrefix ++ [fieldSeparator] ++ reply.mcastAddr ++ [fieldSeparator] ++
    toDecimal reply.dataPort ++ [fieldSeparator] ++ reply.name ++ ['\n']

/-! ## Retransmission requests -/

structure RexmitRequest where
  receiverAddr : SockAddr
  packetIds : List Nat

namespace RexmitRequest

/-- `RexmitRequest::prefix`. -/
def rexmitPrefix : List Char :=
  ['L', 'O', 'U', 'D', 'E', 'R', '_', 'P', 'L', 'E', 'A', 'S', 'E']

def toStr (req : RexmitRequest) : List Char :=
  rexmitPrefix ++ [fieldSeparator] ++
    [packetSeparator].intercalate (req.packetIds.map toDecimal) ++ ['\n']

def parseToken (token : List Char) : Option Nat :=
  if isNumeric token then stoull token else none

/-- The constructor that parses a text. It looks at the last character first. -/
def ofString (receiverAddr : SockAddr) (str : List Char) : Except Fault (Option RexmitRequest) :=
  let input := trimmed str
  match input.getLast? with
  | none => .error .outOfBounds
  | some last =>
      if !last.isDigit && last != fieldSeparator then .ok none
      else if input.findIdx? (· == fieldSeparator) ≠ some rexmitPrefix.length then .ok none
      else if input.take rexmitPrefix.length ≠ rexmitPrefix then .ok none
      else
        let tokens := getlines packetSeparator (input.drop (rexmitPrefix.length + 1))
        .ok ((tokens.mapM parseToken).map fun packetIds => { receiverAddr, packetIds })

/-- A parsed request answers to the address it was given. -/
theorem receiverAddr_of_ofString {receiverAddr : SockAddr} {str : List Char} {req : RexmitRequest}
    (h : ofString receiverAddr str = .ok (some req)) : req.receiverAddr = receiverAddr := by
  simp only [ofString] at h
  split at h
  · cases h
  · split at h
    · cases h
    · split at h
      · cases h
      · split at h
        · cases h
        · obtain ⟨ids, -, rfl⟩ := Option.map_eq_some_iff.mp (Except.ok.inj h)
          rfl

end RexmitRequest

end SikRadio.Common
