import Mathlib.Data.List.TakeWhile
import SikRadio.Common.AudioPacket
import SikRadio.Common.RexmitGrammar

/-!
# Station announcements

The receiver's parser of lookup replies, and that it reads back what a sender
announces. A name may contain the field separator, so the parser cuts the text
at its first three spaces only.

## Implementation notes

`inet_pton` is a parameter: it maps a C string to the four bytes it stands for,
as a word in network order, or to nothing. What the constructor throws is nothing.
-/

namespace SikRadio.Common

open Foundations.SeparatedText

/-! ## Addresses -/

/-- What a `const char*` designates: the characters before the null character. -/
structure CString where
  chars : List Char
  noNull : Char.ofNat 0 ∉ chars

/-- `std::string::c_str`, as its reader sees it. -/
def cStr (str : List Char) : CString where
  chars := str.takeWhile fun c => c ≠ Char.ofNat 0
  noNull := by
    intro hmem
    have hnot := List.mem_takeWhile_imp hmem
    simp at hnot

theorem cStr_chars (host : CString) : cStr host.chars = host := by
  obtain ⟨chars, noNull⟩ := host
  simp only [cStr, CString.mk.injEq, List.takeWhile_eq_self_iff]
  intro c hc
  exact decide_eq_true (fun heq => noNull (heq ▸ hc))

/-- The macro `IN_MULTICAST`. -/
def inMulticast (addr : Nat) : Bool := addr &&& 0xf0000000 == 0xe0000000

/-- `get_mcast_addr`; `ntohl` is the same byte swap as `htonl`. -/
def getMcastAddr (inetPton : CString → Option Nat) (host : CString) (port : Nat) :
    Option SockAddr :=
  match inetPton host with
  | some sAddr => if inMulticast (htonl sAddr) then some ⟨sAddr, htons port⟩ else none
  | none => none

/-- Whether an address is accepted does not depend on the port. -/
theorem isSome_getMcastAddr (inetPton : CString → Option Nat) (host : CString)
    (port port' : Nat) :
    (getMcastAddr inetPton host port).isSome = (getMcastAddr inetPton host port').isSome := by
  cases hhost : inetPton host with
  | none => simp only [getMcastAddr, hhost]
  | some sAddr =>
      cases hclass : inMulticast (htonl sAddr) with
      | false => simp [getMcastAddr, hhost, hclass]
      | true => simp [getMcastAddr, hhost, hclass]

theorem exists_of_isSome_getMcastAddr {inetPton : CString → Option Nat} {host : CString}
    {port : Nat} (h : (getMcastAddr inetPton host port).isSome = true) :
    ∃ sAddr, inetPton host = some sAddr := by
  cases hhost : inetPton host with
  | none => simp [getMcastAddr, hhost] at h
  | some sAddr => exact ⟨sAddr, rfl⟩

/-! ## Numbers -/

/-- `isspace`. -/
def isSpace (c : Char) : Bool := c == ' ' || decide (9 ≤ c.toNat ∧ c.toNat ≤ 13)

/-- `std::stoul`: white space and a sign are skipped and reading stops at the first character
that is no digit. A minus sign negates the word. It throws without a digit and above 64 bits. -/
def stoul (str : List Char) : Option Nat :=
  let body := str.dropWhile isSpace
  let signed := body.head? == some '-' || body.head? == some '+'
  let digits := (if signed then body.tail else body).takeWhile Char.isDigit
  let value := Nat.ofDigitChars 10 digits 0
  if digits = [] ∨ 2 ^ 64 ≤ value then none
  else if body.head? == some '-' then some ((2 ^ 64 - value) % 2 ^ 64)
  else some value

theorem isSpace_of_isDigit {c : Char} (h : c.isDigit = true) : isSpace c = false := by
  by_contra hspace
  rw [Bool.not_eq_false, isSpace, Bool.or_eq_true, beq_iff_eq, decide_eq_true_eq] at hspace
  rw [Char.isDigit, Bool.and_eq_true, decide_eq_true_eq, decide_eq_true_eq] at h
  rcases hspace with rfl | hrange
  · exact absurd h.1 (by decide)
  · have hlow : 48 ≤ c.toNat := h.1
    omega

/-- A number without sign or space is read whole. -/
theorem stoul_of_isNumber {token : List Char} {x : Nat} (h : IsNumber token x) :
    stoul token = some x := by
  obtain ⟨c, cs, rfl⟩ := List.exists_cons_of_ne_nil h.nonempty
  have hc : c.isDigit = true := h.digits c List.mem_cons_self
  have hspace := isSpace_of_isDigit hc
  have hsign : ∀ sign : Char, sign.isDigit = false → (some c == some sign) = false := by
    intro sign hsign
    rw [Option.some_beq_some, beq_eq_false_iff_ne]
    rintro rfl
    rw [hc] at hsign
    cases hsign
  have hdigits : (c :: cs).takeWhile Char.isDigit = c :: cs :=
    List.takeWhile_eq_self_iff.mpr h.digits
  have hlt := h.lt
  simp only [stoul, List.dropWhile_cons, hspace, List.head?_cons, hsign '-' rfl, hsign '+' rfl,
    hdigits, h.value, Bool.or_false, Bool.false_eq_true, if_false, List.cons_ne_nil, false_or]
  exact if_neg (not_le.mpr hlt)

/-! ## Replies -/

namespace LookupReply

/-- The text before the first field separator and the text after it. -/
def cutField (input : List Char) : Option (List Char × List Char) :=
  (input.findIdx? (· == fieldSeparator)).map fun spacePos =>
    (input.take spacePos, input.drop (spacePos + 1))

theorem cutField_append_cons {field : List Char} (h : fieldSeparator ∉ field) (rest : List Char) :
    cutField (field ++ fieldSeparator :: rest) = some (field, rest) := by
  rw [cutField, findIdx?_append_cons h, Option.map_some, List.take_left,
    List.drop_length_add_append]
  rfl

/-- The constructor that parses a text. -/
def ofString (inetPton : CString → Option Nat) (str : List Char) : Option LookupReply := do
  let (header, input) ← cutField (trimmed str)
  if header.length ≠ lookupReplyPrefix.length then none
  if header ≠ lookupReplyPrefix then none
  let (mcastAddr, input) ← cutField input
  let (port, input) ← cutField input
  let value ← stoul port
  if 2 ^ 16 - 1 < value then none
  if (getMcastAddr inetPton (cStr mcastAddr) value).isNone then none
  if !isValidName input then none
  return { mcastAddr, dataPort := value, name := input }

theorem trimmed_concat (line : List Char) : trimmed (line ++ ['\n']) = line := by
  simp [trimmed]

theorem trimmed_toStr (reply : LookupReply) :
    trimmed reply.toStr = lookupReplyPrefix ++ fieldSeparator :: (reply.mcastAddr ++
      fieldSeparator :: (toDecimal reply.dataPort ++ fieldSeparator :: reply.name)) := by
  rw [toStr, trimmed_concat]
  simp only [List.append_assoc, List.cons_append, List.nil_append]

/-- Every announcement that a started sender can make is read back as it was made, as long as
`inet_pton` accepts no text with a space or a newline. -/
theorem announcement_roundTrip (inetPton : CString → Option Nat)
    (hinet : ∀ host sAddr, inetPton host = some sAddr → ' ' ∉ host.chars ∧ '\n' ∉ host.chars)
    (mcastAddr : CString) (dataPort : UInt16) (name : List Char)
    (hname : isValidName name = true)
    (haddr : (getMcastAddr inetPton mcastAddr 0).isSome = true) :
    ofString inetPton
        (toStr { mcastAddr := mcastAddr.chars, dataPort := dataPort.toNat, name }) =
      some { mcastAddr := mcastAddr.chars, dataPort := dataPort.toNat, name } := by
  obtain ⟨sAddr, hsAddr⟩ := exists_of_isSome_getMcastAddr haddr
  have hport := dataPort.toNat_lt
  have hnumber : IsNumber (toDecimal dataPort.toNat) dataPort.toNat :=
    isNumber_toDecimal (by omega)
  have hheader := cutField_append_cons (show fieldSeparator ∉ lookupReplyPrefix by decide)
    (mcastAddr.chars ++ fieldSeparator :: (toDecimal dataPort.toNat ++ fieldSeparator :: name))
  have hhost := cutField_append_cons (hinet mcastAddr sAddr hsAddr).1
    (toDecimal dataPort.toNat ++ fieldSeparator :: name)
  have hdigits := cutField_append_cons (hnumber.not_mem (c := fieldSeparator) rfl) name
  have haccepted : (getMcastAddr inetPton (cStr mcastAddr.chars) dataPort.toNat).isNone =
      false := by
    rw [cStr_chars, ← Option.not_isSome, isSome_getMcastAddr inetPton mcastAddr _ 0, haddr]
    rfl
  have hbound : ¬2 ^ 16 - 1 < dataPort.toNat := by omega
  simp only [ofString, trimmed_toStr, hheader, hhost, hdigits, stoul_of_isNumber hnumber,
    haccepted, hname, hbound, Option.bind_eq_bind, Option.bind_some, ne_eq, not_true_eq_false,
    Bool.not_true, Bool.false_eq_true, if_false, Option.pure_def]

/-- The multicast address of the example. -/
def exampleHost : CString where
  chars := ['2', '3', '9', '.', '1', '.', '2', '.', '3']
  noNull := by decide

/-- `inet_pton` on the address of the example. -/
def examplePton (host : CString) : Option Nat :=
  if host.chars = exampleHost.chars then some (239 + 256 * (1 + 256 * (2 + 256 * 3))) else none

/-- A name with repeated inner spaces. -/
theorem announcement_roundTrip_spaces :
    isValidName ['R', ' ', ' ', '+'] = true ∧
      (getMcastAddr examplePton exampleHost 0).isSome = true ∧
      ofString examplePton
          (toStr { mcastAddr := exampleHost.chars, dataPort := UInt16.toNat 29629,
                   name := ['R', ' ', ' ', '+'] }) =
        some { mcastAddr := exampleHost.chars, dataPort := UInt16.toNat 29629,
               name := ['R', ' ', ' ', '+'] } := by
  refine ⟨by decide, by decide, announcement_roundTrip examplePton ?_ exampleHost 29629 _
    (by decide) (by decide)⟩
  intro host sAddr h
  have hhost : host.chars = exampleHost.chars := by
    by_contra hne
    rw [examplePton, if_neg hne] at h
    cases h
  rw [hhost]
  decide

end LookupReply

end SikRadio.Common
