import SikRadio.Common.AnnouncementGrammar
import SikRadio.Receiver.Stations

/-!
# Announcements from the network

The LookupReceiver reads a datagram as a C string and makes a reply of it. What
the constructor throws is logged, so that a text that it rejects adds no
station. It rejects every text that the protocol does not allow, except for the
careless ones.
-/

namespace SikRadio.Receiver.Stations

open SikRadio.Common

/-- The part of `LookupReceiverWorker::run` that handles a reply. -/
def receiveReply (inetPton : CString → Option Nat) (getaddrinfo : List Char → Option Nat)
    (prioStationName : Option (List Char)) (s : Stations) (replyBuf : List Char)
    (srcAddr : SockAddr) (made refreshed : Int) : Except Fault Stations :=
  match LookupReply.ofString inetPton (cStr replyBuf).chars with
  | none => .ok s
  | some reply => s.handleLookupReply getaddrinfo prioStationName reply srcAddr made refreshed

/-- A reply is made of the text exactly when the protocol allows it, with the fields of the text,
and no station comes of a text that is not allowed. -/
structure AnnouncesExactly (inetPton : CString → Option Nat) (str : List Char) : Prop where
  taken_iff : ∀ reply, LookupReply.ofString inetPton str = some reply ↔
    LookupReply.WellFormed str reply
  rejected : (∀ reply, ¬LookupReply.WellFormed str reply) →
    ∀ getaddrinfo prioStationName s replyBuf srcAddr made refreshed,
      (cStr replyBuf).chars = str →
        receiveReply inetPton getaddrinfo prioStationName s replyBuf srcAddr made refreshed = .ok s

/-- A text is judged rightly unless it is careless: its port is white space, a sign, digits and
more that `stoul` reads as a port, or a null character follows its address. -/
theorem announces_exactly_iff {inetPton : CString → Option Nat}
    (hinet : ∀ host sAddr, inetPton host = some sAddr ↔ IsDotted host.chars sAddr)
    (str : List Char) : AnnouncesExactly inetPton str ↔ ¬LookupReply.Careless str := by
  rw [← LookupReply.ofString_iff_wellFormed_iff hinet]
  constructor
  · exact AnnouncesExactly.taken_iff
  · intro htaken
    refine ⟨htaken, ?_⟩
    intro hnot getaddrinfo prioStationName s replyBuf srcAddr made refreshed hstr
    have hnone : LookupReply.ofString inetPton str = none := by
      apply Option.eq_none_iff_forall_ne_some.mpr
      intro reply hread
      exact hnot reply ((htaken reply).mp hread)
    rw [receiveReply, hstr, hnone]

section Example

/-- An announcement of the station R with the port `port`. -/
def announcing (port : List Char) : List Char :=
  LookupReply.line (dotted 239 1 2 3) port ['R'] ++ ['\n']

theorem announces_exactly_iff_wellFormed :
    AnnouncesExactly inetPton (announcing ['1']) ↔ ¬LookupReply.Careless (announcing ['1']) :=
  announces_exactly_iff inetPton_eq_some_iff _

/-- 18446744073709551615, which is 2^64 - 1. -/
def lastWord : List Char :=
  ['1', '8', '4', '4', '6', '7', '4', '4', '0', '7', '3', '7', '0', '9', '5', '5', '1', '6', '1',
    '5']

/-- The port -18446744073709551615 is taken for the port 1. -/
theorem wrapped_port_taken :
    ((LookupReply.ofString inetPton (announcing ('-' :: lastWord))).map LookupReply.dataPort =
      some 1) ∧ ¬AnnouncesExactly inetPton (announcing ('-' :: lastWord)) := by
  refine ⟨by decide +kernel, fun h => ?_⟩
  apply (LookupReply.ofString_iff_wellFormed_iff inetPton_eq_some_iff).mp h.taken_iff
  refine ⟨⟨dotted 239 1 2 3, 1, ['R']⟩, '-' :: lastWord, ⟨.inr rfl, by decide +kernel, by decide,
    ⟨239, 1, 2, 3, by decide, by decide, by decide +kernel⟩, ?_, by decide, by decide⟩,
    .inl ⟨'-', by decide, by decide⟩⟩
  have hdigits : ∀ c ∈ lastWord, c.isDigit = true :=
    List.all_eq_true.mp (show lastWord.all Char.isDigit = true from rfl)
  exact ⟨[], ['-'], lastWord, [], ⟨rfl, by simp, .inr (.inr rfl), by decide, hdigits, by simp⟩,
    by decide +kernel, by decide +kernel⟩

end Example

end SikRadio.Receiver.Stations
