import SikRadio.Common.Options
import SikRadio.Receiver.Announcements
import SikRadio.Receiver.LiveStations
import SikRadio.Sender.RequestClasses

/-!
# How a receiver finds a sender

The LookupSender sends a request to every sender, the Controller of a sender
answers with the announcement of its station, and the LookupReceiver lists the
station that the answer announces, with the group that the AudioSender sends to.

## Implementation notes

The network may lose, repeat, delay and reorder datagrams: what was sent once can
be delivered at any later step, any number of times. Both parties also get any
datagram from any other address, but nobody else sends from their own addresses.
A host written in dotted decimals is resolved to itself, on either side.
-/

namespace SikRadio.Protocol

open SikRadio.Common SikRadio.Receiver SikRadio.Sender
open Foundations.CheckedRuns Foundations.OrderedNodes

/-- `getaddrinfo` takes a host in dotted decimals as the address it writes. -/
def ResolvesDotted (getaddrinfo : List Char → Option Nat) : Prop :=
  ∀ host sAddr, IsDotted host sAddr → getaddrinfo host = some sAddr

/-- A sender and a receiver that have started: the parameters of each, the host of the sender,
the socket from which the receiver looks for stations, and the resolvers of the two hosts. `dst`
is the address to which the AudioSender sends. -/
structure Setting where
  inetPton : CString → Option Nat
  senderResolves : List Char → Option Nat
  receiverResolves : List Char → Option Nat
  senderParams : SenderParams inetPton
  receiverParams : ReceiverParams
  host : Nat
  receiver : SockAddr
  dst : SockAddr
  inetPton_iff : ∀ host sAddr, inetPton host = some sAddr ↔ IsDotted host.chars sAddr
  sender_dotted : ResolvesDotted senderResolves
  receiver_dotted : ResolvesDotted receiverResolves
  dst_eq : senderParams.destination senderResolves = .ok dst

namespace Setting

variable (w : Setting)

/-- The address of the Controller's socket. -/
def sender : SockAddr := w.senderParams.ctrlAddr w.host

/-- The address from which a receiver expects the packets of the station. -/
def source : SockAddr := ⟨w.host, htons w.senderParams.dataPort.toNat⟩

/-- The reply that the Controller sends. -/
def announcement : LookupReply := w.senderParams.lookupReply

/-! ## The announcement -/

theorem null_not_mem_announcement : Char.ofNat 0 ∉ w.announcement.toStr := by
  have hname : Char.ofNat 0 ∉ w.senderParams.name := by
    intro hmem
    have hvalid := w.senderParams.validName
    rw [isValidName, Bool.and_eq_true, List.all_eq_true] at hvalid
    exact absurd (hvalid.2 _ hmem) (by decide)
  have hport : Char.ofNat 0 ∉ toDecimal w.senderParams.dataPort.toNat :=
    notMem_toDecimal (by decide) w.senderParams.dataPort.toNat
  have hheader : Char.ofNat 0 ∉ lookupReplyPrefix := by decide
  have hspace : Char.ofNat 0 ≠ fieldSeparator := by decide
  have hnewline : Char.ofNat 0 ≠ '\n' := by decide
  simp only [LookupReply.toStr, List.mem_append, List.mem_singleton, not_or]
  exact ⟨⟨⟨⟨⟨⟨⟨hheader, hspace⟩, w.senderParams.mcastAddr.noNull⟩, hspace⟩, hport⟩, hspace⟩,
    hname⟩, hnewline⟩

/-- The text of an announcement is in the protocol. -/
theorem wellFormed_announcement :
    LookupReply.WellFormed w.announcement.toStr w.announcement where
  text := by
    have hport : w.senderParams.dataPort.toNat < 2 ^ 64 :=
      w.senderParams.dataPort.toNat_lt.trans (by decide)
    refine ⟨toDecimal w.senderParams.dataPort.toNat, isNumber_toDecimal hport, .inr ?_⟩
    simp [LookupReply.toStr, LookupReply.line, announcement, SenderParams.lookupReply]
  multicast :=
    (isSome_getMcastAddr_iff w.inetPton_iff w.senderParams.mcastAddr 0).mp
      w.senderParams.multicast
  port_le := Nat.le_of_lt_succ w.senderParams.dataPort.toNat_lt
  name := w.senderParams.validName

/-- The receiver reads the announcement as it was made. -/
theorem ofString_announcement :
    LookupReply.ofString w.inetPton (cStr w.announcement.toStr).chars = some w.announcement := by
  obtain ⟨-, port, -, htaken⟩ := w.wellFormed_announcement.taken
  rw [cStr_chars ⟨_, w.null_not_mem_announcement⟩]
  exact (LookupReply.ofString_eq_some_iff w.inetPton_iff).mpr ⟨port, htaken⟩

/-- The sender sends to the address that it announces. -/
theorem exists_dotted :
    ∃ sAddr, IsDotted w.announcement.mcastAddr sAddr ∧
      w.dst = ⟨sAddr, htons w.senderParams.dataPort.toNat⟩ := by
  obtain ⟨sAddr, hsAddr⟩ := exists_of_isSome_getMcastAddr w.senderParams.multicast
  have hdotted := (w.inetPton_iff w.senderParams.mcastAddr sAddr).mp hsAddr
  refine ⟨sAddr, hdotted, ?_⟩
  have hdst := w.dst_eq
  rw [SenderParams.destination, getAddr, w.sender_dotted _ _ hdotted] at hdst
  exact (Except.ok.inj hdst).symm

/-- A receiver makes of the announcement a station with the name of the sender, the address that
the sender sends to and the address it sends from. -/
theorem exists_ofReply (made : Int) :
    ∃ station : RadioStation,
      RadioStation.ofReply w.receiverResolves w.sender w.announcement made = .ok (some station) ∧
        station.name = w.senderParams.name ∧ station.mcastAddr = w.dst ∧
          station.dataAddr = w.source := by
  obtain ⟨sAddr, hdotted, hdst⟩ := w.exists_dotted
  have hresolved : w.receiverResolves w.announcement.mcastAddr = some sAddr :=
    w.receiver_dotted _ _ hdotted
  have hname : isValidName w.announcement.name = true := w.senderParams.validName
  rw [RadioStation.ofReply, dif_pos hname, hdst]
  simp only [getAddr, hresolved]
  exact ⟨_, rfl, rfl, rfl, rfl⟩

end Setting

/-! ## The exchange -/

/-- What has been sent, and what the two parties hold. -/
structure Discovery where
  lookups : List (List Char)
  controller : Controller
  stations : Stations

namespace Discovery

/-- The two programs and the network. What can be delivered is what stands at a position of the
lookups sent, or of the replies of the Controller. -/
inductive Action where
  | lookup
  | deliverLookup (i : Nat)
  | request (srcAddr : SockAddr) (datagram : List Char)
  | deliverReply (i : Nat) (made refreshed : Int)
  | reply (srcAddr : SockAddr) (replyBuf : List Char) (made refreshed : Int)
  | other (action : Stations.Action)

variable (w : Setting)

/-- Both programs have started. -/
def init : Discovery where
  lookups := []
  controller := ⟨w.announcement, [], [], []⟩
  stations := .init

/-- A datagram reaches the Controller. -/
def ask (x : Discovery) (srcAddr : SockAddr) (datagram : List Char) : Except Fault Discovery := do
  let controller ← x.controller.handleDatagram srcAddr datagram
  return { x with controller }

/-- A datagram reaches the LookupReceiver. -/
def hear (x : Discovery) (srcAddr : SockAddr) (replyBuf : List Char) (made refreshed : Int) :
    Except Fault Discovery := do
  let stations ← x.stations.receiveReply w.inetPton w.receiverResolves
    w.receiverParams.prioStationName replyBuf srcAddr made refreshed
  return { x with stations }

/-- A step of the receiver's workers. -/
def stationsStep (s : Stations) (b : Stations.Action) : Except Fault Stations :=
  s.step w.receiverResolves w.receiverParams.prioStationName b

/-- A datagram that was never sent is not delivered, nor one with a forged address. -/
def step (x : Discovery) : Action → Except Fault Discovery
  | .lookup => .ok { x with lookups := x.lookups ++ [LookupRequest.toStr] }
  | .deliverLookup i =>
      match x.lookups[i]? with
      | some text => x.ask w.receiver text
      | none => .ok x
  | .request srcAddr datagram => if srcAddr = w.receiver then .ok x else x.ask srcAddr datagram
  | .deliverReply i made refreshed =>
      match x.controller.sent[i]? with
      | some (dst, text) =>
          if dst = w.receiver then x.hear w w.sender text made refreshed else .ok x
      | none => .ok x
  | .reply srcAddr replyBuf made refreshed =>
      if srcAddr = w.sender then .ok x else x.hear w srcAddr replyBuf made refreshed
  | .other (.handleLookupReply _ _ _ _) => .ok x
  | .other action => do
      let stations ← stationsStep w x.stations action
      return { x with stations }

/-- Run a list of actions. -/
def run (x : Discovery) (actions : List Action) : Except Fault Discovery :=
  actions.foldlM (step w) x

/-- The reply that a datagram is taken for. -/
def heard (srcAddr : SockAddr) (replyBuf : List Char) (made refreshed : Int) :
    Option Stations.Action :=
  (LookupReply.ofString w.inetPton (cStr replyBuf).chars).map fun reply =>
    .handleLookupReply reply srcAddr made refreshed

/-- What a step makes the receiver's workers do with the stations. -/
def stationsAction (x : Discovery) : Action → Option Stations.Action
  | .deliverReply i made refreshed =>
      match x.controller.sent[i]? with
      | some (dst, text) => if dst = w.receiver then heard w w.sender text made refreshed else none
      | none => none
  | .reply srcAddr replyBuf made refreshed =>
      if srcAddr = w.sender then none else heard w srcAddr replyBuf made refreshed
  | .other (.handleLookupReply _ _ _ _) => none
  | .other action => some action
  | _ => none

variable {w} {x x' : Discovery}

/-! ## Steps -/

theorem run_cons_iff {a : Action} {as : List Action} :
    run w x (a :: as) = .ok x' ↔ ∃ y, step w x a = .ok y ∧ run w y as = .ok x' := by
  simp only [run, List.foldlM_cons, bind_eq_ok_iff]

theorem run_append_iff {as bs : List Action} :
    run w x (as ++ bs) = .ok x' ↔ ∃ y, run w x as = .ok y ∧ run w y bs = .ok x' := by
  simp only [run, List.foldlM_append, bind_eq_ok_iff]

/-- A datagram that the LookupReceiver hears makes a step of the stations, or none when it is no
announcement. -/
theorem stations_hear {srcAddr : SockAddr} {replyBuf : List Char} {made refreshed : Int}
    (hs : x.hear w srcAddr replyBuf made refreshed = .ok x') :
    x'.controller = x.controller ∧ x'.lookups = x.lookups ∧
      match heard w srcAddr replyBuf made refreshed with
      | some b => stationsStep w x.stations b = .ok x'.stations
      | none => x'.stations = x.stations := by
  obtain ⟨stations, hstations, hs⟩ := bind_eq_ok_iff.mp hs
  obtain rfl := Except.ok.inj hs
  refine ⟨rfl, rfl, ?_⟩
  unfold Stations.receiveReply at hstations
  unfold heard
  cases hread : LookupReply.ofString w.inetPton (cStr replyBuf).chars with
  | none =>
      rw [hread] at hstations
      exact (Except.ok.inj hstations).symm
  | some reply =>
      rw [hread] at hstations
      exact hstations

/-- What a step does to the stations. -/
theorem stations_step {a : Action} (hs : step w x a = .ok x') :
    match stationsAction w x a with
    | some b => stationsStep w x.stations b = .ok x'.stations
    | none => x'.stations = x.stations := by
  have hask {srcAddr : SockAddr} {datagram : List Char} (hs : x.ask srcAddr datagram = .ok x') :
      x'.stations = x.stations := by
    obtain ⟨controller, -, hs⟩ := bind_eq_ok_iff.mp hs
    obtain rfl := Except.ok.inj hs
    rfl
  cases a with
  | lookup =>
      obtain rfl := Except.ok.inj hs
      rfl
  | deliverLookup i =>
      simp only [step] at hs
      split at hs
      · exact hask hs
      · obtain rfl := Except.ok.inj hs
        rfl
  | request srcAddr datagram =>
      simp only [step] at hs
      split at hs
      · obtain rfl := Except.ok.inj hs
        rfl
      · exact hask hs
  | deliverReply i made refreshed =>
      cases hsent : x.controller.sent[i]? with
      | none =>
          simp only [step, hsent] at hs
          simp only [stationsAction, hsent]
          obtain rfl := Except.ok.inj hs
          rfl
      | some datagram =>
          simp only [step, hsent] at hs
          simp only [stationsAction, hsent]
          split at hs
          case isTrue hdst =>
            rw [if_pos hdst]
            exact (stations_hear hs).2.2
          case isFalse hdst =>
            rw [if_neg hdst]
            obtain rfl := Except.ok.inj hs
            rfl
  | reply srcAddr replyBuf made refreshed =>
      simp only [step] at hs
      simp only [stationsAction]
      split at hs
      case isTrue hforged =>
        rw [if_pos hforged]
        obtain rfl := Except.ok.inj hs
        rfl
      case isFalse hforged =>
        rw [if_neg hforged]
        exact (stations_hear hs).2.2
  | other action =>
      cases action with
      | handleLookupReply reply srcAddr made refreshed =>
          obtain rfl := Except.ok.inj hs
          rfl
      | _ =>
          obtain ⟨stations, hstations, hs⟩ := bind_eq_ok_iff.mp hs
          obtain rfl := Except.ok.inj hs
          exact hstations

/-- What a step does to what has been sent. -/
theorem sent_step {a : Action} (hs : step w x a = .ok x') :
    (x'.lookups = x.lookups ∨ x'.lookups = x.lookups ++ [LookupRequest.toStr]) ∧
      (x'.controller = x.controller ∨
        ∃ srcAddr datagram, x.controller.handleDatagram srcAddr datagram = .ok x'.controller) := by
  have hask {srcAddr : SockAddr} {datagram : List Char} (hs : x.ask srcAddr datagram = .ok x') :
      x'.lookups = x.lookups ∧
        x.controller.handleDatagram srcAddr datagram = .ok x'.controller := by
    obtain ⟨controller, hcontroller, hs⟩ := bind_eq_ok_iff.mp hs
    obtain rfl := Except.ok.inj hs
    exact ⟨rfl, hcontroller⟩
  cases a with
  | lookup =>
      obtain rfl := Except.ok.inj hs
      exact ⟨.inr rfl, .inl rfl⟩
  | deliverLookup i =>
      simp only [step] at hs
      split at hs
      · obtain ⟨hlookups, hcontroller⟩ := hask hs
        exact ⟨.inl hlookups, .inr ⟨_, _, hcontroller⟩⟩
      · obtain rfl := Except.ok.inj hs
        exact ⟨.inl rfl, .inl rfl⟩
  | request srcAddr datagram =>
      simp only [step] at hs
      split at hs
      · obtain rfl := Except.ok.inj hs
        exact ⟨.inl rfl, .inl rfl⟩
      · obtain ⟨hlookups, hcontroller⟩ := hask hs
        exact ⟨.inl hlookups, .inr ⟨_, _, hcontroller⟩⟩
  | deliverReply i made refreshed =>
      simp only [step] at hs
      split at hs
      · split at hs
        · obtain ⟨hcontroller, hlookups, -⟩ := stations_hear hs
          exact ⟨.inl hlookups, .inl hcontroller⟩
        · obtain rfl := Except.ok.inj hs
          exact ⟨.inl rfl, .inl rfl⟩
      · obtain rfl := Except.ok.inj hs
        exact ⟨.inl rfl, .inl rfl⟩
  | reply srcAddr replyBuf made refreshed =>
      simp only [step] at hs
      split at hs
      · obtain rfl := Except.ok.inj hs
        exact ⟨.inl rfl, .inl rfl⟩
      · obtain ⟨hcontroller, hlookups, -⟩ := stations_hear hs
        exact ⟨.inl hlookups, .inl hcontroller⟩
  | other action =>
      cases action with
      | handleLookupReply reply srcAddr made refreshed =>
          obtain rfl := Except.ok.inj hs
          exact ⟨.inl rfl, .inl rfl⟩
      | _ =>
          obtain ⟨stations, -, hs⟩ := bind_eq_ok_iff.mp hs
          obtain rfl := Except.ok.inj hs
          exact ⟨.inl rfl, .inl rfl⟩

/-! ## What is listed under the sender's address -/

variable (w) in
/-- A station listed with the sender's address is the sender's: it has its name, the group and
port to which it sends and the address it sends from. -/
def OfSender (station : RadioStation) : Prop :=
  station.ctrlAddr = w.sender →
    station.name = w.senderParams.name ∧ station.mcastAddr = w.dst ∧ station.dataAddr = w.source

variable (w) in
/-- The receiver takes the sender for what it is. -/
structure Faithful (x : Discovery) : Prop where
  announced : ∀ d ∈ x.controller.sent, d.2 = w.announcement.toStr
  listed : ∀ n ∈ x.stations.stations.nodes, OfSender w n.value

variable (w) in
/-- The invariant behind it. -/
structure Honest (x : Discovery) : Prop where
  lookupReply_eq : x.controller.lookupReply = w.announcement
  announced : ∀ d ∈ x.controller.sent, d.2 = w.announcement.toStr
  requested : ∀ text ∈ x.lookups, text = LookupRequest.toStr
  listed : ∀ n ∈ x.stations.stations.nodes, OfSender w n.value
  valid : x.stations.CurrentValid

theorem honest_init : Honest w (init w) where
  lookupReply_eq := rfl
  announced := by simp [init]
  requested := by simp [init]
  listed := by simp [init, Stations.init, NodeSet.empty]
  valid := Stations.currentValid_init

/-- What is heard from the sender's address is the announcement. -/
theorem Honest.eq_announcement (h : Honest w x) {a : Action} {reply : LookupReply}
    {made refreshed : Int}
    (ha : stationsAction w x a = some (.handleLookupReply reply w.sender made refreshed)) :
    reply = w.announcement := by
  cases a with
  | deliverReply i made' refreshed' =>
      simp only [stationsAction] at ha
      split at ha
      case h_1 dst text hsent =>
        split at ha
        case isTrue =>
          obtain ⟨reply', hread, ha⟩ := Option.map_eq_some_iff.mp ha
          obtain ⟨rfl, -⟩ := Stations.Action.handleLookupReply.inj ha
          obtain rfl : text = w.announcement.toStr := h.announced _ (List.mem_of_getElem? hsent)
          exact Option.some.inj (hread.symm.trans w.ofString_announcement)
        case isFalse => cases ha
      case h_2 => cases ha
  | reply srcAddr replyBuf made' refreshed' =>
      simp only [stationsAction] at ha
      split at ha
      case isTrue => cases ha
      case isFalse hforeign =>
        obtain ⟨reply', -, ha⟩ := Option.map_eq_some_iff.mp ha
        exact absurd (Stations.Action.handleLookupReply.inj ha).2.1 hforeign
  | other action =>
      cases action with
      | handleLookupReply => cases ha
      | _ => cases ha
  | _ => cases ha

/-- The address of a station is the one its reply came from. -/
theorem ctrlAddr_of_ofReply {getaddrinfo : List Char → Option Nat} {srcAddr : SockAddr}
    {reply : LookupReply} {made : Int} {station : RadioStation}
    (h : RadioStation.ofReply getaddrinfo srcAddr reply made = .ok (some station)) :
    station.ctrlAddr = srcAddr := by
  unfold RadioStation.ofReply at h
  split at h
  case isTrue =>
    obtain ⟨mcastAddr, -, h⟩ := bind_eq_ok_iff.mp h
    obtain rfl := Option.some.inj (Except.ok.inj h)
    rfl
  case isFalse => cases Except.ok.inj h

/-- A step of the stations lists nothing false under the sender's address. -/
theorem Honest.stationsStep (h : Honest w x) {a : Action} {b : Stations.Action}
    {stations : Stations} (hb : stationsAction w x a = some b)
    (hs : stationsStep w x.stations b = .ok stations) :
    (∀ n ∈ stations.stations.nodes, OfSender w n.value) ∧ stations.CurrentValid := by
  obtain ⟨s', hs', hvalid⟩ | ⟨hfatal, -⟩ := Stations.exists_step h.valid w.receiverResolves
    w.receiverParams.prioStationName b
  · obtain rfl : stations = s' := Except.ok.inj (hs.symm.trans hs')
    refine ⟨?_, hvalid⟩
    refine Stations.forall_nodes_step (P := OfSender w) (fun station now hold => hold) ?_
      h.listed hs
    rintro reply srcAddr made refreshed station rfl hstation hctrl
    obtain rfl : srcAddr = w.sender := (ctrlAddr_of_ofReply hstation).symm.trans hctrl
    obtain rfl := h.eq_announcement hb
    obtain ⟨expected, hexpected, hfields⟩ := w.exists_ofReply made
    obtain rfl : station = expected :=
      Option.some.inj (Except.ok.inj (hstation.symm.trans hexpected))
    exact hfields
  · cases hs.symm.trans hfatal

theorem Honest.step (h : Honest w x) {a : Action} (hs : step w x a = .ok x') : Honest w x' := by
  obtain ⟨hlookups, hcontroller⟩ := sent_step hs
  have hstations : (∀ n ∈ x'.stations.stations.nodes, OfSender w n.value) ∧
      x'.stations.CurrentValid := by
    have hstep := stations_step hs
    split at hstep
    case h_1 b hb => exact h.stationsStep hb hstep
    case h_2 =>
      rw [hstep]
      exact ⟨h.listed, h.valid⟩
  have hsent : x'.controller.lookupReply = w.announcement ∧
      ∀ d ∈ x'.controller.sent, d.2 = w.announcement.toStr := by
    rcases hcontroller with hsame | ⟨srcAddr, datagram, hhandled⟩
    · rw [hsame]
      exact ⟨h.lookupReply_eq, h.announced⟩
    · obtain ⟨hreply, hsent⟩ := Controller.sent_of_handleDatagram hhandled
      refine ⟨hreply.trans h.lookupReply_eq, ?_⟩
      rcases hsent with hsent | hsent
      · rw [hsent]
        exact h.announced
      · rw [hsent, h.lookupReply_eq]
        exact List.forall_mem_append.mpr ⟨h.announced, by simp⟩
  refine ⟨hsent.1, hsent.2, ?_, hstations.1, hstations.2⟩
  rcases hlookups with hlookups | hlookups
  · rw [hlookups]
    exact h.requested
  · rw [hlookups]
    exact List.forall_mem_append.mpr ⟨h.requested, by simp⟩

theorem honest_run {actions : List Action} (hrun : run w (init w) actions = .ok x) :
    Honest w x :=
  inv_of_run (fun _ _ _ h hs => h.step hs) honest_init hrun

/-- In every state that the two parties reach through any network, whatever others send, the
receiver takes the sender for what it is. -/
theorem discovery_faithful (w : Setting) {actions : List Action} {x : Discovery}
    (hrun : run w (init w) actions = .ok x) : Faithful w x :=
  ⟨(honest_run hrun).announced, (honest_run hrun).listed⟩

/-! ## Who is listed -/

/-- The action reads the clock under the locks of the stations at `t`. -/
def ReadsLocked : Action → Int → Prop
  | .deliverReply _ _ refreshed, t => t = refreshed
  | .reply _ _ _ refreshed, t => t = refreshed
  | .other action, t => Stations.ReadsLocked action t
  | _, _ => False

/-- The action reads the clock at `t`. -/
def Reads : Action → Int → Prop
  | .deliverReply _ made refreshed, t => t = made ∨ t = refreshed
  | .reply _ _ made refreshed, t => t = made ∨ t = refreshed
  | .other action, t => Stations.Reads action t
  | _, _ => False

/-- The clock does not decrease. -/
def ClockOrdered (actions : List Action) : Prop :=
  actions.Pairwise fun a b => ∀ t u, Reads a t → ReadsLocked b u → t ≤ u

/-- No action has read the clock after `u`. -/
def After (past : List Action) (u : Int) : Prop := ∀ a ∈ past, ∀ t, Reads a t → t ≤ u

variable (w) in
/-- What a run makes the receiver's workers do with the stations. -/
def performed (x : Discovery) : List Action → List Stations.Action
  | [] => []
  | a :: as =>
      match step w x a with
      | .ok x' => (stationsAction w x a).toList ++ performed x' as
      | .error _ => []

/-- What a step makes the receiver do reads the clock when the step does. -/
theorem reads_of_stationsAction {a : Action} {b : Stations.Action}
    (h : stationsAction w x a = some b) (t : Int) :
    (Stations.Reads b t → Reads a t) ∧ (Stations.ReadsLocked b t → ReadsLocked a t) := by
  cases a with
  | deliverReply i made refreshed =>
      simp only [stationsAction] at h
      split at h
      case h_1 =>
        split at h
        case isTrue =>
          obtain ⟨reply, -, rfl⟩ := Option.map_eq_some_iff.mp h
          exact ⟨id, id⟩
        case isFalse => cases h
      case h_2 => cases h
  | reply srcAddr replyBuf made refreshed =>
      simp only [stationsAction] at h
      split at h
      case isTrue => cases h
      case isFalse =>
        obtain ⟨reply, -, rfl⟩ := Option.map_eq_some_iff.mp h
        exact ⟨id, id⟩
  | other action =>
      cases action with
      | handleLookupReply => cases h
      | _ =>
          obtain rfl := Option.some.inj h
          exact ⟨id, id⟩
  | _ => cases h

theorem run_performed {actions : List Action} (hrun : run w x actions = .ok x') :
    Stations.run w.receiverResolves w.receiverParams.prioStationName x.stations
      (performed w x actions) = .ok x'.stations := by
  induction actions generalizing x with
  | nil =>
      obtain rfl := Except.ok.inj hrun
      rfl
  | cons a as ih =>
      simp only [run, List.foldlM_cons, bind_eq_ok_iff] at hrun
      obtain ⟨x₁, hs, hrest⟩ := hrun
      have hstep := stations_step hs
      simp only [performed, hs]
      split at hstep
      case h_1 b hb =>
        simp only [hb, Option.toList_some, List.singleton_append, Stations.run, List.foldlM_cons,
          bind_eq_ok_iff]
        exact ⟨x₁.stations, hstep, ih hrest⟩
      case h_2 hb =>
        simp only [hb, Option.toList_none, List.nil_append]
        rw [← hstep]
        exact ih hrest

theorem performed_append {as bs : List Action} (hrun : run w x as = .ok x') :
    performed w x (as ++ bs) = performed w x as ++ performed w x' bs := by
  induction as generalizing x with
  | nil =>
      obtain rfl := Except.ok.inj hrun
      rfl
  | cons a as ih =>
      simp only [run, List.foldlM_cons, bind_eq_ok_iff] at hrun
      obtain ⟨x₁, hs, hrest⟩ := hrun
      simp only [List.cons_append, performed, hs, ih hrest, List.append_assoc]

/-- Every step of the receiver's workers belongs to a step of the run. -/
theorem exists_of_mem_performed {actions : List Action} {b : Stations.Action}
    (hb : b ∈ performed w x actions) :
    ∃ a ∈ actions, ∀ t, (Stations.Reads b t → Reads a t) ∧
      (Stations.ReadsLocked b t → ReadsLocked a t) := by
  induction actions generalizing x with
  | nil => cases hb
  | cons a as ih =>
      simp only [performed] at hb
      split at hb
      case h_1 x₁ hs =>
        rcases List.mem_append.mp hb with hb | hb
        · exact ⟨a, List.mem_cons_self .., reads_of_stationsAction (Option.mem_toList.mp hb)⟩
        · obtain ⟨a', ha', hreads⟩ := ih hb
          exact ⟨a', List.mem_cons_of_mem a ha', hreads⟩
      case h_2 => cases hb

theorem After.performed {actions : List Action} {u : Int} (h : After actions u) :
    Stations.After (performed w x actions) u := by
  intro b hb t ht
  obtain ⟨a, ha, hreads⟩ := exists_of_mem_performed hb
  exact h a ha t ((hreads t).1 ht)

theorem ClockOrdered.performed {actions : List Action} (h : ClockOrdered actions) :
    Stations.ClockOrdered (performed w x actions) := by
  induction actions generalizing x with
  | nil => exact .nil
  | cons a as ih =>
      obtain ⟨hfirst, hrest⟩ := List.pairwise_cons.mp h
      simp only [Discovery.performed]
      split
      case h_1 x₁ hs =>
        refine List.pairwise_append.mpr ⟨?_, ih hrest, ?_⟩
        · cases stationsAction w x a with
          | none => exact .nil
          | some b => exact List.pairwise_singleton ..
        · intro b hb c hc t u ht hu
          obtain ⟨a', ha', hreads⟩ := exists_of_mem_performed hc
          have hb' := reads_of_stationsAction (Option.mem_toList.mp hb) t
          exact hfirst a' ha' t u (hb'.1 ht) ((hreads u).2 hu)
      case h_2 => exact .nil

/-- What the Controller has sent stays sent. -/
theorem sent_run {actions : List Action} (hrun : run w x actions = .ok x') :
    x.controller.sent <+: x'.controller.sent := by
  refine inv_of_run (I := fun y : Discovery => x.controller.sent <+: y.controller.sent) ?_
    (List.prefix_refl _) hrun
  intro y a y' hkept hs
  rcases (sent_step hs).2 with hsame | ⟨srcAddr, datagram, hhandled⟩
  · rw [hsame]
    exact hkept
  · rcases (Controller.sent_of_handleDatagram hhandled).2 with hsent | hsent
    · rw [hsent]
      exact hkept
    · rw [hsent]
      exact hkept.trans (List.prefix_append ..)

/-- A lookup that reaches the Controller is answered. -/
theorem sent_deliverLookup {i : Nat} (htext : x.lookups[i]? = some LookupRequest.toStr)
    (hs : step w x (.deliverLookup i) = .ok x') :
    x'.controller.sent =
      x.controller.sent ++ [(w.receiver, x.controller.lookupReply.toStr)] := by
  have hreceived : Controller.receivedString LookupRequest.toStr = LookupRequest.toStr :=
    Controller.receivedString_eq (by decide) (by decide)
  have hlookup : IsLookup (Controller.receivedString LookupRequest.toStr) := by
    rw [hreceived]
    exact .inr rfl
  simp only [step, htext] at hs
  obtain ⟨controller, hhandled, hs⟩ := bind_eq_ok_iff.mp hs
  obtain rfl := Except.ok.inj hs
  obtain rfl :=
    Except.ok.inj (hhandled.symm.trans (Controller.handleDatagram_of_isLookup hlookup))
  rfl

/-- A run in which lookup `i` reaches the Controller and then reply `j` reaches the receiver. -/
def roundTrip (before between after : List Action) (i j : Nat) (made refreshed : Int) :
    List Action :=
  (before ++ .deliverLookup i :: between) ++ .deliverReply j made refreshed :: after

/-- When a lookup has reached the sender and its answer has come back, the station is in the
list as long as the answer is less than 20 seconds old, whatever else happens. -/
theorem discovered (w : Setting) {before between after : List Action} {i : Nat}
    {made refreshed now : Int} {x₀ x : Discovery} (hbefore : run w (init w) before = .ok x₀)
    (hlookup : i < x₀.lookups.length)
    (hrun : run w (init w)
      (roundTrip before between after i x₀.controller.sent.length made refreshed) = .ok x)
    (hclock : ClockOrdered
      (roundTrip before between after i x₀.controller.sent.length made refreshed))
    (hnow : After (roundTrip before between after i x₀.controller.sent.length made refreshed) now)
    (hmade : now - made < Stations.removalThreshold)
    (hrefreshed : now - refreshed < Stations.removalThreshold) :
    ∃ n ∈ x.stations.stations.nodes, n.value.name = w.senderParams.name ∧
      n.value.mcastAddr = w.dst ∧ n.value.dataAddr = w.source := by
  have hhonest := honest_run hbefore
  obtain ⟨x₂, hfirst, hlast⟩ := run_append_iff.mp hrun
  obtain ⟨x₃, hheard, hafter⟩ := run_cons_iff.mp hlast
  have htext : x₀.lookups[i]? = some LookupRequest.toStr := by
    rw [List.getElem?_eq_getElem hlookup, hhonest.requested _ (List.getElem_mem hlookup)]
  -- the answer is the next thing that the Controller sends, and it stays sent
  have hanswer : x₂.controller.sent[x₀.controller.sent.length]? =
      some (w.receiver, w.announcement.toStr) := by
    obtain ⟨x₀', hbefore', hasked⟩ := run_append_iff.mp hfirst
    obtain rfl := Except.ok.inj (hbefore.symm.trans hbefore')
    obtain ⟨x₁, hasked, hbetween⟩ := run_cons_iff.mp hasked
    obtain ⟨later, hlater⟩ := sent_run hbetween
    rw [← hlater, sent_deliverLookup htext hasked, hhonest.lookupReply_eq]
    simp
  have hb : stationsAction w x₂ (.deliverReply x₀.controller.sent.length made refreshed) =
      some (.handleLookupReply w.announcement w.sender made refreshed) := by
    simp only [stationsAction, hanswer, if_true, heard, w.ofString_announcement, Option.map_some]
  have hstep := stations_step hheard
  rw [hb] at hstep
  have hperformed : performed w (init w)
      (roundTrip before between after i x₀.controller.sent.length made refreshed) =
        performed w (init w) (before ++ .deliverLookup i :: between) ++
          .handleLookupReply w.announcement w.sender made refreshed :: performed w x₃ after := by
    rw [roundTrip, performed_append hfirst, performed, hheard]
    simp only [hb, Option.toList_some, List.singleton_append]
  have hordered : Stations.ClockOrdered (performed w (init w) _) := hclock.performed
  have hlatest : Stations.After (performed w (init w) _) now := hnow.performed
  rw [hperformed] at hordered hlatest
  obtain ⟨station, hstation, hname, hmcast, hdata⟩ := w.exists_ofReply made
  obtain ⟨n, hn, hkey⟩ := Stations.exists_mem_of_handled (run_performed hfirst) hstep
    (run_performed hafter) hordered hlatest hstation hmade hrefreshed
  obtain ⟨hname', hmcast', hdata'⟩ := RadioStation.eq_of_key_eq hkey
  exact ⟨n, hn, hname'.trans hname, hmcast'.trans hmcast, hdata'.trans hdata⟩

section Example

theorem null_not_mem_of_isDotted {host : List Char} {sAddr : Nat} (h : IsDotted host sAddr) :
    Char.ofNat 0 ∉ host := by
  obtain ⟨a, b, c, d, -, rfl, -⟩ := h
  refine Foundations.SeparatedText.not_mem_intercalate (by decide) ?_
  simp only [List.forall_mem_cons]
  exact ⟨notMem_toDecimal (by decide) a, notMem_toDecimal (by decide) b,
    notMem_toDecimal (by decide) c, notMem_toDecimal (by decide) d, by simp⟩

theorem resolvesDotted_inetPton : ResolvesDotted fun host => inetPton (cStr host) := by
  intro host sAddr h
  have hread : cStr host = ⟨host, null_not_mem_of_isDotted h⟩ := cStr_chars ⟨host, _⟩
  simp only [hread]
  exact (inetPton_eq_some_iff _ _).mpr h

/-- The station P1 on host 1 sends to 239.1.2.3; the receiver has its defaults. -/
def exampleSetting : Setting where
  inetPton := inetPton
  senderResolves := fun host => inetPton (cStr host)
  receiverResolves := fun host => inetPton (cStr host)
  senderParams :=
    { name := ['P', '1']
      mcastAddr := LookupReply.exampleHost
      dataPort := 29629
      ctrlPort := 39629
      psize := 512
      fsize := 131072
      sessionId := 7
      rtime := 250
      psize_pos := by decide
      psize_le := by decide
      fsize_pos := by decide
      validName := by decide
      multicast := by decide +kernel }
  receiverParams :=
    { prioStationName := none
      discoverAddr := ⟨['2'], by decide⟩
      ctrlPort := 39629
      uiPort := 19629
      bsize := 65536
      rtime := 250
      validName := by simp
      bsize_pos := by decide }
  host := 1
  receiver := ⟨2, 3⟩
  dst := ⟨239 + 256 * (1 + 256 * (2 + 256 * 3)), htons 29629⟩
  inetPton_iff := inetPton_eq_some_iff
  sender_dotted := resolvesDotted_inetPton
  receiver_dotted := resolvesDotted_inetPton
  dst_eq := by decide +kernel

/-- The sender is found. -/
theorem discovery_faithful_found :
    ∃ x, run exampleSetting (init exampleSetting) [.lookup, .deliverLookup 0, .deliverReply 0 0 0]
      = .ok x ∧ Faithful exampleSetting x :=
  exists_ok_and (by decide +kernel) fun _ hrun => discovery_faithful exampleSetting hrun

/-- The answer is ten seconds old. -/
theorem discovered_found :
    ∃ x, run exampleSetting (init exampleSetting) (roundTrip [.lookup] [] [] 0 0 5 6) = .ok x ∧
      ∃ n ∈ x.stations.stations.nodes, n.value.name = ['P', '1'] ∧
        n.value.mcastAddr = exampleSetting.dst ∧ n.value.dataAddr = exampleSetting.source := by
  refine exists_ok_and (by decide +kernel) fun x hrun => ?_
  have hbefore : run exampleSetting (init exampleSetting) [.lookup] =
      .ok { init exampleSetting with lookups := [LookupRequest.toStr] } := rfl
  have hclock : ClockOrdered (roundTrip [.lookup] [] [] 0 0 5 6) := by
    simp [ClockOrdered, roundTrip, Reads, ReadsLocked]
  have hnow : After (roundTrip [.lookup] [] [] 0 0 5 6) (10 * 10 ^ 9) := by
    simp [After, roundTrip, Reads]
  exact discovered exampleSetting hbefore (by decide) hrun hclock hnow (by decide) (by decide)

end Example

end Discovery

end SikRadio.Protocol
