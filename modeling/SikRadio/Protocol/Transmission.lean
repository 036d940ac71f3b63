import SikRadio.Common.AudioPacketCodec
import SikRadio.Receiver.Gapless
import SikRadio.Receiver.SessionRuns
import SikRadio.Sender.PacketCache

/-!
# From standard input to standard output

The sender cuts its input into packets, the network delivers the datagrams or
loses, repeats and reorders them, and the receiver decodes, buffers and prints
what arrives. When every datagram from some packet on arrives in order, the
output is the input from there on. On a bad network each chunk of the output is
silence or the bytes of the input at the chunk's own position.

## Implementation notes

Packets are exchanged as datagrams: a packet is received only when `read_packet`
makes it of the bytes that the sending constructor built.
-/

namespace SikRadio.Protocol

open SikRadio.Common SikRadio.Receiver SikRadio.Receiver.Playback SikRadio.Sender
open Foundations Foundations.CheckedRuns Foundations.Logs

/-- The sender has read the input, in whatever pieces `read` returned, and stopped nowhere. -/
def Broadcasts (psize fsize sessionId : Nat) (input : List UInt8) (sender : AudioSender UInt8) :
    Prop :=
  ∃ s₀ reads, AudioSender.init psize fsize sessionId = some s₀ ∧
    Guarded AudioSender.readChunk AudioSender.ReadReturns s₀ reads ∧ reads.flatten = input ∧
    reads.foldlM AudioSender.readChunk s₀ = .ok sender

/-- The datagrams sent to the multicast group. -/
def datagrams (sender : AudioSender UInt8) : List (List UInt8) := sender.sent.map AudioPacket.bytes

/-- The network delivers one datagram after the other. -/
def DeliversAll (datagrams : List (List UInt8)) (s : Playback UInt8) : Action UInt8 → Prop
  | .receive packet => s.inHand = none →
      (datagrams[(handledSince s.log).length]?).bind readPacket = some packet
  | .changeStation => False
  | _ => True

/-- The network delivers some of the datagrams, in any order and any number of times. -/
def DeliversSome (datagrams : List (List UInt8)) : Action UInt8 → Prop
  | .receive packet => ∃ datagram ∈ datagrams, readPacket datagram = some packet
  | .changeStation => False
  | _ => True

/-- The bytes written so far. -/
def output (log : List (Observation UInt8)) : List UInt8 := (chunks log).flatMap Prod.snd

instance (datagrams : List (List UInt8)) (s : Playback UInt8) :
    (action : Action UInt8) → Decidable (DeliversAll datagrams s action)
  | .receive _ => inferInstanceAs (Decidable (s.inHand = none → _ = _))
  | .changeStation => isFalse id
  | .put | .popEvent | .print => isTrue trivial

instance (datagrams : List (List UInt8)) :
    (action : Action UInt8) → Decidable (DeliversSome datagrams action)
  | .receive _ => inferInstanceAs (Decidable (∃ datagram ∈ datagrams, _ = _))
  | .changeStation => isFalse id
  | .put | .popEvent | .print => isTrue trivial

section Blocks

variable {psize sessionId n k c : Nat} {input : List UInt8} {packet : AudioPacket UInt8}

/-- Packet `k` of the input, which its numbers do not wrap. -/
theorem getElem?_packets (hid : sessionId < 2 ^ 64) (hn : n * psize ≤ input.length)
    (hword : input.length ≤ 2 ^ 63)
    (hpacket : (packets psize sessionId input n)[k]? = some packet) :
    k < n ∧ packet.sessionId = sessionId ∧ packet.psize = psize ∧
      packet.firstByteNum = k * psize ∧ packet.audioData = payload psize input k := by
  obtain ⟨hk, rfl⟩ := List.getElem?_eq_some_iff.mp hpacket
  have hkn : k < n := by simpa [packets] using hk
  have hend : (k + 1) * psize ≤ input.length := (Nat.mul_le_mul_right psize hkn).trans hn
  have hstart : k * psize ≤ (k + 1) * psize := Nat.mul_le_mul_right psize (Nat.le_succ k)
  have hnumber : k * psize < 2 ^ 64 := by omega
  simp only [packets, List.getElem_map, List.getElem_range, AudioPacket.ofWords,
    AudioPacket.psize, Nat.mod_eq_of_lt hid, Nat.mod_eq_of_lt hnumber, length_payload hend]
  exact ⟨hkn, trivial, trivial, trivial, trivial⟩

/-- The blocks of the input in a row. -/
theorem flatMap_payload : (List.range' k c).flatMap (payload psize input) =
    (input.drop (k * psize)).take (c * psize) := by
  induction c generalizing k with
  | zero => simp
  | succ c ih =>
      rw [List.range'_succ, List.flatMap_cons, ih, payload, Nat.succ_mul c,
        Nat.add_comm (c * psize), List.take_add, List.drop_drop, Nat.succ_mul k]

end Blocks

section Sent

variable {psize fsize sessionId k : Nat} {input : List UInt8} {sender : AudioSender UInt8}
  (hsends : Broadcasts psize fsize sessionId input sender) (hpos : 0 < psize)
  (hfit : psize ≤ fsize) (hword : input.length ≤ 2 ^ 63)

include hsends hpos hfit hword

/-- The packets sent are the complete blocks of the input. -/
theorem Broadcasts.sent_eq :
    sender.sent = packets psize sessionId input (input.length / psize) := by
  obtain ⟨s₀, reads, hinit, hread, rfl, hrun⟩ := hsends
  have hblocks : ([] ++ reads.flatten).length / psize * psize < 2 ^ 64 := by
    have := Nat.div_mul_le_self ([] ++ reads.flatten).length psize
    rw [List.nil_append] at this ⊢
    omega
  obtain ⟨s, n, hrun', hsending⟩ := (sending_init hpos hfit hinit).run hread hblocks
  obtain rfl := Except.ok.inj (hrun.symm.trans hrun')
  rw [List.nil_append] at hsending
  rw [hsending.count_eq, hsending.sent_eq]

variable (hid : sessionId < 2 ^ 64)

include hid

/-- A packet that was sent, with its number. -/
theorem Broadcasts.getElem?_sent {packet : AudioPacket UInt8} {i : Nat}
    (hpacket : sender.sent[i]? = some packet) :
    (i + 1) * psize ≤ input.length ∧ packet.sessionId = sessionId ∧ packet.psize = psize ∧
      packet.firstByteNum = i * psize ∧ packet.audioData = payload psize input i := by
  have hn := Nat.div_mul_le_self input.length psize
  rw [hsends.sent_eq hpos hfit hword] at hpacket
  obtain ⟨hi, hfields⟩ := getElem?_packets hid hn hword hpacket
  exact ⟨(Nat.mul_le_mul_right psize hi).trans hn, hfields⟩

/-- What a receiver that joins at packet `k` can get. -/
theorem Broadcasts.isStream_drop :
    IsStream (k * psize) psize sessionId (sender.sent.drop k) := by
  intro i hi
  have hget : sender.sent[k + i]? = some (sender.sent.drop k)[i] := by
    rw [← List.getElem?_drop, List.getElem?_eq_getElem hi]
  obtain ⟨-, hsession, hlen, hfbn, -⟩ := hsends.getElem?_sent hpos hfit hword hid hget
  exact ⟨hsession, hlen, by rw [hfbn]; ring⟩

omit hid in
/-- The bytes of `c` packets from packet `k` on are those of the input. -/
theorem Broadcasts.flatMap_audioData {c : Nat} (hc : c ≤ (sender.sent.drop k).length) :
    ((sender.sent.drop k).take c).flatMap AudioPacket.audioData =
      (input.drop (k * psize)).take (c * psize) := by
  rw [hsends.sent_eq hpos hfit hword] at hc ⊢
  have hdata : ((packets psize sessionId input (input.length / psize)).drop k).take c =
      (List.range' k c).map fun j =>
        AudioPacket.ofWords sessionId (j * psize) (payload psize input j) := by
    simp only [packets, List.length_drop, List.length_map, List.length_range] at hc
    rw [packets, ← List.map_drop, ← List.map_take, List.range_eq_range', List.drop_range',
      List.take_range'_of_length_ge hc, Nat.zero_add, Nat.mul_one]
  rw [hdata, List.flatMap_map, ← flatMap_payload]
  rfl

end Sent

/-! ## A network without losses -/

/-- A datagram that the sender sent is decoded to the packet it sent. -/
theorem Broadcasts.decodes {psize fsize sessionId i : Nat} {input : List UInt8}
    {sender : AudioSender UInt8} (hsends : Broadcasts psize fsize sessionId input sender)
    (hpos : 0 < psize) (hmax : psize ≤ AudioPacket.maxPsize) (hfit : psize ≤ fsize)
    (hword : input.length ≤ 2 ^ 63) (hid : sessionId < 2 ^ 64) :
    ((datagrams sender)[i]?).bind readPacket = sender.sent[i]? := by
  rw [datagrams, List.getElem?_map]
  cases hget : sender.sent[i]? with
  | none => rfl
  | some packet =>
      obtain ⟨-, -, hlen, -⟩ := hsends.getElem?_sent hpos hfit hword hid hget
      exact readPacket_bytes (hlen ▸ hmax)

section Lossless

variable {psize fsize sessionId bsize k : Nat} {input : List UInt8} {sender : AudioSender UInt8}
  {buffer : CircularBuffer UInt8} {s : Playback UInt8}

/-- What a session without losses has written. -/
theorem output_of_flowing (hsends : Broadcasts psize fsize sessionId input sender)
    (hpos : 0 < psize) (hfit : psize ≤ fsize) (hword : input.length ≤ 2 ^ 63) {n c : Nat}
    {w : StreamWindow UInt8}
    (hflow : Flowing bsize (k * psize) psize sessionId n c (sender.sent.drop k) w s) :
    output s.log = (input.drop (k * psize)).take (c * psize) ∧
      (output s.log).length = c * psize := by
  have hc : c ≤ (sender.sent.drop k).length := by
    have hlength := hflow.length_eq
    rw [hflow.chunks_eq, List.length_map, List.length_take] at hlength
    omega
  have houtput : output s.log = (input.drop (k * psize)).take (c * psize) := by
    rw [output, hflow.chunks_eq, List.flatMap_map,
      ← hsends.flatMap_audioData hpos hfit hword hc]
    rfl
  refine ⟨houtput, ?_⟩
  rw [houtput, List.length_take, List.length_drop]
  rcases Nat.eq_zero_or_pos c with rfl | hcpos
  · rw [Nat.zero_mul, Nat.zero_min]
  · have hblocks := Nat.div_mul_le_self input.length psize
    rw [hsends.sent_eq hpos hfit hword, packets, List.length_drop, List.length_map,
      List.length_range] at hc
    have hend : (k + c) * psize ≤ input.length :=
      (Nat.mul_le_mul_right psize (by omega)).trans hblocks
    rw [Nat.add_mul] at hend
    omega

/-- On a network that loses nothing, with a printer that keeps up, the receiver writes the input
of the sender from the packet on that it joined with. Every packet put since the playback started
is written, or its job is pending. -/
theorem output_is_input {actions : List (Action UInt8)}
    (hsends : Broadcasts psize fsize sessionId input sender) (hpos : 0 < psize)
    (hmax : psize ≤ AudioPacket.maxPsize) (hfit : psize ≤ fsize) (hword : input.length ≤ 2 ^ 63)
    (hid : sessionId < 2 ^ 64) (hsid : sessionId ≠ noSession) (hjoin : k ≤ sender.sent.length)
    (hnew : CircularBuffer.new bsize = some buffer)
    (hstart : startup bsize psize < bsize / psize)
    (hnetwork : Guarded step (DeliversAll ((datagrams sender).drop k)) (init buffer) actions)
    (hkeeps : Guarded step (KeepsUp bsize psize) (init buffer) actions) :
    ∃ s, run (init buffer) actions = .ok s ∧ output s.log <+: input.drop (k * psize) ∧
      (s.inHand = none → (output s.log).length + s.pendingJobs * psize =
        ((handledSince s.log).length + 1 - startup bsize psize) * psize) := by
  have hstream := hsends.isStream_drop (k := k) hpos hfit hword hid
  have hend : k * psize + (sender.sent.drop k).length * psize ≤ 2 ^ 63 := by
    have hblocks := Nat.div_mul_le_self input.length psize
    have hlength : sender.sent.length = input.length / psize := by
      rw [hsends.sent_eq hpos hfit hword, packets, List.length_map, List.length_range]
    rw [← Nat.add_mul, List.length_drop, Nat.add_sub_cancel' hjoin, hlength]
    omega
  have horder : Guarded step (ArrivesInOrder (sender.sent.drop k)) (init buffer) actions := by
    apply hnetwork.imp
    intro s action hdelivers
    cases action with
    | receive packet =>
        intro hhand
        have hnext := hdelivers hhand
        rwa [List.getElem?_drop, hsends.decodes hpos hmax hfit hword hid,
          ← List.getElem?_drop] at hnext
    | changeStation => exact hdelivers
    | put => trivial
    | popEvent => trivial
    | print => trivial
  obtain ⟨s, hrun, hsteady⟩ := ok_of_guarded
    (I := Steady bsize (k * psize) psize sessionId (sender.sent.drop k) buffer)
    (fun s action hs hg => steady_step hstart hsid hnew hstream hend hs hg.1 hg.2) (.inl rfl)
    (horder.and hkeeps)
  refine ⟨s, hrun, ?_⟩
  rcases hsteady with rfl | ⟨n, c, w, hflow⟩
  · refine ⟨List.nil_prefix, fun _ => ?_⟩
    simp [init, output, chunks, pendingJobs, handledSince, startup]
  · obtain ⟨houtput, hlength⟩ := output_of_flowing hsends hpos hfit hword hflow
    refine ⟨houtput ▸ List.take_prefix _ _, fun hhand => ?_⟩
    have hhandled := hflow.handled_eq
    rw [hhand, Option.toList_none, List.length_nil, Nat.add_zero] at hhandled
    rw [hlength, hhandled, ← hflow.jobs_eq]
    ring

end Lossless

/-! ## A network that loses, repeats and reorders -/

section Kept

variable {α : Type} [Zero α] {P : AudioPacket α → Prop} {s s' : Playback α}

/-- The packets in hand and those that were kept satisfy `P`. -/
structure KeepsOnly (P : AudioPacket α → Prop) (s : Playback α) : Prop where
  inHand : ∀ packet, s.inHand = some packet → P packet
  kept : ∀ packet, .kept packet ∈ s.log → P packet

theorem keepsOnly_step {action : Action α} (h : KeepsOnly P s)
    (hreceive : ∀ packet, action = .receive packet → P packet) (hs : s.step action = .ok s') :
    KeepsOnly P s' := by
  rcases step_cases hs with rfl | ⟨packet, rfl, hhand, rfl⟩ | ⟨packet, -, hhand, hput⟩ |
    ⟨-, -, rfl⟩ | ⟨event, rest, -, -, -, rfl⟩ | ⟨-, -, hprint⟩
  · exact h
  · refine ⟨fun p hp => ?_, fun p hp => h.kept p (by simpa using hp)⟩
    have hnew : P packet := hreceive packet rfl
    rcases openSession_cases s packet with
      ⟨-, e⟩ | ⟨-, -, e⟩ | ⟨-, -, e⟩ | ⟨-, -, -, e⟩ | ⟨-, -, -, e⟩ <;> rw [e] at hp
    · exact h.inHand p hp
    · exact h.inHand p hp
    · exact Option.some.inj hp ▸ hnew
    · exact h.inHand p hp
    · exact Option.some.inj hp ▸ hnew
  · obtain ⟨buffer, -, rfl⟩ := putPacket_eq_ok_iff.mp hput
    refine ⟨by simp, fun p hp => ?_⟩
    rw [afterPut_log] at hp
    split at hp
    · exact h.kept p hp
    · rcases List.mem_append.mp hp with hold | hnew
      · exact h.kept p hold
      · obtain rfl : p = packet := by simpa using hnew
        exact h.inHand p hhand
  · exact ⟨h.inHand, fun p hp => h.kept p (by simpa [changeStation] using hp)⟩
  · exact ⟨h.inHand, h.kept⟩
  · obtain ⟨buffer, chunk, rfl⟩ := exists_of_handlePrint hprint
    exact ⟨h.inHand, fun p hp => h.kept p (by simpa using hp)⟩

omit [Zero α] in
theorem mem_positions_of_mem_chunks {log : List (Observation α)} {p : Nat} {chunk : List α}
    (h : (p, chunk) ∈ chunks log) : p ∈ positions log := by
  obtain ⟨observation, hmem, hsome⟩ := List.mem_filterMap.mp h
  refine List.mem_filterMap.mpr ⟨observation, hmem, ?_⟩
  cases observation with
  | written position byte0 absHead xs => exact congrArg (Option.map Prod.fst) hsome
  | handled packet => cases hsome
  | kept packet => cases hsome
  | stationChanged => cases hsome

omit [Zero α] in
theorem exists_kept_of_mem_keptAt {log : List (Observation α)} {q : Nat} {xs : List α}
    (h : xs ∈ keptAt log q) :
    ∃ packet, .kept packet ∈ log ∧ packet.firstByteNum = q ∧ packet.audioData = xs := by
  obtain ⟨observation, hmem, hsome⟩ := List.mem_filterMap.mp h
  cases observation with
  | kept packet =>
      dsimp only at hsome
      split at hsome
      case isTrue hq => exact ⟨packet, hmem, hq, Option.some.inj hsome⟩
      case isFalse => cases hsome
  | written position byte0 absHead chunk => cases hsome
  | handled packet => cases hsome
  | stationChanged => cases hsome

/-- Chunks that are written in order have increasing positions and hold what was kept. -/
theorem chunks_of_playsInOrder {m : Nat} {log : List (Observation α)} (h : PlaysInOrder m log) :
    (chunks log).Pairwise (fun a b => a.1 < b.1) ∧
      ∀ p chunk, (p, chunk) ∈ chunks log → chunk = List.replicate m 0 ∨
        ∃ packet, .kept packet ∈ log ∧ packet.firstByteNum = p ∧ packet.audioData = chunk := by
  induction log using List.reverseRecOn with
  | nil => simp [chunks]
  | append_singleton log observation ih =>
      obtain ⟨hbefore, hlast⟩ := justified_concat_iff.mp h
      obtain ⟨hpair, hcontent⟩ := ih hbefore
      have hkeep : ∀ p chunk, (p, chunk) ∈ chunks log → chunk = List.replicate m 0 ∨
          ∃ packet, .kept packet ∈ log ++ [observation] ∧ packet.firstByteNum = p ∧
            packet.audioData = chunk := by
        intro p chunk hmem
        refine (hcontent p chunk hmem).imp_right ?_
        rintro ⟨packet, hkept, hfields⟩
        exact ⟨packet, List.mem_append_left _ hkept, hfields⟩
      cases observation with
      | written position byte0 absHead chunk =>
          obtain ⟨hlt, -, -, hchunk⟩ := hlast
          rw [chunks_written]
          refine ⟨?_, fun p xs hmem => ?_⟩
          · refine List.pairwise_append.mpr ⟨hpair, List.pairwise_singleton _ _, ?_⟩
            rintro ⟨q, xs⟩ hmem b hb
            obtain rfl := List.mem_singleton.mp hb
            exact hlt q (mem_positions_of_mem_chunks hmem)
          · rcases List.mem_append.mp hmem with hold | hnew
            · exact hkeep p xs hold
            · obtain ⟨rfl, rfl⟩ := Prod.mk.inj (List.mem_singleton.mp hnew)
              cases hlast : (keptAt log p).getLast? with
              | none => exact .inl (by rw [hchunk, hlast]; rfl)
              | some ys =>
                  obtain ⟨packet, hkept, hfbn, hdata⟩ :=
                    exists_kept_of_mem_keptAt (List.mem_of_getLast? hlast)
                  exact .inr ⟨packet, List.mem_append_left _ hkept, hfbn,
                    by rw [hdata, hchunk, hlast]; rfl⟩
      | handled packet => exact ⟨by simpa using hpair, by simpa using hkeep⟩
      | kept packet => exact ⟨by simpa using hpair, by simpa using hkeep⟩
      | stationChanged => exact ⟨by simpa [chunks] using hpair, by simpa [chunks] using hkeep⟩

end Kept

section Lossy

variable {psize fsize sessionId bsize : Nat} {input : List UInt8} {sender : AudioSender UInt8}
  {buffer : CircularBuffer UInt8}

/-- Whatever the network loses, repeats or reorders, as long as late packets find their slot and
jobs a packet, every chunk of the output is silence or the bytes of the input at its position, and
the positions increase. -/
theorem output_in_place {actions : List (Action UInt8)}
    (hsends : Broadcasts psize fsize sessionId input sender) (hpos : 0 < psize)
    (hmax : psize ≤ AudioPacket.maxPsize) (hfit : psize ≤ fsize) (hword : input.length ≤ 2 ^ 63)
    (hid : sessionId < 2 ^ 64) (h2 : 2 * psize ≤ bsize)
    (hnew : CircularBuffer.new bsize = some buffer)
    (hnetwork : ∀ action ∈ actions, DeliversSome (datagrams sender) action)
    (horder : Guarded step Orderly (init buffer) actions) :
    ∃ s, run (init buffer) actions = .ok s ∧
      (chunks s.log).Pairwise (fun a b => a.1 < b.1) ∧
      ∀ p chunk, (p, chunk) ∈ chunks s.log → chunk = List.replicate psize 0 ∨
        (psize ∣ p ∧ p + psize ≤ input.length ∧ chunk = (input.drop p).take psize) := by
  have hdecode : ∀ datagram ∈ datagrams sender, ∀ packet, readPacket datagram = some packet →
      packet ∈ sender.sent := by
    intro datagram hmem packet hread
    obtain ⟨original, horiginal, rfl⟩ := List.mem_map.mp hmem
    obtain ⟨i, hi⟩ := List.mem_iff_getElem?.mp horiginal
    obtain ⟨-, -, hlen, -⟩ := hsends.getElem?_sent hpos hfit hword hid hi
    rw [readPacket_bytes (hlen ▸ hmax)] at hread
    exact Option.some.inj hread ▸ horiginal
  have hreceived : ∀ action ∈ actions, ∀ packet, action = .receive packet →
      packet ∈ sender.sent := by
    rintro action haction packet rfl
    obtain ⟨datagram, hmem, hread⟩ := hnetwork _ haction
    exact hdecode datagram hmem packet hread
  have hsession : ∀ action ∈ actions, OneSession psize sessionId 0 action := by
    intro action haction
    cases action with
    | receive packet =>
        obtain ⟨i, hi⟩ := List.mem_iff_getElem?.mp (hreceived _ haction packet rfl)
        obtain ⟨-, hsid, hlen, hfbn, -⟩ := hsends.getElem?_sent hpos hfit hword hid hi
        exact ⟨hsid, hlen, hfbn ▸ Nat.modEq_zero_iff_dvd.mpr (Nat.dvd_mul_left psize i)⟩
    | changeStation => exact hnetwork _ haction
    | put => trivial
    | popEvent => trivial
    | print => trivial
  have hgood : Guarded step (fun _ action => OneSession psize sessionId 0 action ∧
      ∀ packet, action = .receive packet → packet ∈ sender.sent) (init buffer) actions :=
    Guarded.of_forall fun action haction => ⟨hsession action haction, hreceived action haction⟩
  obtain ⟨s, hrun, hplay, hkeeps⟩ := ok_of_guarded
    (I := fun s => InPlay psize sessionId 0 buffer s ∧ KeepsOnly (· ∈ sender.sent) s)
    (fun s action hs hg => by
      obtain ⟨s', hstep, hs'⟩ := inPlay_step hpos h2 hnew hs.1 hg.2.1 hg.1
      exact ⟨s', hstep, hs', keepsOnly_step hs.2 hg.2.2 hstep⟩)
    ⟨.inl rfl, ⟨by simp [init], by simp [init]⟩⟩ (horder.and hgood)
  have hinorder : PlaysInOrder psize s.log := by
    rcases hplay with rfl | ⟨w, hw⟩
    · exact justified_nil
    · exact hw.inOrder
  obtain ⟨hpair, hcontent⟩ := chunks_of_playsInOrder hinorder
  refine ⟨s, hrun, hpair, fun p chunk hmem => (hcontent p chunk hmem).imp_right ?_⟩
  rintro ⟨packet, hkept, hfbn, hdata⟩
  obtain ⟨i, hi⟩ := List.mem_iff_getElem?.mp (hkeeps.kept packet hkept)
  obtain ⟨hend, -, -, hnumber, hpayload⟩ := hsends.getElem?_sent hpos hfit hword hid hi
  obtain rfl : p = i * psize := hfbn.symm.trans hnumber
  refine ⟨Nat.dvd_mul_left psize i, ?_, hdata.symm.trans hpayload⟩
  rw [← Nat.succ_mul]
  exact hend

end Lossy

section Example

/-- The sender reads four bytes, one at a time. -/
def fourReads : List (List UInt8) := [[10], [11], [12], [13]]

theorem exists_broadcast : ∃ sender, Broadcasts 1 4 7 fourReads.flatten sender ∧
    datagrams sender = fourPackets.map AudioPacket.bytes ∧ sender.sent.length = 4 := by
  have hrun : ∃ s₀, AudioSender.init 1 4 7 = some s₀ ∧
      Guarded AudioSender.readChunk AudioSender.ReadReturns s₀ fourReads ∧
      ∃ sender, fourReads.foldlM AudioSender.readChunk s₀ = .ok sender ∧
        datagrams sender = fourPackets.map AudioPacket.bytes :=
    ⟨_, rfl, by decide, exists_ok_and (by decide) fun sender hrun =>
      eq_of_toOption_map datagrams (by decide) hrun⟩
  obtain ⟨s₀, hinit, hread, sender, hrun, hdatagrams⟩ := hrun
  refine ⟨sender, ⟨s₀, fourReads, hinit, hread, rfl, hrun⟩, hdatagrams, ?_⟩
  simpa [datagrams, fourPackets] using congrArg List.length hdatagrams

/-- A receiver that is there from the start. -/
theorem output_is_input_four :
    ∃ sender buffer, Broadcasts 1 4 7 fourReads.flatten sender ∧
      CircularBuffer.new 3 = some buffer ∧ ∃ s, run (init buffer) promptRun = .ok s ∧
        output s.log <+: fourReads.flatten.drop (0 * 1) ∧
        (s.inHand = none → (output s.log).length + s.pendingJobs * 1 =
          ((handledSince s.log).length + 1 - startup 3 1) * 1) := by
  obtain ⟨sender, hsends, hdatagrams, hlength⟩ := exists_broadcast
  refine ⟨sender, _, hsends, rfl, output_is_input hsends (by decide) (by decide) (by decide)
    (by decide) (by decide) (by decide) (hlength ▸ by decide) rfl (by decide) ?_ (by decide)⟩
  rw [hdatagrams]
  decide

/-- Packet 0 arrives twice and packet 1 late. -/
def reorderedRun : List (Action UInt8) :=
  arrivalOf 0 ++ arrivalOf 0 ++ arrivalOf 2 ++ arrivalOf 1 ++ arrivalOf 3 ++ [.popEvent, .print]

theorem output_in_place_reordered :
    ∃ sender buffer, Broadcasts 1 4 7 fourReads.flatten sender ∧
      CircularBuffer.new 4 = some buffer ∧ ∃ s, run (init buffer) reorderedRun = .ok s ∧
        (chunks s.log).Pairwise (fun a b => a.1 < b.1) ∧
        ∀ p chunk, (p, chunk) ∈ chunks s.log → chunk = List.replicate 1 0 ∨
          (1 ∣ p ∧ p + 1 ≤ fourReads.flatten.length ∧
            chunk = (fourReads.flatten.drop p).take 1) := by
  obtain ⟨sender, hsends, hdatagrams, -⟩ := exists_broadcast
  have h2 : 2 * 1 ≤ 4 := by decide
  refine ⟨sender, _, hsends, rfl, output_in_place hsends (by decide) (by decide) (by decide)
    (by decide) (by decide) h2 rfl ?_ (by decide)⟩
  rw [hdatagrams]
  decide

end Example

end SikRadio.Protocol
