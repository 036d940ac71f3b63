import SikRadio.Foundations.ResetMatcher
import SikRadio.Receiver.ClientTable

/-!
# The arrow keys

`handle_client_input` reads one byte at a time and starts over on a byte that
does not go on with the command. It does not try that byte as the start of the
next command, so a key is missed when its ESC breaks off a command: the ESC is
taken for the byte that ends the broken one.

## Implementation notes

A client is followed from a state in which nothing of a command is read, as
after its registration, for as long as its slot stays connected. Any steps of
the UiMenu and of the other workers may come between its bytes.
-/

namespace SikRadio.Receiver.UiMenu

open SikRadio.Common Foundations.CheckedRuns Foundations.ResetMatcher

/-- ESC [ A moves up and ESC [ B moves down. -/
def arrowKeys : Pattern Char Command where
  head := Stations.esc
  tail := ['[']
  finish := fun c => if c = 'A' then some .up else if c = 'B' then some .down else none
  head_notMem := by decide
  finish_head := by decide

/-- The commands applied for a client. -/
def appliedFor (s : UiMenu) (id : ClientId) : List Command :=
  (s.applied.filter fun entry => entry.1 = id).map Prod.snd

/-- The byte that `handle_client_input` reads from the client `id`, when it is called for `j`. -/
def inputFrom (s : UiMenu) (id j : ClientId) : Input → Option Char
  | .byte c => if j = id ∧ (s.client j).socket ≠ -1 then some c else none
  | _ => none

/-- The byte that the UiMenu reads from the client in a step. -/
def readFrom (s : UiMenu) (id : ClientId) : Action → Option Char
  | .handle (.client j input _ _) =>
      if s.returned = false ∧ (minClientId ≤ j ∧ j < totalPollfds) ∧ (s.pollFds j).fd ≠ -1 ∧
          (s.pollFds j).revents.pollerr = false ∧ (s.pollFds j).revents.pollin = true then
        s.inputFrom id j input
      else none
  | _ => none

/-- The bytes that a run reads from the client. -/
def heard (getaddrinfo : List Char → Option Nat) (prioStationName : Option (List Char))
    (id : ClientId) : UiMenu → List Action → List Char
  | _, [] => []
  | s, a :: actions =>
      match step getaddrinfo prioStationName s a with
      | .ok s' => (s.readFrom id a).toList ++ heard getaddrinfo prioStationName id s' actions
      | .error _ => []

/-- Exactly the keys in the bytes are applied, and no buffer holds more than two bytes. -/
structure Recognised (id : ClientId) (s : UiMenu) (bytes : List Char) (s' : UiMenu) : Prop where
  commands : s'.appliedFor id = s.appliedFor id ++ arrowKeys.occurring bytes
  nread_le : ∀ j, (s'.client j).nread ≤ 2

variable {s s' s'' : UiMenu} {id : ClientId} {bytes : List Char}

/-- The client's buffer and commands follow the matcher as long as the slot is connected. -/
structure Follows (id : ClientId) (s : UiMenu) (bytes : List Char) (s' : UiMenu) : Prop where
  connected : (s'.pollFds id).fd ≠ -1 → (s.pollFds id).fd ≠ -1
  nread : (s'.pollFds id).fd ≠ -1 →
    (s'.client id).nread = bytes.foldl arrowKeys.next (s.client id).nread
  applied : s'.appliedFor id = s.appliedFor id ++ arrowKeys.emitted (s.client id).nread bytes

/-! ## Steps that read nothing from the client -/

theorem Follows.trans {bytes' : List Char} (h : Follows id s bytes s')
    (h' : Follows id s' bytes' s'') (hconnected : bytes' ≠ [] → (s'.pollFds id).fd ≠ -1) :
    Follows id s (bytes ++ bytes') s'' := by
  refine ⟨fun hfd => h.connected (h'.connected hfd), fun hfd => ?_, ?_⟩
  · rw [h'.nread hfd, h.nread (h'.connected hfd), List.foldl_append]
  · rw [h'.applied, h.applied, Pattern.emitted_append, List.append_assoc]
    by_cases hnil : bytes' = []
    · simp [hnil, Pattern.emitted]
    · rw [h.nread (hconnected hnil)]

/-- Steps that read nothing can follow. -/
theorem Follows.kept (h : Follows id s bytes s') (h' : Follows id s' [] s'') :
    Follows id s bytes s'' := by
  have hboth := h.trans h' fun hne => absurd rfl hne
  rwa [List.append_nil] at hboth

theorem Follows.of_eq (hfd : (s'.pollFds id).fd = (s.pollFds id).fd)
    (hclient : s'.client id = s.client id) (happlied : s'.appliedFor id = s.appliedFor id) :
    Follows id s [] s' := by
  refine ⟨fun hconnected => hfd ▸ hconnected, fun _ => ?_, ?_⟩
  · rw [hclient]
    rfl
  · rw [happlied, Pattern.emitted, List.append_nil]

/-- The slot has become free. -/
theorem Follows.of_free (hfd : (s'.pollFds id).fd = -1)
    (happlied : s'.appliedFor id = s.appliedFor id) : Follows id s [] s' := by
  refine ⟨fun hconnected => absurd hfd hconnected, fun hconnected => absurd hfd hconnected, ?_⟩
  rw [happlied, Pattern.emitted, List.append_nil]

theorem Follows.refl (s : UiMenu) : Follows id s [] s := .of_eq rfl rfl rfl

theorem client_setClient_of_ne {j : ClientId} (hj : id ≠ j) (client : TcpClient) :
    (s.setClient j client).client id = s.client id := by
  simp [UiMenu.client, setClient, hj]

theorem client_access (s : UiMenu) (j id : ClientId) : (s.access j).client id = s.client id := by
  by_cases hj : id = j
  · rw [hj, access, client_setClient]
  · exact client_setClient_of_ne hj _

theorem follows_disconnectClient (s : UiMenu) (j : ClientId) :
    Follows id s [] (s.disconnectClient j) := by
  by_cases hj : id = j
  · exact .of_free (by simp [disconnectClient, hj]) rfl
  · refine .of_eq ?_ ?_ rfl
    · simp [disconnectClient, hj]
    · simp [UiMenu.client, disconnectClient, hj]

theorem follows_sendMsg (s : UiMenu) (j : ClientId) (msg : List Char) (accepted : Bool) :
    Follows id s [] (s.sendMsg j msg accepted) := by
  unfold sendMsg
  split
  · exact .of_eq rfl (client_access s j id) rfl
  · have haccess : Follows id s [] (s.access j) := .of_eq rfl (client_access s j id) rfl
    exact haccess.kept (follows_disconnectClient _ j)

theorem follows_sendToAll (s : UiMenu) (msg : List Char) (accepted : ClientId → Bool) :
    Follows id s [] (s.sendToAll msg accepted) := by
  unfold sendToAll
  generalize List.range' minClientId (maxClients - minClientId) = ids
  induction ids generalizing s with
  | nil => exact .refl s
  | cons j ids ih =>
      have hsent : Follows id s [] (s.sendTo j msg accepted) := by
        unfold sendTo
        split
        · exact follows_sendMsg s j msg (accepted j)
        · exact .refl s
      rw [List.foldl_cons]
      exact hsent.kept (ih _)

theorem follows_clearRevents (s : UiMenu) (j : ClientId) :
    Follows id s [] (s.clearRevents j) :=
  .of_eq (fd_clearRevents s j id) rfl rfl

theorem follows_handleEvent (s : UiMenu) (accepted : ClientId → Bool) :
    Follows id s [] (s.handleEvent accepted) := by
  have hcleared : Follows id s [] (s.clearRevents myEvent) := follows_clearRevents s myEvent
  unfold handleEvent
  split
  case isTrue =>
    extract_lets cleared
    split
    case h_1 => exact hcleared
    case h_2 =>
      extract_lets popped
      have hpopped : Follows id s [] popped := hcleared.kept (.of_eq rfl rfl rfl)
      split
      case h_1 => exact hpopped.kept (.of_eq rfl rfl rfl)
      case h_5 => exact hpopped
      all_goals exact hpopped.kept (follows_sendToAll popped _ accepted)
  case isFalse => exact .refl s

/-- A new client gets another slot. -/
theorem follows_acceptNewClient (hfd : (s.pollFds id).fd ≠ -1) (clientFd : Int)
    (configured greeted : Bool) :
    Follows id s [] (s.acceptNewClient clientFd configured greeted) := by
  unfold acceptNewClient
  split
  case isTrue => exact .refl s
  case isFalse =>
    split
    case h_1 => exact .refl s
    case h_2 registered j hregister =>
      have hregistered : Follows id s [] registered := by
        unfold registerClient at hregister
        split at hregister
        case h_1 i hfind =>
          obtain ⟨rfl, -⟩ := Prod.mk.inj (Option.some.inj hregister)
          have hne : id ≠ i := by
            rintro rfl
            exact hfd (by simpa using List.find?_some hfind)
          have hset : Follows id s [] (s.setPollFd i ⟨clientFd, .none⟩) :=
            .of_eq (by simp [setPollFd, hne]) rfl rfl
          apply hset.kept
          unfold emplace
          split
          · exact .of_eq rfl (client_setClient_of_ne hne _) rfl
          · exact .refl _
        case h_2 => cases hregister
      have haccess : Follows id s [] (registered.access j) :=
        hregistered.kept (.of_eq rfl (client_access registered j id) rfl)
      split
      · have hwrote : Follows id s [] (registered.wrote j config) :=
          hregistered.kept (.of_eq rfl (client_access registered j id) rfl)
        exact hwrote.kept (follows_sendMsg ..)
      · exact haccess.kept (follows_disconnectClient _ j)

/-! ## The bytes of the client -/

/-- The matcher goes on with the byte when the UiMenu does. -/
theorem next_eq {n : Nat} (hn : n ≤ 2) (c : Char) :
    arrowKeys.next n c =
      if continues c (n + 1) = true ∧ completes c (n + 1) = false then n + 1 else 0 := by
  have hesc : Stations.esc ≠ '[' := by decide
  interval_cases n
  · by_cases hc : c = Stations.esc
    · simp [Pattern.next, Pattern.start, arrowKeys, continues, completes, hc]
    · simp [Pattern.next, Pattern.start, arrowKeys, continues, hc, Ne.symm hc]
  · by_cases hc : c = '['
    · subst hc
      decide
    · simp [Pattern.next, Pattern.start, arrowKeys, continues, hc, Ne.symm hc]
  · by_cases hc : c = 'A' ∨ c = 'B'
    · rcases hc with rfl | rfl
      · decide
      · decide
    · rw [not_or] at hc
      simp [Pattern.next, Pattern.start, arrowKeys, continues, hc]

theorem completes_eq_false {c : Char} {n : Nat} (h : continues c n = false) :
    completes c n = false := by
  rw [Bool.eq_false_iff] at h ⊢
  intro hdone
  simp only [completes, Bool.and_eq_true, Bool.or_eq_true, beq_iff_eq] at hdone
  obtain ⟨rfl | rfl, rfl⟩ := hdone
  · exact h (by decide)
  · exact h (by decide)

/-- The matcher yields a command when the UiMenu completes it. -/
theorem output_eq {n : Nat} (hn : n ≤ 2) (c : Char) :
    arrowKeys.output n c =
      if completes c (n + 1) = true then commandMap (commandStart ++ [c]) else none := by
  by_cases hlast : n = 2
  · subst hlast
    by_cases hc : c = 'A' ∨ c = 'B'
    · rcases hc with rfl | rfl
      · decide
      · decide
    · rw [not_or] at hc
      simp [Pattern.output, Pattern.start, arrowKeys, completes, hc]
  · have hshort : n ≠ arrowKeys.start.length := hlast
    rw [Pattern.output, if_neg hshort]
    simp [completes, hlast]

/-- The command of a complete buffer is applied and the buffer is empty again. -/
theorem exists_applyCmd {c : Char} (hvalid : s.stations.CurrentValid) (hc : c = 'A' ∨ c = 'B')
    (hbuf : (s.client id).cmdBuf = [Stations.esc, '[', c, Char.ofNat 0])
    (accepted : ClientId → Bool) :
    ∃ s' command, s.applyCmd id accepted = .ok s' ∧
      commandMap (commandStart ++ [c]) = some command ∧
      s'.appliedFor id = s.appliedFor id ++ [command] ∧ (s'.client id).nread = 0 ∧
      ((s'.pollFds id).fd ≠ -1 → (s.pollFds id).fd ≠ -1) := by
  obtain ⟨command, hcommand, happly⟩ := exists_applyCmd_eq hc hbuf accepted
  have hlogged : (s.logged id command).stations.CurrentValid := hvalid
  obtain ⟨stations, -, hmove⟩ := exists_cmdMove hlogged command accepted
  have hsent : Follows id { s.logged id command with stations } []
      (UiMenu.sendToAll { s.logged id command with stations } stations.menuToStr accepted) :=
    follows_sendToAll ..
  generalize UiMenu.sendToAll { s.logged id command with stations } stations.menuToStr accepted =
    sent at hmove hsent
  refine ⟨sent.resetClientInput id, command, ?_, hcommand, ?_, ?_, hsent.connected⟩
  · rw [happly, hmove]
    rfl
  · have happlied := hsent.applied
    rw [Pattern.emitted, List.append_nil] at happlied
    refine Eq.trans happlied ?_
    simp [appliedFor, logged]
  · rw [resetClientInput, client_setClient]
    rfl

theorem exists_handleClientInput_byte (h : Sound s) (c : Char) (accepted : ClientId → Bool)
    (hsocket : (s.client id).socket ≠ -1) :
    ∃ s', s.handleClientInput id (.byte c) accepted = .ok s' ∧ Follows id s [c] s' := by
  have hready := h.ready_client id
  have hnext := next_eq hready.nread_le c
  have houtput := output_eq hready.nread_le c
  have hread : s.handleClientInput id (.byte c) accepted =
      (s.setClient id ((s.client id).push c)).handleByte id c accepted := by
    unfold handleClientInput
    simp only [if_neg hsocket, check, if_pos hready.room, access, setClient_setClient, bind,
      Except.bind]
  have hpush : ((s.client id).push c).nread = (s.client id).nread + 1 := rfl
  rw [hread]
  unfold handleByte
  rw [client_setClient, hpush]
  rcases hready.next c with hno | ⟨hyes, hpart, -⟩ | ⟨hyes, hdone, -, hc, hbuf⟩
  · rw [if_pos hno, resetClientInput, client_setClient, setClient_setClient]
    refine ⟨_, rfl, fun hfd => hfd, fun _ => ?_, ?_⟩
    · simp [hnext, hno, TcpClient.reset]
    · have hnot := completes_eq_false hno
      simp [Pattern.emitted, houtput, hnot, appliedFor, setClient]
  · rw [hyes, hpart]
    refine ⟨_, rfl, fun hfd => hfd, fun _ => ?_, ?_⟩
    · simp [hnext, hyes, hpart, hpush]
    · simp [Pattern.emitted, houtput, hpart, appliedFor, setClient]
  · rw [hyes, hdone]
    have hbuf' : ((s.setClient id ((s.client id).push c)).client id).cmdBuf =
        [Stations.esc, '[', c, Char.ofNat 0] := by rw [client_setClient, hbuf]
    have hvalid : (s.setClient id ((s.client id).push c)).stations.CurrentValid := h.valid
    obtain ⟨s', command, happly, hcommand, happlied, hnread, hconnected⟩ :=
      exists_applyCmd hvalid hc hbuf' accepted
    refine ⟨s', happly, hconnected, fun _ => ?_, ?_⟩
    · simp [hnext, hdone, hnread]
    · rw [happlied]
      simp [Pattern.emitted, houtput, hdone, hcommand, appliedFor, setClient]

/-! ## Turns and runs -/

/-- Handling the input of another client. -/
theorem InputEffect.follows {j : ClientId} (hj : id ≠ j) {input : Input}
    {accepted : ClientId → Bool} (he : InputEffect s j input accepted s') :
    Follows id s [] s' := by
  cases he with
  | dropped => exact follows_disconnectClient s j
  | kept client => exact .of_eq rfl (client_setClient_of_ne hj client) rfl
  | applied client command stations =>
      have hlogged : Follows id s [] { (s.setClient j client).logged j command with stations } := by
        refine .of_eq rfl (client_setClient_of_ne hj client) ?_
        simp [appliedFor, logged, setClient, Ne.symm hj]
      apply (hlogged.kept (follows_sendToAll _ stations.menuToStr accepted)).kept
      exact .of_eq rfl (client_setClient_of_ne hj _) rfl

theorem follows_handleClientInput (h : Sound s) {j : ClientId} {input : Input}
    {accepted : ClientId → Bool} (hs : s.handleClientInput j input accepted = .ok s') :
    Follows id s (s.inputFrom id j input).toList s' := by
  by_cases hj : j = id
  · subst hj
    have hdropped : Follows j s [] ((s.access j).disconnectClient j) := by
      rw [access, disconnectClient_setClient]
      exact follows_disconnectClient s j
    by_cases hsocket : (s.client j).socket = -1
    · unfold handleClientInput at hs
      rw [if_pos hsocket] at hs
      obtain rfl := Except.ok.inj hs
      cases input <;> simpa [inputFrom, hsocket] using hdropped
    · cases input with
      | failed =>
          unfold handleClientInput at hs
          rw [if_neg hsocket] at hs
          obtain rfl := Except.ok.inj hs
          exact hdropped
      | eof =>
          unfold handleClientInput at hs
          rw [if_neg hsocket] at hs
          obtain rfl := Except.ok.inj hs
          exact hdropped
      | byte c =>
          obtain ⟨s'', hs'', hfollows⟩ := exists_handleClientInput_byte h c accepted hsocket
          obtain rfl := Except.ok.inj (hs.symm.trans hs'')
          simpa [inputFrom, hsocket] using hfollows
  · obtain ⟨s'', hs'', heffect⟩ := exists_handleClientInput h j input accepted
    obtain rfl := Except.ok.inj (hs.symm.trans hs'')
    have hnone : s.inputFrom id j input = none := by
      cases input <;> simp [inputFrom, hj]
    rw [hnone]
    exact heffect.follows (Ne.symm hj)

theorem follows_finished (s : UiMenu) (j : ClientId) (sent : Bool) :
    Follows id s [] (s.finished j sent) := by
  unfold finished
  split
  · exact (follows_sendMsg s j s.menuToStr sent).kept (follows_clearRevents _ j)
  · exact follows_clearRevents s j

theorem follows_handleClient (h : Sound s) (hreturned : s.returned = false) {j : ClientId}
    (hj : minClientId ≤ j ∧ j < totalPollfds) {input : Input} {accepted : ClientId → Bool}
    {sent : Bool} (hs : s.handleClient j input accepted sent = .ok s') :
    Follows id s (s.readFrom id (.handle (.client j input accepted sent))).toList s' := by
  unfold handleClient at hs
  unfold readFrom
  by_cases hfree : (s.pollFds j).fd = -1
  · rw [if_pos hfree] at hs
    obtain rfl := Except.ok.inj hs
    simpa [hfree] using Follows.refl s
  · rw [if_neg hfree] at hs
    cases herror : (s.pollFds j).revents.pollerr with
    | true =>
        simp only [herror, if_true] at hs
        obtain rfl := Except.ok.inj hs
        simpa [herror] using follows_disconnectClient s j
    | false =>
        simp only [herror, Bool.false_eq_true, if_false] at hs
        cases hin : (s.pollFds j).revents.pollin with
        | false =>
            simp only [hin, Bool.false_eq_true, if_false] at hs
            obtain rfl := Except.ok.inj hs
            show Follows id s _ (s.finished j sent)
            simpa [hin] using follows_finished s j sent
        | true =>
            simp only [hin, if_true] at hs
            obtain ⟨read, hread, hs⟩ := bind_eq_ok_iff.mp hs
            obtain rfl := Except.ok.inj hs
            have hinput : Follows id s (s.inputFrom id j input).toList read :=
              follows_handleClientInput h hread
            have hfollows := hinput.kept (follows_finished read j sent)
            show Follows id s _ (read.finished j sent)
            simpa [hreturned, hj, hfree, herror, hin] using hfollows

/-- A step of another worker changes nothing but the stations. -/
theorem exists_stations_of_other {getaddrinfo : List Char → Option Nat}
    {prioStationName : Option (List Char)} {action : Stations.Action}
    (hs : step getaddrinfo prioStationName s (.other action) = .ok s') :
    ∃ stations, s' = { s with stations } := by
  cases action with
  | cmdMoveUp => exact ⟨s.stations, (Except.ok.inj hs).symm⟩
  | cmdMoveDown => exact ⟨s.stations, (Except.ok.inj hs).symm⟩
  | _ =>
      obtain ⟨stations, -, hs⟩ := bind_eq_ok_iff.mp hs
      exact ⟨stations, (Except.ok.inj hs).symm⟩

theorem follows_handleServer (hconnected : (s.pollFds id).fd ≠ -1) (clientFd : Int)
    (configured greeted : Bool) : Follows id s [] (s.handleServer clientFd configured greeted) := by
  unfold handleServer
  split
  · apply (follows_clearRevents s server).kept
    apply follows_acceptNewClient
    rwa [fd_clearRevents]
  · exact .refl s

theorem follows_poll (s : UiMenu) (ready : ClientId → Revents) :
    Follows id s [] (s.poll ready) := by
  refine .of_eq ?_ rfl rfl
  simp only [poll]
  split
  · rfl
  · split <;> rfl

/-- Every step follows the matcher by the byte that it reads from the client. -/
theorem follows_step (h : Sound s) (hconnected : (s.pollFds id).fd ≠ -1)
    {getaddrinfo : List Char → Option Nat} {prioStationName : Option (List Char)} {a : Action}
    (hs : step getaddrinfo prioStationName s a = .ok s') :
    Follows id s (s.readFrom id a).toList s' := by
  cases a with
  | other action =>
      obtain ⟨stations, rfl⟩ := exists_stations_of_other hs
      exact .of_eq rfl rfl rfl
  | handle event =>
      simp only [step] at hs
      by_cases hreturned : s.returned = true
      · rw [if_pos hreturned] at hs
        obtain rfl := Except.ok.inj hs
        have hnone : s.readFrom id (.handle event) = none := by
          cases event <;> simp [readFrom, hreturned]
        rw [hnone]
        exact .refl s
      · rw [if_neg hreturned] at hs
        cases event with
        | poll ready =>
            obtain rfl := Except.ok.inj hs
            exact follows_poll s ready
        | event accepted =>
            obtain rfl := Except.ok.inj hs
            exact follows_handleEvent s accepted
        | server clientFd configured greeted =>
            obtain rfl := Except.ok.inj hs
            exact follows_handleServer hconnected clientFd configured greeted
        | client j input accepted sent =>
            simp only [handle] at hs
            by_cases hj : minClientId ≤ j ∧ j < totalPollfds
            · rw [if_pos hj] at hs
              exact follows_handleClient h (Bool.eq_false_iff.mpr hreturned) hj hs
            · rw [if_neg hj] at hs
              obtain rfl := Except.ok.inj hs
              simpa [readFrom, hj] using Follows.refl s

variable {getaddrinfo : List Char → Option Nat} {prioStationName : Option (List Char)}

/-- So does every run in which the slot stays connected. -/
theorem follows_run (h : Sound s) {actions : List Action}
    (hconnected : Guarded (step getaddrinfo prioStationName)
      (fun s _ => (s.pollFds id).fd ≠ -1) s actions)
    (hrun : run getaddrinfo prioStationName s actions = .ok s') :
    Follows id s (heard getaddrinfo prioStationName id s actions) s' := by
  induction actions generalizing s with
  | nil =>
      obtain rfl := Except.ok.inj hrun
      exact .refl s
  | cons a actions ih =>
      rw [run, List.foldlM_cons] at hrun
      obtain ⟨s₁, hs, hrest⟩ := bind_eq_ok_iff.mp hrun
      have hfirst := follows_step h hconnected.1 hs
      have hend := ih (sound_step h hs) (hconnected.2 s₁ hs) hrest
      simp only [heard, hs]
      refine hfirst.trans hend fun hne => ?_
      cases actions with
      | nil => exact absurd rfl hne
      | cons => exact (hconnected.2 s₁ hs).1

/-- Whatever comes between the bytes of a client, exactly its arrow keys are applied when no ESC
of one breaks off a command, and only then. No buffer overflows and every command read is in the
command map: a run can only end in a step of another worker. -/
theorem arrow_keys_recognised_iff {eventFd serverFd : Int} {before after : List Action}
    (hreached : run getaddrinfo prioStationName (init eventFd serverFd) before = .ok s)
    (hnew : (s.client id).nread = 0)
    (hconnected : Guarded (step getaddrinfo prioStationName)
      (fun s _ => (s.pollFds id).fd ≠ -1) s after) :
    (∃ s', run getaddrinfo prioStationName s after = .ok s' ∧
        (Recognised id s (heard getaddrinfo prioStationName id s after) s' ↔
          arrowKeys.NoneBroken (heard getaddrinfo prioStationName id s after))) ∨
      (run getaddrinfo prioStationName s after = .error .fatal ∧
        ∃ a ∈ after, EndsProgram getaddrinfo a) := by
  have hsound : Sound s :=
    inv_of_run (fun _ _ _ h hs => sound_step h hs) (sound_init eventFd serverFd) hreached
  have hruns := ok_or_of_run (fun s a h => exists_step h getaddrinfo prioStationName a) after hsound
  apply hruns.imp_left
  rintro ⟨s', hrun, hsound'⟩
  refine ⟨s', hrun, ?_⟩
  have hfollows := follows_run hsound hconnected hrun
  have happlied := hfollows.applied
  rw [hnew] at happlied
  rw [← Pattern.emitted_eq_occurring_iff]
  constructor
  · intro h
    exact List.append_cancel_left (happlied.symm.trans h.commands)
  · intro heq
    exact ⟨heq ▸ happlied, fun j => (hsound'.ready_client j).nread_le⟩

section Example

/-- A client connects and gets slot 2. -/
def connect : List Action := telnetRound server 'x' true

/-- The client sends bytes. -/
def typed (bytes : List Char) : List Action := bytes.flatMap fun c => telnetRound 2 c true

/-- The bytes are read from a client that has just connected and stays connected. -/
def reads (s : UiMenu) (bytes : List Char) : Bool :=
  (s.client 2).nread = 0 ∧ s.appliedFor 2 = [] ∧
    Guarded (step (fun _ => none) none) (fun s _ => (s.pollFds 2).fd ≠ -1) s (typed bytes) ∧
    heard (fun _ => none) none 2 s (typed bytes) = bytes

theorem arrow_keys_recognised_iff_arrowUp :
    ∃ s, run (fun _ => none) none (init 3 4) connect = .ok s ∧
      ((∃ s', run (fun _ => none) none s (typed [Stations.esc, '[', 'A']) = .ok s' ∧
          (Recognised 2 s (heard (fun _ => none) none 2 s (typed [Stations.esc, '[', 'A'])) s' ↔
            arrowKeys.NoneBroken
              (heard (fun _ => none) none 2 s (typed [Stations.esc, '[', 'A'])))) ∨
        (run (fun _ => none) none s (typed [Stations.esc, '[', 'A']) = .error .fatal ∧
          ∃ a ∈ typed [Stations.esc, '[', 'A'], EndsProgram (fun _ => none) a)) := by
  refine exists_ok_and (by decide +kernel) fun s hrun => ?_
  have hreads : s.reads [Stations.esc, '[', 'A'] = true :=
    eq_of_toOption_map (fun s => s.reads [Stations.esc, '[', 'A']) (by decide +kernel) hrun
  obtain ⟨hnew, -, hconnected, -⟩ := of_decide_eq_true hreads
  exact arrow_keys_recognised_iff hrun hnew hconnected

/-- A client that presses the escape key and then an arrow key moves nothing. -/
theorem escape_swallows_arrow :
    ∃ s s', run (fun _ => none) none (init 3 4) connect = .ok s ∧
      Guarded (step (fun _ => none) none) (fun s _ => (s.pollFds 2).fd ≠ -1) s
        (typed [Stations.esc, Stations.esc, '[', 'A']) ∧
      run (fun _ => none) none s (typed [Stations.esc, Stations.esc, '[', 'A']) = .ok s' ∧
      heard (fun _ => none) none 2 s (typed [Stations.esc, Stations.esc, '[', 'A']) =
        [Stations.esc, Stations.esc, '[', 'A'] ∧
      ¬Recognised 2 s [Stations.esc, Stations.esc, '[', 'A'] s' := by
  obtain ⟨s, hrun⟩ := exists_ok_of_isOk
    (x := run (fun _ => none) none (init 3 4) connect) (by decide +kernel)
  have hreads : s.reads [Stations.esc, Stations.esc, '[', 'A'] = true :=
    eq_of_toOption_map (fun s => s.reads [Stations.esc, Stations.esc, '[', 'A'])
      (by decide +kernel) hrun
  obtain ⟨-, happlied, hconnected, hheard⟩ := of_decide_eq_true hreads
  have hend : (run (fun _ => none) none s
      (typed [Stations.esc, Stations.esc, '[', 'A'])).toOption.map (fun s => s.appliedFor 2) =
        some [] :=
    eq_of_toOption_map (fun s => (run (fun _ => none) none s
      (typed [Stations.esc, Stations.esc, '[', 'A'])).toOption.map (fun s => s.appliedFor 2))
      (by decide +kernel) hrun
  obtain ⟨s', hs', hnone⟩ := Option.map_eq_some_iff.mp hend
  refine ⟨s, s', hrun, hconnected, eq_ok_of_toOption hs', hheard, fun h => ?_⟩
  have hcommands := h.commands
  rw [happlied, hnone] at hcommands
  exact absurd hcommands (by decide)

end Example

end SikRadio.Receiver.UiMenu
