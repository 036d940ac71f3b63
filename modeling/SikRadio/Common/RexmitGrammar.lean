import SikRadio.Common.ControlDatagrams
import SikRadio.Foundations.SeparatedText

/-!
# The grammar of the controller's requests

What the control protocol allows as a request, and that the two constructors of
`datagram.cc` accept exactly that. The text that `RexmitRequest::to_str` writes
belongs to the grammar, so that it is read back.

## Implementation notes

The grammar is stated without reference to the parser. The parser looks at the
last character of the text before anything else, which is undefined for a text
that is empty without its newline; this is the only fault.
-/

namespace SikRadio.Common

open Foundations.SeparatedText

/-! ## Grammar -/

/-- The text is the line, with an optional final newline. -/
def IsLine (line text : List Char) : Prop := text = line ∨ text = line ++ ['\n']

def IsLookup (text : List Char) : Prop := IsLine lookupRequestPrefix text

/-- The token writes the number `x < 2 ^ 64` in decimal digits. -/
structure IsNumber (token : List Char) (x : Nat) : Prop where
  nonempty : token ≠ []
  digits : ∀ c ∈ token, c.isDigit = true
  value : Nat.ofDigitChars 10 token 0 = x
  lt : x < 2 ^ 64

/-- The prefix, one space and the tokens joined by commas. -/
def rexmitLine (tokens : List (List Char)) : List Char :=
  RexmitRequest.rexmitPrefix ++ fieldSeparator :: [packetSeparator].intercalate tokens

def IsRexmit (text : List Char) (packetIds : List Nat) : Prop :=
  ∃ tokens, List.Forall₂ IsNumber tokens packetIds ∧ IsLine (rexmitLine tokens) text

theorem IsNumber.not_mem {token : List Char} {x : Nat} (h : IsNumber token x) {c : Char}
    (hc : c.isDigit = false) : c ∉ token := by
  intro hmem
  rw [h.digits c hmem] at hc
  cases hc

theorem IsNumber.exists_getLast? {token : List Char} {x : Nat} (h : IsNumber token x) :
    ∃ c, token.getLast? = some c ∧ c.isDigit = true := by
  refine ⟨token.getLast h.nonempty, List.getLast?_eq_getLast_of_ne_nil h.nonempty, ?_⟩
  exact h.digits _ (List.getLast_mem h.nonempty)

/-- What `operator<<` prints is a number. -/
theorem isNumber_toDecimal {x : Nat} (h : x < 2 ^ 64) : IsNumber (toDecimal x) x where
  nonempty := Nat.toDigits_ne_nil
  digits := fun _ hc => Nat.isDigit_of_mem_toDigits (by decide) (by decide) hc
  value := Nat.ofDigitChars_ten_toDigits
  lt := h

theorem forall₂_isNumber_toDecimal {packetIds : List Nat} (h : ∀ id ∈ packetIds, id < 2 ^ 64) :
    List.Forall₂ IsNumber (packetIds.map toDecimal) packetIds := by
  induction packetIds with
  | nil => exact .nil
  | cons id packetIds ih =>
      refine .cons (isNumber_toDecimal (h id List.mem_cons_self)) (ih ?_)
      intro x hx
      exact h x (List.mem_cons_of_mem id hx)

theorem exists_isNumber_of_mem {tokens : List (List Char)} {packetIds : List Nat}
    (h : List.Forall₂ IsNumber tokens packetIds) {token : List Char} (hmem : token ∈ tokens) :
    ∃ x, IsNumber token x := by
  induction h with
  | nil => cases hmem
  | cons hnumber _ ih =>
      rcases List.mem_cons.mp hmem with rfl | hmem
      · exact ⟨_, hnumber⟩
      · exact ih hmem

/-! ## Lines -/

/-- A line that ends otherwise is what remains of the text without its newline. -/
theorem trimmed_eq_iff {line text : List Char} (h : line.getLast? ≠ some '\n') :
    trimmed text = line ↔ IsLine line text := by
  unfold trimmed IsLine
  constructor
  · intro htext
    split at htext
    case isTrue hlast =>
      right
      obtain ⟨front, rfl⟩ := List.getLast?_eq_some_iff.mp hlast
      rw [← htext, List.dropLast_concat]
    case isFalse => exact .inl htext
  · rintro (rfl | rfl)
    · rw [if_neg h]
    · rw [if_pos (by simp), List.dropLast_concat]

/-- The text without its newline, with or without the newline. -/
theorem isLine_trimmed (text : List Char) : IsLine (trimmed text) text := by
  unfold trimmed IsLine
  split
  case isTrue hlast =>
    obtain ⟨front, rfl⟩ := List.getLast?_eq_some_iff.mp hlast
    exact .inr (by rw [List.dropLast_concat])
  case isFalse => exact .inl rfl

theorem isLookupRequest_iff {text : List Char} : isLookupRequest text = true ↔ IsLookup text := by
  rw [isLookupRequest, beq_iff_eq]
  exact trimmed_eq_iff (by decide)

/-! ## Tokens -/

theorem parseToken_eq_some_iff {token : List Char} {x : Nat} :
    RexmitRequest.parseToken token = some x ↔ IsNumber token x := by
  have hvalue : token.foldl (fun acc c => 10 * acc + (c.toNat - '0'.toNat)) 0 =
      Nat.ofDigitChars 10 token 0 := rfl
  simp only [RexmitRequest.parseToken, isNumeric, stoull, hvalue]
  constructor
  · intro h
    split at h
    case isTrue hdigits =>
      split at h
      case isTrue => cases h
      case isFalse hguard =>
        obtain ⟨hne, hlt⟩ := not_or.mp hguard
        have hx := Option.some.inj h
        exact ⟨hne, List.all_eq_true.mp hdigits, hx, hx ▸ not_le.mp hlt⟩
    case isFalse => cases h
  · intro h
    have hguard : ¬(token = [] ∨ 2 ^ 64 ≤ Nat.ofDigitChars 10 token 0) := by
      rw [h.value]
      exact not_or.mpr ⟨h.nonempty, not_le.mpr h.lt⟩
    rw [if_pos (List.all_eq_true.mpr h.digits), if_neg hguard, h.value]

/-- `std::getline` splits at every separator unless the text ends with one. -/
theorem getlines_eq_splitOn {separator : Char} {text : List Char} (hne : text ≠ [])
    (hlast : text.getLast? ≠ some separator) :
    getlines separator text = text.splitOn separator := by
  induction text with
  | nil => exact absurd rfl hne
  | cons c text ih =>
      rw [List.splitOn_cons_eq_if_modifyHead, getlines]
      cases text with
      | nil =>
          have hc : c ≠ separator := fun heq => hlast (by rw [heq]; rfl)
          simp [getlines, hc]
      | cons next text =>
          have hrest := ih (List.cons_ne_nil _ _) (by simpa using hlast)
          rw [hrest]
          have hsplit := List.splitOn_ne_nil separator (next :: text)
          generalize (next :: text).splitOn separator = tokens at hsplit
          cases tokens with
          | nil => exact absurd rfl hsplit
          | cons token tokens => simp

/-- Joined numbers end with a digit. -/
theorem exists_getLast?_numbers {tokens : List (List Char)} {packetIds : List Nat}
    (hne : tokens ≠ []) (h : List.Forall₂ IsNumber tokens packetIds) :
    ∃ c, ([packetSeparator].intercalate tokens).getLast? = some c ∧ c.isDigit = true := by
  apply exists_getLast?_intercalate packetSeparator hne
  intro token htoken
  obtain ⟨_, hnumber⟩ := exists_isNumber_of_mem h htoken
  exact hnumber.exists_getLast?

/-- The tokens of joined numbers are the numbers. -/
theorem getlines_intercalate {tokens : List (List Char)} {packetIds : List Nat}
    (h : List.Forall₂ IsNumber tokens packetIds) :
    getlines packetSeparator ([packetSeparator].intercalate tokens) = tokens := by
  cases tokens with
  | nil => rfl
  | cons token tokens =>
      obtain ⟨c, hc, hdigit⟩ := exists_getLast?_numbers (List.cons_ne_nil token tokens) h
      rw [getlines_eq_splitOn, List.splitOn_intercalate packetSeparator _ (List.cons_ne_nil _ _)]
      · intro t ht
        obtain ⟨_, hnumber⟩ := exists_isNumber_of_mem h ht
        exact hnumber.not_mem (by decide)
      · rintro heq
        rw [heq] at hc
        cases hc
      · rw [hc]
        rintro heq
        rw [Option.some.inj heq] at hdigit
        revert hdigit
        decide

/-! ## Requests -/

/-- A request ends with a digit, or with the space when it asks for nothing. -/
theorem exists_getLast?_rexmitLine {tokens : List (List Char)} {packetIds : List Nat}
    (h : List.Forall₂ IsNumber tokens packetIds) :
    ∃ c, (rexmitLine tokens).getLast? = some c ∧ (c.isDigit = true ∨ c = fieldSeparator) := by
  cases tokens with
  | nil => exact ⟨fieldSeparator, by decide, .inr rfl⟩
  | cons token tokens =>
      obtain ⟨c, hc, hdigit⟩ := exists_getLast?_numbers (List.cons_ne_nil token tokens) h
      refine ⟨c, ?_, .inl hdigit⟩
      rw [rexmitLine, List.getLast?_append, List.getLast?_cons, hc]
      rfl

theorem not_mem_rexmitPrefix : fieldSeparator ∉ RexmitRequest.rexmitPrefix := by decide

theorem drop_rexmitLine (tokens : List (List Char)) :
    (rexmitLine tokens).drop (RexmitRequest.rexmitPrefix.length + 1) =
      [packetSeparator].intercalate tokens := by
  rw [rexmitLine, List.drop_length_add_append]
  rfl

theorem trimmed_rexmitLine {text : List Char} {tokens : List (List Char)} {packetIds : List Nat}
    (h : List.Forall₂ IsNumber tokens packetIds) (hline : IsLine (rexmitLine tokens) text) :
    trimmed text = rexmitLine tokens := by
  obtain ⟨c, hc, hkind⟩ := exists_getLast?_rexmitLine h
  refine (trimmed_eq_iff ?_).mpr hline
  rw [hc]
  rintro heq
  rw [Option.some.inj heq] at hkind
  revert hkind
  decide

namespace RexmitRequest

variable {receiverAddr : SockAddr} {text : List Char}

/-- The only fault is the look at the last character of an empty text. -/
theorem ofString_eq_error_iff {fault : Fault} :
    ofString receiverAddr text = .error fault ↔ trimmed text = [] ∧ fault = .outOfBounds := by
  unfold ofString
  dsimp only
  cases hlast : (trimmed text).getLast? with
  | none =>
      rw [List.getLast?_eq_none_iff] at hlast
      simp [hlast, eq_comm]
  | some last =>
      have hne : trimmed text ≠ [] := by
        rintro hnil
        rw [hnil] at hlast
        cases hlast
      dsimp only
      split_ifs <;> simp [hne]

/-- Requests of the grammar are accepted with their numbers. -/
theorem ofString_of_isRexmit {packetIds : List Nat} (h : IsRexmit text packetIds) :
    ofString receiverAddr text = .ok (some { receiverAddr, packetIds }) := by
  obtain ⟨tokens, hnumbers, hline⟩ := h
  obtain ⟨last, hlast, hkind⟩ := exists_getLast?_rexmitLine hnumbers
  have hguard : (!last.isDigit && last != fieldSeparator) = false := by
    rcases hkind with hdigit | rfl
    · simp [hdigit]
    · decide
  have hfind := findIdx?_append_cons not_mem_rexmitPrefix ([packetSeparator].intercalate tokens)
  have htake : (rexmitLine tokens).take rexmitPrefix.length = rexmitPrefix := List.take_left
  have hparse : tokens.mapM parseToken = some packetIds :=
    mapM_eq_some_iff.mpr (hnumbers.imp fun _ _ hnumber => parseToken_eq_some_iff.mpr hnumber)
  unfold ofString
  simp only [trimmed_rexmitLine hnumbers hline, hlast, hguard, htake, drop_rexmitLine,
    getlines_intercalate hnumbers, hparse]
  rw [← rexmitLine] at hfind
  simp [hfind]

/-- What the checks of the constructor say about a text that passes them all. -/
theorem exists_of_ofString {req : RexmitRequest}
    (h : ofString receiverAddr text = .ok (some req)) :
    ∃ body last, trimmed text = rexmitPrefix ++ fieldSeparator :: body ∧
      (trimmed text).getLast? = some last ∧ (last.isDigit = true ∨ last = fieldSeparator) ∧
      (getlines packetSeparator body).mapM parseToken = some req.packetIds := by
  unfold ofString at h
  extract_lets input tokens at h
  cases hlast : input.getLast? with
  | none =>
      rw [hlast] at h
      cases h
  | some last =>
      simp only [hlast] at h
      split at h
      case isTrue => cases h
      case isFalse hkind =>
        split at h
        case isTrue => cases h
        case isFalse hfind =>
          split at h
          case isTrue => cases h
          case isFalse htake =>
            obtain ⟨packetIds, hparse, rfl⟩ := Option.map_eq_some_iff.mp (Except.ok.inj h)
            have hinput := eq_of_findIdx?_eq_some (not_not.mp hfind)
            rw [not_not.mp htake] at hinput
            refine ⟨_, last, hinput, rfl, ?_, hparse⟩
            by_contra hother
            exact hkind (by simpa [not_or] using hother)

/-- Every accepted text is a request of the grammar with these numbers. -/
theorem isRexmit_of_ofString {req : RexmitRequest}
    (h : ofString receiverAddr text = .ok (some req)) : IsRexmit text req.packetIds := by
  obtain ⟨body, last, hinput, hlast, hkind, hparse⟩ := exists_of_ofString h
  have hjoin : [packetSeparator].intercalate (getlines packetSeparator body) = body := by
    by_cases hempty : body = []
    · rw [hempty]
      rfl
    · rw [getlines_eq_splitOn hempty, List.intercalate_splitOn]
      -- the last character of the text has been checked to be a digit or a space
      rintro hcomma
      rw [hinput, List.getLast?_append, List.getLast?_cons, hcomma] at hlast
      obtain rfl : packetSeparator = last := Option.some.inj hlast
      revert hkind
      decide
  refine ⟨getlines packetSeparator body, ?_, ?_⟩
  · apply (mapM_eq_some_iff.mp hparse).imp
    intro token x
    exact parseToken_eq_some_iff.mp
  · rw [rexmitLine, hjoin, ← hinput]
    exact isLine_trimmed text

/-- What `to_str` writes is read back, whatever the numbers and however many. -/
theorem ofString_toStr (senderAddr receiverAddr : SockAddr) (packetIds : List UInt64) :
    ofString receiverAddr
        (toStr { receiverAddr := senderAddr, packetIds := packetIds.map UInt64.toNat }) =
      .ok (some { receiverAddr, packetIds := packetIds.map UInt64.toNat }) := by
  apply ofString_of_isRexmit
  refine ⟨(packetIds.map UInt64.toNat).map toDecimal, ?_, .inr ?_⟩
  · apply forall₂_isNumber_toDecimal
    intro id hid
    obtain ⟨word, -, rfl⟩ := List.mem_map.mp hid
    exact word.toNat_lt
  · simp [toStr, rexmitLine]

end RexmitRequest

end SikRadio.Common
