import SikRadio.Common.LookupReplies

/-!
# The grammar of announcements

What the control protocol allows as an announcement, and what the constructor
of `LookupReply` takes. It leaves the port to `stoul`, which skips white space
and a sign, stops at the first character that is no digit and negates the word
behind a minus sign, and it hands the address to `inet_pton` as a C string.

## Implementation notes

`inet_pton` stays a parameter. It is assumed to read exactly the texts
`a.b.c.d` of four numbers below 256; `inetPton` does this.
-/

namespace SikRadio.Common

open Foundations.SeparatedText

/-! ## Addresses -/

/-- The text `a.b.c.d`. -/
def dotted (a b c d : Nat) : List Char :=
  ['.'].intercalate [toDecimal a, toDecimal b, toDecimal c, toDecimal d]

/-- The text writes the address, whose bytes are in network order. -/
def IsDotted (host : List Char) (sAddr : Nat) : Prop :=
  ∃ a b c d, (a < 256 ∧ b < 256 ∧ c < 256 ∧ d < 256) ∧ host = dotted a b c d ∧
    sAddr = a + 256 * (b + 256 * (c + 256 * d))

/-- The text writes a multicast address, one of 224.0.0.0 to 239.255.255.255. -/
def IsMulticast (host : List Char) : Prop :=
  ∃ a b c d, (224 ≤ a ∧ a < 240) ∧ (b < 256 ∧ c < 256 ∧ d < 256) ∧ host = dotted a b c d

/-- One number of an address. -/
def octet (token : List Char) : Option Nat :=
  let value := Nat.ofDigitChars 10 token 0
  if value < 256 ∧ token = toDecimal value then some value else none

/-- `inet_pton` for `AF_INET`. -/
def inetPton (host : CString) : Option Nat :=
  match (host.chars.splitOn '.').mapM octet with
  | some [a, b, c, d] => some (a + 256 * (b + 256 * (c + 256 * d)))
  | _ => none

theorem octet_eq_some_iff {token : List Char} {x : Nat} :
    octet token = some x ↔ x < 256 ∧ token = toDecimal x := by
  unfold octet
  extract_lets value
  constructor
  · intro h
    split at h
    case isTrue htoken =>
      obtain rfl := Option.some.inj h
      exact htoken
    case isFalse => cases h
  · rintro ⟨hlt, rfl⟩
    have hvalue : value = x := Nat.ofDigitChars_ten_toDigits
    rw [hvalue, if_pos ⟨hlt, rfl⟩]

theorem notMem_toDecimal {c : Char} (hc : c.isDigit = false) (x : Nat) : c ∉ toDecimal x := by
  intro hmem
  rw [Nat.isDigit_of_mem_toDigits (by decide) (by decide) hmem] at hc
  cases hc

theorem splitOn_dotted (a b c d : Nat) :
    (dotted a b c d).splitOn '.' = [toDecimal a, toDecimal b, toDecimal c, toDecimal d] := by
  apply List.splitOn_intercalate
  · simp only [List.mem_cons, List.not_mem_nil, or_false, forall_eq_or_imp, forall_eq]
    exact ⟨notMem_toDecimal rfl a, notMem_toDecimal rfl b, notMem_toDecimal rfl c,
      notMem_toDecimal rfl d⟩
  · exact List.cons_ne_nil _ _

/-- This `inet_pton` reads exactly the dotted addresses. -/
theorem inetPton_eq_some_iff (host : CString) (sAddr : Nat) :
    inetPton host = some sAddr ↔ IsDotted host.chars sAddr := by
  unfold inetPton
  constructor
  · intro h
    split at h
    case h_1 a b c d hread =>
      obtain rfl := Option.some.inj h
      have hparts := mapM_eq_some_iff.mp hread
      have hjoin : ['.'].intercalate (host.chars.splitOn '.') = host.chars :=
        List.intercalate_splitOn '.'
      simp only [List.forall₂_cons_right_iff, List.forall₂_nil_right_iff,
        octet_eq_some_iff] at hparts
      obtain ⟨_, _, ⟨ha, rfl⟩, ⟨_, _, ⟨hb, rfl⟩, ⟨_, _, ⟨hc, rfl⟩, ⟨_, _, ⟨hd, rfl⟩, rfl, rfl⟩,
        rfl⟩, rfl⟩, hsplit⟩ := hparts
      rw [hsplit] at hjoin
      exact ⟨a, b, c, d, ⟨ha, hb, hc, hd⟩, hjoin.symm, rfl⟩
    case h_2 => cases h
  · rintro ⟨a, b, c, d, ⟨ha, hb, hc, hd⟩, hhost, rfl⟩
    have hread : (host.chars.splitOn '.').mapM octet = some [a, b, c, d] := by
      rw [hhost, splitOn_dotted, mapM_eq_some_iff]
      simp only [List.forall₂_cons, List.forall₂_nil_left_iff, octet_eq_some_iff, and_true]
      exact ⟨ha, hb, hc, hd⟩
    rw [hread]

/-- The macro `IN_MULTICAST` looks at the first number of the address. -/
theorem inMulticast_iff {a low : Nat} (ha : a < 256) (hlow : low < 2 ^ 24) :
    inMulticast (a * 2 ^ 24 + low) = true ↔ 224 ≤ a ∧ a < 240 := by
  have hhigh : (a * 2 ^ 24 + low) / 2 ^ 24 = a := by omega
  have hdiv : ((a * 2 ^ 24 + low) &&& 0xf0000000) / 2 ^ 24 = a &&& 0xf0 := by
    rw [Nat.and_div_two_pow, hhigh]
  have hmod : ((a * 2 ^ 24 + low) &&& 0xf0000000) % 2 ^ 24 = 0 := by
    rw [Nat.and_mod_two_pow]
    exact Nat.and_zero _
  have hfirst : ∀ a < 256, (a &&& 0xf0) = 0xe0 ↔ 224 ≤ a ∧ a < 240 := by
    decide +kernel
  rw [← hfirst a ha, inMulticast, beq_iff_eq, ← hdiv]
  generalize (a * 2 ^ 24 + low) &&& 0xf0000000 = masked at hmod
  omega

theorem inMulticast_htonl_iff {a b c d : Nat} (ha : a < 256) (hb : b < 256) (hc : c < 256)
    (hd : d < 256) :
    inMulticast (htonl (a + 256 * (b + 256 * (c + 256 * d)))) = true ↔ 224 ≤ a ∧ a < 240 := by
  have hbytes : htonl (a + 256 * (b + 256 * (c + 256 * d))) =
      a * 2 ^ 24 + (b * 2 ^ 16 + c * 2 ^ 8 + d) := by
    unfold htonl
    omega
  have hlow : b * 2 ^ 16 + c * 2 ^ 8 + d < 2 ^ 24 := by omega
  rw [hbytes]
  exact inMulticast_iff ha hlow

/-- `get_mcast_addr` accepts exactly the multicast addresses. -/
theorem isSome_getMcastAddr_iff {inetPton : CString → Option Nat}
    (hinet : ∀ host sAddr, inetPton host = some sAddr ↔ IsDotted host.chars sAddr)
    (host : CString) (port : Nat) :
    (getMcastAddr inetPton host port).isSome = true ↔ IsMulticast host.chars := by
  constructor
  · intro h
    obtain ⟨sAddr, hsAddr⟩ := exists_of_isSome_getMcastAddr h
    obtain ⟨a, b, c, d, ⟨ha, hb, hc, hd⟩, hhost, rfl⟩ := (hinet host sAddr).mp hsAddr
    refine ⟨a, b, c, d, (inMulticast_htonl_iff ha hb hc hd).mp ?_, ⟨hb, hc, hd⟩, hhost⟩
    by_contra hclass
    simp [getMcastAddr, hsAddr, hclass] at h
  · rintro ⟨a, b, c, d, hclass, ⟨hb, hc, hd⟩, hhost⟩
    have ha : a < 256 := hclass.2.trans (by decide)
    have hsAddr := (hinet host _).mpr ⟨a, b, c, d, ⟨ha, hb, hc, hd⟩, hhost, rfl⟩
    simp [getMcastAddr, hsAddr, (inMulticast_htonl_iff ha hb hc hd).mpr hclass]

/-- A multicast address is written with digits and dots. -/
theorem IsMulticast.notMem {host : List Char} (h : IsMulticast host) {x : Char}
    (hx : x.isDigit = false) (hdot : x ≠ '.') : x ∉ host := by
  obtain ⟨a, b, c, d, -, -, rfl⟩ := h
  apply not_mem_intercalate hdot
  simp only [List.mem_cons, List.not_mem_nil, or_false, forall_eq_or_imp, forall_eq]
  exact ⟨notMem_toDecimal hx a, notMem_toDecimal hx b, notMem_toDecimal hx c,
    notMem_toDecimal hx d⟩

/-! ## Ports -/

/-- The parts in which `stoul` reads a text. -/
structure StoulParts (str blanks sign digits rest : List Char) : Prop where
  text : str = blanks ++ (sign ++ (digits ++ rest))
  blank : ∀ c ∈ blanks, isSpace c = true
  sign_cases : sign = [] ∨ sign = ['+'] ∨ sign = ['-']
  nonempty : digits ≠ []
  digit : ∀ c ∈ digits, c.isDigit = true
  ends : ∀ c ∈ rest.head?, c.isDigit = false

/-- A minus sign negates the word. -/
def signed (sign : List Char) (value : Nat) : Nat :=
  if sign = ['-'] then (2 ^ 64 - value) % 2 ^ 64 else value

/-- The text is a number of 64 bits to `stoul`. -/
def StoulReads (str : List Char) (value : Nat) : Prop :=
  ∃ blanks sign digits rest, StoulParts str blanks sign digits rest ∧
    Nat.ofDigitChars 10 digits 0 < 2 ^ 64 ∧ value = signed sign (Nat.ofDigitChars 10 digits 0)

theorem takeWhile_append_of_ends {p : Char → Bool} {front back : List Char}
    (hfront : ∀ c ∈ front, p c = true) (hback : ∀ c ∈ back.head?, p c = false) :
    (front ++ back).takeWhile p = front := by
  rw [List.takeWhile_append_of_pos hfront]
  cases back with
  | nil => simp
  | cons c back => simp [hback c rfl]

/-- What `stoul` yields on its parts. -/
theorem stoul_of_parts {str blanks sign digits rest : List Char}
    (h : StoulParts str blanks sign digits rest) :
    stoul str = if 2 ^ 64 ≤ Nat.ofDigitChars 10 digits 0 then none
      else some (signed sign (Nat.ofDigitChars 10 digits 0)) := by
  obtain ⟨c, cs, hdigits⟩ := List.exists_cons_of_ne_nil h.nonempty
  have hc : c.isDigit = true := h.digit c (hdigits ▸ List.mem_cons_self)
  have htake := takeWhile_append_of_ends h.digit h.ends
  have hbody : str.dropWhile isSpace = sign ++ (digits ++ rest) := by
    rw [h.text, List.dropWhile_append_of_pos h.blank]
    rcases h.sign_cases with rfl | rfl | rfl
    · simp [hdigits, isSpace_of_isDigit hc]
    · rfl
    · rfl
  unfold stoul
  simp only [hbody]
  rcases h.sign_cases with rfl | rfl | rfl
  · have hminus : c ≠ '-' := by
      rintro rfl
      cases hc
    have hplus : c ≠ '+' := by
      rintro rfl
      cases hc
    have hhead : (digits ++ rest).head? = some c := by simp [hdigits]
    simp [hhead, hminus, hplus, htake, h.nonempty, signed]
  · simp [htake, h.nonempty, signed]
  · simp [htake, h.nonempty, signed]

theorem exists_sign (body : List Char) :
    ∃ sign, (sign = [] ∨ sign = ['+'] ∨ sign = ['-']) ∧
      body = sign ++ (if body.head? == some '-' || body.head? == some '+' then body.tail
        else body) := by
  cases body with
  | nil => exact ⟨[], .inl rfl, rfl⟩
  | cons c body =>
      by_cases hminus : c = '-'
      · exact ⟨['-'], .inr (.inr rfl), by simp [hminus]⟩
      · by_cases hplus : c = '+'
        · exact ⟨['+'], .inr (.inl rfl), by simp [hplus]⟩
        · exact ⟨[], .inl rfl, by simp [hminus, hplus]⟩

/-- What `stoul` reads has the parts. -/
theorem exists_parts {str : List Char} {value : Nat} (h : stoul str = some value) :
    ∃ blanks sign digits rest, StoulParts str blanks sign digits rest := by
  unfold stoul at h
  extract_lets body signed digits value' at h
  obtain ⟨sign, hsign, hbody⟩ := exists_sign body
  have hne : digits ≠ [] := by
    intro hnil
    rw [if_pos (.inl hnil)] at h
    cases h
  refine ⟨str.takeWhile isSpace, sign, digits,
    (if signed then body.tail else body).dropWhile Char.isDigit, ?_, ?_, hsign, hne, ?_, ?_⟩
  · rw [List.takeWhile_append_dropWhile, ← hbody, List.takeWhile_append_dropWhile]
  · exact fun c hc => List.mem_takeWhile_imp hc
  · exact fun c hc => List.mem_takeWhile_imp hc
  · intro c hc
    have hhead := List.head?_dropWhile_not Char.isDigit (if signed then body.tail else body)
    rwa [Option.mem_def.mp hc] at hhead

theorem stoul_eq_some_iff {str : List Char} {value : Nat} :
    stoul str = some value ↔ StoulReads str value := by
  constructor
  · intro h
    obtain ⟨blanks, sign, digits, rest, hparts⟩ := exists_parts h
    rw [stoul_of_parts hparts] at h
    split at h
    case isTrue => cases h
    case isFalse hlt =>
      exact ⟨blanks, sign, digits, rest, hparts, not_le.mp hlt, (Option.some.inj h).symm⟩
  · rintro ⟨blanks, sign, digits, rest, hparts, hlt, rfl⟩
    rw [stoul_of_parts hparts, if_neg (not_le.mpr hlt)]

/-- When there are digits only, they are the whole text. -/
theorem isNumber_of_stoulReads {str : List Char} {value : Nat} (h : StoulReads str value)
    (hdigits : ∀ c ∈ str, c.isDigit = true) : IsNumber str value := by
  obtain ⟨blanks, sign, digits, rest, hparts, hlt, rfl⟩ := h
  obtain ⟨text, blank, sign_cases, nonempty, digit, ends⟩ := hparts
  subst text
  have hblanks : blanks = [] := by
    apply List.eq_nil_iff_forall_not_mem.mpr
    intro c hc
    have hspace := isSpace_of_isDigit (hdigits c (List.mem_append_left _ hc))
    rw [blank c hc] at hspace
    cases hspace
  have hsign : sign = [] := by
    rcases sign_cases with rfl | rfl | rfl
    · rfl
    · exact absurd (hdigits '+' (by simp)) (by decide)
    · exact absurd (hdigits '-' (by simp)) (by decide)
  have hrest : rest = [] := by
    cases rest with
    | nil => rfl
    | cons c rest =>
        have hc := hdigits c (by simp)
        rw [ends c rfl] at hc
        cases hc
  subst hblanks hsign hrest
  simp only [List.nil_append, List.append_nil, signed]
  exact ⟨nonempty, digit, rfl, hlt⟩

/-! ## Announcements -/

namespace LookupReply

/-- The line with the three separators. -/
def line (mcastAddr port name : List Char) : List Char :=
  lookupReplyPrefix ++ fieldSeparator :: (mcastAddr ++ fieldSeparator :: (port ++
    fieldSeparator :: name))

/-- A text of the control protocol, and what it announces. -/
structure WellFormed (str : List Char) (reply : LookupReply) : Prop where
  text : ∃ port, IsNumber port reply.dataPort ∧
    IsLine (line reply.mcastAddr port reply.name) str
  multicast : IsMulticast reply.mcastAddr
  port_le : reply.dataPort ≤ 65535
  name : isValidName reply.name = true

/-- An announcement whose fields the constructor takes. -/
structure Taken (str : List Char) (reply : LookupReply) (port : List Char) : Prop where
  text : IsLine (line reply.mcastAddr port reply.name) str
  host_notMem : fieldSeparator ∉ reply.mcastAddr
  port_notMem : fieldSeparator ∉ port
  multicast : IsMulticast (cStr reply.mcastAddr).chars
  reads : StoulReads port reply.dataPort
  port_le : reply.dataPort ≤ 65535
  name : isValidName reply.name = true

/-- An announcement that the constructor takes though its port is no number or a null character
stands behind its address. -/
def Careless (str : List Char) : Prop :=
  ∃ reply port, Taken str reply port ∧
    ((∃ c ∈ port, c.isDigit = false) ∨ Char.ofNat 0 ∈ reply.mcastAddr)

theorem cutField_eq_some_iff {input field rest : List Char} :
    cutField input = some (field, rest) ↔
      input = field ++ fieldSeparator :: rest ∧ fieldSeparator ∉ field := by
  constructor
  · intro h
    obtain ⟨i, hi, heq⟩ := Option.map_eq_some_iff.mp h
    obtain ⟨rfl, rfl⟩ := Prod.mk.inj heq
    refine ⟨eq_of_findIdx?_eq_some hi, fun hmem => ?_⟩
    obtain ⟨_, _, hbefore⟩ := List.findIdx?_eq_some_iff_getElem.mp hi
    obtain ⟨j, hj, hsep⟩ := List.mem_iff_getElem.mp hmem
    rw [List.length_take] at hj
    have hnot := hbefore j (Nat.lt_of_lt_of_le hj (Nat.min_le_left ..))
    rw [List.getElem_take] at hsep
    simp [hsep] at hnot
  · rintro ⟨rfl, hfield⟩
    exact cutField_append_cons hfield rest

/-- A valid name does not end the line with a newline. -/
theorem line_getLast?_ne {mcastAddr port name : List Char} (hname : isValidName name = true) :
    (line mcastAddr port name).getLast? ≠ some '\n' := by
  rw [isValidName, Bool.and_eq_true, List.all_eq_true] at hname
  intro hlast
  have hsplit : line mcastAddr port name =
      lookupReplyPrefix ++ fieldSeparator :: (mcastAddr ++ fieldSeparator :: port) ++
        fieldSeparator :: name := by simp [line]
  rw [hsplit, List.getLast?_append_cons] at hlast
  have hmem : '\n' ∈ fieldSeparator :: name := List.mem_of_getLast? hlast
  rcases List.mem_cons.mp hmem with hsep | hmem
  · cases hsep
  · exact absurd (hname.2 '\n' hmem) (by decide)

theorem ofString_eq_some_iff {inetPton : CString → Option Nat}
    (hinet : ∀ host sAddr, inetPton host = some sAddr ↔ IsDotted host.chars sAddr)
    {str : List Char} {reply : LookupReply} :
    ofString inetPton str = some reply ↔ ∃ port, Taken str reply port := by
  have haccepted (reply : LookupReply) :
      ¬(getMcastAddr inetPton (cStr reply.mcastAddr) reply.dataPort).isNone = true ↔
        IsMulticast (cStr reply.mcastAddr).chars := by
    rw [← isSome_getMcastAddr_iff hinet _ reply.dataPort, Option.isNone_iff_eq_none,
      Option.isSome_iff_ne_none]
  unfold ofString
  simp only [Option.bind_eq_bind, Option.bind_none, Option.ite_none_left_eq_some,
    Option.bind_eq_some_iff, Prod.exists, cutField_eq_some_iff, Option.pure_def, ne_eq, not_not,
    stoul_eq_some_iff, not_lt, Option.some.injEq]
  constructor
  · rintro ⟨header, input, ⟨htext, -⟩, -, rfl, host, rest, ⟨rfl, hhost⟩, port, name, ⟨rfl, hport⟩,
      value, hreads, hle, hmulticast, hname, rfl⟩
    refine ⟨port, ?_, hhost, hport, (haccepted ⟨host, value, name⟩).mp hmulticast, hreads, hle,
      by simpa using hname⟩
    exact (trimmed_eq_iff (line_getLast?_ne (by simpa using hname))).mp htext
  · rintro ⟨port, htaken⟩
    have htext := (trimmed_eq_iff (line_getLast?_ne htaken.name)).mpr htaken.text
    have hname := htaken.name
    refine ⟨lookupReplyPrefix, _, ⟨htext, by decide⟩, rfl, rfl, reply.mcastAddr, _,
      ⟨rfl, htaken.host_notMem⟩, port, reply.name, ⟨rfl, htaken.port_notMem⟩, reply.dataPort,
      htaken.reads, htaken.port_le, (haccepted reply).mpr htaken.multicast, ?_, rfl⟩
    simp [hname]

/-! ## The two languages -/

/-- A text that the protocol allows is taken. -/
theorem WellFormed.taken {str : List Char} {reply : LookupReply} (h : WellFormed str reply) :
    Char.ofNat 0 ∉ reply.mcastAddr ∧
      ∃ port, (∀ c ∈ port, c.isDigit = true) ∧ Taken str reply port := by
  obtain ⟨port, hnumber, htext⟩ := h.text
  have hnull : Char.ofNat 0 ∉ reply.mcastAddr := h.multicast.notMem (by decide) (by decide)
  have hcStr : (cStr reply.mcastAddr).chars = reply.mcastAddr :=
    congrArg CString.chars (cStr_chars ⟨reply.mcastAddr, hnull⟩)
  exact ⟨hnull, port, hnumber.digits,
    { text := htext
      host_notMem := h.multicast.notMem (by decide) (by decide)
      port_notMem := hnumber.not_mem (by decide)
      multicast := hcStr.symm ▸ h.multicast
      reads := stoul_eq_some_iff.mp (stoul_of_isNumber hnumber)
      port_le := h.port_le
      name := h.name }⟩

/-- A text that is taken and has plain fields is allowed. -/
theorem Taken.wellFormed {str port : List Char} {reply : LookupReply} (h : Taken str reply port)
    (hdigits : ∀ c ∈ port, c.isDigit = true) (hnull : Char.ofNat 0 ∉ reply.mcastAddr) :
    WellFormed str reply := by
  have hcStr : (cStr reply.mcastAddr).chars = reply.mcastAddr :=
    congrArg CString.chars (cStr_chars ⟨reply.mcastAddr, hnull⟩)
  exact
    { text := ⟨port, isNumber_of_stoulReads h.reads hdigits, h.text⟩
      multicast := hcStr ▸ h.multicast
      port_le := h.port_le
      name := h.name }

/-- The fields of a text are determined. -/
theorem Taken.unique {str port port' : List Char} {reply reply' : LookupReply}
    (h : Taken str reply port) (h' : Taken str reply' port') :
    reply.mcastAddr = reply'.mcastAddr ∧ port = port' := by
  have htext := (trimmed_eq_iff (line_getLast?_ne h.name)).mpr h.text
  rw [(trimmed_eq_iff (line_getLast?_ne h'.name)).mpr h'.text, line, line] at htext
  have hfields := (List.cons.inj (List.append_cancel_left htext)).2
  have hhost := cutField_append_cons h.host_notMem (port ++ fieldSeparator :: reply.name)
  rw [← hfields, cutField_append_cons h'.host_notMem] at hhost
  obtain ⟨heq, hrest⟩ := Prod.mk.inj (Option.some.inj hhost)
  have hport := cutField_append_cons h.port_notMem reply.name
  rw [← hrest, cutField_append_cons h'.port_notMem] at hport
  exact ⟨heq.symm, (Prod.mk.inj (Option.some.inj hport)).1.symm⟩

/-- The constructor takes exactly the announcements of the protocol, unless the text is
careless. -/
theorem ofString_iff_wellFormed_iff {inetPton : CString → Option Nat}
    (hinet : ∀ host sAddr, inetPton host = some sAddr ↔ IsDotted host.chars sAddr)
    {str : List Char} :
    (∀ reply, ofString inetPton str = some reply ↔ WellFormed str reply) ↔ ¬Careless str := by
  constructor
  · rintro h ⟨reply, port, htaken, hcareless⟩
    have hread := (ofString_eq_some_iff hinet).mpr ⟨port, htaken⟩
    obtain ⟨hnull, port', hdigits, htaken'⟩ := ((h reply).mp hread).taken
    obtain ⟨-, rfl⟩ := htaken.unique htaken'
    rcases hcareless with ⟨c, hc, hnot⟩ | hmem
    · rw [hdigits c hc] at hnot
      cases hnot
    · exact hnull hmem
  · intro h reply
    rw [ofString_eq_some_iff hinet]
    constructor
    · rintro ⟨port, htaken⟩
      apply htaken.wellFormed
      · intro c hc
        by_contra hnot
        exact h ⟨reply, port, htaken, .inl ⟨c, hc, Bool.eq_false_iff.mpr hnot⟩⟩
      · intro hmem
        exact h ⟨reply, port, htaken, .inr hmem⟩
    · intro hwell
      obtain ⟨-, port, -, htaken⟩ := hwell.taken
      exact ⟨port, htaken⟩

end LookupReply

end SikRadio.Common
