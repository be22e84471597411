/-
# Percent-encoded text

A text is well formed when two hexadecimal digits follow every `'%'` in it. `url_decode`
asks for less: it reads what stands in the two places after a `'%'` with a stream
extraction, and goes on behind those places whatever they hold. `escapes` lists what it
meets there, and `Lax` tells apart what it accepts beyond two digits.

`urlDecode_strict_iff` says on which texts it accepts just the well-formed ones and
`urlDecode_eq_denote` that on those it gives the bytes that they denote. On any text
`mem_urlDecode_iff` says where a decoded byte comes from.
-/

import Viking.Misc.StringUtil

namespace Viking

/-! ## Well-formed text -/

/-- Two hexadecimal digits follow every `'%'`. -/
def WellFormed (str : Bytes) : Prop :=
  ∀ before after, str = before ++ ascii '%' :: after →
    ∃ a b rest, after = a :: b :: rest ∧ isHex a ∧ isHex b

/-- The byte that two hexadecimal digits denote. -/
def hexByte (a b : Byte) : Byte := UInt8.ofNat (hexNumber [a, b])

/-- Each triple of a `'%'` and two bytes is replaced by the byte it denotes, and every
other byte is kept. -/
def denote : Bytes → Bytes
  | [] => []
  | c :: rest =>
    if c = ascii '%' then
      match rest with
      | a :: b :: rest => hexByte a b :: denote rest
      | short => c :: short
    else c :: denote rest

/-- What stands in the two places after each `'%'` that a scan from the left meets, when
it goes on behind those places. -/
def escapes : Bytes → List Bytes
  | [] => []
  | c :: rest =>
    if c = ascii '%' then
      match rest with
      | [] => [[]]
      | [a] => [[a]]
      | a :: b :: rest => [a, b] :: escapes rest
    else escapes rest

/-- Two hexadecimal digits. -/
def IsPair (escape : Bytes) : Prop := ∃ a b, escape = [a, b] ∧ isHex a ∧ isHex b

/-- What the extraction reads although it is not two digits: nothing at all, one digit at
the end, a digit before another byte unless the two are `0x`, or a digit after a blank or
a sign. -/
def Lax : Bytes → Prop
  | [] => True
  | [a] => isHex a
  | a :: b :: _ =>
    (isHex a ∧ isHex b = false ∧ ¬ (a = ascii '0' ∧ isHexMark b)) ∨
      ((isSpace a ∨ isSign a) ∧ isHex b)

/-- The letter of a `0x` prefix is no digit. -/
theorem not_isHexMark_of_isHex {c : Byte} (h : isHex c) : isHexMark c = false := by
  by_contra mark
  simp only [isHexMark, Bool.not_eq_false, Bool.or_eq_true, decide_eq_true_eq] at mark
  rcases mark with rfl | rfl
  · exact absurd h (by decide)
  · exact absurd h (by decide)

section Reading

variable {a b : Byte} {rest : Bytes}

theorem isPair_pair_iff : IsPair [a, b] ↔ isHex a ∧ isHex b := by
  constructor
  · rintro ⟨a', b', same, h⟩
    cases same
    exact h
  · intro h
    exact ⟨a, b, rfl, h⟩

theorem not_isPair_nil : ¬ IsPair [] := by
  rintro ⟨_, _, same, -⟩
  cases same

theorem not_isPair_single : ¬ IsPair [a] := by
  rintro ⟨_, _, same, -⟩
  cases same

/-- The extraction reads two digits and what is lax, and nothing else. -/
theorem escapeReads_pair_iff : EscapeReads [a, b] ↔ IsPair [a, b] ∨ Lax [a, b] := by
  rw [isPair_pair_iff]
  simp only [EscapeReads, Lax]
  by_cases digit : isHex b
  · simp only [digit, not_isHexMark_of_isHex digit]
    simp
  · simp [digit]

/-- Two digits are not lax. -/
theorem not_lax_pair (h : IsPair [a, b]) : ¬ Lax [a, b] := by
  rw [isPair_pair_iff] at h
  rintro (⟨-, none, -⟩ | ⟨space | sign, -⟩)
  · exact absurd h.2 (by simp [none])
  · exact absurd h.1 (by simp [not_isHex_of_isSpace space])
  · exact absurd h.1 (by simp [not_isHex_of_isSign sign])

/-- What stands at an escape, in each of the three lengths it can have. -/
theorem escape_cases {str escape : Bytes} (mem : escape ∈ escapes str) :
    escape = [] ∨ (∃ a, escape = [a]) ∨ ∃ a b, escape = [a, b] := by
  induction str using escapes.induct with
  | case1 => cases mem
  | case2 =>
    simp only [escapes, if_pos, List.mem_singleton] at mem
    exact .inl mem
  | case3 a =>
    simp only [escapes, if_pos, List.mem_singleton] at mem
    exact .inr (.inl ⟨a, mem⟩)
  | case4 a b rest ih =>
    simp only [escapes, if_pos, List.mem_cons] at mem
    rcases mem with rfl | mem
    · exact .inr (.inr ⟨a, b, rfl⟩)
    · exact ih mem
  | case5 c rest other ih =>
    rw [escapes.eq_def] at mem
    simp only [if_neg other] at mem
    exact ih mem

theorem not_lax_of_isPair {str escape : Bytes} (mem : escape ∈ escapes str)
    (pair : IsPair escape) : ¬ Lax escape := by
  rcases escape_cases mem with rfl | ⟨a, rfl⟩ | ⟨a, b, rfl⟩
  · exact absurd pair not_isPair_nil
  · exact absurd pair not_isPair_single
  · exact not_lax_pair pair

theorem escapeReads_iff {str escape : Bytes} (mem : escape ∈ escapes str) :
    EscapeReads escape ↔ IsPair escape ∨ Lax escape := by
  rcases escape_cases mem with rfl | ⟨a, rfl⟩ | ⟨a, b, rfl⟩
  · simp [EscapeReads, Lax]
  · simp [EscapeReads, Lax, not_isPair_single]
  · exact escapeReads_pair_iff

/-- `url_decode` returns iff it can read each escape that it meets. -/
theorem decodable_iff_escapes (str : Bytes) :
    Decodable str ↔ ∀ escape ∈ escapes str, EscapeReads escape := by
  induction str using escapes.induct with
  | case1 => simp [Decodable, escapes]
  | case2 => simp [Decodable, escapes, EscapeReads]
  | case3 a => simp [Decodable, escapes]
  | case4 a b rest ih =>
    simp only [Decodable, escapes, if_pos, List.forall_mem_cons]
    rw [ih]
  | case5 c rest other ih =>
    rw [Decodable.eq_def, escapes.eq_def]
    simp only [if_neg other]
    exact ih

end Reading

/-! ## The places of a well-formed text -/

section Places

variable {a b c : Byte} {rest : Bytes}

theorem wellFormed_nil : WellFormed [] := by
  intro before after same
  cases before <;> cases same

theorem not_wellFormed_short (short : rest.length < 2) : ¬ WellFormed (ascii '%' :: rest) := by
  intro formed
  obtain ⟨a, b, tail, rfl, -⟩ := formed [] rest rfl
  rw [List.length_cons, List.length_cons] at short
  omega

theorem wellFormed_cons_iff (other : c ≠ ascii '%') : WellFormed (c :: rest) ↔ WellFormed rest := by
  constructor
  · intro formed before after same
    exact formed (c :: before) after (by rw [same, List.cons_append])
  · intro formed before after same
    cases before with
    | nil =>
      cases same
      exact absurd rfl other
    | cons d before =>
      cases same
      exact formed before after rfl

/-- An escape in full is well formed when its two places hold digits and the rest is. -/
theorem wellFormed_escape_iff :
    WellFormed (ascii '%' :: a :: b :: rest) ↔ IsPair [a, b] ∧ WellFormed rest := by
  have plain {c : Byte} (digit : isHex c) : c ≠ ascii '%' := by
    rintro rfl
    exact absurd digit (by decide)
  rw [isPair_pair_iff]
  constructor
  · intro formed
    obtain ⟨a', b', tail, same, hex⟩ := formed [] (a :: b :: rest) rfl
    cases same
    refine ⟨hex, ?_⟩
    intro before after same
    exact formed (ascii '%' :: a :: b :: before) after (by rw [same]; rfl)
  · rintro ⟨⟨first, second⟩, formed⟩ before after same
    cases before with
    | nil =>
      cases same
      exact ⟨a, b, rest, rfl, first, second⟩
    -- A later `'%'` is none of the two digits.
    | cons d before =>
      have formed' : WellFormed (a :: b :: rest) := by
        rw [wellFormed_cons_iff (plain first), wellFormed_cons_iff (plain second)]
        exact formed
      rw [List.cons_append, List.cons.injEq] at same
      exact formed' before after same.2

/-- A text is well formed iff each escape that the scan meets is two digits: digits are no
`'%'`, so the scan passes none by. -/
theorem wellFormed_iff (str : Bytes) : WellFormed str ↔ ∀ escape ∈ escapes str, IsPair escape := by
  induction str using escapes.induct with
  | case1 => simp [wellFormed_nil, escapes]
  | case2 => simp [not_wellFormed_short, escapes, not_isPair_nil]
  | case3 a => simp [not_wellFormed_short, escapes, not_isPair_single]
  | case4 a b rest ih =>
    simp only [wellFormed_escape_iff, escapes, if_pos, List.forall_mem_cons]
    rw [ih]
  | case5 c rest other ih =>
    rw [wellFormed_cons_iff other, escapes.eq_def]
    simp only [if_neg other]
    exact ih

end Places

/-! ## What the decoder gives -/

/-- The extraction gives the number that two digits spell. -/
theorem hexToChar_pair {a b : Byte} (first : isHex a) (second : isHex b) :
    hexToChar [a, b] = .ok (hexByte a b) := by
  have space : isSpace a = false := by
    by_contra h
    rw [Bool.not_eq_false] at h
    exact absurd first (by simp [not_isHex_of_isSpace h])
  have sign : isSign a = false := by
    by_contra h
    rw [Bool.not_eq_false] at h
    exact absurd first (by simp [not_isHex_of_isSign h])
  have digits : shortDigits [a, b] = [a, b] := by
    rw [shortDigits_pair]
    simp [space, sign, first, second, not_isHexMark_of_isHex second]
  have small := @hexNumber_pair a b
  have read : extractShort [a, b] = some (hexNumber [a, b] : Int) := by
    simp only [extractShort, digits, List.dropWhile_cons, space, takeSign]
    rw [if_neg]
    · simp [sign]
    · simp [sign]
      omega
  simp only [hexToChar, read, hexByte]
  rw [if_neg (by simp)]
  congr 2
  omega

/-- A well-formed text is decoded to what it denotes. -/
theorem urlDecode_eq_denote {str : Bytes} (formed : WellFormed str) :
    urlDecode str = .ok (denote str) := by
  induction str using urlDecode.induct with
  | case1 => rfl
  | case2 => exact absurd formed (not_wellFormed_short (by simp))
  | case3 a => exact absurd formed (not_wellFormed_short (by simp))
  | case4 a b rest ih =>
    obtain ⟨pair, formed⟩ := wellFormed_escape_iff.mp formed
    obtain ⟨first, second⟩ := isPair_pair_iff.mp pair
    simp only [urlDecode, denote, if_pos, hexToChar_pair first second, ih formed]
    rfl
  | case5 c rest other ih =>
    rw [wellFormed_cons_iff other] at formed
    rw [urlDecode.eq_def, denote.eq_def]
    simp only [if_neg other, ih formed]
    rfl

/-- The decoder returns on just the well-formed texts, and gives what they denote. -/
def DecodesStrictly (str : Bytes) : Prop :=
  ((∃ out, urlDecode str = .ok out) ↔ WellFormed str) ∧
    (WellFormed str → urlDecode str = .ok (denote str))

/-- The decoder is strict on a text iff it meets no lax escape there, unless it also meets
one that it cannot read. -/
theorem urlDecode_strict_iff (str : Bytes) :
    DecodesStrictly str ↔
      ((∃ escape ∈ escapes str, Lax escape) → ∃ escape ∈ escapes str, ¬ EscapeReads escape) := by
  rw [DecodesStrictly, decodable_iff, decodable_iff_escapes, wellFormed_iff]
  constructor
  · rintro ⟨returns, -⟩ ⟨escape, mem, lax⟩
    by_contra unread
    push Not at unread
    exact not_lax_of_isPair mem (returns.mp unread escape mem) lax
  · intro strict
    refine ⟨⟨fun reads escape mem => ?_, fun pairs escape mem => ?_⟩, fun pairs => ?_⟩
    · -- What is read here is a pair, since no escape can be lax.
      rcases (escapeReads_iff mem).mp (reads escape mem) with pair | lax
      · exact pair
      · obtain ⟨other, mem', unread⟩ := strict ⟨escape, mem, lax⟩
        exact absurd (reads other mem') unread
    · exact (escapeReads_iff mem).mpr (.inl (pairs escape mem))
    · exact urlDecode_eq_denote ((wellFormed_iff str).mpr pairs)

/-- A blank stands where a digit should, and yet the text is decoded. -/
theorem urlDecode_not_strict : ¬ DecodesStrictly (bytes "/a%+1b") := by
  intro strict
  have formed := strict.1.mp ⟨[47, 97, 1, 98], by decide +kernel⟩
  obtain ⟨a, b, rest, same, hex, -⟩ := formed (bytes "/a") (bytes "+1b") (by decide)
  cases same
  exact absurd hex (by decide)

/-! ## Where a decoded byte comes from -/

/-- The bytes outside the escapes that the scan meets. -/
def literals : Bytes → Bytes
  | [] => []
  | c :: rest =>
    if c = ascii '%' then
      match rest with
      | [] | [_] => []
      | _ :: _ :: rest => literals rest
    else c :: literals rest

section Origin

variable {str url escape : Bytes} {a b c : Byte}

/-- A decoded byte stood there as it is, or an escape gave it. -/
theorem mem_urlDecode_iff (decoded : urlDecode str = .ok url) :
    c ∈ url ↔ c ∈ literals str ∨ ∃ escape ∈ escapes str, hexToChar escape = .ok c := by
  induction str using escapes.induct generalizing url with
  | case1 =>
    cases decoded
    simp [literals, escapes]
  | case2 =>
    simp only [urlDecode, if_pos] at decoded
    obtain ⟨d, read, same⟩ := Machine.bind_eq_ok.mp decoded
    cases same
    simp [literals, escapes, read, eq_comm]
  | case3 a =>
    simp only [urlDecode, if_pos] at decoded
    obtain ⟨d, read, same⟩ := Machine.bind_eq_ok.mp decoded
    cases same
    simp [literals, escapes, read, eq_comm]
  | case4 a b rest ih =>
    simp only [urlDecode, if_pos] at decoded
    obtain ⟨d, read, decoded⟩ := Machine.bind_eq_ok.mp decoded
    obtain ⟨url', decoded', same⟩ := Machine.bind_eq_ok.mp decoded
    cases same
    simp only [literals, escapes, if_pos, List.mem_cons, exists_eq_or_imp, read, Except.ok.injEq]
    rw [ih decoded', or_left_comm, eq_comm]
  | case5 d rest other ih =>
    rw [urlDecode.eq_def] at decoded
    simp only [if_neg other] at decoded
    obtain ⟨url', decoded', same⟩ := Machine.bind_eq_ok.mp decoded
    cases same
    rw [literals.eq_def, escapes.eq_def]
    simp only [if_neg other, List.mem_cons]
    rw [ih decoded', or_assoc]

/-- Only the empty text is decoded to the empty one. -/
theorem urlDecode_eq_nil_iff (decoded : urlDecode str = .ok url) : url = [] ↔ str = [] := by
  induction str using escapes.induct with
  | case1 =>
    cases decoded
    exact Iff.rfl
  | case2 | case3 a =>
    simp only [urlDecode, if_pos] at decoded
    obtain ⟨d, -, same⟩ := Machine.bind_eq_ok.mp decoded
    cases same
    simp
  | case4 a b rest =>
    simp only [urlDecode, if_pos] at decoded
    obtain ⟨d, -, decoded⟩ := Machine.bind_eq_ok.mp decoded
    obtain ⟨url', -, same⟩ := Machine.bind_eq_ok.mp decoded
    cases same
    simp
  | case5 d rest other =>
    rw [urlDecode.eq_def] at decoded
    simp only [if_neg other] at decoded
    obtain ⟨url', -, same⟩ := Machine.bind_eq_ok.mp decoded
    cases same
    simp

/-- Less than two digits spell a small number, or one that wraps around to a large byte. -/
theorem hexToChar_short (few : hexNumber (shortDigits str) < 16) (read : hexToChar str = .ok c) :
    c.toNat < 16 ∨ 240 < c.toNat := by
  unfold hexToChar at read
  split_ifs at read
  · cases read
    exact .inl (by decide)
  · unfold extractShort at read
    dsimp only at read
    generalize hexNumber (shortDigits str) = n at few read
    split_ifs at read <;> cases read <;> rw [UInt8.toNat_ofNat'] <;> omega

theorem hexNumber_digit : hexNumber [a] < 16 := by
  have := @hexValue_lt a
  simp only [hexNumber, List.foldl_cons, List.foldl_nil]
  omega

/-- Two places that are not both digits hold one digit at most. -/
theorem hexNumber_shortDigits_lt (mem : escape ∈ escapes str) (other : ¬ IsPair escape) :
    hexNumber (shortDigits escape) < 16 := by
  have digits {digits : Bytes} (few : digits = [] ∨ ∃ a, digits = [a]) : hexNumber digits < 16 := by
    rcases few with rfl | ⟨a, rfl⟩
    · decide
    · exact hexNumber_digit
  apply digits
  rcases escape_cases mem with rfl | ⟨a, rfl⟩ | ⟨a, b, rfl⟩
  · exact .inl rfl
  · rw [shortDigits_single]
    split_ifs
    · exact .inr ⟨a, rfl⟩
    · exact .inl rfl
  · rw [isPair_pair_iff] at other
    rw [shortDigits_pair]
    split_ifs with space second mark first second
    · exact .inr ⟨b, rfl⟩
    · exact .inl rfl
    · exact .inl rfl
    · exact absurd ⟨first, second⟩ other
    · exact .inr ⟨a, rfl⟩
    · exact .inl rfl

/-- The value of a digit, from its place in the code. -/
theorem hexValue_of_isHex (digit : isHex c) :
    (c.toNat ≤ 57 ∧ c.toNat = (hexValue c).getD 0 + 48) ∨
      (c.toNat ≤ 70 ∧ c.toNat = (hexValue c).getD 0 + 55 ∧ 65 ≤ c.toNat) ∨
      (c.toNat = (hexValue c).getD 0 + 87 ∧ 97 ≤ c.toNat) := by
  unfold isHex at digit
  unfold hexValue at digit ⊢
  simp only [UInt8.le_iff_toNat_le, show (ascii '0').toNat = 48 from rfl,
    show (ascii '9').toNat = 57 from rfl, show (ascii 'a').toNat = 97 from rfl,
    show (ascii 'f').toNat = 102 from rfl, show (ascii 'A').toNat = 65 from rfl,
    show (ascii 'F').toNat = 70 from rfl] at digit ⊢
  split_ifs at digit ⊢ with decimal small large
  · have value := UInt8.toNat_sub_of_le c (ascii '0') (UInt8.le_iff_toNat_le.mpr decimal.1)
    rw [show (ascii '0').toNat = 48 from rfl] at value
    rw [Option.getD_some]
    omega
  · have value := UInt8.toNat_sub_of_le c (ascii 'a') (UInt8.le_iff_toNat_le.mpr small.1)
    rw [show (ascii 'a').toNat = 97 from rfl] at value
    rw [Option.getD_some]
    omega
  · have value := UInt8.toNat_sub_of_le c (ascii 'A') (UInt8.le_iff_toNat_le.mpr large.1)
    rw [show (ascii 'A').toNat = 65 from rfl] at value
    rw [Option.getD_some]
    omega
  · cases digit

/-- A slash comes from one of two escapes. -/
theorem hexToChar_slash_iff (mem : escape ∈ escapes str) :
    hexToChar escape = .ok (ascii '/') ↔ escape = bytes "2F" ∨ escape = bytes "2f" := by
  constructor
  · intro read
    by_cases pair : IsPair escape
    · obtain ⟨a, b, rfl, first, second⟩ := pair
      rw [hexToChar_pair first second, Except.ok.injEq] at read
      have number : hexNumber [a, b] = 47 := by
        have small := @hexNumber_pair a b
        have same := congrArg UInt8.toNat read
        rw [hexByte, UInt8.toNat_ofNat', Nat.mod_eq_of_lt small] at same
        exact same
      have spelled : 16 * (hexValue a).getD 0 + (hexValue b).getD 0 = 47 := by
        simpa [hexNumber] using number
      have placeA := hexValue_of_isHex first
      have placeB := hexValue_of_isHex second
      have valueB := @hexValue_lt b
      have two : a = ascii '2' := UInt8.toNat_inj.mp (by
        rw [show (ascii '2').toNat = 50 from rfl]
        omega)
      have fifteen : b = ascii 'F' ∨ b = ascii 'f' := by
        rw [← UInt8.toNat_inj, ← UInt8.toNat_inj, show (ascii 'F').toNat = 70 from rfl,
          show (ascii 'f').toNat = 102 from rfl]
        omega
      rw [two]
      rcases fifteen with rfl | rfl
      · exact .inl rfl
      · exact .inr rfl
    · have large := hexToChar_short (hexNumber_shortDigits_lt mem pair) read
      exact absurd large (by decide)
  · rintro (rfl | rfl) <;> decide

end Origin

end Viking
