/-
# The names the parser knows

While the parser reads the name of a field it compares it, letter by letter and without
regard to case, with the few names that mean something to it. `Spells` is what its header
state says about the letters it has read, and each byte of a name keeps it. At the end of a
name, then, the header state is that of a content length, of a transfer coding or of an
upgrade for the field of that name and for no other.
-/

import Viking.Http.FieldNames
import Viking.Http.Request

namespace Viking.Http

/-! ## Names in small letters -/

/-- A name as the parser compares it. -/
def lowered (name : Bytes) : Bytes := name.map token

/-- Every byte may stand in a token. -/
def IsToken (name : Bytes) : Prop := ∀ c ∈ name, token c ≠ 0

instance : DecidablePred IsToken := fun name =>
  inferInstanceAs (Decidable (∀ c ∈ name, token c ≠ 0))

/-- Bytes of a token are the same letter iff they are the same small letter. -/
theorem toUpper_eq_iff_token {c d : Byte} (valid : token c ≠ 0) (valid' : token d ≠ 0) :
    toUpper c = toUpper d ↔ token c = token d := by
  have upper : ∀ c, token c ≠ 0 → toUpper (token c) = toUpper c :=
    forall_byte (P := fun c => token c ≠ 0 → toUpper (token c) = toUpper c) (by decide +kernel)
  constructor
  · intro same
    rw [← token_toUpper c, same, token_toUpper]
  · intro same
    rw [← upper c valid, same, upper d valid']

/-- Tokens are one name up to the case of letters iff they are lowered to the same bytes. -/
theorem sameName_iff_lowered {name name' : Bytes} (valid : IsToken name) (valid' : IsToken name') :
    SameName name name' ↔ lowered name' = lowered name := by
  unfold SameName uppercase lowered
  induction name generalizing name' with
  | nil => simp
  | cons c name ih =>
    rw [IsToken, List.forall_mem_cons] at valid
    cases name' with
    | nil => simp
    | cons d name' =>
      rw [IsToken, List.forall_mem_cons] at valid'
      simp only [List.map_cons, List.cons.injEq]
      rw [toUpper_eq_iff_token valid'.1 valid.1, ih valid.2 valid'.2]

/-! ## What a header state says about the letters -/

/-- The first `index + 1` letters of a text are read. -/
def Begins (text : Bytes) (index : ℕ) (word : Bytes) : Prop :=
  index < text.length ∧ word = text.take (index + 1)

/-- The letters that have been read when the parser is in a header state. -/
def Spells (s : HeaderState) (index : ℕ) (word : Bytes) : Prop :=
  match s with
  | .c => index = 0 ∧ word = bytes "c"
  | .co => index = 1 ∧ word = bytes "co"
  | .con => index = 2 ∧ word = bytes "con"
  | .matchingContentLength => Begins (bytes "content-length") index word
  | .matchingTransferEncoding => Begins (bytes "transfer-encoding") index word
  | .matchingUpgrade => Begins (bytes "upgrade") index word
  | .contentLength => word = bytes "content-length"
  | .transferEncoding => word = bytes "transfer-encoding"
  | .upgrade => word = bytes "upgrade"
  -- these two belong to a value
  | .matchingTransferEncodingChunked | .transferEncodingChunked => False
  | _ => True

section Matching

variable {parser : HttpParser} {ch : Byte} {word text : Bytes} {mismatch whole : HeaderState}

/-- One more letter of a text, of which `matching` have been read: it is another letter, the
last one, or one on the way. -/
theorem matchText_spells (mismatch whole : HeaderState) (valid : ch ≠ 0)
    (begins : Begins text parser.index word) :
    let next := Execution.matchText text mismatch whole parser ch
    next.headerState = mismatch ∨
      next.headerState = whole ∧ word ++ [ch] = text ∨
      next.headerState = parser.headerState ∧ Begins text next.index (word ++ [ch]) := by
  obtain ⟨inside, rfl⟩ := begins
  simp only [Execution.matchText]
  split_ifs with other last
  · exact .inl rfl
  all_goals
    rw [not_or, not_not] at other
    -- The letter stands in the text, since it is not the zero behind its end.
    have there : parser.index + 1 < text.length := by
      by_contra short
      rw [List.getElem?_eq_none (not_lt.mp short)] at other
      exact valid other.2.symm
    have letter : text[parser.index + 1]? = some ch := by
      rw [List.getElem?_eq_getElem there] at other ⊢
      exact congrArg some other.2
    have longer : text.take (parser.index + 1) ++ [ch] = text.take (parser.index + 1 + 1) := by
      rw [List.take_add_one (i := parser.index + 1), letter]
      rfl
  · refine .inr (.inl ⟨rfl, ?_⟩)
    rw [longer, List.take_of_length_le (by omega)]
  · exact .inr (.inr ⟨rfl, there, longer⟩)

/-- What a comparison that goes wrong leaves says nothing about the letters. -/
theorem spells_matchText {matching : HeaderState} (valid : ch ≠ 0)
    (state : parser.headerState = matching) (begins : Begins text parser.index word)
    (there : ∀ index word, Begins text index word → Spells matching index word)
    (found : ∀ index word, word = text → Spells whole index word) :
    let next := Execution.matchText text .general whole parser ch
    Spells next.headerState next.index (word ++ [ch]) := by
  intro next
  rcases matchText_spells .general whole valid begins with general | ⟨done, same⟩ | ⟨going, longer⟩
  · rw [general]
    trivial
  · rw [done]
    exact found _ _ same
  · rw [going, state]
    exact there _ _ longer

/-- Each byte of a name keeps what the header state says. -/
theorem headerFieldByte_spells (valid : token ch ≠ 0)
    (spells : Spells parser.headerState parser.index word) :
    let next := Execution.headerFieldByte parser ch
    Spells next.headerState next.index (word ++ [token ch]) := by
  have blank : token (ascii ' ') = 0 := by decide
  have plain : ch ≠ ascii ' ' := fun same => valid (same ▸ blank)
  intro next
  have next_eq : next = Execution.headerFieldByte parser ch := rfl
  unfold Execution.headerFieldByte at next_eq
  cases state : parser.headerState with
  | c =>
    simp only [state, Spells] at spells next_eq
    rw [next_eq]
    dsimp only
    split_ifs with letter
    · exact ⟨by omega, by rw [spells.2, letter]; rfl⟩
    · trivial
  | co =>
    simp only [state, Spells] at spells next_eq
    rw [next_eq]
    dsimp only
    split_ifs with letter
    · exact ⟨by omega, by rw [spells.2, letter]; rfl⟩
    · trivial
  | con =>
    simp only [state, Spells] at spells next_eq
    rw [next_eq]
    dsimp only
    split_ifs with letter letter'
    · trivial
    · refine ⟨?_, ?_⟩
      · rw [spells.1]
        decide
      · rw [spells.1, spells.2, letter']
        decide
    · trivial
  | matchingConnection =>
    simp only [state] at next_eq
    rw [next_eq]
    simp only [Execution.matchText]
    split_ifs <;> simp only [state] <;> trivial
  | matchingProxyConnection =>
    simp only [state] at next_eq
    rw [next_eq]
    simp only [Execution.matchText]
    split_ifs <;> simp only [state] <;> trivial
  | matchingContentLength =>
    simp only [state, Spells] at spells next_eq
    rw [next_eq]
    exact spells_matchText valid state spells (fun _ _ h => h) (fun _ _ h => h)
  | matchingTransferEncoding =>
    simp only [state, Spells] at spells next_eq
    rw [next_eq]
    exact spells_matchText valid state spells (fun _ _ h => h) (fun _ _ h => h)
  | matchingUpgrade =>
    simp only [state, Spells] at spells next_eq
    rw [next_eq]
    exact spells_matchText valid state spells (fun _ _ h => h) (fun _ _ h => h)
  | contentLength | transferEncoding | upgrade | connection =>
    -- Another letter makes it a longer name, which is none of these.
    simp only [state, ne_eq, plain, not_false_eq_true, if_true] at next_eq
    rw [next_eq]
    trivial
  | matchingTransferEncodingChunked | transferEncodingChunked =>
    rw [state] at spells
    exact spells.elim
  | _ =>
    simp only [state] at next_eq
    rw [next_eq, state]
    trivial

end Matching

/-- The first letter of a name. -/
theorem headerStateOfLetter_spells (c : Byte) :
    Spells (Execution.headerStateOfLetter c) 0 [c] := by
  unfold Execution.headerStateOfLetter
  split_ifs with first second third fourth
  · exact ⟨rfl, by rw [first]; rfl⟩
  · trivial
  · exact ⟨by decide, by rw [third]; decide⟩
  · exact ⟨by decide, by rw [fourth]; decide⟩
  · trivial

/-! ## Reading a whole name -/

/-- The header state and the index after the name of a field. -/
def readName (parser : HttpParser) : Bytes → HttpParser
  | [] => parser
  | c :: name =>
    name.foldl Execution.headerFieldByte
      { parser with index := 0, headerState := Execution.headerStateOfLetter (token c) }

section Names

variable {parser : HttpParser} {name : Bytes}

theorem readName_spells (nonempty : name ≠ []) (valid : IsToken name) :
    Spells (readName parser name).headerState (readName parser name).index (lowered name) := by
  cases name with
  | nil => exact absurd rfl nonempty
  | cons c name =>
    rw [IsToken, List.forall_mem_cons] at valid
    have start := headerStateOfLetter_spells (token c)
    -- Byte by byte, the letters read so far are `word`.
    have all : ∀ (name word : Bytes) (parser : HttpParser), IsToken name →
        Spells parser.headerState parser.index word →
        Spells (name.foldl Execution.headerFieldByte parser).headerState
          (name.foldl Execution.headerFieldByte parser).index (word ++ lowered name) := by
      intro name
      induction name with
      | nil =>
        intro word parser _ spells
        simpa [lowered] using spells
      | cons d name ih =>
        intro word parser valid spells
        rw [IsToken, List.forall_mem_cons] at valid
        have next := ih _ _ valid.2 (headerFieldByte_spells valid.1 spells)
        rw [List.append_assoc] at next
        exact next
    exact all name [token c] _ valid.2 start

/-- A comparison changes the header state and the index only. -/
theorem matchText_frame (text : Bytes) (mismatch whole : HeaderState) (parser : HttpParser)
    (c : Byte) : Execution.matchText text mismatch whole parser c = { parser with
      headerState := (Execution.matchText text mismatch whole parser c).headerState
      index := (Execution.matchText text mismatch whole parser c).index } := by
  simp only [Execution.matchText]
  split_ifs <;> rfl

theorem headerFieldByte_frame (parser : HttpParser) (ch : Byte) :
    Execution.headerFieldByte parser ch = { parser with
      headerState := (Execution.headerFieldByte parser ch).headerState
      index := (Execution.headerFieldByte parser ch).index } := by
  unfold Execution.headerFieldByte
  cases parser.headerState with
  | matchingConnection | matchingProxyConnection | matchingContentLength
  | matchingTransferEncoding | matchingUpgrade => exact matchText_frame ..
  | contentLength | transferEncoding | upgrade | connection =>
    dsimp only
    split_ifs <;> rfl
  | _ => rfl

/-- Two parsers compare the next letter with the same text, at the same place of it. -/
def Matches (parser parser' : HttpParser) : Prop :=
  parser'.headerState = parser.headerState ∧ parser'.index = parser.index

theorem matchText_matches {parser' : HttpParser} (h : Matches parser parser') (text : Bytes)
    (mismatch whole : HeaderState) (c : Byte) :
    Matches (Execution.matchText text mismatch whole parser c)
      (Execution.matchText text mismatch whole parser' c) := by
  simp only [Execution.matchText, h.2]
  split_ifs
  · exact ⟨rfl, rfl⟩
  · exact ⟨rfl, rfl⟩
  · exact ⟨h.1, rfl⟩

theorem headerFieldByte_matches {parser' : HttpParser} (h : Matches parser parser') (ch : Byte) :
    Matches (Execution.headerFieldByte parser ch) (Execution.headerFieldByte parser' ch) := by
  unfold Execution.headerFieldByte
  rw [h.1]
  cases state : parser.headerState with
  | c | co | con => exact ⟨rfl, by simp only [h.2]⟩
  | matchingConnection | matchingProxyConnection | matchingContentLength
  | matchingTransferEncoding | matchingUpgrade => exact matchText_matches h _ _ _ _
  | contentLength | transferEncoding | upgrade | connection =>
    dsimp only
    split_ifs
    · exact ⟨rfl, h.2⟩
    · exact h
  | _ => exact h

theorem foldl_headerFieldByte {parser' : HttpParser} (h : Matches parser parser') (name : Bytes) :
    name.foldl Execution.headerFieldByte parser' = { parser' with
      headerState := (name.foldl Execution.headerFieldByte parser).headerState
      index := (name.foldl Execution.headerFieldByte parser).index } := by
  induction name generalizing parser parser' with
  | nil =>
    rw [List.foldl_nil, List.foldl_nil, ← h.1, ← h.2]
  | cons c name ih =>
    rw [List.foldl_cons, List.foldl_cons, ih (headerFieldByte_matches h c)]
    rw [headerFieldByte_frame parser' c]

/-- Reading a name changes the header state and the index, to what the name makes of them. -/
theorem readName_eq (parser : HttpParser) (nonempty : name ≠ []) :
    readName parser name = { parser with
      headerState := (readName {} name).headerState, index := (readName {} name).index } := by
  cases name with
  | nil => exact absurd rfl nonempty
  | cons c name =>
    have start : Matches { index := 0, headerState := Execution.headerStateOfLetter (token c) }
        { parser with index := 0, headerState := Execution.headerStateOfLetter (token c) } :=
      ⟨rfl, rfl⟩
    rw [readName, foldl_headerFieldByte start]
    rfl

/-- A name is read like the same name in small letters. -/
theorem readName_lowered (parser : HttpParser) (valid : IsToken name) :
    readName parser name = readName parser (lowered name) := by
  have twice : ∀ c, token (token c) = token c :=
    forall_byte (P := fun c => token (token c) = token c) (by decide +kernel)
  have byte : ∀ (parser : HttpParser) (c : Byte), token c ≠ 0 →
      Execution.headerFieldByte parser c = Execution.headerFieldByte parser (token c) := by
    intro parser c valid
    have blank : token (ascii ' ') = 0 := by decide
    have plain : c ≠ ascii ' ' := fun same => valid (same ▸ blank)
    have plain' : token c ≠ ascii ' ' := fun same => valid ((twice c).symm.trans (same ▸ blank))
    unfold Execution.headerFieldByte
    rw [twice c]
    simp only [plain, plain', ne_eq, not_false_eq_true, if_true]
  have all : ∀ (name : Bytes) (parser : HttpParser), IsToken name →
      name.foldl Execution.headerFieldByte parser =
        (lowered name).foldl Execution.headerFieldByte parser := by
    intro name
    induction name with
    | nil => exact fun _ _ => rfl
    | cons c name ih =>
      intro parser valid
      rw [IsToken, List.forall_mem_cons] at valid
      rw [List.foldl_cons, byte parser c valid.1]
      exact ih _ valid.2
  cases name with
  | nil => rfl
  | cons c name =>
    rw [IsToken, List.forall_mem_cons] at valid
    show name.foldl _ _ = (lowered name).foldl _ _
    rw [twice c]
    exact all name _ valid.2

/-- The header state at the end of a name says whether it is that of a content length. -/
theorem readName_contentLength_iff (nonempty : name ≠ []) (valid : IsToken name) :
    (readName parser name).headerState = .contentLength ↔ SameName name contentLengthField := by
  have known : lowered contentLengthField = bytes "content-length" := by decide
  rw [sameName_iff_lowered valid (by decide +kernel), known]
  constructor
  · intro state
    have spells := @readName_spells parser name nonempty valid
    rw [state] at spells
    exact spells.symm
  · intro same
    rw [readName_lowered parser valid, ← same, readName_eq parser (by decide)]
    show (readName {} (bytes "content-length")).headerState = _
    decide

/-- Nor is it that of a transfer coding or of an upgrade for any other field than these. -/
theorem readName_other (nonempty : name ≠ []) (valid : IsToken name) :
    ((readName parser name).headerState = .transferEncoding →
      SameName name (bytes "Transfer-Encoding")) ∧
    ((readName parser name).headerState = .upgrade → SameName name (bytes "Upgrade")) := by
  have spells := @readName_spells parser name nonempty valid
  rw [sameName_iff_lowered valid (by decide +kernel),
    sameName_iff_lowered valid (by decide +kernel)]
  constructor
  · intro state
    rw [state] at spells
    rw [show lowered name = bytes "transfer-encoding" from spells]
    decide
  · intro state
    rw [state] at spells
    rw [show lowered name = bytes "upgrade" from spells]
    decide

end Names

end Viking.Http
