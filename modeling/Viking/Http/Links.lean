/-
# Links of a listing

`urlDecode_urlEncode` says that the decoder of request targets undoes the encoder of the
listing on every byte string. What is encoded is not the name of an entry but the name as
`trim_quotes` leaves it, so a link leads to its entry when that function leaves the name
alone: `links_lead_iff` says that it does for just the names that begin with no quote.
-/

import Viking.Http.Dispatcher
import Viking.Http.FieldNames
import Viking.Misc.Escapes

namespace Viking.Http

/-! ## The encoder and the decoder -/

/-- The bytes that `url_encode` keeps. -/
def isUnreserved (c : Byte) : Bool :=
  isAlnum c || c = ascii '-' || c = ascii '_' || c = ascii '.' || c = ascii '~'

/-- What `url_encode` writes for a byte that it does not keep. -/
def escapeOf (c : Byte) : Bytes := [ascii '%', hexDigit (c / 16), hexDigit (c % 16)]

/-- Letters, digits, `'-'`, `'_'`, `'.'`, `'~'` and triples of a `'%'` and two digits. -/
inductive Encoded : Bytes → Prop
  | nil : Encoded []
  | plain {c : Byte} {rest : Bytes} : isUnreserved c → Encoded rest → Encoded (c :: rest)
  | triple {a b : Byte} {rest : Bytes} :
    isHex a → isHex b → Encoded rest → Encoded (ascii '%' :: a :: b :: rest)

section Codec

variable {c : Byte} {rest value : Bytes}

theorem urlEncode_cons_plain (kept : isUnreserved c) :
    urlEncode (c :: rest) = c :: urlEncode rest := by
  rw [isUnreserved] at kept
  rw [urlEncode, List.flatMap_cons, if_pos kept]
  rfl

theorem urlEncode_cons_escape (kept : isUnreserved c = false) :
    urlEncode (c :: rest) = escapeOf c ++ urlEncode rest := by
  rw [isUnreserved] at kept
  rw [urlEncode, List.flatMap_cons, if_neg (by simp [kept])]
  rfl

theorem isHex_hexDigit (c : Byte) : isHex (hexDigit (c / 16)) ∧ isHex (hexDigit (c % 16)) :=
  forall_byte (P := fun c => isHex (hexDigit (c / 16)) ∧ isHex (hexDigit (c % 16)))
    (by decide +kernel) c

/-- The two digits that are printed for a byte denote it. -/
theorem hexByte_hexDigit (c : Byte) : hexByte (hexDigit (c / 16)) (hexDigit (c % 16)) = c :=
  forall_byte (P := fun c => hexByte (hexDigit (c / 16)) (hexDigit (c % 16)) = c)
    (by decide +kernel) c

/-- A kept byte comes first in a text that is decoded: it stays, and the rest is decoded. -/
theorem urlDecode_cons_plain (plain : c ≠ ascii '%') :
    urlDecode (c :: rest) = (c :: ·) <$> urlDecode rest := by
  rw [urlDecode.eq_def]
  simp only [if_neg plain]
  rfl

theorem urlDecode_escapeOf : urlDecode (escapeOf c ++ rest) = (c :: ·) <$> urlDecode rest := by
  obtain ⟨first, second⟩ := isHex_hexDigit c
  simp only [escapeOf, List.cons_append, List.nil_append, urlDecode, if_pos,
    hexToChar_pair first second, hexByte_hexDigit]
  rfl

theorem ne_percent_of_isUnreserved (kept : isUnreserved c) : c ≠ ascii '%' := by
  rintro rfl
  exact absurd kept (by decide)

theorem encoded_urlEncode (value : Bytes) : Encoded (urlEncode value) := by
  induction value with
  | nil => exact .nil
  | cons c rest ih =>
    cases kept : isUnreserved c with
    | true =>
      rw [urlEncode_cons_plain kept]
      exact .plain kept ih
    | false =>
      rw [urlEncode_cons_escape kept]
      exact .triple (isHex_hexDigit c).1 (isHex_hexDigit c).2 ih

/-- Of the characters of an encoded text holds what holds of the kept ones, of digits and of the
percent sign. -/
theorem Encoded.forall_mem {P : Byte → Prop} {text : Bytes} (encoded : Encoded text)
    (kept : ∀ c, isUnreserved c = true → P c) (digit : ∀ c, isHex c → P c)
    (percent : P (ascii '%')) : ∀ c ∈ text, P c := by
  induction encoded with
  | nil => exact fun c mem => absurd mem List.not_mem_nil
  | plain unreserved _ ih =>
    rw [List.forall_mem_cons]
    exact ⟨kept _ unreserved, ih⟩
  | triple first second _ ih =>
    rw [List.forall_mem_cons, List.forall_mem_cons, List.forall_mem_cons]
    exact ⟨percent, digit _ first, digit _ second, ih⟩

/-- What is encoded is decoded to itself when more text follows, which is decoded alone. -/
theorem urlDecode_urlEncode_append (value rest : Bytes) :
    urlDecode (urlEncode value ++ rest) = (value ++ ·) <$> urlDecode rest := by
  induction value with
  | nil => cases h : urlDecode rest <;> simp [urlEncode, h, Functor.map, Except.map]
  | cons c value ih =>
    have decoded : urlDecode (urlEncode (c :: value) ++ rest) =
        (c :: ·) <$> urlDecode (urlEncode value ++ rest) := by
      cases kept : isUnreserved c with
      | true =>
        rw [urlEncode_cons_plain kept, List.cons_append]
        exact urlDecode_cons_plain (ne_percent_of_isUnreserved kept)
      | false =>
        rw [urlEncode_cons_escape kept, List.append_assoc]
        exact urlDecode_escapeOf
    rw [decoded, ih]
    cases urlDecode rest <;> rfl

/-- The decoder undoes the encoder on every byte string. -/
theorem urlDecode_urlEncode (value : Bytes) : urlDecode (urlEncode value) = .ok value := by
  have decoded := urlDecode_urlEncode_append value []
  rw [List.append_nil] at decoded
  rw [decoded]
  exact congrArg Except.ok (List.append_nil value)

end Codec

/-! ## The links of a listing -/

/-- The line of an entry, from the reference in it and the text it shows. -/
def anchor (link : Bytes × Bytes) : Bytes :=
  bytes "<a href=\"" ++ link.1 ++ bytes "\">" ++ link.2 ++ bytes "</a><br/>"

/-- What a directory can hold: a name without a slash or a zero byte. -/
def IsEntryName (name : Bytes) : Prop := name ≠ [] ∧ ascii '/' ∉ name ∧ 0 ∉ name

/-- The reference is encoded text that is decoded to the name. Behind any target of the
listing that ends in a slash it makes the target of the entry. -/
def LeadsTo (name href : Bytes) : Prop :=
  Encoded href ∧ urlDecode href = .ok name ∧
    ∀ (site : Site) (req : Request) (target : Bytes),
      target.getLast? = some (ascii '/') → urlDecode target = .ok req.url →
        ∃ url, urlDecode (target ++ href) = .ok url ∧
          fullPath site { req with url := url } = fullPath site req ++ name

/-- The loop of `list_directory` gives every entry a line whose reference leads to it, and
different entries different references. -/
def LinksLead (names : List Bytes) : Prop :=
  ∃ links : List (Bytes × Bytes),
    names.mapM listingLine = .ok (links.map anchor) ∧
      List.Forall₂ LeadsTo names (links.map Prod.fst) ∧
      ∀ i j : ℕ, names[i]? ≠ names[j]? → (links.map Prod.fst)[i]? ≠ (links.map Prod.fst)[j]?

section Links

variable {name target href text rest url : Bytes}

/-- A target that ends in a slash has no escape cut short, so it is decoded on its own. -/
theorem urlDecode_append_of_slash (ends : target = [] ∨ target.getLast? = some (ascii '/'))
    (decoded : urlDecode target = .ok url) :
    urlDecode (target ++ rest) = (url ++ ·) <$> urlDecode rest := by
  induction target using urlDecode.induct generalizing url with
  | case1 =>
    cases decoded
    rw [List.nil_append]
    cases urlDecode rest <;> rfl
  | case2 => simp [show ascii '%' ≠ ascii '/' by decide] at ends
  | case3 a =>
    -- The slash itself is no digit.
    simp only [List.getLast?_cons_cons, List.getLast?_singleton, Option.some.injEq,
      reduceCtorEq, false_or] at ends
    subst ends
    have refused : urlDecode (bytes "%/") =
        .error (.thrown (.runtimeError "stream decode failure")) := by decide
    exact absurd (refused.symm.trans decoded) (by simp)
  | case4 a b target ih =>
    simp only [urlDecode, if_pos, List.cons_append] at decoded ⊢
    obtain ⟨c, hc, decoded⟩ := Machine.bind_eq_ok.mp decoded
    obtain ⟨url', hurl, same⟩ := Machine.bind_eq_ok.mp decoded
    simp only [pure, Except.pure, Except.ok.injEq] at same
    subst same
    have ends' : target = [] ∨ target.getLast? = some (ascii '/') := by
      cases target with
      | nil => exact .inl rfl
      | cons d target => exact .inr (by simpa [List.getLast?_cons_cons] using ends)
    rw [hc, ih ends' hurl]
    cases urlDecode rest <;> rfl
  | case5 c target other ih =>
    rw [urlDecode_cons_plain other] at decoded
    rw [List.cons_append, urlDecode_cons_plain other]
    obtain ⟨url', hurl⟩ := map_isOk.mp ⟨url, decoded⟩
    rw [hurl] at decoded
    cases decoded
    have ends' : target = [] ∨ target.getLast? = some (ascii '/') := by
      cases target with
      | nil => exact .inl rfl
      | cons d target => exact .inr (by simpa [List.getLast?_cons_cons] using ends)
    rw [ih ends' hurl]
    cases urlDecode rest <;> rfl

/-- A name that `trim_quotes` leaves alone is encoded to a reference that leads to it. -/
theorem leadsTo_urlEncode (name : Bytes) : LeadsTo name (urlEncode name) := by
  have decoded := urlDecode_urlEncode_append name []
  rw [List.append_nil] at decoded
  refine ⟨encoded_urlEncode name, ?_, fun site req target ends readable => ?_⟩
  · rw [decoded]
    exact congrArg Except.ok (List.append_nil name)
  · refine ⟨req.url ++ name, ?_, ?_⟩
    · rw [urlDecode_append_of_slash (.inr ends) readable, decoded]
      exact congrArg (fun name => Except.ok (req.url ++ name)) (List.append_nil name)
    · simp [fullPath]

/-- Only a leading quote is trimmed. -/
theorem trimQuotes_eq_self (nonempty : name ≠ []) (plain : name.head? ≠ some (ascii '"')) :
    trimQuotes name = .ok name := by
  cases name with
  | nil => exact absurd rfl nonempty
  | cons front rest =>
    have other : front ≠ ascii '"' := fun same => plain (congrArg some same)
    simp [trimQuotes, other]

theorem trimQuotes_quote {name : Bytes} (trimmed : trimQuotes (ascii '"' :: rest) = .ok name) :
    name = rest := by
  unfold trimQuotes at trimmed
  simp only [if_pos] at trimmed
  split_ifs at trimmed
  cases trimmed
  rfl

theorem listingLine_eq_ok {line : Bytes} : listingLine name = .ok line ↔
    ∃ trimmed, trimQuotes name = .ok trimmed ∧ line = anchor (urlEncode trimmed, trimmed) := by
  unfold listingLine
  cases trimQuotes name with
  | error fault => simp [bind, Except.bind]
  | ok trimmed =>
    simp only [bind, Except.bind, pure, Except.pure, Except.ok.injEq, exists_eq_left', anchor]
    exact eq_comm

/-- No encoded text holds the quote that ends a reference. -/
theorem quote_notMem_of_encoded (encoded : Encoded href) : ascii '"' ∉ href := by
  have other : ∀ c ∈ href, c ≠ ascii '"' := by
    refine encoded.forall_mem ?_ ?_ (by decide)
    · rintro c kept rfl
      exact absurd kept (by decide)
    · rintro c hex rfl
      exact absurd hex (by decide)
  exact fun mem => other _ mem rfl

/-- The reference of a line can be told from the line. -/
theorem anchor_injective {href' text' : Bytes} (encoded : Encoded href)
    (encoded' : Encoded href') (same : anchor (href, text) = anchor (href', text')) :
    href = href' := by
  have upTo {href : Bytes} (text : Bytes) (encoded : Encoded href) :
      ((anchor (href, text)).drop 9).takeWhile (· ≠ ascii '"') = href := by
    have plain : ∀ c ∈ href, decide (c ≠ ascii '"') = true := by
      intro c mem
      rw [decide_eq_true_eq]
      rintro rfl
      exact quote_notMem_of_encoded encoded mem
    have start : bytes "<a href=\"" = [60, 97, 32, 104, 114, 101, 102, 61, 34] := by decide
    have stop : bytes "\">" = [ascii '"', 62] := by decide
    rw [anchor, start, stop]
    simp only [List.append_assoc, List.cons_append, List.nil_append, List.drop_succ_cons,
      List.drop_zero]
    rw [List.takeWhile_append_of_pos plain, List.takeWhile_cons_of_neg (by simp),
      List.append_nil]
  rw [← upTo text encoded, same, upTo text' encoded']

/-- The line of an entry leads to it iff the name begins with no quote: that quote is
trimmed, and the name without it is another name. -/
theorem line_leads_iff (entry : IsEntryName name) :
    (∃ link : Bytes × Bytes, listingLine name = .ok (anchor link) ∧ LeadsTo name link.1) ↔
      name.head? ≠ some (ascii '"') := by
  constructor
  · rintro ⟨⟨href, text⟩, line, encoded, decoded, -⟩ quote
    obtain ⟨trimmed, trims, same⟩ := listingLine_eq_ok.mp line
    cases name with
    | nil => cases quote
    | cons front rest =>
      cases quote
      rw [trimQuotes_quote trims] at same
      rw [anchor_injective encoded (encoded_urlEncode rest) same] at decoded
      have shorter := (leadsTo_urlEncode rest).2.1
      rw [decoded, Except.ok.injEq] at shorter
      exact List.cons_ne_self _ _ shorter
  · intro plain
    have trims := trimQuotes_eq_self entry.1 plain
    exact ⟨(urlEncode name, name), listingLine_eq_ok.mpr ⟨name, trims, rfl⟩,
      leadsTo_urlEncode name⟩

/-- Each entry of a directory has a line that leads to it, and different entries have
different references, iff no name begins with a quote. -/
theorem links_lead_iff {names : List Bytes} (entries : ∀ name ∈ names, IsEntryName name) :
    LinksLead names ↔ ∀ name ∈ names, name.head? ≠ some (ascii '"') := by
  constructor
  · rintro ⟨links, lines, leads, -⟩ name mem
    have each := Machine.mapM_eq_ok.mp lines
    rw [List.forall₂_map_right_iff] at each leads
    obtain ⟨i, inside, rfl⟩ := List.getElem_of_mem mem
    have bound : i < links.length := leads.length_eq ▸ inside
    exact (line_leads_iff (entries _ mem)).mp
      ⟨links[i], each.get inside bound, leads.get inside bound⟩
  · intro plain
    let link (name : Bytes) : Bytes × Bytes := (urlEncode name, name)
    refine ⟨names.map link, ?_, ?_, fun i j different same => different ?_⟩
    · rw [Machine.mapM_eq_ok, List.map_map, List.forall₂_map_right_iff, List.forall₂_same]
      intro name mem
      have kept := trimQuotes_eq_self (entries name mem).1 (plain name mem)
      exact listingLine_eq_ok.mpr ⟨name, kept, rfl⟩
    · rw [List.map_map, List.forall₂_map_right_iff, List.forall₂_same]
      exact fun name _ => leadsTo_urlEncode name
    -- A reference is decoded to its name, so names with the same reference are the same.
    · rw [List.map_map, List.getElem?_map, List.getElem?_map] at same
      have names_eq := congrArg (Option.map urlDecode) same
      simp only [Option.map_map] at names_eq
      have decodes : (urlDecode ∘ Prod.fst ∘ link) = Except.ok :=
        funext fun name => (leadsTo_urlEncode name).2.1
      exact Option.map_injective (fun _ _ => Except.ok.inj) (decodes ▸ names_eq)

/-- A directory with an entry whose name has a blank and one whose name has a percent sign. -/
theorem links_lead_example : LinksLead [bytes "a b", bytes "50%\""] :=
  (links_lead_iff (by unfold IsEntryName; decide)).mpr (by decide)

/-- The entry `"a` has a link to `a`. -/
theorem links_mislead : ¬ LinksLead [bytes "\"a"] := by
  rintro ⟨links, lines, leads, -⟩
  rw [List.forall₂_cons_left_iff] at leads
  obtain ⟨href, rest, ⟨encoded, decoded, -⟩, -, same⟩ := leads
  have line := Machine.mapM_eq_ok.mp lines
  rw [List.forall₂_map_right_iff, List.forall₂_cons_left_iff] at line
  obtain ⟨⟨href', text⟩, rest', line, -, rfl⟩ := line
  cases same
  have emitted : listingLine (bytes "\"a") = .ok (anchor (bytes "a", bytes "a")) := by decide
  rw [emitted, Except.ok.injEq] at line
  have encoded' : Encoded (bytes "a") := .plain (by decide) .nil
  rw [← anchor_injective encoded' encoded line] at decoded
  exact absurd decoded (by decide)

end Links

end Viking.Http
