/-
# Segments of a path

A handler takes the URL of its request apart with `split_url`, which reads it up to one slash
after the other and leaves out what is empty. Segments that were encoded one by one come out of
it as they were: `split_url_segments` says so for any number of segments with any bytes in them
but slashes.
-/

import Viking.Http.Links
import Viking.Lib.Delimited

namespace Viking

/-! ## `split` -/

/-- `std::getline`: what stands before the delimiter, and what is left behind it. It fails when
nothing is left to be read. -/
def getline (delimiter : Byte) : Bytes → Option (Bytes × Bytes)
  | [] => none
  | c :: rest =>
    some ((c :: rest).takeWhile (· ≠ delimiter), ((c :: rest).dropWhile (· ≠ delimiter)).tail)

section Getline

variable {delimiter : Byte} {source tok rest : Bytes}

theorem length_getline (read : getline delimiter source = some (tok, rest)) :
    rest.length < source.length := by
  cases source with
  | nil => cases read
  | cons c source =>
    cases read
    have shorter := List.length_dropWhile_le (fun d => decide (d ≠ delimiter)) (c :: source)
    rw [List.length_tail, List.length_cons] at *
    omega

theorem getline_of_ne_nil (nonempty : source ≠ []) :
    getline delimiter source =
      some (source.takeWhile (· ≠ delimiter), (source.dropWhile (· ≠ delimiter)).tail) := by
  obtain ⟨c, rest, rfl⟩ := List.exists_cons_of_ne_nil nonempty
  rfl

/-- A text without the delimiter, and a delimiter behind it. -/
theorem getline_append (plain : delimiter ∉ tok) :
    getline delimiter (tok ++ delimiter :: rest) = some (tok, rest) := by
  rw [getline_of_ne_nil (by simp), Delimited.takeWhile_append plain,
    Delimited.dropWhile_append plain, List.tail_cons]

/-- The last line ends where the input does. -/
theorem getline_last (plain : delimiter ∉ tok) (nonempty : tok ≠ []) :
    getline delimiter tok = some (tok, []) := by
  have other := Delimited.ne_of_plain plain
  rw [getline_of_ne_nil nonempty, List.takeWhile_eq_self_iff.mpr other,
    List.dropWhile_eq_nil_iff.mpr other, List.tail_nil]

end Getline

/-- `split` -/
def split (source : Bytes) (delimiter : Byte) : List Bytes :=
  match _read : getline delimiter source with
  | none => []
  | some (tok, rest) => if tok = [] then split rest delimiter else tok :: split rest delimiter
termination_by source.length
decreasing_by all_goals exact length_getline _read

section Split

variable {delimiter : Byte} {segment : Bytes} {segments : List Bytes}

theorem split_nil (delimiter : Byte) : split [] delimiter = [] := by
  rw [split.eq_def]
  rfl

theorem split_of_getline {source tok rest : Bytes}
    (read : getline delimiter source = some (tok, rest)) :
    split source delimiter =
      if tok = [] then split rest delimiter else tok :: split rest delimiter := by
  rw [split.eq_def]
  split
  · rename_i none
    rw [read] at none
    cases none
  · rename_i tok' rest' read'
    rw [read] at read'
    cases read'
    rfl

/-- A delimiter at the start is passed over. -/
theorem split_delimiter (rest : Bytes) :
    split (delimiter :: rest) delimiter = split rest delimiter := by
  have read : getline delimiter (delimiter :: rest) = some ([], rest) :=
    getline_append List.not_mem_nil
  rw [split_of_getline read, if_pos rfl]

/-- The first segment is read up to the delimiter of the next one, or up to the end. -/
theorem split_cons (nonempty : segment ≠ []) (plain : delimiter ∉ segment)
    (segments : List Bytes) :
    split (segment ++ segments.flatMap (delimiter :: ·)) delimiter =
      segment :: split (segments.flatMap (delimiter :: ·)) delimiter := by
  cases segments with
  | nil =>
    rw [List.flatMap_nil, List.append_nil, split_of_getline (getline_last plain nonempty),
      if_neg nonempty]
  | cons next segments =>
    rw [List.flatMap_cons, List.cons_append, split_of_getline (getline_append plain),
      if_neg nonempty, split_delimiter]

theorem split_flatMap (plain : ∀ s ∈ segments, s ≠ [] ∧ delimiter ∉ s) :
    split (segments.flatMap (delimiter :: ·)) delimiter = segments := by
  induction segments with
  | nil => exact split_nil delimiter
  | cons segment segments ih =>
    rw [List.forall_mem_cons] at plain
    rw [List.flatMap_cons, List.cons_append, split_delimiter, split_cons plain.1.1 plain.1.2,
      ih plain.2]

end Split

namespace Http

/-- `request::split_url` -/
def Request.splitUrl (r : Request) : List Bytes := split r.url (ascii '/')

/-- Each segment is encoded alone, with a slash in front of it. -/
def encodeSegments (segments : List Bytes) : Bytes :=
  segments.flatMap fun segment => ascii '/' :: urlEncode segment

/-- Each encoded segment is decoded to itself, whatever follows it. -/
theorem urlDecode_encodeSegments (segments : List Bytes) :
    urlDecode (encodeSegments segments) = .ok (segments.flatMap (ascii '/' :: ·)) := by
  induction segments with
  | nil => rfl
  | cons segment segments ih =>
    have first : encodeSegments (segment :: segments) =
        ascii '/' :: (urlEncode segment ++ encodeSegments segments) := rfl
    rw [first, urlDecode_cons_plain (by decide), urlDecode_urlEncode_append, ih]
    rfl

/-- A request for encoded segments is split into the segments. -/
theorem split_url_segments (segments : List Bytes)
    (plain : ∀ segment ∈ segments, segment ≠ [] ∧ ascii '/' ∉ segment) :
    ∃ url, urlDecode (encodeSegments segments) = .ok url ∧
      ∀ r : Request, r.url = url → r.splitUrl = segments := by
  refine ⟨_, urlDecode_encodeSegments segments, ?_⟩
  rintro r same
  rw [Request.splitUrl, same, split_flatMap plain]

/-- Segments with a blank and a percent sign in them. -/
theorem split_url_segments_two :
    ∃ url, urlDecode (encodeSegments [bytes "a b", bytes "100%"]) = .ok url ∧
      ∀ r : Request, r.url = url → r.splitUrl = [bytes "a b", bytes "100%"] :=
  split_url_segments _ (by decide)

end Http

end Viking
