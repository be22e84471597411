/-
# Extensions of file names

`get_extension` takes what follows the last dot of a path, unless a slash comes later. A name
that begins with its only dot has no extension, but the test for that compares the place of
the dot with the start of the path, not with the start of the name: `of_name_iff` says for
which names the directory in front of them does not matter.
-/

import Viking.Http.Response
import Viking.Lib.Delimited

namespace Viking.Http

/-! ## The last occurrence of a byte -/

section Last

variable {c : Byte} {text ext : Bytes}

theorem afterLast_eq_none_iff : afterLast c text = none ↔ c ∉ text := by
  induction text with
  | nil => exact iff_of_true rfl List.not_mem_nil
  | cons b rest ih =>
    rw [afterLast, List.mem_cons, not_or, ← ih]
    cases afterLast c rest with
    | none => simp [eq_comm]
    | some found => simp

theorem afterLast_append (plain : c ∉ ext) (stem : Bytes) :
    afterLast c (stem ++ c :: ext) = some ext := by
  induction stem with
  | nil =>
    rw [List.nil_append, afterLast, afterLast_eq_none_iff.mpr plain]
    exact if_pos rfl
  | cons b stem ih => rw [List.cons_append, afterLast, ih]

/-- A text with the byte in it is cut at its last occurrence. -/
theorem exists_cut (mem : c ∈ text) : ∃ stem ext, text = stem ++ c :: ext ∧ c ∉ ext := by
  induction text with
  | nil => cases mem
  | cons b rest ih =>
    by_cases later : c ∈ rest
    · obtain ⟨stem, ext, rfl, plain⟩ := ih later
      exact ⟨b :: stem, ext, rfl, plain⟩
    · obtain rfl := (List.mem_cons.mp mem).resolve_right later
      exact ⟨[], rest, rfl, later⟩

end Last

/-! ## Names -/

/-- The extension of a file name: the text after its last dot, if it has a dot that is not its
first byte. -/
def nameExtension (name : Bytes) : Bytes :=
  if ascii '.' ∈ name.tail then name.rtakeWhile (· ≠ ascii '.') else []

/-- What `get_extension` says of a path is what it says of the name alone, which is the extension
of the name. -/
def OfName (dir name : Bytes) : Prop :=
  getExtension (dir ++ ascii '/' :: name) = getExtension name ∧
    getExtension name = nameExtension name

section Names

variable {dir name stem ext : Bytes}

/-- A path whose last dot is behind its last slash. -/
theorem getExtension_dotted (plain : ascii '.' ∉ ext) (inside : ascii '/' ∉ ext)
    (later : stem ≠ []) : getExtension (stem ++ ascii '.' :: ext) = ext := by
  have length : ext.length + 1 ≠ (stem ++ ascii '.' :: ext).length := by
    have := List.length_pos_iff.mpr later
    simp only [List.length_append, List.length_cons]
    omega
  simp only [getExtension, afterLast_append plain, if_neg length, if_neg inside]

/-- A path without a dot behind its last slash. -/
theorem getExtension_undotted (plain : ascii '.' ∉ name) (dir : Bytes) :
    getExtension (dir ++ ascii '/' :: name) = [] := by
  by_cases mem : ascii '.' ∈ dir
  · obtain ⟨stem, ext, rfl, undotted⟩ := exists_cut mem
    have last : ascii '.' ∉ ext ++ ascii '/' :: name := by
      simp only [List.mem_append, List.mem_cons, undotted, plain, or_false, false_or]
      decide
    have inside : ascii '/' ∈ ext ++ ascii '/' :: name := by simp
    rw [List.append_assoc, List.cons_append]
    simp only [getExtension, afterLast_append last, if_pos inside, ite_self]
  · have none : afterLast (ascii '.') (dir ++ ascii '/' :: name) = none := by
      rw [afterLast_eq_none_iff]
      simp only [List.mem_append, List.mem_cons, mem, plain, or_false, false_or]
      decide
    simp only [getExtension, none]

/-- Of a name alone the extension is right. -/
theorem getExtension_name (plain : ascii '/' ∉ name) : getExtension name = nameExtension name := by
  by_cases mem : ascii '.' ∈ name
  · obtain ⟨stem, ext, rfl, undotted⟩ := exists_cut mem
    have inside : ascii '/' ∉ ext := fun mem => plain (by simp [mem])
    cases stem with
    | nil =>
      have last : afterLast (ascii '.') (ascii '.' :: ext) = some ext :=
        afterLast_append undotted []
      simp [getExtension, nameExtension, last, undotted]
    | cons b stem =>
      have dotted : ascii '.' ∈ ((b :: stem) ++ ascii '.' :: ext).tail := by simp
      rw [getExtension_dotted undotted inside (by simp), nameExtension, if_pos dotted,
        Delimited.rtakeWhile_append undotted]
  · have tail : ascii '.' ∉ name.tail := fun later => mem (List.mem_of_mem_tail later)
    simp only [getExtension, afterLast_eq_none_iff.mpr mem, nameExtension, if_neg tail]

/-- Behind a directory a dot at the start of the name counts as any other. -/
theorem getExtension_join (plain : ascii '/' ∉ name) (mem : ascii '.' ∈ name) (dir : Bytes) :
    getExtension (dir ++ ascii '/' :: name) = name.rtakeWhile (· ≠ ascii '.') := by
  obtain ⟨stem, ext, rfl, undotted⟩ := exists_cut mem
  have inside : ascii '/' ∉ ext := fun mem => plain (by simp [mem])
  rw [Delimited.rtakeWhile_append undotted, ← List.cons_append, ← List.append_assoc,
    getExtension_dotted undotted inside (by simp)]

/-- The extension of a path is that of its name iff the name does not begin with its only dot, or
is nothing but a dot. -/
theorem of_name_iff (nonempty : name ≠ []) (plain : ascii '/' ∉ name) :
    OfName dir name ↔
      (name.head? = some (ascii '.') → ascii '.' ∈ name.tail ∨ name = bytes ".") := by
  rw [OfName, and_iff_left (getExtension_name plain), getExtension_name plain, nameExtension]
  obtain ⟨b, rest, rfl⟩ := List.exists_cons_of_ne_nil nonempty
  rw [List.tail_cons, List.head?_cons, Option.some.injEq]
  by_cases dotted : ascii '.' ∈ rest
  · rw [getExtension_join plain (List.mem_cons_of_mem b dotted), if_pos dotted]
    simp [dotted]
  · rw [if_neg dotted]
    by_cases first : b = ascii '.'
    · subst first
      -- the whole rest of the name is taken for its extension
      rw [getExtension_join plain List.mem_cons_self, ← List.nil_append (ascii '.' :: rest),
        Delimited.rtakeWhile_append dotted]
      simp [dotted, bytes]
    · have none : ascii '.' ∉ b :: rest := by simp [Ne.symm first, dotted]
      rw [getExtension_undotted none]
      simp [first]

/-- A name with two dots. -/
theorem of_name_archive : OfName (bytes "/srv/www.d") (bytes "notes.tar.gz") :=
  (of_name_iff (by decide) (by decide)).mpr (by decide)

/-- A hidden file has no extension by its name, and one by its path. -/
theorem hidden_extended :
    ¬ ∀ dir name : Bytes, name ≠ [] → ascii '/' ∉ name → OfName dir name := by
  intro all
  have same := (all (bytes "/home/a") (bytes ".profile") (by decide) (by decide)).1
  exact absurd same (by decide)

end Names

end Viking.Http
