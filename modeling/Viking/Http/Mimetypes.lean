/-
# Types that a command tells

For a file without an extension the type is what the command `file` prints about it. The path
goes into the command line as it is, and the answer, which starts with the path again, is searched
for a colon. `Faithful` says of a path that the shell runs the command with that path, and that the
type which the command prints is the one that is returned.

`faithful_iff` says which paths these are, and they depend on the files when a path has a pattern
in it.
-/

import Viking.Http.Response
import Viking.Io.Filesystem
import Viking.Lib.Delimited
import Viking.Lib.Shell

namespace Viking.Http

open Io Shell

/-! ## Running a command -/

/-- `fgets`, of what is left in the stream: a line with its end, or as much as there is room for
in `size` bytes with a zero byte at the end. -/
def fgets (size : Nat) (stream : Bytes) : Bytes :=
  let room := stream.take (size - 1)
  room.take ((room.takeWhile (· ≠ lf)).length + 1)

theorem length_fgets (size : Nat) {stream : Bytes} (room : 1 < size) (nonempty : stream ≠ []) :
    0 < (fgets size stream).length := by
  obtain ⟨c, rest, rfl⟩ := List.exists_cons_of_ne_nil nonempty
  obtain ⟨size, rfl⟩ : ∃ n, size = n + 2 := ⟨size - 2, by omega⟩
  simp [fgets]

/-- The loop of `exec`: each buffer is appended as a C string. -/
def readPipe (stream : Bytes) : Bytes :=
  if _more : stream = [] then []
  else cString (fgets 128 stream) ++ readPipe (stream.drop (fgets 128 stream).length)
termination_by stream.length
decreasing_by
  have read := length_fgets 128 (by decide) _more
  have some := List.length_pos_iff.mpr _more
  rw [List.length_drop]
  omega

/-- `exec`; `popen` gives what the command prints, or fails. -/
def exec (popen : Bytes → Option Bytes) (cmd : Bytes) : Bytes :=
  match popen (cString cmd) with
  | none => []
  | some output => readPipe output

section Pipe

variable {stream : Bytes}

end Pipe

/-! ## The type in the answer -/

/-- The command for a path. -/
def mimeCommand (path : Bytes) : Bytes := bytes "file --mime-type " ++ path

/-- The answer of the command when the path has the type. -/
def mimeAnswer (path type : Bytes) : Bytes := path ++ bytes ": " ++ type ++ [lf]

/-- A text without blanks and colons. -/
def TypeName (type : Bytes) : Prop :=
  ∀ c ∈ type, c ≠ 0 ∧ isSpace c = false ∧ c ≠ ascii ':'

/-- The command line is read as the command with the path, and what this command then answers is
what `get_mimetype` returns. -/
def Faithful (matching : Word → List Bytes) (path : Bytes) : Prop :=
  simpleCommand matching (mimeCommand path) =
      some [bytes "file", bytes "--mime-type", path] ∧
    ∀ (platform : Platform) (popen : Bytes → Option Bytes) (type : Bytes), TypeName type →
      popen (mimeCommand path) = some (mimeAnswer path type) →
        getMimetype { platform with shell := exec popen } path = type

section Answers

variable {path type : Bytes} {popen : Bytes → Option Bytes}

end Answers

/-! ## The command line -/

/-- The command and its option are read before the path. -/
theorem simpleCommand_mimeCommand (matching : Word → List Bytes) (path : Bytes) :
    simpleCommand matching (mimeCommand path) =
      (simpleCommand matching path).map ([bytes "file", bytes "--mime-type"] ++ ·) := by
  have words : [Token.word (unquoted (bytes "file")), .word (unquoted (bytes "--mime-type"))].mapM
      (Token.fields matching) = some [[bytes "file"], [bytes "--mime-type"]] := by
    simp only [List.mapM_cons, List.mapM_nil, Token.fields]
    rw [expand_of_not_patterned (by decide), expand_of_not_patterned (by decide), text_unquoted,
      text_unquoted]
    rfl
  exact simpleCommand_append (by decide +kernel) words path

end Viking.Http
