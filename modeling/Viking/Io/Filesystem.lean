/-
# The file system

The program asks the file system by path, one call at a time, and every call may end in
another way than the one before it. The functions are those of the standard library that
`src/` calls, in their throwing form, and `read_file`.

A path goes to the kernel as a C string: what comes behind a zero byte is not seen.
-/

import Mathlib.Data.List.TakeWhile
import Viking.Io.Buffers
import Viking.Lib.Asking

namespace Viking.Io

/-- The `fs::file_type` of a file that is there. -/
inductive FileType
  | regular
  | directory
  | other
  deriving DecidableEq, Repr

/-- What there is at a path. -/
inductive FileStatus
  | found (type : FileType)
  /-- `ENOENT` or `ENOTDIR` -/
  | notFound
  /-- any other `errno` -/
  | failed
  deriving DecidableEq, Repr

/-- What iterating over a directory yields, up to its end or to an error. -/
structure Listing where
  names : List Bytes
  nonempty : ∀ name ∈ names, name ≠ []
  complete : Bool

/-- A call with the path that the kernel gets. -/
inductive Call
  | status (path : Bytes)
  | fileSize (path : Bytes)
  | lastWriteTime (path : Bytes)
  | read (path : Bytes)
  | openFile (path : Bytes)
  | stat (path : Bytes)
  | list (path : Bytes)
  deriving DecidableEq, Repr

namespace Call

def path : Call → Bytes
  | status path | fileSize path | lastWriteTime path | read path | openFile path | stat path
  | list path => path

/-- What a call ends with; `none` is an error. Sizes are values of `off_t`. -/
def Answer : Call → Type
  | status _ => FileStatus
  | fileSize _ => Option Nat
  | lastWriteTime _ => Option Nat
  | read _ => Option Bytes
  | openFile _ => Option Fd
  | stat _ => Option { size : Nat // size < 2 ^ 63 }
  | list _ => Listing

end Call

/-- `c_str()`, as the kernel reads it. -/
def cString (path : Bytes) : Bytes := path.takeWhile (· ≠ 0)

theorem cString_eq_self_iff {path : Bytes} : cString path = path ↔ 0 ∉ path := by
  rw [cString, List.takeWhile_eq_self_iff]
  constructor
  · intro all mem
    simpa using all 0 mem
  · intro none c mem
    have other : c ≠ 0 := fun zero => none (zero ▸ mem)
    simpa using other

section Calls

variable {σ : Type} (path : Bytes)

/-- The `fs::status` that the functions below build on; `none` is `file_type::not_found`. -/
def fsStatus : Asking Call.Answer σ Fault (Option FileType) := do
  let status : FileStatus ← Asking.ask (Call.status (cString path))
  match status with
  | .found type => return some type
  | .notFound => return none
  | .failed => Asking.fail (.thrown .filesystemError)

/-- `fs::exists` -/
def fsExists : Asking Call.Answer σ Fault Bool := do
  return (← fsStatus path).isSome

/-- `fs::is_directory` -/
def fsIsDirectory : Asking Call.Answer σ Fault Bool := do
  return (← fsStatus path) = some .directory

/-- `fs::is_regular_file` -/
def fsIsRegularFile : Asking Call.Answer σ Fault Bool := do
  return (← fsStatus path) = some .regular

/-- `fs::file_size` -/
def fsFileSize : Asking Call.Answer σ Fault Nat := do
  let size : Option Nat ← Asking.ask (Call.fileSize (cString path))
  match size with
  | some size => return size
  | none => Asking.fail (.thrown .filesystemError)

/-- `fs::last_write_time` -/
def fsLastWriteTime : Asking Call.Answer σ Fault Nat := do
  let time : Option Nat ← Asking.ask (Call.lastWriteTime (cString path))
  match time with
  | some time => return time
  | none => Asking.fail (.thrown .filesystemError)

/-- `io::read_file`. A file that cannot be opened reads as empty; the iterators do not
handle an error that comes later. -/
def readFile : Asking Call.Answer σ Fault Bytes := do
  let content : Option Bytes ← Asking.ask (Call.read (cString path))
  match content with
  | some content => return content
  | none => Asking.fail (.thrown .streamError)

end Calls

/-- Surroundings in which `stat` says the same of every path and nothing can be read. -/
def unreadable (status : FileStatus) : World Call.Answer := fun _ call =>
  match call with
  | .status _ => status
  | .fileSize _ | .lastWriteTime _ => (none : Option Nat)
  | .read _ => (none : Option Bytes)
  | .openFile _ => (none : Option Fd)
  | .stat _ => (none : Option { size : Nat // size < 2 ^ 63 })
  | .list _ => (⟨[], by simp, false⟩ : Listing)

/-- Surroundings in which every path is that of one file. -/
def oneFile (fd : Fd) (content : Bytes) (bound : content.length < 2 ^ 63) : World Call.Answer :=
  fun _ question =>
    match question with
    | .status _ => FileStatus.found .regular
    | .fileSize _ => (some content.length : Option Nat)
    | .lastWriteTime _ => (some 0 : Option Nat)
    | .read _ => (some content : Option Bytes)
    | .openFile _ => (some fd : Option Fd)
    | .stat _ => (some ⟨content.length, bound⟩ : Option { size : Nat // size < 2 ^ 63 })
    | .list _ => (⟨[], fun _ mem => absurd mem List.not_mem_nil, true⟩ : Listing)

/-! ## What a call may end in -/

/-- An exception, which a handler can stop. -/
def Thrown (fault : Fault) : Prop := ∃ exception, fault = .thrown exception

/-- Calls on a path. -/
def OnPath (path : Bytes) (call : Call) : Prop := call.path = cString path

section Rules

open Asking

variable {σ α : Type} {path : Bytes}

/-- A call, and what is done with its answer. -/
theorem meets_answer {call : Call} {f : call.Answer → Asking Call.Answer σ Fault α}
    {Q : α → Prop} {E : Fault → Prop} (h : call.path = cString path)
    (all : ∀ answer, Meets (OnPath path) Q E (f answer)) :
    Meets (OnPath path) Q E (ask call >>= f) := by
  have asked : Meets (OnPath path) (fun _ => True) E
      (ask call : Asking Call.Answer σ Fault (Call.Answer call)) := .ask h fun _ => trivial
  exact asked.bind fun answer _ => all answer

theorem meets_fsStatus :
    Meets (OnPath path) (fun _ => True) Thrown (fsStatus path : Asking Call.Answer σ Fault _) := by
  apply meets_answer
  · rfl
  · intro status
    cases status with
    | found type => exact .pure trivial
    | notFound => exact .pure trivial
    | failed => exact .fail ⟨_, rfl⟩

/-- The three questions about what there is at a path. -/
theorem meets_fsTest (test : Option FileType → Bool) :
    Meets (OnPath path) (fun _ => True) Thrown
      (do return test (← fsStatus path) : Asking Call.Answer σ Fault Bool) :=
  meets_fsStatus.bind fun _ _ => .pure trivial

theorem meets_fsFileSize :
    Meets (OnPath path) (fun _ => True) Thrown
      (fsFileSize path : Asking Call.Answer σ Fault _) := by
  apply meets_answer
  · rfl
  · intro size
    cases size with
    | none => exact .fail ⟨_, rfl⟩
    | some size => exact .pure trivial

theorem meets_fsLastWriteTime :
    Meets (OnPath path) (fun _ => True) Thrown
      (fsLastWriteTime path : Asking Call.Answer σ Fault _) := by
  apply meets_answer
  · rfl
  · intro time
    cases time with
    | none => exact .fail ⟨_, rfl⟩
    | some time => exact .pure trivial

theorem meets_readFile :
    Meets (OnPath path) (fun _ => True) Thrown (readFile path : Asking Call.Answer σ Fault _) := by
  apply meets_answer
  · rfl
  · intro content
    cases content with
    | none => exact .fail ⟨_, rfl⟩
    | some content => exact .pure trivial

end Rules

end Viking.Io
