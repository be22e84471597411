/-
# The caches

`resource_cache` keeps files that were read into memory, and `file_descriptor` the open
descriptors with a count of their users. Both are maps from paths whose hash is that of the
string, so two paths are one key only when they are the same string.
-/

import Viking.Http.Response
import Viking.Io.Filesystem

namespace Viking.Cache

open Io Http

/-- `handle_use_count`, with its key -/
structure HandleUseCount where
  path : Bytes
  useCount : Nat
  handle : Fd
  deriving DecidableEq, Repr

/-- The two maps. -/
structure Caches where
  resources : List (Bytes × Resource)
  descriptors : List HandleUseCount

namespace Caches

def empty : Caches := ⟨[], []⟩

def findResource (caches : Caches) (path : Bytes) : Option Resource :=
  (caches.resources.find? fun entry => entry.1 = path).map Prod.snd

def eraseResource (path : Bytes) (caches : Caches) : Caches :=
  { caches with resources := caches.resources.filter fun entry => entry.1 ≠ path }

/-- `storage[p] = resource` leaves a key that is there as it is. -/
def putResource (path : Bytes) (resource : Resource) (caches : Caches) : Caches :=
  { caches with
    resources :=
      if (caches.findResource path).isSome then
        caches.resources.map fun entry =>
          if entry.1 = path then (entry.1, resource) else entry
      else caches.resources ++ [(path, resource)] }

def findDescriptor (caches : Caches) (path : Bytes) : Option HandleUseCount :=
  caches.descriptors.find? fun d => d.path = path

def useDescriptor (path : Bytes) (caches : Caches) : Caches :=
  { caches with
    descriptors := caches.descriptors.map fun d =>
      if d.path = path then { d with useCount := d.useCount + 1 } else d }

/-- `--use_count` of the entry at a path, which is not 0 before. -/
def unuseDescriptor (path : Bytes) (caches : Caches) : Caches :=
  { caches with
    descriptors := caches.descriptors.map fun d =>
      if d.path = path then { d with useCount := d.useCount - 1 } else d }

/-- `storage.erase(it->first)` -/
def eraseDescriptor (path : Bytes) (caches : Caches) : Caches :=
  { caches with descriptors := caches.descriptors.filter fun d => d.path ≠ path }

section Lookups

variable {caches : Caches} {path path' : Bytes} {resource : Resource}

theorem findResource_eraseResource (caches : Caches) (path path' : Bytes) :
    (caches.eraseResource path').findResource path =
      if path = path' then none else caches.findResource path := by
  simp only [findResource, eraseResource, List.find?_filter]
  split_ifs with here
  · subst here
    rw [List.find?_eq_none.mpr (by simp), Option.map_none]
  · congr 2
    funext entry
    by_cases place : entry.1 = path
    · simp [place, here]
    · simp [place]

/-- What is put under a path is found there, and nowhere else. -/
theorem findResource_putResource (caches : Caches) (path path' : Bytes) (resource : Resource) :
    (caches.putResource path' resource).findResource path =
      if path = path' then some resource else caches.findResource path := by
  have keys : ((fun entry : Bytes × Resource => decide (entry.1 = path)) ∘
      fun entry => if entry.1 = path' then (entry.1, resource) else entry) =
        fun entry => decide (entry.1 = path) := by
    funext entry
    simp only [Function.comp_apply]
    split_ifs <;> rfl
  cases there : caches.findResource path' with
  | some old =>
    have put : (caches.putResource path' resource).resources = caches.resources.map fun entry =>
        if entry.1 = path' then (entry.1, resource) else entry := by
      simp only [putResource, there, Option.isSome_some, if_true]
    simp only [findResource, put, List.find?_map, keys, Option.map_map]
    cases found : caches.resources.find? fun entry => decide (entry.1 = path) with
    | none =>
      rw [if_neg]
      · rfl
      · rintro rfl
        rw [findResource, found] at there
        cases there
    | some entry =>
      have place : entry.1 = path := by simpa using List.find?_some found
      simp only [Option.map_some, Function.comp_apply, place]
      split_ifs <;> rfl
  | none =>
    have put : (caches.putResource path' resource).resources =
        caches.resources ++ [(path', resource)] := by
      simp only [putResource, there, Option.isSome_none, Bool.false_eq_true, if_false]
    simp only [findResource, put, List.find?_append]
    split_ifs with here
    · subst here
      rw [findResource, Option.map_eq_none_iff] at there
      rw [there, Option.none_or, List.find?_cons_of_pos (by simp)]
      rfl
    · rw [List.find?_cons_of_neg (by simpa using Ne.symm here), List.find?_nil, Option.or_none]

/-- A change of the entries that leaves their paths. -/
theorem findDescriptor_map {f : HandleUseCount → HandleUseCount} (paths : ∀ d, (f d).path = d.path)
    (caches : Caches) (path : Bytes) :
    findDescriptor { caches with descriptors := caches.descriptors.map f } path =
      (caches.findDescriptor path).map f := by
  have same : ((fun d : HandleUseCount => decide (d.path = path)) ∘ f) =
      fun d => decide (d.path = path) := by
    funext d
    rw [Function.comp_apply, paths]
  rw [findDescriptor, List.find?_map, same, findDescriptor]

theorem findDescriptor_eraseDescriptor (caches : Caches) (path path' : Bytes) :
    (caches.eraseDescriptor path').findDescriptor path =
      if path = path' then none else caches.findDescriptor path := by
  simp only [findDescriptor, eraseDescriptor, List.find?_filter]
  split_ifs with here
  · subst here
    exact List.find?_eq_none.mpr (by simp)
  · congr 1
    funext d
    by_cases place : d.path = path
    · simp [place, here]
    · simp [place]

/-- An entry that is added behind the others. -/
theorem findDescriptor_append (caches : Caches) (d : HandleUseCount) (path : Bytes) :
    findDescriptor { caches with descriptors := caches.descriptors ++ [d] } path =
      (caches.findDescriptor path).or (if d.path = path then some d else none) := by
  rw [findDescriptor, List.find?_append, findDescriptor, List.find?_singleton]
  simp only [decide_eq_true_eq]

end Lookups

end Caches

/-- What the dispatcher does while it serves a request. -/
abbrev Serving (α : Type) : Type := Asking Call.Answer Caches Fault α

/-- `resource(path)` -/
def resource (path : Bytes) : Serving Resource := do
  let lastWrite ← fsLastWriteTime path
  let raw ← readFile path
  return { Resource.empty with path := path, lastWrite := lastWrite, raw := raw }

namespace ResourceCache

/-- `storage[p] = resource{p}` -/
def load (path : Bytes) : Serving Resource := do
  let resource ← resource path
  Asking.modifyStore (Caches.putResource path resource)
  return resource

/-- `resource_cache::aquire` -/
def aquire (path : Bytes) : Serving Resource := do
  let r := (← Asking.getStore).findResource path
  -- asked first, whether or not the cache holds the path
  let there ← fsExists path
  match r with
  | some resource =>
    if !there then
      -- a file that is gone gives an empty resource, which counts as none
      Asking.modifyStore (Caches.eraseResource path)
      return .empty
    else if resource.lastWrite < (← fsLastWriteTime path) then load path
    else return resource
  | none => load path

end ResourceCache

namespace FileDescriptor

/-- `file_descriptor::aquire`; `none` is `-1`. -/
def aquire (path : Bytes) : Serving (Option Fd) := do
  match (← Asking.getStore).findDescriptor path with
  | some d =>
    -- a descriptor that is open is shared, even if the path names another file by now
    Asking.modifyStore (Caches.useDescriptor path)
    return some d.handle
  | none =>
    let fd : Option Fd ← Asking.ask (Call.openFile (cString path))
    match fd with
    | some fd =>
      Asking.modifyStore fun caches =>
        { caches with descriptors := caches.descriptors ++ [⟨path, 1, fd⟩] }
      return some fd
    | none => return none

/-- `file_descriptor::release`, with the descriptor that it closes. The entry is searched for
by its handle and erased by its path. -/
def release (fd : Fd) (caches : Caches) : Option Fd × Caches :=
  match caches.descriptors.find? fun d => d.handle = fd with
  | none => (none, caches)
  | some d =>
    let caches := caches.unuseDescriptor d.path
    if d.useCount - 1 = 0 then (some d.handle, caches.eraseDescriptor d.path) else (none, caches)

end FileDescriptor

/-- `unix_file(path, aquire, release)`. Its destructor does not run when it throws, so a
descriptor that was acquired keeps its count then. -/
def unixFile (path : Bytes) : Serving UnixFile := do
  match ← FileDescriptor.aquire path with
  | none => Asking.fail (.thrown (.unixFileError path))
  | some fd =>
    let size : Option { size : Nat // size < 2 ^ 63 } ← Asking.ask (Call.stat (cString path))
    match size with
    | some size => return .opened path fd size.1 size.2
    | none => Asking.fail (.thrown (.unixFileError path))

/-! ## What they may ask -/

section Rules

open Asking

variable {path : Bytes}

theorem meets_resource : Meets (OnPath path) (fun _ => True) Thrown (resource path) := by
  refine meets_fsLastWriteTime.bind fun _ _ => ?_
  refine meets_readFile.bind fun _ _ => ?_
  exact .pure trivial

/-- A change of the caches, and what is returned after it. -/
theorem meets_modify {α : Type} {P : Call → Prop} {Q : α → Prop} {E : Fault → Prop}
    {f : Caches → Caches} {a : α} (h : Q a) :
    Meets P Q E (do modifyStore f; return a : Serving α) := by
  have modifies : Meets P (fun _ => True) E (modifyStore f : Serving Unit) :=
    .modifyStore f trivial
  exact modifies.bind fun _ _ => .pure h

/-- A look at the caches. -/
theorem meets_look {α : Type} {P : Call → Prop} {Q : α → Prop} {E : Fault → Prop}
    {f : Caches → Serving α} (all : ∀ caches, Meets P Q E (f caches)) :
    Meets P Q E (getStore >>= f) := by
  have looks : Meets P (fun _ => True) E (getStore : Serving Caches) := .getStore fun _ => trivial
  exact looks.bind fun caches _ => all caches

theorem meets_load :
    Meets (OnPath path) (fun _ => True) Thrown (ResourceCache.load path) :=
  meets_resource.bind fun _ _ => meets_modify trivial

theorem meets_resourceCache :
    Meets (OnPath path) (fun _ => True) Thrown (ResourceCache.aquire path) := by
  apply meets_look
  intro caches
  -- Whatever the cache holds, its answer only decides which questions follow.
  refine (meets_fsTest Option.isSome).bind fun there _ => ?_
  cases caches.findResource path with
  | none => exact meets_load
  | some resource =>
    simp only
    split_ifs
    · exact meets_modify trivial
    · refine meets_fsLastWriteTime.bind fun time _ => ?_
      split_ifs
      · exact meets_load
      · exact .pure trivial

theorem meets_fileDescriptor :
    Meets (OnPath path) (fun _ => True) Thrown (FileDescriptor.aquire path) := by
  apply meets_look
  intro caches
  cases caches.findDescriptor path with
  | some d => exact meets_modify trivial
  | none =>
    apply meets_answer
    · rfl
    · intro fd
      cases fd with
      | none => exact .pure trivial
      | some fd => exact meets_modify trivial

/-- The file is the one at the path. -/
theorem meets_unixFile :
    Meets (OnPath path) (fun file => file.path = path) Thrown (unixFile path) := by
  refine meets_fileDescriptor.bind fun fd _ => ?_
  cases fd with
  | none => exact .fail ⟨_, rfl⟩
  | some fd =>
    apply meets_answer
    · rfl
    · intro size
      cases size with
      | none => exact .fail ⟨_, rfl⟩
      | some size => exact .pure rfl

end Rules

end Viking.Cache
