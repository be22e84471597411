/-
# Fresh copies

Files change while the program runs, also between two calls that one `aquire` makes. `Timeline`
has what each path names at each instant, and the instants at which calls are made; `Tells` says
that the calls report it.

`Kept` is the invariant of the cache: a copy was read when the modification time that is kept with
it had been read. It gives that `aquire` returns only what the path had while it was called.
-/

import Mathlib.Order.Monotone.Defs
import Viking.Cache.Caches
import Viking.Lib.Versions

namespace Viking.Cache

open Io Http Asking Versions

/-- The content and the modification time of what each path names at each instant, and the instant
at which each call is made. -/
structure Timeline where
  disk : Bytes → History Bytes Nat
  instant : Nat → Nat
  advances : ∀ path, Advances (disk path)
  ordered : Monotone instant

namespace Timeline

/-- What a path names when the call with the number `n` is made. -/
def entry (line : Timeline) (path : Bytes) (n : Nat) : Option (Bytes × Nat) :=
  line.disk (cString path) (line.instant n)

/-- The content of what it names, which is empty when there is nothing. -/
def content (line : Timeline) (path : Bytes) (n : Nat) : Bytes :=
  ((line.entry path n).map Prod.fst).getD []

end Timeline

/-- The calls report what there is. Each may fail, but what can be opened is read in full. -/
structure Tells (line : Timeline) (w : World Call.Answer) : Prop where
  found : ∀ asked path type, w asked (.status path) = .found type →
    (line.disk path (line.instant asked.length)).isSome
  notFound : ∀ asked path, w asked (.status path) = .notFound →
    line.disk path (line.instant asked.length) = none
  time : ∀ asked path time, w asked (.lastWriteTime path) = some time →
    ∃ content, line.disk path (line.instant asked.length) = some (content, time)
  read : ∀ asked path content, w asked (.read path) = some content →
    content = ((line.disk path (line.instant asked.length)).map Prod.fst).getD []

/-- Surroundings that report what there is, as far as the cache asks for it. -/
def reporting (line : Timeline) : World Call.Answer := fun asked question =>
  match question with
  | .status path =>
    match line.disk path (line.instant asked.length) with
    | some _ => FileStatus.found .regular
    | none => FileStatus.notFound
  | .fileSize path =>
    ((line.disk path (line.instant asked.length)).map fun entry => entry.1.length : Option Nat)
  | .lastWriteTime path =>
    ((line.disk path (line.instant asked.length)).map Prod.snd : Option Nat)
  | .read path =>
    (some (((line.disk path (line.instant asked.length)).map Prod.fst).getD []) : Option Bytes)
  | .openFile path => unreadable .failed asked (.openFile path)
  | .stat path => unreadable .failed asked (.stat path)
  | .list path => unreadable .failed asked (.list path)

theorem tells_reporting (line : Timeline) : Tells line (reporting line) where
  found asked path type told := by
    cases there : line.disk path (line.instant asked.length) with
    | some _ => rfl
    | none =>
      simp only [reporting, there] at told
      cases told
  notFound asked path told := by
    cases there : line.disk path (line.instant asked.length) with
    | some _ =>
      simp only [reporting, there] at told
      cases told
    | none => rfl
  time asked path time told := by
    obtain ⟨⟨content, _⟩, there, rfl⟩ := Option.map_eq_some_iff.mp told
    exact ⟨content, there⟩
  read asked path content told := (Option.some.inj told).symm

/-- The content was that of the path at one of the calls from `n` on and before `m`. -/
def Seen (line : Timeline) (path : Bytes) (n m : Nat) (raw : Bytes) : Prop :=
  ∃ i, n ≤ i ∧ i < m ∧ raw = line.content path i

/-- Each copy in the cache was read after its modification time. -/
def Kept (line : Timeline) (s : Record Call Caches) : Prop :=
  ∀ path resource, s.store.findResource path = some resource →
    ∃ i j content, i ≤ j ∧ j < s.asked.length ∧
      line.entry path i = some (content, resource.lastWrite) ∧ resource.raw = line.content path j

/-! ## What the calls find -/

section Calls

variable {line : Timeline} {w : World Call.Answer} {path : Bytes} {s : Record Call Caches}

theorem ends_fsExists (tells : Tells line w) :
    Ends (fsExists path) w
      (fun there s' => s' = ⟨s.asked ++ [.status (cString path)], s.store⟩ ∧
        (there = false → line.entry path s.asked.length = none) ∧
        (there = true → (line.entry path s.asked.length).isSome))
      (fun s' => s' = ⟨s.asked ++ [.status (cString path)], s.store⟩) s := by
  rw [fsExists, ends_bind]
  apply Ends.ask
  rcases told : w s.asked (.status (cString path)) with type | _ | _
  · refine ⟨rfl, ?_, fun _ => tells.found _ _ type told⟩
    rintro ⟨⟩
  · refine ⟨rfl, fun _ => tells.notFound _ _ told, ?_⟩
    rintro ⟨⟩
  · exact rfl

theorem ends_fsLastWriteTime (tells : Tells line w) :
    Ends (fsLastWriteTime path) w
      (fun time s' => s' = ⟨s.asked ++ [.lastWriteTime (cString path)], s.store⟩ ∧
        ∃ content, line.entry path s.asked.length = some (content, time))
      (fun s' => s' = ⟨s.asked ++ [.lastWriteTime (cString path)], s.store⟩) s := by
  apply Ends.ask
  rcases told : w s.asked (.lastWriteTime (cString path)) with _ | time
  · exact rfl
  · exact ⟨rfl, tells.time _ _ time told⟩

theorem ends_readFile (tells : Tells line w) :
    Ends (readFile path) w
      (fun raw s' => s' = ⟨s.asked ++ [.read (cString path)], s.store⟩ ∧
        raw = line.content path s.asked.length)
      (fun s' => s' = ⟨s.asked ++ [.read (cString path)], s.store⟩) s := by
  apply Ends.ask
  rcases told : w s.asked (.read (cString path)) with _ | content
  · exact rfl
  · exact ⟨rfl, tells.read _ _ content told⟩

end Calls

/-! ## What the cache keeps -/

section Kept

variable {line : Timeline} {w : World Call.Answer} {path : Bytes} {s : Record Call Caches}
  {asked : List Call} {resource : Resource}

theorem kept_empty (line : Timeline) (asked : List Call) : Kept line ⟨asked, .empty⟩ := by
  intro path resource found
  cases found

/-- More calls are made. -/
theorem Kept.later (kept : Kept line s) (more : s.asked.length ≤ asked.length) :
    Kept line ⟨asked, s.store⟩ := by
  intro path resource found
  obtain ⟨i, j, content, le, lt, dated, read⟩ := kept path resource found
  exact ⟨i, j, content, le, lt.trans_le more, dated, read⟩

theorem Kept.erase (kept : Kept line s) (path : Bytes) :
    Kept line ⟨s.asked, s.store.eraseResource path⟩ := by
  intro path' resource found
  rw [Caches.findResource_eraseResource] at found
  split_ifs at found
  exact kept path' resource found

theorem Kept.put (kept : Kept line s) {i j : Nat} {content : Bytes} (le : i ≤ j)
    (lt : j < s.asked.length) (dated : line.entry path i = some (content, resource.lastWrite))
    (read : resource.raw = line.content path j) :
    Kept line ⟨s.asked, s.store.putResource path resource⟩ := by
  intro path' resource' found
  rw [Caches.findResource_putResource] at found
  split_ifs at found with here
  · subst here
    cases found
    exact ⟨i, j, content, le, lt, dated, read⟩
  · exact kept path' resource' found

/-- A copy whose modification time is not less than that of the path is what the path has. -/
theorem Kept.current (kept : Kept line s) (found : s.store.findResource path = some resource)
    {n time : Nat} {content : Bytes} (later : s.asked.length ≤ n)
    (dated : line.entry path n = some (content, time)) (old : time ≤ resource.lastWrite) :
    resource.raw = line.content path n := by
  obtain ⟨i, j, content', le, lt, read_at, read⟩ := kept path resource found
  have unchanged {m : Nat} (from_i : i ≤ m) (to_n : m ≤ n) :
      line.entry path m = some (content', resource.lastWrite) :=
    (line.advances (cString path)).unchanged (line.ordered (from_i.trans to_n)) read_at dated old
      (line.ordered from_i) (line.ordered to_n)
  have before : j ≤ n := (lt.trans_le later).le
  rw [read, Timeline.content, Timeline.content, unchanged le before,
    unchanged (le.trans before) le_rfl]

/-- To read a file and to put it into the cache, after `n` calls. -/
theorem ends_load (tells : Tells line w) (kept : Kept line s) {n : Nat}
    (after : n ≤ s.asked.length) :
    Ends (ResourceCache.load path) w
      (fun resource s' => Kept line s' ∧ Seen line path n s'.asked.length resource.raw)
      (Kept line) s := by
  simp only [ResourceCache.load, Cache.resource, ends_bind]
  refine (ends_fsLastWriteTime tells).mono ?_ ?_
  · rintro time s₁ ⟨rfl, content, dated⟩
    refine (ends_readFile tells).mono ?_ ?_
    · rintro raw s₂ ⟨rfl, read⟩
      simp only [ends_pure, ends_modifyStore]
      have read' : raw = line.content path (s.asked.length + 1) := by simpa using read
      refine ⟨?_, s.asked.length + 1, after.trans (Nat.le_succ _), by simp, read'⟩
      exact (kept.later (by simp)).put (Nat.le_succ s.asked.length) (by simp) dated read'
    · rintro s₂ rfl
      exact kept.later (by simp)
  · rintro s₁ rfl
    exact kept.later (by simp)

/-- One call keeps the invariant, and what it returns was seen during it. -/
theorem ends_aquire (tells : Tells line w) (kept : Kept line s) :
    Ends (ResourceCache.aquire path) w
      (fun resource s' => Kept line s' ∧
        Seen line path s.asked.length s'.asked.length resource.raw) (Kept line) s := by
  simp only [ResourceCache.aquire, ends_bind, ends_getStore]
  refine (ends_fsExists tells).mono ?_ ?_
  · rintro there s₁ ⟨rfl, absent, -⟩
    cases found : s.store.findResource path with
    | none => exact ends_load tells (kept.later (by simp)) (by simp)
    | some resource =>
      cases there with
      | false =>
        simp only [Bool.not_false, if_true, ends_bind, ends_modifyStore, ends_pure]
        refine ⟨(kept.later (by simp)).erase path, s.asked.length, le_rfl, by simp, ?_⟩
        rw [Timeline.content, absent rfl]
        rfl
      | true =>
        simp only [Bool.not_true, Bool.false_eq_true, if_false, ends_bind]
        refine (ends_fsLastWriteTime tells).mono ?_ ?_
        · rintro time s₂ ⟨rfl, content, dated⟩
          split_ifs with newer
          · exact ends_load tells (kept.later (by simp)) (by simp)
          · refine ⟨kept.later (by simp), s.asked.length + 1, by simp, by simp, ?_⟩
            exact kept.current found (by simp) (by simpa using dated) (Nat.le_of_not_lt newer)
        · rintro s₂ rfl
          exact kept.later (by simp)
  · rintro s₁ rfl
    exact kept.later (by simp)

end Kept

/-! ## Whole runs -/

/-- The record after calls of `aquire` for some paths, whatever they ended in. -/
def called (w : World Call.Answer) (paths : List Bytes) : Record Call Caches :=
  paths.foldl (fun s path => (ResourceCache.aquire path w s).2) ⟨[], .empty⟩

theorem kept_called {line : Timeline} {w : World Call.Answer} (tells : Tells line w)
    (paths : List Bytes) : Kept line (called w paths) := by
  -- the induction adds the last call
  induction paths using List.reverseRecOn with
  | nil => exact kept_empty line []
  | append_singleton paths path ih =>
    rw [called, List.foldl_append]
    exact ((ends_aquire tells ih).mono (fun _ _ h => h.1) fun _ => id).always

/-- Whatever was called before, and whatever happens to the files before and while `aquire` is
called, it returns only what the path had when one of its calls was made. -/
theorem aquire_fresh (line : Timeline) (w : World Call.Answer) (tells : Tells line w)
    (paths : List Bytes) (path : Bytes) (resource : Resource)
    (returned : (ResourceCache.aquire path w (called w paths)).1 = .ok resource) :
    Seen line path (called w paths).asked.length (called w (paths ++ [path])).asked.length
      resource.raw := by
  have ends := (ends_aquire tells (kept_called tells paths)).returned returned
  rw [called, called, List.foldl_append]
  exact ends.2

/-- A file that is replaced between the two calls of the first `aquire` is read again by the
second. -/
theorem aquire_fresh_replaced :
    let line : Timeline :=
      ⟨fun _ => replaced 2 (bytes "a", 0) (bytes "b", 1), id,
        fun _ => advances_replaced 2 Nat.one_pos, monotone_id⟩
    Seen line [47] (called (reporting line) [[47]]).asked.length
      (called (reporting line) ([[47]] ++ [[47]])).asked.length (bytes "b") :=
  let line : Timeline :=
    ⟨fun _ => replaced 2 (bytes "a", 0) (bytes "b", 1), id,
      fun _ => advances_replaced 2 Nat.one_pos, monotone_id⟩
  aquire_fresh line (reporting line) (tells_reporting line) [[47]] [47]
    ⟨[47], 1, bytes "b", [], []⟩ rfl

end Viking.Cache
