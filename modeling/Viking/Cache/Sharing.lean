/-
# Sharing descriptors

Holders acquire the descriptor of a path and release it again, in any order. `Sharing` has the
table next to what the table is about: the acquisitions that are outstanding, the descriptors
that are open, and what was opened and closed so far.

`Shared` is the invariant of this: the table counts the acquisitions, and what is open is what
it has entries for.
-/

import Mathlib.Logic.Relation
import Viking.Cache.Caches

namespace Viking.Cache

open Io

/-- The table with the acquisitions that are outstanding, the open descriptors, and those that
`open` has returned and `close` was called on so far. `H` are the holders. -/
structure Sharing (H : Type) where
  record : Record Call Caches
  outstanding : List (H × Fd)
  kernel : List Fd
  opened : List Fd
  closed : List Fd

/-- What the `open` calls among some questions return. -/
def openResults (w : World Call.Answer) : List Call → List Call → List Fd
  | _, [] => []
  | asked, question :: later =>
    (match question with
      | .openFile path => Option.toList (α := Fd) (w asked (.openFile path))
      | _ => []) ++ openResults w (asked ++ [question]) later

namespace Sharing

variable {H : Type}

/-- Nothing was acquired yet. -/
def start : Sharing H := ⟨⟨[], .empty⟩, [], [], [], []⟩

/-- The entries of the table. -/
def table (s : Sharing H) : List HandleUseCount := s.record.store.descriptors

/-- How many acquisitions of a descriptor are outstanding. -/
def holds (s : Sharing H) (fd : Fd) : Nat := (s.outstanding.map Prod.snd).count fd

/-- The descriptors that `open` returns when a path is acquired. -/
def opens (s : Sharing H) (path : Bytes) (w : World Call.Answer) : List Fd :=
  openResults w s.record.asked
    ((FileDescriptor.aquire path w s.record).2.asked.drop s.record.asked.length)

/-- `aquire` by a holder. -/
def acquire (s : Sharing H) (holder : H) (path : Bytes) (w : World Call.Answer) : Sharing H :=
  let result := FileDescriptor.aquire path w s.record
  { record := result.2
    outstanding := s.outstanding ++
      (result.1.toOption.bind id).toList.map fun fd => (holder, fd)
    kernel := s.kernel ++ s.opens path w
    opened := s.opened ++ s.opens path w
    closed := s.closed }

variable [DecidableEq H] in
/-- `release` by a holder. -/
def release (s : Sharing H) (holder : H) (fd : Fd) : Sharing H :=
  let result := FileDescriptor.release fd s.record.store
  { record := { s.record with store := result.2 }
    outstanding := s.outstanding.erase (holder, fd)
    kernel := s.kernel.filter fun fd => some fd ≠ result.1
    opened := s.opened
    closed := s.closed ++ result.1.toList }

variable [DecidableEq H] in
/-- A holder acquires a path, and `open` returns no descriptor that is open; or a holder
releases what it has acquired and not released. -/
inductive Step : Sharing H → Sharing H → Prop
  | acquire (s : Sharing H) (holder : H) (path : Bytes) (w : World Call.Answer)
    (fresh : ∀ fd ∈ s.opens path w, fd ∉ s.kernel) : Step s (s.acquire holder path w)
  | release (s : Sharing H) (holder : H) (fd : Fd) (held : (holder, fd) ∈ s.outstanding) :
    Step s (s.release holder fd)

/-- The table counts the acquisitions, and what is open is what it has entries for. -/
structure Shared (s : Sharing H) : Prop where
  paths : (s.table.map HandleUseCount.path).Nodup
  handles : (s.table.map HandleUseCount.handle).Nodup
  counts : ∀ d ∈ s.table, d.useCount = s.holds d.handle ∧ 0 < d.useCount
  kernel : ∀ fd, fd ∈ s.kernel ↔ fd ∈ s.table.map HandleUseCount.handle
  closed : ∀ fd, s.opened.count fd = s.closed.count fd + if fd ∈ s.kernel then 1 else 0
  held : ∀ a ∈ s.outstanding, a.2 ∈ s.table.map HandleUseCount.handle

/-! ## Acquiring -/

section Acquire

variable {s : Sharing H} {holder : H} {path : Bytes} {w : World Call.Answer}

/-- What `open` returns for a path. -/
def opening (s : Sharing H) (path : Bytes) (w : World Call.Answer) : Option Fd :=
  w s.record.asked (.openFile (cString path))

theorem aquire_found {d : HandleUseCount} (found : s.record.store.findDescriptor path = some d) :
    FileDescriptor.aquire path w s.record =
      (.ok (some d.handle), ⟨s.record.asked, s.record.store.useDescriptor path⟩) := by
  simp only [FileDescriptor.aquire, Asking.bind_run, Asking.getStore, found]
  rfl

/-- Without an entry `aquire` does what `open` returns. -/
theorem aquire_missing (missing : s.record.store.findDescriptor path = none) :
    FileDescriptor.aquire path w s.record =
      (.ok (s.opening path w), ⟨s.record.asked ++ [.openFile (cString path)],
        ⟨s.record.store.resources,
          s.table ++ ((s.opening path w).map fun fd => ⟨path, 1, fd⟩).toList⟩⟩) := by
  have asked : (Asking.ask (Call.openFile (cString path)) : Serving (Option Fd)) w s.record =
      (.ok (s.opening path w), ⟨s.record.asked ++ [.openFile (cString path)], s.record.store⟩) :=
    rfl
  simp only [FileDescriptor.aquire, Asking.bind_run, Asking.getStore, missing]
  refine (Asking.bind_run_ok asked).trans ?_
  cases s.opening path w with
  | some fd => rfl
  | none =>
    simp only [Option.map_none, Option.toList_none, List.append_nil]
    rfl

theorem opens_missing (missing : s.record.store.findDescriptor path = none) :
    s.opens path w = (s.opening path w).toList := by
  rw [opens, aquire_missing missing, List.drop_left]
  simp only [openResults, List.append_nil]
  rfl

/-- Everything that acquiring a path can do. -/
theorem acquire_cases (s : Sharing H) (holder : H) (path : Bytes) (w : World Call.Answer) :
    (∃ d, s.record.store.findDescriptor path = some d ∧ s.opens path w = [] ∧
      s.acquire holder path w =
        { s with
          record := ⟨s.record.asked, s.record.store.useDescriptor path⟩
          outstanding := s.outstanding ++ [(holder, d.handle)] }) ∨
    (∃ fd, s.record.store.findDescriptor path = none ∧ s.opens path w = [fd] ∧
      s.acquire holder path w =
        { record := ⟨s.record.asked ++ [.openFile (cString path)],
            ⟨s.record.store.resources, s.table ++ [⟨path, 1, fd⟩]⟩⟩
          outstanding := s.outstanding ++ [(holder, fd)]
          kernel := s.kernel ++ [fd]
          opened := s.opened ++ [fd]
          closed := s.closed }) ∨
    s.record.store.findDescriptor path = none ∧ s.opens path w = [] ∧
      (FileDescriptor.aquire path w s.record).1 = .ok none ∧
      s.acquire holder path w =
        { s with record := ⟨s.record.asked ++ [.openFile (cString path)], s.record.store⟩ } := by
  cases found : s.record.store.findDescriptor path with
  | some d =>
    left
    have opens : s.opens path w = [] := by
      rw [opens, aquire_found found, List.drop_length]
      rfl
    refine ⟨d, rfl, opens, ?_⟩
    simp only [acquire, aquire_found found, opens, List.append_nil]
    rfl
  | none =>
    right
    have opens := opens_missing (w := w) found
    simp only [opens, acquire, aquire_missing found, true_and]
    cases s.opening path w with
    | some fd => exact .inl ⟨fd, rfl, rfl⟩
    | none =>
      refine .inr ⟨rfl, rfl, ?_⟩
      simp only [Except.toOption, Option.bind, id, Option.toList, Option.map_none, List.map_nil,
        List.append_nil]
      rfl

end Acquire

/-! ## What one call preserves -/

section Calls

variable {s : Sharing H} {holder : H} {path : Bytes} {fd : Fd} {w : World Call.Answer}
  {d e : HandleUseCount}

theorem Shared.eq_of_path (shared : s.Shared) (there : d ∈ s.table) (there' : e ∈ s.table)
    (same : d.path = e.path) : d = e :=
  List.inj_on_of_nodup_map shared.paths there there' same

theorem Shared.eq_of_handle (shared : s.Shared) (there : d ∈ s.table) (there' : e ∈ s.table)
    (same : d.handle = e.handle) : d = e :=
  List.inj_on_of_nodup_map shared.handles there there' same

theorem mem_of_findDescriptor (found : s.record.store.findDescriptor path = some d) :
    d ∈ s.table ∧ d.path = path := by
  refine ⟨List.mem_of_find?_eq_some found, ?_⟩
  simpa using List.find?_some found

theorem not_mem_of_findDescriptor (missing : s.record.store.findDescriptor path = none) :
    path ∉ s.table.map HandleUseCount.path := by
  rw [List.mem_map]
  rintro ⟨d, there, same⟩
  have other := List.find?_eq_none.mp missing d there
  simp [same] at other

/-- What is outstanding after one more acquisition. -/
theorem holds_append (asked : Record Call Caches) (kernel opened closed : List Fd) (fd' : Fd) :
    holds ⟨asked, s.outstanding ++ [(holder, fd)], kernel, opened, closed⟩ fd' =
      s.holds fd' + if fd = fd' then 1 else 0 := by
  simp only [holds, List.map_append, List.map_singleton, List.count_append,
    List.count_singleton, beq_iff_eq]

/-- What is outstanding after one acquisition less. -/
theorem holds_erase [DecidableEq H] (held : (holder, fd) ∈ s.outstanding)
    (asked : Record Call Caches) (kernel opened closed : List Fd) (fd' : Fd) :
    s.holds fd' =
      holds ⟨asked, s.outstanding.erase (holder, fd), kernel, opened, closed⟩ fd' +
        if fd = fd' then 1 else 0 := by
  have moved := ((List.perm_cons_erase held).map Prod.snd).count_eq fd'
  simp only [List.map_cons, List.count_cons, beq_iff_eq] at moved
  exact moved

/-- The paths and the handles stay when a count changes. -/
theorem map_recount {α : Type} (f : HandleUseCount → α) (count : HandleUseCount → Nat)
    (path : Bytes) (ds : List HandleUseCount) (same : ∀ d n, f { d with useCount := n } = f d) :
    (ds.map fun d => if d.path = path then { d with useCount := count d } else d).map f =
      ds.map f := by
  rw [List.map_map]
  apply List.map_congr_left
  intro d _
  simp only [Function.comp_apply]
  split_ifs
  · exact same d _
  · rfl

/-- The entry at the path of `d` gets the count it has to have, when one acquisition of the
handle of `d` comes or goes. -/
theorem Shared.recount {s' : Sharing H} (shared : s.Shared) (there : d ∈ s.table)
    (count : HandleUseCount → Nat)
    (table : s'.table = s.table.map fun e =>
      if e.path = d.path then { e with useCount := count e } else e)
    (counted : count d = s'.holds d.handle) (positive : 0 < count d)
    (others : ∀ fd, fd ≠ d.handle → s'.holds fd = s.holds fd) :
    ∀ e ∈ s'.table, e.useCount = s'.holds e.handle ∧ 0 < e.useCount := by
  intro e mem
  rw [table, List.mem_map] at mem
  obtain ⟨e, old, rfl⟩ := mem
  by_cases same : e.path = d.path
  · obtain rfl := shared.eq_of_path old there same
    rw [if_pos rfl]
    exact ⟨counted, positive⟩
  · -- another path has another handle
    rw [if_neg same, others]
    · exact shared.counts e old
    · intro handle
      exact same (shared.eq_of_handle old there handle ▸ rfl)

theorem shared_acquire_found (shared : s.Shared)
    (found : s.record.store.findDescriptor path = some d) :
    Shared { s with
      record := ⟨s.record.asked, s.record.store.useDescriptor path⟩
      outstanding := s.outstanding ++ [(holder, d.handle)] } := by
  obtain ⟨there, rfl⟩ := mem_of_findDescriptor found
  have handles := map_recount HandleUseCount.handle (fun e => e.useCount + 1) d.path
    s.table fun _ _ => rfl
  have paths := map_recount HandleUseCount.path (fun e => e.useCount + 1) d.path
    s.table fun _ _ => rfl
  constructor
  · exact paths.symm ▸ shared.paths
  · exact handles.symm ▸ shared.handles
  · refine shared.recount there (fun e => e.useCount + 1) rfl ?_ (Nat.succ_pos _) ?_
    · rw [holds_append, if_pos rfl, (shared.counts d there).1]
    · intro fd other
      rw [holds_append, if_neg fun same => other same.symm, Nat.add_zero]
  · intro fd
    exact handles.symm ▸ shared.kernel fd
  · exact shared.closed
  · intro a mem
    rcases List.mem_append.mp mem with old | new
    · exact handles.symm ▸ shared.held a old
    · rw [List.mem_singleton.mp new]
      exact handles.symm ▸ List.mem_map_of_mem there

/-- An open descriptor is one that somebody holds. -/
theorem Shared.holds_eq_zero (shared : s.Shared) (fresh : fd ∉ s.kernel) : s.holds fd = 0 := by
  rw [holds, List.count_eq_zero, List.mem_map]
  rintro ⟨a, held, rfl⟩
  exact fresh ((shared.kernel a.2).mpr (shared.held a held))

theorem shared_acquire_opened (shared : s.Shared)
    (missing : s.record.store.findDescriptor path = none) (fresh : fd ∉ s.kernel) :
    Shared {
      record := ⟨s.record.asked ++ [.openFile (cString path)],
        ⟨s.record.store.resources, s.table ++ [⟨path, 1, fd⟩]⟩⟩
      outstanding := s.outstanding ++ [(holder, fd)]
      kernel := s.kernel ++ [fd]
      opened := s.opened ++ [fd]
      closed := s.closed } := by
  have unused : fd ∉ s.table.map HandleUseCount.handle := fun mem =>
    fresh ((shared.kernel fd).mpr mem)
  constructor
  · rw [table, List.map_append, List.map_singleton, ← List.concat_eq_append]
    exact shared.paths.concat (not_mem_of_findDescriptor missing)
  · rw [table, List.map_append, List.map_singleton, ← List.concat_eq_append]
    exact shared.handles.concat unused
  · intro e mem
    rw [holds_append]
    rcases List.mem_append.mp mem with old | new
    · have other : fd ≠ e.handle := fun same => unused (same ▸ List.mem_map_of_mem old)
      rw [if_neg other]
      exact shared.counts e old
    · -- nobody holds a descriptor that was just opened
      rw [List.mem_singleton.mp new, if_pos rfl, shared.holds_eq_zero fresh]
      exact ⟨rfl, Nat.one_pos⟩
  · intro fd'
    simp only [table, List.map_append, List.map_singleton, List.mem_append]
    exact or_congr_left (shared.kernel fd')
  · intro fd'
    simp only [List.count_append, List.mem_append, List.mem_singleton, shared.closed fd',
      List.count_singleton, beq_iff_eq]
    by_cases same : fd' = fd
    · subst same
      simp [fresh]
    · simp [same, Ne.symm same]
  · intro a mem
    simp only [table, List.map_append, List.map_singleton, List.mem_append]
    rcases List.mem_append.mp mem with old | new
    · exact .inl (shared.held a old)
    · rw [List.mem_singleton.mp new]
      exact .inr (List.mem_singleton_self fd)

theorem shared_acquire (shared : s.Shared) (fresh : ∀ fd ∈ s.opens path w, fd ∉ s.kernel) :
    (s.acquire holder path w).Shared := by
  rcases acquire_cases s holder path w with ⟨d, found, -, acquired⟩ |
    ⟨fd, missing, opens, acquired⟩ | ⟨-, -, -, acquired⟩
  · exact acquired ▸ shared_acquire_found shared found
  · rw [opens] at fresh
    exact acquired ▸ shared_acquire_opened shared missing (fresh fd (List.mem_singleton_self fd))
  · rw [acquired]
    exact ⟨shared.paths, shared.handles, shared.counts, shared.kernel, shared.closed, shared.held⟩

/-- Everything that releasing a held descriptor can do: it is closed with its entry, or one
holder less is counted. -/
theorem release_cases [DecidableEq H] (shared : s.Shared) (held : (holder, fd) ∈ s.outstanding) :
    ∃ d ∈ s.table, d.handle = fd ∧
      (s.holds fd = 1 ∧ s.release holder fd =
        { record := ⟨s.record.asked,
            (s.record.store.unuseDescriptor d.path).eraseDescriptor d.path⟩
          outstanding := s.outstanding.erase (holder, fd)
          kernel := s.kernel.filter fun x => x ≠ fd
          opened := s.opened
          closed := s.closed ++ [fd] } ∨
      1 < s.holds fd ∧ s.release holder fd =
        { s with
          record := ⟨s.record.asked, s.record.store.unuseDescriptor d.path⟩
          outstanding := s.outstanding.erase (holder, fd) }) := by
  cases found : s.table.find? fun d => d.handle = fd with
  | none =>
    obtain ⟨d, there, same⟩ := List.mem_map.mp (shared.held _ held)
    have other := List.find?_eq_none.mp found d there
    simp [same] at other
  | some d =>
    have there := List.mem_of_find?_eq_some found
    have same : d.handle = fd := by simpa using List.find?_some found
    obtain ⟨counted, positive⟩ := shared.counts d there
    rw [same] at counted
    refine ⟨d, there, same, ?_⟩
    have released : FileDescriptor.release fd s.record.store =
        if d.useCount - 1 = 0 then
          (some d.handle, (s.record.store.unuseDescriptor d.path).eraseDescriptor d.path)
        else (none, s.record.store.unuseDescriptor d.path) := by
      rw [FileDescriptor.release, show s.record.store.descriptors.find? _ = some d from found]
    by_cases last : s.holds fd = 1
    · left
      rw [if_pos (by omega)] at released
      refine ⟨last, ?_⟩
      simp [release, released, same]
    · right
      rw [if_neg (by omega)] at released
      refine ⟨by omega, ?_⟩
      simp [release, released]

/-- The entries after the last holder of `d` has released it. -/
theorem erased_table (ds : List HandleUseCount) (path : Bytes) :
    (ds.map fun e => if e.path = path then { e with useCount := e.useCount - 1 } else e).filter
      (fun e => e.path ≠ path) = ds.filter fun e => e.path ≠ path := by
  induction ds with
  | nil => rfl
  | cons e ds ih =>
    by_cases same : e.path = path
    · simpa [same] using ih
    · simpa [same] using ih

theorem shared_release_last [DecidableEq H] (shared : s.Shared) (there : d ∈ s.table)
    (held : (holder, d.handle) ∈ s.outstanding) (last : s.holds d.handle = 1) :
    Shared {
      record := ⟨s.record.asked, (s.record.store.unuseDescriptor d.path).eraseDescriptor d.path⟩
      outstanding := s.outstanding.erase (holder, d.handle)
      kernel := s.kernel.filter fun x => x ≠ d.handle
      opened := s.opened
      closed := s.closed ++ [d.handle] } := by
  set s' : Sharing H := _
  show s'.Shared
  have entries : s'.table = s.table.filter fun e => e.path ≠ d.path :=
    erased_table s.table d.path
  have released (fd : Fd) : s.holds fd = s'.holds fd + if d.handle = fd then 1 else 0 :=
    holds_erase held _ _ _ _ fd
  -- what stays is what has another handle
  have stays (e : HandleUseCount) : e ∈ s'.table ↔ e ∈ s.table ∧ e.handle ≠ d.handle := by
    rw [entries, List.mem_filter, decide_eq_true_eq]
    constructor
    · rintro ⟨old, other⟩
      exact ⟨old, fun same => other (shared.eq_of_handle old there same ▸ rfl)⟩
    · rintro ⟨old, other⟩
      exact ⟨old, fun same => other (shared.eq_of_path old there same ▸ rfl)⟩
  have handles (fd : Fd) : fd ∈ s'.table.map HandleUseCount.handle ↔
      fd ∈ s.table.map HandleUseCount.handle ∧ fd ≠ d.handle := by
    simp only [List.mem_map, stays]
    constructor
    · rintro ⟨e, ⟨old, other⟩, rfl⟩
      exact ⟨⟨e, old, rfl⟩, other⟩
    · rintro ⟨⟨e, old, rfl⟩, other⟩
      exact ⟨e, ⟨old, other⟩, rfl⟩
  have open_iff (fd : Fd) : fd ∈ s'.kernel ↔ fd ∈ s.kernel ∧ fd ≠ d.handle := by
    rw [show s'.kernel = s.kernel.filter fun x => x ≠ d.handle from rfl, List.mem_filter,
      decide_eq_true_eq]
  constructor
  · exact entries ▸ shared.paths.sublist (List.filter_sublist.map _)
  · exact entries ▸ shared.handles.sublist (List.filter_sublist.map _)
  · intro e mem
    obtain ⟨old, other⟩ := (stays e).mp mem
    have same := released e.handle
    rw [if_neg other.symm, Nat.add_zero] at same
    exact same ▸ shared.counts e old
  · intro fd
    rw [open_iff, handles, shared.kernel]
  · intro fd
    rw [show s'.closed = s.closed ++ [d.handle] from rfl, List.count_append,
      show s'.opened = s.opened from rfl, shared.closed fd]
    simp only [List.count_singleton, beq_iff_eq]
    by_cases same : fd = d.handle
    · subst same
      have listed : d.handle ∈ s.kernel := (shared.kernel _).mpr (List.mem_map_of_mem there)
      have gone : d.handle ∉ s'.kernel := fun mem => ((open_iff _).mp mem).2 rfl
      rw [if_pos listed, if_neg gone, if_pos rfl]
    · simp only [open_iff, same, Ne.symm same, if_false, ne_eq, not_false_eq_true, and_true,
        Nat.add_zero]
  · intro a mem
    refine (handles a.2).mpr ⟨shared.held a (List.mem_of_mem_erase mem), ?_⟩
    -- the acquisition that was released was the last one of this handle
    intro same
    have none := released d.handle
    rw [last, if_pos rfl] at none
    have some : 0 < s'.holds d.handle :=
      List.count_pos_iff.mpr (same ▸ List.mem_map_of_mem mem)
    omega

theorem shared_release_more [DecidableEq H] (shared : s.Shared) (there : d ∈ s.table)
    (held : (holder, d.handle) ∈ s.outstanding) (more : 1 < s.holds d.handle) :
    Shared { s with
      record := ⟨s.record.asked, s.record.store.unuseDescriptor d.path⟩
      outstanding := s.outstanding.erase (holder, d.handle) } := by
  set s' : Sharing H := _
  show s'.Shared
  have released (fd : Fd) : s.holds fd = s'.holds fd + if d.handle = fd then 1 else 0 :=
    holds_erase held _ _ _ _ fd
  have handles : s'.table.map HandleUseCount.handle = s.table.map HandleUseCount.handle :=
    map_recount HandleUseCount.handle (fun e => e.useCount - 1) d.path s.table fun _ _ => rfl
  have paths : s'.table.map HandleUseCount.path = s.table.map HandleUseCount.path :=
    map_recount HandleUseCount.path (fun e => e.useCount - 1) d.path s.table fun _ _ => rfl
  obtain ⟨counted, -⟩ := shared.counts d there
  have one := released d.handle
  rw [if_pos rfl] at one
  constructor
  · exact paths ▸ shared.paths
  · exact handles ▸ shared.handles
  · refine shared.recount there (fun e => e.useCount - 1) rfl (by omega) (by omega) ?_
    intro fd other
    have same := released fd
    rw [if_neg other.symm, Nat.add_zero] at same
    exact same.symm
  · exact handles ▸ shared.kernel
  · exact shared.closed
  · intro a mem
    exact handles ▸ shared.held a (List.mem_of_mem_erase mem)

theorem shared_release [DecidableEq H] (shared : s.Shared)
    (held : (holder, fd) ∈ s.outstanding) : (s.release holder fd).Shared := by
  obtain ⟨d, there, rfl, ⟨last, released⟩ | ⟨more, released⟩⟩ := release_cases shared held
  · exact released ▸ shared_release_last shared there held last
  · exact released ▸ shared_release_more shared there held more

/-- `close` is called when the last holder releases. -/
theorem release_closed [DecidableEq H] (shared : s.Shared)
    (held : (holder, fd) ∈ s.outstanding) :
    (s.release holder fd).closed = s.closed ++ if s.holds fd = 1 then [fd] else [] := by
  obtain ⟨d, -, -, ⟨last, released⟩ | ⟨more, released⟩⟩ := release_cases shared held
  · rw [released, if_pos last]
  · rw [released, if_neg (by omega), List.append_nil]

/-- An `aquire` that returns `-1` leaves the table as it is. -/
theorem acquire_table (failed : (FileDescriptor.aquire path w s.record).1 = .ok none) :
    (s.acquire holder path w).table = s.table := by
  rcases acquire_cases s holder path w with ⟨d, found, -, -⟩ | ⟨fd, missing, opens, -⟩ |
    ⟨-, -, -, acquired⟩
  · rw [aquire_found found] at failed
    cases failed
  · -- what is returned is what `open` has returned
    rw [aquire_missing missing] at failed
    rw [Sharing.opens, aquire_missing missing, List.drop_left] at opens
    simp only [Except.ok.injEq] at failed
    simp only [openResults, List.append_nil] at opens
    rw [show w s.record.asked (.openFile (cString path)) = none from failed] at opens
    cases opens
  · rw [acquired]
    rfl

end Calls

/-! ## Whole runs -/

section Runs

variable [DecidableEq H] {s s' : Sharing H}

omit [DecidableEq H] in
theorem shared_start : (start : Sharing H).Shared where
  paths := List.nodup_nil
  handles := List.nodup_nil
  counts _ mem := by cases mem
  kernel _ := Iff.rfl
  closed _ := rfl
  held _ mem := by cases mem

theorem shared_step (shared : s.Shared) (step : Step s s') : s'.Shared := by
  cases step with
  | acquire holder path w fresh => exact shared_acquire shared fresh
  | release holder fd held => exact shared_release shared held

theorem shared_of_reachable (reachable : Relation.ReflTransGen Step start s) : s.Shared := by
  induction reachable with
  | refl => exact shared_start
  | tail _ step ih => exact shared_step ih step

end Runs

/-- In every order of acquisitions and releases the table counts the acquisitions that are
outstanding and has an entry for each open descriptor. A release closes the descriptor iff it
is the last one, and an `aquire` that fails leaves the table as it is. -/
theorem descriptors_shared [DecidableEq H] {s : Sharing H}
    (reachable : Relation.ReflTransGen Step start s) :
    s.Shared ∧
    (∀ holder fd, (holder, fd) ∈ s.outstanding →
      (s.release holder fd).closed = s.closed ++ if s.holds fd = 1 then [fd] else []) ∧
    ∀ holder path w, (FileDescriptor.aquire path w s.record).1 = .ok none →
      (s.acquire holder path w).table = s.table := by
  have shared := shared_of_reachable reachable
  exact ⟨shared, fun _ _ held => release_closed shared held, fun _ _ _ => acquire_table⟩

/-- Two holders of one path share a descriptor. -/
theorem descriptors_shared_twice :
    let s : Sharing Bool :=
      (start.acquire true [97] (oneFile 7 [] (by decide))).acquire false [97]
        (oneFile 8 [] (by decide))
    s.outstanding = [(true, 7), (false, 7)] ∧ s.Shared ∧
    (∀ holder fd, (holder, fd) ∈ s.outstanding →
      (s.release holder fd).closed = s.closed ++ if s.holds fd = 1 then [fd] else []) ∧
    ∀ holder path w, (FileDescriptor.aquire path w s.record).1 = .ok none →
      (s.acquire holder path w).table = s.table := by
  intro s
  have first : Step start (start.acquire true [97] (oneFile 7 [] (by decide))) :=
    .acquire start true _ _ (by decide +kernel)
  have second : Step (start.acquire true [97] (oneFile 7 [] (by decide))) s :=
    .acquire _ false _ _ (by decide +kernel)
  exact ⟨by decide +kernel, descriptors_shared (.tail (.single first) second)⟩

end Sharing

end Viking.Cache
