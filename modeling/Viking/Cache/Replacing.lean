/-
# Files that are replaced

The descriptor of a `unix_file` may be one that another connection has opened, and its size is
what `stat64` says of the path. `Senders` are the files that connections have, next to the disk, on
which other files may take their paths, and the files that the descriptors refer to.

`measured_iff` says in which runs every size is the length of the file behind its descriptor.
-/

import Viking.Cache.Sharing
import Viking.Io.Moving

namespace Viking.Cache

open Io Machine

/-- The table of descriptors, what each path names, the file that each descriptor refers to, and
the `unix_file`s that there are. -/
structure Senders (H : Type) where
  sharing : Sharing H
  disk : Bytes → Option Bytes
  files : Fd → Bytes
  objects : List (H × UnixFile)

/-- A connection constructs a `unix_file` or destroys one, or a file is renamed over a path. -/
inductive Event (H : Type)
  | construct (holder : H) (path : Bytes) (w : World Call.Answer)
  | destroy (holder : H) (file : UnixFile)
  | replace (path content : Bytes)

namespace Senders

variable {H : Type}

def start (disk : Bytes → Option Bytes) (files : Fd → Bytes) : Senders H :=
  ⟨.start, disk, files, []⟩

/-- `unix_file(path, aquire, release)`. A descriptor that is opened refers to what the path
names. -/
def construct (s : Senders H) (holder : H) (path : Bytes) (w : World Call.Answer) : Senders H :=
  let result := unixFile path w s.sharing.record
  { sharing := { s.sharing.acquire holder path w with record := result.2 }
    disk := s.disk
    files := fun fd =>
      if fd ∈ s.sharing.opens path w then (s.disk (cString path)).getD [] else s.files fd
    objects := s.objects ++ result.1.toOption.toList.map fun file => (holder, file) }

variable [DecidableEq H] in
/-- `~unix_file` -/
def destroy (s : Senders H) (holder : H) (file : UnixFile) : Senders H :=
  { s with
    sharing := s.sharing.release holder file.fd
    objects := s.objects.erase (holder, file) }

/-- `rename` over a path; descriptors that are open keep their files. -/
def replace (s : Senders H) (path content : Bytes) : Senders H :=
  { s with disk := Function.update s.disk (cString path) (some content) }

variable [DecidableEq H] in
def step (s : Senders H) : Event H → Senders H
  | .construct holder path w => s.construct holder path w
  | .destroy holder file => s.destroy holder file
  | .replace path content => s.replace path content

/-- The kernel answers a constructor: `open` returns a new descriptor of what is at the path, and
`stat64` its length. Either may fail. -/
structure Honest (s : Senders H) (path : Bytes) (w : World Call.Answer) : Prop where
  fresh : ∀ fd ∈ s.sharing.opens path w, fd ∉ s.sharing.kernel
  found : ∀ fd ∈ s.sharing.opens path w, (s.disk (cString path)).isSome
  size : ∀ asked size, w asked (.stat (cString path)) = some size →
    ∃ content, s.disk (cString path) = some content ∧ size.1 = content.length

/-- Only what is there is destroyed. -/
def Legal (s : Senders H) : Event H → Prop
  | .construct _ path w => s.Honest path w
  | .destroy holder file => (holder, file) ∈ s.objects
  | .replace _ _ => True

/-- The size of each `unix_file` is the length of the file that its descriptor refers to. -/
def Measured (s : Senders H) : Prop := ∀ o ∈ s.objects, o.2.size = (s.files o.2.fd).length

/-- Where a constructor finds a descriptor of the path in the table, the file that it refers to is
as long as what `stat64` finds at the path. -/
def Agrees (s : Senders H) : Event H → Prop
  | .construct _ path w => ∀ d size, s.sharing.record.store.findDescriptor path = some d →
    w s.sharing.record.asked (.stat (cString path)) = some size →
      size.1 = (s.files d.handle).length
  | .destroy _ _ | .replace _ _ => True

/-! ## What is held -/

/-- Each `unix_file` has an acquisition that is outstanding. -/
structure Sound (s : Senders H) : Prop where
  shared : s.sharing.Shared
  held : (s.objects.map fun o => (o.1, o.2.fd)).Subperm s.sharing.outstanding

section Steps

variable {s : Senders H} {holder : H} {path : Bytes} {w : World Call.Answer} {file : UnixFile}
  {fd? : Option Fd} {r r' : Record Call Caches}

/-- A constructor has the descriptor that `aquire` returns and the size that `stat64` then finds,
and it throws when it gets one of them not. -/
theorem ends_unixFile (run : FileDescriptor.aquire path w r = (.ok fd?, r')) :
    Asking.Ends (unixFile path) w
      (fun file s' => s'.store = r'.store ∧ fd? = some file.fd ∧
        ∃ size, w r'.asked (.stat (cString path)) = some size ∧ file.size = size.1 ∧
          file.offset = 0 ∧ file.path = path)
      (fun s' => s'.store = r'.store ∧ (fd? = none ∨ w r'.asked (.stat (cString path)) = none))
      r := by
  rw [unixFile, Asking.ends_bind, Asking.ends_of_run run]
  cases fd? with
  | none => exact ⟨rfl, .inl rfl⟩
  | some fd =>
    apply Asking.Ends.ask
    rcases stated : w r'.asked (.stat (cString path)) with _ | size
    · exact ⟨rfl, .inr rfl⟩
    · exact ⟨rfl, rfl, size, rfl, rfl, rfl, rfl⟩

/-- The object that a constructor makes has all members as `Objects` has them. -/
theorem unixFile_constructs {N A R : Type} [DecidableEq N] {fd : Fd} {size}
    (run : FileDescriptor.aquire path w r = (.ok (some fd), r'))
    (stated : w r'.asked (.stat (cString path)) = some size) (t : Objects N A R) (x : N)
    (aquire : A) (release : R) :
    ∃ file f t', (unixFile path w r).1 = .ok file ∧
      t.step (.construct x path aquire release (some fd) (some size.1)) =
        .ok ([.allocated release t.acquisitions], t') ∧ t'.objects x = some f ∧
      f.fd.map Descriptor.number = some file.fd ∧ f.size = file.size ∧ f.offset = file.offset ∧
        f.path = file.path := by
  rcases (ends_unixFile run).cases with ⟨file, made, -, same, size', stated', measures, fresh⟩ |
    ⟨e, -, -, missing | missing⟩
  · obtain rfl := Option.some.inj (stated.symm.trans stated')
    refine ⟨file, _, _, made, rfl, Function.update_self .., same, measures.symm, ?_⟩
    exact ⟨fresh.1.symm, fresh.2.symm⟩
  · cases missing
  · cases stated.symm.trans missing

/-- What a `unix_file` refers to is open. -/
theorem Sound.open (sound : s.Sound) {o : H × UnixFile} (there : o ∈ s.objects) :
    o.2.fd ∈ s.sharing.kernel := by
  have held := sound.held.subset (List.mem_map_of_mem (f := fun o => (o.1, o.2.fd)) there)
  exact (sound.shared.kernel _).mpr (sound.shared.held _ held)

/-- `aquire` does not throw. -/
theorem aquire_ok (s : Sharing H) (path : Bytes) (w : World Call.Answer) :
    ∃ fd? r', FileDescriptor.aquire path w s.record = (.ok fd?, r') := by
  cases found : s.record.store.findDescriptor path with
  | some d => exact ⟨_, _, Sharing.aquire_found found⟩
  | none => exact ⟨_, _, Sharing.aquire_missing found⟩

theorem sound_construct (sound : s.Sound) (honest : s.Honest path w) (holder : H) :
    (s.construct holder path w).Sound := by
  obtain ⟨fd?, r', run⟩ := aquire_ok s.sharing path w
  have shared : (s.sharing.acquire holder path w).Shared :=
    Sharing.shared_acquire sound.shared honest.fresh
  constructor
  · -- `stat64` is one question more
    have store : (unixFile path w s.sharing.record).2.store =
        (s.sharing.acquire holder path w).record.store := by
      rw [((ends_unixFile run).mono (fun _ _ => And.left) fun _ => And.left).always,
        Sharing.acquire, run]
    have table : (s.construct holder path w).sharing.table =
        (s.sharing.acquire holder path w).table := congrArg Caches.descriptors store
    constructor
    · exact table ▸ shared.paths
    · exact table ▸ shared.handles
    · exact table ▸ shared.counts
    · exact table ▸ shared.kernel
    · exact shared.closed
    · exact table ▸ shared.held
  · have outstanding : (s.construct holder path w).sharing.outstanding =
        s.sharing.outstanding ++ fd?.toList.map fun fd => (holder, fd) := by
      simp only [construct, Sharing.acquire, run]
      rfl
    have objects : (s.construct holder path w).objects = s.objects ++
        (unixFile path w s.sharing.record).1.toOption.toList.map fun file => (holder, file) := rfl
    rw [objects, outstanding, List.map_append]
    apply sound.held.append
    rcases (ends_unixFile run).cases with ⟨file, made, -, same, -⟩ | ⟨e, thrown, -, -⟩
    · rw [made, same]
      exact List.Subperm.refl _
    · rw [thrown]
      exact List.nil_subperm

variable [DecidableEq H] in
theorem sound_destroy (sound : s.Sound) (there : (holder, file) ∈ s.objects) :
    (s.destroy holder file).Sound := by
  have held := sound.held.subset (List.mem_map_of_mem (f := fun o => (o.1, o.2.fd)) there)
  refine ⟨Sharing.shared_release sound.shared held, ?_⟩
  have moved := ((List.perm_cons_erase there).map fun o => (o.1, o.2.fd)).erase (holder, file.fd)
  rw [List.map_cons, List.erase_cons_head] at moved
  exact moved.symm.subperm.trans (sound.held.erase (holder, file.fd))

variable [DecidableEq H] in
theorem sound_step {e : Event H} (sound : s.Sound) (legal : s.Legal e) : (s.step e).Sound := by
  cases e with
  | construct holder path w => exact sound_construct sound legal holder
  | destroy holder file => exact sound_destroy sound legal
  | replace path content => exact ⟨sound.shared, sound.held⟩

/-! ## What is measured -/

/-- A constructor leaves the files behind the descriptors that others have. -/
theorem measured_construct (sound : s.Sound) (honest : s.Honest path w) (measured : s.Measured)
    (holder : H) :
    (s.construct holder path w).Measured ↔
      ∀ file, (unixFile path w s.sharing.record).1 = .ok file →
        file.size = ((s.construct holder path w).files file.fd).length := by
  have others (o : H × UnixFile) (there : o ∈ s.objects) :
      (s.construct holder path w).files o.2.fd = s.files o.2.fd :=
    if_neg fun opened => honest.fresh _ opened (sound.open there)
  have objects (o : H × UnixFile) : o ∈ (s.construct holder path w).objects ↔ o ∈ s.objects ∨
      ∃ file, (unixFile path w s.sharing.record).1 = .ok file ∧ (holder, file) = o := by
    simp only [construct, List.mem_append, List.mem_map, Option.mem_toList, toOption_eq_some]
  constructor
  · intro all file made
    exact all (holder, file) ((objects _).mpr (.inr ⟨file, made, rfl⟩))
  · intro new o there
    rcases (objects o).mp there with old | ⟨file, made, rfl⟩
    · rw [others o old]
      exact measured o old
    · exact new file made

/-- A constructor records the right size iff a descriptor that it finds refers to a file of the
length that `stat64` reports. -/
theorem measured_construct_iff (sound : s.Sound) (honest : s.Honest path w)
    (measured : s.Measured) (holder : H) :
    (s.construct holder path w).Measured ↔ s.Agrees (.construct holder path w) := by
  rw [measured_construct sound honest measured]
  obtain ⟨fd?, r', run⟩ := aquire_ok s.sharing path w
  have ends := ends_unixFile run
  cases found : s.sharing.record.store.findDescriptor path with
  | some d =>
    -- the descriptor is the one of the table
    cases run.symm.trans (Sharing.aquire_found found)
    have opens : s.sharing.opens path w = [] := by
      rw [Sharing.opens, run, List.drop_length]
      rfl
    have kept : (s.construct holder path w).files d.handle = s.files d.handle :=
      if_neg (by rw [opens]; exact List.not_mem_nil)
    constructor
    · intro right d' size found' stated
      obtain rfl := Option.some.inj (found.symm.trans found')
      rcases ends.cases with ⟨file, made, -, same, size', stated', measures, -⟩ |
        ⟨e, -, -, missing | missing⟩
      · obtain rfl := Option.some.inj (stated.symm.trans stated')
        have right := right file made
        rwa [measures, ← Option.some.inj same, kept] at right
      · cases missing
      · cases stated.symm.trans missing
    · intro agrees file made
      obtain ⟨-, same, size, stated, measures, -⟩ := ends.returned made
      rw [measures, ← Option.some.inj same, kept]
      exact agrees d size found stated
  | none =>
    -- the descriptor is opened now
    cases run.symm.trans (Sharing.aquire_missing found)
    refine iff_of_true (fun file made => ?_) fun d _ found' => ?_
    · obtain ⟨-, opening, size, stated, measures, -⟩ := ends.returned made
      obtain ⟨content, there, length⟩ := honest.size _ size stated
      have opened : file.fd ∈ s.sharing.opens path w := by
        rw [Sharing.opens_missing found, opening]
        exact List.mem_singleton_self _
      have behind : (s.construct holder path w).files file.fd = content := by
        simp only [construct, if_pos opened, there, Option.getD_some]
      rw [measures, length, behind]
    · rw [found] at found'
      cases found'

variable [DecidableEq H] in
theorem measured_step {e : Event H} (sound : s.Sound) (legal : s.Legal e) (measured : s.Measured) :
    (s.step e).Measured ↔ s.Agrees e := by
  cases e with
  | construct holder path w => exact measured_construct_iff sound legal measured holder
  | destroy holder file =>
    exact iff_of_true (fun o there => measured o (List.mem_of_mem_erase there)) trivial
  | replace path content => exact iff_of_true measured trivial

end Steps

theorem sound_start (disk : Bytes → Option Bytes) (files : Fd → Bytes) :
    (start disk files : Senders H).Sound :=
  ⟨Sharing.shared_start, List.nil_subperm⟩

/-- In every run of constructors, destructors and replacements the size of each `unix_file` is
always the length of the file behind its descriptor iff no constructor finds a descriptor of a file
whose length is not the one that `stat64` reports. -/
theorem measured_iff [DecidableEq H] (disk : Bytes → Option Bytes) (files : Fd → Bytes)
    (events : List (Event H))
    (legal : AlongFold step Legal (start disk files) events) :
    (∀ before, before <+: events → (before.foldl step (start disk files)).Measured) ↔
      AlongFold step Agrees (start disk files) events :=
  foldl_good_iff (fun _ _ => sound_step) (fun _ _ => measured_step) (sound_start disk files)
    (fun _ there => absurd there List.not_mem_nil) legal

/-- One file at the path is answered for honestly. -/
theorem honest_oneFile {s : Senders H} {path content : Bytes} {fd : Fd}
    (bound : content.length < 2 ^ 63) (there : s.disk (cString path) = some content)
    (fresh : fd ∉ s.sharing.kernel) : s.Honest path (oneFile fd content bound) := by
  have opens (x : Fd) (opened : x ∈ s.sharing.opens path (oneFile fd content bound)) : x = fd := by
    cases found : s.sharing.record.store.findDescriptor path with
    | some d =>
      rw [Sharing.opens, Sharing.aquire_found found, List.drop_length] at opened
      cases opened
    | none =>
      rw [Sharing.opens_missing found] at opened
      exact List.mem_singleton.mp opened
  constructor
  · intro x opened
    exact opens x opened ▸ fresh
  · intro x _
    rw [there]
    rfl
  · rintro asked size ⟨⟩
    exact ⟨content, there, rfl⟩

/-- A connection has a file open while another one of that length takes its path. -/
theorem measured_replaced :
    let events : List (Event Bool) :=
      [.construct true [97] (oneFile 7 (bytes "old") (by decide)), .replace [97] (bytes "new"),
        .construct false [97] (oneFile 8 (bytes "new") (by decide))]
    ∀ before, before <+: events →
      (before.foldl step (start (fun _ => some (bytes "old")) fun _ => [])).Measured := by
  intro events
  refine (measured_iff _ _ events ?_).mpr ?_
  · refine ⟨honest_oneFile _ rfl List.not_mem_nil, trivial, honest_oneFile _ rfl ?_, trivial⟩
    decide +kernel
  · refine ⟨?_, trivial, ?_, trivial⟩
    · rintro d size ⟨⟩
    · rintro d size found ⟨⟩
      obtain rfl := Option.some.inj found
      decide +kernel

/-- The second connection shares the descriptor of the file that was there, and has the size of the
one that is there now. -/
theorem replaced_unmeasured :
    let events : List (Event Bool) :=
      [.construct true [97] (oneFile 7 (bytes "old") (by decide)), .replace [97] (bytes "newer"),
        .construct false [97] (oneFile 8 (bytes "newer") (by decide))]
    let disk : Bytes → Option Bytes := fun _ => some (bytes "old")
    AlongFold step Legal (start disk fun _ => []) events ∧
      ¬ (events.foldl step (start disk fun _ => [])).Measured := by
  intro events disk
  constructor
  · refine ⟨honest_oneFile _ rfl List.not_mem_nil, trivial, honest_oneFile _ rfl ?_, trivial⟩
    decide +kernel
  · intro measured
    have size := measured (false, .opened [97] 7 5 (by decide)) (by decide +kernel)
    revert size
    decide +kernel

end Senders

end Viking.Cache
