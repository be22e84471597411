/-
# What a request can reach

The paths that `process_request` asks the file system about and sends files from are all
`root_path + request.url`, which nothing checks, and the command that finds the type of a
file opens what a shell makes of the same path. `contained_iff` says when all these are in
the subtree of `root_path`: two dots in the URL may lead up from the root directory only if
what follows leads back into it by name, a URL without a slash at its start goes on with
the last name of `root_path`, and the words of a path without an extension are each a path.

Where a path leads is read off the path alone, as there are no symbolic links.
-/

import Viking.Http.Commands
import Viking.Lib.Lexical

namespace Viking.Http

open Io Cache Asking Shell Lexical

/-! ## Where a path leads -/

/-- What one part of a path between slashes does. -/
def moveOf (part : Bytes) : Move Bytes :=
  if part = [] ∨ part = bytes "." then .stay
  else if part = bytes ".." then .up
  else .down part

def movesOf (path : Bytes) : List (Move Bytes) := (path.splitOn (ascii '/')).map moveOf

/-- Where a path leads. -/
def place (path : Bytes) : Place Bytes :=
  (Place.start (path.head? = some (ascii '/'))).follow (movesOf path)

/-- `path`, as the kernel gets it, leads into the subtree of `root`. -/
def Contained (root path : Bytes) : Prop := (place (cString root)).Within (place path)

instance (root path : Bytes) : Decidable (Contained root path) :=
  inferInstanceAs (Decidable (Place.Within _ _))

/-- A slash is between the two. -/
def Adjoins (root url : Bytes) : Prop :=
  url.head? = some (ascii '/') ∨ root.getLast? = some (ascii '/')

instance (root url : Bytes) : Decidable (Adjoins root url) := inferInstanceAs (Decidable (_ ∨ _))

/-- A path up to its last slash. -/
def directory (path : Bytes) : Bytes := path.rdropWhile (· ≠ ascii '/')

/-- What is behind the last slash. -/
def lastName (path : Bytes) : Bytes := path.rtakeWhile (· ≠ ascii '/')

/-- What the kernel sees of a URL behind `root`. -/
def seen (root url : Bytes) : Bytes := if 0 ∈ root then [] else cString url

/-- The URL leads from the root directory to itself or below it. -/
def Stays (root url : Bytes) : Prop :=
  let base := cString root
  let url := seen root url
  url = [] ∨
    base ≠ [] ∧ Adjoins base url ∧ (place base).Rejoins (Place.climb (movesOf url)) ∨
    ¬ Adjoins base url ∧
      (place base).Within ((place (directory base)).after
        (Place.climb (movesOf (lastName base ++ url))))

section Paths

variable {path root url : Bytes}

theorem movesOf_slash (path rest : Bytes) :
    movesOf (path ++ ascii '/' :: rest) = movesOf path ++ movesOf rest := by
  rw [movesOf, List.splitOn_append_cons_self, List.map_append]
  rfl

theorem movesOf_nil : movesOf [] = [.stay] := rfl

theorem place_nil : place [] = Place.start false := rfl

/-- Behind a path that ends with a slash. -/
theorem place_append_of_last (last : path.getLast? = some (ascii '/')) (rest : Bytes) :
    place (path ++ rest) = (place path).follow (movesOf rest) := by
  -- The part behind the last slash is empty and stays where it is.
  obtain ⟨front, rfl⟩ := List.getLast?_eq_some_iff.mp last
  have head : (front ++ [ascii '/'] ++ rest).head? = (front ++ [ascii '/']).head? := by
    cases front <;> rfl
  rw [place, head, place, movesOf_slash, movesOf_nil, Place.follow_append, List.append_assoc,
    List.singleton_append, movesOf_slash, Place.follow_append]
  rfl

/-- Before a path that starts with one. -/
theorem place_append_of_head (nonempty : path ≠ []) (head : url.head? = some (ascii '/')) :
    place (path ++ url) = (place path).follow (movesOf url) := by
  cases url with
  | nil => cases head
  | cons slash rest =>
    rw [List.head?_cons, Option.some.injEq] at head
    subst head
    -- Whether the path is absolute is decided by its own first byte.
    have first : (path ++ ascii '/' :: rest).head? = path.head? := by
      obtain ⟨c, front, rfl⟩ := List.exists_cons_of_ne_nil nonempty
      rfl
    have moves : movesOf (ascii '/' :: rest) = .stay :: movesOf rest := movesOf_slash [] rest
    rw [place, first, movesOf_slash, Place.follow_append, moves, Place.follow_stay, place]

theorem directory_append_lastName (path : Bytes) : directory path ++ lastName path = path :=
  List.rdropWhile_append_rtakeWhile

/-- Otherwise the URL goes on with the last name of the path. -/
theorem place_append_of_not_adjoins (apart : ¬ Adjoins path url) :
    place (path ++ url) = (place (directory path)).follow (movesOf (lastName path ++ url)) := by
  have whole : path ++ url = directory path ++ (lastName path ++ url) := by
    rw [← List.append_assoc, directory_append_lastName]
  by_cases empty : directory path = []
  · have relative : (path ++ url).head? ≠ some (ascii '/') := by
      cases path with
      | nil => exact fun head => apart (.inl head)
      | cons c path =>
        have all := List.rdropWhile_eq_nil_iff.mp empty c List.mem_cons_self
        simpa using all
    have same : path ++ url = lastName path ++ url := by rw [whole, empty, List.nil_append]
    rw [same] at relative ⊢
    rw [empty, place_nil, place, decide_eq_false relative]
  · have last : (directory path).getLast? = some (ascii '/') := by
      have slash := List.rdropWhile_last_not (fun c => decide (c ≠ ascii '/')) path empty
      rw [List.getLast?_eq_some_getLast empty]
      simpa [directory] using slash
    rw [whole, place_append_of_last last]

theorem cString_append (root url : Bytes) :
    cString (root ++ url) = cString root ++ seen root url := by
  have whole : (cString root).length = root.length ↔ 0 ∉ root := by
    rw [← cString_eq_self_iff]
    exact ⟨(List.takeWhile_prefix _).eq_of_length, congrArg List.length⟩
  have cut : cString (root ++ url) =
      if (cString root).length = root.length then root ++ cString url else cString root :=
    List.takeWhile_append
  rw [cut, seen]
  by_cases zero : 0 ∈ root
  -- A zero byte in the root ends the path there and hides the URL.
  · rw [if_neg fun same => whole.mp same zero, if_pos zero, List.append_nil]
  · rw [if_pos (whole.mpr zero), if_neg zero, cString_eq_self_iff.mpr zero]

theorem contained_iff_stays (root url : Bytes) :
    Contained root (cString (root ++ url)) ↔ Stays root url := by
  rw [Contained, cString_append, Stays]
  generalize cString root = base
  generalize seen root url = url
  by_cases none : url = []
  · rw [none, List.append_nil]
    exact iff_of_true (Place.within_refl _) (.inl rfl)
  · simp only [none, false_or]
    by_cases adjoins : Adjoins base url
    · by_cases empty : base = []
      · -- the path starts at the root, and nothing is known of where `base` does
        subst empty
        have head : url.head? = some (ascii '/') := adjoins.resolve_right (by simp)
        have absolute : (place url).absolute = true := by
          rw [place, Place.follow_absolute, decide_eq_true head]
          rfl
        simp only [adjoins, List.nil_append, Place.Within, absolute, place_nil, Place.start]
        simp
      -- The URL is followed from where the root directory is.
      · have path : place (base ++ url) = (place base).follow (movesOf url) := by
          rcases adjoins with head | last
          · exact place_append_of_head empty head
          · exact place_append_of_last last url
        rw [path, Place.follow_eq_after, Place.within_after_iff]
        simp [adjoins, empty]
    -- The URL is followed from the directory above, by the last name made longer.
    · rw [place_append_of_not_adjoins adjoins, Place.follow_eq_after]
      simp [adjoins]

end Paths

/-! ## What is reached -/

/-- What `strip_route` does with a URL. Without a slash in the URL it reads from before its start,
and what comes of that is not known: it returns some string, or the program goes no further. -/
structure Stripping where
  strip : Bytes → Except Fault Bytes
  agrees : ∀ url route, stripRoute url = .ok route → strip url = .ok route

/-- The handler that is found for a request. -/
def Stripping.found {ρ : Type} (stripping : Stripping) (routes : List (Route ρ)) (r : Request) :
    Except Fault (Option (Handler ρ)) :=
  if isPassable r then (stripping.strip r.url).map (findHandler r routes) else .ok none

/-- The files, as the kernel gets their paths, that an item sends. -/
def sentFiles {ρ : Type} : Except Fault (ScheduleItem ρ) → List Bytes
  | .ok item => item.buffers.filterMap fun b =>
      match b with
      | .file file => some (cString file.path)
      | .memory _ | .async _ => none
  | .error _ => []

/-- The paths that `process_request` asked about, those of the files that it sends, and those that
the command for a type opened. -/
def touched {ρ : Type} (spawning : Spawning) (site : Site) (r : Request)
    (found : Except Fault (Option (Handler ρ))) (w : World Call.Answer) (s : Record Call Caches) :
    List Bytes :=
  let outcome := processHandled site r found w s
  outcome.2.asked.map Call.path ++ sentFiles outcome.1 ++
    (typedFile site r found w s).toList.flatMap spawning.examined

/-- The file system is not asked: a handler answers, or `strip_route` does not return. -/
def Unasked {ρ : Type} (stripping : Stripping) (routes : List (Route ρ)) (r : Request) : Prop :=
  isPassable r = true ∧
    ∀ route, stripping.strip r.url = .ok route → findHandler r routes route ≠ none

section Found

variable {ρ : Type} {stripping : Stripping} {routes : List (Route ρ)} {r : Request}

/-- With a slash in the URL the handler is the one that `get_user_handler` returns. -/
theorem Stripping.found_eq (slash : isPassable r = true → ascii '/' ∈ r.url) :
    stripping.found routes r = if isPassable r then getUserHandler r routes else .ok none := by
  by_cases passable : isPassable r = true
  · simp only [Stripping.found, passable, if_true, getUserHandler]
    cases stripped : stripRoute r.url with
    | ok route =>
      rw [stripping.agrees _ _ stripped]
      rfl
    | error fault =>
      -- There is a slash, so a route is left from there on.
      have route : r.url.dropWhile (· ≠ ascii '/') = [] := by
        unfold stripRoute at stripped
        split at stripped
        · assumption
        · cases stripped
      have there := List.dropWhile_eq_nil_iff.mp route _ (slash passable)
      simp at there
  · simp [Stripping.found, passable]

theorem processHandled_found (site : Site)
    (slash : isPassable r = true → ascii '/' ∈ r.url) :
    processHandled site r (stripping.found routes r) = processRequest site routes r := by
  rw [processRequest, Stripping.found_eq slash]

theorem unasked_iff : Unasked stripping routes r ↔ stripping.found routes r ≠ .ok none := by
  rw [Unasked, Stripping.found]
  by_cases passable : isPassable r = true
  · cases stripped : stripping.strip r.url with
    | ok route => simp [passable, Except.map]
    | error fault => simp [passable, Except.map]
  · simp [passable]

end Found

section Reached

variable {ρ : Type} {spawning : Spawning} {site : Site} {r : Request}
  {found : Except Fault (Option (Handler ρ))} {w : World Call.Answer} {s : Record Call Caches}

/-- Nothing is asked about or sent but what the rules allow. -/
theorem mem_asked_or_sent {P : Call → Prop} {files : Bytes → Prop} {E : Fault → Prop}
    {m : Serving (ScheduleItem ρ)} (h : Meets P (WellMade files) E m) {path : Bytes}
    (mem : path ∈ (m w s).2.asked.map Call.path ++ sentFiles (m w s).1) :
    (∃ call ∈ s.asked, call.path = path) ∨ (∃ call, P call ∧ call.path = path) ∨
      ∃ name, files name ∧ cString name = path := by
  obtain ⟨more, asked, all⟩ := h.asked w s
  rcases List.mem_append.mp mem with asks | sends
  -- What is asked about was asked before or is asked now.
  · rw [asked] at asks
    obtain ⟨call, there, rfl⟩ := List.mem_map.mp asks
    rcases List.mem_append.mp there with old | new
    · exact .inl ⟨call, old, rfl⟩
    · exact .inr (.inl ⟨call, all call new, rfl⟩)
  · right
    right
    cases returned : (m w s).1 with
    | error fault =>
      rw [returned] at sends
      cases sends
    | ok item =>
      rw [returned] at sends
      obtain ⟨b, buffer, sent⟩ := List.mem_filterMap.mp sends
      cases b with
      | memory b => cases sent
      | async a => cases sent
      | file file =>
        simp only [Option.some.injEq] at sent
        exact ⟨file.path, (h.returns w s item returned).paths file buffer, sent⟩

theorem meets_of_found (other : found ≠ .ok none) :
    Meets (fun _ => False) (WellMade fun _ => False) (fun _ => True)
      (processHandled site r found) := by
  apply meets_nothrow (E := fun _ => True)
  · have looked : Meets (fun _ => False) (fun h => h ≠ none) (fun _ => True)
        (ofExcept found : Serving (Option (Handler ρ))) :=
      .ofExcept (fun h returned none => other (none ▸ returned)) fun _ _ => trivial
    refine looked.bind fun h some => ?_
    obtain ⟨handler, rfl⟩ := Option.ne_none_iff_exists'.mp some
    exact (meets_passRequest handler).mono (fun _ made => made) fun _ _ => trivial
  · intro fault _ _
    trivial
  · intro _
    trivial

theorem typedFile_of_found (other : found ≠ .ok none) : typedFile site r found w s = none := by
  rcases found with fault | (- | handler)
  · rfl
  · exact absurd rfl other
  · rfl

/-- A request that is not looked for on the disk touches nothing. -/
theorem touched_of_found (other : found ≠ .ok none) (fresh : s.asked = []) :
    touched spawning site r found w s = [] := by
  rw [touched, typedFile_of_found other, Option.toList_none, List.flatMap_nil, List.append_nil,
    List.eq_nil_iff_forall_not_mem]
  intro path mem
  rcases mem_asked_or_sent (meets_of_found other) mem with
    ⟨call, old, -⟩ | ⟨call, impossible, -⟩ | ⟨name, impossible, -⟩
  · rw [fresh] at old
    cases old
  · exact impossible
  · exact impossible

/-- Any other is at least tested at its path. -/
theorem mem_asked_of_not_found :
    cString (fullPath site r) ∈
      (processHandled site r (.ok none : Except Fault (Option (Handler ρ))) w s).2.asked.map
        Call.path := by
  have tested : Call.status (cString (fullPath site r)) ∈ (isDiskResource site r w s).2.asked := by
    have test := fsTest_run w s (fullPath site r) Option.isSome
    rw [← fsExists] at test
    simp only [isDiskResource, nothrow, through, test, afterStatus]
    exact List.mem_append_right _ (List.mem_singleton_self _)
  have continues : Call.status (cString (fullPath site r)) ∈
      ((do
        if ← isDiskResource site r then takeDiskResource site r
        else notFound site r : Serving (ScheduleItem ρ)) w s).2.asked := by
    -- Nothing that follows takes a question back.
    apply Meets.mem_asked_bind (P := OnPath (fullPath site r)) (E := fun fault => ¬ Thrown fault)
      (R := WellMade (· = fullPath site r)) _ tested
    intro there
    split_ifs
    · exact meets_takeDiskResource
    · exact meets_notFound
  exact List.mem_map_of_mem continues

/-- What is asked about and sent is in a set of paths iff the path of the request is. -/
theorem forall_asked_or_sent_iff (P : Bytes → Prop) (fresh : s.asked = []) :
    (∀ path ∈ (processHandled site r (.ok none : Except Fault (Option (Handler ρ))) w s).2.asked.map
        Call.path ++ sentFiles (processHandled site r (.ok none : Except Fault (Option
          (Handler ρ))) w s).1, P path) ↔ P (cString (fullPath site r)) := by
  constructor
  · intro all
    exact all _ (List.mem_append_left _ mem_asked_of_not_found)
  · intro inside path mem
    rcases mem_asked_or_sent (meets_processHandled _) mem with
      ⟨call, old, -⟩ | ⟨call, onPath, rfl⟩ | ⟨name, rfl, rfl⟩
    · rw [fresh] at old
      cases old
    · rw [onPath]
      exact inside
    · exact inside

end Reached

/-- All that a request touches is in `P` iff it is not looked for on the disk, or its path is in `P`
and so is what the command opens that is run for it. -/
theorem forall_touched_iff {ρ : Type} {spawning : Spawning} {site : Site} {r : Request}
    {found : Except Fault (Option (Handler ρ))} {w : World Call.Answer} {s : Record Call Caches}
    (P : Bytes → Prop) (fresh : s.asked = []) :
    (∀ path ∈ touched spawning site r found w s, P path) ↔
      found ≠ .ok none ∨ P (cString (fullPath site r)) ∧
        ∀ path ∈ typedFile site r found w s, spawning.Confined P path := by
  by_cases other : found ≠ .ok none
  · rw [touched_of_found other fresh]
    simp [other]
  · obtain rfl := not_not.mp other
    simp only [ne_eq, not_true_eq_false, false_or, touched, List.forall_mem_append]
    apply and_congr
    · rw [← List.forall_mem_append]
      exact forall_asked_or_sent_iff P fresh
    -- What the command opens is in `P` for each path, of which there is at most one.
    · simp only [List.mem_flatMap, Option.mem_toList, forall_exists_index, and_imp,
        ← Spawning.examined_iff]
      exact ⟨fun all path typed name => all name path typed,
        fun all name path typed => all path typed name⟩

/-- For a path that a shell reads as itself and that is no option, the URL is all that matters. -/
theorem contained_plain_iff {ρ : Type} (stripping : Stripping) (spawning : Spawning) (site : Site)
    (routes : List (Route ρ)) (r : Request) (w : World Call.Answer) {caches : Caches}
    (keyed : Keyed caches) (read : ReadsItself spawning.matching (cString (fullPath site r)))
    (plain : Operands [cString (fullPath site r)]) :
    (∀ path ∈ touched spawning site r (stripping.found routes r) w ⟨[], caches⟩,
        Contained site.config.rootPath path) ↔
      Unasked stripping routes r ∨ Stays site.config.rootPath r.url := by
  rw [forall_touched_iff _ rfl, unasked_iff, ← contained_iff_stays]
  apply or_congr_right
  refine and_iff_left_of_imp fun inside path typed => ?_
  obtain rfl := typedFile_path (s := ⟨[], caches⟩) keyed typed
  exact Spawning.confined_self read plain inside

/-- All that a request touches is in the subtree of `root_path` iff the file system is not
asked at all, or the URL stays and the command for the type of a file that is sent, if it is
run, is confined to the subtree. -/
theorem contained_iff {ρ : Type} (stripping : Stripping) (spawning : Spawning) (site : Site)
    (routes : List (Route ρ)) (r : Request) (w : World Call.Answer) (caches : Caches) :
    (∀ path ∈ touched spawning site r (stripping.found routes r) w ⟨[], caches⟩,
        Contained site.config.rootPath path) ↔
      Unasked stripping routes r ∨
        Stays site.config.rootPath r.url ∧
          ∀ path ∈ typedFile site r (stripping.found routes r) w ⟨[], caches⟩,
            spawning.Confined (Contained site.config.rootPath) path := by
  rw [forall_touched_iff _ rfl, unasked_iff, ← contained_iff_stays]
  exact Iff.rfl

/-- A `strip_route` that does not go on without a slash. -/
def Stripping.stopping : Stripping := ⟨stripRoute, fun _ _ stripped => stripped⟩

/-- A shell that finds no names for patterns and runs nothing but `file`. -/
def Spawning.plain : Spawning where
  matching _ := []
  opens line := ((simpleCommand (fun _ => []) line).getD []).drop 2
  operands line words read _ := by rw [read]; rfl

/-- Two dots lead out of the root directory. -/
theorem dots_escape :
    ¬ ∀ (stripping : Stripping) (spawning : Spawning) (site : Site) (r : Request)
        (w : World Call.Answer),
      ∀ path ∈ touched (ρ := Unit) spawning site r (stripping.found [] r) w ⟨[], .empty⟩,
        Contained site.config.rootPath path := by
  intro all
  let site : Site :=
    ⟨⟨bytes "now", id, id, fun _ => none, fun _ => [], .byName⟩, ⟨bytes "/srv/www", 300, false⟩,
      ⟨12⟩⟩
  let r : Request := ⟨.get, ⟨1, 1⟩, ∅, bytes "/../../etc/passwd", []⟩
  have tested : bytes "/srv/www/../../etc/passwd" ∈
      touched (ρ := Unit) .plain site r (Stripping.stopping.found [] r) (unreadable .notFound)
        ⟨[], .empty⟩ := by
    decide +kernel
  have outside : ¬ Contained (bytes "/srv/www") (bytes "/srv/www/../../etc/passwd") := by
    decide +kernel
  exact outside (all .stopping .plain site r _ _ tested)

end Viking.Http
