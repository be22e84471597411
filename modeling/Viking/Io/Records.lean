/-
# The records of the poll

`update` replaces the bits of one record, and `remove` is to erase one. It erases by a sweep
that compares the lower halves of addresses, and it compares them with a record that the sweep
itself moves: `sweep_split` says what is left. `forgets_one_iff` says when that is all but the
record looked for.
-/

import Mathlib.Data.List.Nodup
import Viking.Io.Epoll

namespace Viking.Io

open Epoll

section Records

variable {a : Address} {flags flags' : UInt32} {rs : List Registration}

theorem setEvents_setEvents :
    Poll.setEvents a flags (Poll.setEvents a flags' rs) = Poll.setEvents a flags rs := by
  simp only [Poll.setEvents, List.map_map]
  apply List.map_congr_left
  intro r _
  simp only [Function.comp_apply]
  split_ifs <;> rfl

/-- Apart from the record at `a` nothing is changed. -/
theorem filter_setEvents (flags : UInt32) (rs : List Registration) :
    (Poll.setEvents a flags rs).filter (fun r => r.ptr ≠ a) = rs.filter fun r => r.ptr ≠ a := by
  induction rs with
  | nil => rfl
  | cons r rs ih =>
    by_cases same : r.ptr = a
    · simpa [Poll.setEvents, same] using ih
    · simpa [Poll.setEvents, same] using ih

end Records

/-! ## The sweep -/

section Sweep

variable {position : Nat} {found x : Registration} {kept rest : List Registration}

/-- The records whose low half is not that of `x`. -/
def unlike (x : Registration) (rs : List Registration) : List Registration :=
  rs.filter fun r => r.fd ≠ x.fd

theorem unlike_eq_self : unlike x rest = rest ↔ ∀ r ∈ rest, r.fd ≠ x.fd := by
  simp [unlike, List.filter_eq_self]

theorem unlike_cons_of_eq {r : Registration} (same : r.fd = x.fd) :
    unlike x (r :: rest) = unlike x rest := by
  simp [unlike, same]

theorem unlike_cons_of_ne {r : Registration} (other : r.fd ≠ x.fd) :
    unlike x (r :: rest) = r :: unlike x rest := by
  simp [unlike, other]

/-- Until something has been moved to the position, what is compared is the record found. -/
theorem sweep_before (before rest : List Registration)
    (place : kept.length + before.length ≤ position) :
    Poll.sweep position found kept (before ++ rest) =
      Poll.sweep position found (kept ++ unlike found before) rest := by
  induction before generalizing kept with
  | nil => simp [unlike]
  | cons r before ih =>
    rw [List.length_cons] at place
    have unmoved : kept[position]? = none := List.getElem?_eq_none (by omega)
    rw [List.cons_append, Poll.sweep, unmoved, Option.getD_none]
    split_ifs with same
    · rw [unlike_cons_of_eq same]
      exact ih (by omega)
    · rw [unlike_cons_of_ne same, ih, List.append_assoc]
      · rfl
      · rw [List.length_append, List.length_singleton]
        omega

/-- Once another record has been moved there, it is that one that is compared. -/
theorem sweep_after (moved : kept[position]? = some x) :
    Poll.sweep position found kept rest = kept ++ unlike x rest := by
  induction rest generalizing kept with
  | nil => simp [Poll.sweep, unlike]
  | cons r rest ih =>
    rw [Poll.sweep, moved, Option.getD_some]
    split_ifs with same
    · rw [unlike_cons_of_eq same]
      exact ih moved
    · rw [unlike_cons_of_ne same, ih, List.append_assoc]
      · rfl
      · rw [List.getElem?_append_left (List.getElem?_eq_some_iff.mp moved).1, moved]

/-- What is left was there, in the same order. -/
theorem sweep_sublist : List.Sublist (Poll.sweep position found kept rest) (kept ++ rest) := by
  induction rest generalizing kept with
  | nil => simp [Poll.sweep]
  | cons r rest ih =>
    rw [Poll.sweep]
    split_ifs
    · exact ih.trans (List.Sublist.append_left (List.sublist_cons_self r rest) kept)
    · refine ih.trans ?_
      rw [List.append_assoc]
      rfl

/-- What is in front of the record found is compared with it, and the record itself goes. -/
theorem sweep_found (before after : List Registration) (found : Registration) :
    Poll.sweep before.length found [] (before ++ found :: after) =
      Poll.sweep before.length found (unlike found before) after := by
  have short : (unlike found before).length ≤ before.length := List.length_filter_le _ _
  rw [sweep_before before _ (by simp), List.nil_append, Poll.sweep,
    List.getElem?_eq_none short, Option.getD_none, if_pos rfl]

/-- Every record is told from the one that it is compared with: those in front of the record
found and the next one behind it from that record, those further behind from the next one. -/
structure ToldApart (before : List Registration) (found : Registration)
    (after : List Registration) : Prop where
  front : ∀ r ∈ before, r.fd ≠ found.fd
  next : ∀ next ∈ after.head?, next.fd ≠ found.fd
  behind : ∀ next ∈ after.head?, ∀ r ∈ after.tail, r.fd ≠ next.fd

/-- The record found is dropped, and no other iff all are told apart. -/
theorem sweep_split (before after : List Registration) (found : Registration) :
    Poll.sweep before.length found [] (before ++ found :: after) = before ++ after ↔
      ToldApart before found after := by
  rw [sweep_found]
  by_cases others : ∀ r ∈ before, r.fd ≠ found.fd
  · rw [unlike_eq_self.mpr others]
    cases after with
    | nil => exact iff_of_true (by rw [Poll.sweep, List.append_nil]) ⟨others, by simp, by simp⟩
    | cons next rest =>
      rw [Poll.sweep, List.getElem?_eq_none (Nat.le_refl _), Option.getD_none]
      split_ifs with same
      · refine iff_of_false (fun left => ?_) fun h => h.next next rfl same
        have short : (before ++ next :: rest).length ≤ (before ++ rest).length :=
          left ▸ sweep_sublist.length_le
        rw [List.length_append, List.length_append, List.length_cons] at short
        omega
      · -- the next record takes the place of the one that is dropped
        rw [sweep_after (x := next) (by simp), List.append_assoc, List.append_cancel_left_eq,
          List.singleton_append, List.cons.injEq, unlike_eq_self]
        constructor
        · rintro ⟨-, behind⟩
          exact ⟨others, by simpa using same, by simpa using behind⟩
        · intro h
          exact ⟨rfl, h.behind next rfl⟩
  · refine iff_of_false (fun left => ?_) fun h => others h.front
    have fewer : (unlike found before).length < before.length := by
      refine lt_of_le_of_ne (List.length_filter_le _ _) fun same => others ?_
      exact unlike_eq_self.mp (List.filter_sublist.eq_of_length same)
    have short : (before ++ after).length ≤ (unlike found before ++ after).length :=
      left ▸ sweep_sublist.length_le
    rw [List.length_append, List.length_append] at short
    omega

end Sweep

namespace Poll

variable {poll : Poll} {a : Address} {rs : List Registration} {found : Registration}

/-- Where the record that `find_if` finds is. -/
theorem find_split (first : rs.find? (fun r => r.ptr = a) = some found) :
    ∃ before after, rs = before ++ found :: after ∧ found.ptr = a ∧ (∀ r ∈ before, r.ptr ≠ a) ∧
      rs.findIdx (fun r => r.ptr = a) = before.length := by
  obtain ⟨is, before, after, rfl, none⟩ := List.find?_eq_some_iff_append.mp first
  refine ⟨before, after, rfl, by simpa using is, fun r mem => by simpa using none r mem, ?_⟩
  rw [List.findIdx_append, List.findIdx_eq_length.mpr, if_neg (Nat.lt_irrefl _),
    List.findIdx_cons, is]
  · simp
  · intro r mem
    simpa using none r mem

/-- What is left of records with different addresses when one address goes. -/
theorem filter_split {before after : List Registration} (is : found.ptr = a)
    (apart : ((before ++ found :: after).map Registration.ptr).Nodup) :
    (before ++ found :: after).filter (fun r => r.ptr ≠ a) = before ++ after := by
  subst is
  rw [List.map_append, List.map_cons, List.nodup_append, List.nodup_cons] at apart
  obtain ⟨-, ⟨behind, -⟩, between⟩ := apart
  have front : before.filter (fun r => r.ptr ≠ found.ptr) = before := by
    rw [List.filter_eq_self]
    intro r mem
    simpa using between _ (List.mem_map_of_mem mem) _ List.mem_cons_self
  have back : after.filter (fun r => r.ptr ≠ found.ptr) = after := by
    rw [List.filter_eq_self]
    intro r mem
    have other : r.ptr ≠ found.ptr := fun same => behind (same ▸ List.mem_map_of_mem mem)
    simpa using other
  rw [List.filter_append, List.filter_cons, front, back]
  simp

/-- When the low halves of the addresses differ, one record is dropped. -/
theorem sweep_eq_filter (apart : (rs.map Registration.fd).Nodup)
    (first : rs.find? (fun r => r.ptr = a) = some found) :
    sweep (rs.findIdx fun r => r.ptr = a) found [] rs = rs.filter fun r => r.ptr ≠ a := by
  obtain ⟨before, after, rfl, is, -, place⟩ := find_split first
  have ptrs : ((before ++ found :: after).map Registration.ptr).Nodup := by
    apply List.Nodup.of_map (fun ptr => ptr % 2 ^ 32)
    rwa [List.map_map]
  rw [place, filter_split is ptrs, sweep_split]
  simp only [List.map_append, List.map_cons, List.nodup_append, List.nodup_cons] at apart
  obtain ⟨-, ⟨behind, apart⟩, between⟩ := apart
  have front : ∀ r ∈ before, r.fd ≠ found.fd := fun r mem =>
    between _ (List.mem_map_of_mem mem) _ List.mem_cons_self
  refine ⟨front, fun next first same => ?_, fun next first r mem same => ?_⟩
  · exact behind (same ▸ List.mem_map_of_mem (List.mem_of_mem_head? first))
  · cases after with
    | nil => cases first
    | cons next' rest =>
      cases first
      exact (List.nodup_cons.mp apart).1 (same ▸ List.mem_map_of_mem mem)

/-- Of records with different addresses the one at the address goes for certain. -/
theorem sweep_sublist_filter (apart : (rs.map Registration.ptr).Nodup)
    (first : rs.find? (fun r => r.ptr = a) = some found) :
    List.Sublist (sweep (rs.findIdx fun r => r.ptr = a) found [] rs)
      (rs.filter fun r => r.ptr ≠ a) := by
  obtain ⟨before, after, rfl, is, -, place⟩ := find_split first
  rw [place, sweep_found, filter_split is apart]
  exact sweep_sublist.trans (List.filter_sublist.append (List.Sublist.refl after))

/-! ## What `remove` forgets -/

/-- `remove` returns with all records but the one at the address, as they were, and with
everything as it was when there is none. -/
def ForgetsOne (poll : Poll) (a : Address) : Prop :=
  ∃ poll', poll.remove a .ok = .ok poll' ∧
    poll'.events = poll.events.filter (fun r => r.ptr ≠ a) ∧
    (a ∉ poll.events.map Registration.ptr → poll' = poll)

/-- Around the record at `a`, if there is one, all are told apart. -/
def Distinct (rs : List Registration) (a : Address) : Prop :=
  ∀ found ∈ rs.find? (fun r => r.ptr = a),
    ToldApart (rs.take (rs.findIdx fun r => r.ptr = a)) found
      (rs.drop (rs.findIdx (fun r => r.ptr = a) + 1))

theorem findEvent_eq_none : poll.findEvent a = none ↔ a ∉ poll.events.map Registration.ptr := by
  simp [findEvent]

/-- Of records with different addresses `remove` forgets one, or none if it is not there, iff
it tells the low halves apart that it compares. -/
theorem forgets_one_iff (poll : Poll) (a : Address)
    (apart : (poll.events.map Registration.ptr).Nodup) :
    poll.ForgetsOne a ↔ Distinct poll.events a := by
  cases known : poll.findEvent a with
  | none =>
    have absent := findEvent_eq_none.mp known
    have unchanged : poll.events = poll.events.filter fun r => r.ptr ≠ a := by
      refine (List.filter_eq_self.mpr fun r mem => ?_).symm
      have other : r.ptr ≠ a := fun same => absent (same ▸ List.mem_map_of_mem mem)
      simpa using other
    refine iff_of_true ⟨poll, by rw [remove, known], unchanged, fun _ => rfl⟩ ?_
    intro found first
    rw [findEvent] at known
    rw [known] at first
    cases first
  | some found =>
    obtain ⟨before, after, same, is, front, place⟩ := find_split known
    have present : a ∈ poll.events.map Registration.ptr := by
      rw [same, ← is]
      simp
    have around : Distinct poll.events a ↔ ToldApart before found after := by
      rw [findEvent] at known
      rw [Distinct, known, place, same]
      simp
    have removed : poll.remove a .ok = .ok
        { events := sweep before.length found [] poll.events
          watched := poll.watched.filter fun r => r.ptr ≠ a } := by
      rw [remove, known, ← place]
      rfl
    have left : sweep before.length found [] poll.events =
        poll.events.filter (fun r => r.ptr ≠ a) ↔ ToldApart before found after := by
      rw [same] at apart ⊢
      rw [filter_split is apart]
      exact sweep_split before after found
    rw [around, ← left]
    constructor
    · rintro ⟨poll', returned, events, -⟩
      rw [removed] at returned
      cases returned
      exact events
    · intro events
      exact ⟨_, removed, events, fun absent => absurd present absent⟩

/-- Two channels whose addresses differ in the lower half. -/
theorem forgets_one_of_two :
    Poll.ForgetsOne ⟨[⟨0x5600, read⟩, ⟨0x5700, read⟩], []⟩ 0x5600 ↔
      Distinct [⟨0x5600, read⟩, ⟨0x5700, read⟩] 0x5600 :=
  forgets_one_iff ⟨[⟨0x5600, read⟩, ⟨0x5700, read⟩], []⟩ 0x5600 (by decide)

/-- Of two channels that are 4 GiB apart both are forgotten when one is removed. -/
theorem forgets_both :
    ¬ ∀ (poll : Poll) (a : Address), (poll.events.map Registration.ptr).Nodup →
      (∀ r ∈ poll.events, r.ptr < 2 ^ 64) → poll.ForgetsOne a := by
  intro all
  obtain ⟨poll', returned, events, -⟩ := all
    ⟨[⟨0x55aa00005600, read⟩, ⟨0x55ab00005600, read⟩], []⟩ 0x55aa00005600 (by decide) (by decide)
  have forgotten : (Poll.remove ⟨[⟨0x55aa00005600, read⟩, ⟨0x55ab00005600, read⟩], []⟩
      0x55aa00005600 .ok).map Poll.events = .ok [] := by decide
  rw [returned] at forgotten
  simp only [Except.map, Except.ok.injEq] at forgotten
  rw [forgotten] at events
  exact absurd events (by decide)

end Poll

end Viking.Io
