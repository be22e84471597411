/-
# The case of field names in requests

The server looks its fields up under one spelling each. `behaviour` is what can be seen of the
reads of a request: the read that completes it, the coding that is chosen, and the item that is
scheduled. `caseBlind_iff` says when the case of field names does not show there.

A request whose names are all in capitals has none of these fields, so it is complete at its first
read and its reply is not coded. Names that differ from the spellings in their case can be respelled
one at a time, and each of them has to leave it at that.
-/

import Viking.Http.FieldNames
import Viking.Http.Indeterminacy
import Viking.Http.Negotiation

namespace Viking.Http

open Io Cache Asking

/-! ## Respelling names -/

/-- The letter `c` at position `i` of a name, in the case that `spelling` has there if that is the
same letter, and a capital otherwise. -/
def letterToward (spelling : Bytes) (i : ℕ) (c : Byte) : Byte :=
  match spelling[i]? with
  | some d => if toUpper d = toUpper c then d else toUpper c
  | none => toUpper c

/-- The name in the case of `spelling`. -/
def toward (spelling name : Bytes) : Bytes := name.mapIdx (letterToward spelling)

/-- The buffer, read from the execution on, with the `n`-th name in the case of `spelling n`. -/
def recase (spelling : ℕ → Bytes) : Execution → Bytes → Bytes
  | _, [] => []
  | e, c :: b =>
    let letter :=
      match (e.consume c).marked with
      | some (.headerField, name) => letterToward (spelling (fieldCount e.callbacks)) name.length c
      | _ => c
    -- nothing is read any more once the parser has returned
    (if e.returned then c else letter) :: recase spelling (e.step c) b

/-- The buffer with the `n`-th name in the case of `spelling n`. -/
def respell (spelling : ℕ → Bytes) (b : Bytes) : Bytes :=
  recase spelling { parser := httpParserInit } b

theorem toUpper_letterToward (spelling : Bytes) (i : ℕ) (c : Byte) :
    toUpper (letterToward spelling i c) = toUpper c := by
  unfold letterToward
  cases spelling[i]? with
  | none => exact toUpper_toUpper c
  | some d =>
    dsimp only
    split_ifs with same
    · exact same
    · exact toUpper_toUpper c

theorem toward_append (spelling name : Bytes) (c : Byte) :
    toward spelling (name ++ [c]) =
      toward spelling name ++ [letterToward spelling name.length c] := by
  rw [toward, List.mapIdx_concat]
  rfl

theorem toward_nil (name : Bytes) : toward [] name = uppercase name := by
  apply List.ext_getElem?
  intro i
  have capital : letterToward [] i = toUpper := by
    funext c
    simp [letterToward]
  rw [toward, List.getElem?_mapIdx, capital, uppercase, List.getElem?_map]

/-- A name that differs from the spelling in its case gets the spelling. -/
theorem toward_eq {spelling name : Bytes} (same : SameName spelling name) :
    toward spelling name = spelling := by
  have capitals : name.map toUpper = spelling.map toUpper := same
  have letters (i : ℕ) : (name[i]?).map toUpper = (spelling[i]?).map toUpper := by
    rw [← List.getElem?_map, ← List.getElem?_map, capitals]
  apply List.ext_getElem?
  intro i
  have letter := letters i
  rw [toward, List.getElem?_mapIdx]
  cases there : spelling[i]? with
  | none =>
    rw [there] at letter
    simpa using letter
  | some d =>
    rw [there] at letter
    obtain ⟨c, has, upper⟩ := Option.map_eq_some_iff.mp letter
    rw [has, Option.map_some, letterToward, there]
    dsimp only
    rw [if_pos upper.symm]

theorem recase_recased (spelling : ℕ → Bytes) {e : Execution} (sound : e.Sound) (b : Bytes) :
    RecasedFrom e b (recase spelling e b) := by
  induction b generalizing e with
  | nil => trivial
  | cons c b ih =>
    refine ⟨?_, ih (Execution.step_sound sound)⟩
    cases live : e.returned with
    | true => exact .inl rfl
    | false =>
      cases naming : e.parser.state.naming with
      | false =>
        -- no name is read here, so the byte stays
        left
        have unnamed := Execution.consume_unnamed (c := c) (sound.fits live) naming
        simp only [Bool.false_eq_true, if_false]
      | true =>
        right
        refine ⟨rfl, rfl, ?_⟩
        simp only [Bool.false_eq_true, if_false]
        split
        · exact toUpper_letterToward _ _ c
        · rfl

theorem recase_follows (spelling : ℕ → Bytes) (e : Execution) (b : Bytes) :
    Follows (fun n name name' => name' = toward (spelling n) name) e b (recase spelling e b) := by
  induction b generalizing e with
  | nil => trivial
  | cons c b ih =>
    refine ⟨?_, ih (e.step c)⟩
    intro live name name' marked related
    rw [toward_append, related, live, marked]
    rfl

/-! ## The fields of a report -/

/-- The value that is reported next, if that is before another name. -/
def nextValue : List Callback → Option Bytes
  | [] => none
  | .onHeaderValue value :: _ => some value
  | .onHeaderField _ :: _ => none
  | _ :: calls => nextValue calls

/-- The names that are reported, each with the first value that it gets. -/
def headerFields : List Callback → List (Bytes × Option Bytes)
  | [] => []
  | .onHeaderField name :: calls => (name, nextValue calls) :: headerFields calls
  | _ :: calls => headerFields calls

section Fields

variable {name value : Bytes} {field : Bytes} {calls : List Callback}

/-- What is found under a name is the first value of a field of that name. -/
theorem mem_of_lookup_harvest (found : (harvest field calls).lookup name = some value) :
    (name = field ∧ nextValue calls = some value) ∨ (name, some value) ∈ headerFields calls := by
  induction calls generalizing field with
  | nil => simp [harvest] at found
  | cons call calls ih =>
    cases call with
    | onHeaderField text =>
      right
      rcases ih found with ⟨rfl, next⟩ | mem
      · rw [headerFields, next]
        exact List.mem_cons_self
      · exact List.mem_cons_of_mem _ mem
    | onHeaderValue text =>
      rw [harvest] at found
      by_cases same : name = field
      · left
        have first : field ∈ (Finmap.singleton field text : Fields) := by simp
        rw [same, Finmap.lookup_union_left first, Finmap.lookup_singleton_eq] at found
        exact ⟨same, found⟩
      · right
        have other : name ∉ (Finmap.singleton field text : Fields) := by simpa using same
        rw [Finmap.lookup_union_right other] at found
        exact (ih found).resolve_left fun left => same left.1
    | _ => exact ih found

/-- Under the name of a field that has a value, some value is found. -/
theorem mem_harvest (there : (name = field ∧ nextValue calls = some value) ∨
    (name, some value) ∈ headerFields calls) : name ∈ harvest field calls := by
  induction calls generalizing field with
  | nil => simp [nextValue, headerFields] at there
  | cons call calls ih =>
    cases call with
    | onHeaderField text =>
      apply ih
      rcases there with ⟨-, none⟩ | mem
      · cases none
      · rcases List.mem_cons.mp mem with same | mem
        · obtain ⟨rfl, next⟩ := Prod.mk.inj same
          exact .inl ⟨rfl, next.symm⟩
        · exact .inr mem
    | onHeaderValue text =>
      rw [harvest, Finmap.mem_union]
      rcases there with ⟨rfl, -⟩ | mem
      · left
        simp
      · exact .inr (ih (.inr mem))
    | _ => exact ih there

theorem mem_of_lookup_fieldsOf (named : name ≠ [])
    (found : (fieldsOf calls).lookup name = some value) :
    (name, some value) ∈ headerFields calls :=
  (mem_of_lookup_harvest found).resolve_left fun left => named left.1

theorem lookup_fieldsOf_of_mem (mem : (name, some value) ∈ headerFields calls) :
    ∃ found, (fieldsOf calls).lookup name = some found :=
  Finmap.mem_iff.mp (mem_harvest (.inr mem))

end Fields

/-! ## Reports that differ in names -/

namespace CallsAlike

variable {α : Type} {T : ℕ → Bytes → Bytes → Prop} {n : ℕ} {cs cs' : List Callback}

theorem swap (h : CallsAlike T n cs cs') :
    CallsAlike (fun n name name' => T n name' name) n cs' cs := by
  induction h with
  | nil n => exact .nil n
  | field related _ ih => exact .field related ih
  | other plain _ ih => exact .other plain ih

theorem lastOf_eq (h : CallsAlike T n cs cs') {written : Callback → Option α}
    (unseen : ∀ name, written (.onHeaderField name) = none) :
    lastOf written cs' = lastOf written cs := by
  induction h with
  | nil n => rfl
  | field _ _ ih => rw [lastOf_cons, lastOf_cons, ih, unseen, unseen]
  | other _ _ ih => rw [lastOf_cons, lastOf_cons, ih]

theorem bodyOf_eq (h : CallsAlike T n cs cs') : bodyOf cs' = bodyOf cs := by
  induction h with
  | nil n => rfl
  | field _ _ ih => exact ih
  | other _ _ ih => rw [bodyOf_cons, bodyOf_cons, ih]

theorem harmless (h : CallsAlike T n cs cs') {settings : UnsetCallbacks}
    (all : ∀ call ∈ cs, Harmless settings call) : ∀ call ∈ cs', Harmless settings call := by
  induction h with
  | nil n => exact all
  | field _ _ ih =>
    rw [List.forall_mem_cons] at all ⊢
    exact ⟨trivial, ih all.2⟩
  | other _ _ ih =>
    rw [List.forall_mem_cons] at all ⊢
    exact ⟨all.1, ih all.2⟩

theorem nextValue_eq (h : CallsAlike T n cs cs') : nextValue cs' = nextValue cs := by
  induction h with
  | nil n => rfl
  | field _ _ _ => rfl
  | @other n call _ _ plain _ ih =>
    cases call with
    | onHeaderField name => cases plain
    | onHeaderValue value => rfl
    | _ => exact ih

/-- The `k`-th field has the same value, and a name that is related. -/
theorem headerFields_get (h : CallsAlike T n cs cs') {k : ℕ} {name : Bytes} {value : Option Bytes}
    (there : (headerFields cs)[k]? = some (name, value)) :
    ∃ name', (headerFields cs')[k]? = some (name', value) ∧ T (n + k) name name' := by
  induction h generalizing k with
  | nil n => simp [headerFields] at there
  | @field n t t' cs cs' related rest ih =>
    cases k with
    | zero =>
      rw [headerFields, List.getElem?_cons_zero, Option.some.injEq, Prod.mk.injEq] at there
      obtain ⟨rfl, rfl⟩ := there
      rw [headerFields, List.getElem?_cons_zero, rest.nextValue_eq]
      exact ⟨t', rfl, related⟩
    | succ k =>
      rw [headerFields, List.getElem?_cons_succ] at there
      obtain ⟨name', there', related'⟩ := ih there
      rw [headerFields, List.getElem?_cons_succ]
      refine ⟨name', there', ?_⟩
      rwa [Nat.add_comm k 1, ← Nat.add_assoc]
  | @other n call _ _ plain _ ih =>
    cases call with
    | onHeaderField name => cases plain
    | _ => exact ih there

theorem headerFields_get' (h : CallsAlike T n cs cs') {k : ℕ} {name' : Bytes} {value : Option Bytes}
    (there : (headerFields cs')[k]? = some (name', value)) :
    ∃ name, (headerFields cs)[k]? = some (name, value) ∧ T (n + k) name name' :=
  h.swap.headerFields_get there

/-- Whether and how a callback fails does not depend on names. -/
theorem foldlM_invoke (h : CallsAlike T n cs cs') {c d : Context} (same : c.settings = d.settings) :
    (cs.foldlM Context.invoke c).map Context.settings =
      (cs'.foldlM Context.invoke d).map Context.settings := by
  induction h generalizing c d with
  | nil n => exact congrArg Except.ok same
  | field _ _ ih =>
    exact ih (c := { c with headerField := _ }) (d := { d with headerField := _ }) same
  | @other n call _ _ _ _ ih =>
    have here := Context.invoke_alike same call
    rw [List.foldlM_cons, List.foldlM_cons]
    cases invoked : c.invoke call with
    | error fault =>
      rw [invoked] at here
      rw [Machine.eq_error_of_map here.symm]
      rfl
    | ok c' =>
      rw [invoked] at here
      obtain ⟨d', invoked', after⟩ := Machine.exists_ok_of_map here.symm
      rw [invoked']
      exact ih after.symm

end CallsAlike

/-! ## Spellings -/

section Spellings

variable {cs cs' : List Callback} {spelling name value : Bytes} {k : ℕ}

/-- In names that are respelled, small letters show that a spelling was given. -/
theorem spelled_of_get (spellings : ℕ → Bytes)
    (h : CallsAlike (fun n name name' => name' = toward (spellings n) name) 0 cs cs')
    (small : uppercase spelling ≠ spelling) {v : Option Bytes}
    (there : (headerFields cs')[k]? = some (spelling, v)) : spellings k ≠ [] := by
  intro hidden
  obtain ⟨name, -, spelled⟩ := h.headerFields_get' there
  rw [Nat.zero_add, hidden, toward_nil] at spelled
  apply small
  rw [spelled, uppercase, uppercase, List.map_map]
  exact List.map_congr_left fun c _ => toUpper_toUpper c

/-- Nothing is found under a spelling with small letters when all names are in capitals. -/
theorem lookup_hidden
    (h : CallsAlike (fun _ name name' => name' = toward [] name) 0 cs cs')
    (small : uppercase spelling ≠ spelling) (named : spelling ≠ []) :
    (fieldsOf cs').lookup spelling = none := by
  by_contra there
  obtain ⟨value, found⟩ := Option.ne_none_iff_exists'.mp there
  obtain ⟨k, mem⟩ := List.mem_iff_getElem?.mp (mem_of_lookup_fieldsOf named found)
  exact spelled_of_get (fun _ => []) h small mem rfl

/-- Under the spelling that one name gets, the value of that field is found. -/
theorem lookup_shown
    (h : CallsAlike (fun n name name' => name' = toward (if n = k then spelling else []) name) 0
      cs cs')
    (small : uppercase spelling ≠ spelling) (named : spelling ≠ [])
    (there : (headerFields cs)[k]? = some (name, some value)) (same : SameName spelling name) :
    (fieldsOf cs').lookup spelling = some value := by
  obtain ⟨name', there', spelled⟩ := h.headerFields_get there
  rw [Nat.zero_add, if_pos rfl, toward_eq same] at spelled
  subst spelled
  obtain ⟨found, lookup⟩ := lookup_fieldsOf_of_mem (List.mem_iff_getElem?.mpr ⟨k, there'⟩)
  obtain ⟨j, mem⟩ := List.mem_iff_getElem?.mp (mem_of_lookup_fieldsOf named lookup)
  -- no other field is under this spelling
  have only : j = k := by
    by_contra other
    exact spelled_of_get (fun n => if n = k then _ else []) h small mem (if_neg other)
  rw [only, there'] at mem
  obtain ⟨-, value⟩ := Prod.mk.inj (Option.some.inj mem)
  rw [lookup, value]

end Spellings

/-- What is reported of a buffer with other spellings. -/
theorem report_respell (spellings : ℕ → Bytes) (b : Bytes) :
    CallsAlike (fun n name name' => name' = toward (spellings n) name) 0 (report b)
      (report (respell spellings b)) :=
  report_alike (fun _ => rfl) (recase_recased spellings (scan_sound []) b)
    (recase_follows spellings _ b)

theorem respell_recased (spellings : ℕ → Bytes) (b : Bytes) : Recased b (respell spellings b) :=
  recase_recased spellings (scan_sound []) b

theorem recased_follows {e : Execution} {b b' : Bytes} (h : RecasedFrom e b b') :
    Follows (fun _ => SameName) e b b' := by
  induction b generalizing e b' with
  | nil => trivial
  | cons c b ih =>
    cases b' with
    | nil => exact h.elim
    | cons c' b' =>
      refine ⟨?_, ih h.2⟩
      intro _ name name' _ related
      refine related.append ?_
      rcases h.1 with same | ⟨-, -, letter⟩
      · rw [same]
      · exact letter

/-- What is reported of a buffer with names in other cases. -/
theorem report_recased {b b' : Bytes} (h : Recased b b') :
    CallsAlike (fun _ => SameName) 0 (report b) (report b') :=
  report_alike (fun _ => rfl) h (recased_follows h)

/-! ## What a request has when it is complete at once -/

/-- The value names a coding that the server has. -/
def NamesCoding (value : Bytes) : Prop :=
  Response.contains value (bytes "deflate") = true ∨ Response.contains value (bytes "gzip") = true

/-- Under no spelling of its name does a field in the report hold back a request of that method or
choose a coding for it. -/
structure Indifferent (config : Configuration) (method : Method) (calls : List Callback) :
    Prop where
  length : canHaveBody method = true → ∀ name value, (name, some value) ∈ headerFields calls →
    SameName contentLengthField name → announced value ≤ (bodyOf calls).length
  coding : config.enableCompression = true → ∀ name value, (name, some value) ∈ headerFields calls →
    SameName acceptEncodingField name → ¬ NamesCoding value

/-- One read makes the request complete, and no coding is chosen for it. -/
structure AtOnce (config : Configuration) (heap : Indeterminate) (chunk : Bytes) : Prop where
  complete : isComplete ((Context.new heap).received chunk) = true
  plain : Response.coding config ((Context.new heap).received chunk) = .none

section Complete

variable {config : Configuration} {heap : Indeterminate} {chunk chunk' : Bytes}

/-- No coding is chosen unless compression is enabled and the request accepts one. -/
theorem coding_eq_none_iff {r : Request} :
    Response.coding config r = .none ↔ config.enableCompression = true →
      ∀ value, r.header.lookup acceptEncodingField = some value → ¬ NamesCoding value := by
  have accepts (name : Bytes) : canCompress r name =
      Response.contains ((r.header.lookup acceptEncodingField).getD []) name := rfl
  unfold Response.coding
  cases config.enableCompression with
  | false => simp
  | true =>
    simp only [accepts, if_true, forall_const]
    cases r.header.lookup acceptEncodingField with
    | none =>
      refine iff_of_true ?_ (by simp)
      decide +kernel
    | some value =>
      simp only [Option.getD_some, Option.some.injEq, forall_eq', NamesCoding, not_or]
      split_ifs <;> simp_all

/-- The request of a new context after one read. -/
theorem received_new (heap : Indeterminate) (chunk : Bytes) :
    (Context.new heap).received chunk =
      { method := (lastOf Callback.method (report chunk)).getD heap.method
        version := (lastOf Callback.version (report chunk)).getD heap.version
        header := fieldsOf (report chunk)
        url := (lastOf Callback.url (report chunk)).getD []
        body := bodyOf (report chunk) } := by
  simp [Context.received, Request.after, Context.new]

theorem firstPassed_of_complete {nonempty : chunk ≠ []} {reads : List ReadSome}
    (harmless : HarmlessOn heap.settings chunk)
    (complete : isComplete ((Context.new heap).received chunk) = true) :
    firstPassed heap none (.data chunk nonempty :: reads) =
      .ok (some (0, (Context.new heap).received chunk)) := by
  have harmless : HarmlessOn (Context.new heap).settings ((Context.new heap).buffer ++ chunk) :=
    harmless
  simp only [firstPassed, handleConnection, Option.getD_none]
  rw [Context.receive_eq_ok harmless]
  simp only [bind, Except.bind, pure, Except.pure, complete, if_true]

/-- What is passed at the first read is complete after it. -/
theorem complete_of_firstPassed {nonempty : chunk ≠ []} {reads : List ReadSome} {r : Request}
    (passed : firstPassed heap none (.data chunk nonempty :: reads) = .ok (some (0, r))) :
    isComplete r = true ∧ r = (Context.new heap).received chunk := by
  simp only [firstPassed, handleConnection, Option.getD_none] at passed
  cases received : (Context.new heap).receive chunk with
  | error fault =>
    rw [received] at passed
    cases passed
  | ok c =>
    have receives := Context.receive_receives received
    rw [received] at passed
    simp only [bind, Except.bind, pure, Except.pure] at passed
    split_ifs at passed with complete
    · have request := congrArg Prod.snd (Option.some.inj (Except.ok.inj passed))
      dsimp only at request
      rw [receives.complete] at complete
      rw [← request, ← receives.request]
      exact ⟨complete, rfl⟩
    · -- what is passed later is not passed at the first read
      dsimp only at passed
      split at passed
      · cases passed
      · rename_i later _
        cases later <;> cases passed

/-- The request after a report that differs in the case of names. -/
theorem received_alike {T : ℕ → Bytes → Bytes → Prop} (heap : Indeterminate)
    (h : CallsAlike T 0 (report chunk) (report chunk')) :
    (Context.new heap).received chunk' =
      { (Context.new heap).received chunk with header := fieldsOf (report chunk') } := by
  rw [received_new, received_new, h.lastOf_eq fun _ => rfl, h.lastOf_eq fun _ => rfl,
    h.lastOf_eq fun _ => rfl, h.bodyOf_eq]

/-- Such requests are counterparts if the same coding is chosen for both. -/
theorem counterpart_of_alike {T : ℕ → Bytes → Bytes → Prop}
    (h : CallsAlike T 0 (report chunk) (report chunk'))
    (coding : Response.coding config ((Context.new heap).received chunk') =
      Response.coding config ((Context.new heap).received chunk)) :
    Counterpart config ((Context.new heap).received chunk)
      ((Context.new heap).received chunk') := by
  have request := received_alike heap h
  constructor
  · rw [request]
  · rw [request]
  · rw [request]
  · rw [request]
  · exact coding

/-- An indifferent request is complete at once, and its reply is not coded. -/
theorem Indifferent.recased (indifferent : Indifferent config
      ((lastOf Callback.method (report chunk)).getD heap.method) (report chunk))
    (h : CallsAlike (fun _ => SameName) 0 (report chunk) (report chunk')) :
    AtOnce config heap chunk' := by
  -- what is found is the value of a field whose name differs in its case
  have field {spelling value : Bytes} (named : spelling ≠ [])
      (found : (fieldsOf (report chunk')).lookup spelling = some value) :
      ∃ name, (name, some value) ∈ headerFields (report chunk) ∧ SameName spelling name := by
    obtain ⟨k, mem⟩ := List.mem_iff_getElem?.mp (mem_of_lookup_fieldsOf named found)
    obtain ⟨name, there, same⟩ := h.headerFields_get' mem
    exact ⟨name, List.mem_iff_getElem?.mpr ⟨k, there⟩, same.symm⟩
  constructor <;> rw [received_alike heap h, received_new]
  · rw [← Bool.not_eq_false, isComplete_eq_false]
    rintro ⟨may, value, found, short⟩
    obtain ⟨name, mem, same⟩ := field (by decide) found
    have enough := indifferent.length may name value mem same
    dsimp only at short
    omega
  · rw [coding_eq_none_iff]
    intro enabled value found
    obtain ⟨name, mem, same⟩ := field (by decide) found
    exact indifferent.coding enabled name value mem same

/-- A request that is complete at once and not coded under every spelling is indifferent. -/
theorem indifferent_of_respelled
    (respelled : ∀ spellings, AtOnce config heap (respell spellings chunk)) :
    Indifferent config ((lastOf Callback.method (report chunk)).getD heap.method)
      (report chunk) := by
  -- a field is found under the spelling that only its name gets
  have shown {spelling name value : Bytes} (small : uppercase spelling ≠ spelling)
      (named : spelling ≠ []) (mem : (name, some value) ∈ headerFields (report chunk))
      (same : SameName spelling name) : ∃ spellings,
        (fieldsOf (report (respell spellings chunk))).lookup spelling = some value := by
    obtain ⟨k, there⟩ := List.mem_iff_getElem?.mp mem
    exact ⟨_, lookup_shown (report_respell _ chunk) small named there same⟩
  constructor
  · intro may name value mem same
    obtain ⟨spellings, found⟩ := shown (by decide +kernel) (by decide) mem same
    have complete := (respelled spellings).complete
    by_contra short
    rw [← Bool.not_eq_false, isComplete_eq_false] at complete
    apply complete
    rw [received_alike heap (report_respell spellings chunk), received_new]
    exact ⟨may, value, found, not_le.mp short⟩
  · intro enabled name value mem same
    obtain ⟨spellings, found⟩ := shown (by decide +kernel) (by decide) mem same
    refine coding_eq_none_iff.mp (respelled spellings).plain enabled value ?_
    rwa [received_new]

/-- A request whose names are all in capitals is complete at once, and its reply is not coded. -/
theorem atOnce_hidden (config : Configuration) (heap : Indeterminate) (chunk : Bytes) :
    AtOnce config heap (respell (fun _ => []) chunk) := by
  have hidden {spelling : Bytes} (small : uppercase spelling ≠ spelling) (named : spelling ≠ []) :=
    lookup_hidden (report_respell (fun _ => []) chunk) small named
  constructor <;> rw [received_new]
  · rw [← Bool.not_eq_false, isComplete_eq_false]
    rintro ⟨-, value, found, -⟩
    rw [hidden (by decide +kernel) (by decide)] at found
    cases found
  · rw [coding_eq_none_iff]
    intro _ value found
    rw [hidden (by decide +kernel) (by decide)] at found
    cases found

end Complete

/-! ## Reads -/

/-- The reads are of the same lengths, and differ in the case of field names at most. -/
def RecasedReads (reads reads' : List ReadSome) : Prop :=
  reads'.map (fun read => read.bytes.length) = reads.map (fun read => read.bytes.length) ∧
    Recased (reads.flatMap ReadSome.bytes) (reads'.flatMap ReadSome.bytes)

instance : DecidableRel RecasedReads := fun _ _ => inferInstanceAs (Decidable (_ ∧ _))

/-- What can be seen of the reads of a request: which read completes it, the coding that is chosen,
and what is scheduled for it. -/
def behaviour {ρ : Type} (site : Site) (routes : List (Route ρ)) (w : World Call.Answer)
    (s : Record Call Caches) (heap : Indeterminate) (reads : List ReadSome) :
    Except Fault (Option (ℕ × CompressionType ×
      (Except Fault (ScheduleItem ρ) × Record Call Caches))) :=
  (firstPassed heap none reads).map <| Option.map fun (n, r) =>
    (n, Response.coding site.config r, processRequest site routes r w s)

/-- In the first read a callback fails, or the fields of its report are indifferent. -/
def CaseBlind (config : Configuration) (heap : Indeterminate) : List ReadSome → Prop
  | .data chunk _ :: _ => HarmlessOn heap.settings chunk →
    Indifferent config ((lastOf Callback.method (report chunk)).getD heap.method) (report chunk)
  | _ => True

section Reads

variable {reads' rest : List ReadSome} {chunk chunk' : Bytes} {nonempty : chunk ≠ []}

theorem recasedReads_head (nonempty' : chunk' ≠ []) (h : Recased chunk chunk') :
    RecasedReads (.data chunk nonempty :: rest) (.data chunk' nonempty' :: rest) := by
  constructor
  · exact congrArg (· :: rest.map fun read => read.bytes.length) h.length
  · exact h.append_right (rest.flatMap ReadSome.bytes)

theorem RecasedReads.of_data (h : RecasedReads (.data chunk nonempty :: rest) reads') :
    ∃ chunk' nonempty' rest', reads' = .data chunk' nonempty' :: rest' ∧ Recased chunk chunk' := by
  obtain ⟨lengths, recased⟩ := h
  cases reads' with
  | nil => cases lengths
  | cons read rest' =>
    have length := (List.cons.inj lengths).1
    cases read with
    | closed => exact absurd (List.eq_nil_of_length_eq_zero length.symm) nonempty
    | data chunk' nonempty' => exact ⟨chunk', nonempty', rest', rfl, recased.of_append length⟩

theorem RecasedReads.of_closed (h : RecasedReads (.closed :: rest) reads') :
    ∃ rest', reads' = .closed :: rest' := by
  cases reads' with
  | nil => cases h.1
  | cons read rest' =>
    have length := (List.cons.inj h.1).1
    cases read with
    | closed => exact ⟨rest', rfl⟩
    | data chunk' nonempty' => exact absurd (List.eq_nil_of_length_eq_zero length) nonempty'

theorem RecasedReads.of_nil (h : RecasedReads [] reads') : reads' = [] :=
  List.map_eq_nil_iff.mp h.1

/-- A call that fails does so with the same fault whatever the names are. -/
theorem receive_eq_error_of_alike {T : ℕ → Bytes → Bytes → Prop} {heap : Indeterminate}
    {fault : Fault} (h : CallsAlike T 0 (report chunk) (report chunk'))
    (failed : (Context.new heap).receive chunk = .error fault) :
    (Context.new heap).receive chunk' = .error fault := by
  have alike := h.foldlM_invoke (c := { Context.new heap with buffer := chunk })
    (d := { Context.new heap with buffer := chunk' }) rfl
  have empty : (Context.new heap).buffer = [] := rfl
  simp only [Context.receive, empty, List.nil_append, bind, Except.bind] at failed ⊢
  simp only [report] at alike
  split at failed
  · rename_i stopped
    rw [stopped] at alike
    rw [Machine.eq_error_of_map alike.symm]
    exact failed
  · cases failed

theorem firstPassed_of_harmful {heap : Indeterminate} {nonempty' : chunk' ≠ []}
    {rest' : List ReadSome} {T : ℕ → Bytes → Bytes → Prop}
    (harmful : ¬ HarmlessOn heap.settings chunk)
    (h : CallsAlike T 0 (report chunk) (report chunk')) :
    firstPassed heap none (.data chunk' nonempty' :: rest') =
      firstPassed heap none (.data chunk nonempty :: rest) := by
  cases received : (Context.new heap).receive chunk with
  | ok c => exact absurd (Context.receive_isOk_iff.mp ⟨c, received⟩) harmful
  | error fault =>
    have received' := receive_eq_error_of_alike h received
    simp only [firstPassed, handleConnection, Option.getD_none, received, received']
    rfl

end Reads

section Behaviour

variable {ρ : Type} {site : Site} {routes : List (Route ρ)} {w : World Call.Answer}
  {s : Record Call Caches} {heap : Indeterminate} {reads : List ReadSome}

/-- The read that completes the request. -/
theorem behaviour_read :
    (behaviour site routes w s heap reads).map (Option.map Prod.fst) =
      (firstPassed heap none reads).map (Option.map Prod.fst) := by
  unfold behaviour
  cases firstPassed heap none reads with
  | error fault => rfl
  | ok passed => cases passed <;> rfl

/-- A request that is complete at once is passed at the first read. -/
theorem behaviour_of_atOnce {chunk : Bytes} {nonempty : chunk ≠ []} {rest : List ReadSome}
    (harmless : HarmlessOn heap.settings chunk) (h : AtOnce site.config heap chunk) :
    behaviour site routes w s heap (.data chunk nonempty :: rest) =
      .ok (some (0, .none,
        processRequest site routes ((Context.new heap).received chunk) w s)) := by
  rw [behaviour, firstPassed_of_complete harmless h.complete, ← h.plain]
  rfl

theorem atOnce_of_behaviour {chunk : Bytes} {nonempty : chunk ≠ []} {rest : List ReadSome}
    {out : Except Fault (ScheduleItem ρ) × Record Call Caches}
    (seen : behaviour site routes w s heap (.data chunk nonempty :: rest) =
      .ok (some (0, .none, out))) : AtOnce site.config heap chunk := by
  obtain ⟨passed, first, same⟩ := Machine.exists_ok_of_map seen
  cases passed with
  | none => cases same
  | some passed =>
    obtain ⟨n, r⟩ := passed
    simp only [Option.map_some, Option.some.injEq, Prod.mk.injEq] at same
    obtain ⟨rfl, plain, -⟩ := same
    obtain ⟨complete, rfl⟩ := complete_of_firstPassed first
    exact ⟨complete, plain⟩

end Behaviour

/-- The server behaves the same in whatever case the field names are written iff the first read
either fails or has no field that could hold the request back or choose a coding. -/
theorem caseBlind_iff {ρ : Type} (site : Site) (routes : List (Route ρ))
    (oblivious : ∀ route ∈ routes, ∀ h ∈ route.handler, Oblivious site.config h)
    (heap : Indeterminate) (reads : List ReadSome) :
    (∀ reads', RecasedReads reads reads' → ∀ w s,
      behaviour site routes w s heap reads' = behaviour site routes w s heap reads) ↔
        CaseBlind site.config heap reads := by
  constructor
  · intro all
    cases reads with
    | nil => trivial
    | cons read rest =>
      cases read with
      | closed => trivial
      | data chunk nonempty =>
        intro harmless
        have filled (spellings : ℕ → Bytes) : respell spellings chunk ≠ [] := by
          rw [← List.length_pos_iff, (respell_recased spellings chunk).length]
          exact List.length_pos_iff.mpr nonempty
        have alike (spellings : ℕ → Bytes) := all
          (.data (respell spellings chunk) (filled spellings) :: rest)
          (recasedReads_head _ (respell_recased spellings chunk)) (unreadable .notFound)
          ⟨[], .empty⟩
        -- in capitals the request is complete at once, and so it is under every spelling
        have hidden := (report_respell (fun _ => []) chunk).harmless harmless
        have seen : behaviour site routes (unreadable .notFound) ⟨[], .empty⟩ heap
            (.data _ (filled fun _ => []) :: rest) = _ :=
          behaviour_of_atOnce hidden (atOnce_hidden site.config heap chunk)
        apply indifferent_of_respelled
        intro spellings
        exact atOnce_of_behaviour ((alike spellings).trans ((alike _).symm.trans seen))
  · intro blind reads' recased w s
    cases reads with
    | nil => rw [recased.of_nil]
    | cons read rest =>
      cases read with
      | closed =>
        obtain ⟨rest', rfl⟩ := recased.of_closed
        rfl
      | data chunk nonempty =>
        obtain ⟨chunk', nonempty', rest', rfl, letters⟩ := recased.of_data
        have calls := report_recased letters
        by_cases harmless : HarmlessOn heap.settings chunk
        · -- both requests are passed at the first read, with different headers at most
          have once := (blind harmless).recased (report_recased (.refl _ chunk))
          have once' := (blind harmless).recased calls
          have same := counterpart_of_alike calls (once'.plain.trans once.plain.symm)
          rw [behaviour_of_atOnce harmless once,
            behaviour_of_atOnce (calls.harmless harmless) once',
            processRequest_congr same oblivious]
        · rw [behaviour, behaviour, firstPassed_of_harmful harmless calls]

/-- The theorem at a request for a text, which accepts no coding. -/
theorem caseBlind_iff_plain :
    let site : Site :=
      ⟨⟨bytes "now", id, id, fun _ => none, fun _ => [], .byName⟩, ⟨bytes "/srv", 300, true⟩, ⟨12⟩⟩
    let answer : Handler Unit := fun r =>
      .ok (.sync (.ofText site.platform site.config r (bytes "hello")))
    let heap : Indeterminate := ⟨.get, ⟨1, 1⟩, ⟨false, false⟩⟩
    let reads : List ReadSome := [.data (bytes "GET / HTTP/1.1\r\nHost: a\r\n\r\n") (by decide)]
    ∀ reads', RecasedReads reads reads' → ∀ w s,
      behaviour site [⟨.get, fun _ => true, some answer⟩] w s heap reads' =
        behaviour site [⟨.get, fun _ => true, some answer⟩] w s heap reads := by
  intro site answer heap reads
  have oblivious : ∀ route ∈ [(⟨.get, fun _ => true, some answer⟩ : Route Unit)],
      ∀ h ∈ route.handler, Oblivious site.config h := by
    intro route mem h is
    rw [List.mem_singleton] at mem
    subst mem
    rw [Option.mem_some_iff] at is
    subst is
    exact oblivious_ofText site.platform site.config fun _ => bytes "hello"
  refine (caseBlind_iff site _ oblivious heap reads).mpr ?_
  intro _
  have fields : headerFields (report (bytes "GET / HTTP/1.1\r\nHost: a\r\n\r\n")) =
      [(bytes "Host", some (bytes "a"))] := by decide +kernel
  constructor
  · intro _ name value mem same
    rw [fields, List.mem_singleton] at mem
    obtain ⟨rfl, -⟩ := Prod.mk.inj mem
    exact absurd same (by decide +kernel)
  · intro _ name value mem same
    rw [fields, List.mem_singleton] at mem
    obtain ⟨rfl, -⟩ := Prod.mk.inj mem
    exact absurd same (by decide +kernel)

/-- A request whose length is announced in small letters is passed before its body has come. -/
theorem small_letters_lose_body :
    ¬ ∀ (site : Site) (w : World Call.Answer) (s : Record Call Caches) (heap : Indeterminate)
      (reads reads' : List ReadSome), AcceptsOne (reads.flatMap ReadSome.bytes) →
      RecasedReads reads reads' →
      behaviour (ρ := Unit) site [] w s heap reads' = behaviour site [] w s heap reads := by
  intro all
  let site : Site :=
    ⟨⟨bytes "now", id, id, fun _ => none, fun _ => [], .byName⟩, ⟨bytes "/srv", 300, true⟩, ⟨12⟩⟩
  let heap : Indeterminate := ⟨.get, ⟨1, 1⟩, ⟨false, false⟩⟩
  let reads : List ReadSome :=
    [.data (bytes "POST / HTTP/1.1\r\nContent-Length: 2\r\n\r\n") (by decide),
      .data (bytes "hi") (by decide)]
  let reads' : List ReadSome :=
    [.data (bytes "POST / HTTP/1.1\r\ncontent-length: 2\r\n\r\n") (by decide),
      .data (bytes "hi") (by decide)]
  have accepts : AcceptsOne (reads.flatMap ReadSome.bytes) :=
    ⟨by decide +kernel, by decide +kernel, by decide +kernel, by decide +kernel⟩
  have recased : RecasedReads reads reads' := by decide +kernel
  -- under its own spelling the request is passed at the second read
  have differ : (firstPassed heap none reads').map (Option.map Prod.fst) ≠
      (firstPassed heap none reads).map (Option.map Prod.fst) := by decide +kernel
  have same := congrArg (Except.map (Option.map Prod.fst))
    (all site (unreadable .notFound) ⟨[], .empty⟩ heap reads reads' accepts recased)
  rw [behaviour_read, behaviour_read] at same
  exact differ same

end Viking.Http
