/-
# Computations that ask

A computation asks its surroundings questions, keeps a store, and may stop with an
exception, which undoes neither. The surroundings answer each question in the light of the
ones before it, so the same question may get another answer the second time.

`Meets` says what holds of a computation whatever the answers are: what it may ask, what
it may return and what it may stop with. There is a rule for each way to build one. `Goes`
relates what a run leaves, asked and stored, to what it found.
-/

import Mathlib.Order.Defs.Unbundled

/-- The answer to a question, given those that were asked before. -/
def World {κ : Type} (answer : κ → Type) : Type := List κ → (question : κ) → answer question

/-- What has been asked and what is stored. -/
structure Record (κ σ : Type) where
  asked : List κ
  store : σ

/-- A computation that may ask the questions of `κ`, with a store in `σ` and exceptions in
`ε`. -/
def Asking {κ : Type} (answer : κ → Type) (σ ε α : Type) : Type :=
  World answer → Record κ σ → Except ε α × Record κ σ

namespace Asking

variable {κ σ ε α β : Type} {answer : κ → Type}

instance : Monad (Asking answer σ ε) where
  pure a := fun _ s => (.ok a, s)
  bind m f := fun w s =>
    match m w s with
    | (.ok a, s') => f a w s'
    | (.error e, s') => (.error e, s')

/-- A question. -/
def ask (question : κ) : Asking answer σ ε (answer question) := fun w s =>
  (.ok (w s.asked question), { s with asked := s.asked ++ [question] })

/-- The exception `e`. -/
def fail (e : ε) : Asking answer σ ε α := fun _ s => (.error e, s)

/-- A computation that asks nothing. -/
def ofExcept (r : Except ε α) : Asking answer σ ε α := fun _ s => (r, s)

def getStore : Asking answer σ ε σ := fun _ s => (.ok s.store, s)

def modifyStore (f : σ → σ) : Asking answer σ ε Unit := fun _ s =>
  (.ok (), { s with store := f s.store })

/-- A handler for the exceptions of `m`. -/
def handle (m : Asking answer σ ε α) (handler : ε → Asking answer σ ε α) :
    Asking answer σ ε α := fun w s =>
  match m w s with
  | (.ok a, s') => (.ok a, s')
  | (.error e, s') => handler e w s'

/-- What comes out of `m` is changed on the way. -/
def through (f : Except ε α → Except ε α) (m : Asking answer σ ε α) : Asking answer σ ε α :=
  fun w s => (f (m w s).1, (m w s).2)

/-! ## Runs -/

section Runs

variable {m : Asking answer σ ε α} {f : α → Asking answer σ ε β} {w : World answer}
  {s s' : Record κ σ}

@[simp] theorem pure_run (a : α) : (pure a : Asking answer σ ε α) w s = (.ok a, s) := rfl

theorem bind_run :
    (m >>= f) w s =
      match m w s with
      | (.ok a, s') => f a w s'
      | (.error e, s') => (.error e, s') := rfl

theorem bind_run_ok {a : α} (h : m w s = (.ok a, s')) : (m >>= f) w s = f a w s' := by
  rw [bind_run, h]

theorem bind_run_error {e : ε} (h : m w s = (.error e, s')) :
    (m >>= f) w s = (.error e, s') := by
  rw [bind_run, h]

@[simp] theorem ask_run (question : κ) :
    (ask question : Asking answer σ ε (answer question)) w s =
      (.ok (w s.asked question), { s with asked := s.asked ++ [question] }) := rfl

@[simp] theorem fail_run (e : ε) : (fail e : Asking answer σ ε α) w s = (.error e, s) := rfl

@[simp] theorem ofExcept_run (r : Except ε α) :
    (ofExcept r : Asking answer σ ε α) w s = (r, s) := rfl

end Runs

/-! ## What is returned -/

/-- Whatever it is answered, `m` returns only what is in `Q`. -/
def Yields (Q : α → Prop) (m : Asking answer σ ε α) : Prop :=
  ∀ w s a, (m w s).1 = .ok a → Q a

namespace Yields

variable {Q : α → Prop} {R : β → Prop} {m : Asking answer σ ε α} {f : α → Asking answer σ ε β}

theorem pure {a : α} (h : Q a) : Yields Q (Pure.pure a : Asking answer σ ε α) :=
  fun _ _ _ returned => Except.ok.inj returned ▸ h

theorem fail (e : ε) : Yields Q (Asking.fail e : Asking answer σ ε α) :=
  fun _ _ _ returned => by cases returned

/-- What follows a result, if there is one. -/
theorem ofExcept {r : Except ε α} (rest : ∀ a, r = .ok a → Yields R (f a)) :
    Yields R (Asking.ofExcept r >>= f) := by
  cases r with
  | ok a => exact rest a rfl
  | error e => exact fail e

/-- A computation of which nothing is known. -/
theorem trivial (m : Asking answer σ ε α) : Yields (fun _ => True) m := fun _ _ _ _ => True.intro

theorem bind (h : Yields Q m) (rest : ∀ a, Q a → Yields R (f a)) : Yields R (m >>= f) := by
  intro w s b returned
  rw [bind_run] at returned
  rcases first : m w s with ⟨r, s'⟩
  cases r with
  | error e =>
    simp only [first] at returned
    cases returned
  | ok a =>
    simp only [first] at returned
    exact rest a (h w s a (by rw [first])) w s' b returned

theorem handle {handler : ε → Asking answer σ ε α} (h : Yields Q m)
    (handles : ∀ e, Yields Q (handler e)) : Yields Q (m.handle handler) := by
  intro w s a returned
  unfold Asking.handle at returned
  rcases first : m w s with ⟨r, s'⟩
  cases r with
  | ok b =>
    simp only [first, Except.ok.injEq] at returned
    exact returned ▸ h w s b (by rw [first])
  | error e =>
    simp only [first] at returned
    exact handles e w s' a returned

theorem through {g : Except ε α → Except ε α} (h : Yields Q m)
    (returns : ∀ r a, g r = .ok a → r = .ok a) : Yields Q (m.through g) :=
  fun w s a returned => h w s a (returns _ a returned)

end Yields

/-! ## What holds whatever the answers -/

/-- Whatever it is answered, `m` asks only questions in `P`, returns only what is in `Q`
and stops only with what is in `E`. -/
structure Meets (P : κ → Prop) (Q : α → Prop) (E : ε → Prop) (m : Asking answer σ ε α) :
    Prop where
  asked : ∀ w s, ∃ more, (m w s).2.asked = s.asked ++ more ∧ ∀ q ∈ more, P q
  returns : ∀ w s a, (m w s).1 = .ok a → Q a
  stops : ∀ w s e, (m w s).1 = .error e → E e

namespace Meets

variable {P : κ → Prop} {Q Q' : α → Prop} {R : β → Prop} {E E' : ε → Prop}
  {m : Asking answer σ ε α} {f : α → Asking answer σ ε β}

theorem pure {a : α} (h : Q a) : Meets P Q E (Pure.pure a : Asking answer σ ε α) where
  asked _ s := ⟨[], (List.append_nil s.asked).symm, by simp⟩
  returns _ _ b returned := Except.ok.inj returned ▸ h
  stops _ _ e stopped := by cases stopped

theorem fail {e : ε} (h : E e) : Meets P Q E (Asking.fail e : Asking answer σ ε α) where
  asked _ s := ⟨[], (List.append_nil s.asked).symm, by simp⟩
  returns _ _ b returned := by cases returned
  stops _ _ e' stopped := Except.error.inj stopped ▸ h

theorem ask {question : κ} {Q : answer question → Prop} (h : P question) (all : ∀ a, Q a) :
    Meets P Q E (Asking.ask question : Asking answer σ ε (answer question)) where
  asked _ _ := ⟨[question], rfl, by simpa using h⟩
  returns _ _ a _ := all a
  stops _ _ e stopped := by cases stopped

theorem ofExcept {r : Except ε α} (returns : ∀ a, r = .ok a → Q a)
    (stops : ∀ e, r = .error e → E e) : Meets P Q E (Asking.ofExcept r : Asking answer σ ε α) where
  asked _ s := ⟨[], (List.append_nil s.asked).symm, by simp⟩
  returns _ _ := returns
  stops _ _ := stops

theorem getStore {Q : σ → Prop} (all : ∀ a, Q a) :
    Meets P Q E (Asking.getStore : Asking answer σ ε σ) where
  asked _ s := ⟨[], (List.append_nil s.asked).symm, by simp⟩
  returns _ _ a _ := all a
  stops _ _ e stopped := by cases stopped

theorem modifyStore {Q : Unit → Prop} (f : σ → σ) (h : Q ()) :
    Meets P Q E (Asking.modifyStore f : Asking answer σ ε Unit) where
  asked _ s := ⟨[], (List.append_nil s.asked).symm, by simp⟩
  returns _ _ _ _ := h
  stops _ _ e stopped := by cases stopped

/-- What is asked in two parts. -/
theorem extend {asked asked' asked'' more more' : List κ} (before : asked' = asked ++ more)
    (all : ∀ q ∈ more, P q) (later : asked'' = asked' ++ more') (all' : ∀ q ∈ more', P q) :
    ∃ more, asked'' = asked ++ more ∧ ∀ q ∈ more, P q := by
  refine ⟨more ++ more', by rw [later, before, List.append_assoc], ?_⟩
  intro q mem
  rcases List.mem_append.mp mem with old | new
  · exact all q old
  · exact all' q new

/-- One after the other, where the second is met for all that the first may return. -/
theorem bind (h : Meets P Q E m) (rest : ∀ a, Q a → Meets P R E (f a)) :
    Meets P R E (m >>= f) where
  asked w s := by
    rw [bind_run]
    obtain ⟨more, before, all⟩ := h.asked w s
    rcases first : m w s with ⟨r, s'⟩
    rw [first] at before
    cases r with
    -- The second part is asked after what the first has asked, and only if it returned.
    | error e => exact ⟨more, before, all⟩
    | ok a =>
      have met := rest a (h.returns w s a (by rw [first]))
      obtain ⟨more', later, all'⟩ := met.asked w s'
      exact extend before all later all'
  returns := Yields.bind h.returns fun a may => (rest a may).returns
  stops w s e stopped := by
    rw [bind_run] at stopped
    rcases first : m w s with ⟨r, s'⟩
    cases r with
    | error e' =>
      simp only [first, Except.error.injEq] at stopped
      exact stopped ▸ h.stops w s e' (by rw [first])
    | ok a =>
      simp only [first] at stopped
      exact (rest a (h.returns w s a (by rw [first]))).stops w s' e stopped

/-- A handler is met for all that it may have to handle. -/
theorem handle {handler : ε → Asking answer σ ε α} (h : Meets P Q E' m)
    (handles : ∀ e, E' e → Meets P Q E (handler e)) : Meets P Q E (m.handle handler) where
  asked w s := by
    unfold Asking.handle
    obtain ⟨more, before, all⟩ := h.asked w s
    rcases first : m w s with ⟨r, s'⟩
    rw [first] at before
    cases r with
    | ok a => exact ⟨more, before, all⟩
    | error e =>
      -- The handler starts from what was asked and stored when `m` stopped.
      obtain ⟨more', later, all'⟩ := (handles e (h.stops w s e (by rw [first]))).asked w s'
      exact extend before all later all'
  returns w s a returned := by
    unfold Asking.handle at returned
    rcases first : m w s with ⟨r, s'⟩
    cases r with
    | ok b =>
      simp only [first, Except.ok.injEq] at returned
      exact returned ▸ h.returns w s b (by rw [first])
    | error e =>
      simp only [first] at returned
      exact (handles e (h.stops w s e (by rw [first]))).returns w s' a returned
  stops w s e stopped := by
    unfold Asking.handle at stopped
    rcases first : m w s with ⟨r, s'⟩
    cases r with
    | ok b =>
      simp only [first] at stopped
      cases stopped
    | error e' =>
      simp only [first] at stopped
      exact (handles e' (h.stops w s e' (by rw [first]))).stops w s' e stopped

theorem through {g : Except ε α → Except ε α} (h : Meets P Q E m)
    (returns : ∀ r a, g r = .ok a → r = .ok a)
    (stops : ∀ r e, (∀ e', r = .error e' → E e') → g r = .error e → E' e) :
    Meets P Q E' (m.through g) where
  asked := h.asked
  returns w s a returned := h.returns w s a (returns _ a returned)
  stops w s e stopped := stops _ e (h.stops w s) stopped

theorem mono (h : Meets P Q E m) (returns : ∀ a, Q a → Q' a) (stops : ∀ e, E e → E' e) :
    Meets P Q' E' m where
  asked := h.asked
  returns w s a returned := returns a (h.returns w s a returned)
  stops w s e stopped := stops e (h.stops w s e stopped)

/-- What the first part has asked stays asked. -/
theorem mem_asked_bind {q : κ} {w : World answer} {s : Record κ σ}
    (rest : ∀ a, Meets P R E (f a)) (mem : q ∈ (m w s).2.asked) :
    q ∈ ((m >>= f) w s).2.asked := by
  rw [bind_run]
  rcases first : m w s with ⟨r, s'⟩
  rw [first] at mem
  cases r with
  | error e => exact mem
  | ok a =>
    -- The rest only adds questions.
    obtain ⟨more, later, -⟩ := (rest a).asked w s'
    rw [later]
    exact List.mem_append_left more mem

end Meets

/-! ## What is kept in the store -/

/-- Whatever it is answered, `m` leaves the store within `I`, also when it stops. -/
def Preserves (I : σ → Prop) (m : Asking answer σ ε α) : Prop :=
  ∀ w s, I s.store → I (m w s).2.store

/-- The same in the surroundings `w`. -/
def PreservesIn (w : World answer) (I : σ → Prop) (m : Asking answer σ ε α) : Prop :=
  ∀ s, I s.store → I (m w s).2.store

namespace PreservesIn

variable {w : World answer} {I : σ → Prop} {Q : α → Prop} {m : Asking answer σ ε α}
  {f : α → Asking answer σ ε β}

theorem pure (a : α) : PreservesIn w I (Pure.pure a : Asking answer σ ε α) := fun _ kept => kept

theorem fail (e : ε) : PreservesIn w I (Asking.fail e : Asking answer σ ε α) := fun _ kept => kept

theorem ask (question : κ) :
    PreservesIn w I (Asking.ask question : Asking answer σ ε (answer question)) :=
  fun _ kept => kept

theorem ofExcept (r : Except ε α) : PreservesIn w I (Asking.ofExcept r : Asking answer σ ε α) :=
  fun _ kept => kept

theorem getStore : PreservesIn w I (Asking.getStore : Asking answer σ ε σ) := fun _ kept => kept

theorem modifyStore {g : σ → σ} (keeps : ∀ store, I store → I (g store)) :
    PreservesIn w I (Asking.modifyStore g : Asking answer σ ε Unit) :=
  fun s kept => keeps s.store kept

/-- One after the other, where the second keeps it for all that the first may return. -/
theorem bind_of (h : PreservesIn w I m) (yields : Yields Q m)
    (rest : ∀ a, Q a → PreservesIn w I (f a)) : PreservesIn w I (m >>= f) := by
  intro s kept
  have first := h s kept
  rw [bind_run]
  rcases run : m w s with ⟨r, s'⟩
  rw [run] at first
  cases r with
  | error e => exact first
  | ok a => exact rest a (yields w s a (by rw [run])) s' first

theorem bind (h : PreservesIn w I m) (rest : ∀ a, PreservesIn w I (f a)) :
    PreservesIn w I (m >>= f) :=
  h.bind_of (.trivial m) fun a _ => rest a

theorem handle {handler : ε → Asking answer σ ε α} (h : PreservesIn w I m)
    (handles : ∀ e, PreservesIn w I (handler e)) : PreservesIn w I (m.handle handler) := by
  intro s kept
  have first := h s kept
  unfold Asking.handle
  rcases run : m w s with ⟨r, s'⟩
  rw [run] at first
  cases r with
  | ok a => exact first
  | error e => exact handles e s' first

theorem through {g : Except ε α → Except ε α} (h : PreservesIn w I m) :
    PreservesIn w I (m.through g) :=
  h

end PreservesIn

/-! ## The same but for what is returned -/

/-- `m'` asks, stores and stops with what `m` does, and returns what `f` makes of it. -/
def Mirrors (f : α → β) (m : Asking answer σ ε α) (m' : Asking answer σ ε β) : Prop :=
  ∀ w s, m' w s = ((m w s).1.map f, (m w s).2)

namespace Mirrors

variable {γ : Type} {f : α → β} {m : Asking answer σ ε α} {m' : Asking answer σ ε β}

theorem pure (a : α) :
    Mirrors f (Pure.pure a : Asking answer σ ε α) (Pure.pure (f a) : Asking answer σ ε β) :=
  fun _ _ => rfl

theorem fail (e : ε) :
    Mirrors f (Asking.fail e : Asking answer σ ε α) (Asking.fail e : Asking answer σ ε β) :=
  fun _ _ => rfl

theorem bind {first : Asking answer σ ε γ} {g : γ → Asking answer σ ε α}
    {g' : γ → Asking answer σ ε β} (rest : ∀ c, Mirrors f (g c) (g' c)) :
    Mirrors f (first >>= g) (first >>= g') := by
  intro w s
  rw [bind_run, bind_run]
  rcases first w s with ⟨r, s'⟩
  cases r with
  | error e => rfl
  | ok c => exact rest c w s'

theorem handle {handler : ε → Asking answer σ ε α} {handler' : ε → Asking answer σ ε β}
    (h : Mirrors f m m') (handles : ∀ e, Mirrors f (handler e) (handler' e)) :
    Mirrors f (m.handle handler) (m'.handle handler') := by
  intro w s
  unfold Asking.handle
  rw [h w s]
  rcases m w s with ⟨r, s'⟩
  cases r with
  | error e => exact handles e w s'
  | ok a => rfl

/-- What follows does not see the difference. -/
theorem bind_eq {g : α → Asking answer σ ε γ} {g' : β → Asking answer σ ε γ}
    (h : Mirrors f m m') (same : ∀ a, g' (f a) = g a) : m' >>= g' = m >>= g := by
  funext w s
  rw [bind_run, bind_run, h w s]
  rcases m w s with ⟨r, s'⟩
  cases r with
  | error e => rfl
  | ok a => exact congrFun (congrFun (same a) w) s'

end Mirrors

/-! ## What a run finds -/

/-- In the surroundings `w`, whatever was asked before, `m` returns `a` and leaves the store. -/
def Finds (w : World answer) (m : Asking answer σ ε α) (a : α) : Prop :=
  ∀ s, ∃ asked, m w s = (.ok a, ⟨asked, s.store⟩)

namespace Finds

variable {w : World answer} {m : Asking answer σ ε α} {f : α → Asking answer σ ε β} {a : α} {b : β}

theorem pure (a : α) : Finds w (Pure.pure a : Asking answer σ ε α) a := fun s => ⟨s.asked, rfl⟩

theorem ask {question : κ} {a : answer question} (answered : ∀ asked, w asked question = a) :
    Finds w (Asking.ask question : Asking answer σ ε (answer question)) a := by
  intro s
  exact ⟨s.asked ++ [question], by rw [ask_run, answered]⟩

theorem bind (h : Finds w m a) (rest : Finds w (f a) b) : Finds w (m >>= f) b := by
  intro s
  obtain ⟨asked, first⟩ := h s
  obtain ⟨asked', second⟩ := rest ⟨asked, s.store⟩
  exact ⟨asked', (bind_run_ok first).trans second⟩

theorem handle (h : Finds w m a) (handler : ε → Asking answer σ ε α) :
    Finds w (m.handle handler) a := by
  intro s
  obtain ⟨asked, run⟩ := h s
  exact ⟨asked, by rw [Asking.handle, run]⟩

theorem through {g : Except ε α → Except ε α} (h : Finds w m a) (returns : g (.ok a) = .ok a) :
    Finds w (m.through g) a := by
  intro s
  obtain ⟨asked, run⟩ := h s
  exact ⟨asked, by rw [Asking.through, run, returns]⟩

end Finds

/-! ## Whether a run returns -/

/-- The run of `m` returns. -/
def Returns (m : Asking answer σ ε α) (w : World answer) (s : Record κ σ) : Prop :=
  ∃ a s', m w s = (.ok a, s')

section Returns

variable {P : κ → Prop} {Q : α → Prop} {R : β → Prop} {E : ε → Prop}
  {m : Asking answer σ ε α} {f : α → Asking answer σ ε β} {w : World answer} {s : Record κ σ}

/-- What cannot stop returns. -/
theorem Meets.returns_of_false (h : Meets P Q (fun _ => False) m) : Returns m w s := by
  rcases run : m w s with ⟨r, s'⟩
  cases r with
  | error e => exact (h.stops w s e (by rw [run])).elim
  | ok a => exact ⟨a, s', run⟩

theorem returns_bind :
    Returns (m >>= f) w s ↔ ∃ a s', m w s = (.ok a, s') ∧ Returns (f a) w s' := by
  unfold Returns
  rw [bind_run]
  rcases m w s with ⟨r, s'⟩
  cases r with
  | error e => simp
  | ok a =>
    constructor
    · intro later
      exact ⟨a, s', rfl, later⟩
    · rintro ⟨_, _, same, later⟩
      cases same
      exact later

/-- One after the other, where the second cannot stop. -/
theorem returns_bind_of_false (h : Meets P Q E m)
    (rest : ∀ a, Q a → Meets P R (fun _ => False) (f a)) :
    Returns (m >>= f) w s ↔ Returns m w s := by
  rw [returns_bind]
  constructor
  · rintro ⟨a, s', run, -⟩
    exact ⟨a, s', run⟩
  · rintro ⟨a, s', run⟩
    exact ⟨a, s', run, (rest a (h.returns w s a (by rw [run]))).returns_of_false⟩

end Returns

/-! ## What a run ends in -/

/-- From the record `s`, `m` ends in `Q` if it returns and in `E` if it stops. -/
def Ends (m : Asking answer σ ε α) (w : World answer) (Q : α → Record κ σ → Prop)
    (E : Record κ σ → Prop) (s : Record κ σ) : Prop :=
  match m w s with
  | (.ok a, s') => Q a s'
  | (.error _, s') => E s'

section Ends

variable {m : Asking answer σ ε α} {f : α → Asking answer σ ε β} {w : World answer}
  {Q Q' : α → Record κ σ → Prop} {R : β → Record κ σ → Prop} {E E' : Record κ σ → Prop}
  {s : Record κ σ}

@[simp] theorem ends_pure (a : α) :
    Ends (pure a : Asking answer σ ε α) w Q E s ↔ Q a s := Iff.rfl

@[simp] theorem ends_getStore {Q : σ → Record κ σ → Prop} :
    Ends (getStore : Asking answer σ ε σ) w Q E s ↔ Q s.store s := Iff.rfl

@[simp] theorem ends_modifyStore (g : σ → σ) {Q : Unit → Record κ σ → Prop} :
    Ends (modifyStore g : Asking answer σ ε Unit) w Q E s ↔ Q () ⟨s.asked, g s.store⟩ := Iff.rfl

/-- One after the other. -/
@[simp] theorem ends_bind :
    Ends (m >>= f) w R E s ↔ Ends m w (fun a s' => Ends (f a) w R E s') E s := by
  unfold Ends
  rw [bind_run]
  rcases m w s with ⟨r, s'⟩
  cases r with
  | error e => exact Iff.rfl
  | ok a => exact Iff.rfl

/-- What follows a question is told its answer. -/
theorem Ends.ask {question : κ} {f : answer question → Asking answer σ ε β}
    (h : Ends (f (w s.asked question)) w R E ⟨s.asked ++ [question], s.store⟩) :
    Ends (Asking.ask question >>= f) w R E s :=
  h

theorem ends_of_run {a : α} {s' : Record κ σ} (run : m w s = (.ok a, s')) :
    Ends m w Q E s ↔ Q a s' := by
  unfold Ends
  rw [run]

theorem Ends.mono (h : Ends m w Q E s) (returns : ∀ a s', Q a s' → Q' a s')
    (stops : ∀ s', E s' → E' s') : Ends m w Q' E' s := by
  unfold Ends at h ⊢
  rcases run : m w s with ⟨r, s'⟩
  rw [run] at h
  cases r with
  | error e => exact stops s' h
  | ok a => exact returns a s' h

theorem Ends.bind (h : Ends m w Q E s) (rest : ∀ a s', Q a s' → Ends (f a) w R E s') :
    Ends (m >>= f) w R E s :=
  ends_bind.mpr (h.mono rest fun _ => id)

/-- What is only ever returned in `Q` ends in it. -/
theorem Yields.ends {Q : α → Prop} (h : Yields Q m) :
    Ends m w (fun a _ => Q a) (fun _ => True) s := by
  have returned := h w s
  unfold Ends
  rcases run : m w s with ⟨- | a, s'⟩
  · trivial
  · exact returned a (by rw [run])

/-- What keeps an invariant ends in it. -/
theorem PreservesIn.ends {I : σ → Prop} (h : PreservesIn w I m) (kept : I s.store) :
    Ends m w (fun _ s' => I s'.store) (fun _ => True) s := by
  have kept' := h s kept
  unfold Ends
  rcases run : m w s with ⟨- | a, s'⟩
  · trivial
  · rwa [run] at kept'

/-- What is returned. -/
theorem Ends.returned (h : Ends m w Q E s) {a : α} (returns : (m w s).1 = .ok a) :
    Q a (m w s).2 := by
  unfold Ends at h
  rcases run : m w s with ⟨r, s'⟩
  rw [run] at h returns
  obtain rfl : r = .ok a := returns
  exact h

/-- It returns or it stops. -/
theorem Ends.cases (h : Ends m w Q E s) :
    (∃ a, (m w s).1 = .ok a ∧ Q a (m w s).2) ∨ ∃ e, (m w s).1 = .error e ∧ E (m w s).2 := by
  unfold Ends at h
  rcases run : m w s with ⟨r, s'⟩
  rw [run] at h
  cases r with
  | ok a => exact .inl ⟨a, rfl, h⟩
  | error e => exact .inr ⟨e, rfl, h⟩

/-- What holds in both cases. -/
theorem Ends.always {P : Record κ σ → Prop} (h : Ends m w (fun _ => P) P s) : P (m w s).2 := by
  unfold Ends at h
  rcases run : m w s with ⟨r, s'⟩
  rw [run] at h
  cases r with
  | error e => exact h
  | ok a => exact h

end Ends

/-! ## What a run goes along -/

/-- From the record `s`, `m` goes along `R` to the record that it ends in, and if it returns ends
in `Q`. -/
def Goes (R : Record κ σ → Record κ σ → Prop) (m : Asking answer σ ε α) (w : World answer)
    (Q : α → Record κ σ → Prop) (s : Record κ σ) : Prop :=
  Ends m w (fun a s' => R s s' ∧ Q a s') (R s) s

namespace Goes

variable {R : Record κ σ → Record κ σ → Prop} {m : Asking answer σ ε α}
  {f : α → Asking answer σ ε β} {w : World answer} {Q Q' : α → Record κ σ → Prop}
  {P : β → Record κ σ → Prop} {s : Record κ σ}

/-- What follows a look at the store is told it. -/
theorem getStore {f : σ → Asking answer σ ε β} (rest : Goes R (f s.store) w P s) :
    Goes R (Asking.getStore >>= f) w P s := rest

theorem mono (h : Goes R m w Q s) (returns : ∀ a s', R s s' → Q a s' → Q' a s') :
    Goes R m w Q' s :=
  Ends.mono h (fun a s' ended => ⟨ended.1, returns a s' ended.1 ended.2⟩) fun _ => id

theorem through {g : Except ε α → Except ε α} (h : Goes R m w Q s)
    (returns : ∀ r a, g r = .ok a → r = .ok a) : Goes R (m.through g) w Q s := by
  unfold Goes Ends Asking.through at *
  rcases run : m w s with ⟨r, s'⟩
  rw [run] at h
  have related : R s s' := by
    cases r with
    | ok a => exact h.1
    | error e => exact h
  dsimp only
  cases out : g r with
  | error e => exact related
  | ok a =>
    have same := returns r a out
    rw [same] at h
    exact h

/-- What a run leaves is related to what it found. -/
theorem related (h : Goes R m w Q s) : R s (m w s).2 :=
  (Ends.mono h (fun _ _ ended => ended.1) fun _ => id).always

theorem returned (h : Goes R m w Q s) {a : α} (returns : (m w s).1 = .ok a) : Q a (m w s).2 :=
  (Ends.returned h returns).2

section Reflexive

variable [Std.Refl R]

theorem pure {a : α} (h : Q a s) : Goes R (Pure.pure a : Asking answer σ ε α) w Q s :=
  ⟨Std.Refl.refl s, h⟩

theorem fail (e : ε) : Goes R (Asking.fail e : Asking answer σ ε α) w Q s := Std.Refl.refl s

/-- What follows a result, if there is one. -/
theorem ofExcept {r : Except ε α} (rest : ∀ a, r = .ok a → Goes R (f a) w P s) :
    Goes R (Asking.ofExcept r >>= f) w P s := by
  cases r with
  | ok a => exact rest a rfl
  | error e => exact Std.Refl.refl s

end Reflexive

section Transitive

variable [IsTrans (Record κ σ) R]

/-- The same from an earlier record. -/
theorem from_earlier {s' : Record κ σ} (first : R s s') (h : Goes R m w Q s') :
    Ends m w (fun a s'' => R s s'' ∧ Q a s'') (R s) s' :=
  Ends.mono h (fun _ _ ended => ⟨IsTrans.trans _ _ _ first ended.1, ended.2⟩)
    fun _ second => IsTrans.trans _ _ _ first second

/-- One after the other, where the second starts from what the first ends in. -/
theorem bind (h : Goes R m w Q s)
    (rest : ∀ a s', R s s' → Q a s' → Goes R (f a) w P s') : Goes R (m >>= f) w P s := by
  refine ends_bind.mpr (Ends.mono h ?_ fun _ => id)
  rintro a s' ⟨first, ended⟩
  exact from_earlier first (rest a s' first ended)

/-- What follows a question is told its answer. -/
theorem ask {question : κ} {f : answer question → Asking answer σ ε β}
    (asks : R s ⟨s.asked ++ [question], s.store⟩)
    (rest : Goes R (f (w s.asked question)) w P ⟨s.asked ++ [question], s.store⟩) :
    Goes R (Asking.ask question >>= f) w P s := Ends.ask (from_earlier asks rest)

theorem modifyStore {g : σ → σ} {f : Unit → Asking answer σ ε β}
    (changes : R s ⟨s.asked, g s.store⟩) (rest : Goes R (f ()) w P ⟨s.asked, g s.store⟩) :
    Goes R (Asking.modifyStore g >>= f) w P s :=
  ends_bind.mpr ((ends_modifyStore g).mpr (from_earlier changes rest))

/-- A handler starts from what `m` has left when it stops. -/
theorem handle {handler : ε → Asking answer σ ε α} (h : Goes R m w Q s)
    (handles : ∀ e s', R s s' → Goes R (handler e) w Q s') : Goes R (m.handle handler) w Q s := by
  unfold Goes Ends at h
  unfold Goes Ends Asking.handle
  rcases run : m w s with ⟨r, s'⟩
  rw [run] at h
  cases r with
  | ok a => exact h
  | error e => exact from_earlier h (handles e s' h)

end Transitive

end Goes

end Asking
