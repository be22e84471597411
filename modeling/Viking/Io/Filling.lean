/-
# What `fill_channel` reports

`fill_channel` returns `true` for a socket that is full, and `process_write` then waits
until it can be written to. Both ways to write tell it so with a count of zero, and a zero
has other causes: a buffer without a byte, a file that ends before its recorded size, a
call that failed for another reason. The buffer in front is then taken for one that the
kernel refused, and nobody takes it away.

`fillChannel_iff` separates these causes in one call. `serves_iff` is about the front of a
queue over any number of calls: the kernel is reported to refuse only when it did, and
nothing stays in front that has nothing left, iff the calls meet none of these causes.
-/

import Viking.Io.Channel

namespace Viking.Io

variable {ρ κ ι : Type}

/-! ## Failures of `sendfile` -/

/-- `send_to_fd` has a case for the `errno`, in which it does not return the `-1`. -/
def Errno.Listed (errno : Errno) : Prop :=
  errno = .eagain ∨ errno = .einval ∨ errno = .ebadf ∨ errno = .eio ∨ errno = .epipe

instance : DecidablePred Errno.Listed := fun _ => inferInstanceAs (Decidable (_ ∨ _))

section Failing

variable {env : Env ρ κ ι} {t : Turn} {f : UnixFile} {errno : Errno}

/-- The `-1` of a `sendfile` that failed for a reason without a case is taken for a count:
the file stays where it was, and the call returns `false`. -/
theorem fillFile_unlisted (outcome : t.sendfile = .failed errno) (unlisted : ¬ errno.Listed) :
    fillFile env t f = ⟨[], some (.file f), some false⟩ := by
  have inside : f.sizeLeft < 2 ^ 63 := (Nat.sub_le _ _).trans_lt f.size_lt
  have huge : (2 ^ 64 - 1 : Nat) ≠ f.sizeLeft := by omega
  cases errno with
  | efault | econnreset | other =>
    simp only [fillFile, outcome, UnixFile.sendToFd, if_neg huge]
    rfl
  | eagain | einval | ebadf | eio | epipe => exact absurd (by decide) unlisted

/-- Every other reason than a full socket and a file system without `sendfile` throws. -/
theorem fillFile_listed (outcome : t.sendfile = .failed errno) (listed : errno.Listed)
    (full : errno ≠ .eagain) (diy : errno ≠ .einval) : (fillFile env t f).result = none := by
  rcases listed with rfl | rfl | rfl | rfl | rfl
  · exact absurd rfl full
  · exact absurd rfl diy
  all_goals simp [fillFile, outcome, UnixFile.sendToFd]

theorem fillFile_eagain (outcome : t.sendfile = .failed .eagain) :
    fillFile env t f = ⟨[], some (.file f), some true⟩ := by
  simp [fillFile, outcome, UnixFile.sendToFd]

/-- A file that `sendfile` does not take is replaced, if it can be mapped, and the buffer
that replaces it is filled. -/
theorem fillFile_einval (env : Env ρ κ ι) (f : UnixFile) (outcome : t.sendfile = .failed .einval) :
    (f.toMemoryBuffer env.files env.page t.mapped = none → (fillFile env t f).result = none) ∧
      ∀ b, f.toMemoryBuffer env.files env.page t.mapped = some b →
        fillFile env t f = fillMemory t b := by
  simp only [fillFile, outcome, UnixFile.sendToFd]
  refine ⟨fun none => by simp only [none], fun b replaced => by simp only [replaced]⟩

/-- A `sendfile` that sends nothing is reported as a full socket. -/
theorem fillFile_ok {count : ℕ} (outcome : t.sendfile = .ok count) :
    (fillFile env t f).result = some true ↔ count = 0 ∨ f.unsent env.files = [] := by
  simp only [fillFile, outcome, UnixFile.sendToFd]
  split_ifs with nothing everything
  all_goals
    rw [← List.take_eq_nil_iff, ← List.length_eq_zero_iff]
    simpa using nothing

end Failing

/-! ## What should be reported -/

/-- How the last `send` ended that `write_some` made. -/
def lastSend : List SysResult → Bytes → SysResult
  | [], _ => .failed .eagain
  | .failed errno :: _, _ => .failed errno
  | .ok count :: sends, data =>
    let sent := min count data.length
    if 0 < sent ∧ sent < data.length then lastSend sends (data.drop sent) else .ok sent

/-- The kernel refused to take more for the socket. -/
def Refused (env : Env ρ κ ι) (t : Turn) : Buffer ρ → Prop
  | .memory b => lastSend t.sends b.data = .failed .eagain
  | .file f => t.sendfile = .failed .eagain ∨ t.sendfile = .failed .einval ∧
      ∃ b, f.toMemoryBuffer env.files env.page t.mapped = some b ∧
        lastSend t.sends b.data = .failed .eagain
  | .async _ => False

/-- Nothing is left to send: no byte in memory, or none of the file, which may have ended
before its recorded size. -/
def Spent (env : Env ρ κ ι) : Buffer ρ → Prop
  | .memory b => b.data = []
  | .file f => f.unsent env.files = []
  | .async _ => False

/-- The call maps a file past its pages and touches what is not there: the process is
killed, and the call does not come back. -/
def Kills (env : Env ρ κ ι) (t : Turn) : Buffer ρ → Prop
  | .file f => t.sendfile = .failed .einval ∧
      (f.toMemoryBuffer env.files env.page t.mapped).isSome ∧
        (UnixFile.inPages env.page (env.files f.fd)).length < f.size
  | .memory _ | .async _ => False

instance {env : Env ρ κ ι} {t : Turn} : DecidablePred (Kills env t : Buffer ρ → Prop)
  | .file _ => inferInstanceAs (Decidable (_ ∧ _ ∧ _))
  | .memory _ | .async _ => inferInstanceAs (Decidable False)

/-- What is in front after a call, unless it was removed, the channel was, or the process
is gone. -/
def kept (env : Env ρ κ ι) (t : Turn) (b : Buffer ρ) : Option (Buffer ρ) :=
  if Kills env t b ∨ (fillChannel env t b).result = none then none else (fillChannel env t b).front

/-- What is in front after `n` calls. -/
def held (env : Env ρ κ ι) (ts : ℕ → Turn) (b : Buffer ρ) : ℕ → Option (Buffer ρ)
  | 0 => some b
  | n + 1 => (held env ts b n).bind (kept env (ts n))

/-- A socket is reported as full when the kernel refused to take what there is, and what
has nothing left is taken away, sooner or later. -/
structure Serves (env : Env ρ κ ι) (ts : ℕ → Turn) (b : Buffer ρ) : Prop where
  refused : ∀ n b', held env ts b n = some b' → ¬ Kills env (ts n) b' →
    (fillChannel env (ts n) b').result = some true → Refused env (ts n) b' ∧ ¬ Spent env b'
  leaves : ∀ n b', held env ts b n = some b' → Spent env b' → ∃ m, n ≤ m ∧ held env ts b m = none

/-! ## The causes of a zero -/

/-- How the first `send` ends; without an outcome it would block. -/
def firstSend (sends : List SysResult) : SysResult := sends.head?.getD (.failed .eagain)

/-- There is something to send and the kernel takes some of it or refuses, unless it says
that the peer is gone. -/
def SendAnswers (sends : List SysResult) (data : Bytes) : Prop :=
  (∃ errno, firstSend sends = .failed errno ∧ errno.closesConnection) ∨
    data ≠ [] ∧ (firstSend sends = .failed .eagain ∨ ∃ count > 0, firstSend sends = .ok count)

/-- What is asked of a call, so that a zero means what it is taken for. For a file, a
successful `sendfile` sends something, it is not refused when there is nothing left, and the
buffer that replaces the file is sent as a buffer in memory is. -/
def Answers (env : Env ρ κ ι) (t : Turn) : Buffer ρ → Prop
  | .memory b => SendAnswers t.sends b.data
  | .file f =>
    (∀ count, t.sendfile = .ok count → 0 < count ∧ f.unsent env.files ≠ []) ∧
    (t.sendfile = .failed .eagain → f.unsent env.files ≠ []) ∧
    (t.sendfile = .failed .einval → ∀ b, f.toMemoryBuffer env.files env.page t.mapped = some b →
      SendAnswers t.sends b.data)
  | .async _ => True

section Call

variable {env : Env ρ κ ι} {t : Turn} {f : UnixFile} {b : Buffer ρ} {m : MemoryBuffer}

/-- In memory: a full socket is reported rightly iff `send` answers to something. -/
theorem fillMemory_iff (t : Turn) (m : MemoryBuffer) :
    ((fillMemory t m : Filling ρ).result = some true →
      lastSend t.sends m.data = .failed .eagain ∧ m.data ≠ []) ↔ SendAnswers t.sends m.data := by
  unfold fillMemory SendAnswers firstSend
  dsimp only
  rcases t.sends with - | ⟨count | errno, sends⟩
  · simp [writeSome, lastSend, Errno.closesConnection]
  · -- The first `send` took `sent` bytes.
    simp only [writeSome, lastSend, List.head?_cons, Option.getD_some]
    by_cases nothing : min count m.data.length = 0
    · have none : m.data = [] ∨ count = 0 := by
        rw [← List.length_eq_zero_iff]
        omega
      simp only [nothing, lt_irrefl, false_and, if_false, if_true]
      rcases none with none | none
      · simp [none]
      · simp [none]
    · have left : m.data ≠ [] := by
        rw [← List.length_pos_iff]
        omega
      have positive : 0 < count := by omega
      have answers : ∃ c > 0, SysResult.ok count = .ok c := ⟨count, positive, rfl⟩
      simp only [left, ne_eq, not_false_eq_true, answers, or_true, and_self, iff_true]
      -- Something was written, so no full socket is reported.
      split_ifs
      all_goals intro full
      all_goals first
        | omega
        | simp_all
  · simp only [writeSome, lastSend, List.head?_cons, Option.getD_some]
    cases closes : errno.closesConnection with
    | true => simp [closes]
    | false => simp [closes, and_comm]

/-- A file in whole pages ends within a page of where it ends. -/
theorem length_inPages (page : PageSize) (file : Bytes) :
    (UnixFile.inPages page file).length % page.bytes = 0 ∧
      (UnixFile.inPages page file).length < file.length + page.bytes := by
  have positive : 0 < page.bytes := Nat.two_pow_pos page.log
  rw [UnixFile.inPages, List.length_append, List.length_replicate]
  have small := Nat.mod_lt (page.bytes - file.length % page.bytes) positive
  refine ⟨?_, by omega⟩
  have inside := Nat.mod_lt file.length positive
  rw [Nat.add_mod, Nat.mod_mod, ← Nat.add_mod]
  -- Together the rest of the last page and what it lacks make a page.
  have whole : file.length + (page.bytes - file.length % page.bytes) =
      page.bytes * (file.length / page.bytes + 1) := by
    have := Nat.div_add_mod file.length page.bytes
    rw [Nat.mul_add, Nat.mul_one]
    omega
  rw [whole, Nat.mul_mod_right]

/-- Where a file is mapped from a page of its own on, bytes of it are left. -/
theorem unsent_ne_nil (replaced : f.toMemoryBuffer env.files env.page t.mapped = some m)
    (alive : ¬ (UnixFile.inPages env.page (env.files f.fd)).length < f.size) :
    f.unsent env.files ≠ [] ∧ m.data ≠ [] := by
  obtain ⟨⟨-, start, left⟩, rfl⟩ := UnixFile.toMemoryBuffer_eq_some.mp replaced
  obtain ⟨pages, close⟩ := length_inPages env.page (env.files f.fd)
  generalize UnixFile.inPages env.page (env.files f.fd) = whole at alive pages close ⊢
  have below : f.offset < whole.length := by
    simp only [UnixFile.sizeLeft] at left
    omega
  -- Both are at page bounds, so the one is a page before the other at least.
  have inside : f.offset < (env.files f.fd).length := by
    obtain ⟨i, hi⟩ := Nat.dvd_of_mod_eq_zero start
    obtain ⟨j, hj⟩ := Nat.dvd_of_mod_eq_zero pages
    rw [hi, hj] at below
    have page : env.page.bytes * (i + 1) ≤ env.page.bytes * j :=
      Nat.mul_le_mul_left _ (Nat.lt_of_mul_lt_mul_left below)
    rw [Nat.mul_add, Nat.mul_one] at page
    omega
  constructor
  · rw [UnixFile.unsent, ← List.length_pos_iff, List.length_take, List.length_drop]
    omega
  · rw [MemoryBuffer.new, ← List.length_pos_iff, List.length_take, List.length_drop]
    omega

/-- In one call that comes back: a full socket is reported rightly iff a zero means what it
is taken for. -/
theorem fillChannel_iff (alive : ¬ Kills env t b) :
    ((fillChannel env t b).result = some true → Refused env t b ∧ ¬ Spent env b) ↔
      Answers env t b := by
  cases b with
  | memory m => exact fillMemory_iff t m
  | async a => simp [fillChannel, Answers]
  | file f =>
    simp only [fillChannel, Refused, Spent, Answers]
    cases outcome : t.sendfile with
    | ok count =>
      rw [fillFile_ok outcome]
      simp [Nat.pos_iff_ne_zero]
    | failed errno =>
      by_cases full : errno = .eagain
      · subst full
        simp [fillFile_eagain outcome]
      by_cases diy : errno = .einval
      · subst diy
        obtain ⟨unmapped, replaces⟩ := fillFile_einval env f outcome
        cases replaced : f.toMemoryBuffer env.files env.page t.mapped with
        | none => simp [unmapped replaced]
        | some m =>
          have short : ¬ (UnixFile.inPages env.page (env.files f.fd)).length < f.size :=
            fun short => alive ⟨outcome, by simp [replaced], short⟩
          obtain ⟨left, left'⟩ := unsent_ne_nil replaced short
          have sends := fillMemory_iff (ρ := ρ) t m
          simp only [left', ne_eq, not_false_eq_true, and_true] at sends
          simpa [replaces m replaced, left] using sends
      by_cases listed : errno.Listed
      · simp [fillFile_listed outcome listed full diy, full, diy]
      · simp [fillFile_unlisted outcome listed, full, diy]

end Call

/-! ## Any number of calls -/

section Calls

variable {env : Env ρ κ ι} {ts : ℕ → Turn} {t : Turn} {f : UnixFile} {b b' : Buffer ρ} {n : ℕ}

theorem held_succ (there : held env ts b n = some b') :
    held env ts b (n + 1) = kept env (ts n) b' := by
  rw [held, there, Option.bind_some]

/-- A file on which `sendfile` fails for a reason without a case stays. -/
theorem kept_unlisted {errno : Errno} (outcome : t.sendfile = .failed errno)
    (unlisted : ¬ errno.Listed) : kept env t (.file f) = some (.file f) := by
  have alive : ¬ Kills env t (.file f : Buffer ρ) := by
    rintro ⟨diy, -⟩
    rw [outcome] at diy
    cases diy
    exact unlisted (.inr (.inl rfl))
  simp [kept, alive, fillChannel, fillFile_unlisted outcome unlisted]

/-- A file with nothing left does not stay when the zero means what it is taken for and
`sendfile` does not fail for a reason without a case. -/
theorem kept_spent (answers : ¬ Kills env t (.file f : Buffer ρ) → Answers env t (.file f))
    (spent : f.unsent env.files = [])
    (listed : ∀ errno, t.sendfile = .failed errno → errno.Listed) :
    kept env t (.file f : Buffer ρ) = none := by
  by_cases alive : Kills env t (.file f : Buffer ρ)
  · simp [kept, alive]
  obtain ⟨sent, full, -⟩ := answers alive
  have threw : (fillFile env t f).result = none := by
    cases outcome : t.sendfile with
    | ok count => exact absurd spent (sent count outcome).2
    | failed errno =>
      by_cases same : errno = .eagain
      · exact absurd spent (full (same ▸ outcome))
      by_cases diy : errno = .einval
      · subst diy
        cases replaced : f.toMemoryBuffer env.files env.page t.mapped with
        | none => exact (fillFile_einval env f outcome).1 replaced
        -- What is mapped and does not kill the process has something left.
        | some m =>
          have short : ¬ (UnixFile.inPages env.page (env.files f.fd)).length < f.size :=
            fun short => alive ⟨outcome, by simp [replaced], short⟩
          exact absurd spent (unsent_ne_nil replaced short).1
      · exact fillFile_listed outcome (listed errno outcome) same diy
  simp [kept, fillChannel, threw]

/-- Of a file with nothing left: it goes when `sendfile` fails for a reason that has a case,
and until then for others only. -/
theorem file_leaves
    (answers : ∀ n b', held env ts b n = some b' → ¬ Kills env (ts n) b' → Answers env (ts n) b')
    (spent : f.unsent env.files = []) {d : ℕ}
    (listed : ∀ errno, (ts (n + d)).sendfile = .failed errno → errno.Listed)
    (there : held env ts b n = some (.file f)) : ∃ m, n ≤ m ∧ held env ts b m = none := by
  induction d generalizing n with
  | zero =>
    refine ⟨n + 1, n.le_succ, ?_⟩
    rw [held_succ there, kept_spent (answers n _ there) spent listed]
  | succ d ih =>
    by_cases now : ∀ errno, (ts n).sendfile = .failed errno → errno.Listed
    · refine ⟨n + 1, n.le_succ, ?_⟩
      rw [held_succ there, kept_spent (answers n _ there) spent now]
    · push Not at now
      obtain ⟨errno, outcome, unlisted⟩ := now
      have later := (held_succ there).trans (kept_unlisted outcome unlisted)
      obtain ⟨m, le, gone⟩ := ih (by rwa [Nat.add_right_comm]) later
      exact ⟨m, n.le_succ.trans le, gone⟩

/-- Over any number of calls: the socket is reported as full only when the kernel refused,
and what has nothing left goes, iff in every call a zero means what it is taken for and on a
file with nothing left `sendfile` does not fail for ever for reasons without a case. -/
theorem serves_iff (env : Env ρ κ ι) (ts : ℕ → Turn) (b : Buffer ρ) :
    Serves env ts b ↔
      (∀ n b', held env ts b n = some b' → ¬ Kills env (ts n) b' → Answers env (ts n) b') ∧
        ∀ n f, held env ts b n = some (.file f) → f.unsent env.files = [] →
          ∃ m, n ≤ m ∧ ∀ errno, (ts m).sendfile = .failed errno → errno.Listed := by
  constructor
  · intro serves
    refine ⟨fun n b' there alive => (fillChannel_iff alive).mp (serves.refused n b' there alive),
      fun n f there spent => ?_⟩
    by_contra never
    push Not at never
    -- The file is in front for ever.
    have stays : ∀ m, n ≤ m → held env ts b m = some (.file f) := by
      intro m le
      induction m, le using Nat.le_induction with
      | base => exact there
      | succ m le ih =>
        obtain ⟨errno, outcome, unlisted⟩ := never m le
        exact (held_succ ih).trans (kept_unlisted outcome unlisted)
    obtain ⟨m, le, gone⟩ := serves.leaves n _ there spent
    rw [stays m le] at gone
    cases gone
  · rintro ⟨answers, listed⟩
    refine ⟨fun n b' there alive => (fillChannel_iff alive).mpr (answers n b' there alive),
      fun n b' there spent => ?_⟩
    cases b' with
    | memory m =>
      -- Without a byte to send the peer must be gone, and then the channel is removed.
      obtain ⟨errno, first, closes⟩ | ⟨left, -⟩ := answers n _ there id
      · refine ⟨n + 1, n.le_succ, ?_⟩
        rw [held_succ there]
        have threw : (fillMemory (ts n) m : Filling ρ).result = none := by
          unfold firstSend at first
          unfold fillMemory
          cases sends : (ts n).sends with
          | nil =>
            rw [sends] at first
            cases first
            cases closes
          | cons outcome sends' =>
            rw [sends] at first
            cases first
            simp [writeSome, closes]
        simp [kept, fillChannel, threw]
      · exact absurd spent left
    | file f =>
      obtain ⟨m, le, listed⟩ := listed n f there spent
      obtain ⟨d, rfl⟩ := Nat.exists_eq_add_of_le le
      exact file_leaves answers spent listed there
    | async a => exact absurd spent id

/-- A file of one byte that `stat` took for two: after that byte `sendfile` sends nothing,
the socket is reported as full for ever, and the file stays in front. -/
theorem serves_fails :
    let env : Env Unit Unit Unit :=
      ⟨fun _ => [10], ⟨12⟩, fun _ => [], fun _ _ => ((), .error (.thrown .pollError)), id, ()⟩
    let b : Buffer Unit := .file ⟨[], 3, 2, 1, by decide, by decide⟩
    let t : Turn := ⟨false, [], .ok 0, true⟩
    (fillChannel env t b).result = some true ∧ ¬ Refused env t b ∧
      (∀ n, held env (fun _ => t) b n = some b) ∧ ¬ Serves env (fun _ => t) b := by
  intro env b t
  have refused : ¬ Refused env t b := by
    rintro (full | ⟨diy, -⟩)
    · cases full
    · cases diy
  have stays : ∀ n, held env (fun _ => t) b n = some b := by
    intro n
    induction n with
    | zero => rfl
    | succ n ih => exact (held_succ ih).trans rfl
  refine ⟨rfl, refused, stays, fun serves => ?_⟩
  have alive : ¬ Kills env t b := fun kills => by cases kills.1
  exact refused (serves.refused 0 b rfl alive rfl).1

end Calls

end Viking.Io
