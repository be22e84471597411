/-
# Reading a command line

How the shell command language reads a line: bytes are quoted, words are delimited, and the words
of a simple command become its name and its arguments. A line is read when the line alone decides
that; where a parameter, a command or a home directory would be substituted, or a quotation is left
open, it is not.

An unquoted pattern is replaced by the names that match it. These come from outside, so they are a
parameter here.

`simpleCommand_self_iff` says which texts are read as themselves.
-/

import Mathlib.Algebra.Ring.Nat
import Mathlib.Data.List.Induction

namespace Shell

/-! ## The lexer -/

/-- A byte of a word, and whether it was quoted. -/
structure Element where
  byte : UInt8
  quoted : Bool
  deriving DecidableEq, Repr

abbrev Word := List Element

/-- A word, or a byte of an operator. -/
inductive Token
  | word (word : Word)
  | operator (byte : UInt8)
  deriving DecidableEq, Repr

/-- What the next byte is read in. -/
inductive Mode
  | plain
  | escape
  | single
  | double
  | doubleEscape
  | comment
  deriving DecidableEq, Repr

def backslash : UInt8 := '\x5c'.toUInt8

def singleQuote : UInt8 := '\x27'.toUInt8

def doubleQuote : UInt8 := '\x22'.toUInt8

def newline : UInt8 := '\n'.toUInt8

def isBlank (c : UInt8) : Bool := c = ' '.toUInt8 || c = '\t'.toUInt8

def isOperator (c : UInt8) : Bool :=
  c = '|'.toUInt8 || c = '&'.toUInt8 || c = ';'.toUInt8 || c = '<'.toUInt8 || c = '>'.toUInt8 ||
    c = '('.toUInt8 || c = ')'.toUInt8 || c = newline

/-- A dollar sign or a backquote. -/
def isExpansion (c : UInt8) : Bool := c = '$'.toUInt8 || c = '\x60'.toUInt8

def isQuoting (c : UInt8) : Bool := c = backslash || c = singleQuote || c = doubleQuote

/-- The start of a comment or of the name of a home directory, at the start of a word. -/
def isLeading (c : UInt8) : Bool := c = '#'.toUInt8 || c = '~'.toUInt8

def isPattern (c : UInt8) : Bool := c = '*'.toUInt8 || c = '?'.toUInt8 || c = '['.toUInt8

/-- The tokens that are complete, the word that is not, and the mode. -/
structure Lexer where
  tokens : List Token
  current : Option Word
  mode : Mode
  deriving DecidableEq, Repr

namespace Lexer

def start : Lexer := ⟨[], none, .plain⟩

/-- A byte goes to the word that is read. -/
def append (s : Lexer) (c : UInt8) (quoted : Bool) : Lexer :=
  { s with current := some (s.current.getD [] ++ [⟨c, quoted⟩]) }

/-- A quotation starts, in a word or with one. -/
def openQuote (s : Lexer) (mode : Mode) : Lexer :=
  { s with current := some (s.current.getD []), mode := mode }

/-- The word that is read is complete. -/
def delimit (s : Lexer) : Lexer :=
  { s with tokens := s.tokens ++ s.current.toList.map .word, current := none }

def emit (s : Lexer) (c : UInt8) : Lexer :=
  { s with tokens := s.tokens ++ [.operator c], mode := .plain }

/-- A byte outside all quotations. -/
def stepPlain (s : Lexer) (c : UInt8) : Option Lexer :=
  if c = backslash then some { s with mode := .escape }
  else if c = singleQuote then some (s.openQuote .single)
  else if c = doubleQuote then some (s.openQuote .double)
  else if isExpansion c then none
  else if isBlank c then some s.delimit
  else if isOperator c then some (s.delimit.emit c)
  else if s.current.isNone ∧ isLeading c then
    if c = '#'.toUInt8 then some { s with mode := .comment } else none
  else some (s.append c false)

/-- A byte between double quotes. -/
def stepDouble (s : Lexer) (c : UInt8) : Option Lexer :=
  if c = doubleQuote then some { s with mode := .plain }
  else if c = backslash then some { s with mode := .doubleEscape }
  else if isExpansion c then none
  else some (s.append c true)

/-- The next byte. -/
def step (s : Lexer) (c : UInt8) : Option Lexer :=
  match s.mode with
  | .plain => s.stepPlain c
  -- a line is continued behind an escaped newline
  | .escape =>
    let s := { s with mode := .plain }
    if c = newline then some s else some (s.append c true)
  | .single => if c = singleQuote then some { s with mode := .plain } else some (s.append c true)
  | .double => s.stepDouble c
  | .doubleEscape =>
    let s := { s with mode := .double }
    if c = newline then some s
    else if isExpansion c ∨ c = doubleQuote ∨ c = backslash then some (s.append c true)
    -- before any other byte the backslash stands for itself
    else some ((s.append backslash true).append c true)
  | .comment => if c = newline then some (s.emit c) else some s

/-- The end of the line. -/
def finish (s : Lexer) : Option (List Token) :=
  match s.mode with
  | .plain | .comment => some s.delimit.tokens
  | .escape | .single | .double | .doubleEscape => none

end Lexer

/-- The tokens of a line. -/
def lex (line : List UInt8) : Option (List Token) :=
  (line.foldlM Lexer.step .start).bind Lexer.finish

/-! ## Commands -/

namespace Word

def text (word : Word) : List UInt8 := word.map Element.byte

/-- A pattern character is not quoted. -/
def patterned (word : Word) : Bool := word.any fun e => !e.quoted && isPattern e.byte

/-- A pattern that matches nothing is left as it is. -/
def expand (matching : Word → List (List UInt8)) (word : Word) : List (List UInt8) :=
  if word.patterned ∧ matching word ≠ [] then matching word else [word.text]

end Word

def Token.fields (matching : Word → List (List UInt8)) : Token → Option (List (List UInt8))
  | .word text => some (text.expand matching)
  | .operator _ => none

/-- The name and the arguments, when the line is a single simple command. -/
def simpleCommand (matching : Word → List (List UInt8)) (line : List UInt8) :
    Option (List (List UInt8)) := do
  let tokens ← lex line
  let fields ← tokens.mapM (Token.fields matching)
  return fields.flatten

/-! ## A line in two parts -/

section Parts

variable {s s' : Lexer} {done : List Token} {line rest : List UInt8}
  {matching : Word → List (List UInt8)}

/-- More tokens stand before those of `s`. -/
def Lexer.after (done : List Token) (s : Lexer) : Lexer := { s with tokens := done ++ s.tokens }

theorem Lexer.after_append (c : UInt8) (quoted : Bool) :
    (s.after done).append c quoted = (s.append c quoted).after done := rfl

theorem Lexer.after_openQuote (mode : Mode) :
    (s.after done).openQuote mode = (s.openQuote mode).after done := rfl

theorem Lexer.after_delimit : (s.after done).delimit = s.delimit.after done := by
  simp [after, delimit, List.append_assoc]

theorem Lexer.after_emit (c : UInt8) : (s.after done).emit c = (s.emit c).after done := by
  simp [after, emit, List.append_assoc]

/-- What a byte does, in each mode, with tokens before. -/
theorem Lexer.stepPlain_after (done : List Token) (s : Lexer) (c : UInt8) :
    (s.after done).stepPlain c = (s.stepPlain c).map (Lexer.after done) := by
  simp only [stepPlain, after_openQuote, after_delimit, after_emit, after_append,
    apply_ite (Option.map (Lexer.after done)), Option.map_some, Option.map_none]
  rfl

theorem Lexer.stepDouble_after (done : List Token) (s : Lexer) (c : UInt8) :
    (s.after done).stepDouble c = (s.stepDouble c).map (Lexer.after done) := by
  simp only [stepDouble, after_append, apply_ite (Option.map (Lexer.after done)),
    Option.map_some, Option.map_none]
  rfl

/-- The tokens are not looked at. -/
theorem Lexer.step_after (done : List Token) (s : Lexer) (c : UInt8) :
    (s.after done).step c = (s.step c).map (Lexer.after done) := by
  rcases s with ⟨tokens, current, mode⟩
  cases mode with
  | plain => exact stepPlain_after done _ c
  | double => exact stepDouble_after done _ c
  | escape =>
    simp only [step, apply_ite (Option.map (Lexer.after done))]
    rfl
  | single =>
    simp only [step, apply_ite (Option.map (Lexer.after done))]
    rfl
  | doubleEscape =>
    simp only [step, apply_ite (Option.map (Lexer.after done))]
    rfl
  | comment =>
    simp only [step, after, apply_ite (Option.map (Lexer.after done)), Option.map_some]
    simp only [emit, List.append_assoc]

theorem Lexer.foldlM_after (done : List Token) (s : Lexer) (line : List UInt8) :
    line.foldlM step (s.after done) = (line.foldlM step s).map (Lexer.after done) := by
  induction line generalizing s with
  | nil => rfl
  | cons c line ih =>
    rw [List.foldlM_cons, List.foldlM_cons, step_after]
    cases s.step c with
    | none => rfl
    | some s' => exact ih s'

theorem Lexer.finish_after (done : List Token) (s : Lexer) :
    (s.after done).finish = s.finish.map (done ++ ·) := by
  rcases s with ⟨tokens, current, mode⟩
  cases mode <;> simp [finish, after, delimit, List.append_assoc]

/-- Behind a delimiter the line is read as one of its own. -/
theorem lex_append (delimited : line.foldlM Lexer.step .start = some ⟨done, none, .plain⟩)
    (rest : List UInt8) : lex (line ++ rest) = (lex rest).map (done ++ ·) := by
  have behind : (⟨done, none, .plain⟩ : Lexer) = Lexer.start.after done := by
    rw [Lexer.after, Lexer.start, List.append_nil]
  rw [lex, List.foldlM_append, delimited, behind]
  show (rest.foldlM Lexer.step (Lexer.start.after done)).bind Lexer.finish = _
  rw [Lexer.foldlM_after, lex]
  cases rest.foldlM Lexer.step .start with
  | none => rfl
  | some s => exact Lexer.finish_after done s

/-- The name and the first arguments are read before the rest of the line. -/
theorem simpleCommand_append {fields : List (List (List UInt8))}
    (delimited : line.foldlM Lexer.step .start = some ⟨done, none, .plain⟩)
    (words : done.mapM (Token.fields matching) = some fields) (rest : List UInt8) :
    simpleCommand matching (line ++ rest) =
      (simpleCommand matching rest).map (fields.flatten ++ ·) := by
  rw [simpleCommand, lex_append delimited, simpleCommand]
  cases lex rest with
  | none => rfl
  | some tokens =>
    simp only [Option.map_some, bind, Option.bind_some, List.mapM_append, words]
    cases tokens.mapM (Token.fields matching) with
    | none => rfl
    | some more => simp [pure]

end Parts

/-! ## Texts that are read as themselves -/

/-- The byte stands for itself anywhere in a word. -/
def isLiteral (c : UInt8) : Bool :=
  !(isQuoting c || isExpansion c || isBlank c || isOperator c)

/-- Nothing in the text means something to the shell, but for patterns. -/
structure Literal (text : List UInt8) : Prop where
  bytes : ∀ c ∈ text, isLiteral c = true
  first : ∀ c ∈ text.head?, isLeading c = false

/-- The word of a text in which nothing is quoted. -/
def unquoted (text : List UInt8) : Word := text.map (⟨·, false⟩)

theorem text_unquoted (text : List UInt8) : (unquoted text).text = text := by
  rw [unquoted, Word.text, List.map_map]
  exact List.map_id _

/-- The number of bytes that were read and may still go to a word with the next one. -/
def Mode.pending : Mode → ℕ
  | .doubleEscape => 1
  | .plain | .escape | .single | .double | .comment => 0

/-- The bytes that a token gives to a word. -/
def Token.length : Token → ℕ
  | .word text => List.length text
  | .operator _ => 0

namespace Lexer

variable {s s' : Lexer} {c : UInt8} {quoted : Bool} {text : List UInt8}

/-- What is read when all of the text stands for itself. -/
def reading (text : List UInt8) : Lexer :=
  ⟨[], if text = [] then none else some (unquoted text), .plain⟩

/-- The number of bytes in the words. -/
def weight (s : Lexer) : ℕ := (s.tokens.map Token.length).sum + (s.current.getD []).length

@[simp] theorem weight_mode (mode : Mode) : ({ s with mode := mode } : Lexer).weight = s.weight :=
  rfl

@[simp] theorem weight_append : (s.append c quoted).weight = s.weight + 1 := by
  simp [weight, append, Nat.add_assoc]

@[simp] theorem weight_openQuote (mode : Mode) : (s.openQuote mode).weight = s.weight := by
  simp [weight, openQuote]

@[simp] theorem weight_delimit : s.delimit.weight = s.weight := by
  cases current : s.current <;> simp [weight, delimit, current, Token.length]

@[simp] theorem weight_emit : (s.emit c).weight = s.weight := by
  simp [weight, emit, Token.length]

@[simp] theorem append_mode : (s.append c quoted).mode = s.mode := rfl

@[simp] theorem delimit_mode : s.delimit.mode = s.mode := rfl

@[simp] theorem emit_mode : (s.emit c).mode = .plain := rfl

/-- Outside quotations a byte that does not stand for itself gives none. -/
theorem stepPlain_cases (plain : s.mode = .plain) (read : s.stepPlain c = some s') :
    s'.weight + s'.mode.pending = s.weight ∨
      s' = s.append c false ∧ isLiteral c = true ∧
        ¬ (s.current.isNone = true ∧ isLeading c = true) := by
  unfold stepPlain at read
  split at read
  · cases read
    exact .inl rfl
  split at read
  · cases read
    exact .inl (weight_openQuote _)
  split at read
  · cases read
    exact .inl (weight_openQuote _)
  split at read
  · cases read
  split at read
  · cases read
    left
    rw [weight_delimit, delimit_mode, plain, Mode.pending, Nat.add_zero]
  split at read
  · cases read
    left
    rw [weight_emit, weight_delimit, emit_mode, Mode.pending, Nat.add_zero]
  split at read
  · split at read <;> cases read
    exact .inl rfl
  · rename_i escape single double expansion blank operator leading
    cases read
    exact .inr ⟨rfl, by simp [isLiteral, isQuoting, *], leading⟩

theorem weight_stepDouble_le (double : s.mode = .double) (read : s.stepDouble c = some s') :
    s'.weight + s'.mode.pending ≤ s.weight + 1 := by
  unfold stepDouble at read
  split_ifs at read <;> cases read <;>
    simp only [weight_mode, weight_append, append_mode, double, Mode.pending] <;> omega

/-- Each byte gives at most one byte to a word. -/
theorem weight_step (read : s.step c = some s') :
    s'.weight + s'.mode.pending ≤ s.weight + s.mode.pending + 1 := by
  unfold step at read
  cases mode : s.mode with
  | plain =>
    rw [mode] at read
    rcases stepPlain_cases mode read with same | ⟨rfl, -⟩
    · rw [same]
      exact Nat.le_add_right _ _
    · rw [weight_append, append_mode, mode, Mode.pending]
  | double =>
    rw [mode] at read
    exact weight_stepDouble_le mode read
  | escape =>
    simp only [mode] at read
    split_ifs at read <;> cases read <;>
      simp only [weight_mode, weight_append, append_mode, Mode.pending] <;> omega
  | single =>
    simp only [mode] at read
    split_ifs at read <;> cases read <;>
      simp only [weight_mode, weight_append, append_mode, mode, Mode.pending] <;> omega
  | doubleEscape =>
    simp only [mode] at read
    split_ifs at read <;> cases read <;>
      simp only [weight_mode, weight_append, append_mode, Mode.pending] <;> omega
  | comment =>
    simp only [mode] at read
    split_ifs at read <;> cases read <;>
      simp only [weight_emit, emit_mode, mode, Mode.pending] <;> omega

/-- A byte that does not stand for itself gives none. -/
theorem weight_stepPlain (plain : s.mode = .plain) (read : s.stepPlain c = some s')
    (special : isLiteral c = false ∨ s.current.isNone = true ∧ isLeading c = true) :
    s'.weight + s'.mode.pending ≤ s.weight := by
  rcases stepPlain_cases plain read with same | ⟨-, literal, leading⟩
  · exact Nat.le_of_eq same
  · rcases special with special | special
    · rw [literal] at special
      cases special
    · exact absurd special leading

theorem step_reading (literal : isLiteral c = true) (leading : text = [] → isLeading c = false) :
    (reading text).step c = some (reading (text ++ [c])) := by
  simp only [isLiteral, isQuoting, Bool.not_eq_true', Bool.or_eq_false_iff,
    decide_eq_false_iff_not] at literal
  obtain ⟨⟨⟨⟨⟨escape, single⟩, double⟩, expansion⟩, blank⟩, operator⟩ := literal
  have inside : ¬ ((reading text).current.isNone = true ∧ isLeading c = true) := by
    rintro ⟨none, leads⟩
    have empty : text = [] := by
      by_contra some
      simp [reading, some] at none
    rw [leading empty] at leads
    cases leads
  show (reading text).stepPlain c = _
  rw [stepPlain, if_neg escape, if_neg single, if_neg double, if_neg (by simp [expansion]),
    if_neg (by simp [blank]), if_neg (by simp [operator]), if_neg inside]
  by_cases empty : text = []
  · subst empty
    rfl
  · simp [reading, append, empty, unquoted]

theorem weight_reading (text : List UInt8) : (reading text).weight = text.length := by
  by_cases empty : text = []
  · subst empty
    rfl
  · simp [reading, weight, empty, unquoted]

/-- A text that was read stands for itself, or has given fewer bytes than it has. -/
theorem foldlM_cases (read : text.foldlM step start = some s) :
    s = reading text ∧ Literal text ∨ s.weight + s.mode.pending < text.length := by
  induction text using List.reverseRecOn generalizing s with
  | nil =>
    cases read
    exact .inl ⟨rfl, nofun, nofun⟩
  | append_singleton text c ih =>
    rw [List.foldlM_append, Option.bind_eq_bind, Option.bind_eq_some_iff] at read
    obtain ⟨before, first, last⟩ := read
    have last : before.step c = some s := by simpa using last
    rw [List.length_append, List.length_singleton]
    rcases ih first with ⟨rfl, literal⟩ | behind
    · by_cases itself : isLiteral c = true ∧ (text = [] → isLeading c = false)
      · rw [step_reading itself.1 itself.2] at last
        refine .inl ⟨(Option.some.inj last).symm, ?_, ?_⟩
        · intro d mem
          rcases List.mem_append.mp mem with old | new
          · exact literal.bytes d old
          · rw [List.mem_singleton.mp new]
            exact itself.1
        · cases text with
          | nil => simpa using itself.2 rfl
          | cons d text => exact literal.first
      · have special : isLiteral c = false ∨
            (reading text).current.isNone = true ∧ isLeading c = true := by
          by_cases known : isLiteral c = true
          · simp only [known, true_and, Classical.not_imp, Bool.not_eq_false] at itself
            obtain ⟨rfl, leads⟩ := itself
            exact .inr ⟨rfl, leads⟩
          · exact .inl (by simpa using known)
        have few := weight_stepPlain rfl last special
        rw [weight_reading] at few
        exact .inr (by omega)
    · have more := weight_step last
      exact .inr (by omega)

/-- A literal text is read to itself. -/
theorem foldlM_literal (literal : Literal text) :
    text.foldlM step start = some (reading text) := by
  induction text using List.reverseRecOn with
  | nil => rfl
  | append_singleton text c ih =>
    have before : Literal text := by
      refine ⟨fun d mem => literal.bytes d (List.mem_append_left _ mem), fun d mem => ?_⟩
      cases text with
      | nil => cases mem
      | cons e text => exact literal.first d mem
    have leading : text = [] → isLeading c = false := by
      rintro rfl
      exact literal.first c rfl
    have last := literal.bytes c (List.mem_append_right _ (List.mem_singleton_self c))
    rw [List.foldlM_append, ih before]
    simpa using step_reading last leading

end Lexer

section Words

variable {text : List UInt8} {word : Word} {matching : Word → List (List UInt8)}

theorem lex_literal (nonempty : text ≠ []) (literal : Literal text) :
    lex text = some [.word (unquoted text)] := by
  rw [lex, Lexer.foldlM_literal literal]
  simp [Lexer.reading, Lexer.finish, Lexer.delimit, nonempty]

/-- A text that is one word with all its bytes has nothing special in it. -/
theorem literal_of_lex (read : lex text = some [.word word]) (same : word.text = text) :
    text ≠ [] ∧ Literal text := by
  rw [lex, Option.bind_eq_some_iff] at read
  obtain ⟨s, read, finished⟩ := read
  have tokens : s.delimit.tokens = [.word word] := by
    unfold Lexer.finish at finished
    split at finished
    · exact Option.some.inj finished
    · exact Option.some.inj finished
    all_goals cases finished
  have weight : s.weight = text.length := by
    rw [← Lexer.weight_delimit, Lexer.weight, tokens, ← same]
    simp [Lexer.delimit, Token.length, Word.text]
  rcases Lexer.foldlM_cases read with ⟨rfl, literal⟩ | behind
  · refine ⟨?_, literal⟩
    rintro rfl
    cases tokens
  · omega

theorem expand_ne_nil : word.expand matching ≠ [] := by
  rw [Word.expand]
  split_ifs with found
  · exact found.2
  · simp

theorem expand_of_not_patterned (plain : word.patterned = false) :
    word.expand matching = [word.text] := by
  rw [Word.expand, plain, if_neg (by simp)]

/-- The first token of a command is a word, and gives its fields first. -/
theorem mapM_cons_fields {token : Token} {tokens : List Token}
    {fields : List (List (List UInt8))}
    (words : (token :: tokens).mapM (Token.fields matching) = some fields) :
    ∃ word more, token = .word word ∧ tokens.mapM (Token.fields matching) = some more ∧
      fields.flatten = word.expand matching ++ more.flatten := by
  rw [List.mapM_cons] at words
  obtain ⟨first, given, words⟩ := Option.bind_eq_some_iff.mp words
  obtain ⟨more, later, same⟩ := Option.bind_eq_some_iff.mp words
  cases same
  cases token with
  | operator c => cases given
  | word word =>
    cases given
    exact ⟨word, more, rfl, later, rfl⟩

/-- A command with one field is one word. -/
theorem word_of_fields {tokens : List Token} {fields : List (List (List UInt8))}
    {field : List UInt8} (words : tokens.mapM (Token.fields matching) = some fields)
    (single : fields.flatten = [field]) :
    ∃ word, tokens = [.word word] ∧ word.expand matching = [field] := by
  cases tokens with
  | nil =>
    cases words
    cases single
  | cons token tokens =>
    obtain ⟨word, more, rfl, later, given⟩ := mapM_cons_fields words
    rw [given] at single
    obtain ⟨none, -⟩ | ⟨only, none⟩ := List.append_eq_singleton_iff.mp single
    · exact absurd none expand_ne_nil
    · cases tokens with
      | nil => exact ⟨word, rfl, only⟩
      | cons token' tokens =>
        obtain ⟨word', more', -, -, given'⟩ := mapM_cons_fields later
        rw [given', List.append_eq_nil_iff] at none
        exact absurd none.1 expand_ne_nil

/-- The text is literal and no file matches it, or it is a pattern that matches only itself. -/
def ReadsItself (matching : Word → List (List UInt8)) (text : List UInt8) : Prop :=
  text ≠ [] ∧ Literal text ∧
      ((unquoted text).patterned = true → matching (unquoted text) = []) ∨
    ∃ word, lex text = some [.word word] ∧ word.patterned = true ∧ matching word = [text]

/-- The texts that are one argument, with all their bytes. -/
theorem simpleCommand_self_iff :
    simpleCommand matching text = some [text] ↔ ReadsItself matching text := by
  constructor
  · intro read
    obtain ⟨tokens, lexed, read⟩ := Option.bind_eq_some_iff.mp read
    obtain ⟨fields, words, read⟩ := Option.bind_eq_some_iff.mp read
    obtain ⟨word, rfl, found⟩ := word_of_fields words (Option.some.inj read)
    rw [Word.expand] at found
    split_ifs at found with pattern
    · exact .inr ⟨word, lexed, pattern.1, found⟩
    · have same := List.singleton_inj.mp found
      obtain ⟨nonempty, literal⟩ := literal_of_lex lexed same
      rw [lex_literal nonempty literal] at lexed
      cases lexed
      refine .inl ⟨nonempty, literal, fun patterned => ?_⟩
      by_contra some
      exact pattern ⟨patterned, some⟩
  · rintro (⟨nonempty, literal, none⟩ | ⟨word, lexed, patterned, only⟩)
    · have left : (unquoted text).expand matching = [text] := by
        rw [Word.expand, if_neg fun found => found.2 (none found.1), text_unquoted]
      simp [simpleCommand, lex_literal nonempty literal, Token.fields, left]
    · have found : word.expand matching = [text] := by
        rw [Word.expand, if_pos ⟨patterned, by simp [only]⟩, only]
      simp [simpleCommand, lexed, Token.fields, found]

end Words

end Shell
