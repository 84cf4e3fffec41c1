import WaluOs.CStrings

/-!
# A simple command, as a shell reads it

A reader of shell text after the token rules of POSIX: quoting, words, redirections, and the
bytes that begin an expansion. `readCommand` reads a text that is one simple command without
expansions, and refuses every other text.

A word takes at least as many bytes of the text as it has, and exactly as many only if each byte
stands for itself. `word_redirect_length` says so of a text that ends in a word and a
redirection: no text is shorter than their plain spelling. `run_word` reads this spelling.
-/

namespace PosixShell

open CStrings

/-! ## Bytes -/

/-- Why a text is refused. Only simple commands without expansions are read here, so that what is
read says all that the shell would do with the text. -/
inductive Refusal : Type where
  /-- it has an operator that ends a command -/
  | control : Refusal
  /-- it has a parameter, a command or a tilde to expand -/
  | expansion : Refusal
  /-- it has a pattern to expand -/
  | pattern : Refusal
  /-- it has a redirection that is not complete, or a here-document -/
  | redirection : Refusal
  /-- a quotation does not end -/
  | unterminated : Refusal
  /-- it is no simple command, or begins with an assignment -/
  | notSimple : Refusal
  deriving DecidableEq, Repr

/-- What a byte is read in. It depends on all the bytes before it, and it is why the quotes of one
word may hide what comes in another. -/
inductive Quoting : Type where
  /-- no quotes -/
  | plain : Quoting
  /-- behind a backslash -/
  | escaped : Quoting
  /-- single quotes -/
  | single : Quoting
  /-- double quotes -/
  | double : Quoting
  /-- behind a backslash in double quotes -/
  | doubleEscaped : Quoting
  /-- a comment -/
  | comment : Quoting
  deriving DecidableEq, Repr

/-- What a byte comes to. One byte may be two bytes of a word, as the one behind a backslash in
double quotes which that does not quote. -/
inductive Lexeme : Type where
  /-- nothing -/
  | nothing : Lexeme
  /-- the beginning of a quotation, and so of a word -/
  | opening : Lexeme
  /-- bytes of a word, quoted or not -/
  | bytes : List UInt8 → Bool → Lexeme
  /-- a blank -/
  | blank : Lexeme
  /-- a byte of an operator -/
  | operator : UInt8 → Lexeme
  deriving DecidableEq, Repr

/-- A space or a tab. -/
def isShellBlank (c : UInt8) : Bool := c = 0x20 ∨ c = 0x09

/-- A newline, `&`, `;`, `|` or a parenthesis. -/
def isControl (c : UInt8) : Bool :=
  c = 0x0A ∨ c = 0x26 ∨ c = 0x3B ∨ c = 0x7C ∨ c = 0x28 ∨ c = 0x29

/-- `<` or `>` -/
def isRedirect (c : UInt8) : Bool := c = 0x3C ∨ c = 0x3E

/-- A backslash or a quote. -/
def isQuote (c : UInt8) : Bool := c = 0x5C ∨ c = 0x27 ∨ c = 0x22

/-- A dollar sign or a backquote. -/
def isExpansion (c : UInt8) : Bool := c = 0x24 ∨ c = 0x60

/-- In a word, the byte stands for itself: it ends no word, begins no quotation and is not
replaced. -/
def isLiteral (c : UInt8) : Bool :=
  !(isShellBlank c || isControl c || isRedirect c || isQuote c || isExpansion c)

/-- What a byte comes to, and what the next is read in; `inWord` says that a word has begun. -/
def quote (inWord : Bool) : Quoting → UInt8 → Except Refusal (Quoting × Lexeme)
  | .plain, c =>
    if c = 0x5C then .ok (.escaped, .nothing)
    else if c = 0x27 then .ok (.single, .opening)
    else if c = 0x22 then .ok (.double, .opening)
    else if isExpansion c then .error .expansion
    else if isShellBlank c then .ok (.plain, .blank)
    else if isControl c ∨ isRedirect c then .ok (.plain, .operator c)
    else if c = 0x23 ∧ inWord = false then .ok (.comment, .nothing)
    else .ok (.plain, .bytes [c] false)
  | .escaped, c =>
    -- a backslash and a newline continue the line
    if c = 0x0A then .ok (.plain, .nothing) else .ok (.plain, .bytes [c] true)
  | .single, c => if c = 0x27 then .ok (.plain, .nothing) else .ok (.single, .bytes [c] true)
  | .double, c =>
    if c = 0x22 then .ok (.plain, .nothing)
    else if c = 0x5C then .ok (.doubleEscaped, .nothing)
    else if isExpansion c then .error .expansion
    else .ok (.double, .bytes [c] true)
  | .doubleEscaped, c =>
    if c = 0x0A then .ok (.double, .nothing)
    else if c = 0x22 ∨ c = 0x5C ∨ isExpansion c then .ok (.double, .bytes [c] true)
    else .ok (.double, .bytes [0x5C, c] true)
  | .comment, c => if c = 0x0A then .error .control else .ok (.comment, .nothing)

/-! ## Words -/

/-- A byte of a word. Whether it was quoted is kept with it, since only a byte that was not can be
part of a pattern. -/
structure WordByte : Type where
  /-- the byte -/
  byte : UInt8
  /-- it is quoted -/
  quoted : Bool
  deriving DecidableEq, Repr

/-- A word without quotes, as it is when its bytes are written down one after the other. -/
def bare (w : List UInt8) : List WordByte := w.map fun c => ⟨c, false⟩

/-- The byte `c` with its special meaning. -/
def WordByte.Is (b : WordByte) (c : UInt8) : Prop := b.byte = c ∧ b.quoted = false

instance (b : WordByte) (c : UInt8) : Decidable (b.Is c) := inferInstanceAs (Decidable (_ ∧ _))

/-- Behind a `[`: a `]` ends the set, in the same part of the path and not at once. -/
def closesSet (w : List WordByte) : Bool :=
  let set := if w.head?.any fun b => b.Is 0x21 then w.drop 1 else w
  ((set.takeWhile fun b => b.byte ≠ 0x2F).drop 1).any fun b => b.Is 0x5D

/-- The word has a set of characters in it. -/
def hasSet : List WordByte → Bool
  | [] => false
  | b :: w => b.Is 0x5B && closesSet w || hasSet w

/-- The word is a pattern: it has a star, a question mark or a set in it that is not quoted. The
shell replaces such a word by the names of files. -/
def isPattern (w : List WordByte) : Bool := (w.any fun b => b.Is 0x2A ∨ b.Is 0x3F) || hasSet w

/-- The word is digits. -/
def isNumber (w : List WordByte) : Bool :=
  w ≠ [] ∧ w.all fun b => b.quoted = false ∧ 0x30 ≤ b.byte ∧ b.byte ≤ 0x39

/-- A redirection: the number in front of the operator, the operator, and the word behind it. -/
structure Redirect : Type where
  /-- the number, or nothing -/
  number : List UInt8
  /-- the operator -/
  operator : List UInt8
  /-- the word -/
  target : List UInt8
  deriving DecidableEq, Repr

/-- A simple command, as the shell executes it. The words are free of quotes. -/
structure SimpleCommand : Type where
  /-- its words, the name of the command first -/
  words : List (List UInt8)
  /-- its redirections -/
  redirects : List Redirect
  deriving DecidableEq, Repr

/-- The words and operators that have been read. It is the state of the reader behind a part of
the text, and the word that is being read is not among the words yet. -/
structure Tokens : Type where
  /-- the word that is being read -/
  token : Option (List WordByte)
  /-- the number and the operator of a redirection that waits for its word -/
  pending : Option (List UInt8 × List UInt8)
  /-- the last byte was one of this operator -/
  fresh : Bool
  /-- the words -/
  words : List (List UInt8)
  /-- the redirections -/
  redirects : List Redirect
  deriving DecidableEq, Repr

/-- The word ends. -/
def Tokens.endWord (s : Tokens) : Except Refusal Tokens :=
  match s.token with
  | none => .ok { s with fresh := false }
  | some w =>
    if w.head?.any fun b => b.Is 0x7E then .error .expansion
    else if isPattern w then .error .pattern
    else
      match s.pending with
      | some (number, operator) =>
        .ok { s with
          token := none, pending := none, fresh := false,
          redirects := s.redirects ++ [⟨number, operator, w.map WordByte.byte⟩] }
      | none =>
        .ok { s with token := none, fresh := false, words := s.words ++ [w.map WordByte.byte] }

/-- The operators of two bytes, but for those of here-documents. -/
def longOperators : List (List UInt8) := [lit ">>", lit ">&", lit ">|", lit "<&", lit "<>"]

/-- A byte of an operator. -/
def Tokens.operator (s : Tokens) (c : UInt8) : Except Refusal Tokens :=
  if s.fresh then
    match s.pending with
    | some (number, operator) =>
      if operator ++ [c] ∈ longOperators then
        .ok { s with pending := some (number, operator ++ [c]), fresh := false }
      else .error .redirection
    | none => .error .redirection
  else if isControl c then .error .control
  else if isNumber (s.token.getD []) then
    if s.pending = none then
      .ok { s with
        token := none, pending := some ((s.token.getD []).map WordByte.byte, [c]), fresh := true }
    else .error .redirection
  else
    match s.endWord with
    | .error refusal => .error refusal
    | .ok s' =>
      if s'.pending = none then .ok { s' with pending := some ([], [c]), fresh := true }
      else .error .redirection

/-- One step of the reader. -/
def Tokens.read (s : Tokens) : Lexeme → Except Refusal Tokens
  | .nothing => .ok s
  | .opening => .ok { s with token := some (s.token.getD []), fresh := false }
  | .bytes bs quoted =>
    .ok { s with
      token := some (s.token.getD [] ++ bs.map fun c => ⟨c, quoted⟩), fresh := false }
  | .blank => s.endWord
  | .operator c => s.operator c

/-- The words that begin something else than a simple command. -/
def reservedWords : List (List UInt8) :=
  [lit "!", lit "\x7b", lit "\x7d", lit "case", lit "do", lit "done", lit "elif", lit "else",
    lit "esac", lit "fi", lit "for", lit "if", lit "in", lit "then", lit "until", lit "while"]

/-- The command, at the end of the text. -/
def Tokens.command (s : Tokens) : Except Refusal SimpleCommand :=
  match s.endWord with
  | .error refusal => .error refusal
  | .ok s' =>
    if s'.pending ≠ none then .error .redirection
    else
      match s'.words with
      | [] => .error .notSimple
      | name :: _ =>
        if name ∈ reservedWords ∨ 0x3D ∈ name then .error .notSimple
        else .ok ⟨s'.words, s'.redirects⟩

/-- One byte is read. -/
def step (s : Quoting × Tokens) (c : UInt8) : Except Refusal (Quoting × Tokens) :=
  match quote s.2.token.isSome s.1 c with
  | .error refusal => .error refusal
  | .ok (quoting, lexeme) => (s.2.read lexeme).map fun tokens => (quoting, tokens)

/-- A text is read. -/
def run : Quoting × Tokens → List UInt8 → Except Refusal (Quoting × Tokens)
  | s, [] => .ok s
  | s, c :: text =>
    match step s c with
    | .error refusal => .error refusal
    | .ok s' => run s' text

/-- A text is read to its end. -/
def readFrom (s : Quoting × Tokens) (text : List UInt8) : Except Refusal SimpleCommand :=
  match run s text with
  | .error refusal => .error refusal
  | .ok (quoting, tokens) =>
    if quoting = .plain ∨ quoting = .comment then tokens.command else .error .unterminated

/-- Nothing has been read. -/
def start : Quoting × Tokens := (.plain, ⟨none, none, false, [], []⟩)

/-- The simple command that a text is, or why it is none. -/
def readCommand (text : List UInt8) : Except Refusal SimpleCommand := readFrom start text

example : readCommand (lit "a 'b c'\"\\$d\" 2>/dev/null") =
    .ok ⟨[lit "a", lit "b c$d"], [⟨lit "2", lit ">", lit "/dev/null"⟩]⟩ := by decide

/-! ## What a step does -/

variable {s s' : Tokens} {q q' : Quoting} {c : UInt8}

theorem step_ok_iff {inWord : Bool} (hword : s.token.isSome = inWord) :
    step (q, s) c = .ok (q', s') ↔
      ∃ lexeme, quote inWord q c = .ok (q', lexeme) ∧ s.read lexeme = .ok s' := by
  rw [step, hword]
  dsimp only
  cases quote inWord q c with
  | error refusal => simp
  | ok read =>
    obtain ⟨quoting, lexeme⟩ := read
    dsimp only
    cases hread : s.read lexeme with
    | error refusal => simp [Except.map, hread]
    | ok tokens => simp [Except.map, hread]

theorem endWord_cases (h : s.endWord = .ok s') :
    s.token = none ∧ s' = { s with fresh := false } ∨
      ∃ w, s.token = some w ∧ isPattern w = false ∧
        ((∃ number operator, s.pending = some (number, operator) ∧
            s' = { s with
              token := none, pending := none, fresh := false,
              redirects := s.redirects ++ [⟨number, operator, w.map WordByte.byte⟩] }) ∨
          s.pending = none ∧
            s' = { s with
              token := none, fresh := false, words := s.words ++ [w.map WordByte.byte] }) := by
  rw [Tokens.endWord] at h
  cases htoken : s.token with
  | none =>
    rw [htoken] at h
    exact Or.inl ⟨rfl, (Except.ok.inj h).symm⟩
  | some w =>
    rw [htoken] at h
    dsimp only at h
    split_ifs at h with htilde hpattern
    refine Or.inr ⟨w, rfl, by simpa using hpattern, ?_⟩
    cases hpending : s.pending with
    | none =>
      rw [hpending] at h
      exact Or.inr ⟨rfl, (Except.ok.inj h).symm⟩
    | some redirect =>
      rw [hpending] at h
      exact Or.inl ⟨_, _, rfl, (Except.ok.inj h).symm⟩

/-- A byte of an operator goes on with the operator of a redirection that has just begun, or
begins one. The word in front of it is its number, if it is one. -/
theorem operator_cases (h : s.operator c = .ok s') :
    (∃ number operator, s.pending = some (number, operator) ∧ s.fresh = true ∧
      s' = { s with pending := some (number, operator ++ [c]), fresh := false }) ∨
    (s.pending = none ∧ isNumber (s.token.getD []) = true ∧
      s' = { s with
        token := none, pending := some ((s.token.getD []).map WordByte.byte, [c]),
        fresh := true }) ∨
    isNumber (s.token.getD []) = false ∧
      ∃ s'', s.endWord = .ok s'' ∧ s''.pending = none ∧
        s' = { s'' with pending := some ([], [c]), fresh := true } := by
  rw [Tokens.operator] at h
  split_ifs at h with hfresh hcontrol hnumber hpending
  · left
    cases hpending : s.pending with
    | none =>
      rw [hpending] at h
      exact absurd h (by simp)
    | some redirect =>
      rw [hpending] at h
      dsimp only at h
      split_ifs at h
      exact ⟨_, _, rfl, hfresh, (Except.ok.inj h).symm⟩
  · exact Or.inr (Or.inl ⟨hpending, hnumber, (Except.ok.inj h).symm⟩)
  · right; right
    refine ⟨by simpa using hnumber, ?_⟩
    cases hend : s.endWord with
    | error refusal =>
      rw [hend] at h
      exact absurd h (by simp)
    | ok s'' =>
      rw [hend] at h
      dsimp only at h
      split_ifs at h with hpending
      exact ⟨s'', rfl, hpending, (Except.ok.inj h).symm⟩

/-! ## Sizes -/

/-- The bytes that are held back. -/
def Quoting.held : Quoting → ℕ
  | .doubleEscaped => 1
  | _ => 0

/-- The bytes that a lexeme adds. -/
def Lexeme.size : Lexeme → ℕ
  | .bytes bs _ => bs.length
  | .operator _ => 1
  | _ => 0

/-- The bytes of a redirection. -/
def Redirect.text (r : Redirect) : List UInt8 := r.number ++ r.operator ++ r.target

/-- The bytes of a redirection without its word. -/
def pendingSize : Option (List UInt8 × List UInt8) → ℕ
  | none => 0
  | some (number, operator) => number.length + operator.length

/-- The bytes of what has been read. -/
def Tokens.size (s : Tokens) : ℕ :=
  s.words.flatten.length + (s.redirects.flatMap Redirect.text).length + pendingSize s.pending +
    (s.token.getD []).length

/-- A byte that is read adds no more than itself. -/
theorem quote_size {inWord : Bool} {lexeme : Lexeme} (h : quote inWord q c = .ok (q', lexeme)) :
    q'.held + lexeme.size ≤ q.held + 1 := by
  cases q <;> simp only [quote] at h <;> split_ifs at h <;>
    obtain ⟨rfl, rfl⟩ := Prod.mk.inj (Except.ok.inj h) <;> simp [Quoting.held, Lexeme.size]

/-- Blanks and operators are not quoted. -/
theorem quote_unquoted {inWord : Bool} {lexeme : Lexeme}
    (h : quote inWord q c = .ok (q', lexeme))
    (hlexeme : lexeme = .blank ∨ ∃ d, lexeme = .operator d) : q = .plain ∧ q' = .plain := by
  cases q <;> simp only [quote] at h <;> split_ifs at h <;>
    obtain ⟨rfl, rfl⟩ := Prod.mk.inj (Except.ok.inj h) <;> simp at hlexeme ⊢

/-- In a word without quotes, a byte of the word stands for itself, and a quote holds nothing. -/
theorem quote_plain {lexeme : Lexeme} (h : quote true .plain c = .ok (q', lexeme)) :
    (∀ bs quoted, lexeme = .bytes bs quoted →
        bs = [c] ∧ quoted = false ∧ q' = .plain ∧ isLiteral c = true) ∧
      q'.held = 0 := by
  simp only [quote] at h
  split_ifs at h with h1 h2 h3 h4 h5 h6 h7 <;>
    obtain ⟨rfl, rfl⟩ := Prod.mk.inj (Except.ok.inj h)
  case neg =>
    refine ⟨fun bs quoted hbytes => ?_, rfl⟩
    obtain ⟨rfl, rfl⟩ := Lexeme.bytes.inj hbytes
    refine ⟨rfl, rfl, rfl, ?_⟩
    simp [isLiteral, isQuote, h1, h2, h3, h4, h5, not_or.mp h6]
  all_goals exact ⟨fun bs quoted hbytes => (nomatch hbytes), rfl⟩

/-- What stands for itself is read so. -/
theorem quote_literal (hc : isLiteral c = true) :
    quote true .plain c = .ok (.plain, .bytes [c] false) := by
  simp only [isLiteral, Bool.not_eq_true', Bool.or_eq_false_iff] at hc
  obtain ⟨⟨⟨⟨hblank, hcontrol⟩, hredirect⟩, hquote⟩, hexpansion⟩ := hc
  obtain ⟨hbackslash, hsingle, hdouble⟩ : c ≠ 0x5C ∧ c ≠ 0x27 ∧ c ≠ 0x22 := by
    simpa only [not_or] using of_decide_eq_false hquote
  simp [quote, hbackslash, hsingle, hdouble, hexpansion, hblank, hcontrol, hredirect]

theorem endWord_size (h : s.endWord = .ok s') : s'.size = s.size := by
  rcases endWord_cases h with ⟨-, rfl⟩ | ⟨w, htoken, -, ⟨number, operator, hpending, rfl⟩ |
    ⟨hpending, rfl⟩⟩
  · rfl
  · simp only [Tokens.size, htoken, hpending, pendingSize, Redirect.text, List.flatMap_append,
      List.flatMap_singleton, List.length_append, List.length_map, List.length_nil,
      Option.getD_some, Option.getD_none]
    omega
  · simp only [Tokens.size, htoken, hpending, pendingSize, List.flatten_append,
      List.flatten_singleton, List.length_append, List.length_map, List.length_nil,
      Option.getD_some, Option.getD_none]
    omega

theorem operator_size (h : s.operator c = .ok s') : s'.size ≤ s.size + 1 := by
  rcases operator_cases h with ⟨number, operator, hpending, -, rfl⟩ | ⟨hpending, -, rfl⟩ |
    ⟨-, s'', hend, hpending, rfl⟩
  · simp only [Tokens.size, hpending, pendingSize, List.length_append, List.length_singleton]
    omega
  · simp only [Tokens.size, hpending, pendingSize, List.length_map, List.length_singleton,
      List.length_nil, Option.getD_none]
    omega
  · rw [← endWord_size hend]
    simp only [Tokens.size, hpending, pendingSize, List.length_singleton, List.length_nil]
    omega

/-- A step adds what its lexeme has. -/
theorem read_size {lexeme : Lexeme} (h : s.read lexeme = .ok s') :
    s'.size ≤ s.size + lexeme.size := by
  cases lexeme with
  | nothing =>
    obtain rfl := Except.ok.inj h
    exact Nat.le_add_right _ _
  | opening =>
    obtain rfl := Except.ok.inj h
    exact Nat.le_add_right _ _
  | bytes bs quoted =>
    obtain rfl := Except.ok.inj h
    simp only [Tokens.size, Lexeme.size, List.length_append, List.length_map, Option.getD_some]
    omega
  | blank => exact (endWord_size h).le
  | operator d => exact operator_size h

/-! ## Redirections without a number -/

/-- A redirection without a number has begun. -/
def Tokens.Unnumbered (s : Tokens) : Prop :=
  (∃ operator, s.pending = some ([], operator)) ∨ ∃ r ∈ s.redirects, r.number = []

theorem Tokens.Unnumbered.endWord (h : s.Unnumbered) (hend : s.endWord = .ok s') :
    s'.Unnumbered := by
  rcases endWord_cases hend with ⟨-, rfl⟩ | ⟨w, -, -, ⟨number, operator, hpending, rfl⟩ |
    ⟨hpending, rfl⟩⟩
  · exact h
  · right
    rcases h with ⟨operator', hpending'⟩ | ⟨r, hr, hnumber⟩
    · obtain ⟨rfl, rfl⟩ := Prod.mk.inj (Option.some.inj (hpending.symm.trans hpending'))
      exact ⟨_, List.mem_append_right _ (List.mem_singleton_self _), rfl⟩
    · exact ⟨r, List.mem_append_left _ hr, hnumber⟩
  · exact h

theorem Tokens.Unnumbered.read {lexeme : Lexeme} (h : s.Unnumbered)
    (hread : s.read lexeme = .ok s') : s'.Unnumbered := by
  cases lexeme with
  | nothing =>
    obtain rfl := Except.ok.inj hread
    exact h
  | opening =>
    obtain rfl := Except.ok.inj hread
    exact h
  | bytes bs quoted =>
    obtain rfl := Except.ok.inj hread
    exact h
  | blank => exact h.endWord hread
  | operator d =>
    rcases operator_cases hread with ⟨number, operator, hpending, -, rfl⟩ | ⟨hpending, -, rfl⟩ |
      ⟨-, s'', hend, hpending, rfl⟩
    · refine h.imp ?_ id
      rintro ⟨operator', hpending'⟩
      obtain ⟨rfl, -⟩ := Prod.mk.inj (Option.some.inj (hpending.symm.trans hpending'))
      exact ⟨_, rfl⟩
    · refine Or.inr (h.resolve_left ?_)
      rintro ⟨operator', hpending'⟩
      exact absurd (hpending.symm.trans hpending') (by simp)
    · exact Or.inl ⟨_, rfl⟩

/-! ## The plain spelling -/

/-- Each byte of the word stands for itself. Where such a word is put into a command it is read as
one word, and as itself. -/
structure Spelled (w : List UInt8) : Prop where
  /-- none of them is special -/
  literal : ∀ c ∈ w, isLiteral c = true
  /-- together they are no pattern -/
  noPattern : isPattern (bare w) = false

theorem map_byte_bare (w : List UInt8) : (bare w).map WordByte.byte = w := by
  rw [bare, List.map_map]
  exact List.map_id' w

theorem isNumber_append {front : List UInt8} (h : ∃ c ∈ front, ¬(0x30 ≤ c ∧ c ≤ 0x39))
    (u : List WordByte) : isNumber (bare front ++ u) = false := by
  obtain ⟨c, hc, hdigit⟩ := h
  refine decide_eq_false fun hnumber => hdigit ?_
  have hall := List.all_eq_true.mp hnumber.2 ⟨c, false⟩
    (List.mem_append_left _ (List.mem_map_of_mem hc))
  simpa using hall

/-- The words are only added to. -/
theorem endWord_words (h : s.endWord = .ok s') : s.words <+: s'.words := by
  rcases endWord_cases h with ⟨-, rfl⟩ | ⟨w, -, -, ⟨number, operator, -, rfl⟩ | ⟨-, rfl⟩⟩
  · exact List.prefix_rfl
  · exact List.prefix_rfl
  · exact List.prefix_append _ _

theorem read_words {lexeme : Lexeme} (h : s.read lexeme = .ok s') : s.words <+: s'.words := by
  cases lexeme with
  | nothing =>
    obtain rfl := Except.ok.inj h
    exact List.prefix_rfl
  | opening =>
    obtain rfl := Except.ok.inj h
    exact List.prefix_rfl
  | bytes bs quoted =>
    obtain rfl := Except.ok.inj h
    exact List.prefix_rfl
  | blank => exact endWord_words h
  | operator d =>
    rcases operator_cases h with ⟨number, operator, -, -, rfl⟩ | ⟨-, -, rfl⟩ |
      ⟨-, s'', hend, -, rfl⟩
    · exact List.prefix_rfl
    · exact List.prefix_rfl
    · exact (endWord_words hend : s.words <+: s''.words)

/-- What is read of a text that has gone on for `n` bytes behind the words `words` and the
beginning `front` of another. -/
inductive Trace (words : List (List UInt8)) (front : List UInt8) (n : ℕ) (q : Quoting)
    (s : Tokens) : Prop
  /-- the word has not ended; all its bytes stand for themselves, or there are fewer than `n` -/
  | inside (u : List WordByte) (hwords : s.words = words)
    (hrest : s.redirects = [] ∧ s.pending = none ∧ s.fresh = false)
    (htoken : s.token = some (bare front ++ u)) (hsize : q.held + u.length ≤ n)
    (htight : (q = .plain ∧ ∃ v, u = bare v ∧ ∀ c ∈ v, isLiteral c = true) ∨
      q.held + u.length < n) : Trace words front n q s
  /-- a redirection has no number -/
  | unnumbered (h : s.Unnumbered) : Trace words front n q s
  /-- the word has ended, and at least one byte was none of those that have been read; it was
  the only one, and the bytes of the word stand for themselves, or there were more -/
  | behind (w : List UInt8) (hword : words ++ [w] <+: s.words)
    (hsize : q.held + s.size < words.flatten.length + front.length + n)
    (htight : Spelled w ∨ q.held + s.size + 1 < words.flatten.length + front.length + n) :
    Trace words front n q s

variable {words : List (List UInt8)} {front : List UInt8} {n : ℕ}

/-- The word ends. -/
theorem Trace.ended {u : List WordByte} (hwords : s.words = words)
    (hrest : s.redirects = [] ∧ s.pending = none ∧ s.fresh = false)
    (htoken : s.token = some (bare front ++ u)) (hsize : u.length ≤ n)
    (htight : (∃ v, u = bare v ∧ ∀ c ∈ v, isLiteral c = true) ∨ u.length < n)
    (hliteral : ∀ c ∈ front, isLiteral c = true) (hend : s.endWord = .ok s') :
    Trace words front (n + 1) .plain s' := by
  have hsize' : s'.size = words.flatten.length + (front.length + u.length) := by
    rw [endWord_size hend, Tokens.size, hwords, htoken, hrest.1, hrest.2.1]
    simp [pendingSize, bare]
  have hheld : Quoting.plain.held = 0 := rfl
  rcases endWord_cases hend with ⟨hnone, -⟩ | ⟨w, hw, hpattern, ⟨number, operator, hsome, -⟩ |
    ⟨-, rfl⟩⟩
  · exact absurd (hnone.symm.trans htoken) (by simp)
  · exact absurd (hrest.2.1.symm.trans hsome) (by simp)
  · obtain rfl := Option.some.inj (htoken.symm.trans hw)
    refine .behind ((bare front ++ u).map WordByte.byte) ?_ (by omega) ?_
    · simp only [hwords, List.prefix_rfl]
    · rcases htight with ⟨v, rfl, hv⟩ | hless
      · left
        have hbare : bare front ++ bare v = bare (front ++ v) := List.map_append.symm
        rw [hbare] at hpattern
        rw [hbare, map_byte_bare]
        exact ⟨fun d hd => (List.mem_append.mp hd).elim (hliteral d) (hv d), hpattern⟩
      · exact Or.inr (by omega)

/-- The word goes on, or ends. A byte that stands for itself is appended to the word; any other
one makes the word shorter than what was read, which it never makes up for. -/
theorem Trace.step_inside {lexeme : Lexeme} {u : List WordByte} (hwords : s.words = words)
    (hrest : s.redirects = [] ∧ s.pending = none ∧ s.fresh = false)
    (htoken : s.token = some (bare front ++ u)) (hsize : q.held + u.length ≤ n)
    (htight : (q = .plain ∧ ∃ v, u = bare v ∧ ∀ c ∈ v, isLiteral c = true) ∨
      q.held + u.length < n)
    (hliteral : ∀ c ∈ front, isLiteral c = true)
    (hdigit : ∃ c ∈ front, ¬(0x30 ≤ c ∧ c ≤ 0x39))
    (hquote : quote true q c = .ok (q', lexeme)) (hread : s.read lexeme = .ok s') :
    Trace words front (n + 1) q' s' := by
  have hgain := quote_size hquote
  -- a byte that adds nothing is one byte more than the word has
  have hlost : lexeme.size = 0 → q'.held + u.length < n + 1 := by
    intro hnone
    rcases htight with ⟨rfl, -⟩ | hless
    · have hheld := (quote_plain hquote).2
      omega
    · omega
  cases lexeme with
  | nothing =>
    obtain rfl := Except.ok.inj hread
    exact .inside u hwords hrest htoken (hlost rfl).le (Or.inr (hlost rfl))
  | opening =>
    obtain rfl := Except.ok.inj hread
    exact .inside u hwords ⟨hrest.1, hrest.2.1, rfl⟩ (by rw [htoken]; rfl) (hlost rfl).le
      (Or.inr (hlost rfl))
  | bytes bs quoted =>
    obtain rfl := Except.ok.inj hread
    have hlength : (Lexeme.bytes bs quoted).size = bs.length := rfl
    refine .inside (u ++ bs.map fun c => ⟨c, quoted⟩) hwords ⟨hrest.1, hrest.2.1, rfl⟩ ?_ ?_ ?_
    · rw [htoken, Option.getD_some, List.append_assoc]
    · rw [List.length_append, List.length_map]
      omega
    · rcases htight with ⟨rfl, v, rfl, hv⟩ | hless
      · obtain ⟨rfl, rfl, rfl, hc⟩ := (quote_plain hquote).1 bs quoted rfl
        refine Or.inl ⟨rfl, v ++ [c], by simp [bare], ?_⟩
        intro d hd
        exact (List.mem_append.mp hd).elim (hv d) fun h => List.mem_singleton.mp h ▸ hc
      · right
        rw [List.length_append, List.length_map]
        omega
  | blank =>
    obtain ⟨rfl, rfl⟩ := quote_unquoted hquote (Or.inl rfl)
    have hheld : Quoting.plain.held = 0 := rfl
    rw [hheld, Nat.zero_add] at hsize htight
    exact .ended hwords hrest htoken hsize (htight.imp And.right id) hliteral hread
  | operator d =>
    -- its digits are no number, so the redirection has none
    rcases operator_cases hread with ⟨number, operator, -, hfresh, -⟩ | ⟨-, hnumber, -⟩ |
      ⟨-, s'', -, -, rfl⟩
    · exact absurd (hrest.2.2.symm.trans hfresh) (by decide)
    · rw [htoken, Option.getD_some, isNumber_append hdigit] at hnumber
      exact absurd hnumber (by decide)
    · exact .unnumbered (Or.inl ⟨_, rfl⟩)

/-- **One byte more.** -/
theorem Trace.step (hliteral : ∀ c ∈ front, isLiteral c = true)
    (hdigit : ∃ c ∈ front, ¬(0x30 ≤ c ∧ c ≤ 0x39)) (h : Trace words front n q s)
    (hstep : PosixShell.step (q, s) c = .ok (q', s')) : Trace words front (n + 1) q' s' := by
  obtain ⟨lexeme, hquote, hread⟩ := (step_ok_iff rfl).mp hstep
  cases h with
  | inside u hwords hrest htoken hsize htight =>
    rw [htoken] at hquote
    exact step_inside hwords hrest htoken hsize htight hliteral hdigit hquote hread
  | unnumbered h => exact .unnumbered (h.read hread)
  | behind w hword hsize htight =>
    have hgain := quote_size hquote
    have hread' := read_size hread
    exact .behind w (hword.trans (read_words hread)) (by omega) (htight.imp id fun _ => by omega)

/-- A text. -/
theorem Trace.run (hliteral : ∀ c ∈ front, isLiteral c = true)
    (hdigit : ∃ c ∈ front, ¬(0x30 ≤ c ∧ c ≤ 0x39)) (text : List UInt8) :
    ∀ {n : ℕ} {q : Quoting} {s : Tokens}, Trace words front n q s →
      PosixShell.run (q, s) text = .ok (q', s') → Trace words front (n + text.length) q' s' := by
  induction text with
  | nil =>
    intro n q s h hrun
    obtain ⟨rfl, rfl⟩ := Prod.mk.inj (Except.ok.inj hrun)
    exact h
  | cons c text ih =>
    intro n q s h hrun
    rw [PosixShell.run] at hrun
    cases hstep : PosixShell.step (q, s) c with
    | error refusal =>
      rw [hstep] at hrun
      exact absurd hrun (by simp)
    | ok next =>
      obtain ⟨q'', s''⟩ := next
      rw [hstep] at hrun
      have htrace := ih (h.step hliteral hdigit hstep) hrun
      rwa [List.length_cons, Nat.add_comm text.length, ← Nat.add_assoc]

theorem command_ok {command : SimpleCommand} (h : s.command = .ok command) :
    ∃ s', s.endWord = .ok s' ∧ s'.pending = none ∧ s'.words = command.words ∧
      s'.redirects = command.redirects := by
  rw [Tokens.command] at h
  cases hend : s.endWord with
  | error refusal =>
    rw [hend] at h
    exact absurd h (by simp)
  | ok s' =>
    rw [hend] at h
    dsimp only at h
    split_ifs at h with hpending
    refine ⟨s', rfl, not_not.mp hpending, ?_⟩
    cases hwords : s'.words with
    | nil =>
      rw [hwords] at h
      exact absurd h (by simp)
    | cons name more =>
      rw [hwords] at h
      dsimp only at h
      split_ifs at h
      obtain rfl := Except.ok.inj h
      exact ⟨rfl, rfl⟩

theorem command_of_endWord {name : List UInt8} {more : List (List UInt8)}
    (hend : s.endWord = .ok s') (hpending : s'.pending = none) (hwords : s'.words = name :: more)
    (hname : ¬(name ∈ reservedWords ∨ 0x3D ∈ name)) :
    s.command = .ok ⟨name :: more, s'.redirects⟩ := by
  rw [Tokens.command, hend]
  dsimp only
  rw [if_neg (not_not.mpr hpending), hwords]
  exact if_neg hname

theorem readFrom_ok {start : Quoting × Tokens} {text : List UInt8} {command : SimpleCommand}
    (h : readFrom start text = .ok command) :
    ∃ q s, PosixShell.run start text = .ok (q, s) ∧ q.held = 0 ∧ s.command = .ok command := by
  rw [readFrom] at h
  cases hrun : PosixShell.run start text with
  | error refusal =>
    rw [hrun] at h
    exact absurd h (by simp)
  | ok done =>
    obtain ⟨q, s⟩ := done
    rw [hrun] at h
    dsimp only at h
    split_ifs at h with hquoting
    refine ⟨q, s, rfl, ?_, h⟩
    rcases hquoting with rfl | rfl <;> rfl

/-- **No text is shorter** than the plain spelling of the rest of a word and a redirection, and
none that is as long is another one. -/
theorem word_redirect_length {text w : List UInt8} {r : Redirect}
    (hliteral : ∀ c ∈ front, isLiteral c = true)
    (hdigit : ∃ c ∈ front, ¬(0x30 ≤ c ∧ c ≤ 0x39)) (hnumber : r.number ≠ [])
    (h : readFrom (.plain, ⟨some (bare front), none, false, words, []⟩) text =
      .ok ⟨words ++ [w], [r]⟩) :
    w.length + r.text.length < front.length + text.length ∧
      (Spelled w ∨ w.length + r.text.length + 1 < front.length + text.length) := by
  obtain ⟨q, s, hrun, hheld, hcommand⟩ := readFrom_ok h
  obtain ⟨s', hend, hpending, hwords, hredirects⟩ := command_ok hcommand
  have hstart : Trace words front 0 .plain ⟨some (bare front), none, false, words, []⟩ :=
    .inside [] rfl ⟨rfl, rfl, rfl⟩ (by rw [List.append_nil]) (Nat.le_refl 0)
      (Or.inl ⟨rfl, [], rfl, fun _ h => absurd h List.not_mem_nil⟩)
  have htrace := hstart.run hliteral hdigit text hrun
  rw [Nat.zero_add] at htrace
  cases htrace with
  | inside u hwords' hrest htoken hsize htight =>
    rcases endWord_cases hend with ⟨hnone, -⟩ | ⟨v, -, -, ⟨number, operator, hsome, -⟩ | ⟨-, rfl⟩⟩
    · exact absurd (hnone.symm.trans htoken) (by simp)
    · exact absurd (hrest.2.1.symm.trans hsome) (by simp)
    · exact absurd (hrest.1.symm.trans hredirects) (by simp)
  | unnumbered h =>
    rcases h.endWord hend with ⟨operator, hsome⟩ | ⟨r', hr', hnil⟩
    · exact absurd (hpending.symm.trans hsome) (by simp)
    · rw [hredirects, List.mem_singleton] at hr'
      exact absurd (hr' ▸ hnil) hnumber
  | behind w' hword hsize htight =>
    have hprefix := hword.trans (endWord_words hend)
    rw [hwords] at hprefix
    obtain rfl : w' = w := by simpa using hprefix.eq_of_length (by simp)
    have htotal : words.flatten.length + w'.length + r.text.length ≤ s.size := by
      rw [← endWord_size hend, Tokens.size, hwords, hredirects, List.flatten_append,
        List.flatten_singleton, List.flatMap_singleton, List.length_append]
      omega
    refine ⟨by omega, htight.imp id fun _ => by omega⟩

/-! ## The plain spelling is read -/

theorem run_append {start mid : Quoting × Tokens} :
    ∀ {front : List UInt8}, PosixShell.run start front = .ok mid →
      ∀ back, PosixShell.run start (front ++ back) = PosixShell.run mid back := by
  intro front
  induction front generalizing start with
  | nil =>
    intro h back
    obtain rfl := Except.ok.inj h
    rfl
  | cons c front ih =>
    intro h back
    rw [List.cons_append, PosixShell.run]
    rw [PosixShell.run] at h
    cases hstep : PosixShell.step start c with
    | error refusal =>
      rw [hstep] at h
      exact absurd h (by simp)
    | ok next =>
      rw [hstep] at h
      exact ih h back

theorem readFrom_append {start mid : Quoting × Tokens} {front : List UInt8}
    (h : PosixShell.run start front = .ok mid) (back : List UInt8) :
    readFrom start (front ++ back) = readFrom mid back := by
  rw [readFrom, run_append h, readFrom]

/-- The rest of a word. -/
theorem run_literal {rest : List UInt8} (h : ∀ c ∈ rest, isLiteral c = true) :
    ∀ front, PosixShell.run (.plain, ⟨some (bare front), none, false, words, []⟩) rest =
      .ok (.plain, ⟨some (bare (front ++ rest)), none, false, words, []⟩) := by
  induction rest with
  | nil =>
    intro front
    rw [List.append_nil]
    rfl
  | cons c rest ih =>
    intro front
    obtain ⟨hc, hrest⟩ := List.forall_mem_cons.mp h
    have hstep : PosixShell.step (.plain, ⟨some (bare front), none, false, words, []⟩) c =
        .ok (.plain, ⟨some (bare (front ++ [c])), none, false, words, []⟩) := by
      refine (step_ok_iff rfl).mpr ⟨_, quote_literal hc, ?_⟩
      simp [Tokens.read, bare]
    rw [PosixShell.run, hstep]
    dsimp only
    rw [ih hrest, List.append_assoc, List.singleton_append]

/-- And a blank behind it. -/
theorem run_word {rest : List UInt8} (h : Spelled (front ++ rest))
    (htilde : (front ++ rest).head? ≠ some 0x7E) :
    PosixShell.run (.plain, ⟨some (bare front), none, false, words, []⟩) (rest ++ [0x20]) =
      .ok (.plain, ⟨none, none, false, words ++ [front ++ rest], []⟩) := by
  have hrest : ∀ c ∈ rest, isLiteral c = true := fun c hc =>
    h.literal c (List.mem_append_right _ hc)
  have hhead : ((bare (front ++ rest)).head?.any fun b => b.Is 0x7E) = false := by
    rw [bare, List.head?_map]
    cases hc : (front ++ rest).head? with
    | none => rfl
    | some c =>
      rw [hc] at htilde
      exact decide_eq_false fun his => htilde (congrArg some his.1)
  have hstep : PosixShell.step
      (.plain, ⟨some (bare (front ++ rest)), none, false, words, []⟩) 0x20 =
        .ok (.plain, ⟨none, none, false, words ++ [front ++ rest], []⟩) := by
    refine (step_ok_iff rfl).mpr ⟨.blank, rfl, ?_⟩
    rw [Tokens.read, Tokens.endWord]
    dsimp only
    rw [hhead, h.noPattern, map_byte_bare]
    rfl
  rw [run_append (run_literal hrest front), PosixShell.run, hstep]
  rfl

end PosixShell
