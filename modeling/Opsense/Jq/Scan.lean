import Opsense.Jq.Parse

/-!
# A scan for calls that are open

A scanner reads a text once, a character at a time. It keeps what is being read and how many calls are open, and nothing of what was
read before. A field of a path runs to the next point or bracket and takes parentheses and commas with it.
-/

namespace Opsense

namespace Jq

variable {F : Type}

/-- Whether a path stands by itself or in an expression. -/
inductive Place where
  | top
  | expr
deriving DecidableEq

/-- What is being read: the beginning of a query, a name there, what follows it, an equals sign; the arguments of a call, an
expression, a name there; a path, a minus sign, a number, a quoted text, a bracket, a field. -/
inductive Mode where
  | start
  | name
  | gap
  | equals
  | args
  | expr
  | called
  | path (p : Place)
  | minus (p : Place)
  | number (p : Place)
  | text (p : Place) (quote : Char)
  | bracket (p : Place)
  | field (p : Place)
deriving DecidableEq

/-- What is being read, how many calls are open, and whether the first of them is in an assignment. -/
structure Scan where
  mode : Mode
  depth : Nat
  assigned : Bool
deriving DecidableEq

namespace Scan

def isBracket : Mode → Bool
  | .bracket _ => true
  | _ => false

/-- A call is open, and no bracket is. -/
def isOpen (s : Scan) : Bool := 0 < s.depth && !isBracket s.mode

def pathMode (p : Place) (c : Char) : Mode := if c = '.' ∨ c = '^' then .path p else if c = '[' then .bracket p else .field p

def literalMode (p : Place) (c : Char) : Mode :=
  if c.isDigit then .number p else if c = '-' then .minus p else if quotes c then .text p c else pathMode p c

def tokenMode (l : Lexis F) (c : Char) : Mode := if startsName l c then .called else literalMode .expr c

/-- After a call, with as many calls open around it. -/
def returned (n : Nat) (a : Bool) : Scan := ⟨if n = 0 ∧ a = false then .path .top else .path .expr, n, a⟩

def argsStep (l : Lexis F) (n : Nat) (a : Bool) (c : Char) : Scan :=
  if isWhitespace c || c = ',' then ⟨.args, n, a⟩ else if c = ')' then returned (n - 1) a else ⟨tokenMode l c, n, a⟩

def startStep (l : Lexis F) (n : Nat) (a : Bool) (c : Char) : Scan :=
  ⟨if isWhitespace c || c = ',' then .start else if c = '.' then .path .top else if startsName l c then .name else literalMode .top c, n, a⟩

/-- The end of an expression, which is an argument or is assigned. -/
def ended (n : Nat) (a : Bool) : Scan := ⟨if n = 0 then .start else .args, n, a⟩

def endStep (l : Lexis F) (n : Nat) (a : Bool) (c : Char) : Scan := if n = 0 then startStep l n a c else argsStep l n a c

def exprStep (l : Lexis F) (in_path : Bool) (n : Nat) (a : Bool) (c : Char) : Scan :=
  if c = ',' ∨ c = ')' then endStep l n a c
  else if isWhitespace c then ⟨if in_path then .path .expr else .expr, n, a⟩
  else ⟨if in_path then pathMode .expr c else tokenMode l c, n, a⟩

def gapStep (n : Nat) (a : Bool) (c : Char) : Scan :=
  if isWhitespace c then ⟨.gap, n, a⟩
  else if c = '=' then ⟨.equals, n, false⟩
  else if c = '(' then ⟨.args, n + 1, false⟩
  else ⟨pathMode .top c, n, false⟩

def pathStep (l : Lexis F) (p : Place) (n : Nat) (a : Bool) (c : Char) : Scan :=
  match p with
  | .top => ⟨pathMode .top c, n, a⟩
  | .expr => exprStep l true n a c

def fieldStep (l : Lexis F) (p : Place) (n : Nat) (a : Bool) (c : Char) : Scan :=
  if c = '.' ∨ c = '[' then pathStep l p n a c else ⟨.field p, n, a⟩

/-- The scanner reads a character. -/
def step (l : Lexis F) (s : Scan) (c : Char) : Scan :=
  match s with
  | ⟨.start, n, a⟩ => startStep l n a c
  | ⟨.name, n, a⟩ => if word l c then ⟨.name, n, a⟩ else gapStep n a c
  | ⟨.gap, n, a⟩ => gapStep n a c
  | ⟨.equals, n, _⟩ => if c = '=' then ⟨.field .top, n, false⟩ else exprStep l false n true c
  | ⟨.args, n, a⟩ => argsStep l n a c
  | ⟨.expr, n, a⟩ => exprStep l false n a c
  | ⟨.called, n, a⟩ => if word l c then ⟨.called, n, a⟩ else if c = '(' then ⟨.args, n + 1, a⟩ else exprStep l true n a c
  | ⟨.path p, n, a⟩ => pathStep l p n a c
  | ⟨.minus p, n, a⟩ => if c.isDigit then ⟨.number p, n, a⟩ else fieldStep l p n a c
  | ⟨.number p, n, a⟩ => if numeral c then ⟨.number p, n, a⟩ else pathStep l p n a c
  | ⟨.text p quote, n, a⟩ => if c = quote then ⟨.path p, n, a⟩ else ⟨.text p quote, n, a⟩
  | ⟨.bracket p, n, a⟩ => if c = ']' then ⟨.path p, n, a⟩ else ⟨.bracket p, n, a⟩
  | ⟨.field p, n, a⟩ => fieldStep l p n a c

/-- Whether a call is open when a text ends. -/
def leavesOpen (l : Lexis F) : Scan → List Char → Bool
  | s, [] => s.isOpen
  | s, c :: chars => leavesOpen l (step l s c) chars

/-- At the beginning of a query. -/
def start : Scan := ⟨.start, 0, false⟩

variable {l : Lexis F} {s t : Scan} {p : Place} {n : Nat} {a : Bool} {c : Char} {chars : List Char}

theorem leavesOpen_cons : leavesOpen l s (c :: chars) = leavesOpen l (step l s c) chars := rfl

/-! ## The lexical units -/

/-- Characters that leave the scanner where it is do not matter. -/
theorem leavesOpen_dropWhile {stays : Char → Bool} (h : ∀ c, stays c = true → step l s c = s) :
    leavesOpen l s chars = leavesOpen l s (chars.dropWhile stays) := by
  induction chars with
  | nil => rfl
  | cons c chars ih =>
    rw [List.dropWhile_cons]
    split_ifs with hc
    · rw [leavesOpen_cons, h c hc, ih]
    · rfl

theorem not_of_dropWhile {stays : Char → Bool} {rest : List Char} (h : chars.dropWhile stays = c :: rest) : stays c = false := by
  have hhead := List.head_dropWhile_not stays (l := chars) (by simp [h])
  simpa [h] using hhead

/-- A unit that ends before the first character of another kind is left for what that character is read in. -/
theorem leavesOpen_leave {stays : Char → Bool} (h : ∀ c, stays c = true → step l s c = s)
    (hleave : ∀ c, stays c = false → step l s c = step l t c) (hend : s.isOpen = t.isOpen) :
    leavesOpen l s chars = leavesOpen l t (chars.dropWhile stays) := by
  rw [leavesOpen_dropWhile h]
  cases hrest : chars.dropWhile stays with
  | nil => exact hend
  | cons c rest => rw [leavesOpen_cons, leavesOpen_cons, hleave c (not_of_dropWhile hrest)]

/-- A number runs to the first character of another kind. -/
theorem leavesOpen_number :
    leavesOpen l ⟨.number p, n, a⟩ chars = leavesOpen l ⟨.path p, n, a⟩ (chars.dropWhile numeral) :=
  leavesOpen_leave (fun _ hc => if_pos hc) (fun c hc => by simp [step, hc]) rfl

/-- A field runs to the first point or bracket. -/
theorem leavesOpen_field : leavesOpen l ⟨.field p, n, a⟩ chars =
    leavesOpen l ⟨.path p, n, a⟩ (chars.dropWhile fun c => decide (c ≠ '.' ∧ c ≠ '[')) := by
  refine leavesOpen_leave (fun c hc => ?_) (fun c hc => ?_) rfl
  · have hc : c ≠ '.' ∧ c ≠ '[' := of_decide_eq_true hc
    exact if_neg (by tauto)
  · have hc : ¬(c ≠ '.' ∧ c ≠ '[') := of_decide_eq_false hc
    exact if_pos (by tauto)

/-- A minus sign that no number follows is the beginning of a field. -/
theorem leavesOpen_minus : leavesOpen l ⟨.minus p, n, a⟩ chars =
    leavesOpen l (if chars.head?.any Char.isDigit then ⟨.number p, n, a⟩ else ⟨.field p, n, a⟩) chars := by
  cases chars with
  | nil => rfl
  | cons c chars =>
    rw [List.head?_cons, Option.any_some]
    by_cases hc : c.isDigit
    · rw [if_pos hc, leavesOpen_cons, leavesOpen_cons]
      simp [step, hc, numeral]
    · rw [if_neg hc, leavesOpen_cons, leavesOpen_cons]
      simp [step, hc]

/-- A quoted text runs to the quote. -/
theorem leavesOpen_text {quote : Char} : leavesOpen l ⟨.text p quote, n, a⟩ chars =
    leavesOpen l ⟨.path p, n, a⟩ ((chars.dropWhile fun next => decide (next ≠ quote)).drop 1) := by
  have hstay : ∀ c, decide (c ≠ quote) = true → step l ⟨.text p quote, n, a⟩ c = ⟨.text p quote, n, a⟩ :=
    fun c hc => if_neg (of_decide_eq_true hc)
  rw [leavesOpen_dropWhile hstay]
  cases hrest : chars.dropWhile fun next => decide (next ≠ quote) with
  | nil => rfl
  | cons c rest =>
    have hc : c = quote := by simpa using not_of_dropWhile hrest
    rw [leavesOpen_cons, step, if_pos hc]
    rfl

/-- A bracket runs to its end, and when it has none no call counts as open. -/
theorem leavesOpen_bracket : leavesOpen l ⟨.bracket p, n, a⟩ chars =
    match chars.dropWhile fun c => decide (c ≠ ']') with
    | [] => false
    | _ :: rest => leavesOpen l ⟨.path p, n, a⟩ rest := by
  have hstay : ∀ c, decide (c ≠ ']') = true → step l ⟨.bracket p, n, a⟩ c = ⟨.bracket p, n, a⟩ :=
    fun c hc => if_neg (of_decide_eq_true hc)
  rw [leavesOpen_dropWhile hstay]
  cases hrest : chars.dropWhile fun c => decide (c ≠ ']') with
  | nil => simp [leavesOpen, isOpen, isBracket]
  | cons c rest =>
    have hc : c = ']' := by simpa using not_of_dropWhile hrest
    rw [leavesOpen_cons, step, if_pos hc]

/-- A name in an expression runs to the first character that is not of it, and a parenthesis there opens a call. -/
theorem leavesOpen_called : leavesOpen l ⟨.called, n, a⟩ chars =
    match chars.dropWhile (word l) with
    | '(' :: rest => leavesOpen l ⟨.args, n + 1, a⟩ rest
    | rest => leavesOpen l ⟨.path .expr, n, a⟩ rest := by
  have hstay : ∀ c, word l c = true → step l ⟨.called, n, a⟩ c = ⟨.called, n, a⟩ := fun c hc => if_pos hc
  rw [leavesOpen_dropWhile hstay]
  cases hrest : chars.dropWhile (word l) with
  | nil => rfl
  | cons c rest =>
    have hc := not_of_dropWhile hrest
    by_cases hopen : c = '('
    · subst hopen
      rw [leavesOpen_cons]
      simp [step, hc]
    · have hstep : step l ⟨.called, n, a⟩ c = exprStep l true n a c := by simp [step, hc, hopen]
      split
      · rename_i heq
        exact absurd (List.cons.inj heq).1 hopen
      · rw [leavesOpen_cons, hstep]
        rfl

theorem leavesOpen_gap : leavesOpen l ⟨.gap, n, a⟩ chars =
    match chars.dropWhile isWhitespace with
    | '=' :: rest =>
      if rest.head? = some '=' then leavesOpen l ⟨.path .top, n, false⟩ ('=' :: rest) else leavesOpen l ⟨.expr, n, true⟩ rest
    | '(' :: rest => leavesOpen l ⟨.args, n + 1, false⟩ rest
    | rest => leavesOpen l ⟨.path .top, n, false⟩ rest := by
  have hstay : ∀ c, isWhitespace c = true → step l ⟨.gap, n, a⟩ c = ⟨.gap, n, a⟩ := fun c hc => if_pos hc
  rw [leavesOpen_dropWhile hstay]
  cases hrest : chars.dropWhile isWhitespace with
  | nil => rfl
  | cons c rest =>
    have hc := not_of_dropWhile hrest
    rw [leavesOpen_cons]
    by_cases hequals : c = '='
    · subst hequals
      have hstep : step l ⟨.gap, n, a⟩ '=' = ⟨.equals, n, false⟩ := by simp [step, gapStep, hc]
      rw [hstep]
      cases rest with
      | nil => rfl
      | cons d rest =>
        by_cases hd : d = '='
        · subst hd
          rfl
        · simp [leavesOpen_cons, step, hd]
    · by_cases hopen : c = '('
      · subst hopen
        simp [step, gapStep, hc]
      · have hstep : step l ⟨.gap, n, a⟩ c = ⟨pathMode .top c, n, false⟩ := by simp [step, gapStep, hc, hequals, hopen]
        split
        · rename_i heq
          exact absurd (List.cons.inj heq).1 hequals
        · rename_i heq
          exact absurd (List.cons.inj heq).1 hopen
        · rw [leavesOpen_cons, hstep]
          rfl

theorem leavesOpen_name : leavesOpen l ⟨.name, n, a⟩ chars = leavesOpen l ⟨.gap, n, a⟩ (chars.dropWhile (word l)) := 
  leavesOpen_leave (fun _ hc => if_pos hc) (fun c hc => by simp [step, hc]) rfl

/-! ## Literals and tokens of a path -/

theorem leavesOpen_ok {operators operators' : JsonQuery F} {rest : List Char}
    (h : parsePathToken c chars operators = .ok (operators', rest)) :
    leavesOpen l ⟨pathMode p c, n, a⟩ chars = leavesOpen l ⟨.path p, n, a⟩ rest ∧ rest.length ≤ chars.length := by
  unfold parsePathToken at h
  split at h
  · obtain ⟨-, rfl⟩ := Prod.mk.inj (Except.ok.inj h)
    exact ⟨rfl, le_refl _⟩
  · obtain ⟨-, rfl⟩ := Prod.mk.inj (Except.ok.inj h)
    exact ⟨rfl, le_refl _⟩
  · have hmode : pathMode p '[' = .bracket p := by simp [pathMode]
    rw [hmode, leavesOpen_bracket]
    dsimp only at h
    cases hrest : chars.dropWhile fun c => decide (c ≠ ']') with
    | nil =>
      rw [hrest] at h
      nomatch h
    | cons d rest' =>
      have hle := (List.dropWhile_suffix (fun c => decide (c ≠ ']')) (l := chars)).length_le
      rw [hrest] at h hle
      dsimp only at h ⊢
      have heq : rest' = rest := by
        split_ifs at h
        · exact (Prod.mk.inj (Except.ok.inj h)).2
        · exact (Prod.mk.inj (Except.ok.inj h)).2
      subst heq
      exact ⟨rfl, (Nat.le_succ _).trans hle⟩
  · rename_i hpoint hparent hbracket
    have hmode : pathMode p c = .field p := by
      unfold pathMode
      rw [if_neg (by tauto), if_neg hbracket]
    obtain ⟨-, rfl⟩ := Prod.mk.inj (Except.ok.inj h)
    rw [hmode, leavesOpen_field]
    exact ⟨rfl, (List.dropWhile_suffix _).length_le⟩

theorem leavesOpen_error {operators : JsonQuery F} {error : String} (h : parsePathToken c chars operators = .error error) :
    leavesOpen l ⟨pathMode p c, n, a⟩ chars = false := by
  unfold parsePathToken at h
  split at h
  · nomatch h
  · nomatch h
  · have hmode : pathMode p '[' = .bracket p := by simp [pathMode]
    rw [hmode, leavesOpen_bracket]
    dsimp only at h
    cases hrest : chars.dropWhile fun c => decide (c ≠ ']') with
    | nil => rfl
    | cons d rest' =>
      rw [hrest] at h
      dsimp only at h
      split_ifs at h
  · nomatch h

theorem leavesOpen_numeral (h : startsNumber c chars = true) :
    leavesOpen l ⟨literalMode p c, n, a⟩ chars = leavesOpen l ⟨.path p, n, a⟩ (chars.dropWhile numeral) := by
  unfold literalMode
  by_cases hdigit : c.isDigit
  · rw [if_pos hdigit, leavesOpen_number]
  · obtain ⟨rfl, hnext⟩ : c = '-' ∧ chars.head?.any Char.isDigit = true := by simpa [startsNumber, hdigit] using h
    rw [if_neg hdigit, if_pos rfl, leavesOpen_minus, if_pos hnext, leavesOpen_number]

theorem leavesOpen_quoted (h : quotes c = true) : leavesOpen l ⟨literalMode p c, n, a⟩ chars =
    leavesOpen l ⟨.path p, n, a⟩ ((chars.dropWhile fun next => decide (next ≠ c)).drop 1) := by
  have hmode : literalMode p c = .text p c := by
    obtain rfl | rfl : c = '"' ∨ c = '\'' := by simpa [quotes] using h
    · rfl
    · rfl
  rw [hmode, leavesOpen_text]

theorem leavesOpen_token (hnumber : startsNumber c chars = false) (hquote : quotes c = false) :
    leavesOpen l ⟨literalMode p c, n, a⟩ chars = leavesOpen l ⟨pathMode p c, n, a⟩ chars := by
  unfold literalMode
  have hdigit : c.isDigit = false := by
    unfold startsNumber at hnumber
    exact (Bool.or_eq_false_iff.mp hnumber).1
  rw [if_neg (by simp [hdigit]), if_neg (c := quotes c = true) (by simp [hquote])]
  split_ifs with hminus
  · subst hminus
    have hnext : chars.head?.any Char.isDigit = false := by simpa [startsNumber] using hnumber
    rw [leavesOpen_minus, if_neg (by simp [hnext])]
    rfl
  · rfl

end Scan

end Jq

end Opsense
