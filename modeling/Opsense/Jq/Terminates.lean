import Opsense.Jq.Scan
import Opsense.Lib.Fuel

/-!
# Where the parser comes to an end

At the end of a text the arguments of a call are read again and again, each of them empty. So the parser hangs on a text that leaves
a call open, and on no other one: every other branch takes a character (`ExprOk`, `CallOk`). The induction is on the length of what
is left, with the scanner at the place of the parser.
-/

namespace Opsense

namespace Jq

open Scan

variable {F : Type} {l : Lexis F} {n : Nat} {a in_path : Bool} {chars : List Char} {hangs : Bool}

/-- What is read at the head of the loop of an expression. -/
def exprMode (in_path : Bool) : Mode := if in_path then .path .expr else .expr

/-- An expression has been read, and the rest decides whether the parser hangs. -/
structure ExprOk (l : Lexis F) (n : Nat) (a : Bool) (chars : List Char) (hangs : Bool) (r : JsonQuery F × List Char) : Prop where
  le : r.2.length ≤ chars.length
  lt : ∀ c cs, chars = c :: cs → c ≠ ')' → r.2.length < chars.length
  hangs : leavesOpen l (ended n a) r.2 = hangs

/-- A call has been read, and the rest decides whether the parser hangs. -/
structure CallOk (l : Lexis F) (n : Nat) (a : Bool) (chars : List Char) (hangs : Bool) (r : List (JsonQuery F) × List Char) : Prop where
  lt : r.2.length < chars.length
  hangs : leavesOpen l (returned n a) r.2 = hangs

/-- An expression is in a call or an assignment. -/
def Inside (n : Nat) (a : Bool) : Prop := ¬(n = 0 ∧ a = false)

/-- `parse_expr` hangs on a text exactly when it leaves a call open. -/
def ExprSettles (l : Lexis F) (chars : List Char) : Prop := ∀ n a in_path operators, Inside n a →
  Fueled.Settles (fun fuel => parseExpr l fuel chars in_path operators)
    (ExprOk l n a chars (leavesOpen l ⟨exprMode in_path, n, a⟩ chars)) (leavesOpen l ⟨exprMode in_path, n, a⟩ chars)

/-- `parse_call_args` hangs on a text exactly when it leaves a call open. -/
def CallSettles (l : Lexis F) (chars : List Char) : Prop := ∀ n a args,
  Fueled.Settles (fun fuel => parseCallArgs l fuel chars args)
    (CallOk l n a chars (leavesOpen l ⟨.args, n + 1, a⟩ chars)) (leavesOpen l ⟨.args, n + 1, a⟩ chars)

theorem step_exprMode (c : Char) : Scan.step l ⟨exprMode in_path, n, a⟩ c = exprStep l in_path n a c := by
  cases in_path <;> rfl

theorem step_ended (c : Char) : Scan.step l (ended n a) c = endStep l n a c := by
  unfold ended endStep
  split_ifs <;> rfl

theorem endStep_comma : endStep l n a ',' = ended n a := by
  unfold ended endStep
  split_ifs
  · simp [startStep]
  · simp [argsStep]

/-- What is left of a text in a path of an expression decides how the expression settles. -/
theorem ExprSettles.resume {c : Char} {cs rest : List Char} (h : ExprSettles l rest) (hin : Inside n a) (hle : rest.length ≤ cs.length)
    (operators : JsonQuery F) (hhangs : leavesOpen l ⟨.path .expr, n, a⟩ rest = hangs) :
    Fueled.Settles (fun fuel => parseExpr l fuel rest true operators) (ExprOk l n a (c :: cs) hangs) hangs := by
  have hrest := h n a true operators hin
  have hmode : leavesOpen l ⟨exprMode true, n, a⟩ rest = hangs := hhangs
  rw [hmode] at hrest
  refine hrest.mono fun r hr => ?_
  have hlt : r.2.length < (c :: cs).length := Nat.lt_succ_of_le (hr.le.trans hle)
  exact ⟨hlt.le, fun _ _ _ _ => hlt, hr.hangs⟩

/-- A token of a path, and the rest of the expression. -/
theorem exprSettles_path {c : Char} {cs : List Char} (ih : ∀ rest : List Char, rest.length ≤ cs.length → ExprSettles l rest)
    (hin : Inside n a) (operators : JsonQuery F) (hhangs : leavesOpen l ⟨pathMode .expr c, n, a⟩ cs = hangs) :
    Fueled.Settles (fun fuel =>
        match parsePathToken c cs operators with
        | .error e => some (.error e)
        | .ok (operators, rest) => parseExpr l fuel rest true operators)
      (ExprOk l n a (c :: cs) hangs) hangs := by
  cases htoken : parsePathToken c cs operators with
  | error e => exact .error ⟨⟨0, fun _ _ => rfl⟩, fun _ => Or.inr rfl⟩ (hhangs ▸ leavesOpen_error htoken)
  | ok r =>
    obtain ⟨operators', rest⟩ := r
    obtain ⟨hopen, hle⟩ := leavesOpen_ok (l := l) (p := .expr) (n := n) (a := a) htoken
    exact (ih rest hle).resume hin hle operators' (hopen.symm.trans hhangs)

theorem length_dropWhile_le (stays : Char → Bool) (chars : List Char) : (chars.dropWhile stays).length ≤ chars.length :=
  (List.dropWhile_suffix _).length_le

/-- A name, which is that of a call or of a field, and the rest of the expression. -/
theorem exprSettles_name {c : Char} {cs : List Char} (ih : ∀ rest : List Char, rest.length ≤ cs.length → ExprSettles l rest)
    (ihcall : ∀ rest : List Char, rest.length ≤ cs.length → CallSettles l rest) (hin : Inside n a) (operators : JsonQuery F)
    (ident : String) (hhangs : leavesOpen l ⟨.called, n, a⟩ cs = hangs) :
    Fueled.Settles (fun fuel =>
        match cs.dropWhile (word l) with
        | '(' :: rest =>
          match parseCallArgs l fuel rest [] with
          | none => none
          | some (.error e) => some (.error e)
          | some (.ok (args, rest)) => parseExpr l fuel rest true (operators ++ [.call ident args])
        | rest => parseExpr l fuel rest true (operators ++ [.matchKey ident]))
      (ExprOk l n a (c :: cs) hangs) hangs := by
  have hle := length_dropWhile_le (word l) cs
  rw [leavesOpen_called] at hhangs
  split
  · rename_i rest hrest
    rw [hrest] at hle hhangs
    have hshort : rest.length ≤ cs.length := (Nat.le_succ _).trans hle
    have hcall := ihcall rest hshort n a []
    rw [show leavesOpen l ⟨.args, n + 1, a⟩ rest = hangs from hhangs] at hcall
    refine (hcall.andThen (k := fun r fuel => parseExpr l fuel r.2 true (operators ++ [.call ident r.1]))
      fun r hr => ?_).congr fun fuel => ?_
    · have hreturn := hr.hangs
      unfold returned at hreturn
      rw [if_neg hin] at hreturn
      exact (ih r.2 (hr.lt.le.trans hshort)).resume hin (hr.lt.le.trans hshort) _ hreturn
    · unfold Fueled.andThen
      dsimp only
      rcases parseCallArgs l fuel rest [] with _ | _ | _ <;> rfl
  · rename_i hnot
    split at hhangs
    · rename_i rest hrest
      exact absurd hrest (hnot rest)
    · exact (ih _ hle).resume hin hle _ hhangs

/-- A token at the beginning of an expression, and the rest of it. -/
theorem exprSettles_token {c : Char} {cs : List Char} (ih : ∀ rest : List Char, rest.length ≤ cs.length → ExprSettles l rest)
    (ihcall : ∀ rest : List Char, rest.length ≤ cs.length → CallSettles l rest) (hin : Inside n a) (operators : JsonQuery F)
    (hcomma : c ≠ ',') (hclose : c ≠ ')') (hspace : isWhitespace c = false) (hhangs : leavesOpen l ⟨tokenMode l c, n, a⟩ cs = hangs) :
    Fueled.Settles (fun fuel => parseExpr l fuel (c :: cs) false operators) (ExprOk l n a (c :: cs) hangs) hangs := by
  unfold tokenMode at hhangs
  by_cases hname : startsName l c = true
  · rw [if_pos hname] at hhangs
    refine (exprSettles_name ih ihcall hin operators (String.ofList (c :: cs.takeWhile (word l))) hhangs).step rfl fun fuel => ?_
    simp only [parseExpr, hcomma, hclose, hspace, hname]
    rfl
  rw [if_neg hname] at hhangs
  by_cases hnumber : startsNumber c cs = true
  · rw [leavesOpen_numeral hnumber] at hhangs
    have hle := length_dropWhile_le numeral cs
    let literal := parseNumericLiteral l (c :: cs.takeWhile numeral)
    refine ((ih _ hle).resume hin hle (operators ++ [literal]) hhangs).step rfl fun fuel => ?_
    simp [parseExpr, hcomma, hclose, hspace, hname, hnumber, literal]
  by_cases hquote : quotes c = true
  · rw [leavesOpen_quoted hquote] at hhangs
    have hle : ((cs.dropWhile fun next => decide (next ≠ c)).drop 1).length ≤ cs.length := by
      have := length_dropWhile_le (fun next => decide (next ≠ c)) cs
      rw [List.length_drop]
      omega
    let lit := String.ofList (cs.takeWhile fun next => decide (next ≠ c))
    refine ((ih _ hle).resume hin hle (operators ++ [.literalStr lit]) hhangs).step rfl fun fuel => ?_
    simp [parseExpr, hcomma, hclose, hspace, hname, hnumber, hquote, lit]
  · rw [leavesOpen_token (Bool.not_eq_true _ ▸ hnumber) (Bool.not_eq_true _ ▸ hquote)] at hhangs
    refine (exprSettles_path ih hin operators hhangs).step rfl fun fuel => ?_
    simp only [parseExpr, hcomma, hclose, hspace, hname, hnumber, hquote]
    rfl

/-- An expression settles when what is shorter does. -/
theorem exprSettles (ih : ∀ rest : List Char, rest.length < chars.length → ExprSettles l rest)
    (ihcall : ∀ rest : List Char, rest.length < chars.length → CallSettles l rest) : ExprSettles l chars := by
  intro n a in_path operators hin
  cases chars with
  | nil =>
    refine .ok (b := (operators, [])) ⟨le_refl _, by simp, ?_⟩ (Fueled.gives_now rfl fun fuel => rfl)
    cases n <;> cases in_path <;> rfl
  | cons c cs =>
    have ih : ∀ rest : List Char, rest.length ≤ cs.length → ExprSettles l rest := fun rest hle => ih rest (Nat.lt_succ_of_le hle)
    have ihcall : ∀ rest : List Char, rest.length ≤ cs.length → CallSettles l rest :=
      fun rest hle => ihcall rest (Nat.lt_succ_of_le hle)
    have hopen : leavesOpen l ⟨exprMode in_path, n, a⟩ (c :: cs) = leavesOpen l (exprStep l in_path n a c) cs := by
      rw [leavesOpen_cons, step_exprMode]
    unfold exprStep at hopen
    by_cases hcomma : c = ','
    · subst hcomma
      rw [if_pos (Or.inl rfl), endStep_comma] at hopen
      refine .ok (b := (operators, cs)) ⟨Nat.le_succ _, fun _ _ _ _ => Nat.lt_succ_self _, hopen.symm⟩ (Fueled.gives_now rfl fun fuel => ?_)
      simp [parseExpr]
    by_cases hclose : c = ')'
    · subst hclose
      rw [if_pos (Or.inr rfl), ← step_ended] at hopen
      refine .ok (b := (operators, ')' :: cs)) ⟨le_refl _, fun c' cs' heq hne => ?_, hopen.symm⟩ (Fueled.gives_now rfl fun fuel => ?_)
      · exact absurd (List.cons.inj heq).1.symm hne
      · simp [parseExpr]
    rw [if_neg (by tauto)] at hopen
    by_cases hspace : isWhitespace c = true
    · rw [if_pos hspace] at hopen
      have hrest := ih cs (le_refl _) n a in_path operators hin
      rw [exprMode, ← hopen] at hrest
      refine (hrest.mono fun r hr => ?_).step rfl fun fuel => ?_
      · have hlt : r.2.length < (c :: cs).length := Nat.lt_succ_of_le hr.le
        exact ⟨hlt.le, fun _ _ _ _ => hlt, hr.hangs⟩
      · simp [parseExpr, hcomma, hclose, hspace]
    rw [if_neg hspace] at hopen
    cases in_path with
    | true =>
      refine (exprSettles_path ih hin operators hopen.symm).step rfl fun fuel => ?_
      simp only [parseExpr, hcomma, hclose, hspace]
      rfl
    | false => exact exprSettles_token ih ihcall hin operators hcomma hclose (Bool.not_eq_true _ ▸ hspace) hopen.symm

/-- The arguments of a call never end in an empty text. -/
theorem parseCallArgs_nil (fuel : Nat) (args : List (JsonQuery F)) : parseCallArgs l fuel [] args = none := by
  induction fuel generalizing args with
  | zero => rfl
  | succ fuel ih =>
    cases fuel with
    | zero => rfl
    | succ fuel =>
      rw [parseCallArgs]
      simp only [List.dropWhile_nil, parseExpr]
      exact ih _

/-- A call settles when an expression at its beginning does, and calls that are shorter. -/
theorem callSettles (hexpr : ∀ rest : List Char, rest.length ≤ chars.length → ExprSettles l rest)
    (ih : ∀ rest : List Char, rest.length < chars.length → CallSettles l rest) : CallSettles l chars := by
  intro n a args
  have hle := length_dropWhile_le (fun c => isWhitespace c || c = ',') chars
  have hstay : ∀ c, (isWhitespace c || decide (c = ',')) = true → Scan.step l ⟨.args, n + 1, a⟩ c = ⟨.args, n + 1, a⟩ :=
    fun c hc => if_pos hc
  have hopen : leavesOpen l ⟨.args, n + 1, a⟩ chars =
      leavesOpen l ⟨.args, n + 1, a⟩ (chars.dropWhile fun c => isWhitespace c || c = ',') := leavesOpen_dropWhile hstay
  cases hrest : chars.dropWhile fun c => isWhitespace c || c = ',' with
  | nil =>
    rw [hrest] at hopen
    refine .hangs (fun fuel => ?_) hopen
    cases fuel with
    | zero => rfl
    | succ fuel =>
      rw [parseCallArgs, hrest]
      cases fuel with
      | zero => rfl
      | succ fuel =>
        simp only [parseExpr]
        exact parseCallArgs_nil _ _
  | cons c cs =>
    have hc : (isWhitespace c || decide (c = ',')) = false := not_of_dropWhile hrest
    obtain ⟨hspace, hcomma⟩ := Bool.or_eq_false_iff.mp hc
    have hcomma : c ≠ ',' := of_decide_eq_false hcomma
    rw [hrest] at hopen hle
    rw [leavesOpen_cons] at hopen
    by_cases hclose : c = ')'
    · subst hclose
      have hstep : Scan.step l ⟨.args, n + 1, a⟩ ')' = returned n a := by
        have : Scan.step l ⟨.args, n + 1, a⟩ ')' = argsStep l (n + 1) a ')' := rfl
        simp [this, argsStep, hspace]
      rw [hstep] at hopen
      refine .ok (b := (args, cs)) ⟨hle, hopen.symm⟩ (Fueled.gives_now rfl fun fuel => ?_)
      rw [parseCallArgs, hrest]
      rfl
    · have hstep : Scan.step l ⟨.args, n + 1, a⟩ c = ⟨tokenMode l c, n + 1, a⟩ := by
        have : Scan.step l ⟨.args, n + 1, a⟩ c = argsStep l (n + 1) a c := rfl
        simp [this, argsStep, hspace, hcomma, hclose]
      have hsame : leavesOpen l ⟨exprMode false, n + 1, a⟩ (c :: cs) = leavesOpen l ⟨.args, n + 1, a⟩ chars := by
        rw [hopen, hstep, leavesOpen_cons, step_exprMode]
        simp [exprStep, hcomma, hclose, hspace]
      have harg := hexpr (c :: cs) hle (n + 1) a false [] (by simp [Inside])
      rw [hsame] at harg
      refine ((harg.andThen (k := fun r fuel => parseCallArgs l fuel r.2 (args ++ [r.1])) fun r hr => ?_).congr
        (g := fun fuel => parseCallArgs l (fuel + 1) chars args) fun fuel => ?_).step rfl fun fuel => rfl
      · have hlt : r.2.length < chars.length := (hr.lt c cs rfl hclose).trans_le hle
        have hnext := ih r.2 hlt n a (args ++ [r.1])
        have hhangs : leavesOpen l ⟨.args, n + 1, a⟩ r.2 = leavesOpen l ⟨.args, n + 1, a⟩ chars := hr.hangs
        rw [hhangs] at hnext
        exact hnext.mono fun r' hr' => ⟨hr'.lt.trans hlt, hr'.hangs⟩
      · rw [parseCallArgs, hrest]
        unfold Fueled.andThen
        split
        · rename_i heq
          exact absurd (List.cons.inj heq).1 hclose
        · dsimp only
          rcases parseExpr l fuel (c :: cs) false [] with _ | _ | _ <;> rfl

/-- Expressions and calls settle. -/
theorem settles (l : Lexis F) (chars : List Char) : ExprSettles l chars ∧ CallSettles l chars := by
  induction h : chars.length using Nat.strong_induction_on generalizing chars with
  | _ length ih =>
    subst h
    have hexpr : ExprSettles l chars := exprSettles (fun rest hlt => (ih _ hlt rest rfl).1) fun rest hlt => (ih _ hlt rest rfl).2
    refine ⟨hexpr, callSettles (fun rest hle => ?_) fun rest hlt => (ih _ hlt rest rfl).2⟩
    rcases hle.lt_or_eq with hlt | heq
    · exact (ih _ hlt rest rfl).1
    · exact exprSettles (fun rest' hlt => (ih _ (heq ▸ hlt) rest' rfl).1) fun rest' hlt => (ih _ (heq ▸ hlt) rest' rfl).2

/-! ## The query -/

/-- What is read at the head of the loop of a query. -/
def topMode (in_assign_mode : Bool) : Mode := if in_assign_mode then .start else .path .top

/-- `parse` hangs on a text exactly when it leaves a call open. -/
def QuerySettles (l : Lexis F) (chars : List Char) : Prop := ∀ a in_assign_mode operators,
  Fueled.Settles (fun fuel => parseFrom l fuel chars in_assign_mode operators)
    (fun _ => leavesOpen l ⟨topMode in_assign_mode, 0, a⟩ chars = false) (leavesOpen l ⟨topMode in_assign_mode, 0, a⟩ chars)

/-- What follows a part of the text decides how the query settles. -/
theorem QuerySettles.resume {rest : List Char} (h : QuerySettles l rest) (in_assign_mode : Bool) (operators : JsonQuery F)
    (hhangs : leavesOpen l ⟨topMode in_assign_mode, 0, a⟩ rest = hangs) :
    Fueled.Settles (fun fuel => parseFrom l fuel rest in_assign_mode operators) (fun _ => hangs = false) hangs := by
  have hrest := h a in_assign_mode operators
  rwa [hhangs] at hrest

/-- A token of a path, and the rest of the query. -/
theorem querySettles_path {c : Char} {cs : List Char} (ih : ∀ rest : List Char, rest.length ≤ cs.length → QuerySettles l rest)
    (operators : JsonQuery F) (hhangs : leavesOpen l ⟨pathMode .top c, 0, a⟩ cs = hangs) :
    Fueled.Settles (fun fuel =>
        match parsePathToken c cs operators with
        | .error e => some (.error e)
        | .ok (operators, rest) => parseFrom l fuel rest false operators)
      (fun _ => hangs = false) hangs := by
  cases htoken : parsePathToken c cs operators with
  | error e => exact .error ⟨⟨0, fun _ _ => rfl⟩, fun _ => Or.inr rfl⟩ (hhangs ▸ leavesOpen_error htoken)
  | ok r =>
    obtain ⟨operators', rest⟩ := r
    obtain ⟨hopen, hle⟩ := leavesOpen_ok (l := l) (p := .top) (n := 0) (a := a) htoken
    exact (ih rest hle).resume (a := a) false operators' (hopen.symm.trans hhangs)

/-- A name, which is assigned to, or that of a call or of a field, and the rest of the query. -/
theorem querySettles_name {cs : List Char} (ih : ∀ rest : List Char, rest.length ≤ cs.length → QuerySettles l rest)
    (operators : JsonQuery F) (ident : String) (hhangs : leavesOpen l ⟨.name, 0, a⟩ cs = hangs) :
    Fueled.Settles (fun fuel =>
        match (cs.dropWhile (word l)).dropWhile isWhitespace with
        | '=' :: rest =>
          if rest.head? = some '=' then parseFrom l fuel ('=' :: rest) false (operators ++ [.matchKey ident])
          else
            match parseExpr l fuel rest false [] with
            | none => none
            | some (.error e) => some (.error e)
            | some (.ok (expr, rest)) => parseFrom l fuel rest true (operators ++ [.assign ident expr])
        | '(' :: rest =>
          match parseCallArgs l fuel rest [] with
          | none => none
          | some (.error e) => some (.error e)
          | some (.ok (args, rest)) => parseFrom l fuel rest false (operators ++ [.call ident args])
        | rest => parseFrom l fuel rest false (operators ++ [.matchKey ident]))
      (fun _ => hangs = false) hangs := by
  have hle := (length_dropWhile_le isWhitespace (cs.dropWhile (word l))).trans (length_dropWhile_le (word l) cs)
  rw [leavesOpen_name, leavesOpen_gap] at hhangs
  split
  · rename_i rest hrest
    rw [hrest] at hle hhangs
    have hshort : rest.length ≤ cs.length := (Nat.le_succ _).trans hle
    split_ifs with hequals
    · have hhangs : leavesOpen l ⟨.path .top, 0, false⟩ ('=' :: rest) = hangs := (if_pos hequals).symm.trans hhangs
      exact (ih _ hle).resume (a := false) false _ hhangs
    · have hhangs : leavesOpen l ⟨.expr, 0, true⟩ rest = hangs := (if_neg hequals).symm.trans hhangs
      have hexpr := (settles l rest).1 0 true false [] (by simp [Inside])
      rw [show leavesOpen l ⟨exprMode false, 0, true⟩ rest = hangs from hhangs] at hexpr
      refine (hexpr.andThen (k := fun r fuel => parseFrom l fuel r.2 true (operators ++ [.assign ident r.1]))
        fun r hr => ?_).congr fun fuel => ?_
      · exact (ih r.2 (hr.le.trans hshort)).resume (a := true) true _ hr.hangs
      · unfold Fueled.andThen
        dsimp only
        rcases parseExpr l fuel rest false [] with _ | _ | _ <;> rfl
  · rename_i rest hrest
    rw [hrest] at hle hhangs
    have hshort : rest.length ≤ cs.length := (Nat.le_succ _).trans hle
    have hcall := (settles l rest).2 0 false []
    rw [show leavesOpen l ⟨.args, 0 + 1, false⟩ rest = hangs from hhangs] at hcall
    refine (hcall.andThen (k := fun r fuel => parseFrom l fuel r.2 false (operators ++ [.call ident r.1]))
      fun r hr => ?_).congr fun fuel => ?_
    · exact (ih r.2 (hr.lt.le.trans hshort)).resume (a := false) false _ hr.hangs
    · unfold Fueled.andThen
      dsimp only
      rcases parseCallArgs l fuel rest [] with _ | _ | _ <;> rfl
  · rename_i hnot hnot'
    split at hhangs
    · rename_i rest hrest
      exact absurd hrest (hnot rest)
    · rename_i rest hrest
      exact absurd hrest (hnot' rest)
    · exact (ih _ hle).resume (a := false) false _ hhangs

/-- A query settles when what is shorter does. -/
theorem querySettles_cons {c : Char} {cs : List Char} (ih : ∀ rest : List Char, rest.length ≤ cs.length → QuerySettles l rest) :
    QuerySettles l (c :: cs) := by
  intro a in_assign_mode operators
  rw [leavesOpen_cons]
  cases in_assign_mode with
  | false =>
    have hpath := querySettles_path ih operators (rfl : leavesOpen l ⟨pathMode .top c, 0, a⟩ cs = _)
    by_cases hpoint : c = '.'
    · subst hpoint
      exact hpath.step rfl fun fuel => rfl
    · refine hpath.step rfl fun fuel => ?_
      simp only [parseFrom, hpoint]
      rfl
  | true =>
    have hmode : Scan.step l ⟨topMode true, 0, a⟩ c = startStep l 0 a c := rfl
    rw [hmode]
    unfold startStep
    by_cases hspace : (isWhitespace c || decide (c = ',')) = true
    · rw [if_pos hspace]
      refine ((ih cs (le_refl _)).resume (a := a) true operators rfl).step rfl fun fuel => ?_
      simp only [parseFrom, hspace]
      rfl
    rw [if_neg hspace]
    by_cases hpoint : c = '.'
    · subst hpoint
      rw [if_pos rfl]
      refine (querySettles_path ih operators (rfl : leavesOpen l ⟨pathMode .top '.', 0, a⟩ cs = _)).step rfl fun fuel => ?_
      simp only [parseFrom, hspace]
      rfl
    rw [if_neg hpoint]
    by_cases hname : startsName l c = true
    · rw [if_pos hname]
      refine (querySettles_name ih operators (String.ofList (c :: cs.takeWhile (word l))) rfl).step rfl fun fuel => ?_
      simp only [parseFrom, hspace, hpoint, hname]
      rfl
    rw [if_neg hname]
    by_cases hnumber : startsNumber c cs = true
    · rw [leavesOpen_numeral hnumber]
      have hle := length_dropWhile_le numeral cs
      let literal := parseNumericLiteral l (c :: cs.takeWhile numeral)
      refine ((ih _ hle).resume (a := a) false (operators ++ [literal]) rfl).step rfl fun fuel => ?_
      simp only [parseFrom, hspace, hpoint, hname, hnumber]
      rfl
    by_cases hquote : quotes c = true
    · rw [leavesOpen_quoted hquote]
      have hle : ((cs.dropWhile fun next => decide (next ≠ c)).drop 1).length ≤ cs.length := by
        have := length_dropWhile_le (fun next => decide (next ≠ c)) cs
        rw [List.length_drop]
        omega
      let lit := String.ofList (cs.takeWhile fun next => decide (next ≠ c))
      refine ((ih _ hle).resume (a := a) false (operators ++ [.literalStr lit]) rfl).step rfl fun fuel => ?_
      simp only [parseFrom, hspace, hpoint, hname, hnumber, hquote]
      rfl
    · rw [leavesOpen_token (Bool.not_eq_true _ ▸ hnumber) (Bool.not_eq_true _ ▸ hquote)]
      refine (querySettles_path ih operators rfl).step rfl fun fuel => ?_
      simp only [parseFrom, hspace, hpoint, hname, hnumber, hquote]
      rfl

theorem querySettles (l : Lexis F) (chars : List Char) : QuerySettles l chars := by
  induction h : chars.length using Nat.strong_induction_on generalizing chars with
  | _ length ih =>
    subst h
    cases chars with
    | nil =>
      intro a in_assign_mode operators
      have hclosed : leavesOpen l ⟨topMode in_assign_mode, 0, a⟩ [] = false := rfl
      exact .ok (b := operators) hclosed (Fueled.gives_now rfl fun fuel => rfl)
    | cons c cs => exact querySettles_cons fun rest hle => ih _ (Nat.lt_succ_of_le hle) rest rfl

/-- The parser comes to an end exactly on the texts that leave no call open. -/
theorem parse_terminates_iff (l : Lexis F) (path : String) : (∃ fuel, parse l fuel path ≠ none) ↔ leavesOpen l Scan.start path.toList = false :=
  Fueled.Settles.halts_iff (querySettles l path.toList false true []) fun _ h => h

/-- No fuel is enough for a text that leaves a call open. -/
theorem parse_hangs {path : String} (h : leavesOpen l Scan.start path.toList = true) (fuel : Nat) : parse l fuel path = none := by
  by_contra hsome
  have hclosed := ((querySettles l path.toList false true []).halts_iff fun _ h => h).mp ⟨fuel, hsome⟩
  rw [show leavesOpen l ⟨topMode true, 0, false⟩ path.toList = true from h] at hclosed
  nomatch hclosed

/-- Letters and digits of ASCII, without floats. -/
def ascii : Lexis Unit := ⟨Char.isAlpha, Char.isAlphanum, fun _ => none, ()⟩

/-- A call that is not closed, one whose argument ends in a field, which takes the parenthesis, and one in an assignment. A bracket
that is not closed is an error, and a call that is closed is read. -/
theorem parse_hangs_on_open_calls :
    (∀ fuel, parse ascii fuel "f(" = none) ∧ (∀ fuel, parse ascii fuel "f(a.b)" = none) ∧
    (∀ fuel, parse ascii fuel "x = f(a, 'b" = none) ∧
    (∃ e, parse ascii 10 "f(a[" = some (.error e)) ∧ (∃ q, parse ascii 10 "x = f(a, g(b))" = some (.ok q)) := by
  refine ⟨parse_hangs (by decide +kernel), parse_hangs (by decide +kernel), parse_hangs (by decide +kernel), ⟨_, rfl⟩, ⟨_, rfl⟩⟩

end Jq

end Opsense
