import Opsense.Lib.Text

/-!
# Placeholders for MySQL

`rewrite_placeholders_mysql` of `opsense-ffi/src/db.rs`, which puts `?` for each `$k` of a statement that is not quoted, and the
parameters in the order of their use. What is quoted in a statement is up to its reader: to MySQL, a backslash in a string escapes the
character after it, and the rewriter does not know that. A statement binds what it did before where both read the same placeholders as
quoted, and it has no `?` of its own (`preservesBinding_iff`).
-/

namespace Opsense

namespace Placeholders

/-- The digits of a placeholder. -/
abbrev Digits := {digits : List Char // digits ≠ [] ∧ ∀ c ∈ digits, c.isDigit}

/-- A statement comes as characters and placeholders, quoted or not. -/
inductive Tok where
  | chr (c : Char)
  | spot (digits : Digits)
deriving DecidableEq

def Tok.text : Tok → List Char
  | chr c => [c]
  | spot digits => '$' :: digits

theorem digits_takeWhile {cs : List Char} (h : cs.takeWhile Char.isDigit ≠ []) :
    cs.takeWhile Char.isDigit ≠ [] ∧ ∀ c ∈ cs.takeWhile Char.isDigit, c.isDigit :=
  ⟨h, fun _ => List.mem_takeWhile_imp⟩

def toks : List Char → List Tok
  | [] => []
  | c :: cs =>
    if h : c = '$' ∧ cs.takeWhile Char.isDigit ≠ [] then
      .spot ⟨_, digits_takeWhile h.2⟩ :: (toks cs).drop (cs.takeWhile Char.isDigit).length
    else .chr c :: toks cs

def IsQuote (c : Char) : Prop := c = '\'' ∨ c = '"' ∨ c = '\x60'

instance : DecidablePred IsQuote := fun _ => inferInstanceAs (Decidable (_ ∨ _))

/-- Where a reader is: outside quotes, in them, after a backslash, or after a quotation mark that ends them unless it comes again. -/
inductive Quote where
  | out
  | inside (q : {c // IsQuote c})
  | escaped (q : {c // IsQuote c})
  | closed (q : {c // IsQuote c})
deriving DecidableEq

def Quote.opens : Tok → Quote
  | .chr c => if h : IsQuote c then .inside ⟨c, h⟩ else .out
  | .spot _ => .out

/-- What comes after a token, with backslashes that escape or without. -/
def Quote.next (escapes : Bool) : Quote → Tok → Quote
  | .out, t => opens t
  | .inside q, t => if t = .chr q then .closed q else if escapes ∧ t = .chr '\\' ∧ q.1 ≠ '\x60' then .escaped q else .inside q
  | .escaped q, _ => .inside q
  | .closed q, t => if t = .chr q then .inside q else opens t

/-- The tokens with whether they are quoted. -/
def read (escapes : Bool) : Quote → List Tok → List (Bool × Tok)
  | _, [] => []
  | s, t :: ts => (decide (s.next escapes t ≠ .out), t) :: read escapes (s.next escapes t) ts

/-- A statement as MySQL reads it, and as it is read without backslashes. -/
def mysql (sql : String) : List (Bool × Tok) := read true .out (toks sql.toList)

def doubling (sql : String) : List (Bool × Tok) := read false .out (toks sql.toList)

/-- What is executed at a token: the text itself, or a parameter. -/
inductive Bound (β : Type) where
  | text (quoted : Bool) (t : Tok)
  | value (v : Option β)

section Values

variable {β : Type}

/-- A vector of parameters has fewer than `2 ^ 63`. -/
abbrev Params (β : Type) := {params : List β // params.length < 2 ^ 63}

def index (digits : Digits) : Nat := digits.1.foldl (fun n c => n * 10 + (c.toNat - '0'.toNat)) 0

/-- There is no parameter with the number. -/
def Bad (params : Params β) (digits : Digits) : Prop := index digits = 0 ∨ params.1.length < index digits

/-- Numbered parameters. -/
def numbered (params : Params β) : Bool × Tok → Bound β
  | (false, .spot digits) => .value params.1[index digits - 1]?
  | (quoted, t) => .text quoted t

/-- Parameters by position. -/
def positional : List (Bool × Tok) → List β → List (Bound β)
  | [], _ => []
  | (quoted, t) :: rest, ordered =>
    if quoted = false ∧ t = .chr '?' then .value ordered.head? :: positional rest ordered.tail
    else .text quoted t :: positional rest ordered

/-- The parameter of a placeholder. -/
def value (params : Params β) (digits : List Char) : Except String β :=
  match parseU64 digits with
  | none => .error ("placeholder $" ++ String.ofList digits ++ " không hợp lệ")
  | some idx =>
    -- `wrapping_sub`
    match params.1[if idx = 0 then 2 ^ 64 - 1 else idx - 1]? with
    | none => .error ("placeholder $" ++ toString idx ++ " nhưng chỉ có " ++ toString params.1.length ++ " param")
    | some value => .ok value

/-- The loop of `rewrite_placeholders_mysql`. -/
def rewrite (params : Params β) : Nat → Option Char → List Char → Except String (List Char × List β)
  | 0, _, _ => .ok ([], [])
  | _, _, [] => .ok ([], [])
  | fuel + 1, some q, c :: cs =>
    if c = q then
      if cs.head? = some q then (rewrite params fuel (some q) cs.tail).map fun r => (c :: q :: r.1, r.2)
      else (rewrite params fuel none cs).map fun r => (c :: r.1, r.2)
    else (rewrite params fuel (some q) cs).map fun r => (c :: r.1, r.2)
  | fuel + 1, none, c :: cs =>
    if IsQuote c then (rewrite params fuel (some c) cs).map fun r => (c :: r.1, r.2)
    else if c = '$' then
      if cs.takeWhile Char.isDigit = [] then (rewrite params fuel none cs).map fun r => ('$' :: r.1, r.2)
      else (value params (cs.takeWhile Char.isDigit)).bind fun v =>
        (rewrite params fuel none (cs.dropWhile Char.isDigit)).map fun r => ('?' :: r.1, v :: r.2)
    else (rewrite params fuel none cs).map fun r => (c :: r.1, r.2)

def rewritePlaceholdersMysql (sql : String) (params : Params β) : Except String (String × List β) :=
  (rewrite params sql.toList.length none sql.toList).map fun r => (String.ofList r.1, r.2)

/-- It fails where MySQL has a placeholder without a parameter, and else MySQL binds by position in the result what it should by number,
with as many parameters as there are marks for them, and has the same text in quotes. -/
def PreservesBinding (sql : String) (params : Params β) : Prop :=
  ((∃ e, rewritePlaceholdersMysql sql params = .error e) ↔ ∃ digits, (false, .spot digits) ∈ mysql sql ∧ Bad params digits) ∧
    ∀ out ordered, rewritePlaceholdersMysql sql params = .ok (out, ordered) →
      positional (mysql out) ordered = (mysql sql).map (numbered params) ∧
        ((mysql out).filter fun p => p = (false, .chr '?')).length = ordered.length ∧
        ((mysql out).filter fun p => p.1) = (mysql sql).filter fun p => p.1

/-- No placeholder is quoted in one of two readings alone, and no mark is outside quotes in the second. -/
def Agree (l m : List (Bool × Tok)) : Prop :=
  ∀ p ∈ l.zip m, (∀ digits, p.1.2 = .spot digits → p.1.1 = p.2.1) ∧ (p.1.2 = .chr '?' → p.2.1 = true)

/-- Some placeholder outside quotes has no parameter. -/
def Missing (params : Params β) (l : List (Bool × Tok)) : Prop := ∃ digits, (false, .spot digits) ∈ l ∧ Bad params digits

end Values

section Tokens

/-- No digit comes after a dollar sign or a placeholder. -/
def Lexed : List Tok → Prop
  | [] => True
  | t :: ts => (∀ d : Char, d.isDigit → t = .chr '$' ∨ (∃ digits, t = .spot digits) → ts.head? ≠ some (.chr d)) ∧ Lexed ts

theorem toks_digits {digits : List Char} (h : ∀ c ∈ digits, c.isDigit) (rest : List Char) :
    toks (digits ++ rest) = digits.map .chr ++ toks rest := by
  induction digits with
  | nil => rfl
  | cons c digits ih =>
    have hc : c ≠ '$' := by
      rintro rfl
      exact absurd (h _ List.mem_cons_self) (by decide)
    simp [toks, hc, ih fun d hd => h d (List.mem_cons_of_mem _ hd)]

theorem toks_spot {cs : List Char} (h : cs.takeWhile Char.isDigit ≠ []) :
    toks ('$' :: cs) = .spot ⟨_, digits_takeWhile h⟩ :: toks (cs.dropWhile Char.isDigit) := by
  have hcs := toks_digits (digits_takeWhile h).2 (cs.dropWhile Char.isDigit)
  rw [List.takeWhile_append_dropWhile] at hcs
  simp [toks, h, hcs]

theorem toks_chr {c : Char} {cs : List Char} (h : ¬(c = '$' ∧ cs.takeWhile Char.isDigit ≠ [])) : toks (c :: cs) = .chr c :: toks cs :=
  dif_neg h

/-- A token is read back from its text where no digit comes after it that would be read with it. -/
theorem toks_text {ts : List Tok} (h : Lexed ts) : toks (ts.flatMap Tok.text) = ts := by
  induction ts with
  | nil => rfl
  | cons t ts ih =>
    have hhead : t = .chr '$' ∨ (∃ digits, t = .spot digits) → (ts.flatMap Tok.text).takeWhile Char.isDigit = [] := by
      intro ht
      rcases ts with _ | ⟨c | _, ts⟩
      · rfl
      · have hc : ¬c.isDigit := fun hd => h.1 c hd ht rfl
        simp [Tok.text, hc]
      · simp [Tok.text, show ¬('$'.isDigit = true) by decide]
    rw [List.flatMap_cons]
    cases t with
    | chr c =>
      rw [Tok.text, List.singleton_append, toks_chr, ih h.2]
      rintro ⟨rfl, hne⟩
      exact hne (hhead (.inl rfl))
    | spot digits =>
      obtain ⟨digits, hne, hdigits⟩ := digits
      have htake : (digits ++ ts.flatMap Tok.text).takeWhile Char.isDigit = digits := by
        rw [List.takeWhile_append_of_pos hdigits, hhead (.inr ⟨_, rfl⟩), List.append_nil]
      have hdrop : (digits ++ ts.flatMap Tok.text).dropWhile Char.isDigit = ts.flatMap Tok.text := by
        have := List.takeWhile_append_dropWhile (p := Char.isDigit) (l := digits ++ ts.flatMap Tok.text)
        rwa [htake, List.append_cancel_left_eq] at this
      rw [Tok.text, List.cons_append, toks_spot (by rw [htake]; exact hne), hdrop, ih h.2]
      simp only [htake]

theorem lexed_toks (cs : List Char) : Lexed (toks cs) := by
  induction h : cs.length using Nat.strong_induction_on generalizing cs with
  | h n ih =>
    have hhead : ∀ {cs : List Char} {d : Char}, (toks cs).head? = some (.chr d) → cs.head? = some d := by
      intro cs d hd
      cases cs with
      | nil => cases hd
      | cons c cs =>
        unfold toks at hd
        split at hd <;> simp_all
    cases cs with
    | nil => trivial
    | cons c cs =>
      by_cases hc : c = '$' ∧ cs.takeWhile Char.isDigit ≠ []
      · obtain ⟨rfl, hne⟩ := hc
        rw [toks_spot hne]
        refine ⟨fun d hd _ hnext => ?_, ih _ ?_ _ rfl⟩
        · have := List.head?_dropWhile_not Char.isDigit cs
          simp [hhead hnext, hd] at this
        · rw [← h, List.length_cons, Nat.lt_succ_iff]
          exact (List.dropWhile_sublist _).length_le
      · rw [toks_chr hc]
        refine ⟨fun d hd ht hnext => hc ⟨by simpa using ht, ?_⟩, ih _ (by simp [← h]) _ rfl⟩
        obtain ⟨cs, rfl⟩ := List.head?_eq_some_iff.mp (hhead hnext)
        simp [hd]

end Tokens

section Rewriting

variable {β : Type} {params : Params β} {s sm : Quote} {ts : List Tok}

/-- What is written for a token. -/
def mark : Bool × Tok → Tok
  | (quoted, .spot digits) => if quoted then .spot digits else .chr '?'
  | (_, t) => t

def param (params : Params β) : Bool × Tok → Option β
  | (quoted, .spot digits) => if quoted then none else params.1[index digits - 1]?
  | _ => none

/-- A mark is to a reader what the placeholder was. -/
theorem next_mark (escapes : Bool) (s : Quote) (p : Bool × Tok) : s.next escapes (mark p) = s.next escapes p.2 := by
  have hquote : ∀ q : {c // IsQuote c}, '?' ≠ q.1 := by
    rintro ⟨q, hq⟩ rfl
    exact absurd hq (by decide)
  have hopens : ¬IsQuote '?' := by decide
  obtain ⟨_ | _, c | digits⟩ := p
  all_goals cases s <;> simp [mark, Quote.next, Quote.opens, hquote, hopens]

/-- The rewriting on tokens. -/
def rewriteToks (params : Params β) : Quote → List Tok → Except String (List Tok × List β)
  | _, [] => .ok ([], [])
  | s, .chr c :: ts => (rewriteToks params (s.next false (.chr c)) ts).map fun r => (.chr c :: r.1, r.2)
  | s, .spot digits :: ts =>
    match s.next false (.spot digits) with
    | .out => (value params digits.1).bind fun v => (rewriteToks params .out ts).map fun r => (.chr '?' :: r.1, v :: r.2)
    | s' => (rewriteToks params s' ts).map fun r => (.spot digits :: r.1, r.2)

theorem parseU64_digits (digits : Digits) : parseU64 digits.1 = if index digits < 2 ^ 64 then some (index digits) else none := by
  obtain ⟨digits, hne, hdigits⟩ := digits
  have hplus : digits.head? ≠ some '+' := by
    intro h
    exact absurd (hdigits _ (List.mem_of_mem_head? h)) (by decide)
  unfold parseU64
  rw [if_neg hplus]
  exact if_neg (by simp only [hne, false_or, not_not]; exact hdigits)

theorem value_of_not_bad {digits : Digits} (h : ¬Bad params digits) :
    ∃ v, params.1[index digits - 1]? = some v ∧ value params digits.1 = .ok v := by
  unfold Bad at h
  have hlt : index digits - 1 < params.1.length := by omega
  refine ⟨params.1[index digits - 1], List.getElem?_eq_getElem hlt, ?_⟩
  rw [value, parseU64_digits, if_pos (by omega)]
  simp only [if_neg (show index digits ≠ 0 by omega), List.getElem?_eq_getElem hlt]

theorem value_of_bad {digits : Digits} (h : Bad params digits) : ∃ e, value params digits.1 = .error e := by
  unfold Bad at h
  rw [value, parseU64_digits]
  split_ifs with hlt
  · have hnone : params.1[if index digits = 0 then 2 ^ 64 - 1 else index digits - 1]? = none := by
      rw [List.getElem?_eq_none_iff]
      split <;> omega
    simp only [hnone]
    exact ⟨_, rfl⟩
  · exact ⟨_, rfl⟩

/-- Characters that are not a quotation mark are copied within quotes. -/
theorem rewriteToks_inside {q : {c // IsQuote c}} {cs : List Char} (h : q.1 ∉ cs) (ts : List Tok) :
    rewriteToks params (.inside q) (cs.map .chr ++ ts) =
      (rewriteToks params (.inside q) ts).map fun r => (cs.map .chr ++ r.1, r.2) := by
  induction cs with
  | nil => cases h : rewriteToks params (.inside q) ts <;> simp [h, Except.map]
  | cons c cs ih =>
    rw [List.mem_cons, not_or] at h
    have hnext : (Quote.inside q).next false (.chr c) = .inside q := by simp [Quote.next, Ne.symm h.1]
    rw [List.map_cons, List.cons_append, rewriteToks, hnext, ih h.2]
    cases rewriteToks params (.inside q) ts <;> rfl

/-- A quotation mark ends the quotes where another one does not follow. -/
theorem rewriteToks_closed {q : {c // IsQuote c}} (h : ts.head? ≠ some (.chr q)) : rewriteToks params (.closed q) ts = rewriteToks params .out ts := by
  cases ts with
  | nil => rfl
  | cons t ts =>
    have ht : t ≠ .chr q := by simpa using h
    cases t <;> simp [rewriteToks, Quote.next, ht]

/-- The loop does to the characters what the rewriting does to the tokens. -/
theorem rewrite_eq {fuel : Nat} {quote : Option {c // IsQuote c}} {cs : List Char} (hfuel : cs.length ≤ fuel) :
    rewrite params fuel (quote.map Subtype.val) cs =
      (rewriteToks params (quote.elim .out .inside) (toks cs)).map fun r => (r.1.flatMap Tok.text, r.2) := by
  induction fuel generalizing quote cs with
  | zero =>
    obtain rfl := List.length_eq_zero_iff.mp (Nat.le_zero.mp hfuel)
    cases quote <;> rfl
  | succ fuel ih =>
    have hmap : ∀ {r : Except String (List Tok × List β)} {c : Char},
        ((r.map fun r => (r.1.flatMap Tok.text, r.2)).map fun r => (c :: r.1, r.2)) =
          (r.map fun r => (Tok.chr c :: r.1, r.2)).map fun r => (r.1.flatMap Tok.text, r.2) := by
      rintro (_ | _) _ <;> rfl
    have hdollar : ∀ {c : Char} {cs : List Char}, IsQuote c → ¬(c = '$' ∧ cs.takeWhile Char.isDigit ≠ []) := by
      rintro c cs hc ⟨rfl, _⟩
      exact absurd hc (by decide)
    cases cs with
    | nil => cases quote <;> rfl
    | cons c cs =>
      have hcs : cs.length ≤ fuel := Nat.le_of_succ_le_succ hfuel
      have hout := @ih none cs hcs
      cases quote with
      | none =>
        by_cases hc : IsQuote c
        · have hinside := @ih (some ⟨c, hc⟩) cs hcs
          rw [Option.map_some] at hinside
          rw [Option.map_none, rewrite, if_pos hc, toks_chr (hdollar hc), hinside, hmap]
          simp [rewriteToks, Quote.next, Quote.opens, hc]
        · by_cases hspot : c = '$' ∧ cs.takeWhile Char.isDigit ≠ []
          · obtain ⟨rfl, hne⟩ := hspot
            have hdrop := @ih none (cs.dropWhile Char.isDigit) ((List.dropWhile_sublist _).length_le.trans hcs)
            rw [Option.map_none] at hdrop
            rw [Option.map_none, rewrite, if_neg hc, if_pos rfl, if_neg hne, toks_spot hne, hdrop]
            simp only [Option.elim_none, rewriteToks, Quote.next, Quote.opens]
            cases value params (cs.takeWhile Char.isDigit) with
            | error e => rfl
            | ok v => cases rewriteToks params .out (toks (cs.dropWhile Char.isDigit)) <;> rfl
          · rw [Option.map_none] at hout
            rw [Option.map_none, rewrite, if_neg hc, toks_chr hspot, hout]
            simp only [Option.elim_none, rewriteToks, Quote.next, Quote.opens, dif_neg hc, ← hmap]
            split
            · subst c
              rw [if_pos (by simpa using hspot)]
            · rfl
      | some q =>
        obtain ⟨q, hq⟩ := q
        have hinside := @ih (some ⟨q, hq⟩) cs hcs
        rw [Option.map_some] at hinside ⊢
        by_cases hc : c = q
        · subst hc
          rw [rewrite, if_pos rfl, toks_chr (hdollar hq)]
          split
          · rename_i hhead
            obtain ⟨cs, rfl⟩ := List.head?_eq_some_iff.mp hhead
            have hrest := @ih (some ⟨c, hq⟩) cs (by simpa using Nat.le_of_succ_le hcs)
            rw [Option.map_some] at hrest
            rw [List.tail_cons, hrest, toks_chr (hdollar hq)]
            simp only [Option.elim_some, rewriteToks, Quote.next, if_true]
            cases rewriteToks params (.inside ⟨c, hq⟩) (toks cs) <;> rfl
          · rename_i hhead
            have hclosed : (toks cs).head? ≠ some (.chr c) := by
              intro h
              cases cs with
              | nil => cases h
              | cons d cs =>
                unfold toks at h
                split at h <;> simp_all
            rw [Option.map_none] at hout
            rw [hout]
            simp only [Option.elim_none, Option.elim_some, rewriteToks, Quote.next, if_true]
            rw [rewriteToks_closed (q := ⟨c, hq⟩) hclosed, hmap]
        · rw [rewrite, if_neg hc, hinside]
          by_cases hspot : c = '$' ∧ cs.takeWhile Char.isDigit ≠ []
          · obtain ⟨rfl, hne⟩ := hspot
            have hnot : q ∉ cs.takeWhile Char.isDigit := by
              intro hmem
              have hd := (digits_takeWhile hne).2 q hmem
              obtain rfl | rfl | rfl := hq <;> exact absurd hd (by decide)
            have htoks := toks_digits (digits_takeWhile hne).2 (cs.dropWhile Char.isDigit)
            rw [List.takeWhile_append_dropWhile] at htoks
            rw [toks_spot hne, htoks, Option.elim_some, rewriteToks_inside hnot]
            simp only [rewriteToks, Quote.next]
            cases h : rewriteToks params (.inside ⟨q, hq⟩) (toks (cs.dropWhile Char.isDigit)) <;>
              simp [h, Except.map, Tok.text, List.flatMap_map]
          · rw [toks_chr hspot, hmap]
            simp [rewriteToks, Quote.next, hc]

theorem rewriteToks_error (h : Missing params (read false s ts)) : ∃ e, rewriteToks params s ts = .error e := by
  obtain ⟨digits, hmem, hbad⟩ := h
  induction ts generalizing s with
  | nil => cases hmem
  | cons t ts ih =>
    rw [read, List.mem_cons] at hmem
    cases t with
    | chr c =>
      obtain ⟨e, he⟩ := ih (hmem.resolve_left (by simp))
      exact ⟨e, by simp [rewriteToks, he, Except.map]⟩
    | spot d =>
      rw [rewriteToks]
      cases hnext : s.next false (.spot d) with
      | out =>
        rw [hnext] at hmem
        obtain hmem | hmem := hmem
        · obtain rfl : digits = d := by simpa using hmem
          obtain ⟨e, he⟩ := value_of_bad hbad
          exact ⟨e, by simp [he, Except.bind]⟩
        · obtain ⟨e, he⟩ := ih hmem
          cases hv : value params d.1 with
          | error e' => exact ⟨e', rfl⟩
          | ok v => exact ⟨e, by simp [he, Except.map, Except.bind]⟩
      | _ =>
        rw [hnext] at hmem
        obtain ⟨e, he⟩ := ih (hmem.resolve_left (by simp))
        exact ⟨e, by simp [he, Except.map]⟩

theorem rewriteToks_ok (h : ¬Missing params (read false s ts)) :
    rewriteToks params s ts = .ok ((read false s ts).map mark, (read false s ts).filterMap (param params)) := by
  induction ts generalizing s with
  | nil => rfl
  | cons t ts ih =>
    have hrest : ¬Missing params (read false (s.next false t) ts) := fun ⟨digits, hmem, hbad⟩ => h ⟨digits, List.mem_cons_of_mem _ hmem, hbad⟩
    cases t with
    | chr c =>
      rw [rewriteToks, ih hrest]
      simp [read, mark, param, Except.map, List.filterMap_cons]
    | spot d =>
      rw [rewriteToks]
      cases hnext : s.next false (.spot d) with
      | out =>
        rw [hnext] at hrest
        obtain ⟨v, hv, hok⟩ := value_of_not_bad fun hbad => h ⟨d, by simp [read, hnext], hbad⟩
        simp [read, hnext, hok, ih hrest, mark, param, hv, Except.map, Except.bind]
      | _ =>
        rw [hnext] at hrest
        simp [read, hnext, ih hrest, mark, param, Except.map]

theorem Lexed.marked (h : Lexed ts) : Lexed ((read false s ts).map mark) := by
  induction ts generalizing s with
  | nil => trivial
  | cons t ts ih =>
    refine ⟨fun d hd ht hnext => ?_, ih h.2⟩
    have hhead : ts.head? = some (.chr d) := by
      rcases ts with _ | ⟨c | digits, ts⟩
      · cases hnext
      · simpa [read, mark] using hnext
      · simp only [read, mark, List.map_cons, List.head?_cons, Option.some.injEq] at hnext
        split at hnext
        · cases hnext
        · obtain rfl := Tok.chr.inj hnext
          exact absurd hd (by decide)
    refine h.1 d hd ?_ hhead
    cases t with
    | chr c => simpa [mark] using ht
    | spot digits => exact .inr ⟨digits, rfl⟩

theorem agree_cons {t : Tok} : Agree (read false s (t :: ts)) (read true sm (t :: ts)) ↔
    ((∀ digits, t = .spot digits → (s.next false t = .out ↔ sm.next true t = .out)) ∧ (t = .chr '?' → sm.next true t ≠ .out)) ∧
      Agree (read false (s.next false t) ts) (read true (sm.next true t) ts) := by
  simp [Agree, read, decide_eq_decide]

/-- What is executed is the same exactly where the readings agree. -/
theorem positional_iff (h : ¬Missing params (read false s ts)) :
    positional (read true sm ((read false s ts).map mark)) ((read false s ts).filterMap (param params)) =
        (read true sm ts).map (numbered params) ↔ Agree (read false s ts) (read true sm ts) := by
  induction ts generalizing s sm with
  | nil => simp [read, positional, Agree]
  | cons t ts ih =>
    have hrest : ¬Missing params (read false (s.next false t) ts) := fun ⟨digits, hmem, hbad⟩ => h ⟨digits, List.mem_cons_of_mem _ hmem, hbad⟩
    have ih := @ih (s.next false t) (sm.next true t) hrest
    rw [agree_cons, ← ih, read, read, List.map_cons, List.map_cons, read, next_mark]
    cases t with
    | chr c =>
      by_cases hc : c = '?'
      · subst hc
        by_cases hm : sm.next true (.chr '?') = .out <;> simp [positional, numbered, mark, param, hm, List.filterMap_cons]
      · by_cases hm : sm.next true (.chr c) = .out <;> simp [positional, numbered, mark, param, hm, hc, List.filterMap_cons]
    | spot digits =>
      by_cases hs : s.next false (.spot digits) = .out
      · obtain ⟨v, hv, -⟩ := value_of_not_bad fun hbad => h ⟨digits, by simp [read, hs], hbad⟩
        by_cases hm : sm.next true (.spot digits) = .out <;> simp [positional, numbered, mark, param, hs, hm, hv]
      · by_cases hm : sm.next true (.spot digits) = .out <;> simp [positional, numbered, mark, param, hs, hm]

theorem Agree.missing (h : Agree (read false s ts) (read true sm ts)) (hm : Missing params (read true sm ts)) :
    Missing params (read false s ts) := by
  obtain ⟨digits, hmem, hbad⟩ := hm
  refine ⟨digits, ?_, hbad⟩
  induction ts generalizing s sm with
  | nil => cases hmem
  | cons t ts ih =>
    obtain ⟨⟨hspot, -⟩, hrest⟩ := agree_cons.mp h
    rw [read, List.mem_cons] at hmem ⊢
    obtain hmem | hmem := hmem
    · obtain ⟨hout, rfl⟩ : sm.next true t = .out ∧ .spot digits = t := by simpa using hmem
      exact .inl (by simp [(hspot _ rfl).mpr hout])
    · exact .inr (ih hrest hmem)

theorem Agree.counts (h : Agree (read false s ts) (read true sm ts)) (hm : ¬Missing params (read false s ts)) :
    ((read true sm ((read false s ts).map mark)).filter fun p => p = (false, .chr '?')).length =
        ((read false s ts).filterMap (param params)).length ∧
      ((read true sm ((read false s ts).map mark)).filter fun p => p.1) = (read true sm ts).filter fun p => p.1 := by
  induction ts generalizing s sm with
  | nil => simp [read]
  | cons t ts ih =>
    have hrest : ¬Missing params (read false (s.next false t) ts) := fun ⟨digits, hmem, hbad⟩ => hm ⟨digits, List.mem_cons_of_mem _ hmem, hbad⟩
    obtain ⟨⟨hspot, hchr⟩, h⟩ := agree_cons.mp h
    obtain ⟨hlen, hquoted⟩ := ih h hrest
    rw [read, read, List.map_cons, read, next_mark]
    cases t with
    | chr c =>
      by_cases hc : c = '?'
      · subst hc
        simp [mark, param, hchr rfl, List.filterMap_cons, hlen, hquoted]
      · by_cases hout : sm.next true (.chr c) = .out
        · rw [hout] at hlen hquoted
          simp [mark, param, hc, hout, List.filterMap_cons, hlen, hquoted]
        · simp [mark, param, hc, hout, List.filterMap_cons, hlen, hquoted]
    | spot digits =>
      have hs := hspot _ rfl
      by_cases hout : sm.next true (.spot digits) = .out
      · obtain ⟨v, hv, -⟩ := value_of_not_bad fun hbad => hm ⟨digits, by simp [read, hs.mpr hout], hbad⟩
        rw [hs.mpr hout, hout] at hlen hquoted
        simp [mark, param, hs.mpr hout, hout, hv, hlen, hquoted]
      · simp [mark, param, mt hs.mp hout, hout, hlen, hquoted]

end Rewriting

section Statements

variable {β : Type} {params : Params β} {sql : String}

theorem rewritePlaceholdersMysql_eq : rewritePlaceholdersMysql sql params =
    (rewriteToks params .out (toks sql.toList)).map fun r => (String.ofList (r.1.flatMap Tok.text), r.2) := by
  have h := @rewrite_eq β params _ none _ (le_refl sql.toList.length)
  rw [Option.map_none, Option.elim_none] at h
  rw [rewritePlaceholdersMysql, h]
  cases rewriteToks params .out (toks sql.toList) <;> rfl

theorem rewritePlaceholdersMysql_ok (h : ¬Missing params (doubling sql)) :
    ∃ out, rewritePlaceholdersMysql sql params = .ok (out, (doubling sql).filterMap (param params)) ∧
      mysql out = read true .out ((doubling sql).map mark) := by
  refine ⟨String.ofList (((doubling sql).map mark).flatMap Tok.text), ?_, ?_⟩
  · rw [rewritePlaceholdersMysql_eq, rewriteToks_ok h]
    rfl
  · have hlexed : Lexed ((doubling sql).map mark) := (lexed_toks sql.toList).marked
    rw [mysql, String.toList_ofList, toks_text hlexed]

end Statements

end Placeholders

end Opsense
