import Opsense.Jq.Evaluate
import Opsense.Lib.Text

/-!
# The parser of queries

`JsonQuery::parse` with `parse_path_token`, `parse_expr` and `parse_call_args` of `opsense-mlib/src/jq.rs`, each loop with some fuel.
The classes of characters that Unicode has tables for and the reading of an `f64` are parameters. Beside it stands a scanner, which
reads a text once and keeps what the parser is at and how many calls are open (`Scan`).
-/

namespace Opsense

namespace Jq

/-- `is_alphabetic`, `is_alphanumeric`, `parse::<f64>`, and the float that stands for what is none. -/
structure Lexis (F : Type) where
  is_alphabetic : Char → Bool
  is_alphanumeric : Char → Bool
  parse_f64 : List Char → Option F
  zero : F

variable {F : Type}

/-- `str::parse::<i64>` -/
def parseI64 (text : List Char) : Option Int :=
  let negative := text.head? = some '-'
  let digits := if negative then text.tail else text
  if negative ∧ digits.head? = some '+' then none
  else
    match parseU64 digits with
    | none => none
    | some n => if negative then if n ≤ 2 ^ 63 then some (-n) else none else if n < 2 ^ 63 then some n else none

def parseNumericLiteral (l : Lexis F) (lit : List Char) : Operator F :=
  if '.' ∈ lit then .literalFloat ((l.parse_f64 lit).getD l.zero) else .literalInt ((parseI64 lit).getD 0)

/-- Quotes at the ends are left out. -/
def trimQuotes (content : List Char) : List Char :=
  let quote (c : Char) : Bool := c = '"' ∨ c = '\''
  ((content.dropWhile quote).reverse.dropWhile quote).reverse

/-- The operator of an index or a field. -/
def indexOr (content field : List Char) : Operator F :=
  match parseU64 content with
  | some index => .access index
  | none => .matchKey (String.ofList field)

/-- `parse_path_token`, with what is left of the text. -/
def parsePathToken (c : Char) (chars : List Char) (operators : JsonQuery F) : Except String (JsonQuery F × List Char) :=
  match c with
  | '.' => .ok (operators, chars)
  | '^' => .ok (operators ++ [.parent], chars)
  | '[' =>
    let content := chars.takeWhile fun c => c ≠ ']'
    match chars.dropWhile fun c => c ≠ ']' with
    | [] => .error "Missing closing bracket ']'"
    | _ :: rest =>
      if content = [] then .ok (operators ++ [.iter], rest) else .ok (operators ++ [indexOr content (trimQuotes content)], rest)
  | c =>
    let more (c : Char) : Bool := c ≠ '.' ∧ c ≠ '['
    let field := c :: chars.takeWhile more
    .ok (operators ++ [indexOr field field], chars.dropWhile more)

/-- The characters of a name after its first. -/
def word (l : Lexis F) (c : Char) : Bool := l.is_alphanumeric c || c = '_'

def startsName (l : Lexis F) (c : Char) : Bool := l.is_alphabetic c || c = '_'

def startsNumber (c : Char) (chars : List Char) : Bool := c.isDigit || (c = '-' && chars.head?.any Char.isDigit)

/-- The characters of a number after its first. -/
def numeral (c : Char) : Bool := c.isDigit || c = '.'

def quotes (c : Char) : Bool := c = '"' || c = '\''

mutual

/-- `parse_expr`, from a text and the operators so far. -/
def parseExpr (l : Lexis F) : Nat → List Char → Bool → JsonQuery F → Option (Except String (JsonQuery F × List Char))
  | 0, _, _, _ => none
  | _ + 1, [], _, operators => some (.ok (operators, []))
  | fuel + 1, c :: chars, in_path, operators =>
    if c = ',' then some (.ok (operators, chars))
    else if c = ')' then some (.ok (operators, c :: chars))
    else if isWhitespace c then parseExpr l fuel chars in_path operators
    else if !in_path && startsName l c then
      let ident := String.ofList (c :: chars.takeWhile (word l))
      match chars.dropWhile (word l) with
      | '(' :: rest =>
        match parseCallArgs l fuel rest [] with
        | none => none
        | some (.error e) => some (.error e)
        | some (.ok (args, rest)) => parseExpr l fuel rest true (operators ++ [.call ident args])
      | rest => parseExpr l fuel rest true (operators ++ [.matchKey ident])
    else if !in_path && startsNumber c chars then
      parseExpr l fuel (chars.dropWhile numeral) true (operators ++ [parseNumericLiteral l (c :: chars.takeWhile numeral)])
    else if !in_path && quotes c then
      let lit := String.ofList (chars.takeWhile fun next => next ≠ c)
      parseExpr l fuel ((chars.dropWhile fun next => next ≠ c).drop 1) true (operators ++ [.literalStr lit])
    else
      match parsePathToken c chars operators with
      | .error e => some (.error e)
      | .ok (operators, rest) => parseExpr l fuel rest true operators

/-- `parse_call_args`, from a text and the arguments so far. -/
def parseCallArgs (l : Lexis F) : Nat → List Char → List (JsonQuery F) → Option (Except String (List (JsonQuery F) × List Char))
  | 0, _, _ => none
  | fuel + 1, chars, args =>
    match chars.dropWhile fun c => isWhitespace c || c = ',' with
    | ')' :: rest => some (.ok (args, rest))
    | chars =>
      match parseExpr l fuel chars false [] with
      | none => none
      | some (.error e) => some (.error e)
      | some (.ok (arg, rest)) => parseCallArgs l fuel rest (args ++ [arg])

end

/-- The loop of `parse`. -/
def parseFrom (l : Lexis F) : Nat → List Char → Bool → JsonQuery F → Option (Except String (JsonQuery F))
  | 0, _, _, _ => none
  | _ + 1, [], _, operators => some (.ok operators)
  | fuel + 1, c :: chars, in_assign_mode, operators =>
    let path :=
      match parsePathToken c chars operators with
      | .error e => some (.error e)
      | .ok (operators, rest) => parseFrom l fuel rest false operators
    if !in_assign_mode then if c = '.' then parseFrom l fuel chars false operators else path
    else if isWhitespace c || c = ',' then parseFrom l fuel chars true operators
    else if c = '.' then path
    else if startsName l c then
      let ident := String.ofList (c :: chars.takeWhile (word l))
      match (chars.dropWhile (word l)).dropWhile isWhitespace with
      | '=' :: rest =>
        if rest.head? = some '=' then parseFrom l fuel ('=' :: rest) false (operators ++ [.matchKey ident])
        else
          match parseExpr l fuel rest false [] with
          | none => none
          | some (.error e) => some (.error e)
          | some (.ok (expr, rest)) => parseFrom l fuel rest true (operators ++ [.assign ident expr])
      | '(' :: rest =>
        match parseCallArgs l fuel rest [] with
        | none => none
        | some (.error e) => some (.error e)
        | some (.ok (args, rest)) => parseFrom l fuel rest false (operators ++ [.call ident args])
      | rest => parseFrom l fuel rest false (operators ++ [.matchKey ident])
    else if startsNumber c chars then
      parseFrom l fuel (chars.dropWhile numeral) false (operators ++ [parseNumericLiteral l (c :: chars.takeWhile numeral)])
    else if quotes c then
      let lit := String.ofList (chars.takeWhile fun next => next ≠ c)
      parseFrom l fuel ((chars.dropWhile fun next => next ≠ c).drop 1) false (operators ++ [.literalStr lit])
    else path

/-- `JsonQuery::parse` -/
def parse (l : Lexis F) (fuel : Nat) (path : String) : Option (Except String (JsonQuery F)) := parseFrom l fuel path.toList true []

end Jq

end Opsense
