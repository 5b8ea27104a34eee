import TimedInference.Syntax.Reader
import TimedInference.Syntax.Tree

/-!
# The grammar of programs

A program is a list of statements, each ended by a point: queries `query(t)`, probabilistic facts
`p::t`, rules `t :- body` and facts `t`, tried in this order. White space and comments may stand
between any two tokens; a comment goes from a percent sign to the end of the line.

Terms and bodies nest, so their readers carry a bound on the depth that remains; the length of the
text is one that is never reached.
-/

namespace TimedInference.Syntax

open Reader

/-! ## Characters -/

/-- The white space of program text. -/
def isSpace (c : Char) : Bool := c = ' ' || c = '\t' || c = '\r' || c = '\n'

/-- The characters that end a comment. -/
def endsComment (c : Char) : Bool := c = '\n' || c = '\r'

/-- The characters of a name after its first. -/
def isNameChar (c : Char) : Bool := c.isAlphanum || c = '_'

/-- The place after white space and comments, from a place inside a comment or outside of one. -/
def skipBlanks : Bool → Nat → List Char → Cursor
  | _, offset, [] => ⟨offset, []⟩
  | true, offset, c :: cs => skipBlanks (!endsComment c) (offset + 1) cs
  | false, offset, c :: cs =>
    if isSpace c then skipBlanks false (offset + 1) cs
    else if c = '%' then skipBlanks true (offset + 1) cs
    else ⟨offset, c :: cs⟩

/-- Skips white space and comments. -/
def blanks : Reader Unit := fun c => ⟨some ((), skipBlanks false c.offset c.rest), id⟩

/-- What a reader reads after white space and comments. -/
def spaced {α : Type} (p : Reader α) : Reader α := do blanks; p

/-- Reads a mark after white space and comments. -/
def mark (m : String) : Reader Unit := spaced (exactly m.toList)

/-! ## Tokens -/

/-- A functor: a small letter and name characters. -/
def functor : Reader String := named .functor do
  let first ← one Char.isLower
  let rest ← run isNameChar
  return String.ofList (first :: rest)

/-- A variable: a capital letter or an underscore, and name characters. -/
def variableName : Reader String := named .var do
  let first ← one fun c => c.isUpper || c = '_'
  let rest ← run isNameChar
  return String.ofList (first :: rest)

/-- An integer: digits, perhaps after a minus sign. -/
def integer : Reader WrittenTerm := named .integer do
  let offset ← Reader.offset
  let negative ← orDefault (do exactly ['-']; return true) false
  let digits ← run1 Char.isDigit
  return .integer offset negative digits

/-- A probability: digits, perhaps a point and digits, perhaps an exponent. -/
def probability : Reader (List Char) := named .probability do
  let whole ← run1 Char.isDigit
  let fraction ← orDefault (do
    let point ← one (· = '.')
    let digits ← run1 Char.isDigit
    return point :: digits) []
  let exponent ← orDefault (do
    let letter ← one fun c => c = 'e' || c = 'E'
    let sign ← orDefault (do let s ← one (fun c => c = '+' || c = '-'); return [s]) []
    let digits ← run1 Char.isDigit
    return letter :: (sign ++ digits)) []
  return whole ++ fraction ++ exponent

/-! ## Terms and bodies -/

/-- What a reader reads, and more of it after a separator. -/
def separated {α : Type} (separator : String) (fuel : Nat) (p : Reader α) : Reader (List α) := do
  let first ← p
  let rest ← many (do mark separator; spaced p) fuel
  return first :: rest

/-- A term: a variable, an integer, or a functor with arguments in parentheses or without. -/
def term : Nat → Reader WrittenTerm
  | 0 => failure
  | fuel + 1 => named .term <|
    (do let name ← variableName; return .var name)
      <|> integer
      <|> named .compound do
        let name ← functor
        let args ← orDefault (do
          mark "("
          let args ← spaced (separated "," fuel (term fuel))
          mark ")"
          return args) []
        return .compound name args

/-- A negated atom. -/
def negation (fuel : Nat) : Reader (Formula WrittenTerm) := named .negation do
  exactly "\\+".toList
  let atom ← spaced (term fuel)
  return .fails atom

/-- A part of a conjunction: a negated atom, a disjunction in parentheses or an atom. -/
def conjunct (fuel : Nat) (disjunction : Reader (Formula WrittenTerm)) :
    Reader (Formula WrittenTerm) :=
  negation fuel
    <|> (named .group do
      exactly ['(']
      let inner ← spaced disjunction
      mark ")"
      return inner)
    <|> (do let atom ← term fuel; return .holds atom)

/-- Parts separated by commas. -/
def conjunction (fuel : Nat) (disjunction : Reader (Formula WrittenTerm)) :
    Reader (Formula WrittenTerm) := named .conjunction do
  let parts ← separated "," fuel (conjunct fuel disjunction)
  return .every parts

/-- Conjunctions separated by semicolons. -/
def disjunction : Nat → Reader (Formula WrittenTerm)
  | 0 => failure
  | fuel + 1 => named .disjunction do
    let parts ← separated ";" fuel (conjunction fuel (disjunction fuel))
    return .some parts

/-! ## Statements -/

/-- The head of a clause. -/
def head (fuel : Nat) : Reader WrittenHead := do
  let offset ← Reader.offset
  let t ← term fuel
  return ⟨offset, t⟩

/-- A query. -/
def query (fuel : Nat) : Reader Statement := named .query do
  exactly "query".toList
  mark "("
  let t ← spaced (term fuel)
  mark ")"
  return .query t

/-- A probabilistic fact. -/
def chance (fuel : Nat) : Reader Statement := named .chance do
  let p ← probability
  mark "::"
  let h ← spaced (head fuel)
  return .chance p h

/-- A rule. -/
def rule (fuel : Nat) : Reader Statement := named .rule do
  let h ← head fuel
  mark ":-"
  let body ← spaced (disjunction fuel)
  return .rule h body

/-- A fact. -/
def fact (fuel : Nat) : Reader Statement := named .fact do
  let h ← head fuel
  return .fact h

/-- A statement with the point that ends it. -/
def statement (fuel : Nat) : Reader Statement := do
  let s ← query fuel <|> chance fuel <|> rule fuel <|> fact fuel
  mark "."
  return s

/-- A whole program. -/
def program (fuel : Nat) : Reader (List Statement) := named .program do
  let statements ← many (spaced (statement fuel)) fuel
  spaced endOfInput
  return statements

/-- The statements of a text, or the record of what was looked for in vain. -/
def readStatements (text : List Char) : Except Attempts (List Statement) :=
  let r := program (text.length + 1) ⟨0, text⟩
  match r.result with
  | some (statements, _) => .ok statements
  | none => .error (r.attempts Attempts.none)

end TimedInference.Syntax
