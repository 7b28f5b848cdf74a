import PathQuery.Filter.Span

/-!
# Filter/Token — the words of the filter language

A token is a bracket, a comma, an operator or connective with the spaces around it, a command, a
boolean, a quoted literal or a bare word.  Each kind of keyword is a type with its spelling and its
reading, and reading a spelling gives the keyword back.
-/

namespace PathQuery.Filter

/-! ## Keywords -/

/-- A comparison between a property and a value. -/
inductive Comparison where
  | eq | gt | ge | lt | le | ne
deriving DecidableEq, Repr

namespace Comparison

/-- The spelling of a comparison. -/
def word : Comparison → String
  | eq => "eq" | gt => "gt" | ge => "ge" | lt => "lt" | le => "le" | ne => "ne"

/-- All comparisons. -/
def all : List Comparison := [eq, gt, ge, lt, le, ne]

/-- The comparison of a spelling. -/
def ofWord? (w : String) : Option Comparison := all.find? (·.word == w)

theorem ofWord?_word (op : Comparison) : ofWord? op.word = some op := by
  cases op <;> decide

end Comparison

/-- A connective between predicates. -/
inductive Connective where
  | and | or
deriving DecidableEq, Repr

namespace Connective

/-- The spelling of a connective. -/
def word : Connective → String
  | and => "and" | or => "or"

/-- The connective of a spelling. -/
def ofWord? (w : String) : Option Connective := [and, or].find? (·.word == w)

theorem ofWord?_word (b : Connective) : ofWord? b.word = some b := by
  cases b <;> decide

end Connective

/-- A command that looks for a text in a text property. -/
inductive Command where
  | substringOf | startsWith | endsWith
deriving DecidableEq, Repr

namespace Command

/-- The spelling of a command. -/
def word : Command → String
  | substringOf => "substringof" | startsWith => "startswith" | endsWith => "endswith"

/-- All commands. -/
def all : List Command := [substringOf, startsWith, endsWith]

/-- The command of a spelling. -/
def ofWord? (w : String) : Option Command := all.find? (·.word == w)

theorem ofWord?_word (c : Command) : ofWord? c.word = some c := by
  cases c <;> decide

end Command

/-! ## Tokens -/

/-- A token of a filter text. -/
inductive Token where
  | openBracket
  | closeBracket
  | comma
  | operator (op : Comparison)
  | binary (connective : Connective)
  | command (command : Command)
  | bool (value : Bool)
  /-- A quoted literal, its doubled quotes made single. -/
  | quoted (text : String)
  /-- A bare word: a property path or a value without quotes. -/
  | word (text : String)
deriving DecidableEq, Repr

namespace Token

/-- How messages name a token. -/
def describe : Token → String
  | openBracket => "'('"
  | closeBracket => "')'"
  | comma => "','"
  | operator op => s!"operator '{op.word}'"
  | binary b => s!"'{b.word}'"
  | command c => s!"command '{c.word}'"
  | bool b => s!"boolean '{b}'"
  | quoted text => s!"quoted string '{text}'"
  | word text => s!"word '{text}'"

/-- The text of a token that can stand for a value. -/
def literal? : Token → Option String
  | quoted text => some text
  | word text => some text
  | _ => none

/-- Whether a predicate or its bracket can start with the token. -/
def startsPredicate : Token → Bool
  | openBracket => true
  | word _ => true
  | command _ => true
  | _ => false

end Token

/-- A token and its place in the source. -/
structure Located where
  token : Token
  span : Span
deriving DecidableEq, Repr

end PathQuery.Filter
