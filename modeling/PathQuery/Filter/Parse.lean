import PathQuery.Filter.Predicate

/-!
# Filter/Parse — predicates from tokens

Predicates follow one another, joined by `and` or by nothing, with balanced brackets between them.
An opening bracket must be followed by another one or by a predicate.  A parse error names the token
at which reading stopped; a bracket that stays open is named by its own token.
-/

namespace PathQuery.Filter

/-! ## Parse errors -/

/-- Why tokens are no list of predicates. -/
inductive ParseFault where
  | unexpected (expected found : String)
  | endOfInput
  | unmatchedClose
  | unclosedOpen
  | disjunction
  /-- A command needs one word and one quoted literal. -/
  | wrongArguments (command : Command) (first second : Token)
  /-- A fault in words of its own. -/
  | stated (text : String)
deriving DecidableEq, Repr

namespace ParseFault

/-- The words of a parse fault. -/
def describe : ParseFault → String
  | unexpected expected found => s!"expected {expected}, found {found}"
  | endOfInput => "unexpected end of input"
  | unmatchedClose => "unmatched ')'"
  | unclosedOpen => "unclosed '('"
  | disjunction => "'or' is not supported"
  | wrongArguments c a b =>
    s!"{c.word} expects a property and a quoted literal, found {a.describe} and {b.describe}"
  | stated text => text

/-- Advice on a parse fault. -/
def hint? : ParseFault → Option String
  | unclosedOpen => some "every '(' needs a matching ')'"
  | disjunction => some "predicates can only be combined with 'and'"
  | _ => none

end ParseFault

/-- A place in a list of tokens where parsing stops. -/
structure ParseError where
  fault : ParseFault
  span : Span
  /-- The position of the token in the list. -/
  offset : Nat
  hint : Option String := fault.hint?
deriving DecidableEq, Repr

namespace ParseError

/-- The message of a parse error. -/
def message (e : ParseError) : String := s!"{e.fault.describe} (token {e.offset})"

/-- The fault with its place underlined, and the hint below it. -/
def render (e : ParseError) (source : List Char) : String :=
  underline source e.span e.fault.describe ++
    match e.hint with
    | some hint => s!"   = hint: {hint}\n"
    | none => ""

end ParseError

/-! ## The parser -/

/-- An opening bracket that is not closed yet: its span and its position. -/
structure Opening where
  span : Span
  offset : Nat
deriving DecidableEq, Repr

/-- The error at the token at position `pos`, which `tokens` starts with, where something else was
expected; `ending` is where the last token of the list stops. -/
def unexpected (ending pos : Nat) (expected : String) : List Located → ParseError
  | [] => ⟨.endOfInput, .empty ending, pos, none⟩
  | t :: _ => ⟨.unexpected expected t.token.describe, t.span, pos, none⟩

/-- The error of an opening bracket at whose end no predicate starts. -/
def nothingOpened (ending pos : Nat) : List Located → ParseError
  | [] => ⟨.unexpected "predicate after '('" "end of input", .empty ending, pos, none⟩
  | t :: _ => ⟨.unexpected "predicate after '('" t.token.describe, t.span, pos, none⟩

/-- The property and the literal among the two arguments of a command, in either order. -/
def arguments? : Token → Token → Option (String × String)
  | .word p, .quoted v => some (p, v)
  | .quoted v, .word p => some (p, v)
  | _, _ => none

/-- The rest of a predicate that starts with a property: an operator and a value. -/
def afterProperty (ending pos : Nat) (property : String) :
    List Located → Except ParseError (Predicate × List Located)
  | ⟨.operator op, _⟩ :: tokens =>
    match tokens with
    | [] => .error (unexpected ending (pos + 1) "value" [])
    | t :: rest =>
      match t.token.literal? with
      | some value => .ok (⟨property, .compare op, value⟩, rest)
      | none => .error (unexpected ending (pos + 1) "value" (t :: rest))
  | tokens => .error (unexpected ending pos "comparison operator" tokens)

/-- The end of a predicate that starts with a command: an operator and a boolean. -/
def afterArguments (ending pos : Nat) (predicate : Predicate) :
    List Located → Except ParseError (Predicate × List Located)
  | ⟨.operator _, _⟩ :: ⟨.bool _, _⟩ :: rest => .ok (predicate, rest)
  | ⟨.operator _, _⟩ :: tokens => .error (unexpected ending (pos + 1) "boolean" tokens)
  | tokens => .error (unexpected ending pos "comparison operator" tokens)

/-- The rest of a predicate that starts with a command: two arguments in brackets, an operator and a
boolean. -/
def afterCommand (ending pos : Nat) (c : Command) :
    List Located → Except ParseError (Predicate × List Located)
  | ⟨.openBracket, _⟩ :: a :: ⟨.comma, _⟩ :: b :: ⟨.closeBracket, _⟩ :: rest =>
    match arguments? a.token b.token with
    | some (property, value) => afterArguments ending (pos + 5) ⟨property, .command c, value⟩ rest
    | none => .error ⟨.wrongArguments c a.token b.token, a.span.merge b.span, pos + 1, none⟩
  | ⟨.openBracket, _⟩ :: _ :: ⟨.comma, _⟩ :: _ :: tokens =>
    .error (unexpected ending (pos + 4) "')'" tokens)
  | [⟨.openBracket, _⟩, _, ⟨.comma, _⟩] => .error (unexpected ending (pos + 3) "argument" [])
  | ⟨.openBracket, _⟩ :: _ :: tokens => .error (unexpected ending (pos + 2) "','" tokens)
  | [⟨.openBracket, _⟩] => .error (unexpected ending (pos + 1) "argument" [])
  | tokens => .error (unexpected ending pos "'('" tokens)

/-- A predicate takes tokens off the list. -/
theorem length_afterProperty {ending pos : Nat} {property : String} {tokens rest : List Located}
    {p : Predicate} (h : afterProperty ending pos property tokens = .ok (p, rest)) :
    rest.length < tokens.length := by
  unfold afterProperty at h
  split at h
  · split at h
    · cases h
    · split at h <;> cases h
      simp only [List.length_cons]; omega
  · cases h

theorem length_afterArguments {ending pos : Nat} {predicate p : Predicate}
    {tokens rest : List Located}
    (h : afterArguments ending pos predicate tokens = .ok (p, rest)) :
    rest.length < tokens.length := by
  unfold afterArguments at h
  split at h <;> cases h
  simp only [List.length_cons]; omega

theorem length_afterCommand {ending pos : Nat} {c : Command} {tokens rest : List Located}
    {p : Predicate} (h : afterCommand ending pos c tokens = .ok (p, rest)) :
    rest.length < tokens.length := by
  unfold afterCommand at h
  split at h
  · split at h
    · have := length_afterArguments h
      simp only [List.length_cons]; omega
    · cases h
  all_goals cases h

/-- The predicates of the tokens from position `pos` on, with the brackets opened before it, the
innermost first. -/
def parseFrom (ending : Nat) (pos : Nat) (opened : List Opening) :
    List Located → Except ParseError (List Predicate)
  | [] =>
    match opened with
    | [] => .ok []
    | o :: _ => .error { fault := .unclosedOpen, span := o.span, offset := o.offset }
  | t :: rest =>
    match t.token with
    | .word property =>
      match _h : afterProperty ending (pos + 1) property rest with
      | .ok (p, tokens) =>
        (parseFrom ending (pos + 1 + (rest.length - tokens.length)) opened tokens).map (p :: ·)
      | .error e => .error e
    | .command c =>
      match _h : afterCommand ending (pos + 1) c rest with
      | .ok (p, tokens) =>
        (parseFrom ending (pos + 1 + (rest.length - tokens.length)) opened tokens).map (p :: ·)
      | .error e => .error e
    | .openBracket =>
      match rest with
      | [] => .error (nothingOpened ending (pos + 1) [])
      | next :: rest' =>
        if next.token.startsPredicate then
          parseFrom ending (pos + 1) (⟨t.span, pos⟩ :: opened) (next :: rest')
        else .error (nothingOpened ending (pos + 1) (next :: rest'))
    | .closeBracket =>
      match opened with
      | [] => .error { fault := .unmatchedClose, span := t.span, offset := pos }
      | _ :: outer => parseFrom ending (pos + 1) outer rest
    | .binary .and => parseFrom ending (pos + 1) opened rest
    | .binary .or => .error { fault := .disjunction, span := t.span, offset := pos }
    | _ => .error (unexpected ending pos "predicate" (t :: rest))
termination_by tokens => tokens.length
decreasing_by
  · have := length_afterProperty _h; simp only [List.length_cons]; omega
  · have := length_afterCommand _h; simp only [List.length_cons]; omega
  all_goals simp

/-- The predicates of a list of tokens, in their order. -/
def parse (tokens : List Located) : Except ParseError (List Predicate) :=
  parseFrom ((tokens.getLast?.map (·.span.stop)).getD 0) 0 [] tokens

/-! ## From the text -/

/-- Why a text is no filter. -/
inductive FilterError where
  | scan (error : ScanError)
  | parse (error : ParseError)
deriving DecidableEq, Repr

namespace FilterError

/-- The message of a filter error. -/
def message : FilterError → String
  | scan e => s!"scan error: {e.message}"
  | parse e => s!"parse error: {e.message}"

/-- The message with the place underlined. -/
def render (source : String) : FilterError → String
  | scan e => e.render source.toList
  | parse e => e.render source.toList

/-- The place of a filter error. -/
def span : FilterError → Span
  | scan e => e.span
  | parse e => e.span

end FilterError

/-- The predicates of a filter text. -/
def predicates (source : String) : Except FilterError (List Predicate) :=
  match scan source with
  | .error e => .error (.scan e)
  | .ok tokens => (parse tokens).mapError .parse

end PathQuery.Filter
