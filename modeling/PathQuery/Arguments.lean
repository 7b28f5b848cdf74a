/-!
# Arguments — options and positional arguments of a command line

An option has a short and a long name and may take a value.  The value follows a long name after `=` or
as the next argument, and a short name directly, after `=`, or as the next argument.  Short names without
values may be written together.  After `--` every argument is positional.
-/

namespace PathQuery

/-- An option that a program knows. -/
structure Flag where
  short : Char
  long : String
  /-- Whether a value follows. -/
  takesValue : Bool

/-- One argument as it is understood. -/
inductive Argument where
  | positional (text : String)
  /-- An option, by its long name, with its value. -/
  | option (name value : String)
  /-- An option without value, by its long name. -/
  | flag (name : String)
  /-- No known option, or an option without its value, or a value that is not asked for. -/
  | misused
deriving DecidableEq, Repr

namespace Argument

/-- Whether a text is written like an option. -/
def isOption (text : String) : Bool := text.startsWith "-" && text != "-"

/-- What an option with a long name comes to: arguments, or the name whose value comes next. -/
def ofLong (flags : List Flag) (text : List Char) : List Argument × Option String :=
  let name := String.ofList (text.takeWhile (· != '='))
  match flags.find? (·.long == name), text.dropWhile (· != '=') with
  | none, _ => ([misused], none)
  | some f, '=' :: value =>
    ([if f.takesValue then option f.long (String.ofList value) else misused], none)
  | some f, _ => if f.takesValue then ([], some f.long) else ([flag f.long], none)

/-- What short names written together come to. -/
def ofShort (flags : List Flag) : List Char → List Argument × Option String
  | [] => ([], none)
  | c :: rest =>
    match flags.find? (·.short == c) with
    | none => ([misused], none)
    | some f =>
      if f.takesValue then
        match rest with
        | [] => ([], some f.long)
        | '=' :: value => ([option f.long (String.ofList value)], none)
        | value => ([option f.long (String.ofList value)], none)
      else
        let (more, awaited) := ofShort flags rest
        (flag f.long :: more, awaited)

/-- What a text that is written like an option comes to. -/
def ofOption (flags : List Flag) (text : String) : List Argument × Option String :=
  match text.toList with
  | '-' :: '-' :: name => ofLong flags name
  | '-' :: names => ofShort flags names
  | _ => ([misused], none)

/-- The arguments of a command line. -/
def ofTexts (flags : List Flag) : List String → List Argument
  | [] => []
  | text :: rest =>
    if text = "--" then rest.map positional
    else if !isOption text then positional text :: ofTexts flags rest
    else
      match ofOption flags text with
      | (args, none) => args ++ ofTexts flags rest
      | (args, some name) =>
        match rest with
        | [] => args ++ [misused]
        | value :: rest =>
          if isOption value then args ++ [misused]
          else args ++ option name value :: ofTexts flags rest

end Argument

end PathQuery
