import PathQuery.Arguments
import PathQuery.Config
import PathQuery.Number.Count

/-!
# Gateway/Settings — how a gateway is started

The arguments give the address to listen on, the file of the configuration, and a batch size that takes
the place of the configured one.
-/

namespace PathQuery.Gateway

/-- How a gateway is started. -/
structure Settings where
  listen : String
  /-- The file of the configuration; without one, the configuration of an empty text is used. -/
  configFile : Option String
  batchSize : Option Nat
deriving DecidableEq, Repr

namespace Settings

/-- The settings without arguments. -/
def default : Settings := ⟨"0.0.0.0:8080", none, none⟩

/-- The options of a gateway. -/
def flags : List Flag :=
  [⟨'l', "listen", true⟩, ⟨'c', "config", true⟩, ⟨'b', "batch-size", true⟩, ⟨'h', "help", false⟩]

/-- What the arguments give. -/
structure Given where
  listen : Option String
  configFile : Option String
  batchSize : Option Nat

/-- Takes one argument; nothing may be given twice. -/
def Given.accept (g : Given) : Argument → Option Given
  | .option "listen" text =>
    if g.listen.isSome then none else some { g with listen := some text }
  | .option "config" path =>
    if g.configFile.isSome ∨ path = "" then none else some { g with configFile := some path }
  | .option "batch-size" text => do
    let count ← Numeral.count? text
    if g.batchSize.isSome then none else some { g with batchSize := some count }
  | _ => none

/-- The settings that arguments give, unless they are misused. -/
def ofArguments? (arguments : List String) : Option Settings := do
  let g ← (Argument.ofTexts flags arguments).foldlM Given.accept ⟨none, none, none⟩
  return ⟨g.listen.getD default.listen, g.configFile, g.batchSize⟩

/-- The configuration of a gateway. -/
def config (s : Settings) (files : Files) : Except Failure Config := do
  let config ← match s.configFile with
    | some path => Config.ofFile? files path
    | none => .ok .default
  return { config with batchSize := s.batchSize.getD config.batchSize }

end Settings

end PathQuery.Gateway
