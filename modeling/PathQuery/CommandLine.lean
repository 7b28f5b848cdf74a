import PathQuery.Arguments
import PathQuery.Engine
import PathQuery.Number.Count

/-!
# CommandLine — one query from the arguments of a program

The arguments name a resource and a batch size, and may go on with a filter and selected paths; options
name the file of the configuration and the combination.  Each row is printed as a value on a line of its
own, and a line about the whole follows.  A failure is printed apart, after the rows that came before it.
-/

namespace PathQuery.CommandLine

/-! ## Arguments -/

/-- What is asked for on a command line. -/
structure Command where
  entitySet : String
  batchSize : Nat
  filter : Option String
  /-- The list of selected paths as it is written. -/
  select : Option String
  configFile : Option String
  combination : Combination
deriving DecidableEq, Repr

/-- Why a command line asks for no query. -/
inductive Interruption where
  | help
  | version
  /-- The arguments are misused. -/
  | usage
deriving DecidableEq, Repr

/-- The options. -/
def flags : List Flag :=
  [⟨'c', "config", true⟩, ⟨'m', "mode", true⟩, ⟨'h', "help", false⟩, ⟨'V', "version", false⟩]

/-- What the arguments read so far give. -/
structure Given where
  entitySet : Option String
  batchSize : Option Nat
  filter : Option String
  select : Option String
  configFile : Option String
  combination : Option Combination

namespace Given

/-- Takes the next positional argument. -/
def acceptNext (g : Given) (text : String) : Except Interruption Given :=
  if g.entitySet.isNone then .ok { g with entitySet := some text }
  else if g.batchSize.isNone then
    match Numeral.count? text with
    | some count => .ok { g with batchSize := some count }
    | none => .error .usage
  else if g.filter.isNone then .ok { g with filter := some text }
  else if g.select.isNone then .ok { g with select := some text }
  else .error .usage

/-- Takes one argument; no option may be given twice. -/
def accept (g : Given) : Argument → Except Interruption Given
  | .positional text => g.acceptNext text
  | .option "config" path =>
    if g.configFile.isSome ∨ path = "" then .error .usage
    else .ok { g with configFile := some path }
  | .option "mode" text =>
    match Combination.ofText? text with
    | .ok combination =>
      if g.combination.isSome then .error .usage
      else .ok { g with combination := some combination }
    | .error _ => .error .usage
  | .flag "help" => .error .help
  | .flag "version" => .error .version
  | _ => .error .usage

/-- The command, if what it needs is given. -/
def command (g : Given) : Except Interruption Command :=
  match g.entitySet, g.batchSize with
  | some entitySet, some batchSize =>
    .ok ⟨entitySet, batchSize, g.filter, g.select, g.configFile, g.combination.getD .expand⟩
  | _, _ => .error .usage

end Given

/-- The command that some arguments give. -/
def Command.ofArguments? (arguments : List String) : Except Interruption Command := do
  let g ← (Argument.ofTexts flags arguments).foldlM Given.accept ⟨none, none, none, none, none, none⟩
  g.command

/-! ## Answers -/

namespace Command

/-- The query of a command. -/
def query (c : Command) : Query :=
  ⟨c.entitySet, c.filter, (c.select.map Filter.selectList).getD [], some c.batchSize, c.combination⟩

/-- The configuration of a command. -/
def config (c : Command) (files : Files) : Except Failure Config :=
  match c.configFile with
  | some path => Config.ofFile? files path
  | none => .ok .default

/-- The batches that answer a command. -/
def run (c : Command) (files : Files) : Except Failure Run := do
  ((← Engine.ofConfig? (← c.config files) files).run c.query).1

/-- The line about the whole: what was asked for, the seconds that it took, and the number of rows. -/
def summary (c : Command) (seconds : String) (total : Nat) : String :=
  s!"Batch size: {c.batchSize} Target: {c.entitySet} Time: {seconds} Sec. Total found: {total}"

/-- The words of a failure; a fault in a filter is shown in its place in the filter. -/
def complaint (c : Command) (f : Failure) : String :=
  match f, c.filter with
  | .filter e, some filter => e.render (Text.trimmed filter)
  | f, _ => s!"Error: {f.message}\n"

end Command

/-- What a program prints and the code that it ends with. -/
structure Report where
  lines : List String
  complaint : String
  code : Nat
deriving DecidableEq, Repr

/-- The line of a row. -/
def rowLine (row : Entity) : String := (Value.object row.toDocument).print

/-- What is printed for the batches that answer a command. -/
def Report.ofRun (c : Command) (seconds : String) (result : Except Failure Run) : Report :=
  match result with
  | .error f => ⟨[], c.complaint f, 1⟩
  | .ok run =>
    let lines := run.rows.map rowLine
    match run.ending with
    | .failed f => ⟨lines, c.complaint f, 1⟩
    | _ => ⟨lines ++ [c.summary seconds run.rows.length], "", 0⟩

/-- The lines of the help. -/
def helpLines : List String := [
  "Run a filtered navigation query and print the results",
  "",
  "Usage: navgraph [OPTIONS] <ENTITY_SET> <BATCH_SIZE> [FILTER] [SELECT]",
  "",
  "Arguments:",
  "  <ENTITY_SET>  Entity set (default resource name), e.g. Locations",
  "  <BATCH_SIZE>  Entities pulled per batch",
  "  [FILTER]      Filter, e.g. \"(LocationID gt 13000) and (LookupCountys/LookupNations/Nation eq 'Wales')\"",
  "  [SELECT]      Comma-separated property paths to keep",
  "",
  "Options:",
  "  -c, --config <CONFIG>  Engine configuration file (JSON) [env: NAVGRAPH_CONFIG=]",
  "  -m, --mode <MODE>      Combination mode: expand or projection [default: expand]",
  "  -h, --help             Print help",
  "  -V, --version          Print version"]

/-- What is printed when no query is asked for. -/
def Report.ofInterruption : Interruption → Report
  | .help => ⟨helpLines, "", 0⟩
  | .version => ⟨["navgraph 0.1.0"], "", 0⟩
  | .usage => ⟨[], "error: the arguments are not understood, try --help\n", 2⟩

end PathQuery.CommandLine
