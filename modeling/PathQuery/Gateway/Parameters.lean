import PathQuery.Number.Count
import PathQuery.Query
import PathQuery.Text.Percent

/-!
# Gateway/Parameters — the query that the address of a request asks for

An address is a path of one part, the resource, and a form after a question mark; a scheme and a host
may stand before the path.  The form may give a filter, selected paths, a combination and a batch size,
each at most once; other fields are ignored.
-/

namespace PathQuery.Gateway

/-- What the form of an address gives. -/
structure Parameters where
  filter : Option String
  select : Option String
  combination : Option String
  batchSize : Option Nat
deriving DecidableEq, Repr

namespace Parameters

/-- The only value of a name among the fields of a form, if there is one; two values are refused. -/
def only (fields : List (String × String)) (name : String) : Option (Option String) :=
  match fields.filter (·.1 == name) with
  | [] => some none
  | [field] => some (some field.2)
  | _ => none

/-- The parameters in a form, unless one is given twice or the batch size is no count. -/
def ofForm? (form : String) : Option Parameters := do
  let fields := Text.formFields form
  let batchSize ← match ← only fields "$batchsize" with
    | none => some none
    | some text => (Numeral.count? text).map some
  return ⟨← only fields "$filter", ← only fields "$select", ← only fields "$mode", batchSize⟩

/-- The query for a resource. -/
def query (p : Parameters) (resource : String) : Except Failure Query := do
  let combination ← match p.combination with
    | none => .ok .expand
    | some text => Combination.ofText? text
  return ⟨resource, p.filter, (p.select.map Filter.selectList).getD [], p.batchSize, combination⟩

end Parameters

/-- An address without its fragment: the path and the form. -/
structure Address where
  path : String
  form : String
deriving DecidableEq, Repr

namespace Address

/-- Whether a character may stand in the name of a scheme. -/
def isSchemeChar (c : Char) : Bool := c.isAlphanum || c == '+' || c == '-' || c == '.'

/-- What follows a scheme and a host, the root if there is no path; a text without a scheme is left
alone. -/
def afterHost (cs : List Char) : List Char :=
  match cs.dropWhile isSchemeChar with
  | ':' :: '/' :: '/' :: rest =>
    match rest.dropWhile fun c => c != '/' && c != '?' with
    | '/' :: path => '/' :: path
    | rest => '/' :: rest
  | _ => cs

/-- The address that a text denotes. -/
def ofText (text : String) : Address :=
  let whole := afterHost (text.toList.takeWhile (· != '#'))
  ⟨String.ofList (whole.takeWhile (· != '?')),
    String.ofList ((whole.dropWhile (· != '?')).drop 1)⟩

/-- The only part of the path, as it is written. -/
def part? (a : Address) : Option String :=
  match a.path.splitOn "/" with
  | ["", part] => if part = "" then none else some part
  | _ => none

end Address

end PathQuery.Gateway
