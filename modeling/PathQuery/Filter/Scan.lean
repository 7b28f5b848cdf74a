import PathQuery.Filter.Token
import PathQuery.Filter.Caret
import PathQuery.Text.Blank

/-!
# Filter/Scan — cutting a filter text into tokens

`cut` takes one token off the front of a text and says which characters it takes.  What it can take is
told once, by `CutOff`; `cut_append` states that nothing is lost.  The rules go by position and not by
spelling: a space starts a word that runs to the next space and must be an operator or a connective, a
quote starts a literal, and any other character starts a bare word.
-/

namespace PathQuery.Filter

/-! ## Scan errors -/

/-- Why a text has no token at some place. -/
inductive ScanFault where
  /-- A quote was opened and never closed. -/
  | unterminatedString
  /-- A word after a space is neither an operator nor a connective. -/
  | unknownWord
  /-- No rule applies. -/
  | unrecognized
deriving DecidableEq, Repr

/-- The words of a scan fault. -/
def ScanFault.describe : ScanFault → String
  | unterminatedString => "unterminated quoted string"
  | unknownWord => "unknown operator"
  | unrecognized => "unrecognized input"

/-- A place in a source where scanning stops. -/
structure ScanError where
  fault : ScanFault
  span : Span
  /-- The column of the start of the span, from one. -/
  column : Nat
  /-- The word that was being scanned. -/
  word : String
deriving DecidableEq, Repr

namespace ScanError

/-- The error at a span of a source. -/
def ofSpan (source : List Char) (fault : ScanFault) (span : Span) (word : String) : ScanError :=
  ⟨fault, span, span.column source, word⟩

/-- The message of a scan error. -/
def message (e : ScanError) : String := s!"{e.fault.describe} at column {e.column}: [{e.word}]"

/-- The message with the place underlined. -/
def render (e : ScanError) (source : List Char) : String := underline source e.span e.message

end ScanError

/-! ## One token -/

/-- A slash that was written as `%2F` or `%2f` is a slash again. -/
def decodeSlashes : List Char → List Char
  | [] => []
  | '%' :: '2' :: 'F' :: rest => '/' :: decodeSlashes rest
  | '%' :: '2' :: 'f' :: rest => '/' :: decodeSlashes rest
  | c :: rest => c :: decodeSlashes rest

/-- A property path with its slashes decoded. -/
def decodePath (path : String) : String := String.ofList (decodeSlashes path.toList)

/-- A literal with every quote doubled. -/
def doubleQuotes : List Char → List Char
  | [] => []
  | c :: rest => if c = '\'' then '\'' :: '\'' :: doubleQuotes rest else c :: doubleQuotes rest

/-- The literal after an opening quote, up to a quote that no quote follows, and the text after it;
a doubled quote stands for one. -/
def cutLiteral : List Char → Option (List Char × List Char)
  | [] => none
  | '\'' :: '\'' :: rest => (cutLiteral rest).map fun (text, after) => ('\'' :: text, after)
  | c :: rest =>
    if c = '\'' then some ([], rest)
    else (cutLiteral rest).map fun (text, after) => (c :: text, after)

/-- Whether a bare word can go on with a character. -/
def isBare (c : Char) : Bool := c != '(' && c != ')' && c != ' ' && c != ','

/-- The operator or connective that a word between spaces is. -/
def keyword? (word : String) : Option Token :=
  ((Comparison.ofWord? word).map .operator).or ((Connective.ofWord? word).map .binary)

/-- The token that a bare word is. -/
def bareToken (word : List Char) : Token :=
  let text := String.ofList word
  match Command.ofWord? text with
  | some c => .command c
  | none =>
    if text = "true" then .bool true
    else if text = "false" then .bool false
    else .word (decodePath text)

/-- What stands at the front of a text: a token, the characters it takes and the text after them, or
the characters of a fault. -/
inductive Cut where
  | token (token : Token) (taken rest : List Char)
  | fault (fault : ScanFault) (taken : List Char)

/-- Takes one token off the text `c :: rest`. -/
def cut (c : Char) (rest : List Char) : Cut :=
  if c = '(' then .token .openBracket [c] rest
  else if c = ')' then .token .closeBracket [c] rest
  else if c = ',' then .token .comma [c] rest
  else if c = ' ' then
    match rest.dropWhile (· != ' ') with
    | [] => .fault .unknownWord (c :: rest)
    | space :: after =>
      let taken := c :: (rest.takeWhile (· != ' ') ++ [space])
      match keyword? (String.ofList (Text.trim taken)) with
      | some token => .token token taken after
      | none => .fault .unknownWord taken
  else if c = '\'' then
    match cutLiteral rest with
    | some (text, after) =>
      .token (.quoted (String.ofList text)) (c :: (doubleQuotes text ++ ['\''])) after
    | none => .fault .unterminatedString (c :: rest)
  else
    let taken := c :: rest.takeWhile isBare
    .token (bareToken (Text.trim taken)) taken (rest.dropWhile isBare)

/-- A literal with its quotes doubled, a closing quote and the rest make up the text. -/
theorem cutLiteral_append {cs text after : List Char} (h : cutLiteral cs = some (text, after)) :
    doubleQuotes text ++ '\'' :: after = cs := by
  fun_induction cutLiteral cs generalizing text after with
  | case1 => simp at h
  | case2 rest ih =>
    obtain ⟨⟨t, a⟩, ht, he⟩ := Option.map_eq_some_iff.1 h
    simp only [Prod.mk.injEq] at he
    obtain ⟨rfl, rfl⟩ := he
    simp [doubleQuotes, ih ht]
  | case3 rest _ =>
    simp only [Option.some.injEq, Prod.mk.injEq] at h
    obtain ⟨rfl, rfl⟩ := h
    simp [doubleQuotes]
  | case4 c rest _ hc ih =>
    obtain ⟨⟨t, a⟩, ht, he⟩ := Option.map_eq_some_iff.1 h
    simp only [Prod.mk.injEq] at he
    obtain ⟨rfl, rfl⟩ := he
    simp [doubleQuotes, hc, ih ht]

/-- What stands at the front of a text, by its first character. -/
inductive CutOff : Char → List Char → Cut → Prop where
  | mark {c : Char} {token : Token} (rest : List Char)
      (h : (c, token) ∈ [('(', Token.openBracket), (')', .closeBracket), (',', .comma)]) :
      CutOff c rest (.token token [c] rest)
  | keyword {word : List Char} {token : Token} (after : List Char) (hw : ' ' ∉ word)
      (h : keyword? (String.ofList (Text.trim (' ' :: (word ++ [' '])))) = some token) :
      CutOff ' ' (word ++ ' ' :: after) (.token token (' ' :: (word ++ [' '])) after)
  | unknown {word : List Char} (after : List Char) (hw : ' ' ∉ word)
      (h : keyword? (String.ofList (Text.trim (' ' :: (word ++ [' '])))) = none) :
      CutOff ' ' (word ++ ' ' :: after) (.fault .unknownWord (' ' :: (word ++ [' '])))
  | unspaced {rest : List Char} (h : ' ' ∉ rest) : CutOff ' ' rest (.fault .unknownWord (' ' :: rest))
  | quoted {text after : List Char} (h : cutLiteral (doubleQuotes text ++ '\'' :: after) = some (text, after)) :
      CutOff '\'' (doubleQuotes text ++ '\'' :: after)
        (.token (.quoted (String.ofList text)) ('\'' :: (doubleQuotes text ++ ['\''])) after)
  | unterminated {rest : List Char} (h : cutLiteral rest = none) :
      CutOff '\'' rest (.fault .unterminatedString ('\'' :: rest))
  | bare {c : Char} (rest : List Char) (h : isBare c = true) (hq : c ≠ '\'') :
      CutOff c rest (.token (bareToken (Text.trim (c :: rest.takeWhile isBare))) (c :: rest.takeWhile isBare)
        (rest.dropWhile isBare))

/-- A cut takes one of these off. -/
theorem cutOff_cut (c : Char) (rest : List Char) : CutOff c rest (cut c rest) := by
  unfold cut
  split
  · exact .mark rest (by simp [*])
  split
  · exact .mark rest (by simp [*])
  split
  · exact .mark rest (by simp [*])
  split
  · rename_i hspace
    subst hspace
    have hrest := List.takeWhile_append_dropWhile (p := (· != ' ')) (l := rest)
    have hword : ' ' ∉ rest.takeWhile (· != ' ') := fun hm =>
      absurd (List.all_eq_true.mp List.all_takeWhile _ hm) (by decide)
    split
    · rename_i hd
      rw [hd, List.append_nil] at hrest
      exact .unspaced (hrest ▸ hword)
    · rename_i space after hd
      have hhead := List.head?_dropWhile_not (· != ' ') rest
      rw [hd] at hrest hhead
      obtain rfl : space = ' ' := by simpa using hhead
      dsimp only
      split
      · rename_i hk
        simpa only [hrest] using CutOff.keyword after hword hk
      · rename_i hk
        simpa only [hrest] using CutOff.unknown after hword hk
  split
  · rename_i hquote
    subst hquote
    split
    · rename_i text after hl
      have hrest := cutLiteral_append hl
      subst hrest
      exact .quoted hl
    · rename_i hl
      exact .unterminated hl
  · rename_i hopen hclose hcomma hspace hquote
    exact .bare rest (by simp [isBare, *]) hquote

/-- The characters of a token and the text after it make up the text. -/
theorem cut_append {c : Char} {rest : List Char} {token : Token} {taken after : List Char}
    (h : cut c rest = .token token taken after) : taken ++ after = c :: rest := by
  have hcut := h ▸ cutOff_cut c rest
  cases hcut with
  | mark => rfl
  | keyword => simp
  | quoted => simp
  | bare => simp [List.takeWhile_append_dropWhile]

/-- A token takes at least one character. -/
theorem cut_taken_ne_nil {c : Char} {rest : List Char} {token : Token} {taken after : List Char}
    (h : cut c rest = .token token taken after) : taken ≠ [] := by
  have hcut := h ▸ cutOff_cut c rest
  cases hcut <;> exact List.cons_ne_nil _ _

/-- The text after a token is shorter. -/
theorem length_rest_lt {c : Char} {rest : List Char} {token : Token} {taken after : List Char}
    (h : cut c rest = .token token taken after) : after.length < (c :: rest).length := by
  have hl := congrArg List.length (cut_append h)
  have hp := List.length_pos_iff.2 (cut_taken_ne_nil h)
  simp only [List.length_append] at hl
  omega

/-! ## All tokens -/

/-- The tokens of a text that starts at a byte offset of the source. -/
def scanFrom (source : List Char) (offset : Nat) : List Char → Except ScanError (List Located)
  | [] => .ok []
  | c :: rest =>
    match _h : cut c rest with
    | .token token taken after =>
      let stop := offset + Text.byteSize taken
      (scanFrom source stop after).map (⟨token, ⟨offset, stop⟩⟩ :: ·)
    | .fault fault taken =>
      let word := String.ofList (Text.trim taken)
      .error (.ofSpan source fault ⟨offset, offset + Text.byteSize taken⟩ word)
termination_by cs => cs.length
decreasing_by exact length_rest_lt _h

/-- The tokens of a filter text; white space around it is no part of any token. -/
def scan (source : String) : Except ScanError (List Located) :=
  let cs := source.toList
  scanFrom cs (Text.byteSize (Text.leadingBlanks (Text.trimEnd cs))) (Text.trim cs)

end PathQuery.Filter
