/-!
# Files — what is found at paths

Files are what is at each place: a text, bytes that are no text, or a directory.  A path is walked part
by part: an empty part and one point stay where the walk is, two points go up, and a name goes on to what
is there.  There is nothing to go on to from a file.

A directory is made together with those on the way to it.  Making one changes nothing that is there
already, and what was made stays also if the rest cannot be made.
-/

namespace PathQuery

/-- The way to a file or a directory, by names, from the directory that paths count from.  The root of
all paths is the directory of an empty name. -/
abbrev Place := List String

/-- What is at a place. -/
inductive Entry where
  | text (content : String)
  /-- A file whose bytes are no text. -/
  | bytes
  | directory
  /-- What cannot be looked at, and why. -/
  | barred (detail : String)
deriving DecidableEq, Repr

/-- Whether an entry is a file. -/
def Entry.isFile : Entry → Bool
  | text _ => true
  | bytes => true
  | _ => false

/-- What is at each place. -/
structure Files where
  at? : Place → Option Entry

namespace Files

/-! ## Why nothing is found -/

/-- The words of a file that is not there. -/
def notFound : String := "No such file or directory (os error 2)"

/-- The words of a file that is taken for a directory. -/
def notDirectory : String := "Not a directory (os error 20)"

/-- The words of a directory that is taken for a file. -/
def isDirectory : String := "Is a directory (os error 21)"

/-- The words of a directory that cannot be made because a file is there. -/
def fileExists : String := "File exists (os error 17)"

/-- The words of a path or a name in it that is too long. -/
def tooLong : String := "File name too long (os error 36)"

/-- The words of a path with a null character. -/
def hasNull : String := "file name contained an unexpected NUL byte"

/-- The words of a file whose bytes are no text. -/
def notText : String := "stream did not contain valid UTF-8"

/-- The greatest number of bytes of a name. -/
def greatestName : Nat := 255

/-- The greatest number of bytes of a path. -/
def greatestPath : Nat := 4095

/-! ## Paths -/

/-- A path that counts from a directory, unless it is absolute. -/
def resolve (directory path : String) : String :=
  if path.startsWith "/" ∨ directory = "" then path
  else if directory.endsWith "/" then directory ++ path
  else directory ++ "/" ++ path

/-- The parts of a path. -/
def parts (path : String) : List String := path.splitOn "/"

/-- The place that a path counts from. -/
def origin (path : String) : Place := if path.startsWith "/" then [""] else []

/-- Whether a part of a path names what is inside a directory. -/
def isName (part : String) : Bool := part != "" && part != "." && part != ".."

/-- The directory above another. -/
def parent (place : Place) : Place :=
  match place.getLast? with
  | some "" => place
  | some ".." | none => place ++ [".."]
  | some _ => place.dropLast

/-- The place that a part of a path leads to from a directory. -/
def onward (place : Place) (part : String) : Place :=
  if isName part then place ++ [part] else if part = ".." then parent place else place

/-- The place that a path leads to when every part that is gone on from is a directory. -/
def placeOf (path : String) : Place := (parts path).foldl onward (origin path)

/-- The paths to what a path passes through, and the path itself, in their order. -/
def waysTo (path : String) : List String :=
  let names := parts path
  (List.range names.length).map fun i => "/".intercalate (names.take (i + 1))

/-! ## Changes -/

/-- No files at all. -/
def none : Files := ⟨fun _ => .none⟩

/-- Puts something at a place, instead of what is there. -/
def set (files : Files) (place : Place) (entry : Option Entry) : Files :=
  ⟨fun other => if other = place then entry else files.at? other⟩

/-- Puts something at the end of a path. -/
def put (files : Files) (path : String) (entry : Entry) : Files :=
  files.set (placeOf path) (some entry)

/-- Puts a text at the end of a path, which leads through directories. -/
def write (files : Files) (path text : String) : Files :=
  ((waysTo path).dropLast.foldl (fun files way => files.put way .directory) files).put path
    (.text text)

@[simp] theorem at?_set_self (files : Files) (place : Place) (entry : Option Entry) :
    (files.set place entry).at? place = entry := by simp [set]

theorem at?_set_of_ne (files : Files) {place other : Place} (entry : Option Entry)
    (h : other ≠ place) : (files.set place entry).at? other = files.at? other := by simp [set, h]

/-! ## Walks -/

/-- What a part of a path leads to, if there is anything, from a place with some entry. -/
def look (files : Files) (place : Place) (entry : Entry) (part : String) :
    Except String (Place × Option Entry) :=
  match entry with
  | .text _ => .error notDirectory
  | .bytes => .error notDirectory
  | .barred detail => .error detail
  | .directory =>
    let inner := onward place part
    if isName part then
      if part.utf8ByteSize > greatestName then .error tooLong else .ok (inner, files.at? inner)
    else .ok (inner, some .directory)

/-- Goes on along parts of a path, all of which must be there. -/
def follow (files : Files) (place : Place) (entry : Entry) :
    List String → Except String (Place × Entry)
  | [] => .ok (place, entry)
  | part :: rest => do
    match ← files.look place entry part with
    | (inner, some found) => files.follow inner found rest
    | (_, .none) => .error notFound

/-- Goes on along parts of a path and makes the directories that are not there, unless a file is at
the end; after one that was made, a file stands in the way also there. -/
def makeAlong (made : Bool) (place : Place) (entry : Entry) :
    List String → Files → Except String Unit × Files
  | [], files => (if made && entry.isFile then .error fileExists else .ok (), files)
  | part :: rest, files =>
    if made && entry.isFile then (.error fileExists, files)
    else
      match files.look place entry part with
      | .error detail => (.error detail, files)
      | .ok (inner, some found) => makeAlong made inner found rest files
      | .ok (inner, .none) =>
        makeAlong true inner .directory rest (files.set inner (some .directory))

/-- Why a path cannot be walked at all. -/
def checkPath (path : String) : Except String Unit :=
  if path.contains '\x00' then .error hasNull
  else if path.utf8ByteSize > greatestPath then .error tooLong
  else .ok ()

/-- Where a path leads, and what is there. -/
def walk (files : Files) (path : String) : Except String (Place × Entry) := do
  checkPath path
  files.follow (origin path) .directory (parts path)

/-- Makes a directory at the end of a path, unless something is there. -/
def make (files : Files) (path : String) : Except String Unit × Files :=
  match checkPath path with
  | .error detail => (.error detail, files)
  | .ok () => makeAlong false (origin path) .directory (parts path) files

/-- The text of a file.  There is no file at an empty path. -/
def read (files : Files) (path : String) : Except String String :=
  if path = "" then .error notFound
  else
    match files.walk path with
    | .error detail => .error detail
    | .ok (_, .text content) => .ok content
    | .ok (_, .bytes) => .error notText
    | .ok (_, .directory) => .error isDirectory
    | .ok (_, .barred detail) => .error detail

/-- What is looked at is what is there. -/
theorem at?_of_look {files : Files} {place inner : Place} {entry : Entry} {part : String}
    (h : files.look place entry part = .ok (inner, .none)) : files.at? inner = .none := by
  unfold look at h
  split at h
  · exact nomatch h
  · exact nomatch h
  · exact nomatch h
  · dsimp only at h
    split at h
    · split at h
      · exact nomatch h
      · simp only [Except.ok.injEq, Prod.mk.injEq] at h
        exact h.1 ▸ h.2
    · exact nomatch h

/-- Making directories changes nothing that is there. -/
theorem at?_makeAlong {names : List String} {made : Bool} {place other : Place} {entry found : Entry}
    {files : Files} (h : files.at? other = some found) :
    (makeAlong made place entry names files).2.at? other = some found := by
  induction names generalizing made place entry files with
  | nil => exact h
  | cons part rest ih =>
    unfold makeAlong
    split
    · exact h
    · split
      · exact h
      · exact ih h
      · rename_i inner hl
        refine ih ?_
        rw [at?_set_of_ne _ _ fun e => ?_]
        · exact h
        · rw [e, at?_of_look hl] at h
          exact nomatch h

/-- Making a directory changes nothing that is there. -/
theorem at?_make {files : Files} {path : String} {place : Place} {entry : Entry}
    (h : files.at? place = some entry) : (files.make path).2.at? place = some entry := by
  unfold make
  split
  · exact h
  · exact at?_makeAlong h

end Files

end PathQuery
