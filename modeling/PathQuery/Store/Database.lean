import PathQuery.Failure
import PathQuery.Files

/-!
# Store/Database — the directory of a database

A database has a directory for itself, with a directory for large values and two files in it: its
settings, and its data.  What is not there is made when the database is opened, and stays also if opening
fails after all.  No two open databases share a directory.
-/

namespace PathQuery.Database

/-- A change of files, which may fail after some of it was done. -/
abbrev Change := ExceptT DatabaseFault (StateM Files)

/-- The directory for large values. -/
def valuesName : String := "blobs"

/-- The file of the settings. -/
def settingsName : String := "conf"

/-- The file that settings are written to before they take their place. -/
def draftName : String := "conf.tmp"

/-- The file of the data. -/
def dataName : String := "db"

/-- The greatest number of bytes of a settings file that counts as not written. -/
def greatestUnwritten : Nat := 8

/-- What files give, as a change that leaves them as they are. -/
def ask (answer : Files → Except String α) : Change α :=
  fun files => ((answer files).mapError .inaccessible, files)

/-- Makes the directories of a database. -/
def makeDirectories (path : String) : Change Unit :=
  fun files =>
    let (made, files) := files.make (Files.resolve path valuesName)
    (made.mapError .inaccessible, files)

/-- Writes settings into a directory. -/
def writeSettings (directory : Place) : Change Unit := do
  let draft := directory ++ [draftName]
  if (← get).at? draft = some .directory then throw (.inaccessible Files.isDirectory)
  modify fun files => (files.set draft none).set (directory ++ [settingsName]) (some .bytes)

/-- Makes sure that a directory has settings. -/
def settle (directory : Place) : Change Unit := do
  match (← get).at? (directory ++ [settingsName]) with
  | none => writeSettings directory
  | some .bytes => return ()
  | some (.text content) =>
    if content.utf8ByteSize ≤ greatestUnwritten then writeSettings directory else throw .corrupted
  | some .directory => throw (.inaccessible Files.isDirectory)
  | some (.barred detail) => throw (.inaccessible detail)

/-- Makes sure that a directory has a data file, which is empty at first. -/
def makeData (directory : Place) : Change Unit := do
  let data := directory ++ [dataName]
  match (← get).at? data with
  | none => modify (·.set data (some (.text "")))
  | some .directory => throw (.inaccessible Files.isDirectory)
  | some (.barred detail) => throw (.inaccessible detail)
  | some _ => return ()

/-- The files once the data of the database in a directory are written, which is done when it is closed
and while another is opened. -/
def written (files : Files) (directory : Place) : Files :=
  files.set (directory ++ [dataName]) (some .bytes)

/-- Opens the database at a path beside those that are open in some directories. -/
def openAt (held : List Place) (path : String) : Change Place := do
  makeDirectories path
  let (directory, _) ← ask (·.walk path)
  settle directory
  makeData directory
  if directory ∈ held then throw (.locked (Files.resolve path dataName))
  else do
    modify (held.foldl written)
    return directory

/-- No database is opened in a directory that is held. -/
theorem not_mem_of_openAt {held : List Place} {path : String} {files : Files} {directory : Place}
    (h : ((openAt held path).run files).1 = .ok directory) : directory ∉ held := by
  have bind_ok {α β : Type} {x : Change α} {f : α → Change β} {s : Files} {b : β}
      (hx : ((x >>= f).run s).1 = .ok b) : ∃ a t, ((f a).run t).1 = .ok b := by
    change (ExceptT.bindCont f (x s).1 (x s).2).1 = .ok b at hx
    cases hs : (x s).1 with
    | error e => rw [hs] at hx; exact nomatch hx
    | ok a => rw [hs] at hx; exact ⟨a, _, hx⟩
  obtain ⟨_, _, h⟩ := bind_ok h
  obtain ⟨found, _, h⟩ := bind_ok h
  obtain ⟨_, _, h⟩ := bind_ok h
  obtain ⟨_, _, h⟩ := bind_ok h
  split at h
  · exact nomatch h
  · rename_i free
    obtain ⟨_, _, h⟩ := bind_ok h
    cases h
    exact free

end PathQuery.Database
