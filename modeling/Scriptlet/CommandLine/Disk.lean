/-!
# Files

Files are read and written under paths.  A place may have several paths, by way of links or around through other
directories, so what is written under one path may be read under another one.
-/

namespace Scriptlet.CommandLine

/-- What is found at a place by someone who wants to read. -/
inductive Entry where
  /-- A file with its bytes. -/
  | file (bytes : List UInt8)
  /-- A directory. -/
  | directory
  /-- Nothing. -/
  | absent
  /-- Something that cannot be opened, or nothing, because no file can have such a name. -/
  | unusable

/-- Why a file cannot be opened. -/
inductive Barrier where
  /-- A directory stands in its place. -/
  | directory
  /-- No file can have such a name, or the file is out of reach. -/
  | unusable

/-- The files as the command line finds them. -/
structure Disk where
  /-- The place that a path leads to. -/
  place : String → String
  /-- What is found at a place. -/
  entry : String → Entry
  /-- What keeps one from writing at a place, if anything does. -/
  barrier? : String → Option Barrier

namespace Disk

/-- What a path leads to. -/
def look (disk : Disk) (path : String) : Entry :=
  disk.entry (disk.place path)

/-- The files after a file has been written under a path. -/
def write (disk : Disk) (path : String) (bytes : List UInt8) : Disk :=
  { disk with entry := fun place => if place = disk.place path then .file bytes else disk.entry place }

/-- Opens a file for writing.  It is empty then, under every path that leads to it. -/
def openToWrite (disk : Disk) (path : String) : Except Barrier Disk :=
  match disk.barrier? (disk.place path) with
  | some barrier => .error barrier
  | none => .ok (disk.write path [])

/-- Files without links, where each path leads to a place of its own. -/
def ofEntries (entry : String → Entry) : Disk where
  place := id
  entry := entry
  barrier? path :=
    match entry path with
    | .directory => some .directory
    | .unusable => some .unusable
    | .file _ | .absent => none

instance : Coe (String → Entry) Disk :=
  ⟨ofEntries⟩

variable {disk : Disk} {path other : String} {bytes : List UInt8}

/-- Writing does not move any path to another place. -/
@[simp] theorem place_write (disk : Disk) (path other : String) (bytes : List UInt8) :
    (disk.write path bytes).place other = disk.place other := rfl

/-- Writing puts nothing in the way of any place. -/
@[simp] theorem barrier?_write (disk : Disk) (path place : String) (bytes : List UInt8) :
    (disk.write path bytes).barrier? place = disk.barrier? place := rfl

/-- What was written is read under every path that leads there. -/
theorem look_write_of_eq (h : disk.place other = disk.place path) :
    (disk.write path bytes).look other = .file bytes :=
  if_pos h

/-- Under all other paths everything is as it was. -/
theorem look_write_of_ne (h : disk.place other ≠ disk.place path) :
    (disk.write path bytes).look other = disk.look other :=
  if_neg h

end Disk

end Scriptlet.CommandLine
