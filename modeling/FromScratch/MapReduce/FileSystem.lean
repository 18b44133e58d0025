import Mathlib.Data.List.Sort
import FromScratch.Lib.Program
import FromScratch.MapReduce.Protocol
import FromScratch.MapReduce.Record

/-! The shared directory tree and the requests an attempt makes of it. Each
request is one atomic step; attempts interleave between requests. A published
file is never written to again, so opening it fixes what reading it delivers,
also after it is removed or replaced. -/

namespace FromScratch.MapReduce
open Lib (FiniteMap Program)

/-- The files the layout gives a name, by task, spill number and partition. -/
inductive Name where
  | part (mapTask partition : Nat)
  | spill (mapTask number partition : Nat)
  | out (partition : Nat)
  deriving DecidableEq, Repr

inductive Directory where
  | map (mapTask : Nat)
  | out
  deriving DecidableEq, Repr

/-- `CreateTemp` draws a suffix no other call ever gets: here the process that
asked and a serial number. -/
inductive Path where
  | input (name : GoString)
  | file (name : Name)
  | temp (target : Name) (creator serial : Nat)
  deriving DecidableEq, Repr

def Name.dir : Name → Directory
  | .part mapTask _ | .spill mapTask _ _ => .map mapTask
  | .out _ => .out

/-- `filepath.Base`. -/
def Name.base : Name → String
  | .part _ partition | .out partition => "part-" ++ toString partition
  | .spill _ number partition => "spill-" ++ (toString number ++ "-" ++ toString partition)

namespace Path

def dir : Path → Option Directory
  | .input _ => none
  | .file name | .temp name _ _ => some name.dir

/-- The name of a directory entry. -/
def base : Path → String
  | .input _ => ""
  | .file name => name.base
  | .temp name creator serial => name.base ++ (".tmp-" ++ toString creator ++ "-" ++ toString serial)

/-- `len(name) >= 6 && name[:6] == "spill-"`. -/
def isSpill (path : Path) : Bool := path.base.toList.take 6 == "spill-".toList

end Path

inductive Request where
  | mkdirAll (dir : Directory)
  | readDir (dir : Directory)
  | openFile (path : Path)
  | createTemp (target : Name)
  | write (temp : Path) (bytes : GoString)
  | close (temp : Path)
  | rename (temp : Path) (target : Name)
  | remove (path : Path)
  /-- `Counters.Inc`: not the file system, but a call on shared state all the same. -/
  | count (name : String) (delta : Int64)

@[reducible] def Answer : Request → Type
  | .readDir _ => List Path
  | .openFile _ => Stream
  | .createTemp _ => Path
  | _ => Unit

abbrev Reply (request : Request) : Type := Except Err (Answer request)

abbrev Attempt (α : Type) : Type := Program Request Reply Err α

def call (request : Request) : Attempt (Answer request) := .ask request .done

/-- What the program itself never reads: for each process the directory entries
it still counts on (listed to be removed, created and not yet renamed, renamed
and not yet opened), and what it last renamed to each name. -/
structure Notes where
  needs : List Path := []
  wrote : FiniteMap Name GoString := ∅

structure World where
  files : FiniteMap Path GoString
  serial : Nat := 0
  counters : Nat → Counters := fun _ => ∅
  notes : Nat → Notes := fun _ => {}

namespace World

def note (w : World) (me : Nat) (change : Notes → Notes) : World :=
  { w with notes := Function.update w.notes me (change (w.notes me)) }

/-- `os.ReadDir`: the entries in the order of their names. -/
def listing (w : World) (dir : Directory) : List Path :=
  (w.files.keys.filter fun path => path.dir == some dir).insertionSort fun a b => a.base ≤ b.base

def append (w : World) (path : Path) (bytes : GoString) : World :=
  match w.files.lookup path with
  | some content => { w with files := w.files.insert path (content ++ bytes) }
  | none => w

/-- The file system's answer when it reports no fault of its own. -/
def perform (w : World) (me : Nat) : (request : Request) → Reply request × World
  | .mkdirAll _ => (.ok (), w)
  | .readDir dir =>
    (.ok (w.listing dir),
     w.note me fun notes => { notes with needs := (w.listing dir).filter Path.isSpill ++ notes.needs })
  | .openFile path =>
    match w.files.lookup path with
    | none => (.error .notExist, w)
    | some bytes =>
      (.ok { bytes := bytes }, w.note me fun notes => { notes with needs := notes.needs.filter (· ≠ path) })
  | .createTemp target =>
    let temp := Path.temp target me w.serial
    (.ok temp,
     { w with files := w.files.insert temp [], serial := w.serial + 1 }.note me fun notes =>
       { notes with needs := temp :: notes.needs })
  -- A temporary file that was removed meanwhile still takes the bytes.
  | .write temp bytes => (.ok (), w.append temp bytes)
  | .close _ => (.ok (), w)
  | .rename temp target =>
    match w.files.lookup temp with
    | none => (.error .notExist, w)
    | some bytes =>
      (.ok (),
       { w with files := (w.files.erase temp).insert (.file target) bytes }.note me fun notes =>
         { needs := .file target :: notes.needs.filter (· ≠ temp), wrote := notes.wrote.insert target bytes })
  | .remove path =>
    match w.files.lookup path with
    | none => (.error .notExist, w)
    | some _ =>
      (.ok (),
       { w with files := w.files.erase path }.note me fun notes =>
         { notes with needs := notes.needs.filter (· ≠ path) })
  | .count name delta =>
    (.ok (), { w with counters := Function.update w.counters me ((w.counters me).inc name delta) })

/-- What a faulty file system may do instead: refuse any request, or take only
part of a write. -/
inductive Fault (w : World) : (request : Request) → Reply request → World → Prop
  | refused {request : Request} (real : ∀ name delta, request ≠ .count name delta) : Fault w request (.error .io) w
  | short {temp : Path} {bytes written : GoString} (part : written <+: bytes) :
      Fault w (.write temp bytes) (.error .io) (w.append temp written)

/-- A request served as it should be. -/
def Performs (me : Nat) (w : World) (request : Request) (reply : Reply request) (w' : World) : Prop :=
  w.perform me request = (reply, w')

/-- A request served, well or not. -/
def Responds (me : Nat) (w : World) (request : Request) (reply : Reply request) (w' : World) : Prop :=
  w.Performs me request reply w' ∨ Fault w request reply w'

/-- The reading of an opened file breaks off after some of its bytes. -/
inductive Breaks (me : Nat) (w : World) : (request : Request) → Reply request → World → Prop
  | reading {path : Path} {bytes front : GoString} {e : Err} (held : w.files.lookup path = some bytes)
      (start : front <+: bytes) :
      Breaks me w (.openFile path) (.ok { bytes := front, readErr := some e }) (w.perform me (.openFile path)).2

/-- A request served, well or not, and a file that is opened read to its end or not. -/
def Delivers (me : Nat) (w : World) (request : Request) (reply : Reply request) (w' : World) : Prop :=
  w.Responds me request reply w' ∨ w.Breaks me request reply w'

/-- What is read of an input are lines of it: the reading does not break off inside one. -/
def LineWise (w : World) : (request : Request) → Reply request → Prop
  | .openFile (.input name), .ok stream => ∀ bytes, w.files.lookup (.input name) = some bytes →
      (Scanner.scan stream).1 <+: (Scanner.scan { bytes := bytes }).1
  | _, _ => True

def KeepsLines (me : Nat) (w : World) (request : Request) (reply : Reply request) (w' : World) : Prop :=
  w.Delivers me request reply w' ∧ w.LineWise request reply

end World
end FromScratch.MapReduce
