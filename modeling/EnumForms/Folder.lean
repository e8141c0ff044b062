import EnumForms.Text

/-!
File paths, and a folder with files and folders in it. The plain form of a path has no empty steps
and no steps that stay in place. Steps up are kept, and so are two slashes at the front, but not
three.

Everything in a folder has the steps that lead to it; steps up lead out of the folder, to folders
whose content is not known. A path is followed step by step, so a step up undoes the step before it,
but only if that step leads to a folder.
-/
namespace EnumForms

namespace Path

def split : Text → List Text
  | [] => [[]]
  | c :: s =>
    if c.is '/' then [] :: split s
    else match split s with
      | [] => [[c]]
      | p :: ps => (c :: p) :: ps

def root (path : Text) : Text :=
  match (path.takeWhile (·.is '/')).length with
  | 0 => []
  | 2 => lit "//"
  | _ => lit "/"

def steps (path : Text) : List Text := (split path).filter fun p => p ≠ [] ∧ p ≠ lit "."

/-- The plain form of a path; the empty path is the place itself. -/
def normalize (path : Text) : Text :=
  let t := root path ++ Text.join (lit "/") (steps path)
  if t = [] then lit "." else t

end Path

/-! ## Folders -/

abbrev Steps := List Text

structure Folder where
  folders : List Steps
  files : List (Steps × List UInt8)

inductive WriteError where
  | missing
  | notFolder
  | occupied
  | isFolder
  deriving DecidableEq

namespace Folder

def empty : Folder := ⟨[], []⟩

def up : Text := lit ".."

def hasFile (f : Folder) (p : Steps) : Bool := f.files.any (·.1 = p)

/-- The folder itself and those above it are always there. -/
def hasFolder (f : Folder) (p : Steps) : Bool := p.all (· = up) || f.folders.contains p

def put (p : Steps) (bytes : List UInt8) : List (Steps × List UInt8) → List (Steps × List UInt8)
  | [] => [(p, bytes)]
  | (q, b) :: rest => if q = p then (q, bytes) :: rest else (q, b) :: put p bytes rest

def next (p : Steps) (step : Text) : Steps :=
  -- a step up undoes the one before it, unless that leads up too
  if step = up ∧ !p.all (· = up) then p.dropLast else p ++ [step]

def walk (f : Folder) (p : Steps) : Steps → Except WriteError Steps
  | [] => .ok p
  | step :: rest =>
    let q := next p step
    if f.hasFile q then .error .notFolder
    else if f.hasFolder q then f.walk q rest
    else .error .missing

def locate (f : Folder) (p : Steps) : Except WriteError Steps :=
  match p.getLast? with
  | none => .ok []
  | some step => (f.walk [] p.dropLast).map (next · step)

def makeOne (f : Folder) (p : Steps) : Except WriteError Folder := do
  let q ← f.locate p
  if f.hasFile q then .error .occupied
  else if f.hasFolder q then .ok f
  else .ok { f with folders := f.folders ++ [q] }

/-- Makes a folder, and first the missing ones on the way. The steps are given from the last to the
first. -/
def makeAll (f : Folder) : Steps → Except WriteError Folder
  | [] => .ok f
  | step :: before =>
    match f.makeOne (step :: before).reverse with
    | .error .missing => do
      let f ← f.makeAll before
      f.makeOne (step :: before).reverse
    | r => r

def makeWay (f : Folder) (p : Steps) : Except WriteError Folder := f.makeAll p.dropLast.reverse

def write (f : Folder) (p : Steps) (bytes : List UInt8) : Except WriteError Folder := do
  let q ← f.locate p
  if f.hasFolder q then .error .isFolder
  else .ok { f with files := put q bytes f.files }

end Folder

end EnumForms
