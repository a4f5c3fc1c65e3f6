import SlotBuild.Bytes
import SlotBuild.Path
import SlotBuild.Text.Decimal

/-! A file system as a value: entries by the names that lead to them from the root. The root is
always a directory and has no entry of its own. Each file has a content of its own, so there are no
hard links, and no entry has an owner, a mode or a time. -/

namespace SlotBuild

/-- The names from the root down; never `.`, `..` or a link. -/
abbrev Key := List String

inductive Entry where
  | file (content : Bytes)
  | dir
  | link (target : String)
deriving DecidableEq, Repr

structure FileTree where
  entries : List (Key × Entry)
deriving DecidableEq, Repr

inductive OsError where
  | notFound
  | permissionDenied
  | exists
  | busy
  | notDirectory
  | isDirectory
  | invalidArgument
  | nameTooLong
  | notEmpty
  | tooManyLinks
  | nulInPath
  | nulInCommand
  | notText
  | other (code : Nat) (reason : String)
deriving DecidableEq, Repr

namespace OsError

def reason : OsError → String
  | notFound => "No such file or directory"
  | permissionDenied => "Permission denied"
  | busy => "Device or resource busy"
  | .exists => "File exists"
  | notDirectory => "Not a directory"
  | isDirectory => "Is a directory"
  | invalidArgument => "Invalid argument"
  | nameTooLong => "File name too long"
  | notEmpty => "Directory not empty"
  | tooManyLinks => "Too many levels of symbolic links"
  | nulInPath => "file name contained an unexpected NUL byte"
  | nulInCommand => "nul byte found in provided data"
  | notText => "stream did not contain valid UTF-8"
  | other _ reason => reason

def code? : OsError → Option Nat
  | notFound => some 2
  | permissionDenied => some 13
  | busy => some 16
  | .exists => some 17
  | notDirectory => some 20
  | isDirectory => some 21
  | invalidArgument => some 22
  | nameTooLong => some 36
  | notEmpty => some 39
  | tooManyLinks => some 40
  | nulInPath | nulInCommand | notText => none
  | other code _ => some code

def message (e : OsError) : String :=
  match e.code? with
  | some n => s!"{e.reason} (os error {Decimal.text n})"
  | none => e.reason

end OsError

namespace FileTree

def empty : FileTree := ⟨[]⟩

def lookup (t : FileTree) (k : Key) : Option Entry :=
  if k = [] then some .dir else (t.entries.find? fun e => e.1 = k).map (·.2)

def putEntry (k : Key) (e : Entry) : List (Key × Entry) → List (Key × Entry)
  | [] => [(k, e)]
  | x :: r => if x.1 = k then (k, e) :: r else x :: putEntry k e r

def put (t : FileTree) (k : Key) (e : Entry) : FileTree := ⟨putEntry k e t.entries⟩

def erase (t : FileTree) (k : Key) : FileTree := ⟨t.entries.filter fun e => e.1 ≠ k⟩

/-- Whether `k` is `base` or lies below it. -/
def isUnder (base k : Key) : Bool := base.isPrefixOf k

def eraseBelow (t : FileTree) (base : Key) : FileTree :=
  ⟨t.entries.filter fun e => !(isUnder base e.1 && e.1 ≠ base)⟩

def eraseTree (t : FileTree) (base : Key) : FileTree :=
  ⟨t.entries.filter fun e => !(isUnder base e.1)⟩

def rebase (source target k : Key) : Key :=
  if isUnder source k then target ++ k.drop source.length else k

/-- Everything at and below `source` is now at and below `target`. -/
def move (t : FileTree) (source target : Key) : FileTree :=
  ⟨((t.eraseTree target).entries).map fun e => (rebase source target e.1, e.2)⟩

def names (t : FileTree) (k : Key) : List String :=
  ((t.entries.filterMap fun e =>
    match e.1.getLast? with
    | some n => if e.1.dropLast = k then some n else none
    | none => none).mergeSort fun a b => decide (a ≤ b))

theorem lookup_putEntry_self (k : Key) (e : Entry) (es : List (Key × Entry)) :
    (putEntry k e es).find? (fun x => x.1 = k) = some (k, e) := by
  induction es with
  | nil => simp [putEntry]
  | cons x r ih =>
    by_cases h : x.1 = k
    · simp [putEntry, h]
    · simp [putEntry, h, ih]

theorem lookup_putEntry_ne {k j : Key} (h : k ≠ j) (e : Entry) (es : List (Key × Entry)) :
    (putEntry k e es).find? (fun x => x.1 = j) = es.find? (fun x => x.1 = j) := by
  induction es with
  | nil => simp [putEntry, h]
  | cons x r ih =>
    by_cases hx : x.1 = k
    · simp [putEntry, hx, h]
    · by_cases hj : x.1 = j
      · simp [putEntry, hj, Ne.symm h]
      · simp [putEntry, hx, hj, ih]

theorem lookup_put_self (t : FileTree) {k : Key} (hk : k ≠ []) (e : Entry) :
    (t.put k e).lookup k = some e := by
  simp [lookup, put, hk, lookup_putEntry_self]

theorem lookup_put_ne (t : FileTree) {k j : Key} (h : k ≠ j) (e : Entry) :
    (t.put k e).lookup j = t.lookup j := by
  simp [lookup, put, lookup_putEntry_ne h]

end FileTree

end SlotBuild
