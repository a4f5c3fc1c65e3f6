/-! Scripts of the command language: words with their quoting, redirections and commands. -/

namespace SlotBuild.Shell

/-- A part of a word. What is quoted is neither split into fields nor matched against names. -/
inductive Piece where
  | text (cs : List Char) (quoted : Bool)
  | variable (name : String) (quoted : Bool)
  /-- The value of a variable, or another text if it has none; `orEmpty` if it is empty, too. -/
  | fallback (name : String) (orEmpty : Bool) (other : List Char) (quoted : Bool)
  | output (script : List Char) (quoted : Bool)
deriving DecidableEq, Repr

abbrev Word := List Piece

inductive Direction where
  | read
  | replace
  | append
  | duplicate
deriving DecidableEq, Repr

structure Redirection where
  descriptor : Nat
  direction : Direction
  target : Word
deriving DecidableEq, Repr

inductive Script where
  | skip
  | simple (line : Nat) (assignments : List (String × Word)) (words : List Word)
      (redirections : List Redirection)
  | pipe (left right : Script)
  | both (left right : Script)
  | either (left right : Script)
  | sequence (left right : Script)
  | negate (body : Script)
  | group (body : Script) (redirections : List Redirection)
  | subshell (body : Script) (redirections : List Redirection)
  | branch (condition yes no : Script) (redirections : List Redirection)
  | loop (onFailure : Bool) (condition body : Script) (redirections : List Redirection)
  | each (name : String) (words : List Word) (body : Script) (redirections : List Redirection)
  /-- Text that is no command; what comes before it is carried out. -/
  | broken (line : Nat) (message : String)
deriving Repr

end SlotBuild.Shell
