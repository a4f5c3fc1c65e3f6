import SlotBuild.Toml.Number

/-! Quoted text. There are four forms: basic text with escapes and literal text without, each on one
line or, between triple quotes, on several. The readers take the text after the opening quotes and
give what it denotes and what follows the closing quotes. -/

namespace SlotBuild.Toml

/-- A character that stands for itself: a tab or anything but a control character. -/
def isPlain (c : Char) : Bool := c == '\t' || (0x20 ≤ c.toNat && c.toNat != 0x7F)

def isSpace (c : Char) : Bool := c == ' ' || c == '\t'

def escaped? : Char → Option Char
  | 'b' => some '\x08'
  | 't' => some '\t'
  | 'n' => some '\n'
  | 'f' => some '\x0C'
  | 'r' => some '\r'
  | '"' => some '"'
  | '\\' => some '\\'
  | _ => none

def codePoint? (ds : List Char) : Option Char :=
  let n := valueInBase 16 ds
  if ds.all isHexDigit ∧ n.isValidChar then some (Char.ofNat n) else none

abbrev Read := Option (List Char × List Char)

def Read.cons (c : Char) (x : Read) : Read := x.map fun p => (c :: p.1, p.2)

def basicText? : List Char → Read
  | [] => none
  | '"' :: r => some ([], r)
  | '\\' :: 'u' :: a :: b :: c :: d :: r =>
    (codePoint? [a, b, c, d]).bind fun x => Read.cons x (basicText? r)
  | '\\' :: 'U' :: a :: b :: c :: d :: e :: f :: g :: h :: r =>
    (codePoint? [a, b, c, d, e, f, g, h]).bind fun x => Read.cons x (basicText? r)
  | '\\' :: c :: r => (escaped? c).bind fun x => Read.cons x (basicText? r)
  | c :: r => if c ≠ '\\' ∧ isPlain c then Read.cons c (basicText? r) else none

def literalText? : List Char → Read
  | [] => none
  | '\'' :: r => some ([], r)
  | c :: r => if isPlain c then Read.cons c (literalText? r) else none

/-- Whether only blanks stand before the end of the line. -/
def lineIsOver (cs : List Char) : Bool :=
  match cs.dropWhile isSpace with
  | '\n' :: _ => true
  | '\r' :: '\n' :: _ => true
  | _ => false

/-- Basic text on several lines. While `skipping`, blanks and line ends are left out; a backslash at
the end of a line starts that. Up to two quotes may stand before the closing three. -/
def basicLines? (skipping : Bool) : List Char → Read
  | [] => none
  | '"' :: '"' :: '"' :: '"' :: '"' :: r => some (['"', '"'], r)
  | '"' :: '"' :: '"' :: '"' :: r => some (['"'], r)
  | '"' :: '"' :: '"' :: r => some ([], r)
  | '\r' :: '\n' :: r =>
    if skipping then basicLines? true r else Read.cons '\n' (basicLines? false r)
  | '\\' :: 'u' :: a :: b :: c :: d :: r =>
    (codePoint? [a, b, c, d]).bind fun x => Read.cons x (basicLines? false r)
  | '\\' :: 'U' :: a :: b :: c :: d :: e :: f :: g :: h :: r =>
    (codePoint? [a, b, c, d, e, f, g, h]).bind fun x => Read.cons x (basicLines? false r)
  | '\\' :: c :: r =>
    if lineIsOver (c :: r) then basicLines? true (c :: r)
    else (escaped? c).bind fun x => Read.cons x (basicLines? false r)
  | c :: r =>
    if skipping ∧ (isSpace c ∨ c = '\n') then basicLines? true r
    else if c ≠ '\\' ∧ (isPlain c ∨ c = '\n') then Read.cons c (basicLines? false r)
    else none

def literalLines? : List Char → Read
  | [] => none
  | '\'' :: '\'' :: '\'' :: '\'' :: '\'' :: r => some (['\'', '\''], r)
  | '\'' :: '\'' :: '\'' :: '\'' :: r => some (['\''], r)
  | '\'' :: '\'' :: '\'' :: r => some ([], r)
  | '\r' :: '\n' :: r => Read.cons '\n' (literalLines? r)
  | c :: r => if isPlain c ∨ c = '\n' then Read.cons c (literalLines? r) else none

/-- A line end right after opening quotes does not count. -/
def dropLineEnd : List Char → List Char
  | '\n' :: r => r
  | '\r' :: '\n' :: r => r
  | cs => cs

def quoted? : List Char → Read
  | '"' :: '"' :: '"' :: r => basicLines? false (dropLineEnd r)
  | '"' :: r => basicText? r
  | '\'' :: '\'' :: '\'' :: r => literalLines? (dropLineEnd r)
  | '\'' :: r => literalText? r
  | _ => none

inductive QuoteForm where
  | basic
  | literal
  | basicLines
  | literalLines
deriving DecidableEq, Repr

def longestRun (q : Char) : Nat → Nat → List Char → Nat
  | _, best, [] => best
  | run, best, c :: r =>
    if c = q then longestRun q (run + 1) (max best (run + 1)) r else longestRun q 0 best r

/-- A control character that only an escape can express. -/
def needsEscape (c : Char) : Bool := (c.toNat < 0x20 || c.toNat == 0x7F) && c != '\t' && c != '\n'

/-- The first form that needs no escapes; text that has none is basic, on several lines if it
holds a line end. -/
def quoteForm (cs : List Char) : QuoteForm :=
  let control := cs.any needsEscape
  let backslash := cs.contains '\\'
  let newline := cs.contains '\n'
  let doubles := longestRun '"' 0 0 cs
  let singles := longestRun '\'' 0 0 cs
  if !control && !backslash && doubles == 0 && !newline then .basic
  else if !control && singles == 0 && !newline then .literal
  else if !control && !backslash && doubles ≤ 2 then .basicLines
  else if !control && singles ≤ 2 then .literalLines
  else if newline then .basicLines
  else .basic

def hexDigits (n : Nat) : List Char :=
  [n / 4096, n / 256, n / 16, n].map fun d => (Nat.digitChar (d % 16)).toUpper

def writeChar (lines : Bool) (c : Char) : List Char :=
  if c = '\\' then ['\\', '\\']
  else if c = '\t' then ['\\', 't']
  else if c = '\n' then if lines then ['\n'] else ['\\', 'n']
  else if c = '\x08' then ['\\', 'b']
  else if c = '\x0C' then ['\\', 'f']
  else if c = '\r' then ['\\', 'r']
  else if needsEscape c then '\\' :: 'u' :: hexDigits c.toNat
  else [c]

/-- On several lines the third of three quotes in a row is escaped, on one line every quote. -/
def writeBasic (lines : Bool) (run : Nat) : List Char → List Char
  | [] => []
  | c :: r =>
    if c = '"' then
      if lines && run < 2 then '"' :: writeBasic lines (run + 1) r
      else '\\' :: '"' :: writeBasic lines 0 r
    else writeChar lines c ++ writeBasic lines 0 r

/-- The line end that opening triple quotes swallow. -/
def leadingLineEnd (cs : List Char) : List Char := if cs.contains '\n' then ['\n'] else []

def writeQuoted (form : QuoteForm) (cs : List Char) : List Char :=
  match form with
  | .basic => '"' :: writeBasic false 0 cs ++ ['"']
  | .literal => '\'' :: cs ++ ['\'']
  | .basicLines => ['"', '"', '"'] ++ leadingLineEnd cs ++ writeBasic true 0 cs ++ ['"', '"', '"']
  | .literalLines => ['\'', '\'', '\''] ++ leadingLineEnd cs ++ cs ++ ['\'', '\'', '\'']

def quote (s : String) : List Char := writeQuoted (quoteForm s.toList) s.toList

end SlotBuild.Toml
