import SlotBuild.Utility

/-! Printing words: `echo` and `printf`, as commands of the shell and as programs of their own. The
two differ in their escapes and complaints. -/

namespace SlotBuild.Utility

inductive Dialect where
  | shell
  | program
deriving DecidableEq, Repr

def isOctal (c : Char) : Bool := '0' ≤ c && c ≤ '7'

def isHex (c : Char) : Bool := (Bytes.hexValue? c).isSome

/-- The number whose digits in a base are given, the most significant first. -/
def numberIn (base : Nat) (cs : List Char) : Nat :=
  cs.foldl (fun n c => base * n + (Bytes.hexValue? c).getD 0) 0

structure Escape where
  octets : Option Bytes
  rest : List Char

def simpleEscape? : Char → Option UInt8
  | '\\' => some 92
  | 'a' => some 7
  | 'b' => some 8
  | 'f' => some 12
  | 'n' => some 10
  | 'r' => some 13
  | 't' => some 9
  | 'v' => some 11
  | _ => none

/-- Up to `limit` octal digits. -/
def octalEscape (limit : Nat) (cs : List Char) : Escape :=
  let digits := (cs.takeWhile isOctal).take limit
  ⟨some [UInt8.ofNat (numberIn 8 digits)], cs.drop digits.length⟩

def formatEscape (d : Dialect) (cs : List Char) : Escape :=
  match cs with
  | [] => ⟨some [92], []⟩
  | c :: r =>
    match simpleEscape? c with
    | some b => ⟨some [b], r⟩
    | none =>
      if isOctal c then octalEscape 3 cs
      else if d = .program && c == 'e' then ⟨some [27], r⟩
      else if d = .program && c == '"' then ⟨some [34], r⟩
      else if d = .program && c == 'c' then ⟨none, []⟩
      else if d = .program && c == 'x' && r.head?.any isHex then
        let digits := (r.takeWhile isHex).take 2
        ⟨some [UInt8.ofNat (numberIn 16 digits)], r.drop digits.length⟩
      else ⟨some (92 :: Bytes.ofString (String.singleton c)), r⟩

/-- What follows a backslash in an argument: octal numbers start with a zero, and `c` ends all. -/
def wordEscape (d : Dialect) (cs : List Char) : Escape :=
  match cs with
  | [] => ⟨some [92], []⟩
  | '0' :: r => octalEscape 3 r
  | 'c' :: _ => ⟨none, []⟩
  | c :: r =>
    if d = .shell && isOctal c then ⟨some (92 :: Bytes.ofString (String.singleton c)), r⟩
    else formatEscape d (c :: r)

/-- A word with its escapes; the flag says that output ends here. -/
def unescaped (d : Dialect) : Nat → List Char → Bytes × Bool
  | 0, _ => ([], false)
  | _, [] => ([], false)
  | fuel + 1, '\\' :: r =>
    match wordEscape d r with
    | ⟨none, _⟩ => ([], true)
    | ⟨some b, r⟩ =>
      let (bs, stopped) := unescaped d fuel r
      (b ++ bs, stopped)
  | fuel + 1, c :: r =>
    let (bs, stopped) := unescaped d fuel r
    (Bytes.ofString (String.singleton c) ++ bs, stopped)

def echoWords (escapes newline : Bool) (d : Dialect) (words : List String) : Bytes :=
  let text := " ".intercalate words
  if escapes then
    let (bs, stopped) := unescaped d (text.length + 1) text.toList
    if stopped || !newline then bs else bs ++ [10]
  else Bytes.ofString text ++ if newline then [10] else []

def isEchoOption (w : String) : Bool :=
  match w.toList with
  | '-' :: c :: cs => (c :: cs).all fun x => x == 'n' || x == 'e' || x == 'E'
  | _ => false

/-- The shell's `echo` knows one option and always reads escapes. -/
def echo (d : Dialect) (v : Invocation) : Progress :=
  match d with
  | .shell =>
    match v.arguments with
    | "-n" :: words => v.start.printBytes (echoWords true false d words)
    | words => v.start.printBytes (echoWords true true d words)
  | .program =>
    let options := v.arguments.takeWhile isEchoOption
    let letters := (options.map String.toList).flatten
    let escapes := (letters.filter fun c => c == 'e' || c == 'E').getLast? == some 'e'
    v.start.printBytes (echoWords escapes (!letters.contains 'n') d (v.arguments.drop options.length))

structure Spec where
  flags : List Char
  width : Nat
  precision : Option Nat
deriving DecidableEq, Repr

def Spec.has (s : Spec) (c : Char) : Bool := s.flags.contains c

def pad (s : Spec) (b : Bytes) : Bytes :=
  let missing := List.replicate (s.width - b.length) 32
  if s.has '-' then b ++ missing else missing ++ b

def padNumber (s : Spec) (mark digits : List Char) : Bytes :=
  let digits := match s.precision with
    | some n => List.replicate (n - digits.length) '0' ++ digits
    | none =>
      if s.has '0' && !s.has '-' then
        List.replicate (s.width - mark.length - digits.length) '0' ++ digits
      else digits
  pad s (Bytes.ofString (String.ofList (mark ++ digits)))

def unsignedOf (n : Int) : Nat := (n % (UInt64.size : Int)).toNat

def numberText (s : Spec) (conversion : Char) (n : Int) : Bytes :=
  let u := unsignedOf n
  match conversion with
  | 'u' => padNumber s [] (Decimal.numeral u)
  | 'o' => padNumber s (if s.has '#' then ['0'] else []) (Nat.toDigits 8 u)
  | 'x' => padNumber s (if s.has '#' && u != 0 then ['0', 'x'] else []) (Nat.toDigits 16 u)
  | 'X' =>
    padNumber s (if s.has '#' && u != 0 then ['0', 'X'] else [])
      ((Nat.toDigits 16 u).map Char.toUpper)
  | _ =>
    let sign := if n < 0 then ['-'] else if s.has '+' then ['+'] else if s.has ' ' then [' '] else []
    padNumber s sign (Decimal.numeral n.natAbs)

/-- The number that a text starts with and what is left of the text. A quote in front stands for
the code of the next character. -/
def leadingNumber (text : String) : Int × List Char :=
  match text.toList with
  | '\'' :: r => ((((Bytes.ofString (String.ofList r)).head?.getD 0).toNat : Int), [])
  | '"' :: r => ((((Bytes.ofString (String.ofList r)).head?.getD 0).toNat : Int), [])
  | cs =>
    let cs := cs.dropWhile fun c => c == ' ' || ('\t' ≤ c && c ≤ '\r')
    let (negative, digits) := match cs with
      | '-' :: r => (true, r)
      | '+' :: r => (false, r)
      | r => (false, r)
    let (n, rest) := match digits with
      | '0' :: x :: h :: r =>
        if (x == 'x' || x == 'X') && isHex h then
          (numberIn 16 ((h :: r).takeWhile isHex), (h :: r).dropWhile isHex)
        else (numberIn 8 (digits.takeWhile isOctal), digits.dropWhile isOctal)
      | '0' :: _ => (numberIn 8 (digits.takeWhile isOctal), digits.dropWhile isOctal)
      | _ => (Decimal.value (digits.takeWhile Decimal.isDigit), digits.dropWhile Decimal.isDigit)
    if digits.head?.any Decimal.isDigit then (if negative then -(n : Int) else n, rest)
    else (0, text.toList)

structure Printing where
  output : Bytes
  arguments : List String
  complaints : List String
  status : Nat
  stopped : Bool

namespace Printing

def put (p : Printing) (b : Bytes) : Printing := { p with output := p.output ++ b }

def next (p : Printing) : String × Printing :=
  (p.arguments.head?.getD "", { p with arguments := p.arguments.drop 1 })

def complain (p : Printing) (status : Nat) (message : String) : Printing :=
  { p with complaints := p.complaints ++ [message], status := max p.status status }

def number (d : Dialect) (p : Printing) : Int × Printing :=
  let (text, p) := p.next
  let (n, rest) := leadingNumber text
  let shown := if d = .shell then text else quoted text
  if rest = [] then (n, p)
  else if rest = text.toList then
    (0, p.complain 1 (if d = .shell then s!"{shown}: expected numeric value"
      else s!"{shown}: expected a numeric value"))
  else (n, p.complain 1 (if d = .shell then s!"{shown}: not completely converted"
      else s!"{shown}: value not completely converted"))

/-- A width or precision: digits, or a star for the next argument. -/
def measure (d : Dialect) (p : Printing) (cs : List Char) : Option Int × List Char × Printing :=
  match cs with
  | '*' :: r =>
    let (n, p) := p.number d
    (some n, r, p)
  | _ =>
    let digits := cs.takeWhile Decimal.isDigit
    (if digits = [] then none else some (Decimal.value digits : Nat), cs.drop digits.length, p)

def refuse (d : Dialect) (p : Printing) (written : List Char) : Printing :=
  let p := match d with
    | .shell => p.complain 2 s!"{String.ofList written}: invalid directive"
    | .program => p.complain 1 s!"{String.ofList written}: invalid conversion specification"
  { p with stopped := true }

/-- One conversion, which starts behind its percent sign. -/
def convert (d : Dialect) (p : Printing) (cs : List Char) : List Char × Printing :=
  let flags := cs.takeWhile fun c => "#-+ 0".toList.contains c
  let (width, r, p) := p.measure d (cs.drop flags.length)
  let (precision, r, p) := match r with
    | '.' :: r =>
      let (n, r, p) := p.measure d r
      (some (n.getD 0).toNat, r, p)
    | r => (none, r, p)
  let width := width.getD 0
  let spec : Spec := ⟨if width < 0 then '-' :: flags else flags, width.natAbs, precision⟩
  match r with
  | 's' :: r =>
    let (word, p) := p.next
    let b := Bytes.ofString word
    (r, p.put (pad spec (match precision with
      | some n => b.take n
      | none => b)))
  | 'c' :: r =>
    let (word, p) := p.next
    (r, p.put (pad spec ((Bytes.ofString word).take 1)))
  | 'b' :: r =>
    let (word, p) := p.next
    let (b, stopped) := unescaped d (word.length + 1) word.toList
    (r, { p.put (pad spec b) with stopped := stopped })
  | c :: r =>
    if "diuoxX".toList.contains c then
      let (n, p) := p.number d
      (r, p.put (numberText spec c n))
    else
      (r, p.refuse d ('%' :: cs.take (cs.length - r.length)))
  | [] => ([], p.refuse d ('%' :: cs))

def pass (d : Dialect) : Nat → List Char → Printing → Printing
  | 0, _, p => p
  | fuel + 1, cs, p =>
    if p.stopped then p
    else match cs with
      | [] => p
      | '\\' :: r =>
        match formatEscape d r with
        | ⟨none, _⟩ => { p with stopped := true }
        | ⟨some b, r⟩ => pass d fuel r (p.put b)
      | '%' :: '%' :: r => pass d fuel r (p.put [37])
      | '%' :: r =>
        let (rest, p) := p.convert d r
        pass d fuel rest p
      | c :: r => pass d fuel r (p.put (Bytes.ofString (String.singleton c)))

/-- Goes through the format until no argument is left, at least once. A format that takes none is
gone through only once. -/
def passes (d : Dialect) (format : List Char) : Nat → Printing → Printing
  | 0, p => p
  | fuel + 1, p =>
    let q := p.pass d (format.length + 1) format
    if q.stopped || q.arguments = [] || q.arguments.length = p.arguments.length then q
    else passes d format fuel q

end Printing

def formatAndWords? (d : Dialect) : List String → Except String (Option (String × List String))
  | [] => .ok none
  | "--" :: [] => .ok none
  | "--" :: f :: words => .ok (some (f, words))
  | f :: words =>
    match d, f.toList with
    | .shell, '-' :: c :: _ => .error s!"Illegal option -{String.singleton c}"
    | _, _ => .ok (some (f, words))

def printf (d : Dialect) (v : Invocation) : Progress :=
  match formatAndWords? d v.arguments with
  | .error message => v.start.complain 2 message
  | .ok none =>
    match d with
    | .shell => v.start.complain 2 "usage: printf format [arg ...]"
    | .program => v.start.misuse 1 "missing operand"
  | .ok (some (format, words)) =>
    let p := Printing.passes d format.toList (words.length + 1) ⟨[], words, [], 0, false⟩
    let p := match d, p.stopped, p.arguments with
      | .program, false, w :: _ =>
        p.complain 0 s!"warning: ignoring excess arguments, starting with {quoted w}"
      | _, _, _ => p
    (p.complaints.foldl (fun q m => q.complain p.status m) v.start).printBytes p.output

end SlotBuild.Utility
