import SlotBuild.Utility

/-! Replacing, deleting and squeezing octets. Sets are written with ranges, classes, escapes and,
on the right, repetition. -/

namespace SlotBuild.Utility.Octets

inductive Element where
  | octet (b : UInt8)
  | range (first last : UInt8)
  | family (name : String)
  /-- As often as the other set is long. -/
  | repeated (b : UInt8)
deriving DecidableEq, Repr

inductive Refusal where
  | misuse (message : String)
  | unfit (message : String)
deriving DecidableEq, Repr

def isOctalDigit (b : UInt8) : Bool := 48 ≤ b && b ≤ 55

def octalValue (ds : Bytes) : Nat := ds.foldl (fun n d => 8 * n + (d.toNat - 48)) 0

def escape (b : UInt8) : UInt8 :=
  match Char.ofNat b.toNat with
  | 'a' => 7
  | 'b' => 8
  | 'f' => 12
  | 'n' => 10
  | 'r' => 13
  | 't' => 9
  | 'v' => 11
  | _ => b

/-- One octet, perhaps written with a backslash; the flag says so. -/
def octet? : Bytes → Option (UInt8 × Bool × Bytes)
  | [] => none
  | 92 :: b :: r =>
    let digits := ((b :: r).takeWhile isOctalDigit).take 3
    let digits := if octalValue digits < 256 then digits else digits.take 2
    if digits = [] then some (escape b, true, r)
    else some (UInt8.ofNat (octalValue digits), true, (b :: r).drop digits.length)
  | b :: r => some (b, false, r)

def family? : Bytes → Option (String × Bytes)
  | 91 :: 58 :: r =>
    let name := r.takeWhile (· ≠ 58)
    match r.drop name.length with
    | 58 :: 93 :: rest => some (Bytes.toStringLossy name, rest)
    | _ => none
  | _ => none

def repeated? : Bytes → Option (UInt8 × Bytes)
  | 91 :: b :: 42 :: 93 :: r => some (b, r)
  | _ => none

def elements : Nat → Bytes → List Element
  | 0, _ => []
  | fuel + 1, bs =>
    match family? bs, repeated? bs with
    | some (name, r), _ => .family name :: elements fuel r
    | none, some (b, r) => .repeated b :: elements fuel r
    | none, none =>
      match octet? bs with
      | none => []
      | some (a, _, 45 :: r) =>
        match octet? r with
        | some (b, _, rest) => .range a b :: elements fuel rest
        | none => [.octet a, .octet 45]
      | some (a, _, r) => .octet a :: elements fuel r

def between (a b : UInt8) : Bytes :=
  ((List.range 256).map UInt8.ofNat).filter fun x => a ≤ x && x ≤ b

def ascii (p : Char → Bool) : Bytes :=
  (((List.range 128).filter fun n => p (Char.ofNat n))).map UInt8.ofNat

def isSpace (c : Char) : Bool := c == ' ' || ('\t' ≤ c && c ≤ '\r')

def isPunctuation (c : Char) : Bool := '!' ≤ c && c ≤ '~' && !c.isAlphanum

def family (name : String) : Option Bytes :=
  match name with
  | "alnum" => some (ascii Char.isAlphanum)
  | "alpha" => some (ascii Char.isAlpha)
  | "blank" => some [9, 32]
  | "cntrl" => some (ascii fun c => c < ' ' || c == '\x7f')
  | "digit" => some (ascii Char.isDigit)
  | "graph" => some (ascii fun c => '!' ≤ c && c ≤ '~')
  | "lower" => some (ascii Char.isLower)
  | "print" => some (ascii isPrintable)
  | "punct" => some (ascii isPunctuation)
  | "space" => some (ascii isSpace)
  | "upper" => some (ascii Char.isUpper)
  | "xdigit" => some (ascii fun c => c.isDigit || ('A' ≤ c && c ≤ 'F') || ('a' ≤ c && c ≤ 'f'))
  | _ => none

def written (b : UInt8) : String :=
  let c := Char.ofNat b.toNat
  if isPrintable c && c != '\\' then String.singleton c else String.ofList (octal b)

def expand (size : Nat) : List Element → Except Refusal Bytes
  | [] => .ok []
  | .octet b :: r => (expand size r).map (b :: ·)
  | .range a b :: r =>
    if b < a then
      .error (.unfit <|
        ("range-endpoints of " ++ apostrophes (written a ++ "-" ++ written b) ++
          " are in reverse collating sequence order"))
    else (expand size r).map (between a b ++ ·)
  | .family name :: r =>
    match family name with
    | some bs => (expand size r).map (bs ++ ·)
    | none => .error (.unfit s!"invalid character class {apostrophes name}")
  | .repeated b :: r =>
    (expand size r).map fun rest => List.replicate (size - rest.length) b ++ rest

def isRepeated : Element → Bool
  | .repeated _ => true
  | _ => false

def setOf (s : String) : List Element :=
  let bs := Bytes.ofString s
  elements (bs.length + 1) bs

def complement (bs : Bytes) : Bytes := (between 0 255).filter fun b => !bs.contains b

/-- The octet at the place of `b`; the last one stands for all that follow. The last place of `b`
counts. -/
def image (left right : Bytes) (b : UInt8) : UInt8 :=
  match (left.zipIdx.reverse.find? fun x => x.1 == b) with
  | some (_, i) => (right[i]?).getD (right.getLast?.getD b)
  | none => b

def squeeze (set : Bytes) : Option UInt8 → Bytes → Bytes
  | _, [] => []
  | previous, b :: r =>
    if previous = some b && set.contains b then squeeze set previous r
    else b :: squeeze set (some b) r

def firstSet (o : Options) (a : String) : Except Refusal Bytes := do
  if (setOf a).any isRepeated then
    throw (.unfit "the [c*] repeat construct may not appear in string1")
  let bs ← expand 0 (setOf a)
  return if o.has 'c' || o.has 'C' then complement bs else bs

def lacking (a why : String) : Refusal := .misuse s!"missing operand after {quoted a}\n{why}"

def transform (o : Options) : Except Refusal (Bytes → Bytes) := do
  let deletes := o.has 'd'
  let squeezes := o.has 's'
  match o.operands with
  | [] => throw (.misuse "missing operand")
  | [a] =>
    if deletes && squeezes then
      throw (lacking a "Two strings must be given when both deleting and squeezing repeats.")
    if !deletes && !squeezes then throw (lacking a "Two strings must be given when translating.")
    let left ← firstSet o a
    return if deletes then fun bs => bs.filter fun b => !left.contains b else squeeze left none
  | [a, b] =>
    if deletes && !squeezes then
      throw (.misuse (s!"extra operand {quoted b}\n" ++
        "Only one string may be given when deleting without squeezing repeats."))
    let left ← firstSet o a
    let right ← expand left.length (setOf b)
    if deletes then return fun bs => squeeze right none (bs.filter fun b => !left.contains b)
    let left := if o.has 't' then left.take right.length else left
    if right = [] && left ≠ [] then throw (.unfit "when not truncating set1, string2 must be non-empty")
    return fun bs =>
      let done := bs.map (image left right)
      if squeezes then squeeze right none done else done
  | _ :: _ :: c :: _ => throw (.misuse s!"extra operand {quoted c}")

end Octets

def tr (v : Invocation) : Progress :=
  match readOptions false ['c', 'C', 'd', 's', 't'] v.arguments with
  | .error message => v.start.misuse 1 message
  | .ok o =>
    match Octets.transform o with
    | .ok f => (v.start.printBytes (f v.start.rest)).drained
    | .error (.misuse message) => v.start.misuse 1 message
    | .error (.unfit message) => v.start.complain 1 message

end SlotBuild.Utility
