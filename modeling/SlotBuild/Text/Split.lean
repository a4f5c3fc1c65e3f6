/-! Cutting text at a separator, and the blanks that trimming removes. -/

namespace SlotBuild

def splitAtChar (sep : Char) : List Char → List (List Char)
  | [] => [[]]
  | c :: r =>
    if c = sep then [] :: splitAtChar sep r
    else match splitAtChar sep r with
      | [] => [[c]]
      | p :: ps => (c :: p) :: ps

def piecesOf (sep : Char) (s : String) : List String :=
  (splitAtChar sep s.toList).map String.ofList

theorem splitAtChar_ne_nil (sep : Char) (s : List Char) : splitAtChar sep s ≠ [] := by
  induction s with
  | nil => simp [splitAtChar]
  | cons c r ih =>
    simp only [splitAtChar]
    split
    · simp
    · split <;> simp

def isBlank (c : Char) : Bool :=
  let n := c.toNat
  (9 ≤ n && n ≤ 13) || n == 32 || n == 0x85 || n == 0xA0 || n == 0x1680
    || (0x2000 ≤ n && n ≤ 0x200A) || n == 0x2028 || n == 0x2029 || n == 0x202F || n == 0x205F
    || n == 0x3000

def trimBlanks (s : String) : String :=
  String.ofList (((s.toList.dropWhile isBlank).reverse.dropWhile isBlank).reverse)

def allBlank (s : String) : Bool := s.toList.all isBlank

end SlotBuild
