import SlotBuild.Digest.Sha256

/-! Digests as hexadecimal text. A list of texts is hashed with each text preceded by its length,
so that no two lists are hashed as the same bytes. -/

namespace SlotBuild.Digest

def ofBytes (b : Bytes) : String := (Sha256.digest b).toHex

def ofText (s : String) : String := ofBytes (Bytes.ofString s)

def framed (b : Bytes) : Bytes := Bytes.le64 b.length ++ b

def encodeParts (parts : List String) : Bytes := parts.flatMap fun p => framed (Bytes.ofString p)

def ofParts (parts : List String) : String := ofBytes (encodeParts parts)

def sortedParts (parts : List String) : List String := parts.mergeSort fun a b => decide (a ≤ b)

/-- A digest that is the same for every order of `parts`. -/
def ofUnordered (parts : List String) : String := ofParts (sortedParts parts)

end SlotBuild.Digest
