import Catalog.Json.Basic

/-!
# Access bitstrings

Who may see a document is stored as a fixed number of bits. A principal stands at the index that a
hash of its name selects, and the last bit is reserved for everyone. Two principals may share an
index, so the answer to "is this one listed" errs to the side of yes. The bits are packed into
words of sixty-four, least significant first. The hash is a parameter throughout.
-/

namespace Catalog

/-- Why a bitstring cannot be made. -/
inductive BitstringError where
  | tooSmall (size : Nat)
  | lengthMismatch (expected actual : Nat)
  | invalidDigit (position : Nat) (found : Char)
  deriving DecidableEq, Repr

namespace BitstringError

/-- The wording of an error. -/
def message : BitstringError → String
  | .tooSmall size => "Bitstring size must be at least 2, got " ++ Nat.repr size
  | .lengthMismatch expected actual =>
    "Bitstring length mismatch: expected " ++ Nat.repr expected ++ ", got " ++ Nat.repr actual
  | .invalidDigit position found =>
    "Invalid bitstring digit '" ++ String.singleton found ++ "' at position " ++ Nat.repr position

end BitstringError

/-- A number of bits, packed into words. -/
structure Bitstring where
  size : Nat
  words : List (BitVec 64)
  deriving DecidableEq, Repr

/-- The index of a principal among so many bits, which is never the last one. -/
def principalIndex (hash : String → UInt64) (principal : String) (size : Nat) : Nat :=
  (hash principal).toNat % max (size - 1) 1

namespace Bitstring

/-- One bit for a principal and the one for everyone. -/
def minSize : Nat := 2

/-- All bits clear. -/
def new (size : Nat) : Except BitstringError Bitstring :=
  if size < minSize then .error (.tooSmall size)
  else .ok ⟨size, List.replicate ((size + 63) / 64) 0⟩

/-- The bit at an index; there are no bits behind the last word. -/
def bit (b : Bitstring) (i : Nat) : Bool :=
  match b.words[i / 64]? with
  | some w => w.getLsbD (i % 64)
  | none => false

/-- Set or clear the bit at an index. -/
def setBit (b : Bitstring) (i : Nat) (value : Bool) : Bitstring :=
  let mask := BitVec.twoPow 64 (i % 64)
  { b with words := b.words.modify (i / 64) fun w => if value then w ||| mask else w &&& ~~~mask }

/-- Setting or clearing one bit leaves all others as they are. -/
theorem bit_setBit (b : Bitstring) (i j : Nat) (value : Bool) (h : i / 64 < b.words.length) :
    (b.setBit i value).bit j = if j = i then value else b.bit j := by
  unfold setBit bit
  simp only [List.getElem?_modify]
  by_cases hw : i / 64 = j / 64
  · have hj : j / 64 < b.words.length := hw ▸ h
    have hlt : j % 64 < 64 := Nat.mod_lt _ (by decide)
    simp only [hw, if_true, List.getElem?_eq_getElem hj, Option.map_eq_map, Option.map_some]
    by_cases he : j = i
    · subst he
      cases value <;> simp [hlt]
    · have hm : ¬ j % 64 = i % 64 := by omega
      cases value <;> simp [he, hm, hlt]
  · have he : j ≠ i := by rintro rfl; exact hw rfl
    cases b.words[j / 64]? <;> simp [hw, he]

@[simp] theorem size_setBit (b : Bitstring) (i : Nat) (value : Bool) :
    (b.setBit i value).size = b.size := rfl

@[simp] theorem length_words_setBit (b : Bitstring) (i : Nat) (value : Bool) :
    (b.setBit i value).words.length = b.words.length := by
  simp [setBit]

/-- The index of the bit for everyone. -/
def publicIndex (b : Bitstring) : Nat := b.size - 1

/-- Everyone may see the document. -/
def isPublic (b : Bitstring) : Bool := b.bit b.publicIndex

/-- Let everyone see the document or not. -/
def setPublic (b : Bitstring) (value : Bool) : Bitstring := b.setBit b.publicIndex value

/-- The bits of all words in order. -/
def storedBits (b : Bitstring) : List Bool :=
  b.words.flatMap fun w => (List.range 64).map w.getLsbD

/-- The number of bits that are set. -/
def countOnes (b : Bitstring) : Nat := b.storedBits.count true

/-- The bits as digits. -/
def toString (b : Bitstring) : String :=
  String.ofList ((List.range b.size).map fun i => if b.bit i then '1' else '0')

/-- Set the bits that the digits ask for, from a position on. -/
def readDigits (b : Bitstring) : Nat → List Char → Except BitstringError Bitstring
  | _, [] => .ok b
  | i, c :: rest =>
    if c = '0' then readDigits b (i + 1) rest
    else if c = '1' then readDigits (b.setBit i true) (i + 1) rest
    else .error (.invalidDigit i c)

/-- Read digits; their number is the size. -/
def ofString (s : String) : Except BitstringError Bitstring := do
  (← new s.toList.length).readDigits 0 s.toList

/-- Read digits whose number is known. -/
def ofStringSized (s : String) (size : Nat) : Except BitstringError Bitstring :=
  if s.toList.length = size then ofString s
  else .error (.lengthMismatch size s.toList.length)

/-- The stored form, a text of digits. -/
def toJson (b : Bitstring) : Json := .text b.toString

/-- Read the stored form. Only a text can be one. -/
def ofJson? (v : Json) : Option (Except BitstringError Bitstring) := v.asText?.map ofString

/-- The bits that are set in either of two bitstrings of one size. -/
def union (a b : Bitstring) : Except BitstringError Bitstring :=
  if a.size = b.size then .ok ⟨a.size, List.zipWith (· ||| ·) a.words b.words⟩
  else .error (.lengthMismatch a.size b.size)

section Principals

variable (hash : String → UInt64)

/-- The index of a principal. -/
def indexOf (b : Bitstring) (principal : String) : Nat := principalIndex hash principal b.size

/-- A principal is listed, or shares its index with one that is. -/
def contains (b : Bitstring) (principal : String) : Bool := b.bit (b.indexOf hash principal)

/-- List a principal. The flag says whether its bit was clear before. -/
def add (b : Bitstring) (principal : String) : Bitstring × Bool :=
  (b.setBit (b.indexOf hash principal) true, !b.contains hash principal)

/-- Strike a principal off, and with it all others at its index. The flag says whether its bit was
set before. -/
def remove (b : Bitstring) (principal : String) : Bitstring × Bool :=
  (b.setBit (b.indexOf hash principal) false, b.contains hash principal)

/-- The bits of a document. A document without an owner is for everyone. -/
def encode (size : Nat) (owner : Option String) (groups : List String) (isPublic : Bool) :
    Except BitstringError Bitstring := do
  let b ← new size
  let owned := match owner with
    | some name => (b.add hash name).1
    | none => b.setPublic true
  let listed := groups.foldl (fun b group => (b.add hash group).1) owned
  return if isPublic then listed.setPublic true else listed

/-- The document is for everyone, or one of the caller's principals is listed. -/
def visibleTo (b : Bitstring) (user : Option String) (groups : List String) : Bool :=
  b.isPublic || user.any (b.contains hash) || groups.any (b.contains hash)

end Principals

end Bitstring

end Catalog
