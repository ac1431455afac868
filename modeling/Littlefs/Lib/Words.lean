import Mathlib.Tactic

/-!
# Words, bytes and byte orders

A word of 32 bits is laid out as four bytes.  `leBytes` fixes the layout with the
least significant byte first; a host lays its words out in one of the two
orders, and a conversion to a fixed order swaps the bytes or leaves them alone.
A word that is converted and then laid out by the host has the same bytes on
every host.
-/

namespace Littlefs.Words

abbrev Octet := BitVec 8

abbrev Word := BitVec 32

/-- `BitVec.append` places its left argument in the more significant part. -/
def ofLeBytes : List Octet → Word
  | a :: b :: c :: d :: _ => d ++ c ++ b ++ a
  | _ => 0

def ofBeBytes : List Octet → Word
  | a :: b :: c :: d :: _ => a ++ b ++ c ++ d
  | _ => 0

def leBytes (word : Word) : List Octet :=
  [word.extractLsb' 0 8, word.extractLsb' 8 8, word.extractLsb' 16 8, word.extractLsb' 24 8]

def beBytes (word : Word) : List Octet :=
  [word.extractLsb' 24 8, word.extractLsb' 16 8, word.extractLsb' 8 8, word.extractLsb' 0 8]

def swapBytes (word : Word) : Word := ofBeBytes (leBytes word)

@[simp]
theorem length_leBytes (word : Word) : (leBytes word).length = 4 := rfl

@[simp]
theorem length_beBytes (word : Word) : (beBytes word).length = 4 := rfl

/-! ## Layouts -/

@[simp]
theorem ofLeBytes_leBytes_append (word : Word) (rest : List Octet) :
    ofLeBytes (leBytes word ++ rest) = word := by
  apply BitVec.eq_of_getLsbD_eq
  intro index hindex
  simp only [leBytes, List.cons_append, ofLeBytes, BitVec.getLsbD_append,
    BitVec.getLsbD_extractLsb']
  grind

@[simp]
theorem ofLeBytes_leBytes (word : Word) : ofLeBytes (leBytes word) = word := by
  simpa using ofLeBytes_leBytes_append word []

@[simp]
theorem ofBeBytes_beBytes_append (word : Word) (rest : List Octet) :
    ofBeBytes (beBytes word ++ rest) = word := by
  apply BitVec.eq_of_getLsbD_eq
  intro index hindex
  simp only [beBytes, List.cons_append, ofBeBytes, BitVec.getLsbD_append,
    BitVec.getLsbD_extractLsb']
  grind

@[simp]
theorem ofBeBytes_beBytes (word : Word) : ofBeBytes (beBytes word) = word := by
  simpa using ofBeBytes_beBytes_append word []

theorem leBytes_ofLeBytes (a b c d : Octet) : leBytes (ofLeBytes [a, b, c, d]) = [a, b, c, d] := by
  simp only [ofLeBytes, leBytes, List.cons.injEq, and_true]
  refine ⟨?_, ?_, ?_, ?_⟩
  all_goals
    apply BitVec.eq_of_getLsbD_eq
    intro index hindex
    simp only [BitVec.getLsbD_append, BitVec.getLsbD_extractLsb']
    grind

theorem leBytes_swapBytes (word : Word) : leBytes (swapBytes word) = beBytes word := by
  have hswap : swapBytes word = ofLeBytes (beBytes word) := rfl
  rw [hswap]
  exact leBytes_ofLeBytes _ _ _ _

theorem beBytes_swapBytes (word : Word) : beBytes (swapBytes word) = leBytes word := by
  have hreverse : ∀ word : Word, beBytes word = (leBytes word).reverse := fun word => rfl
  rw [hreverse, leBytes_swapBytes, hreverse, List.reverse_reverse]

@[simp]
theorem swapBytes_swapBytes (word : Word) : swapBytes (swapBytes word) = word := by
  calc swapBytes (swapBytes word) = ofBeBytes (leBytes (swapBytes word)) := rfl
    _ = ofBeBytes (beBytes word) := by rw [leBytes_swapBytes]
    _ = word := ofBeBytes_beBytes word

/-! ## The byte order of a host -/

inductive ByteOrder
  | little
  | big
  deriving DecidableEq, Repr

namespace ByteOrder

/-- The bytes of a word in the memory of the host. -/
def bytes : ByteOrder → Word → List Octet
  | little, word => leBytes word
  | big, word => beBytes word

/-- The word that the host sees in four bytes of its memory. -/
def ofBytes : ByteOrder → List Octet → Word
  | little, bytes => ofLeBytes bytes
  | big, bytes => ofBeBytes bytes

/-- `u32::to_le` and `u32::from_le`. -/
def le : ByteOrder → Word → Word
  | little, word => word
  | big, word => swapBytes word

/-- `u32::to_be` and `u32::from_be`. -/
def be : ByteOrder → Word → Word
  | little, word => swapBytes word
  | big, word => word

variable (order : ByteOrder) (word : Word)

@[simp]
theorem le_le : order.le (order.le word) = word := by
  cases order <;> simp [le]

@[simp]
theorem be_be : order.be (order.be word) = word := by
  cases order <;> simp [be]

@[simp]
theorem bytes_le : order.bytes (order.le word) = leBytes word := by
  cases order
  · rfl
  · exact beBytes_swapBytes word

@[simp]
theorem bytes_be : order.bytes (order.be word) = beBytes word := by
  cases order
  · exact leBytes_swapBytes word
  · rfl

@[simp]
theorem length_bytes : (order.bytes word).length = 4 := by
  cases order <;> rfl

@[simp]
theorem ofBytes_bytes_append (rest : List Octet) :
    order.ofBytes (order.bytes word ++ rest) = word := by
  cases order <;> simp [bytes, ofBytes]

@[simp]
theorem ofBytes_bytes : order.ofBytes (order.bytes word) = word := by
  simpa using ofBytes_bytes_append order word []

/-- Bytes in little-endian order, seen by the host before any conversion. -/
theorem ofBytes_leBytes_append (rest : List Octet) :
    order.ofBytes (leBytes word ++ rest) = order.le word := by
  rw [← bytes_le order word, ofBytes_bytes_append]

@[simp]
theorem be_ofBytes_beBytes : order.be (order.ofBytes (beBytes word)) = word := by
  have hbytes : order.ofBytes (beBytes word) = order.be word := by
    rw [← bytes_be order word, ofBytes_bytes]
  rw [hbytes, be_be]

theorem le_eq_self_iff : order.le word = word ↔ order = little ∨ swapBytes word = word := by
  cases order <;> simp [le]

end ByteOrder

end Littlefs.Words
