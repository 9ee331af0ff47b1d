import TableLang.Token

/-! A buffer of tokens with room allocated in advance. Appending past the last slot doubles the
room, and dropping tokens only moves the count back: the slots behind it keep what they held. Seen
from outside the buffer is the list `toList`. -/
namespace TableLang

/-- Slots for tokens, of which the first `length` are in use. -/
structure TokenBuffer where
  slots : Array Token
  length : Nat
  length_le : length ≤ slots.size
  slots_pos : 0 < slots.size

namespace TokenBuffer

def withCapacity (capacity : Nat) : TokenBuffer where
  slots := Array.replicate (max capacity 1) Token.blank
  length := 0
  length_le := Nat.zero_le _
  slots_pos := by rw [Array.size_replicate]; omega

def capacity (b : TokenBuffer) : Nat := b.slots.size

def isEmpty (b : TokenBuffer) : Bool := b.length = 0

def toList (b : TokenBuffer) : List Token := b.slots.toList.take b.length

def push (b : TokenBuffer) (t : Token) : TokenBuffer :=
  match b with
  | ⟨slots, length, length_le, slots_pos⟩ =>
    if h : length < slots.size then
      ⟨slots.set length t, length + 1, by rw [Array.size_set]; exact h, by simpa using slots_pos⟩
    else
      -- Every slot is in use, so the room is doubled.
      let grown := slots ++ Array.replicate slots.size Token.blank
      have room : length < grown.size := by
        simp only [grown, Array.size_append, Array.size_replicate]; omega
      ⟨grown.set length t, length + 1, by rw [Array.size_set]; exact room, by
        rw [Array.size_set]; omega⟩

def truncate (b : TokenBuffer) (n : Nat) : TokenBuffer :=
  match b with
  | ⟨slots, length, length_le, slots_pos⟩ => ⟨slots, min n length, by omega, slots_pos⟩

def release (b : TokenBuffer) : Array Token := b.slots.take b.length

@[simp]
theorem toList_withCapacity (capacity : Nat) : (withCapacity capacity).toList = [] := by
  simp [toList, withCapacity]

@[simp]
theorem toList_release (b : TokenBuffer) : b.release.toList = b.toList := by
  simp [release, toList]

@[simp]
theorem length_toList (b : TokenBuffer) : b.toList.length = b.length := by
  simp [toList, b.length_le]

@[simp]
theorem length_push (b : TokenBuffer) (t : Token) : (b.push t).length = b.length + 1 := by
  obtain ⟨slots, length, length_le, slots_pos⟩ := b
  unfold push
  dsimp only
  split <;> rfl

/-- Writing the slot after the first `n` and counting it in appends to the first `n`. -/
theorem take_set_succ (slots : Array Token) (n : Nat) (t : Token) (h : n < slots.size) :
    (slots.set n t).toList.take (n + 1) = slots.toList.take n ++ [t] := by
  rw [Array.toList_set, List.take_set, List.take_succ_eq_append_getElem (by simpa using h),
    List.set_append_right _ _ (by rw [List.length_take]; omega)]
  simp [Nat.min_eq_left (Nat.le_of_lt h)]

/-- Appending adds the token at the end of the list, whether or not the room had to grow. -/
@[simp]
theorem toList_push (b : TokenBuffer) (t : Token) : (b.push t).toList = b.toList ++ [t] := by
  obtain ⟨slots, length, length_le, slots_pos⟩ := b
  unfold push toList
  dsimp only
  split
  case isTrue h => exact take_set_succ slots length t h
  case isFalse h =>
    rw [take_set_succ, Array.toList_append,
      List.take_append_of_le_length (by simpa using length_le)]

/-- Dropping tokens takes the list back to its first `n` members. -/
@[simp]
theorem toList_truncate (b : TokenBuffer) (n : Nat) :
    (b.truncate n).toList = b.toList.take n := by
  simp [toList, truncate, List.take_take]

end TokenBuffer
end TableLang
