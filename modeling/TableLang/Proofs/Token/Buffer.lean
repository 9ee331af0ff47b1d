import Mathlib.Algebra.Group.Nat.Defs
import Mathlib.Data.List.Induction
import Mathlib.Order.Bounds.Basic
import TableLang.Token.Buffer

/-! A buffer of tokens through any number of uses. Main statements: its tokens are those of a plain
list that is used in the same way, whatever the slots behind them hold; and its room is the least
that can be had by doubling the room it began with and was enough for all lengths it has had. -/
namespace TableLang.TokenBuffer

inductive Use where
  | push (t : Token)
  | truncate (n : Nat)

def use (b : TokenBuffer) : Use → TokenBuffer
  | .push t => b.push t
  | .truncate n => b.truncate n

def useAll (b : TokenBuffer) (uses : List Use) : TokenBuffer := uses.foldl use b

def Use.onList (l : List Token) : Use → List Token
  | push t => l ++ [t]
  | truncate n => l.take n

def listed (uses : List Use) : List Token := uses.foldl Use.onList []

section Views
variable (b : TokenBuffer)

theorem toList_use (u : Use) : (b.use u).toList = u.onList b.toList := by
  cases u with
  | push t => exact toList_push b t
  | truncate n => exact toList_truncate b n

theorem toList_useAll (uses : List Use) :
    (b.useAll uses).toList = uses.foldl Use.onList b.toList := by
  induction uses generalizing b with
  | nil => rfl
  | cons u uses ih =>
    rw [List.foldl_cons, ← toList_use]
    exact ih (b.use u)

theorem useAll_concat (uses : List Use) (u : Use) :
    b.useAll (uses ++ [u]) = (b.useAll uses).use u := by
  rw [useAll, List.foldl_append]
  rfl

theorem listed_concat (uses : List Use) (u : Use) :
    listed (uses ++ [u]) = u.onList (listed uses) := by
  rw [listed, List.foldl_append]
  rfl

theorem capacity_push (t : Token) :
    (b.push t).capacity = if b.length < b.capacity then b.capacity else b.capacity * 2 := by
  obtain ⟨slots, length, length_le, slots_pos⟩ := b
  unfold push capacity
  dsimp only
  split
  · rw [Array.size_set]
  · rw [Array.size_set, Array.size_append, Array.size_replicate, Nat.mul_two]

theorem capacity_truncate (n : Nat) : (b.truncate n).capacity = b.capacity := rfl

end Views

theorem listed_eq (capacity : Nat) (uses : List Use) :
    ((withCapacity capacity).useAll uses).toList = listed uses := by
  rw [toList_useAll, toList_withCapacity]
  rfl

/-- The room of a buffer began with `capacity` and was doubled `k` times: it is enough for all
lengths that `uses` have led to, and before each doubling it was too little for one of them. -/
structure Grown (capacity k : Nat) (uses : List Use) (room : Nat) : Prop where
  room_eq : room = max capacity 1 * 2 ^ k
  enough : ∀ earlier, earlier <+: uses → (listed earlier).length ≤ room
  needed : ∀ j < k, ∃ earlier, earlier <+: uses ∧ max capacity 1 * 2 ^ j < (listed earlier).length

/-- As long as there is room nothing is doubled. -/
theorem Grown.keep {capacity k room : Nat} {uses : List Use} (h : Grown capacity k uses room)
    {u : Use} (hroom : (listed (uses ++ [u])).length ≤ room) :
    Grown capacity k (uses ++ [u]) room := by
  refine ⟨h.room_eq, fun earlier hearlier => ?_, fun j hj => ?_⟩
  · obtain rfl | hearlier := List.prefix_concat_iff.1 hearlier
    · exact hroom
    · exact h.enough earlier hearlier
  · obtain ⟨earlier, hearlier, hlt⟩ := h.needed j hj
    exact ⟨earlier, hearlier.trans (List.prefix_append ..), hlt⟩

/-- A token for which there is no room makes it double. -/
theorem Grown.double {capacity k room : Nat} {uses : List Use} (h : Grown capacity k uses room)
    {u : Use} (hroom : (listed (uses ++ [u])).length = room + 1) :
    Grown capacity (k + 1) (uses ++ [u]) (room * 2) := by
  have hpos : 0 < room := by
    rw [h.room_eq]
    exact Nat.mul_pos (by omega) (Nat.pow_pos (by decide))
  refine ⟨by rw [h.room_eq, Nat.pow_succ, Nat.mul_assoc], fun earlier hearlier => ?_,
    fun j hj => ?_⟩
  · obtain rfl | hearlier := List.prefix_concat_iff.1 hearlier
    · omega
    · have hle := h.enough earlier hearlier
      omega
  · obtain hj | rfl := Nat.lt_or_eq_of_le (Nat.le_of_lt_succ hj)
    · obtain ⟨earlier, hearlier, hlt⟩ := h.needed j hj
      exact ⟨earlier, hearlier.trans (List.prefix_append ..), hlt⟩
    · refine ⟨uses ++ [u], List.prefix_refl _, ?_⟩
      rw [hroom, ← h.room_eq]
      exact Nat.lt_succ_self _

theorem exists_grown (capacity : Nat) (uses : List Use) :
    ∃ k, Grown capacity k uses ((withCapacity capacity).useAll uses).capacity := by
  induction uses using List.reverseRecOn with
  | nil =>
    refine ⟨0, by simp [useAll, withCapacity, TokenBuffer.capacity], fun earlier h => ?_, by simp⟩
    rw [List.prefix_nil.1 h]
    exact Nat.zero_le _
  | append_singleton uses u ih =>
    obtain ⟨k, hk⟩ := ih
    have hlisted := listed_eq capacity uses
    rw [useAll_concat]
    generalize (withCapacity capacity).useAll uses = b at hk hlisted
    have hlength : (listed uses).length = b.length := by rw [← hlisted, length_toList]
    cases u with
    | push t =>
      have hnext : (listed (uses ++ [.push t])).length = b.length + 1 := by
        rw [listed_concat, Use.onList, List.length_append, hlength, List.length_singleton]
      rw [use, capacity_push]
      by_cases hroom : b.length < b.capacity
      · rw [if_pos hroom]
        exact ⟨k, hk.keep (hnext ▸ hroom)⟩
      · rw [if_neg hroom]
        have hfull : b.length = b.capacity := Nat.le_antisymm b.length_le (Nat.le_of_not_lt hroom)
        exact ⟨k + 1, hk.double (hfull ▸ hnext)⟩
    | truncate n =>
      rw [use, capacity_truncate]
      refine ⟨k, hk.keep ?_⟩
      rw [listed_concat, Use.onList, List.length_take]
      exact Nat.le_trans (Nat.min_le_right ..) (hk.enough uses (List.prefix_refl _))

/-- The room of a buffer is the least that doubling makes of the room it began with and that is
enough for every length it has had. -/
theorem capacity_isLeast (capacity : Nat) (uses : List Use) :
    IsLeast {room | (∃ k, room = max capacity 1 * 2 ^ k) ∧
        ∀ earlier, earlier <+: uses → (listed earlier).length ≤ room}
      ((withCapacity capacity).useAll uses).capacity := by
  obtain ⟨k, hk⟩ := exists_grown capacity uses
  refine ⟨⟨⟨k, hk.room_eq⟩, hk.enough⟩, ?_⟩
  rintro _ ⟨⟨j, rfl⟩, henough⟩
  have hle : k ≤ j := by
    by_contra hlt
    obtain ⟨earlier, hearlier, hneeded⟩ := hk.needed j (Nat.lt_of_not_le hlt)
    exact Nat.not_lt.2 (henough earlier hearlier) hneeded
  rw [hk.room_eq]
  exact Nat.mul_le_mul_left _ (Nat.pow_le_pow_right (by decide) hle)

end TableLang.TokenBuffer
