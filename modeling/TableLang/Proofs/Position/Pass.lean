import Mathlib.Algebra.Group.Nat.Defs
import TableLang.Proofs.Position
import TableLang.ParseError

/-! What the pass over a text counts. Main statements: every offset gets the line and the column
that counting up to it gives, in whatever order the offsets are given; and the lines and columns
that the pass goes through fit into 32 bits, but for the place after the last character of a text of
the greatest length. -/
namespace TableLang.Position

/-- The place `p` is that of an offset of a text: its line is one more than the line feeds before
the offset, and its column one more than the characters after the last of them, or one more than all
characters before the offset if there is no line feed among them. -/
structure Marks (input : List Char) (offset : Nat) (p : Position) : Prop where
  line_eq : p.line = 1 + (input.take offset).count '\n'
  column_eq : ∀ before line, input.take offset = before ++ '\n' :: line → '\n' ∉ line →
    p.column = 1 + line.length
  column_first : '\n' ∉ input.take offset → p.column = offset + 1

def Fits (p : Position) : Prop := p.line < 2 ^ 32 ∧ p.column < 2 ^ 32

/-- A text of the greatest length that is a single line, or is made of line feeds only. -/
def Overfull (input : List Char) : Prop :=
  input.length = maxInputLength ∧ ('\n' ∉ input ∨ ∀ c ∈ input, c = '\n')

section Counting
variable {cs : List Char}

theorem takeWhile_reverse_of_notMem (h : '\n' ∉ cs) :
    cs.reverse.takeWhile (· ≠ '\n') = cs.reverse := by
  rw [List.takeWhile_eq_self_iff]
  intro c hc
  have hne : c ≠ '\n' := by
    rintro rfl
    exact h (List.mem_reverse.1 hc)
  simpa using hne

theorem after_of_notMem (h : '\n' ∉ cs) : after cs = ⟨1, cs.length + 1⟩ := by
  rw [after, takeWhile_reverse_of_notMem h, List.length_reverse, List.count_eq_zero.2 h]

theorem column_after_of_notMem (h : '\n' ∉ cs) : (after cs).column = cs.length + 1 := by
  rw [after_of_notMem h]

theorem column_after_append {line : List Char} (before : List Char) (h : '\n' ∉ line) :
    (after (before ++ '\n' :: line)).column = line.length + 1 := by
  have hreverse : (before ++ '\n' :: line).reverse = line.reverse ++ '\n' :: before.reverse := by
    simp
  have hall := takeWhile_reverse_of_notMem h
  rw [List.takeWhile_eq_self_iff] at hall
  rw [after, hreverse, List.takeWhile_append_of_pos hall]
  simp

theorem marks_after (input : List Char) (offset : Nat) :
    Marks input (min offset input.length) (after (input.take offset)) := by
  have htake : input.take (min offset input.length) = input.take offset := by
    rw [← List.take_take, List.take_length]
  refine ⟨?_, fun before line h hline => ?_, fun h => ?_⟩
  · rw [htake, after, Nat.add_comm]
  · rw [htake] at h
    rw [h, column_after_append before hline, Nat.add_comm]
  · rw [htake] at h
    rw [column_after_of_notMem h, List.length_take]

theorem line_after_le (cs : List Char) : (after cs).line ≤ cs.length + 1 :=
  Nat.succ_le_succ List.count_le_length

theorem column_after_le (cs : List Char) : (after cs).column ≤ cs.length + 1 := by
  have hle := (List.takeWhile_sublist (l := cs.reverse) (· ≠ '\n')).length_le
  rw [List.length_reverse] at hle
  exact Nat.succ_le_succ hle

theorem line_after_eq_iff : (after cs).line = cs.length + 1 ↔ ∀ c ∈ cs, c = '\n' := by
  rw [after, Nat.add_right_cancel_iff, List.count_eq_length]
  exact forall₂_congr fun c _ => eq_comm

theorem column_after_eq_iff : (after cs).column = cs.length + 1 ↔ '\n' ∉ cs := by
  refine ⟨fun h hmem => ?_, column_after_of_notMem⟩
  have hlength : (cs.reverse.takeWhile (· ≠ '\n')).length = cs.reverse.length := by
    rw [List.length_reverse]
    exact Nat.succ_inj.1 h
  have hall := (List.takeWhile_prefix _).eq_of_length hlength
  rw [List.takeWhile_eq_self_iff] at hall
  simpa using hall '\n' (List.mem_reverse.2 hmem)

/-- Lines and columns count from one, and so the place after a text of the greatest length may have
one number that does not fit. -/
theorem fits_after_iff (h : cs.length ≤ maxInputLength) : (after cs).Fits ↔ ¬ Overfull cs := by
  rw [Overfull, ← column_after_eq_iff, ← line_after_eq_iff]
  have hline := line_after_le cs
  have hcolumn := column_after_le cs
  unfold maxInputLength at *
  unfold Fits
  omega

end Counting

/-- Several offsets are located in one pass, each as if it were the only one, and at the line and
column that counting gives; an offset past the end counts as the end. Later offsets of a text are at
later places. The numbers fit into 32 bits if the text is shorter than the greatest length. -/
theorem ofOffsets_marks_each (input : List Char) (offsets : List Nat) :
    (ofOffsets input offsets).length = offsets.length ∧
    (∀ (k offset : Nat), offsets[k]? = some offset → ∃ p, (ofOffsets input offsets)[k]? = some p ∧
      Marks input (min offset input.length) p) ∧
    ofOffsets input offsets = offsets.map (ofOffset input) ∧
    (∀ i j, i < j → j ≤ input.length → (ofOffset input i).Before (ofOffset input j)) ∧
    (input.length < maxInputLength → ∀ p ∈ ofOffsets input offsets, p.Fits) := by
  rw [ofOffsets_eq]
  refine ⟨List.length_map _, fun k offset hk => ?_, ?_, fun i j hij hj => ?_,
    fun hlength p hp => ?_⟩
  · exact ⟨_, by rw [List.getElem?_map, hk, Option.map_some], marks_after input offset⟩
  · exact List.map_congr_left fun offset _ => (ofOffset_eq input offset).symm
  · obtain ⟨k, rfl⟩ := Nat.exists_eq_add_of_lt hij
    rw [ofOffset_eq, ofOffset_eq, Nat.add_assoc, List.take_add]
    refine before_after_append _ fun hempty => ?_
    have hnone := congrArg List.length hempty
    rw [List.length_take, List.length_drop, List.length_nil] at hnone
    omega
  · obtain ⟨offset, -, rfl⟩ := List.mem_map.1 hp
    have hlt := Nat.lt_of_le_of_lt (List.length_take_le' offset input) hlength
    exact (fits_after_iff (Nat.le_of_lt hlt)).2 fun h => Nat.ne_of_lt hlt h.1

theorem ofOffsets_marks_each_unsorted :
    [4, 0, 4, 9][3]? = some 9 ∧ (0 < 4 ∧ 4 ≤ "ab\ncd".toList.length) ∧
      "ab\ncd".toList.length < maxInputLength ∧
      (∃ p, (ofOffsets "ab\ncd".toList [4, 0, 4, 9])[3]? = some p ∧ Marks "ab\ncd".toList 5 p) ∧
      (ofOffset "ab\ncd".toList 0).Before (ofOffset "ab\ncd".toList 4) ∧
      ∀ p ∈ ofOffsets "ab\ncd".toList [4, 0, 4, 9], p.Fits := by
  obtain ⟨-, hmarks, -, hbefore, hfits⟩ := ofOffsets_marks_each "ab\ncd".toList [4, 0, 4, 9]
  exact ⟨rfl, by decide, by decide, hmarks 3 9 rfl, hbefore 0 4 (by decide) (by decide),
    hfits (by decide)⟩

def places (p : Position) (i : Nat) : List Char → List Request → List Position
  | [], _ => [p]
  | c :: cs, pending =>
    let later := pending.dropWhile (·.offset = i)
    if later.isEmpty then [p] else p :: places (p.advance c) (i + 1) cs later

/-- The places that the pass for several offsets goes through: what its two counters hold from the
beginning to the end. -/
def passed (input : List Char) (offsets : List Nat) : List Position :=
  places start 0 input (requests offsets)

section Pass
variable {input : List Char} {pending : List Request} {p q : Position}

/-- A request that is not due is still pending. -/
theorem mem_dropWhile {i : Nat} {r : Request} (hr : r ∈ pending) (hne : r.offset ≠ i) :
    r ∈ pending.dropWhile (·.offset = i) := by
  rw [← List.takeWhile_append_dropWhile (p := (·.offset = i)) (l := pending)] at hr
  obtain hnow | hlater := List.mem_append.1 hr
  · exact absurd (by simpa using List.mem_takeWhile_imp hnow) hne
  · exact hlater

/-- The pass goes through the places of all offsets up to the last one requested, or up to the end
of the text. -/
theorem mem_places_iff (before rest : List Char) (hinput : input = before ++ rest)
    (pending : List Request) (hsorted : pending.Pairwise (·.offset ≤ ·.offset))
    (hle : ∀ r ∈ pending, before.length ≤ r.offset) :
    q ∈ places (after before) before.length rest pending ↔
      ∃ j, before.length ≤ j ∧ j ≤ input.length ∧
        (j = before.length ∨ ∃ r ∈ pending, j ≤ r.offset) ∧ q = after (input.take j) := by
  induction rest generalizing before pending with
  | nil =>
    rw [List.append_nil] at hinput
    subst hinput
    rw [places, List.mem_singleton]
    constructor
    · rintro rfl
      exact ⟨input.length, Nat.le_refl _, Nat.le_refl _, .inl rfl, by rw [List.take_length]⟩
    · rintro ⟨j, hj, hj', -, rfl⟩
      rw [List.take_of_length_le hj]
  | cons c cs ih =>
    have hlater := lt_offset_of_mem_dropWhile hsorted hle
    have htake : input.take before.length = before := by rw [hinput, List.take_left]
    have hlength : before.length < input.length := by simp [hinput]
    rw [places]
    by_cases hempty : (pending.dropWhile (·.offset = before.length)).isEmpty = true
    · rw [if_pos hempty, List.mem_singleton]
      constructor
      · rintro rfl
        exact ⟨before.length, Nat.le_refl _, Nat.le_of_lt hlength, .inl rfl, by rw [htake]⟩
      · rintro ⟨j, hj, -, rfl | ⟨r, hr, hjr⟩, rfl⟩
        · rw [htake]
        · -- Nothing is pending beyond the present offset.
          have hdue : r.offset = before.length := by
            by_contra hne
            have hmem := mem_dropWhile hr hne
            rw [List.isEmpty_iff.1 hempty] at hmem
            cases hmem
          rw [Nat.le_antisymm (hdue ▸ hjr) hj, htake]
    · rw [if_neg hempty, List.mem_cons, ← after_concat]
      obtain ⟨r₀, hr₀⟩ := List.exists_mem_of_ne_nil _ (mt List.isEmpty_iff.2 hempty)
      have hnext := ih (before ++ [c]) (by simp [hinput])
        (pending.dropWhile (·.offset = before.length))
        (hsorted.sublist (List.dropWhile_sublist _)) (fun r hr => by
          rw [List.length_append, List.length_singleton]
          exact hlater r hr)
      rw [List.length_append, List.length_singleton] at hnext
      rw [hnext]
      constructor
      · rintro (rfl | ⟨j, hj, hj', hreached, rfl⟩)
        · exact ⟨before.length, Nat.le_refl _, Nat.le_of_lt hlength, .inl rfl, by rw [htake]⟩
        · refine ⟨j, Nat.le_of_succ_le hj, hj', .inr ?_, rfl⟩
          obtain rfl | ⟨r, hr, hjr⟩ := hreached
          · exact ⟨r₀, (List.dropWhile_sublist _).mem hr₀, hlater r₀ hr₀⟩
          · exact ⟨r, (List.dropWhile_sublist _).mem hr, hjr⟩
      · rintro ⟨j, hj, hj', hreached, rfl⟩
        obtain rfl | hlt := Nat.eq_or_lt_of_le hj
        · exact .inl (by rw [htake])
        · refine .inr ⟨j, hlt, hj', ?_, rfl⟩
          obtain rfl | ⟨r, hr, hjr⟩ := hreached
          · exact absurd hlt (Nat.lt_irrefl _)
          · exact .inr ⟨r, mem_dropWhile hr (by omega), hjr⟩

theorem offset_requests_perm (offsets : List Nat) :
    ((requests offsets).map Request.offset).Perm offsets := by
  have hperm := (requests_perm offsets).map Request.offset
  rwa [List.map_map, Function.comp_def, List.zipIdx_map_fst] at hperm

variable {offsets : List Nat}

theorem mem_passed_iff :
    q ∈ passed input offsets ↔
      ∃ j, j ≤ input.length ∧ (j = 0 ∨ ∃ o ∈ offsets, j ≤ o) ∧ q = after (input.take j) := by
  have hmem := mem_places_iff (q := q) [] input rfl (requests offsets) (requests_sorted offsets)
    (fun r _ => Nat.zero_le _)
  have hrequests (j : Nat) : (∃ r ∈ requests offsets, j ≤ r.offset) ↔ ∃ o ∈ offsets, j ≤ o := by
    simp [← (offset_requests_perm offsets).mem_iff]
  simp only [List.length_nil, Nat.zero_le, true_and, hrequests] at hmem
  exact hmem

/-- The places found are places that the pass goes through. -/
theorem mem_passed_of_mem_ofOffsets (h : p ∈ ofOffsets input offsets) :
    p ∈ passed input offsets := by
  rw [ofOffsets_eq] at h
  obtain ⟨offset, hmem, rfl⟩ := List.mem_map.1 h
  refine mem_passed_iff.2
    ⟨min offset input.length, Nat.min_le_right .., .inr ⟨offset, hmem, ?_⟩, ?_⟩
  · exact Nat.min_le_left ..
  · rw [← List.take_take, List.take_length]

/-- What the pass counts fits into 32 bits unless it comes to the end of an overfull text. -/
theorem passed_fit_iff (hlength : input.length ≤ maxInputLength) :
    (∀ q ∈ passed input offsets, q.Fits) ↔
      ¬ (Overfull input ∧ ∃ o ∈ offsets, input.length ≤ o) := by
  constructor
  · rintro hfits ⟨hfull, hend⟩
    have hlast := hfits (after (input.take input.length))
      (mem_passed_iff.2 ⟨_, Nat.le_refl _, .inr hend, rfl⟩)
    rw [List.take_length] at hlast
    exact (fits_after_iff hlength).1 hlast hfull
  · intro hshort q hq
    obtain ⟨j, hj, hreached, rfl⟩ := mem_passed_iff.1 hq
    have htake : (input.take j).length = j := by rw [List.length_take, Nat.min_eq_left hj]
    refine (fits_after_iff (by omega)).2 fun hfull => ?_
    -- The place is that of the end, which is not the beginning as well.
    obtain rfl : j = input.length := by
      have hlast := hfull.1
      omega
    rw [List.take_length] at hfull
    obtain hzero | hend := hreached
    · have hlast := hfull.1
      rw [hzero] at hlast
      cases hlast
    · exact hshort ⟨hfull, hend⟩

theorem passed_fit_iff_of_le (hlength : input.length ≤ maxInputLength)
    (hle : ∀ o ∈ offsets, o ≤ input.length) :
    (∀ q ∈ passed input offsets, q.Fits) ↔ ¬ (Overfull input ∧ input.length ∈ offsets) := by
  have hend : (∃ o ∈ offsets, input.length ≤ o) ↔ input.length ∈ offsets := by
    constructor
    · intro ⟨o, ho, hge⟩
      rwa [Nat.le_antisymm hge (hle o ho)]
    · intro h
      exact ⟨_, h, Nat.le_refl _⟩
  rw [passed_fit_iff hlength, hend]

end Pass

end TableLang.Position
