import Mathlib.Data.List.TakeWhile
import TableLang.Position

/-! Where offsets are. The line and the column of an offset are said by counting, and the single
pass that locates several offsets is shown to agree. Later offsets are at later places. -/
namespace TableLang.Position

/-- The place after the text `before`: one line more than it has line feeds, and one column more
than there are characters after the last of them. -/
def after (before : List Char) : Position where
  line := before.count '\n' + 1
  column := (before.reverse.takeWhile (· ≠ '\n')).length + 1

theorem after_concat (cs : List Char) (c : Char) : after (cs ++ [c]) = (after cs).advance c := by
  by_cases hc : c = '\n'
  · simp [after, advance, hc]
  · simp [after, advance, hc]

def answer (input : List Char) (requests : List Request) (answers : Array Position) :
    Array Position :=
  requests.foldl (fun out r => out.setIfInBounds r.slot (after (input.take r.offset))) answers

theorem answer_append (input : List Char) (rs qs : List Request) (answers : Array Position) :
    answer input (rs ++ qs) answers = answer input qs (answer input rs answers) :=
  List.foldl_append

/-- Requests that are due all have the same place. -/
theorem settle_eq_answer {input : List Char} {p : Position} {due : List Request}
    (h : ∀ r ∈ due, after (input.take r.offset) = p) (answers : Array Position) :
    settle p due answers = answer input due answers := by
  induction due generalizing answers with
  | nil => rfl
  | cons r due ih =>
    have hr := h r (List.mem_cons_self ..)
    have hdue := ih (fun q hq => h q (List.mem_cons_of_mem r hq)) (answers.setIfInBounds r.slot p)
    rw [answer, List.foldl_cons, hr]
    exact hdue

/-- Of requests by increasing offset from `i` on, those not due at `i` are for later offsets. -/
theorem lt_offset_of_mem_dropWhile {i : Nat} {pending : List Request}
    (hsorted : pending.Pairwise (·.offset ≤ ·.offset)) (hle : ∀ r ∈ pending, i ≤ r.offset) :
    ∀ r ∈ pending.dropWhile (·.offset = i), i < r.offset := by
  induction pending with
  | nil => simp
  | cons q pending ih =>
    rw [List.pairwise_cons] at hsorted
    by_cases hq : q.offset = i
    · rw [List.dropWhile_cons_of_pos (by simpa using hq)]
      exact ih hsorted.2 fun r hr => hle r (List.mem_cons_of_mem q hr)
    · rw [List.dropWhile_cons_of_neg (by simpa using hq)]
      have hlt : i < q.offset := by
        have := hle q (List.mem_cons_self ..)
        omega
      intro r hr
      obtain rfl | hr := List.mem_cons.1 hr
      · exact hlt
      · exact Nat.lt_of_lt_of_le hlt (hsorted.1 r hr)

theorem scan_eq_answer (input rest before : List Char) (hinput : input = before ++ rest)
    (pending : List Request) (hsorted : pending.Pairwise (·.offset ≤ ·.offset))
    (hle : ∀ r ∈ pending, before.length ≤ r.offset) (answers : Array Position) :
    scan (after before) before.length rest pending answers = answer input pending answers := by
  induction rest generalizing before pending answers with
  | nil =>
    rw [List.append_nil] at hinput
    refine settle_eq_answer (fun r hr => ?_) answers
    rw [List.take_of_length_le (hinput ▸ hle r hr), hinput]
  | cons c cs ih =>
    have hnow : ∀ r ∈ pending.takeWhile (·.offset = before.length),
        after (input.take r.offset) = after before := by
      intro r hr
      have hoffset : r.offset = before.length := by simpa using List.mem_takeWhile_imp hr
      rw [hoffset, hinput, List.take_left]
    have hsplit : answer input pending answers =
        answer input (pending.dropWhile (·.offset = before.length))
          (answer input (pending.takeWhile (·.offset = before.length)) answers) := by
      rw [← answer_append, List.takeWhile_append_dropWhile]
    rw [scan, settle_eq_answer hnow, hsplit]
    generalize answer input (pending.takeWhile _) answers = answers'
    by_cases hlater : (pending.dropWhile (·.offset = before.length)).isEmpty = true
    · rw [if_pos hlater, List.isEmpty_iff.1 hlater]
      rfl
    · rw [if_neg hlater, ← after_concat]
      have hnext := ih (before ++ [c]) (by simp [hinput])
        (pending.dropWhile (·.offset = before.length))
        (hsorted.sublist (List.dropWhile_sublist _)) (fun r hr => by
          rw [List.length_append, List.length_singleton]
          exact lt_offset_of_mem_dropWhile hsorted hle r hr) answers'
      rwa [List.length_append, List.length_singleton] at hnext

theorem insert_perm (r : Request) (qs : List Request) : (r.insert qs).Perm (r :: qs) := by
  induction qs with
  | nil => exact .refl _
  | cons q qs ih =>
    rw [Request.insert]
    split
    · exact .refl _
    · exact (ih.cons q).trans (.swap r q qs)

theorem insert_sorted (r : Request) {qs : List Request}
    (h : qs.Pairwise (·.offset ≤ ·.offset)) : (r.insert qs).Pairwise (·.offset ≤ ·.offset) := by
  induction qs with
  | nil => simp [Request.insert]
  | cons q qs ih =>
    obtain ⟨hq, hqs⟩ := List.pairwise_cons.1 h
    rw [Request.insert]
    split
    case isTrue hle =>
      refine List.pairwise_cons.2 ⟨fun x hx => ?_, h⟩
      obtain rfl | hx := List.mem_cons.1 hx
      · exact hle
      · exact Nat.le_trans hle (hq x hx)
    case isFalse hlt =>
      refine List.pairwise_cons.2 ⟨fun x hx => ?_, ih hqs⟩
      obtain rfl | hx := List.mem_cons.1 ((insert_perm r qs).mem_iff.1 hx)
      · omega
      · exact hq x hx

/-- Every offset is requested once, for the slot that has its index. -/
theorem requests_perm (offsets : List Nat) :
    (requests offsets).Perm (offsets.zipIdx.map fun o => ⟨o.1, o.2⟩) := by
  rw [requests]
  induction offsets.zipIdx with
  | nil => exact .refl _
  | cons o os ih => exact (insert_perm _ _).trans (ih.cons _)

theorem requests_sorted (offsets : List Nat) :
    (requests offsets).Pairwise (·.offset ≤ ·.offset) := by
  rw [requests]
  induction offsets.zipIdx with
  | nil => exact .nil
  | cons o os ih => exact insert_sorted _ ih

theorem size_answer (input : List Char) (rs : List Request) (answers : Array Position) :
    (answer input rs answers).size = answers.size := by
  induction rs generalizing answers with
  | nil => rfl
  | cons r rs ih =>
    rw [answer, List.foldl_cons]
    exact (ih _).trans Array.size_setIfInBounds

theorem getElem?_answer_of_notMem (input : List Char) {rs : List Request} {k : Nat}
    (h : k ∉ rs.map Request.slot) (answers : Array Position) :
    (answer input rs answers)[k]? = answers[k]? := by
  induction rs generalizing answers with
  | nil => rfl
  | cons r rs ih =>
    rw [List.map_cons, List.mem_cons, not_or] at h
    rw [answer, List.foldl_cons]
    exact (ih h.2 _).trans (Array.getElem?_setIfInBounds_ne (Ne.symm h.1))

/-- A slot requested once holds the answer to its request. -/
theorem getElem?_answer_of_mem (input : List Char) {rs : List Request}
    (hnodup : (rs.map Request.slot).Nodup) {r : Request} (hr : r ∈ rs) {answers : Array Position}
    (hslot : r.slot < answers.size) :
    (answer input rs answers)[r.slot]? = some (after (input.take r.offset)) := by
  induction rs generalizing answers with
  | nil => cases hr
  | cons q rs ih =>
    rw [List.map_cons, List.nodup_cons] at hnodup
    rw [answer, List.foldl_cons]
    obtain rfl | hr := List.mem_cons.1 hr
    · refine (getElem?_answer_of_notMem input hnodup.1 _).trans ?_
      simp [hslot]
    · exact ih hnodup.2 hr (by rwa [Array.size_setIfInBounds])

/-- Several offsets are located one by one. -/
theorem ofOffsets_eq (input : List Char) (offsets : List Nat) :
    ofOffsets input offsets = offsets.map fun o => after (input.take o) := by
  have hscan := scan_eq_answer input input [] rfl (requests offsets) (requests_sorted offsets)
    (fun r _ => Nat.zero_le _) (Array.replicate offsets.length ⟨0, 0⟩)
  have hslots : ((requests offsets).map Request.slot).Nodup := by
    refine ((requests_perm offsets).map Request.slot).nodup_iff.2 ?_
    simp [List.map_map, Function.comp_def, List.nodup_range']
  refine List.ext_getElem? fun k => ?_
  rw [ofOffsets, Array.getElem?_toList]
  refine (congrArg (·[k]?) hscan).trans ?_
  by_cases hk : k < offsets.length
  · have hmem : (⟨offsets[k], k⟩ : Request) ∈ requests offsets := by
      rw [(requests_perm offsets).mem_iff, List.mem_map]
      exact ⟨(offsets[k], k), by simp [List.mem_zipIdx_iff_getElem?, hk], rfl⟩
    have hslot : k < (Array.replicate offsets.length (⟨0, 0⟩ : Position)).size := by simpa using hk
    have hanswer := getElem?_answer_of_mem input hslots hmem hslot
    simpa [hk] using hanswer
  · have hsize := size_answer input (requests offsets) (Array.replicate offsets.length ⟨0, 0⟩)
    rw [Array.getElem?_eq_none (by simpa [hsize] using hk), List.getElem?_map,
      List.getElem?_eq_none (Nat.le_of_not_lt hk), Option.map_none]

theorem ofOffset_eq (input : List Char) (offset : Nat) :
    ofOffset input offset = after (input.take offset) := by
  rw [ofOffset, ofOffsets_eq]
  rfl

def Before (p q : Position) : Prop := p.line < q.line ∨ p.line = q.line ∧ p.column < q.column

theorem Before.trans {p q r : Position} (h : p.Before q) (h' : q.Before r) : p.Before r := by
  unfold Before at *
  omega

theorem before_advance (p : Position) (c : Char) : p.Before (p.advance c) := by
  unfold Before advance
  split
  · exact .inl (Nat.lt_succ_self _)
  · exact .inr ⟨rfl, Nat.lt_succ_self _⟩

/-- The longer the text before a place, the later the place. -/
theorem before_after_append (cs : List Char) {ds : List Char} (h : ds ≠ []) :
    (after cs).Before (after (cs ++ ds)) := by
  induction ds generalizing cs with
  | nil => exact absurd rfl h
  | cons d ds ih =>
    have hfirst : (after cs).Before (after (cs ++ [d])) := by
      rw [after_concat]
      exact before_advance _ d
    cases ds with
    | nil => exact hfirst
    | cons d' ds =>
      have hrest := ih (cs ++ [d]) (by simp)
      rw [List.append_assoc] at hrest
      exact hfirst.trans hrest

end TableLang.Position
