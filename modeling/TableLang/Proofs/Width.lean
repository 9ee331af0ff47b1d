import TableLang.Proofs.Match.Visits
import TableLang.Proofs.Position.Pass

/-! Numbers of 32 bits. Main statement: of a text that is not refused for its length, every number
that a reading keeps or computes fits into 32 bits, and so does everything counted for its error,
unless the error is at the end of an overfull text. There the bound on the length is too large by
one: the place after the last character has the column or the line `2 ^ 32`. -/
namespace TableLang
open Grammar Match

namespace Match

/-- Every number kept in a state fits into 32 bits, and so does the offset of the next character,
which is computed where there is a character to be read or to be looked past. -/
structure State.Fits (s : State) : Prop where
  pos_lt : s.pos < 2 ^ 32
  next_lt : s.rest ≠ [] → s.pos + 1 < 2 ^ 32
  tokens_lt : ∀ t ∈ s.tokens.toList, t.start < 2 ^ 32 ∧ t.stop < 2 ^ 32
  active_lt : ∀ f ∈ s.active, f.start < 2 ^ 32
  furthest_lt : ∀ m, s.furthest = some m → m.start < 2 ^ 32 ∧ m.stop < 2 ^ 32

theorem State.Inside.fits {n : Nat} {s : State} (h : s.Inside n) (hn : n ≤ maxInputLength) :
    s.Fits := by
  have hlt : n < 2 ^ 32 := Nat.lt_succ_of_le hn
  refine ⟨Nat.lt_of_le_of_lt h.pos_le hlt, fun hrest => ?_, fun t ht => ?_, fun f hf => ?_,
    fun m hm => ?_⟩
  · have hsum := h.pos_add_rest
    have hpos := List.length_pos_iff.2 hrest
    omega
  · exact (h.tokens_le t ht).imp (Nat.lt_of_le_of_lt · hlt) (Nat.lt_of_le_of_lt · hlt)
  · exact Nat.lt_of_le_of_lt (h.active_le f hf) hlt
  · exact (h.furthest_le m hm).imp (Nat.lt_of_le_of_lt · hlt) (Nat.lt_of_le_of_lt · hlt)

/-- The offsets that are located to report how a reading ended. -/
def reported (settings : Settings) (input : List Char) : List Nat :=
  match readQuery settings input with
  | .matched _ => []
  | .failed s =>
    let m := s.furthest.getD ⟨.query, 0, 0, input.head?⟩
    [m.start, m.stop]
  | .tooDeep offset => [offset]

theorem le_of_mem_reported {settings : Settings} {input : List Char} {o : Nat}
    (h : o ∈ reported settings input) : o ≤ input.length := by
  have hread := read_inside (readClause_inside settings.maxDepth) query _
    (inside_initial input settings.tokenCapacity)
  change (readQuery settings input).Inside input.length at hread
  unfold reported at h
  split at h
  case h_1 => cases h
  case h_2 s hs =>
    rw [hs] at hread
    cases hm : s.furthest with
    | none =>
      simp only [hm, Option.getD_none, List.mem_cons, List.not_mem_nil, or_false, or_self] at h
      exact h ▸ Nat.zero_le _
    | some m =>
      have hle := hread.furthest_le m hm
      simp only [hm, Option.getD_some, List.mem_cons, List.not_mem_nil, or_false] at h
      obtain rfl | rfl := h
      · exact hle.1
      · exact hle.2
  case h_3 offset hs =>
    rw [hs] at hread
    rw [List.mem_singleton.1 h]
    exact hread

theorem exists_matched_of_tokensOf {settings : Settings} {input : List Char} {tokens : List Token}
    (h : tokensOf settings input = .ok tokens) :
    ∃ s, readQuery settings input = .matched s ∧ tokens = s.tokens.toList := by
  unfold tokensOf at h
  split at h
  case isTrue => cases h
  case isFalse =>
    split at h
    case h_1 s hs => exact ⟨s, hs, (Except.ok.inj h).symm⟩
    case h_2 => cases h
    case h_3 => cases h

end Match

def ParseError.places : ParseError → List Position
  | mismatch e => [e.start, e.stop]
  | nestingTooDeep _ position => [position]
  | inputTooLong _ => []

theorem places_of_tokensOf {settings : Settings} {input : List Char} {e : ParseError}
    (hlength : input.length ≤ maxInputLength) (h : tokensOf settings input = .error e) :
    e.places = Position.ofOffsets input (reported settings input) := by
  rw [tokensOf, if_neg (Nat.not_lt.2 hlength)] at h
  unfold reported
  rw [Position.ofOffsets_eq]
  cases ho : readQuery settings input with
  | matched s =>
    rw [ho] at h
    cases h
  | failed s =>
    rw [ho] at h
    obtain rfl := Except.error.inj h
    simp [report, ParseError.places, Position.ofOffsets_eq]
  | tooDeep offset =>
    rw [ho] at h
    obtain rfl := Except.error.inj h
    simp [ParseError.places, Position.ofOffset_eq]

/-- Whatever a reading of a text that is not too long keeps or computes fits into 32 bits. So does
every line and column that is counted for its error, the places reported among them, unless the
error is at the end of an overfull text; there one of them does not. -/
theorem counters_fit_unless_overfull (settings : Settings) (input : List Char)
    (hlength : input.length ≤ maxInputLength) :
    (∀ s, Visits settings.maxDepth query (.initial input settings.tokenCapacity) s → s.Fits) ∧
    (∀ tokens, tokensOf settings input = .ok tokens →
      ∀ t ∈ tokens, t.start < 2 ^ 32 ∧ t.stop < 2 ^ 32) ∧
    (∀ e, tokensOf settings input = .error e →
      e.places = Position.ofOffsets input (reported settings input) ∧
        ∀ p ∈ e.places, p ∈ Position.passed input (reported settings input)) ∧
    ((∀ p ∈ Position.passed input (reported settings input), p.Fits) ↔
      ¬ (Position.Overfull input ∧ input.length ∈ reported settings input)) := by
  have hvisits : ∀ s, Visits settings.maxDepth query (.initial input settings.tokenCapacity) s →
      s.Fits := fun s hs => (hs.inside (inside_initial ..)).fits hlength
  refine ⟨hvisits, fun tokens htokens => ?_, fun e he => ?_, ?_⟩
  · obtain ⟨s, hs, rfl⟩ := exists_matched_of_tokensOf htokens
    exact (hvisits s (.matched hs)).tokens_lt
  · have hplaces := places_of_tokensOf hlength he
    refine ⟨hplaces, fun p hp => Position.mem_passed_of_mem_ofOffsets ?_⟩
    rwa [← hplaces]
  · exact Position.passed_fit_iff_of_le hlength fun _ => le_of_mem_reported

theorem counters_fit_unless_overfull_escape :
    "select a\\q".toList.length ≤ maxInputLength ∧
      (∀ s, Visits 100 query (.initial "select a\\q".toList 256) s → s.Fits) ∧
      ∀ p ∈ Position.passed "select a\\q".toList (reported {} "select a\\q".toList), p.Fits := by
  have hlength : "select a\\q".toList.length ≤ maxInputLength := by decide
  obtain ⟨hvisits, -, -, hcounters⟩ := counters_fit_unless_overfull {} "select a\\q".toList hlength
  refine ⟨hlength, hvisits, hcounters.2 fun hend => ?_⟩
  exact absurd hend.1.1 (by decide)

section Blanks
variable {nested : State → Outcome} {s : State}

/-- At the end of the input no word can be read. -/
theorem read_word_of_nil {text : String} (htext : text.toList ≠ []) (hrest : s.rest = []) :
    (Expr.word text).read nested s = .failed s.note := by
  obtain ⟨c, cs, hcs⟩ := List.exists_cons_of_ne_nil htext
  have hchar : (Expr.char c).read nested s = .failed s.note := by
    simp only [Expr.char, Expr.read, State.readOne, hrest, State.reject]
  rw [Expr.word, hcs]
  cases cs with
  | nil => exact hchar
  | cons d ds => simp only [List.map_cons, Expr.seqAll, Expr.read, hchar]

theorem read_select_of_nil (nested : State → Outcome) (hrest : s.rest = [])
    (hfurthest : s.furthest = none) :
    ∃ t, select.read nested s = .failed t ∧ t.furthest = some ⟨.select, s.pos, s.pos, none⟩ := by
  have hword : (Expr.word Operation.select.name).read nested (s.enter .select) =
      .failed (s.enter .select).note := read_word_of_nil (by decide) hrest
  refine ⟨(s.enter .select).note.exit.rewind s.rest s.pos s.tokens.length, ?_, ?_⟩
  · simp only [select, Expr.read, within, Expr.seqAll, hword]
  · simp [State.exit, State.rewind, State.note, State.enter, State.mismatch, hrest, hfurthest]

theorem isSpace_blank : isSpace ' ' = true := rfl

theorem isSpace_of_mem_blanks {n : Nat} : ∀ c ∈ List.replicate n ' ', isSpace c = true := by
  intro c hc
  rw [List.eq_of_mem_replicate hc]
  exact isSpace_blank

/-- Blanks only are passed over, and then the word is missing that a query begins with. -/
theorem readQuery_blanks (settings : Settings) (n : Nat) :
    ∃ t, readQuery settings (List.replicate n ' ') = .failed t ∧
      t.furthest = some ⟨.select, n, n, none⟩ := by
  let s := (State.initial (List.replicate n ' ') settings.tokenCapacity).enter .query
  let u := ((s.enter .spacing).skip isSpace).exit.emit (.production .spacing) s.pos
  have hspacing : spacing.read (readClause settings.maxDepth) s = .matched u := rfl
  have hrest : u.rest = [] := List.dropWhile_eq_nil_iff.2 isSpace_of_mem_blanks
  have hpos : u.pos = n := by
    change 0 + ((List.replicate n ' ').takeWhile isSpace).length = n
    rw [List.takeWhile_eq_self_iff.2 isSpace_of_mem_blanks, List.length_replicate, Nat.zero_add]
  obtain ⟨t, ht, hfurthest⟩ := read_select_of_nil (readClause settings.maxDepth) hrest rfl
  rw [hpos] at hfurthest
  refine ⟨t.exit.rewind (List.replicate n ' ') 0 0, ?_, hfurthest⟩
  have hbody : (Expr.seqAll [spacing, select, .mark .chooseSelect, .finish]).read
      (readClause settings.maxDepth) s = .failed t := by
    simp only [Expr.seqAll, Expr.read, hspacing, ht]
  rw [readQuery, query, Expr.read, within, hbody]
  rfl

theorem newline_notMem_blanks (n : Nat) : '\n' ∉ List.replicate n ' ' := by
  intro hmem
  cases List.eq_of_mem_replicate hmem

theorem tokensOf_blanks (settings : Settings) {n : Nat} (hn : n ≤ maxInputLength) :
    tokensOf settings (List.replicate n ' ') = .error (.mismatch
        ⟨.production .select, ⟨1, n + 1⟩, ⟨1, n + 1⟩, "", none, settings.highlight⟩) ∧
      reported settings (List.replicate n ' ') = [n, n] := by
  obtain ⟨t, ht, hfurthest⟩ := readQuery_blanks settings n
  have hlength : ¬ maxInputLength < (List.replicate n ' ').length := by
    rw [List.length_replicate]
    exact Nat.not_lt.2 hn
  have hafter := Position.after_of_notMem (newline_notMem_blanks n)
  rw [List.length_replicate] at hafter
  constructor
  · rw [tokensOf, if_neg hlength, ht]
    simp [report, hfurthest, Position.ofOffsets_eq, hafter]
  · simp [reported, ht, hfurthest]

/-- A text of the greatest length that is made of blanks is refused at the column `2 ^ 32`, which
does not fit into 32 bits. -/
theorem blanks_counted_beyond_width :
    (List.replicate maxInputLength ' ').length ≤ maxInputLength ∧
      tokensOf {} (List.replicate maxInputLength ' ') = .error (.mismatch
        ⟨.production .select, ⟨1, 2 ^ 32⟩, ⟨1, 2 ^ 32⟩, "", none, false⟩) ∧
      ¬ ∀ p ∈ Position.passed (List.replicate maxInputLength ' ')
        (reported {} (List.replicate maxInputLength ' ')), p.Fits := by
  obtain ⟨htokens, hreported⟩ := tokensOf_blanks {} (Nat.le_refl maxInputLength)
  have hlength : (List.replicate maxInputLength ' ').length = maxInputLength :=
    List.length_replicate
  refine ⟨Nat.le_of_eq hlength, htokens, ?_⟩
  rw [Position.passed_fit_iff (Nat.le_of_eq hlength), Classical.not_not, hreported]
  exact ⟨⟨hlength, .inl (newline_notMem_blanks _)⟩, maxInputLength, List.mem_cons_self ..,
    Nat.le_of_eq hlength⟩

end Blanks

end TableLang
