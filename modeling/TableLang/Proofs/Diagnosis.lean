import TableLang.Proofs.Language
import TableLang.Proofs.Match.Depth
import TableLang.Proofs.Match.Pace
import TableLang.Proofs.Position

/-! The place of a syntax error. Main statement: what comes before the place where a text is said to
go wrong can be continued to a text of the written grammar, in which the production blamed begins
where it is said to begin; with the character found there it cannot be continued any more. -/
namespace TableLang
open Grammar Grammar.Derivation Match

def Hopeless (beginning : List Char) : Prop :=
  ∀ (more : List Char) (t : Derivation), ¬ t.Spells (beginning ++ more)

/-- A key may end at an offset: what comes before can be continued to a text of the written grammar
in which one ends there. -/
def KeyMayEnd (source : List Char) (stop : Nat) : Prop :=
  ∃ (more : List Char) (t : Derivation) (start : Nat),
    t.Spells (source.take stop ++ more) ∧ ⟨.production .key, start, stop⟩ ∈ t.tokens 0

/-- A syntax error names a production `p` of a text that begins at the offset `start`, and the
offset `stop` with the character there. -/
structure SyntaxError.PointsAt (e : SyntaxError) (source : List Char) (p : Production)
    (start stop : Nat) : Prop where
  rule_eq : e.rule = .production p
  start_eq : e.start = .after (source.take start)
  stop_eq : e.stop = .after (source.take stop)
  found_eq : e.found = source[stop]?
  start_le : start ≤ stop
  stop_le : stop ≤ source.length

section Readings
variable {settings : Settings} {input unread : List Char} {s : State}

theorem exists_spells_of_viable {stop : Nat} {l : List Token}
    (h : Viable query (.initial input settings.tokenCapacity) stop unread l) :
    stop ≤ input.length ∧ input.drop stop = unread ∧
      ∃ (more : List Char) (t : Derivation), t.Spells (input.take stop ++ more) ∧
        l ⊆ t.tokens 0 := by
  obtain ⟨read, ts, hrest, hstop, hts, hread, hl⟩ := h
  have hinput : input = read ++ unread := hrest
  have hstop : stop = read.length := hstop.trans (Nat.zero_add _)
  obtain ⟨more, hmore⟩ := hread
  cases id hts with
  | @rule _ us hbody =>
    refine ⟨by simp [hinput, hstop], by simp [hinput, hstop], more, _, ⟨hts, ?_⟩, ?_⟩
    · rw [hinput, hstop, List.take_left, hmore, textAll, textAll, List.append_nil]
    · simpa [tokensAll, State.initial] using hl

/-- A text of the written grammar is read, if its clauses are not nested too deep. -/
theorem exists_readQuery_matched (settings : Settings) {text : List Char} {t : Derivation}
    (ht : t.Spells text) (hnesting : t.nesting ≤ settings.maxDepth) :
    ∃ u, readQuery settings text = .matched u := by
  obtain ⟨sentence, rfl, rfl⟩ := exists_sentence ht
  rw [sentence.nesting_derivation] at hnesting
  have hagrees := readQuery_agrees settings sentence.text
  rw [parse_query sentence hnesting] at hagrees
  cases ho : readQuery settings sentence.text with
  | matched u => exact ⟨u, rfl⟩
  | failed u =>
    rw [ho] at hagrees
    cases hagrees
  | tooDeep offset =>
    rw [ho] at hagrees
    cases hagrees

/-- A reading that fails, and a text of the written grammar: with clauses allowed to be nested deep
enough, the reading fails as before and the text is read. -/
theorem exists_failed_matched (h : readQuery settings input = .failed s) {text : List Char}
    {t : Derivation} (ht : t.Spells text) :
    ∃ depth u, readQuery { settings with maxDepth := depth } input = .failed s ∧
      readQuery { settings with maxDepth := depth } text = .matched u := by
  have hpersists := readQuery_persists settings (Nat.le_max_left settings.maxDepth t.nesting) input
  obtain ⟨u, hu⟩ := exists_readQuery_matched
    { settings with maxDepth := max settings.maxDepth t.nesting } ht (Nat.le_max_right ..)
  refine ⟨_, u, ?_, hu⟩
  rw [h] at hpersists
  generalize readQuery _ input = o at hpersists
  cases hpersists with
  | same => rfl

theorem not_spells_of_failed (h : readQuery settings input = .failed s) (t : Derivation) :
    ¬ t.Spells input := by
  intro ht
  obtain ⟨depth, u, hfailed, hmatched⟩ := exists_failed_matched h ht
  rw [hfailed] at hmatched
  cases hmatched

/-- If a reading fails before it gets to an offset, a text of the written grammar with the same
beginning up to there can only go on otherwise in the midst of an escape. -/
theorem cutsKey_of_spells (h : readQuery settings input = .failed s) {n : Nat}
    (hn : n ≤ input.length) (hreached : ¬ s.Reached n) {more : List Char} {t : Derivation}
    (ht : t.Spells (input.take n ++ more)) :
    CutsKey (input.drop n) more query (.initial input settings.tokenCapacity) := by
  refine Classical.byContradiction fun hcut => hreached ?_
  obtain ⟨depth, u, hfailed, hmatched⟩ := exists_failed_matched h ht
  have hpaced := readQuery_paced { settings with maxDepth := depth } hn hcut
  rw [hfailed, hmatched] at hpaced
  cases hpaced with
  | passed hpassed => exact hpassed

section Furthest
variable {m : Mismatch}

/-- Beyond the mismatch noted nothing was reached. -/
theorem not_reached (hm : s.furthest = some m) : ¬ s.Reached (m.stop + 1) := by
  rintro ⟨m', hm', hle⟩
  rw [hm, Option.some.injEq] at hm'
  subst hm'
  exact Nat.not_succ_le_self _ hle

theorem hopeless_at_mismatch (h : readQuery settings input = .failed s) (hm : s.furthest = some m)
    {c : Char} (hc : input[m.stop]? = some c) (hkey : ¬ (c = '\\' ∧ KeyMayEnd input m.stop)) :
    Hopeless (input.take (m.stop + 1)) := by
  obtain ⟨hlt, -⟩ := List.getElem?_eq_some_iff.1 hc
  intro more t ht
  obtain ⟨-, start, stop, hviable⟩ := cutsKey_of_spells h hlt (not_reached hm) ht
  obtain ⟨hle, hdrop, more', t', ht', hl⟩ := exists_spells_of_viable hviable
  -- The key can only end where the mismatch is.
  have hlength := congrArg List.length hdrop
  rw [List.length_cons, List.length_drop, List.length_drop] at hlength
  obtain rfl : stop = m.stop := by omega
  have hhead := congrArg List.head? hdrop
  rw [List.head?_drop, hc, List.head?_cons, Option.some.injEq] at hhead
  exact hkey ⟨hhead, more', t', start, ht', hl (List.mem_cons_self ..)⟩

theorem hopeless_after_mismatch (h : readQuery settings input = .failed s)
    (hm : s.furthest = some m) (hlt : m.stop + 1 < input.length) :
    Hopeless (input.take (m.stop + 2)) := by
  intro more t ht
  have hdrop : input.drop (m.stop + 1) = input[m.stop + 1] :: input.drop (m.stop + 2) :=
    List.drop_eq_getElem_cons hlt
  rw [List.take_succ_eq_append_getElem hlt, List.append_assoc] at ht
  obtain ⟨hne, -⟩ := cutsKey_of_spells h (Nat.le_of_lt hlt) (not_reached hm) ht
  rw [hdrop] at hne
  exact hne rfl

theorem exists_blamed {more : List Char} {t : Derivation} {l : List Token}
    (hle : m.stop ≤ input.length) (ht : t.Spells (input.take m.stop ++ more)) (hl : l ⊆ t.tokens 0)
    (h : (State.initial input settings.tokenCapacity).frame = ⟨m.rule, m.start⟩ ∨ m.Blames l) :
    ∃ last, m.start ≤ m.stop ∧ m.stop ≤ last ∧
      ⟨.production m.rule, m.start, last⟩ ∈ t.tokens 0 := by
  obtain hframe | ⟨last, hstart, hlast, hmem⟩ := h
  · have hrule : .query = m.rule := congrArg Frame.rule hframe
    have hstart : 0 = m.start := congrArg Frame.start hframe
    obtain ⟨earlier, htokens, -⟩ := tokens_of_spells ht
    refine ⟨(input.take m.stop ++ more).length, hstart ▸ Nat.zero_le _, ?_, ?_⟩
    · rw [List.length_append, List.length_take, Nat.min_eq_left hle]
      exact Nat.le_add_right ..
    · rw [htokens, ← hrule, ← hstart]
      exact List.mem_append_right _ (List.mem_singleton_self _)
  · exact ⟨last, hstart, hlast, hl hmem⟩

end Furthest
end Readings

/-- The mismatch that a syntax error reports. -/
theorem exists_mismatch {settings : Settings} {source : String} {e : SyntaxError}
    (h : tokenize settings source = .error (.mismatch e)) :
    ∃ s m, readQuery settings source.toList = .failed s ∧ s.furthest = some m ∧
      Justified query (.initial source.toList settings.tokenCapacity) m ∧
      e.rule = .production m.rule ∧ e.start = .after (source.toList.take m.start) ∧
      e.stop = .after (source.toList.take m.stop) ∧ e.found = m.found := by
  rw [tokenize, tokensOf] at h
  split at h
  · cases h
  · cases ho : readQuery settings source.toList with
    | matched s =>
      rw [ho] at h
      cases h
    | tooDeep offset =>
      rw [ho] at h
      cases h
    | failed s =>
      rw [ho] at h
      have hheeds := readQuery_heeds settings source.toList
      rw [ho] at hheeds
      obtain ⟨m, hm⟩ := exists_furthest ho
      obtain hnone | ⟨m', hm', hjustified⟩ := hheeds
      · rw [hm] at hnone
        cases hnone
      · rw [hm, Option.some.injEq] at hm'
        subst hm'
        simp only [report, hm, Option.getD_some, Position.ofOffsets_eq, Except.error.injEq,
          ParseError.mismatch.injEq] at h
        subst h
        exact ⟨s, m, rfl, hm, hjustified, rfl, rfl, rfl, rfl⟩

/-- A syntax error points at the place where a text goes wrong. What comes before can be continued
to a text of the written grammar, in which the production named begins where it is said to and goes
on at least to that place. If the input ends there, it is not of the written grammar itself.
Otherwise no text of it begins with all this and the character found; only where that is a backslash
after a key, which may begin an escape, one character more is needed to see this. -/
theorem mismatch_at_end_of_viable_prefix (settings : Settings) (source : String) (e : SyntaxError)
    (h : tokenize settings source = .error (.mismatch e)) :
    ∃ p start stop, e.PointsAt source.toList p start stop ∧
      (∃ (more : List Char) (t : Derivation) (last : Nat),
        t.Spells (source.toList.take stop ++ more) ∧ stop ≤ last ∧
          ⟨.production p, start, last⟩ ∈ t.tokens 0) ∧
      (e.found = none → stop = source.length ∧ ∀ t : Derivation, ¬ t.Spells source.toList) ∧
      (∀ c, e.found = some c →
        (¬ (c = '\\' ∧ KeyMayEnd source.toList stop) →
          Hopeless (source.toList.take (stop + 1))) ∧
        (stop + 2 ≤ source.length → Hopeless (source.toList.take (stop + 2)))) := by
  obtain ⟨s, m, hfailed, hm, hjustified, hrule, hstart, hstop, hfound⟩ := exists_mismatch h
  obtain ⟨unread, l, hunread, hviable, hblame⟩ := hjustified
  obtain ⟨hle, hdrop, more, t, ht, hl⟩ := exists_spells_of_viable hviable
  obtain ⟨last, hfirst, hlast, hmem⟩ := exists_blamed hle ht hl hblame
  have hchar : e.found = source.toList[m.stop]? := by
    rw [hfound, hunread, ← hdrop, List.head?_drop]
  rw [← String.length_toList]
  refine ⟨m.rule, m.start, m.stop, ⟨hrule, hstart, hstop, hchar, hfirst, hle⟩,
    ⟨more, t, last, ht, hlast, hmem⟩, fun hnone => ?_, fun c hc => ⟨fun hkey => ?_, fun hlt => ?_⟩⟩
  · have hend := List.getElem?_eq_none_iff.1 (hchar.symm.trans hnone)
    exact ⟨Nat.le_antisymm hle hend, not_spells_of_failed hfailed⟩
  · exact hopeless_at_mismatch hfailed hm (hchar.symm.trans hc) hkey
  · exact hopeless_after_mismatch hfailed hm hlt

theorem mismatch_at_end_of_viable_prefix_escape :
    tokenize {} "select a\\q" = .error (.mismatch
        ⟨.production .requiredSpacing, ⟨1, 9⟩, ⟨1, 9⟩, "", some '\\', false⟩) ∧
      ∃ p start stop, SyntaxError.PointsAt
          ⟨.production .requiredSpacing, ⟨1, 9⟩, ⟨1, 9⟩, "", some '\\', false⟩
          "select a\\q".toList p start stop ∧
        (∃ (more : List Char) (t : Derivation) (last : Nat),
          t.Spells ("select a\\q".toList.take stop ++ more) ∧ stop ≤ last ∧
            ⟨.production p, start, last⟩ ∈ t.tokens 0) ∧
        (¬ KeyMayEnd "select a\\q".toList stop → Hopeless ("select a\\q".toList.take (stop + 1))) ∧
        (stop + 2 ≤ 10 → Hopeless ("select a\\q".toList.take (stop + 2))) := by
  have h : tokenize {} "select a\\q" = .error (.mismatch
      ⟨.production .requiredSpacing, ⟨1, 9⟩, ⟨1, 9⟩, "", some '\\', false⟩) := by decide +kernel
  obtain ⟨p, start, stop, hpoints, hviable, -, hhopeless⟩ :=
    mismatch_at_end_of_viable_prefix {} _ _ h
  obtain ⟨hnext, hlater⟩ := hhopeless '\\' rfl
  exact ⟨h, p, start, stop, hpoints, hviable, fun hkey => hnext fun hc => hkey hc.2, hlater⟩

end TableLang
