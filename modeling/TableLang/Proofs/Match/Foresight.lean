import TableLang.Proofs.Grammar.Exact
import TableLang.Proofs.Grammar.Follows

/-! Mismatches are met on viable texts. Main statement: wherever a reading notes a mismatch, what
it has read up to there begins a text of the written grammar, in which the production blamed begins
where the mismatch says and goes on at least to the mismatch. -/
namespace TableLang.Grammar
open Sentence

def Expr.Productive : Expr → Prop
  | one accepts => ∃ c, accepts c = true
  | seq e f => e.Productive ∧ f.Productive
  | alt e f => e.Productive ∧ f.Productive
  | opt e => e.Productive
  | many _ e => e.Productive
  | ifNext _ e f => e.Productive ∧ f.Productive
  | named _ e => e.Productive
  | capture e => e.Productive
  | _ => True

namespace Expr

@[simp]
theorem productive_seqAll (es : List Expr) : (seqAll es).Productive ↔ ∀ e ∈ es, e.Productive := by
  induction es with
  | nil => simp [seqAll, Productive]
  | cons e es ih =>
    cases es with
    | nil => simp [seqAll]
    | cons f es => simpa [seqAll, Productive] using fun _ => ih

@[simp]
theorem productive_char (c : Char) : (char c).Productive := ⟨c, by simp⟩

@[simp]
theorem productive_word (text : String) : (word text).Productive := by
  simp [word]

end Expr

@[simp]
theorem spacing_productive : spacing.Productive := trivial

@[simp]
theorem requiredSpacing_productive : requiredSpacing.Productive := ⟨⟨' ', rfl⟩, trivial⟩

@[simp]
theorem key_productive : key.Productive := by
  have hkey : ∃ c, isKeyChar c = true := ⟨'a', rfl⟩
  have hescape : ∃ c, isEscapable c = true := ⟨'n', rfl⟩
  simp [key, keyPart, escape, Expr.Productive, hkey, hescape]

@[simp]
theorem predicateClause_productive : predicateClause.Productive := by
  simp [predicateClause, predicateName, predicateValue, predicateLiteral, predicateRowKey,
    predicateKey, Expr.star, Expr.Productive]

@[simp]
theorem groupClause_productive (c : Connective) : (groupClause c).Productive := by
  simp [groupClause, Expr.star, Expr.Productive]

theorem clauseBody_productive : clauseBody.Productive := by
  simp [clauseBody, Expr.Productive]

theorem query_productive : query.Productive := by
  have hdigit : ∃ c, isLeadingDigit c = true := ⟨'1', rfl⟩
  simp [query, select, selectKey, whereSection, limit, positiveInteger, Expr.Productive, hdigit]

theorem generates_clause (c : Clause) : Generates (.rule .whereClause) [c.derivation] := by
  have hparse := parse_clause c c.depth (Nat.le_refl _) []
  exact ((derives_clause_iff c.depth _).1 (parseClause_derives _ _ _ _ hparse)).1

/-- A productive expression stands for some text. -/
theorem exists_generates {e : Expr} (he : e.Follows) (hp : e.Productive) :
    ∃ ts, Generates e.plain ts := by
  induction e with
  | empty => exact ⟨_, .empty⟩
  | one accepts =>
    obtain ⟨c, hc⟩ := hp
    exact ⟨_, .one hc⟩
  | run accepts => exact ⟨_, .starNone⟩
  | finish => exact ⟨_, .empty⟩
  | mark a => exact ⟨_, .mark⟩
  | seq e f ihe ihf =>
    obtain ⟨ts, hts⟩ := ihe he.1 hp.1
    obtain ⟨us, hus⟩ := ihf he.2 hp.2
    exact ⟨_, .seq hts hus⟩
  | alt e f ihe ihf =>
    obtain ⟨ts, hts⟩ := ihe he.1 hp.1
    exact ⟨_, .choiceFirst hts⟩
  | opt e ih => exact ⟨_, .optNone⟩
  | many ahead e ih => exact ⟨_, .starNone⟩
  | ifNext c e f ihe ihf =>
    obtain ⟨ts, hts⟩ := ihe he.1 hp.1
    exact ⟨_, .choiceFirst hts⟩
  | named p e ih =>
    obtain ⟨-, hbody, he⟩ := he
    obtain ⟨ts, hts⟩ := ih he hp
    exact ⟨_, .rule (hbody ▸ hts)⟩
  | capture e ih =>
    obtain ⟨ts, hts⟩ := ih he hp
    exact ⟨_, .capture hts⟩
  | clause => exact ⟨_, generates_clause (.predicate .equal .none .none .rowKey [])⟩

end TableLang.Grammar

namespace TableLang.Match
open Grammar Grammar.Derivation

/-- What is read from `s` up to the offset `stop`, with `unread` left of the input, begins a text
that `e` generates from `s` on, with the tokens `l` among others. -/
def Viable (e : Expr) (s : State) (stop : Nat) (unread : List Char) (l : List Token) : Prop :=
  ∃ (read : List Char) (ts : List Derivation), s.rest = read ++ unread ∧
    stop = s.pos + read.length ∧ Generates e.plain ts ∧ read <+: textAll ts ∧
    l ⊆ tokensAll s.pos ts

namespace Viable
variable {e f : Expr} {s t : State} {stop : Nat} {unread : List Char} {l : List Token}
  {ts : List Derivation}

/-- Where nothing is read yet, any text will do. -/
theorem start (h : Generates e.plain ts) : Viable e s s.pos s.rest [] :=
  ⟨[], ts, rfl, rfl, h, List.nil_prefix, List.nil_subset _⟩

theorem imp (h : Viable e s stop unread l)
    (hplain : ∀ ts, Generates e.plain ts → Generates f.plain ts) : Viable f s stop unread l := by
  obtain ⟨read, ts, hrest, hstop, hts, hread, hl⟩ := h
  exact ⟨read, ts, hrest, hstop, hplain ts hts, hread, hl⟩

theorem mono (h : Viable e s stop unread l) {l' : List Token} (hl' : l' ⊆ l) :
    Viable e s stop unread l' := by
  obtain ⟨read, ts, hrest, hstop, hts, hread, hl⟩ := h
  exact ⟨read, ts, hrest, hstop, hts, hread, List.Subset.trans hl' hl⟩

theorem seq_first (h : Viable e s stop unread l) (hf : ∃ us, Generates f.plain us) :
    Viable (.seq e f) s stop unread l := by
  obtain ⟨read, ts, hrest, hstop, hts, hread, hl⟩ := h
  obtain ⟨us, hus⟩ := hf
  refine ⟨read, ts ++ us, hrest, hstop, .seq hts hus, ?_, ?_⟩
  · rw [textAll_append]
    exact hread.trans (List.prefix_append ..)
  · rw [tokensAll_append]
    exact List.subset_append_of_subset_left _ hl

/-- What is viable after a text that is read is viable from its beginning. -/
theorem after (hread : Advanced s t ts) (h : Viable f t stop unread l) :
    ∃ (read : List Char) (us : List Derivation), s.rest = read ++ unread ∧
      stop = s.pos + read.length ∧ Generates f.plain us ∧ read <+: textAll (ts ++ us) ∧
      l ⊆ tokensAll s.pos (ts ++ us) := by
  obtain ⟨read, us, hrest, hstop, hus, hprefix, hl⟩ := h
  refine ⟨textAll ts ++ read, us, ?_, ?_, hus, ?_, ?_⟩
  · rw [hread.rest, hrest, List.append_assoc]
  · rw [hstop, hread.pos, List.length_append, Nat.add_assoc]
  · rw [textAll_append]
    exact (List.prefix_append_right_inj _).2 hprefix
  · rw [tokensAll_append, ← hread.pos]
    exact List.subset_append_of_subset_right _ hl

theorem seq_second (hread : Advanced s t ts) (hts : Generates e.plain ts)
    (h : Viable f t stop unread l) : Viable (.seq e f) s stop unread l := by
  obtain ⟨read, us, hrest, hstop, hus, hprefix, hl⟩ := after hread h
  exact ⟨read, ts ++ us, hrest, hstop, .seq hts hus, hprefix, hl⟩

theorem many_first {ahead : List Char → Bool} (h : Viable e s stop unread l) :
    Viable (.many ahead e) s stop unread l :=
  h.imp fun ts hts => by
    have hstar := Generates.starMore hts .starNone
    rwa [List.append_nil] at hstar

theorem many_later {ahead : List Char → Bool} (hread : Advanced s t ts)
    (hts : Generates e.plain ts) (h : Viable (.many ahead e) t stop unread l) :
    Viable (.many ahead e) s stop unread l := by
  obtain ⟨read, us, hrest, hstop, hus, hprefix, hl⟩ := after hread h
  exact ⟨read, ts ++ us, hrest, hstop, .starMore hts hus, hprefix, hl⟩

theorem rewound (hread : Advanced s t []) (h : Viable e t stop unread l) :
    Viable e s stop unread l := by
  obtain ⟨read, us, hrest, hstop, hus, hprefix, hl⟩ := after hread h
  exact ⟨read, us, hrest, hstop, hus, hprefix, hl⟩

theorem capture (h : Viable e s stop unread l) : Viable (.capture e) s stop unread l := by
  obtain ⟨read, ts, hrest, hstop, hts, hread, hl⟩ := h
  refine ⟨read, [.node .text ts], hrest, hstop, .capture hts, ?_, ?_⟩
  · simpa [textAll, text] using hread
  · simp only [tokensAll, tokens, List.append_nil]
    exact List.subset_append_of_subset_left _ hl

/-- The production under which an expression is read goes on to the end of what is viable. -/
theorem named {p : Production} (hbody : rhs p = e.plain) (h : Viable e (s.enter p) stop unread l) :
    ∃ last, s.pos ≤ stop ∧ stop ≤ last ∧
      Viable (.named p e) s stop unread (⟨.production p, s.pos, last⟩ :: l) := by
  obtain ⟨read, ts, hrest, hstop, hts, hread, hl⟩ := h
  have hstop : stop = s.pos + read.length := hstop
  have hlength := hread.length_le
  refine ⟨s.pos + (textAll ts).length, by omega, by omega, read, [.node (.production p) ts], hrest,
    hstop, .rule (hbody ▸ hts), ?_, ?_⟩
  · simpa [textAll, text] using hread
  · simp only [tokensAll, tokens, List.append_nil]
    refine List.cons_subset.2 ⟨by simp, ?_⟩
    exact List.subset_append_of_subset_left _ hl

end Viable

def State.frame (s : State) : Frame := s.active.headD ⟨.query, 0⟩

theorem mismatch_eq (s : State) :
    s.mismatch = ⟨s.frame.rule, s.frame.start, s.pos, s.rest.head?⟩ := by
  unfold State.mismatch State.frame
  cases s.active <;> rfl

def Mismatch.Blames (m : Mismatch) (l : List Token) : Prop :=
  ∃ last, m.start ≤ m.stop ∧ m.stop ≤ last ∧ ⟨.production m.rule, m.start, last⟩ ∈ l

/-- A mismatch to be met when `e` is read from `s`: up to it the input is viable, and the production
it names is the one in which `e` is read or one that is met in `e`. -/
def Justified (e : Expr) (s : State) (m : Mismatch) : Prop :=
  ∃ (unread : List Char) (l : List Token), m.found = unread.head? ∧ Viable e s m.stop unread l ∧
    (s.frame = ⟨m.rule, m.start⟩ ∨ m.Blames l)

def Noted (e : Expr) (s t : State) : Prop :=
  t.furthest = s.furthest ∨ ∃ m, t.furthest = some m ∧ Justified e s m

def Outcome.Heeds (e : Expr) (s : State) : Outcome → Prop
  | matched t => Noted e s t
  | failed t => Noted e s t
  | tooDeep _ => True

section Noted
variable {e f : Expr} {s t u : State}

/-- What is noted on the way from `t` on is justified from `s` on, if viability is. -/
theorem Noted.trans (h : Noted e s t) (hframe : t.frame = s.frame)
    (hviable : ∀ stop unread l, Viable f t stop unread l → Viable e s stop unread l)
    (h' : Noted f t u) : Noted e s u := by
  obtain h' | ⟨m, hm, unread, l, hfound, hv, hblame⟩ := h'
  · rw [Noted, h']
    exact h
  · exact .inr ⟨m, hm, unread, l, hfound, hviable _ _ _ hv, hframe ▸ hblame⟩

theorem Noted.imp (hviable : ∀ stop unread l, Viable f s stop unread l → Viable e s stop unread l)
    (h : Noted f s t) : Noted e s t :=
  Noted.trans (.inl rfl) rfl hviable h

theorem Advanced.frame {ts : List Derivation} (h : Advanced s t ts) : t.frame = s.frame := by
  rw [State.frame, State.frame, h.active]

theorem Noted.enter {p : Production} (hbody : rhs p = e.plain) (h : Noted e (s.enter p) t) :
    Noted (.named p e) s t := by
  obtain h | ⟨m, hm, unread, l, hfound, hv, hblame⟩ := h
  · exact .inl h
  · obtain ⟨last, hstart, hlast, hv⟩ := hv.named hbody
    refine .inr ⟨m, hm, unread, _, hfound, hv, .inr ?_⟩
    obtain hframe | ⟨last', hle, hlast', hmem⟩ := hblame
    · have hrule : p = m.rule := congrArg Frame.rule hframe
      have hpos : s.pos = m.start := congrArg Frame.start hframe
      exact ⟨last, hpos ▸ hstart, hlast, by rw [hrule, hpos]; exact List.mem_cons_self ..⟩
    · exact ⟨last', hle, hlast', List.mem_cons_of_mem _ hmem⟩

/-- The mismatch at the present place is justified wherever an expression stands for some text. -/
theorem noted_note (h : ∃ ts, Generates e.plain ts) (s : State) : Noted e s s.note := by
  obtain ⟨ts, hts⟩ := h
  have hnow : Justified e s s.mismatch := by
    rw [mismatch_eq]
    exact ⟨s.rest, [], rfl, .start hts, .inl rfl⟩
  unfold State.note
  split
  · exact .inr ⟨s.mismatch, rfl, hnow⟩
  · split
    · exact .inr ⟨s.mismatch, rfl, hnow⟩
    · exact .inl rfl

end Noted

section Reading
variable {depth : Nat} {e f : Expr} {s t : State}

/-- What a reading matches, the written grammar generates. -/
theorem exists_advanced (he : e.Follows) (h : e.read (readClause depth) s = .matched t) :
    ∃ ts, Advanced s t ts ∧ Generates e.plain ts := by
  have hagrees := read_agrees (readClause_agrees depth) e s
  rw [h] at hagrees
  generalize hp : e.parse (parseClause depth) s.rest = p at hagrees
  cases hagrees with
  | @matched _ ts ht =>
    have hderives := parse_derives (parseClause_derives depth) e _ _ _ hp
    exact ⟨ts, ht, ((derives_iff_generates depth e he ts).1 hderives).1⟩

/-- A step that fails is undone. -/
theorem advanced_of_attempt (h : attempt (e.read (readClause depth)) s = .failed t) :
    Advanced s t [] := by
  have hsettles := attempt_settles (read_agrees (readClause_agrees depth) e s)
  rw [h] at hsettles
  generalize e.parse (parseClause depth) s.rest = p at hsettles
  cases hsettles with
  | failed ht => exact ht

theorem attempt_eq_matched {step : State → Outcome} :
    attempt step s = .matched t ↔ step s = .matched t := by
  unfold attempt
  cases step s <;> simp

theorem heeds_attempt {step : State → Outcome} (h : (step s).Heeds e s) :
    (attempt step s).Heeds e s := by
  unfold attempt
  generalize step s = o at h
  cases o with
  | matched t => exact h
  | failed t => exact h
  | tooDeep offset => trivial

theorem heeds_within {p : Production} (hbody : rhs p = e.plain) {step : State → Outcome}
    (h : (step (s.enter p)).Heeds e (s.enter p)) : (within p step s).Heeds (.named p e) s := by
  unfold within
  generalize step (s.enter p) = o at h
  cases o with
  | matched t => exact Noted.enter hbody h
  | failed t => exact Noted.enter hbody h
  | tooDeep offset => trivial

theorem Outcome.Heeds.imp {o : Outcome} (h : o.Heeds f t)
    (hnoted : ∀ u, Noted f t u → Noted e s u) :
    o.Heeds e s := by
  cases o with
  | matched u => exact hnoted u h
  | failed u => exact hnoted u h
  | tooDeep offset => trivial

theorem heeds_repeating (he : e.Follows) (ahead : List Char → Bool)
    (hstep : ∀ s, (e.read (readClause depth) s).Heeds e s) (s : State) :
    (repeating ahead (e.read (readClause depth)) s).Heeds (.many ahead e) s := by
  -- By induction on what is left of the input; what a later step notes is justified from `s` on.
  induction hlength : s.rest.length using Nat.strongRecOn generalizing s with
  | ind k ih =>
    rw [repeating]
    by_cases hahead : ahead s.rest = true
    · rw [if_pos hahead]
      have hone := (heeds_attempt (hstep s)).imp fun t ht =>
        Noted.imp (e := .many ahead e) (fun _ _ _ hv => hv.many_first) ht
      cases ho : attempt (e.read (readClause depth)) s with
      | matched t =>
        rw [ho] at hone
        obtain ⟨ts, ht, hts⟩ := exists_advanced he (attempt_eq_matched.1 ho)
        by_cases hless : t.rest.length < s.rest.length
        · simp only [hless, if_true]
          have hmore := ih t.rest.length (hlength ▸ hless) t rfl
          exact hmore.imp fun u hu =>
            Noted.trans hone ht.frame (fun _ _ _ hv => .many_later ht hts hv) hu
        · simp only [hless, if_false]
          exact hone
      | failed t =>
        rw [ho] at hone
        exact hone
      | tooDeep offset => trivial
    · rw [if_neg hahead]
      exact .inl rfl

/-- What a reading has noted when it ends is justified, if that is so of nested clauses. -/
theorem read_heeds (hclause : ∀ s, (readClause depth s).Heeds .clause s) (e : Expr)
    (he : e.Follows) (hp : e.Productive) (s : State) :
    (e.read (readClause depth) s).Heeds e s := by
  induction e generalizing s with
  | empty => exact .inl rfl
  | one accepts =>
    have hnote := noted_note (exists_generates he hp) s
    rw [Expr.read, State.readOne]
    split
    · split
      · exact .inl rfl
      · exact hnote
    · exact hnote
  | run accepts => exact .inl rfl
  | finish =>
    rw [Expr.read, State.readEnd]
    split
    · exact .inl rfl
    · exact noted_note (exists_generates he hp) s
  | mark a => exact .inl rfl
  | seq e f ihe ihf =>
    have hfirst := (ihe he.1 hp.1 s).imp fun t ht =>
      Noted.imp (fun _ _ _ hv => hv.seq_first (exists_generates he.2 hp.2)) ht
    rw [Expr.read]
    cases ho : e.read (readClause depth) s with
    | matched t =>
      rw [ho] at hfirst
      obtain ⟨ts, ht, hts⟩ := exists_advanced he.1 ho
      exact (ihf he.2 hp.2 t).imp fun u hu =>
        Noted.trans hfirst ht.frame (fun _ _ _ hv => .seq_second ht hts hv) hu
    | failed t =>
      rw [ho] at hfirst
      exact hfirst
    | tooDeep offset => trivial
  | alt e f ihe ihf =>
    have hfirst := (heeds_attempt (ihe he.1 hp.1 s)).imp fun t ht =>
      Noted.imp (e := .alt e f) (fun _ _ _ hv => hv.imp fun _ => .choiceFirst) ht
    rw [Expr.read]
    cases ho : attempt (e.read (readClause depth)) s with
    | matched t =>
      rw [ho] at hfirst
      exact hfirst
    | failed t =>
      rw [ho] at hfirst
      have ht := advanced_of_attempt ho
      exact (heeds_attempt (ihf he.2 hp.2 t)).imp fun u hu =>
        Noted.trans hfirst ht.frame (fun _ _ _ hv => (hv.rewound ht).imp fun _ => .choiceSecond) hu
    | tooDeep offset => trivial
  | opt e ih =>
    have hbody := (heeds_attempt (ih he hp s)).imp fun t ht =>
      Noted.imp (e := .opt e) (fun _ _ _ hv => hv.imp fun _ => .optSome) ht
    rw [Expr.read]
    cases ho : attempt (e.read (readClause depth)) s with
    | matched t =>
      rw [ho] at hbody
      exact hbody
    | failed t =>
      rw [ho] at hbody
      exact hbody
    | tooDeep offset => trivial
  | many ahead e ih =>
    have hbody : e.Follows := he
    exact heeds_repeating hbody ahead (ih hbody hp) s
  | ifNext c e f ihe ihf =>
    rw [Expr.read]
    split
    · exact (ihe he.1 hp.1 s).imp fun t ht =>
        Noted.imp (fun _ _ _ hv => hv.imp fun _ => .choiceFirst) ht
    · exact (ihf he.2 hp.2 s).imp fun t ht =>
        Noted.imp (fun _ _ _ hv => hv.imp fun _ => .choiceSecond) ht
  | named p e ih => exact heeds_within he.2.1 (ih he.2.2 hp (s.enter p))
  | capture e ih =>
    have hbody := (heeds_attempt (ih he hp s)).imp fun t ht =>
      Noted.imp (fun _ _ _ hv => hv.capture) ht
    rw [Expr.read, capturing]
    cases ho : attempt (e.read (readClause depth)) s with
    | matched t =>
      rw [ho] at hbody
      exact hbody
    | failed t =>
      rw [ho] at hbody
      exact hbody
    | tooDeep offset => trivial
  | clause => exact hclause s

theorem readClause_heeds (depth : Nat) (s : State) : (readClause depth s).Heeds .clause s := by
  induction depth generalizing s with
  | zero => trivial
  | succ depth ih =>
    have hbody := read_heeds ih clauseBody clauseBody_follows.2 clauseBody_productive
      (s.enter .whereClause)
    exact (heeds_within clauseBody_follows.1 hbody).imp fun t ht =>
      Noted.imp (fun _ _ _ hv => hv.imp fun _ h => h) ht

theorem readQuery_heeds (settings : Settings) (input : List Char) :
    (readQuery settings input).Heeds query (.initial input settings.tokenCapacity) :=
  read_heeds (readClause_heeds settings.maxDepth) query query_follows query_productive _

end Reading
end TableLang.Match
