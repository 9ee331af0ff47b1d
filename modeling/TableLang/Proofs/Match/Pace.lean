import TableLang.Proofs.Match.Foresight
import TableLang.Proofs.Match.Progress

/-! Two readings of inputs that begin alike. Main statement: as long as the first reading has not
got past the common beginning, and has noted no mismatch past it, the second one does what the first
one does. The only step that looks further ahead is the one that decides whether a key goes on at a
backslash, so that inputs which part right after such a backslash have to be left out. -/
namespace TableLang.Match
open Grammar Grammar.Derivation

def Abreast (n : Nat) (r r' : List Char) (s s' : State) : Prop :=
  ∃ cs, s.rest = cs ++ r ∧ s'.rest = cs ++ r' ∧ s.pos + cs.length = n

inductive Paced (n : Nat) (r r' : List Char) : Outcome → Outcome → Prop where
  | matched {t t' : State} (h : Abreast n r r' t t') : Paced n r r' (.matched t) (.matched t')
  | failed {t t' : State} (h : Abreast n r r' t t') : Paced n r r' (.failed t) (.failed t')
  | passed {o o' : Outcome} (h : o.Passed n) : Paced n r r' o o'

variable {n : Nat} {r r' : List Char} {s s' : State}

/-- Either a reading is past the common text or the same character comes next in both. -/
theorem Abreast.next (h : Abreast n r r' s s') :
    n ≤ s.pos ∨ ∃ c cs, s.rest = c :: (cs ++ r) ∧ s'.rest = c :: (cs ++ r') ∧
      s.pos + 1 + cs.length = n := by
  obtain ⟨cs, hrest, hrest', hn⟩ := h
  cases cs with
  | nil => exact .inl (by simpa using Nat.le_of_eq hn.symm)
  | cons c cs =>
    refine .inr ⟨c, cs, hrest, hrest', ?_⟩
    rw [List.length_cons] at hn
    omega

theorem Abreast.note (h : Abreast n r r' s s') : Abreast n r r' s.note s'.note := by
  obtain ⟨cs, hrest, hrest', hn⟩ := h
  exact ⟨cs, by simpa using hrest, by simpa using hrest', by simpa using hn⟩

section Steps
variable {step : State → Outcome}

/-- A step that fails is undone in both readings. -/
theorem attempt_paced (hs : Abreast n r r' s s') (h : Paced n r r' (step s) (step s')) :
    Paced n r r' (attempt step s) (attempt step s') := by
  generalize ho : step s = o at h
  generalize ho' : step s' = o' at h
  cases h with
  | matched ht =>
    rw [attempt, attempt, ho, ho']
    exact .matched ht
  | failed ht =>
    rw [attempt, attempt, ho, ho']
    exact .failed hs
  | passed hpassed => exact .passed (passed_attempt (ho ▸ hpassed))

theorem within_paced {p : Production} (hs : Abreast n r r' s s')
    (h : Paced n r r' (step (s.enter p)) (step (s'.enter p))) :
    Paced n r r' (within p step s) (within p step s') := by
  generalize ho : step (s.enter p) = o at h
  generalize ho' : step (s'.enter p) = o' at h
  cases h with
  | matched ht =>
    rw [within, within, ho, ho']
    exact .matched ht
  | failed ht =>
    rw [within, within, ho, ho']
    exact .failed hs
  | passed hpassed => exact .passed (passed_within (ho ▸ hpassed))

theorem capturing_paced (hs : Abreast n r r' s s') (h : Paced n r r' (step s) (step s')) :
    Paced n r r' (capturing step s) (capturing step s') := by
  have hattempt := attempt_paced hs h
  generalize ho : attempt step s = o at hattempt
  generalize ho' : attempt step s' = o' at hattempt
  cases hattempt with
  | matched ht =>
    rw [capturing, capturing, ho, ho']
    exact .matched ht
  | failed ht =>
    rw [capturing, capturing, ho, ho']
    exact .failed ht
  | passed hpassed => exact .passed (passed_capturing (ho ▸ hpassed))

/-- One step of a repetition, and what is to be known of the later ones. -/
theorem repeating_paced_step {ahead : List Char → Bool} (hs : Abreast n r r' s s')
    (hahead : ahead s.rest = ahead s'.rest) (h : Paced n r r' (step s) (step s'))
    (hpassed : ∀ t, t.Beyond n → (step t).Passed n)
    (hmore : ∀ t t', step s = .matched t → Abreast n r r' t t' →
      t.rest.length < s.rest.length →
        Paced n r r' (repeating ahead step t) (repeating ahead step t')) :
    Paced n r r' (repeating ahead step s) (repeating ahead step s') := by
  by_cases hbegins : ahead s.rest = true
  · have hattempt := attempt_paced hs h
    generalize ho : attempt step s = o at hattempt
    generalize ho' : attempt step s' = o' at hattempt
    cases hattempt with
    | @matched t t' ht =>
      -- Both readings have got on by the same number of characters.
      have hless : t.rest.length < s.rest.length ↔ t'.rest.length < s'.rest.length := by
        obtain ⟨cs, hrest, hrest', -⟩ := hs
        obtain ⟨ds, htrest, htrest', -⟩ := ht
        simp only [hrest, hrest', htrest, htrest', List.length_append]
        omega
      rw [repeating, repeating, if_pos hbegins, if_pos (hahead ▸ hbegins), ho, ho']
      by_cases hlt : t.rest.length < s.rest.length
      · simp only [hlt, hless.1 hlt, if_true]
        exact hmore t t' (attempt_eq_matched.1 ho) ht hlt
      · simp only [hlt, mt hless.2 hlt, if_false]
        exact .matched ht
    | failed ht =>
      rw [repeating, repeating, if_pos hbegins, if_pos (hahead ▸ hbegins), ho, ho']
      exact .matched ht
    | passed hpast =>
      exact .passed (passed_repeating_step hbegins (ho ▸ hpast) fun t _ ht =>
        passed_repeating ahead hpassed t ht)
  · rw [repeating, repeating, if_neg hbegins, if_neg (hahead ▸ hbegins)]
    exact .matched hs

end Steps

section Expressions
variable {depth : Nat} {e f : Expr}

/-- A reading that begins past the common text is past it. -/
theorem paced_of_le (h : n ≤ s.pos) (e : Expr) (o' : Outcome) :
    Paced n r r' (e.read (readClause depth) s) o' :=
  .passed (read_passed (readClause_passed depth) e s (.inl h))

theorem one_paced (accepts : Char → Bool) (hs : Abreast n r r' s s') :
    Paced n r r' ((Expr.one accepts).read (readClause depth) s)
      ((Expr.one accepts).read (readClause depth) s') := by
  obtain hle | ⟨c, cs, hrest, hrest', hn⟩ := hs.next
  · exact paced_of_le hle _ _
  · simp only [Expr.read, State.readOne, hrest, hrest']
    by_cases hc : accepts c = true
    · simp only [hc, if_true]
      exact .matched ⟨cs, rfl, rfl, hn⟩
    · simp only [hc]
      exact .failed hs.note

theorem run_paced (accepts : Char → Bool) (hs : Abreast n r r' s s') :
    Paced n r r' ((Expr.run accepts).read (readClause depth) s)
      ((Expr.run accepts).read (readClause depth) s') := by
  obtain ⟨cs, hrest, hrest', hn⟩ := hs
  have hlength := congrArg List.length (List.takeWhile_append_dropWhile (p := accepts) (l := cs))
  rw [List.length_append] at hlength
  simp only [Expr.read, State.skip, hrest, hrest']
  by_cases hend : cs.dropWhile accepts = []
  · -- The run goes on to the end of the common text.
    refine .passed (.inl ?_)
    have htake : cs.takeWhile accepts = cs := by
      have happend := List.takeWhile_append_dropWhile (p := accepts) (l := cs)
      rwa [hend, List.append_nil] at happend
    simp only [List.takeWhile_append, htake, if_true, List.length_append]
    omega
  · have hshort : (cs.takeWhile accepts).length ≠ cs.length := by
      have hpos := List.length_pos_iff.2 hend
      omega
    simp only [List.takeWhile_append, List.dropWhile_append, if_neg hshort, List.isEmpty_iff, hend,
      if_false]
    refine .matched ⟨cs.dropWhile accepts, rfl, rfl, ?_⟩
    simp only
    omega

theorem finish_paced (hs : Abreast n r r' s s') :
    Paced n r r' (Expr.finish.read (readClause depth) s)
      (Expr.finish.read (readClause depth) s') := by
  obtain hle | ⟨c, cs, hrest, hrest', hn⟩ := hs.next
  · exact paced_of_le hle _ _
  · simp only [Expr.read, State.readEnd, hrest, hrest']
    exact .failed hs.note

theorem seq_paced
    (he : Paced n r r' (e.read (readClause depth) s) (e.read (readClause depth) s'))
    (hf : ∀ t t', e.read (readClause depth) s = .matched t → Abreast n r r' t t' →
      Paced n r r' (f.read (readClause depth) t) (f.read (readClause depth) t')) :
    Paced n r r' ((Expr.seq e f).read (readClause depth) s)
      ((Expr.seq e f).read (readClause depth) s') := by
  generalize ho : e.read (readClause depth) s = o at he
  generalize ho' : e.read (readClause depth) s' = o' at he
  cases he with
  | @matched t t' ht =>
    rw [Expr.read, Expr.read, ho, ho']
    exact hf t t' ho ht
  | failed ht =>
    rw [Expr.read, Expr.read, ho, ho']
    exact .failed ht
  | passed hpassed =>
    exact .passed (passed_seq (ho ▸ hpassed) (read_passed (readClause_passed depth) f))

theorem alt_paced (hs : Abreast n r r' s s')
    (he : Paced n r r' (e.read (readClause depth) s) (e.read (readClause depth) s'))
    (hf : ∀ t t', attempt (e.read (readClause depth)) s = .failed t → Abreast n r r' t t' →
      Paced n r r' (f.read (readClause depth) t) (f.read (readClause depth) t')) :
    Paced n r r' ((Expr.alt e f).read (readClause depth) s)
      ((Expr.alt e f).read (readClause depth) s') := by
  have hattempt := attempt_paced hs he
  generalize ho : attempt (e.read (readClause depth)) s = o at hattempt
  generalize ho' : attempt (e.read (readClause depth)) s' = o' at hattempt
  cases hattempt with
  | matched ht =>
    rw [Expr.read, Expr.read, ho, ho']
    exact .matched ht
  | @failed t t' ht =>
    rw [Expr.read, Expr.read, ho, ho']
    exact attempt_paced ht (hf t t' ho ht)
  | passed hpassed =>
    exact .passed (passed_alt (ho ▸ hpassed) (read_passed (readClause_passed depth) f))

theorem opt_paced (hs : Abreast n r r' s s')
    (he : Paced n r r' (e.read (readClause depth) s) (e.read (readClause depth) s')) :
    Paced n r r' ((Expr.opt e).read (readClause depth) s)
      ((Expr.opt e).read (readClause depth) s') := by
  have hattempt := attempt_paced hs he
  generalize ho : attempt (e.read (readClause depth)) s = o at hattempt
  generalize ho' : attempt (e.read (readClause depth)) s' = o' at hattempt
  cases hattempt with
  | matched ht =>
    rw [Expr.read, Expr.read, ho, ho']
    exact .matched ht
  | failed ht =>
    rw [Expr.read, Expr.read, ho, ho']
    exact .matched ht
  | passed hpassed => exact .passed (passed_opt (ho ▸ hpassed))

theorem ifNext_paced {c : Char} (hs : Abreast n r r' s s')
    (he : Paced n r r' (e.read (readClause depth) s) (e.read (readClause depth) s'))
    (hf : Paced n r r' (f.read (readClause depth) s) (f.read (readClause depth) s')) :
    Paced n r r' ((Expr.ifNext c e f).read (readClause depth) s)
      ((Expr.ifNext c e f).read (readClause depth) s') := by
  obtain hle | ⟨d, cs, hrest, hrest', hn⟩ := hs.next
  · exact paced_of_le hle _ _
  · rw [Expr.read, Expr.read, hrest, hrest', List.head?_cons, List.head?_cons]
    split
    · exact he
    · exact hf

end Expressions

/-- The inputs part right after a backslash, which is the beginning of a further part of a key in
one of them only, and a reading of `e` from `s` may have come to the end of a key before it. -/
def CutsKey (r r' : List Char) (e : Expr) (s : State) : Prop :=
  startsKeyPart ('\\' :: r) ≠ startsKeyPart ('\\' :: r') ∧
    ∃ start stop, Viable e s stop ('\\' :: r) [⟨.production .key, start, stop⟩]

theorem CutsKey.imp {e f : Expr} {t : State} (h : CutsKey r r' e t)
    (hviable : ∀ stop l, Viable e t stop ('\\' :: r) l → Viable f s stop ('\\' :: r) l) :
    CutsKey r r' f s := by
  obtain ⟨hparts, start, stop, hv⟩ := h
  exact ⟨hparts, start, stop, hviable _ _ hv⟩

section Keys
variable {depth : Nat}

theorem keyPart_paced (hs : Abreast n r r' s s') :
    Paced n r r' (keyPart.read (readClause depth) s) (keyPart.read (readClause depth) s') :=
  ifNext_paced hs
    (within_paced hs (seq_paced (one_paced _ hs) fun _ _ _ ht => one_paced _ ht))
    (one_paced _ hs)

/-- Whether a part of a key comes next is seen from the first two characters, and from the first one
alone unless it is a backslash. -/
theorem startsKeyPart_append {cs : List Char} (hcs : cs ≠ [])
    (hlast : cs = ['\\'] → startsKeyPart ('\\' :: r) = startsKeyPart ('\\' :: r')) :
    startsKeyPart (cs ++ r) = startsKeyPart (cs ++ r') := by
  cases cs with
  | nil => exact absurd rfl hcs
  | cons c cs =>
    by_cases hc : c = '\\'
    · subst hc
      cases cs with
      | nil => exact hlast rfl
      | cons d cs => rfl
    · rw [List.cons_append, List.cons_append, startsKeyPart_cons _ hc, startsKeyPart_cons _ hc]

theorem keyParts_paced (hs : Abreast n r r' s s')
    (hcut : startsKeyPart ('\\' :: r) ≠ startsKeyPart ('\\' :: r') →
      ∀ us, Generates (.star keyPart.plain) us → s.rest ≠ textAll us ++ '\\' :: r) :
    Paced n r r' (repeating startsKeyPart (keyPart.read (readClause depth)) s)
      (repeating startsKeyPart (keyPart.read (readClause depth)) s') := by
  induction hlength : s.rest.length using Nat.strongRecOn generalizing s s' with
  | ind k ih =>
    have hpassed := read_passed (n := n) (readClause_passed depth) keyPart
    obtain ⟨cs, hrest, hrest', hn⟩ := id hs
    by_cases hcs : cs = []
    · refine .passed (passed_repeating startsKeyPart hpassed s (.inl ?_))
      rw [hcs, List.length_nil] at hn
      omega
    · -- The same comes next in both unless a backslash is all that is left of the common text.
      have hahead : startsKeyPart s.rest = startsKeyPart s'.rest := by
        rw [hrest, hrest']
        refine startsKeyPart_append hcs fun hlast => Decidable.byContradiction fun hne => ?_
        exact hcut hne [] .starNone (by rw [hrest, hlast]; rfl)
      refine repeating_paced_step hs hahead (keyPart_paced hs) hpassed fun t t' ho ht hless => ?_
      refine ih t.rest.length (hlength ▸ hless) ht (fun hne us hus hend => ?_) rfl
      have hfollows : keyPart.Follows := key_follows.2.2.1
      obtain ⟨ts, hread, hts⟩ := exists_advanced hfollows ho
      refine hcut hne (ts ++ us) (.starMore hts hus) ?_
      rw [hread.rest, hend, textAll_append, List.append_assoc]

theorem key_paced (hs : Abreast n r r' s s') (hcut : ¬ CutsKey r r' key s) :
    Paced n r r' (key.read (readClause depth) s) (key.read (readClause depth) s') := by
  obtain ⟨-, hbody, hfollows, -⟩ := key_follows
  refine within_paced hs (seq_paced (keyPart_paced hs) fun t t' ho ht => ?_)
  refine keyParts_paced ht fun hne us hus hend => ?_
  obtain ⟨ts, hread, hts⟩ := exists_advanced hfollows ho
  have hrest : s.rest = textAll (ts ++ us) ++ '\\' :: r := by
    rw [textAll_append, List.append_assoc, ← hend]
    exact hread.rest
  have hkey : Generates key.plain [.node (.production .key) (ts ++ us)] :=
    .rule (hbody ▸ .seq hts hus)
  exact hcut ⟨hne, s.pos, s.pos + (textAll (ts ++ us)).length, textAll (ts ++ us), _, hrest, rfl,
    hkey, by simp [textAll, text], by simp [tokensAll, tokens]⟩

end Keys

end TableLang.Match

namespace TableLang.Grammar

def Expr.Steady : Expr → Prop
  | seq e f => e.Steady ∧ f.Steady
  | alt e f => e.Steady ∧ f.Steady
  | opt e => e.Steady
  | many ahead e => (∀ input, ahead input = true) ∧ e.Steady
  | ifNext _ e f => e.Steady ∧ f.Steady
  | named p e => named p e = key ∨ e.Steady
  | capture e => e.Steady
  | _ => True

namespace Expr

@[simp]
theorem steady_seqAll (es : List Expr) : (seqAll es).Steady ↔ ∀ e ∈ es, e.Steady := by
  induction es with
  | nil => simp [seqAll, Steady]
  | cons e es ih =>
    cases es with
    | nil => simp [seqAll]
    | cons f es => simpa [seqAll, Steady] using fun _ => ih

@[simp]
theorem steady_char (c : Char) : (char c).Steady := trivial

@[simp]
theorem steady_word (text : String) : (word text).Steady := by
  simp [word]

end Expr

@[simp]
theorem spacing_steady : spacing.Steady := .inr trivial

@[simp]
theorem requiredSpacing_steady : requiredSpacing.Steady := .inr ⟨trivial, trivial⟩

@[simp]
theorem key_steady : key.Steady := .inl rfl

@[simp]
theorem predicateClause_steady : predicateClause.Steady := by
  simp [predicateClause, predicateName, predicateValue, predicateLiteral, predicateRowKey,
    predicateKey, Expr.star, Expr.Steady]

@[simp]
theorem groupClause_steady (c : Connective) : (groupClause c).Steady := by
  simp [groupClause, Expr.star, Expr.Steady]

theorem clauseBody_steady : clauseBody.Steady := by
  simp [clauseBody, Expr.Steady]

theorem query_steady : query.Steady := by
  simp [query, select, selectKey, whereSection, limit, positiveInteger, Expr.Steady]

end TableLang.Grammar

namespace TableLang.Match
open Grammar

section Reading
variable {n depth : Nat} {r r' : List Char}

theorem CutsKey.named {e : Expr} {p : Production} {s : State} (hbody : rhs p = e.plain)
    (h : CutsKey r r' e (s.enter p)) : CutsKey r r' (.named p e) s :=
  h.imp fun stop l hv => by
    obtain ⟨last, -, -, hv⟩ := hv.named hbody
    exact hv.mono (List.subset_cons_self ..)

theorem many_paced {ahead : List Char → Bool} {e : Expr} (hahead : ∀ input, ahead input = true)
    (he : e.Follows)
    (hstep : ∀ s s', Abreast n r r' s s' → ¬ CutsKey r r' e s →
      Paced n r r' (e.read (readClause depth) s) (e.read (readClause depth) s'))
    {s s' : State} (hs : Abreast n r r' s s') (hcut : ¬ CutsKey r r' (.many ahead e) s) :
    Paced n r r' (repeating ahead (e.read (readClause depth)) s)
      (repeating ahead (e.read (readClause depth)) s') := by
  induction hlength : s.rest.length using Nat.strongRecOn generalizing s s' with
  | ind k ih =>
    have hpassed := read_passed (n := n) (readClause_passed depth) e
    have hone := hstep s s' hs fun h => hcut (h.imp fun _ _ hv => hv.many_first)
    refine repeating_paced_step hs (by rw [hahead, hahead]) hone hpassed fun t t' ho ht hless => ?_
    obtain ⟨ts, hread, hts⟩ := exists_advanced he ho
    exact ih t.rest.length (hlength ▸ hless) ht
      (fun h => hcut (h.imp fun _ _ hv => .many_later hread hts hv)) rfl

/-- Two readings of inputs that begin alike are paced, if that is so of nested clauses. -/
theorem read_paced
    (hclause : ∀ s s', Abreast n r r' s s' → ¬ CutsKey r r' .clause s →
      Paced n r r' (readClause depth s) (readClause depth s'))
    (e : Expr) (he : e.Follows) (hp : e.Productive) (hsteady : e.Steady) (s s' : State)
    (hs : Abreast n r r' s s') (hcut : ¬ CutsKey r r' e s) :
    Paced n r r' (e.read (readClause depth) s) (e.read (readClause depth) s') := by
  induction e generalizing s s' with
  | empty => exact .matched hs
  | one accepts => exact one_paced accepts hs
  | run accepts => exact run_paced accepts hs
  | finish => exact finish_paced hs
  | mark a => exact .matched hs
  | seq e f ihe ihf =>
    refine seq_paced (ihe he.1 hp.1 hsteady.1 s s' hs fun h => hcut ?_) fun t t' ho ht => ?_
    · exact h.imp fun _ _ hv => hv.seq_first (exists_generates he.2 hp.2)
    · obtain ⟨ts, hread, hts⟩ := exists_advanced he.1 ho
      exact ihf he.2 hp.2 hsteady.2 t t' ht fun h =>
        hcut (h.imp fun _ _ hv => .seq_second hread hts hv)
  | alt e f ihe ihf =>
    refine alt_paced hs (ihe he.1 hp.1 hsteady.1 s s' hs fun h => hcut ?_) fun t t' ho ht => ?_
    · exact h.imp fun _ _ hv => hv.imp fun _ => .choiceFirst
    · have hread := advanced_of_attempt ho
      exact ihf he.2 hp.2 hsteady.2 t t' ht fun h =>
        hcut (h.imp fun _ _ hv => (hv.rewound hread).imp fun _ => .choiceSecond)
  | opt e ih =>
    refine opt_paced hs (ih he hp hsteady s s' hs fun h => hcut ?_)
    exact h.imp fun _ _ hv => hv.imp fun _ => .optSome
  | many ahead e ih =>
    have hbody : e.Follows := he
    exact many_paced hsteady.1 hbody (ih hbody hp hsteady.2) hs hcut
  | ifNext c e f ihe ihf =>
    refine ifNext_paced hs (ihe he.1 hp.1 hsteady.1 s s' hs fun h => hcut ?_)
      (ihf he.2 hp.2 hsteady.2 s s' hs fun h => hcut ?_)
    · exact h.imp fun _ _ hv => hv.imp fun _ => .choiceFirst
    · exact h.imp fun _ _ hv => hv.imp fun _ => .choiceSecond
  | named p e ih =>
    -- A key is taken as a whole, since its parts alone do not show that a key ends before a cut.
    obtain hkey | hsteady := hsteady
    · rw [hkey] at hcut ⊢
      exact key_paced hs hcut
    · exact within_paced hs (ih he.2.2 hp hsteady (s.enter p) (s'.enter p) hs fun h =>
        hcut (h.named he.2.1))
  | capture e ih =>
    refine capturing_paced hs (ih he hp hsteady s s' hs fun h => hcut ?_)
    exact h.imp fun _ _ hv => hv.capture
  | clause => exact hclause s s' hs hcut

theorem readClause_paced (depth : Nat) (s s' : State) (hs : Abreast n r r' s s')
    (hcut : ¬ CutsKey r r' .clause s) :
    Paced n r r' (readClause depth s) (readClause depth s') := by
  induction depth generalizing s s' with
  | zero => exact .passed trivial
  | succ depth ih =>
    refine within_paced hs (read_paced ih clauseBody clauseBody_follows.2 clauseBody_productive
      clauseBody_steady _ _ hs fun h => hcut ?_)
    exact (h.named clauseBody_follows.1).imp fun _ _ hv => hv.imp fun _ hts => hts

theorem readQuery_paced (settings : Settings) {input more : List Char} (hn : n ≤ input.length)
    (hcut : ¬ CutsKey (input.drop n) more query (.initial input settings.tokenCapacity)) :
    Paced n (input.drop n) more (readQuery settings input)
      (readQuery settings (input.take n ++ more)) := by
  refine read_paced (readClause_paced settings.maxDepth) query query_follows query_productive
    query_steady _ _ ?_ hcut
  exact ⟨input.take n, (List.take_append_drop n input).symm, rfl, by simp [State.initial, hn]⟩

end Reading
end TableLang.Match
