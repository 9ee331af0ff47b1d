import TableLang.Proofs.Grammar.Written

/-! The expressions by which the input is read follow the written grammar: each production has the
body that the table gives it, once order, greed and look-ahead are forgotten. Main statement: an
expression that follows the table derives exactly what its right-hand side generates. -/
namespace TableLang.Grammar

namespace Expr

/-- The right-hand side that is left of an expression when order, greed and look-ahead are
forgotten and productions stand for their bodies. -/
def plain : Expr → Rhs
  | empty => .empty
  | one accepts => .one accepts
  | run accepts => .star (.one accepts)
  | finish => .empty
  | mark a => .mark a
  | seq e f => .seq e.plain f.plain
  | alt e f => .choice e.plain f.plain
  | opt e => .opt e.plain
  | many _ e => .star e.plain
  | ifNext _ e f => .choice e.plain f.plain
  | named p _ => .rule p
  | capture e => .capture e.plain
  | clause => .rule .whereClause

/-- True of an expression all of whose productions have the bodies that the table gives them. A
clause is to be met only as `clause`. -/
def Follows : Expr → Prop
  | seq e f => e.Follows ∧ f.Follows
  | alt e f => e.Follows ∧ f.Follows
  | opt e => e.Follows
  | many _ e => e.Follows
  | ifNext _ e f => e.Follows ∧ f.Follows
  | named p e => p ≠ .whereClause ∧ rhs p = e.plain ∧ e.Follows
  | capture e => e.Follows
  | _ => True

end Expr

def clauseBody : Expr :=
  .seqAll [.mark .enterClause,
    .alt predicateClause (.alt (groupClause .or) (groupClause .and)), .mark .leaveClause]

theorem isSpace_eq : isSpace = Rhs.among " \t\n" := by
  funext c
  simp [isSpace, Rhs.among, Bool.or_assoc]

theorem isEscapable_eq : isEscapable = Rhs.among "abfnrtv\\?\"'" := by
  funext c
  simp [isEscapable, Rhs.among]

theorem isKeyChar_eq :
    isKeyChar = Rhs.between [('0', '9'), ('A', 'Z'), ('a', 'z')] := by
  funext c
  have hdigit : c.isDigit = ('0' ≤ c && c ≤ '9') := rfl
  have hupper : c.isUpper = decide ('A' ≤ c ∧ c ≤ 'Z') := rfl
  have hlower : c.isLower = ('a' ≤ c && c ≤ 'z') := rfl
  have hkey : isKeyChar c = ((c.isUpper || c.isLower) || c.isDigit) := rfl
  rw [hkey, hdigit, hupper, hlower, Bool.or_comm]
  simp [Rhs.between]

theorem isDigit_eq : Char.isDigit = Rhs.between [('0', '9')] := by
  funext c
  simp [Char.isDigit, Rhs.between, Char.le_def]

theorem isLeadingDigit_eq : isLeadingDigit = Rhs.between [('1', '9')] := by
  funext c
  have zero : c = '0' ↔ c.val.toNat = 48 := by
    rw [Char.ext_iff, ← UInt32.toNat_inj]
    rfl
  rw [Bool.eq_iff_iff]
  simp [isLeadingDigit, Char.isDigit, Rhs.between, Char.le_def, UInt32.le_iff_toNat_le, zero]
  omega

namespace Expr

@[simp]
theorem plain_seqAll (es : List Expr) : (seqAll es).plain = Rhs.seqAll (es.map plain) := by
  induction es with
  | nil => rfl
  | cons e es ih =>
    cases es with
    | nil => rfl
    | cons f es => simpa [seqAll, plain, Rhs.seqAll] using ih

@[simp]
theorem plain_char (c : Char) : (char c).plain = Rhs.char c := rfl

@[simp]
theorem plain_word (text : String) : (word text).plain = Rhs.word text := by
  simp [word, Rhs.word, Function.comp_def]

@[simp]
theorem follows_seqAll (es : List Expr) : (seqAll es).Follows ↔ ∀ e ∈ es, e.Follows := by
  induction es with
  | nil => simp [seqAll, Follows]
  | cons e es ih =>
    cases es with
    | nil => simp [seqAll]
    | cons f es => simpa [seqAll, Follows] using fun _ => ih

@[simp]
theorem follows_char (c : Char) : (char c).Follows := trivial

@[simp]
theorem follows_word (text : String) : (word text).Follows := by
  simp [word]

end Expr

@[simp]
theorem plain_spacing : spacing.plain = .rule .spacing := rfl

@[simp]
theorem plain_requiredSpacing : requiredSpacing.plain = .rule .requiredSpacing := rfl

@[simp]
theorem plain_key : key.plain = .rule .key := rfl

@[simp]
theorem plain_predicateValue : predicateValue.plain = .rule .predicateValue := rfl

@[simp]
theorem plain_predicateClause : predicateClause.plain = .rule .predicateClause := rfl

@[simp]
theorem plain_groupClause (c : Connective) : (groupClause c).plain = .rule (.groupClause c) := rfl

section Productions

attribute [local simp] Expr.Follows Expr.plain rhs

@[simp]
theorem spacing_follows : spacing.Follows := by
  simp [spacing, isSpace_eq]

@[simp]
theorem requiredSpacing_follows : requiredSpacing.Follows := by
  simp [requiredSpacing, Rhs.plus, isSpace_eq]

@[simp]
theorem key_follows : key.Follows := by
  simp [key, keyPart, escape, Rhs.plus, Rhs.seqAll, isKeyChar_eq, isEscapable_eq]

@[simp]
theorem predicateValue_follows : predicateValue.Follows := by
  simp [predicateValue, predicateLiteral, predicateRowKey, predicateKey]

@[simp]
theorem predicateClause_follows : predicateClause.Follows := by
  simp [predicateClause, predicateName, Expr.star, Comparison.name]

@[simp]
theorem groupClause_follows (c : Connective) : (groupClause c).Follows := by
  cases c <;> simp [groupClause, Expr.star, Connective.name, Rhs.group]

/-- The expression by which the whole input is read follows the table. -/
theorem query_follows : query.Follows := by
  simp [query, select, selectKey, whereSection, limit, positiveInteger, Operation.name, Rhs.seqAll,
    isDigit_eq, isLeadingDigit_eq]

theorem clauseBody_follows : rhs .whereClause = clauseBody.plain ∧ clauseBody.Follows := by
  simp [clauseBody]

end Productions

/-- A repetition is a row of repetitions. -/
theorem derives_many_iff {depth : Nat} {ahead : List Char → Bool} {e : Expr}
    {ts : List Derivation} :
    Derives depth (.many ahead e) ts ↔
      ∃ rows : List (List Derivation), ts = rows.flatten ∧ ∀ us ∈ rows, Derives depth e us := by
  constructor
  · intro h
    generalize hm : Expr.many ahead e = m at h
    induction h with
    | manyNone => exact ⟨[], rfl, by simp⟩
    | @manyMore _ _ _ us _ first _ _ ih =>
      cases hm
      obtain ⟨rows, rfl, hrows⟩ := ih rfl
      exact ⟨us :: rows, rfl, by simpa using ⟨first, hrows⟩⟩
    | _ => cases hm
  · rintro ⟨rows, rfl, hrows⟩
    induction rows with
    | nil => exact .manyNone
    | cons us rows ih =>
      have later := ih fun vs hvs => hrows vs (List.mem_cons_of_mem us hvs)
      exact .manyMore (hrows us (List.mem_cons_self ..)) later

theorem generates_star_iff {r : Rhs} {ts : List Derivation} :
    Generates (.star r) ts ↔
      ∃ rows : List (List Derivation), ts = rows.flatten ∧ ∀ us ∈ rows, Generates r us := by
  constructor
  · intro h
    generalize hm : Rhs.star r = m at h
    induction h with
    | starNone => exact ⟨[], rfl, by simp⟩
    | @starMore _ us _ first _ _ ih =>
      cases hm
      obtain ⟨rows, rfl, hrows⟩ := ih rfl
      exact ⟨us :: rows, rfl, by simpa using ⟨first, hrows⟩⟩
    | _ => cases hm
  · rintro ⟨rows, rfl, hrows⟩
    induction rows with
    | nil => exact .starNone
    | cons us rows ih =>
      have later := ih fun vs hvs => hrows vs (List.mem_cons_of_mem us hvs)
      exact .starMore (hrows us (List.mem_cons_self ..)) later

theorem generates_run_iff {accepts : Char → Bool} {ts : List Derivation} :
    Generates (.star (.one accepts)) ts ↔
      ∃ cs : List Char, ts = cs.map .char ∧ ∀ c ∈ cs, accepts c = true := by
  rw [generates_star_iff]
  constructor
  · rintro ⟨rows, rfl, hrows⟩
    induction rows with
    | nil => exact ⟨[], rfl, by simp⟩
    | cons us rows ih =>
      obtain ⟨cs, hcs, hall⟩ := ih fun vs hvs => hrows vs (List.mem_cons_of_mem us hvs)
      cases hrows us (List.mem_cons_self ..) with
      | @one _ c hc => exact ⟨c :: cs, by simp [hcs], by simpa using ⟨hc, hall⟩⟩
  · rintro ⟨cs, rfl, hall⟩
    refine ⟨cs.map fun c => [.char c], by rw [← List.flatMap_def, List.map_eq_flatMap], ?_⟩
    intro us hus
    obtain ⟨c, hc, rfl⟩ := List.mem_map.1 hus
    exact .one (hall c hc)

/-- What holds of nested clauses holds of every expression that follows the table. -/
theorem derives_iff_of_clause {depth : Nat}
    (hclause : ∀ ts, Derives depth .clause ts ↔
      Generates (.rule .whereClause) ts ∧ Derivation.nestingAll ts ≤ depth)
    (e : Expr) (he : e.Follows) (ts : List Derivation) :
    Derives depth e ts ↔ Generates e.plain ts ∧ Derivation.nestingAll ts ≤ depth := by
  induction e generalizing ts with
  | empty =>
    constructor
    · intro h
      cases h
      exact ⟨.empty, Nat.zero_le _⟩
    · rintro ⟨h, -⟩
      cases h
      exact .empty
  | one accepts =>
    constructor
    · intro h
      cases h with
      | one hc => exact ⟨.one hc, Nat.zero_le _⟩
    · rintro ⟨h, -⟩
      cases h with
      | one hc => exact .one hc
  | run accepts =>
    rw [Expr.plain, generates_run_iff]
    constructor
    · intro h
      cases h with
      | run hcs => exact ⟨⟨_, rfl, hcs⟩, by simp⟩
    · rintro ⟨⟨cs, rfl, hcs⟩, -⟩
      exact .run hcs
  | finish =>
    constructor
    · intro h
      cases h
      exact ⟨.empty, Nat.zero_le _⟩
    · rintro ⟨h, -⟩
      cases h
      exact .finish
  | mark a =>
    constructor
    · intro h
      cases h
      exact ⟨.mark, Nat.zero_le _⟩
    · rintro ⟨h, -⟩
      cases h
      exact .mark
  | seq e f ihe ihf =>
    constructor
    · intro h
      cases h with
      | seq first second =>
        obtain ⟨he', hne⟩ := (ihe he.1 _).1 first
        obtain ⟨hf', hnf⟩ := (ihf he.2 _).1 second
        exact ⟨.seq he' hf', by simpa [Nat.max_le] using ⟨hne, hnf⟩⟩
    · rintro ⟨h, hn⟩
      cases h with
      | seq first second =>
        rw [Derivation.nestingAll_append, Nat.max_le] at hn
        exact .seq ((ihe he.1 _).2 ⟨first, hn.1⟩) ((ihf he.2 _).2 ⟨second, hn.2⟩)
  | alt e f ihe ihf =>
    constructor
    · intro h
      cases h with
      | altFirst h => exact ((ihe he.1 _).1 h).imp_left .choiceFirst
      | altSecond h => exact ((ihf he.2 _).1 h).imp_left .choiceSecond
    · rintro ⟨h, hn⟩
      cases h with
      | choiceFirst h => exact .altFirst ((ihe he.1 _).2 ⟨h, hn⟩)
      | choiceSecond h => exact .altSecond ((ihf he.2 _).2 ⟨h, hn⟩)
  | opt e ih =>
    constructor
    · intro h
      cases h with
      | optNone => exact ⟨.optNone, Nat.zero_le _⟩
      | optSome h => exact ((ih he _).1 h).imp_left .optSome
    · rintro ⟨h, hn⟩
      cases h with
      | optNone => exact .optNone
      | optSome h => exact .optSome ((ih he _).2 ⟨h, hn⟩)
  | many ahead e ih =>
    rw [Expr.plain, derives_many_iff, generates_star_iff]
    constructor
    · rintro ⟨rows, rfl, hrows⟩
      have hall := fun us hus => (ih he us).1 (hrows us hus)
      exact ⟨⟨rows, rfl, fun us hus => (hall us hus).1⟩,
        Derivation.nestingAll_flatten_le.2 fun us hus => (hall us hus).2⟩
    · rintro ⟨⟨rows, rfl, hrows⟩, hn⟩
      have hle := Derivation.nestingAll_flatten_le.1 hn
      exact ⟨rows, rfl, fun us hus => (ih he us).2 ⟨hrows us hus, hle us hus⟩⟩
  | ifNext c e f ihe ihf =>
    constructor
    · intro h
      cases h with
      | ifYes h => exact ((ihe he.1 _).1 h).imp_left .choiceFirst
      | ifNo h => exact ((ihf he.2 _).1 h).imp_left .choiceSecond
    · rintro ⟨h, hn⟩
      cases h with
      | choiceFirst h => exact .ifYes ((ihe he.1 _).2 ⟨h, hn⟩)
      | choiceSecond h => exact .ifNo ((ihf he.2 _).2 ⟨h, hn⟩)
  | named p e ih =>
    obtain ⟨hp, hbody, he⟩ := he
    constructor
    · intro h
      cases h with
      | named h =>
        obtain ⟨hg, hn⟩ := (ih he _).1 h
        rw [← hbody] at hg
        exact ⟨.rule hg, by simpa [Derivation.nestingAll, Derivation.nesting, hp] using hn⟩
    · rintro ⟨h, hn⟩
      cases h with
      | rule h =>
        rw [hbody] at h
        have hle := by simpa [Derivation.nestingAll, Derivation.nesting, hp] using hn
        exact .named ((ih he _).2 ⟨h, hle⟩)
  | capture e ih =>
    constructor
    · intro h
      cases h with
      | capture h =>
        obtain ⟨hg, hn⟩ := (ih he _).1 h
        exact ⟨.capture hg, by simpa [Derivation.nestingAll, Derivation.nesting] using hn⟩
    · rintro ⟨h, hn⟩
      cases h with
      | capture h =>
        have hle := by simpa [Derivation.nestingAll, Derivation.nesting] using hn
        exact .capture ((ih he _).2 ⟨h, hle⟩)
  | clause => exact hclause ts

theorem derives_clause_iff (depth : Nat) (ts : List Derivation) :
    Derives depth .clause ts ↔
      Generates (.rule .whereClause) ts ∧ Derivation.nestingAll ts ≤ depth := by
  induction depth generalizing ts with
  | zero =>
    constructor
    · intro h
      cases h
    · rintro ⟨h, hn⟩
      cases h
      simp [Derivation.nestingAll, Derivation.nesting] at hn
  | succ depth ih =>
    have body := derives_iff_of_clause ih clauseBody clauseBody_follows.2
    constructor
    · intro h
      cases h with
      | clause h =>
        cases h with
        | named h =>
          obtain ⟨hg, hn⟩ := (body _).1 h
          rw [← clauseBody_follows.1] at hg
          exact ⟨.rule hg, by simpa [Derivation.nestingAll, Derivation.nesting] using hn⟩
    · rintro ⟨h, hn⟩
      cases h with
      | rule h =>
        rw [clauseBody_follows.1] at h
        have hle := by simpa [Derivation.nestingAll, Derivation.nesting] using hn
        exact .clause (.named ((body _).2 ⟨h, hle⟩))

/-- An expression that follows the table derives exactly what its right-hand side generates, with
the clauses nested as deep as they are allowed to be. -/
theorem derives_iff_generates (depth : Nat) (e : Expr) (he : e.Follows) (ts : List Derivation) :
    Derives depth e ts ↔ Generates e.plain ts ∧ Derivation.nestingAll ts ≤ depth :=
  derives_iff_of_clause (derives_clause_iff depth) e he ts

end TableLang.Grammar
