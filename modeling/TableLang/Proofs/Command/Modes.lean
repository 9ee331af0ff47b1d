import TableLang.Command.Check
import TableLang.Proofs.Query.Meaning
import TableLang.Proofs.SyntaxTree

/-! The modes of a check. Whatever is asked for, the same text is read under the same settings: the
query without the line ends at its end. Main statement: the four modes find the same fault in a
query, or none; only the modes that compile it can find, besides, that its limit is too large. -/
namespace TableLang

theorem Text.trimEnd_append {drop : Char → Bool} (cs : List Char) {ends : List Char}
    (h : ∀ c ∈ ends, drop c = true) : trimEnd drop (cs ++ ends) = trimEnd drop cs := by
  rw [trimEnd, trimEnd, List.reverse_append, List.dropWhile_append_of_pos]
  simpa using h

/-- The text is that of a sentence whose limit does not fit into 64 bits. -/
def LimitTooLarge (source : String) : Prop :=
  ∃ (s : Sentence) (l : Sentence.Limit), s.derivation.Spells source.toList ∧ s.limit = some l ∧
    2 ^ 64 ≤ Text.decimalValue l.numeral.text

theorem parseQuery_of_tokens {settings : Settings} {source : String} {tokens : List Token}
    (h : tokenize settings source = .ok tokens) :
    (¬ LimitTooLarge source ∧ ∃ q, parseQuery settings source = .ok q) ∨
      LimitTooLarge source ∧ ∃ e, parseQuery settings source = .error (.compile e) := by
  obtain ⟨hlength, s, htext, hdepth, -⟩ := tokenize_eq_ok_iff.1 h
  have hquery := parseQuery_of_text hlength htext hdepth
  cases hcompile : (s.fill {}).compile with
  | ok q =>
    rw [hcompile] at hquery
    refine .inl ⟨?_, q, hquery⟩
    rintro ⟨s', l, hs', hl, hlarge⟩
    -- Another sentence with this text would be read with the same result.
    have htext' := s'.text_derivation.symm.trans hs'.text_eq
    have hdepth' := depth_eq_of_text_eq (htext'.trans htext.symm) ▸ hdepth
    rw [parseQuery_of_text hlength htext' hdepth',
      Sentence.compile_eq_error_iff.2 ⟨l, hl, hlarge, rfl⟩] at hquery
    cases hquery
  | error e =>
    rw [hcompile] at hquery
    obtain ⟨l, hl, hlarge, -⟩ := Sentence.compile_eq_error_iff.1 hcompile
    exact .inr ⟨⟨s, l, htext ▸ spells_derivation s, hl, hlarge⟩, e, hquery⟩

theorem parseQuery_of_tokenize_error {settings : Settings} {source : String} {e : ParseError}
    (h : tokenize settings source = .error e) : parseQuery settings source = .error (.parse e) := by
  simp only [parseQuery, parse, h]

/-- The nesting of the tokens of a text can always be printed. -/
theorem exists_render_of_tokenize {settings : Settings} {source : String} {tokens : List Token}
    (h : tokenize settings source = .ok tokens) (highlight : Bool) :
    ∃ text, SyntaxTree.render highlight source.toList tokens = .ok text := by
  obtain ⟨-, s, htext, -, rfl⟩ := tokenize_eq_ok_iff.1 h
  rw [SyntaxTree.exists_render_eq_ok_iff]
  intro t ht _
  have hfits := s.derivation.fits_tokens 0 t ht
  rwa [Nat.zero_add, s.text_derivation, htext] at hfits

namespace Command

inductive Mode where
  | tree
  | verdict
  | outline
  | query

/-- What comes of a text in each mode, when there is something to be read. -/
def Mode.answer (o : CheckOptions) (source : String) : Mode → Except CommandError CheckResult
  | tree => do
    let tokens ← (tokenize o.settings source).mapError .parse
    let text ← (SyntaxTree.render o.color source.toList tokens).mapError .fault
    .ok (.tree text)
  | verdict => do
    let _ ← (tokenize o.settings source).mapError .parse
    .ok .valid
  | outline => do
    let q ← (parseQuery o.settings source).mapError .ofQueryError
    .ok (.outline q.outline)
  | query => do
    let q ← (parseQuery o.settings source).mapError .ofQueryError
    .ok (.compiled q)

namespace CheckOptions

def inMode (o : CheckOptions) : Mode → CheckOptions
  | .tree => { o with tree := true }
  | .verdict => { o with tree := false, syntaxOnly := true }
  | .outline => { o with tree := false, syntaxOnly := false, explain := true }
  | .query => { o with tree := false, syntaxOnly := false, explain := false }

theorem settings_inMode (o : CheckOptions) (m : Mode) : (o.inMode m).settings = o.settings := by
  cases m <;> rfl

def sourceOf (query : String) : String :=
  String.ofList (Text.trimEnd isLineEnd query.toList)

def leavesBlank (query : String) : Bool := (sourceOf query).toList.all Text.isBlank

theorem trimEnd_eq (query : String) :
    Text.trimEnd isLineEnd query.toList = (sourceOf query).toList :=
  String.toList_ofList.symm

theorem sourceOf_append (query : String) {ends : String}
    (h : ∀ c ∈ ends.toList, c = '\n' ∨ c = '\r') : sourceOf (query ++ ends) = sourceOf query := by
  have hends : ∀ c ∈ ends.toList, isLineEnd c = true := by
    intro c hc
    simpa [isLineEnd] using h c hc
  rw [sourceOf, String.toList_append, Text.trimEnd_append _ hends, sourceOf]

/-- A check depends on what is read alone. -/
theorem check_congr (o : CheckOptions) {query query' : String}
    (h : sourceOf query = sourceOf query') : o.check query = o.check query' := by
  simp only [check, trimEnd_eq, h]

theorem check_inMode (o : CheckOptions) (m : Mode) (query : String) :
    (o.inMode m).check query =
      if leavesBlank query then .error .noInput else m.answer o (sourceOf query) := by
  simp only [check, trimEnd_eq, String.ofList_toList, settings_inMode, leavesBlank]
  cases m with
  | tree =>
    simp only [inMode, if_true, Mode.answer]
    cases tokenize o.settings (sourceOf query) with
    | error e => rfl
    | ok tokens =>
      cases hrender : SyntaxTree.render o.color (sourceOf query).toList tokens <;>
        simp only [Except.mapError, bind, Except.bind, hrender]
  | verdict =>
    cases h : tokenize o.settings (sourceOf query) <;>
      simp [inMode, Mode.answer, h, Except.mapError, bind, Except.bind]
  | outline =>
    cases h : parseQuery o.settings (sourceOf query) <;>
      simp [inMode, Mode.answer, h, Except.mapError, bind, Except.bind]
  | query =>
    cases h : parseQuery o.settings (sourceOf query) <;>
      simp [inMode, Mode.answer, h, Except.mapError, bind, Except.bind]

end CheckOptions

namespace Mode
variable {o : CheckOptions} {source : String}

theorem answer_of_tokenize_error {e : ParseError} (h : tokenize o.settings source = .error e)
    (m : Mode) : m.answer o source = .error (.parse e) := by
  have hquery := parseQuery_of_tokenize_error h
  cases m <;> simp only [answer, h, hquery] <;> rfl

theorem answer_of_parseQuery {q : Query} (h : parseQuery o.settings source = .ok q) :
    outline.answer o source = .ok (.outline q.outline) ∧
      query.answer o source = .ok (.compiled q) := by
  simp only [answer, h]
  exact ⟨rfl, rfl⟩

theorem answer_of_compile_error {e : CompileError}
    (h : parseQuery o.settings source = .error (.compile e)) :
    outline.answer o source = .error (.compile e) ∧
      query.answer o source = .error (.compile e) := by
  simp only [answer, h]
  exact ⟨rfl, rfl⟩

end Mode

open CheckOptions

/-- A check ends in the same way however many line ends are put behind the query. Whatever is asked
for, a query of which nothing is left without them is no input, and one that cannot be read is
refused for the same reason. Any other query has a tree and is valid, and the two modes that compile
it compile it to the same query or report the same error, the latter exactly when its limit does not
fit into 64 bits. -/
theorem check_modes_agree (o : CheckOptions) (query : String) :
    (∀ (o' : CheckOptions) (ends : String), (∀ c ∈ ends.toList, c = '\n' ∨ c = '\r') →
      o'.check (query ++ ends) = o'.check query) ∧
    ((leavesBlank query = true ∧ ∀ m, (o.inMode m).check query = .error .noInput) ∨
      (leavesBlank query = false ∧ ∃ e, tokenize o.settings (sourceOf query) = .error e ∧
        ∀ m, (o.inMode m).check query = .error (.parse e)) ∨
      leavesBlank query = false ∧ ∃ tokens text,
        tokenize o.settings (sourceOf query) = .ok tokens ∧
        SyntaxTree.render o.color (sourceOf query).toList tokens = .ok text ∧
        (o.inMode .tree).check query = .ok (.tree text) ∧
        (o.inMode .verdict).check query = .ok .valid ∧
        ((¬ LimitTooLarge (sourceOf query) ∧ ∃ q, parseQuery o.settings (sourceOf query) = .ok q ∧
            (o.inMode .outline).check query = .ok (.outline q.outline) ∧
            (o.inMode .query).check query = .ok (.compiled q)) ∨
          LimitTooLarge (sourceOf query) ∧ ∃ e,
            (o.inMode .outline).check query = .error (.compile e) ∧
            (o.inMode .query).check query = .error (.compile e))) := by
  refine ⟨fun o' ends hends => o'.check_congr (sourceOf_append query hends), ?_⟩
  simp only [check_inMode]
  cases hblank : leavesBlank query with
  | true => exact .inl ⟨rfl, fun m => rfl⟩
  | false =>
    simp only [Bool.false_eq_true, if_false]
    cases htokens : tokenize o.settings (sourceOf query) with
    | error e => exact .inr (.inl ⟨trivial, e, rfl, Mode.answer_of_tokenize_error htokens⟩)
    | ok tokens =>
      obtain ⟨text, htext⟩ := exists_render_of_tokenize htokens o.color
      refine .inr (.inr ⟨trivial, tokens, text, rfl, htext, ?_, ?_, ?_⟩)
      · simp only [Mode.answer, htokens, Except.mapError, bind, Except.bind, htext]
      · simp only [Mode.answer, htokens]
        rfl
      · obtain ⟨hfits, q, hq⟩ | ⟨hlarge, e, he⟩ := parseQuery_of_tokens htokens
        · exact .inl ⟨hfits, q, hq, Mode.answer_of_parseQuery hq⟩
        · exact .inr ⟨hlarge, e, Mode.answer_of_compile_error he⟩

theorem check_modes_agree_excessive :
    (∀ c ∈ "\n\r".toList, c = '\n' ∨ c = '\r') ∧
      (∀ o : CheckOptions,
        o.check ("select a where str_eq('" ++ "\n\r") = o.check "select a where str_eq('") ∧
      (∃ text, check { tree := true } "select b limit 18446744073709551616\n" =
        .ok (.tree text)) ∧
      check { syntaxOnly := true } "select b limit 18446744073709551616\n" = .ok .valid ∧
      ∃ e, check { explain := true } "select b limit 18446744073709551616\n" =
          .error (.compile e) ∧
        check {} "select b limit 18446744073709551616\n" = .error (.compile e) := by
  have hends : ∀ c ∈ "\n\r".toList, c = '\n' ∨ c = '\r' := by simp
  have hsource : sourceOf "select b limit 18446744073709551616\n" =
      "select b limit 18446744073709551616" := by decide
  have htext : Sentence.excessive.text =
      (sourceOf "select b limit 18446744073709551616\n").toList := by
    rw [hsource]
    decide
  have htokens : tokenize {} (sourceOf "select b limit 18446744073709551616\n") = .ok _ :=
    tokenize_eq_ok_iff.2 ⟨by rw [hsource]; decide, Sentence.excessive, htext, Nat.zero_le _, rfl⟩
  refine ⟨hends, fun o => (check_modes_agree o _).1 o _ hends, ?_⟩
  obtain ⟨hblank, -⟩ | ⟨-, e, he, -⟩ | ⟨-, tokens, text, -, -, htree, hverdict, hquery⟩ :=
    (check_modes_agree {} "select b limit 18446744073709551616\n").2
  · exact absurd hblank (by decide)
  · cases he.symm.trans htokens
  · refine ⟨⟨text, htree⟩, hverdict, ?_⟩
    obtain ⟨hfits, -⟩ | ⟨-, herror⟩ := hquery
    · exact absurd ⟨Sentence.excessive, _, htext ▸ spells_derivation _, rfl, by decide⟩ hfits
    · exact herror

end Command
end TableLang
