import TableLang.Proofs.Draft.Script
import TableLang.Proofs.Language

/-! What the tokens of a text call for, whatever is built from them. A builder takes one edit after
the other and may refuse any of them. It is fed in one pass over the tokens, with the current text
kept beside its state. Main statement: the edits it is given are those that the sentence calls for,
in the order of its phrases, each with the text captured for that very phrase. -/
namespace TableLang

/-- Something that takes edits. Its states are of type `β`, and it stops with a reason of type
`ε`. -/
structure Builder (β ε : Type) where
  apply : β → Edit → Except ε β
  /-- Why it stops at a token that does not fit the input. -/
  misfit : Fault → ε

namespace Builder
variable {β ε : Type}

def replay (builder : Builder β ε) (input : List Char) (text : String) (b : β) :
    List Token → Except ε β
  | [] => .ok b
  | t :: ts =>
    match t.label with
    | .text =>
      match slice? input t.start t.stop with
      | some cs => builder.replay input (String.ofList cs) b ts
      | none => .error (builder.misfit (.badSpan t.start t.stop))
    | .action a =>
      match builder.apply b (a.edit text) with
      | .ok c => builder.replay input text c ts
      | .error e => .error e
    | _ => builder.replay input text b ts

def follow (builder : Builder β ε) (b : β) (script : Script) : Except ε β := do
  let c ← script.edits.foldlM builder.apply b
  match script.fault with
  | none => .ok c
  | some fault => .error (builder.misfit fault)

theorem follow_cons (builder : Builder β ε) (b : β) (edit : Edit) (edits : List Edit)
    (fault : Option Fault) :
    builder.follow b ⟨edit :: edits, fault⟩ =
      match builder.apply b edit with
      | .ok c => builder.follow c ⟨edits, fault⟩
      | .error e => .error e := by
  simp only [follow, List.foldlM_cons]
  cases builder.apply b edit <;> rfl

/-- One pass over the tokens gives a builder the edits of their script and nothing else. -/
theorem replay_eq_follow (builder : Builder β ε) (input : List Char) (tokens : List Token)
    (text : String) (b : β) :
    builder.replay input text b tokens = builder.follow b (.ofTokens input text tokens) := by
  induction tokens generalizing text b with
  | nil => rfl
  | cons t ts ih =>
    rw [replay, Script.ofTokens]
    cases t.label with
    | text =>
      cases slice? input t.start t.stop with
      | some cs => exact ih (String.ofList cs) b
      | none => rfl
    | action a =>
      simp only [follow_cons]
      cases builder.apply b (a.edit text) with
      | ok c => exact ih text c
      | error e => rfl
    | production p => exact ih text b
    | blank => exact ih text b

def draft : Builder Draft Fault := ⟨Draft.apply, id⟩

theorem draft_replay (d : Draft) (input : List Char) (tokens : List Token) :
    draft.replay input "" d tokens = d.replay tokens input :=
  draft.replay_eq_follow input tokens "" d

def recorder : Builder (List Edit) Fault := ⟨fun edits edit => .ok (edits ++ [edit]), id⟩

theorem foldlM_recorder (earlier edits : List Edit) :
    edits.foldlM recorder.apply earlier = .ok (earlier ++ edits) := by
  induction edits generalizing earlier with
  | nil => simp [pure, Except.pure]
  | cons edit edits ih =>
    have h := ih (earlier ++ [edit])
    rw [List.append_assoc, List.singleton_append] at h
    exact h

end Builder

namespace Sentence

theorem ofTokens_tokens (s : Sentence) :
    Script.ofTokens s.text "" (s.derivation.tokens 0) = ⟨s.edits, none⟩ := by
  rw [← s.text_derivation, Grammar.Derivation.ofTokens_eq, s.edits_derivation]

theorem edits_eq_of_text_eq {s s' : Sentence} (h : s.text = s'.text) : s.edits = s'.edits := by
  rw [← s.edits_derivation "", ← s'.edits_derivation "", derivation_eq_of_text_eq h]

end Sentence

/-- The tokens of a text make every builder take the edits that the sentence calls for: the name of
the table; the root and the edits of the clause, if there is one; the limit, if there is one; and
that it is a selection. They never stop it on their own, and no two sentences with this text call
for different edits. -/
theorem replay_feeds_edits_of_sentence (settings : Settings) (source : String)
    (tokens : List Token) (h : tokenize settings source = .ok tokens) :
    ∃ s : Sentence, s.derivation.Spells source.toList ∧
      (∀ s' : Sentence, s'.derivation.Spells source.toList → s'.edits = s.edits) ∧
      Builder.recorder.replay source.toList "" [] tokens = .ok s.edits ∧
      (∀ d : Draft, d.replay tokens source.toList = d.applyAll s.edits) ∧
      ∀ (β ε : Type) (builder : Builder β ε) (b : β),
        builder.replay source.toList "" b tokens = s.edits.foldlM builder.apply b := by
  obtain ⟨-, s, htext, -, rfl⟩ := tokenize_eq_ok_iff.1 h
  have hfeed {β ε : Type} (builder : Builder β ε) (b : β) :
      builder.replay source.toList "" b (s.derivation.tokens 0) =
        s.edits.foldlM builder.apply b := by
    rw [builder.replay_eq_follow, ← htext, s.ofTokens_tokens, Builder.follow]
    cases s.edits.foldlM builder.apply b <;> rfl
  refine ⟨s, htext ▸ spells_derivation s, ?_, ?_, ?_, fun β ε builder b => hfeed builder b⟩
  · intro s' hs'
    have htext' : s'.text = source.toList := s'.text_derivation.symm.trans hs'.text_eq
    exact Sentence.edits_eq_of_text_eq (htext'.trans htext.symm)
  · rw [hfeed, Builder.foldlM_recorder, List.nil_append]
  · intro d
    rw [← Builder.draft_replay, hfeed]
    rfl

theorem replay_feeds_edits_of_sentence_specimen :
    tokenize {} "select a where or(str_eq(@key,'')) limit 7" =
        .ok (Sentence.specimen.derivation.tokens 0) ∧
      Builder.recorder.replay "select a where or(str_eq(@key,'')) limit 7".toList "" []
          (Sentence.specimen.derivation.tokens 0) =
        .ok [.nameTable "a", .openRoot, .enterClause, .becomeGroup .or, .enterClause,
          .becomePredicate, .nameComparison "str_eq", .useRowKey, .addLiteral "", .leaveClause,
          .leaveClause, .setLimit "7", .chooseSelect] := by
  have h : tokenize {} "select a where or(str_eq(@key,'')) limit 7" =
      .ok (Sentence.specimen.derivation.tokens 0) :=
    tokenize_eq_ok_iff.2 ⟨by decide, Sentence.specimen, Sentence.specimen_text, by decide, rfl⟩
  obtain ⟨s, -, hunique, hrecord, -⟩ := replay_feeds_edits_of_sentence {} _ _ h
  refine ⟨h, ?_⟩
  rw [hrecord, ← hunique Sentence.specimen (Sentence.specimen_text ▸ spells_derivation _)]
  rfl

end TableLang
