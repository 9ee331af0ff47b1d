import TableLang.Proofs.Query.Meaning
import TableLang.Proofs.Query.Outline

/-! Outlines can be read back. What is written raw into an outline ends where no more of it can
come: a key at the first character that no key has, a literal at its closing quote, the conditions
in a group at the first line that is not indented as far as they are. So whatever a literal holds,
be it line ends, brackets or lines that look like those of an outline, two queries that come from
texts and have the same outline are the same. -/
namespace TableLang
open Grammar

def inKey (c : Char) : Bool := isKeyChar c || isEscapable c

def inLiteral (c : Char) : Bool := c ≠ '\''

/-- Two texts of a class of characters end at the same place if something else follows each. -/
theorem append_inj_of_stops {accepts : Char → Bool} {a b rest rest' : List Char}
    (ha : ∀ c ∈ a, accepts c = true) (hb : ∀ c ∈ b, accepts c = true)
    (hrest : Stops accepts rest) (hrest' : Stops accepts rest') (h : a ++ rest = b ++ rest') :
    a = b ∧ rest = rest' := by
  have htake {s t : List Char} (hs : ∀ c ∈ s, accepts c = true) (ht : Stops accepts t) :
      (s ++ t).takeWhile accepts = s := by
    rw [List.takeWhile_append_of_pos hs]
    cases t with
    | nil => simp
    | cons c t =>
      have hc : accepts c = false := stops_cons.1 ht
      simp [hc]
  have hab : a = b := by rw [← htake ha hrest, h, htake hb hrest']
  subst hab
  exact ⟨rfl, List.append_cancel_left h⟩

theorem titled_append_ne {title body more rest : List Char} (h : ¬ title <+: rest) :
    title ++ body ++ more ≠ rest := by
  intro heq
  rw [← heq, List.append_assoc] at h
  exact h (List.prefix_append ..)

section Items

def moreItems (item : String → List Char) : List String → List Char
  | [] => [']']
  | x :: xs => ',' :: ' ' :: (item x ++ moreItems item xs)

def listPart (title : String) (item : String → List Char) : List String → List Char
  | [] => []
  | x :: xs => title.toList ++ (item x ++ moreItems item xs)

def quoted (l : String) : List Char := '\'' :: (l.toList ++ ['\''])

/-- What is written for an item shows where it ends if no character of a key follows. -/
def Separable (item : String → List Char) (legible : String → Prop) : Prop :=
  ∀ x y rest rest', legible x → legible y → Stops inKey rest → Stops inKey rest' →
    item x ++ rest = item y ++ rest' → x = y ∧ rest = rest'

def KeyLegible (k : String) : Prop := ∀ c ∈ k.toList, inKey c = true

def LiteralLegible (l : String) : Prop := ∀ c ∈ l.toList, inLiteral c = true

theorem separable_key : Separable String.toList KeyLegible := by
  intro x y rest rest' hx hy hrest hrest' h
  have hsplit := append_inj_of_stops hx hy hrest hrest' h
  exact ⟨String.toList_inj.1 hsplit.1, hsplit.2⟩

theorem separable_quoted : Separable quoted LiteralLegible := by
  intro x y rest rest' hx hy _ _ h
  have hquote : ∀ r, Stops inLiteral ('\'' :: r) := by simp [inLiteral]
  simp only [quoted, List.cons_append, List.append_assoc, List.nil_append, List.cons.injEq,
    true_and] at h
  have hsplit := append_inj_of_stops hx hy (hquote rest) (hquote rest') h
  exact ⟨String.toList_inj.1 hsplit.1, (List.cons.inj hsplit.2).2⟩

variable {item : String → List Char} {legible : String → Prop} {rest rest' : List Char}

theorem stops_moreItems (xs : List String) (rest : List Char) :
    Stops inKey (moreItems item xs ++ rest) := by
  cases xs <;> simp [moreItems, inKey, isKeyChar, isEscapable]

theorem moreItems_inj (hitem : Separable item legible) {xs ys : List String}
    (hxs : ∀ x ∈ xs, legible x) (hys : ∀ y ∈ ys, legible y)
    (h : moreItems item xs ++ rest = moreItems item ys ++ rest') : xs = ys ∧ rest = rest' := by
  induction xs generalizing ys with
  | nil =>
    cases ys with
    | nil => exact ⟨rfl, (List.cons.inj h).2⟩
    | cons y ys => simp [moreItems] at h
  | cons x xs ih =>
    cases ys with
    | nil => simp [moreItems] at h
    | cons y ys =>
      rw [List.forall_mem_cons] at hxs hys
      simp only [moreItems, List.cons_append, List.append_assoc, List.cons.injEq, true_and] at h
      have hfirst := hitem x y _ _ hxs.1 hys.1 (stops_moreItems xs rest) (stops_moreItems ys rest')
        h
      have hmore := ih hxs.2 hys.2 hfirst.2
      rw [hfirst.1, hmore.1]
      exact ⟨rfl, hmore.2⟩

theorem listPart_inj {title : String} (hitem : Separable item legible) {xs ys : List String}
    (hxs : ∀ x ∈ xs, legible x) (hys : ∀ y ∈ ys, legible y)
    (hrest : ¬ title.toList <+: rest) (hrest' : ¬ title.toList <+: rest')
    (h : listPart title item xs ++ rest = listPart title item ys ++ rest') :
    xs = ys ∧ rest = rest' := by
  cases xs with
  | nil =>
    cases ys with
    | nil => exact ⟨rfl, h⟩
    | cons y ys => exact absurd h.symm (titled_append_ne hrest)
  | cons x xs =>
    cases ys with
    | nil => exact absurd h (titled_append_ne hrest')
    | cons y ys =>
      rw [List.forall_mem_cons] at hxs hys
      simp only [listPart, List.append_assoc] at h
      have hfirst := hitem x y _ _ hxs.1 hys.1 (stops_moreItems xs rest) (stops_moreItems ys rest')
        (List.append_cancel_left h)
      have hmore := moreItems_inj hitem hxs.2 hys.2 hfirst.2
      rw [hfirst.1, hmore.1]
      exact ⟨rfl, hmore.2⟩

theorem intercalate_items (x : String) (xs : List String) :
    ", ".toList.intercalate ((x :: xs).map item) ++ [']'] = item x ++ moreItems item xs := by
  induction xs generalizing x with
  | nil => simp [moreItems]
  | cons x' xs ih =>
    have hmore := ih x'
    simp only [List.map_cons] at hmore ⊢
    simp [List.intercalate_cons_cons, moreItems, ← hmore]

end Items

section Line
variable {rest rest' : List Char}

def rowKeyPart (usesRowKey : Bool) : List Char := if usesRowKey then " row-key".toList else []

theorem toList_intercalate_words (word : String) (words : List String) :
    (" ".intercalate (word :: words)).toList =
      word.toList ++ words.flatMap fun w => ' ' :: w.toList := by
  induction words generalizing word with
  | nil => simp
  | cons w ws ih =>
    rw [String.intercalate_cons_cons, String.toList_append, ih w]
    simp

theorem Predicate.toList_describe (p : Predicate) :
    p.describe.toList = p.comparison.name.toList ++ (rowKeyPart p.usesRowKey ++
      (listPart " keys [" String.toList p.keys ++ listPart " literals [" quoted p.literals)) := by
  obtain ⟨comparison, keys, literals, usesRowKey⟩ := p
  have hrowKey : (if usesRowKey then ["row-key"] else []).flatMap (fun w => ' ' :: w.toList) =
      rowKeyPart usesRowKey := by
    cases usesRowKey <;> rfl
  have hkeys : (if keys.isEmpty then []
        else ["keys [" ++ ", ".intercalate keys ++ "]"]).flatMap (fun w => ' ' :: w.toList) =
      listPart " keys [" String.toList keys := by
    cases keys with
    | nil => rfl
    | cons k ks =>
      rw [listPart, ← intercalate_items]
      simp
  have hliterals : (if literals.isEmpty then []
        else ["literals [" ++ ", ".intercalate (literals.map fun l => "'" ++ l ++ "'") ++
          "]"]).flatMap (fun w => ' ' :: w.toList) =
      listPart " literals [" quoted literals := by
    have hquoted : (String.toList ∘ fun l => "'" ++ l ++ "'") = quoted := by
      funext l
      simp [quoted]
    cases literals with
    | nil => rfl
    | cons l ls =>
      rw [listPart, ← intercalate_items, ← hquoted, ← List.map_map, ← String.toList_intercalate]
      simp [-String.toList_intercalate]
  rw [Predicate.describe, List.cons_append, List.cons_append, toList_intercalate_words,
    List.flatMap_append, List.flatMap_append, hrowKey, hkeys, hliterals, List.append_assoc]

structure Predicate.Legible (p : Predicate) : Prop where
  keys : ∀ k ∈ p.keys, KeyLegible k
  literals : ∀ l ∈ p.literals, LiteralLegible l

theorem Comparison.name_inj {c c' : Comparison}
    (h : c.name.toList ++ rest = c'.name.toList ++ rest') : c = c' ∧ rest = rest' := by
  cases c <;> cases c' <;> simp [Comparison.name] at h ⊢ <;> exact h

theorem rowKeyPart_inj {b b' : Bool} (hrest : ¬ " row-key".toList <+: rest)
    (hrest' : ¬ " row-key".toList <+: rest') (h : rowKeyPart b ++ rest = rowKeyPart b' ++ rest') :
    b = b' ∧ rest = rest' := by
  cases b with
  | false =>
    cases b' with
    | false => exact ⟨rfl, h⟩
    | true => exact absurd ⟨rest', h.symm⟩ hrest
  | true =>
    cases b' with
    | false => exact absurd ⟨rest, h⟩ hrest'
    | true => exact ⟨rfl, List.append_cancel_left h⟩

-- The parts of a line that may be missing begin with different letters.
theorem literals_notPrefix (rest : List Char) : ¬ " literals [".toList <+: '\n' :: rest := by
  simp

theorem keys_notPrefix (ls : List String) (rest : List Char) :
    ¬ " keys [".toList <+: listPart " literals [" quoted ls ++ '\n' :: rest := by
  cases ls <;> simp [listPart]

theorem rowKey_notPrefix (ks ls : List String) (rest : List Char) :
    ¬ " row-key".toList <+: listPart " keys [" String.toList ks ++
      (listPart " literals [" quoted ls ++ '\n' :: rest) := by
  cases ks <;> cases ls <;> simp [listPart]

theorem Predicate.describe_inj {p p' : Predicate} (hp : p.Legible) (hp' : p'.Legible)
    (h : p.describe.toList ++ '\n' :: rest = p'.describe.toList ++ '\n' :: rest') :
    p = p' ∧ rest = rest' := by
  rw [p.toList_describe, p'.toList_describe] at h
  simp only [List.append_assoc] at h
  have hname := Comparison.name_inj h
  have hrowKey := rowKeyPart_inj (rowKey_notPrefix _ _ _) (rowKey_notPrefix _ _ _) hname.2
  have hkeys := listPart_inj separable_key hp.keys hp'.keys (keys_notPrefix _ _)
    (keys_notPrefix _ _) hrowKey.2
  have hliterals := listPart_inj separable_quoted hp.literals hp'.literals (literals_notPrefix _)
    (literals_notPrefix _) hkeys.2
  refine ⟨?_, (List.cons.inj hliterals.2).2⟩
  obtain ⟨comparison, keys, literals, usesRowKey⟩ := p
  obtain ⟨comparison', keys', literals', usesRowKey'⟩ := p'
  rw [Predicate.mk.injEq]
  exact ⟨hname.1, hkeys.1, hliterals.1, hrowKey.1⟩

theorem Connective.name_inj {c c' : Connective}
    (h : c.name.toList ++ rest = c'.name.toList ++ rest') : c = c' ∧ rest = rest' := by
  cases c <;> cases c' <;> simp [Connective.name] at h ⊢ <;> exact h

theorem Predicate.describe_eq_cons (p : Predicate) : ∃ text, p.describe.toList = 's' :: text := by
  rw [p.toList_describe]
  cases p.comparison
  · exact ⟨_, rfl⟩
  · exact ⟨_, rfl⟩

theorem Predicate.describe_ne_name (p : Predicate) (c : Connective) :
    p.describe.toList ++ rest ≠ c.name.toList ++ rest' := by
  obtain ⟨text, hline⟩ := p.describe_eq_cons
  rw [hline]
  cases c <;> simp [Connective.name]

theorem toList_indented (depth : Nat) (text : String) :
    (indented depth text).toList =
      List.replicate (2 * depth) ' ' ++ (text.toList ++ ['\n']) := by
  simp [indented]

theorem indented_cancel {depth : Nat} {text text' : String}
    (h : (indented depth text).toList ++ rest = (indented depth text').toList ++ rest') :
    text.toList ++ '\n' :: rest = text'.toList ++ '\n' :: rest' := by
  simp only [toList_indented, List.append_assoc] at h
  exact List.append_cancel_left h

end Line

namespace Condition

mutual
def Legible : Condition → Prop
  | group _ parts => LegibleAll parts
  | predicate p => p.Legible

def LegibleAll : List Condition → Prop
  | [] => True
  | c :: cs => c.Legible ∧ LegibleAll cs
end

theorem toList_outline (depth : Nat) (c : Condition) :
    (c.outline depth).toList =
      (indented depth c.headline).toList ++ (outlineAll (depth + 1) c.parts).toList := by
  cases c <;> simp [outline, outlineAll, headline, parts]

theorem headline_eq_cons (c : Condition) :
    ∃ ch text, c.headline.toList = ch :: text ∧ ch ≠ ' ' := by
  cases c with
  | group c parts => cases c <;> simp [headline, Connective.name]
  | predicate p =>
    obtain ⟨text, hline⟩ := p.describe_eq_cons
    exact ⟨'s', text, hline, by decide⟩

def Outside (depth : Nat) (rest : List Char) : Prop := ¬ List.replicate (2 * depth) ' ' <+: rest

variable {depth : Nat} {rest rest' : List Char}

theorem replicate_deeper (depth : Nat) :
    List.replicate (2 * (depth + 1)) ' ' = List.replicate (2 * depth) ' ' ++ [' ', ' '] :=
  List.replicate_append_replicate.symm

theorem Outside.deeper (h : Outside depth rest) : Outside (depth + 1) rest := by
  intro hdeeper
  rw [replicate_deeper] at hdeeper
  exact h ((List.prefix_append ..).trans hdeeper)

theorem outside_outline (c : Condition) :
    Outside (depth + 1) ((c.outline depth).toList ++ rest) := by
  obtain ⟨ch, text, hline, hch⟩ := c.headline_eq_cons
  intro hprefix
  rw [toList_outline, toList_indented, hline, replicate_deeper, List.append_assoc,
    List.append_assoc, List.prefix_append_right_inj] at hprefix
  have hspace : ' ' = ch := (List.cons_prefix_cons.1 hprefix).1
  exact hch hspace.symm

theorem outside_outlineAll (hrest : Outside depth rest) (cs : List Condition) :
    Outside (depth + 1) ((outlineAll depth cs).toList ++ rest) := by
  cases cs with
  | nil => simpa [outlineAll] using hrest.deeper
  | cons c cs =>
    rw [outlineAll, String.toList_append, List.append_assoc]
    exact outside_outline c

theorem not_outside_outline (c : Condition) :
    ¬ Outside depth ((c.outline depth).toList ++ rest) := by
  rw [toList_outline, toList_indented, List.append_assoc, List.append_assoc]
  exact not_not_intro (List.prefix_append ..)

mutual
/-- A condition can be read off the front of a text in which a line that is not deeper follows. -/
theorem outline_inj {depth : Nat} {rest rest' : List Char} (hrest : Outside (depth + 1) rest)
    (hrest' : Outside (depth + 1) rest') :
    (c c' : Condition) → c.Legible → c'.Legible →
      (c.outline depth).toList ++ rest = (c'.outline depth).toList ++ rest' → c = c' ∧ rest = rest'
  | group c parts, group c' parts', hparts, hparts', h => by
    simp only [outline, String.toList_append, List.append_assoc] at h
    have hname := Connective.name_inj (indented_cancel h)
    have hall := outlineAll_inj hrest hrest' parts parts' hparts hparts' (List.cons.inj hname.2).2
    rw [hname.1, hall.1]
    exact ⟨rfl, hall.2⟩
  | predicate p, predicate p', hp, hp', h => by
    have hline := Predicate.describe_inj hp hp' (indented_cancel h)
    rw [hline.1]
    exact ⟨rfl, hline.2⟩
  | group c parts, predicate p', _, _, h => by
    simp only [outline, String.toList_append, List.append_assoc] at h
    exact absurd (indented_cancel h).symm (p'.describe_ne_name c)
  | predicate p, group c' parts', _, _, h => by
    simp only [outline, String.toList_append, List.append_assoc] at h
    exact absurd (indented_cancel h) (p.describe_ne_name c')

theorem outlineAll_inj {depth : Nat} {rest rest' : List Char} (hrest : Outside depth rest)
    (hrest' : Outside depth rest') :
    (cs cs' : List Condition) → LegibleAll cs → LegibleAll cs' →
      (outlineAll depth cs).toList ++ rest = (outlineAll depth cs').toList ++ rest' →
      cs = cs' ∧ rest = rest'
  | [], [], _, _, h => ⟨rfl, by simpa [outlineAll] using h⟩
  | c :: cs, c' :: cs', hcs, hcs', h => by
    simp only [outlineAll, String.toList_append, List.append_assoc] at h
    -- What follows the first condition are its neighbours, no deeper than it is itself.
    have hfirst := outline_inj (outside_outlineAll hrest cs) (outside_outlineAll hrest' cs') c c'
      hcs.1 hcs'.1 h
    have hothers := outlineAll_inj hrest hrest' cs cs' hcs.2 hcs'.2 hfirst.2
    rw [hfirst.1, hothers.1]
    exact ⟨rfl, hothers.2⟩
  | [], c' :: cs', _, _, h => by
    simp only [outlineAll, String.toList_append, List.append_assoc, String.toList_empty,
      List.nil_append] at h
    rw [h] at hrest
    exact absurd hrest (not_outside_outline c')
  | c :: cs, [], _, _, h => by
    simp only [outlineAll, String.toList_append, List.append_assoc, String.toList_empty,
      List.nil_append] at h
    rw [← h] at hrest'
    exact absurd hrest' (not_outside_outline c)
end

end Condition

section Body

theorem toList_limitLine (n : Nat) :
    (limitLine (some n)).toList = "  limit ".toList ++ (Nat.toDigits 10 n ++ ['\n']) := by
  simp [limitLine, toList_indented, Nat.toString_eq_repr, Nat.toList_repr]

theorem limitLine_inj {limit limit' : Option Nat} {rest rest' : List Char}
    (hrest : ¬ "  limit ".toList <+: rest) (hrest' : ¬ "  limit ".toList <+: rest')
    (h : (limitLine limit).toList ++ rest = (limitLine limit').toList ++ rest') :
    limit = limit' ∧ rest = rest' := by
  cases limit with
  | none =>
    cases limit' with
    | none => exact ⟨rfl, by simpa [limitLine] using h⟩
    | some n' =>
      rw [toList_limitLine] at h
      exact absurd h.symm (titled_append_ne hrest)
  | some n =>
    cases limit' with
    | none =>
      rw [toList_limitLine] at h
      exact absurd h (titled_append_ne hrest')
    | some n' =>
      have hdigit : ∀ m, ∀ c ∈ Nat.toDigits 10 m, c.isDigit = true := fun m c hc =>
        Nat.isDigit_of_mem_toDigits (by decide) (by decide) hc
      rw [toList_limitLine, toList_limitLine] at h
      simp only [List.append_assoc] at h
      have hsplit := append_inj_of_stops (hdigit n) (hdigit n') (by simp) (by simp)
        (List.append_cancel_left h)
      have hvalue : n = n' := by
        rw [← Nat.ofDigitChars_ten_toDigits (n := n), hsplit.1, Nat.ofDigitChars_ten_toDigits]
      exact ⟨congrArg some hvalue, List.append_cancel_left hsplit.2⟩

theorem limit_notPrefix (condition : Option Condition) :
    ¬ "  limit ".toList <+: (conditionLines condition).toList := by
  cases condition <;> simp [conditionLines, toList_indented]

theorem conditionLines_inj {condition condition' : Option Condition}
    (hlegible : ∀ c ∈ condition, c.Legible) (hlegible' : ∀ c ∈ condition', c.Legible)
    (h : (conditionLines condition).toList = (conditionLines condition').toList) :
    condition = condition' := by
  have hend : Condition.Outside 3 [] := by simp [Condition.Outside]
  cases condition with
  | none =>
    cases condition' with
    | none => rfl
    | some c' => simp [conditionLines, toList_indented] at h
  | some c =>
    cases condition' with
    | none => simp [conditionLines, toList_indented] at h
    | some c' =>
      simp only [conditionLines, String.toList_append] at h
      have houtline := List.append_cancel_left h
      rw [← List.append_nil (c.outline 2).toList, ← List.append_nil (c'.outline 2).toList]
        at houtline
      exact congrArg some
        (Condition.outline_inj hend hend c c' (hlegible c rfl) (hlegible' c' rfl) houtline).1

theorem Selection.rowLimit_inj {s s' : Selection} (h : s.rowLimit = s'.rowLimit) :
    s.limit = s'.limit := by
  grind [Selection.rowLimit]

structure Query.Legible (q : Query) (s : Selection) : Prop where
  body : q.body = .select s
  tableKey : KeyLegible q.tableKey
  condition : ∀ c ∈ s.condition, c.Legible

theorem Selection.outline_inj {s s' : Selection} (hlegible : ∀ c ∈ s.condition, c.Legible)
    (hlegible' : ∀ c ∈ s'.condition, c.Legible)
    (h : (Body.select s).outline = (Body.select s').outline) : s = s' := by
  obtain ⟨limit, condition⟩ := s
  obtain ⟨limit', condition'⟩ := s'
  rw [← String.toList_inj, Body.outline, Body.outline, String.toList_append,
    String.toList_append] at h
  have hlimit := limitLine_inj (limit_notPrefix _) (limit_notPrefix _) h
  have hcondition := conditionLines_inj hlegible hlegible' hlimit.2
  have hsame := Selection.rowLimit_inj hlimit.1
  rw [Selection.mk.injEq]
  exact ⟨hsame, hcondition⟩

theorem Query.toList_outline {q : Query} {s : Selection} (h : q.Legible s) :
    q.outline.toList =
      "select ".toList ++ (q.tableKey.toList ++ '\n' :: (Body.select s).outline.toList) := by
  have hname : q.operation.name = "select" := by
    rw [Query.operation, h.body]
    rfl
  rw [Query.outline_eq, hname, h.body]
  simp

theorem Query.outline_inj {q q' : Query} {s s' : Selection} (hq : q.Legible s)
    (hq' : q'.Legible s') (h : q.outline = q'.outline) :
    q.tableKey = q'.tableKey ∧ s = s' := by
  rw [← String.toList_inj, Query.toList_outline hq, Query.toList_outline hq'] at h
  have hend : ∀ rest, Stops inKey ('\n' :: rest) := by simp [inKey, isKeyChar, isEscapable]
  have hsplit := append_inj_of_stops hq.tableKey hq'.tableKey (hend _) (hend _)
    (List.append_cancel_left h)
  have hbody := String.toList_inj.1 (List.cons.inj hsplit.2).2
  exact ⟨String.toList_inj.1 hsplit.1, Selection.outline_inj hq.condition hq'.condition hbody⟩

end Body

namespace Sentence

theorem Key.inKey_of_mem (k : Key) : ∀ c ∈ k.text, inKey c = true := by
  intro c hc
  obtain ⟨part, -, hpart⟩ := List.mem_flatMap.1 hc
  cases part with
  | plain d h => simp_all [KeyPart.text, inKey]
  | escape d h =>
    simp only [KeyPart.text, List.mem_cons, List.not_mem_nil, or_false] at hpart
    obtain rfl | rfl := hpart
    · rfl
    · simp [inKey, h]

theorem legible_comparisonOf (name : Comparison) (vs : List Value) :
    (comparisonOf name vs).Legible where
  keys k hk := by
    obtain ⟨v, -, hv⟩ := List.mem_filterMap.1 hk
    cases v with
    | key k' =>
      cases hv
      simpa [KeyLegible] using k'.inKey_of_mem
    | literal chars h => cases hv
    | rowKey => cases hv
  literals l hl := by
    obtain ⟨v, -, hv⟩ := List.mem_filterMap.1 hl
    cases v with
    | literal chars h =>
      cases hv
      simpa [LiteralLegible, inLiteral] using h
    | key k' => cases hv
    | rowKey => cases hv

mutual
theorem Clause.legible_condition : (c : Clause) → c.condition.Legible
  | .predicate name _ _ _ _ => legible_comparisonOf name _
  | .group _ _ parts => parts.legible_conditions

theorem Parts.legible_conditions : (ps : Parts) → Condition.LegibleAll ps.conditions
  | .last _ clause _ => ⟨clause.legible_condition, trivial⟩
  | .more _ clause _ others => ⟨clause.legible_condition, others.legible_conditions⟩
end

theorem Means.legible {s : Sentence} {q : Query} (h : s.Means q) :
    q.Legible ⟨s.limitValue, s.filter.map fun f => f.clause.condition⟩ where
  body := h.body
  tableKey := by
    rw [h.tableKey]
    simpa [KeyLegible] using s.key.inKey_of_mem
  condition c hc := by
    obtain ⟨f, -, rfl⟩ := Option.map_eq_some_iff.1 hc
    exact f.clause.legible_condition

end Sentence

/-- An outline leaves no doubt about the query that it is the outline of, among those that come from
texts: two such queries with the same outline do the same with the same table, with the same limit
and the same condition down to the keys and literals of each comparison. -/
theorem eq_of_outline_eq (settings settings' : Settings) (source source' : String) (q q' : Query)
    (hq : parseQuery settings source = .ok q) (hq' : parseQuery settings' source' = .ok q')
    (houtline : q.outline = q'.outline) :
    q.operation = q'.operation ∧ q.tableKey = q'.tableKey ∧ q.body = q'.body := by
  obtain ⟨s, -, -, -, -, hmeans⟩ := exists_means_of_parseQuery hq
  obtain ⟨s', -, -, -, -, hmeans'⟩ := exists_means_of_parseQuery hq'
  have hsame := Query.outline_inj hmeans.legible hmeans'.legible houtline
  refine ⟨hmeans.operation.trans hmeans'.operation.symm, hsame.1, ?_⟩
  rw [hmeans.body, hmeans'.body, hsame.2]

theorem isKeyChar_b : isKeyChar 'b' = true := rfl

/-- The sentence `select b\' where or(str_neq(@key,c\',']\n    and'))`, whose keys hold quotes and
whose literal holds what looks like the end of a list and another line. -/
def Sentence.deceptive (blanks : Blanks) : Sentence where
  lead := blanks
  gap := .blank
  key := ⟨.plain 'b' isKeyChar_b, [.escape '\'' rfl]⟩
  filter := some ⟨.blank, .blank, .group .or .none (.last blanks
    (.predicate .notEqual .none blanks .rowKey
      [⟨.none, .key ⟨.plain 'c' rfl, [.escape '\'' rfl]⟩, .none⟩,
        ⟨blanks, .literal "]\n    and".toList (by simp), .none⟩]) .none)⟩
  limit := none

theorem parseQuery_deceptive (blanks : Sentence.Blanks) (settings : Settings) (source : String)
    (hlength : source.length ≤ maxInputLength)
    (htext : (Sentence.deceptive blanks).text = source.toList) (hdepth : 2 ≤ settings.maxDepth) :
    parseQuery settings source = .ok ⟨"b\\'",
      .select ⟨0, some (.group .or [.predicate ⟨.notEqual, ["c\\'"], ["]\n    and"], true⟩])⟩,
      (Sentence.deceptive blanks).fill {}⟩ := by
  have hlimit : (Sentence.deceptive blanks).limitValue < 2 ^ 64 := by
    change 0 < 2 ^ 64
    decide
  rw [parseQuery_of_text hlength htext hdepth, Sentence.compile_fill, if_pos hlimit]
  rfl

theorem eq_of_outline_eq_deceptive :
    ∃ q q', parseQuery {} "select b\\' where or(str_neq(@key,c\\',']\n    and'))" = .ok q ∧
      parseQuery { maxDepth := 2 } " select b\\' where or( str_neq( @key,c\\', ']\n    and'))" =
        .ok q' ∧
      q.outline = "select b\\'\n  where\n    or\n      " ++
        "str_neq row-key keys [c\\'] literals [']\n    and']\n" ∧
      q.outline = q'.outline ∧
      q.operation = q'.operation ∧ q.tableKey = q'.tableKey ∧ q.body = q'.body := by
  have hq := parseQuery_deceptive .none {} "select b\\' where or(str_neq(@key,c\\',']\n    and'))"
    (by decide) (by decide) (by decide)
  have hq' := parseQuery_deceptive ⟨[' '], by simp [isSpace]⟩ { maxDepth := 2 }
    " select b\\' where or( str_neq( @key,c\\', ']\n    and'))"
    (by decide) (by decide) (by decide)
  refine ⟨_, _, hq, hq', ?_, rfl, eq_of_outline_eq _ _ _ _ _ _ hq hq' rfl⟩
  decide

end TableLang
