/-! Rows of a table, as they are handed over from storage: a key, and entries with the values stored
under each name. -/
namespace TableLang

structure Entries where
  toList : List (String × List String)
  sorted : toList.Pairwise fun a b => a.1 < b.1
deriving DecidableEq

namespace Entries

def empty : Entries := ⟨[], List.Pairwise.nil⟩

/-- Puts an entry into a list at the place of its name, where it replaces an entry of that name. -/
def insertInto (name : String) (values : List String) :
    List (String × List String) → List (String × List String)
  | [] => [(name, values)]
  | e :: es =>
    if name < e.1 then (name, values) :: e :: es
    else if e.1 < name then e :: insertInto name values es
    else (name, values) :: es

/-- After an insertion there is the entry inserted and nothing else new. -/
theorem mem_insertInto {name : String} {values : List String} {es : List (String × List String)}
    {e : String × List String} (h : e ∈ insertInto name values es) :
    e = (name, values) ∨ e ∈ es := by
  induction es with
  | nil => exact .inl (List.mem_singleton.1 h)
  | cons d ds ih =>
    unfold insertInto at h
    split at h
    case isTrue => exact List.mem_cons.1 h
    case isFalse =>
      split at h
      case isTrue =>
        rcases List.mem_cons.1 h with rfl | h
        · exact .inr (List.mem_cons_self ..)
        · exact (ih h).imp_right (List.mem_cons_of_mem _)
      case isFalse => exact (List.mem_cons.1 h).imp_right (List.mem_cons_of_mem _)

/-- Insertion keeps the order of the names. -/
theorem sorted_insertInto (name : String) (values : List String)
    {es : List (String × List String)} (h : es.Pairwise fun a b => a.1 < b.1) :
    (insertInto name values es).Pairwise fun a b => a.1 < b.1 := by
  induction es with
  | nil => simp [insertInto]
  | cons d ds ih =>
    have ⟨below, rest⟩ := List.pairwise_cons.1 h
    unfold insertInto
    split
    case isTrue first =>
      refine List.pairwise_cons.2 ⟨fun e he => ?_, h⟩
      rcases List.mem_cons.1 he with rfl | he
      · exact first
      · exact String.lt_trans first (below e he)
    case isFalse notBefore =>
      split
      case isTrue after =>
        refine List.pairwise_cons.2 ⟨fun e he => ?_, ih rest⟩
        rcases mem_insertInto he with rfl | he
        · exact after
        · exact below e he
      case isFalse notAfter =>
        have same : name = d.1 :=
          String.le_antisymm (String.not_lt.1 notAfter) (String.not_lt.1 notBefore)
        exact List.pairwise_cons.2 ⟨fun e he => same ▸ below e he, rest⟩

def insert (es : Entries) (name : String) (values : List String) : Entries :=
  ⟨insertInto name values es.toList, sorted_insertInto name values es.sorted⟩

def ofList (pairs : List (String × List String)) : Entries :=
  pairs.foldl (fun es e => es.insert e.1 e.2) empty

def size (es : Entries) : Nat := es.toList.length

end Entries

structure Row where
  key : String
  entries : Entries
deriving DecidableEq

end TableLang
