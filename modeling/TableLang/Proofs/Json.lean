import Mathlib.Data.List.Sort
import TableLang.Json

/-! JSON values as finite maps. Which value an object has under which name matters, and the order of
its members does not. Main statement: two values in which the members of every object stand by
increasing name are the same in this sense exactly when they are equal. -/
namespace TableLang.Json

mutual
/-- The same value, when objects are taken as maps from names to values. -/
def Same : Json → Json → Prop
  | bool b, k => k = bool b
  | num n, k => k = num n
  | str s, k => k = str s
  | arr items, k => ∃ items', k = arr items' ∧ SameItems items items'
  | obj members, k =>
    ∃ members', k = obj members' ∧ SameMembers members members' ∧
      ∀ name ∈ members'.map Prod.fst, name ∈ members.map Prod.fst

def SameItems : List Json → List Json → Prop
  | [], ks => ks = []
  | j :: js, ks => ∃ k ks', ks = k :: ks' ∧ j.Same k ∧ SameItems js ks'

def SameMembers : List (String × Json) → List (String × Json) → Prop
  | [], _ => True
  | (name, j) :: rest, members =>
    (∃ k, (name, k) ∈ members ∧ j.Same k) ∧ SameMembers rest members
end

def Increasing (members : List (String × Json)) : Prop :=
  (members.map Prod.fst).Pairwise (· < ·)

mutual
def Ordered : Json → Prop
  | arr items => OrderedItems items
  | obj members => Increasing members ∧ OrderedMembers members
  | _ => True

def OrderedItems : List Json → Prop
  | [] => True
  | j :: js => j.Ordered ∧ OrderedItems js

def OrderedMembers : List (String × Json) → Prop
  | [] => True
  | (_, j) :: rest => j.Ordered ∧ OrderedMembers rest
end

@[simp]
theorem ordered_bool (b : Bool) : (bool b).Ordered := trivial

@[simp]
theorem ordered_num (n : Nat) : (num n).Ordered := trivial

@[simp]
theorem ordered_str (s : String) : (str s).Ordered := trivial

theorem ordered_arr {items : List Json} : (arr items).Ordered ↔ ∀ j ∈ items, j.Ordered := by
  rw [Ordered]
  induction items with
  | nil => simp [OrderedItems]
  | cons j js ih => simp [OrderedItems, ih]

theorem orderedMembers_iff {members : List (String × Json)} :
    OrderedMembers members ↔ ∀ m ∈ members, m.2.Ordered := by
  induction members with
  | nil => simp [OrderedMembers]
  | cons m rest ih => simp [OrderedMembers, ih]

theorem ordered_obj {members : List (String × Json)} :
    (obj members).Ordered ↔ Increasing members ∧ ∀ m ∈ members, m.2.Ordered := by
  rw [Ordered, orderedMembers_iff]

namespace Increasing
variable {members members' : List (String × Json)}

theorem nodup_names (h : Increasing members) : (members.map Prod.fst).Nodup := by
  refine h.imp ?_
  intro a b hlt heq
  rw [heq] at hlt
  exact String.lt_irrefl b hlt

theorem eq_of_name_eq (h : Increasing members) {a b : String × Json} (ha : a ∈ members)
    (hb : b ∈ members) (hname : a.1 = b.1) : a = b :=
  List.inj_on_of_nodup_map h.nodup_names ha hb hname

theorem eq_of_mem_iff (h : Increasing members) (h' : Increasing members')
    (hmem : ∀ m, m ∈ members ↔ m ∈ members') : members = members' := by
  have hperm : members.Perm members' :=
    (List.perm_ext_iff_of_nodup h.nodup_names.of_map h'.nodup_names.of_map).2 hmem
  refine hperm.eq_of_pairwise ?_ (List.pairwise_map.1 h) (List.pairwise_map.1 h')
  intro a b _ _ hab hba
  exact absurd hba (String.lt_asymm hab)

end Increasing

mutual
/-- A value in order is the same as itself. -/
theorem same_refl : (j : Json) → j.Ordered → j.Same j
  | bool _, _ => rfl
  | num _, _ => rfl
  | str _, _ => rfl
  | arr items, h => ⟨items, rfl, sameItems_refl items h⟩
  | obj members, h =>
    ⟨members, rfl, sameMembers_of_subset members members h.2 (fun _ hm => hm), fun _ hname => hname⟩

theorem sameItems_refl : (items : List Json) → OrderedItems items → SameItems items items
  | [], _ => rfl
  | j :: js, h => ⟨j, js, rfl, same_refl j h.1, sameItems_refl js h.2⟩

theorem sameMembers_of_subset : (members others : List (String × Json)) →
    OrderedMembers members → (∀ m ∈ members, m ∈ others) → SameMembers members others
  | [], _, _, _ => trivial
  | (_, j) :: rest, others, h, hsub =>
    ⟨⟨j, hsub _ (List.mem_cons_self ..), same_refl j h.1⟩,
      sameMembers_of_subset rest others h.2 fun m hm => hsub m (List.mem_cons_of_mem _ hm)⟩
end

mutual
/-- Values in order that are the same are equal. -/
theorem eq_of_same : (j k : Json) → j.Ordered → k.Ordered → j.Same k → j = k
  | bool _, _, _, _, h => h.symm
  | num _, _, _, _, h => h.symm
  | str _, _, _, _, h => h.symm
  | arr items, _, hj, hk, h => by
    obtain ⟨items', rfl, hitems⟩ := h
    rw [eq_of_sameItems items items' hj hk hitems]
  | obj members, _, hj, hk, h => by
    obtain ⟨members', rfl, hmembers, hnames⟩ := h
    have hsub := mem_of_sameMembers members members' hj.2 hk.2 hmembers
    -- A member on the right has the name of one on the left, which is on the right as well.
    have hsub' (m : String × Json) (hm : m ∈ members') : m ∈ members := by
      obtain ⟨n, hn, hname⟩ := List.mem_map.1 (hnames m.1 (List.mem_map_of_mem hm))
      rwa [← hk.1.eq_of_name_eq (hsub n hn) hm hname]
    rw [hj.1.eq_of_mem_iff hk.1 fun m => ⟨hsub m, hsub' m⟩]

theorem eq_of_sameItems : (js ks : List Json) → OrderedItems js → OrderedItems ks →
    SameItems js ks → js = ks
  | [], _, _, _, h => h.symm
  | j :: js, _, hj, hk, h => by
    obtain ⟨k, ks, rfl, hsame, hitems⟩ := h
    rw [eq_of_same j k hj.1 hk.1 hsame, eq_of_sameItems js ks hj.2 hk.2 hitems]

theorem mem_of_sameMembers : (members members' : List (String × Json)) →
    OrderedMembers members → OrderedMembers members' → SameMembers members members' →
    ∀ m ∈ members, m ∈ members'
  | [], _, _, _, _, m, hm => by cases hm
  | (name, j) :: rest, members', hj, hk, h, m, hm => by
    obtain ⟨⟨k, hmem, hsame⟩, hrest⟩ := h
    obtain rfl | hm := List.mem_cons.1 hm
    · rwa [eq_of_same j k hj.1 (orderedMembers_iff.1 hk _ hmem) hsame]
    · exact mem_of_sameMembers rest members' hj.2 hk hrest m hm
end

theorem same_iff_eq {j k : Json} (hj : j.Ordered) (hk : k.Ordered) : j.Same k ↔ j = k := by
  constructor
  · intro h
    exact eq_of_same j k hj hk h
  · rintro rfl
    exact same_refl j hj

end TableLang.Json
