import Mathlib
import Reckoner.Registry

/-!
# The registry is a faithful map

A registry keeps two tables, sorted by name, and finds an entry by binary search.  Three facts
carry this:

* in a sorted list a name that occurs twice stands next to itself, so where `repeated?` finds
  nothing the table is strictly increasing (`pairwise_lt_of_repeated?_eq_none`);
* the search looks in the half in which the table is ordered to have the name, so in such a table
  nothing is missed (`search_eq_some_iff`);
* a table without repetitions is sorted in one way only (`sortByName_congr`).

`ofTables_eq_ok_iff` says which tables are taken, and `ofTables_faithful` puts all together.
-/

namespace Reckoner
namespace Registry

/-! ## Names -/

/-- A letter of the ASCII alphabet or the underscore. -/
def BeginsName (c : Char) : Prop := ('A' ≤ c ∧ c ≤ 'Z') ∨ ('a' ≤ c ∧ c ≤ 'z') ∨ c = '_'

/-- A letter or an underscore, and then letters, underscores and ASCII digits. -/
def IsIdentifier (name : String) : Prop :=
  ∃ c rest, name.toList = c :: rest ∧ BeginsName c ∧
    ∀ d ∈ rest, BeginsName d ∨ ('0' ≤ d ∧ d ≤ '9')

theorem isNameStart_iff {c : Char} : isNameStart c = true ↔ BeginsName c := by
  simp only [isNameStart, Char.isAlpha, Char.isUpper, Char.isLower, Bool.or_eq_true,
    Bool.and_eq_true, decide_eq_true_eq, beq_iff_eq, BeginsName, or_assoc]
  rfl

theorem isNamePart_iff {c : Char} :
    isNamePart c = true ↔ BeginsName c ∨ ('0' ≤ c ∧ c ≤ '9') := by
  rw [isNamePart, Bool.or_eq_true, isNameStart_iff]
  simp only [Char.isDigit, Bool.and_eq_true, decide_eq_true_eq]
  rfl

theorem isName_iff {name : String} : isName name.toList = true ↔ IsIdentifier name := by
  unfold IsIdentifier
  cases name.toList with
  | nil => simp [isName]
  | cons c rest =>
    simp only [isName, Bool.and_eq_true, List.all_eq_true, isNameStart_iff, isNamePart_iff]
    constructor
    · rintro ⟨hc, hrest⟩
      exact ⟨c, rest, rfl, hc, hrest⟩
    · rintro ⟨c', rest', heq, hc, hrest⟩
      cases heq
      exact ⟨hc, hrest⟩

/-! ## Sorting -/

section

variable {α : Type} (name : α → String) (entries : List α)

theorem perm_sortByName : (sortByName name entries).Perm entries := List.mergeSort_perm _ _

theorem names_sortByName_perm : ((sortByName name entries).map name).Perm (entries.map name) :=
  (perm_sortByName name entries).map name

theorem pairwise_le_sortByName :
    ((sortByName name entries).map name).Pairwise (· ≤ ·) := by
  rw [List.pairwise_map]
  have hsorted : (sortByName name entries).Pairwise fun a b => decide (name a ≤ name b) = true :=
    List.pairwise_mergeSort
      (fun a b c hab hbc => decide_eq_true
        ((of_decide_eq_true hab).trans (of_decide_eq_true hbc)))
      (fun a b => by simpa using le_total (name a) (name b)) entries
  exact hsorted.imp of_decide_eq_true

end

/-- Names that all differ do not repeat. -/
theorem repeated?_eq_none {names : List String} (h : names.Nodup) : repeated? names = none := by
  fun_induction repeated? names with
  | case1 a rest => simp at h
  | case2 a b rest hne ih => exact ih h.of_cons
  | case3 names hshort => rfl

/-- Sorted names of which none is the next one increase. -/
theorem pairwise_lt_of_repeated?_eq_none {names : List String} (hsorted : names.Pairwise (· ≤ ·))
    (h : repeated? names = none) : names.Pairwise (· < ·) := by
  fun_induction repeated? names with
  | case1 a rest => cases h
  | case2 a b rest hne ih =>
    obtain ⟨ha, hrest⟩ := List.pairwise_cons.1 hsorted
    have hincreasing := ih hrest h
    have hab : a < b := lt_of_le_of_ne (ha b (by simp)) hne
    refine List.pairwise_cons.2 ⟨List.forall_mem_cons.2 ⟨hab, fun c hc => ?_⟩, hincreasing⟩
    exact hab.trans ((List.pairwise_cons.1 hincreasing).1 c hc)
  | case3 names hshort =>
    match names with
    | [] => exact .nil
    | [a] => exact List.pairwise_singleton _ _
    | a :: b :: rest => exact absurd rfl (hshort a b rest)

theorem repeated?_sortByName_eq_none_iff {α : Type} {name : α → String} {entries : List α} :
    repeated? ((sortByName name entries).map name) = none ↔ (entries.map name).Nodup := by
  rw [← (names_sortByName_perm name entries).nodup_iff]
  refine ⟨fun h => ?_, repeated?_eq_none⟩
  exact (pairwise_lt_of_repeated?_eq_none (pairwise_le_sortByName name entries) h).imp
    fun hlt => hlt.ne

/-- Entries without a repeated name come in strictly increasing order. -/
theorem increasing_sortByName {α : Type} {name : α → String} {entries : List α}
    (h : (entries.map name).Nodup) :
    (sortByName name entries).Pairwise fun a b => name a < name b :=
  List.pairwise_map.1 <| pairwise_lt_of_repeated?_eq_none (pairwise_le_sortByName name entries)
    (repeated?_sortByName_eq_none_iff.2 h)

/-- The order in which entries are given does not show in the sorted table. -/
theorem sortByName_congr {α : Type} {name : α → String} {entries entries' : List α}
    (h : (entries.map name).Nodup) (hperm : entries'.Perm entries) :
    sortByName name entries' = sortByName name entries := by
  have h' : (entries'.map name).Nodup := (hperm.map name).nodup_iff.2 h
  have htables : (sortByName name entries').Perm (sortByName name entries) :=
    ((perm_sortByName name entries').trans hperm).trans (perm_sortByName name entries).symm
  exact htables.eq_of_pairwise (fun a b _ _ hab hba => absurd hab hba.asymm)
    (increasing_sortByName h') (increasing_sortByName h)

/-! ## Which tables are taken -/

section

variable {constants : List Constant} {functions : List Function}

/-- Tables make a registry if all that they hold goes by a name, and within each table by
different names. -/
theorem ofTables_eq_ok_iff {r : Registry} : ofTables constants functions = .ok r ↔
    (∀ n ∈ constants.map (·.name) ++ functions.map (·.name), isName n.toList = true) ∧
      (constants.map (·.name)).Nodup ∧ (functions.map (·.name)).Nodup ∧
      r = ⟨sortByName (·.name) constants, sortByName (·.name) functions⟩ := by
  have hnames : (constants.map (·.name) ++ functions.map (·.name)).find?
      (fun n => !isName n.toList) = none ↔
        ∀ n ∈ constants.map (·.name) ++ functions.map (·.name), isName n.toList = true := by
    simp only [List.find?_eq_none, Bool.not_eq_true, Bool.not_eq_false']
  rw [← hnames, ← repeated?_sortByName_eq_none_iff, ← repeated?_sortByName_eq_none_iff]
  unfold ofTables
  simp only []
  split
  · rename_i heq
    simp [heq]
  · rename_i hvalid
    split
    · rename_i hconstant
      simp [hconstant]
    · rename_i hfunction
      simp [hfunction]
    · rename_i hconstants hfunctions
      simp only [hvalid, hconstants, hfunctions, Except.ok.injEq, true_and]
      exact eq_comm

/-- Tables of names that are all different make a registry. -/
theorem ofTables_eq_ok
    (hnames : ∀ n ∈ constants.map (·.name) ++ functions.map (·.name), isName n.toList = true)
    (hconstants : (constants.map (·.name)).Nodup) (hfunctions : (functions.map (·.name)).Nodup) :
    ofTables constants functions =
      .ok ⟨sortByName (·.name) constants, sortByName (·.name) functions⟩ :=
  ofTables_eq_ok_iff.2 ⟨hnames, hconstants, hfunctions, rfl⟩

/-- The registry of two tables holds what they hold. -/
theorem eq_of_ofTables {r : Registry} (h : ofTables constants functions = .ok r) :
    r = ⟨sortByName (·.name) constants, sortByName (·.name) functions⟩ :=
  (ofTables_eq_ok_iff.1 h).2.2.2

end

/-! ## Searching -/

section

variable {α : Type} {name : α → String} {table : List α}

/-- The entries below and above the one in the middle of an increasing table. -/
theorem below_or_above {n : Nat} {x middle : α} {above : List α}
    (htable : table.Pairwise fun a b => name a < name b) (hdrop : table.drop n = middle :: above)
    (hx : x ∈ table) :
    (x ∈ table.take n ∧ name x < name middle) ∨ x = middle ∨
      (x ∈ above ∧ name middle < name x) := by
  rw [← List.take_append_drop n table, hdrop] at htable hx
  obtain ⟨-, habove, hbelow⟩ := List.pairwise_append.1 htable
  rcases List.mem_append.1 hx with hx | hx
  · exact .inl ⟨hx, hbelow x hx middle List.mem_cons_self⟩
  · rcases List.mem_cons.1 hx with rfl | hx
    · exact .inr (.inl rfl)
    · exact .inr (.inr ⟨hx, (List.pairwise_cons.1 habove).1 x hx⟩)

/-- In an increasing table no name is missed: the search goes on in the half in which the name
would have to stand. -/
theorem search_of_mem {x : α} (htable : table.Pairwise fun a b => name a < name b)
    (hx : x ∈ table) : search (fun y => compare (name y) (name x)) table = some x := by
  generalize horder : (fun y => compare (name y) (name x)) = order
  fun_induction search order table with
  | case1 table hdrop =>
    -- only an empty table has an empty upper half
    have hlength := List.length_pos_of_mem hx
    have hle := List.drop_eq_nil_iff.1 hdrop
    omega
  | case2 table middle above hdrop hmiddle =>
    subst horder
    have hname : name middle = name x := compare_eq_iff_eq.1 hmiddle
    rcases below_or_above htable hdrop hx with ⟨-, hlt⟩ | rfl | ⟨-, hlt⟩
    · exact absurd hname hlt.ne'
    · rfl
    · exact absurd hname hlt.ne
  | case3 table middle above hdrop hmiddle ih =>
    subst horder
    have hname : name middle < name x := compare_lt_iff_lt.1 hmiddle
    have hupper : (middle :: above).Pairwise fun a b => name a < name b := hdrop ▸ htable.drop
    rcases below_or_above htable hdrop hx with ⟨-, hlt⟩ | rfl | ⟨hx, -⟩
    · exact absurd hname hlt.asymm
    · exact absurd hname (lt_irrefl _)
    · exact ih hupper.of_cons hx
  | case4 table middle above hdrop hmiddle ih =>
    subst horder
    have hname : name x < name middle := compare_gt_iff_gt.1 hmiddle
    rcases below_or_above htable hdrop hx with ⟨hx, -⟩ | rfl | ⟨-, hlt⟩
    · exact ih htable.take hx
    · exact absurd hname (lt_irrefl _)
    · exact absurd hname hlt.asymm

theorem search_eq_some_iff {n : String} {x : α}
    (htable : table.Pairwise fun a b => name a < name b) :
    search (fun y => compare (name y) n) table = some x ↔ x ∈ table ∧ name x = n := by
  constructor
  · intro h
    exact (of_search_eq_some h).imp_right compare_eq_iff_eq.1
  · rintro ⟨hx, rfl⟩
    exact search_of_mem htable hx

end

theorem function?_of_mem {r : Registry} {f : Function}
    (h : r.functions.Pairwise fun f g => f.name < g.name) (hf : f ∈ r.functions) :
    r.function? f.name = some f :=
  search_of_mem h hf

/-! ## Faithful tables -/

/-- A table with a look-up that holds some entries, each under its own name and no other. -/
structure Indexes {α : Type} (name : α → String) (entries table : List α)
    (lookup : String → Option α) : Prop where
  increasing : table.Pairwise fun a b => name a < name b
  perm : table.Perm entries
  lookup_eq_some_iff : ∀ n x, lookup n = some x ↔ x ∈ entries ∧ name x = n
  lookup_eq_none_iff : ∀ n, lookup n = none ↔ ∀ x ∈ entries, name x ≠ n

theorem indexes_search {α : Type} {name : α → String} {entries : List α}
    (h : (entries.map name).Nodup) :
    Indexes name entries (sortByName name entries)
      fun n => search (fun x => compare (name x) n) (sortByName name entries) := by
  have hfound (n : String) (x : α) :
      search (fun y => compare (name y) n) (sortByName name entries) = some x ↔
        x ∈ entries ∧ name x = n := by
    rw [search_eq_some_iff (increasing_sortByName h), (perm_sortByName name entries).mem_iff]
  refine ⟨increasing_sortByName h, perm_sortByName name entries, hfound, fun n => ?_⟩
  rw [Option.eq_none_iff_forall_ne_some]
  simp only [ne_eq, hfound, not_and]

/-- **The registry is a faithful map.**  Tables make a registry exactly if all names are
identifiers and no name occurs twice in a table.  The registry then has the entries in strictly
increasing order, finds each under its name and nothing under any other, and does not depend on
the order in which the entries were given. -/
theorem ofTables_faithful (constants : List Constant) (functions : List Function) :
    ((∃ r, ofTables constants functions = .ok r) ↔
      (∀ c ∈ constants, IsIdentifier c.name) ∧ (∀ f ∈ functions, IsIdentifier f.name) ∧
        (constants.map (·.name)).Nodup ∧ (functions.map (·.name)).Nodup) ∧
    ∀ r, ofTables constants functions = .ok r →
      Indexes (·.name) constants r.constants r.constant? ∧
      Indexes (·.name) functions r.functions r.function? ∧
      ∀ constants' functions', constants'.Perm constants → functions'.Perm functions →
        ofTables constants' functions' = .ok r := by
  refine ⟨?_, fun r hr => ?_⟩
  · simp only [ofTables_eq_ok_iff, exists_and_left, exists_eq, and_true, isName_iff,
      List.forall_mem_append, List.forall_mem_map, and_assoc]
  · obtain ⟨hnames, hconstants, hfunctions, rfl⟩ := ofTables_eq_ok_iff.1 hr
    refine ⟨indexes_search hconstants, indexes_search hfunctions,
      fun constants' functions' hc hf => ofTables_eq_ok_iff.2 ⟨fun n hn => hnames n ?_,
        ((hc.map _).nodup_iff).2 hconstants, ((hf.map _).nodup_iff).2 hfunctions, ?_⟩⟩
    · rwa [((hc.map _).append (hf.map _)).mem_iff] at hn
    · rw [sortByName_congr hconstants hc, sortByName_congr hfunctions hf]

/-- Names that begin with each other, in no order: each is found under itself alone. -/
theorem ofTables_faithful_prefixes :
    let sine : Function := .unary "sin" fun _ x => .ok x
    let constants : List Constant := [⟨"b", 2⟩, ⟨"ab", 3⟩, ⟨"a", 1⟩]
    let functions : List Function := [.unary "sinh" fun _ x => .ok x, sine]
    ∃ r, ofTables constants functions = .ok r ∧ r.constants = [⟨"a", 1⟩, ⟨"ab", 3⟩, ⟨"b", 2⟩] ∧
      r.constant? "ab" = some ⟨"ab", 3⟩ ∧ r.constant? "abc" = none ∧
      r.function? "sin" = some sine ∧ r.function? "si" = none ∧
      ofTables constants.reverse functions.reverse = .ok r := by
  intro sine constants functions
  have hr : ofTables constants functions =
      .ok ⟨sortByName (·.name) constants, sortByName (·.name) functions⟩ :=
    ofTables_eq_ok (by decide) (by decide) (by decide)
  obtain ⟨hconstants, hfunctions, hperm⟩ := (ofTables_faithful constants functions).2 _ hr
  have hab : "a" ≤ "ab" ∧ "ab" ≤ "b" ∧ ¬ "b" ≤ "ab" ∧ ¬ "b" ≤ "a" ∧ ¬ "ab" ≤ "a" := by decide
  have hsorted : sortByName (·.name) constants = [⟨"a", 1⟩, ⟨"ab", 3⟩, ⟨"b", 2⟩] := by
    simp [sortByName, constants, List.mergeSort, List.MergeSort.Internal.splitInTwo, hab]
  exact ⟨_, hr, hsorted,
    (hconstants.lookup_eq_some_iff "ab" ⟨"ab", 3⟩).2 ⟨by decide, rfl⟩,
    (hconstants.lookup_eq_none_iff "abc").2 (by decide),
    (hfunctions.lookup_eq_some_iff "sin" sine).2 ⟨by simp [functions], rfl⟩,
    (hfunctions.lookup_eq_none_iff "si").2 (by decide),
    hperm _ _ constants.reverse_perm functions.reverse_perm⟩

end Registry
end Reckoner
