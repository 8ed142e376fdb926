import Mathlib.Data.List.Induction
import TableQuery.Value.Basic

/-! # The names of a record

A field that is set keeps its place or comes last, unless its name is a whole number. So a
record built of other names holds each name once, in the order of first entry, and only the
name `__proto__` is left out.
-/
namespace TableQuery
namespace Record
variable {α : Type}

theorem has_iff {r : Record α} {name : String} : has r name = true ↔ name ∈ names r := by
  unfold has names
  rw [List.lookup_isSome_iff, List.mem_map]
  constructor
  · rintro ⟨field, hfield, hname⟩
    exact ⟨field, hfield, (beq_iff_eq.mp hname).symm⟩
  · rintro ⟨field, hfield, rfl⟩
    exact ⟨field, hfield, beq_self_eq_true _⟩

theorem insert_of_index? {r : Record α} {name : String} (h : index? name = none) (a : α) :
    insert r name a = r ++ [(name, a)] := by
  have hlast : ∀ field ∈ r, comesAfter name field.1 = true := by
    intro field _
    unfold comesAfter
    rw [h]
  have hall : (r : List (String × α)) ++ [] = r := List.append_nil r
  have htake : r.takeWhile (fun field => comesAfter name field.1) = r := by
    rw [← hall, List.takeWhile_append_of_pos hlast]
    rfl
  have hdrop : r.dropWhile (fun field => comesAfter name field.1) = [] := by
    rw [← hall, List.dropWhile_append_of_pos hlast]
    rfl
  unfold insert
  rw [htake, hdrop]

theorem set_of_notMem {r : Record α} {name : String} (hindex : index? name = none)
    (hproto : name ≠ "__proto__") (h : name ∉ names r) (a : α) :
    set r name a = r ++ [(name, a)] := by
  unfold set
  rw [if_neg hproto, if_neg (fun hhas => h (has_iff.mp hhas)), insert_of_index? hindex]

theorem names_set_of_mem {r : Record α} {name : String} (h : name ∈ names r) (a : α) :
    names (set r name a) = names r := by
  unfold set
  by_cases hproto : name = "__proto__"
  · rw [if_pos hproto]
  · rw [if_neg hproto, if_pos (has_iff.mpr h)]
    unfold names
    rw [List.map_map]
    refine List.map_congr_left fun field _ => ?_
    by_cases hname : field.1 = name
    · simp [hname]
    · simp [hname]

theorem names_set_of_notMem {r : Record α} {name : String} (hindex : index? name = none)
    (hproto : name ≠ "__proto__") (h : name ∉ names r) (a : α) :
    names (set r name a) = names r ++ [name] := by
  rw [set_of_notMem hindex hproto h]
  exact List.map_append

theorem eraseDups_concat (texts : List String) (text : String) :
    (texts ++ [text]).eraseDups =
      if text ∈ texts then texts.eraseDups else texts.eraseDups ++ [text] := by
  rw [List.eraseDups_append]
  by_cases h : text ∈ texts
  · simp [List.removeAll, h]
  · simp [List.removeAll, h, List.eraseDups_cons]

theorem nodup_eraseDups (texts : List String) : texts.eraseDups.Nodup := by
  induction texts using List.reverseRecOn with
  | nil => exact List.nodup_nil
  | append_singleton texts text ih =>
    rw [eraseDups_concat]
    split
    · exact ih
    · next h =>
      refine List.nodup_append.mpr ⟨ih, List.pairwise_singleton _ text, ?_⟩
      intro other hother added hadded hsame
      rw [hsame, List.mem_singleton.mp hadded] at hother
      exact h (List.mem_eraseDups.mp hother)

theorem names_foldl_set (before : List String) {fields : List (String × α)} {r : Record α}
    (hr : names r = (before.filter (· ≠ "__proto__")).eraseDups)
    (hfields : ∀ field ∈ fields, index? field.1 = none) :
    names (fields.foldl (fun r field => set r field.1 field.2) r) =
      ((before ++ fields.map (·.1)).filter (· ≠ "__proto__")).eraseDups := by
  induction fields generalizing before r with
  | nil => rw [List.map_nil, List.append_nil, List.foldl_nil, hr]
  | cons field fields ih =>
    obtain ⟨name, a⟩ := field
    have hindex : index? name = none := hfields (name, a) List.mem_cons_self
    have hrest : ∀ field ∈ fields, index? field.1 = none :=
      fun field h => hfields field (List.mem_cons_of_mem _ h)
    have hset : names (set r name a) =
        ((before ++ [name]).filter (· ≠ "__proto__")).eraseDups := by
      by_cases hproto : name = "__proto__"
      · have hnothing : [name].filter (· ≠ "__proto__") = [] := by simp [hproto]
        rw [List.filter_append, hnothing, List.append_nil, ← hr]
        unfold set
        rw [if_pos hproto]
      · have hkept : [name].filter (· ≠ "__proto__") = [name] := by simp [hproto]
        have hmem : name ∈ names r ↔ name ∈ before.filter (· ≠ "__proto__") := by
          rw [hr, List.mem_eraseDups]
        rw [List.filter_append, hkept, eraseDups_concat, ← hr]
        by_cases hbefore : name ∈ before.filter (· ≠ "__proto__")
        · rw [if_pos hbefore, names_set_of_mem (hmem.mpr hbefore)]
        · rw [if_neg hbefore, names_set_of_notMem hindex hproto (fun h => hbefore (hmem.mp h))]
    have hall := ih (before ++ [name]) hset hrest
    rw [List.append_assoc] at hall
    exact hall

theorem names_ofList {fields : List (String × α)}
    (h : ∀ field ∈ fields, index? field.1 = none) :
    names (ofList fields) = ((fields.map (·.1)).filter (· ≠ "__proto__")).eraseDups :=
  names_foldl_set [] rfl h

theorem set_of_names (f : String → α) {texts : List String} {name : String} (h : name ∈ texts)
    (hproto : name ≠ "__proto__") :
    set (texts.map fun text => (text, f text)) name (f name) =
      texts.map fun text => (text, f text) := by
  have hnames : names (texts.map fun text => (text, f text)) = texts := by
    unfold names
    rw [List.map_map]
    exact List.map_id' _
  have hhas : has (texts.map fun text => (text, f text)) name = true :=
    has_iff.mpr (hnames.symm ▸ h)
  unfold set
  rw [if_neg hproto, if_pos hhas, List.map_map]
  refine List.map_congr_left fun text _ => ?_
  by_cases hname : text = name
  · simp [hname]
  · simp [hname]

theorem ofList_of_names (f : String → α) {texts : List String}
    (hindex : ∀ text ∈ texts, index? text = none) (hproto : "__proto__" ∉ texts) :
    ofList (texts.map fun text => (text, f text)) =
      texts.eraseDups.map fun text => (text, f text) := by
  induction texts using List.reverseRecOn with
  | nil => rfl
  | append_singleton texts text ih =>
    have hother : text ≠ "__proto__" := by
      rintro rfl
      exact hproto (by simp)
    have hbefore := ih (fun text h => hindex text (List.mem_append_left _ h))
      fun h => hproto (List.mem_append_left _ h)
    have hlast : ofList ((texts ++ [text]).map fun text => (text, f text)) =
        set (ofList (texts.map fun text => (text, f text))) text (f text) := by
      unfold ofList
      rw [List.map_append, List.foldl_append]
      rfl
    have hnames : names (texts.eraseDups.map fun text => (text, f text)) = texts.eraseDups := by
      unfold names
      rw [List.map_map]
      exact List.map_id' _
    rw [hlast, hbefore, eraseDups_concat]
    split
    · next h => exact set_of_names f (List.mem_eraseDups.mpr h) hother
    · next h =>
      rw [set_of_notMem (hindex text (by simp)) hother
        (by rwa [hnames, List.mem_eraseDups]), List.map_append]
      rfl

theorem foldl_set_of_new {fields : List (String × α)} {r : Record α}
    (hnames : (names r ++ fields.map (·.1)).Nodup)
    (hindex : ∀ field ∈ fields, index? field.1 = none)
    (hproto : "__proto__" ∉ fields.map (·.1)) :
    fields.foldl (fun r field => set r field.1 field.2) r = r ++ fields := by
  induction fields generalizing r with
  | nil => exact (List.append_nil r).symm
  | cons field fields ih =>
    obtain ⟨name, a⟩ := field
    rw [List.map_cons] at hnames hproto
    have hother : name ≠ "__proto__" := by
      rintro rfl
      exact hproto List.mem_cons_self
    have hnew : name ∉ names r := fun hmem =>
      (List.nodup_append.mp hnames).2.2 name hmem name List.mem_cons_self rfl
    have hset := set_of_notMem (hindex _ List.mem_cons_self) hother hnew a
    have hnames' : (names (r ++ [(name, a)]) ++ fields.map (·.1)).Nodup := by
      have happend : names (r ++ [(name, a)]) = names r ++ [name] := List.map_append
      rw [happend, List.append_assoc]
      exact hnames
    have hrest := ih hnames' (fun field h => hindex field (List.mem_cons_of_mem _ h))
      fun h => hproto (List.mem_cons_of_mem _ h)
    rw [List.foldl_cons, hset, hrest, List.append_assoc]
    rfl

theorem index?_eq_none {name : String} {c : Char} {cs : List Char} (hname : name.toList = c :: cs)
    (h : c.isDigit = false) : index? name = none := by
  unfold index?
  simp [hname, h]

end Record
end TableQuery
