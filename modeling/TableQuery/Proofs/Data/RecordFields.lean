import Mathlib.Data.List.Nodup
import TableQuery.Proofs.Data.RecordNames

/-! # The fields of a record

Setting a field changes what is found under its name and nothing else, so a record that is
made from a list of fields holds under each name the last of them. A record made in this way
is proper: it holds each name once, and never `__proto__`.
-/
namespace TableQuery.Record
variable {α : Type}

theorem get?_map {β : Type} (f : α → β) (r : Record α) (name : String) :
    get? (r.map fun field => (field.1, f field.2)) name = (get? r name).map f := by
  unfold get?
  induction r with
  | nil => rfl
  | cons field r ih =>
    rw [List.map_cons, List.lookup_cons, List.lookup_cons]
    split
    · rfl
    · exact ih

theorem get?_eq_none_iff {r : Record α} {name : String} : get? r name = none ↔ name ∉ names r := by
  rw [← has_iff]
  unfold has get?
  rw [Bool.not_eq_true, Option.isSome_eq_false_iff, Option.isNone_iff_eq_none]

theorem mem_of_get? {r : Record α} {name : String} {a : α} (h : get? r name = some a) :
    (name, a) ∈ r := by
  unfold get? at h
  obtain ⟨before, after, rfl, -⟩ := List.lookup_eq_some_iff.mp h
  simp

theorem get?_of_mem {r : Record α} (hnames : (names r).Nodup) {field : String × α}
    (h : field ∈ r) : get? r field.1 = some field.2 := by
  cases hget : get? r field.1 with
  | none => exact absurd (List.mem_map_of_mem h) (get?_eq_none_iff.mp hget)
  | some a =>
    have hfield : field = (field.1, a) :=
      List.inj_on_of_nodup_map hnames h (mem_of_get? hget) rfl
    rw [hfield]

theorem get?_of_names (f : String → α) (names : List String) (name : String) :
    get? (names.map fun name => (name, f name)) name =
      if name ∈ names then some (f name) else none := by
  unfold get?
  induction names with
  | nil => rfl
  | cons other names ih =>
    rw [List.map_cons, List.lookup_cons, ih]
    by_cases hname : name = other
    · simp [hname]
    · simp [hname, beq_eq_false_iff_ne.mpr hname]

theorem get?_append (r s : Record α) (name : String) :
    get? (r ++ s) name = (get? r name).or (get? s name) := List.lookup_append

theorem get?_insert {r : Record α} {name : String} (h : name ∉ names r) (a : α) (other : String) :
    get? (insert r name a) other = if other = name then some a else get? r other := by
  have hparts (other : String) : get? r other =
      (get? (r.takeWhile fun field => comesAfter name field.1) other).or
        (get? (r.dropWhile fun field => comesAfter name field.1) other) := by
    rw [← get?_append, List.takeWhile_append_dropWhile]
  unfold insert
  rw [get?_append]
  by_cases hname : other = name
  · subst hname
    have hnone := hparts other
    rw [get?_eq_none_iff.mpr h] at hnone
    rw [if_pos rfl, (Option.or_eq_none_iff.mp hnone.symm).1, Option.none_or]
    exact List.lookup_cons_self
  · rw [if_neg hname, hparts other]
    congr 1
    unfold get?
    rw [List.lookup_cons, beq_eq_false_iff_ne.mpr hname]

theorem get?_replace (r : Record α) (name : String) (a : α) (other : String) :
    get? (r.map fun field => if field.1 = name then (name, a) else field) other =
      if other = name then (get? r name).map fun _ => a else get? r other := by
  unfold get?
  induction r with
  | nil => split <;> rfl
  | cons field r ih =>
    rw [List.map_cons, List.lookup_cons, List.lookup_cons, List.lookup_cons, ih]
    by_cases hname : other = name
    · subst hname
      by_cases hfield : field.1 = other
      · simp [hfield]
      · simp [hfield, beq_eq_false_iff_ne.mpr (Ne.symm hfield)]
    · by_cases hfield : field.1 = name
      · simp [hfield, hname, beq_eq_false_iff_ne.mpr hname]
      · simp [hfield, hname]

theorem get?_set (r : Record α) (name : String) (a : α) (other : String) :
    get? (set r name a) other =
      if other = name ∧ name ≠ "__proto__" then some a else get? r other := by
  unfold set
  by_cases hproto : name = "__proto__"
  · simp [hproto]
  · rw [if_neg hproto]
    simp only [hproto, ne_eq, not_false_eq_true, and_true]
    split
    · next hhas =>
      obtain ⟨b, hb⟩ := Option.isSome_iff_exists.mp hhas
      rw [get?_replace, show get? r name = some b from hb, Option.map_some]
    · next hhas =>
      rw [get?_insert (fun hmem => hhas (has_iff.mpr hmem))]

theorem mem_names_set {r : Record α} {name other : String} {a : α} :
    other ∈ names (set r name a) ↔ (other = name ∧ name ≠ "__proto__") ∨ other ∈ names r := by
  rw [← not_iff_not, not_or, ← get?_eq_none_iff, ← get?_eq_none_iff, get?_set]
  split <;> simp [*]

theorem get?_foldl_set (fields : List (String × α)) (r : Record α) (name : String) :
    get? (fields.foldl (fun r field => set r field.1 field.2) r) name =
      if name = "__proto__" then get? r name
      else (get? fields.reverse name).or (get? r name) := by
  induction fields generalizing r with
  | nil => exact (ite_self _).symm
  | cons field fields ih =>
    rw [List.foldl_cons, ih, get?_set, List.reverse_cons, get?_append, Option.or_assoc]
    by_cases hproto : name = "__proto__"
    · have hset : ¬ (name = field.1 ∧ field.1 ≠ "__proto__") := by
        rintro ⟨rfl, hother⟩
        exact hother hproto
      rw [if_pos hproto, if_pos hproto, if_neg hset]
    · have hlast : get? [field] name = if name = field.1 then some field.2 else none := by
        simpa only [List.map_singleton, List.mem_singleton] using
          get?_of_names (fun _ => field.2) [field.1] name
      rw [if_neg hproto, if_neg hproto, hlast]
      by_cases hname : name = field.1
      · have hset : name = field.1 ∧ field.1 ≠ "__proto__" := ⟨hname, hname ▸ hproto⟩
        rw [if_pos hset, if_pos hname, Option.some_or]
      · rw [if_neg (fun hset => hname hset.1), if_neg hname, Option.none_or]

theorem get?_ofList (fields : List (String × α)) (name : String) :
    get? (ofList fields) name =
      if name = "__proto__" then none else get? fields.reverse name := by
  unfold ofList
  rw [get?_foldl_set]
  split
  · rfl
  · exact Option.or_none

/-- A record of names given by a function of them holds its values under all names but one. -/
theorem get?_ofList_of_names (f : String → α) {names : List String} {name : String}
    (h : name ∈ names) (hproto : name ≠ "__proto__") :
    get? (ofList (names.map fun name => (name, f name))) name = some (f name) := by
  rw [get?_ofList, if_neg hproto, ← List.map_reverse, get?_of_names,
    if_pos (List.mem_reverse.mpr h)]

theorem ofList_congr {f g : String → α} {names : List String}
    (h : ∀ name ∈ names, name ≠ "__proto__" → f name = g name) :
    ofList (names.map fun name => (name, f name)) =
      ofList (names.map fun name => (name, g name)) := by
  unfold ofList
  rw [List.foldl_map, List.foldl_map]
  refine List.foldl_ext _ _ _ fun r name hname => ?_
  by_cases hproto : name = "__proto__"
  · simp [set, hproto]
  · rw [h name hname hproto]

theorem exists_of_mem_set {r : Record α} {name : String} {a : α} {field : String × α}
    (h : field ∈ set r name a) : field ∈ r ∨ field.2 = a := by
  unfold set insert at h
  split at h
  · exact Or.inl h
  split at h
  · obtain ⟨other, hother, rfl⟩ := List.mem_map.mp h
    split
    · exact Or.inr rfl
    · exact Or.inl hother
  · rcases List.mem_append.mp h with hfront | hrest
    · exact Or.inl ((List.takeWhile_sublist _).subset hfront)
    · rcases List.mem_cons.mp hrest with rfl | hback
      · exact Or.inr rfl
      · exact Or.inl ((List.dropWhile_sublist _).subset hback)

theorem forall_mem_ofList {P : α → Prop} {fields : List (String × α)}
    (h : ∀ field ∈ fields, P field.2) : ∀ field ∈ ofList fields, P field.2 := by
  have hfold (r : Record α) (hr : ∀ field ∈ r, P field.2) :
      ∀ field ∈ fields.foldl (fun r field => set r field.1 field.2) r, P field.2 := by
    induction fields generalizing r with
    | nil => exact hr
    | cons first fields ih =>
      obtain ⟨hfirst, hfields⟩ := List.forall_mem_cons.mp h
      refine ih hfields _ fun field hfield => ?_
      rcases exists_of_mem_set hfield with hmem | heq
      · exact hr field hmem
      · exact heq ▸ hfirst
  exact hfold [] (List.forall_mem_nil _)

/-- A record holds each name once, and the name `__proto__` not at all. -/
structure Proper (r : Record α) : Prop where
  nodup : (names r).Nodup
  noProto : "__proto__" ∉ names r

instance (r : Record α) : Decidable r.Proper :=
  decidable_of_iff ((names r).Nodup ∧ "__proto__" ∉ names r)
    ⟨fun h => ⟨h.1, h.2⟩, fun h => ⟨h.nodup, h.noProto⟩⟩

theorem Proper.nil : Proper ([] : Record α) := ⟨List.nodup_nil, List.not_mem_nil⟩

theorem Proper.set {r : Record α} (h : r.Proper) (name : String) (a : α) :
    (set r name a).Proper := by
  by_cases hproto : name = "__proto__"
  · unfold Record.set
    rwa [if_pos hproto]
  by_cases hmem : name ∈ names r
  · constructor
    · rw [names_set_of_mem hmem]
      exact h.nodup
    · rw [names_set_of_mem hmem]
      exact h.noProto
  · have hparts : names (Record.set r name a) =
        names (r.takeWhile fun field => comesAfter name field.1) ++
          name :: names (r.dropWhile fun field => comesAfter name field.1) := by
      unfold Record.set
      rw [if_neg hproto, if_neg (fun hhas => hmem (has_iff.mp hhas))]
      exact List.map_append
    have hall : names r = names (r.takeWhile fun field => comesAfter name field.1) ++
        names (r.dropWhile fun field => comesAfter name field.1) := by
      unfold names
      rw [← List.map_append, List.takeWhile_append_dropWhile]
    have hnodup := h.nodup
    have hnoProto := h.noProto
    rw [hall] at hmem hnodup hnoProto
    constructor
    · rw [hparts, List.nodup_middle, List.nodup_cons]
      exact ⟨hmem, hnodup⟩
    · rw [hparts]
      intro hin
      rcases List.mem_append.mp hin with hin | hin
      · exact hnoProto (List.mem_append_left _ hin)
      · rcases List.mem_cons.mp hin with hin | hin
        · exact hproto hin.symm
        · exact hnoProto (List.mem_append_right _ hin)

theorem proper_ofList (fields : List (String × α)) : (ofList fields).Proper := by
  have hfold (r : Record α) (hr : r.Proper) :
      (fields.foldl (fun r field => Record.set r field.1 field.2) r).Proper := by
    induction fields generalizing r with
    | nil => exact hr
    | cons field fields ih => exact ih _ (hr.set field.1 field.2)
  exact hfold [] Proper.nil

theorem perm_insert (r : Record α) (name : String) (a : α) :
    List.Perm (insert r name a) ((name, a) :: r) := by
  have hall : (r.takeWhile fun field => comesAfter name field.1) ++
      (r.dropWhile fun field => comesAfter name field.1) = r := List.takeWhile_append_dropWhile
  unfold insert
  refine List.perm_middle.trans ?_
  rw [hall]

theorem perm_foldl_set {fields : List (String × α)} {r : Record α}
    (hd : (names r ++ fields.map (·.1)).Nodup) (hproto : "__proto__" ∉ fields.map (·.1)) :
    List.Perm (fields.foldl (fun r field => set r field.1 field.2) r) (r ++ fields) := by
  induction fields generalizing r with
  | nil => rw [List.append_nil, List.foldl_nil]
  | cons field fields ih =>
    obtain ⟨name, a⟩ := field
    rw [List.map_cons, List.mem_cons, not_or] at hproto
    rw [List.map_cons] at hd
    have hnew : name ∉ names r := fun hmem =>
      (List.nodup_append.mp hd).2.2 name hmem name List.mem_cons_self rfl
    have hset : List.Perm (set r name a) ((name, a) :: r) := by
      unfold set
      rw [if_neg (Ne.symm hproto.1), if_neg (fun hhas => hnew (has_iff.mp hhas))]
      exact perm_insert r name a
    have hnames : List.Perm (names (set r name a)) (name :: names r) := hset.map _
    have hd' : (names (set r name a) ++ fields.map (·.1)).Nodup :=
      ((hnames.append_right _).trans List.perm_middle.symm).nodup_iff.mpr hd
    have hrest : List.Perm ((name, a) :: r ++ fields) (r ++ (name, a) :: fields) :=
      List.perm_middle.symm
    exact (ih hd' hproto.2).trans ((hset.append_right fields).trans hrest)

theorem perm_ofList {fields : List (String × α)} (hd : (fields.map (·.1)).Nodup)
    (hproto : "__proto__" ∉ fields.map (·.1)) : List.Perm (ofList fields) fields :=
  perm_foldl_set hd hproto

theorem Proper.map {β : Type} {r : Record α} (h : r.Proper) (f : α → β) :
    Proper (r.map fun field => (field.1, f field.2)) := by
  have hnames : names (r.map fun field => (field.1, f field.2)) = names r := List.map_map
  exact ⟨hnames ▸ h.nodup, hnames ▸ h.noProto⟩

theorem Proper.get?_ofList {r : Record α} (h : r.Proper) (name : String) :
    get? (ofList r) name = get? r name := by
  have hperm : List.Perm (ofList r) r := perm_ofList h.nodup h.noProto
  cases hget : get? r name with
  | none => exact get?_eq_none_iff.mpr fun hmem =>
      get?_eq_none_iff.mp hget ((hperm.map _).mem_iff.mp hmem)
  | some a => exact get?_of_mem (proper_ofList r).nodup (hperm.mem_iff.mpr (mem_of_get? hget))

end TableQuery.Record
