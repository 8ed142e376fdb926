import TableQuery.Proofs.Data.RecordOrder

/-! # Records in order

A record is in order when every field stands where it would be entered behind those before it:
whole numbers first and ascending, then all other names. A record that is made from fields is in
order, and one that is in order is made again from its own fields, each in its place.
-/
namespace TableQuery.Record
variable {α : Type}

/-- Every field comes after all fields before it. -/
structure Ordered (r : Record α) : Prop where
  proper : r.Proper
  after : (names r).Pairwise fun name later => comesAfter later name = true

instance (r : Record α) : Decidable r.Ordered :=
  decidable_of_iff (r.Proper ∧ (names r).Pairwise fun name later => comesAfter later name = true)
    ⟨fun h => ⟨h.1, h.2⟩, fun h => ⟨h.proper, h.after⟩⟩

/-- Every field has a name of its own and comes after all fields before it. -/
structure Arranged (r : Record α) : Prop where
  nodup : (names r).Nodup
  after : (names r).Pairwise fun name later => comesAfter later name = true

instance (r : Record α) : Decidable r.Arranged :=
  decidable_of_iff ((names r).Nodup ∧ (names r).Pairwise fun name later =>
      comesAfter later name = true)
    ⟨fun h => ⟨h.1, h.2⟩, fun h => ⟨h.nodup, h.after⟩⟩

theorem ordered_iff {r : Record α} : r.Ordered ↔ r.Arranged ∧ "__proto__" ∉ names r :=
  ⟨fun h => ⟨⟨h.proper.nodup, h.after⟩, h.proper.noProto⟩,
    fun h => ⟨⟨h.1.nodup, h.2⟩, h.1.after⟩⟩

theorem Ordered.nil : Ordered ([] : Record α) := ⟨Proper.nil, .nil⟩

theorem ordered_congr {β : Type} {r : Record α} {s : Record β} (h : names r = names s) :
    r.Ordered ↔ s.Ordered :=
  ⟨fun hr => ⟨⟨h ▸ hr.proper.nodup, h ▸ hr.proper.noProto⟩, h ▸ hr.after⟩,
    fun hs => ⟨⟨h ▸ hs.proper.nodup, h ▸ hs.proper.noProto⟩, h ▸ hs.after⟩⟩

theorem Ordered.map {β : Type} {r : Record α} (h : r.Ordered) (f : α → β) :
    Ordered (r.map fun field => (field.1, f field.2)) := by
  have hnames : names (r.map fun field => (field.1, f field.2)) = names r := List.map_map
  exact (ordered_congr hnames).mpr h

theorem ofList_concat (fields : List (String × α)) (field : String × α) :
    ofList (fields ++ [field]) = set (ofList fields) field.1 field.2 := by
  unfold ofList
  rw [List.foldl_append, List.foldl_cons, List.foldl_nil]

theorem set_of_comesAfter {r : Record α} {name : String} (hproto : name ≠ "__proto__")
    (hnew : name ∉ names r) (h : ∀ other ∈ names r, comesAfter name other = true) (a : α) :
    set r name a = r ++ [(name, a)] := by
  have hfields : ∀ field ∈ r, comesAfter name field.1 = true :=
    fun field hfield => h field.1 (List.mem_map_of_mem hfield)
  unfold set insert
  rw [if_neg hproto, if_neg (fun hhas => hnew (has_iff.mp hhas)),
    List.takeWhile_eq_self_iff.mpr hfields, List.dropWhile_eq_nil_iff.mpr hfields]

theorem Ordered.ofList_eq {r : Record α} (h : r.Ordered) : ofList r = r := by
  induction r using List.reverseRecOn with
  | nil => rfl
  | append_singleton r field ih =>
    obtain ⟨⟨hnodup, hproto⟩, hafter⟩ := h
    have hnames : names (r ++ [field]) = names r ++ [field.1] := List.map_append
    rw [hnames] at hnodup hproto hafter
    rw [List.mem_append, List.mem_singleton, not_or] at hproto
    obtain ⟨hfront, -, hlast⟩ := List.pairwise_append.mp hafter
    obtain ⟨hdistinct, -, hnew⟩ := List.nodup_append.mp hnodup
    rw [ofList_concat, ih ⟨⟨hdistinct, hproto.1⟩, hfront⟩]
    refine set_of_comesAfter (Ne.symm hproto.2) (fun hmem => ?_) (fun other hother => ?_) field.2
    · exact hnew _ hmem _ (List.mem_singleton_self _) rfl
    · exact hlast other hother _ (List.mem_singleton_self _)

/-- A name that does not come after another one is a whole number, and the other one comes after
it. -/
theorem comesAfter_of_not {name other : String} (hne : other ≠ name)
    (h : comesAfter name other = false) : comesAfter other name = true := by
  unfold comesAfter at h ⊢
  cases hname : index? name with
  | none => simp [hname] at h
  | some n =>
    cases hother : index? other with
    | none => rfl
    | some m =>
      rw [hname, hother] at h
      have hle : n ≤ m := Nat.not_lt.mp (of_decide_eq_false h)
      have hdiff : n ≠ m := fun heq => hne (index?_injective hother (heq ▸ hname))
      exact decide_eq_true (Nat.lt_of_le_of_ne hle hdiff)

theorem comesAfter_trans {a b c : String} (hab : comesAfter b a = true)
    (hbc : comesAfter c b = true) : comesAfter c a = true := by
  unfold comesAfter at hab hbc ⊢
  cases ha : index? a <;> cases hb : index? b <;> cases hc : index? c <;> simp_all
  omega

theorem Ordered.set {r : Record α} (h : r.Ordered) (name : String) (a : α) :
    (set r name a).Ordered := by
  refine ⟨h.proper.set name a, ?_⟩
  by_cases hproto : name = "__proto__"
  · unfold Record.set
    rw [if_pos hproto]
    exact h.after
  by_cases hmem : name ∈ names r
  · rw [names_set_of_mem hmem]
    exact h.after
  have hset : Record.set r name a = insert r name a := by
    unfold Record.set
    rw [if_neg hproto, if_neg (fun hhas => hmem (has_iff.mp hhas))]
  have hafter := h.after
  rw [← List.takeWhile_append_dropWhile (p := comesAfter name) (l := names r)] at hafter
  obtain ⟨hfront, hback, hcross⟩ := List.pairwise_append.mp hafter
  rw [hset, names_insert]
  have hbehind : ∀ other ∈ (names r).dropWhile (comesAfter name),
      comesAfter other name = true := by
    have hhead := List.head?_dropWhile_not (comesAfter name) (names r)
    have hsub := List.dropWhile_sublist (comesAfter name) (l := names r)
    cases hdrop : (names r).dropWhile (comesAfter name) with
    | nil => simp
    | cons first rest =>
      rw [hdrop] at hhead hback hsub
      have hfirst : comesAfter first name = true := by
        refine comesAfter_of_not (fun heq => hmem ?_) hhead
        exact heq ▸ hsub.subset List.mem_cons_self
      obtain ⟨hrest, -⟩ := List.pairwise_cons.mp hback
      exact List.forall_mem_cons.mpr
        ⟨hfirst, fun other hother => comesAfter_trans hfirst (hrest other hother)⟩
  refine List.pairwise_append.mpr ⟨hfront, List.pairwise_cons.mpr ⟨hbehind, hback⟩, ?_⟩
  intro other hother later hlater
  rcases List.mem_cons.mp hlater with rfl | hlater
  · exact List.mem_takeWhile_imp hother
  · exact hcross other hother later hlater

theorem ordered_ofList (fields : List (String × α)) : (ofList fields).Ordered := by
  induction fields using List.reverseRecOn with
  | nil => exact Ordered.nil
  | append_singleton fields field ih =>
    rw [ofList_concat]
    exact ih.set field.1 field.2

end TableQuery.Record
