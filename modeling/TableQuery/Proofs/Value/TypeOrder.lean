import Mathlib.Order.Defs.PartialOrder
import Mathlib.Data.List.Induction
import TableQuery.Value.TypeName

/-! # The order of types

Types are ordered by what they leave open: null is below every type, the type of a list without
items is below that of any list, and every type is below mixed. What the types met in a field are
joined to is the least type above them all, so their order does not matter, and it is mixed only
where two of them disagree. Types are told apart by their names.
-/
namespace TableQuery
namespace TypeName

instance : LE TypeName where
  le a b := a = null ∨ b = mixed ∨ a = b ∨ a = array ∧ b.isArrayOf = true

theorem le_iff {a b : TypeName} :
    a ≤ b ↔ a = null ∨ b = mixed ∨ a = b ∨ a = array ∧ b.isArrayOf = true := Iff.rfl

instance : DecidableLE TypeName := fun a b =>
  inferInstanceAs (Decidable (a = null ∨ b = mixed ∨ a = b ∨ a = array ∧ b.isArrayOf = true))

theorem isArrayOf_iff {a : TypeName} : a.isArrayOf = true ↔ ∃ item, a = arrayOf item := by
  cases a <;> simp [isArrayOf]

instance : PartialOrder TypeName where
  le_refl a := .inr (.inr (.inl rfl))
  le_trans a b c hab hbc := by
    rcases hab with h | rfl | rfl | ⟨rfl, hb⟩
    · exact .inl h
    · rcases hbc with h | h | rfl | ⟨h, -⟩
      · cases h
      · exact .inr (.inl h)
      · exact .inr (.inl rfl)
      · cases h
    · exact hbc
    · obtain ⟨item, rfl⟩ := isArrayOf_iff.mp hb
      rcases hbc with h | h | rfl | ⟨h, -⟩
      · cases h
      · exact .inr (.inl h)
      · exact .inr (.inr (.inr ⟨rfl, rfl⟩))
      · cases h
  le_antisymm a b hab hba := by
    rcases hab with rfl | rfl | h | ⟨rfl, hb⟩
    · rcases hba with h | h | h | ⟨-, h⟩
      · exact h.symm
      · cases h
      · exact h.symm
      · cases h
    · rcases hba with h | h | h | ⟨h, -⟩
      · cases h
      · exact h
      · exact h.symm
      · cases h
    · exact h
    · obtain ⟨item, rfl⟩ := isArrayOf_iff.mp hb
      rcases hba with h | h | h | ⟨h, -⟩ <;> cases h

theorem null_le (a : TypeName) : null ≤ a := .inl rfl

theorem le_mixed (a : TypeName) : a ≤ mixed := .inr (.inl rfl)

theorem array_le {a : TypeName} (h : a.isArrayOf = true) : array ≤ a := .inr (.inr (.inr ⟨rfl, h⟩))

example : array ≤ arrayOf string ∧ ¬arrayOf string ≤ array := by decide

theorem le_null_iff {a : TypeName} : a ≤ null ↔ a = null := by
  rw [le_iff]
  cases a <;> simp [isArrayOf]

/-- Two types differ, and neither is that of a list without items beside that of another list. -/
def Disagree (a b : TypeName) : Prop :=
  a ≠ b ∧ ¬(a = array ∧ b.isArrayOf = true) ∧ ¬(b = array ∧ a.isArrayOf = true)

instance (a b : TypeName) : Decidable (Disagree a b) :=
  inferInstanceAs (Decidable (a ≠ b ∧ ¬(a = array ∧ b.isArrayOf = true) ∧
    ¬(b = array ∧ a.isArrayOf = true)))

theorem Disagree.eq_mixed {a b c : TypeName} (h : Disagree a b) (ha : a ≠ null) (hb : b ≠ null)
    (hac : a ≤ c) (hbc : b ≤ c) : c = mixed := by
  obtain ⟨hne, hleft, hright⟩ := h
  rcases hac with hnull | hmixed | rfl | ⟨rfl, hc⟩
  · exact absurd hnull ha
  · exact hmixed
  · rcases hbc with hnull | hmixed | heq | ⟨rfl, hc⟩
    · exact absurd hnull hb
    · exact hmixed
    · exact absurd heq.symm hne
    · exact absurd ⟨rfl, hc⟩ hright
  · rcases hbc with hnull | hmixed | rfl | ⟨rfl, -⟩
    · exact absurd hnull hb
    · exact hmixed
    · exact absurd ⟨rfl, hc⟩ hleft
    · exact absurd rfl hne

example : Disagree (arrayOf string) (arrayOf integer) ∧ ¬Disagree (arrayOf string) array := by decide

theorem join_cases (a b : TypeName) :
    (a.join b = b ∧ a ≤ b) ∨ (a.join b = a ∧ b ≤ a) ∨
      (a.join b = mixed ∧ a ≠ null ∧ Disagree a b) := by
  unfold join
  split
  · next h =>
    rcases h with rfl | rfl
    · exact .inl ⟨rfl, null_le b⟩
    · exact .inl ⟨rfl, le_refl a⟩
  · next h =>
    rw [not_or] at h
    split
    · next harray =>
      rw [harray.1]
      exact .inl ⟨rfl, array_le harray.2⟩
    · next hleft =>
      split
      · next harray =>
        rw [harray.1]
        exact .inr (.inl ⟨rfl, array_le harray.2⟩)
      · next hright => exact .inr (.inr ⟨rfl, h.1, h.2, hleft, hright⟩)

/-- The join of two types is the least type above both, where the second is not null. -/
theorem join_le_iff {a b c : TypeName} (hb : b ≠ null) : a.join b ≤ c ↔ a ≤ c ∧ b ≤ c := by
  rcases join_cases a b with ⟨heq, hle⟩ | ⟨heq, hle⟩ | ⟨heq, ha, hdisagree⟩
  · rw [heq]
    exact ⟨fun h => ⟨le_trans hle h, h⟩, And.right⟩
  · rw [heq]
    exact ⟨fun h => ⟨h, le_trans hle h⟩, And.left⟩
  · rw [heq]
    constructor
    · intro h
      exact ⟨le_trans (le_mixed a) h, le_trans (le_mixed b) h⟩
    · rintro ⟨hac, hbc⟩
      rw [hdisagree.eq_mixed ha hb hac hbc]

def joinAll (types : List TypeName) : TypeName := types.foldl join null

section
variable {types : List TypeName}

theorem joinAll_concat (types : List TypeName) (a : TypeName) :
    joinAll (types ++ [a]) = (joinAll types).join a := by
  simp [joinAll]

theorem joinAll_le_iff (h : null ∉ types) {c : TypeName} : joinAll types ≤ c ↔ ∀ a ∈ types, a ≤ c := by
  induction types using List.reverseRecOn with
  | nil => simpa [joinAll] using null_le c
  | append_singleton types a ih =>
    have ha : a ≠ null := by
      rintro rfl
      exact h (by simp)
    have hbefore : null ∉ types := fun hmem => h (List.mem_append_left _ hmem)
    rw [joinAll_concat, join_le_iff ha, ih hbefore, List.forall_mem_append,
      List.forall_mem_singleton]

theorem joinAll_of_perm (h : null ∉ types) {others : List TypeName} (hperm : types.Perm others) :
    joinAll types = joinAll others := by
  have hothers : null ∉ others := fun hmem => h (hperm.mem_iff.mpr hmem)
  have hsame (c : TypeName) : joinAll types ≤ c ↔ joinAll others ≤ c := by
    rw [joinAll_le_iff h, joinAll_le_iff hothers]
    exact forall_congr' fun a => by rw [hperm.mem_iff]
  exact le_antisymm ((hsame _).mpr (le_refl _)) ((hsame _).mp (le_refl _))

theorem joinAll_eq_null_iff (h : null ∉ types) : joinAll types = null ↔ types = [] := by
  rw [← le_null_iff, joinAll_le_iff h]
  constructor
  · intro hall
    refine List.eq_nil_iff_forall_not_mem.mpr fun a ha => h ?_
    rwa [← le_null_iff.mp (hall a ha)]
  · rintro rfl
    exact List.forall_mem_nil _

theorem joinAll_cases (types : List TypeName) :
    joinAll types = null ∨ joinAll types = mixed ∨ joinAll types ∈ types := by
  induction types using List.reverseRecOn with
  | nil => exact .inl rfl
  | append_singleton types a ih =>
    rw [joinAll_concat]
    rcases join_cases (joinAll types) a with ⟨heq, -⟩ | ⟨heq, -⟩ | ⟨heq, -⟩
    · exact .inr (.inr (by simp [heq]))
    · rw [heq]
      exact ih.imp_right (.imp_right (List.mem_append_left _))
    · exact .inr (.inl heq)

theorem joinAll_eq_mixed_iff (hnull : null ∉ types) (hmixed : mixed ∉ types) :
    joinAll types = mixed ↔ ∃ a ∈ types, ∃ b ∈ types, Disagree a b := by
  constructor
  · intro h
    induction types using List.reverseRecOn with
    | nil => cases h
    | append_singleton types a ih =>
      have hbefore : null ∉ types := fun hmem => hnull (List.mem_append_left _ hmem)
      have hbefore' : mixed ∉ types := fun hmem => hmixed (List.mem_append_left _ hmem)
      rw [joinAll_concat] at h
      by_cases hjoin : joinAll types = mixed
      · obtain ⟨b, hb, c, hc, hdisagree⟩ := ih hbefore hbefore' hjoin
        exact ⟨b, List.mem_append_left _ hb, c, List.mem_append_left _ hc, hdisagree⟩
      -- The last type is the first to disagree with the join before it, which is a type met.
      rcases join_cases (joinAll types) a with ⟨heq, -⟩ | ⟨heq, -⟩ | ⟨-, hne, hdisagree⟩
      · exact absurd (heq.symm.trans h) fun ha => hmixed (by simp [ha])
      · exact absurd (heq.symm.trans h) hjoin
      · have hmem := ((joinAll_cases types).resolve_left hne).resolve_left hjoin
        exact ⟨_, List.mem_append_left _ hmem, a, by simp, hdisagree⟩
  · rintro ⟨a, ha, b, hb, hdisagree⟩
    have hall := (joinAll_le_iff hnull).mp (le_refl (joinAll types))
    exact hdisagree.eq_mixed (fun h => hnull (h ▸ ha)) (fun h => hnull (h ▸ hb)) (hall a ha)
      (hall b hb)

end

theorem toList_text_arrayOf (item : TypeName) :
    (arrayOf item).text.toList = "array[".toList ++ item.text.toList ++ [']'] := by
  simp [text]

theorem text_ne_arrayOf {a : TypeName} (h : a.isArrayOf = false) (item : String) :
    a.text ≠ "array[" ++ item ++ "]" := by
  intro heq
  have hchars := congrArg String.toList heq
  rw [String.toList_append, String.toList_append] at hchars
  cases a with
  | arrayOf _ => cases h
  | _ => simp [text] at hchars

theorem text_injective {a b : TypeName} (h : a.text = b.text) : a = b := by
  induction a generalizing b with
  | arrayOf item ih =>
    cases b with
    | arrayOf other =>
      have hchars := congrArg String.toList h
      rw [toList_text_arrayOf, toList_text_arrayOf, List.append_left_inj,
        List.append_right_inj] at hchars
      rw [ih (String.toList_inj.mp hchars)]
    | _ => exact absurd h.symm (text_ne_arrayOf rfl item.text)
  | _ =>
    cases b with
    | arrayOf other => exact absurd h (text_ne_arrayOf rfl other.text)
    | _ => first | rfl | exact absurd h (by decide)

theorem text_eq_array_iff {a : TypeName} : a.text = "array" ↔ a = array :=
  ⟨fun h => text_injective h, fun h => h ▸ rfl⟩

theorem text_eq_arrayOf_iff {a : TypeName} :
    (∃ item, a.text = "array[" ++ item ++ "]") ↔ a.isArrayOf = true := by
  constructor
  · rintro ⟨item, h⟩
    by_contra hnot
    exact text_ne_arrayOf (Bool.not_eq_true _ ▸ hnot) item h
  · intro h
    obtain ⟨item, rfl⟩ := isArrayOf_iff.mp h
    exact ⟨item.text, rfl⟩

end TypeName

theorem Value.isNull_iff {v : Value} : v.isNull = true ↔ v = .null := by
  cases v <;> simp [isNull]

theorem Value.typeName_eq_null_iff {v : Value} : v.typeName = .null ↔ v.isNull = true := by
  cases v with
  | list items => cases items <;> simp [typeName, isNull]
  | _ => simp [typeName, isNull]

theorem Value.typeName_ne_mixed (v : Value) : v.typeName ≠ .mixed := by
  cases v with
  | list items => cases items <;> simp [typeName]
  | _ => simp [typeName]

end TableQuery
