import TableQuery.Proofs.Query.Balance

/-! # Items between commas

A text without a comma at its top level is one item. Items of this kind, joined by
commas and blanks, are split at exactly the commas between them.
-/
namespace TableQuery.Nesting
open Text

def CommaFree (n : Nesting) (cs : List Char) : Prop :=
  ∀ a b, cs = a ++ ',' :: b → (behind n a).isTop ',' = false

variable {n : Nesting} {cs : List Char}

theorem commaFree_of_hidden (h : Hidden n cs) : CommaFree n cs := fun a b hs => h a ',' b hs

theorem commaFree_of_notMem (h : ',' ∉ cs) : CommaFree n cs := by
  intro a b hs
  exact absurd (hs ▸ List.mem_append_right a List.mem_cons_self) h

theorem commaFree_cons {c : Char} (h : CommaFree n (c :: cs)) :
    (n.isTop c && c == ',') = false ∧ CommaFree (n.next c) cs := by
  constructor
  · by_cases hc : c = ','
    · subst hc
      rw [show n.isTop ',' = false from h [] cs rfl]
      rfl
    · rw [beq_false_of_ne hc, Bool.and_false]
  · intro a b hs
    exact h (c :: a) b (by rw [hs]; rfl)

theorem commaParts_ne_nil (n : Nesting) (cs : List Char) : commaParts n cs ≠ [] := by
  cases cs with
  | nil => simp [commaParts]
  | cons c cs =>
    rw [commaParts]
    split
    · simp
    · cases commaParts (n.next c) cs <;> simp [extend]

theorem extend_eq_modifyHead {c : Char} {parts : List (List Char)} (h : parts ≠ []) :
    extend c parts = parts.modifyHead (c :: ·) := by
  cases parts with
  | nil => exact absurd rfl h
  | cons part parts => rfl

theorem commaParts_append (h : CommaFree n cs) (rest : List Char) :
    commaParts n (cs ++ rest) = (commaParts (behind n cs) rest).modifyHead (cs ++ ·) := by
  induction cs generalizing n with
  | nil => cases hp : commaParts n rest <;> simp [hp]
  | cons c cs ih =>
    obtain ⟨hc, hcs⟩ := commaFree_cons h
    rw [List.cons_append, commaParts, hc, if_neg Bool.false_ne_true,
      extend_eq_modifyHead (commaParts_ne_nil _ _), ih hcs, List.modifyHead_modifyHead]
    rfl

theorem commaParts_of_commaFree (h : CommaFree n cs) : commaParts n cs = [cs] := by
  have hparts := commaParts_append h []
  rw [List.append_nil] at hparts
  rw [hparts, commaParts, List.modifyHead_cons, List.append_nil]

theorem commaFree_append {a b : List Char} (ha : CommaFree n a) (hb : CommaFree (behind n a) b) :
    CommaFree n (a ++ b) := by
  intro x y hs
  rcases List.append_eq_append_iff.mp hs with ⟨d, rfl, hd⟩ | ⟨d, rfl, hd⟩
  · rw [behind_append]
    exact hb d y hd
  · cases d with
    | nil =>
      rw [List.append_nil] at hb
      exact hb [] y hd.symm
    | cons c d =>
      cases (List.cons.inj hd).1
      exact ha x d rfl

theorem commaParts_comma (h : CommaFree (outside 0) cs) (hb : Balanced cs) (rest : List Char) :
    commaParts (outside 0) (cs ++ ',' :: rest) = cs :: commaParts (outside 0) rest := by
  have hcomma : commaParts (outside 0) (',' :: rest) = [] :: commaParts (outside 0) rest := rfl
  rw [commaParts_append h, hb.behind_eq, hcomma, List.modifyHead_cons, List.append_nil]

/-- A text that is one item of a list. -/
structure IsItem (item : List Char) : Prop where
  trimmed : IsTrimmed item
  balanced : Balanced item
  commaFree : CommaFree (outside 0) item

theorem IsItem.commaFree_between {g item h : List Char} (hi : IsItem item) (hg : IsGap g)
    (hh : IsGap h) : CommaFree (outside 0) (g ++ item ++ h) := by
  have hcomma {g : List Char} (hg : IsGap g) : ',' ∉ g :=
    fun hc => absurd (hg ',' hc) (by decide)
  rw [List.append_assoc]
  refine commaFree_append (commaFree_of_notMem (hcomma hg)) ?_
  rw [(balanced_gap hg).behind_eq]
  refine commaFree_append hi.commaFree ?_
  rw [hi.balanced.behind_eq]
  exact commaFree_of_notMem (hcomma hh)

/-- A comma and the blanks around it. -/
structure Separator where
  before : Gap
  after : Gap

namespace Separator

def chars (s : Separator) : List Char := s.before.1 ++ ',' :: s.after.1

def spaced : Separator := ⟨⟨[], isGap_nil⟩, ⟨[' '], isGap_space⟩⟩

theorem balanced (s : Separator) : Balanced s.chars :=
  (balanced_gap s.before.2).append
    (Balanced.append (a := [',']) (by decide) (balanced_gap s.after.2))

end Separator

def separated (first : List Char) (rest : List (Separator × List Char)) : List Char :=
  first ++ rest.flatMap fun entry => entry.1.chars ++ entry.2

variable {first : List Char} {rest : List (Separator × List Char)}

@[simp] theorem separated_nil (first : List Char) : separated first [] = first :=
  List.append_nil first

theorem separated_cons (first : List Char) (s : Separator) (next : List Char)
    (rest : List (Separator × List Char)) :
    separated first ((s, next) :: rest) = first ++ (s.chars ++ separated next rest) := by
  rw [separated, separated, List.flatMap_cons, List.append_assoc]

theorem nameEnds_behind (rest : List (Separator × List Char)) :
    NameEnds (rest.flatMap fun entry => entry.1.chars ++ entry.2) := by
  cases rest with
  | nil => exact nameEnds_nil
  | cons entry rest =>
    rw [List.flatMap_cons, Separator.chars, List.append_assoc, List.append_assoc]
    exact (nameEnds_gap entry.1.before.2).append (nameEnds_cons (by decide) _)

theorem isTrimmed_separated (hn : first ≠ []) (ht : IsTrimmed first)
    (h : ∀ entry ∈ rest, entry.2 ≠ [] ∧ IsTrimmed entry.2) : IsTrimmed (separated first rest) := by
  induction rest generalizing first with
  | nil => rwa [separated_nil]
  | cons entry rest ih =>
    obtain ⟨s, next⟩ := entry
    obtain ⟨⟨hnn, htn⟩, hrest⟩ := List.forall_mem_cons.mp h
    have hnext : separated next rest ≠ [] := by simp [separated, hnn]
    rw [separated_cons]
    refine ht.append hn (by simp [hnext]) ?_
    rw [getLast?_of_append hnext]
    exact (ih hnn htn hrest).2

theorem balanced_separated (hf : Balanced first) (h : ∀ entry ∈ rest, Balanced entry.2) :
    Balanced (separated first rest) := by
  induction rest generalizing first with
  | nil => rwa [separated_nil]
  | cons entry rest ih =>
    obtain ⟨hnext, hrest⟩ := List.forall_mem_cons.mp h
    rw [separated_cons]
    exact hf.append (entry.1.balanced.append (ih hnext hrest))

theorem commaParts_separated (hf : IsItem first) (h : ∀ entry ∈ rest, IsItem entry.2)
    {g : List Char} (hg : IsGap g) :
    (commaParts (outside 0) (g ++ separated first rest)).map trim = first :: rest.map (·.2) := by
  induction rest generalizing first g with
  | nil =>
    have hfree := hf.commaFree_between hg isGap_nil
    have htrim := trim_between hg hf.trimmed isGap_nil
    rw [List.append_nil] at hfree htrim
    rw [separated_nil, commaParts_of_commaFree hfree, List.map_singleton, htrim]
    rfl
  | cons entry rest ih =>
    obtain ⟨s, next⟩ := entry
    obtain ⟨hnext, hrest⟩ := List.forall_mem_cons.mp h
    have hcut : g ++ separated first ((s, next) :: rest) =
        (g ++ first ++ s.before.1) ++ ',' :: (s.after.1 ++ separated next rest) := by
      rw [separated_cons, Separator.chars]
      simp only [List.append_assoc, List.cons_append]
    have hbalanced : Balanced (g ++ first ++ s.before.1) :=
      ((balanced_gap hg).append hf.balanced).append (balanced_gap s.before.2)
    rw [hcut, commaParts_comma (hf.commaFree_between hg s.before.2) hbalanced, List.map_cons,
      trim_between hg hf.trimmed s.before.2, ih hnext hrest s.after.2, List.map_cons]

theorem splitCommas_separated (hf : IsItem first) (h : ∀ entry ∈ rest, IsItem entry.2)
    (clause : Clause) :
    splitCommas clause (separated first rest) = .ok (first :: rest.map (·.2)) := by
  have hbalanced := balanced_separated hf.balanced fun entry he => (h entry he).balanced
  have hparts := commaParts_separated hf h isGap_nil
  rw [List.nil_append] at hparts
  rw [splitCommas, requireBalance_of_balanced hbalanced, hparts]
  rfl

section
variable {α : Type} {chars : α → List Char} (hitem : ∀ a, IsItem (chars a)) (a : α)
  (more : List (Separator × α))
include hitem

theorem isTrimmed_separated_map (hn : ∀ a, chars a ≠ []) :
    IsTrimmed (separated (chars a) (more.map (Prod.map id chars))) := by
  apply isTrimmed_separated (hn a) (hitem a).trimmed
  rw [List.forall_mem_map]
  intro entry _
  exact ⟨hn entry.2, (hitem entry.2).trimmed⟩

theorem splitCommas_separated_map (clause : Clause) :
    splitCommas clause (separated (chars a) (more.map (Prod.map id chars))) =
      .ok ((a :: more.map (·.2)).map chars) := by
  have hmore : ∀ entry ∈ more.map (Prod.map id chars), IsItem entry.2 :=
    List.forall_mem_map.mpr fun entry _ => hitem entry.2
  rw [splitCommas_separated (hitem a) hmore, List.map_map, List.map_cons, List.map_map]
  rfl

end

def joined (items : List (List Char)) : List Char := [',', ' '].intercalate items

theorem joined_cons (first : List Char) (items : List (List Char)) :
    joined (first :: items) = separated first (items.map (Separator.spaced, ·)) := by
  induction items generalizing first with
  | nil => simp [joined]
  | cons next items ih =>
    rw [List.map_cons, separated_cons, ← ih, joined, List.intercalate_cons_cons, List.append_assoc]
    rfl

theorem isGap_of_joined {item : List Char} {items : List (List Char)}
    (h : IsGap (joined (item :: items))) : IsGap item := by
  rw [joined_cons, separated, isGap_append] at h
  exact h.1

theorem forall_spaced {p : List Char → Prop} {items : List (List Char)}
    (h : ∀ item ∈ items, p item) : ∀ entry ∈ items.map (Separator.spaced, ·), p entry.2 :=
  List.forall_mem_map.mpr h

theorem balanced_joined {items : List (List Char)} (h : ∀ item ∈ items, IsItem item) :
    Balanced (joined items) := by
  cases items with
  | nil => exact balanced_gap isGap_nil
  | cons first items =>
    obtain ⟨hfirst, hitems⟩ := List.forall_mem_cons.mp h
    have hbalanced : ∀ item ∈ items, Balanced item := fun item hi => (hitems item hi).balanced
    rw [joined_cons]
    exact balanced_separated hfirst.balanced (forall_spaced hbalanced)

theorem splitCommas_joined {items : List (List Char)} (hn : items ≠ [])
    (h : ∀ item ∈ items, IsItem item) (clause : Clause) :
    splitCommas clause (joined items) = .ok items := by
  cases items with
  | nil => exact absurd rfl hn
  | cons first items =>
    obtain ⟨hfirst, hitems⟩ := List.forall_mem_cons.mp h
    rw [joined_cons, splitCommas_separated hfirst (forall_spaced hitems), List.map_map]
    exact congrArg (fun rest => Except.ok (first :: rest)) (List.map_id' _)

end TableQuery.Nesting
