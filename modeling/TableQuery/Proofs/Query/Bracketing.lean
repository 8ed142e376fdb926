import TableQuery.Proofs.Query.QuotedRun

/-! # The grammar of quotes and parentheses

A text is well bracketed when it is a sequence of ordinary characters, of quoted runs, and of
groups, that is of well bracketed texts in parentheses. A scan by one quote and one depth accepts
exactly these texts, and what it visits are the ordinary characters of the sequence itself.
-/
namespace TableQuery.Nesting
open Text

/-- A sequence of ordinary characters, quoted runs and groups. -/
inductive Bracketed : List Char → Prop
  | nil : Bracketed []
  | ordinary {c : Char} {cs : List Char} : isOrdinary c = true → Bracketed cs → Bracketed (c :: cs)
  | quoted {q : Char} {run cs : List Char} : isQuote q = true → IsQuotedRun q run →
      Bracketed cs → Bracketed (run ++ cs)
  | group {inner cs : List Char} : Bracketed inner → Bracketed cs →
      Bracketed ('(' :: (inner ++ [')']) ++ cs)

variable {cs : List Char} {n : Nesting} {d place : Nat}

theorem Bracketed.append {a b : List Char} (ha : Bracketed a) (hb : Bracketed b) :
    Bracketed (a ++ b) := by
  induction ha with
  | nil => exact hb
  | ordinary hc _ ih => exact .ordinary hc ih
  | quoted hq hrun _ ih =>
    rw [List.append_assoc]
    exact .quoted hq hrun ih
  | group hinner _ _ ih =>
    rw [List.append_assoc]
    exact .group hinner ih

theorem Bracketed.balanced (h : Bracketed cs) : Balanced cs := by
  induction h with
  | nil => exact balanced_of_ordinary (List.forall_mem_nil _)
  | @ordinary c cs hc _ ih =>
    have hone : Balanced [c] := balanced_of_ordinary (List.forall_mem_singleton.mpr hc)
    exact hone.append ih
  | quoted hq hrun _ ih => exact (balanced_iff.mpr (hrun.hidden hq 0).1).append ih
  | group _ _ hinner ih => exact (balanced_parentheses hinner).append ih

/-- A text that closes some parentheses, and is well bracketed in front of each and at its end. -/
inductive Closes : Nat → List Char → Prop
  | done {cs : List Char} : Bracketed cs → Closes 0 cs
  | close {d : Nat} {front cs : List Char} : Bracketed front → Closes d cs →
      Closes (d + 1) (front ++ ')' :: cs)

theorem Closes.append {a : List Char} (ha : Bracketed a) (h : Closes d cs) :
    Closes d (a ++ cs) := by
  cases h with
  | done hcs => exact .done (ha.append hcs)
  | close hfront hcs =>
    rw [← List.append_assoc]
    exact .close (ha.append hfront) hcs

theorem Closes.open (h : Closes (d + 1) cs) : Closes d ('(' :: cs) := by
  cases h with
  | @close _ front rest hfront hrest =>
    have hgroup : Bracketed ('(' :: (front ++ [')'])) := by
      simpa using Bracketed.group hfront .nil
    have happend := Closes.append hgroup hrest
    simpa using happend

theorem exists_body_of_run? {q : Char} (h : run? (quoted q d) cs = some (outside 0)) :
    ∃ body rest, cs = body ++ q :: rest ∧ QuotedBody q body ∧
      run? (outside d) rest = some (outside 0) := by
  induction cs with
  | nil => cases h
  | cons c cs ih =>
    rw [run?, next?, Option.bind_some] at h
    by_cases hc : c = q
    · rw [if_pos hc] at h
      exact ⟨[], cs, by rw [hc]; rfl, .nil, h⟩
    · rw [if_neg hc] at h
      obtain ⟨body, rest, rfl, hbody, hrest⟩ := ih h
      exact ⟨c :: body, rest, rfl, .other hc hbody, hrest⟩

theorem closes_of_run? {d : Nat} {cs : List Char} (h : run? (outside d) cs = some (outside 0)) :
    Closes d cs := by
  cases cs with
  | nil =>
    cases h
    exact .done .nil
  | cons c rest =>
    rcases char_cases c with hq | rfl | rfl | ho
    · rw [run?, next?_quote hq, Option.bind_some] at h
      obtain ⟨body, tail, rfl, hbody, htail⟩ := exists_body_of_run? h
      have hrun : Bracketed (c :: (body ++ [c])) := by
        simpa using Bracketed.quoted hq ⟨body, hbody, rfl⟩ .nil
      have hcloses := Closes.append hrun (closes_of_run? htail)
      simpa using hcloses
    · rw [run?, next?_open, Option.bind_some] at h
      exact (closes_of_run? h).open
    · cases d with
      | zero => cases h
      | succ d =>
        rw [run?, next?_close, Option.bind_some] at h
        exact Closes.close .nil (closes_of_run? h)
    · rw [run?, next?_of_isOrdinary ho, Option.bind_some] at h
      exact Closes.append (.ordinary ho .nil) (closes_of_run? h)
termination_by cs.length

theorem balanced_iff_bracketed : Balanced cs ↔ Bracketed cs := by
  refine ⟨fun h => ?_, Bracketed.balanced⟩
  cases closes_of_run? (balanced_iff.mp h) with
  | done hcs => exact hcs

instance (cs : List Char) : Decidable (Bracketed cs) := decidable_of_iff _ balanced_iff_bracketed

def topPlaces : Nesting → Nat → List Char → List Nat
  | _, _, [] => []
  | n, place, c :: rest =>
    if n.isTop c then place :: topPlaces (n.next c) (place + 1) rest
    else topPlaces (n.next c) (place + 1) rest

/-- Where nothing is passed over, the scan visits every place at the top level. -/
theorem visit_zero (n : Nesting) (place : Nat) (cs : List Char) :
    visit 0 n place 0 cs = (check n cs).map fun _ => topPlaces n place cs := by
  induction cs generalizing n place with
  | nil => rfl
  | cons c cs ih =>
    rw [visit, check, topPlaces]
    cases h : n.next? c with
    | none => rfl
    | some m =>
      have hnext : n.next c = m := by rw [next, h, Option.getD_some]
      dsimp only
      rw [hnext, ih]
      cases check m cs <;> cases n.isTop c <;> rfl

theorem mem_topPlaces_iff {i : Nat} : i ∈ topPlaces n place cs ↔
    ∃ before c after, cs = before ++ c :: after ∧ (behind n before).isTop c = true ∧
      i = place + before.length := by
  induction cs generalizing n place with
  | nil => simp [topPlaces]
  | cons c cs ih =>
    have hhead : i ∈ topPlaces n place (c :: cs) ↔
        n.isTop c = true ∧ i = place ∨ i ∈ topPlaces (n.next c) (place + 1) cs := by
      rw [topPlaces]
      split
      · next htop => simp [htop]
      · next htop => simp [htop]
    rw [hhead, ih]
    constructor
    · rintro (⟨htop, rfl⟩ | ⟨before, e, after, rfl, htop, rfl⟩)
      · exact ⟨[], c, cs, rfl, htop, rfl⟩
      · exact ⟨c :: before, e, after, rfl, htop, by rw [List.length_cons]; omega⟩
    · rintro ⟨before, e, after, hsplit, htop, rfl⟩
      cases before with
      | nil =>
        cases hsplit
        exact Or.inl ⟨htop, rfl⟩
      | cons b before =>
        cases hsplit
        exact Or.inr ⟨before, e, after, rfl, htop, by rw [List.length_cons]; omega⟩

theorem pairwise_topPlaces (n : Nesting) (place : Nat) (cs : List Char) :
    (topPlaces n place cs).Pairwise (· < ·) := by
  induction cs generalizing n place with
  | nil => exact .nil
  | cons c cs ih =>
    rw [topPlaces]
    split
    · refine List.pairwise_cons.mpr ⟨fun i hi => ?_, ih _ _⟩
      obtain ⟨before, -, -, -, -, rfl⟩ := mem_topPlaces_iff.mp hi
      omega
    · exact ih _ _

/-- A well bracketed text is at the top level at the ordinary characters of its sequence. -/
theorem mem_topPlaces_iff_bracketed (h : Balanced cs) {i : Nat} :
    i ∈ topPlaces (outside 0) 0 cs ↔ ∃ before c after, Bracketed before ∧ isOrdinary c = true ∧
      Bracketed after ∧ cs = before ++ c :: after ∧ i = before.length := by
  rw [mem_topPlaces_iff]
  constructor
  · rintro ⟨before, c, after, rfl, htop, rfl⟩
    rw [isTop, Bool.and_eq_true, beq_iff_eq] at htop
    obtain ⟨hbehind, hc⟩ := htop
    obtain ⟨m, hbefore, hafter⟩ := run?_of_run?_append (balanced_iff.mp h)
    obtain rfl : m = outside 0 := (behind_of_run? hbefore).symm.trans hbehind
    rw [run?, next?_of_isOrdinary hc, Option.bind_some] at hafter
    exact ⟨before, c, after, balanced_iff_bracketed.mp (balanced_iff.mpr hbefore), hc,
      balanced_iff_bracketed.mp (balanced_iff.mpr hafter), rfl, Nat.zero_add _⟩
  · rintro ⟨before, c, after, hbefore, hc, -, rfl, rfl⟩
    refine ⟨before, c, after, rfl, ?_, (Nat.zero_add _).symm⟩
    rw [hbefore.balanced.behind_eq]
    exact hc

theorem length_charUnits {c : Char} (hc : isOrdinary c = false) : (charUnits c).length = 1 := by
  rcases char_cases c with hq | rfl | rfl | ho
  · exact length_charUnits_of_isQuote hq
  · rfl
  · rfl
  · rw [ho] at hc
    cases hc

theorem check_unitChars (s : String) :
    check (outside 0) (unitChars s) = check (outside 0) s.toList := by
  have hunits {n : Nesting} (hn : n.IsProper) (cs : List Char) :
      check n (cs.flatMap fun c => List.replicate (charUnits c).length c) = check n cs := by
    induction cs generalizing n with
    | nil => rfl
    | cons c cs ih =>
      rw [List.flatMap_cons]
      cases hc : isOrdinary c with
      | true =>
        have hone : ∀ e ∈ [c], isOrdinary e = true := List.forall_mem_singleton.mpr hc
        have hmany : ∀ e ∈ List.replicate (charUnits c).length c, isOrdinary e = true :=
          fun e he => List.eq_of_mem_replicate he ▸ hc
        rw [check_ordinary_append hn hmany, ih hn]
        exact (check_ordinary_append hn hone cs).symm
      | false =>
        rw [length_charUnits hc, List.replicate_one, List.singleton_append, check, check]
        cases h : n.next? c with
        | none => rfl
        | some m => exact ih (hn.next? h)
  exact hunits (isProper_outside 0) s.toList

/-- Without a stride a scan succeeds exactly on the well bracketed texts. It visits each unit that
is an ordinary character of the sequence itself, once and in order, and no other unit. -/
theorem topLevelUnits_bracketed (clause : Clause) (s : String) :
    ((∃ places, topLevelUnits clause 0 s = .ok places) ↔ Bracketed s.toList) ∧
    ∀ places, topLevelUnits clause 0 s = .ok places → places.Pairwise (· < ·) ∧
      ∀ i, i ∈ places ↔ ∃ before c after, Bracketed before ∧ isOrdinary c = true ∧
        Bracketed after ∧ unitChars s = before ++ c :: after ∧ i = before.length := by
  have hscan : topLevelUnits clause 0 s =
      ((check (outside 0) (unitChars s)).map fun _ =>
        topPlaces (outside 0) 0 (unitChars s)).mapError (Imbalance.fault clause) := by
    rw [topLevelUnits, visit_zero]
  have hunits := check_unitChars s
  cases hcheck : check (outside 0) (unitChars s) with
  | ok u =>
    have hbalanced : Balanced (unitChars s) := hcheck
    rw [hcheck] at hscan hunits
    constructor
    · exact iff_of_true ⟨_, hscan⟩ (balanced_iff_bracketed.mp hunits.symm)
    · intro places hplaces
      cases Except.ok.inj (hscan.symm.trans hplaces)
      exact ⟨pairwise_topPlaces _ _ _, fun i => mem_topPlaces_iff_bracketed hbalanced⟩
  | error i =>
    rw [hcheck] at hscan hunits
    have hfails (places : List Nat) : topLevelUnits clause 0 s ≠ .ok places := by
      intro hplaces
      cases hscan.symm.trans hplaces
    constructor
    · apply iff_of_false
      · rintro ⟨places, hplaces⟩
        exact hfails places hplaces
      · intro hbracketed
        have hbalanced : check (outside 0) s.toList = .ok () := hbracketed.balanced
        cases hunits.trans hbalanced
    · intro places hplaces
      exact absurd hplaces (hfails places)

example : Bracketed "a'(''b'(\"c)\")d".toList ∧
    (topLevelUnits .query 0 "a'(''b'(\"c)\")d").toOption = some [0, 13] := by
  decide

end TableQuery.Nesting
