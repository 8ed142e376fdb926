import TableQuery.Proofs.Filter.Appending
import TableQuery.Proofs.Query.ClausePieces
import TableQuery.Proofs.Query.TextFaults
import TableQuery.Proofs.Session.Outcome

/-! # Balanced texts of a query

A query is cut only where nothing is open, and what is taken out or off at a cut opens and closes
nothing. So the texts of a balanced query are balanced: those of its clauses, and those of the
conditions of its filter. Whatever is open or closed in excess is a fault of the whole query.
-/
namespace TableQuery
open Text Nesting

namespace Nesting

variable {σ κ : Type} (find : σ → List Char → Option (σ × Option κ × Nat))

/-- Every word that cuts is made of ordinary characters. -/
def FindsOrdinary : Prop := ∀ s cs s' key length, find s cs = some (s', some key, length) →
  ∃ word after, cs = word ++ after ∧ word ≠ [] ∧ word.length = length ∧
    ∀ c ∈ word, isOrdinary c = true

variable {find}

/-- A text that closes all that is open is cut into one that does so too and into balanced
ones. -/
theorem balanced_cutWords (hfind : FindsOrdinary find) (start : Bool) (s : σ) {n : Nesting}
    {cs : List Char} (h : run? n cs = some (outside 0)) :
    run? n (cutWords find n start 0 s cs).1 = some (outside 0) ∧
      ∀ cut ∈ (cutWords find n start 0 s cs).2, Balanced cut.2 := by
  cases cs with
  | nil => exact ⟨h, nofun⟩
  | cons c rest =>
    have hkept (t : σ) :
        run? n (c :: (cutWords find (n.next c) (isBlank c) 0 t rest).1) = some (outside 0) ∧
          ∀ cut ∈ (cutWords find (n.next c) (isBlank c) 0 t rest).2, Balanced cut.2 := by
      obtain ⟨m, hm, hrest⟩ := Option.bind_eq_some_iff.mp h
      have hnext : n.next c = m := by rw [next, hm, Option.getD_some]
      rw [hnext, run?, hm]
      exact balanced_cutWords hfind (isBlank c) t hrest
    cases hstart : start && n.isTop c with
    | false =>
      simp only [cutWords, hstart]
      exact hkept s
    | true =>
      obtain ⟨rfl, htop⟩ := Bool.and_eq_true_iff.mp hstart
      cases hfound : find s (c :: rest) with
      | none =>
        simp only [cutWords, htop, Bool.and_self, ↓reduceIte, hfound]
        exact hkept s
      | some found =>
        obtain ⟨t, key?, length⟩ := found
        cases key? with
        | none =>
          rw [cutWords_keep htop hfound]
          exact hkept t
        | some key =>
          obtain ⟨word, after, hsplit, hne, rfl, hordinary⟩ := hfind _ _ _ _ _ hfound
          obtain rfl : n = outside 0 := beq_iff_eq.mp (Bool.and_eq_true_iff.mp htop).1
          have hshorter : after.length < (c :: rest).length := by
            have hpositive := List.length_pos_of_ne_nil hne
            rw [hsplit, List.length_append]
            omega
          have hword := run?_of_ordinary hordinary 0
          rw [hsplit, run?_append, hword] at h
          obtain ⟨d, w, rfl⟩ := List.exists_cons_of_ne_nil hne
          obtain rfl : c = d := (List.cons.inj hsplit).1
          rw [hsplit] at hfound ⊢
          have hafter := balanced_cutWords hfind (startBehind true (c :: w)) t h
          rw [cutWords_cut htop hfound, behind_of_run? hword]
          refine ⟨rfl, List.forall_mem_cons.mpr ⟨?_, hafter.2⟩⟩
          exact balanced_iff.mpr hafter.1
termination_by cs.length

end Nesting

namespace Outline

theorem findsOrdinary_findKeyword : FindsOrdinary findKeyword := by
  intro seen cs seen' key length h
  obtain ⟨⟨clause, length'⟩, hkeyword, hfound⟩ := Option.map_eq_some_iff.mp h
  obtain ⟨keyword, rest, rfl, hword, -, rfl⟩ := keyword?_eq_some_iff.mp hkeyword
  obtain ⟨c, tail, rfl, -⟩ := hword.head
  dsimp only at hfound
  split at hfound
  · cases hfound
  · cases hfound
    exact ⟨_, rest, rfl, List.cons_ne_nil c tail, rfl, hword.isOrdinary⟩

theorem check_body (query : String) :
    check (outside 0) (body query) = check (outside 0) query.toList := by
  obtain ⟨front, gap, stops, back, hquery, -, hfront, hgap, hstops, hback⟩ := exists_body query
  have htail : ∀ c ∈ gap ++ (stops ++ back), isOrdinary c = true := by
    intro c hc
    rcases List.mem_append.mp hc with hc | hc
    · exact isOrdinary_of_isBlank (hgap c hc)
    rcases List.mem_append.mp hc with hc | hc
    · rw [hstops c hc]
      rfl
    · exact isOrdinary_of_isBlank (hback c hc)
  have hstart : ∀ c ∈ front, isOrdinary c = true := fun c hc => isOrdinary_of_isBlank (hfront c hc)
  rw [hquery, check_ordinary_append (isProper_outside 0) hstart,
    check_append_ordinary (isProper_outside 0) htail]

theorem balanced_body {query : String} (h : Nesting.Balanced query.toList) :
    Nesting.Balanced (body query) := (check_body query).trans h

/-- A query that is not balanced is refused for it, whatever else is wrong with it. -/
theorem ofQuery_of_unbalanced {query : String} {i : Imbalance}
    (h : check (outside 0) query.toList = .error i) : ofQuery query = .error (i.fault .query) := by
  rw [← check_body] at h
  have hempty : (body query).isEmpty = false := by
    rw [List.isEmpty_eq_false_iff]
    intro hempty
    rw [hempty] at h
    cases h
  unfold ofQuery
  simp only [hempty, requireBalance, h]
  rfl

theorem balanced_of_ofQuery {query : String} {o : Outline} (h : ofQuery query = .ok o) :
    Balanced query.toList := by
  unfold Nesting.Balanced
  cases hcheck : check (outside 0) query.toList with
  | ok u => rfl
  | error i =>
    rw [ofQuery_of_unbalanced hcheck] at h
    cases h

theorem balanced_text {query : String} {o : Outline} (h : ofQuery query = .ok o) (clause : Clause)
    {text : String} (htext : o.text? clause = some text) : Balanced text.toList := by
  have hbody : Balanced (body query) := by
    unfold Nesting.Balanced
    rw [check_body]
    exact balanced_of_ofQuery h
  obtain ⟨select, source, cuts, hcuts, -, -, rfl⟩ := cuts_of_ofQuery h
  obtain ⟨-, hpieces⟩ :=
    balanced_cutWords findsOrdinary_findKeyword true [] (balanced_iff.mp hbody)
  rw [hcuts] at hpieces
  by_cases hquery : clause = .query
  · rw [hquery] at htext
    cases htext
  · rw [text?_of_cuts _ _ _ hquery] at htext
    obtain ⟨cs, hlookup, rfl⟩ := Option.map_eq_some_iff.mp htext
    obtain ⟨before, after, hsplit, -⟩ := List.lookup_eq_some_iff.mp hlookup
    have hcut : (clause, cs) ∈ (Clause.select, select) :: (.source, source) :: cuts := by
      simp [hsplit]
    rw [String.toList_ofList, balanced_trim]
    exact hpieces _ hcut

end Outline

namespace Filter

theorem findsOrdinary_findConnective : FindsOrdinary findConnective := by
  intro waiting cs waiting' key length h
  obtain ⟨⟨connective, length'⟩, hword, hfound⟩ := Option.map_eq_some_iff.mp h
  obtain ⟨word, rest, rfl, hne, rfl, hname⟩ := exists_of_connective? hword
  have hordinary : ∀ c ∈ word, isOrdinary c = true :=
    fun c hc => isOrdinary_of_isNameChar (hname c hc)
  have hlength : length = word.length := by
    dsimp only at hfound
    split at hfound
    · cases hfound
    · split at hfound
      · cases hfound
      · cases hfound
        rfl
    · cases hfound
      rfl
  exact ⟨word, rest, rfl, hne, hlength.symm, hordinary⟩

theorem balanced_pieces {cs : List Char} (h : Nesting.Balanced cs) :
    Nesting.Balanced (trim (pieces cs).1) ∧ ∀ entry ∈ trimmed (pieces cs).2,
      Nesting.Balanced entry.2 := by
  obtain ⟨hfirst, hrest⟩ :=
    balanced_cutWords findsOrdinary_findConnective true false (balanced_iff.mp h)
  constructor
  · exact balanced_trim.mpr (balanced_iff.mpr hfirst)
  · unfold trimmed
    rw [List.forall_mem_map]
    exact fun entry hentry => balanced_trim.mpr (hrest entry hentry)

end Filter

open Fault

section
variable {cs : List Char} (h : Nesting.Balanced cs)
include h

theorem splitCommas_of_balanced (clause : Clause) :
    splitCommas clause cs = .ok ((commaParts (.outside 0) cs).map trim) := by
  rw [splitCommas, requireBalance_of_balanced h]
  rfl

theorem ofItem_splitCommas (clause : Clause) : OfItem (splitCommas clause cs) := by
  rw [splitCommas_of_balanced h]
  exact .ok _

/-- Without the word DISTINCT in front of it a balanced text is still balanced. -/
theorem Selection.balanced_afterDistinct :
    Nesting.Balanced ((afterDistinct? (trim cs)).getD (trim cs)) := by
  cases hafter : afterDistinct? (trim cs) with
  | none => exact balanced_trim.mpr h
  | some text =>
    unfold afterDistinct? at hafter
    split at hafter
    · next rest hword =>
      obtain ⟨word, hsplit, hletters⟩ := word?_eq_some_iff.mp hword
      have hordinary : ∀ c ∈ word, isOrdinary c = true := by
        let spelling : Spelling "DISTINCT" := ⟨word, hletters⟩
        exact fun c hc => isOrdinary_of_isPathChar (spelling.isPathChar (by decide) hc)
      have hrest : Nesting.Balanced rest := by
        unfold Nesting.Balanced
        rw [← check_ordinary_append (isProper_outside 0) hordinary, ← hsplit]
        exact balanced_trim.mpr h
      split at hafter
      · cases Option.some.inj hafter
        exact balanced_trim.mpr hrest
      · cases hafter
    · cases hafter

theorem Selection.ofItem_read : OfItem (read cs) :=
  Selection.refuses_read (fun _ => id) (ofItem_splitCommas (Selection.balanced_afterDistinct h) _)

theorem Query.ofItem_readGroup : OfItem (readGroup cs) :=
  Query.refuses_readGroup (fun _ => id) (ofItem_splitCommas (balanced_trim.mpr h) _)

theorem SortKey.ofItem_readList : OfItem (readList cs) :=
  SortKey.refuses_readList (fun _ => id) (ofItem_splitCommas (balanced_trim.mpr h) _)

end

namespace Statement

/-- A balanced query is refused for an item of a clause, or for something in its filter. -/
theorem refuses_read_of_balanced {query : String} (h : Nesting.Balanced query.toList) :
    Refuses (fun fault => fault.isOfItem = true ∨ fault.clause = .filter) (read query) := by
  have hitem (fault : Fault) : fault.isOfItem = true →
      fault.isOfItem = true ∨ fault.clause = .filter := Or.inl
  have hbalance : OfItem (requireBalance .query (Outline.body query)) := by
    rw [requireBalance_of_balanced (Outline.balanced_body h)]
    exact .ok _
  unfold read
  refine (Outline.refuses_ofQuery hitem (hbalance.imp hitem)).bind_of fun o ho => ?_
  have hselect := Selection.ofItem_read (Outline.balanced_text ho .select rfl)
  refine (hselect.imp hitem).bind fun selection => ?_
  refine (refuses_optional fun text _ => ?_).bind fun filter => ?_
  · exact (Filter.ofFilter_read text.toList).imp fun _ hfault => Or.inr hfault.2
  refine (refuses_optional fun text hgroup => ?_).bind fun group => ?_
  · exact (Query.ofItem_readGroup (Outline.balanced_text ho .group hgroup)).imp hitem
  refine (refuses_optional fun text horder => ?_).bind fun order => ?_
  · exact (SortKey.ofItem_readList (Outline.balanced_text ho .order horder)).imp hitem
  refine (refuses_optional fun text _ => ?_).bind fun limit => .ok _
  exact ((Query.ofItem_readLimit _).imp hitem).map some

theorem parse_eq_error_iff {query : String} {fault : Fault} :
    parse query = .error (.fault fault) ↔ read query = .error fault := by
  rw [parse_eq_read]
  cases read query with
  | ok s => simp [Except.mapError]
  | error found => simp [Except.mapError]

theorem read_of_unbalanced {query : String} {i : Imbalance}
    (h : check (outside 0) query.toList = .error i) : read query = .error (i.fault .query) := by
  unfold read
  rw [Outline.ofQuery_of_unbalanced h]
  rfl

/-- The texts of an outline are balanced, and so are the conditions that its filter is split
into. A query is refused for its own quotes and parentheses exactly where they are not balanced,
and never for those of a clause other than the filter. -/
theorem balanced_texts (query : String) :
    (∀ o, Outline.ofQuery query = .ok o →
      (∀ clause text, o.text? clause = some text → Nesting.Balanced text.toList) ∧
      ∀ text, o.filter = some text → ∃ first rest,
        Filter.splitConditions text.toList = .ok (first, rest) ∧ Nesting.Balanced first ∧
          ∀ entry ∈ rest, Nesting.Balanced entry.2) ∧
    (∀ i : Imbalance, parse query = .error (.fault (i.fault .query)) ↔
      check (outside 0) query.toList = .error i) ∧
    ∀ (i : Imbalance) (clause : Clause), parse query = .error (.fault (i.fault clause)) →
      clause = .query ∨ clause = .filter := by
  have hitem (i : Imbalance) (clause : Clause) : (i.fault clause).isOfItem = false := by
    cases i <;> rfl
  refine ⟨fun o ho => ⟨fun clause text htext => Outline.balanced_text ho clause htext, ?_⟩, ?_, ?_⟩
  · intro text htext
    have hfilter := Outline.balanced_text ho .filter htext
    exact ⟨_, _, Filter.splitConditions_of_balanced hfilter, Filter.balanced_pieces hfilter⟩
  · intro i
    rw [parse_eq_error_iff]
    refine ⟨fun hread => ?_, read_of_unbalanced⟩
    cases hcheck : check (outside 0) query.toList with
    | ok u =>
      rcases refuses_read_of_balanced hcheck _ hread with hfault | hfault
      · rw [hitem] at hfault
        cases hfault
      · rw [clause_fault] at hfault
        cases hfault
    | error j =>
      have hsame := Except.error.inj ((read_of_unbalanced hcheck).symm.trans hread)
      cases i <;> cases j <;> first | rfl | cases hsame
  · intro i clause hparse
    have hread := parse_eq_error_iff.mp hparse
    cases hcheck : check (outside 0) query.toList with
    | ok u =>
      rcases refuses_read_of_balanced hcheck _ hread with hfault | hfault
      · rw [hitem] at hfault
        cases hfault
      · rw [clause_fault] at hfault
        exact Or.inr hfault
    | error j =>
      have hclause := congrArg Fault.clause
        (Except.error.inj (hread.symm.trans (read_of_unbalanced hcheck)))
      rw [clause_fault, clause_fault] at hclause
      exact Or.inl hclause

/-- The candidates behind IN end at the last parenthesis, whichever one that closes. -/
example : parse "SELECT a FROM t WHERE a IN (1) = (2)" =
    .error (.fault (.unbalancedParentheses .filter)) := by
  rfl

end Statement
end TableQuery
